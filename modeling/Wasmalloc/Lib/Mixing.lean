import Mathlib.Data.Fintype.EquivFin
import Mathlib.Data.Nat.ModEq
import Mathlib.Data.Nat.Prime.Basic
import Mathlib.Data.UInt
import Mathlib.Tactic.Common

/- Mixing functions of machine words.

   The two steps that mixers of words are made of keep every word apart: `x ^ (x >> k)`
   for a shift by at least one, and `x * m` for an odd `m`, both modulo a power of two.
   A function of a finite type that keeps its arguments apart is a bijection. -/
namespace Mixing

variable {w k : Nat}

theorem eq_zero_of_shift {d : BitVec w} (hk : 0 < k) (h : d >>> k = d) : d = 0#w := by
  have hdiv : d.toNat / 2 ^ k = d.toNat := by
    rw [← Nat.shiftRight_eq_div_pow, ← BitVec.toNat_ushiftRight, h]
  apply BitVec.eq_of_toNat_eq
  rw [BitVec.toNat_ofNat, Nat.zero_mod]
  by_contra hne
  have hlt : d.toNat / 2 ^ k < d.toNat :=
    Nat.div_lt_self (Nat.pos_of_ne_zero hne) (Nat.one_lt_two_pow hk.ne')
  omega

theorem xor_xor_cancel (x y : BitVec w) : x ^^^ y ^^^ y = x := by
  rw [BitVec.xor_assoc, BitVec.xor_self, BitVec.xor_zero]

theorem xorShift_injective (hk : 0 < k) : Function.Injective fun x : BitVec w => x ^^^ x >>> k := by
  intro x y h
  dsimp only at h
  -- The difference of the two words is its own shift.
  have hshift : (x ^^^ y) >>> k = x ^^^ y := by
    calc (x ^^^ y) >>> k = x >>> k ^^^ y >>> k := BitVec.ushiftRight_xor_distrib x y k
      _ = x >>> k ^^^ x ^^^ x ^^^ y >>> k := by rw [xor_xor_cancel]
      _ = (x ^^^ x >>> k) ^^^ x ^^^ y >>> k := by rw [BitVec.xor_comm (x >>> k) x]
      _ = (y ^^^ y >>> k) ^^^ x ^^^ y >>> k := by rw [h]
      _ = x ^^^ y ^^^ y >>> k ^^^ y >>> k := by rw [BitVec.xor_comm _ x, ← BitVec.xor_assoc]
      _ = x ^^^ y := xor_xor_cancel _ _
  have hzero := eq_zero_of_shift hk hshift
  calc x = x ^^^ y ^^^ y := (xor_xor_cancel x y).symm
    _ = y := by rw [hzero, BitVec.zero_xor]

theorem mulOdd_injective {m : BitVec w} (hm : m.toNat % 2 = 1) :
    Function.Injective fun x : BitVec w => x * m := by
  intro x y h
  have hcop : Nat.gcd (2 ^ w) m.toNat = 1 :=
    Nat.Coprime.pow_left w (Nat.coprime_two_left.mpr (Nat.odd_iff.mpr hm))
  have hmul : x.toNat * m.toNat ≡ y.toNat * m.toNat [MOD 2 ^ w] := by
    unfold Nat.ModEq
    rw [← BitVec.toNat_mul, ← BitVec.toNat_mul]
    exact congrArg BitVec.toNat h
  have hmod : x.toNat ≡ y.toNat [MOD 2 ^ w] := Nat.ModEq.cancel_right_of_coprime hcop hmul
  apply BitVec.eq_of_toNat_eq
  exact hmod.eq_of_lt_of_lt x.isLt y.isLt

/-! ## 64-bit words -/

theorem toBitVec_injective : Function.Injective UInt64.toBitVec := fun _ _ => UInt64.eq_of_toBitVec_eq

theorem xorShift64_injective {k : UInt64} (hk : 0 < k.toNat % 64) :
    Function.Injective fun z : UInt64 => z ^^^ z >>> k := by
  intro x y h
  have hbits := congrArg UInt64.toBitVec h
  simp only [UInt64.toBitVec_xor, UInt64.toBitVec_shiftRight] at hbits
  exact toBitVec_injective (xorShift_injective hk hbits)

theorem mulOdd64_injective {m : UInt64} (hm : m.toNat % 2 = 1) :
    Function.Injective fun z : UInt64 => z * m := by
  intro x y h
  have hbits := congrArg UInt64.toBitVec h
  simp only [UInt64.toBitVec_mul] at hbits
  exact toBitVec_injective (mulOdd_injective hm hbits)

theorem bijective64 {f : UInt64 → UInt64} (h : Function.Injective f) : Function.Bijective f := by
  have hfin : Finite UInt64 := Finite.of_injective (fun z => z.toBitVec.toFin) fun x y hxy =>
    toBitVec_injective (BitVec.eq_of_toFin_eq hxy)
  exact Finite.injective_iff_bijective.mp h

end Mixing
