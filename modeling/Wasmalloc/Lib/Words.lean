import Mathlib.Data.Nat.Bitwise
import Mathlib.Data.List.Basic

/- 64-bit words as sets of bit positions.

   Bit `i` of a word is `getLsbD i`. Equality, inclusion and disjointness of words
   are read off their bits, `trailingZeros` and `leadingZeros` find the lowest and
   the highest set bit, and `x &&& (x - 1)` drops the lowest. -/
namespace Words

abbrev U64 := BitVec 64

/-- The number of zero bits below the lowest set bit, 64 for the zero word. -/
def trailingZeros (x : U64) : Nat := ((List.range 64).find? fun i => x.getLsbD i).getD 64

/-- The number of zero bits above the highest set bit, 64 for the zero word. -/
def leadingZeros (x : U64) : Nat := ((List.range 64).find? fun i => x.getLsbD (63 - i)).getD 64

/-- The number of set bits. -/
def countOnes (x : U64) : Nat := (List.range 64).countP x.getLsbD

theorem eq_zero_iff {x : U64} : x = 0 ↔ ∀ i < 64, x.getLsbD i = false := by
  constructor
  · rintro rfl i _
    simp
  · intro h
    apply BitVec.eq_of_getLsbD_eq
    intro i hi
    rw [h i hi]
    simp

theorem exists_bit {x : U64} (h : x ≠ 0) : ∃ i < 64, x.getLsbD i = true := by
  by_contra hn
  apply h
  rw [eq_zero_iff]
  intro i hi
  rw [← Bool.not_eq_true]
  exact fun hx => hn ⟨i, hi, hx⟩

theorem ne_zero_of_bit {x : U64} {i : Nat} (h : x.getLsbD i = true) : x ≠ 0 := by
  rintro rfl
  simp at h

theorem shift_and_one (x : U64) (i : Nat) : ((x >>> i) &&& 1 == 1) = x.getLsbD i := by
  have hbits : ∀ j, ((x >>> i) &&& 1).getLsbD j = (decide (j = 0) && x.getLsbD i) := by
    intro j
    rw [BitVec.getLsbD_and, BitVec.getLsbD_ushiftRight]
    by_cases hj : j = 0
    · subst hj
      simp
    · simp [hj]
  cases hb : x.getLsbD i with
  | true =>
    rw [beq_iff_eq]
    apply BitVec.eq_of_getLsbD_eq
    intro j hj
    rw [hbits, hb]
    by_cases h0 : j = 0 <;> simp [h0]
  | false =>
    rw [beq_eq_false_iff_ne]
    intro heq
    have hzero := hbits 0
    rw [heq, hb] at hzero
    simp at hzero

theorem eq_allOnes_iff {x : U64} : x = BitVec.allOnes 64 ↔ ∀ i < 64, x.getLsbD i = true := by
  constructor
  · rintro rfl i hi
    rw [BitVec.getLsbD_allOnes]
    exact decide_eq_true hi
  · intro h
    apply BitVec.eq_of_getLsbD_eq
    intro i hi
    rw [h i hi, BitVec.getLsbD_allOnes]
    exact (decide_eq_true hi).symm

theorem and_eq_iff {x m : U64} : x &&& m = m ↔ ∀ i, m.getLsbD i = true → x.getLsbD i = true := by
  constructor
  · intro h i hi
    have hbit := congrArg (fun w => BitVec.getLsbD w i) h
    simpa [BitVec.getLsbD_and, hi] using hbit
  · intro h
    apply BitVec.eq_of_getLsbD_eq
    intro i _
    rw [BitVec.getLsbD_and]
    cases hm : m.getLsbD i with
    | false => simp
    | true => simp [h i hm]

theorem and_eq_zero_iff {x m : U64} :
    x &&& m = 0 ↔ ∀ i, m.getLsbD i = true → x.getLsbD i = false := by
  rw [eq_zero_iff]
  constructor
  · intro h i hi
    have hlt : i < 64 := BitVec.lt_of_getLsbD hi
    simpa [BitVec.getLsbD_and, hi] using h i hlt
  · intro h i _
    rw [BitVec.getLsbD_and]
    cases hm : m.getLsbD i with
    | false => simp
    | true => simp [h i hm]

/-! ## Lowest and highest set bit -/

theorem find?_range_some {n i : Nat} {p : Nat → Bool} (h : (List.range n).find? p = some i) :
    i < n ∧ p i = true ∧ ∀ j < i, p j = false := by
  rw [List.find?_range_eq_some] at h
  obtain ⟨hp, hmem, hlt⟩ := h
  exact ⟨List.mem_range.mp hmem, hp, fun j hj => by simpa using hlt j hj⟩

theorem find?_range_isSome {n i : Nat} {p : Nat → Bool} (hi : i < n) (hp : p i = true) :
    ∃ j, (List.range n).find? p = some j := by
  rw [← Option.isSome_iff_exists, List.find?_isSome]
  exact ⟨i, List.mem_range.mpr hi, hp⟩

theorem trailingZeros_spec {x : U64} (h : x ≠ 0) :
    trailingZeros x < 64 ∧ x.getLsbD (trailingZeros x) = true ∧
      ∀ j < trailingZeros x, x.getLsbD j = false := by
  obtain ⟨i, hi, hx⟩ := exists_bit h
  obtain ⟨j, hj⟩ := find?_range_isSome (p := fun i => x.getLsbD i) hi hx
  unfold trailingZeros
  rw [hj, Option.getD_some]
  exact find?_range_some hj

theorem leadingZeros_spec {x : U64} (h : x ≠ 0) :
    leadingZeros x < 64 ∧ x.getLsbD (63 - leadingZeros x) = true ∧
      ∀ j < 64, 63 - leadingZeros x < j → x.getLsbD j = false := by
  obtain ⟨i, hi, hx⟩ := exists_bit h
  have hx' : x.getLsbD (63 - (63 - i)) = true := by rwa [show 63 - (63 - i) = i by omega]
  obtain ⟨k, hk⟩ := find?_range_isSome (p := fun i => x.getLsbD (63 - i)) (n := 64) (by omega) hx'
  unfold leadingZeros
  rw [hk, Option.getD_some]
  obtain ⟨hlt, hbit, hlow⟩ := find?_range_some hk
  refine ⟨hlt, hbit, ?_⟩
  intro j hj hkj
  have := hlow (63 - j) (by omega)
  rwa [show 63 - (63 - j) = j by omega] at this

/-- `x &&& (x - 1)` is `x` without its lowest set bit. -/
theorem getLsbD_clear_lowest {x : U64} (h : x ≠ 0) (i : Nat) :
    (x &&& (x - 1)).getLsbD i = (x.getLsbD i && decide (i ≠ trailingZeros x)) := by
  obtain ⟨hk, hbit, hlow⟩ := trailingZeros_spec h
  generalize trailingZeros x = k at hk hbit hlow ⊢
  -- `x = 2^k (2m + 1)`, so `x - 1 = 2^k (2m) + (2^k - 1)`.
  have hdvd : x.toNat % 2 ^ k = 0 := by
    apply Nat.eq_of_testBit_eq
    intro j
    rw [Nat.testBit_mod_two_pow, Nat.zero_testBit]
    by_cases hj : j < k
    · have := hlow j hj
      rw [BitVec.getLsbD] at this
      simp [this]
    · simp [hj]
  have hodd : x.toNat / 2 ^ k % 2 = 1 := by
    rw [BitVec.getLsbD, Nat.testBit, Nat.shiftRight_eq_div_pow] at hbit
    simpa [Nat.and_comm, Nat.and_one_is_mod] using hbit
  have hx : x.toNat = 2 ^ k * (2 * (x.toNat / 2 ^ k / 2) + 1) := by
    have h1 := Nat.div_add_mod x.toNat (2 ^ k)
    have h2 := Nat.div_add_mod (x.toNat / 2 ^ k) 2
    rw [hodd] at h2
    rw [hdvd] at h1
    rw [h2]
    exact h1.symm
  generalize x.toNat / 2 ^ k / 2 = m at hx
  have hpos : 0 < 2 ^ k := Nat.two_pow_pos k
  have hpred : (x - 1).toNat = 2 ^ k * (2 * m) + (2 ^ k - 1) := by
    have hle : (1 : U64).toNat ≤ x.toNat := by
      have hxpos : 0 < x.toNat := by
        rw [hx]
        exact Nat.mul_pos hpos (by omega)
      exact hxpos
    have hone : (1 : U64).toNat = 1 := rfl
    rw [BitVec.toNat_sub_of_le (BitVec.le_def.mpr hle), hx, hone, Nat.mul_add]
    omega
  rw [BitVec.getLsbD_and]
  by_cases hi : i < k
  · rw [hlow i hi]
    rfl
  · have hbitx : x.getLsbD i = (2 * m + 1).testBit (i - k) := by
      rw [BitVec.getLsbD, hx, Nat.testBit_two_pow_mul]
      simp [show k ≤ i by omega]
    have hbitp : (x - 1).getLsbD i = (2 * m).testBit (i - k) := by
      rw [BitVec.getLsbD, hpred, Nat.testBit_two_pow_mul_add _ (by omega), if_neg hi]
    rw [hbitx, hbitp]
    by_cases hik : i = k
    · subst hik
      simp
    · obtain ⟨d, hd⟩ : ∃ d, i - k = d + 1 := ⟨i - k - 1, by omega⟩
      rw [hd, Nat.testBit_succ, Nat.testBit_succ]
      have h1 : (2 * m + 1) / 2 = m := by omega
      have h2 : 2 * m / 2 = m := by omega
      simp [h1, h2, hik]

/-! ## Bitmaps -/

/-- Bit `i` of a bitmap of 64-bit words. -/
def bitAt (bits : Nat → U64) (i : Nat) : Bool := (bits (i / 64)).getLsbD (i % 64)

theorem bitAt_update {bits : Nat → U64} {w : Nat} {x : U64} {i : Nat} :
    bitAt (Function.update bits w x) i = if i / 64 = w then x.getLsbD (i % 64) else bitAt bits i := by
  unfold bitAt
  by_cases h : i / 64 = w <;> simp [Function.update, h]

theorem sum_countOnes (bits : Nat → U64) (n : Nat) :
    ((List.range n).map fun w => countOnes (bits w)).sum =
      (List.range (n * 64)).countP (bitAt bits) := by
  induction n with
  | zero => rfl
  | succ n ih =>
    have hword : countOnes (bits n) =
        ((List.range 64).map fun i => n * 64 + i).countP (bitAt bits) := by
      unfold countOnes
      rw [List.countP_map]
      refine List.countP_congr fun i hi => ?_
      have hlt := List.mem_range.mp hi
      have hdiv : (n * 64 + i) / 64 = n := by omega
      have hmod : (n * 64 + i) % 64 = i := by omega
      simp [bitAt, hdiv, hmod]
    rw [List.range_succ, List.map_append, List.sum_append, ih, Nat.add_mul, Nat.one_mul,
      List.range_add, List.countP_append, ← hword]
    simp

end Words
