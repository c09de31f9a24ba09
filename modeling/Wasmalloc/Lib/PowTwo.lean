import Mathlib.Data.Nat.Bitwise
import Mathlib.Tactic.Ring

/- Masks and roundings by a power of two.

   In an `n`-bit word a mask `2^k - 1` takes the remainder by `2^k`, and its
   complement `2^n - 2^k` takes the multiple of `2^k` below. `roundUp` is the
   multiple above. -/
namespace PowTwo

/-- Masking with the complement of `2^k - 1` rounds down to a multiple of `2^k`. -/
theorem land_high {x k n : Nat} (hx : x < 2 ^ n) (hk : k ≤ n) :
    x &&& (2 ^ n - 2 ^ k) = x / 2 ^ k * 2 ^ k := by
  have hsplit : 2 ^ n - 2 ^ k = 2 ^ k * (2 ^ (n - k) - 1) := by
    rw [Nat.mul_sub, ← Nat.pow_add, Nat.add_sub_cancel' hk, Nat.mul_one]
  rw [hsplit, Nat.mul_comm (x / 2 ^ k)]
  apply Nat.eq_of_testBit_eq
  intro j
  rw [Nat.testBit_and, Nat.testBit_two_pow_mul, Nat.testBit_two_pow_mul, Nat.testBit_div_two_pow,
    Nat.testBit_two_pow_sub_one]
  by_cases hj : k ≤ j
  · rw [Nat.sub_add_cancel hj]
    by_cases hjn : j < n
    · have hlt : j - k < n - k := by omega
      simp [hj, hlt]
    · have hzero : x.testBit j = false := by
        apply Nat.testBit_eq_false_of_lt
        exact lt_of_lt_of_le hx (Nat.pow_le_pow_right (by decide) (by omega))
      simp [hzero]
  · simp [hj]

/-- The least multiple of `a` that is at least `x`. -/
def roundUp (x a : Nat) : Nat := (x + a - 1) / a * a

theorem dvd_roundUp (x a : Nat) : a ∣ roundUp x a := Dvd.intro_left _ rfl

theorem le_roundUp {x a : Nat} (ha : 0 < a) : x ≤ roundUp x a := by
  have hdiv := Nat.div_add_mod (x + a - 1) a
  have hmod := Nat.mod_lt (x + a - 1) ha
  rw [Nat.mul_comm] at hdiv
  unfold roundUp
  omega

theorem roundUp_lt {x a : Nat} (ha : 0 < a) : roundUp x a < x + a := by
  have hle := Nat.div_mul_le_self (x + a - 1) a
  unfold roundUp
  omega

theorem roundUp_le {x a m : Nat} (ha : 0 < a) (hm : a ∣ m) : roundUp x a ≤ m ↔ x ≤ m := by
  constructor
  · exact le_trans (le_roundUp ha)
  · intro h
    obtain ⟨q, rfl⟩ := hm
    obtain ⟨r, hr⟩ := dvd_roundUp x a
    have hlt := roundUp_lt (x := x) ha
    rw [hr] at hlt ⊢
    have hlt' : a * r < a * (q + 1) := by rw [Nat.mul_add]; omega
    have hrq : r < q + 1 := Nat.lt_of_mul_lt_mul_left hlt'
    exact Nat.mul_le_mul_left a (Nat.le_of_lt_succ hrq)

/-- The distance from `x` up to the next multiple of `2^k`, as a mask of the negation. -/
theorem neg_land {x k n : Nat} (hk : k ≤ n) :
    (2 ^ n - x % 2 ^ n) % 2 ^ n &&& (2 ^ k - 1) = roundUp x (2 ^ k) - x := by
  have hpos : 0 < 2 ^ k := Nat.two_pow_pos k
  have hdvd : 2 ^ k ∣ 2 ^ n := Nat.pow_dvd_pow 2 hk
  rw [Nat.and_two_pow_sub_one_eq_mod, Nat.mod_mod_of_dvd _ hdvd]
  obtain ⟨c, hc⟩ := hdvd
  have hup := le_roundUp (x := x) hpos
  have hlt := roundUp_lt (x := x) hpos
  obtain ⟨r, hr⟩ := dvd_roundUp x (2 ^ k)
  have hxn := Nat.mod_lt x (Nat.two_pow_pos n)
  have hx := Nat.div_add_mod x (2 ^ n)
  -- Both sides are below `2^k` and add up with `x` to a multiple of it.
  have hsum : 2 ^ n - x % 2 ^ n = (roundUp x (2 ^ k) - x) + 2 ^ k * (c * (x / 2 ^ n + 1) - r) := by
    have hmul : 2 ^ k * (c * (x / 2 ^ n + 1)) = 2 ^ n * (x / 2 ^ n) + 2 ^ n := by
      rw [← Nat.mul_assoc, ← hc]
      ring
    have hrle : 2 ^ k * r ≤ 2 ^ k * (c * (x / 2 ^ n + 1)) := by
      rw [← hr, hmul]
      have : 2 ^ k ∣ 2 ^ n * (x / 2 ^ n) + 2 ^ n := by rw [← hmul]; exact Nat.dvd_mul_right _ _
      exact (roundUp_le hpos this).mpr (by omega)
    rw [Nat.mul_sub, hmul]
    rw [hmul] at hrle
    omega
  rw [hsum, Nat.add_mul_mod_self_left, Nat.mod_eq_of_lt (by omega)]

end PowTwo
