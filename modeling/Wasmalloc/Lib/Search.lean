import Mathlib.Tactic.ByContra
import Mathlib.Data.List.Basic

/- Searches for the least number with a property.

   `Least P r` says that a search reported the least number that satisfies `P`, or
   that there is none. Such a search can be carried out block by block, in order
   (`least_findSome?`). -/
namespace Search

/-- `some n` is the least number satisfying `P`; `none` says that no number does. -/
def Least (P : Nat → Prop) : Option Nat → Prop
  | some n => P n ∧ ∀ k < n, ¬ P k
  | none => ∀ k, ¬ P k

variable {P Q : Nat → Prop}

theorem Least.congr {r : Option Nat} (h : Least P r) (hPQ : ∀ n, P n ↔ Q n) : Least Q r := by
  have heq : P = Q := funext fun n => propext (hPQ n)
  rwa [← heq]

theorem Least.unique {r s : Option Nat} (hr : Least P r) (hs : Least P s) : r = s := by
  cases r with
  | none =>
    cases s with
    | none => rfl
    | some n => exact absurd hs.1 (hr n)
  | some m =>
    cases s with
    | none => exact absurd hr.1 (hs m)
    | some n =>
      have hmn : ¬ m < n := fun h => hs.2 m h hr.1
      have hnm : ¬ n < m := fun h => hr.2 n h hs.1
      rw [show m = n by omega]

/-- Scanning the blocks of `size` numbers from block `lo` on finds the least number,
    when each block's own search does and no number lies in another block. -/
theorem least_findSome? (size : Nat) {f : Nat → Option Nat} (n : Nat) : ∀ lo,
    (∀ k, P k → lo ≤ k / size ∧ k / size < lo + n) →
    (∀ w, lo ≤ w → w < lo + n → Least (fun k => k / size = w ∧ P k) (f w)) →
    Least P ((List.range' lo n).findSome? f) := by
  induction n with
  | zero =>
    intro lo hin _ k hk
    have := hin k hk
    omega
  | succ n ih =>
    intro lo hin hf
    have hlo := hf lo (Nat.le_refl lo) (by omega)
    rw [List.range'_succ, List.findSome?_cons]
    cases hflo : f lo with
    | some m =>
      rw [hflo] at hlo
      obtain ⟨⟨hm, hPm⟩, hleast⟩ := hlo
      refine ⟨hPm, ?_⟩
      intro k hk hPk
      have hdiv : k / size ≤ m / size := Nat.div_le_div_right (Nat.le_of_lt hk)
      have hge := (hin k hPk).1
      exact hleast k hk ⟨by omega, hPk⟩
    | none =>
      rw [hflo] at hlo
      apply ih (lo + 1)
      · intro k hk
        have hne : k / size ≠ lo := fun h => hlo k ⟨h, hk⟩
        have := hin k hk
        omega
      · intro w hw hw'
        exact hf w (by omega) (by omega)

end Search
