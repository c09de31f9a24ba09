import Mathlib.Data.Set.Function
import Mathlib.Order.Interval.Set.Defs
import Wasmalloc.Lib.ByteMem

/- Two memories that agree on a set of addresses.

   `Set.EqOn b c S` relates the memories of two runs. A read inside `S` returns the same
   in both, and a store made in both keeps the agreement and extends it to the range
   stored to, whatever that range held. A copy made in both loses its destination,
   because its source need not agree. -/
namespace ByteMem

variable {b c : Bytes} {S : Set Nat} {a n v : Nat}

theorem readLE_eqOn (h : Set.EqOn b c S) (ha : Set.Ico a (a + n) ⊆ S) :
    readLE c a n = readLE b a n :=
  readLE_congr fun _ hlo hhi => (h (ha ⟨hlo, hhi⟩)).symm

theorem eqOn_writeLE (h : Set.EqOn b c S) :
    Set.EqOn (writeLE b a n v) (writeLE c a n v) (S ∪ Set.Ico a (a + n)) := by
  intro x hx
  unfold writeLE
  split
  · rfl
  · rename_i hout
    exact h (hx.resolve_right hout)

theorem eqOn_fill {v : UInt8} (h : Set.EqOn b c S) :
    Set.EqOn (fill b a n v) (fill c a n v) (S ∪ Set.Ico a (a + n)) := by
  intro x hx
  unfold fill
  split
  · rfl
  · rename_i hout
    exact h (hx.resolve_right hout)

theorem eqOn_copy {src : Nat} (h : Set.EqOn b c S) :
    Set.EqOn (copy b src a n) (copy c src a n) (S \ Set.Ico a (a + n)) := by
  intro x hx
  have hout : ¬ (a ≤ x ∧ x < a + n) := hx.2
  unfold copy
  rw [if_neg hout, if_neg hout]
  exact h hx.1

theorem eqOn_ite {p : Prop} [Decidable p] {b' c' : Bytes} (h : Set.EqOn b c S)
    (h' : Set.EqOn b' c' S) : Set.EqOn (if p then b else b') (if p then c else c') S := by
  split
  · exact h
  · exact h'

end ByteMem
