/- Iterators.

   An iterator is a state and a `next` that gives an item and the state after it, or none.
   `Yields` is a whole iteration: the items in order, and then none. It says that the
   iteration ends, and it has one outcome. -/
namespace Iter

variable {σ α : Type} {next : σ → Option (α × σ)} {s : σ}

inductive Yields (next : σ → Option (α × σ)) : σ → List α → Prop
  | done {s : σ} (h : next s = none) : Yields next s []
  | item {s s' : σ} {a : α} {l : List α} (h : next s = some (a, s')) (rest : Yields next s' l) :
      Yields next s (a :: l)

theorem Yields.unique {l l' : List α} (h : Yields next s l) (h' : Yields next s l') : l = l' := by
  induction h generalizing l' with
  | done hn =>
    cases h' with
    | done => rfl
    | item hn' => rw [hn] at hn'; cases hn'
  | item hn rest ih =>
    cases h' with
    | done hn' => rw [hn] at hn'; cases hn'
    | item hn' rest' =>
      rw [hn] at hn'
      cases hn'
      rw [ih rest']

end Iter
