/- Checks in sequence.

   A check returns nothing or the error it stops with; a run of checks stops at the
   first that fails. `bind_ok` and `refuse_ok` turn "every check passed" into the
   conjunction of what was checked. -/
namespace Checks

variable {ε α β : Type}

/-- Stop with `error` when the condition holds. -/
def refuse (c : Prop) [Decidable c] (error : ε) : Except ε Unit :=
  if c then .error error else .ok ()

/-- The value of an option, or an error. -/
def okOr (o : Option α) (error : ε) : Except ε α :=
  match o with
  | some a => .ok a
  | none => .error error

theorem refuse_ok {c : Prop} [Decidable c] {error : ε} {u : Unit} :
    refuse c error = .ok u ↔ ¬ c := by
  unfold refuse
  by_cases h : c <;> simp [h]

theorem okOr_ok {o : Option α} {error : ε} {a : α} : okOr o error = .ok a ↔ o = some a := by
  cases o <;> simp [okOr]

theorem bind_ok {x : Except ε α} {f : α → Except ε β} {b : β} :
    (x >>= f) = .ok b ↔ ∃ a, x = .ok a ∧ f a = .ok b := by
  cases x with
  | error e => simp [bind, Except.bind]
  | ok a => simp [bind, Except.bind]

/-- `check` on the next `left` indices from `i` on. -/
def each (check : Nat → Except ε Unit) : Nat → Nat → Except ε Unit
  | 0, _ => .ok ()
  | left + 1, i => do
    check i
    each check left (i + 1)

theorem each_ok {check : Nat → Except ε Unit} {left i : Nat} {u : Unit} :
    each check left i = .ok u ↔ ∀ k < left, check (i + k) = .ok () := by
  induction left generalizing i with
  | zero => simp [each]
  | succ left ih =>
    unfold each
    simp only [bind_ok, ih]
    constructor
    · rintro ⟨_, hfirst, hrest⟩ k hk
      cases k with
      | zero => exact hfirst
      | succ k =>
        have hk' := hrest k (by omega)
        rwa [Nat.add_right_comm] at hk'
    · intro hall
      refine ⟨(), hall 0 (by omega), fun k hk => ?_⟩
      have hk' := hall (k + 1) (by omega)
      rwa [Nat.add_right_comm]

end Checks
