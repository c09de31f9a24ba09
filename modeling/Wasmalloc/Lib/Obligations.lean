/- What a program checks while it runs.

   A program that computes a value passes conditions on the way: assertions of a debug
   build, tests that a release build keeps although their outcome is known, and the
   ranges in which its machine arithmetic is exact. A predicate beside each function
   states the conditions its calls pass, as a conjunction in which each condition is
   marked with its kind. Asked for one kind, the predicate is the conjunction of the
   conditions of that kind; so one proof that all conditions hold serves every kind.

   `Along` states a condition of every step of a fold; `Along.of_invariant` proves it. -/
namespace Obligations

/-- The kinds of conditions. -/
inductive Check where
  /-- an assertion of a debug build -/
  | assertion
  /-- a test whose outcome is known, or a replacement that never replaces anything -/
  | guard
  /-- a result in the range of its machine word -/
  | arithmetic
  deriving DecidableEq, Repr

variable {σ α : Type}

def asserts (k : Check) (p : Prop) : Prop := k = .assertion → p
def guards (k : Check) (p : Prop) : Prop := k = .guard → p
def computes (k : Check) (p : Prop) : Prop := k = .arithmetic → p

theorem asserts_of {k : Check} {p : Prop} (h : p) : asserts k p := fun _ => h
theorem guards_of {k : Check} {p : Prop} (h : p) : guards k p := fun _ => h
theorem computes_of {k : Check} {p : Prop} (h : p) : computes k p := fun _ => h

/-- A condition of every step of a left fold. -/
def Along (check : σ → α → Prop) (step : σ → α → σ) : List α → σ → Prop
  | [], _ => True
  | a :: l, s => check s a ∧ Along check step l (step s a)

theorem Along.of_invariant {check : σ → α → Prop} {step : σ → α → σ} (good : σ → Prop) (l : List α)
    (hstep : ∀ s, good s → ∀ a ∈ l, check s a ∧ good (step s a)) :
    ∀ {s : σ}, good s → Along check step l s := by
  induction l with
  | nil => exact fun _ => trivial
  | cons a l ih =>
    intro s hs
    obtain ⟨hcheck, hnext⟩ := hstep s hs a List.mem_cons_self
    exact ⟨hcheck, ih (fun s hs b hb => hstep s hs b (List.mem_cons_of_mem _ hb)) hnext⟩

end Obligations
