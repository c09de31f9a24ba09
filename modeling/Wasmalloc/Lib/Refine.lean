import Mathlib.Data.Set.Basic

/- Refinement of systems by what they show.

   A machine has initial states and a step relation with labels, and a label is what an
   observer sees of a step. The traces of a machine are the lists of labels of its runs.
   A machine refines another when it shows nothing the other could not show; a relation
   between their states that every step keeps is enough for that (`Simulation.traces`). -/
namespace Refine

structure Machine (σ α : Type) where
  init : σ → Prop
  step : σ → α → σ → Prop

variable {σ τ α : Type} {S : Machine σ α} {C : Machine σ α} {A : Machine τ α}

/-- A run from one state to another, by the labels it shows. -/
inductive Path (S : Machine σ α) : σ → List α → σ → Prop where
  | nil (s : σ) : Path S s [] s
  | cons {s m s' : σ} {a : α} {l : List α} : S.step s a m → Path S m l s' → Path S s (a :: l) s'

/-- The finite traces of a machine. -/
def Machine.traces (S : Machine σ α) : Set (List α) := {l | ∃ s s', S.init s ∧ Path S s l s'}

theorem Path.single {s s' : σ} {a : α} (h : S.step s a s') : Path S s [a] s' := .cons h (.nil s')

theorem Path.append {s m s' : σ} {l k : List α} (h : Path S s l m) (h' : Path S m k s') :
    Path S s (l ++ k) s' := by
  induction h with
  | nil => exact h'
  | cons hstep _ ih => exact .cons hstep (ih h')

theorem Path.split {l k : List α} : ∀ {s s' : σ}, Path S s (l ++ k) s' → ∃ m, Path S s l m ∧ Path S m k s' := by
  induction l with
  | nil => exact fun h => ⟨_, .nil _, h⟩
  | cons a l ih =>
    intro s s' h
    cases h with
    | cons hstep hrest =>
      obtain ⟨m, hl, hk⟩ := ih hrest
      exact ⟨m, .cons hstep hl, hk⟩

theorem Path.keeps {I : σ → Prop} {l : List α} {s s' : σ} (h : Path S s l s')
    (hstep : ∀ s a s', a ∈ l → I s → S.step s a s' → I s') (hs : I s) : I s' := by
  induction h with
  | nil => exact hs
  | cons hfirst _ ih =>
    exact ih (fun s a s' ha => hstep s a s' (List.mem_cons_of_mem _ ha))
      (hstep _ _ _ List.mem_cons_self hs hfirst)

/-- Each step of `C` is answered by a step of `A` with the same label. -/
structure Simulation (C : Machine σ α) (A : Machine τ α) (R : σ → τ → Prop) : Prop where
  init : ∀ c, C.init c → ∃ a, A.init a ∧ R c a
  step : ∀ c a x c', R c a → C.step c x c' → ∃ a', A.step a x a' ∧ R c' a'

theorem Simulation.path {R : σ → τ → Prop} (h : Simulation C A R) {l : List α} {c c' : σ}
    (hp : Path C c l c') : ∀ {a : τ}, R c a → ∃ a', Path A a l a' ∧ R c' a' := by
  induction hp with
  | nil c => exact fun hr => ⟨_, .nil _, hr⟩
  | cons hstep _ ih =>
    intro a hr
    obtain ⟨m, hm, hrm⟩ := h.step _ _ _ _ hr hstep
    obtain ⟨a', hp', hr'⟩ := ih hrm
    exact ⟨a', .cons hm hp', hr'⟩

/-- **A simulation is a refinement.** -/
theorem Simulation.traces {R : σ → τ → Prop} (h : Simulation C A R) : C.traces ⊆ A.traces := by
  rintro l ⟨c, c', hinit, hp⟩
  obtain ⟨a, ha, hr⟩ := h.init c hinit
  obtain ⟨a', hp', -⟩ := h.path hp hr
  exact ⟨a, a', ha, hp'⟩

end Refine
