/- Runs of a transition system.

   A system has initial states, a step function over events and a contract that
   says which events may come next. A state is reachable when some run of allowed
   events leads to it; `Reachable.invariant` is the induction over runs.
   `trace` is what a run shows; `trace_eq` compares the runs of two systems. -/
namespace Run

structure System (σ ε : Type) where
  init : σ → Prop
  allowed : σ → ε → Prop
  step : σ → ε → σ

variable {σ ε : Type} {S : System σ ε}

inductive Reachable (S : System σ ε) : σ → Prop where
  | init {s : σ} : S.init s → Reachable S s
  | step {s : σ} {e : ε} : Reachable S s → S.allowed s e → Reachable S (S.step s e)

/-- What holds initially and is kept by every allowed step holds in every reachable state. -/
theorem Reachable.invariant {I : σ → Prop} (hinit : ∀ s, S.init s → I s)
    (hstep : ∀ s e, I s → S.allowed s e → I (S.step s e)) {s : σ} (h : Reachable S s) : I s := by
  induction h with
  | init h0 => exact hinit _ h0
  | step _ ha ih => exact hstep _ _ ih ha

/-! ## Traces -/

variable {α : Type}

/-- What each event puts out, and the state after it. -/
def System.trace (S : System σ ε) (out : σ → ε → α) : σ → List ε → List (α × σ)
  | _, [] => []
  | s, e :: es => (out s e, S.step s e) :: S.trace out (S.step s e) es

/-- Every event is allowed when it comes. -/
def System.Obeys (S : System σ ε) : σ → List ε → Prop
  | _, [] => True
  | s, e :: es => S.allowed s e ∧ S.Obeys (S.step s e) es

/-- Two systems that agree on the allowed events of reachable states have the same runs. -/
theorem trace_eq {T : System σ ε} {out out' : σ → ε → α}
    (hagree : ∀ s e, Reachable S s → S.allowed s e → out' s e = out s e ∧ T.step s e = S.step s e)
    {es : List ε} : ∀ {s : σ}, Reachable S s → S.Obeys s es → T.trace out' s es = S.trace out s es := by
  induction es with
  | nil => exact fun _ _ => rfl
  | cons e es ih =>
    intro s hs ⟨ha, hes⟩
    obtain ⟨hout, hstep⟩ := hagree s e hs ha
    unfold System.trace
    rw [hout, hstep, ih (hs.step ha) hes]

end Run
