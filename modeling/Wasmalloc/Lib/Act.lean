import Mathlib.Logic.Basic

/- Programs over a state that may stop early.

   An `Act` runs over a state and returns a value, or stops with an error and the state it
   reached. `Spec P x Q E` says that from a state with `P` the program ends with a value and
   `Q`, or with an error and `E`; there is one rule for each way to build a program. -/
/-- A program over the state `σ` that returns an `α` or stops with an `ε`. -/
structure Act (σ ε α : Type) where
  run : σ → Except ε α × σ

namespace Act

variable {σ τ ε α β : Type}

instance : Monad (Act σ ε) where
  pure a := ⟨fun s => (.ok a, s)⟩
  bind x f := ⟨fun s =>
    match x.run s with
    | (.ok a, s) => (f a).run s
    | (.error e, s) => (.error e, s)⟩

def get : Act σ ε σ := ⟨fun s => (.ok s, s)⟩

def modify (f : σ → σ) : Act σ ε Unit := ⟨fun s => (.ok (), f s)⟩

def throw (e : ε) : Act σ ε α := ⟨fun s => (.error e, s)⟩

/-- Go on only if `p` holds. -/
def require (p : Prop) [Decidable p] (e : ε) : Act σ ε Unit := if p then pure () else throw e

/-- The value, or stop. -/
def expect (o : Option α) (e : ε) : Act σ ε α :=
  match o with
  | some a => pure a
  | none => throw e

/-- A program over a part of the state. -/
def zoom (view : τ → σ) (put : τ → σ → τ) (x : Act σ ε α) : Act τ ε α :=
  ⟨fun t => ((x.run (view t)).1, put t (x.run (view t)).2)⟩

/-- `for i in first..first + left`, left early when the body returns `false`. -/
def loop (body : Nat → Act σ ε Bool) : Nat → Nat → Act σ ε Unit
  | 0, _ => pure ()
  | left + 1, i => do
    match ← body i with
    | true => loop body left (i + 1)
    | false => pure ()

theorem run_bind (x : Act σ ε α) (f : α → Act σ ε β) (s : σ) : (x >>= f).run s =
    match x.run s with
    | (.ok a, s) => (f a).run s
    | (.error e, s) => (.error e, s) := rfl

@[simp] theorem run_get_bind (f : σ → Act σ ε α) (s : σ) : (get >>= f).run s = (f s).run s := rfl

@[simp] theorem run_modify (f : σ → σ) (s : σ) : (modify f : Act σ ε Unit).run s = (.ok (), f s) := rfl

theorem run_require_bind {p : Prop} [Decidable p] {e : ε} (h : p) (f : Unit → Act σ ε α) (s : σ) :
    (require p e >>= f).run s = (f ()).run s := by
  unfold require
  rw [if_pos h]
  rfl

/-! ## Specifications -/

/-- How a program ended: `Q` of the value or `E` of the error. -/
def Ends (Q : α → σ → Prop) (E : ε → σ → Prop) : Except ε α × σ → Prop
  | (.ok a, s) => Q a s
  | (.error e, s) => E e s

def Spec (P : σ → Prop) (x : Act σ ε α) (Q : α → σ → Prop) (E : ε → σ → Prop) : Prop :=
  ∀ s, P s → Ends Q E (x.run s)

variable {P P' : σ → Prop} {x : Act σ ε α} {Q Q' : α → σ → Prop} {E E' : ε → σ → Prop}

theorem Ends.imp {r : Except ε α × σ} (h : Ends Q E r) (hQ : ∀ a s, Q a s → Q' a s)
    (hE : ∀ e s, E e s → E' e s) : Ends Q' E' r := by
  obtain ⟨e | a, s⟩ := r
  · exact hE e s h
  · exact hQ a s h

theorem Ends.and {r : Except ε α × σ} (h : Ends Q E r) (h' : Ends Q' E' r) :
    Ends (fun a s => Q a s ∧ Q' a s) (fun e s => E e s ∧ E' e s) r := by
  obtain ⟨e | a, s⟩ := r
  · exact ⟨h, h'⟩
  · exact ⟨h, h'⟩

namespace Spec

theorem imp (h : Spec P x Q E) (hP : ∀ s, P' s → P s) (hQ : ∀ a s, Q a s → Q' a s)
    (hE : ∀ e s, E e s → E' e s) : Spec P' x Q' E' :=
  fun s hs => (h s (hP s hs)).imp hQ hE

theorem pre (h : Spec P x Q E) (hP : ∀ s, P' s → P s) : Spec P' x Q E := fun s hs => h s (hP s hs)

theorem post (h : Spec P x Q E) (hQ : ∀ a s, Q a s → Q' a s) : Spec P x Q' E :=
  fun s hs => (h s hs).imp hQ fun _ _ he => he

theorem and (h : Spec P x Q E) (h' : Spec P' x Q' E') :
    Spec (fun s => P s ∧ P' s) x (fun a s => Q a s ∧ Q' a s) fun e s => E e s ∧ E' e s :=
  fun s hs => (h s hs.1).and (h' s hs.2)

theorem fix (h : ∀ s, P s → Spec (fun t => t = s) x Q E) : Spec P x Q E :=
  fun s hs => h s hs s rfl

theorem pure {a : α} (h : ∀ s, P s → Q a s) : Spec P (Pure.pure a : Act σ ε α) Q E := h

theorem bind {f : α → Act σ ε β} {R : β → σ → Prop} (hx : Spec P x Q E)
    (hf : ∀ a, Spec (Q a) (f a) R E) : Spec P (x >>= f) R E := by
  intro s hs
  have h := hx s hs
  rw [run_bind]
  generalize x.run s = r at h ⊢
  obtain ⟨e | a, t⟩ := r
  · exact h
  · exact hf a t h

theorem get {f : σ → Act σ ε α} (h : ∀ s, P s → Spec (fun t => t = s) (f s) Q E) :
    Spec P (Act.get >>= f) Q E := fun s hs => h s hs s rfl

theorem modify {f : σ → σ} {R : Unit → σ → Prop} (h : ∀ s, P s → R () (f s)) :
    Spec P (Act.modify f : Act σ ε Unit) R E := h

theorem throw {e : ε} (h : ∀ s, P s → E e s) : Spec P (Act.throw e : Act σ ε α) Q E := h

theorem require {p : Prop} [Decidable p] {e : ε} {R : Unit → σ → Prop}
    (h : ∀ s, P s → p → R () s) (he : ∀ s, P s → ¬ p → E e s) :
    Spec P (Act.require p e : Act σ ε Unit) R E := by
  unfold Act.require
  split
  · exact pure fun s hs => h s hs ‹_›
  · exact throw fun s hs => he s hs ‹_›

theorem expect {o : Option α} {e : ε} (h : ∀ s a, P s → o = some a → Q a s)
    (he : ∀ s, P s → o = none → E e s) : Spec P (Act.expect o e : Act σ ε α) Q E := by
  cases o with
  | some a => exact pure fun s hs => h s a hs rfl
  | none => exact throw fun s hs => he s hs rfl

theorem zoom {view : τ → σ} {put : τ → σ → τ} {P : τ → Prop} {Q : α → τ → Prop} {E : ε → τ → Prop}
    (h : ∀ t, P t → Spec (fun s => s = view t) x (fun a s => Q a (put t s)) fun e s => E e (put t s)) :
    Spec P (Act.zoom view put x) Q E := by
  intro t ht
  have hx := h t ht (view t) rfl
  unfold Act.zoom
  dsimp only
  generalize x.run (view t) = r at hx ⊢
  obtain ⟨e | a, s⟩ := r
  · exact hx
  · exact hx

/-- **The loop rule**: `I i` before turn `i`, and `D` when the loop is left. -/
theorem loop {body : Nat → Act σ ε Bool} {I : Nat → σ → Prop} {D : σ → Prop} {n : Nat}
    (hbody : ∀ i, i < n → Spec (I i) (body i) (fun go s => (go = true → I (i + 1) s) ∧ (go = false → D s)) E)
    (hend : ∀ s, I n s → D s) : ∀ left i, i + left = n →
      Spec (I i) (Act.loop body left i) (fun _ => D) E := by
  intro left
  induction left with
  | zero => exact fun i hi => pure fun s hs => hend s (by rwa [← hi])
  | succ left ih =>
    intro i hi
    unfold Act.loop
    refine bind (hbody i (by omega)) fun go => ?_
    cases go with
    | true => exact (ih (i + 1) (by omega)).pre fun s hs => hs.1 rfl
    | false => exact pure fun s hs => hs.2 rfl

end Spec

/-! ## Part of the state

A program that only passes on what `view` leaves out does the same without it. -/

/-- `y` does to the view what `x` does to the state. -/
def Projects (view : σ → τ) (x : Act σ ε α) (y : Act τ ε α) : Prop :=
  ∀ s, y.run (view s) = ((x.run s).1, view (x.run s).2)

namespace Projects

variable {view : σ → τ}

theorem pure (a : α) : Projects view (Pure.pure a : Act σ ε α) (Pure.pure a) := fun _ => rfl

theorem throw (e : ε) : Projects view (Act.throw e : Act σ ε α) (Act.throw e) := fun _ => rfl

theorem modify {f : σ → σ} {g : τ → τ} (h : ∀ s, g (view s) = view (f s)) :
    Projects view (Act.modify f : Act σ ε Unit) (Act.modify g) := fun s => by
  rw [run_modify, run_modify, h]

theorem bind {x : Act σ ε α} {y : Act τ ε α} {f : α → Act σ ε β} {g : α → Act τ ε β}
    (hx : Projects view x y) (hf : ∀ a, Projects view (f a) (g a)) : Projects view (x >>= f) (y >>= g) := by
  intro s
  have h := hx s
  rw [run_bind, run_bind, h]
  generalize x.run s = r
  obtain ⟨e | a, t⟩ := r
  · rfl
  · exact hf a t

theorem get {f : σ → Act σ ε α} {g : τ → Act τ ε α} (h : ∀ s, Projects view (f s) (g (view s))) :
    Projects view (Act.get >>= f) (Act.get >>= g) := fun s => h s s

theorem require {p : Prop} [Decidable p] {e : ε} :
    Projects view (Act.require p e : Act σ ε Unit) (Act.require p e) := by
  unfold Act.require
  split
  · exact pure ()
  · exact throw e

theorem expect {o : Option α} {e : ε} :
    Projects view (Act.expect o e : Act σ ε α) (Act.expect o e) := by
  cases o with
  | some a => exact pure a
  | none => exact throw e

theorem ite {p : Prop} [Decidable p] {x x' : Act σ ε α} {y y' : Act τ ε α} (h : Projects view x y)
    (h' : Projects view x' y') : Projects view (if p then x else x') (if p then y else y') := by
  split
  · exact h
  · exact h'

theorem zoom {σ' τ' : Type} {inner : σ' → τ'} {get : σ → σ'} {put : σ → σ' → σ} {get' : τ → τ'}
    {put' : τ → τ' → τ} {x : Act σ' ε α} {y : Act τ' ε α} (h : Projects inner x y)
    (hget : ∀ s, get' (view s) = inner (get s)) (hput : ∀ s t, put' (view s) (inner t) = view (put s t)) :
    Projects view (Act.zoom get put x) (Act.zoom get' put' y) := by
  intro s
  unfold Act.zoom
  dsimp only
  rw [hget, h, hput]

theorem loop {body : Nat → Act σ ε Bool} {body' : Nat → Act τ ε Bool}
    (h : ∀ i, Projects view (body i) (body' i)) : ∀ left i,
      Projects view (Act.loop body left i) (Act.loop body' left i) := by
  intro left
  induction left with
  | zero => exact fun i => pure ()
  | succ left ih =>
    intro i
    unfold Act.loop
    refine bind (h i) fun go => ?_
    cases go with
    | true => exact ih (i + 1)
    | false => exact pure ()

end Projects
end Act
