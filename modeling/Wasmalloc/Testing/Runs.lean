import Wasmalloc.Testing.Rounds

/- Runs of the tester.

   Every state a run reaches between operations has its books in order, whatever the
   allocator answers (`Reached.sound`), so that `admit` tells exactly whether a block fits.
   Against an allocator that obeys its contract, a run of a preset ends with `Ok` or with
   the refusal of the allocator, and never by a panic. -/
namespace Wasmalloc.Testing

variable [Build] {A E α : Type} [RawAlloc A] {ok : A → Held → Prop} {profile : Profile} {ops : Nat}
  {m : Model A} {i : Nat}

/-! ## Operations of a session -/

/-- What may go wrong of the model of the session `s`. -/
def Through (H : Stop → Session A E → Prop) (s : Session A E) (e : Stop) (m : Model A) : Prop :=
  H e { s with model := m }

/-- The ways a run may end early: a panic only where the numbers run out, and a refusal with
    the books in order. -/
structure Permits (profile : Profile) (ops : Nat) (H : Stop → Session A E → Prop) : Prop where
  tame : Asserts H (Tame profile)
  index : Asserts H (ops < usizeSize)
  refused : ∀ f s, f.kind = .allocFailed → s.model.Sound → s.model.profile = profile → H (.failure f) s

/-- The state of a run after `i` operations. -/
structure Going (ok : A → Held → Prop) (profile : Profile) (H : Stop → Session A E → Prop) (i : Nat)
    (m : Model A) : Prop where
  sound : m.Sound
  profile : m.profile = profile
  counts : Asserts H (Counts m i)
  contents : Passes H (Contents ok m.alloc m.live)

variable {H : Stop → Session A E → Prop} {s : Session A E}

omit [RawAlloc A] in
theorem Asserts.through {p : Prop} (h : Asserts H p) : Asserts (Through H s) p :=
  h.imp_right fun h msg _ => h msg _

omit [RawAlloc A] in
theorem Passes.through {c : Prop} (h : Passes H c) : Passes (Through H s) c :=
  h.imp_right fun h f _ hk => h f _ hk

omit [RawAlloc A] in
theorem onModel_spec {x : Check A α} {Q : α → Model A → Prop}
    (hx : ∀ s, Act.Spec (fun t => t = m) x Q (Through H s)) :
    Act.Spec (fun s => s.model = m) (onModel x) (fun a s => Q a s.model) H :=
  Act.Spec.zoom fun s hs => (hx s).pre fun _ ht => ht.trans hs

omit [RawAlloc A] in
theorem Counts.mono {j : Nat} (h : Counts m i) (hij : i ≤ j) : Counts m j :=
  ⟨h.freed, h.calls.trans hij, h.reallocs.trans hij, h.seeds.trans hij⟩

theorem Going.after {j : Nat} {m' : Model A} (h : Going ok profile H i m) (ha : After ok m m' i j) :
    Going ok profile H j m' where
  sound := ha.sound
  profile := ha.profile.trans h.profile
  counts := h.counts.of ha.counts
  contents := h.contents.of ha.contents

theorem Going.mono {j : Nat} (h : Going ok profile H i m) (hij : i ≤ j) : Going ok profile H j m where
  sound := h.sound
  profile := h.profile
  counts := h.counts.of fun hc => hc.mono hij
  contents := h.contents

/-- The index of the operation, the counter of operations and the batch counter are no part of
    the books. -/
theorem Going.idle (h : Going ok profile H i m) (opIndex n left : Nat) : Going ok profile H i
    { m with opIndex := opIndex, stats := { m.stats with ops := n }, batchLeft := left } where
  sound := ⟨h.sound.books, h.sound.cap, h.sound.cap_pos⟩
  profile := h.profile
  counts := h.counts.of fun hc => ⟨hc.freed, hc.calls, hc.reallocs, hc.seeds⟩
  contents := h.contents

theorem Going.able (h : Going ok profile H i m) (hH : Permits profile ops H) (hi : i < ops) :
    Asserts H (Able m i) := by
  rcases h.counts with hc | hc
  · rcases hH.tame with ht | ht
    · exact hH.index.of fun hlt => ⟨hc, by omega, h.profile ▸ ht⟩
    · exact Or.inr ht
  · exact Or.inr hc

theorem Going.spent (h : Going ok profile H i m) (hH : Permits profile ops H) (hi : i ≤ ops) :
    Asserts H (Spent m i) := by
  rcases h.counts with hc | hc
  · exact hH.index.of fun hlt => ⟨hc, by omega⟩
  · exact Or.inr hc

section Execute
variable [Entropy E]

/-- **`do_dealloc`** frees a block, unless the entropy has run dry. -/
theorem doDealloc_spec (hob : Obeys ok) (hH : Permits profile ops H) (h : Going ok profile H i m)
    (hi : i < ops) (hne : m.live ≠ []) : Act.Spec (fun s => s.model = m) (Model.doDealloc : Drive A E _)
      (fun _ s => Going ok profile H i s.model) H := by
  have hfree : ∀ {take : List Block → Option Block × List Block} {block rest},
      take m.live = (some block, rest) → m.live.Perm (block :: rest) →
      Act.Spec (fun s => s.model = m) (onModel (Model.freeVictim take) : Drive A E _)
        (fun _ s => Going ok profile H i s.model) H := fun htake hp =>
    (onModel_spec fun s => freeVictim_spec hob h.sound htake hp (h.spent hH hi.le).through
      h.contents.through).post fun _ _ ha => h.after ha.1
  have hdone : ∀ {b : Bool}, Act.Spec (fun s : Session A E => Going ok profile H i s.model) (pure b)
      (fun _ s => Going ok profile H i s.model) H := Act.Spec.pure fun _ hs => hs
  unfold Model.doDealloc
  refine Act.Spec.get fun s hs => ?_
  rw [hs]
  refine Act.Spec.pre ?_ fun t ht => show t.model = m by rw [ht, hs]
  cases m.profile.order with
  | random =>
    refine Act.Spec.bind (onEntropy_spec hH.tame fun ht => below_spec (ht.of fun ht =>
      h.sound.index_pos hne (h.profile ▸ ht))) fun o => ?_
    cases o with
    | none => exact Act.Spec.pure fun s hs => hs.1 ▸ h
    | some j =>
      refine Act.Spec.fix fun t ⟨ht, hj⟩ => ?_
      have hlt : j < m.live.length := (hj j rfl).trans_le (Nat.mod_le _ _)
      obtain ⟨rest, htake, hp⟩ := swapRemoveBack_spec (List.getElem?_eq_getElem hlt)
      exact Act.Spec.bind ((hfree htake hp).pre
        fun t' ht' => ht' ▸ ht) fun _ => hdone
  | lifo =>
    obtain ⟨block, rest, htake, hp⟩ := popBack_spec hne
    exact Act.Spec.bind (hfree htake hp) fun _ => hdone
  | fifo =>
    obtain ⟨block, rest, htake, hp⟩ := popFront_spec hne
    exact Act.Spec.bind (hfree htake hp) fun _ => hdone

theorem execute_spec (hob : Obeys ok) (hH : Permits profile ops H) (h : Going ok profile H i m)
    (hi : i < ops) {op : Op} (hd : Drawn m op) : Act.Spec (fun s => s.model = m)
      (Model.execute op : Drive A E _) (fun _ s => Going ok profile H (i + 1) s.model) H := by
  have hrefused : ∀ s : Session A E, Refusable (Through H s) m := fun s f t hk ht hp =>
    hH.refused f _ hk ht (hp.trans h.profile)
  have hable := h.able hH hi
  cases op with
  | alloc layout zeroed =>
    exact Act.Spec.bind (onModel_spec fun s => doAlloc_spec hob h.sound hd hable.through
      h.contents.through (hrefused s)) fun _ => Act.Spec.pure fun s hs => h.after hs
  | dealloc =>
    exact (doDealloc_spec hob hH h hi hd).post fun _ s hs => hs.mono (Nat.le_succ i)
  | realloc index newSize =>
    exact Act.Spec.bind (onModel_spec fun s => doRealloc_spec hob h.sound hd hable.through
      h.contents.through (hrefused s)) fun _ => Act.Spec.pure fun s hs => h.after hs

/-- **One turn** keeps the books. -/
theorem turn_spec (hob : Obeys ok) (hH : Permits profile ops H) (h : Going ok profile H i m)
    (hi : i < ops) : Act.Spec (fun s => s.model = m) (Model.turn i : Drive A E _)
      (fun _ s => Going ok profile H (i + 1) s.model) H := by
  unfold Model.turn
  refine Act.Spec.bind (onModel_spec (Q := fun _ m' => m' = { m with opIndex := i }) fun s =>
    Act.Spec.modify fun t ht => by rw [ht]) fun _ => ?_
  have hi' := h.idle i m.stats.ops m.batchLeft
  refine Act.Spec.bind (nextOp_spec (by rw [h.profile]; exact hH.tame) hi'.sound) fun o => ?_
  cases o with
  | none =>
    refine Act.Spec.pure fun s ⟨⟨left, hs⟩, _⟩ => ?_
    rw [hs]
    exact (h.idle i m.stats.ops left).mono (Nat.le_succ i)
  | some op =>
    refine Act.Spec.fix fun s ⟨⟨left, hs⟩, hd⟩ => ?_
    have hdrawn : Drawn { m with opIndex := i, batchLeft := left } op := by
      have hd := hd op rfl
      cases op <;> exact hd
    refine Act.Spec.bind ((execute_spec hob hH (h.idle i m.stats.ops left) hi hdrawn).pre
      fun t ht => ht ▸ hs) fun more => ?_
    cases more with
    | false => exact Act.Spec.pure fun t ht => ht
    | true =>
      refine Act.Spec.bind (Q := fun _ t => Going ok profile H (i + 1) t.model) ?_
        fun _ => Act.Spec.pure fun t ht => ht
      exact Act.Spec.zoom fun t ht => Act.Spec.modify fun m' hm' => by
        rw [hm']
        exact ht.idle t.model.opIndex (i + 1) t.model.batchLeft

end Execute

/-! ## `drain` -/

omit [RawAlloc A] in
theorem Spent.after {H : Stop → Model A → Prop} {m' : Model A} (h : Asserts H (Spent m i))
    (hc : Counts m i → Counts m' i) : Asserts H (Spent m' i) :=
  h.of fun hs => ⟨hc hs.counts, hs.index⟩

/-- **`drain`** ends with nothing live. -/
theorem drain_spec {H : Stop → Model A → Prop} (hob : Obeys ok) (hm : m.Sound)
    (hn : Asserts H (Spent m i)) (hf : Passes H (Contents ok m.alloc m.live)) :
    Act.Spec (fun s => s = m) Model.drain (fun _ s => After ok m s i i ∧ s.live = []) H := by
  unfold Model.drain
  refine Act.Spec.get fun s hs => ?_
  rw [hs]
  -- Before turn `k` there are `k` blocks fewer.
  refine ((Act.Spec.loop (n := m.live.length)
    (I := fun k s => After ok m s i i ∧ s.live.length + k = m.live.length)
    (D := fun s => After ok m s i i ∧ s.live = []) (fun k _ => ?_) (fun s hs => ?_) _ 0
    (Nat.zero_add _)).pre fun s hs => ?_)
  · refine Act.Spec.fix fun t ⟨ht, hlen⟩ => ?_
    refine (drainOne_spec hob ht.sound (Spent.after hn ht.counts) (hf.of ht.contents)).post
      fun more u ⟨hu, hmore, hdone⟩ => ⟨fun h => ⟨ht.trans hu, ?_⟩, fun h => ⟨ht.trans hu, hdone h⟩⟩
    have := hmore h
    omega
  · exact ⟨hs.1, List.eq_nil_of_length_eq_zero (by have := hs.2; omega)⟩
  · rw [hs]
    exact ⟨.refl hm, rfl⟩

theorem sweep_spec {H : Stop → Model A → Prop} (hob : Obeys ok) (hm : m.Sound) {j : Nat}
    (hn : Asserts H (Spent m i)) (hf : Passes H (Contents ok m.alloc m.live)) :
    Act.Spec (fun s => s = m) (Model.sweep j) (fun _ s => After ok m s i i) H := by
  unfold Model.sweep
  refine Act.Spec.get fun s hs => ?_
  rw [hs]
  split
  · exact (drain_spec hob hm hn hf).post fun _ s hs => hs.1
  · refine Act.Spec.pure fun s hs => ?_
    rw [hs]
    exact .refl hm

/-! ## `run_with` -/

omit [RawAlloc A] in
theorem validate_spec (ht : Asserts H (Tame profile)) : Act.Spec (fun t => t = s) profile.validate
    (fun _ t => t = s ∧ 0 < profile.maxLiveBytes) H := by
  have hpass : ∀ {p : Prop} [Decidable p] {msg : String}, (Tame profile → p) →
      Act.Spec (fun t => t = s) (Act.require p (.panic msg)) (fun _ t => t = s) H := fun h =>
    (ht.of h).require.post fun _ _ hs => hs.1
  unfold Profile.validate
  refine Act.Spec.bind (hpass fun h => h.allocs.1) fun _ => ?_
  refine Act.Spec.bind (hpass fun h => h.allocs.2) fun _ => ?_
  refine Act.Spec.bind (hpass fun h => h.sizes.1) fun _ => ?_
  refine Act.Spec.bind (hpass fun h => h.sizes.2) fun _ => ?_
  refine Act.Spec.bind (hpass fun h => h.aligns.1) fun _ => ?_
  refine Act.Spec.bind (hpass fun h => h.aligns.2) fun _ => ?_
  exact (ht.of fun h => h.cap.1).require

omit [RawAlloc A] in
theorem new_sound (a : A) (hcap : 0 < profile.maxLiveBytes) : (Model.new a profile).Sound where
  books := .empty
  cap := Nat.zero_le _
  cap_pos := hcap

theorem new_going (a : A) (hcap : 0 < profile.maxLiveBytes) (hok : Passes H (ok a ∅)) :
    Going ok profile H 0 (Model.new a profile) where
  sound := new_sound a hcap
  profile := rfl
  counts := Or.inl ⟨rfl, Nat.le_refl _, Nat.le_refl _, Nat.le_refl _⟩
  contents := hok.of fun hok => by
    refine ⟨?_, fun block hm => absurd hm List.not_mem_nil⟩
    have hheld : held [] = ∅ := Set.eq_empty_iff_forall_notMem.mpr fun x ⟨block, hm, _⟩ =>
      absurd hm List.not_mem_nil
    exact hheld ▸ hok

/-- **A run** ends with nothing live, unless it stops early. -/
theorem drive_spec [Entropy E] (hob : Obeys ok) (hH : Permits profile ops H) {a : A} {e : E}
    (hok : Passes H (ok a ∅)) : Act.Spec (fun s => s = ⟨Model.new a profile, e⟩)
      (drive ops profile) (fun stats s => Going ok profile H ops s.model ∧ s.model.live = [] ∧
        stats = s.model.stats) H := by
  unfold drive
  refine Act.Spec.bind (validate_spec hH.tame) fun _ => ?_
  refine Act.Spec.fix fun s ⟨hs, hcap⟩ => ?_
  have hnew : Going ok profile H 0 s.model := by
    rw [hs]
    exact new_going a hcap hok
  refine Act.Spec.bind ((Act.Spec.loop (n := ops) (I := fun i s => Going ok profile H i s.model)
    (D := fun s => Going ok profile H ops s.model) (fun i hi => ?_) (fun _ h => h) _ 0
    (Nat.zero_add _)).pre fun t ht => ht ▸ hnew) fun _ => ?_
  · -- One turn, and the sweep after it.
    refine Act.Spec.fix fun t ht => ?_
    refine Act.Spec.bind ((turn_spec hob hH ht hi).pre fun u hu => hu ▸ rfl) fun more => ?_
    cases more with
    | false => exact Act.Spec.pure fun u hu => ⟨nofun, fun _ => hu.mono hi⟩
    | true =>
      refine Act.Spec.fix fun u hu => ?_
      refine Act.Spec.bind ((onModel_spec fun s => sweep_spec hob hu.sound (hu.spent hH hi).through
        hu.contents.through).pre fun v hv => hv ▸ rfl) fun _ => ?_
      exact Act.Spec.pure fun v hv => ⟨fun _ => hu.after hv, nofun⟩
  · -- The last drain.
    refine Act.Spec.fix fun t ht => ?_
    refine Act.Spec.bind ((onModel_spec fun s => drain_spec hob ht.sound
      (ht.spent hH (Nat.le_refl _)).through ht.contents.through).pre fun v hv => hv ▸ rfl) fun _ => ?_
    refine Act.Spec.get fun u hu => Act.Spec.pure fun v hv => ?_
    rw [hv]
    exact ⟨ht.after hu.1, hu.2, rfl⟩

/-! ## States between operations -/

/-- The states a run of `profile` reaches between operations: turns of its loop, of which one may
    end by a refusal, and turns of a sweep. -/
inductive Reached [Entropy E] (a : A) (profile : Profile) : Session A E → Prop
  | start (e : E) (hcap : 0 < profile.maxLiveBytes) : Reached a profile ⟨Model.new a profile, e⟩
  | turn {s t : Session A E} {i : Nat} {more : Bool} : Reached a profile s →
      (Model.turn i).run s = (.ok more, t) → Reached a profile t
  | refused {s t : Session A E} {i : Nat} {f : Failure} : Reached a profile s →
      (Model.turn i).run s = (.error (.failure f), t) → f.kind = .allocFailed → Reached a profile t
  | drain {s : Session A E} {m : Model A} {more : Bool} : Reached a profile s →
      Model.drainOne.run s.model = (.ok more, m) → Reached a profile { s with model := m }

/-- Nothing is asked of the allocator. -/
theorem obeys_none : Obeys (A := A) fun _ _ => False where
  alloc := fun _ _ _ h => h.elim
  allocZeroed := fun _ _ _ h => h.elim
  dealloc := fun _ _ _ _ h => h.elim
  realloc := fun _ _ _ _ _ h => h.elim
  write := fun _ _ _ h => h.elim

/-- What is left when an operation stops early: after a refusal, the books in order. -/
def Orderly (profile : Profile) (e : Stop) (m : Model A) : Prop :=
  ∀ f, e = .failure f → f.kind = .allocFailed → m.Sound ∧ m.profile = profile

/-- The stop is no refusal. -/
def Unrefused (e : Stop) : Prop := ∀ f, e = .failure f → f.kind ≠ .allocFailed

section Reached
variable [Entropy E] {a : A}

theorem turn_sound (i : Nat) (hs : s.model.Sound ∧ s.model.profile = profile) :
    Act.Ends (fun _ t => t.model.Sound ∧ t.model.profile = profile)
      (fun e t => Orderly profile e t.model) ((Model.turn i).run s) := by
  have hpanic : ∀ {p : Prop}, Asserts (fun e (t : Session A E) => Orderly profile e t.model) p :=
    Or.inr fun _ _ f h => by cases h
  have hH : Permits profile (i + 1) (fun e (t : Session A E) => Orderly profile e t.model) :=
    { tame := hpanic, index := hpanic, refused := fun _ _ _ hs hp _ _ _ => ⟨hs, hp⟩ }
  have hgoing : Going (fun _ _ => False) profile (fun e (t : Session A E) => Orderly profile e t.model)
      i s.model :=
    { sound := hs.1, profile := hs.2, counts := hpanic
      contents := Or.inr fun f t hk f' h' hk' => by
        cases h'
        exact absurd hk' hk }
  exact (turn_spec obeys_none hH hgoing (Nat.lt_succ_self i) s rfl).imp
    (fun _ t ht => ⟨ht.sound, ht.profile⟩) fun _ _ h => h

theorem drainOne_sound {m : Model A} (hm : m.Sound) :
    Act.Ends (fun _ t => t.Sound ∧ t.profile = m.profile)
      (fun e _ => Unrefused e) (Model.drainOne.run m) := by
  have hpanic : ∀ {p : Prop}, Asserts (fun e (_ : Model A) => Unrefused e) p :=
    Or.inr fun _ _ f h => by cases h
  exact (drainOne_spec (i := 0) obeys_none hm hpanic (Or.inr fun f t hk f' h' => by
    cases h'
    exact hk) m rfl).imp (fun _ t ht => ⟨ht.1.sound, ht.1.profile⟩) fun _ _ h => h

/-- **The books are in order** in every state a run reaches, whatever the allocator does. -/
theorem Reached.sound (h : Reached a profile s) : s.model.Sound ∧ s.model.profile = profile := by
  induction h with
  | start e hcap => exact ⟨new_sound a hcap, rfl⟩
  | @turn s t i more hs hrun ih =>
    have := turn_sound i ih
    rwa [hrun] at this
  | @refused s t i f hs hrun hk ih =>
    have := turn_sound i ih
    rw [hrun] at this
    exact this f rfl hk
  | @drain s m more hs hrun ih =>
    have := drainOne_sound ih.1
    rw [hrun] at this
    exact ⟨this.1, this.2.trans ih.2⟩

end Reached

end Wasmalloc.Testing
