import Wasmalloc.Testing.Seeds
import Wasmalloc.Testing.Verdicts

/- The seeds of the live blocks.

   In every state a run reaches, whatever the allocator answers, the live blocks carry
   different seeds of those given out so far (`Reached.seeded`), so that none passes for
   another (`patterns_distinct`). Each function of the
   tester keeps this, also where it stops early; a block that `do_realloc` has taken out
   of `live` is carried along until it is filled anew or put back. -/
namespace Wasmalloc.Testing
open ByteMem (Bytes)

variable [Build] {A E α β : Type} {P : List Block → Nat → Prop}

/-- The blocks carry different seeds of the first `n`. -/
def Seeded (l : List Block) (n : Nat) : Prop := n < 2 ^ 64 ∧ (l.map Block.seed).Subperm (issued n)

section Seeded
variable {l l' : List Block} {n : Nat} {block : Block}

theorem Seeded.subperm (h : Seeded l n) (hl : l'.Subperm l) : Seeded l' n := by
  obtain ⟨blocks, hp, hsub⟩ := hl
  have hmap : (l'.map Block.seed).Subperm (l.map Block.seed) :=
    ⟨blocks.map Block.seed, hp.map _, hsub.map _⟩
  exact ⟨h.1, hmap.trans h.2⟩

theorem Seeded.add (h : Seeded l n) (hn : n + 1 < 2 ^ 64)
    (hseed : block.seed = mix64 (UInt64.ofNat (n + 1))) : Seeded (l ++ [block]) (n + 1) := by
  refine ⟨hn, ?_⟩
  rw [List.map_append, List.map_singleton, issued_succ, hseed]
  exact (List.subperm_append_right _).mpr h.2

end Seeded

/-! ## What a function of the tester does to them -/

/-- `P` of the live blocks and the counter. -/
def On (P : List Block → Nat → Prop) (m : Model A) : Prop := P m.live m.nextSeed

/-- From `P` the program gets to `Q`, and the seeds are in order wherever it stops. -/
def Minds (P : List Block → Nat → Prop) (x : Check A α) (Q : List Block → Nat → Prop) : Prop :=
  Act.Spec (On P) x (fun _ => On Q) (fun _ => On Seeded)

/-- `P` is kept, and implies that the seeds are in order. -/
def Keeping (P : List Block → Nat → Prop) (x : Check A α) : Prop :=
  (∀ l n, P l n → Seeded l n) → Minds P x P

theorem Minds.pure {a : α} : Minds P (pure a : Check A α) P := Act.Spec.pure fun _ hs => hs

theorem Minds.bind {Q R : List Block → Nat → Prop} {x : Check A α} {f : α → Check A β}
    (hx : Minds P x Q) (hf : ∀ a, Minds Q (f a) R) : Minds P (x >>= f) R := Act.Spec.bind hx hf

theorem Minds.get {Q : List Block → Nat → Prop} {f : Model A → Check A α}
    (h : ∀ m, Minds P (f m) Q) : Minds P (Act.get >>= f) Q :=
  Act.Spec.get fun m hm => (h m).pre fun _ ht => ht ▸ hm

theorem Minds.weaken {P' Q : List Block → Nat → Prop} {x : Check A α} (h : Minds P x Q)
    (hP : ∀ l n, P' l n → P l n) : Minds P' x Q := Act.Spec.pre h fun _ hs => hP _ _ hs

section Keeping

theorem keeping_modify {f : Model A → Model A}
    (hf : ∀ m, (f m).live = m.live ∧ (f m).nextSeed = m.nextSeed) : Keeping P (Act.modify f) := by
  refine fun _ => Act.Spec.modify fun m hm => ?_
  obtain ⟨hlive, hnext⟩ := hf m
  show P (f m).live (f m).nextSeed
  rw [hlive, hnext]
  exact hm

theorem keeping_require {p : Prop} [Decidable p] {stop : Stop} :
    Keeping P (Act.require p stop : Check A Unit) :=
  fun hP => Act.Spec.require (fun _ hs _ => hs) fun _ hs _ => hP _ _ hs

theorem keeping_expect {o : Option α} {stop : Stop} : Keeping P (Act.expect o stop : Check A α) :=
  fun hP => Act.Spec.expect (fun _ _ hs _ => hs) fun _ hs _ => hP _ _ hs

theorem minds_fail {Q : List Block → Nat → Prop} {kind : FailureKind} {detail : String}
    (hP : ∀ l n, P l n → Seeded l n) : Minds P (Model.fail kind detail : Check A α) Q := by
  unfold Model.fail
  exact Minds.get fun m => Act.Spec.throw fun _ hs => hP _ _ hs

theorem keeping_call {f : A → Option Nat × A} : Keeping P (Model.call f) := by
  intro hP
  unfold Model.call
  refine Minds.get fun m => Minds.bind (keeping_modify ?_ hP) fun _ => Minds.pure
  exact fun _ => ⟨rfl, rfl⟩

theorem admit_keeping {what : String} {ptr : Nat} {layout : Layout} :
    Keeping P (Model.admitBlock what ptr layout : Check A Unit) := by
  intro hP
  unfold Model.admitBlock
  refine Minds.get fun m => ?_
  dsimp only
  split
  · exact minds_fail hP
  · split
    · exact minds_fail hP
    · split
      · split
        · exact minds_fail hP
        · exact keeping_modify (fun _ => ⟨rfl, rfl⟩) hP
      · exact keeping_modify (fun _ => ⟨rfl, rfl⟩) hP

variable [RawAlloc A]

theorem keeping_tally {ptr : Nat} {layout : Layout} {zeroed : Bool} :
    Keeping P (Model.tally ptr layout zeroed : Check A Unit) := by
  intro hP
  unfold Model.tally
  refine Minds.get fun m => ?_
  split
  · split
    · exact minds_fail hP
    · exact (keeping_require hP).bind fun _ => keeping_modify (fun _ => ⟨rfl, rfl⟩) hP
  · exact (keeping_require hP).bind fun _ => keeping_modify (fun _ => ⟨rfl, rfl⟩) hP

theorem keeping_release {block : Block} : Keeping P (Model.release block : Check A Unit) := by
  intro hP
  unfold Model.release
  refine Minds.get fun m => ?_
  dsimp only
  split
  · exact minds_fail hP
  · exact (keeping_require hP).bind fun _ => (keeping_require hP).bind fun _ =>
      keeping_modify (fun _ => ⟨rfl, rfl⟩) hP

end Keeping

/-! ## The functions of the tester -/

variable [RawAlloc A] {layout : Layout} {block : Block}

theorem seeded_self : ∀ l n, Seeded l n → Seeded l n := fun _ _ h => h

theorem adopt_minds {ptr : Nat} : Minds (A := A) Seeded (Model.adopt ptr layout) Seeded := by
  unfold Model.adopt Model.freshSeed
  -- The counter is ahead of the live blocks by the seed at hand.
  refine Act.Spec.bind (Q := fun seed => On fun l n => n < 2 ^ 64 ∧ 1 ≤ n ∧ Seeded l (n - 1) ∧
    seed = mix64 (UInt64.ofNat n)) (Act.Spec.get fun m hm => ?_) fun seed => ?_
  · refine Act.Spec.bind (Act.Spec.require (R := fun _ s => s = m ∧ m.nextSeed + 1 < 2 ^ 64)
      (fun _ hs hlt => ⟨hs, hlt⟩) fun s hs _ => hs ▸ hm) fun _ => ?_
    refine Act.Spec.bind (Act.Spec.modify (R := fun _ s => On Seeded m ∧ m.nextSeed + 1 < 2 ^ 64 ∧
      s = { m with nextSeed := m.nextSeed + 1 }) fun s ⟨hs, hlt⟩ => ⟨hm, hlt, by rw [hs]⟩) fun _ => ?_
    refine Act.Spec.pure fun s ⟨hm, hlt, hs⟩ => ?_
    rw [hs]
    exact ⟨hlt, Nat.le_add_left _ _, hm, rfl⟩
  · refine Act.Spec.bind (Act.Spec.modify (R := fun _ => On fun l n => n < 2 ^ 64 ∧ 1 ≤ n ∧
      Seeded l (n - 1) ∧ seed = mix64 (UInt64.ofNat n)) fun _ hs => hs) fun _ => ?_
    unfold Model.recordLive
    refine Act.Spec.get fun m ⟨hlt, h1, hm, hseed⟩ => ?_
    have hadd : Seeded (m.live ++ [⟨ptr, layout, seed⟩]) m.nextSeed := by
      have hadd : Seeded (m.live ++ [⟨ptr, layout, seed⟩]) (m.nextSeed - 1 + 1) :=
        hm.add (by omega) (by rwa [Nat.sub_add_cancel h1])
      rwa [Nat.sub_add_cancel h1] at hadd
    refine Act.Spec.bind (Act.Spec.require (R := fun _ s => s = m) (fun _ hs _ => hs) fun s hs _ => ?_)
      fun _ => Act.Spec.modify fun s hs => ?_
    · rw [hs]
      exact hadd.subperm (List.sublist_append_left _ _).subperm
    · rw [hs]
      exact hadd

theorem doAlloc_minds {zeroed : Bool} : Minds (A := A) Seeded (Model.doAlloc layout zeroed) Seeded := by
  unfold Model.doAlloc
  dsimp only
  refine Minds.bind (keeping_call seeded_self) fun o => ?_
  cases o with
  | none => exact Minds.get fun m => minds_fail seeded_self
  | some ptr =>
    refine Minds.bind (admit_keeping seeded_self) fun _ => ?_
    refine Minds.bind (keeping_tally seeded_self) fun _ => ?_
    refine Minds.bind adopt_minds fun _ => keeping_modify (fun m => ?_) seeded_self
    split
    · exact ⟨rfl, rfl⟩
    · exact ⟨rfl, rfl⟩

/-- `take` gives back what it leaves and, if anything, the block it took. -/
def Takes (take : List Block → Option Block × List Block) : Prop :=
  ∀ l, ((take l).1.toList ++ (take l).2).Subperm l

theorem takes_back : Takes popBack := by
  intro l
  by_cases hne : l = []
  · subst hne
    exact List.Subperm.refl _
  · obtain ⟨block, rest, htake, hp⟩ := popBack_spec hne
    rw [htake]
    exact hp.symm.subperm

theorem takes_front : Takes popFront := by
  intro l
  by_cases hne : l = []
  · subst hne
    exact List.Subperm.refl _
  · obtain ⟨block, rest, htake, hp⟩ := popFront_spec hne
    rw [htake]
    exact hp.symm.subperm

theorem takes_swap (i : Nat) : Takes fun l => swapRemoveBack l i := by
  intro l
  cases hget : l[i]? with
  | none =>
    have hnone : swapRemoveBack l i = (none, l) := by
      unfold swapRemoveBack
      rw [hget]
    dsimp only
    rw [hnone]
    exact List.Subperm.refl _
  | some block =>
    obtain ⟨rest, htake, hp⟩ := swapRemoveBack_spec hget
    dsimp only
    rw [htake]
    exact hp.symm.subperm

/-- A block that was taken out of `live`, with the seeds in order. -/
def Out (block : Block) (l : List Block) (n : Nat) : Prop := Seeded (block :: l) n

theorem Out.seeded : ∀ l n, Out block l n → Seeded l n := fun l _ h =>
  h.subperm (List.sublist_cons_self block l).subperm

omit [RawAlloc A] in
theorem take_minds {take : List Block → Option Block × List Block} (ht : Takes take) {stop : Stop}
    {x : Model A → Block → Check A α} (hx : ∀ m block, Minds (Out block) (x m block) Seeded) :
    Minds Seeded (do
      let m ← Act.get
      let victim := take m.live
      Act.modify fun m => { m with live := victim.2 }
      let block ← Act.expect victim.1 stop
      x m block) Seeded := by
  refine Act.Spec.get fun m hm => ?_
  have hall : Seeded ((take m.live).1.toList ++ (take m.live).2) m.nextSeed := hm.subperm (ht _)
  dsimp only
  generalize take m.live = victim at hall
  refine Act.Spec.bind (Act.Spec.modify (R := fun _ s => s = { m with live := victim.2 }) fun s hs => by
    rw [hs]) fun _ => ?_
  refine Act.Spec.bind (Act.Spec.expect (Q := fun block => On (Out block)) (fun s block hs ho => ?_)
    fun s hs ho => ?_) (hx m)
  · rw [hs]
    rw [ho] at hall
    exact hall
  · rw [hs]
    rw [ho] at hall
    exact hall

theorem freeVictim_minds {take : List Block → Option Block × List Block} (ht : Takes take) :
    Minds (A := A) Seeded (Model.freeVictim take) Seeded := by
  unfold Model.freeVictim
  exact take_minds ht fun _ block => (keeping_release seeded_self).weaken Out.seeded

theorem drainOne_minds : Minds (A := A) Seeded Model.drainOne Seeded := by
  unfold Model.drainOne
  refine Minds.get fun m => ?_
  split
  · exact Minds.pure
  · refine Minds.bind ?_ fun _ => Minds.pure
    unfold Model.freeNext
    cases m.profile.order with
    | fifo => exact freeVictim_minds takes_front
    | lifo => exact freeVictim_minds takes_back
    | random => exact freeVictim_minds takes_back

theorem resize_minds {newSize : Nat} : Minds (A := A) (Out block) (Model.resize block newSize layout)
    Seeded := by
  unfold Model.resize
  refine Minds.bind (keeping_call Out.seeded) fun o => ?_
  cases o with
  | none =>
    refine Minds.bind (keeping_require Out.seeded) fun _ => ?_
    refine Minds.bind (Q := Seeded) (Act.Spec.modify fun m hm => ?_) fun _ =>
      Minds.get fun m => minds_fail seeded_self
    -- The block is put back.
    exact Seeded.subperm hm (List.perm_append_singleton _ _).subperm
  | some ptr =>
    refine Minds.get fun m => Minds.bind (keeping_require Out.seeded) fun _ => ?_
    refine Minds.bind (keeping_modify (fun _ => ⟨rfl, rfl⟩) Out.seeded) fun _ => ?_
    refine Minds.bind (admit_keeping Out.seeded) fun _ => Minds.get fun m' => ?_
    split
    · exact minds_fail Out.seeded
    · refine Minds.bind (adopt_minds.weaken Out.seeded) fun _ => ?_
      exact Minds.bind (keeping_require seeded_self) fun _ =>
        keeping_modify (fun _ => ⟨rfl, rfl⟩) seeded_self

theorem doRealloc_minds {index newSize : Nat} :
    Minds (A := A) Seeded (Model.doRealloc index newSize) Seeded := by
  unfold Model.doRealloc
  refine take_minds (x := fun m old => _) (takes_swap index) fun m old => ?_
  dsimp only
  split
  · exact minds_fail Out.seeded
  · refine Minds.bind (keeping_modify (fun _ => ⟨rfl, rfl⟩) Out.seeded) fun _ => ?_
    exact Minds.bind (keeping_expect Out.seeded) fun _ => resize_minds

/-! ## Runs -/

variable [Entropy E]

/-- A turn that ends, or stops by a refusal, leaves the seeds in order. -/
def Mindful (e : Stop) (s : Session A E) : Prop := ∀ f, e = .failure f → On Seeded s.model

omit [RawAlloc A] [Entropy E] in
theorem onModel_minds {x : Check A α} (hx : Minds Seeded x Seeded) :
    Act.Spec (fun s : Session A E => On Seeded s.model) (onModel x) (fun _ s => On Seeded s.model)
      Mindful :=
  Act.Spec.zoom fun s hs => Act.Spec.imp hx (fun m (hm : m = s.model) => hm ▸ hs) (fun _ _ h => h)
    fun _ _ h _ _ => h

omit [RawAlloc A] [Entropy E] in
theorem onEntropy_minds {x : Draw E Failure α} :
    Act.Spec (fun s : Session A E => On Seeded s.model) (onEntropy x) (fun _ s => On Seeded s.model)
      Mindful := by
  refine Act.Spec.zoom fun s hs e _ => ?_
  generalize x.run e = r
  obtain ⟨stop | a, t⟩ := r
  · exact fun _ _ => hs
  · exact hs

theorem doDealloc_minds : Act.Spec (fun s : Session A E => On Seeded s.model) Model.doDealloc
    (fun _ s => On Seeded s.model) Mindful := by
  have hdone : ∀ {b : Bool}, Act.Spec (fun s : Session A E => On Seeded s.model) (pure b)
      (fun _ s => On Seeded s.model) Mindful := Act.Spec.pure fun _ hs => hs
  unfold Model.doDealloc
  refine Act.Spec.get fun s hs => Act.Spec.pre ?_ fun t ht => ht ▸ hs
  cases s.model.profile.order with
  | random =>
    refine Act.Spec.bind onEntropy_minds fun o => ?_
    cases o with
    | none => exact hdone
    | some i => exact Act.Spec.bind (onModel_minds (freeVictim_minds (takes_swap i))) fun _ => hdone
  | lifo => exact Act.Spec.bind (onModel_minds (freeVictim_minds takes_back)) fun _ => hdone
  | fifo => exact Act.Spec.bind (onModel_minds (freeVictim_minds takes_front)) fun _ => hdone

theorem execute_minds (op : Op) : Act.Spec (fun s : Session A E => On Seeded s.model)
    (Model.execute op) (fun _ s => On Seeded s.model) Mindful := by
  cases op with
  | alloc layout zeroed =>
    exact Act.Spec.bind (onModel_minds doAlloc_minds) fun _ => Act.Spec.pure fun _ hs => hs
  | dealloc => exact doDealloc_minds
  | realloc index newSize =>
    exact Act.Spec.bind (onModel_minds doRealloc_minds) fun _ => Act.Spec.pure fun _ hs => hs

theorem turn_minds (i : Nat) : Act.Spec (fun s : Session A E => s.model.Sound ∧ On Seeded s.model)
    (Model.turn i) (fun _ s => On Seeded s.model) Mindful := by
  have hpanic : ∀ {p : Prop}, Asserts (Mindful (A := A) (E := E)) p := Or.inr fun _ _ f h => by cases h
  have hmark : ∀ {f : Model A → Model A}, (∀ m, (f m).live = m.live ∧ (f m).nextSeed = m.nextSeed) →
      Minds Seeded (Act.modify f) Seeded := fun hf => keeping_modify hf seeded_self
  unfold Model.turn
  refine Act.Spec.fix fun s ⟨hm, hs⟩ => ?_
  refine Act.Spec.bind (Q := fun _ t => t.model = { s.model with opIndex := i })
    (Act.Spec.zoom fun t ht => Act.Spec.modify fun m hm => by rw [hm, ht]) fun _ => ?_
  have hsound : Model.Sound { s.model with opIndex := i } := ⟨hm.books, hm.cap, hm.cap_pos⟩
  refine Act.Spec.bind (nextOp_spec hpanic hsound) fun o => ?_
  refine Act.Spec.pre (P := fun t => On Seeded t.model) ?_ fun t ⟨⟨left, ht⟩, _⟩ => ?_
  · cases o with
    | none => exact Act.Spec.pure fun t ht => ht
    | some op =>
      refine Act.Spec.bind (execute_minds op) fun more => ?_
      cases more with
      | false => exact Act.Spec.pure fun t ht => ht
      | true =>
        exact Act.Spec.bind (onModel_minds (hmark fun _ => ⟨rfl, rfl⟩)) fun _ =>
          Act.Spec.pure fun t ht => ht
  · show On Seeded t.model
    rw [ht]
    exact hs

/-- **The live blocks carry different seeds**, in every state a run reaches. -/
theorem Reached.seeded {a : A} {profile : Profile} {s : Session A E} (h : Reached a profile s) :
    Seeded s.model.live s.model.nextSeed := by
  induction h with
  | start e hcap => exact ⟨Nat.two_pow_pos 64, List.Subperm.refl _⟩
  | @turn s t i more hs hrun ih =>
    have hend := turn_minds i s ⟨hs.sound.1, ih⟩
    rw [hrun] at hend
    exact hend
  | @refused s t i f hs hrun hk ih =>
    have hend := turn_minds i s ⟨hs.sound.1, ih⟩
    rw [hrun] at hend
    exact hend f rfl
  | @drain s m more hs hrun ih =>
    have hend := drainOne_minds s.model ih
    rw [hrun] at hend
    exact hend

/-! ## Patterns -/

/-- **Distinct blocks never carry the same pattern**, and no block passes with its own pattern
    moved. A move by `d` is up or down: position `x` holds what belongs at `x + d` or `x - d`. -/
theorem patterns_distinct (A E : Type) [RawAlloc A] [Entropy E] :
    Function.Bijective mix64 ∧
    (∀ (m : Model A) l, Issued m l → l.Nodup ∧ l.length = m.nextSeed ∧
      (m.nextSeed < 2 ^ 64 - 1 → ∃ seed m', Model.freshSeed.run m = (.ok seed, m') ∧ seed ∉ l)) ∧
    (∀ a profile (s : Session A E), Reached a profile s → ∃ l, Issued s.model l ∧
      (s.model.live.map Block.seed).Subperm l) ∧
    (∀ (b : Bytes) (p len len' limit : Nat) (seed seed' : UInt64), seed ≠ seed' → 8 ≤ len →
      8 ≤ limit → verify (fill b p len seed) p len' limit (some seed') ≠ none) ∧
    ∀ (b : Bytes) (p len limit d : Nat) (seed : UInt64), d % 8 = 0 → 0 < d → d < 2 ^ 64 →
      ((8 ≤ limit ∧ ∀ i, i < 8 → b (p + i) = expectedByte (some seed) (i + d)) ∨
        ∃ x, x % 8 = 0 ∧ d ≤ x ∧ ∀ i, i < 8 → Covered len limit (x + i) ∧
          b (p + (x + i)) = expectedByte (some seed) (x + i - d)) →
      verify b p len limit (some seed) ≠ none := by
  refine ⟨Mixing.bijective64 mix64_injective, fun m l h => ⟨h.nodup, ?_, fun hlt => ?_⟩,
    fun a profile s h => ?_, fun b p len len' limit seed seed' => verify_other, ?_⟩
  · rw [h.eq.2]
    unfold issued
    rw [List.length_map, List.length_range]
  · have hrun := freshSeed_run (show m.nextSeed + 1 < 2 ^ 64 by omega)
    refine ⟨_, _, hrun, fun hm => ?_⟩
    have hnodup := (h.fresh hrun).nodup
    exact (List.nodup_append.mp hnodup).2.2 _ hm _ (List.mem_singleton_self _) rfl
  · exact ⟨_, issued_of_lt _ h.seeded.1 rfl, h.seeded.2⟩
  · intro b p len limit d seed hd hpos hlt hcopy
    rcases hcopy with ⟨hlimit, hb⟩ | ⟨x, hx, hdx, hb⟩
    · refine verify_moved (x := 0) (y := d) rfl hd hpos.ne (by omega) (by omega)
        (Covered.first hlimit) fun i hi => ?_
      rw [Nat.zero_add, hb i hi, Nat.add_comm]
    · refine verify_moved (x := x) (y := x - d) hx (by omega) (by omega) (by omega) (by omega)
        (fun i hi => (hb i hi).1) fun i hi => ?_
      rw [(hb i hi).2, Nat.sub_add_comm hdx]

end Wasmalloc.Testing
