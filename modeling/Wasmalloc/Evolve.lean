import Wasmalloc.Invariant

/- How the heap changes when no block is handed out or returned.

   `Evolves live g g' h h'` collects what every internal step promises: no live byte
   changes, runs and free slices stay, a page stays or its slices become free, which
   happens to empty pages only, no bin queue gains a page, and memory only grows. It is
   reflexive and transitive.

   Moving a page between queues, changing its countdown and releasing it are such
   steps; each keeps the invariant. -/
namespace Wasmalloc
open ByteMem

variable [Build] {M : Type} [Memory M]

/-- What a call of `grow` granted is free, as far as the map reaches. -/
def GrantsFree (g : Ghost) (e : GrowEntry) : Prop :=
  ∀ r, e.call.got = some r → ∀ i, InRun r e.call.want i → i < e.call.map.usableLimit →
    g.place i = .free

structure Evolves (live : List Block) (g g' : Ghost) (h h' : Heap M) : Prop where
  untouched : ∀ x, LiveByte live x → h'.bytes x = h.bytes x
  size_le : sizeSlices h.mem ≤ sizeSlices h'.mem
  foreign : ∀ i, g.place i = .foreign → g'.place i = .foreign ∨ g'.place i = .free
  free : ∀ i, g.place i = .free → g'.place i = .free
  claimed : ∀ i, g.place i = .claimed → g'.place i = .claimed
  run : ∀ i a, g.place i = .run a → g'.place i = .run a
  page : ∀ i p, g.place i = .page p →
    g'.place i = .page p ∨ (g'.place i = .free ∧ liveIn live p = [])
  bin : g'.bin = g.bin
  lists : g'.free = g.free
  binned : ∀ q ≤ maxBin, ∀ x ∈ g'.queue q, x ∈ g.queue q
  history : h'.history = h.history
  policy : h'.policy = h.policy
  init : h.initialized = true → h'.initialized = true
  log : ∃ new, h'.growLog = new ++ h.growLog ∧ ∀ e ∈ new, GrantsFree g' e

section Evolves
variable {live : List Block} {g g1 g2 : Ghost} {h h1 h2 : Heap M}

theorem Evolves.refl (live : List Block) (g : Ghost) (h : Heap M) : Evolves live g g h h where
  untouched := fun _ _ => rfl
  size_le := Nat.le_refl _
  foreign := fun _ hi => Or.inl hi
  free := fun _ hi => hi
  claimed := fun _ hi => hi
  run := fun _ _ hi => hi
  page := fun _ _ hi => Or.inl hi
  bin := rfl
  lists := rfl
  binned := fun _ _ _ hx => hx
  history := rfl
  policy := rfl
  init := id
  log := ⟨[], rfl, fun _ he => absurd he List.not_mem_nil⟩

theorem Evolves.trans (e : Evolves live g g1 h h1) (e' : Evolves live g1 g2 h1 h2) :
    Evolves live g g2 h h2 where
  untouched := fun x hx => (e'.untouched x hx).trans (e.untouched x hx)
  size_le := le_trans e.size_le e'.size_le
  foreign := fun i hi => (e.foreign i hi).elim (e'.foreign i) fun hf => Or.inr (e'.free i hf)
  free := fun i hi => e'.free i (e.free i hi)
  claimed := fun i hi => e'.claimed i (e.claimed i hi)
  run := fun i a hi => e'.run i a (e.run i a hi)
  page := fun i p hi => (e.page i p hi).elim (e'.page i p) fun hf =>
    Or.inr ⟨e'.free i hf.1, hf.2⟩
  bin := e'.bin.trans e.bin
  lists := e'.lists.trans e.lists
  binned := fun q hq x hx => e.binned q hq x (e'.binned q hq x hx)
  history := e'.history.trans e.history
  policy := e'.policy.trans e.policy
  init := fun hi => e'.init (e.init hi)
  log := by
    obtain ⟨new, hnew, hfree⟩ := e.log
    obtain ⟨new', hnew', hfree'⟩ := e'.log
    refine ⟨new' ++ new, by rw [hnew', hnew, List.append_assoc], ?_⟩
    intro c hc
    rcases List.mem_append.mp hc with hc | hc
    · exact hfree' c hc
    · exact fun r hr i hi hlim => e'.free i (hfree c hc r hr i hi hlim)

theorem Evolves.page_back (e : Evolves live g g1 h h1) {i p : Nat} (hi : g1.place i = .page p) :
    g.place i = .page p := by
  cases hplace : g.place i with
  | foreign => rcases e.foreign i hplace with h | h <;> rw [h] at hi <;> cases hi
  | free => rw [e.free i hplace] at hi; cases hi
  | claimed => rw [e.claimed i hplace] at hi; cases hi
  | run a => rw [e.run i a hplace] at hi; cases hi
  | page q =>
    rcases e.page i q hplace with h | ⟨h, -⟩
    · rw [h] at hi
      exact hi
    · rw [h] at hi
      cases hi

theorem Evolves.unclaimed (e : Evolves live g g1 h h1) (hu : ∀ i, g.place i ≠ .claimed) (i : Nat) :
    g1.place i ≠ .claimed := by
  intro hi
  cases hplace : g.place i with
  | foreign => rcases e.foreign i hplace with h | h <;> rw [h] at hi <;> cases hi
  | free => rw [e.free i hplace] at hi; cases hi
  | claimed => exact hu i hplace
  | run a => rw [e.run i a hplace] at hi; cases hi
  | page q =>
    rcases e.page i q hplace with h | ⟨h, -⟩ <;> rw [h] at hi <;> cases hi

/-- What an operation promises whatever it hands out: live bytes stay, and so do owned slices. -/
structure Preserves (live : List Block) (h h' : Heap M) : Prop where
  untouched : ∀ x, LiveByte live x → h'.bytes x = h.bytes x
  recorded : ∀ i, h.slices.Recorded i → h'.slices.Recorded i
  size_le : sizeSlices h.mem ≤ sizeSlices h'.mem
  policy : h'.policy = h.policy
  init : h.initialized = true → h'.initialized = true

theorem Preserves.trans (e : Preserves live h h1) (e' : Preserves live h1 h2) :
    Preserves live h h2 where
  untouched := fun x hx => (e'.untouched x hx).trans (e.untouched x hx)
  recorded := fun i hi => e'.recorded i (e.recorded i hi)
  size_le := le_trans e.size_le e'.size_le
  policy := e'.policy.trans e.policy
  init := fun hi => e'.init (e.init hi)

theorem Evolves.preserves (e : Evolves live g g1 h h1)
    (hs : SlicesOk g.place h.slices (sizeSlices h.mem) h.bytes)
    (hs1 : ∀ i, h1.slices.Recorded i ↔ g1.place i ≠ .foreign) : Preserves live h h1 where
  untouched := e.untouched
  recorded := fun i hi => by
    rw [hs.recorded] at hi
    rw [hs1]
    intro hf
    cases hplace : g.place i with
    | foreign => exact hi hplace
    | free => rw [e.free i hplace] at hf; cases hf
    | claimed => rw [e.claimed i hplace] at hf; cases hf
    | run a => rw [e.run i a hplace] at hf; cases hf
    | page q => rcases e.page i q hplace with h | ⟨h, -⟩ <;> rw [h] at hf <;> cases hf
  size_le := e.size_le
  policy := e.policy
  init := e.init

end Evolves

/-! ## Moving pages between queues -/

/-- A change of queues and of heap-owned header fields that keeps the countdowns. -/
structure Moved (g : Ghost) (Q : Nat → List Nat) (h h' : Heap M) : Prop where
  ok : QueuesOk { g with queue := Q } h'.bytes h'.queues h'.direct h'.occupied
  edit : LinkEdit g h.bytes h'.bytes
  retire : ∀ x, PageAddr x →
    Page.get h'.bytes x .retireExpire = Page.get h.bytes x .retireExpire
  frame : h' = { h with bytes := h'.bytes, queues := h'.queues, direct := h'.direct,
                        occupied := h'.occupied }

section Moved
variable {live : List Block} {g : Ghost} {Q R : Nat → List Nat} {h h1 h2 : Heap M} {p qi : Nat}

theorem PagesOk.queue {b : Bytes} (hp : PagesOk g b live) (Q : Nat → List Nat) :
    PagesOk { g with queue := Q } b live := fun i p hi =>
  { ok := (hp i p hi).ok, slices := (hp i p hi).slices }

theorem BlocksOk.queue {hist : History} (hb : BlocksOk g hist live) (Q : Nat → List Nat) :
    BlocksOk { g with queue := Q } hist live :=
  { nodup := hb.nodup, runs := hb.runs
    block := fun blk hm => { size_pos := (hb.block blk hm).size_pos
                             aligned := (hb.block blk hm).aligned
                             page := (hb.block blk hm).page
                             run := (hb.block blk hm).run } }

/-- Edits of heap-owned fields and of the queues keep the rest of the invariant. -/
theorem Core.relink (hc : Core g h live) (edit : LinkEdit g h.bytes h1.bytes)
    (ok : QueuesOk { g with queue := Q } h1.bytes h1.queues h1.direct h1.occupied)
    (frame : h1 = { h with bytes := h1.bytes, queues := h1.queues, direct := h1.direct,
                           occupied := h1.occupied }) :
    Core { g with queue := Q } h1 live ∧
      ((∀ q ≤ maxBin, ∀ x ∈ Q q, x ∈ g.queue q) → Evolves live g { g with queue := Q } h h1) := by
  have hpages := hc.pages.linkEdit hc.slices edit
  have hbytes : ∀ x, g.place (x / sliceSize) = .free → h1.bytes x = h.bytes x := by
    intro x hx
    refine edit.not_page hc.pages ?_
    intro q hq
    rw [hx] at hq
    cases hq
  have hsent := fun x hlo hhi =>
    (edit.sentinel hc.pages hc.slices hlo hhi).trans (hc.sentinel x hlo hhi)
  have hlive : ∀ x, LiveByte live x → h1.bytes x = h.bytes x := fun x hx =>
    edit.liveByte hc.pages hc.blocks hx
  have hslices := hc.slices.congr hbytes
  generalize h1.bytes = b1 at *
  generalize h1.queues = q1 at *
  generalize h1.direct = d1 at *
  generalize h1.occupied = o1 at *
  rw [frame]
  exact ⟨{ slices := hslices, pages := hpages.queue Q, blocks := hc.blocks.queue Q, queues := ok,
           sentinel := hsent, uninit := hc.uninit, log := hc.log },
    fun hsub => { Evolves.refl live g h with untouched := hlive, binned := hsub }⟩

theorem Core.moved (hc : Core g h live) (m : Moved g Q h h1) :
    Core { g with queue := Q } h1 live ∧
      ((∀ q ≤ maxBin, ∀ x ∈ Q q, x ∈ g.queue q) → Evolves live g { g with queue := Q } h h1) :=
  hc.relink m.edit m.ok m.frame

omit [Memory M] in
theorem Moved.trans (m : Moved g Q h h1) (m' : Moved { g with queue := Q } R h1 h2) :
    Moved g R h h2 where
  ok := m'.ok
  edit := m.edit.trans ⟨m'.edit.outside, m'.edit.fields⟩
  retire := fun x hx => (m'.retire x hx).trans (m.retire x hx)
  frame := by
    have h' := m'.frame
    rw [m.frame] at h'
    exact h'

omit [Memory M] in
theorem Moved.range (m : Moved g Q h h1) : h1.retiredMin = h.retiredMin ∧
    h1.retiredMax = h.retiredMax ∧ h1.collections = h.collections := by
  rw [m.frame]
  exact ⟨rfl, rfl, rfl⟩

omit [Memory M] in
theorem Relinked.moved {l : List Nat} (r : Relinked g (g.withQueue qi l) h h1) :
    Moved g (Function.update g.queue qi l) h h1 :=
  { ok := r.ok, edit := r.edit, retire := fun x hx => (r.kept x hx).2, frame := r.frame }

omit [Memory M] in
theorem setFlags_moved (hq : QueuesOk g h.bytes h.queues h.direct h.occupied) (hp : PageAddr p)
    (hpage : IsPage g p) (hnew : ∀ q, p ∉ g.queue q) {v : Nat} (hv : v < 256) :
    Moved g g.queue h (h.setField p .flags v) where
  ok := by
    refine hq.congr ?_
    intro q x hx f _ _
    have hne : x ≠ p := fun e => hnew q (e ▸ hx)
    unfold Heap.setField
    rw [Page.get_set hp.dvd (hq.addr x hx).dvd (by exact hv), if_neg (fun e => hne e.1)]
  edit := by
    refine { outside := fun x hx => Page.set_out (hx p hp hpage), fields := ?_ }
    intro x hx f hf
    unfold Heap.setField
    rw [Page.get_set hp.dvd hx.dvd (by exact hv), if_neg]
    intro e
    rw [e.2] at hf
    cases hf
  retire := by
    intro x hx
    unfold Heap.setField
    rw [Page.get_set hp.dvd hx.dvd (by exact hv), if_neg (fun e => absurd e.2 (by decide))]
  frame := rfl

/-- The members of the queues once `p` is taken out of queue `qi`. -/
def without (g : Ghost) (qi p : Nat) : Nat → List Nat :=
  Function.update g.queue qi ((g.queue qi).erase p)

omit [Build] [Memory M] in
theorem mem_without {q x : Nat} (hx : x ∈ without g qi p q) : x ∈ g.queue q := by
  unfold without at hx
  by_cases he : q = qi
  · rw [he, Function.update_self] at hx
    rw [he]
    exact List.mem_of_mem_erase hx
  · rwa [Function.update_of_ne he] at hx

omit [Build] [Memory M] in
theorem mem_without_of_ne {q x : Nat} (hx : x ∈ g.queue q) (hne : x ≠ p) : x ∈ without g qi p q := by
  unfold without
  by_cases he : q = qi
  · rw [he, Function.update_self]
    rw [he] at hx
    exact (List.mem_erase_of_ne hne).mpr hx
  · rwa [Function.update_of_ne he]

omit [Memory M] in
theorem not_mem_without {b : Bytes} {queues : Nat → PageQueue} {direct : Nat → Nat}
    {occupied : Words.U64} (hq : QueuesOk g b queues direct occupied) (hp : p ∈ g.queue qi) (q : Nat) :
    p ∉ without g qi p q := by
  intro hmem
  have he := hq.disjoint q qi p (mem_without hmem) hp
  have hnd := (List.nodup_cons.mp (hq.queue qi (hq.lt hp)).nodup).2
  unfold without at hmem
  rw [he, Function.update_self] at hmem
  exact (hnd.mem_erase_iff.mp hmem).1 rfl

/-- The queues after `p` went to the end of queue `dst`. -/
structure Transferred (g : Ghost) (Q : Nat → List Nat) (p dst : Nat) : Prop where
  mem : p ∈ Q dst
  only : ∀ q, p ∈ Q q → q = dst
  append : Q dst = (g.queue dst).erase p ++ [p]
  keeps : ∀ q ≠ dst, Q q = (g.queue q).erase p
  others : ∀ q x, x ≠ p → (x ∈ Q q ↔ x ∈ g.queue q)

omit [Memory M] in
/-- Out of one queue, flagged, to the end of another: `moveToFull` and `unfull`. -/
theorem transfer {dst v : Nat} (hq : QueuesOk g h.bytes h.queues h.direct h.occupied)
    (hp : p ∈ g.queue qi) (hv : v < 256)
    (hhome : (dst = g.bin p ∧ v = 0) ∨ (dst = fullQueue ∧ v = flagInFullQueue)) :
    ∃ Q, Moved g Q h (((h.remove qi p).setField p .flags v).pushBack dst p) ∧
      Transferred g Q p dst := by
  have hm := hq.member qi p hp
  have hr := (remove_ok hq hp).moved
  have hout : ∀ q, p ∉ without g qi p q := not_mem_without hq hp
  have hf := setFlags_moved (h := h.remove qi p) hr.ok hm.addr hm.page hout hv
  have hflag : Page.get ((h.remove qi p).setField p .flags v).bytes p .flags = v :=
    Page.get_set_same (by exact hv)
  have hmember : Member { g with queue := without g qi p }
      ((h.remove qi p).setField p .flags v).bytes dst p :=
    { addr := hm.addr, page := hm.page, bin_pos := hm.bin_pos, bin_le := hm.bin_le,
      home := by rw [hflag]; exact hhome }
  have hb := (pushBack_ok hf.ok hmember hout).moved
  have herase : ∀ q, without g qi p q = (g.queue q).erase p := by
    intro q
    unfold without
    by_cases he : q = qi
    · rw [he, Function.update_self]
    · rw [Function.update_of_ne he, List.erase_of_not_mem fun hmem => he (hq.disjoint q qi p hmem hp)]
  refine ⟨_, (hr.trans hf).trans hb, ?_⟩
  refine { mem := ?_, only := ?_, append := ?_, keeps := ?_, others := ?_ }
  · rw [Function.update_self]
    simp
  · intro q hmem
    by_contra hne
    rw [Function.update_of_ne hne] at hmem
    exact hout q hmem
  · rw [Function.update_self]
    exact congrArg (· ++ [p]) (herase dst)
  · intro q hne
    rw [Function.update_of_ne hne]
    exact herase q
  · intro q x hne
    by_cases he : q = dst
    · rw [he, Function.update_self]
      simp only [List.mem_append, List.mem_singleton, hne, or_false]
      exact ⟨fun hx => mem_without hx, fun hx => mem_without_of_ne hx hne⟩
    · rw [Function.update_of_ne he]
      exact ⟨fun hx => mem_without hx, fun hx => mem_without_of_ne hx hne⟩

omit [Memory M] in
theorem Settled.moved {but but' : Nat → Prop} (hs : Settled g h.bytes but)
    (m : Moved g Q h h1)
    (hqueued : ∀ i x, g.place i = .page x → ¬ but' x → ∃ q, x ∈ Q q)
    (hfull : ∀ x ∈ Q fullQueue, ¬ but' x → (x ∈ g.queue fullQueue ∧ ¬ but x) ∨ Parked g h.bytes x) :
    Settled { g with queue := Q } h1.bytes but' := by
  refine { queued := hqueued, parked := ?_ }
  intro x hx hb
  have haddr : PageAddr x := (m.ok.member _ x hx).addr
  have hparked : Parked g h.bytes x := (hfull x hx hb).elim (fun hx => hs.parked x hx.1 hx.2) id
  exact { free := hparked.free
          capacity := (m.edit.fields x haddr _ rfl).trans hparked.capacity
          retire := (m.retire x haddr).trans hparked.retire }

end Moved

end Wasmalloc
