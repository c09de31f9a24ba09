import Wasmalloc.Conservation
import Wasmalloc.Safety

/- What a refusal means.

   A call that returns `none` has parked, aged and released pages and grown memory
   before it gave up. It is harmless all the same (`refusal_harmless`): the blocks are
   untouched and usable, only empty pages are gone, and what was granted is free. And a
   request for a page is refused only when nothing could serve it (`refusal_justified`):
   no block of its bin, no empty page anywhere, no run in the map, no growth. -/
namespace Wasmalloc
open ByteMem

section Harmless
variable [Build] {M : Type} [Memory M] {c : Config M} {e : Event M} {g g' : Ghost}

/-- The event is a call that returns `none`. -/
def Config.Refuses (c : Config M) : Event M → Prop
  | .alloc layout => (c.heap.alloc layout).1 = none
  | .allocZeroed layout => (c.heap.allocZeroed layout).1 = none
  | .realloc blk newSize fits => (c.heap.realloc blk.addr blk.layout newSize fits).1 = none
  | _ => False

/-- Only empty pages are gone, and their slices are free. -/
def PagesKept (h h' : Heap M) : Prop :=
  ∀ q p, h.Queued q p → (∃ q', h'.Queued q' p) ∨
    (h.field p .used = 0 ∧ ∀ i, h.OnPage p i → h'.slices.Free i)

/-- The regions granted from `h` to `h'` are free, as far as the map reaches. -/
def GrantsKept (h h' : Heap M) : Prop :=
  ∃ new, h'.growLog = new ++ h.growLog ∧ ∀ e ∈ new, ∀ r, e.call.got = some r →
    ∀ i, InRun r e.call.want i → i < e.call.map.usableLimit → h'.slices.Free i

/-- What a call that fails leaves behind. -/
structure Harmless (c c' : Config M) : Prop where
  live : c'.live = c.live
  bytes : ∀ blk ∈ c.live, KeepsBytes c c' blk
  usable : ∀ blk ∈ c.live, c'.Allowed (.dealloc blk) ∧
    (∀ newSize fits, 1 ≤ newSize → c'.Allowed (.realloc blk newSize fits))
  block : ∀ blk ∈ c.live, Exclusive c' blk ∧ Recovered c' blk
  wellFormed : HeapWf c'.heap c'.live
  map : c'.heap.slices.Inv
  conserved : Conserved c'
  owned : ∀ i, c.heap.slices.Recorded i → c'.heap.slices.Recorded i
  pages : PagesKept c.heap c'.heap
  grants : GrantsKept c.heap c'.heap

theorem Evolves.perm {live live' : List Block} {h h' : Heap M} (he : Evolves live g g' h h')
    (hp : live.Perm live') : Evolves live' g g' h h' :=
  { he with
    untouched := fun x hx => he.untouched x ((LiveByte.perm hp).mpr hx)
    page := fun i p hi => (he.page i p hi).imp_right fun ⟨hfree, hempty⟩ =>
      ⟨hfree, List.Perm.eq_nil (hempty ▸ (liveIn_perm hp p).symm)⟩ }

theorem Evolves.pagesKept {live : List Block} {h h' : Heap M} (he : Evolves live g g' h h')
    (hi : Inv g h live) (hi' : Inv g' h' live) : PagesKept h h' := by
  intro q p hq
  have hin := hi.core.queued hq
  rcases he.page _ p hin.isPage with hpage | ⟨hfree, hempty⟩
  · exact Or.inl (hi'.isPage_iff.mp hpage)
  · refine Or.inr ⟨?_, fun i hon => ?_⟩
    · exact hin.ok.used.trans (by rw [hempty]; rfl)
    · rcases he.page i p ((hi.core.onPage_iff hq).mp hon) with hplace | ⟨hplace, -⟩
      · have hpage : g'.place (p / sliceSize) = .page p := (hi'.core.pages i p hplace).isPage
        rw [hfree] at hpage
        cases hpage
      · exact (hi'.core.slices.free i).mpr hplace

theorem Evolves.grantsKept {live : List Block} {h h' : Heap M} (he : Evolves live g g' h h')
    (hi' : Inv g' h' live) : GrantsKept h h' := by
  obtain ⟨new, hnew, hfree⟩ := he.log
  exact ⟨new, hnew, fun e hm r hr i hin hlim =>
    (hi'.core.slices.free i).mpr (hfree e hm r hr i hin hlim)⟩

theorem Evolves.harmless {h' : Heap M} (he : Evolves c.live g g' c.heap h')
    (hi : Inv g c.heap c.live) (hi' : Inv g' h' c.live) :
    Harmless c { heap := h', live := c.live } := by
  have hp := he.preserves hi.core.slices hi'.core.slices.recorded
  exact { live := rfl, bytes := fun blk hm => hp.keepsBytes hm
          usable := fun blk hm => ⟨hm, fun _ _ hs => ⟨hm, hs⟩⟩
          block := fun blk hm => ⟨hi'.exclusive hm, hi'.recovered hm⟩
          wellFormed := hi'.wellFormed, map := hi'.core.slices.inv, conserved := hi'.conserved
          owned := hp.recorded, pages := he.pagesKept hi hi', grants := he.grantsKept hi' }

variable [Memory.Contract M]

/-- A call that returns `none` is a chain of internal steps. -/
theorem refusal_evolves (hi : Inv g c.heap c.live) (ha : c.Allowed e) (hr : c.Refuses e) :
    ∃ g' h', c.step e = { heap := h', live := c.live } ∧ Inv g' h' c.live ∧
      Evolves c.live g g' c.heap h' := by
  have hanswer : ∀ (layout : Layout) (zero : Bool) (r : Option Nat × Heap M),
      Answered c.live g c.heap layout zero r → r.1 = none →
      ∃ g' h', c.answer layout c.live r = { heap := h', live := c.live } ∧ Inv g' h' c.live ∧
        Evolves c.live g g' c.heap h' := by
    intro layout zero r hans hnone
    rcases hans with ⟨a, h', g', rfl, -⟩ | ⟨h', g', rfl, hno⟩
    · cases hnone
    · exact ⟨g', h', rfl, hno.inv, hno.evolves⟩
  cases e with
  | alloc layout => exact hanswer layout false _ (alloc_answered hi ha.2 ha.1) hr
  | allocZeroed layout => exact hanswer layout true _ (allocZeroed_answered hi ha.2 ha.1) hr
  | realloc blk newSize fits =>
    have hperm := List.perm_cons_erase ha.1
    have hres : Resized (c.live.erase blk) g c.heap blk (blk.layout.withSize newSize fits)
        (c.heap.realloc blk.addr blk.layout newSize fits) :=
      realloc_resized (hi.perm hperm) ha.2 fits
    have hstep : c.step (.realloc blk newSize fits) = c.answer (blk.layout.withSize newSize fits)
        (c.live.erase blk) (c.heap.realloc blk.addr blk.layout newSize fits) := rfl
    have hnone : (c.heap.realloc blk.addr blk.layout newSize fits).1 = none := hr
    rcases hres with ⟨q, h1, g1, hr1, -⟩ | ⟨h1, g1, hr1, hi1, he1⟩
    · rw [hr1] at hnone
      cases hnone
    · rw [hstep, hr1]
      exact ⟨g1, h1, rfl, hi1.perm hperm.symm, he1.perm hperm.symm⟩
  | dealloc _ => exact hr.elim
  | write _ => exact hr.elim
  | outside _ _ => exact hr.elim

/-- **A failed call is harmless**, in every reachable state and wherever it gives up. -/
theorem refusal_harmless (hc : Reachable c) (ha : c.Allowed e) (hr : c.Refuses e) :
    Harmless c (c.step e) ∧ Reachable (c.step e) := by
  obtain ⟨g, hi⟩ := reachable_ok hc
  obtain ⟨g', h', hstep, hi', he⟩ := refusal_evolves hi ha hr
  refine ⟨?_, reachable_step hc ha⟩
  rw [hstep]
  exact he.harmless hi hi'

end Harmless

open Sample in
/-- There is no room for the page a medium block needs. -/
theorem held_harmless : Harmless held (held.step (.realloc block 20000 (by decide))) :=
  (refusal_harmless held_reachable (e := .realloc block 20000 (by decide)) ⟨held_mem, by decide⟩
    (by show (held.heap.realloc block.addr block.layout 20000 _).1 = none; decide +kernel)).1

/-! ## Refusals are justified -/

section Justified
variable [Build] {M : Type} [Memory M] {c : Config M} {e : Event M} {g g' : Ghost} {b : Nat}
  {layout : Layout}

/-- From `h` to `h'` all that could serve a request of bin `b` was used up. -/
structure NothingLeft (h h' : Heap M) (b : Nat) : Prop where
  full : ∀ q p, h'.Queued q p → h'.field p .bin = b →
    q = fullQueue ∧ h'.field p .used = h'.field p .reserved
  busy : ∀ q p, h'.Queued q p → 0 < h'.field p .used
  noRun : ∀ start, ¬ h'.slices.Serves (pageSlices b) (pageSlices b) start
  ended : SupplyEnded h h' (pageSlices b) (pageSlices b)

theorem Parked.used {bytes : Bytes} {live : List Block} {p : Nat} (hp : Parked g bytes p)
    (hin : PageIn g bytes live p) : Page.get bytes p .used = Page.get bytes p .reserved := by
  have hlen := hin.ok.blocks.length_eq
  simp only [Page.blocks, List.length_append, List.length_map, List.length_range, hp.free,
    List.length_nil, hp.capacity] at hlen
  rw [hin.ok.used, hin.ok.reserved]
  omega

theorem NoPage.nothingLeft {live : List Block} {h h' : Heap M} (hn : NoPage live g g' h h' b) :
    NothingLeft h h' b := by
  have hx := hn.exhausted
  have hc := hx.inv.core
  refine { full := ?_, busy := ?_, noRun := hx.unserved, ended := hx.ended }
  · intro q p hq hbin
    have hmem := hc.queued_iff.mp hq
    have hin := hc.queued hq
    have hgbin : g'.bin p = b := hin.ok.bin.symm.trans hbin
    rcases (hc.queues.member q p hmem).home with ⟨hqb, -⟩ | ⟨rfl, -⟩
    · rw [hqb, hgbin, hn.empty] at hmem
      exact absurd hmem List.not_mem_nil
    · exact ⟨rfl, (hx.inv.settled.parked p hmem (fun e => e)).used hin⟩
  · exact fun q p hq => (hx.quiet q p (hc.queued_iff.mp hq)).1

variable [Memory.Contract M]

/-- **A refusal is justified**: when `alloc` or `allocZeroed` refuses a request that a page
    would serve, no block of its bin, no empty page and no run is left, and the supply ended. -/
theorem refusal_justified (hc : Reachable c) (he : e = .alloc layout ∨ e = .allocZeroed layout)
    (ha : c.Allowed e) (hclass : classify layout = .bin b) (hr : c.Refuses e) :
    NothingLeft c.heap (c.step e).heap b := by
  obtain ⟨g, hi⟩ := reachable_ok hc
  have hanswer : ∀ (zero : Bool) (r : Option Nat × Heap M),
      Answered c.live g c.heap layout zero r → r.1 = none →
      NothingLeft c.heap (c.answer layout c.live r).heap b := by
    intro zero r hans hnone
    rcases hans with ⟨a, h', g', rfl, -⟩ | ⟨h', g', rfl, hno⟩
    · cases hnone
    · exact (hno.page b hclass).nothingLeft
  rcases he with rfl | rfl
  · exact hanswer false _ (alloc_answered hi ha.2 ha.1) hr
  · exact hanswer true _ (allocZeroed_answered hi ha.2 ha.1) hr

end Justified

open Sample in
theorem held_nothingLeft :
    NothingLeft held.heap (held.step (.alloc medium)).heap (bin 20000) :=
  refusal_justified held_reachable (Or.inl rfl) (held_allowed medium (by decide)).1
    (by decide +kernel) (by show (held.heap.alloc medium).1 = none; decide +kernel)

end Wasmalloc
