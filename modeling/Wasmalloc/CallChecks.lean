import Wasmalloc.Conservation
import Wasmalloc.InPlace
import Wasmalloc.Retention
import Wasmalloc.SearchChecks

/- The calls of a program pass their checks.

   A call is checked in a state that a run reaches: the invariant holds, the map ends
   inside the address space (`InBounds`), and every page of a bin queue has been extended
   (`Shelves.Kept`). Where a call goes on after another one, as `realloc` does when it
   moves a block, the three hold again of the state it goes on in. -/
namespace Wasmalloc
open ByteMem Words Obligations

variable [Build] {M : Type} [Memory M] {live : List Block} {g g' : Ghost} {h h' h1 : Heap M}
  {layout newLayout : Layout} {blk : Block} {p a n : Nat}

/-! ## Taking a block -/

omit [Memory M] in
theorem popBlock_none_checks (k : Check) (hpop : h.popBlock p = (none, h1)) : Page.PopChecks k h.bytes p := by
  intro hfree
  unfold Heap.popBlock Page.pop at hpop
  simp only [if_neg hfree] at hpop
  cases (Prod.mk.inj hpop).1

theorem takeBlock_checks (k : Check) (hi : Inv g h live) (hn : n ≤ maxBin) (hp : p ∈ g.queue n)
    (hfree : g.free p ≠ []) (hs : 1 ≤ layout.size) (hclass : classify layout = .bin n) :
    h.TakeBlockChecks k p := by
  obtain ⟨a, g1, h1, hpop, -⟩ := popBlock_spec hi hn hp hfree hs hclass
  have hsome : (h.popBlock p).1.isSome = true := by
    rw [hpop]
    rfl
  exact ⟨(hi.core.member hp).1.ok.toPageShape.pop_checks k, asserts_of hsome, guards_of hsome⟩

/-! ## Allocation -/

section Alloc
variable [Memory.Contract M]

theorem allocHuge_checks (k : Check) (hi : Inv g h live) (hinit : h.initialized = true) (hb : h.InBounds)
    (hd : h.policy.StepChecks k) (top : Bool) : h.AllocHugeChecks k layout top := by
  obtain ⟨e, he, halign, -⟩ := hugeAlign layout
  have hpos := hugeSlices_pos layout
  have hrun := acquireRun_checks k hi hinit hb hd hpos he top
  have hspec := acquireRun_spec hi hinit hpos he top
  unfold Heap.AllocHugeChecks
  dsimp only
  rw [halign]
  refine ⟨asserts_of hinit, hrun, fun run h1 hres => computes_of ?_⟩
  rw [hres] at hspec
  rcases hspec with ⟨run', h1', g1, hres', hcl⟩ | ⟨h1', g1, hres', -⟩
  · cases hres'
    refine hcl.core.slices.start_fits ?_
    rw [paint_in ⟨Nat.le_refl _, by omega⟩]
    simp
  · cases hres'

theorem searchPage_checks (k : Check) (hmem : Memory.EndsInside M) (hi : Inv g h live)
    (hk : Shelves.Kept hi.shelves none) (hb : h.InBounds) (hd : h.policy.StepChecks k)
    (hcov : h.initialized = false → CoversInitial h) (hn : 1 ≤ n) (hn' : n ≤ maxBin) :
    h.SearchPageChecks k n := by
  have hnew := hi.core.uninit
  obtain ⟨⟨g1, hi1, -⟩, -⟩ := ensureInit_inv hi hcov
  have hcounted := (hb.ensureInit fun h0 => hnew h0).counted
  obtain ⟨⟨g2, hi2, he2⟩, hinit⟩ := readied_inv hi hcov
  have hk2 := (readied_moves hi hcov hi2).kept hk
  refine ⟨ensureInit_checks k hi hcov, computes_of ?_, fun _ => ?_, ?_⟩
  · unfold genericCollectPeriod at hcounted
    omega
  · exact collectRetired_checks k (hi1.bookkeeping _ _ _ _).1
  · refine findPage_checks k hmem hi2 hinit (hb.readied fun h0 => hnew h0) ?_ hk2.opened hn hn'
    rw [he2.policy]
    exact hd

theorem allocGeneric_checks (k : Check) (hmem : Memory.EndsInside M) (hi : Inv g h live)
    (hk : Shelves.Kept hi.shelves none) (hb : h.InBounds) (hd : h.policy.StepChecks k)
    (hcov : h.initialized = false → CoversInitial h) (hs : 1 ≤ layout.size) :
    h.AllocGenericChecks k layout := by
  refine ⟨classify_checks k layout, ?_⟩
  cases hclass : classify layout with
  | huge =>
    obtain ⟨⟨g1, hi1, he1⟩, hinit⟩ := ensureInit_inv hi hcov
    refine ⟨ensureInit_checks k hi hcov, allocHuge_checks k hi1 hinit
      (hb.ensureInit fun h0 => hi.core.uninit h0) ?_ false⟩
    rw [he1.policy]
    exact hd
  | bin n =>
    have hbinned := classify_bin hs hclass
    have hlt := bin_lt hbinned.bin_lt
    simp only [queueIndex_of_lt hlt]
    refine ⟨fun _ => queueIndex_checks k hlt, ?_⟩
    split
    · rename_i hhead
      obtain ⟨-, hne, hfree⟩ := hhead
      have hmem := (first_mem hi hlt).resolve_left (by rw [queueIndex_of_lt hlt]; exact hne)
      rw [queueIndex_of_lt hlt] at hmem
      exact takeBlock_checks k hi hbinned.bin_lt hmem
        ((hi.core.member hmem).1.ok.hasFree_iff.mp hfree) hs hclass
    · refine ⟨searchPage_checks k hmem hi hk hb hd hcov hbinned.bin_pos hbinned.bin_lt, ?_⟩
      intro page h1 hres
      rcases searchPage_spec hi hcov hbinned.bin_pos hbinned.bin_lt with
        ⟨p, h2, g2, hres', hf⟩ | ⟨h2, g2, hres', -⟩
      · obtain ⟨hp, hh⟩ := Prod.mk.inj (hres.symm.trans hres')
        obtain rfl := Option.some.inj hp
        subst hh
        exact takeBlock_checks k hf.inv hbinned.bin_lt hf.queued hf.free hs hclass
      · cases hres.symm.trans hres'

theorem alloc_checks (k : Check) (hmem : Memory.EndsInside M) (hi : Inv g h live)
    (hk : Shelves.Kept hi.shelves none) (hb : h.InBounds) (hd : h.policy.StepChecks k)
    (hcov : h.initialized = false → CoversInitial h) (hs : 1 ≤ layout.size) :
    h.AllocChecks k layout := by
  refine ⟨fun _ _ => computes_of ⟨layout_fits layout, layout.align_pos⟩, ?_⟩
  dsimp only
  split
  · rename_i hsmall
    refine ⟨asserts_of hsmall, ?_⟩
    rcases direct_pop hi hs hsmall with hnone | ⟨n, hclass, hn, hp, hfree⟩
    · refine ⟨popBlock_none_checks k hnone, fun h1 hpop => ?_⟩
      obtain rfl := (Prod.mk.inj (hnone.symm.trans hpop)).2
      exact allocGeneric_checks k hmem hi hk hb hd hcov hs
    · refine ⟨(takeBlock_checks k hi hn hp hfree hs hclass).1, fun h1 hpop => ?_⟩
      obtain ⟨a, g1, h2, hpop', -⟩ := popBlock_spec hi hn hp hfree hs hclass
      cases hpop.symm.trans hpop'
  · exact allocGeneric_checks k hmem hi hk hb hd hcov hs

end Alloc

/-! ## Freeing -/

/-- **Pushing a block** onto the page it came from. -/
theorem pushBlock_checks (k : Check) (hi : Inv g h (blk :: live)) (hclass : classify blk.layout = .bin n) :
    h.PushBlockChecks k (Page.headerOf (kindOfBin n) blk.addr) blk.addr := by
  obtain ⟨hstep, hcore, -, -, -⟩ := push_core hi hclass
  have hin := ((hi.core.blocks.block blk List.mem_cons_self).in_page hi.core.pages
    List.mem_cons_self hclass).1
  have hhome := home_bin hclass
  generalize Page.headerOf (kindOfBin n) blk.addr = p at *
  obtain ⟨q, hq⟩ := hi.settled.queued _ p hin.isPage (fun e => e)
  refine ⟨hin.ok.toPageShape.push_checks k ?_, fun _ => ?_⟩
  · rw [liveIn_cons, if_pos hhome]
    exact List.mem_cons_self
  · obtain ⟨g1, h1, hdef, hi1, -, hmem, hbin, -⟩ :=
      unfull_putBack hcore (hstep.settled hi) hi.unclaimed hq
    unfold Heap.DeallocTransitionChecks
    dsimp only
    rw [hdef]
    refine ⟨fun hflag => unfull_checks k hcore ?_, fun hempty => ?_⟩
    · -- A flagged page is in the full queue.
      rcases (hcore.queues.member q p hq).home with ⟨-, hf⟩ | ⟨hfull, -⟩
      · unfold Page.inFullQueue at hflag
        rw [hf] at hflag
        cases hflag
      · exact hfull ▸ hq
    · rw [← hbin] at hmem
      exact retire_checks k hi1 hmem hempty

theorem run_taken (hi : Inv g h (blk :: live)) (hclass : classify blk.layout = .huge) :
    ∀ i, InRun (blk.addr / sliceSize) (hugeSlices blk.layout) i → ¬ h.slices.Free i := by
  intro i hin hfree
  obtain ⟨-, hrun, -⟩ := front_run hi hclass
  rw [hi.core.slices.free, (hrun i).mpr hin] at hfree
  cases hfree

theorem freeRun_checks (k : Check) (hi : Inv g h (blk :: live)) (hclass : classify blk.layout = .huge) :
    h.slices.FreeRunChecks k (blk.addr / sliceSize) (hugeSlices blk.layout) :=
  SliceMap.freeRun_checks k hi.core.slices.inv (hugeSlices_pos _) (run_inside hi hclass).1
    (run_taken hi hclass)

/-- **`dealloc`** of a live block. -/
theorem dealloc_checks (k : Check) (hi : Inv g h (blk :: live)) : h.DeallocChecks k blk.addr blk.layout := by
  have hs := (hi.core.blocks.block blk List.mem_cons_self).size_pos
  unfold Heap.DeallocChecks
  dsimp only
  split
  · rename_i hsmall
    obtain ⟨n, hclass, hkind⟩ := (smallTest_iff hs).mp hsmall
    rw [← hkind]
    exact pushBlock_checks k hi hclass
  · refine ⟨classify_checks k _, ?_⟩
    cases hclass : classify blk.layout with
    | huge =>
      obtain ⟨hdvd, -⟩ := front_run hi hclass
      exact ⟨asserts_of (Nat.mod_eq_zero_of_dvd hdvd), freeRun_checks k hi hclass⟩
    | bin n =>
      have hbinned := classify_bin hs hclass
      obtain ⟨hpage, hkind, -⟩ := (hi.core.blocks.block blk List.mem_cons_self).page n hclass
      have hok := ((hi.core.blocks.block blk List.mem_cons_self).in_page hi.core.pages
        List.mem_cons_self hclass).1.ok
      have hfield : h.field (Page.headerOf (kindOfBin n) blk.addr) .bin = _ := hok.bin
      dsimp only
      rw [hfield]
      exact ⟨asserts_of ⟨hbinned.bin_pos, hbinned.bin_lt⟩, asserts_of ⟨hok.bin_pos, hok.bin_le⟩,
        asserts_of hkind, pushBlock_checks k hi hclass⟩

/-! ## Resizing -/

section Resize
variable [Memory.Contract M]

/-- Growing a run in place, after the map alone could not. -/
theorem growRun_checks (k : Check) {extra : Nat} (hi : Inv g h (⟨a, layout⟩ :: live))
    (hclass : classify layout = .huge) (hb : h.InBounds) (hd : h.policy.StepChecks k) (he : 1 ≤ extra) :
    h.ReleaseEmptyPagesChecks k ∧ h.releaseEmptyPages.supply.ExtendWithGrowthChecks k h.policy
      (a / sliceSize) (hugeSlices layout) extra := by
  obtain ⟨g1, hi1, -⟩ := releaseEmptyPages_inv hi
  have hb1 := hb.grows h.releaseEmptyPages_grows
  obtain ⟨hinside, hend⟩ := run_inside hi1 hclass
  exact ⟨releaseEmptyPages_checks k hi, Supply.extendWithGrowth_checks k (hi1.supply_bounded hb1) hd
    (hugeSlices_pos layout) he hinside hend (run_taken hi1 hclass)⟩

theorem resizeInPlace_checks (k : Check) (hi : Inv g h (⟨a, layout⟩ :: live)) (hb : h.InBounds)
    (hd : h.policy.StepChecks k) (hs : 1 ≤ newLayout.size) :
    h.ResizeInPlaceChecks k a layout newLayout := by
  have hs0 := (hi.core.blocks.block _ List.mem_cons_self).size_pos
  refine ⟨classify_checks k _, classify_checks k _, ?_⟩
  cases hold : classify layout with
  | bin old =>
    cases hnew : classify newLayout with
    | bin new =>
      have hbinned := classify_bin hs0 hold
      have hbinned' := classify_bin hs hnew
      exact fun _ => ⟨asserts_of ⟨hbinned'.bin_pos, hbinned'.bin_lt⟩,
        asserts_of ⟨hbinned.bin_pos, hbinned.bin_lt⟩, fun _ => asserts_of ⟨hbinned.bin_pos, hbinned.bin_lt⟩⟩
    | huge => trivial
  | huge =>
    cases hnew : classify newLayout with
    | bin new => trivial
    | huge =>
      have hinv := hi.core.slices.inv
      have hpos := hugeSlices_pos layout
      obtain ⟨hinside, -⟩ := run_inside hi hold
      have htaken := run_taken hi hold
      refine ⟨fun hlt => SliceMap.shrink_checks k hinv (Nat.le_of_lt hlt) hinside htaken, fun hlt =>
        ⟨computes_of (Nat.le_of_lt hlt), SliceMap.tryExtend_checks k hpos hinside htaken _, ?_⟩⟩
      intro m htry
      obtain ⟨rfl, -⟩ := (SliceMap.tryExtend_spec hinv hinside).2 m htry
      exact growRun_checks k hi hold hb hd (by omega)

theorem moveBlock_checks (k : Check) (hmem : Memory.EndsInside M) (hi : Inv g h (⟨a, layout⟩ :: live))
    (hk : Shelves.Kept hi.shelves none) (hb : h.InBounds) (hd : h.policy.StepChecks k)
    (hs : 1 ≤ newLayout.size) : h.MoveBlockChecks k a layout newLayout := by
  have hinit := hi.initialized List.mem_cons_self
  have hcov : h.initialized = false → CoversInitial h := fun h0 => by
    rw [hinit] at h0
    cases h0
  refine ⟨?_, fun new h1 hres => ?_⟩
  · cases hclass : classify newLayout with
    | huge => exact allocHuge_checks k hi hinit hb hd true
    | bin n => exact alloc_checks k hmem hi hk hb hd hcov hs
  · rcases moveTarget_serves hi hs with ⟨q, h2, g2, hres', hi2, -⟩ | ⟨h2, hres', -⟩
    · cases hres.symm.trans hres'
      exact dealloc_checks k hi2
    · cases hres.symm.trans hres'

/-- **`realloc`** of a live block. -/
theorem realloc_checks (k : Check) (hmem : Memory.EndsInside M) (hi : Inv g h (⟨a, layout⟩ :: live))
    (hk : Shelves.Kept hi.shelves none) (hb : h.InBounds) (hd : h.policy.StepChecks k) {newSize : Nat}
    (hs : 1 ≤ newSize) (fits : newSize + layout.align ≤ usizeSize / 2) :
    h.ReallocChecks k a layout newSize fits := by
  refine ⟨fun hsmall => ⟨asserts_of hsmall.2.1, asserts_of hsmall.2.2⟩, fun _ => ?_⟩
  have hs' : 1 ≤ (layout.withSize newSize fits).size := hs
  refine ⟨resizeInPlace_checks k hi hb hd hs', fun h1 hres => ?_⟩
  rcases resizeInPlace_resized hi hs' rfl with ⟨q, h2, g2, hres', -⟩ | ⟨h2, g2, hres', hi2, he2⟩
  · cases hres.symm.trans hres'
  obtain rfl := (Prod.mk.inj (hres.symm.trans hres')).2
  have hgrows := h.resizeInPlace_grows a layout (layout.withSize newSize fits)
  have hreaches := resizeInPlace_reaches (layout.withSize newSize fits) hi
  rw [hres] at hgrows hreaches
  refine moveBlock_checks k hmem hi2 ((hreaches.moves hi2).kept hk) (hb.grows hgrows) ?_ hs'
  rw [he2.policy]
  exact hd

end Resize

/-! ## Every run -/

/-- What the call of an event checks. -/
def Config.StepChecks (k : Check) (c : Config M) : Event M → Prop
  | .alloc layout => c.heap.AllocChecks k layout
  | .allocZeroed layout => c.heap.AllocChecks k layout
  | .dealloc blk => c.heap.DeallocChecks k blk.addr blk.layout
  | .realloc blk newSize fits => c.heap.ReallocChecks k blk.addr blk.layout newSize fits
  | .write _ => True
  | .outside _ _ => True

section Runs
variable [Memory.Contract M] {c : Config M} {e : Event M}

/-- **One step** passes its checks. -/
theorem step_checks (k : Check) (hmem : Memory.EndsInside M) (hd : c.heap.policy.StepChecks k)
    (hi : Inv g c.heap c.live) (hk : Shelves.Kept hi.shelves none) (hb : c.heap.InBounds)
    (ha : c.Allowed e) : c.StepChecks k e := by
  cases e with
  | alloc layout => exact alloc_checks k hmem hi hk hb hd ha.2 ha.1
  | allocZeroed layout => exact alloc_checks k hmem hi hk hb hd ha.2 ha.1
  | dealloc blk => exact dealloc_checks k (hi.perm (List.perm_cons_erase ha))
  | realloc blk newSize fits =>
    have hi0 : Inv g c.heap (⟨blk.addr, blk.layout⟩ :: c.live.erase blk) :=
      hi.perm (List.perm_cons_erase ha.1)
    rw [hi0.shelves_eq hi] at hk
    exact realloc_checks k hmem hi0 hk hb hd ha.2 fits
  | write bytes => trivial
  | outside mem bytes => trivial

theorem reachable_checks (k : Check) (hmem : Memory.EndsInside M) (hd : c.heap.policy.StepChecks k)
    (hc : Reachable c) (ha : c.Allowed e) : c.StepChecks k e := by
  obtain ⟨g, hi, hk⟩ := reachable_retains hc
  exact step_checks k hmem hd hi hk (reachable_bounded hc).2 ha

/-- **No assertion fails, and no guard of the release build does anything**, in any call of
    any run, over a backend whose memory ends below the top of the address space. -/
theorem assertions_hold (hmem : Memory.EndsInside M) (hc : Reachable c)
    (hd : 0 < c.heap.policy.stepDivisor) (ha : c.Allowed e) :
    c.StepChecks .assertion e ∧ c.StepChecks .guard e :=
  ⟨reachable_checks _ hmem (GrowPolicy.step_checks fun _ => hd) hc ha,
    reachable_checks _ hmem (GrowPolicy.step_checks fun _ => hd) hc ha⟩

/-- **No arithmetic wraps** on a 32-bit target, in any call of any run. -/
theorem arithmetic_exact (hbits : usizeBytes = 4) (hc : Reachable c) (ha : c.Allowed e) :
    c.StepChecks .arithmetic e := by
  have hmem : Memory.EndsInside M := fun h8 => absurd (hbits.symm.trans h8) (by decide)
  exact reachable_checks _ hmem (GrowPolicy.step_checks fun hne => absurd rfl hne) hc ha

/-- **The last slice stays out**: it is never free, never part of a page or of a live run, and
    the heap never asks for a region that would pass the usable limit. -/
theorem last_slice_unused (hc : Reachable c) :
    (¬ c.heap.slices.Free maxSliceIndex ∧ ¬ c.heap.InPage maxSliceIndex ∧
      ¬ InLiveRun c.live maxSliceIndex) ∧
    ∀ e ∈ c.heap.growLog, e.call.InLimit := by
  have hlast := reachable_last hc
  obtain ⟨⟨g, hi⟩, hb⟩ := reachable_bounded hc
  have hcons := hi.conserved
  exact ⟨⟨fun hfree => hlast (hcons.freeOwned _ hfree).1, fun hpage => hlast (hcons.pageOwned _ hpage),
    fun hrun => hlast (hcons.runOwned _ hrun)⟩, hb.asked⟩

end Runs

end Wasmalloc

namespace Wasmalloc

theorem SimMemory.endsInside [Build] : Memory.EndsInside SimMemory := fun _ c => c.end_lt

open Sample in
/-- The calls of `held`: another block, a run, its block freed, and its block moved. -/
theorem Sample.held_assertions :
    (held.StepChecks .assertion (.alloc small) ∧ held.StepChecks .guard (.alloc small)) ∧
    (held.StepChecks .assertion (.allocZeroed huge) ∧ held.StepChecks .guard (.allocZeroed huge)) ∧
    (held.StepChecks .assertion (.dealloc block) ∧ held.StepChecks .guard (.dealloc block)) ∧
    (held.StepChecks .assertion (.realloc block 20000 (by decide)) ∧
      held.StepChecks .guard (.realloc block 20000 (by decide))) := by
  have hd : 0 < held.heap.policy.stepDivisor := by decide +kernel
  exact ⟨assertions_hold SimMemory.endsInside held_reachable hd (held_allowed small (by decide)).1,
    assertions_hold SimMemory.endsInside held_reachable hd (held_allowed huge (by decide)).2,
    assertions_hold SimMemory.endsInside held_reachable hd (e := .dealloc block) held_mem,
    assertions_hold SimMemory.endsInside held_reachable hd (e := .realloc block 20000 (by decide))
      ⟨held_mem, by decide⟩⟩

open Sample in
/-- The same calls, on 32 bits. -/
theorem Sample.held_arithmetic :
    held.StepChecks .arithmetic (.alloc small) ∧ held.StepChecks .arithmetic (.allocZeroed huge) ∧
    held.StepChecks .arithmetic (.dealloc block) ∧
    held.StepChecks .arithmetic (.realloc block 20000 (by decide)) :=
  ⟨arithmetic_exact rfl held_reachable (held_allowed small (by decide)).1,
    arithmetic_exact rfl held_reachable (held_allowed huge (by decide)).2,
    arithmetic_exact rfl held_reachable (e := .dealloc block) held_mem,
    arithmetic_exact rfl held_reachable (e := .realloc block 20000 (by decide)) ⟨held_mem, by decide⟩⟩

open Sample in
theorem Sample.held_last_slice :
    (¬ held.heap.slices.Free maxSliceIndex ∧ ¬ held.heap.InPage maxSliceIndex ∧
      ¬ InLiveRun held.live maxSliceIndex) ∧ ∀ e ∈ held.heap.growLog, e.call.InLimit :=
  last_slice_unused held_reachable

end Wasmalloc
