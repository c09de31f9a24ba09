import Wasmalloc.Conservation
import Wasmalloc.SliceSets

/- Nothing leaks.

   The `used` count of a page is the number of live blocks in it (`Inv.used_eq`). So when
   the program holds no block every page is empty, however it came to that: releasing the
   empty pages leaves no page, and every slice the heap owns is free. A request for a run
   that fits in them is then served without growing the memory, with or without that
   call, because the heap releases its empty pages before it grows. -/
namespace Wasmalloc
open ByteMem

section
variable [Build] {M : Type} [Memory M] {h : Heap M} {live : List Block} {g : Ghost} {p q : Nat}

/-! ## The used count -/

instance (p i : Nat) : Decidable (h.OnPage p i) := inferInstanceAs (Decidable (_ ∧ _))

/-- The number of blocks of `live` that lie in the page at `p`. -/
def Heap.liveOn (h : Heap M) (live : List Block) (p : Nat) : Nat :=
  live.countP fun blk => decide (h.OnPage p (blk.addr / sliceSize))

theorem Inv.home_iff (hi : Inv g h live) (hq : h.Queued q p) {blk : Block} (hm : blk ∈ live) :
    home blk = some p ↔ h.OnPage p (blk.addr / sliceSize) := by
  have hok := hi.core.blocks.block blk hm
  rw [hi.core.onPage_iff hq]
  cases hclass : classify blk.layout with
  | bin n =>
    obtain ⟨hin, -, -, hlo, hhi⟩ := hok.in_page hi.core.pages hm hclass
    have hpos := (binGeometry hin.ok.bin_pos hin.ok.bin_le).size_ge
    have hplace : g.place (blk.addr / sliceSize) = .page (Page.headerOf (kindOfBin n) blk.addr) :=
      hin.mem.mpr ⟨by omega, by omega⟩
    rw [home_bin hclass, hplace]
    exact ⟨fun e => congrArg Place.page (Option.some.inj e), fun e => congrArg some (Place.page.inj e)⟩
  | huge =>
    have hcount := hugeSlices_pos blk.layout
    have hplace := ((hok.run hclass).2 (blk.addr / sliceSize)).mpr ⟨Nat.le_refl _, by omega⟩
    rw [home_huge hclass, hplace]
    exact ⟨fun e => (by cases e), fun e => (by cases e)⟩

/-- **A page counts its live blocks.** -/
theorem Inv.used_eq (hi : Inv g h live) (hq : h.Queued q p) : h.field p .used = h.liveOn live p :=
  calc h.field p .used = (liveIn live p).length := (hi.core.queued hq).ok.used
    _ = live.countP fun blk => decide (home blk = some p) := by
        unfold liveIn
        rw [List.length_map, List.countP_eq_length_filter]
    _ = h.liveOn live p := List.countP_congr fun blk hm => by
        rw [decide_eq_true_eq, decide_eq_true_eq]
        exact hi.home_iff hq hm

/-! ## No live block -/

/-- **Without a live block** the release walk leaves no page, and all the slices free. -/
theorem releaseEmptyPages_empty (hi : Inv g h []) : ∃ g', Inv g' h.releaseEmptyPages [] ∧
    (∀ q, g'.queue q = []) ∧
    ∀ i, h.releaseEmptyPages.slices.Free i ↔ h.slices.Recorded i := by
  obtain ⟨g', hi', -, hquiet, -⟩ := releaseEmptyPages_inv hi
  have hqueues : ∀ q, g'.queue q = [] := by
    intro q
    refine List.eq_nil_iff_forall_not_mem.mpr fun p hp => ?_
    have hused := (hi'.core.member hp).1.ok.used
    have hpos := (hquiet q p hp).1
    rw [hused] at hpos
    exact absurd hpos (Nat.lt_irrefl 0)
  refine ⟨g', hi', hqueues, fun i => ?_⟩
  have hrec : h.releaseEmptyPages.slices.Recorded i ↔ h.slices.Recorded i := by
    unfold SliceMap.Recorded
    rw [(releaseEmptyPages_onlyFrees h).recorded]
  rw [← hrec, hi'.core.slices.free, hi'.core.slices.recorded]
  -- Without a page or a live run, an owned slice is free.
  cases hplace : g'.place i with
  | foreign => simp
  | free => simp
  | claimed => exact absurd hplace (hi'.unclaimed i)
  | page p =>
    obtain ⟨q, hq⟩ := hi'.settled.queued i p hplace (fun e => e)
    rw [hqueues q] at hq
    cases hq
  | run a =>
    obtain ⟨blk, hm, -⟩ := hi'.core.blocks.runs i a hplace
    cases hm

/-- The heap holds no page, and all of `owned` is free. -/
structure Emptied (h : Heap M) (owned : Set Nat) : Prop where
  queues : ∀ q < queueCount, h.queues q = emptyQueue
  direct : ∀ i < directEntries, h.direct i = emptyPage
  occupied : h.occupied = 0
  freeSlices : (h.freeSlices : ℕ∞) = owned.encard

theorem QueueOk.empty {b : Bytes} {queue : PageQueue} (hq : QueueOk b queue []) :
    queue = emptyQueue := by
  have hfirst : queue.first = 0 := hq.first
  have hlast : queue.last = 0 := hq.last
  have hcount : queue.count = 0 := hq.count
  calc queue = ⟨queue.first, queue.last, queue.count⟩ := rfl
    _ = emptyQueue := by
        rw [hfirst, hlast, hcount]
        rfl

theorem releaseEmptyPages_emptied (hi : Inv g h []) :
    Emptied h.releaseEmptyPages {i | h.slices.Recorded i} := by
  obtain ⟨g', hi', hqueues, hfree⟩ := releaseEmptyPages_empty hi
  have hqs := hi'.core.queues
  refine { queues := fun q hq => ?_, direct := fun i hlt => ?_, occupied := ?_, freeSlices := ?_ }
  · exact QueueOk.empty (hqueues q ▸ hqs.queue q hq)
  · rw [hqs.direct_eq i hlt, hqueues]
    rfl
  · refine BitVec.eq_of_getLsbD_eq fun q hq => ?_
    rw [← queueCount_eq] at hq
    have hiff := hqs.occupied_iff q hq
    rw [hqueues q] at hiff
    simpa using hiff
  · unfold Heap.freeSlices
    rw [SliceMap.freeCount_encard]
    congr 1
    exact Set.ext hfree

/-! ## Runs out of what the heap owns -/

/-- A run for `layout` fits in the slices the heap owns. -/
def Heap.OwnsRoom (h : Heap M) (layout : Layout) : Prop :=
  ∃ start, max (divCeil layout.align sliceSize) 1 ∣ start ∧
    ∀ i, InRun start (hugeSlices layout) i → h.slices.Recorded i

/-- A run that fits in the owned slices is found in the map, after a release at the latest. -/
theorem acquireRun_owned (hi : Inv g h []) (hinit : h.initialized = true) {count k start : Nat}
    (hc : 1 ≤ count) (hdvd : 2 ^ k ∣ start) (hown : ∀ i, InRun start count i → h.slices.Recorded i) :
    ∃ run h', h.acquireRun count (2 ^ k) false = (some run, h') ∧ h'.growLog = h.growLog := by
  unfold Heap.acquireRun
  simp only [Bool.false_eq_true, if_false]
  rcases hr : h.slices.alloc count (2 ^ k) with ⟨run | run, m⟩
  swap
  · exact ⟨run, _, rfl, rfl⟩
  obtain ⟨hkeeps, -⟩ := (SliceMap.alloc_spec hi.core.slices.inv hc).2 m hr
  obtain ⟨hi1, -⟩ := keeps_inv hi hkeeps hinit
  obtain ⟨g2, hi2, -, hfree⟩ := releaseEmptyPages_empty hi1
  have hlog := (releaseEmptyPages_onlyFrees ({ h with slices := m } : Heap M)).growLog
  simp only
  generalize ({ h with slices := m } : Heap M).releaseEmptyPages = h2 at *
  have hserves : h2.slices.Serves count (2 ^ k) start :=
    { aligned := hdvd
      free := fun i hi' => (hfree i).mpr ((hkeeps.recorded_iff i).mpr (hown i hi')) }
  obtain ⟨-, hnone⟩ := SliceMap.alloc_spec (k := k) hi2.core.slices.inv hc
  unfold Supply.acquire Supply.alloc
  rcases hr2 : h2.supply.map.alloc count (2 ^ k) with ⟨run | run, m2⟩
  · exact absurd hserves ((hnone m2 hr2).2 start)
  · exact ⟨run, _, rfl, hlog⟩

/-- **A run that fits in the owned slices** is handed out, and memory is not grown. -/
theorem alloc_owned (hi : Inv g h []) {layout : Layout} (hs : 1 ≤ layout.size)
    (hclass : classify layout = .huge) (hroom : h.OwnsRoom layout) :
    (h.alloc layout).1.isSome = true ∧ (h.alloc layout).2.growLog = h.growLog := by
  obtain ⟨start, hdvd, hown⟩ := hroom
  have hcount := hugeSlices_pos layout
  have hinit : h.initialized = true := by
    by_contra hno
    have hrec := hown start ⟨Nat.le_refl _, by omega⟩
    rw [hi.core.uninit (Bool.eq_false_of_not_eq_true hno)] at hrec
    exact SliceMap.not_recorded_new _ hrec
  obtain ⟨k, -, halign, -⟩ := hugeAlign layout
  rw [halign] at hdvd
  obtain ⟨run, h', hrun, hlog⟩ := acquireRun_owned hi hinit hcount hdvd hown
  have halloc : h.alloc layout = h.allocHuge layout false false := by
    unfold Heap.alloc
    simp only
    split
    · rename_i hsmall
      have hbin := (classify_direct hs hsmall).1
      rw [hclass] at hbin
      cases hbin
    · unfold Heap.allocGeneric Heap.ensureInit
      simp only [hclass, hinit, if_true]
  rw [halloc]
  unfold Heap.allocHuge
  simp only [halign, hrun, Bool.false_and, Bool.false_eq_true, if_false]
  exact ⟨rfl, hlog⟩

variable [Memory.Contract M] {c : Config M}

/-- **Nothing leaks.** Every page counts the live blocks in it. When a run has freed all its
    blocks, a release leaves no page and every slice the heap owns free; and a run that
    fits in those slices is handed out without growing memory. -/
theorem nothing_leaks (hc : Reachable c) :
    (∀ q p, c.heap.Queued q p → c.heap.field p .used = c.heap.liveOn c.live p) ∧
    (c.live = [] →
      Emptied c.heap.releaseEmptyPages {i | c.heap.slices.Recorded i} ∧
      ∀ layout : Layout, 1 ≤ layout.size → classify layout = .huge → c.heap.OwnsRoom layout →
        (c.heap.alloc layout).1.isSome = true ∧
          (c.heap.alloc layout).2.growLog = c.heap.growLog) := by
  obtain ⟨g, hi⟩ := reachable_ok hc
  refine ⟨fun q p hq => hi.used_eq hq, fun hlive => ?_⟩
  rw [hlive] at hi
  exact ⟨releaseEmptyPages_emptied hi, fun layout hs hclass hroom => alloc_owned hi hs hclass hroom⟩

end

open Sample in
/-- The block of `held` freed: the page is kept, and released for a run. -/
theorem Sample.drained_leaks :
    Emptied (held.step (.dealloc block)).heap.releaseEmptyPages {2} ∧
    ((held.step (.dealloc block)).heap.alloc (request 60000 (by decide))).1.isSome = true := by
  have hreach := reachable_step held_reachable (e := .dealloc block) held_mem
  obtain ⟨-, hempty⟩ := nothing_leaks hreach
  obtain ⟨hemptied, hserved⟩ := hempty (by decide +kernel)
  have hrec : (held.step (.dealloc block)).heap.slices.recorded = [(2, 1)] := by decide +kernel
  have howned : {i | (held.step (.dealloc block)).heap.slices.Recorded i} = {2} := by
    ext i
    simp only [SliceMap.Recorded, hrec, Set.mem_ofPred_eq, List.mem_singleton, exists_eq_left,
      Set.mem_singleton_iff]
    unfold InRun
    omega
  rw [howned] at hemptied
  refine ⟨hemptied, (hserved (request 60000 (by decide)) (by decide) (by decide) ⟨2, ?_, ?_⟩).1⟩
  · decide
  · intro i hi
    have hcount : hugeSlices (request 60000 (by decide)) = 1 := by decide
    rw [hcount] at hi
    exact ⟨(2, 1), by rw [hrec]; exact List.mem_singleton_self _, hi⟩

end Wasmalloc
