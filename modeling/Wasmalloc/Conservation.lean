import Wasmalloc.Observed

/- What the heap keeps of its own memory.

   Every owned slice is free, in one page or in one run, and no step of a run loses
   one (`reachable_conserved`). The queues, the pages in them, the direct table, the
   occupancy word and the sentinel are what the heap's invariants say
   (`reachable_wellFormed`). The memory is grown only when the heap has nothing left
   to release and cannot serve the request (`growth_justified`). -/
namespace Wasmalloc
open ByteMem

/-! ## Slices are conserved -/

section Conserved
variable [Build] {M : Type} [Memory M] {c : Config M} {g : Ghost} {i : Nat}

/-- Some page in some queue holds the slice. -/
def Heap.InPage (h : Heap M) (i : Nat) : Prop := ∃ q p, h.Queued q p ∧ h.OnPage p i

/-- Some live block without a page holds the slice. -/
def InLiveRun (live : List Block) (i : Nat) : Prop := ∃ blk ∈ live, OnRun blk i

/-- An owned slice is in exactly one place. -/
inductive OnePlace (c : Config M) (i : Nat) : Prop where
  | free : c.heap.slices.Free i → ¬ c.heap.InPage i → ¬ InLiveRun c.live i → OnePlace c i
  | page : ¬ c.heap.slices.Free i → c.heap.InPage i → ¬ InLiveRun c.live i → OnePlace c i
  | run : ¬ c.heap.slices.Free i → ¬ c.heap.InPage i → InLiveRun c.live i → OnePlace c i

/-- The owned slices, divided among the map, the pages and the runs. -/
structure Conserved (c : Config M) : Prop where
  onePlace : ∀ i, c.heap.slices.Recorded i → OnePlace c i
  onePage : ∀ i q p q' p', c.heap.Queued q p → c.heap.OnPage p i → c.heap.Queued q' p' →
    c.heap.OnPage p' i → q = q' ∧ p = p'
  oneRun : ∀ i, ∀ blk ∈ c.live, ∀ blk' ∈ c.live, OnRun blk i → OnRun blk' i → blk = blk'
  pageOwned : ∀ i, c.heap.InPage i → c.heap.slices.Recorded i
  runOwned : ∀ i, InLiveRun c.live i → c.heap.slices.Recorded i
  freeOwned : ∀ i, c.heap.slices.Free i → c.heap.slices.Recorded i ∧ i < sizeSlices c.heap.mem

theorem Inv.inPage_iff {h : Heap M} {live : List Block} (hi : Inv g h live) :
    h.InPage i ↔ ∃ p, g.place i = .page p := by
  constructor
  · intro ⟨q, p, hq, hon⟩
    exact ⟨p, (hi.core.onPage_iff hq).mp hon⟩
  · intro ⟨p, hplace⟩
    obtain ⟨q, hq⟩ := hi.isPage_iff.mp (hi.core.pages i p hplace).isPage
    exact ⟨q, p, hq, (hi.core.onPage_iff hq).mpr hplace⟩

theorem Core.inLiveRun_iff {h : Heap M} {live : List Block} (hc : Core g h live) :
    InLiveRun live i ↔ ∃ a, g.place i = .run a := by
  constructor
  · intro ⟨blk, hm, hon⟩
    exact ⟨blk.addr, ((hc.onRun_iff hm).mp hon).2⟩
  · intro ⟨a, hplace⟩
    obtain ⟨blk, hm, hclass, rfl⟩ := hc.blocks.runs i a hplace
    exact ⟨blk, hm, (hc.onRun_iff hm).mpr ⟨hclass, hplace⟩⟩

theorem Inv.conserved (hi : Inv g c.heap c.live) : Conserved c := by
  have hs := hi.core.slices
  refine { onePlace := ?_, onePage := ?_, oneRun := ?_, pageOwned := ?_, runOwned := ?_,
           freeOwned := ?_ }
  · intro i hrec
    have hfree := hs.free i
    have hpage : c.heap.InPage i ↔ _ := hi.inPage_iff
    have hrun := hi.core.inLiveRun_iff (i := i)
    cases hplace : g.place i with
    | foreign => exact absurd hplace ((hs.recorded i).mp hrec)
    | claimed => exact absurd hplace (hi.unclaimed i)
    | free => exact .free (by simp [hfree, hplace]) (by simp [hpage, hplace]) (by simp [hrun, hplace])
    | page p => exact .page (by simp [hfree, hplace]) (by simp [hpage, hplace]) (by simp [hrun, hplace])
    | run a => exact .run (by simp [hfree, hplace]) (by simp [hpage, hplace]) (by simp [hrun, hplace])
  · intro i q p q' p' hq hon hq' hon'
    have hplace := (hi.core.onPage_iff hq).mp hon
    have hplace' := (hi.core.onPage_iff hq').mp hon'
    rw [hplace] at hplace'
    obtain rfl := Place.page.inj hplace'
    exact ⟨hi.core.queues.disjoint q q' p (hi.core.queued_iff.mp hq) (hi.core.queued_iff.mp hq'), rfl⟩
  · intro i blk hm blk' hm' hon hon'
    have hplace := ((hi.core.onRun_iff hm).mp hon).2
    have hplace' := ((hi.core.onRun_iff hm').mp hon').2
    rw [hplace] at hplace'
    exact List.inj_on_of_nodup_map hi.core.blocks.nodup hm hm' (Place.run.inj hplace')
  · intro i hpage
    obtain ⟨p, hplace⟩ := hi.inPage_iff.mp hpage
    exact (hs.recorded i).mpr (by simp [hplace])
  · intro i hrun
    obtain ⟨a, hplace⟩ := hi.core.inLiveRun_iff.mp hrun
    exact (hs.recorded i).mpr (by simp [hplace])
  · intro i hfree
    have hplace := (hs.free i).mp hfree
    have hown : g.place i ≠ .foreign := by simp [hplace]
    exact ⟨(hs.recorded i).mpr hown, hs.lt i hown⟩

variable [Memory.Contract M]

/-- **Slices are conserved**: in every reachable state every owned slice is in exactly one
    place, and no allowed event, successful or not, loses one. -/
theorem reachable_conserved (hc : Reachable c) :
    Conserved c ∧ ∀ e, c.Allowed e → Conserved (c.step e) ∧
      ∀ i, c.heap.slices.Recorded i → (c.step e).heap.slices.Recorded i := by
  obtain ⟨g, hi⟩ := reachable_ok hc
  refine ⟨hi.conserved, fun e ha => ?_⟩
  obtain ⟨⟨g', hi'⟩, -, hrec, -⟩ := step_ok hi ha
  exact ⟨hi'.conserved, hrec⟩

end Conserved

open Sample in
theorem held_conserved : Conserved held ∧ Conserved (held.step (.dealloc block)) := by
  obtain ⟨hnow, hnext⟩ := reachable_conserved held_reachable
  exact ⟨hnow, (hnext (.dealloc block) held_mem).1⟩

/-! ## The heap is well formed -/

section WellFormed
variable [Build] {M : Type} [Memory M] {c : Config M} {g : Ghost} {p q : Nat}

/-- The page invariants: geometry, counts, and the free list. -/
structure PageWf (h : Heap M) (live : List Block) (p : Nat) : Prop where
  bin_pos : 1 ≤ h.field p .bin
  bin_le : h.field p .bin ≤ maxBin
  kind : Page.kind h.bytes p = kindOfBin (h.field p .bin)
  aligned : (Page.kind h.bytes p).pageSize ∣ p
  blockSize : h.field p .blockSize = binSize (h.field p .bin)
  blockStart : h.field p .blockStart = blockStart (h.field p .blockSize)
  reserved : h.field p .reserved = blocksPerPage (Page.kind h.bytes p) (h.field p .blockSize)
  inside : h.field p .blockStart + h.field p .reserved * h.field p .blockSize ≤
    (Page.kind h.bytes p).pageSize
  used_le : h.field p .used ≤ h.field p .capacity
  capacity_le : h.field p .capacity ≤ h.field p .reserved
  freeList : ∃ fl, Page.FreeList h.bytes p fl ∧ fl.Nodup ∧
    fl.length = h.field p .capacity - h.field p .used ∧
    (∀ a ∈ fl, ∃ i < h.field p .capacity,
      a = p + h.field p .blockStart + i * h.field p .blockSize) ∧
    ∀ i < h.field p .capacity, p + h.field p .blockStart + i * h.field p .blockSize ∉ fl →
      ∃ blk ∈ live, blk.addr = p + h.field p .blockStart + i * h.field p .blockSize

/-- The heap invariants: queues, pages, the two caches of the queue heads, the sentinel. -/
structure HeapWf (h : Heap M) (live : List Block) : Prop where
  queue : ∀ q < queueCount, ∃ l, QueueOk h.bytes (h.queues q) l
  oneQueue : ∀ q r p, h.Queued q p → h.Queued r p → q = r
  queues : ∀ q p, h.Queued q p → q ≤ maxBin ∨ q = fullQueue
  binned : ∀ b ≤ maxBin, ∀ p, h.Queued b p →
    h.field p .bin = b ∧ Page.inFullQueue h.bytes p = false
  full : ∀ p, h.Queued fullQueue p → Page.inFullQueue h.bytes p = true ∧
    Page.FreeList h.bytes p [] ∧ h.field p .capacity = h.field p .reserved
  page : ∀ q p, h.Queued q p → PageWf h live p
  occupied : ∀ q < queueCount, h.occupied.getLsbD q = true ↔ ∃ p, h.Queued q p
  direct : ∀ i < directEntries, h.direct i =
    if (h.queues (bin (i * word))).first = 0 then emptyPage else (h.queues (bin (i * word))).first
  unlinked : ∀ q, ¬ h.Queued q emptyPage
  sentinel : ∀ x, emptyPage ≤ x → x < emptyPage + Page.size → h.bytes x = 0

theorem Core.pageWf {h : Heap M} {live : List Block} (hc : Core g h live) (hq : h.Queued q p) :
    PageWf h live p := by
  have hin := hc.queued hq
  have hok := hin.ok
  have hkind := kind_eq hin
  have hbin : h.field p .bin = g.bin p := hok.bin
  have hsize : h.field p .blockSize = binSize (g.bin p) := hok.blockSize
  have hstart : h.field p .blockStart = Wasmalloc.blockStart (binSize (g.bin p)) := hok.blockStart
  have hreserved : h.field p .reserved = Page.reservedOf (g.bin p) := hok.reserved
  have hused : h.field p .used = (liveIn live p).length := hok.used
  refine { bin_pos := hbin ▸ hok.bin_pos, bin_le := hbin ▸ hok.bin_le, kind := hbin ▸ hkind,
           aligned := hkind ▸ hok.aligned, blockSize := hbin ▸ hsize,
           blockStart := hsize ▸ hstart, reserved := by rw [hreserved, hkind, hsize]; rfl,
           inside := by
             rw [hstart, hreserved, hsize, hkind]
             exact (binGeometry hok.bin_pos hok.bin_le).fits
           used_le := hused ▸ hok.used_le, capacity_le := hreserved ▸ hok.capacity_le,
           freeList := ⟨g.free p, hc.freeList hq, (List.nodup_append.mp hok.nodup).1, ?_, ?_, ?_⟩ }
  · have hlen := hok.blocks.length_eq
    simp only [Page.blocks, List.length_append, List.length_map, List.length_range] at hlen
    unfold Heap.field at hused ⊢
    omega
  · intro a ha
    obtain ⟨i, hlt, heq⟩ := hok.mem_block (List.mem_append_left _ ha)
    exact ⟨i, hlt, heq.symm.trans (hc.block_eq hq i)⟩
  · intro i hlt hfree
    rw [← hc.block_eq hq i] at hfree ⊢
    have hmem := hok.blocks.mem_iff.mpr (Page.mem_blocks.mpr ⟨i, hlt, rfl⟩)
    obtain ⟨blk, hm, haddr, -⟩ := liveIn_block hc.blocks ((List.mem_append.mp hmem).resolve_left hfree)
    exact ⟨blk, hm, haddr⟩

theorem Inv.wellFormed {h : Heap M} {live : List Block} (hi : Inv g h live) : HeapWf h live := by
  have hc := hi.core
  have hqs := hc.queues
  refine { queue := fun q hq => ⟨_, hqs.queue q hq⟩, oneQueue := ?_, queues := ?_, binned := ?_,
           full := ?_, page := fun q p hq => hc.pageWf hq, occupied := ?_, direct := ?_,
           unlinked := ?_, sentinel := hc.sentinel }
  · exact fun q r p hq hr => hqs.disjoint q r p (hc.queued_iff.mp hq) (hc.queued_iff.mp hr)
  · intro q p hq
    have hmem := hqs.member q p (hc.queued_iff.mp hq)
    exact hmem.home.imp (fun e => le_of_eq_of_le e.1 hmem.bin_le) And.left
  · intro b hb p hq
    obtain ⟨hbin, hflags⟩ := hc.not_full (hc.queued_iff.mp hq) hb
    refine ⟨(hc.queued hq).ok.bin.trans hbin.symm, ?_⟩
    unfold Page.inFullQueue
    rw [hflags]
    rfl
  · intro p hq
    have hpark := hi.settled.parked p (hc.queued_iff.mp hq) (fun e => e)
    have hflags : Page.get h.bytes p .flags = flagInFullQueue := by
      have hmem := hqs.member fullQueue p (hc.queued_iff.mp hq)
      have hlt := maxBin_lt_full
      have hle := hmem.bin_le
      exact (hmem.home.resolve_left fun h => by omega).2
    refine ⟨by unfold Page.inFullQueue; rw [hflags]; rfl, ?_, ?_⟩
    · rw [← hpark.free]
      exact hc.freeList hq
    · exact hpark.capacity.trans (hc.queued hq).ok.reserved.symm
  · intro q hq
    rw [hqs.occupied_iff q hq]
    constructor
    · intro hne
      obtain ⟨p, hp⟩ := List.exists_mem_of_ne_nil _ hne
      exact ⟨p, hc.queued_iff.mpr hp⟩
    · intro ⟨p, hp⟩
      exact List.ne_nil_of_mem (hc.queued_iff.mp hp)
  · -- A size of the direct table falls in a bin with a queue of its own.
    intro i hlt
    have hn : bin (i * word) < queueCount := by
      have hle := (bin_direct i hlt).2
      have hmax : directMaxBin < queueCount := by decide +kernel
      omega
    rw [hqs.direct_eq i hlt]
    exact ((hqs.queue _ hn).headD emptyPage).symm
  · intro q hq
    have hplace := hc.slices.sentinel (Nat.le_refl emptyPage) (by unfold Page.size; omega)
    have hpage : g.place (emptyPage / sliceSize) = .page emptyPage := (hc.queued hq).isPage
    rw [hplace] at hpage
    cases hpage

variable [Memory.Contract M]

/-- **The heap invariants hold** in every reachable state. -/
theorem reachable_wellFormed (hc : Reachable c) : HeapWf c.heap c.live := by
  obtain ⟨g, hi⟩ := reachable_ok hc
  exact hi.wellFormed

end WellFormed

open Sample in
theorem held_wellFormed : HeapWf held.heap held.live := reachable_wellFormed held_reachable

/-! ## Growth is justified -/

section Growth
variable [Build] {M : Type} [Memory M] [Memory.Contract M] {c : Config M}

/-- **Memory is grown last**: at every call of `grow` a run has made, no queue held an empty
    page or a countdown, the retired range was empty, and the map could not serve the request. -/
theorem growth_justified (hc : Reachable c) : ∀ e ∈ c.heap.growLog, Justified e := by
  obtain ⟨g, hi⟩ := reachable_ok hc
  exact hi.core.log

end Growth

namespace Sample

theorem held_grows : 0 < (held.step (.alloc huge)).heap.growLog.length := by decide +kernel

end Sample

open Sample in
theorem held_growth_justified :
    Justified ((held.step (.alloc huge)).heap.growLog.get ⟨0, held_grows⟩) :=
  growth_justified (reachable_step held_reachable (held_allowed huge (by decide)).1) _ (List.get_mem _ _)

end Wasmalloc
