import Wasmalloc.Program

/- The fast paths are exact.

   A plain heap classifies every request, pops the first page of the bin's queue or
   searches, classifies every free, and has no slot test in its resize. `alloc`,
   `allocZeroed`, `dealloc` and `realloc` compute exactly what it computes, in every
   state that satisfies the invariant, so every run shows the same addresses and passes
   through the same states (`shortcuts_exact`). -/
namespace Wasmalloc
open ByteMem

section Shortcuts
variable [Build] {M : Type}

/-! ## The plain heap -/

namespace Heap
variable [Memory M]

/-- `alloc` or, with `zero`, `allocZeroed`. -/
def plainAlloc (h : Heap M) (layout : Layout) (zero : Bool) : Option Nat × Heap M :=
  match classify layout with
  | .huge => h.ensureInit.allocHuge layout zero false
  | .bin bin =>
    let head := (h.queues (queueIndex bin)).first
    if head ≠ 0 ∧ Page.hasFree h.bytes head then h.takeBlock head layout zero
    else
      match h.searchPage bin with
      | (none, h) => (none, h)
      | (some page, h) => h.takeBlock page layout zero

def plainMoveBlock (h : Heap M) (ptr : Nat) (layout newLayout : Layout) : Option Nat × Heap M :=
  let r := match classify newLayout with
    | .huge => h.allocHuge newLayout false true
    | .bin _ => h.plainAlloc newLayout false
  match r with
  | (none, h) => (none, h)
  | (some new, h) =>
    let h := { h with bytes := copy h.bytes ptr new (min layout.size newLayout.size) }
    (some new, h.deallocGeneric ptr layout)

def plainRealloc (h : Heap M) (ptr : Nat) (layout : Layout) (newSize : Nat)
    (fits : newSize + layout.align ≤ usizeSize / 2) : Option Nat × Heap M :=
  let newLayout := layout.withSize newSize fits
  match h.resizeInPlace ptr layout newLayout with
  | (some p, h) => (some p, h)
  | (none, h) => h.plainMoveBlock ptr layout newLayout

end Heap

section Config
variable [Memory M] (c : Config M)

/-- The address a call returns. -/
def Config.reply : Event M → Option Nat
  | .alloc layout => (c.heap.alloc layout).1
  | .allocZeroed layout => (c.heap.allocZeroed layout).1
  | .realloc blk newSize fits => (c.heap.realloc blk.addr blk.layout newSize fits).1
  | _ => none

def Config.plainReply : Event M → Option Nat
  | .alloc layout => (c.heap.plainAlloc layout false).1
  | .allocZeroed layout => (c.heap.plainAlloc layout true).1
  | .realloc blk newSize fits => (c.heap.plainRealloc blk.addr blk.layout newSize fits).1
  | _ => none

def Config.plainStep : Event M → Config M
  | .alloc layout => c.answer layout c.live (c.heap.plainAlloc layout false)
  | .allocZeroed layout => c.answer layout c.live (c.heap.plainAlloc layout true)
  | .dealloc blk =>
    { heap := c.heap.deallocGeneric blk.addr blk.layout, live := c.live.erase blk }
  | .realloc blk newSize fits =>
    c.answer (blk.layout.withSize newSize fits) (c.live.erase blk)
      (c.heap.plainRealloc blk.addr blk.layout newSize fits)
  | .write bytes => { c with heap := { c.heap with bytes := bytes } }
  | .outside mem bytes => { c with heap := { c.heap with mem := mem, bytes := bytes } }

end Config

/-- A program over the plain heap. -/
def plainProgram (M : Type) [Memory M] : Run.System (Config M) (Event M) :=
  { init := Starts, allowed := Config.Allowed, step := Config.plainStep }

/-! ## Size classes -/

variable {layout : Layout} {n : Nat}

theorem directMaxBin_lt (hs : 1 ≤ layout.size) (hbig : directMaxSize < directSize layout)
    (hclass : classify layout = .bin n) : directMaxBin < n := by
  have hb := classify_bin hs hclass
  have heq := directSize_eq hb.align_le
  have hmax : maxBinnedObjSize ≤ largeMaxObjSize := by decide
  have hsize : binSize directMaxBin = directMaxSize := by decide +kernel
  by_contra hcon
  have hfit := (bin_bounds (le_trans hs (le_binnedSize layout)) (le_trans hb.binned_le hmax)).2.2
  rw [← hb.bin_eq] at hfit
  have := binSize_le directMaxBin_le (Nat.not_lt.mp hcon)
  omega

variable [Memory M] {live : List Block} {g : Ghost} {h : Heap M}

/-! ## The operations -/

theorem allocGeneric_plain (hbin : ∀ n, classify layout = .bin n → directMaxBin < n) (zero : Bool) :
    h.allocGeneric layout zero = h.plainAlloc layout zero := by
  unfold Heap.allocGeneric Heap.plainAlloc
  cases hclass : classify layout with
  | huge => rfl
  | bin n =>
    simp only
    by_cases hhead : (h.queues (queueIndex n)).first ≠ 0 ∧
        Page.hasFree h.bytes (h.queues (queueIndex n)).first = true
    · rw [if_pos ⟨hbin n hclass, hhead⟩, if_pos hhead]
    · exact (if_neg fun hcon => hhead hcon.2).trans (if_neg hhead).symm

/-- **The direct table** names the head of the bin's queue: either both pop it, or it has
    nothing to pop and both search. -/
theorem direct_plain (hi : Inv g h live) (hs : 1 ≤ layout.size)
    (hsmall : directSize layout ≤ directMaxSize) (zero : Bool) :
    let page := h.direct (directIndex (directSize layout))
    (∃ a h1, h.popBlock page = (some a, h1) ∧ h.plainAlloc layout zero =
      (some a, if zero then h1.clearBlock page a layout.size else h1)) ∨
    (h.popBlock page = (none, h) ∧ h.plainAlloc layout zero = h.allocGeneric layout zero) := by
  obtain ⟨hclass, hidx, -, -⟩ := classify_direct hs hsmall
  obtain ⟨-, hle⟩ := bin_direct _ hidx
  have hdirect := hi.core.queues.direct_eq _ hidx
  generalize bin (directIndex (directSize layout) * word) = n at hclass hle hdirect
  have hn : n ≤ maxBin := le_trans hle directMaxBin_le
  have hlt := bin_lt hn
  have hfirst := (hi.core.queues.queue n hlt).headD emptyPage
  rw [← hfirst] at hdirect
  simp only [hdirect]
  -- Both roads of the generic path search: the bin is one of the direct table's.
  have hsearch : ¬ ((h.queues n).first ≠ 0 ∧ Page.hasFree h.bytes (h.queues n).first = true) →
      h.plainAlloc layout zero = h.allocGeneric layout zero := by
    intro hhead
    unfold Heap.plainAlloc Heap.allocGeneric
    simp only [hclass, queueIndex_of_lt hlt]
    exact (if_neg hhead).trans (if_neg fun hcon => hhead hcon.2).symm
  by_cases h0 : (h.queues n).first = 0
  · rw [if_pos h0]
    exact Or.inr ⟨popBlock_sentinel hi.core, hsearch fun hcon => hcon.1 h0⟩
  · rw [if_neg h0]
    have hmem := (first_mem hi hlt).resolve_left (by rw [queueIndex_of_lt hlt]; exact h0)
    rw [queueIndex_of_lt hlt] at hmem
    obtain ⟨hin, -⟩ := hi.core.member hmem
    by_cases hfree : g.free (h.queues n).first = []
    · refine Or.inr ⟨popBlock_empty hi.core hin.isPage hfree, hsearch fun hcon => ?_⟩
      exact hin.ok.hasFree_iff.mp hcon.2 hfree
    · obtain ⟨a, -, h1, h', hpop, hh', -⟩ := takeBlock_spec hi hn hmem hfree hs hclass zero
      refine Or.inl ⟨a, h1, hpop, ?_⟩
      unfold Heap.plainAlloc Heap.takeBlock
      simp only [hclass, queueIndex_of_lt hlt]
      rw [if_pos ⟨h0, hin.ok.hasFree_iff.mpr hfree⟩, hpop]

theorem alloc_plain (hi : Inv g h live) (hs : 1 ≤ layout.size) :
    h.alloc layout = h.plainAlloc layout false := by
  unfold Heap.alloc
  simp only
  split
  · rename_i hsmall
    rcases direct_plain hi hs hsmall false with ⟨a, h1, hpop, hplain⟩ | ⟨hpop, hplain⟩
    · rw [hpop, hplain]
      rfl
    · rw [hpop, hplain]
  · rename_i hbig
    exact allocGeneric_plain (fun n => directMaxBin_lt hs (Nat.not_le.mp hbig)) false

theorem allocZeroed_plain (hi : Inv g h live) (hs : 1 ≤ layout.size) :
    h.allocZeroed layout = h.plainAlloc layout true := by
  unfold Heap.allocZeroed
  simp only
  split
  · rename_i hsmall
    rcases direct_plain hi hs hsmall true with ⟨a, h1, hpop, hplain⟩ | ⟨hpop, hplain⟩
    · rw [hpop, hplain]
      rfl
    · rw [hpop, hplain]
  · rename_i hbig
    exact allocGeneric_plain (fun n => directMaxBin_lt hs (Nat.not_le.mp hbig)) true

theorem moveBlock_plain {ptr : Nat} {newLayout : Layout} (hi : Inv g h live)
    (hs : 1 ≤ layout.size) (hs' : 1 ≤ newLayout.size) :
    h.moveBlock ptr layout newLayout = h.plainMoveBlock ptr layout newLayout := by
  have hfree : ∀ h : Heap M, h.dealloc ptr layout = h.deallocGeneric ptr layout := fun h => dealloc_eq h ptr hs
  unfold Heap.moveBlock Heap.plainMoveBlock
  rw [alloc_plain hi hs']
  cases classify newLayout with
  | huge =>
    rcases h.allocHuge newLayout false true with ⟨_ | new, h1⟩
    · rfl
    · exact congrArg (Prod.mk (some new)) (hfree _)
  | bin n =>
    rcases h.plainAlloc newLayout false with ⟨_ | new, h1⟩
    · rfl
    · exact congrArg (Prod.mk (some new)) (hfree _)

variable [Memory.Contract M]

/-- **`realloc`** without the slot test: two sizes of one slot fit in place. -/
theorem realloc_plain {a newSize : Nat} (hi : Inv g h (⟨a, layout⟩ :: live)) (hs' : 1 ≤ newSize)
    (fits : newSize + layout.align ≤ usizeSize / 2) :
    h.realloc a layout newSize fits = h.plainRealloc a layout newSize fits := by
  have hs : 1 ≤ layout.size := (hi.core.blocks.block _ List.mem_cons_self).size_pos
  have hnew : 1 ≤ (layout.withSize newSize fits).size := hs'
  unfold Heap.realloc Heap.plainRealloc
  split
  · rename_i hslot
    obtain ⟨n, hold, hnew⟩ := same_slot fits hs hs' hslot
    have hfit : fitsInPlace n n (layout.withSize newSize fits).size = true := by simp [fitsInPlace]
    have hstay : h.resizeInPlace a layout (layout.withSize newSize fits) = (some a, h) := by
      unfold Heap.resizeInPlace
      simp only [hold, hnew]
      rw [if_pos hfit]
    simp only [hstay]
  · simp only
    rcases resizeInPlace_resized hi hnew rfl with ⟨q, h1, g1, hr, -⟩ | ⟨h1, g1, hr, hi1, -⟩
    · rw [hr]
    · rw [hr]
      exact moveBlock_plain hi1 hs hnew

/-! ## Runs -/

variable {c : Config M} {e : Event M}

theorem step_plain (hi : Inv g c.heap c.live) (ha : c.Allowed e) :
    c.plainReply e = c.reply e ∧ c.plainStep e = c.step e := by
  cases e with
  | alloc layout =>
    have heq := alloc_plain hi ha.1
    simp only [Config.plainReply, Config.reply, Config.plainStep, Config.step, heq, and_self]
  | allocZeroed layout =>
    have heq := allocZeroed_plain hi ha.1
    simp only [Config.plainReply, Config.reply, Config.plainStep, Config.step, heq, and_self]
  | dealloc blk =>
    have heq := dealloc_eq c.heap blk.addr (hi.core.blocks.block blk ha).size_pos
    simp only [Config.plainReply, Config.reply, Config.plainStep, Config.step, heq, and_self]
  | realloc blk newSize fits =>
    have heq := realloc_plain (hi.perm (List.perm_cons_erase ha.1)) ha.2 fits
    simp only [Config.plainReply, Config.reply, Config.plainStep, Config.step, heq, and_self]
  | write _ => exact ⟨rfl, rfl⟩
  | outside _ _ => exact ⟨rfl, rfl⟩

/-- **The fast paths are exact shortcuts**: from any reachable state, a run of the program
    shows the same addresses and passes through the same states on both heaps. -/
theorem shortcuts_exact (hc : Reachable c) {es : List (Event M)} (ho : (program M).Obeys c es) :
    (plainProgram M).trace Config.plainReply c es = (program M).trace Config.reply c es := by
  refine Run.trace_eq (S := program M) (fun c e hc ha => ?_) hc ho
  obtain ⟨g, hi⟩ := reachable_ok hc
  exact step_plain hi ha

end Shortcuts

open Sample in
/-- A pop from a new page, then a move to a run. -/
theorem start_shortcuts :
    (plainProgram SimMemory).trace Config.plainReply start
        [.alloc small, .realloc block 70000 (by decide)] =
      (program SimMemory).trace Config.reply start
        [.alloc small, .realloc block 70000 (by decide)] :=
  shortcuts_exact start_reachable
    ⟨(start_allowed small (by decide)).1, ⟨held_mem, by decide⟩, trivial⟩

end Wasmalloc
