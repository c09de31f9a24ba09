import Wasmalloc.Growth

/- The heap: the model of `heap.rs`.

   A heap is a record of the source's fields and of the memory bytes; `&mut self` is
   state passing and an `Option<NonNull<u8>>` an optional address. A page pointer is
   the address of its header, 0 for null, and the sentinel is `emptyPage`. The arrays
   `direct` and `queues` are functions of which the code uses the indices below
   `directEntries` and `queueCount`.

   The walks over a queue carry their fuel: the length the queue records, or the
   window of `collect_retired`. Both bound the loop of the source as long as the
   queue's count is right.

   Three fields are history and steer nothing: `growLog` holds every call of
   `Memory::grow` with the queues and the retired range of that moment, `history` the
   page each block was last popped from and the length of the run last claimed at an
   address, and `collections` the number of calls of `collect_retired`.

   Correspondence (Rust ↔ Lean):
     `(*page).f`, `(*page).f = v` ↔ `h.field page .f`, `h.setField page .f v`
     `page::pop(page, &mem)`      ↔ `h.popBlock page`
     `slices::acquire(..)`        ↔ `h.withSupply (h.supply.acquire ..)` -/
namespace Wasmalloc
open ByteMem Words

/-! ## Constants -/

def fullQueue : Nat := binCount
def queueCount : Nat := Nat.nextPowerOfTwo (binCount + 1)
def queueIndex (qi : Nat) : Nat := qi &&& (queueCount - 1)
def retireCycles : Nat := 16
def retireMaxPages : Nat := 3
def maxCandidates : Int := 4
def genericCollectPeriod : Nat := 1000
def directMaxBin : Nat := bin directMaxSize
/-- The bits of `occupied` that stand for bin queues. -/
def binQueueBits : U64 := (((1 : U64) <<< binCount) - 1) &&& ~~~(1 : U64)

/-- Direct-table indices served by a bin, as an inclusive range. -/
def directRange (bin : Nat) : Nat × Nat :=
  let lo := if bin = 1 then 0 else binSize (bin - 1) / word + 1
  let hi := binSize bin / word
  if directEntries ≤ hi then (lo, directEntries - 1) else (lo, hi)

/-- A doubly linked list of pages, by address (0 = none), plus its length. -/
structure PageQueue where
  first : Nat
  last : Nat
  count : Nat
  deriving DecidableEq, Repr

def emptyQueue : PageQueue := { first := 0, last := 0, count := 0 }

/-- A call of `grow`, and what the heap held when it was made. -/
structure GrowEntry where
  call : GrowCall
  queues : Nat → PageQueue
  retiredMin : Nat
  retiredMax : Nat

/-- The page each block was last popped from, and the slices of the run claimed at an address. -/
structure History where
  poppedFrom : Nat → Nat
  runSlices : Nat → Nat

def History.popped (hist : History) (block page : Nat) : History :=
  { hist with poppedFrom := Function.update hist.poppedFrom block page }

def History.claimed (hist : History) (addr count : Nat) : History :=
  { hist with runSlices := Function.update hist.runSlices addr count }

structure Heap (M : Type) where
  bytes : Bytes
  mem : M
  slices : SliceMap
  policy : GrowPolicy
  direct : Nat → Nat
  queues : Nat → PageQueue
  retiredMin : Nat
  retiredMax : Nat
  occupied : U64
  genericCount : Nat
  initialized : Bool
  growLog : List GrowEntry
  history : History
  collections : Nat

variable [Build]

/-! ## Decisions on sizes -/

/-- The size the allocation fast paths index the direct table with. -/
def directSize (layout : Layout) : Nat :=
  if layout.align ≤ word then layout.size
  else if layout.align ≤ maxNaturalAlign then
    (layout.size + layout.align - 1) &&& usizeNot (layout.align - 1)
  else usizeMax

omit [Build] in
/-- Whether a block of bin `old` keeps serving `newSize` bytes, a request of bin `new`. -/
def fitsInPlace (old new newSize : Nat) : Bool :=
  new == old || (decide (new < old) && kindOfBin new == kindOfBin old &&
    decide (binSize old / 2 ≤ newSize))

/-- Number of slices a header-less run for `layout` occupies. -/
def hugeSlices (layout : Layout) : Nat := max (divCeil layout.size sliceSize) 1

/-- At least 7/8 of the blocks are live. -/
def mostlyUsed (b : Bytes) (page : Nat) : Bool :=
  decide (Page.get b page .reserved * 7 ≤ Page.get b page .used * 8)

/-- Whether a free that left `page` in its current state has queue work to do. -/
def needsTransition (b : Bytes) (page : Nat) : Bool :=
  (Page.get b page .used == 0 && Page.get b page .retireExpire == 0) || Page.get b page .flags != 0

namespace Heap
variable {M : Type}

/-- A heap over `mem`, whose memory holds `bytes`. -/
def new (mem : M) (bytes : Bytes) (policy : GrowPolicy) : Heap M :=
  { bytes := bytes, mem := mem, slices := SliceMap.new, policy := policy,
    direct := fun _ => emptyPage, queues := fun _ => emptyQueue, retiredMin := queueCount,
    retiredMax := 0, occupied := 0, genericCount := 0, initialized := false, growLog := [],
    history := { poppedFrom := fun _ => 0, runSlices := fun _ => 0 }, collections := 0 }

def field (h : Heap M) (page : Nat) (f : Page.Field) : Nat := Page.get h.bytes page f

def setField (h : Heap M) (page : Nat) (f : Page.Field) (v : Nat) : Heap M :=
  { h with bytes := Page.set h.bytes page f v }

/-- Free slices the heap holds. -/
def freeSlices (h : Heap M) : Nat := h.slices.freeCount

/-! ## Queues and the direct table -/

/-- Point the direct-table entries of `bin` at the queue's first page (or the sentinel). -/
def updateDirect (h : Heap M) (bin : Nat) : Heap M :=
  if bin = 0 ∨ maxBin < bin then h
  else
    let range := directRange bin
    if range.2 < range.1 then h
    else
      let first := (h.queues (queueIndex bin)).first
      let target := if first = 0 then emptyPage else first
      { h with
        direct := fun i =>
          if range.1 ≤ i ∧ i ≤ range.2 ∧ i < directEntries then target else h.direct i }

def pushFront (h : Heap M) (qi page : Nat) : Heap M :=
  let first := (h.queues (queueIndex qi)).first
  let h := h.setField page .next first
  let h := h.setField page .prev 0
  let h := if first ≠ 0 then h.setField first .prev page else h
  let q := h.queues (queueIndex qi)
  let q := if first = 0 then { q with last := page } else q
  let q := { q with first := page, count := q.count + 1 }
  let h := { h with queues := Function.update h.queues (queueIndex qi) q
                    occupied := h.occupied ||| ((1 : U64) <<< queueIndex qi) }
  h.updateDirect qi

def pushBack (h : Heap M) (qi page : Nat) : Heap M :=
  let last := (h.queues (queueIndex qi)).last
  let h := h.setField page .prev last
  let h := h.setField page .next 0
  let h := if last ≠ 0 then h.setField last .next page else h
  let q := h.queues (queueIndex qi)
  let wasEmpty := q.first = 0
  let q := if wasEmpty then { q with first := page } else q
  let q := { q with last := page, count := q.count + 1 }
  let h := { h with queues := Function.update h.queues (queueIndex qi) q
                    occupied := h.occupied ||| ((1 : U64) <<< queueIndex qi) }
  if wasEmpty then h.updateDirect qi else h

def remove (h : Heap M) (qi page : Nat) : Heap M :=
  let prev := h.field page .prev
  let next := h.field page .next
  let h := if prev ≠ 0 then h.setField prev .next next else h
  let h := if next ≠ 0 then h.setField next .prev prev else h
  let q := h.queues (queueIndex qi)
  let wasFirst := q.first = page
  let q := if wasFirst then { q with first := next } else q
  let q := if q.last = page then { q with last := prev } else q
  let q := { q with count := q.count - 1 }
  let occupied := if q.count = 0 then h.occupied &&& ~~~((1 : U64) <<< queueIndex qi)
    else h.occupied
  let h := { h with queues := Function.update h.queues (queueIndex qi) q, occupied := occupied }
  let h := h.setField page .next 0
  let h := h.setField page .prev 0
  if wasFirst then h.updateDirect qi else h

def moveToFront (h : Heap M) (qi page : Nat) : Heap M :=
  if (h.queues (queueIndex qi)).first = page then h else (h.remove qi page).pushFront qi page

def setInFullQueue (h : Heap M) (page : Nat) (inFull : Bool) : Heap M :=
  { h with bytes := Page.setInFullQueue h.bytes page inFull }

def moveToFull (h : Heap M) (qi page : Nat) : Heap M :=
  let h := h.remove qi page
  let h := h.setInFullQueue page true
  h.pushBack fullQueue page

/-- A free made room in a full page: move it back to the end of its bin queue. -/
def unfull (h : Heap M) (page : Nat) : Heap M :=
  let h := h.remove fullQueue page
  let h := h.setInFullQueue page false
  let qi := h.field page .bin
  h.pushBack qi page

/-! ## Retirement and page release -/

/-- Unlink an empty page from queue `qi` and return its slices to the map. -/
def freePage (h : Heap M) (page qi : Nat) : Heap M :=
  let h := h.remove qi page
  let kind := Page.kind h.bytes page
  { h with slices := h.slices.freeRun (page / sliceSize) (kind.pageSize / sliceSize) }

/-- The page just became empty: keep it for a while, or release its slices. -/
def retire (h : Heap M) (page : Nat) : Heap M :=
  let qi := h.field page .bin
  let bsize := h.field page .blockSize
  let count := (h.queues (queueIndex qi)).count
  if count ≤ retireMaxPages ∧ (count = 1 ∨ bsize < directMaxSize) then
    let h := h.setField page .retireExpire
      (if bsize ≤ smallMaxObjSize then retireCycles else retireCycles / 4)
    { h with retiredMin := min h.retiredMin qi, retiredMax := max h.retiredMax qi }
  else h.freePage page qi

/-- The walk of `collectRetired` over the first pages of queue `qi`; `range` is the
    retired range found so far. -/
def collectQueue (qi : Nat) : Nat → Heap M × Nat × Nat → Nat → Heap M × Nat × Nat
  | 0, s, _ => s
  | left + 1, (h, range), cur =>
    if cur = 0 then (h, range)
    else
      let next := h.field cur .next
      let s :=
        if h.field cur .retireExpire ≠ 0 then
          if Page.allFree h.bytes cur then
            let h := h.setField cur .retireExpire (h.field cur .retireExpire - 1)
            if h.field cur .retireExpire = 0 then (h.freePage cur qi, range)
            else (h, min range.1 qi, max range.2 qi)
          else (h.setField cur .retireExpire 0, range)
        else (h, range)
      collectQueue qi left s next

/-- Age the retired pages among the first of each queue in the retired range. -/
def collectRetired (h : Heap M) : Heap M :=
  let lo := h.retiredMin
  let hi := h.retiredMax
  let s :=
    if lo ≤ hi then
      (List.range' lo (min hi maxBin + 1 - lo)).foldl
        (fun s qi => collectQueue qi retireMaxPages s (s.1.queues (queueIndex qi)).first)
        (h, queueCount, 0)
    else (h, queueCount, 0)
  { s.1 with
    retiredMin := s.2.1, retiredMax := s.2.2, collections := s.1.collections + 1 }

/-- The walk of `releaseEmptyPages` over queue `qi`. -/
def releaseQueue (qi : Nat) : Nat → Heap M → Nat → Heap M
  | 0, h, _ => h
  | left + 1, h, cur =>
    if cur = 0 then h
    else
      let next := h.field cur .next
      let h :=
        if Page.allFree h.bytes cur then h.freePage cur qi
        else if h.field cur .retireExpire ≠ 0 then h.setField cur .retireExpire 0
        else h
      releaseQueue qi left h next

/-- Visit the queues of the bits in `pending`, lowest first. -/
def releasePending : Nat → Heap M → U64 → Heap M
  | 0, h, _ => h
  | left + 1, h, pending =>
    if pending = 0 then h
    else
      let qi := trailingZeros pending
      let pending := pending &&& (pending - 1)
      let q := h.queues (queueIndex qi)
      releasePending left (releaseQueue qi q.count h q.first) pending

/-- Release every empty page of every bin queue and un-retire the pages in use. -/
def releaseEmptyPages (h : Heap M) : Heap M :=
  let h := releasePending 64 h (h.occupied &&& binQueueBits)
  { h with retiredMin := queueCount, retiredMax := 0 }

/-! ## Page supply -/

/-- What the functions of `slices.rs` see of the heap. -/
def supply (h : Heap M) : Supply M :=
  { map := h.slices, mem := h.mem, bytes := h.bytes, calls := [] }

/-- A call of `grow`, with what the heap holds. -/
def entry (h : Heap M) (call : GrowCall) : GrowEntry :=
  { call := call, queues := h.queues, retiredMin := h.retiredMin, retiredMax := h.retiredMax }

def withSupply (h : Heap M) (s : Supply M) : Heap M :=
  { h with
    slices := s.map, mem := s.mem, bytes := s.bytes, growLog := s.calls.map h.entry ++ h.growLog }

variable [Memory M]

def ensureInit (h : Heap M) : Heap M :=
  if h.initialized then h
  else
    let h := { h with initialized := true }
    let base := heapBase h.mem
    let h := { h with slices := h.slices.init (base / sliceSize) }
    let range := initialFreeRange base (sizeSlices h.mem)
    if 0 < range.2 then { h with slices := h.slices.addFree range.1 range.2 false } else h

/-- Slices for a page or a run: the lowest fit, or with `top` the bottom of the free tail
    first; memory is grown last. -/
def acquireRun (h : Heap M) (count align : Nat) (top : Bool) : Option Run × Heap M :=
  let r := if top then h.slices.allocTail count align (sizeSlices h.mem) else (none, h.slices)
  match r with
  | (some run, slices) => (some run, { h with slices := slices })
  | (none, slices) =>
    match slices.alloc count align with
    | (some run, slices) => (some run, { h with slices := slices })
    | (none, slices) =>
      let h := { h with slices := slices }.releaseEmptyPages
      let a := h.supply.acquire h.policy count align
      (a.1, h.withSupply a.2)

/-- Acquire slices for a new page of `bin`, initialise it, and put it at the front of its
    queue with an initial free list. -/
def freshPage (h : Heap M) (bin : Nat) : Option Nat × Heap M :=
  let kind := kindOfBin bin
  let n := kind.pageSize / sliceSize
  match h.acquireRun n n false with
  | (none, h) => (none, h)
  | (some run, h) =>
    let addr := run.start * sliceSize
    let h := { h with bytes := Page.init h.bytes addr kind bin run.zeroed }
    let h := h.pushFront bin addr
    (some addr, { h with bytes := (Page.extend h.bytes addr).2 })

/-- The candidate search of `findPage`, from page `cur` on. -/
def findCandidate (qi : Nat) : Nat → Heap M → Nat → Int → Nat → Heap M × Nat
  | 0, h, candidate, _, _ => (h, candidate)
  | left + 1, h, candidate, limit, cur =>
    if cur = 0 then (h, candidate)
    else
      let next := h.field cur .next
      let available := Page.hasFree h.bytes cur
      let expandable := Page.isExpandable h.bytes cur
      if !available && !expandable then
        let h := h.setField cur .retireExpire 0
        let h := h.moveToFull qi cur
        findCandidate qi left h candidate (limit - 1) next
      else
        let limit := if candidate = 0 then maxCandidates else limit
        let candidate :=
          if candidate = 0 then cur
          else if decide (h.field candidate .used ≤ h.field cur .used) && !mostlyUsed h.bytes cur
            then cur
          else candidate
        if available || decide (limit ≤ 0) then (h, candidate)
        else findCandidate qi left h candidate (limit - 1) next

/-- Find a page of `bin` with a non-empty free list, extending or allocating one if needed. -/
def findPage (h : Heap M) (bin : Nat) : Option Nat × Heap M :=
  let qi := bin
  let q := h.queues (queueIndex qi)
  let (h, candidate) := findCandidate qi q.count h 0 maxCandidates q.first
  let (h, candidate) :=
    if candidate ≠ 0 && !Page.hasFree h.bytes candidate then
      let e := Page.extend h.bytes candidate
      ({ h with bytes := e.2 }, if e.1 then candidate else 0)
    else (h, candidate)
  if candidate = 0 then h.collectRetired.freshPage bin
  else
    let h := h.moveToFront qi candidate
    (some candidate, h.setField candidate .retireExpire 0)

/-! ## Allocation -/

def popBlock (h : Heap M) (page : Nat) : Option Nat × Heap M :=
  match Page.pop h.bytes page with
  | (none, b) => (none, { h with bytes := b })
  | (some block, b) =>
    (some block, { h with bytes := b, history := h.history.popped block page })

/-- Clear a block just popped from `page`: one word when its blocks are known zero. -/
def clearBlock (h : Heap M) (page block size : Nat) : Heap M :=
  if h.field page .freeIsZero ≠ 0 then { h with bytes := Page.storeWord h.bytes block 0 }
  else { h with bytes := fill h.bytes block size 0 }

/-- A header-less run for `layout`. -/
def allocHuge (h : Heap M) (layout : Layout) (zero top : Bool) : Option Nat × Heap M :=
  let count := hugeSlices layout
  let align := max (divCeil layout.align sliceSize) 1
  match h.acquireRun count align top with
  | (none, h) => (none, h)
  | (some run, h) =>
    let addr := run.start * sliceSize
    let h := { h with history := h.history.claimed addr count }
    let h := if zero && !run.zeroed then { h with bytes := fill h.bytes addr layout.size 0 } else h
    (some addr, h)

/-- The page search of `allocGeneric`, counted: every so often it ages retired pages first. -/
def searchPage (h : Heap M) (bin : Nat) : Option Nat × Heap M :=
  let h := h.ensureInit
  let h := { h with genericCount := h.genericCount + 1 }
  let h := if genericCollectPeriod ≤ h.genericCount then
    { h with genericCount := 0 }.collectRetired else h
  h.findPage bin

/-- The end of `allocGeneric`: take a block of the page found. -/
def takeBlock (h : Heap M) (page : Nat) (layout : Layout) (zero : Bool) : Option Nat × Heap M :=
  match h.popBlock page with
  | (none, h) => (none, h)
  | (some block, h) => (some block, if zero then h.clearBlock page block layout.size else h)

/-- The fast paths' miss handler. -/
def allocGeneric (h : Heap M) (layout : Layout) (zero : Bool) : Option Nat × Heap M :=
  match classify layout with
  | .huge => h.ensureInit.allocHuge layout zero false
  | .bin bin =>
    let head := (h.queues (queueIndex bin)).first
    if directMaxBin < bin ∧ head ≠ 0 ∧ Page.hasFree h.bytes head then
      h.takeBlock head layout zero
    else
      match h.searchPage bin with
      | (none, h) => (none, h)
      | (some page, h) => h.takeBlock page layout zero

/-- Allocate a block for `layout`, or `none` if memory cannot be grown. -/
def alloc (h : Heap M) (layout : Layout) : Option Nat × Heap M :=
  let size := directSize layout
  if size ≤ directMaxSize then
    let page := h.direct (directIndex size)
    match h.popBlock page with
    | (some block, h) => (some block, h)
    | (none, h) => h.allocGeneric layout false
  else h.allocGeneric layout false

/-- Allocate a zero-filled block for `layout`. -/
def allocZeroed (h : Heap M) (layout : Layout) : Option Nat × Heap M :=
  let size := directSize layout
  if size ≤ directMaxSize then
    let page := h.direct (directIndex size)
    match h.popBlock page with
    | (some block, h) => (some block, h.clearBlock page block layout.size)
    | (none, h) => h.allocGeneric layout true
  else h.allocGeneric layout true

/-! ## Freeing and resizing -/

/-- A free made the page empty, or the page sits in the full queue: fix the queues. -/
def deallocTransition (h : Heap M) (page : Nat) : Heap M :=
  let h := if Page.inFullQueue h.bytes page then h.unfull page else h
  if Page.allFree h.bytes page then h.retire page else h

/-- Push a block onto its page, and fix the queues if need be. -/
def pushBlock (h : Heap M) (page addr : Nat) : Heap M :=
  let h := { h with bytes := Page.push h.bytes page addr }
  if needsTransition h.bytes page then h.deallocTransition page else h

def deallocGeneric (h : Heap M) (ptr : Nat) (layout : Layout) : Heap M :=
  match classify layout with
  | .huge => { h with slices := h.slices.freeRun (ptr / sliceSize) (hugeSlices layout) }
  | .bin bin => h.pushBlock (Page.headerOf (kindOfBin bin) ptr) ptr

/-- Free a block. -/
def dealloc (h : Heap M) (ptr : Nat) (layout : Layout) : Heap M :=
  let smallLimit := smallMaxObjSize &&& wrappingNeg layout.align
  if layout.align ≤ maxNaturalAlign ∧ layout.size ≤ smallLimit then
    h.pushBlock (Page.headerOf .small ptr) ptr
  else h.deallocGeneric ptr layout

/-- The in-place roads of `realloc`; `none` when the block has to move. -/
def resizeInPlace (h : Heap M) (ptr : Nat) (layout newLayout : Layout) : Option Nat × Heap M :=
  match classify layout, classify newLayout with
  | .bin old, .bin new => (if fitsInPlace old new newLayout.size then some ptr else none, h)
  | .huge, .huge =>
    let start := ptr / sliceSize
    let oldN := hugeSlices layout
    let newN := hugeSlices newLayout
    if newN = oldN then (some ptr, h)
    else if newN < oldN then
      (some ptr, { h with slices := h.slices.shrink start oldN newN
                          history := h.history.claimed ptr newN })
    else
      let extra := newN - oldN
      match h.slices.tryExtend start oldN extra with
      | (some _, slices) =>
        (some ptr, { h with slices := slices, history := h.history.claimed ptr newN })
      | (none, slices) =>
        let h := { h with slices := slices }.releaseEmptyPages
        match h.supply.extendWithGrowth h.policy start oldN extra with
        | (some _, s) =>
          let h := h.withSupply s
          (some ptr, { h with history := h.history.claimed ptr newN })
        | (none, s) => (none, h.withSupply s)
  | _, _ => (none, h)

/-- The last resort of `realloc`: allocate, copy, free. -/
def moveBlock (h : Heap M) (ptr : Nat) (layout newLayout : Layout) : Option Nat × Heap M :=
  let r := match classify newLayout with
    | .huge => h.allocHuge newLayout false true
    | .bin _ => h.alloc newLayout
  match r with
  | (none, h) => (none, h)
  | (some new, h) =>
    let h := { h with bytes := copy h.bytes ptr new (min layout.size newLayout.size) }
    (some new, h.dealloc ptr layout)

/-- Resize a block. Returns the (possibly moved) block, or `none` if memory cannot be grown. -/
def realloc (h : Heap M) (ptr : Nat) (layout : Layout) (newSize : Nat)
    (fits : newSize + layout.align ≤ usizeSize / 2) : Option Nat × Heap M :=
  if layout.align ≤ word ∧ layout.size ≤ directMaxSize ∧ newSize ≤ directMaxSize ∧
      directIndex layout.size = directIndex newSize then (some ptr, h)
  else
    let newLayout := layout.withSize newSize fits
    match h.resizeInPlace ptr layout newLayout with
    | (some p, h) => (some p, h)
    | (none, h) => h.moveBlock ptr layout newLayout

end Heap

end Wasmalloc
