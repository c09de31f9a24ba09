import Wasmalloc.Candidates
import Wasmalloc.GrowthChecks
import Wasmalloc.PageChecks

/- What the heap checks while it runs.

   The conditions of `heap.rs`, as in the module on the slice map: its `debug_assert!`s,
   `queue_index`, which a release build masks with, and its sums, differences and
   products. A call of another function contributes that function's conditions at the
   state it is called in. A loop over a queue has a predicate with the loop's recursion;
   one round of it is `agePage`, `releaseOne`, `park` or `weigh`.

   `alloc` and `alloc_zeroed` check the same, since clearing a block computes nothing. -/
namespace Wasmalloc
open ByteMem Words Obligations

/-- `queue_index` returns its argument. -/
def QueueIndexChecks (k : Check) (qi : Nat) : Prop :=
  asserts k (qi < queueCount) ∧ guards k (queueIndex qi = qi)

/-- The sizes of a bin and of the bin below it. -/
def DirectRangeChecks (k : Check) (bin : Nat) : Prop :=
  BinSizeChecks k bin ∧ (bin ≠ 1 → computes k (1 ≤ bin) ∧ BinSizeChecks k (bin - 1))

def FitsInPlaceChecks (k : Check) (old new : Nat) : Prop :=
  new < old → KindOfBinChecks k new ∧ KindOfBinChecks k old ∧
    (kindOfBin new = kindOfBin old → BinSizeChecks k old)

def UpdateDirectChecks (k : Check) (bin : Nat) : Prop :=
  ¬ (bin = 0 ∨ maxBin < bin) → DirectRangeChecks k bin ∧ QueueIndexChecks k bin

variable [Build] {M : Type}

def DirectSizeChecks (k : Check) (layout : Layout) : Prop :=
  word < layout.align → layout.align ≤ maxNaturalAlign →
    computes k (FitsUsize (layout.size + layout.align) ∧ 1 ≤ layout.align)

def MostlyUsedChecks (k : Check) (b : Bytes) (page : Nat) : Prop :=
  computes k (FitsUsize (Page.get b page .used * 8) ∧ FitsUsize (Page.get b page .reserved * 7))

namespace Heap

/-! ## Queues -/

def PushFrontChecks (k : Check) (h : Heap M) (qi : Nat) : Prop :=
  QueueIndexChecks k qi ∧ computes k (FitsUsize ((h.queues (queueIndex qi)).count + 1)) ∧
  UpdateDirectChecks k qi

def PushBackChecks (k : Check) (h : Heap M) (qi : Nat) : Prop :=
  QueueIndexChecks k qi ∧ computes k (FitsUsize ((h.queues (queueIndex qi)).count + 1)) ∧
  ((h.queues (queueIndex qi)).first = 0 → UpdateDirectChecks k qi)

def RemoveChecks (k : Check) (h : Heap M) (qi page : Nat) : Prop :=
  let q := h.queues (queueIndex qi)
  QueueIndexChecks k qi ∧ asserts k (0 < q.count) ∧ computes k (1 ≤ q.count) ∧
  (q.first = page → UpdateDirectChecks k qi)

def MoveToFrontChecks (k : Check) (h : Heap M) (qi page : Nat) : Prop :=
  QueueIndexChecks k qi ∧
  ((h.queues (queueIndex qi)).first ≠ page →
    h.RemoveChecks k qi page ∧ (h.remove qi page).PushFrontChecks k qi)

def MoveToFullChecks (k : Check) (h : Heap M) (qi page : Nat) : Prop :=
  h.RemoveChecks k qi page ∧
  ((h.remove qi page).setInFullQueue page true).PushBackChecks k fullQueue

def UnfullChecks (k : Check) (h : Heap M) (page : Nat) : Prop :=
  h.RemoveChecks k fullQueue page ∧
  let h := (h.remove fullQueue page).setInFullQueue page false
  h.PushBackChecks k (h.field page .bin)

/-! ## Retirement and page release -/

def FreePageChecks (k : Check) (h : Heap M) (page qi : Nat) : Prop :=
  asserts k (Page.allFree h.bytes page = true) ∧ h.RemoveChecks k qi page ∧
  let h := h.remove qi page
  Page.KindChecks k h.bytes page ∧
  h.slices.FreeRunChecks k (page / sliceSize) ((Page.kind h.bytes page).pageSize / sliceSize)

def RetireChecks (k : Check) (h : Heap M) (page : Nat) : Prop :=
  let qi := h.field page .bin
  let count := (h.queues (queueIndex qi)).count
  asserts k (Page.allFree h.bytes page = true) ∧ QueueIndexChecks k qi ∧
  (¬ (count ≤ retireMaxPages ∧ (count = 1 ∨ h.field page .blockSize < directMaxSize)) →
    h.FreePageChecks k page qi)

def AgePageChecks (k : Check) (h : Heap M) (qi cur : Nat) : Prop :=
  h.field cur .retireExpire ≠ 0 → Page.allFree h.bytes cur = true →
    computes k (1 ≤ h.field cur .retireExpire) ∧
    let h := h.setField cur .retireExpire (h.field cur .retireExpire - 1)
    (h.field cur .retireExpire = 0 → h.FreePageChecks k cur qi)

def CollectQueueChecks (k : Check) (qi : Nat) : Nat → Heap M × Nat × Nat → Nat → Prop
  | 0, _, _ => True
  | left + 1, (h, range), cur =>
    cur ≠ 0 → h.AgePageChecks k qi cur ∧
      CollectQueueChecks k qi left (h.agePage qi cur range) (h.field cur .next)

/-- A queue of the retired range. -/
def CollectChecks (k : Check) (s : Heap M × Nat × Nat) (qi : Nat) : Prop :=
  QueueIndexChecks k qi ∧
  CollectQueueChecks k qi retireMaxPages s (s.1.queues (queueIndex qi)).first

def CollectRetiredChecks (k : Check) (h : Heap M) : Prop :=
  h.retiredMin ≤ h.retiredMax →
    Along (CollectChecks k)
      (fun s qi => collectQueue qi retireMaxPages s (s.1.queues (queueIndex qi)).first)
      (List.range' h.retiredMin (min h.retiredMax maxBin + 1 - h.retiredMin)) (h, queueCount, 0)

def ReleaseQueueChecks (k : Check) (qi : Nat) : Nat → Heap M → Nat → Prop
  | 0, _, _ => True
  | left + 1, h, cur =>
    cur ≠ 0 → (Page.allFree h.bytes cur = true → h.FreePageChecks k cur qi) ∧
      ReleaseQueueChecks k qi left (h.releaseOne qi cur) (h.field cur .next)

def ReleasePendingChecks (k : Check) : Nat → Heap M → U64 → Prop
  | 0, _, _ => True
  | left + 1, h, pending =>
    pending ≠ 0 →
      let qi := trailingZeros pending
      let q := h.queues (queueIndex qi)
      QueueIndexChecks k qi ∧ ReleaseQueueChecks k qi q.count h q.first ∧
      ReleasePendingChecks k left (releaseQueue qi q.count h q.first) (pending &&& (pending - 1))

def ReleaseEmptyPagesChecks (k : Check) (h : Heap M) : Prop :=
  ReleasePendingChecks k 64 h (h.occupied &&& binQueueBits)

/-! ## Page supply -/

variable [Memory M]

def EnsureInitChecks (k : Check) (h : Heap M) : Prop :=
  h.initialized = false →
    let base := heapBase h.mem
    let range := initialFreeRange base (sizeSlices h.mem)
    h.slices.InitChecks k (base / sliceSize) ∧
    (0 < range.2 → (h.slices.init (base / sliceSize)).AddFreeChecks k range.1 range.2)

def AcquireRunChecks (k : Check) (h : Heap M) (count align : Nat) (top : Bool) : Prop :=
  (top = true → h.slices.AllocTailChecks k count align (sizeSlices h.mem)) ∧
  ∀ slices, (if top then h.slices.allocTail count align (sizeSlices h.mem)
      else (none, h.slices)) = (none, slices) →
    slices.AllocChecks k count align ∧
    ∀ slices', slices.alloc count align = (none, slices') →
      let h := { h with slices := slices' }
      h.ReleaseEmptyPagesChecks k ∧ h.releaseEmptyPages.supply.AcquireChecks k h.policy count align

def FreshPageChecks (k : Check) (h : Heap M) (bin : Nat) : Prop :=
  let kind := kindOfBin bin
  let n := kind.pageSize / sliceSize
  KindOfBinChecks k bin ∧ h.AcquireRunChecks k n n false ∧
  ∀ run h1, h.acquireRun n n false = (some run, h1) →
    let addr := run.start * sliceSize
    let h := { h1 with bytes := Page.init h1.bytes addr kind bin run.zeroed }
    computes k (FitsUsize addr) ∧ Page.InitChecks k addr kind bin run.zeroed ∧
    h.PushFrontChecks k bin ∧ Page.ExtendChecks k (h.pushFront bin addr).bytes addr ∧
    asserts k ((Page.extend (h.pushFront bin addr).bytes addr).1 = true)

def WeighChecks (k : Check) (h : Heap M) (candidate cur : Nat) : Prop :=
  candidate ≠ 0 →
    asserts k (Page.allFree h.bytes candidate = false) ∧
    (h.field candidate .used ≤ h.field cur .used → MostlyUsedChecks k h.bytes cur)

/-- The counter of the walk is an `isize`. -/
def FindCandidateChecks (k : Check) (qi : Nat) : Nat → Heap M → Nat → Int → Nat → Prop
  | 0, _, _, _, _ => True
  | left + 1, h, candidate, limit, cur =>
    cur ≠ 0 →
      if NoRoom h.bytes cur then
        (h.setField cur .retireExpire 0).MoveToFullChecks k qi cur ∧
        computes k (-(usizeSize / 2 : Nat) ≤ limit - 1) ∧
        FindCandidateChecks k qi left (h.park qi cur) candidate (limit - 1) (h.field cur .next)
      else
        h.WeighChecks k candidate cur ∧
        (¬ (Page.hasFree h.bytes cur = true ∨ (h.weigh candidate limit cur).2 ≤ 0) →
          computes k (-(usizeSize / 2 : Nat) ≤ (h.weigh candidate limit cur).2 - 1) ∧
          FindCandidateChecks k qi left h (h.weigh candidate limit cur).1
            ((h.weigh candidate limit cur).2 - 1) (h.field cur .next))

/-- A page with room extends. -/
def ExtendCandidateChecks (k : Check) (h : Heap M) (candidate : Nat) : Prop :=
  candidate ≠ 0 → Page.hasFree h.bytes candidate = false →
    Page.ExtendChecks k h.bytes candidate ∧ asserts k ((Page.extend h.bytes candidate).1 = true)

def FindPageChecks (k : Check) (h : Heap M) (bin : Nat) : Prop :=
  let q := h.queues (queueIndex bin)
  let s := findCandidate bin q.count h 0 maxCandidates q.first
  QueueIndexChecks k bin ∧ FindCandidateChecks k bin q.count h 0 maxCandidates q.first ∧
  s.1.ExtendCandidateChecks k s.2 ∧
  let (h, candidate) :=
    if s.2 ≠ 0 && !Page.hasFree s.1.bytes s.2 then
      let e := Page.extend s.1.bytes s.2
      ({ s.1 with bytes := e.2 }, if e.1 then s.2 else 0)
    else s
  if candidate = 0 then h.CollectRetiredChecks k ∧ h.collectRetired.FreshPageChecks k bin
  else h.MoveToFrontChecks k bin candidate

/-! ## Allocation -/

def AllocHugeChecks (k : Check) (h : Heap M) (layout : Layout) (top : Bool) : Prop :=
  let count := hugeSlices layout
  let align := max (divCeil layout.align sliceSize) 1
  asserts k (h.initialized = true) ∧ h.AcquireRunChecks k count align top ∧
  ∀ run h1, h.acquireRun count align top = (some run, h1) →
    computes k (FitsUsize (run.start * sliceSize))

def SearchPageChecks (k : Check) (h : Heap M) (bin : Nat) : Prop :=
  let h1 := h.ensureInit
  h.EnsureInitChecks k ∧ computes k (h1.genericCount + 1 < 2 ^ 32) ∧
  (genericCollectPeriod ≤ h1.genericCount + 1 →
    { h1 with genericCount := 0 }.CollectRetiredChecks k) ∧
  h.readied.FindPageChecks k bin

/-- The page found has a free block. -/
def TakeBlockChecks (k : Check) (h : Heap M) (page : Nat) : Prop :=
  Page.PopChecks k h.bytes page ∧ asserts k ((h.popBlock page).1.isSome = true) ∧
  guards k ((h.popBlock page).1.isSome = true)

def AllocGenericChecks (k : Check) (h : Heap M) (layout : Layout) : Prop :=
  ClassifyChecks k layout ∧
  match classify layout with
  | .huge => h.EnsureInitChecks k ∧ h.ensureInit.AllocHugeChecks k layout false
  | .bin bin =>
    let head := (h.queues (queueIndex bin)).first
    (directMaxBin < bin → QueueIndexChecks k bin) ∧
    if directMaxBin < bin ∧ head ≠ 0 ∧ Page.hasFree h.bytes head then h.TakeBlockChecks k head
    else
      h.SearchPageChecks k bin ∧
      ∀ page h1, h.searchPage bin = (some page, h1) → h1.TakeBlockChecks k page

def AllocChecks (k : Check) (h : Heap M) (layout : Layout) : Prop :=
  let size := directSize layout
  DirectSizeChecks k layout ∧
  if size ≤ directMaxSize then
    let page := h.direct (directIndex size)
    DirectIndexChecks k size ∧ Page.PopChecks k h.bytes page ∧
    ∀ h1, h.popBlock page = (none, h1) → h1.AllocGenericChecks k layout
  else h.AllocGenericChecks k layout

/-! ## Freeing and resizing -/

def DeallocTransitionChecks (k : Check) (h : Heap M) (page : Nat) : Prop :=
  (Page.inFullQueue h.bytes page = true → h.UnfullChecks k page) ∧
  let h := if Page.inFullQueue h.bytes page then h.unfull page else h
  (Page.allFree h.bytes page = true → h.RetireChecks k page)

def PushBlockChecks (k : Check) (h : Heap M) (page addr : Nat) : Prop :=
  Page.PushChecks k h.bytes page addr ∧
  let h := { h with bytes := Page.push h.bytes page addr }
  (needsTransition h.bytes page = true → h.DeallocTransitionChecks k page)

/-- A block may lie in a page of a larger bin, of the same kind. -/
def DeallocGenericChecks (k : Check) (h : Heap M) (ptr : Nat) (layout : Layout) : Prop :=
  ClassifyChecks k layout ∧
  match classify layout with
  | .huge =>
    asserts k (ptr % sliceSize = 0) ∧
    h.slices.FreeRunChecks k (ptr / sliceSize) (hugeSlices layout)
  | .bin bin =>
    let page := Page.headerOf (kindOfBin bin) ptr
    KindOfBinChecks k bin ∧ KindOfBinChecks k (h.field page .bin) ∧
    asserts k (kindOfBin (h.field page .bin) = kindOfBin bin) ∧ h.PushBlockChecks k page ptr

def DeallocChecks (k : Check) (h : Heap M) (ptr : Nat) (layout : Layout) : Prop :=
  let smallLimit := smallMaxObjSize &&& wrappingNeg layout.align
  if layout.align ≤ maxNaturalAlign ∧ layout.size ≤ smallLimit then
    h.PushBlockChecks k (Page.headerOf .small ptr) ptr
  else h.DeallocGenericChecks k ptr layout

def ResizeInPlaceChecks (k : Check) (h : Heap M) (ptr : Nat) (layout newLayout : Layout) : Prop :=
  ClassifyChecks k layout ∧ ClassifyChecks k newLayout ∧
  match classify layout, classify newLayout with
  | .bin old, .bin new => FitsInPlaceChecks k old new
  | .huge, .huge =>
    let start := ptr / sliceSize
    let oldN := hugeSlices layout
    let newN := hugeSlices newLayout
    (newN < oldN → h.slices.ShrinkChecks k start oldN newN) ∧
    (oldN < newN →
      computes k (oldN ≤ newN) ∧ h.slices.TryExtendChecks k start oldN (newN - oldN) ∧
      ∀ slices, h.slices.tryExtend start oldN (newN - oldN) = (none, slices) →
        let h := { h with slices := slices }
        h.ReleaseEmptyPagesChecks k ∧
        h.releaseEmptyPages.supply.ExtendWithGrowthChecks k h.policy start oldN (newN - oldN))
  | _, _ => True

def MoveBlockChecks (k : Check) (h : Heap M) (ptr : Nat) (layout newLayout : Layout) : Prop :=
  (match classify newLayout with
    | .huge => h.AllocHugeChecks k newLayout true
    | .bin _ => h.AllocChecks k newLayout) ∧
  ∀ new h1, h.moveTarget newLayout = (some new, h1) →
    { h1 with bytes := copy h1.bytes ptr new (min layout.size newLayout.size) }.DeallocChecks k ptr layout

def ReallocChecks (k : Check) (h : Heap M) (ptr : Nat) (layout : Layout) (newSize : Nat)
    (fits : newSize + layout.align ≤ usizeSize / 2) : Prop :=
  (layout.align ≤ word ∧ layout.size ≤ directMaxSize ∧ newSize ≤ directMaxSize →
    DirectIndexChecks k layout.size ∧ DirectIndexChecks k newSize) ∧
  (¬ (layout.align ≤ word ∧ layout.size ≤ directMaxSize ∧ newSize ≤ directMaxSize ∧
      directIndex layout.size = directIndex newSize) →
    let newLayout := layout.withSize newSize fits
    h.ResizeInPlaceChecks k ptr layout newLayout ∧
    ∀ h1, h.resizeInPlace ptr layout newLayout = (none, h1) →
      h1.MoveBlockChecks k ptr layout newLayout)

end Heap

end Wasmalloc
