import Mathlib.Data.UInt
import Mathlib.Data.Nat.Log
import Wasmalloc.Bins
import Wasmalloc.Lib.Intervals
import Wasmalloc.Testing.Entropy
import Wasmalloc.Testing.Pattern

/- The model-based tester: the model of `testing/model.rs`.

   The tester keeps a table of the blocks it believes are live, drives an allocator with
   operations drawn from an entropy source, and checks after each what the contract of
   `GlobalAlloc` promises. The allocator is any state with the operations of `RawAlloc`;
   the memory behind its pointers is part of that state.

   Correspondence (Rust ↔ Lean): a method with `&mut self` is a program over `Model A`, one
   that also draws is a program over `Session A E`; an `Err` is a `Halt.failure`, and an
   assertion, an `expect`, an index out of bounds or an arithmetic overflow is a
   `Halt.panic`. A `VecDeque` is a list, front first, and `by_addr` is a `SortedMap`. -/
namespace Wasmalloc.Testing
open ByteMem (Bytes)

variable [Build]

/-- `Layout::from_size_align`. -/
def fromSizeAlign (size align : Nat) : Option Layout :=
  if h : align.isPowerOfTwo ∧ size + align ≤ usizeSize / 2 then
    some { size := size, align := align, align_pow2 := h.1, size_le := h.2 }
  else none

/-- The operations of an allocator, and the memory its pointers point into. -/
class RawAlloc (A : Type) where
  alloc : A → Layout → Option Nat × A
  allocZeroed : A → Layout → Option Nat × A
  dealloc : A → Nat → Layout → A
  realloc : A → Nat → Layout → Nat → Option Nat × A
  footprintBytes : A → Option Nat
  bytes : A → Bytes
  setBytes : A → Bytes → A
  bytes_setBytes : ∀ a b, bytes (setBytes a b) = b

/-! ## Profiles -/

def kib : Nat := 1024
def mib : Nat := 1024 * kib
/-- Upper bound of the small size class. -/
def smallMax : Nat := 10000

/-- Which live block `dealloc` frees, and the order a sweep frees everything in. -/
inductive Order where
  | random
  | lifo
  | fifo
  deriving DecidableEq

/-- The shape of an operation stream. -/
structure Profile where
  name : String
  /-- Weights of `alloc`, `alloc_zeroed`, `dealloc` and `realloc`. -/
  ops : Vector Nat 4
  /-- Weights of the size classes. -/
  sizes : Vector Nat 4
  /-- Weights of the alignment classes. -/
  aligns : Vector Nat 7
  sweepEvery : Nat
  maxLiveBytes : Nat
  order : Order
  batch : Nat

def defaultAligns : Vector Nat 7 := #v[75, 8, 6, 5, 3, 2, 1]

namespace Profile

def smallChurn : Profile where
  name := "small_churn"
  ops := #v[45, 10, 35, 10]
  sizes := #v[1, 0, 0, 0]
  aligns := #v[85, 6, 5, 4, 0, 0, 0]
  sweepEvery := 0
  maxLiveBytes := 64 * mib
  order := .random
  batch := 0

def mixed : Profile where
  name := "mixed"
  ops := #v[35, 10, 35, 20]
  sizes := #v[920, 50, 25, 5]
  aligns := defaultAligns
  sweepEvery := 5000
  maxLiveBytes := 256 * mib
  order := .random
  batch := 0

def largeHeavy : Profile where
  name := "large_heavy"
  ops := #v[40, 10, 40, 10]
  sizes := #v[300, 300, 380, 20]
  aligns := #v[80, 5, 5, 5, 3, 1, 1]
  sweepEvery := 500
  maxLiveBytes := 256 * mib
  order := .random
  batch := 0

def alignHeavy : Profile where
  name := "align_heavy"
  ops := #v[40, 10, 40, 10]
  sizes := #v[900, 80, 20, 0]
  aligns := #v[20, 15, 15, 15, 15, 10, 10]
  sweepEvery := 2000
  maxLiveBytes := 128 * mib
  order := .random
  batch := 0

def lifoBatches : Profile where
  name := "lifo_batches"
  ops := #v[45, 5, 40, 10]
  sizes := #v[950, 50, 0, 0]
  aligns := defaultAligns
  sweepEvery := 0
  maxLiveBytes := 64 * mib
  order := .lifo
  batch := 256

def fifoBatches : Profile where
  name := "fifo_batches"
  ops := #v[45, 5, 40, 10]
  sizes := #v[950, 50, 0, 0]
  aligns := defaultAligns
  sweepEvery := 0
  maxLiveBytes := 64 * mib
  order := .fifo
  batch := 256

/-- Every preset. -/
def all : List Profile := [smallChurn, mixed, largeHeavy, alignHeavy, lifoBatches, fifoBatches]

end Profile

/-! ## Results -/

/-- Counters from a completed run. -/
structure Stats where
  ops : Nat
  allocs : Nat
  zeroedAllocs : Nat
  deallocs : Nat
  reallocs : Nat
  peakLiveBytes : Nat
  peakLiveBlocks : Nat
  peakFootprintBytes : Option Nat

def Stats.default : Stats := ⟨0, 0, 0, 0, 0, 0, 0, none⟩

/-- What the model caught. -/
inductive FailureKind where
  | misaligned
  | overlap
  | corrupted
  | notZeroed
  | reallocLostBytes
  | allocFailed
  deriving DecidableEq

/-- A contract violation, with everything needed to reproduce it. -/
structure Failure where
  kind : FailureKind
  opIndex : Nat
  profile : String
  seed : Option UInt64
  detail : String

abbrev Stop : Type := Halt Failure

/-- The format `{:#x}`. -/
def hex (n : Nat) : String := "0x" ++ String.ofList (Nat.toDigits 16 n)

/-- The format `{:#04x}` of a byte. -/
def hexByte (v : UInt8) : String :=
  "0x" ++ (if v.toNat < 16 then "0" else "") ++ String.ofList (Nat.toDigits 16 v.toNat)

/-- The format `{:?}` of a Layout. -/
def debug (layout : Layout) : String :=
  s!"Layout \x7b size: {layout.size}, align: {layout.align} (1 << {Nat.log2 layout.align}) \x7d"

def overflow : Stop := .panic "attempt to add with overflow"
def underflow : Stop := .panic "attempt to subtract with overflow"

/-! ## The model -/

structure Block where
  addr : Nat
  layout : Layout
  seed : UInt64

def Block.interval (block : Block) : Nat × Nat := (block.addr, block.addr + block.layout.size)

inductive Op where
  | alloc (layout : Layout) (zeroed : Bool)
  | dealloc
  | realloc (index newSize : Nat)

structure Model (A : Type) where
  alloc : A
  profile : Profile
  /-- Live blocks in allocation order; realloc moves its block to the back. -/
  live : List Block
  /-- Live intervals, start to end, for the overlap check. -/
  byAddr : SortedMap Nat Nat
  liveBytes : Nat
  stats : Stats
  opIndex : Nat
  nextSeed : Nat
  /-- Batch mode: allocations left in the current allocation phase. -/
  batchLeft : Nat
  /-- Batch mode: frees left in the current free phase. -/
  freeLeft : Nat

/-- The model and the source it draws from. -/
structure Session (A E : Type) where
  model : Model A
  entropy : E

variable {A E α : Type}

abbrev Check (A α : Type) : Type := Act (Model A) Stop α
abbrev Drive (A E α : Type) : Type := Act (Session A E) Stop α

def onModel (x : Check A α) : Drive A E α :=
  Act.zoom Session.model (fun s m => { s with model := m }) x

def onEntropy (x : Draw E Failure α) : Drive A E α :=
  Act.zoom Session.entropy (fun s e => { s with entropy := e }) x

/-- `VecDeque::swap_remove_back`: the back takes the place of the element removed. -/
def swapRemoveBack (l : List Block) (i : Nat) : Option Block × List Block :=
  match l[i]?, l.getLast? with
  | some block, some back => (some block, (l.set i back).dropLast)
  | _, _ => (none, l)

def popBack (l : List Block) : Option Block × List Block := (l.getLast?, l.dropLast)

def popFront (l : List Block) : Option Block × List Block := (l.head?, l.tail)

namespace Model

def new (alloc : A) (profile : Profile) : Model A where
  alloc := alloc
  profile := profile
  live := []
  byAddr := SortedMap.empty
  liveBytes := 0
  stats := Stats.default
  opIndex := 0
  nextSeed := 0
  batchLeft := 0
  freeLeft := 0

def fail (kind : FailureKind) (detail : String) : Check A α := do
  let m ← Act.get
  Act.throw (.failure { kind := kind, opIndex := m.opIndex, profile := m.profile.name, seed := none,
                        detail := detail })

def freshSeed : Check A UInt64 := do
  let m ← Act.get
  Act.require (m.nextSeed + 1 < 2 ^ 64) overflow
  Act.modify fun m => { m with nextSeed := m.nextSeed + 1 }
  pure (mix64 (UInt64.ofNat (m.nextSeed + 1)))

/-! ## Choosing operations -/

section Choose
variable [Entropy E]

def pickSize (profile : Profile) : Draw E Failure (Option Nat) := do
  match ← weighted profile.sizes.toList with
  | none => pure none
  | some 0 =>
    -- Log-uniform: pick a doubling, then a size within it.
    match ← below 14 with
    | none => pure none
    | some k => range (2 ^ k) (min (2 ^ (k + 1) - 1) smallMax)
  | some 1 => range (10 * kib) (100 * kib)
  | some 2 => range (100 * kib) (4 * mib)
  | some _ => range (4 * mib) (64 * mib)

/-- The alignment of class `cls`. -/
def pickAlign (cls : Nat) : Draw E Failure (Option Nat) := do
  match cls with
  | 0 => let k ← below 4
         pure (k.map (2 ^ ·))
  | 1 => pure (some 16)
  | 2 => pure (some 32)
  | 3 => pure (some 64)
  | 4 => pure (some 4096)
  | _ => let k ← range 13 16
         pure (k.map (2 ^ ·))

def pickLayout (profile : Profile) : Draw E Failure (Option Layout) := do
  match ← weighted profile.aligns.toList with
  | none => pure none
  | some cls =>
    if cls = 6 then
      let layout ← Act.expect (fromSizeAlign 1 65536) (.panic "valid layout")
      pure (some layout)
    else
      match ← pickSize profile with
      | none => pure none
      | some size =>
        match ← pickAlign cls with
        | none => pure none
        | some align =>
          let layout ← Act.expect (fromSizeAlign size align)
            (.panic "sizes stay far below isize::MAX")
          pure (some layout)

/-- Operation class in batch mode: allocations until the batch is full, then frees until nothing
    is live. -/
def batchClass : Drive A E (Option Nat) := do
  let s ← Act.get
  let m := s.model
  match ← (if m.batchLeft = 0 ∧ m.freeLeft = 0 then onEntropy (range 1 m.profile.batch)
      else pure (some m.batchLeft)) with
  | none => pure none
  | some left =>
    onModel (Act.modify fun m => { m with batchLeft := left })
    if 0 < left then onEntropy (weighted [m.profile.ops[0], m.profile.ops[1], 0, m.profile.ops[3]])
    else pure (some 2)

/-- `next_op` for the classes `alloc` and `alloc_zeroed`. -/
def nextAlloc (zeroed : Bool) : Drive A E (Option Op) := do
  let s ← Act.get
  let m := s.model
  match ← onEntropy (pickLayout m.profile) with
  | none => pure none
  | some layout =>
    Act.require (m.liveBytes ≤ m.profile.maxLiveBytes) underflow
    let room := m.profile.maxLiveBytes - m.liveBytes
    if room < layout.size then
      if m.live ≠ [] then pure (some .dealloc)
      else
        let layout ← Act.expect (fromSizeAlign (max room 1) layout.align)
          (.panic "smaller than the original layout")
        pure (some (.alloc layout zeroed))
    else pure (some (.alloc layout zeroed))

/-- `next_op` for the class `realloc`. -/
def nextRealloc : Drive A E (Option Op) := do
  let s ← Act.get
  let m := s.model
  match ← onEntropy (below (m.live.length % 2 ^ 32)) with
  | none => pure none
  | some index =>
    let block ← Act.expect m.live[index]? (.panic "Out of bounds access")
    let old := block.layout.size
    match ← onEntropy (below 2) with
    | none => pure none
    | some half =>
      -- Half the time a size near the old one, otherwise a fresh draw.
      let newSize ← onEntropy (if half = 0 then range (max (old / 2) 1) (min (old * 2) usizeMax)
        else pickSize m.profile)
      match newSize with
      | none => pure none
      | some newSize =>
        Act.require (m.liveBytes ≤ m.profile.maxLiveBytes) underflow
        Act.require (m.profile.maxLiveBytes - m.liveBytes + old < usizeSize) overflow
        let room := m.profile.maxLiveBytes - m.liveBytes + old
        pure (some (.realloc index (min newSize room)))

def nextOp : Drive A E (Option Op) := do
  let s ← Act.get
  match ← (if 0 < s.model.profile.batch then batchClass
      else onEntropy (weighted s.model.profile.ops.toList)) with
  | none => pure none
  | some cls =>
    -- Nothing to free or resize: allocate instead.
    match if 2 ≤ cls ∧ s.model.live.isEmpty then 0 else cls with
    | 0 => nextAlloc false
    | 1 => nextAlloc true
    | 2 => pure (some .dealloc)
    | _ => nextRealloc

end Choose

/-! ## Executing operations -/

/-- `admit`: check a freshly returned block for alignment and overlap, and record its interval. -/
def admitBlock (what : String) (ptr : Nat) (layout : Layout) : Check A Unit := do
  let m ← Act.get
  let stop := ptr + layout.size
  if ptr % layout.align ≠ 0 then
    fail .misaligned s!"{what} returned {hex ptr} for {debug layout}"
  else if usizeSize ≤ stop then
    fail .overlap
      s!"{what} returned {hex ptr} for {debug layout}, which wraps the address space"
  else
    -- Live intervals are disjoint, so the only one that can reach into the new one is the last
    -- one starting below its end.
    match m.byAddr.lastBelow stop with
    | some (s, e) =>
      if ptr < e then
        fail .overlap
          s!"{what} returned [{hex ptr}, {hex stop}) for {debug layout}, overlapping the live block [{hex s}, {hex e})"
      else Act.modify fun m => { m with byAddr := m.byAddr.insert ptr stop }
    | none => Act.modify fun m => { m with byAddr := m.byAddr.insert ptr stop }

variable [RawAlloc A]

def recordLive (block : Block) : Check A Unit := do
  let m ← Act.get
  Act.require (m.liveBytes + block.layout.size < usizeSize) overflow
  Act.modify fun m =>
    let live := m.live ++ [block]
    let liveBytes := m.liveBytes + block.layout.size
    { m with
      live := live
      liveBytes := liveBytes
      stats := { m.stats with
        peakLiveBytes := max m.stats.peakLiveBytes liveBytes
        peakLiveBlocks := max m.stats.peakLiveBlocks live.length
        peakFootprintBytes :=
          match RawAlloc.footprintBytes m.alloc with
          | some f => some (m.stats.peakFootprintBytes.elim f fun p => max p f)
          | none => m.stats.peakFootprintBytes } }

/-- A call of the allocator that returns a pointer. -/
def call (f : A → Option Nat × A) : Check A (Option Nat) := do
  let m ← Act.get
  Act.modify fun m => { m with alloc := (f m.alloc).2 }
  pure (f m.alloc).1

/-- The check of `alloc_zeroed`, and the counters of `do_alloc`. -/
def tally (ptr : Nat) (layout : Layout) (zeroed : Bool) : Check A Unit := do
  let m ← Act.get
  if zeroed then
    match verify (RawAlloc.bytes m.alloc) ptr layout.size layout.size none with
    | some e =>
      fail .notZeroed
        s!"alloc_zeroed returned {hex ptr} for {debug layout} with byte {e.offset} = {hexByte e.found}"
    | none =>
      Act.require (m.stats.zeroedAllocs + 1 < usizeSize) overflow
      Act.modify fun m =>
        { m with stats := { m.stats with zeroedAllocs := m.stats.zeroedAllocs + 1 } }
  else
    Act.require (m.stats.allocs + 1 < usizeSize) overflow
    Act.modify fun m => { m with stats := { m.stats with allocs := m.stats.allocs + 1 } }

/-- Fill a block with the pattern of a fresh seed, and record it. -/
def adopt (ptr : Nat) (layout : Layout) : Check A Unit := do
  let seed ← freshSeed
  Act.modify fun m =>
    { m with alloc := RawAlloc.setBytes m.alloc
               (fill (RawAlloc.bytes m.alloc) ptr layout.size seed) }
  recordLive { addr := ptr, layout := layout, seed := seed }

def doAlloc (layout : Layout) (zeroed : Bool) : Check A Unit := do
  let what := if zeroed then "alloc_zeroed" else "alloc"
  match ← call fun a => if zeroed then RawAlloc.allocZeroed a layout else RawAlloc.alloc a layout with
  | none =>
    let m ← Act.get
    fail .allocFailed s!"{what} returned None for {debug layout} with {m.liveBytes} bytes live"
  | some ptr =>
    admitBlock what ptr layout
    tally ptr layout zeroed
    adopt ptr layout
    Act.modify fun m =>
      if 0 < m.batchLeft then
        { m with batchLeft := m.batchLeft - 1
                 freeLeft := if m.batchLeft - 1 = 0 then m.live.length else m.freeLeft }
      else m

/-- Verify a block's contents, then free it. -/
def release (block : Block) : Check A Unit := do
  let m ← Act.get
  let len := block.layout.size
  match verify (RawAlloc.bytes m.alloc) block.addr len len (some block.seed) with
  | some e =>
    fail .corrupted
      s!"block {hex block.addr} ({debug block.layout}) has byte {e.offset} = {hexByte e.found}, expected {hexByte e.expected}"
  | none =>
    Act.require (len ≤ m.liveBytes) underflow
    Act.require (m.stats.deallocs + 1 < usizeSize) overflow
    Act.modify fun m =>
      { m with byAddr := m.byAddr.erase block.addr
               liveBytes := m.liveBytes - len
               alloc := RawAlloc.dealloc m.alloc block.addr block.layout
               stats := { m.stats with deallocs := m.stats.deallocs + 1 }
               freeLeft := m.freeLeft - 1 }

/-- Take a block out of `live`, and free it. -/
def freeVictim (take : List Block → Option Block × List Block) : Check A Unit := do
  let m ← Act.get
  let victim := take m.live
  Act.modify fun m => { m with live := victim.2 }
  let block ← Act.expect victim.1 (.panic "dealloc is only chosen with live blocks")
  release block

def doDealloc [Entropy E] : Drive A E Bool := do
  let s ← Act.get
  match s.model.profile.order with
  | .random =>
    match ← onEntropy (below (s.model.live.length % 2 ^ 32)) with
    | none => pure false
    | some i =>
      onModel (freeVictim fun live => swapRemoveBack live i)
      pure true
  | .lifo =>
    onModel (freeVictim popBack)
    pure true
  | .fifo =>
    onModel (freeVictim popFront)
    pure true

/-- The middle of `do_realloc`: the call, on a block already taken out of `live` and `by_addr`. -/
def resize (old : Block) (newSize : Nat) (newLayout : Layout) : Check A Unit := do
  match ← call fun a => RawAlloc.realloc a old.addr old.layout newSize with
  | none =>
    -- The contract leaves the old block live and untouched.
    Act.require (old.addr + old.layout.size < usizeSize) overflow
    Act.modify fun m =>
      { m with byAddr := m.byAddr.insert old.addr (old.addr + old.layout.size)
               live := m.live ++ [old] }
    let m ← Act.get
    fail .allocFailed
      s!"realloc of {hex old.addr} ({debug old.layout}) to {newSize} returned None with {m.liveBytes} bytes live"
  | some ptr =>
    let m ← Act.get
    Act.require (old.layout.size ≤ m.liveBytes) underflow
    Act.modify fun m => { m with liveBytes := m.liveBytes - old.layout.size }
    admitBlock "realloc" ptr newLayout
    let m ← Act.get
    match verify (RawAlloc.bytes m.alloc) ptr old.layout.size (min old.layout.size newSize)
      (some old.seed) with
    | some e =>
      fail .reallocLostBytes
        s!"realloc of {hex old.addr} ({debug old.layout}) to {newSize} returned {hex ptr} with byte {e.offset} = {hexByte e.found}, expected {hexByte e.expected}"
    | none =>
      adopt ptr newLayout
      Act.require (m.stats.reallocs + 1 < usizeSize) overflow
      Act.modify fun m => { m with stats := { m.stats with reallocs := m.stats.reallocs + 1 } }

def doRealloc (index newSize : Nat) : Check A Unit := do
  let m ← Act.get
  let taken := swapRemoveBack m.live index
  Act.modify fun m => { m with live := taken.2 }
  let old ← Act.expect taken.1 (.panic "index drawn below the live count")
  let len := old.layout.size
  match verify (RawAlloc.bytes m.alloc) old.addr len len (some old.seed) with
  | some e =>
    fail .corrupted
      s!"block {hex old.addr} ({debug old.layout}) has byte {e.offset} = {hexByte e.found}, expected {hexByte e.expected} before realloc"
  | none =>
    Act.modify fun m => { m with byAddr := m.byAddr.erase old.addr }
    let newLayout ← Act.expect (fromSizeAlign newSize old.layout.align) (.panic "valid layout")
    resize old newSize newLayout

/-- Free the next block in the order of a sweep. -/
def freeNext (order : Order) : Check A Unit :=
  match order with
  | .fifo => freeVictim popFront
  | .lifo | .random => freeVictim popBack

/-- One turn of `drain`: whether there was a block to free. -/
def drainOne : Check A Bool := do
  let m ← Act.get
  if m.live.isEmpty then pure false
  else do
    freeNext m.profile.order
    pure true

/-- Free every live block, verifying each, in the profile's order. The loop ends when nothing is
    live, which takes as many turns as there are blocks. -/
def drain : Check A Unit := do
  let m ← Act.get
  Act.loop (fun _ => drainOne) m.live.length 0

variable [Entropy E]

def execute : Op → Drive A E Bool
  | .alloc layout zeroed => do
    onModel (doAlloc layout zeroed)
    pure true
  | .dealloc => doDealloc
  | .realloc index newSize => do
    onModel (doRealloc index newSize)
    pure true

/-- One turn of the loop of `run_with`, but for the sweep: whether the run goes on. -/
def turn (i : Nat) : Drive A E Bool := do
  onModel (Act.modify fun m => { m with opIndex := i })
  match ← nextOp with
  | none => pure false
  | some op =>
    match ← execute op with
    | false => pure false
    | true =>
      onModel (Act.modify fun m => { m with stats := { m.stats with ops := i + 1 } })
      pure true

/-- The sweep after turn `i`. -/
def sweep (i : Nat) : Check A Unit := do
  let m ← Act.get
  if 0 < m.profile.sweepEvery ∧ (i + 1) % m.profile.sweepEvery = 0 then drain else pure ()

end Model

def Profile.validate (profile : Profile) : Drive A E Unit := do
  Act.require (profile.ops[0] + profile.ops[1] < 2 ^ 32) overflow
  Act.require (0 < profile.ops[0] + profile.ops[1])
    (.panic s!"{profile.name}: no allocation weight")
  Act.require (profile.sizes.toList.sum < 2 ^ 32) overflow
  Act.require (0 < profile.sizes.toList.sum) (.panic s!"{profile.name}: no size weight")
  Act.require (profile.aligns.toList.sum < 2 ^ 32) overflow
  Act.require (0 < profile.aligns.toList.sum) (.panic s!"{profile.name}: no alignment weight")
  Act.require (0 < profile.maxLiveBytes) (.panic s!"{profile.name}: zero live-byte cap")

variable [RawAlloc A] [Entropy E]

/-- The body of `run_with`, on a new model. -/
def drive (ops : Nat) (profile : Profile) : Drive A E Stats := do
  profile.validate
  Act.loop (fun i => do
    match ← Model.turn i with
    | false => pure false
    | true =>
      onModel (Model.sweep i)
      pure true) ops 0
  onModel Model.drain
  let s ← Act.get
  pure s.model.stats

/-- Drive `alloc` with `ops` operations drawn from `entropy` in the shape of `profile`, then free
    everything. Stops early, without failure, when the entropy source runs dry. -/
def runWith (alloc : A) (entropy : E) (ops : Nat) (profile : Profile) :
    Except Stop Stats × Session A E :=
  (drive ops profile).run { model := Model.new alloc profile, entropy := entropy }

end Wasmalloc.Testing
