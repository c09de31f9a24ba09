import Wasmalloc.Lib.Allocator
import Wasmalloc.Safety
import Wasmalloc.WasmMemory

/- The global allocator of a wasm module: the model of `global.rs`.

   `WasmAlloc` is the heap over linear memory. A program calls it through the four methods
   of `GlobalAlloc`, loads and stores the bytes of the blocks it holds, and shares linear
   memory with code that grows and writes memory of its own (`Calls`).

   Whatever such a program sees, the abstract allocator of `Lib.Allocator` could have shown
   (`global_alloc_refines`): the null pointer is returned for a refusal and for nothing
   else, a block that is handed out is fresh, and every load of a block returns what the
   program last stored there (`global_alloc_memory`). -/
namespace Wasmalloc
open ByteMem Refine

variable [Build] {target : Target}

/-- A pointer as `GlobalAlloc` returns it. -/
def toRaw : Option Nat → Nat
  | some p => p
  | none => 0

structure WasmAlloc (target : Target) where
  heap : Heap (WasmMemory target)

namespace WasmAlloc

/-- An allocator that was not used yet, over the memory there is. -/
def new (mem : WasmMemory target) (bytes : Bytes) : WasmAlloc target :=
  { heap := Heap.new mem bytes GrowPolicy.default }

variable (w : WasmAlloc target)

def alloc (layout : Layout) : Nat × WasmAlloc target :=
  let r := w.heap.alloc layout
  (toRaw r.1, { heap := r.2 })

def allocZeroed (layout : Layout) : Nat × WasmAlloc target :=
  let r := w.heap.allocZeroed layout
  (toRaw r.1, { heap := r.2 })

def dealloc (ptr : Nat) (layout : Layout) : WasmAlloc target :=
  { heap := w.heap.dealloc ptr layout }

def realloc (ptr : Nat) (layout : Layout) (newSize : Nat)
    (fits : newSize + layout.align ≤ usizeSize / 2) : Nat × WasmAlloc target :=
  let r := w.heap.realloc ptr layout newSize fits
  (toRaw r.1, { heap := r.2 })

end WasmAlloc

/-! ## A program that uses it -/

def Layout.shape (layout : Layout) : Allocator.Shape := ⟨layout.size, layout.align⟩

def Block.held (blk : Block) : Allocator.Held := ⟨blk.addr, blk.layout.shape⟩

/-- An allocator and the blocks the program holds. -/
structure Process (target : Target) where
  global : WasmAlloc target
  live : List Block

/-- The blocks after a request whose result was `raw`. -/
def answered (live rest : List Block) (layout : Layout) (raw : Nat) : List Block :=
  if raw = 0 then live else ⟨raw, layout⟩ :: rest

/-- The steps of a program that keeps the contract of `GlobalAlloc`, and of the code it
    shares memory with. -/
inductive Calls : Process target → Allocator.Seen → Process target → Prop where
  | alloc {p : Process target} (layout : Layout) : 1 ≤ layout.size →
    Calls p (.alloc layout.shape false (p.global.alloc layout).1)
      ⟨(p.global.alloc layout).2, answered p.live p.live layout (p.global.alloc layout).1⟩
  | allocZeroed {p : Process target} (layout : Layout) : 1 ≤ layout.size →
    Calls p (.alloc layout.shape true (p.global.allocZeroed layout).1)
      ⟨(p.global.allocZeroed layout).2, answered p.live p.live layout (p.global.allocZeroed layout).1⟩
  | dealloc {p : Process target} (blk : Block) : blk ∈ p.live →
    Calls p (.dealloc blk.held) ⟨p.global.dealloc blk.addr blk.layout, p.live.erase blk⟩
  | realloc {p : Process target} (blk : Block) (newSize : Nat)
      (fits : newSize + blk.layout.align ≤ usizeSize / 2) : blk ∈ p.live → 1 ≤ newSize →
    Calls p (.realloc blk.held newSize (p.global.realloc blk.addr blk.layout newSize fits).1)
      ⟨(p.global.realloc blk.addr blk.layout newSize fits).2,
        answered p.live (p.live.erase blk) (blk.layout.withSize newSize fits)
          (p.global.realloc blk.addr blk.layout newSize fits).1⟩
  | load {p : Process target} {x : Nat} : LiveByte p.live x →
    Calls p (.load x (p.global.heap.bytes x)) p
  | store {p : Process target} {x : Nat} (v : UInt8) : LiveByte p.live x →
    Calls p (.store x v)
      ⟨⟨{ p.global.heap with bytes := Function.update p.global.heap.bytes x v }⟩, p.live⟩
  | other {p : Process target} (mem : WasmMemory target) (bytes : Bytes) :
    sizeSlices p.global.heap.mem ≤ sizeSlices mem →
    (∀ x, bytes x = p.global.heap.bytes x ∨ (¬ p.global.heap.slices.Recorded (x / sliceSize) ∧
      ¬ (emptyPage ≤ x ∧ x < emptyPage + Page.size))) →
    Calls p .other ⟨⟨{ p.global.heap with mem := mem, bytes := bytes }⟩, p.live⟩

/-- A module at its start: the static `EMPTY_PAGE` is zero. -/
def process (target : Target) : Machine (Process target) Allocator.Seen where
  init p := ∃ mem bytes, (∀ x, emptyPage ≤ x → x < emptyPage + Page.size → bytes x = 0) ∧
    p = ⟨WasmAlloc.new mem bytes, []⟩
  step := Calls

/-! ## What a program sees -/

/-- The blocks and the bytes, as the abstract allocator knows them. -/
def view (live : List Block) (bytes : Bytes) : Allocator.State :=
  { live := {b | ∃ blk ∈ live, blk.held = b}, byte := bytes }

section View
variable {M : Type} [Memory M] {live : List Block} {bytes bytes' : Bytes} {blk : Block} {g g' : Ghost}
  {h h' : Heap M} {layout : Layout} {a : Nat}

omit [Memory M] in
theorem owned_view {x : Nat} : x ∈ (view live bytes).owned ↔ LiveByte live x := by
  constructor
  · rintro ⟨b, ⟨blk, hm, rfl⟩, hx⟩
    exact ⟨blk, hm, hx⟩
  · rintro ⟨blk, hm, hx⟩
    exact ⟨blk.held, ⟨blk, hm, rfl⟩, hx⟩

omit [Memory M] in
theorem view_cons : (view (blk :: live) bytes').live = insert blk.held (view live bytes).live := by
  ext b
  constructor
  · rintro ⟨blk', hm, rfl⟩
    rcases List.mem_cons.mp hm with rfl | hm
    · exact Or.inl rfl
    · exact Or.inr ⟨blk', hm, rfl⟩
  · rintro (rfl | ⟨blk', hm, rfl⟩)
    · exact ⟨blk, List.mem_cons_self, rfl⟩
    · exact ⟨blk', List.mem_cons_of_mem _ hm, rfl⟩

omit [Memory M] in
theorem view_erase (hnd : (live.map Block.addr).Nodup) (hm : blk ∈ live) :
    (view (live.erase blk) bytes').live = ((view live bytes).without blk.held).live := by
  have hinj : ∀ blk' ∈ live, blk'.held = blk.held → blk' = blk := fun blk' hm' e =>
    List.inj_on_of_nodup_map hnd hm' hm (congrArg Allocator.Held.addr e)
  ext b
  constructor
  · rintro ⟨blk', hm', rfl⟩
    obtain ⟨hne, hm'⟩ := (hnd.of_map _).mem_erase_iff.mp hm'
    exact ⟨⟨blk', hm', rfl⟩, fun e => hne (hinj blk' hm' e)⟩
  · rintro ⟨⟨blk', hm', rfl⟩, hne⟩
    exact ⟨blk', (hnd.of_map _).mem_erase_iff.mpr ⟨fun e => hne (e ▸ rfl), hm'⟩, rfl⟩

omit [Build] [Memory M] in
theorem apart_disjoint {p n q k : Nat} (h : Apart p n q k) :
    ∀ x ∈ Set.Ico p (p + n), x ∉ Set.Ico q (q + k) := by
  rintro x ⟨hlo, hhi⟩ ⟨hlo', hhi'⟩
  unfold Apart at h
  omega

theorem same_of (hp : Preserves live h h') : Allocator.Same (view live h.bytes) (view live h'.bytes) where
  live := rfl
  byte := fun x hx => hp.untouched x (owned_view.mp hx)

variable [Memory.Contract M]

/-- **A block that was handed out** fits beside the others. -/
theorem Inv.fits (hi : Inv g h (⟨a, layout⟩ :: live)) :
    Allocator.Fits usizeSize (view live bytes).live ⟨a, layout.shape⟩ := by
  have hex : Exclusive ⟨h, ⟨a, layout⟩ :: live⟩ ⟨a, layout⟩ := Inv.exclusive hi List.mem_cons_self
  have hsize := (hi.core.blocks.block _ List.mem_cons_self).size_pos
  simp only at hsize
  refine { nonnull := hex.nonnull, aligned := hex.aligned, inside := ?_, apart := ?_ }
  · -- The last byte lies in memory.
    have hrec := hex.owned (a + layout.size - 1) (by simp only; omega) (by simp only; omega)
    have hlt := hi.core.slices.lt _ ((hi.core.slices.recorded _).mp hrec)
    have hle := Memory.Contract.size_le h.mem
    show a + layout.size ≤ usizeSize
    unfold sliceSize at *
    omega
  · rintro b ⟨blk, hm, rfl⟩
    refine apart_disjoint (hex.other blk (List.mem_cons_of_mem _ hm) ?_)
    rintro rfl
    exact (List.nodup_cons.mp hi.core.blocks.nodup).1 (List.mem_map_of_mem hm)

omit [Memory.Contract M] in
theorem joins_of (hfits : Allocator.Fits usizeSize (view live h.bytes).live ⟨a, layout.shape⟩)
    (hp : Preserves live h h') :
    Allocator.Joins usizeSize (view live h.bytes) (view (⟨a, layout⟩ :: live) h'.bytes) ⟨a, layout.shape⟩ where
  fits := hfits
  live := view_cons
  byte := fun x hx => hp.untouched x (owned_view.mp hx)

/-- **An answer to a request** is a step of the abstract allocator. -/
theorem Answered.step {zero : Bool} {r : Option Nat × Heap M} (hi : Inv g h live)
    (hr : Answered live g h layout zero r) :
    Allocator.Step usizeSize (view live h.bytes) (.alloc layout.shape zero (toRaw r.1))
      (view (answered live live layout (toRaw r.1)) r.2.bytes) := by
  rcases hr with ⟨a, h1, g1, rfl, hh⟩ | ⟨h1, g1, rfl, hno⟩
  · have hfits : Allocator.Fits usizeSize (view live h.bytes).live ⟨a, layout.shape⟩ := hh.inv.fits
    have hlive : answered live live layout (toRaw (some a)) = ⟨a, layout⟩ :: live := if_neg hfits.nonnull
    rw [hlive]
    exact .alloc _ _ _ (joins_of hfits hh.preserves) fun hz x hx => hh.zeroed hz x hx.1 hx.2
  · have hlive : answered live live layout (toRaw none) = live := if_pos rfl
    rw [hlive]
    exact .allocRefused _ _ (same_of (hno.evolves.preserves hi.core.slices hno.inv.core.slices.recorded))

omit [Memory M] [Memory.Contract M] in
theorem owned_without (hnd : (live.map Block.addr).Nodup) (hm : blk ∈ live) {x : Nat} :
    x ∈ ((view live bytes).without blk.held).owned ↔ LiveByte (live.erase blk) x := by
  have hview : x ∈ (view (live.erase blk) bytes).owned ↔ LiveByte (live.erase blk) x := owned_view
  rw [← hview]
  unfold Allocator.State.owned
  rw [view_erase hnd hm]

omit [Memory.Contract M] in
/-- **A free** is a step of the abstract allocator. -/
theorem Inv.dealloc_step (hi : Inv g h live) (hm : blk ∈ live) :
    Allocator.Step usizeSize (view live h.bytes) (.dealloc blk.held)
      (view (live.erase blk) (h.dealloc blk.addr blk.layout).bytes) := by
  have hnd := hi.core.blocks.nodup
  obtain ⟨g1, hi1, hp⟩ := dealloc_spec (hi.perm (List.perm_cons_erase hm))
  refine .dealloc ⟨blk, hm, rfl⟩ { live := view_erase hnd hm, byte := fun x hx => ?_ }
  exact hp.untouched x ((owned_without hnd hm).mp hx)

/-- **A resize** is a step of the abstract allocator. -/
theorem Inv.realloc_step (hi : Inv g h live) (hm : blk ∈ live) {newSize : Nat} (hs : 1 ≤ newSize)
    (fits : newSize + blk.layout.align ≤ usizeSize / 2) :
    Allocator.Step usizeSize (view live h.bytes)
      (.realloc blk.held newSize (toRaw (h.realloc blk.addr blk.layout newSize fits).1))
      (view (answered live (live.erase blk) (blk.layout.withSize newSize fits)
          (toRaw (h.realloc blk.addr blk.layout newSize fits).1))
        (h.realloc blk.addr blk.layout newSize fits).2.bytes) := by
  have hnd := hi.core.blocks.nodup
  have hi0 := hi.perm (List.perm_cons_erase hm)
  rcases realloc_resized hi0 hs fits with ⟨q, h1, g1, hr, hres⟩ | ⟨h1, g1, hr, hi1, he1⟩
  · have hfits : Allocator.Fits usizeSize (view (live.erase blk) h.bytes).live
        ⟨q, (blk.layout.withSize newSize fits).shape⟩ := hres.inv.fits
    have hjoins := joins_of hfits hres.preserves
    have hlive : answered live (live.erase blk) (blk.layout.withSize newSize fits) (toRaw (some q)) =
        ⟨q, blk.layout.withSize newSize fits⟩ :: live.erase blk := if_neg hfits.nonnull
    have hset : (view (live.erase blk) h.bytes).live = ((view live h.bytes).without blk.held).live :=
      view_erase hnd hm
    rw [hr, hlive]
    refine .realloc newSize q ⟨blk, hm, rfl⟩ ?_ fun i hlt => ?_
    · refine { fits := hset ▸ hjoins.fits, live := hset ▸ hjoins.live, byte := fun x hx => ?_ }
      exact hjoins.byte (owned_view.mpr ((owned_without hnd hm).mp hx))
    · exact hres.contents i (lt_of_lt_of_le hlt (Nat.min_le_left _ _))
        (lt_of_lt_of_le hlt (Nat.min_le_right _ _))
  · have hlive : answered live (live.erase blk) (blk.layout.withSize newSize fits) (toRaw none) = live :=
      if_pos rfl
    rw [hr, hlive]
    have hp := he1.preserves hi0.core.slices hi1.core.slices.recorded
    have hperm := List.perm_cons_erase hm
    refine .reallocRefused newSize ⟨blk, hm, rfl⟩ { live := rfl, byte := fun x hx => hp.untouched x ?_ }
    obtain ⟨b, hb, hin⟩ := owned_view.mp hx
    exact ⟨b, hperm.mem_iff.mp hb, hin⟩

end View

/-! ## Refinement -/

section Refines
variable {p p' : Process target} {l : Allocator.Seen}

def Process.config (p : Process target) : Config (WasmMemory target) := ⟨p.global.heap, p.live⟩

def Process.view (p : Process target) : Allocator.State := Wasmalloc.view p.live p.global.heap.bytes

/-- The map of 1024 words describes all of linear memory. -/
theorem coversInitial (hw : words = 1024) (h : Heap (WasmMemory target)) : CoversInitial h := by
  have hle := h.mem.pages_le
  have hcap : SliceMap.capacity = maxPages := by
    unfold SliceMap.capacity maxPages
    rw [hw]
    rfl
  show h.mem.pages ≤ _ + SliceMap.capacity
  omega

theorem answer_eq (c : Config (WasmMemory target)) (layout : Layout) (rest : List Block)
    {r : Option Nat × Heap (WasmMemory target)} (hne : ∀ a, r.1 = some a → a ≠ 0) :
    c.answer layout rest r = ⟨r.2, answered c.live rest layout (toRaw r.1)⟩ := by
  rcases r with ⟨_ | a, h⟩
  · rfl
  · have hlive : answered c.live rest layout (toRaw (some a)) = ⟨a, layout⟩ :: rest := if_neg (hne a rfl)
    rw [hlive]
    rfl

theorem nonnull_of {g : Ghost} {h : Heap (WasmMemory target)} {live : List Block} {a : Nat} {layout : Layout}
    (hi : Inv g h (⟨a, layout⟩ :: live)) : a ≠ 0 := by
  have hfits : Allocator.Fits usizeSize (view live h.bytes).live ⟨a, layout.shape⟩ := hi.fits
  exact hfits.nonnull

theorem Answered.nonnull {g : Ghost} {h : Heap (WasmMemory target)} {live : List Block} {layout : Layout}
    {zero : Bool} {r : Option Nat × Heap (WasmMemory target)} (hr : Answered live g h layout zero r) :
    ∀ a, r.1 = some a → a ≠ 0 := by
  rintro a ha
  rcases hr with ⟨q, h1, g1, rfl, hh⟩ | ⟨h1, g1, rfl, -⟩
  · obtain rfl := Option.some.inj ha
    exact nonnull_of hh.inv
  · cases ha

theorem Resized.nonnull {g : Ghost} {h : Heap (WasmMemory target)} {live : List Block} {blk : Block}
    {layout : Layout} {r : Option Nat × Heap (WasmMemory target)} (hr : Resized live g h blk layout r) :
    ∀ a, r.1 = some a → a ≠ 0 := by
  rintro a ha
  rcases hr with ⟨q, h1, g1, rfl, hh⟩ | ⟨h1, g1, rfl, -⟩
  · obtain rfl := Option.some.inj ha
    exact nonnull_of hh.inv
  · cases ha

/-- **One call** is an allowed event of the heap's program. -/
theorem Calls.event (hw : words = 1024) (hc : Reachable p.config) (h : Calls p l p') :
    p'.config = p.config ∨ ∃ e, p.config.Allowed e ∧ p'.config = p.config.step e := by
  obtain ⟨g, hi⟩ := reachable_ok hc
  have hcov : p.config.heap.initialized = false → CoversInitial p.config.heap := fun _ => coversInitial hw _
  cases h with
  | alloc layout hs =>
    exact Or.inr ⟨.alloc layout, ⟨hs, hcov⟩,
      (answer_eq p.config layout p.live (alloc_answered hi hcov hs).nonnull).symm⟩
  | allocZeroed layout hs =>
    exact Or.inr ⟨.allocZeroed layout, ⟨hs, hcov⟩,
      (answer_eq p.config layout p.live (allocZeroed_answered hi hcov hs).nonnull).symm⟩
  | dealloc blk hm => exact Or.inr ⟨.dealloc blk, hm, rfl⟩
  | realloc blk newSize fits hm hs =>
    refine Or.inr ⟨.realloc blk newSize fits, ⟨hm, hs⟩, (answer_eq p.config
      (blk.layout.withSize newSize fits) (p.live.erase blk) fun a ha => ?_).symm⟩
    exact (realloc_resized (hi.perm (List.perm_cons_erase hm)) hs fits).nonnull a ha
  | load _ => exact Or.inl rfl
  | @store x v hx =>
    refine Or.inr ⟨.write _, fun y => ?_, rfl⟩
    by_cases hy : y = x
    · exact Or.inr (hy ▸ hx)
    · exact Or.inl (Function.update_of_ne hy _ _)
  | other mem bytes hsize hbytes => exact Or.inr ⟨.outside mem bytes, ⟨hsize, hbytes⟩, rfl⟩

theorem Calls.reachable (hw : words = 1024) (hc : Reachable p.config) (h : Calls p l p') :
    Reachable p'.config := by
  rcases h.event hw hc with heq | ⟨e, ha, heq⟩
  · rw [heq]
    exact hc
  · rw [heq]
    exact reachable_step hc ha

/-- **One call** is a step of the abstract allocator. -/
theorem Calls.step (hw : words = 1024) (hc : Reachable p.config) (h : Calls p l p') :
    Allocator.Step usizeSize p.view l p'.view := by
  obtain ⟨g, hi⟩ := reachable_ok hc
  have hcov : p.config.heap.initialized = false → CoversInitial p.config.heap := fun _ => coversInitial hw _
  cases h with
  | alloc layout hs => exact (alloc_answered hi hcov hs).step hi
  | allocZeroed layout hs => exact (allocZeroed_answered hi hcov hs).step hi
  | dealloc blk hm => exact Inv.dealloc_step hi hm
  | realloc blk newSize fits hm hs => exact Inv.realloc_step hi hm hs fits
  | load hx => exact .load (owned_view.mpr hx)
  | store v hx =>
    refine .store (owned_view.mpr hx) rfl (Function.update_self _ _ _) fun y hy => ?_
    exact Function.update_of_ne hy.2 _ _
  | other mem bytes hsize hbytes =>
    exact .other (same_of (hi.outside hsize hbytes).2)

theorem process_simulates (hw : words = 1024) (target : Target) :
    Simulation (process target) (Allocator.contract usizeSize) fun p s => Reachable p.config ∧ s = p.view where
  init := by
    rintro p ⟨mem, bytes, hzero, rfl⟩
    refine ⟨view [] bytes, ?_, .init ⟨mem, bytes, GrowPolicy.default, hzero, rfl⟩, rfl⟩
    show (view [] bytes).live = ∅
    ext b
    constructor
    · rintro ⟨blk, hm, -⟩
      exact absurd hm List.not_mem_nil
    · exact fun hb => absurd hb (Set.notMem_empty b)
  step := by
    rintro p s l p' ⟨hc, rfl⟩ h
    exact ⟨p'.view, Calls.step hw hc h, Calls.reachable hw hc h, rfl⟩

/-- **The global allocator keeps the contract of `GlobalAlloc`**: all that a program sees of
    it, on either target, whatever the engine grants and whatever shares linear memory with
    it, the abstract allocator could have shown. -/
theorem global_alloc_refines (hw : words = 1024) (target : Target) :
    (process target).traces ⊆ (Allocator.contract usizeSize).traces :=
  (process_simulates hw target).traces

/-- **Blocks are memory**: a program loads from a block what it last stored there, as long
    as it neither frees nor resizes the block. -/
theorem global_alloc_memory (hw : words = 1024) (target : Target) {x : Nat} {v w : UInt8}
    {before between after : List Allocator.Seen}
    (h : before ++ .store x v :: (between ++ .load x w :: after) ∈ (process target).traces)
    (hspares : ∀ l ∈ between, l.Spares x) : w = v :=
  Allocator.loads_last_store ((process_simulates hw target).traces h) hspares

end Refines

end Wasmalloc

namespace Wasmalloc.Sample
open Refine

/-- A module at its start, with its first block, with a byte in it, and with a second block. -/
def atStart : Process .unknown := ⟨.new (linearMemory .unknown) fun x => if x < 2048 then 0 else 255, []⟩

def served : Process .unknown :=
  ⟨(atStart.global.alloc small).2, answered [] [] small (atStart.global.alloc small).1⟩

def stored : Process .unknown :=
  ⟨⟨{ served.global.heap with bytes := Function.update served.global.heap.bytes 131136 7 }⟩, served.live⟩

def servedTwice : Process .unknown :=
  ⟨(stored.global.alloc small).2, answered stored.live stored.live small (stored.global.alloc small).1⟩

theorem linear_init : (process .unknown).init atStart := by
  refine ⟨linearMemory .unknown, _, fun x hlo hhi => if_pos ?_, rfl⟩
  have hsize : emptyPage + Page.size = 1060 := by decide
  omega

theorem served_raw : (atStart.global.alloc small).1 = 131136 := by decide +kernel

theorem served_byte : LiveByte served.live 131136 := by
  have hlive : served.live = [⟨131136, small⟩] := by decide +kernel
  rw [hlive]
  exact ⟨_, List.mem_singleton_self _, by decide, by decide⟩

theorem served_twice_byte : LiveByte servedTwice.live 131136 := by
  obtain ⟨blk, hm, hin⟩ := served_byte
  refine ⟨blk, ?_, hin⟩
  show blk ∈ answered served.live served.live small _
  unfold answered
  split
  · exact hm
  · exact List.mem_cons_of_mem _ hm

/-- The program stores a byte, requests another block, and loads the byte. -/
def seen : List Allocator.Seen :=
  [.alloc small.shape false (atStart.global.alloc small).1, .store 131136 7,
    .alloc small.shape false (stored.global.alloc small).1, .load 131136 (servedTwice.global.heap.bytes 131136)]

theorem seen_trace : seen ∈ (process .unknown).traces := by
  refine ⟨atStart, servedTwice, linear_init, ?_⟩
  exact .cons (.alloc small (by decide)) (.cons (.store 7 served_byte) (.cons (.alloc small (by decide))
    (.single (.load served_twice_byte))))

/-- What the program sees is a trace of the contract, in which its first request is served. -/
theorem seen_refines : seen ∈ (Allocator.contract usizeSize).traces ∧
    (atStart.global.alloc small).1 = 131136 :=
  ⟨global_alloc_refines rfl .unknown seen_trace, served_raw⟩

/-- The byte is the one it stored. -/
theorem seen_memory : servedTwice.global.heap.bytes 131136 = 7 := by
  have h : [.alloc small.shape false (atStart.global.alloc small).1] ++ .store 131136 7 ::
      ([.alloc small.shape false (stored.global.alloc small).1] ++
        .load 131136 (servedTwice.global.heap.bytes 131136) :: []) ∈ (process .unknown).traces := seen_trace
  refine global_alloc_memory rfl .unknown h fun l hl => ?_
  rw [List.mem_singleton.mp hl]
  trivial

end Wasmalloc.Sample
