import Wasmalloc.Backend

/- Linear memory number 0 of a wasm module: the backend the crate ships.

   `memory.size` and `memory.grow` are the instructions of the engine, which may refuse
   any growth; `engine` is what it will answer to the requests to come. The static data
   of the module, `EMPTY_PAGE` in it, ends below the linker's `__heap_base`, which lies in
   the initial memory.

   | source (`backend.rs`)  | here                |
   |------------------------|---------------------|
   | `memory_size(0)`       | `memorySize`        |
   | `memory_grow(0, n)`    | `memoryGrow`        |
   | `wasm_heap_base`       | `wasmHeapBase`      |
   | `impl Memory for WasmMemory` | the instances | -/
namespace Wasmalloc
open ByteMem

/-- The targets on which the heap base is found in different ways. -/
inductive Target where
  | unknown
  | wasi
  deriving DecidableEq

/-- The most pages a 32-bit memory can have. -/
def maxPages : Nat := 2 ^ 16

variable [Build]

def saturatingMul (a b : Nat) : Nat := min (a * b) usizeMax

structure WasmMemory (target : Target) where
  pages : Nat
  /-- the linker's `__heap_base` -/
  heapBaseSymbol : Nat
  /-- whether the engine grants the requests, from the next one on -/
  engine : Nat → Bool
  pages_le : pages ≤ maxPages
  symbol_lt : heapBaseSymbol < usizeSize
  symbol_le : heapBaseSymbol ≤ pages * sliceSize
  static_below : emptyPage + Page.size ≤ heapBaseSymbol

namespace WasmMemory
variable {target : Target} (c : WasmMemory target)

def memorySize : Nat := c.pages

/-- The previous size, or `usize::MAX` on failure. -/
def memoryGrow (slices : Nat) : Nat × WasmMemory target :=
  let asked := { c with engine := fun n => c.engine (n + 1) }
  if h : c.engine 0 = true ∧ c.pages + slices ≤ maxPages then
    (c.pages,
      { asked with
        pages := c.pages + slices
        pages_le := h.2
        symbol_le := le_trans c.symbol_le (Nat.mul_le_mul_right _ (Nat.le_add_right _ _)) })
  else (usizeMax, asked)

def wasmHeapBase : Nat :=
  match target with
  | .unknown => c.heapBaseSymbol
  | .wasi => saturatingMul c.memorySize sliceSize

def grow (slices : Nat) : Option Nat × WasmMemory target :=
  let (prev, c) := c.memoryGrow slices
  (if prev = usizeMax then none else some prev, c)

instance : Memory (WasmMemory target) where
  heapBase := wasmHeapBase
  sizeSlices := memorySize
  grow := grow

theorem pages_lt_max : maxPages < usizeMax := by
  have := two_pow_32_le
  unfold maxPages usizeMax
  omega

theorem grow_cases (slices : Nat) :
    ((c.grow slices).1 = some c.pages ∧ (c.grow slices).2.pages = c.pages + slices) ∨
    ((c.grow slices).1 = none ∧ (c.grow slices).2.pages = c.pages) := by
  have hmax := pages_lt_max
  have hle := c.pages_le
  unfold grow memoryGrow
  by_cases h : c.engine 0 = true ∧ c.pages + slices ≤ maxPages
  · rw [dif_pos h]
    exact Or.inl ⟨if_neg (by omega), rfl⟩
  · rw [dif_neg h]
    exact Or.inr ⟨if_pos rfl, rfl⟩

theorem end_le : c.pages * sliceSize ≤ usizeSize := by
  have := two_pow_32_le
  have hle := c.pages_le
  unfold maxPages at hle
  unfold sliceSize
  omega

theorem page_pos : 0 < Page.size := by
  unfold Page.size
  omega

theorem heapBase_bounds : emptyPage + Page.size ≤ c.wasmHeapBase ∧ c.wasmHeapBase < usizeSize ∧
    c.wasmHeapBase ≤ c.pages * sliceSize := by
  have hstatic := c.static_below
  have hlt := c.symbol_lt
  have hle := c.symbol_le
  cases target with
  | unknown => exact ⟨hstatic, hlt, hle⟩
  | wasi =>
    have hbase : c.wasmHeapBase = min (c.pages * sliceSize) usizeMax := rfl
    rw [hbase]
    unfold usizeMax
    omega

/-- **The shipped backend meets the contract**, on both targets. -/
instance : Memory.Contract (WasmMemory target) where
  heapBase_pos := fun c => lt_of_lt_of_le (Nat.add_pos_right _ page_pos) c.heapBase_bounds.1
  heapBase_lt := fun c => c.heapBase_bounds.2.1
  heapBase_le := fun c => c.heapBase_bounds.2.2
  size_le := end_le
  size_mono := by
    intro c n
    show c.pages ≤ (c.grow n).2.pages
    rcases c.grow_cases n with ⟨-, h⟩ | ⟨-, h⟩ <;> omega
  grow_fresh := by
    intro c n r hr
    have hr : (c.grow n).1 = some r := hr
    show c.pages ≤ r ∧ r + n ≤ (c.grow n).2.pages
    rcases c.grow_cases n with ⟨hgot, h⟩ | ⟨hgot, -⟩
    · rw [hgot] at hr
      obtain rfl := Option.some.inj hr
      omega
    · rw [hgot] at hr
      cases hr
  initial_apart := fun c => Or.inr c.heapBase_bounds.1
  grow_apart := by
    intro c n r hr
    have hr : (c.grow n).1 = some r := hr
    rcases c.grow_cases n with ⟨hgot, -⟩ | ⟨hgot, -⟩
    · rw [hgot] at hr
      obtain rfl := Option.some.inj hr
      exact Or.inr (le_trans c.static_below c.symbol_le)
    · rw [hgot] at hr
      cases hr

theorem initialFreeRange_wasi (c : WasmMemory .wasi) :
    (initialFreeRange (heapBase c) (sizeSlices c)).2 = 0 := by
  have := two_pow_32_le
  have hle := c.pages_le
  show c.pages - divCeil (min (c.pages * sliceSize) usizeMax) sliceSize = 0
  unfold maxPages at hle
  unfold divCeil usizeMax sliceSize
  omega

end WasmMemory

end Wasmalloc

namespace Wasmalloc.Sample

/-- Four pages of linear memory, and an engine that grants everything. -/
def linearMemory (target : Target) : WasmMemory target where
  pages := 4
  heapBaseSymbol := 90000
  engine := fun _ => true
  pages_le := by decide
  symbol_lt := by decide
  symbol_le := by decide
  static_below := by decide

end Wasmalloc.Sample
