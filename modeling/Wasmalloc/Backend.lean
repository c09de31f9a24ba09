import Wasmalloc.Page
import Wasmalloc.Slices

/- How the allocator sees linear memory: the model of `backend.rs`.

   A backend is a type of memory states with the three methods of the `Memory` trait
   that return something; `ptr` is the identity on addresses. What another party does
   to the same memory inside a call of `grow` is part of the new state, so a refusal
   and a region away from the old end are both results of `grow`.

   `Memory.Contract` is the trait's safety contract. The last two fields say that the
   static `EMPTY_PAGE` is not memory handed to the allocator. `SimMemory` is the
   source's simulated memory, the instance used for examples. -/
namespace Wasmalloc
open ByteMem

/-- A linear memory that only grows, by its current state. -/
class Memory (M : Type) where
  heapBase : M → Nat
  sizeSlices : M → Nat
  /-- Grow by some slices: the index of the first new slice, or `none` on failure. -/
  grow : M → Nat → Option Nat × M

export Memory (heapBase sizeSlices)

variable [Build]

/-- What an implementor of the trait guarantees. -/
class Memory.Contract (M : Type) [Memory M] : Prop where
  heapBase_pos : ∀ c : M, 0 < heapBase c
  heapBase_lt : ∀ c : M, heapBase c < usizeSize
  heapBase_le : ∀ c : M, heapBase c ≤ sizeSlices c * sliceSize
  size_le : ∀ c : M, sizeSlices c * sliceSize ≤ usizeSize
  size_mono : ∀ (c : M) n, sizeSlices c ≤ sizeSlices (Memory.grow c n).2
  grow_fresh : ∀ (c : M) n r, (Memory.grow c n).1 = some r →
    sizeSlices c ≤ r ∧ r + n ≤ sizeSlices (Memory.grow c n).2
  initial_apart : ∀ c : M,
    Apart (heapBase c) (sizeSlices c * sliceSize - heapBase c) emptyPage Page.size
  grow_apart : ∀ (c : M) n r, (Memory.grow c n).1 = some r →
    Apart (r * sliceSize) (n * sliceSize) emptyPage Page.size

omit [Build] in
/-- A backend that grows contiguously: a region it grants starts at the end of memory, and a
    request it refuses leaves that end where it was. -/
structure Memory.Contiguous (M : Type) [Memory M] : Prop where
  granted : ∀ (c : M) n r, (Memory.grow c n).1 = some r → r = sizeSlices c
  refused : ∀ (c : M) n, (Memory.grow c n).1 = none → sizeSlices (Memory.grow c n).2 = sizeSlices c

omit [Build] in
/-- The backend grants `needed` slices: as part of `want`, or alone once that is refused. -/
def Memory.Grants {M : Type} [Memory M] (c : M) (want needed : Nat) : Prop :=
  (Memory.grow c want).1.isSome = true ∨
    (needed < want ∧ (Memory.grow (Memory.grow c want).2 needed).1.isSome = true)

/-- The slices between the heap base and the initial end of memory. -/
def initialFreeRange (heapBase sizeSlices : Nat) : Nat × Nat :=
  let first := divCeil heapBase sliceSize
  (first, sizeSlices - first)

/-! ## A simulated memory -/

/-- A simulated linear memory over the slices `[firstSlice, firstSlice + capacitySlices)`. -/
structure SimMemory where
  firstSlice : Nat
  capacitySlices : Nat
  endSlice : Nat
  heapBase : Nat
  heapBase_pos : 0 < heapBase
  heapBase_le : heapBase ≤ endSlice * sliceSize
  end_le : endSlice ≤ firstSlice + capacitySlices
  region_le : (firstSlice + capacitySlices) * sliceSize < usizeSize
  empty_below : emptyPage + Page.size ≤ heapBase

namespace SimMemory

def grow (c : SimMemory) (slices : Nat) : Option Nat × SimMemory :=
  if h : c.endSlice + slices ≤ c.firstSlice + c.capacitySlices then
    (some c.endSlice,
      { c with
        endSlice := c.endSlice + slices
        heapBase_le := le_trans c.heapBase_le (Nat.mul_le_mul_right _ (Nat.le_add_right _ _))
        end_le := h })
  else (none, c)

instance : Memory SimMemory where
  heapBase := heapBase
  sizeSlices := endSlice
  grow := grow

theorem end_lt (c : SimMemory) : c.endSlice * sliceSize < usizeSize :=
  lt_of_le_of_lt (Nat.mul_le_mul_right _ c.end_le) c.region_le

instance : Memory.Contract SimMemory where
  heapBase_pos := heapBase_pos
  heapBase_lt := fun c => lt_of_le_of_lt c.heapBase_le c.end_lt
  heapBase_le := heapBase_le
  size_le := fun c => Nat.le_of_lt c.end_lt
  size_mono := by
    intro c n
    show c.endSlice ≤ (c.grow n).2.endSlice
    unfold grow
    split
    · exact Nat.le_add_right _ _
    · exact Nat.le_refl _
  grow_fresh := by
    intro c n r h
    have h : (c.grow n).1 = some r := h
    show c.endSlice ≤ r ∧ r + n ≤ (c.grow n).2.endSlice
    unfold grow at h ⊢
    split at h
    · rename_i hfit
      rw [dif_pos hfit, ← Option.some.inj h]
      exact ⟨Nat.le_refl _, Nat.le_refl _⟩
    · cases h
  initial_apart := by
    intro c
    exact Or.inr c.empty_below
  grow_apart := by
    intro c n r h
    have h : (c.grow n).1 = some r := h
    unfold grow at h
    split at h
    · rw [← Option.some.inj h]
      exact Or.inr (le_trans c.empty_below c.heapBase_le)
    · cases h

end SimMemory

end Wasmalloc
