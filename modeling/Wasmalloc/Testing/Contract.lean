import Mathlib.Data.List.Perm.Basic
import Wasmalloc.Testing.Draws

/- The tester and an allocator that obeys its contract.

   `Obeys` is the contract of `RawAlloc`, relative to an invariant of the allocator and
   the set of blocks it has handed out. Each operation of the tester keeps the books and
   the counters; against an allocator that obeys the contract it also keeps that every
   block holds its pattern (`Held`), so no check fails. The two accounts are given at once:
   a failure may be excluded by the contract or allowed by the caller, and so may a panic. -/
namespace Wasmalloc.Testing
open ByteMem (Bytes)

variable [Build] {A E : Type}

/-! ## The contract -/

/-- The blocks the program holds, as the allocator knows them. -/
abbrev Held : Type := Set (Nat × Layout)

section Obeys
variable [RawAlloc A]

/-- No byte of a block of `held` is changed. -/
def Keeps (held : Held) (a a' : A) : Prop :=
  ∀ x ∈ held, ∀ i, i < x.2.size → RawAlloc.bytes a' (x.1 + i) = RawAlloc.bytes a (x.1 + i)

/-- An address for a new block: aligned, not wrapping, and apart from the blocks of `held`. -/
def FreshAt (held : Held) (ptr : Nat) (layout : Layout) : Prop :=
  layout.align ∣ ptr ∧ ptr + layout.size < usizeSize ∧
    ∀ x ∈ held, Disjoint (Set.Ico ptr (ptr + layout.size)) (Set.Ico x.1 (x.1 + x.2.size))

/-- A request for a block is answered. -/
def Answers (ok : A → Held → Prop) (held : Held) (a : A) (layout : Layout) (r : Option Nat × A) :
    Prop :=
  (r.1 = none ∧ ok r.2 held ∧ Keeps held a r.2) ∨
  (∃ ptr, r.1 = some ptr ∧ FreshAt held ptr layout ∧ ok r.2 (insert (ptr, layout) held) ∧
    Keeps held a r.2)

/-- **The contract.** `ok a held` says that the allocator is in order with `held` handed out. -/
structure Obeys (ok : A → Held → Prop) : Prop where
  alloc : ∀ a held layout, ok a held → 1 ≤ layout.size →
    Answers ok held a layout (RawAlloc.alloc a layout)
  allocZeroed : ∀ a held layout, ok a held → 1 ≤ layout.size →
    Answers ok held a layout (RawAlloc.allocZeroed a layout) ∧
      ∀ ptr, (RawAlloc.allocZeroed a layout).1 = some ptr → ∀ i, i < layout.size →
        RawAlloc.bytes (RawAlloc.allocZeroed a layout).2 (ptr + i) = 0
  dealloc : ∀ a held ptr layout, ok a held → (ptr, layout) ∈ held →
    ok (RawAlloc.dealloc a ptr layout) (held \ {(ptr, layout)}) ∧
      Keeps (held \ {(ptr, layout)}) a (RawAlloc.dealloc a ptr layout)
  realloc : ∀ a held ptr layout newLayout, ok a held → (ptr, layout) ∈ held →
    1 ≤ newLayout.size → newLayout.align = layout.align →
    (((RawAlloc.realloc a ptr layout newLayout.size).1 = none ∧
        ok (RawAlloc.realloc a ptr layout newLayout.size).2 held ∧
        Keeps held a (RawAlloc.realloc a ptr layout newLayout.size).2) ∨
      ∃ q, (RawAlloc.realloc a ptr layout newLayout.size).1 = some q ∧
        FreshAt (held \ {(ptr, layout)}) q newLayout ∧
        ok (RawAlloc.realloc a ptr layout newLayout.size).2
          (insert (q, newLayout) (held \ {(ptr, layout)})) ∧
        Keeps (held \ {(ptr, layout)}) a (RawAlloc.realloc a ptr layout newLayout.size).2 ∧
        ∀ i, i < min layout.size newLayout.size →
          RawAlloc.bytes (RawAlloc.realloc a ptr layout newLayout.size).2 (q + i) =
            RawAlloc.bytes a (ptr + i))
  write : ∀ a held b, ok a held →
    (∀ x, b x = RawAlloc.bytes a x ∨ ∃ y ∈ held, y.1 ≤ x ∧ x < y.1 + y.2.size) →
    ok (RawAlloc.setBytes a b) held

/-- The block holds its pattern. -/
def Holds (a : A) (block : Block) : Prop :=
  ∀ x, Covered block.layout.size block.layout.size x →
    RawAlloc.bytes a (block.addr + x) = expectedByte (some block.seed) x

def held (live : List Block) : Held := {x | ∃ block ∈ live, (block.addr, block.layout) = x}

/-- The allocator is in order with the live blocks, and these hold their patterns. -/
def Contents (ok : A → Held → Prop) (a : A) (live : List Block) : Prop :=
  ok a (held live) ∧ ∀ block ∈ live, Holds a block

end Obeys

/-! ## The blocks held -/

section Held
variable {live rest : List Block} {byAddr : SortedMap Nat Nat} {liveBytes : Nat} {block : Block}
  {x : Nat × Layout}

theorem held_perm (h : live.Perm rest) : held live = held rest :=
  Set.ext fun _ => exists_congr fun _ => and_congr_left fun _ => h.mem_iff

theorem held_cons : held (block :: rest) = insert (block.addr, block.layout) (held rest) := by
  ext x
  simp only [held, List.mem_cons, exists_eq_or_imp, Set.mem_insert_iff, Set.mem_ofPred_eq]
  exact or_congr_left eq_comm

theorem held_append : held (live ++ [block]) = insert (block.addr, block.layout) (held live) :=
  (held_perm (List.perm_append_singleton block live)).trans held_cons

theorem Books.addr_nodup (h : Books live byAddr liveBytes) : (live.map Block.addr).Nodup := by
  have hkeys : (byAddr.entries.map Prod.fst).Nodup :=
    List.pairwise_map.mpr (byAddr.sorted.imp fun hlt => hlt.ne)
  have hperm := h.intervals.map Prod.fst
  rw [List.map_map] at hperm
  exact hperm.nodup_iff.mp hkeys

theorem Books.held_drop (h : Books live byAddr liveBytes) (hp : live.Perm (block :: rest)) :
    held rest = held live \ {(block.addr, block.layout)} := by
  have hnd := (h.perm hp).addr_nodup
  rw [List.map_cons, List.nodup_cons] at hnd
  rw [held_perm hp, held_cons]
  have hout : (block.addr, block.layout) ∉ held rest := fun ⟨b, hb, he⟩ => hnd.1 (by
    rw [← (Prod.mk.inj he).1]
    exact List.mem_map_of_mem hb)
  exact (Set.insert_sdiff_self_of_notMem hout).symm

theorem Books.fits_iff (h : Books live byAddr liveBytes) {ptr : Nat} {layout : Layout} :
    Fits byAddr ptr layout ↔ FreshAt (held live) ptr layout := by
  refine and_congr_right fun _ => and_congr_right fun _ => ⟨fun hf x hx => ?_, fun hf i hi => ?_⟩
  · obtain ⟨b, hb, rfl⟩ := hx
    exact hf b.interval (h.mem_iff.mpr ⟨b, hb, rfl⟩)
  · obtain ⟨b, hb, rfl⟩ := h.mem_iff.mp hi
    exact hf (b.addr, b.layout) ⟨b, hb, rfl⟩

end Held

/-! ## Taking a block out of `live` -/

theorem swapRemoveBack_spec {live : List Block} {i : Nat} {block : Block} (h : live[i]? = some block) :
    ∃ rest, swapRemoveBack live i = (some block, rest) ∧ live.Perm (block :: rest) := by
  obtain ⟨hlt, hget⟩ := List.getElem?_eq_some_iff.mp h
  obtain ⟨init, back, rfl⟩ : ∃ init back, live = init ++ [back] :=
    ⟨_, _, (List.dropLast_append_getLast (List.ne_nil_of_length_pos (by omega))).symm⟩
  have hlast : (init ++ [back]).getLast? = some back := List.getLast?_concat
  refine ⟨((init ++ [back]).set i back).dropLast, ?_, ?_⟩
  · unfold swapRemoveBack
    rw [h, hlast]
  · rw [List.length_append, List.length_singleton] at hlt
    by_cases hi : i < init.length
    · rw [List.set_append_left _ _ hi, List.dropLast_concat]
      rw [List.getElem_append_left hi] at hget
      have h1 := List.getElem_cons_eraseIdx_perm hi
      have h2 := List.getElem_cons_eraseIdx_perm (l := init.set i back) (n := i) (by simpa using hi)
      rw [List.getElem_set_self, List.eraseIdx_set_eq] at h2
      rw [hget] at h1
      -- The block and the back change places.
      calc (init ++ [back]).Perm (back :: init) := List.perm_append_singleton _ _
        _ |>.Perm (back :: block :: init.eraseIdx i) := h1.symm.cons _
        _ |>.Perm (block :: back :: init.eraseIdx i) := List.Perm.swap _ _ _
        _ |>.Perm (block :: init.set i back) := h2.cons _
    · obtain rfl : i = init.length := by omega
      rw [List.getElem_append_right (Nat.le_refl _)] at hget
      simp only [Nat.sub_self, List.getElem_singleton] at hget
      rw [List.set_append_right _ _ (Nat.le_refl _), Nat.sub_self]
      simp only [List.set_cons_zero, List.dropLast_concat]
      rw [← hget]
      exact List.perm_append_singleton _ _

theorem popBack_spec {live : List Block} (h : live ≠ []) :
    ∃ block rest, popBack live = (some block, rest) ∧ live.Perm (block :: rest) := by
  obtain ⟨init, back, rfl⟩ : ∃ init back, live = init ++ [back] :=
    ⟨_, _, (List.dropLast_append_getLast h).symm⟩
  refine ⟨back, init, ?_, List.perm_append_singleton _ _⟩
  unfold popBack
  rw [List.dropLast_concat, List.getLast?_concat]

theorem popFront_spec {live : List Block} (h : live ≠ []) :
    ∃ block rest, popFront live = (some block, rest) ∧ live.Perm (block :: rest) := by
  cases live with
  | nil => exact absurd rfl h
  | cons block rest => exact ⟨block, rest, rfl, List.Perm.refl _⟩

end Wasmalloc.Testing
