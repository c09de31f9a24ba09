import Mathlib.Algebra.Order.BigOperators.Group.List
import Wasmalloc.Testing.Model

/- The books of the tester.

   Between operations `by_addr` holds exactly the intervals of the live blocks, these do
   not meet, and `live_bytes` is the sum of the sizes and within the cap (`Books`). Every
   operation keeps the books whatever the allocator answers: what does not fit them is
   reported by `admit`, which by one look tells exactly whether a block fits. -/
namespace Wasmalloc.Testing
open SortedMap (Apart)

variable [Build] {A E : Type}

/-! ## The books -/

/-- `by_addr` and `live_bytes` tell of the live blocks. -/
structure Books (live : List Block) (byAddr : SortedMap Nat Nat) (liveBytes : Nat) : Prop where
  intervals : byAddr.entries.Perm (live.map Block.interval)
  apart : byAddr.Apart
  bytes : liveBytes = (live.map fun block => block.layout.size).sum
  top : ∀ block ∈ live, block.addr + block.layout.size < usizeSize

/-- The block `[ptr, ptr + size)` can be admitted. -/
def Fits (byAddr : SortedMap Nat Nat) (ptr : Nat) (layout : Layout) : Prop :=
  layout.align ∣ ptr ∧ ptr + layout.size < usizeSize ∧
    ∀ i ∈ byAddr, Disjoint (Set.Ico ptr (ptr + layout.size)) (Set.Ico i.1 i.2)

section Books
variable {live rest : List Block} {byAddr : SortedMap Nat Nat} {liveBytes : Nat} {block : Block}

theorem Books.mem_iff (h : Books live byAddr liveBytes) {i : Nat × Nat} :
    i ∈ byAddr ↔ ∃ block ∈ live, block.interval = i := by
  have : i ∈ byAddr.entries ↔ i ∈ live.map Block.interval := h.intervals.mem_iff
  rw [List.mem_map] at this
  exact this

theorem Books.size_pos (h : Books live byAddr liveBytes) (hm : block ∈ live) :
    1 ≤ block.layout.size := by
  have hlt := h.apart.proper _ (h.mem_iff.mpr ⟨block, hm, rfl⟩)
  unfold Block.interval at hlt
  omega

theorem Books.empty : Books [] SortedMap.empty 0 :=
  ⟨List.Perm.refl _, SortedMap.empty_apart, rfl, fun _ hm => absurd hm List.not_mem_nil⟩

theorem Books.perm (h : Books live byAddr liveBytes) (hp : live.Perm rest) :
    Books rest byAddr liveBytes where
  intervals := h.intervals.trans (hp.map _)
  apart := h.apart
  bytes := h.bytes.trans (hp.map _).sum_nat
  top := fun block hm => h.top block (hp.mem_iff.mpr hm)

theorem top_append {p : Block → Prop} (h : ∀ block ∈ live, p block) (hp : p block) :
    ∀ d ∈ live ++ [block], p d := by
  intro d hd
  rcases List.mem_append.mp hd with hd | hd
  · exact h d hd
  · rwa [List.mem_singleton.mp hd]

theorem Books.add (h : Books live byAddr liveBytes) (hs : 1 ≤ block.layout.size)
    (hfits : Fits byAddr block.addr block.layout) :
    Books (live ++ [block]) (byAddr.insert block.addr (block.addr + block.layout.size))
      (liveBytes + block.layout.size) := by
  obtain ⟨hapart, hnew⟩ := h.apart.insert (by omega) hfits.2.2
  refine ⟨?_, hapart, ?_, top_append h.top hfits.2.1⟩
  · refine (SortedMap.insert_perm hnew).trans ?_
    refine (h.intervals.cons _).trans ?_
    rw [List.map_append]
    exact (List.perm_append_singleton _ _).symm
  · rw [h.bytes, List.map_append, List.sum_append]
    rfl

theorem Books.drop (h : Books live byAddr liveBytes) (hp : live.Perm (block :: rest)) :
    Books rest (byAddr.erase block.addr) (liveBytes - block.layout.size) ∧
      block.layout.size ≤ liveBytes := by
  have h' := h.perm hp
  have hm : block.interval ∈ byAddr := h'.mem_iff.mpr ⟨block, List.mem_cons_self, rfl⟩
  have hb := h'.bytes
  rw [List.map_cons, List.sum_cons] at hb
  refine ⟨⟨?_, h.apart.erase, by omega, fun d hd => h'.top d (List.mem_cons_of_mem _ hd)⟩, by omega⟩
  have hperm := (SortedMap.perm_erase hm).symm.trans h'.intervals
  exact List.Perm.cons_inv hperm

theorem Books.restore (h : Books live byAddr liveBytes) (hp : live.Perm (block :: rest)) :
    Books (rest ++ [block])
      ((byAddr.erase block.addr).insert block.addr (block.addr + block.layout.size)) liveBytes := by
  obtain ⟨hdrop, hle⟩ := h.drop hp
  have h' := h.perm hp
  have hs := h'.size_pos List.mem_cons_self
  have hm : block.interval ∈ byAddr := h'.mem_iff.mpr ⟨block, List.mem_cons_self, rfl⟩
  have hfree : ∀ i ∈ byAddr.erase block.addr,
      Disjoint (Set.Ico block.addr (block.addr + block.layout.size)) (Set.Ico i.1 i.2) := by
    intro i hi
    obtain ⟨hi, hne⟩ := SortedMap.mem_erase.mp hi
    exact h.apart.disjoint hm hi fun e => hne (congrArg Prod.fst e).symm
  obtain ⟨hapart, hnew⟩ := hdrop.apart.insert (by omega) hfree
  refine ⟨?_, hapart, ?_, top_append hdrop.top (h'.top block List.mem_cons_self)⟩
  · refine (SortedMap.insert_perm hnew).trans ((hdrop.intervals.cons _).trans ?_)
    rw [List.map_append]
    exact (List.perm_append_singleton _ _).symm
  · have hb := hdrop.bytes
    rw [List.map_append, List.sum_append]
    show liveBytes = _ + (block.layout.size + 0)
    omega

/-- The books are kept, and within the cap of the profile. -/
structure Model.Sound (m : Model A) : Prop where
  books : Books m.live m.byAddr m.liveBytes
  cap : m.liveBytes ≤ m.profile.maxLiveBytes
  cap_pos : 0 < m.profile.maxLiveBytes

theorem Books.size_le (h : Books live byAddr liveBytes) (hm : block ∈ live) :
    block.layout.size ≤ liveBytes := by
  rw [h.bytes]
  exact List.single_le_sum (fun _ _ => Nat.zero_le _) _ (List.mem_map_of_mem hm)

/-- No block is empty, so there are no more blocks than bytes. -/
theorem Books.length_le (h : Books live byAddr liveBytes) : live.length ≤ liveBytes := by
  rw [h.bytes, ← List.length_map (f := fun block : Block => block.layout.size)]
  refine List.length_le_sum_of_one_le _ fun n hn => ?_
  obtain ⟨block, hm, rfl⟩ := List.mem_map.mp hn
  exact h.size_pos hm

end Books

/-! ## `admit` -/

variable {m : Model A} {layout : Layout}

/-- **`admit`** records a block that fits, and reports any other. -/
theorem admit_spec (what : String) (ptr : Nat) (h : m.byAddr.Apart) (hs : 1 ≤ layout.size) :
    (Fits m.byAddr ptr layout ∧ (Model.admitBlock what ptr layout).run m =
      (.ok (), { m with byAddr := m.byAddr.insert ptr (ptr + layout.size) })) ∨
    (¬ Fits m.byAddr ptr layout ∧ ∃ f : Failure,
      (f.opIndex = m.opIndex ∧ (f.kind = .misaligned ∨ f.kind = .overlap)) ∧
      (Model.admitBlock what ptr layout).run m = (.error (.failure f), m)) := by
  have hfail : ∀ (kind : FailureKind) (detail : String), (kind = .misaligned ∨ kind = .overlap) →
      ∃ f : Failure, (f.opIndex = m.opIndex ∧ (f.kind = .misaligned ∨ f.kind = .overlap)) ∧
        (Model.fail kind detail : Check A Unit).run m = (.error (.failure f), m) :=
    fun _ _ hk => ⟨_, ⟨rfl, hk⟩, rfl⟩
  unfold Model.admitBlock
  rw [Act.run_get_bind]
  dsimp only
  by_cases halign : ptr % layout.align ≠ 0
  · rw [if_pos halign]
    exact Or.inr ⟨fun hf => halign (Nat.mod_eq_zero_of_dvd hf.1), hfail _ _ (by decide)⟩
  rw [if_neg halign]
  by_cases hwrap : usizeSize ≤ ptr + layout.size
  · rw [if_pos hwrap]
    exact Or.inr ⟨fun hf => absurd hf.2.1 (by omega), hfail _ _ (by decide)⟩
  rw [if_neg hwrap]
  have hone := h.free_iff (show ptr < ptr + layout.size by omega)
  have hrest : layout.align ∣ ptr ∧ ptr + layout.size < usizeSize :=
    ⟨Nat.dvd_of_mod_eq_zero (not_not.mp halign), by omega⟩
  cases hlast : m.byAddr.lastBelow (ptr + layout.size) with
  | none =>
    have hfree := hone.mp fun e he => by rw [hlast] at he; cases he
    exact Or.inl ⟨⟨hrest.1, hrest.2, hfree⟩, rfl⟩
  | some e =>
    dsimp only
    by_cases hmeet : ptr < e.2
    · rw [if_pos hmeet]
      refine Or.inr ⟨fun hf => ?_, hfail _ _ (by decide)⟩
      exact absurd (hone.mpr hf.2.2 e hlast) (by omega)
    · rw [if_neg hmeet]
      have hfree := hone.mp fun d hd => by
        rw [hlast] at hd
        obtain rfl := Option.some.inj hd
        omega
      exact Or.inl ⟨⟨hrest.1, hrest.2, hfree⟩, rfl⟩

end Wasmalloc.Testing
