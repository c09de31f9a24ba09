import Wasmalloc.Candidates

/- How far the heap reaches.

   Whatever a call does, the map keeps its base, and the slices it comes to record lie
   below its usable limit; so do the regions that are asked of the backend, counted from
   the end of memory seen (`Heap.Grows`). Along a run it follows that the last slice of
   a 32-bit address space is never recorded, and that the map's end and the counter of
   page searches stay small (`reachable_inBounds`).

   Nothing but `acquire` and `extend_with_growth` grows: every other function is a frame. -/
namespace Wasmalloc
open Words

variable [Build]

/-! ## The slice map -/

namespace SliceMap

/-- The base and the recorded regions are the same. -/
structure SameExtent (m m' : SliceMap) : Prop where
  base : m'.base = m.base
  recorded : m'.recorded = m.recorded

/-- The map may have recorded more slices, all of which it may hand out. -/
structure Grows (m m' : SliceMap) : Prop where
  base : m'.base = m.base
  recorded : ∃ new, m'.recorded = new ++ m.recorded ∧ ∀ r ∈ new, r.1 + r.2 ≤ m.usableLimit

variable {m m1 m2 : SliceMap}

omit [Build] in
theorem SameExtent.refl (m : SliceMap) : m.SameExtent m := ⟨rfl, rfl⟩

omit [Build] in
theorem SameExtent.trans (h : m.SameExtent m1) (h' : m1.SameExtent m2) : m.SameExtent m2 :=
  ⟨h'.base.trans h.base, h'.recorded.trans h.recorded⟩

theorem SameExtent.grows (h : m.SameExtent m1) : m.Grows m1 :=
  ⟨h.base, [], h.recorded, fun _ hr => absurd hr List.not_mem_nil⟩

theorem Grows.refl (m : SliceMap) : m.Grows m := (SameExtent.refl m).grows

theorem Grows.usableLimit (h : m.Grows m1) : m1.usableLimit = m.usableLimit := by
  unfold SliceMap.usableLimit limit
  rw [h.base]

theorem Grows.trans (h : m.Grows m1) (h' : m1.Grows m2) : m.Grows m2 := by
  obtain ⟨new, hnew, hle⟩ := h.recorded
  obtain ⟨new', hnew', hle'⟩ := h'.recorded
  refine ⟨h'.base.trans h.base, new' ++ new, by rw [hnew', hnew, List.append_assoc], ?_⟩
  intro r hr
  rcases List.mem_append.mp hr with hr | hr
  · rw [← h.usableLimit]
    exact hle' r hr
  · exact hle r hr

theorem claim_extent (m : SliceMap) (rel count : Nat) : m.SameExtent (m.claim rel count).2 := by
  unfold claim
  generalize true = z
  induction wordMasksInside rel count generalizing m z with
  | nil => exact SameExtent.refl m
  | cons p l ih =>
    rw [List.foldl_cons]
    exact (SameExtent.mk (by rfl) (by rfl)).trans (ih _ _)

theorem take_extent (m : SliceMap) (count : Nat) (found : Option Nat) :
    m.SameExtent (m.take count found).2 := by
  cases found with
  | none => exact SameExtent.refl m
  | some rel => exact claim_extent m rel count

theorem alloc_extent (m : SliceMap) (count align : Nat) : m.SameExtent (m.alloc count align).2 :=
  (SameExtent.mk rfl rfl : m.SameExtent m.advanceHint).trans (take_extent _ _ _)

theorem allocTail_extent (m : SliceMap) (count align below : Nat) :
    m.SameExtent (m.allocTail count align below).2 := take_extent _ _ _

theorem freeRun_extent (m : SliceMap) (start count : Nat) : m.SameExtent (m.freeRun start count) :=
  ⟨rfl, rfl⟩

theorem shrink_extent (m : SliceMap) (start count newCount : Nat) :
    m.SameExtent (m.shrink start count newCount) := by
  unfold shrink
  split
  · exact ⟨rfl, rfl⟩
  · exact SameExtent.refl m

theorem tryExtend_extent (m : SliceMap) (start count extra : Nat) :
    m.SameExtent (m.tryExtend start count extra).2 := by
  unfold tryExtend
  simp only
  split
  · exact SameExtent.refl m
  · exact claim_extent m _ _

theorem addFree_extent (m : SliceMap) (start count : Nat) (zeroed : Bool) :
    (m.addFree start count zeroed).base = m.base ∧
    ∃ new, (m.addFree start count zeroed).recorded = new ++ m.recorded ∧
      ∀ r ∈ new, r = (start, clippedCount start count) := by
  unfold addFree
  rw [show (if start ≤ maxSliceIndex then min count (maxSliceIndex - start) else count) =
    clippedCount start count from rfl]
  simp only
  split
  · exact ⟨rfl, [], rfl, fun r hr => absurd hr List.not_mem_nil⟩
  · cases zeroed <;> exact ⟨rfl, [_], rfl, fun r hr => List.mem_singleton.mp hr⟩

/-- `addFree` drops the last slice. -/
theorem addFree_last (hm : ¬ m.Recorded maxSliceIndex) (start count : Nat) (zeroed : Bool) :
    ¬ (m.addFree start count zeroed).Recorded maxSliceIndex := by
  intro ⟨r, hr, hin⟩
  obtain ⟨-, new, hnew, hr'⟩ := m.addFree_extent start count zeroed
  rw [hnew] at hr
  rcases List.mem_append.mp hr with hr | hr
  · rw [hr' r hr] at hin
    unfold InRun clippedCount at hin
    split at hin <;> omega
  · exact hm ⟨r, hr, hin⟩

end SliceMap

theorem addRegion_extent (m : SliceMap) (start count : Nat) :
    (addRegion m start count).base = m.base ∧
    ∃ new, (addRegion m start count).recorded = new ++ m.recorded ∧
      ∀ r ∈ new, start ≤ r.1 ∧ r.1 + r.2 ≤ start + count ∧ r.1 + r.2 ≤ m.usableLimit := by
  unfold addRegion
  simp only
  split
  · obtain ⟨hbase, new, hnew, hr⟩ := m.addFree_extent start
      (min (saturatingAdd start count) m.usableLimit - start) true
    refine ⟨hbase, new, hnew, fun r hm => ?_⟩
    rw [hr r hm]
    have hclip := SliceMap.clippedCount_le start (min (saturatingAdd start count) m.usableLimit - start)
    have hsat : saturatingAdd start count ≤ start + count := Nat.min_le_left _ _
    simp only
    omega
  · exact ⟨rfl, [], rfl, fun r hr => absurd hr List.not_mem_nil⟩

/-! ## Growing memory -/

/-- The region asked for ends below the usable limit, were it placed at the end of memory. -/
def GrowCall.InLimit (c : GrowCall) : Prop := c.stop + c.want ≤ c.map.usableLimit

/-- The call was granted the slices of region `r`. -/
def GrowCall.Covers (c : GrowCall) (r : Nat × Nat) : Prop :=
  ∃ a, c.got = some a ∧ a ≤ r.1 ∧ r.1 + r.2 ≤ a + c.want

namespace Supply
variable {M : Type} [Memory M]

structure Grows (s s' : Supply M) : Prop where
  map : s.map.Grows s'.map
  asked : ∃ new, s'.calls = new ++ s.calls ∧ ∀ c ∈ new, c.InLimit
  size_le : sizeSlices s.mem ≤ sizeSlices s'.mem
  granted : ∀ r ∈ s'.map.recorded, r ∈ s.map.recorded ∨
    sizeSlices s.mem ≤ r.1 ∧ ∃ c ∈ s'.calls, c.Covers r
  bytes : ∀ x, x / sliceSize < sizeSlices s.mem → s'.bytes x = s.bytes x

variable {s s1 s2 : Supply M}

theorem Grows.withMap (s : Supply M) {m : SliceMap} (hmap : s.map.SameExtent m) :
    s.Grows { s with map := m } where
  map := hmap.grows
  asked := ⟨[], rfl, fun _ hc => absurd hc List.not_mem_nil⟩
  size_le := Nat.le_refl _
  granted := fun _ hr => Or.inl (hmap.recorded ▸ hr)
  bytes := fun _ _ => rfl

theorem Grows.refl (s : Supply M) : s.Grows s := Grows.withMap s (SliceMap.SameExtent.refl _)

theorem Grows.trans (h : s.Grows s1) (h' : s1.Grows s2) : s.Grows s2 where
  map := h.map.trans h'.map
  asked := by
    obtain ⟨new, hnew, hle⟩ := h.asked
    obtain ⟨new', hnew', hle'⟩ := h'.asked
    refine ⟨new' ++ new, by rw [hnew', hnew, List.append_assoc], fun c hc => ?_⟩
    exact (List.mem_append.mp hc).elim (hle' c) (hle c)
  size_le := le_trans h.size_le h'.size_le
  granted := by
    intro r hr
    obtain ⟨new', hnew', -⟩ := h'.asked
    rcases h'.granted r hr with hr | ⟨hle, hcov⟩
    · refine (h.granted r hr).imp_right ?_
      rintro ⟨hle, c, hc, hcov⟩
      exact ⟨hle, c, hnew' ▸ List.mem_append_right _ hc, hcov⟩
    · exact Or.inr ⟨le_trans h.size_le hle, hcov⟩
  bytes := fun x hx => (h'.bytes x (lt_of_lt_of_le hx h.size_le)).trans (h.bytes x hx)

theorem alloc_grows (s : Supply M) (count align : Nat) : s.Grows (s.alloc count align).2 :=
  Grows.withMap s (SliceMap.alloc_extent _ _ _)

/-- A region that was granted behind the old end of memory. -/
def Granted (s s1 : Supply M) (start count : Nat) : Prop :=
  sizeSlices s.mem ≤ start ∧ ∃ c ∈ s1.calls, c.got = some start ∧ c.want = count

theorem Grows.addRegion {start count : Nat} (h : s.Grows s1) (hg : s.Granted s1 start count) :
    s.Grows (s1.addRegion start count) := by
  obtain ⟨hle, c, hc, hgot, hwant⟩ := hg
  obtain ⟨hbase, new, hnew, hr⟩ := addRegion_extent s1.map start count
  have hmap : s1.map.Grows (Wasmalloc.addRegion s1.map start count) :=
    ⟨hbase, new, hnew, fun r hm => (hr r hm).2.2⟩
  refine { map := h.map.trans hmap, asked := h.asked, size_le := h.size_le, granted := ?_, bytes := h.bytes }
  intro r hm
  have hm : r ∈ (Wasmalloc.addRegion s1.map start count).recorded := hm
  rw [hnew] at hm
  rcases List.mem_append.mp hm with hm | hm
  · have hlo := (hr r hm).1
    exact Or.inr ⟨le_trans hle hlo, c, hc, start, hgot, hlo, hwant ▸ (hr r hm).2.1⟩
  · exact h.granted r hm

variable [Memory.Contract M]

theorem grow_grows (s : Supply M) (need : Need) {stop want : Nat}
    (hfit : stop + want ≤ s.map.usableLimit) : s.Grows (s.grow need stop want).2 where
  map := SliceMap.Grows.refl _
  asked := by
    refine ⟨[_], rfl, fun c hc => ?_⟩
    rw [List.mem_singleton.mp hc]
    exact hfit
  size_le := Memory.Contract.size_mono s.mem want
  granted := fun _ hr => Or.inl hr
  bytes := by
    -- What `grow` clears lies behind the old end.
    intro x hx
    unfold grow
    cases hgot : (Memory.grow s.mem want).1 with
    | none => simp only [hgot]
    | some start =>
      have hfresh := (Memory.Contract.grow_fresh s.mem want start hgot).1
      have hlt := (Nat.div_lt_iff_lt_mul (by decide : 0 < sliceSize)).mp (lt_of_lt_of_le hx hfresh)
      simp only [hgot]
      exact ByteMem.fill_out (Or.inl hlt)

theorem grow_granted_at {need : Need} {stop want start : Nat}
    (h : s.grow need stop want = (some start, s1)) : s.Granted s1 start want := by
  obtain ⟨hgot, rfl⟩ := Prod.mk.inj h
  exact ⟨(Memory.Contract.grow_fresh s.mem want start hgot).1, _, List.mem_cons_self, hgot, rfl⟩

theorem growWant_granted_at {need : Need} {stop want needed start got : Nat}
    (h : s.growWant need stop want needed = (some (start, got), s1)) : s.Granted s1 start got := by
  unfold growWant at h
  rcases hgrow : s.grow need stop want with ⟨_ | region, s2⟩ <;> rw [hgrow] at h
  · simp only at h
    split at h
    · rcases hgrow2 : s2.grow need stop needed with ⟨_ | region, s3⟩ <;> rw [hgrow2] at h
      · cases h
      · cases h
        obtain ⟨hle, hc⟩ := grow_granted_at hgrow2
        have hmono : sizeSlices s.mem ≤ sizeSlices s2.mem := by
          obtain ⟨-, rfl⟩ := Prod.mk.inj hgrow
          exact Memory.Contract.size_mono s.mem want
        exact ⟨le_trans hmono hle, hc⟩
    · cases h
  · cases h
    exact grow_granted_at hgrow

theorem growWant_grows (s : Supply M) (need : Need) {stop want needed : Nat}
    (hfit : stop + want ≤ s.map.usableLimit) : s.Grows (s.growWant need stop want needed).2 := by
  have h := s.grow_grows need hfit
  unfold growWant
  rcases hgrow : s.grow need stop want with ⟨_ | start, s1⟩ <;> rw [hgrow] at h
  · simp only
    split
    · have hfit1 : stop + needed ≤ s1.map.usableLimit := by
        rw [h.map.usableLimit]
        omega
      have h1 := h.trans (s1.grow_grows need hfit1)
      rcases hgrow1 : s1.grow need stop needed with ⟨_ | start, s2⟩ <;> rw [hgrow1] at h1
      · exact h1
      · exact h1
    · exact h
  · exact h

theorem growAndAlloc_grows (s : Supply M) (policy : GrowPolicy) {count align : Nat} (hc : 1 ≤ count) :
    s.Grows (s.growAndAlloc policy count align).2 := by
  unfold growAndAlloc
  simp only
  rcases hneeded : checkedAdd (wrappingNeg (sizeSlices s.mem) &&& (align - 1)) count with _ | needed
  · exact Grows.refl s
  have hpos : 1 ≤ needed := by
    unfold checkedAdd at hneeded
    split at hneeded
    · cases hneeded
      omega
    · cases hneeded
  simp only
  split
  · exact Grows.refl s
  generalize hwant : min (max needed (growthStep s.map (sizeSlices s.mem) policy))
    (s.map.usableLimit - sizeSlices s.mem) = want
  have h : s.Grows (s.growWant (.run count align) (sizeSlices s.mem) want needed).2 :=
    s.growWant_grows _ (by omega)
  rcases hgrow : s.growWant (.run count align) (sizeSlices s.mem) want needed with
    ⟨_ | ⟨start, got⟩, s1⟩ <;> rw [hgrow] at h
  · exact h
  have h1 := (h.addRegion (growWant_granted_at hgrow)).trans (alloc_grows _ count align)
  simp only
  rcases halloc : (s1.addRegion start got).alloc count align with ⟨_ | run, s2⟩ <;> rw [halloc] at h1
  swap
  · exact h1
  simp only
  rcases hworst : checkedAdd count (align - 1) with _ | worst
  · exact h1
  have hpos : 1 ≤ worst := by
    unfold checkedAdd at hworst
    split at hworst
    · cases hworst
      omega
    · cases hworst
  simp only
  split
  · exact h1
  have hroom : sizeSlices s2.mem + worst ≤ s2.map.usableLimit := by
    rw [h1.map.usableLimit]
    omega
  have h2 := s2.grow_grows (.run count align) hroom
  rcases hgrow : s2.grow (.run count align) (sizeSlices s2.mem) worst with ⟨_ | start2, s3⟩ <;>
    rw [hgrow] at h2
  · exact h1.trans h2
  · exact (h1.trans (h2.addRegion (grow_granted_at hgrow))).trans (alloc_grows _ count align)

theorem acquire_grows (s : Supply M) (policy : GrowPolicy) {count align : Nat} (hc : 1 ≤ count) :
    s.Grows (s.acquire policy count align).2 := by
  have h := s.alloc_grows count align
  unfold acquire
  rcases halloc : s.alloc count align with ⟨_ | run, s1⟩ <;> rw [halloc] at h
  · exact h.trans (s1.growAndAlloc_grows policy hc)
  · exact h

theorem growAndExtend_grows (s : Supply M) (policy : GrowPolicy) (start count extra : Nat) :
    s.Grows (s.growAndExtend policy start count extra).2 := by
  unfold growAndExtend
  simp only
  split
  · exact Grows.refl s
  split
  · exact Grows.refl s
  split
  · exact Grows.refl s
  generalize hwant : min (max (extra - (sizeSlices s.mem - (start + count)))
    (growthStep s.map (sizeSlices s.mem) policy)) (s.map.usableLimit - sizeSlices s.mem) = want
  have h : s.Grows (s.growWant (.tail start count extra) (sizeSlices s.mem) want
      (extra - (sizeSlices s.mem - (start + count)))).2 := s.growWant_grows _ (by omega)
  rcases hgrow : s.growWant (.tail start count extra) (sizeSlices s.mem) want
    (extra - (sizeSlices s.mem - (start + count))) with ⟨_ | ⟨region, got⟩, s1⟩ <;> rw [hgrow] at h
  · exact h
  have h1 := h.addRegion (growWant_granted_at hgrow)
  simp only
  split
  · exact h1
  · exact h1.trans (Grows.withMap _ (SliceMap.tryExtend_extent _ _ _ _))

theorem extendWithGrowth_grows (s : Supply M) (policy : GrowPolicy) (start count extra : Nat) :
    s.Grows (s.extendWithGrowth policy start count extra).2 := by
  have h : s.Grows (s.tryExtend start count extra).2 :=
    Grows.withMap s (SliceMap.tryExtend_extent _ _ _ _)
  unfold extendWithGrowth
  rcases htry : s.tryExtend start count extra with ⟨_ | z, s1⟩ <;> rw [htry] at h
  · exact h.trans (growAndExtend_grows s1 policy start count extra)
  · exact h

end Supply

/-! ## The heap -/

namespace Heap
variable {M : Type} [Memory M]

structure Grows (h h' : Heap M) : Prop where
  slices : h.slices.Grows h'.slices
  asked : ∃ new, h'.growLog = new ++ h.growLog ∧ ∀ e ∈ new, e.call.InLimit
  size_le : sizeSlices h.mem ≤ sizeSlices h'.mem
  granted : ∀ r ∈ h'.slices.recorded, r ∈ h.slices.recorded ∨
    sizeSlices h.mem ≤ r.1 ∧ ∃ e ∈ h'.growLog, e.call.Covers r
  counted : h'.genericCount = h.genericCount

section Grows
variable {h h1 h2 : Heap M}

theorem Grows.frame (hslices : h.slices.SameExtent h1.slices) (hlog : h1.growLog = h.growLog)
    (hmem : h1.mem = h.mem) (hcount : h1.genericCount = h.genericCount) : h.Grows h1 where
  slices := hslices.grows
  asked := ⟨[], hlog, fun _ he => absurd he List.not_mem_nil⟩
  size_le := by rw [hmem]
  granted := fun _ hr => Or.inl (hslices.recorded ▸ hr)
  counted := hcount

theorem Grows.refl (h : Heap M) : h.Grows h := Grows.frame (SliceMap.SameExtent.refl _) rfl rfl rfl

theorem Grows.trans (g : h.Grows h1) (g' : h1.Grows h2) : h.Grows h2 where
  slices := g.slices.trans g'.slices
  asked := by
    obtain ⟨new, hnew, hle⟩ := g.asked
    obtain ⟨new', hnew', hle'⟩ := g'.asked
    refine ⟨new' ++ new, by rw [hnew', hnew, List.append_assoc], fun e he => ?_⟩
    exact (List.mem_append.mp he).elim (hle' e) (hle e)
  size_le := le_trans g.size_le g'.size_le
  granted := by
    intro r hr
    obtain ⟨new', hnew', -⟩ := g'.asked
    rcases g'.granted r hr with hr | ⟨hle, hcov⟩
    · refine (g.granted r hr).imp_right ?_
      rintro ⟨hle, e, he, hcov⟩
      exact ⟨hle, e, hnew' ▸ List.mem_append_right _ he, hcov⟩
    · exact Or.inr ⟨le_trans g.size_le hle, hcov⟩
  counted := g'.counted.trans g.counted

theorem grows_of_same (e : SameButFree h h1) : h.Grows h1 := by
  unfold SameButFree at e
  rw [e]
  exact Grows.frame ⟨rfl, rfl⟩ rfl rfl rfl

theorem withSupply_grows (h : Heap M) {s : Supply M} (hs : h.supply.Grows s) :
    h.Grows (h.withSupply s) := by
  obtain ⟨new, hnew, hle⟩ := hs.asked
  refine { slices := hs.map, asked := ⟨s.calls.map h.entry, rfl, fun e he => ?_⟩, size_le := hs.size_le,
           granted := fun r hr => ?_, counted := rfl }
  · obtain ⟨c, hc, rfl⟩ := List.mem_map.mp he
    rw [hnew, show h.supply.calls = [] from rfl, List.append_nil] at hc
    exact hle c hc
  · refine (hs.granted r hr).imp_right ?_
    rintro ⟨hle, c, hc, hcov⟩
    exact ⟨hle, h.entry c, List.mem_append_left _ (List.mem_map_of_mem hc), hcov⟩

end Grows

/-! ### Frames -/

variable (h : Heap M) (p qi : Nat)

theorem withBytes_grows (b : ByteMem.Bytes) : h.Grows { h with bytes := b } :=
  Grows.frame (SliceMap.SameExtent.refl _) rfl rfl rfl

theorem withSlices_grows {m : SliceMap} (hm : h.slices.SameExtent m) : h.Grows { h with slices := m } :=
  Grows.frame hm rfl rfl rfl

theorem withHistory_grows (hist : History) : h.Grows { h with history := hist } :=
  Grows.frame (SliceMap.SameExtent.refl _) rfl rfl rfl

theorem setField_grows (f : Page.Field) (v : Nat) : h.Grows (h.setField p f v) :=
  Grows.frame (SliceMap.SameExtent.refl _) rfl rfl rfl

theorem remove_grows : h.Grows (h.remove qi p) := by
  rw [remove_eq]
  exact Grows.frame (SliceMap.SameExtent.refl _) rfl rfl rfl

theorem pushFront_grows : h.Grows (h.pushFront qi p) := by
  rw [pushFront_eq]
  exact Grows.frame (SliceMap.SameExtent.refl _) rfl rfl rfl

theorem pushBack_grows : h.Grows (h.pushBack qi p) := by
  rw [pushBack_eq]
  exact Grows.frame (SliceMap.SameExtent.refl _) rfl rfl rfl

theorem setInFullQueue_grows (inFull : Bool) : h.Grows (h.setInFullQueue p inFull) :=
  Grows.frame (SliceMap.SameExtent.refl _) rfl rfl rfl

theorem moveToFront_grows : h.Grows (h.moveToFront qi p) := by
  unfold moveToFront
  split
  · exact Grows.refl h
  · exact (h.remove_grows p qi).trans (pushFront_grows _ p qi)

theorem moveToFull_grows : h.Grows (h.moveToFull qi p) :=
  ((h.remove_grows p qi).trans (setInFullQueue_grows _ p true)).trans (pushBack_grows _ p fullQueue)

theorem unfull_grows : h.Grows (h.unfull p) :=
  ((h.remove_grows p fullQueue).trans (setInFullQueue_grows _ p false)).trans (pushBack_grows _ p _)

theorem freePage_grows : h.Grows (h.freePage p qi) :=
  (h.remove_grows p qi).trans (Grows.frame (SliceMap.freeRun_extent _ _ _) rfl rfl rfl)

theorem retire_grows : h.Grows (h.retire p) := by
  unfold retire
  simp only
  split
  · exact Grows.frame (SliceMap.SameExtent.refl _) rfl rfl rfl
  · exact h.freePage_grows p _

theorem agePage_grows (range : Nat × Nat) : h.Grows (h.agePage qi p range).1 := by
  unfold agePage
  split
  · split
    · simp only
      split
      · exact (h.setField_grows p _ _).trans (freePage_grows _ p qi)
      · exact h.setField_grows p _ _
    · exact h.setField_grows p _ _
  · exact Grows.refl h

theorem collectQueue_grows (left : Nat) : ∀ (s : Heap M × Nat × Nat) (cur : Nat),
    s.1.Grows (collectQueue qi left s cur).1 := by
  induction left with
  | zero => exact fun s _ => Grows.refl s.1
  | succ left ih =>
    intro (h, range) cur
    by_cases hcur : cur = 0
    · rw [collectQueue, if_pos hcur]
      exact Grows.refl h
    · rw [collectQueue_succ qi left h range hcur]
      exact (h.agePage_grows cur qi range).trans (ih _ _)

theorem collectRetired_grows : h.Grows h.collectRetired := by
  have hfold : ∀ (l : List Nat) (s : Heap M × Nat × Nat), s.1.Grows (l.foldl (fun s qi =>
      collectQueue qi retireMaxPages s (s.1.queues (queueIndex qi)).first) s).1 := by
    intro l
    induction l with
    | nil => exact fun s => Grows.refl s.1
    | cons qi l ih => exact fun s => (collectQueue_grows qi retireMaxPages s _).trans (ih _)
  unfold collectRetired
  simp only
  split
  · exact (hfold _ (h, queueCount, 0)).trans (Grows.frame (SliceMap.SameExtent.refl _) rfl rfl rfl)
  · exact Grows.frame (SliceMap.SameExtent.refl _) rfl rfl rfl

theorem releaseEmptyPages_grows : h.Grows h.releaseEmptyPages :=
  (grows_of_same (releasePending_same 64 h (h.occupied &&& binQueueBits))).trans
    (Grows.frame (SliceMap.SameExtent.refl _) rfl rfl rfl)

theorem findCandidate_grows (left : Nat) : ∀ (h : Heap M) (candidate : Nat) (limit : Int) (cur : Nat),
    h.Grows (findCandidate qi left h candidate limit cur).1 := by
  induction left with
  | zero => exact fun h _ _ _ => Grows.refl h
  | succ left ih =>
    intro h candidate limit cur
    by_cases hcur : cur = 0
    · rw [findCandidate, if_pos hcur]
      exact Grows.refl h
    · rw [findCandidate_succ left h candidate limit hcur]
      split
      · exact ((h.setField_grows cur _ _).trans (moveToFull_grows _ cur qi)).trans (ih _ _ _ _)
      · split
        · exact Grows.refl h
        · exact ih _ _ _ _

omit [Memory M] in
theorem popBlock_frame : ∃ b hist, (h.popBlock p).2 = { h with bytes := b, history := hist } := by
  unfold popBlock
  rcases Page.pop h.bytes p with ⟨_ | block, b⟩
  · exact ⟨b, h.history, rfl⟩
  · exact ⟨b, _, rfl⟩

theorem popBlock_grows : h.Grows (h.popBlock p).2 := by
  obtain ⟨b, hist, hb⟩ := h.popBlock_frame p
  rw [hb]
  exact Grows.frame (SliceMap.SameExtent.refl _) rfl rfl rfl

theorem clearBlock_grows (block size : Nat) : h.Grows (h.clearBlock p block size) := by
  unfold clearBlock
  split
  · exact Grows.frame (SliceMap.SameExtent.refl _) rfl rfl rfl
  · exact Grows.frame (SliceMap.SameExtent.refl _) rfl rfl rfl

/-! ### Calls that may grow -/

theorem takeBlock_grows (layout : Layout) (zero : Bool) : h.Grows (h.takeBlock p layout zero).2 := by
  have hpop := h.popBlock_grows p
  unfold takeBlock
  rcases hp : h.popBlock p with ⟨_ | block, h1⟩ <;> rw [hp] at hpop
  · exact hpop
  · simp only
    split
    · exact hpop.trans (clearBlock_grows _ _ _ _)
    · exact hpop

theorem deallocTransition_grows : h.Grows (h.deallocTransition p) := by
  unfold deallocTransition
  have hun : h.Grows (if Page.inFullQueue h.bytes p then h.unfull p else h) := by
    split
    · exact h.unfull_grows p
    · exact Grows.refl h
  simp only
  generalize (if Page.inFullQueue h.bytes p then h.unfull p else h) = h1 at *
  split
  · exact hun.trans (h1.retire_grows p)
  · exact hun

theorem pushBlock_grows (addr : Nat) : h.Grows (h.pushBlock p addr) := by
  have hpush := h.withBytes_grows (Page.push h.bytes p addr)
  unfold pushBlock
  simp only
  split
  · exact hpush.trans (deallocTransition_grows _ p)
  · exact hpush

theorem deallocGeneric_grows (layout : Layout) : h.Grows (h.deallocGeneric p layout) := by
  unfold deallocGeneric
  split
  · exact h.withSlices_grows (SliceMap.freeRun_extent _ _ _)
  · exact h.pushBlock_grows _ p

theorem dealloc_grows (layout : Layout) : h.Grows (h.dealloc p layout) := by
  unfold dealloc
  simp only
  split
  · exact h.pushBlock_grows _ p
  · exact h.deallocGeneric_grows p layout

variable [Memory.Contract M]

theorem supplyRun_grows (h : Heap M) (policy : GrowPolicy) {count align : Nat} (hc : 1 ≤ count) :
    h.Grows (h.withSupply (h.supply.acquire policy count align).2) :=
  h.withSupply_grows (Supply.acquire_grows h.supply policy hc)

theorem acquireRun_grows {count align : Nat} (hc : 1 ≤ count) (top : Bool) :
    h.Grows (h.acquireRun count align top).2 := by
  have htail : h.slices.SameExtent (if top then h.slices.allocTail count align (sizeSlices h.mem)
      else (none, h.slices)).2 := by
    cases top
    · exact SliceMap.SameExtent.refl _
    · exact SliceMap.allocTail_extent _ _ _ _
  unfold acquireRun
  simp only
  rcases hr : (if top then h.slices.allocTail count align (sizeSlices h.mem) else (none, h.slices)) with
    ⟨_ | run, m⟩ <;> rw [hr] at htail
  · have halloc := htail.trans (m.alloc_extent count align)
    simp only
    rcases hm : m.alloc count align with ⟨_ | run, m'⟩ <;> rw [hm] at halloc
    · have h1 := (h.withSlices_grows halloc).trans (releaseEmptyPages_grows _)
      exact h1.trans (supplyRun_grows _ _ hc)
    · exact h.withSlices_grows halloc
  · exact h.withSlices_grows htail

omit [Memory.Contract M] in
/-- What follows the claim of a run for a page. -/
theorem openPage_grows (b c : ByteMem.Bytes) (bin : Nat) :
    h.Grows { ({ h with bytes := b } : Heap M).pushFront bin p with bytes := c } :=
  ((h.withBytes_grows b).trans (pushFront_grows _ p bin)).trans (withBytes_grows _ c)

theorem freshPage_grows (bin : Nat) : h.Grows (h.freshPage bin).2 := by
  have hrun : h.Grows (h.acquireRun (pageSlices bin) (pageSlices bin) false).2 :=
    h.acquireRun_grows (pageSlices_pos bin) false
  unfold freshPage
  simp only
  unfold pageSlices at hrun
  rcases hr : h.acquireRun _ _ false with ⟨_ | run, h1⟩ <;> rw [hr] at hrun
  · exact hrun
  · exact hrun.trans (h1.openPage_grows _ _ _ bin)

theorem usePage_grows (bin candidate : Nat) : h.Grows
    (if candidate = 0 then h.collectRetired.freshPage bin
      else (some candidate, (h.moveToFront bin candidate).setField candidate .retireExpire 0)).2 := by
  split
  · exact h.collectRetired_grows.trans (freshPage_grows _ bin)
  · exact (h.moveToFront_grows candidate bin).trans (setField_grows _ _ _ _)

theorem findPage_grows (bin : Nat) : h.Grows (h.findPage bin).2 := by
  have hfind := findCandidate_grows bin (h.queues (queueIndex bin)).count h 0 maxCandidates
    (h.queues (queueIndex bin)).first
  unfold findPage
  simp only
  generalize findCandidate bin _ h 0 maxCandidates _ = s at *
  split
  · exact (hfind.trans (s.1.withBytes_grows _)).trans (usePage_grows _ bin _)
  · exact hfind.trans (s.1.usePage_grows bin s.2)

theorem allocHuge_grows (layout : Layout) (zero top : Bool) :
    h.Grows (h.allocHuge layout zero top).2 := by
  have hrun : h.Grows (h.acquireRun (hugeSlices layout) (max (divCeil layout.align sliceSize) 1) top).2 :=
    h.acquireRun_grows (hugeSlices_pos layout) top
  unfold allocHuge
  simp only
  rcases hr : h.acquireRun _ _ top with ⟨_ | run, h1⟩ <;> rw [hr] at hrun
  · exact hrun
  · have h2 := hrun.trans (h1.withHistory_grows
      (h1.history.claimed (run.start * sliceSize) (hugeSlices layout)))
    simp only
    split
    · exact h2.trans (withBytes_grows _ _)
    · exact h2

theorem growRun_grows (a start oldN newN : Nat) : h.Grows (h.growRun a start oldN newN).2 := by
  have h1 := h.releaseEmptyPages_grows
  unfold growRun
  simp only
  generalize h.releaseEmptyPages = h1' at *
  have h2 := h1.trans (h1'.withSupply_grows
    (Supply.extendWithGrowth_grows h1'.supply h1'.policy start oldN (newN - oldN)))
  rcases hs : Supply.extendWithGrowth h1'.supply h1'.policy start oldN (newN - oldN) with ⟨_ | z, s⟩ <;>
    rw [hs] at h2
  · exact h2
  · exact h2.trans (withHistory_grows _ _)

theorem resizeInPlace_grows (layout newLayout : Layout) :
    h.Grows (h.resizeInPlace p layout newLayout).2 := by
  cases hold : classify layout with
  | bin old =>
    unfold resizeInPlace
    rw [hold]
    cases classify newLayout with
    | bin new => exact Grows.refl h
    | huge => exact Grows.refl h
  | huge =>
    cases hnew : classify newLayout with
    | bin new =>
      unfold resizeInPlace
      rw [hold, hnew]
      exact Grows.refl h
    | huge =>
      rw [resizeInPlace_huge hold hnew rfl rfl]
      split
      · exact Grows.refl h
      split
      · exact (h.withSlices_grows (SliceMap.shrink_extent _ _ _ _)).trans (withHistory_grows _ _)
      have htry := SliceMap.tryExtend_extent h.slices (p / sliceSize) (hugeSlices layout)
        (hugeSlices newLayout - hugeSlices layout)
      rcases hr : h.slices.tryExtend (p / sliceSize) (hugeSlices layout)
        (hugeSlices newLayout - hugeSlices layout) with ⟨_ | z, m⟩ <;> rw [hr] at htry
      · exact (h.withSlices_grows htry).trans (growRun_grows _ _ _ _ _)
      · exact (h.withSlices_grows htry).trans (withHistory_grows _ _)

end Heap

/-! ## Along a run -/

/-- What holds of the extent in every reachable state. -/
structure Heap.InBounds {M : Type} (h : Heap M) : Prop where
  base : h.slices.base * sliceSize < usizeSize
  last : h.slices.base ≤ maxSliceIndex → ¬ h.slices.Recorded maxSliceIndex
  asked : ∀ e ∈ h.growLog, e.call.InLimit
  counted : h.genericCount < genericCollectPeriod

namespace Heap
variable {M : Type} [Memory M] {h h1 : Heap M}

theorem InBounds.grows (hb : h.InBounds) (hg : h.Grows h1) : h1.InBounds where
  base := by
    rw [hg.slices.base]
    exact hb.base
  last := by
    rw [hg.slices.base]
    intro hbase ⟨r, hr, hin⟩
    obtain ⟨new, hnew, hle⟩ := hg.slices.recorded
    rw [hnew] at hr
    rcases List.mem_append.mp hr with hr | hr
    · have hfit := hle r hr
      unfold SliceMap.usableLimit at hfit
      rw [if_pos hbase] at hfit
      unfold InRun at hin
      omega
    · exact hb.last hbase ⟨r, hr, hin⟩
  asked := by
    obtain ⟨new, hnew, hle⟩ := hg.asked
    rw [hnew]
    exact fun e he => (List.mem_append.mp he).elim (hle e) (hb.asked e)
  counted := by
    rw [hg.counted]
    exact hb.counted

omit [Memory M] in
theorem InBounds.limit (hb : h.InBounds) : h.slices.limit < usizeSize := by
  have h32 := two_pow_32_le
  have hcap := SliceMap.capacity_le
  have hbase := hb.base
  unfold SliceMap.limit
  unfold sliceSize at hbase
  omega

variable [Memory.Contract M]

theorem InBounds.ensureInit (hb : h.InBounds) (hnew : h.initialized = false → h.slices = SliceMap.new) :
    h.ensureInit.InBounds := by
  unfold Heap.ensureInit
  split
  · exact hb
  rename_i hinit
  rw [hnew (by simpa using hinit)]
  have hlt := Memory.Contract.heapBase_lt h.mem
  have hbase : (SliceMap.new.init (heapBase h.mem / sliceSize)).base * sliceSize < usizeSize := by
    have hle : (SliceMap.new.init (heapBase h.mem / sliceSize)).base ≤ heapBase h.mem / sliceSize :=
      Nat.and_le_left
    have := Nat.div_mul_le_self (heapBase h.mem) sliceSize
    have := Nat.mul_le_mul_right sliceSize hle
    omega
  have hlast : ¬ (SliceMap.new.init (heapBase h.mem / sliceSize)).Recorded maxSliceIndex :=
    SliceMap.not_recorded_new _
  simp only
  generalize SliceMap.new.init (heapBase h.mem / sliceSize) = m at *
  split
  · refine { base := ?_, last := fun _ => SliceMap.addFree_last hlast _ _ _, asked := hb.asked,
             counted := hb.counted }
    show (m.addFree _ _ false).base * sliceSize < usizeSize
    rw [(m.addFree_extent _ _ false).1]
    exact hbase
  · exact { base := hbase, last := fun _ => hlast, asked := hb.asked, counted := hb.counted }

theorem InBounds.readied (hb : h.InBounds) (hnew : h.initialized = false → h.slices = SliceMap.new) :
    h.readied.InBounds := by
  have hb1 := hb.ensureInit hnew
  unfold Heap.readied
  simp only
  split
  · refine InBounds.grows (h := { h.ensureInit with genericCount := 0 }) ?_ (collectRetired_grows _)
    exact { base := hb1.base, last := hb1.last, asked := hb1.asked, counted := show 0 < genericCollectPeriod by decide }
  · rename_i hlt
    exact { base := hb1.base, last := hb1.last, asked := hb1.asked, counted := Nat.lt_of_not_le hlt }

theorem InBounds.allocGeneric (hb : h.InBounds) (hnew : h.initialized = false → h.slices = SliceMap.new)
    (layout : Layout) (zero : Bool) : (h.allocGeneric layout zero).2.InBounds := by
  unfold Heap.allocGeneric
  cases classify layout with
  | huge => exact (hb.ensureInit hnew).grows (allocHuge_grows _ _ _ _)
  | bin n =>
    simp only
    split
    · exact hb.grows (h.takeBlock_grows _ layout zero)
    · have hsearch := (hb.readied hnew).grows (h.readied.findPage_grows n)
      rw [← searchPage_eq] at hsearch
      rcases hr : h.searchPage n with ⟨_ | page, h1⟩ <;> rw [hr] at hsearch
      · exact hsearch
      · exact hsearch.grows (h1.takeBlock_grows page layout zero)

/-- What both fast paths do once the direct table has no block. -/
theorem InBounds.popMiss (hb : h.InBounds) (hnew : h.initialized = false → h.slices = SliceMap.new)
    (layout : Layout) (zero : Bool) {page : Nat} {got : Option Nat} (hpop : h.popBlock page = (got, h1)) :
    h1.InBounds ∧ (h1.allocGeneric layout zero).2.InBounds := by
  obtain ⟨b, hist, hh⟩ := h.popBlock_frame page
  have hb1 := hb.grows (h.popBlock_grows page)
  rw [hpop] at hh hb1
  refine ⟨hb1, hb1.allocGeneric ?_ layout zero⟩
  rw [show h1 = _ from hh]
  exact hnew

theorem InBounds.alloc (hb : h.InBounds) (hnew : h.initialized = false → h.slices = SliceMap.new)
    (layout : Layout) : (h.alloc layout).2.InBounds := by
  unfold Heap.alloc
  simp only
  split
  · rcases hpop : h.popBlock (h.direct (directIndex (directSize layout))) with ⟨_ | block, h1⟩
    · exact (hb.popMiss hnew layout false hpop).2
    · exact (hb.popMiss hnew layout false hpop).1
  · exact hb.allocGeneric hnew layout false

theorem InBounds.allocZeroed (hb : h.InBounds) (hnew : h.initialized = false → h.slices = SliceMap.new)
    (layout : Layout) : (h.allocZeroed layout).2.InBounds := by
  unfold Heap.allocZeroed
  simp only
  split
  · rcases hpop : h.popBlock (h.direct (directIndex (directSize layout))) with ⟨_ | block, h1⟩
    · exact (hb.popMiss hnew layout true hpop).2
    · exact (hb.popMiss hnew layout true hpop).1.grows (clearBlock_grows _ _ _ _)
  · exact hb.allocGeneric hnew layout true

theorem InBounds.moveBlock (hb : h.InBounds) (hnew : h.initialized = false → h.slices = SliceMap.new)
    (ptr : Nat) (layout newLayout : Layout) : (h.moveBlock ptr layout newLayout).2.InBounds := by
  have htarget : (h.moveTarget newLayout).2.InBounds := by
    unfold Heap.moveTarget
    cases classify newLayout with
    | huge => exact hb.grows (h.allocHuge_grows newLayout false true)
    | bin n => exact hb.alloc hnew newLayout
  rw [moveBlock_eq]
  generalize h.moveTarget newLayout = r at htarget ⊢
  rcases r with ⟨_ | new, h1⟩
  · exact htarget
  · exact (htarget.grows (h1.withBytes_grows _)).grows (dealloc_grows _ ptr layout)

end Heap

variable {M : Type} [Memory M] [Memory.Contract M] {c : Config M} {e : Event M}

omit [Memory M] [Memory.Contract M] in
theorem Starts.inBounds (hc : Starts c) : c.heap.InBounds := by
  obtain ⟨mem, bytes, policy, -, rfl⟩ := hc
  refine { base := ?_, last := fun _ => SliceMap.not_recorded_new _, asked := ?_, counted := ?_ }
  · show 0 * sliceSize < usizeSize
    have := two_pow_32_le
    omega
  · exact fun e he => absurd he List.not_mem_nil
  · show 0 < genericCollectPeriod
    decide

/-- **One step** keeps the extent in bounds. -/
theorem step_inBounds {g : Ghost} (hi : Inv g c.heap c.live) (ha : c.Allowed e) (hb : c.heap.InBounds) :
    (c.step e).heap.InBounds := by
  have hanswer : ∀ (layout : Layout) (rest : List Block) (r : Option Nat × Heap M), r.2.InBounds →
      (c.answer layout rest r).heap.InBounds := by
    intro layout rest ⟨got, h1⟩ hr
    cases got with
    | none => exact hr
    | some a => exact hr
  cases e with
  | alloc layout => exact hanswer _ _ _ (hb.alloc hi.core.uninit layout)
  | allocZeroed layout => exact hanswer _ _ _ (hb.allocZeroed hi.core.uninit layout)
  | dealloc blk => exact hb.grows (c.heap.dealloc_grows blk.addr blk.layout)
  | realloc blk newSize fits =>
    refine hanswer _ _ _ ?_
    unfold Heap.realloc
    split
    · exact hb
    have hplace := hb.grows (c.heap.resizeInPlace_grows blk.addr blk.layout (blk.layout.withSize newSize fits))
    have hres : Resized (c.live.erase blk) g c.heap blk (blk.layout.withSize newSize fits) _ :=
      resizeInPlace_resized (hi.perm (List.perm_cons_erase ha.1)) ha.2 rfl
    simp only
    rcases hr : c.heap.resizeInPlace blk.addr blk.layout (blk.layout.withSize newSize fits) with
      ⟨_ | a, h1⟩ <;> rw [hr] at hplace hres
    · rcases hres with ⟨q, h2, g2, hq, -⟩ | ⟨h2, g2, hq, hi2, -⟩
      · cases hq
      · cases hq
        exact hplace.moveBlock hi2.core.uninit _ _ _
    · exact hplace
  | write bytes => exact { hb with }
  | outside mem bytes => exact { hb with }

/-- The invariant of a run, with the bounds. -/
def Config.Bounded (c : Config M) : Prop := c.Ok ∧ c.heap.InBounds

theorem reachable_bounded (hc : Reachable c) : c.Bounded := by
  refine hc.invariant (fun _ hs => ⟨start_ok hs, hs.inBounds⟩) ?_
  rintro c e ⟨⟨g, hi⟩, hb⟩ (ha : c.Allowed e)
  exact ⟨(step_ok hi ha).1, step_inBounds hi ha hb⟩

/-- **The last slice** of a 32-bit address space is in nobody's hands. -/
theorem reachable_last (hc : Reachable c) : ¬ c.heap.slices.Recorded maxSliceIndex := by
  intro hrec
  obtain ⟨⟨g, hi⟩, hb⟩ := reachable_bounded hc
  -- A map that starts above that slice does not describe it.
  obtain ⟨hlo, -⟩ := hi.core.slices.inside _ ((hi.core.slices.recorded _).mp hrec)
  exact hb.last hlo hrec

end Wasmalloc
