import Wasmalloc.EmptyPages
import Wasmalloc.Extend
import Wasmalloc.FirstFit
import Wasmalloc.OutOfMemory

/- When a run stays in place.

   Over a backend that grows contiguously a run that has to grow stays where it is exactly
   if, once the empty pages are gone, the slices after it are free, or everything above it is
   and the backend grants the rest (`Heap.CanStay`). Otherwise it moves, and where the tail
   of memory has room, to the bottom of that tail (`Heap.TailBottom`). Both are stated of the
   heap before the call, with an empty page's slices counted as free.

   | source                | here                        |
   |-----------------------|-----------------------------|
   | `extend_with_growth`  | `extendWithGrowth_isSome_iff` |
   | `Heap::realloc`       | `resizeInPlace_grows`, `moveBlock_run` | -/
namespace Wasmalloc
open ByteMem Search

section
variable [Build] {M : Type} [Memory M]

/-! ## Growing in place over a contiguous backend -/

namespace Supply
variable {s s1 : Supply M} {start count extra : Nat}

omit [Build] in
/-- Under a cap, the backend grants the slices exactly if they fit below it. -/
theorem Capped.grants_iff {cap : M → Nat} (hcap : Capped M cap) (s : Supply M) {want needed : Nat}
    (hle : needed ≤ want) :
    Memory.Grants s.mem want needed ↔ sizeSlices s.mem + needed ≤ cap s.mem := by
  have hnone := @Capped.growWant_none_iff _ _ _ s (.run 1 1) hcap 0 want needed hle
  rw [← @growWant_isSome_iff _ _ s (.run 1 1) 0, Option.isSome_iff_ne_none, ne_eq, hnone]
  exact Nat.not_lt

variable [Memory.Contract M]

/-- Growing memory for a run extends it exactly if the run is at the top, what is missing
    fits, and the backend grants it. -/
theorem growAndExtend_isSome_iff (hcont : Memory.Contiguous M) (policy : GrowPolicy) (hinv : s.map.Inv)
    (hin : s.map.Inside start count) (hend : start + count ≤ sizeSlices s.mem)
    (hneed : ¬ s.map.TailFree start count extra) :
    (s.growAndExtend policy start count extra).1.isSome = true ↔
      s.MayGrow start count extra ∧ Memory.Grants s.mem (s.tailRequest policy start count extra)
        (s.missing start count extra) := by
  have hbase : s.map.base ≤ sizeSlices s.mem := by
    unfold SliceMap.Inside at hin
    omega
  have hgrants := @growWant_isSome_iff _ _ s (.tail start count extra) (sizeSlices s.mem)
    (s.tailRequest policy start count extra) (s.missing start count extra)
  have hroad := growAndExtend_road policy hin hend hneed
  generalize s.growAndExtend policy start count extra = r at hroad
  cases hroad with
  | barred hbar => exact ⟨nofun, fun h => absurd h.1 hbar⟩
  | refused hmay hgrow =>
    rw [hgrow] at hgrants
    exact ⟨nofun, fun h => absurd (hgrants.mpr h.2) nofun⟩
  | displaced hmay hgrow hregion => exact absurd (growWant_start hcont hgrow) hregion
  | @joined s1 got hmay hgrow =>
    have hneed' : ¬ (Need.tail start count extra).Servable s.map := hneed
    have hwant := (hmay.request policy hend hneed).2.2.1
    obtain ⟨-, c, rest, htrace, -⟩ := growWant_some hinv hbase hneed' hwant hgrow
    have hfull := joined_tailFree policy hinv hend hbase hneed hmay hgrow
    have hin' : (s1.addRegion (sizeSlices s.mem) got).map.Inside start count := by
      unfold SliceMap.Inside SliceMap.limit at *
      rw [htrace.base]
      exact hin
    have hsome := (SliceMap.tryExtend_isSome_iff htrace.inv hin').mpr hfull
    rw [hgrow] at hgrants
    exact ⟨fun _ => ⟨hmay, hgrants.mp rfl⟩, fun _ => hsome⟩

theorem extendWithGrowth_isSome_iff (hcont : Memory.Contiguous M) (policy : GrowPolicy)
    (hinv : s.map.Inv) (hin : s.map.Inside start count) (hend : start + count ≤ sizeSlices s.mem) :
    (s.extendWithGrowth policy start count extra).1.isSome = true ↔
      s.map.TailFree start count extra ∨
      (s.MayGrow start count extra ∧ Memory.Grants s.mem (s.tailRequest policy start count extra)
        (s.missing start count extra)) := by
  obtain ⟨hsome, hnone⟩ := @SliceMap.tryExtend_spec _ s.map start count extra hinv hin
  unfold extendWithGrowth tryExtend
  rcases htry : s.map.tryExtend start count extra with ⟨_ | z, m⟩
  · obtain ⟨hm, hneed⟩ := hnone m htry
    simp only [hm]
    rw [or_iff_right hneed]
    exact growAndExtend_isSome_iff hcont policy hinv hin hend hneed
  · exact ⟨fun _ => Or.inl (hsome z m htry).1, fun _ => rfl⟩

theorem extendWithGrowth_none (hcont : Memory.Contiguous M) (policy : GrowPolicy)
    (hinv : s.map.Inv) (hin : s.map.Inside start count) (hend : start + count ≤ sizeSlices s.mem)
    (h : s.extendWithGrowth policy start count extra = (none, s1)) :
    s1.map = s.map ∧ sizeSlices s1.mem = sizeSlices s.mem ∧
      ∃ new, s1.calls = new ++ s.calls ∧ ∀ c ∈ new, c.got = none := by
  have hstay : ∃ new, s.calls = new ++ s.calls ∧ ∀ c ∈ new, c.got = none :=
    ⟨[], rfl, fun c hc => absurd hc List.not_mem_nil⟩
  obtain ⟨hsome, hnone⟩ := @SliceMap.tryExtend_spec _ s.map start count extra hinv hin
  unfold extendWithGrowth tryExtend at h
  rcases htry : s.map.tryExtend start count extra with ⟨_ | z, m⟩
  · obtain ⟨hm, hneed⟩ := hnone m htry
    have hfail := growAndExtend_isSome_iff hcont policy hinv hin hend hneed
    have hroad := growAndExtend_road policy hin hend hneed
    simp only [htry, hm] at h
    rw [show ({ map := s.map, mem := s.mem, bytes := s.bytes, calls := s.calls } : Supply M) = s from rfl] at h
    generalize s.growAndExtend policy start count extra = r at h hroad hfail
    subst h
    generalize hr : ((none, s1) : Option Bool × Supply M) = r at hroad hfail
    cases hroad with
    | barred hbar =>
      cases hr
      exact ⟨rfl, rfl, hstay⟩
    | refused hmay hgrow =>
      cases hr
      have hwant := (hmay.request policy hend hneed).2.2.1
      obtain ⟨hmap, c, rest, htrace, -, -, hrefused⟩ := growWant_none hinv hwant hgrow
      exact ⟨hmap, growWant_none_size hcont hgrow, c :: rest, htrace.calls, hrefused⟩
    | displaced hmay hgrow hregion => exact absurd (growWant_start hcont hgrow) hregion
    | joined hmay hgrow =>
      have hgrants := @growWant_isSome_iff _ _ s (.tail start count extra) (sizeSlices s.mem)
        (s.tailRequest policy start count extra) (s.missing start count extra)
      rw [hgrow] at hgrants
      have hsome := hfail.mpr ⟨hmay, hgrants.mp rfl⟩
      rw [← hr] at hsome
      cases hsome
  · rw [htry] at h
    cases h

end Supply

/-! ## The heap once its empty pages are gone -/

variable {live : List Block} {g g' : Ghost} {h h' : Heap M} {a start oldN newN : Nat} {layout newLayout : Layout}

/-- Slice `i` is free, or it will be once the empty pages are released. -/
def Heap.SweptFree (h : Heap M) (i : Nat) : Prop := h.slices.Free i ∨ h.OnEmptyPage i

/-- A run of `oldN` slices can grow to `newN` where it is: the slices after it are free once
    the empty pages are released, or all up to the end of memory are, and the backend grants
    those missing within the usable limit. -/
def Heap.CanStay (h : Heap M) (start oldN newN : Nat) : Prop :=
  (∀ i, InRun (start + oldN) (newN - oldN) i → h.SweptFree i) ∨
  ((∀ i, start + oldN ≤ i → i < sizeSlices h.mem → h.SweptFree i) ∧
    start + newN ≤ h.slices.usableLimit ∧
    Memory.Grants h.mem (h.supply.tailRequest h.policy start oldN (newN - oldN))
      (h.supply.missing start oldN (newN - oldN)))

/-- The lowest aligned slice of the tail of memory that is free once the empty pages are
    released, with room for `count` slices from it. -/
structure Heap.TailBottom (h : Heap M) (count align start : Nat) : Prop where
  least : Least (fun s => (s < h.slices.tailEnd (sizeSlices h.mem) ∧
    ∀ j, s ≤ j → j < h.slices.tailEnd (sizeSlices h.mem) → h.SweptFree j) ∧ align ∣ s) (some start)
  room : start + count ≤ h.slices.tailEnd (sizeSlices h.mem)

omit [Memory M] in
theorem Swept.base (hs : Swept h h') : h'.slices.base = h.slices.base := by rw [hs.frame]

omit [Memory M] in
theorem Swept.mem (hs : Swept h h') : h'.mem = h.mem := by rw [hs.frame]

omit [Memory M] in
theorem Swept.policy (hs : Swept h h') : h'.policy = h.policy := by rw [hs.frame]

omit [Memory M] in
theorem Swept.growLog (hs : Swept h h') : h'.growLog = h.growLog := by rw [hs.frame]

/-- `CanStay` is what `extend_with_growth` asks of the heap without its empty pages. -/
theorem Swept.canStay_iff (hs : Swept h h') (hlt : oldN < newN) :
    (h'.slices.TailFree start oldN (newN - oldN) ∨
      (h'.supply.MayGrow start oldN (newN - oldN) ∧
        Memory.Grants h'.mem (h'.supply.tailRequest h'.policy start oldN (newN - oldN))
          (h'.supply.missing start oldN (newN - oldN)))) ↔ h.CanStay start oldN newN := by
  have hlimit : h'.slices.usableLimit = h.slices.usableLimit :=
    (@Supply.limit_eq _ _ h.supply h'.supply hs.base).2
  have hstep : ∀ stop, growthStep h'.slices stop h'.policy = growthStep h.slices stop h.policy := by
    intro stop
    unfold growthStep
    rw [hs.base, hs.policy]
  have hmissing : h'.supply.missing start oldN (newN - oldN) = h.supply.missing start oldN (newN - oldN) := by
    unfold Supply.missing Heap.supply
    rw [hs.mem]
  have hrequest : h'.supply.tailRequest h'.policy start oldN (newN - oldN) =
      h.supply.tailRequest h.policy start oldN (newN - oldN) := by
    unfold Supply.tailRequest
    rw [hmissing]
    show min (max _ (growthStep h'.slices (sizeSlices h'.mem) h'.policy)) (h'.slices.usableLimit - sizeSlices h'.mem) = _
    rw [hstep, hlimit, hs.mem]
    rfl
  have hfits : start + oldN + (newN - oldN) = start + newN := by omega
  unfold Heap.CanStay SliceMap.TailFree Supply.MayGrow Supply.AtTop
  rw [hmissing, hrequest, hs.mem, and_assoc]
  show (_ ∨ (∀ i, start + oldN ≤ i → i < sizeSlices h'.mem → h'.slices.Free i) ∧
    start + oldN + (newN - oldN) ≤ h'.slices.usableLimit ∧ _) ↔ _
  rw [hs.mem, hlimit, hfits]
  simp only [hs.free]
  rfl

theorem tailBottom_iff {count align : Nat} (hfree : ∀ i, h'.slices.Free i ↔ h.SweptFree i)
    (hbase : h'.slices.base = h.slices.base) (hsize : sizeSlices h'.mem = sizeSlices h.mem) :
    h'.slices.Bottom count align (sizeSlices h'.mem) start ↔ h.TailBottom count align start := by
  have hend : h'.slices.tailEnd (sizeSlices h'.mem) = h.slices.tailEnd (sizeSlices h.mem) := by
    unfold SliceMap.tailEnd SliceMap.limit
    rw [hbase, hsize]
  have hiff : ∀ s, (h'.slices.FreeTail (sizeSlices h'.mem) s ∧ align ∣ s) ↔
      ((s < h.slices.tailEnd (sizeSlices h.mem) ∧
        ∀ j, s ≤ j → j < h.slices.tailEnd (sizeSlices h.mem) → h.SweptFree j) ∧ align ∣ s) := by
    intro s
    unfold SliceMap.FreeTail
    rw [hend]
    simp only [hfree]
  constructor
  · exact fun hb => { least := hb.least.congr hiff, room := hend ▸ hb.room }
  · exact fun hb => { least := hb.least.congr fun s => (hiff s).symm, room := hend ▸ hb.room }

/-! ## Growing a run -/

/-- The run could not grow: the empty pages are gone, and nothing was granted. -/
structure Stuck (h h' : Heap M) : Prop where
  free : ∀ i, h'.slices.Free i ↔ h.SweptFree i
  base : h'.slices.base = h.slices.base
  size : sizeSlices h'.mem = sizeSlices h.mem
  log : ∃ new, h'.growLog = new ++ h.growLog ∧ ∀ e ∈ new, e.call.got = none

variable [Memory.Contract M]

omit [Memory.Contract M] in
theorem run_inside (hi : Inv g h (⟨a, layout⟩ :: live)) (hold : classify layout = .huge) :
    h.slices.Inside (a / sliceSize) (hugeSlices layout) ∧
      a / sliceSize + hugeSlices layout ≤ sizeSlices h.mem := by
  obtain ⟨-, hrun, -, -⟩ := front_run hi hold
  have hpos := hugeSlices_pos layout
  have hown : ∀ i, InRun (a / sliceSize) (hugeSlices layout) i → g.place i ≠ .foreign := by
    intro i hin
    rw [(hrun i).mpr hin]
    simp
  refine ⟨hi.core.slices.inside_run hpos hown, ?_⟩
  generalize a / sliceSize = start at hown
  have hlast := hi.core.slices.lt (start + hugeSlices layout - 1) (hown _ ⟨by omega, by omega⟩)
  omega

/-- **Growing a run** after the map could not: it stays exactly if it can, and otherwise
    nothing but the empty pages is gone. -/
theorem growRun_stays (hcont : Memory.Contiguous M) (hi : Inv g h (⟨a, layout⟩ :: live))
    (hold : classify layout = .huge) (holdN : hugeSlices layout = oldN) (hlt : oldN < newN) :
    ((h.growRun a (a / sliceSize) oldN newN).1 = some a ↔ h.CanStay (a / sliceSize) oldN newN) ∧
    ∀ p h1, h.growRun a (a / sliceSize) oldN newN = (p, h1) → p = some a ∨ (p = none ∧ Stuck h h1) := by
  have hs := releaseEmptyPages_swept hi
  obtain ⟨g2, hi2, -⟩ := releaseEmptyPages_inv hi
  unfold Heap.growRun
  generalize h.releaseEmptyPages = h2 at *
  dsimp only
  obtain ⟨hin, hend⟩ := run_inside hi2 hold
  rw [holdN] at hin hend
  have hsome := @Supply.extendWithGrowth_isSome_iff _ _ _ h2.supply _ _ (newN - oldN) _ hcont h2.policy
    hi2.core.slices.inv hin hend
  have hcan := hsome.trans (hs.canStay_iff hlt)
  rcases hgrow : h2.supply.extendWithGrowth h2.policy (a / sliceSize) oldN (newN - oldN) with ⟨_ | z, s1⟩
  · rw [hgrow] at hcan
    obtain ⟨hmap, hsize, new, hcalls, hrefused⟩ := Supply.extendWithGrowth_none hcont h2.policy
      hi2.core.slices.inv hin hend hgrow
    refine ⟨⟨nofun, fun hc => absurd (hcan.mpr hc) nofun⟩, ?_⟩
    rintro p h1 ⟨⟩
    refine Or.inr ⟨rfl, ?_⟩
    have hslices : (h2.withSupply s1).slices = h2.slices := hmap
    refine { free := fun i => ?_, base := ?_, size := ?_, log := ⟨new.map h2.entry, ?_, fun e he => ?_⟩ }
    · rw [hslices]
      exact hs.free i
    · rw [hslices]
      exact hs.base
    · show sizeSlices s1.mem = _
      rw [hsize, ← hs.mem]
      rfl
    · show s1.calls.map h2.entry ++ h2.growLog = _
      rw [hcalls, hs.growLog]
      show (new ++ []).map h2.entry ++ _ = _
      rw [List.append_nil]
    · obtain ⟨c, hc, rfl⟩ := List.mem_map.mp he
      exact hrefused c hc
  · rw [hgrow] at hcan
    refine ⟨⟨fun _ => hcan.mp rfl, fun _ => rfl⟩, ?_⟩
    rintro p h1 ⟨⟩
    exact Or.inl rfl

/-! ## Moving a run -/

/-- The slices a run's alignment asks for. -/
def runAlign (layout : Layout) : Nat := max (divCeil layout.align sliceSize) 1

omit [Memory.Contract M] in
theorem moveBlock_acquired (hnew : classify newLayout = .huge) (hold : classify layout = .huge)
    (hs : 1 ≤ layout.size) {run : Run} {h1 : Heap M}
    (hacq : h.acquireRun (hugeSlices newLayout) (runAlign newLayout) true = (some run, h1)) :
    h.moveBlock a layout newLayout = (some (run.start * sliceSize),
      { h1 with
        slices := h1.slices.freeRun (a / sliceSize) (hugeSlices layout)
        history := h1.history.claimed (run.start * sliceSize) (hugeSlices newLayout)
        bytes := copy h1.bytes a (run.start * sliceSize) (min layout.size newLayout.size) }) := by
  unfold runAlign at hacq
  unfold Heap.moveBlock
  rw [hnew]
  simp only [Heap.allocHuge, hacq, Bool.false_and, Bool.false_eq_true, if_false]
  rw [dealloc_eq _ _ hs, Heap.deallocGeneric, hold]

omit [Memory.Contract M] in
theorem moveBlock_refused (hnew : classify newLayout = .huge) {h1 : Heap M}
    (hacq : h.acquireRun (hugeSlices newLayout) (runAlign newLayout) true = (none, h1)) :
    h.moveBlock a layout newLayout = (none, h1) := by
  unfold runAlign at hacq
  unfold Heap.moveBlock
  rw [hnew]
  simp only [Heap.allocHuge, hacq]

/-- What moving a run does, by whether it finds the bottom of the tail, another run, or none. -/
structure RunMoves (h : Heap M) (a oldN newN align : Nat) (r : Option Nat × Heap M) : Prop where
  apart : ∀ q, r.1 = some q → sliceSize ∣ q ∧
    ∀ i, InRun (q / sliceSize) newN i → ¬ InRun (a / sliceSize) oldN i
  refused : r.1 = none → (∀ i, h.SweptFree i → r.2.slices.Free i) ∧
    (∀ s, ¬ r.2.slices.Serves newN align s) ∧ SupplyEnded h r.2 newN align
  bottom : ∀ s, h.TailBottom newN align s → r.1 = some (s * sliceSize) ∧
    (∀ i, s + newN ≤ i → i < h.slices.tailEnd (sizeSlices h.mem) → r.2.slices.Free i) ∧
    sizeSlices r.2.mem = sizeSlices h.mem ∧
    ∃ new, r.2.growLog = new ++ h.growLog ∧ ∀ e ∈ new, e.call.got = none

/-- **A run that is stuck moves.** -/
theorem moveBlock_run {h1 : Heap M} (hst : Stuck h h1) (hi : Inv g h1 (⟨a, layout⟩ :: live))
    (hold : classify layout = .huge) (hnew : classify newLayout = .huge) :
    RunMoves h a (hugeSlices layout) (hugeSlices newLayout) (runAlign newLayout)
      (h1.moveBlock a layout newLayout) := by
  obtain ⟨k, hk, halign, -⟩ := hugeAlign newLayout
  have halign : runAlign newLayout = 2 ^ k := halign
  have hsize := (hi.core.blocks.block _ List.mem_cons_self).size_pos
  have hinit := hi.initialized List.mem_cons_self
  have hpos := hugeSlices_pos newLayout
  obtain ⟨new, hlog, hgot⟩ := hst.log
  obtain ⟨-, hrun, -, -⟩ := front_run hi hold
  obtain ⟨hinside, -⟩ := run_inside hi hold
  have hspec := acquireRun_spec hi hinit hpos hk true
  rw [← halign] at hspec
  refine { apart := fun q hq => ?_, refused := fun hno => ?_, bottom := fun s hb => ?_ }
  · rcases hspec with ⟨run, h2, g1, hacq, hcl⟩ | ⟨h2, g1, hacq, -⟩
    · rw [moveBlock_acquired hnew hold hsize hacq] at hq
      obtain rfl := Option.some.inj hq
      refine ⟨Dvd.intro_left _ rfl, fun i hi' hin => ?_⟩
      rw [Nat.mul_div_cancel _ (by decide : 0 < sliceSize)] at hi'
      have hfree := hcl.free i hi'
      rw [hcl.evolves.run i a ((hrun i).mpr hin)] at hfree
      cases hfree
    · rw [moveBlock_refused hnew hacq] at hq
      cases hq
  · rcases hspec with ⟨run, h2, g1, hacq, -⟩ | ⟨h2, g1, hacq, hx⟩
    · rw [moveBlock_acquired hnew hold hsize hacq] at hno
      cases hno
    · rw [moveBlock_refused hnew hacq]
      refine ⟨fun i hfree => ?_, hx.unserved, ?_⟩
      · have hplace := (hi.core.slices.free i).mp ((hst.free i).mpr hfree)
        exact (hx.inv.core.slices.free i).mpr (hx.evolves.free i hplace)
      · have hsuffix : h.growLog <:+ h1.growLog := ⟨new, hlog.symm⟩
        rcases hx.ended with ⟨e, rest, hcall, hrest, hend⟩ | ⟨e, rest, r, hcall, hrest, hend⟩ | hroom
        · exact Or.inl ⟨e, rest, hcall, hsuffix.trans hrest, hend⟩
        · exact Or.inr (Or.inl ⟨e, rest, r, hcall, hsuffix.trans hrest, hend⟩)
        · exact Or.inr (Or.inr hroom)
  · have hinv := hi.core.slices.inv
    have hbottom := (tailBottom_iff hst.free hst.base hst.size).mpr hb
    have hsome := (SliceMap.allocTail_isSome_iff hpos).mpr ⟨s, halign ▸ hbottom⟩
    rcases htail : h1.slices.allocTail (hugeSlices newLayout) (2 ^ k) (sizeSlices h1.mem) with ⟨_ | run, m⟩
    · rw [htail] at hsome
      cases hsome
    obtain ⟨hfound, htakes, hrest⟩ := SliceMap.allocTail_takes hinv hpos htail
    -- Both are the lowest aligned slice of the tail.
    have hstart : run.start = s := by
      rw [halign] at hbottom
      exact Option.some.inj (hfound.least.unique hbottom.least)
    have hacq : h1.acquireRun (hugeSlices newLayout) (runAlign newLayout) true =
        (some run, { h1 with slices := m }) := by
      unfold Heap.acquireRun
      simp only [if_true, halign, htail]
    have hinside' : m.Inside (a / sliceSize) (hugeSlices layout) := by
      unfold SliceMap.Inside SliceMap.limit at *
      rw [htakes.base]
      exact hinside
    have hgives := SliceMap.freeRun_gives htakes.inv hinside'
    have hend : h1.slices.tailEnd (sizeSlices h1.mem) = h.slices.tailEnd (sizeSlices h.mem) := by
      unfold SliceMap.tailEnd SliceMap.limit
      rw [hst.base, hst.size]
    rw [moveBlock_acquired hnew hold hsize hacq, hstart]
    refine ⟨rfl, fun i hlo hhi => ?_, hst.size, new, hlog, hgot⟩
    exact (hgives.free i).mpr (Or.inl (hrest i (hstart ▸ hlo) (hend ▸ hhi)))

/-! ## `realloc` of a run -/

/-- The slices `[start, start + count)` were given back, dirty, and nothing else changed. -/
structure Trims (h h' : Heap M) (start count : Nat) : Prop where
  taken : ∀ i, InRun start count i → ¬ h.slices.Free i
  free : ∀ i, h'.slices.Free i ↔ h.slices.Free i ∨ InRun start count i
  zero : ∀ i, h'.slices.Zero i ↔ h.slices.Zero i
  dirty : ∀ i, InRun start count i → ¬ h'.slices.Zero i
  frame : h' = { h with slices := h'.slices, history := h'.history }

/-- The free slices `[start, start + count)` were taken, and nothing else changed. -/
structure Claimed (h h' : Heap M) (start count : Nat) : Prop where
  free : ∀ i, h'.slices.Free i ↔ h.slices.Free i ∧ ¬ InRun start count i
  frame : h' = { h with slices := h'.slices, history := h'.history }

/-- What `realloc` of a run to `newN` slices does. -/
structure ResizesRun (h : Heap M) (blk : Block) (newN align : Nat) (r : Option Nat × Heap M) : Prop where
  shrinks : newN ≤ hugeSlices blk.layout → r.1 = some blk.addr ∧
    Trims h r.2 (blk.addr / sliceSize + newN) (hugeSlices blk.layout - newN)
  stays : hugeSlices blk.layout < newN →
    (r.1 = some blk.addr ↔ h.CanStay (blk.addr / sliceSize) (hugeSlices blk.layout) newN)
  direct : hugeSlices blk.layout < newN →
    h.slices.TailFree (blk.addr / sliceSize) (hugeSlices blk.layout) (newN - hugeSlices blk.layout) →
    Claimed h r.2 (blk.addr / sliceSize + hugeSlices blk.layout) (newN - hugeSlices blk.layout)
  moves : hugeSlices blk.layout < newN →
    ¬ h.CanStay (blk.addr / sliceSize) (hugeSlices blk.layout) newN →
    RunMoves h blk.addr (hugeSlices blk.layout) newN align r

theorem resizeInPlace_grows (hcont : Memory.Contiguous M) (hi : Inv g h (⟨a, layout⟩ :: live))
    (hold : classify layout = .huge) (hnew : classify newLayout = .huge)
    (hlt : hugeSlices layout < hugeSlices newLayout) :
    ((h.resizeInPlace a layout newLayout).1 = some a ↔
      h.CanStay (a / sliceSize) (hugeSlices layout) (hugeSlices newLayout)) ∧
    (h.slices.TailFree (a / sliceSize) (hugeSlices layout) (hugeSlices newLayout - hugeSlices layout) →
      Claimed h (h.resizeInPlace a layout newLayout).2 (a / sliceSize + hugeSlices layout)
        (hugeSlices newLayout - hugeSlices layout)) ∧
    ∀ p h1, h.resizeInPlace a layout newLayout = (p, h1) → p = some a ∨ (p = none ∧ Stuck h h1) := by
  obtain ⟨hinside, -⟩ := run_inside hi hold
  obtain ⟨hsome, hnone⟩ := @SliceMap.tryExtend_spec _ _ _ _ (hugeSlices newLayout - hugeSlices layout)
    hi.core.slices.inv hinside
  rw [resizeInPlace_huge hold hnew rfl rfl, if_neg (Nat.ne_of_gt hlt), if_neg (Nat.lt_asymm hlt)]
  rcases htry : h.slices.tryExtend (a / sliceSize) (hugeSlices layout)
    (hugeSlices newLayout - hugeSlices layout) with ⟨_ | z, m⟩
  · obtain ⟨rfl, hneed⟩ := hnone m htry
    obtain ⟨hiff, hends⟩ := growRun_stays hcont hi hold rfl hlt
    exact ⟨hiff, fun htail => absurd htail hneed, hends⟩
  · obtain ⟨htail, -, htakes, -⟩ := hsome z m htry
    have hcan : h.CanStay (a / sliceSize) (hugeSlices layout) (hugeSlices newLayout) :=
      Or.inl fun i hi' => Or.inl (htail i hi')
    refine ⟨⟨fun _ => hcan, fun _ => rfl⟩, fun _ => { free := htakes.free, frame := rfl }, ?_⟩
    rintro p h1 ⟨⟩
    exact Or.inl rfl

omit [Memory.Contract M] in
theorem resizeInPlace_shrinks (hi : Inv g h (⟨a, layout⟩ :: live)) (hold : classify layout = .huge)
    (hnew : classify newLayout = .huge) (hle : hugeSlices newLayout ≤ hugeSlices layout) :
    (h.resizeInPlace a layout newLayout).1 = some a ∧
      Trims h (h.resizeInPlace a layout newLayout).2 (a / sliceSize + hugeSlices newLayout)
        (hugeSlices layout - hugeSlices newLayout) := by
  obtain ⟨-, hrun, -, -⟩ := front_run hi hold
  obtain ⟨hinside, -⟩ := run_inside hi hold
  have htaken : ∀ i, InRun (a / sliceSize + hugeSlices newLayout)
      (hugeSlices layout - hugeSlices newLayout) i → ¬ h.slices.Free i := by
    intro i hin hfree
    have hown : g.place i = .run a := by
      refine (hrun i).mpr ?_
      unfold InRun at hin ⊢
      simp only
      omega
    rw [hi.core.slices.free, hown] at hfree
    cases hfree
  rw [resizeInPlace_huge hold hnew rfl rfl]
  rcases Nat.eq_or_lt_of_le hle with heq | hlt
  · rw [if_pos heq]
    have hnot : ∀ i, ¬ InRun (a / sliceSize + hugeSlices newLayout)
        (hugeSlices layout - hugeSlices newLayout) i := by
      unfold InRun
      omega
    exact ⟨rfl, { taken := htaken, free := fun i => (or_iff_left (hnot i)).symm, zero := fun _ => Iff.rfl
                  dirty := fun i hin => absurd hin (hnot i), frame := rfl }⟩
  · rw [if_neg (Nat.ne_of_lt hlt), if_pos hlt]
    have hgives := SliceMap.shrink_gives hi.core.slices.inv hinside hlt
    refine ⟨rfl, { taken := htaken, free := hgives.free, zero := hgives.zero
                   dirty := fun i hin hz => ?_, frame := rfl }⟩
    exact htaken i hin (((hgives.zero i).mp hz).free hi.core.slices.inv)

/-- **When a run stays in place**, over a backend that grows contiguously: not larger, it
    keeps its address and exactly its trailing slices become free. Larger, it stays exactly
    if it can once the empty pages are gone, which stay if the slices after it were free
    as they stood. Otherwise it moves, to the bottom of the free tail where that has room, or,
    where no run is to be had, `realloc` refuses. -/
theorem run_stays_exact {c : Config M} {blk : Block} {newSize : Nat} (hcont : Memory.Contiguous M)
    (hc : Reachable c) (hm : blk ∈ c.live) (hs : 1 ≤ newSize)
    (fits : newSize + blk.layout.align ≤ usizeSize / 2) (hold : classify blk.layout = .huge)
    (hnew : classify (blk.layout.withSize newSize fits) = .huge) :
    ResizesRun c.heap blk (hugeSlices (blk.layout.withSize newSize fits)) (runAlign blk.layout)
      (c.heap.realloc blk.addr blk.layout newSize fits) := by
  obtain ⟨g, hi0⟩ := reachable_ok hc
  have hi : Inv g c.heap (⟨blk.addr, blk.layout⟩ :: c.live.erase blk) := hi0.perm (List.perm_cons_erase hm)
  have hs0 := (hi.core.blocks.block _ List.mem_cons_self).size_pos
  have halign : (blk.layout.withSize newSize fits).align = blk.layout.align := rfl
  have hresized : Resized (c.live.erase blk) g c.heap ⟨blk.addr, blk.layout⟩ (blk.layout.withSize newSize fits)
      (c.heap.resizeInPlace blk.addr blk.layout (blk.layout.withSize newSize fits)) :=
    resizeInPlace_resized hi hs halign
  -- A block of the direct table is no run.
  have hslot : ¬ (blk.layout.align ≤ word ∧ blk.layout.size ≤ directMaxSize ∧ newSize ≤ directMaxSize ∧
      directIndex blk.layout.size = directIndex newSize) := by
    intro hslot
    obtain ⟨n, hbin, -⟩ := same_slot fits hs0 hs hslot
    rw [hold] at hbin
    cases hbin
  unfold Heap.realloc
  rw [if_neg hslot]
  simp only
  rcases Nat.lt_or_ge (hugeSlices blk.layout) (hugeSlices (blk.layout.withSize newSize fits)) with hlt | hle
  · obtain ⟨hiff, hdirect, hends⟩ := resizeInPlace_grows hcont hi hold hnew hlt
    rcases hr : c.heap.resizeInPlace blk.addr blk.layout (blk.layout.withSize newSize fits) with ⟨p, h1⟩
    rw [hr] at hiff hdirect hresized
    rcases hends p h1 hr with rfl | ⟨rfl, hst⟩
    · exact { shrinks := fun hle => absurd hle (Nat.not_le.mpr hlt), stays := fun _ => hiff
              direct := fun _ => hdirect, moves := fun _ hno => absurd (hiff.mp rfl) hno }
    · rcases hresized with ⟨q, h2, g2, he, -⟩ | ⟨h2, g2, he, hi2, -⟩
      · cases he
      · cases he
        have hmoves := moveBlock_run hst hi2 hold hnew
        have hno : ¬ c.heap.CanStay (blk.addr / sliceSize) (hugeSlices blk.layout)
            (hugeSlices (blk.layout.withSize newSize fits)) := by
          intro hcan
          cases hiff.mpr hcan
        refine { shrinks := fun hle => absurd hle (Nat.not_le.mpr hlt), stays := fun _ => ?_
                 direct := fun _ htail => ?_, moves := fun _ _ => hmoves }
        · -- A run that moved lies elsewhere.
          refine ⟨fun hsame => ?_, fun hcan => absurd hcan hno⟩
          have hfirst : ∀ n, 1 ≤ n → InRun (blk.addr / sliceSize) n (blk.addr / sliceSize) := fun n hn =>
            ⟨Nat.le_refl _, by omega⟩
          exact absurd (hfirst _ (hugeSlices_pos _)) ((hmoves.apart _ hsame).2 _ (hfirst _ (hugeSlices_pos _)))
        · exact absurd (Or.inl fun i hi' => Or.inl (htail i hi')) hno
  · obtain ⟨hsame, htrims⟩ := resizeInPlace_shrinks hi hold hnew hle
    rcases hr : c.heap.resizeInPlace blk.addr blk.layout (blk.layout.withSize newSize fits) with ⟨p, h1⟩
    rw [hr] at hsame htrims
    simp only at hsame htrims
    subst hsame
    exact { shrinks := fun _ => ⟨rfl, htrims⟩, stays := fun hlt => absurd hle (Nat.not_le.mpr hlt)
            direct := fun hlt => absurd hle (Nat.not_le.mpr hlt)
            moves := fun hlt => absurd hle (Nat.not_le.mpr hlt) }

end

end Wasmalloc

namespace Wasmalloc.Sample

/-- A run of two slices, with one free slice after it and no memory left to grow. -/
def running : Config SimMemory := start.step (.alloc huge)

theorem running_reachable : Reachable running :=
  reachable_step start_reachable (start_allowed huge (by decide)).1

theorem running_mem : ⟨131072, huge⟩ ∈ running.live := by
  have hlive : running.live = [⟨131072, huge⟩] := by decide +kernel
  rw [hlive]
  exact List.mem_singleton_self _

/-- The free slice serves a growth by one. -/
theorem running_stays :
    ResizesRun running.heap ⟨131072, huge⟩ (hugeSlices (huge.withSize 140000 (by decide))) (runAlign huge)
      (running.heap.realloc 131072 huge 140000 (by decide)) ∧
    (running.heap.realloc 131072 huge 140000 (by decide)).1 = some 131072 := by
  exact ⟨run_stays_exact SimMemory.capped.contiguous running_reachable running_mem (by decide) (by decide)
    (by decide +kernel) (by decide +kernel), by decide +kernel⟩

/-- Two slices more are not to be had: the run neither stays nor moves. -/
theorem running_refused : Reachable running ∧ ⟨131072, huge⟩ ∈ running.live ∧
    classify huge = .huge ∧ classify (huge.withSize 200000 (by decide)) = .huge ∧
    hugeSlices huge < hugeSlices (huge.withSize 200000 (by decide)) ∧
    (running.heap.realloc 131072 huge 200000 (by decide)).1 = none :=
  ⟨running_reachable, running_mem, by decide +kernel, by decide +kernel, by decide +kernel, by decide +kernel⟩

end Wasmalloc.Sample
