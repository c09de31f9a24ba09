import Wasmalloc.Extend
import Wasmalloc.SliceChecks

/- What growing memory checks while it runs.

   The conditions of `acquire` and `extend_with_growth` of `slices.rs`, as in the module on
   the slice map. Two assertions are about the outcome: a region sized for any start serves
   the request, unless the usable limit clips it, and a region at the end of memory
   completes the tail.

   What is proved: every condition holds when the free slices lie below the end of
   memory, the map's end is a `usize` and the policy's divisor is positive. -/
namespace Wasmalloc
open Obligations

variable [Build] {M : Type}

/-- The replacement of a zero divisor replaces nothing. -/
def GrowPolicy.StepChecks (k : Check) (policy : GrowPolicy) : Prop :=
  asserts k (0 < policy.stepDivisor) ∧ guards k (max policy.stepDivisor 1 = policy.stepDivisor)

def AddRegionChecks (k : Check) (map : SliceMap) (start count : Nat) : Prop :=
  let stop := min (saturatingAdd start count) map.usableLimit
  map.UsableLimitChecks k ∧ (start < stop → map.AddFreeChecks k start (stop - start))

namespace Supply
variable [Memory M]

/-- The end of `growAndAlloc`, when the first region did not serve the request. -/
def RetryChecks (k : Check) (s : Supply M) (count align limit : Nat) : Prop :=
  computes k (1 ≤ align) ∧
  ∀ worst, checkedAdd count (align - 1) = some worst → worst ≤ limit - sizeSlices s.mem →
    ∀ start s1, s.grow (.run count align) (sizeSlices s.mem) worst = (some start, s1) →
      AddRegionChecks k s1.map start worst ∧
      (s1.addRegion start worst).map.AllocChecks k count align ∧
      ∀ run s2, (s1.addRegion start worst).alloc count align = (run, s2) →
        asserts k (run.isSome = true ∨ s2.map.usableLimit < start + worst) ∧
        (run = none → computes k (FitsUsize (start + worst)) ∧ s2.map.UsableLimitChecks k)

def GrowAndAllocChecks (k : Check) (s : Supply M) (policy : GrowPolicy) (count align : Nat) : Prop :=
  let limit := s.map.usableLimit
  let stop := sizeSlices s.mem
  asserts k (1 ≤ count) ∧ asserts k (PowerOfTwo align) ∧ s.map.UsableLimitChecks k ∧
  computes k (1 ≤ align) ∧
  ∀ needed, checkedAdd (wrappingNeg stop &&& (align - 1)) count = some needed →
    needed ≤ limit - stop →
    policy.StepChecks k ∧
    ∀ start got s1, s.growWant (.run count align) stop
        (min (max needed (growthStep s.map stop policy)) (limit - stop)) needed
          = (some (start, got), s1) →
      AddRegionChecks k s1.map start got ∧
      (s1.addRegion start got).map.AllocChecks k count align ∧
      ∀ s2, (s1.addRegion start got).alloc count align = (none, s2) →
        s2.RetryChecks k count align limit

def AcquireChecks (k : Check) (s : Supply M) (policy : GrowPolicy) (count align : Nat) : Prop :=
  s.map.AllocChecks k count align ∧
  ∀ s1, s.alloc count align = (none, s1) → s1.GrowAndAllocChecks k policy count align

def GrowAndExtendChecks (k : Check) (s : Supply M) (policy : GrowPolicy) (start count extra : Nat) :
    Prop :=
  let tail := start + count
  let stop := sizeSlices s.mem
  let limit := s.map.usableLimit
  asserts k (1 ≤ count ∧ 1 ≤ extra) ∧ computes k (FitsUsize (start + count)) ∧
  s.map.UsableLimitChecks k ∧
  (tail ≤ stop → stop ≤ limit → stop - tail < extra →
    s.map.RunIsFreeChecks k tail (stop - tail) ∧
    (s.map.runIsFree tail (stop - tail) = true → extra - (stop - tail) ≤ limit - stop →
      policy.StepChecks k ∧
      ∀ region got s1, s.growWant (.tail start count extra) stop
          (min (max (extra - (stop - tail)) (growthStep s.map stop policy)) (limit - stop))
          (extra - (stop - tail)) = (some (region, got), s1) →
        AddRegionChecks k s1.map region got ∧
        (region = stop →
          (s1.addRegion region got).map.TryExtendChecks k start count extra ∧
          asserts k (((s1.addRegion region got).tryExtend start count extra).1.isSome = true))))

def ExtendWithGrowthChecks (k : Check) (s : Supply M) (policy : GrowPolicy)
    (start count extra : Nat) : Prop :=
  s.map.TryExtendChecks k start count extra ∧
  ∀ s1, s.tryExtend start count extra = (none, s1) →
    s1.GrowAndExtendChecks k policy start count extra

end Supply

/-! ## Every condition holds -/

variable {k : Check} {policy : GrowPolicy}

omit [Build] in
theorem GrowPolicy.step_checks (hd : k ≠ .arithmetic → 0 < policy.stepDivisor) :
    policy.StepChecks k :=
  ⟨fun e => hd (by rw [e]; decide), fun e => Nat.max_eq_left (hd (by rw [e]; decide))⟩

theorem addRegion_checks (k : Check) {m : SliceMap} {start : Nat} (count : Nat) (hinv : m.Inv)
    (hfit : FitsUsize m.limit) (hbase : m.base ≤ start) (hfree : ∀ i, start ≤ i → ¬ m.Free i) :
    AddRegionChecks k m start count := by
  refine ⟨computes_of hfit, fun hlt => ?_⟩
  have hlim := m.usableLimit_le
  have hin : m.Inside start (min (saturatingAdd start count) m.usableLimit - start) := by
    unfold SliceMap.Inside
    omega
  exact SliceMap.addFree_checks k hinv hin.clipped fun i hi => hfree i hi.1

namespace Supply

variable [Memory M] [Memory.Contract M] {s s1 : Supply M} {need : Need} {count align : Nat}

/-- What growing relies on: the free slices lie below the end of memory, and the end of the
    map is a `usize`. -/
structure Bounded (s : Supply M) : Prop where
  inv : s.map.Inv
  base_le : s.map.base ≤ sizeSlices s.mem
  limit : FitsUsize s.map.limit
  free : ∀ i, s.map.Free i → i < sizeSlices s.mem

theorem grow_start {stop want start : Nat} (h : s.grow need stop want = (some start, s1)) :
    s1.map = s.map ∧ sizeSlices s.mem ≤ start ∧ start + want ≤ sizeSlices s1.mem := by
  obtain ⟨hgot, hs1⟩ := Prod.mk.inj h
  obtain ⟨hlo, hhi⟩ := Memory.Contract.grow_fresh _ _ _ hgot
  rw [← hs1]
  exact ⟨rfl, hlo, hhi⟩

theorem growWant_region {stop want needed start got : Nat}
    (h : s.growWant need stop want needed = (some (start, got), s1)) :
    s1.map = s.map ∧ sizeSlices s.mem ≤ start := by
  unfold growWant at h
  rcases hfirst : s.grow need stop want with ⟨_ | start1, s2⟩
  · rw [hfirst] at h
    have hmap : s2.map = s.map := by
      rw [← (Prod.mk.inj hfirst).2]
    have hsize : sizeSlices s.mem ≤ sizeSlices s2.mem := by
      rw [mem_of_grow hfirst]
      exact Memory.Contract.size_mono _ _
    simp only at h
    split at h
    · rcases hsecond : s2.grow need stop needed with ⟨_ | start2, s3⟩
      · rw [hsecond] at h
        cases h
      · rw [hsecond] at h
        cases h
        obtain ⟨hmap2, hlo, -⟩ := grow_start hsecond
        exact ⟨hmap2.trans hmap, le_trans hsize hlo⟩
    · cases h
  · rw [hfirst] at h
    cases h
    obtain ⟨hmap, hlo, -⟩ := grow_start hfirst
    exact ⟨hmap, hlo⟩

omit [Memory.Contract M] in
theorem Bounded.grown {N : Nat → Prop} (hb : s.Bounded) (hg : Grown s s1 need N) : s1.Bounded where
  inv := hg.inv
  base_le := by
    rw [hg.base]
    exact le_trans hb.base_le hg.size_le
  limit := by
    rw [(limit_eq hg.base).1]
    exact hb.limit
  free := by
    intro i hi
    rcases (hg.free i).mp hi with hf | hn
    · exact lt_of_lt_of_le (hb.free i hf) hg.size_le
    · exact hg.new_lt i hn

omit [Memory.Contract M] in
theorem Bounded.region_checks (k : Check) (hb : s.Bounded) {m : SliceMap} (hm : m = s.map)
    {start : Nat} (hstart : sizeSlices s.mem ≤ start) (got : Nat) : AddRegionChecks k m start got := by
  rw [hm]
  refine addRegion_checks k got hb.inv hb.limit (le_trans hb.base_le hstart) fun i hi hf => ?_
  have := hb.free i hf
  omega

/-- The second growth: **a region sized for any start serves the request**, unless the
    usable limit clips it. -/
theorem retry_checks (k : Check) {e limit : Nat} (hb : s.Bounded) (hc : 1 ≤ count)
    (hneed : ∀ start, ¬ s.map.Serves count (2 ^ e) start) : s.RetryChecks k count (2 ^ e) limit := by
  have hpos := Nat.two_pow_pos e
  refine ⟨computes_of hpos, fun worst hworst _ start s1 hgrow => ?_⟩
  obtain ⟨hmap, hlo, hhi⟩ := grow_start hgrow
  have hneed' : ¬ (Need.run count (2 ^ e)).Servable s.map := fun ⟨a, ha⟩ => hneed a ha
  obtain ⟨hgrown, -⟩ := grow_granted hb.inv hb.base_le hneed' hgrow
  have hb1 := hb.grown hgrown
  refine ⟨hb.region_checks k hmap hlo worst, SliceMap.alloc_checks k hb1.inv hb1.limit hc ⟨e, rfl⟩, ?_⟩
  intro run s2 halloc
  have hbase : s2.map.base = (s1.addRegion start worst).map.base := by
    obtain ⟨hrun, rfl⟩ := Prod.mk.inj halloc
    rcases hm : (s1.addRegion start worst).map.alloc count (2 ^ e) with ⟨run', m⟩
    cases run' with
    | none => exact ((SliceMap.alloc_spec hb1.inv hc).2 m hm).1.base
    | some r => exact ((SliceMap.alloc_spec hb1.inv hc).1 r m hm).takes.base
  have hlimit := limit_eq (hbase.trans hgrown.base)
  have hworst' : worst = count + (2 ^ e - 1) := by
    unfold checkedAdd at hworst
    split at hworst
    · exact (Option.some.inj hworst).symm
    · cases hworst
  refine ⟨asserts_of ?_, fun _ => ⟨computes_of ?_, computes_of ?_⟩⟩
  · cases run with
    | some r => exact Or.inl rfl
    | none =>
      refine Or.inr ?_
      rw [hlimit.2]
      by_contra hcon
      subst hworst'
      -- An unclipped region holds an aligned run wherever it starts.
      have hserves := retry_serves hgrown (Nat.le_of_not_lt hcon)
      have hisSome := (SliceMap.alloc_isSome hb1.inv hc ⟨e, rfl⟩).mpr ⟨_, hserves⟩
      rw [show ((s1.addRegion start _).map.alloc count (2 ^ e)).1 = none from
        (Prod.mk.inj halloc).1] at hisSome
      cases hisSome
  · exact lt_of_le_of_lt hhi (sizeSlices_lt s1.mem)
  · show FitsUsize s2.map.limit
    rw [hlimit.1]
    exact hb.limit

theorem growAndAlloc_checks (k : Check) {e : Nat} (hb : s.Bounded) (hd : policy.StepChecks k)
    (hc : 1 ≤ count) (he : e ≤ usizeBits) (hneed : ∀ start, ¬ s.map.Serves count (2 ^ e) start) :
    s.GrowAndAllocChecks k policy count (2 ^ e) := by
  have hpos := Nat.two_pow_pos e
  refine ⟨asserts_of hc, asserts_of ⟨e, rfl⟩, computes_of hb.limit, computes_of hpos, ?_⟩
  intro needed hneeded hroom
  refine ⟨hd, fun start got s1 hgrow => ?_⟩
  have hbare : needed = s.bareRequest count (2 ^ e) := by
    rw [pad_eq s.mem he] at hneeded
    unfold checkedAdd at hneeded
    split at hneeded
    · exact (Option.some.inj hneeded).symm
    · cases hneeded
  subst hbare
  obtain ⟨hmap, hlo⟩ := growWant_region hgrow
  have hneed' : ¬ (Need.run count (2 ^ e)).Servable s.map := fun ⟨a, ha⟩ => hneed a ha
  rcases growWant_spec hb.inv hb.base_le hneed' (sizeSlices s.mem) _ _ with
    ⟨s1', hg, -⟩ | ⟨s1', start', got', hg, -, hgrown, -⟩
  · rw [hgrow] at hg
    cases hg
  rw [hgrow] at hg
  cases hg
  have hb1 := hb.grown hgrown
  refine ⟨hb.region_checks k hmap hlo got, SliceMap.alloc_checks k hb1.inv hb1.limit hc ⟨e, rfl⟩, ?_⟩
  intro s2 halloc
  have hfit : sizeSlices s.mem + s.bareRequest count (2 ^ e) ≤ s.map.usableLimit := by
    have hle : count ≤ s.bareRequest count (2 ^ e) := Nat.le_add_left _ _
    omega
  obtain ⟨⟨N, hgrown2⟩, hno, -⟩ := growWant_stuck hb.inv hb.base_le hc hneed hfit hgrow halloc
  exact retry_checks k (hb.grown hgrown2) hc hno

/-- **`acquire`** -/
theorem acquire_checks (k : Check) {e : Nat} (hb : s.Bounded) (hd : policy.StepChecks k)
    (hc : 1 ≤ count) (he : e ≤ usizeBits) : s.AcquireChecks k policy count (2 ^ e) := by
  refine ⟨SliceMap.alloc_checks k hb.inv hb.limit hc ⟨e, rfl⟩, fun s1 halloc => ?_⟩
  rcases hm : s.map.alloc count (2 ^ e) with ⟨run, m⟩
  rw [alloc_eq hm] at halloc
  obtain ⟨rfl, rfl⟩ := Prod.mk.inj halloc
  obtain ⟨hkeeps, hno⟩ := (SliceMap.alloc_spec hb.inv hc).2 m hm
  have hgrown := (Grown.refl hb.inv (.run count (2 ^ e))).keeps hkeeps
  refine growAndAlloc_checks k (hb.grown hgrown) hd hc he fun a ha => hno a ?_
  exact { aligned := ha.aligned, free := fun i hi => (hkeeps.free i).mp (ha.free i hi) }

variable {start extra : Nat}

theorem growAndExtend_checks (k : Check) (hb : s.Bounded) (hd : policy.StepChecks k)
    (hc : 1 ≤ count) (hextra : 1 ≤ extra) (hin : s.map.Inside start count)
    (hend : start + count ≤ sizeSlices s.mem) (hout : ∀ i, InRun start count i → ¬ s.map.Free i)
    (hneed : ¬ s.map.TailFree start count extra) : s.GrowAndExtendChecks k policy start count extra := by
  have hsize := sizeSlices_lt s.mem
  refine ⟨asserts_of ⟨hc, hextra⟩, computes_of (lt_of_le_of_lt hend hsize), computes_of hb.limit, ?_⟩
  intro htail hlim hshort
  have hle := s.map.usableLimit_le
  have hin' : s.map.Inside (start + count) (sizeSlices s.mem - (start + count)) := by
    unfold SliceMap.Inside at *
    omega
  refine ⟨SliceMap.runIsFree_checks k hin', fun hfree hroom => ⟨hd, ?_⟩⟩
  intro region got s1 hgrow
  obtain ⟨hmap, hlo⟩ := growWant_region hgrow
  have hneed' : ¬ (Need.tail start count extra).Servable s.map := hneed
  refine ⟨hb.region_checks k hmap hlo got, fun hregion => ?_⟩
  rcases growWant_spec hb.inv hb.base_le hneed' (sizeSlices s.mem) _ _ with
    ⟨s1', hg, -⟩ | ⟨s1', start', got', hg, -, hgrown, -⟩
  · rw [hgrow] at hg
    cases hg
  rw [hgrow] at hg
  cases hg
  have hb1 := hb.grown hgrown
  have hin1 : (s1.addRegion region got).map.Inside start count := by
    unfold SliceMap.Inside SliceMap.limit at *
    rw [hgrown.base]
    exact hin
  have hout1 : ∀ i, InRun start count i → ¬ (s1.addRegion region got).map.Free i := by
    intro i hi hf
    rcases (hgrown.free i).mp hf with hf | hn
    · exact hout i hi hf
    · have := hgrown.new_ge i hn
      unfold InRun at hi
      omega
  refine ⟨SliceMap.tryExtend_checks k hc hin1 hout1 extra, asserts_of ?_⟩
  subst hregion
  have hmay : s.MayGrow start count extra := by
    have hbelow : s.map.base ≤ start + count := le_trans hin.1 (Nat.le_add_right _ _)
    have htop := (SliceMap.runIsFree_iff hbelow).mp hfree
    refine ⟨fun i hi hi' => htop i ⟨hi, by omega⟩, by omega⟩
  have htailFree := joined_tailFree policy hb.inv hend hb.base_le hneed hmay hgrow
  exact (SliceMap.tryExtend_isSome_iff hb1.inv hin1).mpr htailFree

/-- **`extend_with_growth`** -/
theorem extendWithGrowth_checks (k : Check) (hb : s.Bounded) (hd : policy.StepChecks k)
    (hc : 1 ≤ count) (hextra : 1 ≤ extra) (hin : s.map.Inside start count)
    (hend : start + count ≤ sizeSlices s.mem) (hout : ∀ i, InRun start count i → ¬ s.map.Free i) :
    s.ExtendWithGrowthChecks k policy start count extra := by
  refine ⟨SliceMap.tryExtend_checks k hc hin hout extra, fun s1 htry => ?_⟩
  obtain ⟨hnone, hs1⟩ := Prod.mk.inj htry
  rcases hm : s.map.tryExtend start count extra with ⟨z, m⟩
  rw [hm] at hnone hs1
  simp only at hnone hs1
  subst hnone
  obtain ⟨rfl, hneed⟩ := (SliceMap.tryExtend_spec hb.inv hin).2 m hm
  rw [← hs1]
  exact growAndExtend_checks k hb hd hc hextra hin hend hout hneed

end Supply

end Wasmalloc
