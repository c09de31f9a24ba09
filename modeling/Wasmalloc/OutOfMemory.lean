import Wasmalloc.Acquire

/- Running out of memory.

   Over a backend that grows contiguously up to a cap (`Capped`), `acquire` fails exactly if
   the map serves nothing and an aligned run right above the end of memory does not fit
   (`acquire_none_iff`). The free slices right below that end do not count, so a request that
   they and a smaller growth could serve together is refused: `acquire_honest_iff` says
   exactly when that happens. -/
namespace Wasmalloc
open Search

section
variable [Build] {M : Type}

namespace Supply
variable [Memory M]

/-- A backend that grows contiguously, and exactly as long as memory ends at or below `cap`. -/
structure Capped (M : Type) [Memory M] (cap : M → Nat) : Prop where
  granted : ∀ c n, sizeSlices c + n ≤ cap c → (Memory.grow c n).1 = some (sizeSlices c)
  refused : ∀ c n, cap c < sizeSlices c + n → (Memory.grow c n).1 = none ∧
    sizeSlices (Memory.grow c n).2 = sizeSlices c ∧ cap (Memory.grow c n).2 = cap c

/-- Some growth within the limits would let the free slices and the fresh ones serve the request. -/
def CouldServe (s : Supply M) (cap count align : Nat) : Prop :=
  ∃ g, sizeSlices s.mem + g ≤ min cap s.map.usableLimit ∧ ∃ a, align ∣ a ∧ ∀ i, InRun a count i →
    s.map.Free i ∨ (sizeSlices s.mem ≤ i ∧ i < sizeSlices s.mem + g)

/-- A run within the limits that begins in the free slices right below the end of memory. -/
def Straddles (s : Supply M) (cap count align : Nat) : Prop :=
  ∃ a, align ∣ a ∧ a < sizeSlices s.mem ∧ (∀ i, a ≤ i → i < sizeSlices s.mem → s.map.Free i) ∧
    a + count ≤ min cap s.map.usableLimit

section Capped
variable {cap : M → Nat} {s s1 : Supply M} {count align : Nat} {need : Need}

omit [Build] in
theorem Capped.growWant_none_iff (hcap : Capped M cap) {stop want needed : Nat} (hle : needed ≤ want) :
    (s.growWant need stop want needed).1 = none ↔ cap s.mem < sizeSlices s.mem + needed := by
  unfold growWant
  by_cases hwant : sizeSlices s.mem + want ≤ cap s.mem
  · have hgot : (s.grow need stop want).1 = some (sizeSlices s.mem) := hcap.granted _ _ hwant
    rcases hgrow : s.grow need stop want with ⟨got, s1⟩
    rw [hgrow] at hgot
    simp only at hgot
    subst hgot
    exact ⟨nofun, fun h => by omega⟩
  · obtain ⟨hgot, hsize, hkeep⟩ := hcap.refused s.mem want (by omega)
    have hgot : (s.grow need stop want).1 = none := hgot
    have hsize : sizeSlices (s.grow need stop want).2.mem = sizeSlices s.mem := hsize
    have hkeep : cap (s.grow need stop want).2.mem = cap s.mem := hkeep
    rcases hgrow : s.grow need stop want with ⟨got, s1⟩
    rw [hgrow] at hgot hsize hkeep
    simp only at hgot hsize hkeep
    subst hgot
    simp only
    by_cases hlt : needed < want
    · rw [if_pos hlt]
      by_cases hneed : sizeSlices s.mem + needed ≤ cap s.mem
      · have hgot2 : (s1.grow need stop needed).1 = some (sizeSlices s1.mem) :=
          hcap.granted _ _ (by rw [hsize, hkeep]; exact hneed)
        rcases hgrow2 : s1.grow need stop needed with ⟨got2, s2⟩
        rw [hgrow2] at hgot2
        simp only at hgot2
        subst hgot2
        exact ⟨nofun, fun h => by omega⟩
      · have hgot2 : (s1.grow need stop needed).1 = none :=
          (hcap.refused _ _ (by rw [hsize, hkeep]; omega)).1
        rcases hgrow2 : s1.grow need stop needed with ⟨got2, s2⟩
        rw [hgrow2] at hgot2
        simp only at hgot2
        subst hgot2
        exact ⟨fun _ => by omega, fun _ => rfl⟩
    · rw [if_neg hlt]
      exact ⟨fun _ => by omega, fun _ => rfl⟩

omit [Build] in
theorem Capped.contiguous (hcap : Capped M cap) : Memory.Contiguous M where
  granted := by
    intro c n r hgot
    by_cases hn : sizeSlices c + n ≤ cap c
    · rw [hcap.granted _ _ hn] at hgot
      exact (Option.some.inj hgot).symm
    · rw [(hcap.refused _ _ (by omega)).1] at hgot
      cases hgot
  refused := by
    intro c n hgot
    by_cases hn : sizeSlices c + n ≤ cap c
    · rw [hcap.granted _ _ hn] at hgot
      cases hgot
    · exact (hcap.refused _ _ (by omega)).2.1

variable [Memory.Contract M]

/-- After a failed search, the first request decides. -/
theorem Capped.growAndAlloc_none_iff (hcap : Capped M cap) (policy : GrowPolicy) {k : Nat}
    (hinv : s.map.Inv) (hbase : s.map.base ≤ sizeSlices s.mem) (hc : 1 ≤ count) (hk : k ≤ usizeBits)
    (hneed : ∀ start, ¬ s.map.Serves count (2 ^ k) start) :
    (s.growAndAlloc policy count (2 ^ k)).1 = none ↔
      min (cap s.mem) s.map.usableLimit < sizeSlices s.mem + s.bareRequest count (2 ^ k) := by
  have hfits := @firstRequest_fits _ _ _ s policy count (2 ^ k) hc
  have hnone := fun h => @Capped.growWant_none_iff _ _ _ s (.run count (2 ^ k)) hcap (sizeSlices s.mem) _ _
    (hfits h).2.1
  have hroad := growAndAlloc_road policy hbase hc hk
  generalize s.growAndAlloc policy count (2 ^ k) = r at hroad ⊢
  cases hroad with
  | full hfull => exact ⟨fun _ => by omega, fun _ => rfl⟩
  | refused hfit hgrow =>
    have hcapped := (hnone hfit).mp (by rw [hgrow])
    exact ⟨fun _ => by omega, fun _ => rfl⟩
  | served hfit hgrow halloc =>
    refine ⟨nofun, fun hlow => ?_⟩
    have hrefused := (hnone hfit).mpr (by omega)
    rw [hgrow] at hrefused
    cases hrefused
  | stuck hfit hgrow halloc hfull =>
    exact absurd (growWant_start hcap.contiguous hgrow)
      (growWant_stuck hinv hbase hc hneed hfit hgrow halloc).2.2.2.1
  | again hfit hgrow halloc hroom hgrow3 =>
    exact absurd (growWant_start hcap.contiguous hgrow)
      (growWant_stuck hinv hbase hc hneed hfit hgrow halloc).2.2.2.1

/-- **When `acquire` fails**: the map serves nothing, and an aligned run right above the end of
    memory does not fit. -/
theorem acquire_none_iff (hcap : Capped M cap) (policy : GrowPolicy) (hinv : s.map.Inv)
    (hbase : s.map.base ≤ sizeSlices s.mem) (hc : 1 ≤ count) (ha : PowerOfTwo align)
    (hlt : align < usizeSize) :
    (s.acquire policy count align).1 = none ↔ (∀ a, ¬ s.map.Serves count align a) ∧
      min (cap s.mem) s.map.usableLimit < PowTwo.roundUp (sizeSlices s.mem) align + count := by
  have hleast := SliceMap.alloc_least hinv hc ha
  obtain ⟨k, rfl⟩ := ha
  have hk : k ≤ usizeBits := Nat.le_of_lt ((Nat.pow_lt_pow_iff_right (by decide)).mp hlt)
  have hup := PowTwo.le_roundUp (x := sizeSlices s.mem) (Nat.two_pow_pos k)
  unfold acquire
  rcases halloc : s.map.alloc count (2 ^ k) with ⟨_ | run, m⟩
  · rw [halloc] at hleast
    rw [alloc_eq halloc]
    have hkeeps := ((SliceMap.alloc_spec (k := k) hinv hc).2 m halloc).1
    have hno : ∀ a, ¬ m.Serves count (2 ^ k) a := fun a hs =>
      hleast a ⟨fun i hi => (hkeeps.free i).mp (hs.free i hi), hs.aligned⟩
    have hiff := hcap.growAndAlloc_none_iff (s := { s with map := m }) policy hkeeps.inv
      (by rw [hkeeps.base]; exact hbase) hc hk hno
    refine hiff.trans ?_
    simp only [hkeeps.usableLimit]
    unfold bareRequest
    simp only
    rw [← Nat.add_assoc, Nat.add_sub_cancel' hup]
    exact ⟨fun h => ⟨hleast, h⟩, fun h => h.2⟩
  · rw [halloc] at hleast
    rw [alloc_eq halloc]
    exact ⟨nofun, fun h => absurd hleast.1 (h.1 _)⟩

omit [Memory.Contract M] in
/-- What the free slices and fresh ones can serve: a fit, a run above the end, or one across it. -/
theorem couldServe_iff (hfree : ∀ i, s.map.Free i → i < sizeSlices s.mem) (hc : 1 ≤ count)
    (hpos : 0 < align) (n : Nat) (hno : ∀ a, ¬ s.map.Serves count align a) :
    s.CouldServe n count align ↔
      PowTwo.roundUp (sizeSlices s.mem) align + count ≤ min n s.map.usableLimit ∨
      s.Straddles n count align := by
  have hup := PowTwo.le_roundUp (x := sizeSlices s.mem) hpos
  constructor
  · intro ⟨g, hg, a, hdvd, hrun⟩
    -- The last slice of the run is fresh, as the map alone does not serve it.
    have hend : sizeSlices s.mem < a + count ∧ a + count ≤ sizeSlices s.mem + g := by
      have hfresh : ∃ i, InRun a count i ∧ ¬ s.map.Free i := by
        by_contra hall
        refine hno a ⟨fun i hi => ?_, hdvd⟩
        by_contra hf
        exact hall ⟨i, hi, hf⟩
      obtain ⟨i, hi, hnot⟩ := hfresh
      have hi' := (hrun i hi).resolve_left hnot
      have hlast : InRun a count (a + count - 1) := ⟨by omega, by omega⟩
      unfold InRun at hi
      rcases hrun _ hlast with hf | hf
      · have := hfree _ hf
        omega
      · omega
    by_cases hlow : a < sizeSlices s.mem
    · refine Or.inr ⟨a, hdvd, hlow, fun i hlo hhi => ?_, by omega⟩
      exact (hrun i ⟨hlo, by omega⟩).resolve_right fun h => by omega
    · refine Or.inl ?_
      have hle := (PowTwo.roundUp_le (x := sizeSlices s.mem) hpos hdvd).mpr (by omega)
      omega
  · rintro (hfit | ⟨a, hdvd, hlow, htail, hfit⟩)
    · refine ⟨min n s.map.usableLimit - sizeSlices s.mem, by omega,
        PowTwo.roundUp (sizeSlices s.mem) align, PowTwo.dvd_roundUp _ _, fun i hi => Or.inr ?_⟩
      unfold InRun at hi
      omega
    · have hend : sizeSlices s.mem < a + count := by
        by_contra hcon
        refine hno a ⟨fun i hi => htail i hi.1 ?_, hdvd⟩
        unfold InRun at hi
        omega
      refine ⟨min n s.map.usableLimit - sizeSlices s.mem, by omega, a, hdvd, fun i hi => ?_⟩
      unfold InRun at hi
      by_cases hi' : i < sizeSlices s.mem
      · exact Or.inl (htail i hi.1 hi')
      · exact Or.inr ⟨by omega, by omega⟩

/-- **No spurious out-of-memory**, exactly unless the only run that could be served begins in
    the free slices right below the end of memory. -/
theorem acquire_honest_iff (hcap : Capped M cap) (policy : GrowPolicy) (hinv : s.map.Inv)
    (hbase : s.map.base ≤ sizeSlices s.mem) (hfree : ∀ i, s.map.Free i → i < sizeSlices s.mem)
    (hc : 1 ≤ count) (ha : PowerOfTwo align) (hlt : align < usizeSize) :
    ((s.acquire policy count align).1 = none → ¬ s.CouldServe (cap s.mem) count align) ↔
      (∃ a, s.map.Serves count align a) ∨
      PowTwo.roundUp (sizeSlices s.mem) align + count ≤ min (cap s.mem) s.map.usableLimit ∨
      ¬ s.Straddles (cap s.mem) count align := by
  have hnone := acquire_none_iff hcap policy hinv hbase hc ha hlt
  have hpos : 0 < align := by
    obtain ⟨k, rfl⟩ := ha
    exact Nat.two_pow_pos k
  by_cases hfit : ∃ a, s.map.Serves count align a
  · refine ⟨fun _ => Or.inl hfit, fun _ hn => ?_⟩
    obtain ⟨a, hs⟩ := hfit
    exact absurd hs ((hnone.mp hn).1 a)
  · have hno : ∀ a, ¬ s.map.Serves count align a := fun a hs => hfit ⟨a, hs⟩
    have hcould := couldServe_iff hfree hc hpos (cap s.mem) hno
    constructor
    · intro hprop
      by_cases hroom : PowTwo.roundUp (sizeSlices s.mem) align + count
          ≤ min (cap s.mem) s.map.usableLimit
      · exact Or.inr (Or.inl hroom)
      · refine Or.inr (Or.inr fun hst => ?_)
        exact hprop (hnone.mpr ⟨hno, by omega⟩) (hcould.mpr (Or.inr hst))
    · rintro (h | hroom | hst) hn
      · exact absurd h hfit
      · have hlow := (hnone.mp hn).2
        omega
      · rw [hcould]
        rintro (hroom | hst')
        · have hlow := (hnone.mp hn).2
          omega
        · exact hst hst'

end Capped

end Supply

theorem SimMemory.capped : Supply.Capped SimMemory fun c => c.firstSlice + c.capacitySlices where
  granted := fun c n (h : c.endSlice + n ≤ c.firstSlice + c.capacitySlices) => by
    show (c.grow n).1 = some c.endSlice
    unfold SimMemory.grow
    rw [dif_pos h]
  refused := fun c n (h : c.firstSlice + c.capacitySlices < c.endSlice + n) => by
    have hgrow : c.grow n = (none, c) := by
      unfold SimMemory.grow
      rw [dif_neg (Nat.not_le.mpr h)]
    refine ⟨?_, ?_, ?_⟩
    · show (c.grow n).1 = none
      rw [hgrow]
    · show (c.grow n).2.endSlice = c.endSlice
      rw [hgrow]
    · show (c.grow n).2.firstSlice + (c.grow n).2.capacitySlices = c.firstSlice + c.capacitySlices
      rw [hgrow]

end

namespace Sample
open Supply

/-- Eleven slices: the free nine and two fresh ones would do, but eleven fresh ones are asked for. -/
theorem supply_spurious : map.Inv ∧ (∀ i, map.Free i → i < sizeSlices supply.mem) ∧
    (supply.acquire GrowPolicy.default 11 1).1 = none ∧ supply.CouldServe 20 11 1 := by
  refine ⟨map_inv, fun i hi => ((map_free_iff i).mp hi).2, by decide +kernel, 2, by decide, 3,
    Nat.one_dvd 3, fun i hi => ?_⟩
  have hend : sizeSlices supply.mem = 12 := rfl
  rw [show supply.map = map from rfl, map_free_iff, hend]
  unfold InRun at hi
  omega

/-- Five slices from slice 16 on would end past the cap, and no slice below the end of memory is
    aligned to sixteen and free: the refusal is honest. -/
theorem supply_honest : (supply.acquire GrowPolicy.default 5 16).1 = none ∧ ¬ supply.CouldServe 20 5 16 := by
  have hrefused : (supply.acquire GrowPolicy.default 5 16).1 = none := by decide +kernel
  have hlow : ¬ supply.Straddles 20 5 16 := by
    rintro ⟨a, hdvd, hlt, hfree, -⟩
    have hend : a < 12 := hlt
    have hzero := (map_free_iff a).mp (hfree a (Nat.le_refl a) hlt)
    omega
  have hiff := acquire_honest_iff (s := supply) SimMemory.capped GrowPolicy.default map_inv (by decide)
    (fun i hi => ((map_free_iff i).mp hi).2) (by decide : 1 ≤ 5) ⟨4, rfl⟩ (by decide : 16 < usizeSize)
  exact ⟨hrefused, hiff.mpr (Or.inr (Or.inr hlow)) hrefused⟩

end Sample

end Wasmalloc
