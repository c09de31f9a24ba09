import Wasmalloc.Acquire

/- Growing a run in place under an adversarial backend.

   `Extends` tells what `extend_with_growth` does by the calls of `grow` it makes: when it
   makes one, how much it asks for, and what the sets of the map are afterwards, for every
   exit of the function. -/
namespace Wasmalloc

section
variable [Build] {M : Type}

namespace Supply
variable [Memory M]

/-- Every slice from the run's end to the end of memory is free. -/
def AtTop (s : Supply M) (start count : Nat) : Prop :=
  ∀ i, start + count ≤ i → i < sizeSlices s.mem → s.map.Free i

/-- What `extend_with_growth` does, told by the calls of `grow` it makes, newest first. -/
structure Extends (s : Supply M) (start count extra : Nat) (r : Option Bool × Supply M)
    (new : List GrowCall) : Prop where
  calls : r.2.calls = new ++ s.calls
  inv : r.2.map.Inv
  free : s.map.TailFree start count extra → new = [] ∧ r.1.isSome = true
  needed : new ≠ [] → s.AtTop start count ∧ sizeSlices s.mem - (start + count) < extra ∧
    sizeSlices s.mem ≤ s.map.usableLimit
  asked : ∀ c ∈ new, c.stop = sizeSlices s.mem ∧ 1 ≤ c.want ∧
    c.stop + c.want ≤ s.map.usableLimit
  sets : (s.map.sets.granted s.map.usableLimit new).Extend s.map.limit (start + count) extra r.1
    r.2.map.sets
  own : ∀ i, InRun start count i → ¬ r.2.map.Free i
  failed : r.1 = none → ∀ c ∈ new, ∀ a, c.got = some a → a ≠ sizeSlices s.mem
  reached : s.AtTop start count → start + count + extra ≤ s.map.usableLimit →
    r.1.isSome = true ∨ ∃ c rest, new = c :: rest ∧
      ((c.got = none ∧ c.stop + c.want = start + count + extra) ∨
        ∃ a, c.got = some a ∧ a ≠ sizeSlices s.mem)

section Extend
variable [Memory.Contract M] {s s1 : Supply M} {new : List GrowCall} {start count extra : Nat}

omit [Build] [Memory M] [Memory.Contract M] in
theorem not_extend {limit : Nat} {t : Sets} (h : ¬ slicesOf (start + count) extra ⊆ t.free) :
    t.Extend limit (start + count) extra none t :=
  ⟨fun hboth => h hboth.2, rfl⟩

omit [Memory.Contract M] in
/-- The run's own slices lie below the old end, so growths leave them alone. -/
theorem Traced.own (h : Traced s s1 new) (hend : start + count ≤ sizeSlices s.mem)
    (hout : ∀ i, InRun start count i → ¬ s.map.Free i) {i : Nat} (hi : InRun start count i) :
    ¬ s1.map.Free i := by
  have hlt : i < sizeSlices s.mem := by
    unfold InRun at hi
    omega
  rw [h.below hlt]
  exact hout i hi

omit [Memory.Contract M] in
/-- No call was made: the run is not at the top, or what is missing does not fit. -/
theorem Extends.unchanged (hinv : s.map.Inv) (hout : ∀ i, InRun start count i → ¬ s.map.Free i)
    (hneed : ¬ s.map.TailFree start count extra)
    (hreach : s.AtTop start count → ¬ start + count + extra ≤ s.map.usableLimit) :
    Extends s start count extra (none, s) [] where
  calls := rfl
  inv := hinv
  free := fun h => absurd h hneed
  needed := fun h => absurd rfl h
  asked := fun c hc => absurd hc List.not_mem_nil
  sets := by
    rw [Sets.granted_nil]
    exact not_extend hneed
  own := hout
  failed := fun _ c hc => absurd hc List.not_mem_nil
  reached := fun htop hfit => absurd hfit (hreach htop)

/-! ## The roads -/

/-- The slices that the extension lacks below the end of memory. -/
def missing (s : Supply M) (start count extra : Nat) : Nat :=
  extra - (sizeSlices s.mem - (start + count))

/-- The first request for them: the geometric step if that is larger and fits. -/
def tailRequest (s : Supply M) (policy : GrowPolicy) (start count extra : Nat) : Nat :=
  min (max (s.missing start count extra) (growthStep s.map (sizeSlices s.mem) policy))
    (s.map.usableLimit - sizeSlices s.mem)

/-- The run is at the top, and what is missing fits below the usable limit. -/
def MayGrow (s : Supply M) (start count extra : Nat) : Prop :=
  s.AtTop start count ∧ start + count + extra ≤ s.map.usableLimit

/-- The roads through `growAndExtend`, with the tests passed on each. -/
inductive GrewTail (s : Supply M) (policy : GrowPolicy) (start count extra : Nat) :
    Option Bool × Supply M → Prop where
  | barred : ¬ s.MayGrow start count extra → GrewTail s policy start count extra (none, s)
  | refused {s1 : Supply M} : s.MayGrow start count extra →
    s.growWant (.tail start count extra) (sizeSlices s.mem) (s.tailRequest policy start count extra)
      (s.missing start count extra) = (none, s1) →
    GrewTail s policy start count extra (none, s1)
  | displaced {s1 : Supply M} {region got : Nat} : s.MayGrow start count extra →
    s.growWant (.tail start count extra) (sizeSlices s.mem) (s.tailRequest policy start count extra)
      (s.missing start count extra) = (some (region, got), s1) →
    region ≠ sizeSlices s.mem →
    GrewTail s policy start count extra (none, s1.addRegion region got)
  | joined {s1 : Supply M} {got : Nat} : s.MayGrow start count extra →
    s.growWant (.tail start count extra) (sizeSlices s.mem) (s.tailRequest policy start count extra)
      (s.missing start count extra) = (some (sizeSlices s.mem, got), s1) →
    GrewTail s policy start count extra
      ((s1.addRegion (sizeSlices s.mem) got).tryExtend start count extra)

omit [Memory.Contract M] in
theorem AtTop.short (htop : s.AtTop start count) (hneed : ¬ s.map.TailFree start count extra) :
    sizeSlices s.mem < start + count + extra := by
  by_contra hcon
  refine hneed fun i hi => htop i hi.1 ?_
  unfold InRun at hi
  omega

omit [Memory.Contract M] in
theorem growAndExtend_road (policy : GrowPolicy) (hin : s.map.Inside start count)
    (hend : start + count ≤ sizeSlices s.mem) (hneed : ¬ s.map.TailFree start count extra) :
    GrewTail s policy start count extra (s.growAndExtend policy start count extra) := by
  have hbelow : s.map.base ≤ start + count := by
    unfold SliceMap.Inside at hin
    omega
  have hiff : s.map.runIsFree (start + count) (sizeSlices s.mem - (start + count)) = true ↔
      s.AtTop start count := by
    rw [SliceMap.runIsFree_iff hbelow]
    unfold AtTop InRun
    exact ⟨fun h i hlo hhi => h i ⟨hlo, by omega⟩, fun h i hi => h i hi.1 (by omega)⟩
  unfold growAndExtend
  simp only
  -- The end of the run is beyond memory, or memory beyond the limit.
  by_cases hlim : sizeSlices s.mem < start + count ∨ s.map.usableLimit < sizeSlices s.mem
  · rw [if_pos hlim]
    refine .barred fun ⟨htop, hfit⟩ => ?_
    have hshort := htop.short hneed
    omega
  rw [if_neg hlim]
  -- Something above the run is in use: growing cannot lengthen it.
  by_cases hblock : extra ≤ sizeSlices s.mem - (start + count) ∨
      s.map.runIsFree (start + count) (sizeSlices s.mem - (start + count)) = false
  · rw [if_pos hblock]
    refine .barred fun ⟨htop, hfit⟩ => ?_
    have hshort := htop.short hneed
    rcases hblock with hle | hno
    · omega
    · rw [hiff.mpr htop] at hno
      cases hno
  rw [if_neg hblock]
  rw [not_or, Bool.not_eq_false, hiff] at hblock
  obtain ⟨hmissing, htop⟩ := hblock
  -- What is missing does not fit below the limit.
  by_cases hroom : s.map.usableLimit - sizeSlices s.mem <
      extra - (sizeSlices s.mem - (start + count))
  · rw [if_pos hroom]
    exact .barred fun ⟨_, hfit⟩ => by omega
  rw [if_neg hroom]
  have hmay : s.MayGrow start count extra := ⟨htop, by omega⟩
  rcases hgrow : s.growWant (.tail start count extra) (sizeSlices s.mem)
    (min (max (extra - (sizeSlices s.mem - (start + count)))
      (growthStep s.map (sizeSlices s.mem) policy)) (s.map.usableLimit - sizeSlices s.mem))
    (extra - (sizeSlices s.mem - (start + count))) with ⟨_ | ⟨region, got⟩, s1⟩
  · exact .refused hmay hgrow
  · simp only
    by_cases hregion : region = sizeSlices s.mem
    · subst hregion
      rw [if_neg (not_not.mpr rfl)]
      exact .joined hmay hgrow
    · rw [if_pos hregion]
      exact .displaced hmay hgrow hregion

omit [Memory.Contract M] in
/-- Where the run may grow, what is missing ends at the new end of the run, and the first
    request asks for no less and fits. -/
theorem MayGrow.request (hmay : s.MayGrow start count extra) (policy : GrowPolicy)
    (hend : start + count ≤ sizeSlices s.mem) (hneed : ¬ s.map.TailFree start count extra) :
    1 ≤ s.missing start count extra ∧
    sizeSlices s.mem + s.missing start count extra = start + count + extra ∧
    s.missing start count extra ≤ s.tailRequest policy start count extra ∧
    sizeSlices s.mem + s.tailRequest policy start count extra ≤ s.map.usableLimit := by
  have hshort := hmay.1.short hneed
  have hfit := hmay.2
  unfold tailRequest missing
  omega

theorem joined_tailFree {got : Nat} (policy : GrowPolicy) (hinv : s.map.Inv)
    (hend : start + count ≤ sizeSlices s.mem) (hbase : s.map.base ≤ sizeSlices s.mem)
    (hneed : ¬ s.map.TailFree start count extra) (hmay : s.MayGrow start count extra)
    (hgrow : s.growWant (.tail start count extra) (sizeSlices s.mem)
      (s.tailRequest policy start count extra) (s.missing start count extra)
        = (some (sizeSlices s.mem, got), s1)) :
    (s1.addRegion (sizeSlices s.mem) got).map.TailFree start count extra := by
  have hneed' : ¬ (Need.tail start count extra).Servable s.map := hneed
  obtain ⟨-, hbare, hwant, -⟩ := hmay.request policy hend hneed
  obtain ⟨-, c, rest, htrace, hgot, hlen, hask, -⟩ := growWant_some hinv hbase hneed' hwant hgrow
  intro i hi
  by_cases hlt : i < sizeSlices s.mem
  · exact (htrace.below hlt).mpr (hmay.1 i hi.1 hlt)
  · have hfit := hmay.2
    have hmem : i ∈ (s.map.sets.granted s.map.usableLimit (c :: rest)).free := by
      refine Or.inr ⟨c, List.mem_cons_self, sizeSlices s.mem, hgot, ?_, ?_⟩
      · obtain ⟨-, hlo, -⟩ := hask c List.mem_cons_self
        unfold InRun at hi ⊢
        omega
      · unfold InRun at hi
        omega
    rw [← htrace.sets] at hmem
    exact hmem

theorem growAndExtend_exact (policy : GrowPolicy) (hinv : s.map.Inv) (hin : s.map.Inside start count)
    (hout : ∀ i, InRun start count i → ¬ s.map.Free i) (hend : start + count ≤ sizeSlices s.mem)
    (hfree : ∀ i, s.map.Free i → i < sizeSlices s.mem)
    (hneed : ¬ s.map.TailFree start count extra) :
    ∃ new, Extends s start count extra (s.growAndExtend policy start count extra) new := by
  have hbase : s.map.base ≤ sizeSlices s.mem := by
    unfold SliceMap.Inside at hin
    omega
  have hneed' : ¬ (Need.tail start count extra).Servable s.map := hneed
  have hroad := growAndExtend_road policy hin hend hneed
  -- What the calls ask for, on each road that makes one.
  have hasked : s.MayGrow start count extra → ∀ {calls : List GrowCall},
      Asked (sizeSlices s.mem) (s.missing start count extra) (s.tailRequest policy start count extra)
        calls → ∀ c ∈ calls, c.stop = sizeSlices s.mem ∧ 1 ≤ c.want ∧
        c.stop + c.want ≤ s.map.usableLimit := by
    intro hmay calls hask c hc
    obtain ⟨hpos, -, -, hroom⟩ := hmay.request policy hend hneed
    obtain ⟨hstop, hlo, hhi⟩ := hask c hc
    omega
  have hcalled : s.MayGrow start count extra → s.AtTop start count ∧
      sizeSlices s.mem - (start + count) < extra ∧ sizeSlices s.mem ≤ s.map.usableLimit := by
    intro hmay
    obtain ⟨hpos, -, -, hroom⟩ := hmay.request policy hend hneed
    unfold missing at hpos
    exact ⟨hmay.1, by omega, by omega⟩
  generalize s.growAndExtend policy start count extra = r at hroad ⊢
  cases hroad with
  | barred hbar => exact ⟨[], .unchanged hinv hout hneed fun htop hfit => hbar ⟨htop, hfit⟩⟩
  | @refused s1 hmay hgrow =>
    obtain ⟨-, hbare, hwant, -⟩ := hmay.request policy hend hneed
    obtain ⟨hmap, c, rest, htrace, hlast, hask, hnone⟩ := growWant_none hinv hwant hgrow
    have hsets := htrace.sets
    rw [hmap] at hsets
    have hstop := (hask c List.mem_cons_self).1
    refine ⟨c :: rest, { calls := htrace.calls, inv := htrace.inv, free := fun h => absurd h hneed
                         needed := fun _ => hcalled hmay, asked := hasked hmay hask, sets := ?_
                         own := fun i hi => htrace.own hend hout hi, failed := ?_
                         reached := ?_ }⟩
    · simp only
      rw [← hsets, hmap]
      exact not_extend hneed
    · intro _ d hd a hgot
      rw [hnone d hd] at hgot
      cases hgot
    · exact fun _ _ => Or.inr ⟨c, rest, rfl, Or.inl ⟨hnone c List.mem_cons_self, by omega⟩⟩
  | @displaced s1 region got hmay hgrow hregion =>
    obtain ⟨-, hbare, hwant, -⟩ := hmay.request policy hend hneed
    obtain ⟨hmap, c, rest, htrace, hgot, hlen, hask, hnone⟩ :=
      growWant_some hinv hbase hneed' hwant hgrow
    have hfresh := htrace.fresh c List.mem_cons_self region hgot
    -- The slice at the old end stays out of the map.
    have hhole : ¬ slicesOf (start + count) extra ⊆ (s1.addRegion region got).map.sets.free := by
      intro hsub
      have hshort := hmay.1.short hneed
      have hmem : sizeSlices s.mem ∈ slicesOf (start + count) extra := ⟨hend, hshort⟩
      have hin := hsub hmem
      rw [htrace.sets] at hin
      rcases hin with hold | ⟨d, hd, a, hgot', hrun, -⟩
      · have := hfree _ hold
        omega
      · rcases List.mem_cons.mp hd with rfl | hd
        · obtain rfl := Option.some.inj (hgot.symm.trans hgot')
          unfold InRun at hrun
          omega
        · rw [hnone d hd] at hgot'
          cases hgot'
    refine ⟨c :: rest, { calls := htrace.calls, inv := htrace.inv
                         free := fun h => absurd h hneed
                         needed := fun _ => hcalled hmay, asked := hasked hmay hask, sets := ?_
                         own := fun i hi => htrace.own hend hout hi, failed := ?_
                         reached := ?_ }⟩
    · simp only
      rw [← htrace.sets]
      exact not_extend hhole
    · intro _ d hd a hgot'
      rcases List.mem_cons.mp hd with rfl | hd
      · obtain rfl := Option.some.inj (hgot.symm.trans hgot')
        exact hregion
      · rw [hnone d hd] at hgot'
        cases hgot'
    · exact fun _ _ => Or.inr ⟨c, rest, rfl, Or.inr ⟨region, hgot, hregion⟩⟩
  | @joined s1 got hmay hgrow =>
    have hfull := joined_tailFree policy hinv hend hbase hneed hmay hgrow
    obtain ⟨-, hbare, hwant, -⟩ := hmay.request policy hend hneed
    obtain ⟨hmap, c, rest, htrace, hgot, hlen, hask, hnone⟩ :=
      growWant_some hinv hbase hneed' hwant hgrow
    generalize s1.addRegion (sizeSlices s.mem) got = s2 at htrace hfull ⊢
    have hin' : s2.map.Inside start count := by
      unfold SliceMap.Inside SliceMap.limit at *
      rw [htrace.base]
      exact hin
    obtain ⟨hextend, hinv', -⟩ := @SliceMap.tryExtend_extend _ _ start count extra htrace.inv hin'
    have hsome : (s2.map.tryExtend start count extra).1.isSome = true :=
      (SliceMap.tryExtend_isSome_iff htrace.inv hin').mpr hfull
    rw [htrace.sets, show s2.map.limit = s.map.limit from (limit_eq htrace.base).1] at hextend
    refine ⟨c :: rest, { calls := htrace.calls, inv := hinv', free := fun h => absurd h hneed
                         needed := fun _ => hcalled hmay, asked := hasked hmay hask, sets := hextend
                         own := fun i hi => ?_, failed := fun hnone' => ?_
                         reached := fun _ _ => Or.inl hsome }⟩
    · obtain ⟨z, hz⟩ := Option.isSome_iff_exists.mp hsome
      rw [hz] at hextend
      intro hfree'
      have hmem : i ∈ (s2.map.tryExtend start count extra).2.sets.free := hfree'
      rw [hextend.2.2, ← htrace.sets] at hmem
      exact htrace.own hend hout hi hmem.1
    · have hnone' : (s2.map.tryExtend start count extra).1 = none := hnone'
      rw [hnone'] at hsome
      cases hsome

/-- **`extend_with_growth` under an adversarial backend.** Where the map can extend the run it
    makes no call of `grow`. It makes one only for a run at the top of the heap, for what is
    missing or more, within the usable limit. The map gains exactly the regions granted, and
    loses exactly the new tail if that is claimed; the run's own slices stay its own. It fails
    after a grant only if the region started elsewhere, and for a run at the top whose missing
    slices fit only if the last request, for exactly those, was refused. -/
theorem extendWithGrowth_exact (policy : GrowPolicy) (hinv : s.map.Inv)
    (hin : s.map.Inside start count) (hout : ∀ i, InRun start count i → ¬ s.map.Free i)
    (hend : start + count ≤ sizeSlices s.mem) (hfree : ∀ i, s.map.Free i → i < sizeSlices s.mem)
    (extra : Nat) :
    ∃ new, Extends s start count extra (s.extendWithGrowth policy start count extra) new := by
  obtain ⟨hextend, hinv', -⟩ := @SliceMap.tryExtend_extend _ _ start count extra hinv hin
  obtain ⟨hsome, hnone⟩ := @SliceMap.tryExtend_spec _ s.map start count extra hinv hin
  unfold extendWithGrowth tryExtend
  rcases htry : s.map.tryExtend start count extra with ⟨_ | z, m⟩
  · obtain ⟨hm, hneed⟩ := hnone m htry
    simp only [hm]
    exact growAndExtend_exact policy hinv hin hout hend hfree hneed
  · rw [htry] at hextend hinv'
    refine ⟨[], { calls := rfl, inv := hinv', free := fun _ => ⟨rfl, rfl⟩
                  needed := fun h => absurd rfl h, asked := fun c hc => absurd hc List.not_mem_nil
                  sets := ?_, own := fun i hi hfree' => ?_, failed := nofun
                  reached := fun _ _ => Or.inl rfl }⟩
    · rw [Sets.granted_nil]
      exact hextend
    · have hmem : i ∈ m.sets.free := hfree'
      have hsets := hextend.2.2
      simp only at hsets
      rw [hsets] at hmem
      exact hout i hi hmem.1

end Extend

end Supply

end

namespace Sample
open Supply

/-- A run in slices 3 to 5 of `supply`, and everything above it free. -/
def below : Supply SimMemory := { supply with map := (map.alloc 3 1).2 }

/-- Nine slices more: six are free and three fresh ones are asked for. -/
theorem below_extends : (below.extendWithGrowth GrowPolicy.default 3 3 9).1 = some true ∧
    ∃ new, Supply.Extends below 3 3 9 (below.extendWithGrowth GrowPolicy.default 3 3 9) new := by
  have halloc : map.alloc 3 1 = (some ⟨3, true⟩, (map.alloc 3 1).2) :=
    Prod.ext (by decide +kernel) rfl
  have htakes := ((SliceMap.alloc_spec (k := 0) map_inv (by decide)).1 _ _ halloc).takes
  have hfree : ∀ i, below.map.Free i ↔ 6 ≤ i ∧ i < 12 := by
    intro i
    refine (htakes.free i).trans ?_
    rw [map_free_iff]
    unfold InRun
    simp only
    omega
  refine ⟨by decide +kernel, extendWithGrowth_exact (s := below) GrowPolicy.default htakes.inv
    ⟨by decide +kernel, by decide +kernel⟩ (fun i hi hf => ?_) (by decide) (fun i hi => ?_) 9⟩
  · have := (hfree i).mp hf
    unfold InRun at hi
    omega
  · exact ((hfree i).mp hi).2

end Sample

end Wasmalloc
