import Wasmalloc.Growth
import Wasmalloc.SliceSets

/- `acquire` under an adversarial backend.

   Any request for memory may be refused, and a granted region may start anywhere at or
   above the end of memory. What `acquire` does then is told by the calls of `grow` it
   makes: `Traced s s' new` says that the calls `new` lead from `s` to `s'`, and that the
   sets of the map gained exactly the regions granted, up to the usable limit. Every road
   through `growAndAlloc` is such a trace and a last search of the map (`acquire_exact`). -/
namespace Wasmalloc
open Search

section
variable [Build] {M : Type}

/-- The part of a granted region that the map can describe. -/
def GrowCall.region (limit : Nat) (c : GrowCall) : Set Nat :=
  {i | ∃ start, c.got = some start ∧ InRun start c.want i ∧ i < limit}

/-- The sets of a map with the regions granted to `calls`, free and zero. -/
def Sets.granted (limit : Nat) (calls : List GrowCall) (s : Sets) : Sets :=
  s.add {i | ∃ c ∈ calls, i ∈ c.region limit} true

/-- Every request is sized from `stop`, for at least `lo` and at most `hi` slices. -/
def Asked (stop lo hi : Nat) (calls : List GrowCall) : Prop :=
  ∀ c ∈ calls, c.stop = stop ∧ lo ≤ c.want ∧ c.want ≤ hi

omit [Build] in
theorem Sets.granted_nil (limit : Nat) (s : Sets) : s.granted limit [] = s := by
  unfold Sets.granted Sets.add
  simp

omit [Build] in
theorem Sets.granted_one (limit : Nat) (c : GrowCall) (s : Sets) :
    s.granted limit [c] = s.add (c.region limit) true := by
  have hset : {i | ∃ d ∈ [c], i ∈ d.region limit} = c.region limit := by
    ext i
    simp
  unfold Sets.granted
  rw [hset]

omit [Build] in
theorem Sets.granted_append (limit : Nat) (new old : List GrowCall) (s : Sets) :
    s.granted limit (new ++ old) = (s.granted limit old).granted limit new := by
  have hset : {i | ∃ c ∈ new ++ old, i ∈ c.region limit}
      = {i | ∃ c ∈ old, i ∈ c.region limit} ∪ {i | ∃ c ∈ new, i ∈ c.region limit} := by
    ext i
    simp only [List.mem_append, Set.mem_union, Set.mem_ofPred_eq]
    constructor
    · rintro ⟨c, hc | hc, hi⟩
      · exact Or.inr ⟨c, hc, hi⟩
      · exact Or.inl ⟨c, hc, hi⟩
    · rintro (⟨c, hc, hi⟩ | ⟨c, hc, hi⟩)
      · exact ⟨c, Or.inr hc, hi⟩
      · exact ⟨c, Or.inl hc, hi⟩
  unfold Sets.granted Sets.add
  rw [hset]
  simp only [if_true, Set.union_assoc]

theorem SliceMap.alloc_isSome {m : SliceMap} {count align : Nat} (h : m.Inv) (hc : 1 ≤ count)
    (ha : PowerOfTwo align) :
    (m.alloc count align).1.isSome = true ↔ ∃ start, m.Serves count align start := by
  have hleast := alloc_least h hc ha
  cases hrun : (m.alloc count align).1 with
  | none =>
    rw [hrun] at hleast
    exact ⟨nofun, fun ⟨start, hs⟩ => absurd hs (hleast start)⟩
  | some run =>
    rw [hrun] at hleast
    exact ⟨fun _ => ⟨run.start, hleast.1⟩, fun _ => rfl⟩

namespace Supply
variable [Memory M]

/-- The calls `new` lead from `s` to `s'`, and the map gains what they were granted. -/
structure Traced (s s' : Supply M) (new : List GrowCall) : Prop where
  inv : s'.map.Inv
  base : s'.map.base = s.map.base
  size_le : sizeSlices s.mem ≤ sizeSlices s'.mem
  calls : s'.calls = new ++ s.calls
  sets : s'.map.sets = s.map.sets.granted s.map.usableLimit new
  fresh : ∀ c ∈ new, ∀ start, c.got = some start → sizeSlices s.mem ≤ start

section Traced
variable {s s1 s2 : Supply M} {new new' : List GrowCall} {need : Need}

theorem Traced.trans (h : Traced s s1 new) (h' : Traced s1 s2 new') :
    Traced s s2 (new' ++ new) where
  inv := h'.inv
  base := h'.base.trans h.base
  size_le := le_trans h.size_le h'.size_le
  calls := by rw [h'.calls, h.calls, List.append_assoc]
  sets := by rw [h'.sets, h.sets, (limit_eq h.base).2, Sets.granted_append]
  fresh := fun _ hc a hgot => (List.mem_append.mp hc).elim
    (fun hc => le_trans h.size_le (h'.fresh _ hc a hgot)) fun hc => h.fresh _ hc a hgot

theorem Traced.keeps (h : Traced s s1 new) {m : SliceMap} (hm : SliceMap.Keeps s1.map m) :
    Traced s { s1 with map := m } new where
  inv := hm.inv
  base := hm.base.trans h.base
  size_le := h.size_le
  calls := h.calls
  sets := (SliceMap.Becomes.sets hm).trans h.sets
  fresh := h.fresh

theorem Traced.below (h : Traced s s1 new) {i : Nat} (hi : i < sizeSlices s.mem) :
    s1.map.Free i ↔ s.map.Free i := by
  have hmem : i ∈ s1.map.sets.free ↔ i ∈ (s.map.sets.granted s.map.usableLimit new).free := by
    rw [h.sets]
  refine hmem.trans ⟨?_, Or.inl⟩
  rintro (hold | ⟨c, hc, a, hgot, hrun, -⟩)
  · exact hold
  · have := h.fresh c hc a hgot
    unfold InRun at hrun
    omega

variable [Memory.Contract M]

theorem refused_traced (hinv : s.map.Inv) {stop want : Nat}
    (h : s.grow need stop want = (none, s1)) :
    s1.map = s.map ∧ ∃ c, Traced s s1 [c] ∧ c.got = none ∧ c.stop = stop ∧ c.want = want := by
  obtain ⟨hgot, hs1⟩ := Prod.mk.inj h
  rw [← hs1]
  refine ⟨rfl, _, { inv := hinv, base := rfl, size_le := Memory.Contract.size_mono _ _,
                    calls := rfl, sets := ?_, fresh := ?_ }, hgot, rfl, rfl⟩
  swap
  · intro c hc start hstart
    rw [List.mem_singleton.mp hc, hgot] at hstart
    cases hstart
  rw [Sets.granted_one]
  have hempty : ∀ (c : GrowCall) limit, c.got = none → c.region limit = ∅ := fun c limit hc =>
    Set.eq_empty_of_forall_notMem fun i ⟨start, hstart, _⟩ => by
      rw [hc] at hstart
      cases hstart
  rw [hempty _ _ hgot]
  unfold Sets.add
  simp

theorem granted_traced (hinv : s.map.Inv) (hbase : s.map.base ≤ sizeSlices s.mem)
    (hneed : ¬ need.Servable s.map) {stop want start : Nat}
    (h : s.grow need stop want = (some start, s1)) :
    s1.map = s.map ∧ ∃ c, Traced s (s1.addRegion start want) [c] ∧ c.got = some start ∧
      c.stop = stop ∧ c.want = want := by
  obtain ⟨hgrown, hmap, -⟩ := grow_granted hinv hbase hneed h
  obtain ⟨hgot, hs1⟩ := Prod.mk.inj h
  have hcalls : s1.calls = [({ map := s.map, bytes := s.bytes, stop := stop, need := need,
                               want := want, got := (Memory.grow s.mem want).1 } : GrowCall)]
      ++ s.calls := by
    rw [← hs1]
    rfl
  have hregion : ∀ c : GrowCall, c.got = some start → c.want = want → ∀ i,
      Region s start want i ↔ i ∈ c.region s.map.usableLimit := by
    intro c hc hw i
    constructor
    · exact fun hi => ⟨start, hc, hw.symm ▸ hi.1, hi.2⟩
    · intro ⟨start', hstart, hi⟩
      rw [hc] at hstart
      rw [Option.some.inj hstart, ← hw]
      exact hi
  refine ⟨hmap, _, { inv := hgrown.inv, base := hgrown.base, size_le := hgrown.size_le,
                     calls := hcalls, sets := ?_, fresh := ?_ }, hgot, rfl, rfl⟩
  swap
  · intro c hc start' hstart
    rw [List.mem_singleton.mp hc] at hstart
    exact (Memory.Contract.grow_fresh _ _ _ hstart).1
  rw [Sets.granted_one]
  unfold Sets.add SliceMap.sets
  simp only [if_true]
  congr 1
  · ext i
    exact (hgrown.free i).trans (or_congr Iff.rfl (hregion _ hgot rfl i))
  · ext i
    exact (hgrown.zero i).trans (or_congr Iff.rfl (hregion _ hgot rfl i))

/-- `growWant` that is refused: the last request was the bare one. -/
theorem growWant_none (hinv : s.map.Inv) {stop want needed : Nat} (hle : needed ≤ want)
    (h : s.growWant need stop want needed = (none, s1)) :
    s1.map = s.map ∧ ∃ c rest, Traced s s1 (c :: rest) ∧ c.want = needed ∧
      Asked stop needed want (c :: rest) ∧ ∀ d ∈ c :: rest, d.got = none := by
  unfold growWant at h
  rcases hfirst : s.grow need stop want with ⟨_ | start, s2⟩
  · obtain ⟨hmap, c, htrace, hgot, hstop, hwant⟩ := refused_traced hinv hfirst
    rw [hfirst] at h
    simp only at h
    by_cases hlt : needed < want
    · rw [if_pos hlt] at h
      rcases hsecond : s2.grow need stop needed with ⟨_ | start, s3⟩
      · obtain ⟨hmap2, c2, htrace2, hgot2, hstop2, hwant2⟩ := refused_traced htrace.inv hsecond
        rw [hsecond] at h
        cases h
        refine ⟨hmap2.trans hmap, c2, [c], htrace.trans htrace2, hwant2, ?_, ?_⟩
        · intro d hd
          rcases List.mem_cons.mp hd with rfl | hd
          · exact ⟨hstop2, Nat.le_of_eq hwant2.symm, by omega⟩
          · rw [List.mem_singleton.mp hd]
            exact ⟨hstop, by omega, by omega⟩
        · intro d hd
          rcases List.mem_cons.mp hd with rfl | hd
          · exact hgot2
          · rw [List.mem_singleton.mp hd]
            exact hgot
      · rw [hsecond] at h
        cases h
    · rw [if_neg hlt] at h
      cases h
      refine ⟨hmap, c, [], htrace, by omega, ?_, ?_⟩
      · intro d hd
        rw [List.mem_singleton.mp hd]
        exact ⟨hstop, by omega, by omega⟩
      · intro d hd
        rw [List.mem_singleton.mp hd]
        exact hgot
  · rw [hfirst] at h
    cases h

theorem growWant_some (hinv : s.map.Inv) (hbase : s.map.base ≤ sizeSlices s.mem)
    (hneed : ¬ need.Servable s.map) {stop want needed start got : Nat} (hle : needed ≤ want)
    (h : s.growWant need stop want needed = (some (start, got), s1)) :
    s1.map = s.map ∧ ∃ c rest, Traced s (s1.addRegion start got) (c :: rest) ∧
      c.got = some start ∧ c.want = got ∧ Asked stop needed want (c :: rest) ∧
      ∀ d ∈ rest, d.got = none := by
  unfold growWant at h
  rcases hfirst : s.grow need stop want with ⟨_ | start1, s2⟩
  · obtain ⟨hmap, c, htrace, hgot, hstop, hwant⟩ := refused_traced hinv hfirst
    rw [hfirst] at h
    simp only at h
    by_cases hlt : needed < want
    · rw [if_pos hlt] at h
      rcases hsecond : s2.grow need stop needed with ⟨_ | start2, s3⟩
      · rw [hsecond] at h
        cases h
      · have hbase2 : s2.map.base ≤ sizeSlices s2.mem := by
          rw [hmap]
          exact le_trans hbase htrace.size_le
        have hneed2 : ¬ need.Servable s2.map := by rwa [hmap]
        obtain ⟨hmap2, c2, htrace2, hgot2, hstop2, hwant2⟩ :=
          granted_traced htrace.inv hbase2 hneed2 hsecond
        rw [hsecond] at h
        cases h
        refine ⟨hmap2.trans hmap, c2, [c], htrace.trans htrace2, hgot2, hwant2, ?_, ?_⟩
        · intro d hd
          rcases List.mem_cons.mp hd with rfl | hd
          · exact ⟨hstop2, Nat.le_of_eq hwant2.symm, by omega⟩
          · rw [List.mem_singleton.mp hd]
            exact ⟨hstop, by omega, by omega⟩
        · intro d hd
          rw [List.mem_singleton.mp hd]
          exact hgot
    · rw [if_neg hlt] at h
      cases h
  · obtain ⟨hmap, c, htrace, hgot, hstop, hwant⟩ := granted_traced hinv hbase hneed hfirst
    rw [hfirst] at h
    cases h
    refine ⟨hmap, c, [], htrace, hgot, hwant, ?_, fun d hd => absurd hd List.not_mem_nil⟩
    intro d hd
    rw [List.mem_singleton.mp hd]
    exact ⟨hstop, by omega, by omega⟩

end Traced

/-! ## Contiguous growth -/

section Contiguous
variable {s s1 : Supply M} {need : Need} {stop want needed : Nat}

omit [Build] in
theorem mem_of_grow {got : Option Nat} (h : s.grow need stop want = (got, s1)) :
    s1.mem = (Memory.grow s.mem want).2 := by
  rw [← (Prod.mk.inj h).2]

omit [Build] in
theorem growWant_start (hcont : Memory.Contiguous M) {start got : Nat}
    (h : s.growWant need stop want needed = (some (start, got), s1)) : start = sizeSlices s.mem := by
  unfold growWant at h
  rcases hfirst : s.grow need stop want with ⟨_ | a, s2⟩
  · rw [hfirst] at h
    simp only at h
    split at h
    · rcases hsecond : s2.grow need stop needed with ⟨_ | b, s3⟩
      · rw [hsecond] at h
        cases h
      · rw [hsecond] at h
        cases h
        have hmem := mem_of_grow hfirst
        calc start = sizeSlices s2.mem := hcont.granted _ _ _ (Prod.mk.inj hsecond).1
          _ = sizeSlices (Memory.grow s.mem want).2 := by rw [hmem]
          _ = sizeSlices s.mem := hcont.refused _ _ (Prod.mk.inj hfirst).1
    · cases h
  · rw [hfirst] at h
    cases h
    exact hcont.granted _ _ _ (Prod.mk.inj hfirst).1

omit [Build] in
theorem growWant_none_size (hcont : Memory.Contiguous M)
    (h : s.growWant need stop want needed = (none, s1)) : sizeSlices s1.mem = sizeSlices s.mem := by
  unfold growWant at h
  rcases hfirst : s.grow need stop want with ⟨_ | a, s2⟩
  · rw [hfirst] at h
    simp only at h
    have hsize : sizeSlices s2.mem = sizeSlices s.mem := by
      rw [mem_of_grow hfirst]
      exact hcont.refused _ _ (Prod.mk.inj hfirst).1
    split at h
    · rcases hsecond : s2.grow need stop needed with ⟨_ | b, s3⟩
      · rw [hsecond] at h
        cases h
        rw [← hsize, mem_of_grow hsecond]
        exact hcont.refused _ _ (Prod.mk.inj hsecond).1
      · rw [hsecond] at h
        cases h
    · cases h
      exact hsize
  · rw [hfirst] at h
    cases h

omit [Build] in
theorem growWant_isSome_iff : (s.growWant need stop want needed).1.isSome = true ↔
    Memory.Grants s.mem want needed := by
  unfold growWant Memory.Grants
  rcases hfirst : s.grow need stop want with ⟨_ | a, s2⟩
  · have hgot : (Memory.grow s.mem want).1 = none := (Prod.mk.inj hfirst).1
    rw [← mem_of_grow hfirst, hgot]
    simp only [Option.isSome_none, Bool.false_eq_true, false_or]
    by_cases hlt : needed < want
    · rw [if_pos hlt, and_iff_right hlt]
      rcases hsecond : s2.grow need stop needed with ⟨_ | b, s3⟩
      · have hgot2 : (Memory.grow s2.mem needed).1 = none := (Prod.mk.inj hsecond).1
        rw [hgot2]
        rfl
      · have hgot2 : (Memory.grow s2.mem needed).1 = some b := (Prod.mk.inj hsecond).1
        rw [hgot2]
        rfl
    · rw [if_neg hlt]
      exact ⟨nofun, fun h => absurd h.1 hlt⟩
  · obtain ⟨hgot, -⟩ := Prod.mk.inj hfirst
    exact ⟨fun _ => Or.inl (by rw [hgot]; rfl), fun _ => rfl⟩

end Contiguous

/-! ## `acquire` -/

/-- The calls that were granted a region. -/
def grants (calls : List GrowCall) : List GrowCall := calls.filter fun c => c.got.isSome

omit [Build] in
theorem grants_none {calls : List GrowCall} (h : ∀ c ∈ calls, c.got = none) : grants calls = [] := by
  unfold grants
  rw [List.filter_eq_nil_iff]
  intro c hc
  rw [h c hc]
  decide

omit [Build] in
theorem grants_cons {c : GrowCall} {calls : List GrowCall} {start : Nat} (h : c.got = some start) :
    grants (c :: calls) = c :: grants calls := by
  unfold grants
  rw [List.filter_cons_of_pos (by rw [h]; rfl)]

/-- What `acquire` does, told by the calls of `grow` it makes, newest first. -/
structure Acquires (s : Supply M) (count align : Nat) (r : Option Run × Supply M)
    (new : List GrowCall) : Prop where
  calls : r.2.calls = new ++ s.calls
  inv : r.2.map.Inv
  asked : ∀ c ∈ new, 1 ≤ c.want ∧ c.stop + c.want ≤ s.map.usableLimit
  twice : (grants new).length ≤ 2
  sets : (s.map.sets.granted s.map.usableLimit new).Search count align r.1 r.2.map.sets
  first : ∀ c, (grants new).getLast? = some c → c.stop = sizeSlices s.mem ∧
    (c.got = some c.stop → r.1.isSome = true)
  second : ∀ c d start, grants new = [c, d] → c.got = some start →
    start + c.want ≤ s.map.usableLimit → r.1.isSome = true

section Acquire
variable [Memory.Contract M] {s s1 : Supply M} {new : List GrowCall} {count align : Nat}

omit [Memory.Contract M] in
theorem Traced.search (h : Traced s s1 new) (hc : 1 ≤ count) (ha : PowerOfTwo align) :
    (s1.alloc count align).2.calls = new ++ s.calls ∧ (s1.alloc count align).2.map.Inv ∧
    (s.map.sets.granted s.map.usableLimit new).Search count align (s1.alloc count align).1
      (s1.alloc count align).2.map.sets := by
  obtain ⟨hsearch, hinv, -⟩ := SliceMap.alloc_search h.inv hc ha
  rw [h.sets] at hsearch
  exact ⟨h.calls, hinv, hsearch⟩

omit [Memory.Contract M] in
theorem Traced.alloc_none {s2 : Supply M} (h : Traced s s1 new)
    (hkeeps : SliceMap.Keeps s1.map s2.map) (halloc : s1.alloc count align = (none, s2)) :
    Traced s s2 new := by
  obtain ⟨-, rfl⟩ := Prod.mk.inj halloc
  exact h.keeps hkeeps

omit [Memory.Contract M] in
/-- A trace with one grant; if nothing was found its region did not start at the old end. -/
theorem Acquires.one {r : Option Run × Supply M} {c : GrowCall} (hcalls : r.2.calls = new ++ s.calls)
    (hinv : r.2.map.Inv) (hasked : ∀ c ∈ new, 1 ≤ c.want ∧ c.stop + c.want ≤ s.map.usableLimit)
    (hsets : (s.map.sets.granted s.map.usableLimit new).Search count align r.1 r.2.map.sets)
    (hgrants : grants new = [c]) (hstop : c.stop = sizeSlices s.mem)
    (hfirst : c.got = some (sizeSlices s.mem) → r.1.isSome = true) : Acquires s count align r new where
  calls := hcalls
  inv := hinv
  asked := hasked
  twice := by
    rw [hgrants]
    exact Nat.le_succ 1
  sets := hsets
  first := fun d hd => by
    rw [hgrants, List.getLast?_singleton] at hd
    obtain rfl := Option.some.inj hd
    exact ⟨hstop, fun he => hfirst (hstop ▸ he)⟩
  second := fun d e start hde => by
    rw [hgrants] at hde
    cases hde

theorem growAndAlloc_exact (policy : GrowPolicy) {k : Nat} (hinv : s.map.Inv)
    (hbase : s.map.base ≤ sizeSlices s.mem) (hc : 1 ≤ count) (hk : k ≤ usizeBits)
    (hneed : ∀ start, ¬ s.map.Serves count (2 ^ k) start) :
    ∃ new, Acquires s count (2 ^ k) (s.growAndAlloc policy count (2 ^ k)) new := by
  have hneed' : ¬ (Need.run count (2 ^ k)).Servable s.map := fun ⟨start, hs⟩ => hneed start hs
  have hpow : PowerOfTwo (2 ^ k) := ⟨k, rfl⟩
  have hroad := growAndAlloc_road policy hbase hc hk
  -- The first request, asked once or twice.
  have hfits := @firstRequest_fits _ _ _ s policy count (2 ^ k) hc
  have hasked : ∀ {calls : List GrowCall},
      sizeSlices s.mem + s.bareRequest count (2 ^ k) ≤ s.map.usableLimit →
      Asked (sizeSlices s.mem) (s.bareRequest count (2 ^ k)) (s.firstRequest policy count (2 ^ k))
        calls → ∀ c ∈ calls, 1 ≤ c.want ∧ c.stop + c.want ≤ s.map.usableLimit := by
    intro calls hfit hask c hmem
    obtain ⟨h1, h2, h3⟩ := hfits hfit
    obtain ⟨hstop, hlo, hhi⟩ := hask c hmem
    omega
  generalize s.growAndAlloc policy count (2 ^ k) = r at hroad ⊢
  cases hroad with
  | full hfull =>
    exact ⟨[], { calls := rfl, inv := hinv, asked := fun c hc => absurd hc List.not_mem_nil
                 twice := Nat.zero_le _, sets := (Sets.granted_nil _ _).symm
                 first := fun c hc => by cases hc
                 second := fun c d start hc => by cases hc }⟩
  | @refused s1 hfit hgrow =>
    obtain ⟨-, c, rest, htrace, -, hask, hnone⟩ := growWant_none hinv (hfits hfit).2.1 hgrow
    have hgrants := grants_none hnone
    exact ⟨c :: rest, { calls := htrace.calls, inv := htrace.inv, asked := hasked hfit hask
                        twice := by rw [hgrants]; exact Nat.zero_le _
                        sets := htrace.sets
                        first := fun c hc => by rw [hgrants] at hc; cases hc
                        second := fun c d start hc => by rw [hgrants] at hc; cases hc }⟩
  | @served s1 s2 start got run hfit hgrow halloc =>
    obtain ⟨-, c, rest, htrace, hgot, -, hask, hnone⟩ :=
      growWant_some hinv hbase hneed' (hfits hfit).2.1 hgrow
    have hgrants : grants (c :: rest) = [c] := by rw [grants_cons hgot, grants_none hnone]
    obtain ⟨hcalls, hinv2, hsearch⟩ := htrace.search hc hpow
    rw [halloc] at hcalls hinv2 hsearch
    exact ⟨c :: rest, .one hcalls hinv2 (hasked hfit hask) hsearch hgrants
      (hask c List.mem_cons_self).1 fun _ => rfl⟩
  | @stuck s1 s2 start got hfit hgrow halloc hfull =>
    obtain ⟨-, c, rest, htrace, hgot, -, hask, hnone⟩ :=
      growWant_some hinv hbase hneed' (hfits hfit).2.1 hgrow
    have hgrants : grants (c :: rest) = [c] := by rw [grants_cons hgot, grants_none hnone]
    have hdis := (growWant_stuck hinv hbase hc hneed hfit hgrow halloc).2.2.2.1
    obtain ⟨hcalls, hinv2, hsearch⟩ := htrace.search hc hpow
    rw [halloc] at hcalls hinv2 hsearch
    refine ⟨c :: rest, .one hcalls hinv2 (hasked hfit hask) hsearch hgrants
      (hask c List.mem_cons_self).1 fun he => absurd ?_ hdis⟩
    exact Option.some.inj (hgot.symm.trans he)
  | @again s1 s2 s3 start got got3 hfit hgrow halloc hroom hgrow3 =>
    obtain ⟨-, c, rest, htrace, hgot, -, hask, hnone⟩ :=
      growWant_some hinv hbase hneed' (hfits hfit).2.1 hgrow
    have hgrants : grants (c :: rest) = [c] := by rw [grants_cons hgot, grants_none hnone]
    have hstop := (hask c List.mem_cons_self).1
    obtain ⟨-, hno2, hkeeps, hdis, -⟩ := growWant_stuck hinv hbase hc hneed hfit hgrow halloc
    have hfirst : c.got = some (sizeSlices s.mem) → False := fun he =>
      hdis (Option.some.inj (hgot.symm.trans he))
    have htrace2 := htrace.alloc_none hkeeps halloc
    have hneed2 : ¬ (Need.run count (2 ^ k)).Servable s2.map := fun ⟨a, ha⟩ => hno2 a ha
    have hbase2 : s2.map.base ≤ sizeSlices s2.mem := by
      rw [htrace2.base]
      exact le_trans hbase htrace2.size_le
    have hasked3 : ∀ d ∈ c :: rest, 1 ≤ d.want ∧ d.stop + d.want ≤ s.map.usableLimit :=
      hasked hfit hask
    cases got3 with
    | none =>
      obtain ⟨-, c3, htrace3, hgot3, hstop3, hwant3⟩ := refused_traced htrace2.inv hgrow3
      have hall := htrace2.trans htrace3
      have hgrants3 : grants (c3 :: c :: rest) = [c] := by
        rw [← hgrants]
        exact List.filter_cons_of_neg (by rw [hgot3]; decide)
      refine ⟨c3 :: c :: rest, .one hall.calls hall.inv ?_ hall.sets hgrants3 hstop
        fun he => (hfirst he).elim⟩
      intro d hd
      rcases List.mem_cons.mp hd with rfl | hd
      · omega
      · exact hasked3 d hd
    | some start3 =>
      obtain ⟨hmap3, c3, htrace3, hgot3, hstop3, hwant3⟩ :=
        granted_traced htrace2.inv hbase2 hneed2 hgrow3
      obtain ⟨hgrown3, -⟩ := grow_granted htrace2.inv hbase2 hneed2 hgrow3
      have hall := htrace2.trans htrace3
      have hgrants3 : grants (c3 :: c :: rest) = [c3, c] := by rw [grants_cons hgot3, hgrants]
      obtain ⟨hcalls, hinv3, hsearch⟩ := hall.search hc hpow
      refine ⟨c3 :: c :: rest, { calls := hcalls, inv := hinv3, asked := ?_, twice := ?_,
                                 sets := hsearch, first := ?_, second := ?_ }⟩
      · intro d hd
        rcases List.mem_cons.mp hd with rfl | hd
        · omega
        · exact hasked3 d hd
      · rw [hgrants3]
        exact Nat.le_refl 2
      · intro d hd
        rw [hgrants3, List.getLast?_cons_cons, List.getLast?_singleton] at hd
        obtain rfl := Option.some.inj hd
        exact ⟨hstop, fun he => (hfirst (hstop ▸ he)).elim⟩
      · intro d e start' hde hgot' hlim
        rw [hgrants3] at hde
        obtain ⟨rfl, -⟩ := List.cons.inj hde
        obtain rfl := Option.some.inj (hgot3.symm.trans hgot')
        have hserves := retry_serves hgrown3 (by rw [(limit_eq htrace2.base).2]; omega)
        exact (SliceMap.alloc_isSome hgrown3.inv hc hpow).mpr ⟨_, hserves⟩

omit [Memory.Contract M] in
theorem Acquires.below {r : Option Run × Supply M} (h : Acquires s count align r new)
    (hc : 1 ≤ count) (hfree : ∀ i, s.map.Free i → i < s.map.usableLimit) {run : Run}
    (hrun : r.1 = some run) : run.start + count ≤ s.map.usableLimit := by
  have hsets := h.sets
  rw [hrun] at hsets
  have hlast : run.start + count - 1 ∈ slicesOf run.start count := ⟨by omega, by omega⟩
  have hlt : run.start + count - 1 < s.map.usableLimit := by
    rcases hsets.1 hlast with hold | ⟨c, -, start, -, -, hlim⟩
    · exact hfree _ hold
    · exact hlim
  omega

theorem acquire_traced (s : Supply M) (policy : GrowPolicy) (hinv : s.map.Inv)
    (hbase : s.map.base ≤ sizeSlices s.mem) (hc : 1 ≤ count) (ha : PowerOfTwo align)
    (hlt : align < usizeSize) :
    ∃ new, Acquires s count align (s.acquire policy count align) new ∧
      ∀ a, s.map.Serves count align a → new = [] ∧
        Least (s.map.Serves count align) ((s.acquire policy count align).1.map Run.start) := by
  have hleast := SliceMap.alloc_least hinv hc ha
  obtain ⟨hsearch, hinv1, hbase1⟩ := SliceMap.alloc_search hinv hc ha
  unfold acquire
  rcases halloc : s.map.alloc count align with ⟨_ | run, m⟩
  · rw [halloc] at hleast hsearch hinv1 hbase1
    rw [alloc_eq halloc]
    obtain ⟨k, rfl⟩ := ha
    have hk : k ≤ usizeBits := Nat.le_of_lt ((Nat.pow_lt_pow_iff_right (by decide)).mp hlt)
    have hno : ∀ a, ¬ m.Serves count (2 ^ k) a := by
      intro a hs
      refine hleast a ⟨fun i hi => ?_, hs.aligned⟩
      have hmem : i ∈ m.sets.free := hs.free i hi
      rw [hsearch] at hmem
      exact hmem
    obtain ⟨new, hacq⟩ := growAndAlloc_exact (s := { s with map := m }) policy hinv1
      (by rw [hbase1]; exact hbase) hc hk hno
    have hlim : m.usableLimit = s.map.usableLimit := by
      unfold SliceMap.usableLimit SliceMap.limit
      rw [hbase1]
    have hsets := hacq.sets
    simp only at hsearch hlim hsets
    rw [hsearch, hlim] at hsets
    refine ⟨new, { calls := hacq.calls, inv := hacq.inv, asked := ?_, twice := hacq.twice,
                   sets := hsets, first := hacq.first, second := ?_ },
      fun a hs => absurd hs (hleast a)⟩
    · rw [← hlim]
      exact hacq.asked
    · rw [← hlim]
      exact hacq.second
  · rw [halloc] at hleast hsearch hinv1
    rw [alloc_eq halloc]
    refine ⟨[], { calls := rfl, inv := hinv1, asked := fun c hc => absurd hc List.not_mem_nil
                  twice := Nat.zero_le _, sets := ?_
                  first := fun c hc => by cases hc
                  second := fun c d start hc => by cases hc }, fun a hs => ⟨rfl, hleast⟩⟩
    rw [Sets.granted_nil]
    exact hsearch

/-- **`acquire` under an adversarial backend.** A run the map can serve is the lowest fit and
    takes no call of `grow`. Otherwise every request is for at least one slice and stays within
    the usable limit, at most two are granted, the map gains exactly the regions granted and
    loses the run returned. There is a run if the first region starts at the end of memory it
    was sized from, or if there is a second one and it is not clipped. -/
theorem acquire_exact (policy : GrowPolicy) (hinv : s.map.Inv)
    (hbase : s.map.base ≤ sizeSlices s.mem) (hc : 1 ≤ count) (ha : PowerOfTwo align)
    (hlt : align < usizeSize) :
    ∃ new, Acquires s count align (s.acquire policy count align) new ∧
      (∀ a, s.map.Serves count align a → new = [] ∧
        Least (s.map.Serves count align) ((s.acquire policy count align).1.map Run.start)) ∧
      ((∀ i, s.map.Free i → i < s.map.usableLimit) → ∀ run,
        (s.acquire policy count align).1 = some run → run.start + count ≤ s.map.usableLimit) := by
  have hacq := s.acquire_traced policy hinv hbase hc ha hlt
  obtain ⟨new, hnew, hfit⟩ := hacq
  exact ⟨new, hnew, hfit, fun hfree run hrun => hnew.below hc hfree hrun⟩

end Acquire

end Supply

end

namespace Sample
open Supply

/-- Twelve slices, the upper nine of them free, and room for eight more. -/
def ram : SimMemory where
  firstSlice := 0
  capacitySlices := 20
  endSlice := 12
  heapBase := 70000
  heapBase_pos := by decide
  heapBase_le := by decide
  end_le := by decide
  region_le := by decide
  empty_below := by decide

def supply : Supply SimMemory := { map := map, mem := ram, bytes := fun _ => 0, calls := [] }

theorem map_free_iff (i : Nat) : map.Free i ↔ 3 ≤ i ∧ i < 12 := by
  have hfits : (SliceMap.new.init 3).Inside 3 (SliceMap.clippedCount 3 9) := ⟨by decide, by decide⟩
  have hadd := SliceMap.addFree_spec true (SliceMap.init_inv (by decide)) hfits
  have hcount : SliceMap.clippedCount 3 9 = 9 := by decide
  have hnot : ¬ (SliceMap.new.init 3).Free i := fun hf => by
    have hmem : i ∈ (SliceMap.new.init 3).sets.free := hf
    rw [SliceMap.sets_init] at hmem
    exact hmem
  have hfree := hadd.2.2.2.1 i
  rw [hcount, or_iff_right hnot] at hfree
  exact hfree

/-- A run of four slices aligned to sixteen lies above the end of memory. -/
theorem supply_acquire : (supply.acquire GrowPolicy.default 4 16).1 = some ⟨16, true⟩ ∧
    ∃ new, Acquires supply 4 16 (supply.acquire GrowPolicy.default 4 16) new := by
  obtain ⟨new, hacq, -⟩ := @acquire_exact _ _ _ _ supply 4 16 GrowPolicy.default map_inv (by decide)
    (by decide) ⟨4, rfl⟩ (by decide)
  exact ⟨by decide +kernel, new, hacq⟩

end Sample

end Wasmalloc
