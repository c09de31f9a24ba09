import Wasmalloc.Footprint

/- How often memory is grown.

   A call of `grow` costs the same whatever it asks for, so the policy asks for a fraction
   of the heap: with the divisor `d`, each step makes the heap `(d + 1) / d` times as large,
   up to rounding. `growth_geometric` says so of any stretch of any run. A call that is
   refused, or granted elsewhere than expected, may be made good by one more call, which
   need not ask for a step; each such call is charged to the disturbed one before it.
   The step is clamped to `max_grow` and to the room below the usable limit: the bound
   holds while neither has been reached. -/
namespace Wasmalloc

/-! ## Growth by a fraction -/

theorem fraction_le {d h : Nat} (hd : 0 < d) : (d + 1) * (h - (d - 1)) ≤ d * (h + h / d - (d - 1)) := by
  by_cases hsmall : h ≤ d - 1
  · rw [Nat.sub_eq_zero_of_le hsmall, Nat.mul_zero]
    exact Nat.zero_le _
  have hdiv : h < d * (h / d) + d := Nat.lt_mul_div_succ h hd
  generalize h / d = q at *
  obtain ⟨y, rfl⟩ : ∃ y, h = d - 1 + y := ⟨h - (d - 1), by omega⟩
  rw [Nat.add_sub_cancel_left, show d - 1 + y + q - (d - 1) = y + q by omega, Nat.add_mul, Nat.mul_add]
  omega

theorem pow_succ_le {d n a x b : Nat} (hold : (d + 1) ^ n * a ≤ d ^ n * x) (hnew : (d + 1) * x ≤ d * b) :
    (d + 1) ^ (n + 1) * a ≤ d ^ (n + 1) * b :=
  calc (d + 1) ^ (n + 1) * a = (d + 1) * ((d + 1) ^ n * a) := by ring
    _ ≤ (d + 1) * (d ^ n * x) := Nat.mul_le_mul_left _ hold
    _ = d ^ n * ((d + 1) * x) := by ring
    _ ≤ d ^ n * (d * b) := Nat.mul_le_mul_left _ hnew
    _ = d ^ (n + 1) * b := by ring

theorem pow_le_of_le {d n m a b : Nat} (hle : n ≤ m) (h : (d + 1) ^ m * a ≤ d ^ m * b) :
    (d + 1) ^ n * a ≤ d ^ n * b := by
  induction m, hle using Nat.le_induction with
  | base => exact h
  | succ m _ ih =>
    refine ih (Nat.le_of_not_lt fun hlt => ?_)
    have hmul := Nat.mul_le_mul_left d (le_of_lt hlt)
    have hup : (d + 1) ^ (m + 1) * a = d * ((d + 1) ^ m * a) + (d + 1) ^ m * a := by ring
    have hlo : d ^ (m + 1) * b = d * (d ^ m * b) := by ring
    omega

variable [Build]

/-! ## The calls of a stretch -/

namespace GrowCall

omit [Build] in
instance (c : GrowCall) : Decidable c.Disturbed := inferInstanceAs (Decidable (c.got ≠ some c.stop))

instance (policy : GrowPolicy) (c : GrowCall) : Decidable (c.Full policy) :=
  inferInstanceAs (Decidable (_ ≤ _))

end GrowCall

omit [Build] in
/-- The calls that were refused, or granted elsewhere than expected. -/
def disturbances (calls : List GrowCall) : Nat := calls.countP fun c => c.Disturbed

/-- The calls that added a full step to memory. -/
def steps (policy : GrowPolicy) (calls : List GrowCall) : Nat :=
  calls.countP fun c => c.Full policy ∧ c.got ≠ none

section Climbs
variable {policy : GrowPolicy} {base lo hi : Nat} {calls : List GrowCall}

theorem GrowCall.Full.reach {c : GrowCall} (hfull : c.Full policy) (hgot : c.got ≠ none)
    (hbase : c.map.base = base) (hreach : c.stop + c.added ≤ hi) (hd : 0 < policy.stepDivisor)
    (hmax : hi - base ≤ policy.stepDivisor * policy.maxGrow) {m : SliceMap} (hm : m.base = base)
    (hlimit : hi < m.usableLimit) : c.stop + (c.stop - base) / policy.stepDivisor ≤ hi := by
  have hadded : c.added = c.want := if_neg hgot
  have hlim : c.map.usableLimit = m.usableLimit := by
    unfold SliceMap.usableLimit SliceMap.limit
    rw [hbase, hm]
  have hquot : (c.stop - base) / policy.stepDivisor ≤ policy.maxGrow :=
    Nat.div_le_of_le_mul (by omega)
  have hstep : (c.stop - base) / policy.stepDivisor ≤ growthStep c.map c.stop policy := by
    unfold growthStep GrowPolicy.step
    rw [hbase, Nat.max_eq_left (by omega : 1 ≤ policy.stepDivisor)]
    omega
  unfold GrowCall.Full at hfull
  rw [hlim] at hfull
  omega

/-- A call that asks for less than the step follows a disturbed one. -/
theorem Climbs.short_le (h : Climbs policy base lo hi calls) :
    calls.countP (fun c => ¬ c.Full policy) ≤ disturbances calls.tail := by
  induction h with
  | idle _ => exact Nat.zero_le _
  | @call hi c older _ hpace _ _ ih =>
    rw [List.tail_cons, List.countP_cons]
    have htail : disturbances older.tail ≤ disturbances older :=
      (List.tail_sublist older).countP_le
    rcases hpace with hfull | ⟨d, hd, hdisturbed⟩
    · simp only [hfull, not_true_eq_false, decide_false, Bool.false_eq_true, if_false]
      omega
    · obtain ⟨rest, rfl⟩ : ∃ rest, older = d :: rest := List.head?_eq_some_iff.mp hd
      rw [List.tail_cons] at ih
      have hcons : disturbances (d :: rest) = disturbances rest + 1 := by
        unfold disturbances
        rw [List.countP_cons, if_pos (by simpa using hdisturbed)]
      split <;> omega

/-- All calls but the disturbed ones, and one more for each of them, are steps. -/
theorem Climbs.length_le (h : Climbs policy base lo hi calls) :
    calls.length ≤ steps policy calls + 2 * disturbances calls := by
  have hshort := h.short_le
  have htail : disturbances calls.tail ≤ disturbances calls := (List.tail_sublist calls).countP_le
  have hfull : calls.length ≤ steps policy calls + disturbances calls +
      calls.countP (fun c => ¬ c.Full policy) := by
    unfold steps disturbances
    clear h hshort htail
    induction calls with
    | nil => exact Nat.zero_le _
    | cons c calls ih =>
      simp only [List.length_cons, List.countP_cons, ne_eq] at ih ⊢
      by_cases hf : c.Full policy
      · by_cases hg : c.got = none
        · have hd : c.Disturbed := by
            unfold GrowCall.Disturbed
            rw [hg]
            simp
          simp only [hf, hg, hd, decide_true, if_true]
          omega
        · simp only [hf, hg, not_false_eq_true, and_self, decide_true, if_true]
          omega
      · simp only [hf, not_false_eq_true, decide_true, if_true]
        omega
  omega

theorem Climbs.le (h : Climbs policy base lo hi calls) : lo ≤ hi := by
  induction h with
  | idle hle => exact hle
  | call _ _ hreach _ ih => omega

theorem Climbs.geometric (h : Climbs policy base lo hi calls) (hd : 0 < policy.stepDivisor)
    (hmax : hi - base ≤ policy.stepDivisor * policy.maxGrow) {m : SliceMap} (hm : m.base = base)
    (hlimit : hi < m.usableLimit) :
    (policy.stepDivisor + 1) ^ steps policy calls * (lo - base - (policy.stepDivisor - 1)) ≤
      policy.stepDivisor ^ steps policy calls * (hi - base - (policy.stepDivisor - 1)) := by
  induction h with
  | @idle hi hle =>
    have hsub : lo - base - (policy.stepDivisor - 1) ≤ hi - base - (policy.stepDivisor - 1) := by omega
    simpa [steps] using hsub
  | @call hi c older hbase _ hreach _ ih =>
    have hstop : c.stop ≤ hi := by omega
    have hold := ih (by omega) (by omega)
    have hsteps : steps policy (c :: older) =
        steps policy older + if c.Full policy ∧ c.got ≠ none then 1 else 0 := by
      unfold steps
      rw [List.countP_cons]
      simp only [decide_eq_true_eq]
    rw [hsteps]
    split
    · rename_i hc
      have hgrown := hc.1.reach hc.2 hbase hreach hd hmax hm hlimit
      have hzero : c.stop ≤ base → (c.stop - base) / policy.stepDivisor = 0 := fun hle => by
        rw [Nat.sub_eq_zero_of_le hle, Nat.zero_div]
      refine pow_succ_le hold (le_trans (fraction_le (h := c.stop - base) hd) (Nat.mul_le_mul_left _ ?_))
      omega
    · exact le_trans hold (Nat.mul_le_mul_left _ (by omega))

end Climbs

/-! ## Every run -/

section Runs
variable {M : Type} [Memory M] [Memory.Contract M] {c c' : Config M}

/-- The runs from `c` on. -/
def Config.onwards (c : Config M) : Run.System (Config M) (Event M) :=
  { init := (· = c), allowed := Config.Allowed, step := Config.step }

omit [Memory.Contract M] in
theorem onwards_step {e : Event M} (hr : Run.Reachable c.onwards c') (ha : c'.Allowed e) :
    Run.Reachable c.onwards (c'.step e) :=
  Run.Reachable.step (S := c.onwards) hr ha

/-- What a stretch of a run from `h` adds to the log. Before the first allocation it adds
    nothing, so the base of the map is that of the later heap. -/
structure Heap.Stretch (h h' : Heap M) (new : List GrowEntry) : Prop where
  log : h'.growLog = new ++ h.growLog
  idle : h'.initialized = false → new = []
  climbs : Climbs h'.policy h'.slices.base (sizeSlices h.mem) (sizeSlices h'.mem) (new.map GrowEntry.call)

omit [Memory.Contract M] in
theorem Heap.Stretch.paced {h h1 h2 : Heap M} {new : List GrowEntry} (hs : h.Stretch h1 new)
    (hp : h1.Paced h2) (hready : h1.initialized = true) : ∃ new', h.Stretch h2 new' := by
  obtain ⟨newer, hlog, hclimb⟩ := hp.calls
  have hdone := hp.init hready
  refine ⟨newer ++ new, ?_, fun hno => ?_, ?_⟩
  · rw [hlog, hs.log, List.append_assoc]
  · rw [hdone] at hno
    cases hno
  · rw [List.map_append, hp.policy, hp.base]
    exact hs.climbs.append hclimb

omit [Memory.Contract M] in
/-- The first allocation fixes the base of the map, before any call. -/
theorem Heap.Stretch.ensureInit {h h1 : Heap M} {new : List GrowEntry} (hs : h.Stretch h1 new) :
    h.Stretch h1.ensureInit new ∧ h1.ensureInit.initialized = true := by
  by_cases hinit : h1.initialized = true
  · rw [ensureInit_eq hinit]
    exact ⟨hs, hinit⟩
  have hnil := hs.idle (by simpa using hinit)
  subst hnil
  obtain ⟨-, hmem, hlog, -⟩ := ensureInit_extent h1
  have hready : h1.ensureInit.initialized = true := by
    unfold Heap.ensureInit
    rw [if_neg hinit]
    simp only
    split <;> rfl
  refine ⟨⟨hlog.trans hs.log, fun _ => rfl, .idle ?_⟩, hready⟩
  rw [hmem]
  exact hs.climbs.le

theorem onwards_stretch (hc : Reachable c) (hr : Run.Reachable c.onwards c') :
    ∃ new, c.heap.Stretch c'.heap new := by
  have hinv : Reachable c' ∧ ∃ new, c.heap.Stretch c'.heap new := by
    refine hr.invariant (I := fun s => Reachable s ∧ ∃ new, c.heap.Stretch s.heap new) ?_ ?_
    · rintro s rfl
      exact ⟨hc, [], rfl, fun _ => rfl, .idle (Nat.le_refl _)⟩
    · rintro s e ⟨hs, new, hst⟩ (ha : s.Allowed e)
      refine ⟨reachable_step hs ha, ?_⟩
      obtain ⟨g, hi⟩ := reachable_ok hs
      cases e with
      | alloc layout =>
        obtain ⟨hst1, hready⟩ := hst.ensureInit
        have hconf := alloc_confined hi ha.2 ha.1
        rw [← answer_heap s layout s.live] at hconf
        exact hst1.paced hconf.paced hready
      | allocZeroed layout =>
        obtain ⟨hst1, hready⟩ := hst.ensureInit
        have hconf := allocZeroed_confined hi ha.2 ha.1
        rw [← answer_heap s layout s.live] at hconf
        exact hst1.paced hconf.paced hready
      | dealloc blk =>
        have hi1 := hi.perm (List.perm_cons_erase ha)
        exact hst.paced (dealloc_confined hi1).paced (hi1.initialized List.mem_cons_self)
      | realloc blk newSize fits =>
        have hi1 := hi.perm (List.perm_cons_erase ha.1)
        have hconf := realloc_confined hi1 ha.2 fits
        rw [← answer_heap s (blk.layout.withSize newSize fits) (s.live.erase blk)] at hconf
        exact hst.paced hconf.paced (hi1.initialized List.mem_cons_self)
      | write bytes => exact ⟨new, hst.log, hst.idle, hst.climbs⟩
      | outside mem bytes => exact ⟨new, hst.log, hst.idle, hst.climbs.mono ha.1⟩
  exact hinv.2

omit [Memory.Contract M] in
theorem Heap.Stretch.geometric {h h' : Heap M} {new : List GrowEntry} (hst : h.Stretch h' new)
    (hd : 0 < h'.policy.stepDivisor)
    (hmax : sizeSlices h'.mem - h'.slices.base ≤ h'.policy.stepDivisor * h'.policy.maxGrow)
    (hlimit : sizeSlices h'.mem < h'.slices.usableLimit) {n : Nat}
    (hn : n + 2 * disturbances (new.map GrowEntry.call) ≤ new.length) :
    (h'.policy.stepDivisor + 1) ^ n * (sizeSlices h.mem - h'.slices.base - (h'.policy.stepDivisor - 1)) ≤
      h'.policy.stepDivisor ^ n * (sizeSlices h'.mem - h'.slices.base - (h'.policy.stepDivisor - 1)) := by
  have hlength := hst.climbs.length_le
  rw [List.length_map] at hlength
  exact pow_le_of_le (by omega) (hst.climbs.geometric hd hmax rfl hlimit)

/-- From `h` to `h'`, every call of `grow` but the disturbed ones, and one more for each of
    them, has made the heap larger by the policy's fraction. -/
def Heap.Geometric (h h' : Heap M) : Prop :=
  let d := h'.policy.stepDivisor
  let heap := fun memory => memory - h'.slices.base - (d - 1)
  ∃ new, h'.growLog = new ++ h.growLog ∧
    ∀ n, n + 2 * disturbances (new.map GrowEntry.call) ≤ new.length →
      (d + 1) ^ n * heap (sizeSlices h.mem) ≤ d ^ n * heap (sizeSlices h'.mem)

/-- **Memory is grown geometrically**: over any stretch of any run, the number of calls of
    `grow` is logarithmic in the growth of the heap, but for calls that were disturbed. -/
theorem growth_geometric (hc : Reachable c) (hr : Run.Reachable c.onwards c')
    (hd : 0 < c'.heap.policy.stepDivisor)
    (hmax : sizeSlices c'.heap.mem - c'.heap.slices.base ≤
      c'.heap.policy.stepDivisor * c'.heap.policy.maxGrow)
    (hlimit : sizeSlices c'.heap.mem < c'.heap.slices.usableLimit) :
    c.heap.Geometric c'.heap := by
  obtain ⟨new, hst⟩ := onwards_stretch hc hr
  exact ⟨new, hst.log, fun n hn => hst.geometric hd hmax hlimit hn⟩

/-- With the default divisor, any six calls that are not disturbed double the heap, up to rounding. -/
theorem growth_doubles (hc : Reachable c) (hr : Run.Reachable c.onwards c')
    (hd : c'.heap.policy.stepDivisor = GrowPolicy.default.stepDivisor)
    (hmax : sizeSlices c'.heap.mem - c'.heap.slices.base ≤ 8 * c'.heap.policy.maxGrow)
    (hlimit : sizeSlices c'.heap.mem < c'.heap.slices.usableLimit) :
    ∃ new, c'.heap.growLog = new ++ c.heap.growLog ∧
      (6 + 2 * disturbances (new.map GrowEntry.call) ≤ new.length →
        2 * (sizeSlices c.heap.mem - c'.heap.slices.base - 7) ≤
          sizeSlices c'.heap.mem - c'.heap.slices.base - 7) := by
  obtain ⟨new, hst⟩ := onwards_stretch hc hr
  have hd8 : c'.heap.policy.stepDivisor = 8 := hd
  refine ⟨new, hst.log, fun hsix => ?_⟩
  have hgrown := hst.geometric (by omega) (by rwa [hd8]) hlimit hsix
  rw [hd8] at hgrown
  omega

end Runs

end Wasmalloc

namespace Wasmalloc.Sample

/-- Sixteen slices, two of them in use, and room for many more. -/
def roomy : SimMemory where
  firstSlice := 0
  capacitySlices := 64
  endSlice := 16
  heapBase := 68000
  heapBase_pos := by decide
  heapBase_le := by decide
  end_le := by decide
  region_le := by decide
  empty_below := by decide

/-- A run of fourteen slices. -/
def vast : Layout := request 900000 (by decide)

def sixteen : Config SimMemory :=
  { heap := Heap.new roomy (fun x => if x < 2048 then 0 else 255) GrowPolicy.default, live := [] }

/-- The first run fits. -/
def laden : Config SimMemory := sixteen.step (.alloc vast)

/-- For a second one memory is grown. -/
def larger : Config SimMemory := laden.step (.alloc vast)

def largest : Config SimMemory := larger.step (.alloc vast)

theorem sixteen_reachable : Reachable sixteen := by
  refine Run.Reachable.init ⟨roomy, _, _, fun x _ hx => ?_, rfl⟩
  have hsize : emptyPage + Page.size = 1060 := by decide
  exact if_pos (by omega)

theorem laden_reachable : Reachable laden := by
  refine reachable_step sixteen_reachable ⟨by decide, fun _ => ?_⟩
  unfold CoversInitial
  decide +kernel

theorem vast_allowed {c : Config SimMemory} (h : c.heap.initialized = true) :
    c.Allowed (.alloc vast) := by
  refine ⟨by decide, fun hno => ?_⟩
  rw [h] at hno
  cases hno

theorem largest_onwards : Run.Reachable laden.onwards largest := by
  have hlarger : Run.Reachable laden.onwards larger :=
    onwards_step (.init rfl) (vast_allowed (c := laden) (by decide +kernel))
  exact onwards_step hlarger (vast_allowed (c := larger) (by decide +kernel))

/-- Two calls take memory from 16 slices to 44. -/
theorem largest_geometric : laden.heap.Geometric largest.heap ∧ sizeSlices laden.heap.mem = 16 ∧
    sizeSlices largest.heap.mem = 44 ∧ largest.heap.growLog.length = 2 :=
  ⟨growth_geometric laden_reachable largest_onwards (by decide +kernel) (by decide +kernel)
    (by decide +kernel), by decide +kernel, by decide +kernel, by decide +kernel⟩

end Wasmalloc.Sample
