import Wasmalloc.Backend
import Wasmalloc.SliceOps

/- Growing linear memory: the growth policy and `acquire` of `slices.rs`.

   `Supply` bundles what these functions share: the map, the memory and its bytes,
   and the calls of `Memory::grow` made so far, newest first. The calls are a history
   variable: each keeps the map and the bytes as they were when it was made, the
   request it was made for (`Need`), and its outcome. Grown slices are zero-filled.

   What is proved: growing adds slices of fresh memory to the map as free and zero
   and touches nothing else (`Grown`); every call is made for a request the map
   cannot serve; and if `acquire` fails, growth was refused, was out of room, or did
   not start at the end of memory (`acquire_none`). -/
namespace Wasmalloc
open ByteMem

variable [Build] {M : Type}

/-- How much to grow linear memory when the map runs dry, in slices. -/
structure GrowPolicy where
  minGrow : Nat
  maxGrow : Nat
  stepDivisor : Nat
  deriving DecidableEq, Repr

/-- An eighth of the heap, between two slices and 64 MiB per step. -/
def GrowPolicy.default : GrowPolicy := { minGrow := 2, maxGrow := 1024, stepDivisor := 8 }

/-- The growth step for a heap of `heap` slices. -/
def GrowPolicy.step (policy : GrowPolicy) (heap : Nat) : Nat :=
  min (max (heap / max policy.stepDivisor 1) policy.minGrow) policy.maxGrow

def growthStep (map : SliceMap) (stop : Nat) (policy : GrowPolicy) : Nat :=
  policy.step (stop - map.base)

/-- Record a grown region as free, zeroed slices, up to the usable limit. -/
def addRegion (map : SliceMap) (start count : Nat) : SliceMap :=
  let stop := min (saturatingAdd start count) map.usableLimit
  if start < stop then map.addFree start (stop - start) true else map

/-- What memory is grown for: an aligned run, or the slices right after a run. -/
inductive Need where
  | run (count align : Nat)
  | tail (start count extra : Nat)

def Need.Servable (map : SliceMap) : Need → Prop
  | .run count align => ∃ start, map.Serves count align start
  | .tail start count extra => map.TailFree start count extra

/-- One call of `Memory::grow`; `stop` is the end of memory the request was sized from. -/
structure GrowCall where
  map : SliceMap
  bytes : Bytes
  stop : Nat
  need : Need
  want : Nat
  got : Option Nat

structure Supply (M : Type) where
  map : SliceMap
  mem : M
  bytes : Bytes
  calls : List GrowCall

namespace Supply

variable [Memory M]

/-- `mem.grow(want)`, for `need`, sized from the end of memory `stop`. -/
def grow (s : Supply M) (need : Need) (stop want : Nat) : Option Nat × Supply M :=
  let r := Memory.grow s.mem want
  let call : GrowCall := { map := s.map, bytes := s.bytes, stop := stop, need := need,
                           want := want, got := r.1 }
  let bytes := match r.1 with
    | none => s.bytes
    | some start => fill s.bytes (start * sliceSize) (want * sliceSize) 0
  (r.1, { s with mem := r.2, bytes := bytes, calls := call :: s.calls })

def addRegion (s : Supply M) (start count : Nat) : Supply M :=
  { s with map := Wasmalloc.addRegion s.map start count }

def alloc (s : Supply M) (count align : Nat) : Option Run × Supply M :=
  ((s.map.alloc count align).1, { s with map := (s.map.alloc count align).2 })

def tryExtend (s : Supply M) (start count extra : Nat) : Option Bool × Supply M :=
  ((s.map.tryExtend start count extra).1, { s with map := (s.map.tryExtend start count extra).2 })

/-- Grow by `want`, or by the bare request `needed` when that is refused and smaller:
    the region's start and length. -/
def growWant (s : Supply M) (need : Need) (stop want needed : Nat) :
    Option (Nat × Nat) × Supply M :=
  match s.grow need stop want with
  | (some start, s) => (some (start, want), s)
  | (none, s) =>
    if needed < want then
      match s.grow need stop needed with
      | (some start, s) => (some (start, needed), s)
      | (none, s) => (none, s)
    else (none, s)

def growAndAlloc (s : Supply M) (policy : GrowPolicy) (count align : Nat) :
    Option Run × Supply M :=
  let limit := s.map.usableLimit
  let stop := sizeSlices s.mem
  let pad := wrappingNeg stop &&& (align - 1)
  match checkedAdd pad count with
  | none => (none, s)
  | some needed =>
    let room := limit - stop
    if room < needed then (none, s)
    else
      let want := min (max needed (growthStep s.map stop policy)) room
      match s.growWant (.run count align) stop want needed with
      | (none, s) => (none, s)
      | (some (start, got), s) =>
        match (s.addRegion start got).alloc count align with
        | (some run, s) => (some run, s)
        | (none, s) =>
          -- The region did not start at `stop`: size the request for any start.
          match checkedAdd count (align - 1) with
          | none => (none, s)
          | some worst =>
            if limit - sizeSlices s.mem < worst then (none, s)
            else
              match s.grow (.run count align) (sizeSlices s.mem) worst with
              | (none, s) => (none, s)
              | (some start, s) => (s.addRegion start worst).alloc count align

/-- `SliceMap::alloc`, growing linear memory when the map has no fitting run. -/
def acquire (s : Supply M) (policy : GrowPolicy) (count align : Nat) : Option Run × Supply M :=
  match s.alloc count align with
  | (some run, s) => (some run, s)
  | (none, s) => s.growAndAlloc policy count align

def growAndExtend (s : Supply M) (policy : GrowPolicy) (start count extra : Nat) :
    Option Bool × Supply M :=
  let tail := start + count
  let stop := sizeSlices s.mem
  let limit := s.map.usableLimit
  if stop < tail ∨ limit < stop then (none, s)
  else
    let have_ := stop - tail
    if extra ≤ have_ ∨ s.map.runIsFree tail have_ = false then (none, s)
    else
      let need := extra - have_
      let room := limit - stop
      if room < need then (none, s)
      else
        let want := min (max need (growthStep s.map stop policy)) room
        match s.growWant (.tail start count extra) stop want need with
        | (none, s) => (none, s)
        | (some (region, got), s) =>
          let s := s.addRegion region got
          if region ≠ stop then (none, s) else s.tryExtend start count extra

/-- `SliceMap::try_extend`, growing linear memory when the run is at the top of the heap. -/
def extendWithGrowth (s : Supply M) (policy : GrowPolicy) (start count extra : Nat) :
    Option Bool × Supply M :=
  match s.tryExtend start count extra with
  | (some zeroed, s) => (some zeroed, s)
  | (none, s) => s.growAndExtend policy start count extra

/-! ## What growing does -/

/-- A recorded call of `grow`: made for a request the map could not serve, while the old
    memory held what `s` holds, and its region joined the map as part of `N`. -/
structure Logged (s : Supply M) (need : Need) (N : Nat → Prop) (c : GrowCall) : Prop where
  need_eq : c.need = need
  unserved : ¬ need.Servable c.map
  bytes : ∀ x, x / sliceSize < sizeSlices s.mem → c.bytes x = s.bytes x
  granted : ∀ r, c.got = some r → ∀ i, InRun r c.want i → i < c.map.usableLimit → N i

/-- `s'` is `s` after growths for `need` that added the slices `N` to the map. -/
structure Grown (s s' : Supply M) (need : Need) (N : Nat → Prop) : Prop where
  inv : s'.map.Inv
  base : s'.map.base = s.map.base
  size_le : sizeSlices s.mem ≤ sizeSlices s'.mem
  new_ge : ∀ i, N i → sizeSlices s.mem ≤ i
  new_lt : ∀ i, N i → i < sizeSlices s'.mem
  new_limit : ∀ i, N i → i < s.map.limit
  new_apart : ∀ i, N i → Apart (i * sliceSize) sliceSize emptyPage Page.size
  recorded : ∀ i, s'.map.Recorded i ↔ s.map.Recorded i ∨ N i
  free : ∀ i, s'.map.Free i ↔ s.map.Free i ∨ N i
  zero : ∀ i, s'.map.Zero i ↔ s.map.Zero i ∨ N i
  bytes : ∀ x, x / sliceSize < sizeSlices s.mem → s'.bytes x = s.bytes x
  bytes_new : ∀ x, N (x / sliceSize) → s'.bytes x = 0
  sentinel : ∀ x, emptyPage ≤ x → x < emptyPage + Page.size → s'.bytes x = s.bytes x
  calls : ∃ new, s'.calls = new ++ s.calls ∧ ∀ c ∈ new, Logged s need N c

theorem Grown.refl {s : Supply M} (h : s.map.Inv) (need : Need) : Grown s s need fun _ => False where
  inv := h
  base := rfl
  size_le := Nat.le_refl _
  new_ge := fun _ hi => hi.elim
  new_lt := fun _ hi => hi.elim
  new_limit := fun _ hi => hi.elim
  new_apart := fun _ hi => hi.elim
  recorded := fun _ => (or_iff_left id).symm
  free := fun _ => (or_iff_left id).symm
  zero := fun _ => (or_iff_left id).symm
  bytes := fun _ _ => rfl
  bytes_new := fun _ hi => hi.elim
  sentinel := fun _ _ _ => rfl
  calls := ⟨[], rfl, fun _ hc => absurd hc (List.not_mem_nil)⟩

omit [Memory M] in
theorem limit_eq {s s' : Supply M} (h : s'.map.base = s.map.base) :
    s'.map.limit = s.map.limit ∧ s'.map.usableLimit = s.map.usableLimit := by
  unfold SliceMap.usableLimit SliceMap.limit
  rw [h]
  exact ⟨rfl, rfl⟩

theorem Grown.trans {s s1 s2 : Supply M} {need : Need} {N N' : Nat → Prop} (h : Grown s s1 need N)
    (h' : Grown s1 s2 need N') : Grown s s2 need fun i => N i ∨ N' i where
  inv := h'.inv
  base := h'.base.trans h.base
  size_le := le_trans h.size_le h'.size_le
  new_ge := fun i hi => hi.elim (h.new_ge i) fun hi => le_trans h.size_le (h'.new_ge i hi)
  new_lt := fun i hi => hi.elim (fun hi => lt_of_lt_of_le (h.new_lt i hi) h'.size_le) (h'.new_lt i)
  new_limit := fun i hi => hi.elim (h.new_limit i) fun hi => by
    rw [← (limit_eq h.base).1]
    exact h'.new_limit i hi
  new_apart := fun i hi => hi.elim (h.new_apart i) (h'.new_apart i)
  recorded := fun i => by rw [h'.recorded, h.recorded, or_assoc]
  free := fun i => by rw [h'.free, h.free, or_assoc]
  zero := fun i => by rw [h'.zero, h.zero, or_assoc]
  bytes := fun x hx => by rw [h'.bytes x (lt_of_lt_of_le hx h.size_le), h.bytes x hx]
  bytes_new := fun x hx => hx.elim
    (fun hN => by rw [h'.bytes x (h.new_lt _ hN), h.bytes_new x hN]) (h'.bytes_new x)
  sentinel := fun x hx hx' => by rw [h'.sentinel x hx hx', h.sentinel x hx hx']
  calls := by
    obtain ⟨new, hnew, hlog⟩ := h.calls
    obtain ⟨new', hnew', hlog'⟩ := h'.calls
    refine ⟨new' ++ new, by rw [hnew', hnew, List.append_assoc], ?_⟩
    intro c hc
    rcases List.mem_append.mp hc with hc | hc
    · have hl := hlog' c hc
      refine { need_eq := hl.need_eq, unserved := hl.unserved, bytes := ?_, granted := ?_ }
      · intro x hx
        rw [hl.bytes x (lt_of_lt_of_le hx h.size_le), h.bytes x hx]
      · intro r hr i hi hlim
        exact Or.inr (hl.granted r hr i hi hlim)
    · have hl := hlog c hc
      exact { need_eq := hl.need_eq, unserved := hl.unserved, bytes := hl.bytes,
              granted := fun r hr i hi hlim => Or.inl (hl.granted r hr i hi hlim) }

theorem Grown.keeps {s s1 : Supply M} {need : Need} {N : Nat → Prop} (h : Grown s s1 need N)
    {m : SliceMap} (hm : SliceMap.Keeps s1.map m) : Grown s { s1 with map := m } need N :=
  { h with
    inv := hm.inv
    base := hm.base.trans h.base
    recorded := fun i => (hm.recorded_iff i).trans (h.recorded i)
    free := fun i => (hm.free i).trans (h.free i)
    zero := fun i => (hm.zero i).trans (h.zero i) }

section Contract
variable [Memory.Contract M] {s : Supply M} {need : Need}

theorem sizeSlices_lt (c : M) : sizeSlices c < usizeSize := by
  have hle := Memory.Contract.size_le c
  have h32 := two_pow_32_le
  unfold sliceSize at hle
  omega

theorem grow_refused (hinv : s.map.Inv) (hneed : ¬ need.Servable s.map) {stop want : Nat}
    {s1 : Supply M} (h : s.grow need stop want = (none, s1)) :
    Grown s s1 need (fun _ => False) ∧ s1.map = s.map ∧
      ∃ c, s1.calls = c :: s.calls ∧ c.got = none := by
  obtain ⟨hgot, hs1⟩ := Prod.mk.inj h
  simp only [hgot] at hs1
  rw [← hs1]
  refine ⟨?_, rfl, _, rfl, rfl⟩
  refine { Grown.refl hinv need with
    size_le := Memory.Contract.size_mono _ _
    new_lt := fun _ hi => hi.elim
    recorded := fun _ => (or_iff_left id).symm
    free := fun _ => (or_iff_left id).symm
    zero := fun _ => (or_iff_left id).symm
    calls := ⟨[_], rfl, ?_⟩ }
  intro c hc
  obtain rfl := List.mem_singleton.mp hc
  exact { need_eq := rfl, unserved := hneed, bytes := fun _ _ => rfl,
          granted := fun r hr => by cases hr }

/-- The part of a grown region that joins the map. -/
def Region (s : Supply M) (start count i : Nat) : Prop :=
  InRun start count i ∧ i < s.map.usableLimit

theorem grow_granted (hinv : s.map.Inv) (hbase : s.map.base ≤ sizeSlices s.mem)
    (hneed : ¬ need.Servable s.map) {stop want start : Nat} {s1 : Supply M}
    (h : s.grow need stop want = (some start, s1)) :
    Grown s (s1.addRegion start want) need (Region s start want) ∧ s1.map = s.map ∧
      ∃ c, s1.calls = c :: s.calls ∧ c.got = some start ∧ c.stop = stop := by
  obtain ⟨hgot, hs1⟩ := Prod.mk.inj h
  simp only [hgot] at hs1
  rw [← hs1]
  refine ⟨?_, rfl, _, rfl, rfl, rfl⟩
  obtain ⟨hfresh, hend⟩ := Memory.Contract.grow_fresh _ _ _ hgot
  have hapart := Memory.Contract.grow_apart _ _ _ hgot
  have hsat : saturatingAdd start want = start + want := by
    have hlt := sizeSlices_lt (Memory.grow s.mem want).2
    unfold saturatingAdd usizeMax
    omega
  -- What the map gains is the region below the usable limit.
  have hmap : let m := Wasmalloc.addRegion s.map start want
      m.Inv ∧ m.base = s.map.base ∧
      (∀ i, m.Recorded i ↔ s.map.Recorded i ∨ Region s start want i) ∧
      (∀ i, m.Free i ↔ s.map.Free i ∨ Region s start want i) ∧
      (∀ i, m.Zero i ↔ s.map.Zero i ∨ Region s start want i) := by
    unfold Wasmalloc.addRegion Region
    simp only [hsat]
    have hlim := s.map.usableLimit_le
    by_cases hlt : start < min (start + want) s.map.usableLimit
    · rw [if_pos hlt]
      have hin : s.map.Inside start (min (start + want) s.map.usableLimit - start) := by
        unfold SliceMap.Inside
        omega
      have hclip : SliceMap.clippedCount start (min (start + want) s.map.usableLimit - start)
          = min (start + want) s.map.usableLimit - start := by
        have hmax : start ≤ maxSliceIndex → s.map.usableLimit ≤ maxSliceIndex := by
          intro hle
          have : s.map.base ≤ maxSliceIndex := by omega
          unfold SliceMap.usableLimit
          rw [if_pos this]
          exact Nat.min_le_right _ _
        unfold SliceMap.clippedCount
        split
        · rename_i hle
          have := hmax hle
          omega
        · rfl
      obtain ⟨h1, h2, h3, h4, h5⟩ := SliceMap.addFree_spec true hinv hin.clipped
      rw [hclip] at h3 h4 h5
      have hiff : ∀ i, InRun start (min (start + want) s.map.usableLimit - start) i ↔
          InRun start want i ∧ i < s.map.usableLimit := by
        intro i
        unfold InRun
        omega
      refine ⟨h1, h2, ?_, ?_, ?_⟩
      · intro i
        rw [h3, hiff]
      · intro i
        rw [h4, hiff]
      · intro i
        rw [h5, hiff]
        simp
    · rw [if_neg hlt]
      have hnone : ∀ i, ¬ (InRun start want i ∧ i < s.map.usableLimit) := by
        intro i
        unfold InRun
        omega
      refine ⟨hinv, rfl, ?_, ?_, ?_⟩ <;> intro i <;> rw [or_iff_left (hnone i)]
  obtain ⟨h1, h2, h3, h4, h5⟩ := hmap
  have hbytes : ∀ x, ¬ InRun start want (x / sliceSize) →
      fill s.bytes (start * sliceSize) (want * sliceSize) 0 x = s.bytes x := by
    intro x hx
    rw [inRun_div] at hx
    exact fill_out (by omega)
  have hnew : ∀ i, Region s start want i → sizeSlices s.mem ≤ i ∧
      i < sizeSlices (Memory.grow s.mem want).2 := by
    intro i hi
    have := hi.1
    unfold InRun at this
    omega
  refine { inv := h1, base := h2, size_le := Memory.Contract.size_mono _ _,
           new_ge := fun i hi => (hnew i hi).1, new_lt := fun i hi => (hnew i hi).2,
           new_limit := fun i hi => lt_of_lt_of_le hi.2 s.map.usableLimit_le,
           new_apart := ?_, recorded := h3, free := h4, zero := h5, bytes := ?_, bytes_new := ?_,
           sentinel := ?_, calls := ⟨[_], rfl, ?_⟩ }
  · intro i hi
    have hlo : start * sliceSize ≤ i * sliceSize := Nat.mul_le_mul_right _ hi.1.1
    have hhi : (i + 1) * sliceSize ≤ (start + want) * sliceSize := Nat.mul_le_mul_right _ hi.1.2
    rw [Nat.add_mul, Nat.one_mul, Nat.add_mul] at hhi
    unfold Apart at hapart ⊢
    omega
  · intro x hx
    refine hbytes x ?_
    unfold InRun
    omega
  · intro x hx
    obtain ⟨hlo, hhi⟩ := inRun_div.mp hx.1
    show fill s.bytes (start * sliceSize) (want * sliceSize) 0 x = 0
    exact fill_in hlo hhi
  · intro x hx hx'
    unfold Apart at hapart
    exact fill_out (by omega)
  · intro c hc
    obtain rfl := List.mem_singleton.mp hc
    refine { need_eq := rfl, unserved := hneed, bytes := fun _ _ => rfl, granted := ?_ }
    intro r hr i hi hlim
    obtain rfl := Option.some.inj hr
    exact ⟨hi, hlim⟩

/-- The newest call since `s` was refused. -/
def Refused (s s' : Supply M) : Prop :=
  ∃ c rest, s'.calls = c :: rest ∧ s.calls <:+ rest ∧ c.got = none

/-- The newest call since `s` was granted a region that does not start at the old end. -/
def Displaced (s s' : Supply M) : Prop :=
  ∃ c rest r, s'.calls = c :: rest ∧ s.calls <:+ rest ∧ c.got = some r ∧ r ≠ c.stop

/-- An aligned run right after the end of memory would pass the usable limit. -/
def OutOfRoom (s : Supply M) (count align : Nat) : Prop :=
  s.map.usableLimit < PowTwo.roundUp (sizeSlices s.mem) align + count

theorem growWant_spec (hinv : s.map.Inv) (hbase : s.map.base ≤ sizeSlices s.mem)
    (hneed : ¬ need.Servable s.map) (stop want needed : Nat) :
    (∃ s1, s.growWant need stop want needed = (none, s1) ∧ Grown s s1 need (fun _ => False) ∧
      s1.map = s.map ∧ Refused s s1) ∨
    (∃ s1 start got, s.growWant need stop want needed = (some (start, got), s1) ∧
      (got = want ∨ got = needed) ∧
      Grown s (s1.addRegion start got) need (Region s start got) ∧ s1.map = s.map ∧
      ∃ c rest, s1.calls = c :: rest ∧ s.calls <:+ rest ∧ c.got = some start ∧ c.stop = stop) := by
  unfold growWant
  cases hfirst : s.grow need stop want with
  | mk got1 s1 =>
  cases got1 with
  | some start =>
    obtain ⟨hgrown, hmap, c, hcalls, hgot, hstop⟩ := grow_granted hinv hbase hneed hfirst
    exact Or.inr ⟨s1, start, want, rfl, Or.inl rfl, hgrown, hmap, c, s.calls, hcalls,
      List.suffix_refl _, hgot, hstop⟩
  | none =>
    obtain ⟨hgrown1, hmap1, c1, hcalls1, hgot1⟩ := grow_refused hinv hneed hfirst
    simp only
    split
    · cases hsecond : s1.grow need stop needed with
      | mk got2 s2 =>
      have hbase1 : s1.map.base ≤ sizeSlices s1.mem := by
        rw [hmap1]
        exact le_trans hbase hgrown1.size_le
      have hneed1 : ¬ need.Servable s1.map := by rwa [hmap1]
      have hsuffix : s.calls <:+ s1.calls := by
        rw [hcalls1]
        exact List.suffix_cons _ _
      cases got2 with
      | some start =>
        obtain ⟨hgrown2, hmap2, c, hcalls, hgot, hstop⟩ :=
          grow_granted hgrown1.inv hbase1 hneed1 hsecond
        have hregion : (fun i => False ∨ Region s1 start needed i) = Region s start needed := by
          funext i
          unfold Region
          rw [hmap1, false_or]
        have hgrown := hgrown1.trans hgrown2
        rw [hregion] at hgrown
        exact Or.inr ⟨s2, start, needed, rfl, Or.inr rfl, hgrown, hmap2.trans hmap1, c, s1.calls,
          hcalls, hsuffix, hgot, hstop⟩
      | none =>
        obtain ⟨hgrown2, hmap2, c, hcalls, hgot⟩ := grow_refused hgrown1.inv hneed1 hsecond
        have hgrown := hgrown1.trans hgrown2
        simp only [or_self] at hgrown
        exact Or.inl ⟨s2, rfl, hgrown, hmap2.trans hmap1, c, s1.calls, hcalls, hsuffix, hgot⟩
    · exact Or.inl ⟨s1, rfl, hgrown1, hmap1, c1, s.calls, hcalls1, List.suffix_refl _, hgot1⟩

omit [Memory.Contract M] in
theorem region_serves {s1 : Supply M} {N : Nat → Prop} {start got count align a : Nat}
    (h : Grown s s1 need N) (hN : ∀ i, Region s start got i → N i) (ha : align ∣ a)
    (hlo : start ≤ a) (hhi : a + count ≤ start + got) (hlim : a + count ≤ s.map.usableLimit) :
    s1.map.Serves count align a where
  aligned := ha
  free := by
    intro i hi
    rw [h.free]
    right
    apply hN
    unfold Region InRun at *
    omega

omit [Memory.Contract M] in
/-- The worst-case request serves wherever its region starts, if it is not clipped. -/
theorem retry_serves {s1 : Supply M} {start count k : Nat} {need : Need}
    (h : Grown s s1 need (Region s start (count + (2 ^ k - 1))))
    (hlim : start + (count + (2 ^ k - 1)) ≤ s.map.usableLimit) :
    s1.map.Serves count (2 ^ k) (PowTwo.roundUp start (2 ^ k)) := by
  have hpow := Nat.two_pow_pos k
  have hup := PowTwo.le_roundUp (x := start) hpow
  have hlt := PowTwo.roundUp_lt (x := start) hpow
  exact region_serves h (fun _ hi => hi) (PowTwo.dvd_roundUp start _) hup (by omega) (by omega)

omit [Memory M] [Memory.Contract M] in
theorem alloc_eq {count align : Nat} {run : Option Run} {m : SliceMap}
    (h : s.map.alloc count align = (run, m)) : s.alloc count align = (run, { s with map := m }) := by
  unfold alloc
  rw [h]

theorem growWant_size (s : Supply M) (need : Need) (stop want needed : Nat) :
    sizeSlices s.mem ≤ sizeSlices (s.growWant need stop want needed).2.mem := by
  have hgrow : ∀ (s : Supply M) n, sizeSlices s.mem ≤ sizeSlices (s.grow need stop n).2.mem :=
    fun s n => Memory.Contract.size_mono s.mem n
  have hfirst := hgrow s want
  unfold growWant
  rcases hone : s.grow need stop want with ⟨_ | start, s1⟩
  · rw [hone] at hfirst
    simp only
    split
    · have hsecond := hgrow s1 needed
      rcases htwo : s1.grow need stop needed with ⟨_ | start, s2⟩
      · rw [htwo] at hsecond
        exact le_trans hfirst hsecond
      · rw [htwo] at hsecond
        exact le_trans hfirst hsecond
    · exact hfirst
  · rw [hone] at hfirst
    exact hfirst

/-- What a request for a run ends in: a run of the grown map, or no run and a reason. -/
def Acquired (s : Supply M) (count align : Nat) (r : Option Run × Supply M) : Prop :=
  ∃ s1 N m, Grown s s1 (.run count align) N ∧ r.2 = { s1 with map := m } ∧
    ((∃ run, r.1 = some run ∧ SliceMap.Served s1.map m count align run) ∨
     (r.1 = none ∧ SliceMap.Keeps s1.map m ∧ (∀ start, ¬ s1.map.Serves count align start) ∧
      (Refused s r.2 ∨ Displaced s r.2 ∨ OutOfRoom r.2 count align)))

omit [Memory.Contract M] in
theorem alloc_acquired {s1 : Supply M} {N : Nat → Prop} {count k : Nat} (hc : 1 ≤ count)
    (h : Grown s s1 (.run count (2 ^ k)) N)
    (hend : (∀ start, ¬ s1.map.Serves count (2 ^ k) start) → Displaced s s1) :
    Acquired s count (2 ^ k) (s1.alloc count (2 ^ k)) := by
  obtain ⟨hsome, hnone⟩ := SliceMap.alloc_spec (k := k) h.inv hc
  refine ⟨s1, N, (s1.map.alloc count (2 ^ k)).2, h, rfl, ?_⟩
  cases halloc : s1.map.alloc count (2 ^ k) with
  | mk run m =>
  unfold alloc
  rw [halloc]
  cases run with
  | some run => exact Or.inl ⟨run, rfl, hsome run m halloc⟩
  | none =>
    obtain ⟨hkeeps, hno⟩ := hnone m halloc
    exact Or.inr ⟨rfl, hkeeps, hno, Or.inr (Or.inl (hend hno))⟩

omit [Memory.Contract M] in
/-- Giving up after a growth: the map serves the request neither before nor after. -/
theorem giveUp_acquired {s1 : Supply M} {N : Nat → Prop} {count align : Nat}
    (h : Grown s s1 (.run count align) N) (hno : ∀ start, ¬ s1.map.Serves count align start)
    (hend : Refused s s1 ∨ Displaced s s1 ∨ OutOfRoom s1 count align) :
    Acquired s count align (none, s1) :=
  ⟨s1, N, s1.map, h, rfl, Or.inr ⟨rfl, SliceMap.Keeps.refl h.inv, hno, hend⟩⟩

omit [Memory.Contract M] in
/-- The slack to the next aligned slice, as the source computes it. -/
theorem pad_eq (c : M) {k : Nat} (hk : k ≤ usizeBits) :
    wrappingNeg (sizeSlices c) &&& (2 ^ k - 1)
      = PowTwo.roundUp (sizeSlices c) (2 ^ k) - sizeSlices c := by
  unfold wrappingNeg usizeSize
  exact PowTwo.neg_land hk

omit [Memory.Contract M] in
/-- The bare request: the slack to the next aligned slice, and the run. -/
def bareRequest (s : Supply M) (count align : Nat) : Nat :=
  PowTwo.roundUp (sizeSlices s.mem) align - sizeSlices s.mem + count

omit [Memory.Contract M] in
/-- The first request: the bare one, or the geometric step if that is larger and fits. -/
def firstRequest (s : Supply M) (policy : GrowPolicy) (count align : Nat) : Nat :=
  min (max (s.bareRequest count align) (growthStep s.map (sizeSlices s.mem) policy))
    (s.map.usableLimit - sizeSlices s.mem)

/-- The roads through `growAndAlloc`, with the tests passed on each. -/
inductive Grew (s : Supply M) (policy : GrowPolicy) (count align : Nat) :
    Option Run × Supply M → Prop where
  | full : s.map.usableLimit < sizeSlices s.mem + s.bareRequest count align →
    Grew s policy count align (none, s)
  | refused {s1 : Supply M} :
    sizeSlices s.mem + s.bareRequest count align ≤ s.map.usableLimit →
    s.growWant (.run count align) (sizeSlices s.mem) (s.firstRequest policy count align)
      (s.bareRequest count align) = (none, s1) →
    Grew s policy count align (none, s1)
  | served {s1 s2 : Supply M} {start got : Nat} {run : Run} :
    sizeSlices s.mem + s.bareRequest count align ≤ s.map.usableLimit →
    s.growWant (.run count align) (sizeSlices s.mem) (s.firstRequest policy count align)
      (s.bareRequest count align) = (some (start, got), s1) →
    (s1.addRegion start got).alloc count align = (some run, s2) →
    Grew s policy count align (some run, s2)
  | stuck {s1 s2 : Supply M} {start got : Nat} :
    sizeSlices s.mem + s.bareRequest count align ≤ s.map.usableLimit →
    s.growWant (.run count align) (sizeSlices s.mem) (s.firstRequest policy count align)
      (s.bareRequest count align) = (some (start, got), s1) →
    (s1.addRegion start got).alloc count align = (none, s2) →
    s.map.usableLimit < sizeSlices s2.mem + (count + (align - 1)) →
    Grew s policy count align (none, s2)
  | again {s1 s2 s3 : Supply M} {start got : Nat} {got3 : Option Nat} :
    sizeSlices s.mem + s.bareRequest count align ≤ s.map.usableLimit →
    s.growWant (.run count align) (sizeSlices s.mem) (s.firstRequest policy count align)
      (s.bareRequest count align) = (some (start, got), s1) →
    (s1.addRegion start got).alloc count align = (none, s2) →
    sizeSlices s2.mem + (count + (align - 1)) ≤ s.map.usableLimit →
    s2.grow (.run count align) (sizeSlices s2.mem) (count + (align - 1)) = (got3, s3) →
    Grew s policy count align (match got3 with
      | none => (none, s3)
      | some start3 => (s3.addRegion start3 (count + (align - 1))).alloc count align)

omit [Memory.Contract M] in
theorem firstRequest_fits (s : Supply M) (policy : GrowPolicy) {count align : Nat} (hc : 1 ≤ count)
    (hfit : sizeSlices s.mem + s.bareRequest count align ≤ s.map.usableLimit) :
    1 ≤ s.bareRequest count align ∧
    s.bareRequest count align ≤ s.firstRequest policy count align ∧
    sizeSlices s.mem + s.firstRequest policy count align ≤ s.map.usableLimit := by
  have hbare : count ≤ s.bareRequest count align := Nat.le_add_left _ _
  unfold firstRequest
  omega

omit [Memory M] [Memory.Contract M] in
theorem usableLimit_lt (s : Supply M) {stop : Nat} (hbase : s.map.base ≤ stop) :
    s.map.usableLimit < stop + usizeSize := by
  have hle := s.map.usableLimit_le
  have hcap := SliceMap.capacity_lt_usize
  unfold SliceMap.limit at hle
  omega

/-- **`growAndAlloc` takes one of the roads.** -/
theorem growAndAlloc_road (policy : GrowPolicy) {count k : Nat}
    (hbase : s.map.base ≤ sizeSlices s.mem) (hc : 1 ≤ count) (hk : k ≤ usizeBits) :
    Grew s policy count (2 ^ k) (s.growAndAlloc policy count (2 ^ k)) := by
  have hlimit := s.usableLimit_lt hbase
  have hsizes : ∀ {s1 s2 : Supply M} {start got : Nat} {run : Option Run},
      s.growWant (.run count (2 ^ k)) (sizeSlices s.mem) (s.firstRequest policy count (2 ^ k))
        (s.bareRequest count (2 ^ k)) = (some (start, got), s1) →
      (s1.addRegion start got).alloc count (2 ^ k) = (run, s2) →
      sizeSlices s.mem ≤ sizeSlices s2.mem := by
    intro s1 s2 start got run hgrow halloc
    have hmem : s2.mem = s1.mem := by
      rw [← (Prod.mk.inj halloc).2]
      rfl
    rw [hmem]
    have hle := growWant_size s (.run count (2 ^ k)) (sizeSlices s.mem)
      (s.firstRequest policy count (2 ^ k)) (s.bareRequest count (2 ^ k))
    rw [hgrow] at hle
    exact hle
  unfold growAndAlloc
  simp only [pad_eq s.mem hk]
  have hbare : PowTwo.roundUp (sizeSlices s.mem) (2 ^ k) - sizeSlices s.mem + count
      = s.bareRequest count (2 ^ k) := rfl
  unfold checkedAdd
  rw [hbare]
  -- The sum of pad and count overflows only beyond any limit.
  by_cases hfit : s.bareRequest count (2 ^ k) < usizeSize
  swap
  · rw [if_neg hfit]
    exact .full (by omega)
  rw [if_pos hfit]
  simp only
  split
  · have hpos : count ≤ s.bareRequest count (2 ^ k) := Nat.le_add_left _ _
    exact .full (by omega)
  rename_i hroom
  have hroom : sizeSlices s.mem + s.bareRequest count (2 ^ k) ≤ s.map.usableLimit := by
    have hpos : count ≤ s.bareRequest count (2 ^ k) := Nat.le_add_left _ _
    omega
  have hfirst : min (max (s.bareRequest count (2 ^ k))
      (growthStep s.map (sizeSlices s.mem) policy)) (s.map.usableLimit - sizeSlices s.mem)
      = s.firstRequest policy count (2 ^ k) := rfl
  rw [hfirst]
  rcases hgrow : s.growWant (.run count (2 ^ k)) (sizeSlices s.mem)
    (s.firstRequest policy count (2 ^ k)) (s.bareRequest count (2 ^ k)) with ⟨_ | ⟨start, got⟩, s1⟩
  · exact .refused hroom hgrow
  simp only
  rcases halloc : (s1.addRegion start got).alloc count (2 ^ k) with ⟨_ | run, s2⟩
  swap
  · exact .served hroom hgrow halloc
  -- The grant came without what was asked: the second request starts at the new end.
  have hsize := hsizes hgrow halloc
  simp only
  by_cases hworst : count + (2 ^ k - 1) < usizeSize
  swap
  · rw [if_neg hworst]
    exact .stuck hroom hgrow halloc (by omega)
  rw [if_pos hworst]
  simp only
  split
  · exact .stuck hroom hgrow halloc (by omega)
  rename_i hroom2
  have hpos := Nat.two_pow_pos k
  rcases hgrow2 : s2.grow (.run count (2 ^ k)) (sizeSlices s2.mem) (count + (2 ^ k - 1)) with
    ⟨_ | start3, s3⟩
  · exact .again hroom hgrow halloc (by omega) hgrow2
  · exact .again hroom hgrow halloc (by omega) hgrow2

/-- A granted first request that did not serve: its region started elsewhere. -/
theorem growWant_stuck {policy : GrowPolicy} {count k : Nat} {s1 s2 : Supply M} {start got : Nat}
    (hinv : s.map.Inv) (hbase : s.map.base ≤ sizeSlices s.mem) (hc : 1 ≤ count)
    (hneed : ∀ start, ¬ s.map.Serves count (2 ^ k) start)
    (hfit : sizeSlices s.mem + s.bareRequest count (2 ^ k) ≤ s.map.usableLimit)
    (hgrow : s.growWant (.run count (2 ^ k)) (sizeSlices s.mem)
      (s.firstRequest policy count (2 ^ k)) (s.bareRequest count (2 ^ k)) = (some (start, got), s1))
    (halloc : (s1.addRegion start got).alloc count (2 ^ k) = (none, s2)) :
    (∃ N, Grown s s2 (.run count (2 ^ k)) N) ∧ (∀ a, ¬ s2.map.Serves count (2 ^ k) a) ∧
      SliceMap.Keeps (s1.addRegion start got).map s2.map ∧ start ≠ sizeSlices s.mem ∧
      Displaced s s2 ∧ s.calls <:+ s2.calls := by
  have hup := PowTwo.le_roundUp (x := sizeSlices s.mem) (Nat.two_pow_pos k)
  have hbare : sizeSlices s.mem + s.bareRequest count (2 ^ k)
      = PowTwo.roundUp (sizeSlices s.mem) (2 ^ k) + count := by
    unfold bareRequest
    omega
  obtain ⟨-, hge, hle⟩ := firstRequest_fits s policy hc hfit
  have hneed' : ¬ (Need.run count (2 ^ k)).Servable s.map := fun ⟨a, ha⟩ => hneed a ha
  rcases growWant_spec hinv hbase hneed' (sizeSlices s.mem)
    (s.firstRequest policy count (2 ^ k)) (s.bareRequest count (2 ^ k)) with
    ⟨s1', hg, -⟩ | ⟨s1', start', got', hg, hgot, hgrown, hmap, hcall⟩
  · rw [hgrow] at hg
    cases hg
  rw [hgrow] at hg
  cases hg
  obtain ⟨hnone, rfl⟩ := Prod.mk.inj halloc
  rcases hm : (s1.addRegion start got).map.alloc count (2 ^ k) with ⟨run, m⟩
  rw [hm] at hnone
  simp only at hnone
  subst hnone
  obtain ⟨hkeeps, hno⟩ := (SliceMap.alloc_spec (k := k) hgrown.inv hc).2 m hm
  have hno2 : ∀ a, ¬ m.Serves count (2 ^ k) a := fun a ha =>
    hno a { aligned := ha.aligned, free := fun i hi => (hkeeps.free i).mp (ha.free i hi) }
  -- A region at the old end would have served the request.
  have hdisplaced : start ≠ sizeSlices s.mem := by
    intro heq
    refine hno _ (region_serves hgrown (fun _ hi => hi) (PowTwo.dvd_roundUp (sizeSlices s.mem) _)
      (heq ▸ hup) ?_ ?_)
    · rw [heq]
      omega
    · omega
  obtain ⟨c, rest, hcalls, hsuffix, hcgot, hcstop⟩ := hcall
  refine ⟨⟨_, hgrown.keeps hkeeps⟩, hno2, hkeeps, hdisplaced,
    ⟨c, rest, start, hcalls, hsuffix, hcgot, by rw [hcstop]; exact hdisplaced⟩, ?_⟩
  show s.calls <:+ s1.calls
  rw [hcalls]
  exact hsuffix.trans (List.suffix_cons _ _)

theorem growAndAlloc_spec (policy : GrowPolicy) {count k : Nat} (hinv : s.map.Inv)
    (hbase : s.map.base ≤ sizeSlices s.mem) (hc : 1 ≤ count) (hk : k ≤ usizeBits)
    (hneed : ∀ start, ¬ s.map.Serves count (2 ^ k) start) :
    Acquired s count (2 ^ k) (s.growAndAlloc policy count (2 ^ k)) := by
  have hneed' : ¬ (Need.run count (2 ^ k)).Servable s.map := fun ⟨start, hs⟩ => hneed start hs
  have hwant := growWant_spec hinv hbase hneed' (sizeSlices s.mem)
    (s.firstRequest policy count (2 ^ k)) (s.bareRequest count (2 ^ k))
  have hroad := growAndAlloc_road policy hbase hc hk
  generalize s.growAndAlloc policy count (2 ^ k) = r at hroad ⊢
  cases hroad with
  | full hfull =>
    refine giveUp_acquired (Grown.refl hinv _) hneed (Or.inr (Or.inr ?_))
    have hup := PowTwo.le_roundUp (x := sizeSlices s.mem) (Nat.two_pow_pos k)
    unfold bareRequest at hfull
    unfold OutOfRoom
    omega
  | refused hfit hgrow =>
    rcases hwant with ⟨s1', hg, hgrown, hmap, href⟩ | ⟨s1', start', got', hg, -⟩
    · rw [hgrow] at hg
      cases hg
      exact giveUp_acquired hgrown (by rwa [hmap]) (Or.inl href)
    · rw [hgrow] at hg
      cases hg
  | served hfit hgrow halloc =>
    rcases hwant with ⟨s1', hg, -⟩ | ⟨s1', start', got', hg, hgot, hgrown, hmap, hcall⟩
    · rw [hgrow] at hg
      cases hg
    rw [hgrow] at hg
    cases hg
    obtain ⟨hrun, rfl⟩ := Prod.mk.inj halloc
    have hsome := (SliceMap.alloc_spec (k := k) hgrown.inv hc).1 _ _ (Prod.ext hrun rfl)
    exact ⟨_, _, _, hgrown, rfl, Or.inl ⟨_, rfl, hsome⟩⟩
  | stuck hfit hgrow halloc hfull =>
    obtain ⟨⟨N, hgrown⟩, hno, -, -, hdis, -⟩ := growWant_stuck hinv hbase hc hneed hfit hgrow halloc
    exact giveUp_acquired hgrown hno (Or.inr (Or.inl hdis))
  | @again s1 s2 s3 start got got3 hfit hgrow halloc hroom hgrow3 =>
    obtain ⟨⟨N, hgrown⟩, hno, -, -, hdis, hsuffix⟩ :=
      growWant_stuck hinv hbase hc hneed hfit hgrow halloc
    have hneed2 : ¬ (Need.run count (2 ^ k)).Servable s2.map := fun ⟨a, ha⟩ => hno a ha
    have hbase2 : s2.map.base ≤ sizeSlices s2.mem := by
      rw [hgrown.base]
      exact le_trans hbase hgrown.size_le
    cases got3 with
    | none =>
      obtain ⟨hgrown3, hmap3, c3, hcalls3, hgot3⟩ := grow_refused hgrown.inv hneed2 hgrow3
      exact giveUp_acquired (hgrown.trans hgrown3) (by rw [hmap3]; exact hno)
        (Or.inl ⟨c3, s2.calls, hcalls3, hsuffix, hgot3⟩)
    | some start3 =>
      obtain ⟨hgrown3, hmap3, c3, hcalls3, hgot3, hstop3⟩ :=
        grow_granted hgrown.inv hbase2 hneed2 hgrow3
      refine alloc_acquired hc (hgrown.trans hgrown3) fun hno3 => ?_
      refine ⟨c3, s2.calls, start3, hcalls3, hsuffix, hgot3, ?_⟩
      rw [hstop3]
      intro heq
      refine hno3 _ (retry_serves hgrown3 ?_)
      rw [(limit_eq hgrown.base).2, heq]
      exact hroom

/-- **`acquire`** finds an aligned run of free slices, growing memory if need be; every
    growth on the way was made for a request the map could not serve. -/
theorem acquire_spec (policy : GrowPolicy) {count k : Nat} (hinv : s.map.Inv)
    (hbase : s.map.base ≤ sizeSlices s.mem) (hc : 1 ≤ count) (hk : k ≤ usizeBits) :
    Acquired s count (2 ^ k) (s.acquire policy count (2 ^ k)) := by
  obtain ⟨hsome, hnone⟩ := SliceMap.alloc_spec (k := k) hinv hc
  unfold acquire
  cases halloc : s.map.alloc count (2 ^ k) with
  | mk run m =>
  rw [alloc_eq halloc]
  cases run with
  | some run =>
    exact ⟨s, _, m, Grown.refl hinv _, rfl, Or.inl ⟨run, rfl, hsome run m halloc⟩⟩
  | none =>
    obtain ⟨hkeeps, hno⟩ := hnone m halloc
    have hno' : ∀ a, ¬ m.Serves count (2 ^ k) a := fun a ha =>
      hno a { aligned := ha.aligned, free := fun i hi => (hkeeps.free i).mp (ha.free i hi) }
    have hself := (Grown.refl hinv (Need.run count (2 ^ k))).keeps hkeeps
    simp only
    obtain ⟨s1, N, m', hgrown, hr, hend⟩ := growAndAlloc_spec (s := { s with map := m }) policy
      hkeeps.inv (by rw [hkeeps.base]; exact hbase) hc hk hno'
    refine ⟨s1, _, m', hself.trans hgrown, hr, ?_⟩
    exact hend

/-- What growing a run in place ends in: the slices after it, or nothing claimed. -/
def Extended (s : Supply M) (start count extra : Nat) (r : Option Bool × Supply M) : Prop :=
  ∃ s1 N m, Grown s s1 (.tail start count extra) N ∧ r.2 = { s1 with map := m } ∧
    ((∃ z, r.1 = some z ∧ s1.map.TailFree start count extra ∧
      SliceMap.Takes s1.map m (start + count) extra) ∨ (r.1 = none ∧ m = s1.map))

omit [Memory.Contract M] in
theorem tryExtend_extended {s1 : Supply M} {N : Nat → Prop} {start count extra : Nat}
    (h : Grown s s1 (.tail start count extra) N) (hin : s1.map.Inside start count) :
    Extended s start count extra (s1.tryExtend start count extra) := by
  obtain ⟨hsome, hnone⟩ := SliceMap.tryExtend_spec h.inv hin
  refine ⟨s1, N, (s1.map.tryExtend start count extra).2, h, rfl, ?_⟩
  unfold tryExtend
  cases htry : s1.map.tryExtend start count extra with
  | mk z m =>
  cases z with
  | some z =>
    obtain ⟨hfree, -, htakes, -⟩ := hsome z m htry
    exact Or.inl ⟨z, rfl, hfree, htakes⟩
  | none => exact Or.inr ⟨rfl, (hnone m htry).1⟩

theorem growAndExtend_spec (policy : GrowPolicy) {start count extra : Nat} (hinv : s.map.Inv)
    (hbase : s.map.base ≤ sizeSlices s.mem) (hin : s.map.Inside start count)
    (hneed : ¬ s.map.TailFree start count extra) :
    Extended s start count extra (s.growAndExtend policy start count extra) := by
  have hgiveUp : ∀ {s1 : Supply M} {N : Nat → Prop}, Grown s s1 (.tail start count extra) N →
      Extended s start count extra (none, s1) := fun {s1 N} h =>
    ⟨s1, N, s1.map, h, rfl, Or.inr ⟨rfl, rfl⟩⟩
  unfold growAndExtend
  simp only
  split
  · exact hgiveUp (Grown.refl hinv _)
  split
  · exact hgiveUp (Grown.refl hinv _)
  split
  · exact hgiveUp (Grown.refl hinv _)
  generalize min (max (extra - (sizeSlices s.mem - (start + count)))
    (growthStep s.map (sizeSlices s.mem) policy)) (s.map.usableLimit - sizeSlices s.mem) = want
  have hneed' : ¬ (Need.tail start count extra).Servable s.map := hneed
  rcases growWant_spec hinv hbase hneed' (sizeSlices s.mem) want
    (extra - (sizeSlices s.mem - (start + count))) with
    ⟨s1, hg, hgrown, hmap, -⟩ | ⟨s1, region, got, hg, -, hgrown, hmap, -⟩
  · rw [hg]
    exact hgiveUp hgrown
  · rw [hg]
    simp only
    split
    · exact hgiveUp hgrown
    · refine tryExtend_extended hgrown ?_
      unfold SliceMap.Inside SliceMap.limit at *
      rw [hgrown.base]
      exact hin

/-- **`extendWithGrowth`** claims the slices after the run, growing memory if need be, or
    claims nothing. -/
theorem extendWithGrowth_spec (policy : GrowPolicy) {start count extra : Nat} (hinv : s.map.Inv)
    (hbase : s.map.base ≤ sizeSlices s.mem) (hin : s.map.Inside start count) :
    Extended s start count extra (s.extendWithGrowth policy start count extra) := by
  obtain ⟨hsome, hnone⟩ := SliceMap.tryExtend_spec hinv hin
  unfold extendWithGrowth tryExtend
  cases htry : s.map.tryExtend start count extra with
  | mk z m =>
  cases z with
  | some z =>
    obtain ⟨hfree, -, htakes, -⟩ := hsome z m htry
    exact ⟨s, _, m, Grown.refl hinv _, rfl, Or.inl ⟨z, rfl, hfree, htakes⟩⟩
  | none =>
    obtain ⟨hm, hneed⟩ := hnone m htry
    simp only [hm]
    exact growAndExtend_spec policy hinv hbase hin hneed

end Contract

end Supply

end Wasmalloc
