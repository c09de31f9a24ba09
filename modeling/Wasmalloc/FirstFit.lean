import Wasmalloc.SliceOps

/- Where the slice map puts a run.

   `alloc` is aligned first fit: it takes the lowest aligned start of a free run, by
   absolute slice index, whichever of its scans serves the request. `allocTail` takes
   the lowest aligned slice of the free tail below an end. No loop of the searches
   stops for lack of fuel, so the bounds the model puts on them bound nothing. -/
namespace Wasmalloc
open Words Search

/-- `align.is_power_of_two()`. -/
def PowerOfTwo (align : Nat) : Prop := ∃ k, align = 2 ^ k

section
variable [Build]

namespace SliceMap

/-! ## Enough fuel -/

theorem advanceHintFrom_more {free : Nat → U64} (n : Nat) {fuel : Nat} : ∀ {hint : Nat},
    words ≤ hint + fuel →
    advanceHintFrom free (fuel + n) hint = advanceHintFrom free fuel hint := by
  induction fuel with
  | zero =>
    intro hint hfuel
    rw [Nat.zero_add]
    cases n with
    | zero => rfl
    | succ n => exact if_neg (fun h => absurd h.1 (Nat.not_lt_of_le hfuel))
  | succ fuel ih =>
    intro hint hfuel
    rw [Nat.add_right_comm, advanceHintFrom, advanceHintFrom, ih (by omega)]

theorem nextSetFrom_more {free : Nat → U64} (n : Nat) {fuel : Nat} : ∀ {w : Nat} {b : U64},
    w < words → words ≤ w + fuel →
    nextSetFrom free (fuel + n) w b = nextSetFrom free fuel w b := by
  induction fuel with
  | zero =>
    intro w b hw hfuel
    omega
  | succ fuel ih =>
    intro w b hw hfuel
    rw [Nat.add_right_comm, nextSetFrom, nextSetFrom]
    by_cases hlast : words ≤ w + 1
    · rw [if_pos hlast, if_pos hlast]
    · rw [ih (by omega) (by omega)]

theorem nextClearFrom_more {free : Nat → U64} (n : Nat) {fuel : Nat} : ∀ {w : Nat} {b : U64},
    w < words → words ≤ w + fuel →
    nextClearFrom free (fuel + n) w b = nextClearFrom free fuel w b := by
  induction fuel with
  | zero =>
    intro w b hw hfuel
    omega
  | succ fuel ih =>
    intro w b hw hfuel
    rw [Nat.add_right_comm, nextClearFrom, nextClearFrom]
    by_cases hlast : words ≤ w + 1
    · rw [if_pos hlast, if_pos hlast]
    · rw [ih (by omega) (by omega)]

omit [Build] in
theorem wordMasksFrom_more (n : Nat) {fuel : Nat} : ∀ {pos stop : Nat}, stop ≤ pos + fuel →
    wordMasksFrom (fuel + n) pos stop = wordMasksFrom fuel pos stop := by
  induction fuel with
  | zero =>
    intro pos stop hfuel
    rw [Nat.zero_add]
    cases n with
    | zero => rfl
    | succ n => exact if_pos hfuel
  | succ fuel ih =>
    intro pos stop hfuel
    rw [Nat.add_right_comm, wordMasksFrom, wordMasksFrom]
    by_cases hend : stop ≤ pos
    · rw [if_pos hend, if_pos hend]
    · rw [if_neg hend, if_neg hend]
      simp only
      rw [ih (by omega)]

/-- A round of the general scan moves past the free slice it found. -/
theorem nextSet_lt_nextClear {m : SliceMap} {pos lo : Nat} (h : m.nextSet pos = some lo) :
    pos ≤ lo ∧ lo < m.nextClear lo := by
  have hset := m.nextSet_least pos
  rw [h] at hset
  obtain ⟨⟨hpos, hcap, hbit⟩, -⟩ := hset
  have hends := m.nextClear_spec hcap
  refine ⟨hpos, lt_of_le_of_ne hends.le fun heq => ?_⟩
  have htaken := hends.taken (heq ▸ hcap)
  rw [← heq, hbit] at htaken
  cases htaken

theorem nextSet_beyond {m : SliceMap} {pos : Nat} (h : capacity ≤ pos) : m.nextSet pos = none := by
  have hset := m.nextSet_least pos
  cases hlo : m.nextSet pos with
  | none => rfl
  | some lo =>
    rw [hlo] at hset
    have := hset.1.1
    have := hset.1.2.1
    omega

theorem findGeneralFrom_more {m : SliceMap} {count align : Nat} (n : Nat) {fuel : Nat} :
    ∀ {pos : Nat}, capacity < pos + fuel →
    m.findGeneralFrom count align (fuel + n) pos = m.findGeneralFrom count align fuel pos := by
  induction fuel with
  | zero =>
    intro pos hfuel
    rw [Nat.zero_add]
    cases n with
    | zero => rfl
    | succ n => rw [findGeneralFrom, findGeneralFrom, nextSet_beyond (show capacity ≤ pos by omega)]
  | succ fuel ih =>
    intro pos hfuel
    rw [Nat.add_right_comm, findGeneralFrom, findGeneralFrom]
    cases hlo : m.nextSet pos with
    | none => rfl
    | some lo =>
      obtain ⟨hge, hlt⟩ := nextSet_lt_nextClear hlo
      simp only
      rw [ih (by omega)]

/-- Every loop of `alloc` ends by its own condition: more rounds change nothing. -/
structure LoopsEnd (m : SliceMap) (count align : Nat) : Prop where
  hint : ∀ n, advanceHintFrom m.free (words - m.hint + n) m.hint =
    advanceHintFrom m.free (words - m.hint) m.hint
  set : ∀ n w b, w < words →
    nextSetFrom m.free (words - w + n) w b = nextSetFrom m.free (words - w) w b
  clear : ∀ n w b, w < words →
    nextClearFrom m.free (words - w + n) w b = nextClearFrom m.free (words - w) w b
  general : ∀ n pos, m.findGeneralFrom count align (capacity + 1 - pos + n) pos =
    m.findGeneralFrom count align (capacity + 1 - pos) pos
  masks : ∀ n r, wordMasksFrom (count + n) r (r + count) = wordMasksFrom count r (r + count)

theorem loopsEnd {m : SliceMap} (count align : Nat) (h : m.hint ≤ words) :
    m.LoopsEnd count align :=
  { hint := fun n => advanceHintFrom_more n (by omega)
    set := fun n w b hw => nextSetFrom_more n hw (by omega)
    clear := fun n w b hw => nextClearFrom_more n hw (by omega)
    general := fun n pos => findGeneralFrom_more n (by omega)
    masks := fun n r => wordMasksFrom_more n (Nat.le_refl _) }

/-! ## First fit -/

theorem least_serves {m : SliceMap} {count align : Nat} (hc : 1 ≤ count) {r : Option Nat}
    (h : Least (m.Fits count align) r) :
    Least (m.Serves count align) (r.map fun s => m.base + s) := by
  have hback : ∀ s, m.Serves count align s → m.base ≤ s ∧ m.Fits count align (s - m.base) := by
    intro s hs
    have hb := (hs.free s ⟨Nat.le_refl s, by omega⟩).1
    exact ⟨hb, (fits_iff hc hb).mpr hs⟩
  cases r with
  | none =>
    intro s hs
    exact h _ (hback s hs).2
  | some r =>
    refine ⟨?_, fun s hlt hs => ?_⟩
    · rw [← fits_iff hc (Nat.le_add_right m.base r), Nat.add_sub_cancel_left]
      exact h.1
    · have hlt' : s < m.base + r := hlt
      obtain ⟨hb, hfits⟩ := hback s hs
      exact h.2 (s - m.base) (by omega) hfits

theorem take_start (m : SliceMap) (count : Nat) (r : Option Nat) :
    (m.take count r).1.map Run.start = r.map fun s => m.base + s := by
  cases r with
  | none => rfl
  | some r => rfl

/-- The scans for one size agree with the general scan. -/
structure ScansAgree (m : SliceMap) : Prop where
  single : m.findSingle = m.findGeneral 1 1
  nibble : m.findNibble = m.findGeneral 4 4
  byte : m.findByte = m.findGeneral 8 8
  word : m.findWord = m.findGeneral 64 64

theorem scansAgree {m : SliceMap} (h : m.Inv) : m.ScansAgree := by
  have hagree : ∀ k, m.find (2 ^ k) (2 ^ k) = m.findGeneral (2 ^ k) (2 ^ k) := fun k =>
    (find_least h (Nat.two_pow_pos k)).unique (findGeneral_least h (Nat.two_pow_pos k))
  exact { single := hagree 0, nibble := hagree 2, byte := hagree 3, word := hagree 6 }

theorem alloc_least {m : SliceMap} {count align : Nat} (h : m.Inv) (hc : 1 ≤ count)
    (ha : PowerOfTwo align) :
    Least (m.Serves count align) ((m.alloc count align).1.map Run.start) := by
  obtain ⟨k, rfl⟩ := ha
  have hleast := least_serves hc (find_least (k := k) (advanceHint_keeps h).inv hc)
  have hsame : ∀ s, m.advanceHint.Serves count (2 ^ k) s ↔ m.Serves count (2 ^ k) s :=
    fun s => ⟨fun hs => ⟨hs.free, hs.aligned⟩, fun hs => ⟨hs.free, hs.aligned⟩⟩
  unfold alloc
  rw [take_start]
  exact hleast.congr hsame

/-- **`alloc` is lowest-address aligned first fit.** It ends, and takes the least aligned
    start of `count` free slices of the map, if there is one; `hasRun` says whether there
    is; and the scans for one size find what the general scan finds. -/
theorem alloc_firstFit {m : SliceMap} {count align : Nat} (h : m.Inv) (hc : 1 ≤ count)
    (ha : PowerOfTwo align) :
    m.LoopsEnd count align ∧
    Least (m.Serves count align) ((m.alloc count align).1.map Run.start) ∧
    (m.hasRun count align = true ↔ ∃ s, m.Serves count align s) ∧
    m.ScansAgree ∧ m.advanceHint.ScansAgree := by
  have hkeeps := advanceHint_keeps h
  refine ⟨loopsEnd _ _ h.hint_le, alloc_least h hc ha, ?_, scansAgree h, scansAgree hkeeps.inv⟩
  · obtain ⟨k, rfl⟩ := ha
    have hleast := least_serves hc (find_least (k := k) h hc)
    unfold hasRun
    cases hfind : m.find count (2 ^ k) with
    | none =>
      rw [hfind] at hleast
      exact ⟨fun hs => (by cases hs), fun ⟨s, hs⟩ => absurd hs (hleast s)⟩
    | some r =>
      rw [hfind] at hleast
      exact ⟨fun _ => ⟨_, hleast.1⟩, fun _ => rfl⟩

end SliceMap

end

namespace Sample

/-- Nine free slices from slice 3 on. -/
def map : SliceMap := (SliceMap.new.init 3).addFree 3 9 true

theorem map_inv : map.Inv :=
  (SliceMap.addFree_spec true (SliceMap.init_inv (by decide)) ⟨by decide, by decide⟩).1

/-- Slice 3 is free, but a run of two must start at an even slice. -/
theorem alloc_firstFit_map : Least (map.Serves 2 2) (some 4) := by
  have hstart : (map.alloc 2 2).1.map Run.start = some 4 := by decide +kernel
  rw [← hstart]
  exact (SliceMap.alloc_firstFit map_inv (by decide) ⟨1, rfl⟩).2.1

end Sample

/-! ## The bottom of the free tail -/

section
variable [Build]

namespace SliceMap

/-- `below`, clipped to the map. -/
def tailEnd (m : SliceMap) (below : Nat) : Nat := min below m.limit

/-- Slice `s` is in the maximal run of free slices that ends at `below`. -/
def FreeTail (m : SliceMap) (below s : Nat) : Prop :=
  s < m.tailEnd below ∧ ∀ j, s ≤ j → j < m.tailEnd below → m.Free j

theorem freeTail_iff {m : SliceMap} {below s : Nat} :
    m.FreeTail below s ↔ m.base ≤ s ∧ m.InTail (m.relEnd below) (s - m.base) := by
  unfold FreeTail InTail tailEnd relEnd Free limit
  constructor
  · intro ⟨hlt, hfree⟩
    have hb := (hfree s (Nat.le_refl s) hlt).1
    refine ⟨hb, by omega, fun j hj hj' => ?_⟩
    have hbit := (hfree (j + m.base) (by omega) (by omega)).2.2
    rwa [Nat.add_sub_cancel] at hbit
  · intro ⟨hb, hlt, hfree⟩
    refine ⟨by omega, fun j hj hj' => ?_⟩
    exact ⟨by omega, by omega, hfree (j - m.base) (by omega) (by omega)⟩

/-- The lowest aligned slice of the tail, and room for `count` slices from it. -/
structure Bottom (m : SliceMap) (count align below start : Nat) : Prop where
  least : Least (fun s => m.FreeTail below s ∧ align ∣ s) (some start)
  room : start + count ≤ m.tailEnd below

theorem least_freeTail {m : SliceMap} {k below r : Nat}
    (h : Least (fun s => m.InTail (m.relEnd below) s ∧ 2 ^ k ∣ m.base + s) (some r)) :
    Least (fun s => m.FreeTail below s ∧ 2 ^ k ∣ s) (some (m.base + r)) := by
  obtain ⟨⟨hin, hdvd⟩, hleast⟩ := h
  refine ⟨⟨freeTail_iff.mpr ⟨Nat.le_add_right _ _, ?_⟩, hdvd⟩, ?_⟩
  · rw [Nat.add_sub_cancel_left]
    exact hin
  · intro s hlt ⟨htail, hs⟩
    obtain ⟨hb, hin'⟩ := freeTail_iff.mp htail
    refine hleast (s - m.base) (by omega) ⟨hin', ?_⟩
    rw [Nat.add_sub_cancel' hb]
    exact hs

theorem findTail_bottom {m : SliceMap} {count k below r : Nat} (hc : 1 ≤ count)
    (hr : m.findTail count (2 ^ k) below = some r) : m.Bottom count (2 ^ k) below (m.base + r) := by
  obtain ⟨hfound, -⟩ := @findTail_spec _ m count k below hc
  obtain ⟨hleast, hroom⟩ := hfound r hr
  refine { least := least_freeTail hleast, room := ?_ }
  have hlt := hleast.1.1.1
  unfold relEnd at hroom hlt
  unfold tailEnd limit
  omega

theorem allocTail_isSome_iff {m : SliceMap} {count k below : Nat} (hc : 1 ≤ count) :
    (m.allocTail count (2 ^ k) below).1.isSome = true ↔ ∃ s, m.Bottom count (2 ^ k) below s := by
  obtain ⟨-, hmissed⟩ := @findTail_spec _ m count k below hc
  unfold allocTail
  cases hfind : m.findTail count (2 ^ k) below with
  | none =>
    refine ⟨fun hs => (by cases hs), fun ⟨s, hs⟩ => ?_⟩
    obtain ⟨hb, hin⟩ := freeTail_iff.mp hs.least.1.1
    have hshort := hmissed hfind (s - m.base) hin (by
      rw [Nat.add_sub_cancel' hb]
      exact hs.least.1.2)
    have hroom := hs.room
    unfold tailEnd limit at hroom
    unfold relEnd at hshort
    omega
  | some r => exact ⟨fun _ => ⟨_, findTail_bottom hc hfind⟩, fun _ => rfl⟩

theorem allocTail_takes {m m' : SliceMap} {count k below : Nat} {run : Run} (h : m.Inv) (hc : 1 ≤ count)
    (heq : m.allocTail count (2 ^ k) below = (some run, m')) :
    m.Bottom count (2 ^ k) below run.start ∧ Takes m m' run.start count ∧
      ∀ i, run.start + count ≤ i → i < m.tailEnd below → m'.Free i := by
  have hserved := (allocTail_spec below h hc).1 run m' heq
  have hb : m.Bottom count (2 ^ k) below run.start := by
    unfold allocTail at heq
    cases hfind : m.findTail count (2 ^ k) below with
    | none =>
      rw [hfind] at heq
      cases heq
    | some r =>
      rw [hfind] at heq
      obtain rfl := Option.some.inj (Prod.mk.inj heq).1
      exact findTail_bottom hc hfind
  refine ⟨hb, hserved.takes, fun i hi hi' => ?_⟩
  refine (hserved.takes.free i).mpr ⟨hb.least.1.1.2 i (by omega) hi', ?_⟩
  intro hrun
  have := hrun.2
  omega

/-- **`allocTail` takes the bottom of the free tail.** It succeeds when the lowest aligned
    slice of the tail leaves room below the end, takes exactly the run from there and
    leaves the rest of the tail free; otherwise the map stays as it is. -/
theorem allocTail_bottom {m : SliceMap} {count align : Nat} (below : Nat) (h : m.Inv)
    (hc : 1 ≤ count) (ha : PowerOfTwo align) :
    ((m.allocTail count align below).1.isSome = true ↔ ∃ s, m.Bottom count align below s) ∧
    (∀ run m', m.allocTail count align below = (some run, m') →
      m.Bottom count align below run.start ∧ Takes m m' run.start count ∧
      ∀ i, run.start + count ≤ i → i < m.tailEnd below → m'.Free i) ∧
    (∀ m', m.allocTail count align below = (none, m') → m' = m) := by
  obtain ⟨k, rfl⟩ := ha
  exact ⟨allocTail_isSome_iff hc, fun _ _ => allocTail_takes h hc, (allocTail_spec below h hc).2⟩

end SliceMap

end

open Sample in
/-- The last slice of the tail stays free. -/
theorem Sample.allocTail_bottom_map : ∃ m', map.allocTail 2 4 10 = (some ⟨4, true⟩, m') ∧
    map.Bottom 2 4 10 4 ∧ m'.Free 9 := by
  have hstart : (map.allocTail 2 4 10).1 = some ⟨4, true⟩ := by decide +kernel
  have heq : map.allocTail 2 4 10 = (some ⟨4, true⟩, (map.allocTail 2 4 10).2) :=
    Prod.ext hstart rfl
  obtain ⟨-, hsome, -⟩ := SliceMap.allocTail_bottom 10 map_inv (show 1 ≤ 2 by decide) ⟨2, rfl⟩
  obtain ⟨hbottom, -, hfree⟩ := hsome _ _ heq
  exact ⟨_, heq, hbottom, hfree 9 (by decide) (by decide)⟩

end Wasmalloc
