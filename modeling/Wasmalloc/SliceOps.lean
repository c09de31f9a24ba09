import Wasmalloc.SliceSearch

/- What the methods of the slice map do to the sets of free and of zero slices.

   `Free` and `Zero` read the two bitmaps by absolute slice index. A method either
   takes a run out of both sets (`Takes`) or gives a run back to the first (`Gives`);
   either way the map stays well formed and keeps its base. A method that fails
   changes neither set. The allocator above uses nothing else about the bitmaps. -/
namespace Wasmalloc
open Words Search

/-- Slice `i` belongs to the `count` slices from `start` on. -/
def InRun (start count i : Nat) : Prop := start ≤ i ∧ i < start + count

theorem inRun_div {start count x : Nat} : InRun start count (x / sliceSize) ↔
    start * sliceSize ≤ x ∧ x < start * sliceSize + count * sliceSize := by
  have hpos : 0 < sliceSize := by decide
  unfold InRun
  rw [Nat.le_div_iff_mul_le hpos, Nat.div_lt_iff_lt_mul hpos, Nat.add_mul]

variable [Build]

namespace SliceMap

def Free (m : SliceMap) (i : Nat) : Prop :=
  m.base ≤ i ∧ i < m.limit ∧ bitAt m.free (i - m.base) = true

def Zero (m : SliceMap) (i : Nat) : Prop :=
  m.base ≤ i ∧ i < m.limit ∧ bitAt m.zero (i - m.base) = true

/-- `addFree` has recorded slice `i`. -/
def Recorded (m : SliceMap) (i : Nat) : Prop := ∃ r ∈ m.recorded, InRun r.1 r.2 i

/-- `m'` is `m` with the free slices `F` and the zero slices `Z`. -/
structure Becomes (m m' : SliceMap) (F Z : Nat → Prop) : Prop where
  inv : m'.Inv
  base : m'.base = m.base
  recorded : m'.recorded = m.recorded
  free : ∀ i, m'.Free i ↔ F i
  zero : ∀ i, m'.Zero i ↔ Z i

/-- The run leaves the map. -/
def Takes (m m' : SliceMap) (start count : Nat) : Prop :=
  Becomes m m' (fun i => m.Free i ∧ ¬ InRun start count i) (fun i => m.Zero i ∧ ¬ InRun start count i)

/-- The run returns to the map. -/
def Gives (m m' : SliceMap) (start count : Nat) : Prop :=
  Becomes m m' (fun i => m.Free i ∨ InRun start count i) m.Zero

/-- The sets stay as they are. -/
def Keeps (m m' : SliceMap) : Prop := Becomes m m' m.Free m.Zero

/-- The run of `count` slices at `start` lies in the map. -/
def Inside (m : SliceMap) (start count : Nat) : Prop := m.base ≤ start ∧ start + count ≤ m.limit

theorem Zero.free {m : SliceMap} {i : Nat} (h : m.Inv) (hz : m.Zero i) : m.Free i :=
  ⟨hz.1, hz.2.1, h.zero_free _ hz.2.2⟩

theorem Becomes.limit {m m' : SliceMap} {F Z : Nat → Prop} (h : Becomes m m' F Z) :
    m'.limit = m.limit := by
  unfold SliceMap.limit
  rw [h.base]

theorem Becomes.usableLimit {m m' : SliceMap} {F Z : Nat → Prop} (h : Becomes m m' F Z) :
    m'.usableLimit = m.usableLimit := by
  unfold SliceMap.usableLimit
  rw [h.limit, h.base]

theorem Becomes.recorded_iff {m m' : SliceMap} {F Z : Nat → Prop} (h : Becomes m m' F Z) (i : Nat) :
    m'.Recorded i ↔ m.Recorded i := by
  unfold Recorded
  rw [h.recorded]

theorem Keeps.refl {m : SliceMap} (h : m.Inv) : Keeps m m :=
  { inv := h, base := rfl, recorded := rfl, free := fun _ => Iff.rfl, zero := fun _ => Iff.rfl }

theorem usableLimit_le (m : SliceMap) : m.usableLimit ≤ m.limit := by
  unfold usableLimit
  split
  · exact Nat.min_le_left _ _
  · exact Nat.le_refl _

/-! ## Empty and fresh maps -/

theorem new_inv : SliceMap.new.Inv :=
  { base_dvd := Nat.dvd_zero 64, hint_le := Nat.zero_le _,
    below_hint := fun i hi => by simp [SliceMap.new] at hi,
    zero_free := fun i hi => by simp [SliceMap.new, bitAt] at hi }

theorem not_free_new (i : Nat) : ¬ SliceMap.new.Free i := fun h => by
  simpa [SliceMap.new, bitAt] using h.2.2

theorem not_zero_new (i : Nat) : ¬ SliceMap.new.Zero i := fun h => by
  simpa [SliceMap.new, bitAt] using h.2.2

omit [Build] in
theorem not_recorded_new (i : Nat) : ¬ SliceMap.new.Recorded i := fun ⟨r, hr, _⟩ => by
  simp [SliceMap.new] at hr

theorem base_init {m : SliceMap} {s : Nat} (hs : s < usizeSize) :
    (m.init s).base = s / 64 * 64 := by
  show s &&& usizeNot (64 - 1) = s / 64 * 64
  exact land_usizeNot (k := 6) hs (by decide)

theorem init_inv {s : Nat} (hs : s < usizeSize) : (SliceMap.new.init s).Inv := by
  have hbase := base_init (m := SliceMap.new) hs
  exact { base_dvd := by rw [hbase]; exact Nat.dvd_mul_left 64 _, hint_le := Nat.le_refl _,
          below_hint := fun i _ => by simp [SliceMap.new, SliceMap.init, bitAt],
          zero_free := fun i hi => by simp [SliceMap.new, SliceMap.init, bitAt] at hi }

/-! ## `release`, `freeRun`, `shrink` and `addFree` -/

theorem release_inv {m : SliceMap} {rel count : Nat} (h : m.Inv) (hin : rel + count ≤ capacity) :
    (m.release rel count).Inv := by
  refine { base_dvd := h.base_dvd, hint_le := ?_, below_hint := ?_, zero_free := ?_ }
  · exact le_trans (Nat.min_le_left _ _) h.hint_le
  · intro i hi
    have hi' : i < min m.hint (rel / 64) * 64 := hi
    rw [← Bool.not_eq_true]
    intro hbit
    rcases (bitAt_setBits hin).mp hbit with hb | hb
    · rw [h.below_hint i (by omega)] at hb
      cases hb
    · omega
  · intro i hi
    exact (bitAt_setBits hin).mpr (Or.inl (h.zero_free i hi))

theorem rel_iff {m : SliceMap} {start count i : Nat} (hin : m.Inside start count) (hi : m.base ≤ i) :
    m.rel start ≤ i - m.base ∧ i - m.base < m.rel start + count ↔ InRun start count i := by
  have hb := hin.1
  unfold InRun rel
  omega

theorem inside_rel {m : SliceMap} {start count : Nat} (hin : m.Inside start count) :
    m.rel start + count ≤ capacity := by
  have h1 := hin.1
  have h2 := hin.2
  unfold limit at h2
  unfold rel
  omega

theorem inRun_inside {m : SliceMap} {start count i : Nat} (h : InRun start count i)
    (hin : m.Inside start count) : m.base ≤ i ∧ i < m.limit :=
  ⟨le_trans hin.1 h.1, lt_of_lt_of_le h.2 hin.2⟩

theorem release_gives {m : SliceMap} {start count : Nat} (h : m.Inv) (hin : m.Inside start count) :
    Gives m (m.release (m.rel start) count) start count := by
  have hrel := inside_rel hin
  refine { inv := release_inv h hrel, base := rfl, recorded := rfl, free := ?_,
           zero := fun _ => Iff.rfl }
  intro i
  show m.base ≤ i ∧ i < m.limit ∧ bitAt (setBits m.free (m.rel start) count) (i - m.base) = true ↔ _
  rw [bitAt_setBits hrel]
  constructor
  · intro ⟨hlo, hhi, hbit⟩
    rcases hbit with hbit | hrun
    · exact Or.inl ⟨hlo, hhi, hbit⟩
    · exact Or.inr ((rel_iff hin hlo).mp hrun)
  · intro hor
    rcases hor with hf | hrun
    · exact ⟨hf.1, hf.2.1, Or.inl hf.2.2⟩
    · obtain ⟨hlo, hhi⟩ := inRun_inside hrun hin
      exact ⟨hlo, hhi, Or.inr ((rel_iff hin hlo).mpr hrun)⟩

/-- **`freeRun` gives the run back**, as dirty. -/
theorem freeRun_gives {m : SliceMap} {start count : Nat} (h : m.Inv) (hin : m.Inside start count) :
    Gives m (m.freeRun start count) start count :=
  release_gives h hin

/-- **`shrink` gives the tail of the run back.** -/
theorem shrink_gives {m : SliceMap} {start count newCount : Nat} (h : m.Inv)
    (hin : m.Inside start count) (hlt : newCount < count) :
    Gives m (m.shrink start count newCount) (start + newCount) (count - newCount) := by
  have hin' : m.Inside (start + newCount) (count - newCount) := by
    have h1 := hin.1
    have h2 := hin.2
    unfold Inside
    omega
  have hrel : m.rel start + newCount = m.rel (start + newCount) := by
    have h1 := hin.1
    unfold rel
    omega
  unfold shrink
  rw [if_pos hlt, hrel]
  exact release_gives h hin'

/-- The slices `addFree` records of a range: slice `maxSliceIndex` is dropped. -/
def clippedCount (start count : Nat) : Nat :=
  if start ≤ maxSliceIndex then min count (maxSliceIndex - start) else count

omit [Build] in
theorem clippedCount_le (start count : Nat) : clippedCount start count ≤ count := by
  unfold clippedCount
  split
  · exact Nat.min_le_left _ _
  · exact Nat.le_refl _

theorem Inside.clipped {m : SliceMap} {start count : Nat} (hin : m.Inside start count) :
    m.Inside start (clippedCount start count) :=
  ⟨hin.1, le_trans (Nat.add_le_add_left (clippedCount_le start count) start) hin.2⟩

/-- **`addFree` adds the clipped range** to the free slices, to the zero slices when
    it is known zero, and to the record. -/
theorem addFree_spec {m : SliceMap} {start count : Nat} (zeroed : Bool) (h : m.Inv)
    (hin' : m.Inside start (clippedCount start count)) :
    let m' := m.addFree start count zeroed
    let n := clippedCount start count
    m'.Inv ∧ m'.base = m.base ∧
    (∀ i, m'.Recorded i ↔ m.Recorded i ∨ InRun start n i) ∧
    (∀ i, m'.Free i ↔ m.Free i ∨ InRun start n i) ∧
    (∀ i, m'.Zero i ↔ m.Zero i ∨ (zeroed = true ∧ InRun start n i)) := by
  have hdef : m.addFree start count zeroed =
      if clippedCount start count = 0 then m
      else
        let r := m.release (m.rel start) (clippedCount start count)
        let z := if zeroed then
          { r with zero := setBits r.zero (m.rel start) (clippedCount start count) } else r
        { z with recorded := (start, clippedCount start count) :: z.recorded } := rfl
  simp only [hdef]
  generalize clippedCount start count = n at hin' ⊢
  have hrel := inside_rel hin'
  -- Clipped to nothing, the region leaves the map as it is.
  by_cases h0 : n = 0
  · have hnone : ∀ i, ¬ InRun start n i := by
      intro i hi
      unfold InRun at hi
      omega
    simp [if_pos h0, hnone, h]
  · rw [if_neg h0]
    obtain hgives := release_gives h hin'
    have hrecord : ∀ (z : SliceMap), z.recorded = m.recorded →
        ∀ i, (∃ r ∈ (start, n) :: z.recorded, InRun r.1 r.2 i) ↔ m.Recorded i ∨ InRun start n i := by
      intro z hz i
      rw [hz]
      simp only [List.mem_cons, Recorded, or_and_right, exists_or, exists_eq_left]
      exact or_comm
    -- Every bit set in `zero` is set in `free` as well.
    cases zeroed with
    | false =>
      refine ⟨⟨hgives.inv.base_dvd, hgives.inv.hint_le, hgives.inv.below_hint,
        hgives.inv.zero_free⟩, rfl, hrecord _ rfl, hgives.free, ?_⟩
      intro i
      simp only [Bool.false_eq_true, false_and, or_false]
      exact hgives.zero i
    | true =>
      refine ⟨⟨hgives.inv.base_dvd, hgives.inv.hint_le, hgives.inv.below_hint, ?_⟩, rfl,
        hrecord _ rfl, hgives.free, ?_⟩
      · intro i hi
        refine (bitAt_setBits hrel).mpr ?_
        exact ((bitAt_setBits hrel).mp hi).imp_left (h.zero_free i)
      · intro i
        show m.base ≤ i ∧ i < m.limit ∧ bitAt (setBits m.zero (m.rel start) n) (i - m.base) = true ↔ _
        rw [bitAt_setBits hrel]
        constructor
        · intro ⟨hlo, hhi, hbit⟩
          rcases hbit with hbit | hrun
          · exact Or.inl ⟨hlo, hhi, hbit⟩
          · exact Or.inr ⟨rfl, (rel_iff hin' hlo).mp hrun⟩
        · intro hor
          rcases hor with hz | ⟨-, hrun⟩
          · exact ⟨hz.1, hz.2.1, Or.inl hz.2.2⟩
          · obtain ⟨hlo, hhi⟩ := inRun_inside hrun hin'
            exact ⟨hlo, hhi, Or.inr ((rel_iff hin' hlo).mpr hrun)⟩

/-! ## `claim`, `alloc`, `allocTail` and `tryExtend` -/

theorem claim_takes {m : SliceMap} {start count : Nat} (h : m.Inv) (hin : m.Inside start count) :
    Takes m (m.claim (m.rel start) count).2 start count ∧
    ((m.claim (m.rel start) count).1 = true ↔ ∀ i, InRun start count i → m.Zero i) := by
  obtain ⟨hfree, hzero, hflag, hbase, hhint, hrec⟩ := m.claim_spec (inside_rel hin)
  have hlimit : (m.claim (m.rel start) count).2.limit = m.limit := by
    unfold limit
    rw [hbase]
  refine ⟨{ inv := ?_, base := hbase, recorded := hrec, free := ?_, zero := ?_ }, ?_⟩
  · refine { base_dvd := by rw [hbase]; exact h.base_dvd, hint_le := by rw [hhint]; exact h.hint_le,
             below_hint := ?_, zero_free := ?_ }
    · intro i hi
      rw [hhint] at hi
      rw [← Bool.not_eq_true, hfree, h.below_hint i hi]
      simp
    · intro i hi
      rw [hzero] at hi
      rw [hfree]
      exact ⟨h.zero_free i hi.1, hi.2⟩
  · intro i
    unfold Free
    rw [hbase, hlimit, hfree]
    constructor
    · intro ⟨hlo, hhi, hbit, hnot⟩
      exact ⟨⟨hlo, hhi, hbit⟩, fun hrun => hnot ((rel_iff hin hlo).mpr hrun)⟩
    · intro ⟨⟨hlo, hhi, hbit⟩, hnot⟩
      exact ⟨hlo, hhi, hbit, fun hrun => hnot ((rel_iff hin hlo).mp hrun)⟩
  · intro i
    unfold Zero
    rw [hbase, hlimit, hzero]
    constructor
    · intro ⟨hlo, hhi, hbit, hnot⟩
      exact ⟨⟨hlo, hhi, hbit⟩, fun hrun => hnot ((rel_iff hin hlo).mpr hrun)⟩
    · intro ⟨⟨hlo, hhi, hbit⟩, hnot⟩
      exact ⟨hlo, hhi, hbit, fun hrun => hnot ((rel_iff hin hlo).mp hrun)⟩
  · rw [hflag]
    constructor
    · intro hall i hi
      obtain ⟨hlo, hhi⟩ := inRun_inside hi hin
      obtain ⟨h1, h2⟩ := (rel_iff hin hlo).mpr hi
      exact ⟨hlo, hhi, hall _ h1 h2⟩
    · intro hall j h1 h2
      have hj : j + m.base - m.base = j := Nat.add_sub_cancel j m.base
      have hrun : InRun start count (j + m.base) := by
        rw [← rel_iff hin (Nat.le_add_left _ _), hj]
        exact ⟨h1, h2⟩
      have := (hall _ hrun).2.2
      rwa [hj] at this

/-- A run of `count` free slices that starts at an aligned slice. -/
structure Serves (m : SliceMap) (count align start : Nat) : Prop where
  free : ∀ i, InRun start count i → m.Free i
  aligned : align ∣ start

theorem fits_iff {m : SliceMap} {count align start : Nat} (hc : 1 ≤ count) (hb : m.base ≤ start) :
    m.Fits count align (start - m.base) ↔ m.Serves count align start := by
  have hback : m.base + (start - m.base) = start := Nat.add_sub_cancel' hb
  constructor
  · intro h
    refine { free := ?_, aligned := by rw [← hback]; exact h.aligned }
    intro i hi
    have hin := h.inside
    have h1 := hi.1
    have h2 := hi.2
    refine ⟨by omega, ?_, h.free (i - m.base) (by omega) (by omega)⟩
    unfold limit
    omega
  · intro h
    have hlast := (h.free (start + count - 1) (by unfold InRun; omega)).2.1
    unfold limit at hlast
    refine { inside := by omega, free := ?_, aligned := by rw [hback]; exact h.aligned }
    intro i hi hi'
    have := (h.free (i + m.base) (by unfold InRun; omega)).2.2
    rwa [Nat.add_sub_cancel] at this

/-- A search that found a run took it: a free, aligned run that has left the map. -/
structure Served (m m' : SliceMap) (count align : Nat) (run : Run) : Prop where
  takes : Takes m m' run.start count
  serves : m.Serves count align run.start
  zeroed : run.zeroed = true → ∀ i, InRun run.start count i → m.Zero i

theorem take_served {m : SliceMap} {count align r : Nat} (h : m.Inv) (hc : 1 ≤ count)
    (hfits : m.Fits count align r) :
    ∃ run, (m.take count (some r)).1 = some run ∧
      Served m (m.take count (some r)).2 count align run := by
  have hin : m.Inside (m.base + r) count := by
    have := hfits.inside
    unfold Inside limit
    omega
  have hrel : m.rel (m.base + r) = r := by
    unfold rel
    omega
  obtain ⟨htakes, hflag⟩ := claim_takes h hin
  rw [hrel] at htakes hflag
  refine ⟨{ start := m.base + r, zeroed := (m.claim r count).1 }, rfl, ?_⟩
  refine { takes := htakes, serves := ?_, zeroed := hflag.mp }
  rw [← fits_iff hc (Nat.le_add_right _ _), Nat.add_sub_cancel_left]
  exact hfits

theorem advanceHintFrom_spec (free : Nat → U64) (fuel : Nat) : ∀ {hint : Nat}, hint ≤ words →
    hint ≤ advanceHintFrom free fuel hint ∧ advanceHintFrom free fuel hint ≤ words ∧
    ∀ w, hint ≤ w → w < advanceHintFrom free fuel hint → free w = 0 := by
  induction fuel with
  | zero =>
    intro hint hle
    rw [advanceHintFrom]
    exact ⟨Nat.le_refl _, hle, fun w h1 h2 => absurd h1 (by omega)⟩
  | succ fuel ih =>
    intro hint hle
    rw [advanceHintFrom]
    split_ifs with h
    · obtain ⟨h1, h2, h3⟩ := @ih (hint + 1) (by omega)
      refine ⟨by omega, h2, ?_⟩
      intro w hw hw'
      by_cases heq : w = hint
      · rw [heq]
        exact h.2
      · exact h3 w (by omega) hw'
    · exact ⟨Nat.le_refl _, hle, fun w h1 h2 => absurd h1 (by omega)⟩

theorem advanceHint_keeps {m : SliceMap} (h : m.Inv) : Keeps m m.advanceHint := by
  obtain ⟨hge, hle, hempty⟩ := advanceHintFrom_spec m.free (words - m.hint) h.hint_le
  refine { inv := ?_, base := rfl, recorded := rfl, free := fun _ => Iff.rfl,
           zero := fun _ => Iff.rfl }
  refine { base_dvd := h.base_dvd, hint_le := hle, below_hint := ?_, zero_free := h.zero_free }
  intro i hi
  by_cases hlow : i < m.hint * 64
  · exact h.below_hint i hlow
  · have hi' : i < advanceHintFrom m.free (words - m.hint) m.hint * 64 := hi
    have hword := hempty (i / 64) (by omega) (by omega)
    show bitAt m.free i = false
    unfold bitAt
    rw [hword]
    simp

/-- **`alloc` takes a free, aligned run, or there is none.** -/
theorem alloc_spec {m : SliceMap} {count k : Nat} (h : m.Inv) (hc : 1 ≤ count) :
    (∀ run m', m.alloc count (2 ^ k) = (some run, m') → Served m m' count (2 ^ k) run) ∧
    (∀ m', m.alloc count (2 ^ k) = (none, m') →
      Keeps m m' ∧ ∀ start, ¬ m.Serves count (2 ^ k) start) := by
  have hkeeps := advanceHint_keeps h
  have hleast := find_least (k := k) hkeeps.inv hc
  have halloc : m.alloc count (2 ^ k) =
      m.advanceHint.take count (m.advanceHint.find count (2 ^ k)) := rfl
  rw [halloc]
  cases hfind : m.advanceHint.find count (2 ^ k) with
  | none =>
    rw [hfind] at hleast
    refine ⟨fun run m' heq => (by cases heq), ?_⟩
    intro m' heq
    obtain rfl := (Prod.mk.inj heq).2
    refine ⟨hkeeps, ?_⟩
    intro start hserves
    have hb : m.base ≤ start := (hserves.free start (by unfold InRun; omega)).1
    exact hleast _ ((fits_iff (m := m.advanceHint) hc hb).mpr
      { free := hserves.free, aligned := hserves.aligned })
  | some r =>
    rw [hfind] at hleast
    obtain ⟨run', hrun, hserved⟩ := take_served hkeeps.inv hc hleast.1
    refine ⟨?_, fun m' heq => by rw [heq] at hrun; cases hrun⟩
    intro run m' heq
    rw [heq] at hrun hserved
    obtain rfl := Option.some.inj hrun
    exact { takes := { inv := hserved.takes.inv, base := hserved.takes.base,
                       recorded := hserved.takes.recorded, free := hserved.takes.free,
                       zero := hserved.takes.zero }
            serves := { free := hserved.serves.free, aligned := hserved.serves.aligned }
            zeroed := hserved.zeroed }

/-- **`allocTail` takes a free, aligned run** or leaves the map as it is. -/
theorem allocTail_spec {m : SliceMap} {count k : Nat} (below : Nat) (h : m.Inv) (hc : 1 ≤ count) :
    (∀ run m', m.allocTail count (2 ^ k) below = (some run, m') →
      Served m m' count (2 ^ k) run) ∧
    (∀ m', m.allocTail count (2 ^ k) below = (none, m') → m' = m) := by
  unfold allocTail
  cases hfind : m.findTail count (2 ^ k) below with
  | none => exact ⟨fun run m' heq => (by cases heq), fun m' heq => (Prod.mk.inj heq).2.symm⟩
  | some r =>
    obtain ⟨run', hrun, hserved⟩ := take_served h hc (findTail_fits hc hfind)
    refine ⟨?_, fun m' heq => by rw [heq] at hrun; cases hrun⟩
    intro run m' heq
    rw [heq] at hrun hserved
    obtain rfl := Option.some.inj hrun
    exact hserved

/-- The slices right after the run are all free. -/
def TailFree (m : SliceMap) (start count extra : Nat) : Prop :=
  ∀ i, InRun (start + count) extra i → m.Free i

theorem runIsFree_iff {m : SliceMap} {start count : Nat} (hb : m.base ≤ start) :
    m.runIsFree start count = true ↔ ∀ i, InRun start count i → m.Free i := by
  unfold runIsFree
  rw [allSet_iff]
  unfold Free limit InRun rel
  constructor
  · intro h i hi
    obtain ⟨hcap, hbit⟩ := h (i - m.base) (by omega) (by omega)
    exact ⟨by omega, by omega, hbit⟩
  · intro h i hi hi'
    obtain ⟨h1, h2, hbit⟩ := h (i + m.base) (by omega)
    rw [Nat.add_sub_cancel] at hbit
    exact ⟨by omega, hbit⟩

/-- **`tryExtend` takes the slices after the run**, or they are not all free. -/
theorem tryExtend_spec {m : SliceMap} {start count extra : Nat} (h : m.Inv)
    (hin : m.Inside start count) :
    (∀ z m', m.tryExtend start count extra = (some z, m') →
      m.TailFree start count extra ∧ m.Inside (start + count) extra ∧
        Takes m m' (start + count) extra ∧
        (z = true ↔ ∀ i, InRun (start + count) extra i → m.Zero i)) ∧
    (∀ m', m.tryExtend start count extra = (none, m') →
      m' = m ∧ ¬ m.TailFree start count extra) := by
  have hrel : m.rel start + count = m.rel (start + count) := by
    have := hin.1
    unfold rel
    omega
  have hb : m.base ≤ start + count := le_trans hin.1 (Nat.le_add_right _ _)
  have hfree : allSet m.free (m.rel start + count) extra = true ↔ m.TailFree start count extra := by
    rw [hrel]
    exact runIsFree_iff hb
  unfold tryExtend
  by_cases hcond : capacity - (m.rel start + count) < extra ∨
      allSet m.free (m.rel start + count) extra = false
  · simp only [if_pos hcond]
    refine ⟨fun z m' heq => (by cases heq), ?_⟩
    intro m' heq
    refine ⟨(Prod.mk.inj heq).2.symm, ?_⟩
    intro htail
    rcases hcond with hroom | hnot
    · -- The last slice of the tail would lie outside the map.
      have hlast := (htail (start + count + extra - 1) (by unfold InRun; omega)).2.1
      have h1 := hin.1
      unfold limit at hlast
      unfold rel at hroom
      omega
    · rw [hfree.mpr htail] at hnot
      cases hnot
  · simp only [if_neg hcond]
    refine ⟨?_, fun m' heq => (by cases heq)⟩
    intro z m' heq
    obtain ⟨hroom, hset⟩ := not_or.mp hcond
    rw [Bool.not_eq_false] at hset
    have htail := hfree.mp hset
    have hin' : m.Inside (start + count) extra := by
      have h1 := hin.1
      have h2 := hin.2
      unfold limit at h2
      unfold rel at hroom
      unfold Inside limit
      omega
    obtain ⟨htakes, hflag⟩ := claim_takes h hin'
    rw [← hrel] at htakes hflag
    obtain ⟨hz, hm⟩ := Prod.mk.inj heq
    rw [← hm, ← Option.some.inj hz]
    exact ⟨htail, hin', htakes, hflag⟩

theorem tryExtend_isSome_iff {m : SliceMap} {start count extra : Nat} (h : m.Inv)
    (hin : m.Inside start count) :
    (m.tryExtend start count extra).1.isSome = true ↔ m.TailFree start count extra := by
  obtain ⟨hsome, hnone⟩ := @tryExtend_spec _ m start count extra h hin
  rcases htry : m.tryExtend start count extra with ⟨_ | z, m'⟩
  · exact ⟨nofun, fun htail => absurd htail (hnone m' htry).2⟩
  · exact ⟨fun _ => (hsome z m' htry).1, fun _ => rfl⟩

end SliceMap

end Wasmalloc
