import Mathlib.Data.Set.Card
import Mathlib.Order.Interval.Set.Nat
import Wasmalloc.FirstFit
import Wasmalloc.Lib.Run

/- The slice map as two sets.

   What the map is for: it keeps a set of free slices and, inside it, a set of slices
   known to be zero (`Sets`). `Sets.Step` says what each operation may answer and what
   it leaves of the sets, in terms of the sets alone. The bitmaps behind the hint, the
   masks and the searches refine this model along every run (`refines_sets`). -/
namespace Wasmalloc
open Words

/-! ## The model -/

structure Sets where
  free : Set Nat
  zero : Set Nat

namespace SliceMap

inductive Op where
  | addFree (start count : Nat) (zeroed : Bool)
  | alloc (count align : Nat)
  | allocTail (count align below : Nat)
  | freeRun (start count : Nat)
  | tryExtend (start count extra : Nat)
  | shrink (start count newCount : Nat)

/-- What an operation returns. -/
inductive Reply where
  | unit
  | run (r : Option Run)
  | extended (z : Option Bool)

end SliceMap
open SliceMap (Op Reply)

/-- The `count` slices from `start` on. -/
def slicesOf (start count : Nat) : Set Nat := Set.Ico start (start + count)

namespace Sets

def empty : Sets := { free := ∅, zero := ∅ }

def add (s : Sets) (r : Set Nat) (zeroed : Bool) : Sets :=
  { free := s.free ∪ r, zero := if zeroed then s.zero ∪ r else s.zero }

def remove (s : Sets) (r : Set Nat) : Sets := { free := s.free \ r, zero := s.zero \ r }

/-- A search: a run of free slices leaves both sets, or nothing happens. -/
def Search (s : Sets) (count align : Nat) (r : Option Run) (s' : Sets) : Prop :=
  match r with
  | none => s' = s
  | some run => slicesOf run.start count ⊆ s.free ∧ align ∣ run.start ∧
      (run.zeroed = true ↔ slicesOf run.start count ⊆ s.zero) ∧
      s' = s.remove (slicesOf run.start count)

/-- Growing a run: it succeeds exactly when the slices after it are free slices of the map. -/
def Extend (s : Sets) (limit start extra : Nat) (z : Option Bool) (s' : Sets) : Prop :=
  match z with
  | none => ¬ (start + extra ≤ limit ∧ slicesOf start extra ⊆ s.free) ∧ s' = s
  | some z => (start + extra ≤ limit ∧ slicesOf start extra ⊆ s.free) ∧
      (z = true ↔ slicesOf start extra ⊆ s.zero) ∧ s' = s.remove (slicesOf start extra)

/-- What an operation on a map that ends at `limit` may answer, and the sets after it. -/
def Step (limit : Nat) (s : Sets) : Op → Reply → Sets → Prop
  | .addFree start count zeroed, .unit, s' =>
    s' = s.add (slicesOf start (SliceMap.clippedCount start count)) zeroed
  | .alloc count align, .run r, s' => s.Search count align r s'
  | .allocTail count align _, .run r, s' => s.Search count align r s'
  | .freeRun start count, .unit, s' => s' = s.add (slicesOf start count) false
  | .tryExtend start count extra, .extended z, s' => s.Extend limit (start + count) extra z s'
  | .shrink start count newCount, .unit, s' =>
    s' = s.add (slicesOf (start + newCount) (count - newCount)) false
  | _, _, _ => False

end Sets

section
variable [Build]

namespace SliceMap

/-! ## The map as a system -/

/-- One operation: what it returns, and the map after it. -/
def exec (m : SliceMap) : Op → Reply × SliceMap
  | .addFree start count zeroed => (.unit, m.addFree start count zeroed)
  | .alloc count align => ((.run (m.alloc count align).1), (m.alloc count align).2)
  | .allocTail count align below =>
    (.run (m.allocTail count align below).1, (m.allocTail count align below).2)
  | .freeRun start count => (.unit, m.freeRun start count)
  | .tryExtend start count extra =>
    (.extended (m.tryExtend start count extra).1, (m.tryExtend start count extra).2)
  | .shrink start count newCount => (.unit, m.shrink start count newCount)

/-- A run of slices of the map, none of them free. -/
def HandedOut (m : SliceMap) (start count : Nat) : Prop :=
  m.Inside start count ∧ ∀ i, InRun start count i → ¬ m.Free i

/-- What the caller of an operation promises. -/
def Permits (m : SliceMap) : Op → Prop
  | .addFree start count _ => m.HandedOut start (clippedCount start count)
  | .alloc count align => 1 ≤ count ∧ PowerOfTwo align
  | .allocTail count align _ => 1 ≤ count ∧ PowerOfTwo align
  | .freeRun start count => m.HandedOut start count
  | .tryExtend start count _ => m.HandedOut start count
  | .shrink start count _ => m.HandedOut start count

/-- The runs of a map that is initialized at `baseSlice`. -/
def system (baseSlice : Nat) : Run.System SliceMap Op :=
  { init := fun m => m = SliceMap.new.init baseSlice
    allowed := Permits
    step := fun m op => (m.exec op).2 }

/-- The sets the bitmaps stand for. -/
def sets (m : SliceMap) : Sets := { free := {i | m.Free i}, zero := {i | m.Zero i} }

theorem Becomes.sets {m m' : SliceMap} {F Z : Nat → Prop} (h : Becomes m m' F Z) :
    m'.sets = { free := {i | F i}, zero := {i | Z i} } := by
  unfold SliceMap.sets
  congr 1
  · exact Set.ext h.free
  · exact Set.ext h.zero

theorem Takes.sets {m m' : SliceMap} {start count : Nat} (h : Takes m m' start count) :
    m'.sets = m.sets.remove (slicesOf start count) :=
  Becomes.sets h

theorem Gives.sets {m m' : SliceMap} {start count : Nat} (h : Gives m m' start count) :
    m'.sets = m.sets.add (slicesOf start count) false :=
  Becomes.sets h

/-! ## Each operation follows the model -/

theorem addFree_sets {m : SliceMap} {start count : Nat} (zeroed : Bool) (h : m.Inv)
    (hin : m.Inside start (clippedCount start count)) :
    (m.addFree start count zeroed).sets =
      m.sets.add (slicesOf start (clippedCount start count)) zeroed := by
  obtain ⟨-, -, -, hfree, hzero⟩ := addFree_spec zeroed h hin
  unfold SliceMap.sets Sets.add
  congr 1
  · exact Set.ext hfree
  · cases zeroed with
    | false => exact Set.ext fun i => (hzero i).trans (by simp)
    | true => exact Set.ext fun i => (hzero i).trans (or_congr_right (and_iff_right rfl))

theorem take_zeroed {m m' : SliceMap} {count : Nat} {r : Option Nat} {run : Run}
    (h : m.Inv) (hinside : ∀ s, r = some s → s + count ≤ capacity)
    (htake : m.take count r = (some run, m')) :
    run.zeroed = true ↔ ∀ i, InRun run.start count i → m.Zero i := by
  cases r with
  | none => cases htake
  | some r =>
    have hroom := hinside r rfl
    have hin : m.Inside (m.base + r) count := by
      unfold Inside limit
      omega
    have hflag := (claim_takes h hin).2
    rw [show m.rel (m.base + r) = r from Nat.add_sub_cancel_left _ _] at hflag
    obtain rfl := Option.some.inj (Prod.mk.inj htake).1
    exact hflag

theorem alloc_search {m : SliceMap} {count align : Nat} (h : m.Inv) (hc : 1 ≤ count)
    (ha : PowerOfTwo align) :
    m.sets.Search count align (m.alloc count align).1 (m.alloc count align).2.sets ∧
    (m.alloc count align).2.Inv ∧ (m.alloc count align).2.base = m.base := by
  obtain ⟨k, rfl⟩ := ha
  obtain ⟨hsome, hnone⟩ := alloc_spec (k := k) h hc
  have hkeeps := advanceHint_keeps h
  cases halloc : m.alloc count (2 ^ k) with
  | mk r m' =>
  cases r with
  | none =>
    obtain ⟨hsame, -⟩ := hnone m' halloc
    exact ⟨Becomes.sets hsame, hsame.inv, hsame.base⟩
  | some run =>
    have hserved := hsome run m' halloc
    refine ⟨⟨hserved.serves.free, hserved.serves.aligned, ?_, hserved.takes.sets⟩,
      hserved.takes.inv, hserved.takes.base⟩
    have hinside : ∀ s, m.advanceHint.find count (2 ^ k) = some s → s + count ≤ capacity := by
      intro s hs
      have hleast := find_least (k := k) hkeeps.inv hc
      rw [hs] at hleast
      exact hleast.1.inside
    exact take_zeroed (m := m.advanceHint) hkeeps.inv hinside halloc

theorem allocTail_search {m : SliceMap} {count align : Nat} (below : Nat) (h : m.Inv)
    (hc : 1 ≤ count) (ha : PowerOfTwo align) :
    m.sets.Search count align (m.allocTail count align below).1
      (m.allocTail count align below).2.sets ∧
    (m.allocTail count align below).2.Inv ∧ (m.allocTail count align below).2.base = m.base := by
  obtain ⟨k, rfl⟩ := ha
  obtain ⟨hsome, hnone⟩ := allocTail_spec (k := k) below h hc
  cases halloc : m.allocTail count (2 ^ k) below with
  | mk r m' =>
  cases r with
  | none =>
    obtain rfl := hnone m' halloc
    exact ⟨rfl, h, rfl⟩
  | some run =>
    have hserved := hsome run m' halloc
    refine ⟨⟨hserved.serves.free, hserved.serves.aligned, ?_, hserved.takes.sets⟩,
      hserved.takes.inv, hserved.takes.base⟩
    exact take_zeroed h (fun s hs => (findTail_fits hc hs).inside) halloc

theorem tryExtend_extend {m : SliceMap} {start count extra : Nat} (h : m.Inv)
    (hin : m.Inside start count) :
    m.sets.Extend m.limit (start + count) extra (m.tryExtend start count extra).1
      (m.tryExtend start count extra).2.sets ∧
    (m.tryExtend start count extra).2.Inv ∧
    (m.tryExtend start count extra).2.base = m.base := by
  obtain ⟨hsome, hnone⟩ := @tryExtend_spec _ m start count extra h hin
  cases hext : m.tryExtend start count extra with
  | mk z m' =>
  cases z with
  | none =>
    obtain ⟨rfl, hnot⟩ := hnone m' hext
    exact ⟨⟨fun htail => hnot htail.2, rfl⟩, h, rfl⟩
  | some z =>
    obtain ⟨hfree, hroom, htakes, hzero⟩ := hsome z m' hext
    exact ⟨⟨⟨hroom.2, hfree⟩, hzero, htakes.sets⟩, htakes.inv, htakes.base⟩

theorem shrink_sets {m : SliceMap} {start count newCount : Nat} (h : m.Inv)
    (hin : m.Inside start count) :
    (m.shrink start count newCount).sets =
      m.sets.add (slicesOf (start + newCount) (count - newCount)) false ∧
    (m.shrink start count newCount).Inv ∧ (m.shrink start count newCount).base = m.base := by
  by_cases hlt : newCount < count
  · have hgives := shrink_gives h hin hlt
    exact ⟨hgives.sets, hgives.inv, hgives.base⟩
  · -- Nothing is released.
    have hnothing : slicesOf (start + newCount) (count - newCount) = ∅ := by
      unfold slicesOf
      rw [Set.Ico_eq_empty_iff]
      omega
    unfold shrink
    rw [if_neg hlt, hnothing]
    exact ⟨by simp [Sets.add, SliceMap.sets], h, rfl⟩

/-- **Each operation follows the model**, and keeps the map well formed. -/
theorem exec_step {m : SliceMap} {op : Op} (h : m.Inv) (hop : m.Permits op) :
    m.sets.Step m.limit op (m.exec op).1 (m.exec op).2.sets ∧ (m.exec op).2.Inv ∧
    (m.exec op).2.base = m.base := by
  cases op with
  | addFree start count zeroed =>
    obtain ⟨hinv, hbase, -⟩ := addFree_spec zeroed h hop.1
    exact ⟨addFree_sets zeroed h hop.1, hinv, hbase⟩
  | alloc count align => exact alloc_search h hop.1 hop.2
  | allocTail count align below => exact allocTail_search below h hop.1 hop.2
  | freeRun start count =>
    have hgives := freeRun_gives h hop.1
    exact ⟨hgives.sets, hgives.inv, hgives.base⟩
  | tryExtend start count extra => exact tryExtend_extend h hop.1
  | shrink start count newCount => exact shrink_sets h hop.1

/-! ## Queries -/

theorem isFree_iff {m : SliceMap} {bits : Nat → U64} {i : Nat} (hb : m.base ≤ i) :
    bit bits (m.rel i) = true ↔ m.base ≤ i ∧ i < m.limit ∧ bitAt bits (i - m.base) = true := by
  rw [bit_eq, Bool.and_eq_true, decide_eq_true_eq]
  unfold rel limit
  constructor
  · intro ⟨hlt, hbit⟩
    exact ⟨hb, by omega, hbit⟩
  · intro ⟨_, hlt, hbit⟩
    exact ⟨by omega, hbit⟩

theorem freeCount_encard (m : SliceMap) : (m.freeCount : ℕ∞) = m.sets.free.encard := by
  have hcount : m.freeCount = ((List.range capacity).filter (bitAt m.free)).toFinset.card := by
    rw [List.toFinset_card_of_nodup (List.nodup_range.filter _), ← List.countP_eq_length_filter]
    exact sum_countOnes m.free words
  have himage : m.sets.free =
      (fun j => j + m.base) '' ((List.range capacity).filter (bitAt m.free)).toFinset := by
    ext i
    simp only [SliceMap.sets, Set.mem_ofPred_eq, Set.mem_image, Finset.mem_coe, List.mem_toFinset,
      List.mem_filter, List.mem_range]
    unfold Free limit
    constructor
    · intro ⟨hb, hlt, hbit⟩
      exact ⟨i - m.base, ⟨by omega, hbit⟩, by omega⟩
    · rintro ⟨j, ⟨hlt, hbit⟩, rfl⟩
      rw [Nat.add_sub_cancel]
      exact ⟨by omega, by omega, hbit⟩
  rw [himage, (add_left_injective m.base).encard_image, Set.encard_coe_eq_coe_finsetCard, hcount]

/-- The queries answer as the sets do. -/
structure Answers (m : SliceMap) : Prop where
  isFree : ∀ i, m.Inside i 1 → (m.isFree i = true ↔ i ∈ m.sets.free)
  isZero : ∀ i, m.Inside i 1 → (m.isZero i = true ↔ i ∈ m.sets.zero)
  runIsFree : ∀ start count, m.Inside start count →
    (m.runIsFree start count = true ↔ slicesOf start count ⊆ m.sets.free)
  freeCount : (m.freeCount : ℕ∞) = m.sets.free.encard

theorem answers (m : SliceMap) : m.Answers :=
  { isFree := fun _ hin => isFree_iff hin.1
    isZero := fun _ hin => isFree_iff hin.1
    runIsFree := fun _ _ hin => runIsFree_iff hin.1
    freeCount := freeCount_encard m }

/-! ## Runs -/

theorem reachable_inv {baseSlice : Nat} (hs : baseSlice < usizeSize) {m : SliceMap}
    (hm : Run.Reachable (system baseSlice) m) : m.Inv ∧ m.base = baseSlice / 64 * 64 := by
  refine hm.invariant (I := fun m => m.Inv ∧ m.base = baseSlice / 64 * 64) ?_ ?_
  · rintro m rfl
    exact ⟨init_inv hs, base_init hs⟩
  · intro m op ⟨hinv, hbase⟩ hop
    obtain ⟨-, hinv', hbase'⟩ := exec_step hinv hop
    exact ⟨hinv', hbase'.trans hbase⟩

theorem sets_init (baseSlice : Nat) : (SliceMap.new.init baseSlice).sets = Sets.empty := by
  have hclear : ∀ i, ¬ bitAt (fun _ => 0) i = true := fun i => by
    unfold bitAt
    simp
  unfold SliceMap.sets Sets.empty
  congr 1
  · exact Set.eq_empty_of_forall_notMem fun i hi => hclear _ hi.2.2
  · exact Set.eq_empty_of_forall_notMem fun i hi => hclear _ hi.2.2

/-- **The slice map refines the two sets.** They start empty; along every run the zero
    slices are free, the queries answer as the sets do, no word below the hint has a free
    bit, and every permitted operation answers and changes the sets as the model says. -/
theorem refines_sets {baseSlice : Nat} (hs : baseSlice < usizeSize) :
    (SliceMap.new.init baseSlice).sets = Sets.empty ∧
    ∀ m, Run.Reachable (system baseSlice) m →
      m.sets.zero ⊆ m.sets.free ∧ m.Answers ∧ (m.hint ≤ words ∧ ∀ w < m.hint, m.free w = 0) ∧
      ∀ op, m.Permits op → m.sets.Step m.limit op (m.exec op).1 (m.exec op).2.sets := by
  refine ⟨sets_init baseSlice, fun m hm => ?_⟩
  obtain ⟨hinv, -⟩ := reachable_inv hs hm
  refine ⟨fun i hi => Zero.free hinv hi, answers m, ⟨hinv.hint_le, ?_⟩,
    fun op hop => (exec_step hinv hop).1⟩
  intro w hw
  rw [eq_zero_iff]
  intro j hj
  have hbit := hinv.below_hint (w * 64 + j) (by omega)
  have hdiv : (w * 64 + j) / 64 = w := by omega
  have hmod : (w * 64 + j) % 64 = j := by omega
  unfold bitAt at hbit
  rwa [hdiv, hmod] at hbit

end SliceMap

end

open Sample in
/-- Nine slices are recorded as zero, and then two of them are handed out. -/
theorem Sample.refines_sets_map : map.sets.zero ⊆ map.sets.free ∧
    map.sets.Step map.limit (.alloc 2 2) (.run (some ⟨4, true⟩)) (map.exec (.alloc 2 2)).2.sets := by
  have hpermits : (SliceMap.new.init 3).Permits (.addFree 3 9 true) := by
    refine ⟨⟨by decide, by decide⟩, fun i _ hi => ?_⟩
    have hmem : i ∈ (SliceMap.new.init 3).sets.free := hi
    rw [SliceMap.sets_init] at hmem
    exact hmem
  have hreach : Run.Reachable (SliceMap.system 3) map :=
    Run.Reachable.step (S := SliceMap.system 3) (e := .addFree 3 9 true) (.init rfl) hpermits
  obtain ⟨hsub, -, -, hstep⟩ := (SliceMap.refines_sets (by decide)).2 map hreach
  have hreply : (map.alloc 2 2).1 = some ⟨4, true⟩ := by decide +kernel
  have halloc := hstep (.alloc 2 2) ⟨by decide, 1, rfl⟩
  refine ⟨hsub, ?_⟩
  rw [← hreply]
  exact halloc

end Wasmalloc
