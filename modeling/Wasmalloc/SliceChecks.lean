import Wasmalloc.FirstFit
import Wasmalloc.Lib.Obligations

/- What the slice map checks while it runs.

   `FooChecks k` is the conjunction of the conditions of kind `k` that one call of `foo`
   of `slices.rs` passes: its `debug_assert!`s, the `w >= WORDS` tests and the clamp of
   `prev_clear` that a release build keeps, and that its sums, differences and products
   of slice indices are exact. A loop has a predicate with the loop's recursion. The
   searches that only a `debug_assert!` runs are walks over words like the others.

   Correspondence (Rust ↔ Lean):
     `debug_assert!(p)`                  ↔ `asserts k p`
     `if w >= WORDS { break; }`          ↔ `guards k (w < words)`
     `a + b`, `a * b` in a `usize`       ↔ `computes k (FitsUsize (a + b))`, ...
     `a - b` in a `usize`                ↔ `computes k (b ≤ a)`

   What is proved: every condition of every method holds whenever the map is well formed,
   its end is a `usize`, and the range handed in is one the method documents. -/
namespace Wasmalloc
open Words Obligations

def MaskChecks (k : Check) (bit n : Nat) : Prop := asserts k (1 ≤ n ∧ bit + n ≤ 64)

variable [Build]

def FitsUsize (n : Nat) : Prop := n < usizeSize

theorem FitsUsize.mono {m n : Nat} (h : FitsUsize n) (hle : m ≤ n) : FitsUsize m :=
  lt_of_le_of_lt hle h

theorem fits_of_le {n : Nat} (h : n ≤ 65536) : FitsUsize n := by
  have h32 := two_pow_32_le
  unfold FitsUsize
  omega

/-! ## Walks over the words of a range -/

def WordMasksFromChecks (k : Check) : Nat → Nat → Nat → Prop
  | 0, _, _ => True
  | fuel + 1, pos, stop =>
    if stop ≤ pos then True
    else
      let n := min (64 - pos % 64) (stop - pos)
      MaskChecks k (pos % 64) n ∧ computes k (FitsUsize (pos + n)) ∧
        WordMasksFromChecks k fuel (pos + n) stop

/-- A walk over the words of a range: none of them lies outside the map. -/
def WalkChecks (k : Check) (rel count : Nat) : Prop :=
  computes k (FitsUsize (rel + count)) ∧ WordMasksFromChecks k count rel (rel + count) ∧
    guards k (∀ p ∈ wordMasks rel count, p.1 < words)

/-- `bit`: the word it tests is in the map. -/
def BitChecks (k : Check) (rel : Nat) : Prop := guards k (rel / 64 < words)

namespace SliceMap

/-! ## The methods -/

def InitChecks (k : Check) (m : SliceMap) (baseSlice : Nat) : Prop :=
  asserts k (∀ w < words, m.free w = 0) ∧
  asserts k (FitsUsize ((m.init baseSlice).base + capacity))

def LimitChecks (k : Check) (m : SliceMap) : Prop := computes k (FitsUsize (m.base + capacity))

def UsableLimitChecks (k : Check) (m : SliceMap) : Prop := m.LimitChecks k

/-- `rel` asserts that the range lies inside the map. -/
def RelChecks (k : Check) (m : SliceMap) (start count : Nat) : Prop :=
  asserts k (m.base ≤ start) ∧ computes k (m.base ≤ start) ∧
  asserts k (m.rel start ≤ capacity ∧ count ≤ capacity - m.rel start)

def ClaimChecks (k : Check) (m : SliceMap) (rel count : Nat) : Prop :=
  asserts k (allSet m.free rel count = true) ∧ WalkChecks k rel count

def ReleaseChecks (k : Check) (m : SliceMap) (rel count : Nat) : Prop :=
  asserts k (allClear m.free rel count = true) ∧ asserts k (allClear m.zero rel count = true) ∧
  WalkChecks k rel count

/-- The walk over the zero bits is over the range that `release` walks. -/
def AddFreeChecks (k : Check) (m : SliceMap) (start count : Nat) : Prop :=
  let count := if start ≤ maxSliceIndex then min count (maxSliceIndex - start) else count
  count ≠ 0 → m.RelChecks k start count ∧ m.ReleaseChecks k (m.rel start) count

/-! ### Searches -/

def AdvanceHintFromChecks (k : Check) (free : Nat → U64) : Nat → Nat → Prop
  | 0, _ => True
  | fuel + 1, hint =>
    if hint < words ∧ free hint = 0 then
      computes k (FitsUsize (hint + 1)) ∧ AdvanceHintFromChecks k free fuel (hint + 1)
    else True

def AdvanceHintChecks (k : Check) (m : SliceMap) : Prop :=
  AdvanceHintFromChecks k m.free (words - m.hint) m.hint

/-- The word scans, wherever they stop. -/
def FindFirstChecks (k : Check) (m : SliceMap) (pick : U64 → U64) : Prop :=
  ∀ w, m.hint ≤ w → w < words → pick (m.free w) ≠ 0 →
    computes k (FitsUsize (w * 64 + trailingZeros (pick (m.free w))))

def FindWordChecks (k : Check) (m : SliceMap) : Prop :=
  ∀ w, m.hint ≤ w → w < words → computes k (FitsUsize (w * 64))

def AlignUpChecks (k : Check) (m : SliceMap) (rel align : Nat) : Prop :=
  computes k (FitsUsize (m.base + rel) ∧ 1 ≤ align) ∧
  computes k ((m.base + rel) &&& (align - 1) ≤ align)

def NextSetFromChecks (k : Check) (free : Nat → U64) : Nat → Nat → U64 → Prop
  | 0, _, _ => True
  | fuel + 1, w, b =>
    if b ≠ 0 then computes k (FitsUsize (w * 64 + trailingZeros b))
    else
      computes k (FitsUsize (w + 1)) ∧
        (w + 1 < words → NextSetFromChecks k free fuel (w + 1) (free (w + 1)))

def NextSetChecks (k : Check) (m : SliceMap) (pos : Nat) : Prop :=
  let w := pos / 64
  w < words →
    NextSetFromChecks k m.free (words - w) w (m.free w &&& (BitVec.allOnes 64 <<< (pos % 64)))

def NextClearFromChecks (k : Check) (free : Nat → U64) : Nat → Nat → U64 → Prop
  | 0, _, _ => True
  | fuel + 1, w, b =>
    if b ≠ BitVec.allOnes 64 then computes k (FitsUsize (w * 64 + trailingZeros (~~~b)))
    else
      computes k (FitsUsize (w + 1)) ∧
        (w + 1 < words → NextClearFromChecks k free fuel (w + 1) (free (w + 1)))

def NextClearChecks (k : Check) (m : SliceMap) (pos : Nat) : Prop :=
  let w := pos / 64
  w < words →
    NextClearFromChecks k m.free (words - w) w
      (m.free w ||| ~~~(BitVec.allOnes 64 <<< (pos % 64)))

def PrevClearFromChecks (k : Check) (free : Nat → U64) : Nat → U64 → Prop
  | w, b =>
    if b ≠ 0 then
      computes k (leadingZeros b ≤ 63 ∧ FitsUsize (w * 64 + (63 - leadingZeros b)))
    else match w with
      | 0 => True
      | w + 1 => PrevClearFromChecks k free w (~~~(free w))

def PrevClearChecks (k : Check) (m : SliceMap) (pos : Nat) : Prop :=
  pos ≠ 0 →
    guards k (min ((pos - 1) / 64) (words - 1) = (pos - 1) / 64) ∧
    PrevClearFromChecks k m.free (min ((pos - 1) / 64) (words - 1))
      (~~~(m.free (min ((pos - 1) / 64) (words - 1))) &&&
        (BitVec.allOnes 64 >>> (63 - (pos - 1) % 64)))

def FindGeneralFromChecks (k : Check) (m : SliceMap) (count align : Nat) : Nat → Nat → Prop
  | 0, _ => True
  | fuel + 1, pos =>
    m.NextSetChecks k pos ∧
    ∀ lo, m.nextSet pos = some lo →
      m.NextClearChecks k lo ∧ m.AlignUpChecks k lo align ∧
      ∀ start, m.alignUp lo align = some start →
        ¬ (start ≤ m.nextClear lo ∧ count ≤ m.nextClear lo - start) →
          FindGeneralFromChecks k m count align fuel (m.nextClear lo)

def FindGeneralChecks (k : Check) (m : SliceMap) (count align : Nat) : Prop :=
  count ≤ capacity →
    computes k (FitsUsize (m.hint * 64)) ∧
      m.FindGeneralFromChecks k count align (capacity + 1 - m.hint * 64) (m.hint * 64)

def FindChecks (k : Check) (m : SliceMap) (count align : Nat) : Prop :=
  if count = align then
    if count = 1 then m.FindFirstChecks k id
    else if count = 4 then m.FindFirstChecks k fullNibbles
    else if count = 8 then m.FindFirstChecks k fullBytes
    else if count = 64 then m.FindWordChecks k
    else m.FindGeneralChecks k count align
  else m.FindGeneralChecks k count align

def FindTailChecks (k : Check) (m : SliceMap) (align below : Nat) : Prop :=
  let stop := min (below - m.base) capacity
  stop ≠ 0 →
    BitChecks k (stop - 1) ∧
    (bit m.free (stop - 1) = true →
      m.PrevClearChecks k (stop - 1) ∧
      (∀ c, m.prevClear (stop - 1) = some c → computes k (FitsUsize (c + 1))) ∧
      m.AlignUpChecks k ((m.prevClear (stop - 1)).elim 0 (· + 1)) align)

/-! ### Operations -/

/-- What follows a search. -/
def TakeChecks (k : Check) (m : SliceMap) (count : Nat) (found : Option Nat) : Prop :=
  ∀ rel, found = some rel → m.ClaimChecks k rel count ∧ computes k (FitsUsize (m.base + rel))

def AllocChecks (k : Check) (m : SliceMap) (count align : Nat) : Prop :=
  asserts k (1 ≤ count) ∧ asserts k (PowerOfTwo align) ∧ m.AdvanceHintChecks k ∧
  m.advanceHint.FindChecks k count align ∧
  m.advanceHint.TakeChecks k count (m.advanceHint.find count align)

def AllocTailChecks (k : Check) (m : SliceMap) (count align below : Nat) : Prop :=
  asserts k (1 ≤ count) ∧ asserts k (PowerOfTwo align) ∧ m.FindTailChecks k align below ∧
  m.TakeChecks k count (m.findTail count align below)

def FreeRunChecks (k : Check) (m : SliceMap) (start count : Nat) : Prop :=
  asserts k (1 ≤ count) ∧ m.RelChecks k start count ∧ m.ReleaseChecks k (m.rel start) count

def TryExtendChecks (k : Check) (m : SliceMap) (start count extra : Nat) : Prop :=
  asserts k (1 ≤ count) ∧ m.RelChecks k start count ∧
  asserts k (allClear m.free (m.rel start) count = true) ∧ WalkChecks k (m.rel start) count ∧
  computes k (FitsUsize (m.rel start + count) ∧ m.rel start + count ≤ capacity) ∧
  (extra ≤ capacity - (m.rel start + count) →
    WalkChecks k (m.rel start + count) extra ∧
    (allSet m.free (m.rel start + count) extra = true →
      m.ClaimChecks k (m.rel start + count) extra))

def ShrinkChecks (k : Check) (m : SliceMap) (start count newCount : Nat) : Prop :=
  asserts k (newCount ≤ count) ∧ m.RelChecks k start count ∧
  asserts k (allClear m.free (m.rel start) count = true) ∧ WalkChecks k (m.rel start) count ∧
  (newCount < count →
    computes k (FitsUsize (m.rel start + newCount)) ∧
    m.ReleaseChecks k (m.rel start + newCount) (count - newCount))

def RunIsFreeChecks (k : Check) (m : SliceMap) (start count : Nat) : Prop :=
  m.RelChecks k start count ∧ WalkChecks k (m.rel start) count

/-! ## Every condition holds -/

variable {k : Check} {m : SliceMap} {start count : Nat}

theorem wordMasksFrom_checks (k : Check) {fuel : Nat} : ∀ {pos stop : Nat}, stop ≤ capacity →
    WordMasksFromChecks k fuel pos stop := by
  induction fuel with
  | zero => exact fun _ => trivial
  | succ fuel ih =>
    intro pos stop hstop
    have hcap := capacity_le
    rw [WordMasksFromChecks]
    by_cases hend : stop ≤ pos
    · rw [if_pos hend]
      trivial
    · rw [if_neg hend]
      exact ⟨asserts_of (by omega), computes_of (fits_of_le (by omega)), ih hstop⟩

/-- **A walk over a range of the map** meets no other word. -/
theorem walk_checks (k : Check) {rel count : Nat} (h : rel + count ≤ capacity) :
    WalkChecks k rel count := by
  have hcap := capacity_le
  have hinside := List.takeWhile_eq_self_iff.mp (wordMasksInside_eq h)
  exact ⟨computes_of (fits_of_le (by omega)), wordMasksFrom_checks k h,
    guards_of fun p hp => of_decide_eq_true (hinside p hp)⟩

theorem rel_checks (k : Check) (hin : m.Inside start count) : m.RelChecks k start count := by
  have hrel := inside_rel hin
  exact ⟨asserts_of hin.1, computes_of hin.1, asserts_of (by omega)⟩

theorem bit_slice {i : Nat} (hin : m.Inside start count) (hlo : m.rel start ≤ i)
    (hhi : i < m.rel start + count) :
    i < capacity ∧ InRun start count (i + m.base) ∧ i + m.base < m.limit := by
  have hrel := inside_rel hin
  have hb := hin.1
  unfold rel at hlo hhi hrel
  unfold InRun limit
  omega

theorem claim_checks (k : Check) (hin : m.Inside start count)
    (hfree : ∀ i, InRun start count i → m.Free i) : m.ClaimChecks k (m.rel start) count := by
  refine ⟨asserts_of ?_, walk_checks k (inside_rel hin)⟩
  rw [allSet_iff]
  intro i hlo hhi
  obtain ⟨hcap, hrun, -⟩ := bit_slice hin hlo hhi
  have hbit := (hfree _ hrun).2.2
  rw [Nat.add_sub_cancel] at hbit
  exact ⟨hcap, hbit⟩

theorem clear_of_taken (hin : m.Inside start count)
    (htaken : ∀ i, InRun start count i → ¬ m.Free i) :
    allClear m.free (m.rel start) count = true := by
  rw [allClear_iff]
  intro i hlo hhi
  obtain ⟨hcap, hrun, hlim⟩ := bit_slice hin hlo hhi
  refine ⟨hcap, ?_⟩
  by_contra hbit
  rw [Bool.not_eq_false] at hbit
  exact htaken _ hrun ⟨Nat.le_add_left _ _, hlim, by rwa [Nat.add_sub_cancel]⟩

theorem release_checks (k : Check) (hinv : m.Inv) (hin : m.Inside start count)
    (htaken : ∀ i, InRun start count i → ¬ m.Free i) : m.ReleaseChecks k (m.rel start) count := by
  have hclear := clear_of_taken hin htaken
  refine ⟨asserts_of hclear, asserts_of ?_, walk_checks k (inside_rel hin)⟩
  rw [allClear_iff] at hclear ⊢
  intro i hlo hhi
  obtain ⟨hcap, hfree⟩ := hclear i hlo hhi
  refine ⟨hcap, ?_⟩
  -- A slice that is not free is not known zero either.
  by_contra hzero
  rw [hinv.zero_free i (by simpa using hzero)] at hfree
  cases hfree

/-- **`init`** runs on an empty map. -/
theorem init_checks (k : Check) {s : Nat} (hs : s * sliceSize < usizeSize) :
    SliceMap.new.InitChecks k s := by
  have hcap := capacity_le
  have h32 := two_pow_32_le
  unfold sliceSize at hs
  refine ⟨asserts_of fun _ _ => rfl, asserts_of ?_⟩
  rw [base_init (by omega)]
  unfold FitsUsize
  omega

theorem addFree_checks (k : Check) (hinv : m.Inv) (hin : m.Inside start (clippedCount start count))
    (htaken : ∀ i, InRun start (clippedCount start count) i → ¬ m.Free i) :
    m.AddFreeChecks k start count :=
  fun _ => ⟨rel_checks k hin, release_checks k hinv hin htaken⟩

/-! ### Searches -/

theorem advanceHintFrom_checks (k : Check) (free : Nat → U64) (fuel : Nat) : ∀ {hint : Nat},
    AdvanceHintFromChecks k free fuel hint := by
  induction fuel with
  | zero => exact trivial
  | succ fuel ih =>
    intro hint
    have hcap := capacity_le
    unfold capacity at hcap
    rw [AdvanceHintFromChecks]
    split_ifs with h
    exact ⟨computes_of (fits_of_le (by omega)), ih⟩

theorem word_bit_fits {w j : Nat} (hw : w < words) (hj : j < 64) : FitsUsize (w * 64 + j) := by
  have hcap := capacity_le
  unfold capacity at hcap
  exact fits_of_le (by omega)

theorem findFirst_checks (k : Check) (m : SliceMap) (pick : U64 → U64) :
    m.FindFirstChecks k pick :=
  fun _ _ hw hne => computes_of (word_bit_fits hw (trailingZeros_spec hne).1)

theorem findWord_checks (k : Check) (m : SliceMap) : m.FindWordChecks k := by
  intro w _ hw
  have hfits := word_bit_fits hw (j := 0) (by omega)
  exact computes_of hfits

theorem alignUp_checks {rel align : Nat} (k : Check) (hfit : FitsUsize m.limit) (hrel : rel < capacity)
    (hpow : PowerOfTwo align) : m.AlignUpChecks k rel align := by
  obtain ⟨e, rfl⟩ := hpow
  have hpos := Nat.two_pow_pos e
  refine ⟨computes_of ⟨?_, hpos⟩, computes_of ?_⟩
  · unfold FitsUsize limit at hfit
    unfold FitsUsize
    omega
  · exact le_trans Nat.and_le_right (Nat.sub_le _ _)

theorem nextSetFrom_checks (k : Check) (free : Nat → U64) (fuel : Nat) : ∀ {w : Nat} {b : U64},
    w < words → NextSetFromChecks k free fuel w b := by
  induction fuel with
  | zero => exact fun _ => trivial
  | succ fuel ih =>
    intro w b hw
    have hcap := capacity_le
    unfold capacity at hcap
    rw [NextSetFromChecks]
    split_ifs with hb
    · exact computes_of (word_bit_fits hw (trailingZeros_spec hb).1)
    · exact ⟨computes_of (fits_of_le (by omega)), ih⟩

theorem nextClearFrom_checks (k : Check) (free : Nat → U64) (fuel : Nat) : ∀ {w : Nat} {b : U64},
    w < words → NextClearFromChecks k free fuel w b := by
  induction fuel with
  | zero => exact fun _ => trivial
  | succ fuel ih =>
    intro w b hw
    have hcap := capacity_le
    unfold capacity at hcap
    rw [NextClearFromChecks]
    split_ifs with hb
    · have hne : ~~~b ≠ 0 := fun h => hb (by rw [← BitVec.not_not (b := b), h]; rfl)
      exact computes_of (word_bit_fits hw (trailingZeros_spec hne).1)
    · exact ⟨computes_of (fits_of_le (by omega)), ih⟩

theorem prevClearFrom_checks (k : Check) (free : Nat → U64) : ∀ {w : Nat} {b : U64},
    w < words → PrevClearFromChecks k free w b := by
  intro w
  induction w with
  | zero =>
    intro b hw
    unfold PrevClearFromChecks
    split_ifs with hb
    · have hlt := (leadingZeros_spec hb).1
      exact computes_of ⟨by omega, word_bit_fits hw (by omega)⟩
    · trivial
  | succ w ih =>
    intro b hw
    unfold PrevClearFromChecks
    split_ifs with hb
    · have hlt := (leadingZeros_spec hb).1
      exact computes_of ⟨by omega, word_bit_fits hw (by omega)⟩
    · exact ih (by omega)

theorem prevClear_checks (k : Check) {pos : Nat} (hpos : pos ≤ capacity) : m.PrevClearChecks k pos := by
  intro h0
  have hwords := Build.words_pos
  unfold capacity at hpos
  exact ⟨guards_of (by omega), prevClearFrom_checks k m.free (by omega)⟩

theorem findGeneralFrom_checks (k : Check) (hfit : FitsUsize m.limit) {align : Nat}
    (hpow : PowerOfTwo align) (count fuel : Nat) :
    ∀ {pos : Nat}, m.FindGeneralFromChecks k count align fuel pos := by
  induction fuel with
  | zero => exact trivial
  | succ fuel ih =>
    intro pos
    refine ⟨fun hw => nextSetFrom_checks k m.free _ hw, ?_⟩
    intro lo hlo
    have hleast := m.nextSet_least pos
    rw [hlo] at hleast
    have hcap : lo < capacity := hleast.1.2.1
    exact ⟨fun hw => nextClearFrom_checks k m.free _ hw, alignUp_checks k hfit hcap hpow,
      fun _ _ _ => ih⟩

theorem findGeneral_checks (k : Check) (hinv : m.Inv) (hfit : FitsUsize m.limit) {align : Nat}
    (hpow : PowerOfTwo align) : m.FindGeneralChecks k count align := by
  intro _
  have hhint := hinv.hint_le
  have hcap := capacity_le
  unfold capacity at hcap
  exact ⟨computes_of (fits_of_le (by omega)), findGeneralFrom_checks k hfit hpow count _⟩

theorem find_checks (k : Check) (hinv : m.Inv) (hfit : FitsUsize m.limit) {align : Nat}
    (hpow : PowerOfTwo align) : m.FindChecks k count align := by
  unfold FindChecks
  split_ifs
  · exact findFirst_checks k m id
  · exact findFirst_checks k m fullNibbles
  · exact findFirst_checks k m fullBytes
  · exact findWord_checks k m
  · exact findGeneral_checks k hinv hfit hpow
  · exact findGeneral_checks k hinv hfit hpow

theorem findTail_checks (k : Check) (hfit : FitsUsize m.limit) {align : Nat} (hpow : PowerOfTwo align)
    (below : Nat) : m.FindTailChecks k align below := by
  intro h0
  have hle : min (below - m.base) capacity ≤ capacity := Nat.min_le_right _ _
  have hcap := capacity_le
  generalize min (below - m.base) capacity = stop at h0 hle ⊢
  refine ⟨guards_of (lt_capacity_iff.mp (by omega)), fun _ => ?_⟩
  have hstarts := (m.prevClear_spec (stop - 1) (by omega)).le
  refine ⟨prevClear_checks k (by omega), ?_, alignUp_checks k hfit (by omega) hpow⟩
  intro c hc
  rw [hc] at hstarts
  exact computes_of (fits_of_le (le_trans hstarts (by omega)))

/-! ### Operations -/

theorem take_checks {r align : Nat} (k : Check) (hc : 1 ≤ count) (hfit : FitsUsize m.limit)
    (hfits : m.Fits count align r) : m.ClaimChecks k r count ∧ computes k (FitsUsize (m.base + r)) := by
  have hin : m.Inside (m.base + r) count := by
    have := hfits.inside
    unfold Inside limit
    omega
  have hrel : m.rel (m.base + r) = r := by
    unfold rel
    omega
  have hfits' : m.Fits count align (m.base + r - m.base) := by rwa [Nat.add_sub_cancel_left]
  have hclaim := claim_checks k hin ((fits_iff hc (Nat.le_add_right _ _)).mp hfits').free
  rw [hrel] at hclaim
  refine ⟨hclaim, computes_of ?_⟩
  have := hin.2
  unfold FitsUsize at *
  omega

/-- **`alloc`** on a well formed map. -/
theorem alloc_checks (k : Check) (hinv : m.Inv) (hfit : FitsUsize m.limit) (hc : 1 ≤ count) {align : Nat}
    (hpow : PowerOfTwo align) : m.AllocChecks k count align := by
  have hkeeps := advanceHint_keeps hinv
  refine ⟨asserts_of hc, asserts_of hpow, advanceHintFrom_checks k m.free _,
    find_checks k hkeeps.inv hfit hpow, ?_⟩
  intro r hr
  obtain ⟨e, rfl⟩ := hpow
  have hleast := find_least (k := e) hkeeps.inv hc
  rw [hr] at hleast
  exact take_checks k hc hfit hleast.1

theorem allocTail_checks (k : Check) (hfit : FitsUsize m.limit) (hc : 1 ≤ count) {align : Nat}
    (hpow : PowerOfTwo align) (below : Nat) : m.AllocTailChecks k count align below := by
  refine ⟨asserts_of hc, asserts_of hpow, findTail_checks k hfit hpow below, ?_⟩
  intro r hr
  obtain ⟨e, rfl⟩ := hpow
  exact take_checks k hc hfit (findTail_fits hc hr)

/-- **`free`** gets back a run that was handed out. -/
theorem freeRun_checks (k : Check) (hinv : m.Inv) (hc : 1 ≤ count) (hin : m.Inside start count)
    (htaken : ∀ i, InRun start count i → ¬ m.Free i) : m.FreeRunChecks k start count :=
  ⟨asserts_of hc, rel_checks k hin, release_checks k hinv hin htaken⟩

theorem tryExtend_checks (k : Check) (hc : 1 ≤ count) (hin : m.Inside start count)
    (htaken : ∀ i, InRun start count i → ¬ m.Free i) (extra : Nat) :
    m.TryExtendChecks k start count extra := by
  have hrel := inside_rel hin
  have hcap := capacity_le
  refine ⟨asserts_of hc, rel_checks k hin, asserts_of (clear_of_taken hin htaken), walk_checks k hrel,
    computes_of ⟨fits_of_le (by omega), hrel⟩, ?_⟩
  intro hextra
  have hwalk := walk_checks k (show m.rel start + count + extra ≤ capacity by omega)
  exact ⟨hwalk, fun hset => ⟨asserts_of hset, hwalk⟩⟩

theorem shrink_checks (k : Check) (hinv : m.Inv) {newCount : Nat} (hle : newCount ≤ count)
    (hin : m.Inside start count) (htaken : ∀ i, InRun start count i → ¬ m.Free i) :
    m.ShrinkChecks k start count newCount := by
  have hrel := inside_rel hin
  have hcap := capacity_le
  refine ⟨asserts_of hle, rel_checks k hin, asserts_of (clear_of_taken hin htaken), walk_checks k hrel, ?_⟩
  intro hlt
  have hin' : m.Inside (start + newCount) (count - newCount) := by
    have h1 := hin.1
    have h2 := hin.2
    unfold Inside
    omega
  have hstart : m.rel start + newCount = m.rel (start + newCount) := by
    have h1 := hin.1
    unfold rel
    omega
  refine ⟨computes_of (fits_of_le (by omega)), ?_⟩
  rw [hstart]
  refine release_checks k hinv hin' fun i hi => htaken i ?_
  unfold InRun at hi ⊢
  omega

theorem runIsFree_checks (k : Check) (hin : m.Inside start count) : m.RunIsFreeChecks k start count :=
  ⟨rel_checks k hin, walk_checks k (inside_rel hin)⟩

end SliceMap

end Wasmalloc
