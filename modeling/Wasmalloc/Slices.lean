import Mathlib.Data.List.TakeWhile
import Mathlib.Tactic.Ring
import Wasmalloc.Bins
import Wasmalloc.Lib.Words

/- The free-slice bitmap: the model of `SliceMap` in `slices.rs`.

   `BITS` is 64 throughout. The arrays `[u64; WORDS]` are functions from word
   index to word of which the code reads and writes the indices below `words`
   only. A loop that `break`s at the first index outside the map is a `takeWhile`.
   The loops that scan words carry the number of words left as their fuel, which
   is what bounds them in the source.

   `recorded` is a history variable: the ranges `addFree` has recorded. No function
   of the source reads it.

   What is proved here: the word masks of a range are disjoint and cover exactly
   the range (`covers_wordMasks`, `wordMasks_pairwise`), and so what the range
   helpers read and write, bit by bit. -/
namespace Wasmalloc
open Words

variable [Build]

section Masks
omit [Build]

/-- Highest slice index that can exist in a 32-bit linear memory. -/
def maxSliceIndex : Nat := 2 ^ 16 - 1

/-- `n` consecutive bits starting at `bit`, with `1 ≤ n` and `bit + n ≤ 64`. -/
def mask (bit n : Nat) : U64 := (BitVec.allOnes 64 >>> (64 - n)) <<< bit

/-- Bit `8k` of the result is set exactly when byte `k` of `b` is all ones. -/
def fullBytes (b : U64) : U64 :=
  let x := b &&& (b >>> 4)
  let x := x &&& (x >>> 2)
  let x := x &&& (x >>> 1)
  x &&& 0x0101010101010101

/-- Bit `4k` of the result is set exactly when nibble `k` of `b` is all ones. -/
def fullNibbles (b : U64) : U64 :=
  let x := b &&& (b >>> 2)
  let x := x &&& (x >>> 1)
  x &&& 0x1111111111111111

/-- The iteration of `WordMasks` from `pos` to `stop`. -/
def wordMasksFrom : Nat → Nat → Nat → List (Nat × U64)
  | 0, _, _ => []
  | fuel + 1, pos, stop =>
    if stop ≤ pos then []
    else
      let n := min (64 - pos % 64) (stop - pos)
      (pos / 64, mask (pos % 64) n) :: wordMasksFrom fuel (pos + n) stop

/-- The words a relative range touches, each with the mask of its bits in the range.
    Every step advances by at least one bit, so `count` steps finish. -/
def wordMasks (rel count : Nat) : List (Nat × U64) := wordMasksFrom count rel (rel + count)

end Masks

/-- The words of a range inside the map: the loops stop at the first other one. -/
def wordMasksInside (rel count : Nat) : List (Nat × U64) :=
  (wordMasks rel count).takeWhile fun p => decide (p.1 < words)

def allSet (bits : Nat → U64) (rel count : Nat) : Bool :=
  (wordMasks rel count).all fun p => decide (p.1 < words) && bits p.1 &&& p.2 == p.2

def allClear (bits : Nat → U64) (rel count : Nat) : Bool :=
  (wordMasks rel count).all fun p => decide (p.1 < words) && bits p.1 &&& p.2 == 0

def setBits (bits : Nat → U64) (rel count : Nat) : Nat → U64 :=
  (wordMasksInside rel count).foldl
    (fun bits p => Function.update bits p.1 (bits p.1 ||| p.2)) bits

/-- Bit `rel` of a bitmap; false for an index beyond it. -/
def bit (bits : Nat → U64) (rel : Nat) : Bool :=
  let w := rel / 64
  decide (w < words) && ((bits w >>> (rel % 64)) &&& 1) == 1

/-! ## The map -/

/-- A run of slices: its first slice, and whether all of it was known zero. -/
structure Run where
  start : Nat
  zeroed : Bool
  deriving DecidableEq, Repr

structure SliceMap where
  free : Nat → U64
  zero : Nat → U64
  base : Nat
  hint : Nat
  recorded : List (Nat × Nat)

namespace SliceMap

def capacity : Nat := words * 64

omit [Build] in
def new : SliceMap := { free := fun _ => 0, zero := fun _ => 0, base := 0, hint := 0, recorded := [] }

def init (m : SliceMap) (baseSlice : Nat) : SliceMap :=
  { m with base := baseSlice &&& usizeNot (64 - 1), hint := words }

def limit (m : SliceMap) : Nat := m.base + capacity

/-- One past the highest slice the map may ever hand out. -/
def usableLimit (m : SliceMap) : Nat :=
  if m.base ≤ maxSliceIndex then min m.limit maxSliceIndex else m.limit

omit [Build] in
def rel (m : SliceMap) (start : Nat) : Nat := start - m.base

/-- Hand out `[rel, rel + count)`. Returns whether all of it was zero. -/
def claim (m : SliceMap) (rel count : Nat) : Bool × SliceMap :=
  (wordMasksInside rel count).foldl
    (fun s p =>
      (s.1 && s.2.zero p.1 &&& p.2 == p.2,
        { s.2 with
          free := Function.update s.2.free p.1 (s.2.free p.1 &&& ~~~p.2)
          zero := Function.update s.2.zero p.1 (s.2.zero p.1 &&& ~~~p.2) }))
    (true, m)

/-- Mark `[rel, rel + count)` as free and dirty. -/
def release (m : SliceMap) (rel count : Nat) : SliceMap :=
  { m with free := setBits m.free rel count, hint := min m.hint (rel / 64) }

def addFree (m : SliceMap) (start count : Nat) (zeroed : Bool) : SliceMap :=
  let count := if start ≤ maxSliceIndex then min count (maxSliceIndex - start) else count
  if count = 0 then m
  else
    let rel := m.rel start
    let m := m.release rel count
    let m := if zeroed then { m with zero := setBits m.zero rel count } else m
    { m with recorded := (start, count) :: m.recorded }

/-! ### Searches -/

def advanceHintFrom (free : Nat → U64) : Nat → Nat → Nat
  | 0, hint => hint
  | fuel + 1, hint =>
    if hint < words ∧ free hint = 0 then advanceHintFrom free fuel (hint + 1) else hint

def advanceHint (m : SliceMap) : SliceMap :=
  { m with hint := advanceHintFrom m.free (words - m.hint) m.hint }

/-- The first word from `hint` on for which `pick` leaves a bit, at its lowest bit. -/
def findFirst (m : SliceMap) (pick : U64 → U64) : Option Nat :=
  (List.range' m.hint (words - m.hint)).findSome? fun w =>
    if pick (m.free w) ≠ 0 then some (w * 64 + trailingZeros (pick (m.free w))) else none

def findSingle (m : SliceMap) : Option Nat := m.findFirst id
def findNibble (m : SliceMap) : Option Nat := m.findFirst fullNibbles
def findByte (m : SliceMap) : Option Nat := m.findFirst fullBytes

def findWord (m : SliceMap) : Option Nat :=
  (List.range' m.hint (words - m.hint)).findSome? fun w =>
    if m.free w = BitVec.allOnes 64 then some (w * 64) else none

/-- Lowest relative index at or above `rel` whose absolute index is a multiple of `align`. -/
def alignUp (m : SliceMap) (rel align : Nat) : Option Nat :=
  let excess := (m.base + rel) &&& (align - 1)
  if excess = 0 then some rel else checkedAdd rel (align - excess)

def nextSetFrom (free : Nat → U64) : Nat → Nat → U64 → Option Nat
  | 0, _, _ => none
  | fuel + 1, w, b =>
    if b ≠ 0 then some (w * 64 + trailingZeros b)
    else if words ≤ w + 1 then none
    else nextSetFrom free fuel (w + 1) (free (w + 1))

/-- Lowest free slice at or above `pos`. -/
def nextSet (m : SliceMap) (pos : Nat) : Option Nat :=
  let w := pos / 64
  if words ≤ w then none
  else nextSetFrom m.free (words - w) w (m.free w &&& (BitVec.allOnes 64 <<< (pos % 64)))

def nextClearFrom (free : Nat → U64) : Nat → Nat → U64 → Nat
  | 0, _, _ => capacity
  | fuel + 1, w, b =>
    if b ≠ BitVec.allOnes 64 then w * 64 + trailingZeros (~~~b)
    else if words ≤ w + 1 then capacity
    else nextClearFrom free fuel (w + 1) (free (w + 1))

/-- Lowest non-free slice at or above `pos`, or `capacity`. -/
def nextClear (m : SliceMap) (pos : Nat) : Nat :=
  let w := pos / 64
  if words ≤ w then capacity
  else nextClearFrom m.free (words - w) w (m.free w ||| ~~~(BitVec.allOnes 64 <<< (pos % 64)))

/-- The loop runs down from word `w`, which is its fuel. -/
def prevClearFrom (free : Nat → U64) : Nat → U64 → Option Nat
  | w, b =>
    if b ≠ 0 then some (w * 64 + (63 - leadingZeros b))
    else match w with
      | 0 => none
      | w + 1 => prevClearFrom free w (~~~(free w))

/-- Highest non-free slice strictly below `pos`. -/
def prevClear (m : SliceMap) (pos : Nat) : Option Nat :=
  if pos = 0 then none
  else
    let w := min ((pos - 1) / 64) (words - 1)
    prevClearFrom m.free w (~~~(m.free w) &&& (BitVec.allOnes 64 >>> (63 - (pos - 1) % 64)))

/-- First fit over maximal runs of free slices, from `pos` on. Every round moves `pos` up. -/
def findGeneralFrom (m : SliceMap) (count align : Nat) : Nat → Nat → Option Nat
  | 0, _ => none
  | fuel + 1, pos =>
    match m.nextSet pos with
    | none => none
    | some lo =>
      let hi := m.nextClear lo
      match m.alignUp lo align with
      | none => none
      | some start =>
        if start ≤ hi ∧ count ≤ hi - start then some start
        else findGeneralFrom m count align fuel hi

def findGeneral (m : SliceMap) (count align : Nat) : Option Nat :=
  if capacity < count then none
  else m.findGeneralFrom count align (capacity + 1 - m.hint * 64) (m.hint * 64)

def find (m : SliceMap) (count align : Nat) : Option Nat :=
  if count = align then
    if count = 1 then m.findSingle
    else if count = 4 then m.findNibble
    else if count = 8 then m.findByte
    else if count = 64 then m.findWord
    else m.findGeneral count align
  else m.findGeneral count align

def findTail (m : SliceMap) (count align below : Nat) : Option Nat :=
  let stop := min (below - m.base) capacity
  if stop = 0 ∨ bit m.free (stop - 1) = false then none
  else
    let lo := match m.prevClear (stop - 1) with
      | none => 0
      | some c => c + 1
    match m.alignUp lo align with
    | none => none
    | some start => if start ≤ stop ∧ count ≤ stop - start then some start else none

/-! ### Operations -/

/-- Claim what a search found. -/
def take (m : SliceMap) (count : Nat) : Option Nat → Option Run × SliceMap
  | none => (none, m)
  | some rel =>
    let c := m.claim rel count
    (some { start := m.base + rel, zeroed := c.1 }, c.2)

/-- Take the lowest aligned run of `count` free slices. -/
def alloc (m : SliceMap) (count align : Nat) : Option Run × SliceMap :=
  let m := m.advanceHint
  m.take count (m.find count align)

/-- Take `count` free slices from the bottom of the free tail that ends at `below`. -/
def allocTail (m : SliceMap) (count align below : Nat) : Option Run × SliceMap :=
  m.take count (m.findTail count align below)

/-- Return a handed-out run to the map, as dirty. -/
def freeRun (m : SliceMap) (start count : Nat) : SliceMap := m.release (m.rel start) count

/-- Grow a handed-out run in place if the slices right after it are free. -/
def tryExtend (m : SliceMap) (start count extra : Nat) : Option Bool × SliceMap :=
  let tail := m.rel start + count
  if capacity - tail < extra ∨ allSet m.free tail extra = false then (none, m)
  else
    let c := m.claim tail extra
    (some c.1, c.2)

/-- Free the tail of a handed-out run. -/
def shrink (m : SliceMap) (start count newCount : Nat) : SliceMap :=
  if newCount < count then m.release (m.rel start + newCount) (count - newCount) else m

def isFree (m : SliceMap) (idx : Nat) : Bool := bit m.free (m.rel idx)
def isZero (m : SliceMap) (idx : Nat) : Bool := bit m.zero (m.rel idx)
def runIsFree (m : SliceMap) (start count : Nat) : Bool := allSet m.free (m.rel start) count

/-- Number of free slices. -/
def freeCount (m : SliceMap) : Nat := ((List.range words).map fun w => countOnes (m.free w)).sum

/-- Whether `alloc` with these arguments would succeed. -/
def hasRun (m : SliceMap) (count align : Nat) : Bool := (m.find count align).isSome

end SliceMap

/-! ## The bits of a range -/

section Covers
omit [Build]

/-- Bit `i` of the map is in one of the masks. -/
def Covers (l : List (Nat × U64)) (i : Nat) : Prop :=
  ∃ p ∈ l, p.1 = i / 64 ∧ p.2.getLsbD (i % 64) = true

theorem covers_cons {p : Nat × U64} {l : List (Nat × U64)} {i : Nat} :
    Covers (p :: l) i ↔ (p.1 = i / 64 ∧ p.2.getLsbD (i % 64) = true) ∨ Covers l i := by
  simp [Covers]

theorem getLsbD_mask {b n i : Nat} (hb : b + n ≤ 64) :
    (mask b n).getLsbD i = decide (b ≤ i ∧ i < b + n) := by
  unfold mask
  rw [BitVec.getLsbD_shiftLeft, BitVec.getLsbD_ushiftRight, BitVec.getLsbD_allOnes]
  by_cases h : b ≤ i ∧ i < b + n
  · have h1 : i < 64 := by omega
    have h2 : ¬ i < b := by omega
    have h3 : 64 - n + (i - b) < 64 := by omega
    simp [h, h1, h2, h3]
  · by_cases h1 : i < b
    · simp [h, h1]
    · have h3 : ¬ 64 - n + (i - b) < 64 := by omega
      simp [h, h3]

theorem covers_wordMasksFrom {fuel : Nat} : ∀ {pos stop i : Nat}, stop ≤ pos + fuel →
    (Covers (wordMasksFrom fuel pos stop) i ↔ pos ≤ i ∧ i < stop) := by
  induction fuel with
  | zero =>
    intro pos stop i h
    simp only [wordMasksFrom, Covers, List.not_mem_nil, false_and, exists_false, false_iff]
    omega
  | succ fuel ih =>
    intro pos stop i h
    rw [wordMasksFrom]
    by_cases hend : stop ≤ pos
    · rw [if_pos hend]
      simp only [Covers, List.not_mem_nil, false_and, exists_false, false_iff]
      omega
    · rw [if_neg hend, covers_cons, ih (by omega), getLsbD_mask (by omega),
        decide_eq_true_eq]
      omega

/-- **The masks of a range cover exactly the range.** -/
theorem covers_wordMasks {rel count i : Nat} :
    Covers (wordMasks rel count) i ↔ rel ≤ i ∧ i < rel + count :=
  covers_wordMasksFrom (Nat.le_refl _)

theorem wordMasksFrom_lower {fuel : Nat} : ∀ {pos stop : Nat} {p : Nat × U64},
    p ∈ wordMasksFrom fuel pos stop → pos / 64 ≤ p.1 ∧ p.1 ≤ (stop - 1) / 64 := by
  induction fuel with
  | zero => intro pos stop p h; simp [wordMasksFrom] at h
  | succ fuel ih =>
    intro pos stop p h
    rw [wordMasksFrom] at h
    split at h
    · simp at h
    · rcases List.mem_cons.mp h with h | h
      · subst h
        simp only
        omega
      · have := ih h
        omega

theorem wordMasksFrom_pairwise {fuel : Nat} : ∀ {pos stop : Nat},
    (wordMasksFrom fuel pos stop).Pairwise (fun p q => p.1 ≠ q.1) := by
  induction fuel with
  | zero => intro pos stop; exact List.Pairwise.nil
  | succ fuel ih =>
    intro pos stop
    rw [wordMasksFrom]
    split
    · exact List.Pairwise.nil
    · rename_i hend
      rw [List.pairwise_cons]
      refine ⟨?_, ih⟩
      intro q hq heq
      have hq' := wordMasksFrom_lower hq
      simp only at heq
      -- The next mask starts a new word unless the range has ended.
      by_cases hlast : stop - pos ≤ 64 - pos % 64
      · rw [Nat.min_eq_right hlast, show pos + (stop - pos) = stop by omega] at hq
        cases fuel with
        | zero => simp [wordMasksFrom] at hq
        | succ fuel => simp [wordMasksFrom] at hq
      · rw [Nat.min_eq_left (by omega)] at hq'
        omega

theorem wordMasksFrom_nonempty {fuel : Nat} : ∀ {pos stop : Nat} {p : Nat × U64},
    p ∈ wordMasksFrom fuel pos stop → ∃ j, p.2.getLsbD j = true := by
  induction fuel with
  | zero => intro pos stop p h; simp [wordMasksFrom] at h
  | succ fuel ih =>
    intro pos stop p h
    rw [wordMasksFrom] at h
    split at h
    · simp at h
    · rcases List.mem_cons.mp h with h | h
      · subst h
        refine ⟨pos % 64, ?_⟩
        rw [getLsbD_mask (by omega), decide_eq_true_eq]
        omega
      · exact ih h

theorem wordMasks_pairwise (rel count : Nat) :
    (wordMasks rel count).Pairwise (fun p q => p.1 ≠ q.1) :=
  wordMasksFrom_pairwise

theorem forall_wordMasks (rel count : Nat) (Q : Nat → Nat → Prop) :
    (∀ p ∈ wordMasks rel count, ∀ j, p.2.getLsbD j = true → Q p.1 j) ↔
      ∀ i, rel ≤ i → i < rel + count → Q (i / 64) (i % 64) := by
  constructor
  · intro h i hi hi'
    obtain ⟨p, hp, hpi, hbit⟩ := covers_wordMasks.mpr ⟨hi, hi'⟩
    rw [← hpi]
    exact h p hp _ hbit
  · intro h p hp j hj
    have hj64 : j < 64 := BitVec.lt_of_getLsbD hj
    have hdiv : (p.1 * 64 + j) / 64 = p.1 := by omega
    have hmod : (p.1 * 64 + j) % 64 = j := by omega
    have hcovers : Covers (wordMasks rel count) (p.1 * 64 + j) :=
      ⟨p, hp, hdiv.symm, by rw [hmod]; exact hj⟩
    obtain ⟨hlo, hhi⟩ := covers_wordMasks.mp hcovers
    have hQ := h _ hlo hhi
    rwa [hdiv, hmod] at hQ

theorem bitAt_setMasks (l : List (Nat × U64)) : ∀ (bits : Nat → U64) (i : Nat),
    (bitAt (l.foldl (fun bits p => Function.update bits p.1 (bits p.1 ||| p.2)) bits) i = true ↔
      bitAt bits i = true ∨ Covers l i) := by
  induction l with
  | nil => intro bits i; simp [Covers]
  | cons p l ih =>
    intro bits i
    rw [List.foldl_cons, ih, covers_cons, bitAt_update]
    by_cases h : i / 64 = p.1
    · rw [if_pos h, BitVec.getLsbD_or, ← h]
      simp only [Bool.or_eq_true, true_and, or_assoc]
      rfl
    · rw [if_neg h]
      simp [Ne.symm h]

end Covers

theorem wordMasksInside_eq {rel count : Nat} (h : rel + count ≤ SliceMap.capacity) :
    wordMasksInside rel count = wordMasks rel count := by
  unfold wordMasksInside
  rw [List.takeWhile_eq_self_iff]
  intro p hp
  have hp' := wordMasksFrom_lower hp
  unfold SliceMap.capacity at h
  rw [decide_eq_true_eq]
  by_cases hc : count = 0
  · subst hc
    simp [wordMasks, wordMasksFrom] at hp
  · omega

theorem bit_eq (bits : Nat → U64) (i : Nat) :
    bit bits i = (decide (i < SliceMap.capacity) && bitAt bits i) := by
  unfold bit SliceMap.capacity
  simp only [shift_and_one]
  congr 1
  rw [decide_eq_decide]
  omega

theorem lt_capacity_iff {i : Nat} : i < SliceMap.capacity ↔ i / 64 < words := by
  unfold SliceMap.capacity
  omega

theorem allSet_iff {bits : Nat → U64} {rel count : Nat} :
    allSet bits rel count = true ↔
      ∀ i, rel ≤ i → i < rel + count → i < SliceMap.capacity ∧ bitAt bits i = true := by
  have hbits := forall_wordMasks rel count
    (fun w j => w < words ∧ (bits w).getLsbD j = true)
  simp only [lt_capacity_iff]
  refine Iff.trans ?_ hbits
  unfold allSet
  rw [List.all_eq_true]
  simp only [Bool.and_eq_true, decide_eq_true_eq, beq_iff_eq, and_eq_iff]
  constructor
  · intro h p hp j hj
    exact ⟨(h p hp).1, (h p hp).2 j hj⟩
  · intro h p hp
    obtain ⟨j, hj⟩ := wordMasksFrom_nonempty hp
    exact ⟨(h p hp j hj).1, fun i hi => (h p hp i hi).2⟩

theorem allClear_iff {bits : Nat → U64} {rel count : Nat} :
    allClear bits rel count = true ↔
      ∀ i, rel ≤ i → i < rel + count → i < SliceMap.capacity ∧ bitAt bits i = false := by
  have hbits := forall_wordMasks rel count
    (fun w j => w < words ∧ (bits w).getLsbD j = false)
  simp only [lt_capacity_iff]
  refine Iff.trans ?_ hbits
  unfold allClear
  rw [List.all_eq_true]
  simp only [Bool.and_eq_true, decide_eq_true_eq, beq_iff_eq, and_eq_zero_iff]
  constructor
  · intro h p hp j hj
    exact ⟨(h p hp).1, (h p hp).2 j hj⟩
  · intro h p hp
    obtain ⟨j, hj⟩ := wordMasksFrom_nonempty hp
    exact ⟨(h p hp j hj).1, fun i hi => (h p hp i hi).2⟩

theorem bitAt_setBits {bits : Nat → U64} {rel count i : Nat} (h : rel + count ≤ SliceMap.capacity) :
    bitAt (setBits bits rel count) i = true ↔
      bitAt bits i = true ∨ (rel ≤ i ∧ i < rel + count) := by
  unfold setBits
  rw [bitAt_setMasks, wordMasksInside_eq h, covers_wordMasks]

/-! ## What `claim` does -/

namespace SliceMap

/-- One round of `claim`: the mask `p` leaves both bitmaps. -/
def claimStep (s : Bool × SliceMap) (p : Nat × U64) : Bool × SliceMap :=
  (s.1 && s.2.zero p.1 &&& p.2 == p.2,
    { s.2 with
      free := Function.update s.2.free p.1 (s.2.free p.1 &&& ~~~p.2)
      zero := Function.update s.2.zero p.1 (s.2.zero p.1 &&& ~~~p.2) })

theorem claim_eq (m : SliceMap) (rel count : Nat) :
    m.claim rel count = (wordMasksInside rel count).foldl claimStep (true, m) := rfl

section ClaimStep
omit [Build]

theorem bitAt_clear {bits : Nat → U64} {p : Nat × U64} {i : Nat} :
    bitAt (Function.update bits p.1 (bits p.1 &&& ~~~p.2)) i = true ↔
      bitAt bits i = true ∧ ¬ (p.1 = i / 64 ∧ p.2.getLsbD (i % 64) = true) := by
  rw [bitAt_update]
  by_cases h : i / 64 = p.1
  · have hlt : i % 64 < 64 := Nat.mod_lt i (by decide)
    rw [if_pos h, BitVec.getLsbD_and, BitVec.getLsbD_not, ← h]
    simp [hlt, bitAt]
  · rw [if_neg h]
    simp [Ne.symm h]

/-- The rounds of `claim` take the covered bits out of both bitmaps, and report
    whether all of them were zero: no two masks are of the same word. -/
theorem claimStep_foldl (l : List (Nat × U64)) : ∀ (s : Bool × SliceMap),
    l.Pairwise (fun p q => p.1 ≠ q.1) →
    let r := l.foldl claimStep s
    (∀ i, bitAt r.2.free i = true ↔ bitAt s.2.free i = true ∧ ¬ Covers l i) ∧
    (∀ i, bitAt r.2.zero i = true ↔ bitAt s.2.zero i = true ∧ ¬ Covers l i) ∧
    (r.1 = true ↔ s.1 = true ∧ ∀ p ∈ l, s.2.zero p.1 &&& p.2 = p.2) ∧
    r.2.base = s.2.base ∧ r.2.hint = s.2.hint ∧ r.2.recorded = s.2.recorded := by
  induction l with
  | nil => intro s _; simp [Covers]
  | cons p l ih =>
    intro s hp
    obtain ⟨hhead, htail⟩ := List.pairwise_cons.mp hp
    obtain ⟨hfree, hzero, hflag, hbase, hhint, hrec⟩ := ih (claimStep s p) htail
    rw [List.foldl_cons]
    refine ⟨?_, ?_, ?_, hbase, hhint, hrec⟩
    · intro i
      rw [hfree, covers_cons, not_or, ← and_assoc]
      exact and_congr_left fun _ => bitAt_clear
    · intro i
      rw [hzero, covers_cons, not_or, ← and_assoc]
      exact and_congr_left fun _ => bitAt_clear
    · rw [hflag]
      simp only [claimStep, Bool.and_eq_true, beq_iff_eq, List.forall_mem_cons, and_assoc]
      apply and_congr_right
      intro _
      apply and_congr_right
      intro _
      apply forall₂_congr
      intro q hq
      rw [Function.update_of_ne (hhead q hq).symm]

end ClaimStep

/-- **`claim` takes exactly the range**, out of the free and the zero bits, and says
    whether all of it was zero. -/
theorem claim_spec (m : SliceMap) {rel count : Nat} (h : rel + count ≤ capacity) :
    (∀ i, bitAt (m.claim rel count).2.free i = true ↔
      bitAt m.free i = true ∧ ¬ (rel ≤ i ∧ i < rel + count)) ∧
    (∀ i, bitAt (m.claim rel count).2.zero i = true ↔
      bitAt m.zero i = true ∧ ¬ (rel ≤ i ∧ i < rel + count)) ∧
    ((m.claim rel count).1 = true ↔ ∀ i, rel ≤ i → i < rel + count → bitAt m.zero i = true) ∧
    (m.claim rel count).2.base = m.base ∧ (m.claim rel count).2.hint = m.hint ∧
    (m.claim rel count).2.recorded = m.recorded := by
  rw [claim_eq, wordMasksInside_eq h]
  obtain ⟨hfree, hzero, hflag, hbase, hhint, hrec⟩ :=
    claimStep_foldl (wordMasks rel count) (true, m) (wordMasks_pairwise rel count)
  refine ⟨?_, ?_, ?_, hbase, hhint, hrec⟩
  · intro i
    rw [hfree, covers_wordMasks]
  · intro i
    rw [hzero, covers_wordMasks]
  · rw [hflag]
    simp only [true_and, and_eq_iff]
    exact forall_wordMasks rel count (fun w j => (m.zero w).getLsbD j = true)

end SliceMap

end Wasmalloc
