import Wasmalloc.Lib.Iter
import Wasmalloc.Testing.Pattern

/- What `verify` decides.

   It reads the covered positions and no others, and what it expects at a position depends
   on the position alone. So it passes exactly the blocks that hold what is expected there
   (`verify_none_iff`), the first byte it reports is one that really differs
   (`verify_some`), and a prefix of a filled block passes whatever the bytes behind it have
   become (`pattern_exact`). -/
namespace Wasmalloc.Testing
open ByteMem (Bytes)
open Iter

variable {b c : Bytes} {p len limit off stop n x : Nat} {seed : UInt64} {s : Option UInt64}
  {m : Mismatch}

/-! ## The iterator -/

inductive SpanState where
  | dense
  | stride (start : Nat)
  | tail
  | done

structure Spans where
  len : Nat
  limit : Nat
  state : SpanState

namespace Spans

def nextTail (it : Spans) : Option ((Nat × Nat) × Spans) :=
  if it.limit = it.len ∧ densePrefix < it.len then
    some (((it.len - 1) / 8 * 8, it.len), { it with state := .done })
  else none

def nextStride (it : Spans) (start : Nat) : Option ((Nat × Nat) × Spans) :=
  if start + 8 ≤ it.limit then
    some ((start, start + 8), { it with state := .stride (start + Testing.stride) })
  else it.nextTail

/-- A state that has nothing to give passes to the one behind it. -/
def next (it : Spans) : Option ((Nat × Nat) × Spans) :=
  match it.state with
  | .dense =>
    if 0 < min it.limit densePrefix then
      some ((0, min it.limit densePrefix), { it with state := .stride densePrefix })
    else it.nextStride densePrefix
  | .stride start => it.nextStride start
  | .tail => it.nextTail
  | .done => none

/-- What the states behind `Stride` give. -/
def tailSpans (len limit : Nat) : List (Nat × Nat) :=
  if limit = len ∧ densePrefix < len then [((len - 1) / 8 * 8, len)] else []

variable {len limit start : Nat} {state : SpanState}

theorem next_stride : next ⟨len, limit, .stride start⟩ = nextStride ⟨len, limit, .stride start⟩ start := rfl

theorem next_done : next ⟨len, limit, .done⟩ = none := rfl

theorem yields_tail (h : next ⟨len, limit, state⟩ = nextTail ⟨len, limit, state⟩) :
    Yields next ⟨len, limit, state⟩ (tailSpans len limit) := by
  unfold nextTail at h
  unfold tailSpans
  split at h
  · rename_i hlast
    rw [if_pos hlast]
    exact .item h (.done next_done)
  · rename_i hlast
    rw [if_neg hlast]
    exact .done h

theorem yields_stride : ∀ {state : SpanState},
    next ⟨len, limit, state⟩ = nextStride ⟨len, limit, state⟩ start →
    Yields next ⟨len, limit, state⟩ (strideSpans limit start ++ tailSpans len limit) := by
  fun_induction strideSpans limit start with
  | case1 start h ih =>
    intro state hnext
    unfold nextStride at hnext
    rw [if_pos h] at hnext
    rw [List.cons_append]
    exact .item hnext (ih next_stride)
  | case2 start h =>
    intro state hnext
    unfold nextStride at hnext
    rw [if_neg h] at hnext
    rw [List.nil_append]
    exact yields_tail hnext

/-- **The iterator ends**, and yields `spans`. -/
theorem yields (len limit : Nat) : Yields next ⟨len, limit, .dense⟩ (Testing.spans len limit) := by
  have hnext : next ⟨len, limit, .dense⟩ = if 0 < min limit densePrefix then
      some ((0, min limit densePrefix), ⟨len, limit, .stride densePrefix⟩)
    else nextStride ⟨len, limit, .dense⟩ densePrefix := by
    simp only [next]
  unfold Testing.spans
  rw [List.append_assoc, ← tailSpans]
  split at hnext
  · rename_i hpos
    rw [if_pos hpos, List.singleton_append]
    exact .item hnext (yields_stride next_stride)
  · rename_i hpos
    rw [if_neg hpos, List.nil_append]
    exact yields_stride hnext

end Spans

/-! ## The positions -/

/-- The ranges `spans(len, limit)` yields. -/
structure SpansOk (len limit : Nat) : Prop where
  yields : Yields Spans.next ⟨len, limit, .dense⟩ (spans len limit)
  inside : ∀ span ∈ spans len limit, span.1 < span.2 ∧ span.2 ≤ limit
  aligned : ∀ span ∈ spans len limit, span.1 % 8 = 0
  dense : ∀ x, x < min limit densePrefix → Covered len limit x
  whole : ∀ x, Covered len limit x → Covered len len x

theorem Covered.dense (hx : x < min limit densePrefix) : Covered len limit x := by
  refine ⟨(0, min limit densePrefix), ?_, Nat.zero_le x, hx⟩
  refine List.mem_append_left _ (List.mem_append_left _ ?_)
  rw [if_pos (Nat.zero_lt_of_lt hx)]
  exact List.mem_singleton_self _

theorem spans_nonempty {span : Nat × Nat} (hm : span ∈ spans len limit) : span.1 < span.2 := by
  unfold spans at hm
  simp only [List.mem_append] at hm
  rcases hm with (hm | hm) | hm
  · split at hm
    · rename_i hpos
      obtain rfl := List.mem_singleton.mp hm
      exact hpos
    · exact absurd hm List.not_mem_nil
  · obtain ⟨-, -, h3, -⟩ := strideSpans_mem hm (by decide)
    omega
  · split at hm
    · rename_i h
      obtain rfl := List.mem_singleton.mp hm
      show (len - 1) / 8 * 8 < len
      omega
    · exact absurd hm List.not_mem_nil

theorem spansOk (h : limit ≤ len) : SpansOk len limit where
  yields := Spans.yields len limit
  inside := fun _ hm => ⟨spans_nonempty hm, (spans_mem hm).2⟩
  aligned := fun _ hm => (spans_mem hm).1
  dense := fun _ => Covered.dense
  whole := fun _ => Covered.mono h

/-! ## What is reported -/

/-- The byte at `m.offset` is not the expected one, and both are as reported. -/
structure Mismatch.Real (m : Mismatch) (b : Bytes) (p : Nat) (s : Option UInt64) : Prop where
  expected : m.expected = expectedByte s m.offset
  found : m.found = b (p + m.offset)
  differs : b (p + m.offset) ≠ expectedByte s m.offset

theorem verifyWord_some (h8 : off % 8 = 0) (hn : n ≤ 8)
    (h : verifyWord b p off n (expectedWord s off) = some m) :
    off ≤ m.offset ∧ m.offset < off + n ∧ m.Real b p s := by
  unfold verifyWord at h
  obtain ⟨i, hfind, rfl⟩ := Option.map_eq_some_iff.mp h
  have hi : i < n := List.mem_range.mp (List.mem_of_find?_eq_some hfind)
  have hne : b (p + off + i) ≠ neByte (expectedWord s off) i := by
    simpa using List.find?_some hfind
  have hbyte : expectedByte s (off + i) = neByte (expectedWord s off) i :=
    expectedByte_add h8 (by omega)
  rw [Nat.add_assoc] at hne ⊢
  exact ⟨Nat.le_add_right _ _, Nat.add_lt_add_left hi _, hbyte.symm, rfl,
    fun heq => hne (heq.trans hbyte)⟩

theorem verifyWord_eq_none (h8 : off % 8 = 0) (hn : n ≤ 8)
    (h : verifyWord b p off n (expectedWord s off) = none) (hlo : off ≤ x) (hhi : x < off + n) :
    b (p + x) = expectedByte s x := by
  unfold verifyWord at h
  rw [Option.map_eq_none_iff, List.find?_eq_none] at h
  have hx : off + (x - off) = x := Nat.add_sub_cancel' hlo
  have hbyte := h (x - off) (List.mem_range.mpr (by omega))
  rw [Nat.add_assoc, hx, ← expectedByte_add h8 (by omega), hx] at hbyte
  simpa using hbyte

theorem verifySpan_some : off % 8 = 0 → verifySpan b p s off stop = some m →
    off ≤ m.offset ∧ m.offset < stop ∧ m.Real b p s := by
  fun_induction verifySpan b p s off stop with
  | case1 off h m' hm =>
    intro h8 heq
    obtain ⟨hlo, hhi, hreal⟩ := verifyWord_some h8 (Nat.le_refl 8) (hm.trans heq)
    exact ⟨hlo, by omega, hreal⟩
  | case2 off h hm ih =>
    intro h8 heq
    obtain ⟨hlo, hhi, hreal⟩ := ih (by omega) heq
    exact ⟨by omega, hhi, hreal⟩
  | case3 off h h' =>
    intro h8 heq
    obtain ⟨hlo, hhi, hreal⟩ := verifyWord_some h8 (by omega) heq
    exact ⟨hlo, by omega, hreal⟩
  | case4 off h h' => exact fun _ heq => by cases heq

theorem verifySpan_eq_none : off % 8 = 0 → verifySpan b p s off stop = none →
    ∀ x, off ≤ x → x < stop → b (p + x) = expectedByte s x := by
  fun_induction verifySpan b p s off stop with
  | case1 off h m' hm => exact fun _ heq => by cases heq
  | case2 off h hm ih =>
    intro h8 heq x hlo hhi
    by_cases hx : x < off + 8
    · exact verifyWord_eq_none h8 (Nat.le_refl 8) hm hlo hx
    · exact ih (by omega) heq x (by omega) hhi
  | case3 off h h' =>
    intro h8 heq x hlo hhi
    exact verifyWord_eq_none h8 (by omega) heq hlo (by omega)
  | case4 off h h' =>
    intro _ _ x hlo hhi
    omega

/-- **`verify` reports a covered byte that really differs.** -/
theorem verify_some (h : verify b p len limit s = some m) :
    Covered len limit m.offset ∧ m.Real b p s := by
  unfold verify at h
  obtain ⟨span, hm, hspan⟩ := List.exists_of_findSome?_eq_some h
  obtain ⟨hlo, hhi, hreal⟩ := verifySpan_some (spans_mem hm).1 hspan
  exact ⟨⟨span, hm, hlo, hhi⟩, hreal⟩

/-- **`verify` passes exactly the blocks that hold what is expected** at the covered positions. -/
theorem verify_none_iff : verify b p len limit s = none ↔
    ∀ x, Covered len limit x → b (p + x) = expectedByte s x := by
  constructor
  · intro h x ⟨span, hm, hlo, hhi⟩
    unfold verify at h
    have hspan := List.findSome?_eq_none_iff.mp h span hm
    exact verifySpan_eq_none (spans_mem hm).1 hspan x hlo hhi
  · exact verify_none

/-! ## What is read -/

theorem find?_congr {α : Type} {f g : α → Bool} {l : List α} (h : ∀ a ∈ l, f a = g a) :
    l.find? f = l.find? g := by
  induction l with
  | nil => rfl
  | cons a l ih =>
    rw [List.find?_cons, List.find?_cons, h a List.mem_cons_self,
      ih fun a ha => h a (List.mem_cons_of_mem _ ha)]

theorem verifyWord_congr {w : UInt64} (h : ∀ x, off ≤ x → x < off + n → b (p + x) = c (p + x)) :
    verifyWord b p off n w = verifyWord c p off n w := by
  have hbyte : ∀ i, i < n → b (p + off + i) = c (p + off + i) := by
    intro i hi
    rw [Nat.add_assoc]
    exact h _ (Nat.le_add_right _ _) (by omega)
  unfold verifyWord
  rw [find?_congr fun i hi => by rw [hbyte i (List.mem_range.mp hi)]]
  cases hfind : (List.range n).find? fun i => c (p + off + i) != neByte w i with
  | none => rfl
  | some i =>
    have hi : i < n := List.mem_range.mp (List.mem_of_find?_eq_some hfind)
    simp only [Option.map_some, hbyte i hi]

theorem verifySpan_congr : (∀ x, off ≤ x → x < stop → b (p + x) = c (p + x)) →
    verifySpan b p s off stop = verifySpan c p s off stop := by
  fun_induction verifySpan b p s off stop with
  | case1 off h m hm =>
    intro hbytes
    rw [verifyWord_congr fun x hlo hhi => hbytes x hlo (by omega)] at hm
    rw [verifySpan, if_pos h, hm]
  | case2 off h hm ih =>
    intro hbytes
    rw [verifyWord_congr fun x hlo hhi => hbytes x hlo (by omega)] at hm
    rw [ih fun x hlo hhi => hbytes x (by omega) hhi]
    conv => rhs; rw [verifySpan]
    rw [if_pos h, hm]
  | case3 off h h' =>
    intro hbytes
    rw [verifySpan, if_neg h, if_pos h']
    exact verifyWord_congr fun x hlo hhi => hbytes x hlo (by omega)
  | case4 off h h' =>
    intro _
    rw [verifySpan, if_neg h, if_neg h']

/-- **Bytes outside the spans never matter.** -/
theorem verify_congr (h : ∀ x, Covered len limit x → b (p + x) = c (p + x)) :
    verify b p len limit s = verify c p len limit s := by
  unfold verify
  have hspans : ∀ span ∈ spans len limit,
      verifySpan b p s span.1 span.2 = verifySpan c p s span.1 span.2 := fun span hm =>
    verifySpan_congr fun x hlo hhi => h x ⟨span, hm, hlo, hhi⟩
  revert hspans
  generalize spans len limit = l
  intro hspans
  induction l with
  | nil => rfl
  | cons span l ih =>
    rw [List.findSome?_cons, List.findSome?_cons, hspans span List.mem_cons_self,
      ih fun span hm => hspans span (List.mem_cons_of_mem _ hm)]

/-! ## Fill and verify -/

theorem verify_filled (h : limit ≤ len) (hc : ∀ x, x < limit → c (p + x) = fill b p len seed (p + x)) :
    verify c p len limit (some seed) = none := by
  refine verify_none fun x hx => ?_
  have hfill := (@fill_apply b p len seed (p + x)).1
    ⟨Nat.le_add_right _ _, by rw [Nat.add_sub_cancel_left]; exact hx.mono h⟩
  rw [hc x hx.lt, hfill, Nat.add_sub_cancel_left]

/-- What `verify` decides of the first `limit` bytes of a block. -/
structure Verifies (len limit : Nat) (s : Option UInt64) : Prop where
  differs : ∀ (b : Bytes) (p x : Nat), Covered len limit x → b (p + x) ≠ expectedByte s x →
    ∃ m, verify b p len limit s = some m ∧ Covered len limit m.offset ∧ m.Real b p s
  outside : ∀ (b c : Bytes) (p : Nat), (∀ x, Covered len limit x → b (p + x) = c (p + x)) →
    verify b p len limit s = verify c p len limit s

theorem verifies (len limit : Nat) (s : Option UInt64) : Verifies len limit s where
  differs := by
    intro b p x hx hne
    cases h : verify b p len limit s with
    | none => exact absurd (verify_none_iff.mp h x hx) hne
    | some m => exact ⟨m, rfl, verify_some h⟩
  outside := fun _ _ _ => verify_congr

/-- **Fill and verify agree on every prefix**: the spans of a prefix are those of the whole block
    cut off, what was filled or zeroed passes on every prefix, and any covered byte that differs
    is found. -/
theorem pattern_exact {len limit : Nat} (h : limit ≤ len) :
    SpansOk len limit ∧
    (∀ (b c : Bytes) (p : Nat) (seed : UInt64),
      (∀ x, x < limit → c (p + x) = fill b p len seed (p + x)) →
        verify c p len limit (some seed) = none) ∧
    (∀ (c : Bytes) (p : Nat), (∀ x, x < limit → c (p + x) = 0) → verify c p len limit none = none) ∧
    (∀ seed x, expectedByte (some seed) x = neByte (word seed (x / 8)) (x % 8)) ∧
    (∀ x, expectedByte none x = 0) ∧
    ∀ s, Verifies len limit s := by
  refine ⟨spansOk h, fun b c p seed => verify_filled h, ?_, fun _ _ => rfl, expectedByte_none,
    verifies len limit⟩
  intro c p hc
  refine verify_none fun x hx => ?_
  rw [hc x hx.lt, expectedByte_none]

/-- A block cut from 70000 bytes to 66000. -/
theorem Sample.prefix_passes : SpansOk 70000 66000 ∧
    verify (fill (fun _ => 0) 4096 70000 7) 4096 70000 66000 (some 7) = none :=
  ⟨(pattern_exact (by decide)).1, (pattern_exact (by decide)).2.1 _ _ _ _ fun _ _ => rfl⟩

end Wasmalloc.Testing
