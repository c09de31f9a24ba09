import Mathlib.Data.UInt
import Wasmalloc.Lib.ByteMem

/- Block contents: the pattern part of `testing/model.rs`.

   A block holds a pattern that depends on the block's seed and the position: dense over
   the first `densePrefix` bytes, one word every `stride` bytes beyond, and the last word.
   What `fill` writes at a position `verify` expects there, whatever length the block has
   by then. -/
namespace Wasmalloc.Testing
open ByteMem (Bytes writeLE)

/-- Bytes at the start of every block whose pattern is written and checked densely. -/
def densePrefix : Nat := 64 * 1024
/-- Beyond the dense prefix one word is written and checked every this many bytes. -/
def stride : Nat := 4096

/-- The pattern word covering bytes `8 * chunk..8 * chunk + 8`. -/
def word (seed : UInt64) (chunk : Nat) : UInt64 := seed ^^^ (UInt64.ofNat chunk * 0x9E3779B97F4A7C15)

/-- Byte `i` of a word in memory. -/
def neByte (w : UInt64) (i : Nat) : UInt8 := UInt8.ofNat (w.toNat / 256 ^ i)

/-- The stride words from `start` on that end by `limit`. -/
def strideSpans (limit start : Nat) : List (Nat × Nat) :=
  if start + 8 ≤ limit then (start, start + 8) :: strideSpans limit (start + stride) else []
termination_by limit - start
decreasing_by
  unfold stride
  omega

/-- The byte ranges of a `len`-byte block that carry the pattern, clipped to the first `limit`
    bytes: what the iterator `Spans` yields in its states `Dense`, `Stride` and `Tail`. -/
def spans (len limit : Nat) : List (Nat × Nat) :=
  (if 0 < min limit densePrefix then [(0, min limit densePrefix)] else []) ++
    strideSpans limit densePrefix ++
    if limit = len ∧ densePrefix < len then [((len - 1) / 8 * 8, len)] else []

/-- The first byte that did not hold the expected value. -/
structure Mismatch where
  offset : Nat
  expected : UInt8
  found : UInt8

/-- The pattern over the bytes `off..stop` of the block at `p`. -/
def fillSpan (b : Bytes) (p : Nat) (seed : UInt64) (off stop : Nat) : Bytes :=
  if off + 8 ≤ stop then
    fillSpan (writeLE b (p + off) 8 (word seed (off / 8)).toNat) p seed (off + 8) stop
  else if off < stop then writeLE b (p + off) (stop - off) (word seed (off / 8)).toNat
  else b
termination_by stop - off

/-- Write the pattern of `seed` over the `len`-byte block at `p`. -/
def fill (b : Bytes) (p len : Nat) (seed : UInt64) : Bytes :=
  (spans len len).foldl (fun b span => fillSpan b p seed span.1 span.2) b

/-- The word expected at `off`: of the pattern, or zero. -/
def expectedWord (seed : Option UInt64) (off : Nat) : UInt64 :=
  match seed with
  | some s => word s (off / 8)
  | none => 0

/-- Compare `n` bytes at `off` with a word. `first_mismatch` is called on words that differ, so
    the byte it expects to find is there. -/
def verifyWord (b : Bytes) (p off n : Nat) (expected : UInt64) : Option Mismatch :=
  ((List.range n).find? fun i => b (p + off + i) != neByte expected i).map fun i =>
    { offset := off + i, expected := neByte expected i, found := b (p + off + i) }

def verifySpan (b : Bytes) (p : Nat) (seed : Option UInt64) (off stop : Nat) : Option Mismatch :=
  if off + 8 ≤ stop then
    match verifyWord b p off 8 (expectedWord seed off) with
    | some m => some m
    | none => verifySpan b p seed (off + 8) stop
  else if off < stop then verifyWord b p off (stop - off) (expectedWord seed off)
  else none
termination_by stop - off

/-- Check the first `limit` bytes of the `len`-byte block at `p` against the pattern of `seed` or
    against zero. -/
def verify (b : Bytes) (p len limit : Nat) (seed : Option UInt64) : Option Mismatch :=
  (spans len limit).findSome? fun span => verifySpan b p seed span.1 span.2

/-! ## Positions -/

/-- The byte expected at position `x`. -/
def expectedByte (seed : Option UInt64) (x : Nat) : UInt8 := neByte (expectedWord seed x) (x % 8)

/-- Position `x` carries the pattern. -/
def Covered (len limit x : Nat) : Prop := ∃ span ∈ spans len limit, span.1 ≤ x ∧ x < span.2

variable {b : Bytes} {p len limit off stop x start : Nat} {seed : UInt64} {s : Option UInt64}

theorem expectedByte_none (x : Nat) : expectedByte none x = 0 := by
  show UInt8.ofNat (0 / 256 ^ (x % 8)) = 0
  rw [Nat.zero_div]
  rfl

theorem expectedByte_add {i : Nat} (h8 : off % 8 = 0) (hi : i < 8) :
    expectedByte s (off + i) = neByte (expectedWord s off) i := by
  have hdiv : (off + i) / 8 = off / 8 := by omega
  have hmod : (off + i) % 8 = i := by omega
  unfold expectedByte expectedWord
  rw [hdiv, hmod]

theorem strideSpans_mem : ∀ {span : Nat × Nat}, span ∈ strideSpans limit start → start % 8 = 0 →
    span.1 % 8 = 0 ∧ start ≤ span.1 ∧ span.2 = span.1 + 8 ∧ span.2 ≤ limit ∧
      (span.1 - start) % stride = 0 := by
  fun_induction strideSpans limit start with
  | case1 start h ih =>
    intro span hm h8
    rcases List.mem_cons.mp hm with rfl | hm
    · exact ⟨h8, Nat.le_refl _, rfl, h, by rw [Nat.sub_self, Nat.zero_mod]⟩
    · obtain ⟨h1, h2, h3, h4, h5⟩ := ih hm (by unfold stride; omega)
      refine ⟨h1, by omega, h3, h4, ?_⟩
      unfold stride at *
      omega
  | case2 start h =>
    intro span hm
    exact absurd hm List.not_mem_nil

theorem mem_strideSpans : ∀ (n : Nat), start + n * stride + 8 ≤ limit →
    (start + n * stride, start + n * stride + 8) ∈ strideSpans limit start := by
  intro n
  induction n generalizing start with
  | zero =>
    intro h
    unfold strideSpans
    rw [if_pos (by omega), Nat.zero_mul, Nat.add_zero]
    exact List.mem_cons_self
  | succ n ih =>
    intro h
    unfold strideSpans
    rw [if_pos (by unfold stride at h; omega)]
    have := @ih (start + stride) (by rw [Nat.succ_mul] at h; omega)
    rw [show start + (n + 1) * stride = start + stride + n * stride by rw [Nat.succ_mul]; omega]
    exact List.mem_cons_of_mem _ this

theorem spans_mem {span : Nat × Nat} (hm : span ∈ spans len limit) :
    span.1 % 8 = 0 ∧ span.2 ≤ limit := by
  unfold spans at hm
  simp only [List.mem_append] at hm
  rcases hm with (hm | hm) | hm
  · split at hm
    · rw [List.mem_singleton.mp hm]
      exact ⟨rfl, Nat.min_le_left _ _⟩
    · exact absurd hm List.not_mem_nil
  · obtain ⟨h1, -, -, h4, -⟩ := strideSpans_mem hm (by decide)
    exact ⟨h1, h4⟩
  · split at hm
    · rename_i h
      rw [List.mem_singleton.mp hm]
      exact ⟨Nat.mul_mod_left _ _, h.1.ge⟩
    · exact absurd hm List.not_mem_nil

/-- **A prefix is verified where the whole block was filled.** -/
theorem Covered.mono (hl : limit ≤ len) (hx : Covered len limit x) : Covered len len x := by
  obtain ⟨span, hm, hlo, hhi⟩ := hx
  have hin := (spans_mem hm).2
  unfold spans at hm
  simp only [List.mem_append] at hm
  rcases hm with (hm | hm) | hm
  · split at hm
    · rename_i hpos
      obtain rfl := List.mem_singleton.mp hm
      have hle : min limit densePrefix ≤ min len densePrefix := min_le_min_right _ hl
      refine ⟨(0, min len densePrefix), ?_, hlo, Nat.lt_of_lt_of_le hhi hle⟩
      refine List.mem_append_left _ (List.mem_append_left _ ?_)
      rw [if_pos (Nat.lt_of_lt_of_le hpos hle)]
      exact List.mem_singleton.mpr rfl
    · exact absurd hm List.not_mem_nil
  · obtain ⟨-, h2, h3, h4, h5⟩ := strideSpans_mem hm (by decide)
    obtain ⟨n, hn⟩ : ∃ n, span.1 = densePrefix + n * stride :=
      ⟨(span.1 - densePrefix) / stride, by
        have := Nat.div_add_mod (span.1 - densePrefix) stride
        rw [Nat.mul_comm] at this
        omega⟩
    refine ⟨(densePrefix + n * stride, densePrefix + n * stride + 8), ?_, by omega, by omega⟩
    have hstop : densePrefix + n * stride + 8 ≤ len := by omega
    have := mem_strideSpans n hstop
    unfold spans
    simp [this]
  · split at hm
    · rename_i h
      obtain rfl := List.mem_singleton.mp hm
      refine ⟨_, ?_, hlo, hhi⟩
      unfold spans
      simp [h.2]
    · exact absurd hm List.not_mem_nil

theorem Covered.lt (hx : Covered len limit x) : x < limit := by
  obtain ⟨span, hm, -, hhi⟩ := hx
  exact Nat.lt_of_lt_of_le hhi (spans_mem hm).2

/-! ## What is written, and what is found -/

theorem fillSpan_apply : ∀ {y : Nat}, off % 8 = 0 → fillSpan b p seed off stop y =
    if p + off ≤ y ∧ y < p + stop then expectedByte (some seed) (y - p) else b y := by
  have hword : ∀ {b : Bytes} {off n y : Nat}, off % 8 = 0 → n ≤ 8 →
      writeLE b (p + off) n (word seed (off / 8)).toNat y =
        if p + off ≤ y ∧ y < p + off + n then expectedByte (some seed) (y - p) else b y := by
    intro b off n y h8 hn
    unfold writeLE
    split
    · rename_i hin
      have hdiv : (y - p) / 8 = off / 8 := by omega
      have hmod : (y - p) % 8 = y - (p + off) := by omega
      show _ = neByte (word seed ((y - p) / 8)) ((y - p) % 8)
      rw [hdiv, hmod]
      rfl
    · rfl
  fun_induction fillSpan b p seed off stop with
  | case1 b off h ih =>
    intro y h8
    rw [ih (by omega), hword h8 (Nat.le_refl _)]
    by_cases hy : p + off ≤ y ∧ y < p + stop
    · rw [if_pos hy]
      split
      · rfl
      · rw [if_pos (by omega)]
    · rw [if_neg hy, if_neg (by omega), if_neg (by omega)]
  | case2 b off h h' =>
    intro y h8
    rw [hword h8 (by omega), show p + off + (stop - off) = p + stop by omega]
  | case3 b off h h' =>
    intro y _
    rw [if_neg (by omega)]

/-- **What `fill` writes**: the pattern at the covered positions, and nothing else. -/
theorem fill_apply (y : Nat) : (p ≤ y ∧ Covered len len (y - p) →
      fill b p len seed y = expectedByte (some seed) (y - p)) ∧
    (¬ (p ≤ y ∧ Covered len len (y - p)) → fill b p len seed y = b y) := by
  have hfold : ∀ (l : List (Nat × Nat)) (b : Bytes), (∀ span ∈ l, span.1 % 8 = 0) →
      ((∃ span ∈ l, p + span.1 ≤ y ∧ y < p + span.2) →
        l.foldl (fun b span => fillSpan b p seed span.1 span.2) b y = expectedByte (some seed) (y - p)) ∧
      ((∀ span ∈ l, ¬ (p + span.1 ≤ y ∧ y < p + span.2)) →
        l.foldl (fun b span => fillSpan b p seed span.1 span.2) b y = b y) := by
    intro l
    induction l with
    | nil => exact fun b _ => ⟨fun ⟨_, h, _⟩ => absurd h List.not_mem_nil, fun _ => rfl⟩
    | cons span l ih =>
      intro b h8
      obtain ⟨hin, hout⟩ := ih (fillSpan b p seed span.1 span.2) fun x hx =>
        h8 x (List.mem_cons_of_mem _ hx)
      have hspan := @fillSpan_apply b p span.1 span.2 seed y (h8 span List.mem_cons_self)
      rw [List.foldl_cons]
      constructor
      · intro ⟨x, hx, hxy⟩
        by_cases hrest : ∃ span ∈ l, p + span.1 ≤ y ∧ y < p + span.2
        · exact hin hrest
        · have hno : ∀ span ∈ l, ¬ (p + span.1 ≤ y ∧ y < p + span.2) := fun z hz hzy =>
            hrest ⟨z, hz, hzy⟩
          rw [hout hno, hspan, if_pos]
          rcases List.mem_cons.mp hx with rfl | hx
          · exact hxy
          · exact absurd hxy (hno x hx)
      · intro hno
        rw [hout fun z hz => hno z (List.mem_cons_of_mem _ hz), hspan,
          if_neg (hno span List.mem_cons_self)]
  obtain ⟨hin, hout⟩ := hfold (spans len len) b fun span hm => (spans_mem hm).1
  constructor
  · intro ⟨hpy, span, hm, hlo, hhi⟩
    exact hin ⟨span, hm, by omega, by omega⟩
  · intro hno
    refine hout fun span hm hy => hno ⟨by omega, span, hm, by omega, by omega⟩

theorem fill_out {y : Nat} (hy : y < p ∨ p + len ≤ y) : fill b p len seed y = b y := by
  refine (fill_apply y).2 fun ⟨hpy, hc⟩ => ?_
  have := hc.lt
  omega

theorem verifyWord_none {n : Nat} {w : UInt64} (h : ∀ i, i < n → b (p + off + i) = neByte w i) :
    verifyWord b p off n w = none := by
  unfold verifyWord
  rw [Option.map_eq_none_iff, List.find?_eq_none]
  intro i hi
  simp [h i (List.mem_range.mp hi)]

theorem verifySpan_none : off % 8 = 0 →
    (∀ x, off ≤ x → x < stop → b (p + x) = expectedByte s x) → verifySpan b p s off stop = none := by
  fun_induction verifySpan b p s off stop with
  | case1 off h m hm =>
    intro h8 hall
    rw [verifyWord_none fun i hi => by
      rw [Nat.add_assoc, hall _ (Nat.le_add_right _ _) (by omega), expectedByte_add h8 hi]] at hm
    cases hm
  | case2 off h hm ih =>
    exact fun h8 hall => ih (by omega) fun x hlo hhi => hall x (by omega) hhi
  | case3 off h h' =>
    intro h8 hall
    exact verifyWord_none fun i hi => by
      rw [Nat.add_assoc, hall _ (Nat.le_add_right _ _) (by omega), expectedByte_add h8 (by omega)]
  | case4 off h h' => exact fun _ _ => rfl

/-- **No false alarm**: a block that holds what is expected at the covered positions passes. -/
theorem verify_none (h : ∀ x, Covered len limit x → b (p + x) = expectedByte s x) :
    verify b p len limit s = none := by
  unfold verify
  rw [List.findSome?_eq_none_iff]
  intro span hm
  exact verifySpan_none (spans_mem hm).1 fun x hlo hhi => h x ⟨span, hm, hlo, hhi⟩

end Wasmalloc.Testing
