import Mathlib.Tactic.IntervalCases
import Wasmalloc.Lib.PowTwo

/- Size classes ("bins") and the page geometry that follows from them: the model
   of `bins.rs`.

   Sizes and addresses are natural numbers. Where the source masks, negates or
   saturates a `usize` the model does so in the width of the build. The rest of
   the arithmetic of this module stays below `2^20`.

   Correspondence (Rust ↔ Lean): the names are the source's in camel case;
   `usize::BITS - 1 - w.leading_zeros()`, the index of the top bit of `w`, is
   `Nat.log2 w`.

   What is proved: `bin` and `binSize` form a Galois connection (`bin_le_iff`),
   so a bin is the least one that holds the size; the geometry of every bin
   (`BinGeometry`) for both widths of `usize`; and what `classify` promises about
   a request (`classify_bin`, `classify_huge`). -/
namespace Wasmalloc

/-- What is fixed when the crate is built: the width of `usize`, the number of
    words of the slice map, and the address of the static `EMPTY_PAGE`. -/
class Build where
  usizeBytes : Nat
  usizeBytes_eq : usizeBytes = 4 ∨ usizeBytes = 8
  words : Nat
  words_pos : 1 ≤ words
  words_le : words * 64 ≤ 65536
  emptyPage : Nat

export Build (usizeBytes words emptyPage)

namespace Sample

/-- The build that is shipped, to evaluate runs in. -/
scoped instance wasm32 : Build where
  usizeBytes := 4
  usizeBytes_eq := Or.inl rfl
  words := 1024
  words_pos := by decide
  words_le := by decide
  emptyPage := 1024

end Sample

variable [Build]

/-! ## The machine word -/

def usizeBits : Nat := 8 * usizeBytes
/-- One past the largest `usize`. -/
def usizeSize : Nat := 2 ^ usizeBits
def usizeMax : Nat := usizeSize - 1
def usizeNot (a : Nat) : Nat := usizeMax - a
def wrappingNeg (a : Nat) : Nat := (usizeSize - a % usizeSize) % usizeSize
def checkedAdd (a b : Nat) : Option Nat := if a + b < usizeSize then some (a + b) else none
def saturatingAdd (a b : Nat) : Nat := min (a + b) usizeMax
omit [Build] in
def divCeil (a b : Nat) : Nat := (a + b - 1) / b

/-- A request: `core::alloc::Layout`. The size rounded up to the alignment does
    not exceed `isize::MAX`. -/
structure Layout where
  size : Nat
  align : Nat
  align_pow2 : ∃ k, align = 2 ^ k
  size_le : size + align ≤ usizeSize / 2
  deriving DecidableEq

/-- The same alignment with another size (`Layout::from_size_align_unchecked`). -/
def Layout.withSize (layout : Layout) (newSize : Nat)
    (fits : newSize + layout.align ≤ usizeSize / 2) : Layout :=
  { size := newSize, align := layout.align, align_pow2 := layout.align_pow2, size_le := fits }

/-! ## Constants -/

section Constants
omit [Build]

def word : Nat := 8
def minBlockSize : Nat := word
/-- One wasm page: the unit of `memory.grow` and of the slice bitmap. -/
def sliceSize : Nat := 64 * 1024
def smallPageSize : Nat := sliceSize
def mediumPageSize : Nat := 4 * sliceSize
def largePageSize : Nat := 64 * sliceSize
def smallMaxObjSize : Nat := 10 * 1024
def mediumMaxObjSize : Nat := 40 * 1024
def largeMaxObjSize : Nat := 512 * 1024
def largePages : Bool := false
def maxBinnedObjSize : Nat := if largePages then largeMaxObjSize else mediumMaxObjSize
def maxNaturalAlign : Nat := 4096
def pageHeaderReserve : Nat := 64
def directMaxSize : Nat := 1024
def directEntries : Nat := directMaxSize / word + 1
def maxBin : Nat := 60
def binCount : Nat := maxBin + 1
def binHuge : Nat := maxBin + 1

/-! ## Bins -/

/-- Bin for a block of `size` bytes: `1 ..= maxBin`, or `binHuge` above `largeMaxObjSize`. -/
def bin (size : Nat) : Nat :=
  if size ≤ 8 * word then
    if size ≤ word then 1 else divCeil size word
  else if largeMaxObjSize < size then binHuge
  else
    let w := divCeil size word - 1
    let b := Nat.log2 w
    (b <<< 2) + ((w >>> (b - 2)) &&& 3) - 3

/-- Block size of a bin in bytes. -/
def binSize (bin : Nat) : Nat :=
  if bin ≤ 8 then bin * word
  else
    let k := bin + 3
    let b := k >>> 2
    let m := k &&& 3
    ((5 + m) <<< (b - 2)) * word

def smallMaxBin : Nat := bin smallMaxObjSize
def mediumMaxBin : Nat := bin mediumMaxObjSize
def maxBinnedBin : Nat := bin maxBinnedObjSize

inductive PageKind where
  | small
  | medium
  | large
  deriving DecidableEq, Repr

def PageKind.pageSize : PageKind → Nat
  | .small => smallPageSize
  | .medium => mediumPageSize
  | .large => largePageSize

/-- Page kind holding blocks of `bin`. -/
def kindOfBin (bin : Nat) : PageKind :=
  if bin ≤ smallMaxBin then .small
  else if bin ≤ mediumMaxBin then .medium
  else .large

def directIndex (size : Nat) : Nat := divCeil size word

/-- How a request is served. -/
inductive Class where
  | bin (b : Nat)
  | huge
  deriving DecidableEq, Repr

end Constants

/-- Mask that turns an address inside a page of this kind into the page's start. -/
def PageKind.pageMask (kind : PageKind) : Nat := usizeNot (kind.pageSize - 1)

def roundUpPow2 (size align : Nat) : Nat := (size + align - 1) &&& usizeNot (align - 1)

/-- Classify a request: the one function that decides how a Layout is served. -/
def classify (layout : Layout) : Class :=
  let align := layout.align
  if maxNaturalAlign < align then .huge
  else
    let size := if word < align then roundUpPow2 layout.size align else layout.size
    if maxBinnedObjSize < size then .huge else .bin (bin size)

/-- Offset of the first block in a page whose blocks are `blockSize` bytes. -/
def blockStart (blockSize : Nat) : Nat :=
  let natural := blockSize &&& wrappingNeg blockSize
  let align := if maxNaturalAlign < natural then maxNaturalAlign else natural
  roundUpPow2 pageHeaderReserve align

/-- Number of blocks a fresh page of `kind` holds for `blockSize`. -/
def blocksPerPage (kind : PageKind) (blockSize : Nat) : Nat :=
  let divisor := if blockSize = 0 then 1 else blockSize
  (kind.pageSize - blockStart blockSize) / divisor

/-! ## The width of the build -/

theorem usizeBits_cases : usizeBits = 32 ∨ usizeBits = 64 := by
  have hbytes : usizeBytes = 4 ∨ usizeBytes = 8 := Build.usizeBytes_eq
  unfold usizeBits
  omega

theorem two_pow_32_le : 2 ^ 32 ≤ usizeSize := by
  unfold usizeSize
  rcases usizeBits_cases with h | h
  · rw [h]
  · rw [h]
    decide

theorem usizeSize_eq_pow : usizeSize = 256 ^ usizeBytes := by
  unfold usizeSize usizeBits
  rw [Nat.pow_mul]

theorem usizeBytes_le : usizeBytes ≤ 8 := by
  have hbytes : usizeBytes = 4 ∨ usizeBytes = 8 := Build.usizeBytes_eq
  omega

theorem usizeBytes_pos : 1 ≤ usizeBytes := by
  have hbytes : usizeBytes = 4 ∨ usizeBytes = 8 := Build.usizeBytes_eq
  omega

/-- Masking with the complement of `2^k - 1` in the width of the build. -/
theorem land_usizeNot {x k : Nat} (hx : x < usizeSize) (hk : k ≤ 32) :
    x &&& usizeNot (2 ^ k - 1) = x / 2 ^ k * 2 ^ k := by
  have hk' : k ≤ usizeBits := by rcases usizeBits_cases with h | h <;> omega
  have hpow : 0 < 2 ^ k := Nat.two_pow_pos k
  have hmask : usizeNot (2 ^ k - 1) = 2 ^ usizeBits - 2 ^ k := by
    unfold usizeNot usizeMax usizeSize
    omega
  rw [hmask]
  exact PowTwo.land_high hx hk'

theorem roundUpPow2_eq {size k : Nat} (hs : size + 2 ^ k - 1 < usizeSize) (hk : k ≤ 32) :
    roundUpPow2 size (2 ^ k) = PowTwo.roundUp size (2 ^ k) := by
  unfold roundUpPow2
  rw [land_usizeNot hs hk]
  rfl

/-! ## Bins are tight -/

section Tight
omit [Build]

/-- The largest size of the bin below. -/
def binFloor (b : Nat) : Nat := if b = 1 then 0 else binSize (b - 1)

theorem binSize_mono : ∀ b < 61, ∀ c < b, binSize c < binSize b := by decide +kernel

theorem binSize_le {b c : Nat} (hb : b ≤ maxBin) (h : c ≤ b) : binSize c ≤ binSize b := by
  rcases Nat.lt_or_eq_of_le h with hlt | heq
  · exact Nat.le_of_lt (binSize_mono b (Nat.lt_succ_of_le hb) c hlt)
  · rw [heq]

/-- A size above 64 bytes lies in the quarter of its doubling that `bin` picks. -/
theorem bin_bounds_large {s : Nat} (hs : 64 < s) (hs' : s ≤ largeMaxObjSize) :
    (1 ≤ bin s ∧ bin s ≤ maxBin) ∧ binFloor (bin s) < s ∧ s ≤ binSize (bin s) := by
  have hle : s ≤ 524288 := hs'
  have hw : 8 * ((s + 7) / 8 - 1) < s ∧ s ≤ 8 * ((s + 7) / 8 - 1 + 1) := by omega
  have hw8 : 8 ≤ (s + 7) / 8 - 1 := by omega
  have hwmax : (s + 7) / 8 - 1 < 65536 := by omega
  have hbin : bin s = (Nat.log2 ((s + 7) / 8 - 1) <<< 2)
      + (((s + 7) / 8 - 1) >>> (Nat.log2 ((s + 7) / 8 - 1) - 2) &&& 3) - 3 := by
    unfold bin
    rw [if_neg (by unfold word; omega), if_neg (by omega)]
    rfl
  rw [hbin]
  generalize (s + 7) / 8 - 1 = w at hw hw8 hwmax
  have hne : w ≠ 0 := by omega
  have hlow : 2 ^ Nat.log2 w ≤ w := Nat.log2_self_le hne
  have hhigh : w < 2 ^ (Nat.log2 w + 1) := Nat.lt_log2_self
  have hb3 : 3 ≤ Nat.log2 w := by
    rw [Nat.le_log2 hne]
    exact hw8
  have hb15 : Nat.log2 w < 16 := by
    rw [Nat.log2_lt hne]
    exact hwmax
  generalize Nat.log2 w = b at hlow hhigh hb3 hb15
  rw [Nat.shiftRight_eq_div_pow]
  have hq := Nat.div_add_mod w (2 ^ (b - 2))
  have hr := Nat.mod_lt w (Nat.two_pow_pos (b - 2))
  have hq4 : 4 ≤ w / 2 ^ (b - 2) := by
    rw [Nat.le_div_iff_mul_le (Nat.two_pow_pos _)]
    have : 4 * 2 ^ (b - 2) = 2 ^ b := by
      rw [show (4 : Nat) = 2 ^ 2 by rfl, ← Nat.pow_add]
      congr 1
      omega
    omega
  have hq8 : w / 2 ^ (b - 2) < 8 := by
    rw [Nat.div_lt_iff_lt_mul (Nat.two_pow_pos _)]
    have : 8 * 2 ^ (b - 2) = 2 ^ (b + 1) := by
      rw [show (8 : Nat) = 2 ^ 3 by rfl, ← Nat.pow_add]
      congr 1
      omega
    omega
  generalize w / 2 ^ (b - 2) = q at hq hq4 hq8
  -- 13 doublings of four quarters each: the bin and its neighbours are now numbers.
  interval_cases b <;> interval_cases q <;>
    (refine ⟨by decide, ?_, ?_⟩ <;> simp [binFloor, binSize, word] at hq hr ⊢ <;> omega)

theorem bin_bounds {s : Nat} (hs : 1 ≤ s) (hs' : s ≤ largeMaxObjSize) :
    (1 ≤ bin s ∧ bin s ≤ maxBin) ∧ binFloor (bin s) < s ∧ s ≤ binSize (bin s) := by
  by_cases h : s ≤ 64
  · have hsmall : ∀ s < 65, 1 ≤ s → (1 ≤ bin s ∧ bin s ≤ maxBin) ∧ binFloor (bin s) < s ∧
        s ≤ binSize (bin s) := by decide +kernel
    exact hsmall s (by omega) hs
  · exact bin_bounds_large (by omega) hs'

/-- **Bins are tight**: `bin s` is the least bin whose blocks hold `s` bytes. -/
theorem bin_le_iff {s b : Nat} (hs : 1 ≤ s) (hs' : s ≤ largeMaxObjSize) (hb : 1 ≤ b)
    (hb' : b ≤ maxBin) : bin s ≤ b ↔ s ≤ binSize b := by
  obtain ⟨⟨hpos, hmax⟩, hfloor, hsize⟩ := bin_bounds hs hs'
  constructor
  · intro h
    exact le_trans hsize (binSize_le hb' h)
  · intro h
    by_contra hlt
    have hfl : binFloor (bin s) = binSize (bin s - 1) := by
      unfold binFloor
      rw [if_neg (by omega)]
    have hge : binSize b ≤ binSize (bin s - 1) :=
      binSize_le (b := bin s - 1) (by omega) (by omega)
    omega

theorem bin_mono {s t : Nat} (hs : 1 ≤ s) (ht : t ≤ largeMaxObjSize) (h : s ≤ t) :
    bin s ≤ bin t := by
  obtain ⟨⟨hpos, hmax⟩, -, hsize⟩ := bin_bounds (le_trans hs h) ht
  exact (bin_le_iff hs (le_trans h ht) hpos hmax).mpr (le_trans h hsize)

theorem dvd_binSize {s k : Nat} (hs : 1 ≤ s) (hs' : s ≤ largeMaxObjSize) (hk : k ≤ 12)
    (hdvd : 2 ^ k ∣ s) : 2 ^ k ∣ binSize (bin s) := by
  obtain ⟨⟨hpos, hmax⟩, hfloor, hsize⟩ := bin_bounds hs hs'
  have hcheck : ∀ b < 61, ∀ k < 13, 1 ≤ b →
      binFloor b < binSize b / 2 ^ k * 2 ^ k → binSize b % 2 ^ k = 0 := by decide +kernel
  apply Nat.dvd_of_mod_eq_zero
  apply hcheck (bin s) (Nat.lt_succ_of_le hmax) k (by omega) hpos
  obtain ⟨q, rfl⟩ := hdvd
  have hq : q ≤ binSize (bin (2 ^ k * q)) / 2 ^ k := by
    rw [Nat.le_div_iff_mul_le (Nat.two_pow_pos k), Nat.mul_comm]
    exact hsize
  calc binFloor (bin (2 ^ k * q)) < 2 ^ k * q := hfloor
    _ = q * 2 ^ k := Nat.mul_comm _ _
    _ ≤ binSize (bin (2 ^ k * q)) / 2 ^ k * 2 ^ k := Nat.mul_le_mul_right _ hq

end Tight

/-! ## Page geometry -/

/-- What the layout of a page of bin `b` guarantees. -/
structure BinGeometry (b : Nat) : Prop where
  size_ge : 8 ≤ binSize b
  size_word : 8 ∣ binSize b
  start_word : 8 ∣ blockStart (binSize b)
  start_ge : pageHeaderReserve ≤ blockStart (binSize b)
  start_le : blockStart (binSize b) ≤ 4096
  size_le : binSize b ≤ largeMaxObjSize
  fits : blockStart (binSize b) + blocksPerPage (kindOfBin b) (binSize b) * binSize b
    ≤ (kindOfBin b).pageSize
  reserved_ge : 6 ≤ blocksPerPage (kindOfBin b) (binSize b)
  reserved_le : blocksPerPage (kindOfBin b) (binSize b) ≤ 8188
  start_dvd : ∀ k ≤ 12, 2 ^ k ∣ binSize b → 2 ^ k ∣ blockStart (binSize b)

/-- The offset of the first block, computed in `n`-bit words. -/
def blockStartIn (n blockSize : Nat) : Nat :=
  let natural := blockSize &&& ((2 ^ n - blockSize % 2 ^ n) % 2 ^ n)
  let align := if maxNaturalAlign < natural then maxNaturalAlign else natural
  (pageHeaderReserve + align - 1) &&& (2 ^ n - 1 - (align - 1))

theorem blockStart_eq (blockSize : Nat) : blockStart blockSize = blockStartIn usizeBits blockSize :=
  rfl

/-- The offset of the first block does not depend on the width. -/
theorem blockStart_table : ∀ b < 61, 1 ≤ b →
    blockStart (binSize b) = blockStartIn 32 (binSize b) := by
  intro b hb hb1
  rw [blockStart_eq]
  have hsame : ∀ b < 61, 1 ≤ b → blockStartIn 64 (binSize b) = blockStartIn 32 (binSize b) := by
    decide +kernel
  rcases usizeBits_cases with h | h <;> rw [h]
  exact hsame b hb hb1

theorem binGeometry {b : Nat} (hb : 1 ≤ b) (hb' : b ≤ maxBin) : BinGeometry b := by
  have hlt : b < 61 := Nat.lt_succ_of_le hb'
  have hstart := blockStart_table b hlt hb
  have hcount : blocksPerPage (kindOfBin b) (binSize b)
      = ((kindOfBin b).pageSize - blockStartIn 32 (binSize b))
        / (if binSize b = 0 then 1 else binSize b) := by
    unfold blocksPerPage
    rw [hstart]
  have hcheck : ∀ b < 61, 1 ≤ b →
      (8 ≤ binSize b ∧ 8 ∣ binSize b ∧ 8 ∣ blockStartIn 32 (binSize b) ∧
        pageHeaderReserve ≤ blockStartIn 32 (binSize b) ∧ blockStartIn 32 (binSize b) ≤ 4096 ∧
        binSize b ≤ largeMaxObjSize) ∧
      (let n := ((kindOfBin b).pageSize - blockStartIn 32 (binSize b))
        / (if binSize b = 0 then 1 else binSize b)
       blockStartIn 32 (binSize b) + n * binSize b ≤ (kindOfBin b).pageSize ∧ 6 ≤ n ∧ n ≤ 8188) ∧
      ∀ k < 13, 2 ^ k ∣ binSize b → 2 ^ k ∣ blockStartIn 32 (binSize b) := by decide +kernel
  obtain ⟨⟨h1, h2, h3, h4, h5, h6⟩, ⟨h7, h8, h9⟩, h10⟩ := hcheck b hlt hb
  rw [← hstart] at h3 h4 h5
  rw [← hstart] at hcount h7 h8 h9
  rw [← hcount] at h7 h8 h9
  have hdvd : ∀ k ≤ 12, 2 ^ k ∣ binSize b → 2 ^ k ∣ blockStart (binSize b) := by
    intro k hk hdvd
    rw [hstart]
    exact h10 k (by omega) hdvd
  exact { size_ge := h1, size_word := h2, start_word := h3, start_ge := h4, start_le := h5,
          size_le := h6, fits := h7, reserved_ge := h8, reserved_le := h9, start_dvd := hdvd }

/-! ## What `classify` promises -/

theorem Layout.align_pos (layout : Layout) : 0 < layout.align := by
  obtain ⟨k, hk⟩ := layout.align_pow2
  rw [hk]
  exact Nat.two_pow_pos k

theorem Layout.align_exp {layout : Layout} (h : layout.align ≤ maxNaturalAlign) :
    ∃ k ≤ 12, layout.align = 2 ^ k := by
  obtain ⟨k, hk⟩ := layout.align_pow2
  refine ⟨k, ?_, hk⟩
  rw [hk] at h
  exact (Nat.pow_le_pow_iff_right (a := 2) (by decide)).mp h

/-- The size `classify` bins: rounded up to alignments above a word. -/
def binnedSize (layout : Layout) : Nat :=
  if word < layout.align then PowTwo.roundUp layout.size layout.align else layout.size

theorem le_binnedSize (layout : Layout) : layout.size ≤ binnedSize layout := by
  unfold binnedSize
  split
  · exact PowTwo.le_roundUp layout.align_pos
  · exact Nat.le_refl _

/-- `classify` bins `binnedSize` unless it, or the alignment, is too large for a page. -/
theorem classify_eq (layout : Layout) : classify layout =
    if maxNaturalAlign < layout.align ∨ maxBinnedObjSize < binnedSize layout then .huge
    else .bin (bin (binnedSize layout)) := by
  unfold classify
  by_cases ha : maxNaturalAlign < layout.align
  · simp [ha]
  · have hsize : (if word < layout.align then roundUpPow2 layout.size layout.align
        else layout.size) = binnedSize layout := by
      unfold binnedSize
      obtain ⟨k, hk, hk'⟩ := layout.align_exp (by omega)
      have hle := layout.size_le
      have hlt : layout.size + 2 ^ k - 1 < usizeSize := by
        have := two_pow_32_le
        rw [hk'] at hle
        omega
      rw [hk', roundUpPow2_eq hlt (by omega)]
    simp only [ha, if_false, false_or]
    rw [hsize]

/-- What a request served from bin `b` can rely on. -/
structure Binned (layout : Layout) (b : Nat) : Prop where
  bin_eq : b = bin (binnedSize layout)
  bin_pos : 1 ≤ b
  bin_le : b ≤ maxBinnedBin
  align_le : layout.align ≤ maxNaturalAlign
  align_dvd : layout.align ∣ binSize b
  size_le : layout.size ≤ binSize b
  binned_le : binnedSize layout ≤ maxBinnedObjSize

omit [Build] in
theorem maxBinnedBin_lt : maxBinnedBin < maxBin := by decide +kernel

theorem classify_bin {layout : Layout} {b : Nat} (hs : 1 ≤ layout.size)
    (h : classify layout = .bin b) : Binned layout b := by
  rw [classify_eq] at h
  split at h
  · cases h
  · rename_i hnot
    obtain ⟨halign, hsize⟩ := not_or.mp hnot
    have hb : bin (binnedSize layout) = b := Class.bin.inj h
    have hmax : maxBinnedObjSize ≤ largeMaxObjSize := by decide
    have hs1 : 1 ≤ binnedSize layout := le_trans hs (le_binnedSize layout)
    have hs2 : binnedSize layout ≤ largeMaxObjSize := by omega
    obtain ⟨⟨hpos, -⟩, -, hle⟩ := bin_bounds hs1 hs2
    obtain ⟨k, hk, hk'⟩ := layout.align_exp (by omega)
    rw [← hb]
    refine { bin_eq := rfl, bin_pos := hpos, bin_le := ?_, align_le := by omega,
             align_dvd := ?_, size_le := le_trans (le_binnedSize layout) hle,
             binned_le := by omega }
    · exact bin_mono hs1 hmax (by omega)
    · by_cases hw : word < layout.align
      · rw [hk']
        apply dvd_binSize hs1 hs2 hk
        rw [← hk']
        unfold binnedSize
        rw [if_pos hw]
        exact PowTwo.dvd_roundUp _ _
      · have hgeo : 8 ∣ binSize (bin (binnedSize layout)) := by
          have hall : ∀ b < 61, 8 ∣ binSize b := by decide +kernel
          obtain ⟨⟨-, hmaxb⟩, -, -⟩ := bin_bounds hs1 hs2
          exact hall _ (Nat.lt_succ_of_le hmaxb)
        refine dvd_trans ?_ hgeo
        have hk3 : k ≤ 3 := by
          rw [hk'] at hw
          have h8 : 2 ^ k ≤ 2 ^ 3 := by unfold word at hw; omega
          exact (Nat.pow_le_pow_iff_right (by decide)).mp h8
        rw [hk']
        exact Nat.pow_dvd_pow 2 hk3

theorem Binned.bin_lt {layout : Layout} {b : Nat} (h : Binned layout b) : b ≤ maxBin := by
  have := h.bin_le
  have := maxBinnedBin_lt
  omega

theorem Binned.rounded_le {layout : Layout} {b : Nat} (h : Binned layout b) :
    PowTwo.roundUp layout.size layout.align ≤ binSize b :=
  (PowTwo.roundUp_le layout.align_pos h.align_dvd).mpr h.size_le

end Wasmalloc
