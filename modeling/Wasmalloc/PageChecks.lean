import Wasmalloc.PageInv
import Wasmalloc.SliceChecks

/- What the size classes and the pages check while they run.

   The conditions of `bins.rs` and `page.rs`, as in the module on the slice map. A store to
   a header field is exact when the value fits the field. `block_index`, which the
   assertions of `pop` and `push` call, wraps and checks its own subtractions. -/
namespace Wasmalloc
open ByteMem Obligations

variable [Build]

/-! ## Size classes -/

def RoundUpPow2Checks (k : Check) (size align : Nat) : Prop :=
  asserts k (PowerOfTwo align) ∧ computes k (FitsUsize (size + align) ∧ 1 ≤ align)

omit [Build] in
def BinSizeChecks (k : Check) (bin : Nat) : Prop := asserts k (1 ≤ bin ∧ bin ≤ maxBin)

omit [Build] in
def KindOfBinChecks (k : Check) (bin : Nat) : Prop := asserts k (1 ≤ bin ∧ bin ≤ maxBin)

omit [Build] in
def DirectIndexChecks (k : Check) (size : Nat) : Prop := asserts k (size ≤ directMaxSize)

def ClassifyChecks (k : Check) (layout : Layout) : Prop :=
  layout.align ≤ maxNaturalAlign → word < layout.align → RoundUpPow2Checks k layout.size layout.align

/-- The alignment `blockStart` rounds the header up to. -/
def blockAlign (blockSize : Nat) : Nat :=
  let natural := blockSize &&& wrappingNeg blockSize
  if maxNaturalAlign < natural then maxNaturalAlign else natural

def BlockStartChecks (k : Check) (blockSize : Nat) : Prop :=
  asserts k (minBlockSize ≤ blockSize ∧ blockSize % word = 0) ∧
  RoundUpPow2Checks k pageHeaderReserve (blockAlign blockSize)

/-- The replacement of a zero size replaces nothing. -/
def BlocksPerPageChecks (k : Check) (kind : PageKind) (blockSize : Nat) : Prop :=
  asserts k (minBlockSize ≤ blockSize) ∧ guards k (blockSize ≠ 0) ∧ BlockStartChecks k blockSize ∧
  computes k (blockStart blockSize ≤ kind.pageSize)

/-! ## Pages -/

namespace Page

def InitChecks (k : Check) (pageAddr : Nat) (kind : PageKind) (bin : Nat) (zeroed : Bool) : Prop :=
  asserts k (1 ≤ bin ∧ bin ≤ maxBin) ∧ KindOfBinChecks k bin ∧ asserts k (kindOfBin bin = kind) ∧
  asserts k (pageAddr % kind.pageSize = 0) ∧ asserts k (FitsUsize (pageAddr + kind.pageSize)) ∧
  BinSizeChecks k bin ∧ BlockStartChecks k (binSize bin) ∧ BlocksPerPageChecks k kind (binSize bin) ∧
  asserts k (blocksPerPage kind (binSize bin) < 2 ^ 32) ∧ asserts k (blockStart (binSize bin) < 2 ^ 16) ∧
  computes k (∀ f, fresh kind bin zeroed f < 256 ^ f.width)

def PopChecks (k : Check) (b : Bytes) (page : Nat) : Prop :=
  get b page .free ≠ 0 →
    asserts k ((blockIndex b page (get b page .free)).isSome = true) ∧
    computes k (get b page .used + 1 < 256 ^ Field.width .used)

def PushChecks (k : Check) (b : Bytes) (page block : Nat) : Prop :=
  asserts k ((blockIndex b page block).isSome = true) ∧ asserts k (0 < get b page .used) ∧
  computes k (1 ≤ get b page .used)

def LinkBlocksChecks (k : Check) (blockSize last : Nat) : Nat → Nat → Prop
  | 0, _ => True
  | fuel + 1, block =>
    block < last →
      computes k (FitsUsize (block + blockSize)) ∧
        LinkBlocksChecks k blockSize last fuel (block + blockSize)

def ExtendChecks (k : Check) (b : Bytes) (page : Nat) : Prop :=
  let capacity := get b page .capacity
  let reserved := get b page .reserved
  let blockSize := get b page .blockSize
  let count := min (reserved - capacity) (max (maxExtendSize / max blockSize 1) 1)
  let first := page + get b page .blockStart + capacity * blockSize
  let last := first + (count - 1) * blockSize
  asserts k (capacity ≤ reserved) ∧
  (capacity < reserved →
    guards k (max blockSize 1 = blockSize) ∧
    computes k (FitsUsize (page + get b page .blockStart) ∧ FitsUsize (capacity * blockSize) ∧
      FitsUsize first) ∧
    computes k (1 ≤ count ∧ FitsUsize ((count - 1) * blockSize) ∧ FitsUsize last) ∧
    LinkBlocksChecks k blockSize last count first ∧
    computes k (capacity + count < 256 ^ Field.width .capacity))

/-- The byte is that of a kind. -/
def KindChecks (k : Check) (b : Bytes) (page : Nat) : Prop :=
  asserts k (∃ kind, get b page .kind = kindToU8 kind)

end Page

/-! ## Every condition holds -/

theorem roundUpPow2_checks (k : Check) {size align : Nat} (hpow : PowerOfTwo align)
    (hfit : FitsUsize (size + align)) : RoundUpPow2Checks k size align := by
  obtain ⟨e, rfl⟩ := hpow
  exact ⟨asserts_of ⟨e, rfl⟩, computes_of ⟨hfit, Nat.two_pow_pos e⟩⟩

theorem layout_fits (layout : Layout) : FitsUsize (layout.size + layout.align) := by
  have hle := layout.size_le
  have hpos := layout.align_pos
  unfold FitsUsize
  omega

theorem classify_checks (k : Check) (layout : Layout) : ClassifyChecks k layout :=
  fun _ _ => roundUpPow2_checks k layout.align_pow2 (layout_fits layout)

/-- The alignment a page's blocks start at, computed in `n`-bit words. -/
theorem blockAlign_table : ∀ b < 61, 1 ≤ b → ∃ e ≤ 12, blockAlign (binSize b) = 2 ^ e := by
  have hcheck : ∀ n ∈ [32, 64], ∀ b < 61, 1 ≤ b →
      let natural := binSize b &&& ((2 ^ n - binSize b % 2 ^ n) % 2 ^ n)
      let align := if maxNaturalAlign < natural then maxNaturalAlign else natural
      Nat.log2 align ≤ 12 ∧ align = 2 ^ Nat.log2 align := by decide +kernel
  intro b hb hb1
  have hn : usizeBits ∈ [32, 64] := by
    rcases usizeBits_cases with h | h <;> simp [h]
  exact ⟨_, hcheck usizeBits hn b hb hb1⟩

section Bins
variable {k : Check} {n : Nat}

theorem blockStart_checks (k : Check) (hn : 1 ≤ n) (hn' : n ≤ maxBin) :
    BlockStartChecks k (binSize n) := by
  have hgeo := binGeometry hn hn'
  obtain ⟨e, he, halign⟩ := blockAlign_table n (Nat.lt_succ_of_le hn') hn
  have hpow : 2 ^ e ≤ 2 ^ 12 := Nat.pow_le_pow_right (by decide) he
  refine ⟨asserts_of ⟨hgeo.size_ge, Nat.mod_eq_zero_of_dvd hgeo.size_word⟩,
    roundUpPow2_checks k ⟨e, halign⟩ (fits_of_le ?_)⟩
  rw [halign]
  unfold pageHeaderReserve
  omega

theorem blocksPerPage_checks (k : Check) (hn : 1 ≤ n) (hn' : n ≤ maxBin) (kind : PageKind) :
    BlocksPerPageChecks k kind (binSize n) := by
  have hgeo := binGeometry hn hn'
  have hstart := hgeo.start_le
  have hpage : 4096 ≤ kind.pageSize := by cases kind <;> decide
  refine ⟨asserts_of hgeo.size_ge, guards_of ?_, blockStart_checks k hn hn', computes_of (by omega)⟩
  have := hgeo.size_ge
  omega

end Bins

namespace Page

variable {k : Check} {b : Bytes} {p n : Nat} {fl lv : List Nat}

theorem init_checks (k : Check) (hn : 1 ≤ n) (hn' : n ≤ maxBin) (hp : (kindOfBin n).pageSize ∣ p)
    (hend : FitsUsize (p + (kindOfBin n).pageSize)) (zeroed : Bool) :
    InitChecks k p (kindOfBin n) n zeroed := by
  have hgeo := binGeometry hn hn'
  refine ⟨asserts_of ⟨hn, hn'⟩, asserts_of ⟨hn, hn'⟩, asserts_of rfl,
    asserts_of (Nat.mod_eq_zero_of_dvd hp), asserts_of hend, asserts_of ⟨hn, hn'⟩,
    blockStart_checks k hn hn', blocksPerPage_checks k hn hn' _, asserts_of ?_, asserts_of ?_,
    computes_of fun f => fresh_lt hn hn' zeroed f⟩
  · exact lt_of_le_of_lt hgeo.reserved_le (by decide)
  · exact lt_of_le_of_lt hgeo.start_le (by decide)

theorem PageShape.index_isSome (h : PageShape b p n fl lv) {a : Nat} (ha : a ∈ fl ++ lv) :
    (blockIndex b p a).isSome = true := by
  obtain ⟨i, hi, rfl⟩ := h.mem_block ha
  rw [h.blockIndex_block hi]
  rfl

theorem PageShape.pop_checks (k : Check) (h : PageShape b p n fl lv) : PopChecks k b p := by
  intro hfree
  rw [h.head] at hfree ⊢
  cases fl with
  | nil => exact absurd rfl hfree
  | cons a fl =>
    refine ⟨asserts_of (h.index_isSome List.mem_cons_self), computes_of ?_⟩
    have hle := h.used_le
    have hcap := h.capacity_le
    have hmax := (binGeometry h.bin_pos h.bin_le).reserved_le
    rw [h.used]
    unfold reservedOf at hcap
    show lv.length + 1 < 256 ^ 4
    omega

theorem PageShape.push_checks (k : Check) (h : PageShape b p n fl lv) {a : Nat} (ha : a ∈ lv) :
    PushChecks k b p a := by
  have hused : 0 < get b p .used := by
    rw [h.used]
    exact List.length_pos_of_mem ha
  exact ⟨asserts_of (h.index_isSome (List.mem_append_right _ ha)), asserts_of hused, computes_of hused⟩

theorem linkBlocks_checks (k : Check) {blockSize last : Nat} (hlast : last + blockSize ≤ usizeSize)
    (fuel : Nat) : ∀ {block : Nat}, LinkBlocksChecks k blockSize last fuel block := by
  induction fuel with
  | zero => exact trivial
  | succ fuel ih =>
    intro block hlt
    refine ⟨computes_of ?_, ih⟩
    unfold FitsUsize
    omega

theorem PageShape.extend_checks (k : Check) (h : PageShape b p n fl lv) : ExtendChecks k b p := by
  have hgeo := binGeometry h.bin_pos h.bin_le
  have hsize := hgeo.size_ge
  unfold ExtendChecks
  rw [h.reserved, h.blockSize, h.blockStart]
  have hcap := h.capacity_le
  have hmax : reservedOf n ≤ 8188 := hgeo.reserved_le
  refine ⟨asserts_of hcap, fun hroom => ⟨guards_of (Nat.max_eq_left (by omega)), ?_⟩⟩
  generalize hbatch : min (reservedOf n - get b p .capacity)
    (max (maxExtendSize / max (binSize n) 1) 1) = count
  have hpos : 1 ≤ count := by omega
  have hle : get b p .capacity + count ≤ reservedOf n := by omega
  -- The last block of the batch ends inside the page, so everything below it fits.
  have hlast := block_upper (p := p) (i := get b p .capacity + (count - 1)) h.bin_pos h.bin_le (by omega)
  have hsum : block p n (get b p .capacity + (count - 1)) =
      p + Wasmalloc.blockStart (binSize n) + get b p .capacity * binSize n + (count - 1) * binSize n := by
    unfold block
    rw [Nat.add_mul, ← Nat.add_assoc]
  have hend := h.end_le
  rw [hsum] at hlast
  have hfit : FitsUsize (p + Wasmalloc.blockStart (binSize n) + get b p .capacity * binSize n +
      (count - 1) * binSize n) := by
    unfold FitsUsize
    omega
  refine ⟨computes_of ⟨hfit.mono (by omega), hfit.mono (by omega), hfit.mono (by omega)⟩,
    computes_of ⟨hpos, hfit.mono (by omega), hfit⟩, linkBlocks_checks k (by omega) _, computes_of ?_⟩
  show get b p .capacity + count < 256 ^ 4
  omega

theorem PageShape.kind_checks (k : Check) (h : PageShape b p n fl lv) : KindChecks k b p :=
  asserts_of ⟨_, h.kind⟩

end Page

end Wasmalloc
