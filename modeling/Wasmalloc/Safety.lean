import Wasmalloc.Observed

/- What a program can rely on about the blocks it holds.

   In every reachable state a live block is the program's alone (`reachable_exclusive`)
   and can be found again from the Layout it carries (`reachable_recovered`). A call
   changes no byte of a block it is not about, and a resize keeps the contents
   (`contents_kept`); what `allocZeroed` returns is zero, because the two caches of
   zero memory are right (`zeroed_right`). -/
namespace Wasmalloc
open ByteMem

/-! ## Blocks are exclusive -/

section Exclusive
variable [Build] {M : Type} [Memory M] {c : Config M} {g : Ghost} {blk : Block}

/-- The bytes of a block are aligned, owned by the heap, and nobody else's. -/
structure Exclusive (c : Config M) (blk : Block) : Prop where
  nonnull : blk.addr ≠ 0
  aligned : blk.layout.align ∣ blk.addr
  owned : ∀ x, blk.addr ≤ x → x < blk.addr + blk.layout.size →
    c.heap.slices.Recorded (x / sliceSize)
  header : ∀ q p, c.heap.Queued q p → Apart blk.addr blk.layout.size p Page.size
  other : ∀ blk' ∈ c.live, blk' ≠ blk →
    Apart blk.addr blk.layout.size blk'.addr blk'.layout.size
  freeBlock : ∀ q p, c.heap.Queued q p → ∃ fl, Page.FreeList c.heap.bytes p fl ∧
    ∀ a ∈ fl, Apart blk.addr blk.layout.size a (c.heap.field p .blockSize)
  freeSlice : ∀ i, c.heap.slices.Free i → Apart blk.addr blk.layout.size (i * sliceSize) sliceSize

theorem Inv.exclusive (hi : Inv g c.heap c.live) (hm : blk ∈ c.live) : Exclusive c blk := by
  have hp := hi.core.pages
  have hb := hi.core.blocks
  have hs := hi.core.slices
  have hok := hb.block blk hm
  have hpos := hok.size_pos
  have hsize := size_le_span hp hb hm
  have hspan : ∀ {x : Nat}, blk.addr ≤ x → x < blk.addr + blk.layout.size → InSpan g blk x :=
    fun hlo hhi => ⟨hlo, by omega⟩
  refine { nonnull := ?_, aligned := hok.aligned, owned := ?_, header := ?_, other := ?_,
           freeBlock := ?_, freeSlice := ?_ }
  · -- Slice 0 is never recorded.
    intro h0
    have hown := (span_slice hp hb hm (hspan (Nat.le_refl _) (by omega))).2
    have := hs.pos _ hown
    rw [h0] at this
    simp at this
  · exact fun x hlo hhi => (hs.recorded _).mpr (span_slice hp hb hm (hspan hlo hhi)).2
  · intro q p hq
    have hpage := (hi.core.queued hq).isPage
    refine apart_of hpos (by unfold Page.size; omega) fun x hlo hhi hlo' hhi' => ?_
    have := span_header hp hb hm (hspan hlo hhi) hpage hlo'
    omega
  · intro blk' hm' hne
    have hok' := hb.block blk' hm'
    have hsize' := size_le_span hp hb hm'
    have haddr : blk.addr ≠ blk'.addr := fun e =>
      hne (List.inj_on_of_nodup_map hb.nodup hm' hm e.symm)
    refine apart_of hpos hok'.size_pos fun x hlo hhi hlo' hhi' => ?_
    exact spans_apart hp hb hm hm' haddr (hspan hlo hhi) ⟨hlo', by omega⟩
  · intro q p hq
    have hin := hi.core.queued hq
    refine ⟨_, hi.core.freeList hq, fun a ha => ?_⟩
    have hge := (binGeometry hin.ok.bin_pos hin.ok.bin_le).size_ge
    unfold Heap.field
    rw [hin.ok.blockSize]
    refine apart_of hpos (by omega) fun x hlo hhi hlo' hhi' => ?_
    have := span_freeBlock hp hb hm (hspan hlo hhi) hin.isPage ha hlo'
    omega
  · intro i hfree
    refine apart_of hpos (by decide) fun x hlo hhi hlo' hhi' => ?_
    have hx : x / sliceSize = i :=
      Nat.div_eq_of_lt_le hlo' (by rw [Nat.add_mul, Nat.one_mul]; exact hhi')
    refine (span_slice hp hb hm (hspan hlo hhi)).1 ?_
    rw [hx]
    exact (hs.free i).mp hfree

variable [Memory.Contract M]

/-- **Blocks are exclusive**: in every reachable state the program's blocks have distinct
    addresses, and each is aligned, owned, and apart from all else. -/
theorem reachable_exclusive (hc : Reachable c) :
    (c.live.map Block.addr).Nodup ∧ ∀ blk ∈ c.live, Exclusive c blk := by
  obtain ⟨g, hi⟩ := reachable_ok hc
  exact ⟨hi.core.blocks.nodup, fun blk hm => hi.exclusive hm⟩

end Exclusive

open Sample in
/-- The program holds two blocks of one page. -/
def Sample.pair : Config SimMemory := held.step (.alloc small)

open Sample in
/-- Each of the two is apart from the other. -/
theorem pair_exclusive : (pair.live.map Block.addr).Nodup ∧ Exclusive pair block ∧
    Exclusive pair ⟨131248, small⟩ := by
  have hlive : pair.live = [⟨131248, small⟩, block] := by decide +kernel
  obtain ⟨hnodup, hall⟩ := reachable_exclusive
    (reachable_step held_reachable (held_allowed small (by decide)).1)
  refine ⟨hnodup, hall block ?_, hall ⟨131248, small⟩ ?_⟩
  · exact hlive ▸ List.mem_cons_of_mem _ List.mem_cons_self
  · exact hlive ▸ List.mem_cons_self

/-! ## Blocks are found again -/

section Recovered
variable [Build] {M : Type} [Memory M] {c : Config M} {g : Ghost} {blk : Block}

/-- The page at `p` is the one the block of bin `b` was popped from, and still serves it. -/
structure ServedBy (c : Config M) (blk : Block) (b p : Nat) : Prop where
  popped : c.heap.history.poppedFrom blk.addr = p
  queued : ∃ q, c.heap.Queued q p
  kind : Page.kind c.heap.bytes p = kindOfBin b
  bin_le : b ≤ c.heap.field p .bin
  block : ∃ i < c.heap.field p .capacity,
    blk.addr = p + c.heap.field p .blockStart + i * c.heap.field p .blockSize
  taken : ∃ fl, Page.FreeList c.heap.bytes p fl ∧ blk.addr ∉ fl
  fits : PowTwo.roundUp blk.layout.size blk.layout.align ≤ c.heap.field p .blockSize

/-- The run claimed at the block's address is the block's own. -/
structure OwnsRun (c : Config M) (blk : Block) : Prop where
  start : sliceSize ∣ blk.addr
  length : c.heap.history.runSlices blk.addr = hugeSlices blk.layout
  slices : ∀ i, InRun (blk.addr / sliceSize) (c.heap.history.runSlices blk.addr) i →
    c.heap.slices.Recorded i ∧ ¬ c.heap.slices.Free i ∧
      ∀ q p, c.heap.Queued q p → ¬ c.heap.OnPage p i

/-- What `dealloc` and `realloc` compute from the Layout is the block's own page or run. -/
def Recovered (c : Config M) (blk : Block) : Prop :=
  match classify blk.layout with
  | .bin b => ServedBy c blk b (Page.headerOf (kindOfBin b) blk.addr)
  | .huge => OwnsRun c blk

theorem Inv.recovered (hi : Inv g c.heap c.live) (hm : blk ∈ c.live) : Recovered c blk := by
  have hok := hi.core.blocks.block blk hm
  unfold Recovered
  cases hclass : classify blk.layout with
  | bin b =>
    obtain ⟨hpage, hkind, hle, hpop⟩ := hok.page b hclass
    obtain ⟨hin, hlive, -⟩ := hok.in_page hi.core.pages hm hclass
    obtain ⟨q, hq⟩ := hi.isPage_iff.mp hpage
    have hbinned := classify_bin hok.size_pos hclass
    have hmem := List.mem_append_right (g.free (Page.headerOf (kindOfBin b) blk.addr)) hlive
    refine { popped := hpop, queued := ⟨q, hq⟩, kind := (kind_eq hin).trans hkind, bin_le := ?_,
             block := ?_, taken := ⟨_, hi.core.freeList hq, fun hfree => ?_⟩, fits := ?_ }
    · exact le_of_le_of_eq hle hin.ok.bin.symm
    · obtain ⟨i, hlt, heq⟩ := hin.ok.mem_block hmem
      exact ⟨i, hlt, heq.symm.trans (hi.core.block_eq hq i)⟩
    · exact (List.nodup_append.mp hin.ok.nodup).2.2 _ hfree _ hlive rfl
    · exact le_trans hbinned.rounded_le
        (le_of_le_of_eq (binSize_le hin.ok.bin_le hle) hin.ok.blockSize.symm)
  | huge =>
    obtain ⟨⟨hdvd, hlen⟩, hrun⟩ := hok.run hclass
    refine { start := hdvd, length := hlen, slices := fun i hin => ?_ }
    rw [hlen] at hin
    have hplace := (hrun i).mpr hin
    refine ⟨(hi.core.slices.recorded i).mpr (by simp [hplace]), ?_, ?_⟩
    · rw [hi.core.slices.free i, hplace]
      simp
    · intro q p hq
      rw [hi.core.onPage_iff hq, hplace]
      simp

variable [Memory.Contract M]

/-- **Blocks are found again**: whatever resizes its Layout went through, the Layout a live
    block carries leads to the page it was popped from, or tells its run exactly. -/
theorem reachable_recovered (hc : Reachable c) : ∀ blk ∈ c.live, Recovered c blk := by
  obtain ⟨g, hi⟩ := reachable_ok hc
  exact fun blk hm => hi.recovered hm

end Recovered

open Sample in
theorem held_recovered : ServedBy held block (bin 100) 131072 :=
  reachable_recovered held_reachable block held_mem

/-! ## Contents are kept -/

section Contents
variable [Build] {M : Type} [Memory M] {c : Config M} {g : Ghost} {blk : Block}

/-- From `c` to `c'` no byte of the block's Layout changes. -/
def KeepsBytes (c c' : Config M) (blk : Block) : Prop :=
  ∀ x, blk.addr ≤ x → x < blk.addr + blk.layout.size → c'.heap.bytes x = c.heap.bytes x

/-- What was in the block is at `q`, up to the smaller of the two sizes. -/
def KeepsContents (c c' : Config M) (blk : Block) (newSize q : Nat) : Prop :=
  ∀ i < min blk.layout.size newSize, c'.heap.bytes (q + i) = c.heap.bytes (blk.addr + i)

theorem Preserves.keepsBytes {c' : Config M} {live : List Block}
    (hp : Preserves live c.heap c'.heap) (hm : blk ∈ live) : KeepsBytes c c' blk :=
  fun x hlo hhi => hp.untouched x ⟨blk, hm, hlo, hhi⟩

variable [Memory.Contract M]

theorem Inv.keepsContents (hi : Inv g c.heap c.live) (hm : blk ∈ c.live) {newSize q : Nat}
    (hs : 1 ≤ newSize) (fits : newSize + blk.layout.align ≤ usizeSize / 2)
    (hq : (c.heap.realloc blk.addr blk.layout newSize fits).1 = some q) :
    KeepsContents c (c.step (.realloc blk newSize fits)) blk newSize q := by
  have hres : Resized (c.live.erase blk) g c.heap blk (blk.layout.withSize newSize fits)
      (c.heap.realloc blk.addr blk.layout newSize fits) :=
    realloc_resized (hi.perm (List.perm_cons_erase hm)) hs fits
  have hstep : c.step (.realloc blk newSize fits) = c.answer (blk.layout.withSize newSize fits)
      (c.live.erase blk) (c.heap.realloc blk.addr blk.layout newSize fits) := rfl
  intro i hlt
  rcases hres with ⟨q', h', g', hr, hres⟩ | ⟨h', g', hr, -⟩
  · rw [hr] at hq hstep
    obtain rfl := Option.some.inj hq
    rw [hstep]
    exact hres.contents i (by omega) (by show i < newSize; omega)
  · rw [hr] at hq
    cases hq

/-- **Contents are kept**: unless the program itself writes, no event changes a byte of a
    live block it is not about, and a resize that succeeds keeps what was in the block. -/
theorem contents_kept {e : Event M} (hc : Reachable c) (ha : c.Allowed e)
    (he : ∀ bytes, e ≠ .write bytes) :
    (∀ blk ∈ c.others e, blk ∈ (c.step e).live ∧ KeepsBytes c (c.step e) blk) ∧
    ∀ blk newSize fits q, e = .realloc blk newSize fits →
      (c.heap.realloc blk.addr blk.layout newSize fits).1 = some q →
      KeepsContents c (c.step e) blk newSize q := by
  obtain ⟨g, hi⟩ := reachable_ok hc
  obtain ⟨-, hlive, -, hp⟩ := step_ok hi ha
  refine ⟨fun blk hm => ⟨hlive blk hm, (hp he).keepsBytes hm⟩, ?_⟩
  rintro blk newSize fits q rfl hq
  exact hi.keepsContents ha.1 ha.2 fits hq

end Contents

open Sample in
/-- A small block moves to a run. -/
theorem held_kept :
    KeepsContents held (held.step (.realloc block 70000 (by decide))) block 70000 196608 :=
  (contents_kept (e := .realloc block 70000 (by decide)) held_reachable ⟨held_mem, by decide⟩
    (fun _ he => by cases he)).2 block 70000 (by decide) 196608 rfl (by decide +kernel)

/-! ## Zeroed blocks -/

section Zeroed
variable [Build] {M : Type} [Memory M] {c : Config M} {g : Ghost}

def IsZero (b : Bytes) (a n : Nat) : Prop := ∀ x, a ≤ x → x < a + n → b x = 0

/-- The two caches of zero memory: the zero bits of slices, and `free_is_zero` of a page. -/
structure ZeroCaches (h : Heap M) : Prop where
  slice : ∀ i, h.slices.Zero i → h.slices.Free i ∧ IsZero h.bytes (i * sliceSize) sliceSize
  free : ∀ q p, h.Queued q p → h.field p .freeIsZero ≠ 0 → ∃ fl, Page.FreeList h.bytes p fl ∧
    ∀ a ∈ fl, IsZero h.bytes (a + usizeBytes) (h.field p .blockSize - usizeBytes)
  fresh : ∀ q p, h.Queued q p → h.field p .freeIsZero ≠ 0 →
    ∀ i, h.field p .capacity ≤ i → i < h.field p .reserved →
      IsZero h.bytes (p + h.field p .blockStart + i * h.field p .blockSize) (h.field p .blockSize)

theorem Core.zeroCaches {h : Heap M} {live : List Block} (hc : Core g h live) : ZeroCaches h := by
  refine { slice := ?_, free := ?_, fresh := ?_ }
  · intro i hz
    refine ⟨hz.free hc.slices.inv, fun x hlo hhi => hc.slices.zero x ?_⟩
    have hx : x / sliceSize = i :=
      Nat.div_eq_of_lt_le hlo (by rw [Nat.add_mul, Nat.one_mul]; exact hhi)
    rwa [hx]
  · intro q p hq hz
    have hok := (hc.queued hq).ok
    refine ⟨_, hc.freeList hq, fun a ha x hlo hhi => ?_⟩
    have hword := hok.word_le_size
    rw [Heap.field, hok.blockSize] at hhi
    exact hok.zero_free hz a ha x hlo (by omega)
  · intro q p hq hz i hlo hhi x hx hx'
    have hok := (hc.queued hq).ok
    rw [← hc.block_eq hq i] at hx hx'
    rw [Heap.field, hok.blockSize] at hx'
    rw [Heap.field, hok.reserved] at hhi
    exact hok.zero_fresh hz i hlo hhi x hx hx'

variable [Memory.Contract M]

/-- **`allocZeroed` returns zeros**, and the caches that let it skip the clearing are right. -/
theorem zeroed_right (hc : Reachable c) :
    ZeroCaches c.heap ∧ ∀ layout a, c.Allowed (.allocZeroed layout) →
      (c.heap.allocZeroed layout).1 = some a →
      IsZero (c.step (.allocZeroed layout)).heap.bytes a layout.size := by
  obtain ⟨g, hi⟩ := reachable_ok hc
  refine ⟨hi.core.zeroCaches, fun layout a ha hsome => ?_⟩
  have hstep : c.step (.allocZeroed layout) =
      c.answer layout c.live (c.heap.allocZeroed layout) := rfl
  rcases allocZeroed_answered hi ha.2 ha.1 with ⟨a', h', g', hr, hh⟩ | ⟨h', g', hr, -⟩
  · rw [hr] at hsome hstep
    obtain rfl := Option.some.inj hsome
    rw [hstep]
    exact hh.zeroed rfl
  · rw [hr] at hsome
    cases hsome

end Zeroed

open Sample in
/-- The second small block comes from a page whose memory was not clear. -/
theorem held_zeroed : ZeroCaches held.heap ∧
    IsZero (held.step (.allocZeroed small)).heap.bytes 131248 100 := by
  obtain ⟨hcaches, hzero⟩ := zeroed_right held_reachable
  exact ⟨hcaches, hzero small 131248 (held_allowed small (by decide)).2 (by decide +kernel)⟩

end Wasmalloc
