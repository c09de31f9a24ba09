import Wasmalloc.PageSupply

/- What lies in a live block.

   The memory a block of the program occupies is its span: its whole block of a page, or
   its whole run. Spans are disjoint from each other (`spans_apart`), from page headers,
   from the blocks on free lists and from free slices, so a store inside a span keeps
   the invariant (`Inv.write`). This is what lets the program write its blocks, and the
   heap clear and copy them. -/
namespace Wasmalloc
open ByteMem

variable [Build] {M : Type} {live : List Block} {g : Ghost} {b c : Bytes} {hist : History}
  {blk blk' : Block}

/-- The length of the memory a block occupies. -/
def span (g : Ghost) (blk : Block) : Nat :=
  match classify blk.layout with
  | .bin n => binSize (g.bin (Page.headerOf (kindOfBin n) blk.addr))
  | .huge => hugeSlices blk.layout * sliceSize

theorem span_bin {n : Nat} (hn : classify blk.layout = .bin n) :
    span g blk = binSize (g.bin (Page.headerOf (kindOfBin n) blk.addr)) := by
  unfold span
  rw [hn]

theorem span_huge (hn : classify blk.layout = .huge) :
    span g blk = hugeSlices blk.layout * sliceSize := by
  unfold span
  rw [hn]

/-- Byte `x` lies in the span of the block. -/
def InSpan (g : Ghost) (blk : Block) (x : Nat) : Prop := blk.addr ≤ x ∧ x < blk.addr + span g blk

theorem size_le_span (hp : PagesOk g b live) (hb : BlocksOk g hist live) (hm : blk ∈ live) :
    blk.layout.size ≤ span g blk := by
  cases hclass : classify blk.layout with
  | bin n =>
    rw [span_bin hclass]
    exact ((hb.block blk hm).in_page hp hm hclass).2.2.1
  | huge =>
    rw [span_huge hclass]
    exact huge_covers blk.layout

/-- **Where a span lies**: in a live block of a page, or in a run. -/
theorem span_place (hp : PagesOk g b live) (hb : BlocksOk g hist live) (hm : blk ∈ live) {x : Nat}
    (hx : InSpan g blk x) :
    (∃ p, g.place (x / sliceSize) = .page p ∧ PageIn g b live p ∧ blk.addr ∈ liveIn live p ∧
      span g blk = binSize (g.bin p)) ∨
    g.place (x / sliceSize) = .run blk.addr := by
  obtain ⟨hlo, hhi⟩ := hx
  have hok := hb.block blk hm
  cases hclass : classify blk.layout with
  | bin n =>
    obtain ⟨hin, hlive, -, hblo, hbhi⟩ := hok.in_page hp hm hclass
    rw [span_bin hclass] at hhi
    exact Or.inl ⟨_, hin.mem.mpr ⟨by omega, by omega⟩, hin, hlive, span_bin hclass⟩
  | huge =>
    obtain ⟨⟨hdvd, -⟩, hrun⟩ := hok.run hclass
    rw [span_huge hclass] at hhi
    refine Or.inr ((hrun _).mpr ?_)
    rw [inRun_div, Nat.div_mul_cancel hdvd]
    exact ⟨hlo, hhi⟩

theorem LiveByte.inSpan (hp : PagesOk g b live) (hb : BlocksOk g hist live) {x : Nat}
    (hx : LiveByte live x) : ∃ blk ∈ live, InSpan g blk x := by
  obtain ⟨blk, hm, hlo, hhi⟩ := hx
  have hsize := size_le_span hp hb hm
  exact ⟨blk, hm, hlo, by omega⟩

/-- **Two live blocks share no byte**, their spans included. -/
theorem spans_apart (hp : PagesOk g b live) (hb : BlocksOk g hist live) (hm : blk ∈ live)
    (hm' : blk' ∈ live) (hne : blk.addr ≠ blk'.addr) {x : Nat} (hx : InSpan g blk x)
    (hx' : InSpan g blk' x) : False := by
  rcases span_place hp hb hm hx with ⟨p, hpage, hin, ha, hspan⟩ | hrun
  · rcases span_place hp hb hm' hx' with ⟨p', hpage', -, ha', hspan'⟩ | hrun'
    · rw [hpage] at hpage'
      obtain rfl := Place.page.inj hpage'
      have hap := hin.ok.apart (List.mem_append_right _ ha) (List.mem_append_right _ ha') hne
      rw [← hspan] at hap
      obtain ⟨h1, h2⟩ := hx
      obtain ⟨h3, h4⟩ := hx'
      rw [hspan'] at h4
      unfold Apart at hap
      omega
    · rw [hpage] at hrun'
      cases hrun'
  · rcases span_place hp hb hm' hx' with ⟨p', hpage', -⟩ | hrun'
    · rw [hrun] at hpage'
      cases hpage'
    · rw [hrun] at hrun'
      exact hne (Place.run.inj hrun')

/-- No span reaches into a page header. -/
theorem span_header (hp : PagesOk g b live) (hb : BlocksOk g hist live) (hm : blk ∈ live)
    {x p : Nat} (hx : InSpan g blk x) (hpage : IsPage g p) (hlo : p ≤ x) : p + Page.size ≤ x := by
  by_contra hcon
  have hplace := (hp _ _ hpage).header hlo (by omega)
  rcases span_place hp hb hm hx with ⟨q, hq, hin, ha, -⟩ | hrun
  · rw [hplace] at hq
    obtain rfl := Place.page.inj hq
    have hins := (hin.ok.inside (List.mem_append_right _ ha)).1
    have hsize := Page.size_le
    have := hx.1
    omega
  · rw [hplace] at hrun
    cases hrun

theorem span_freeBlock (hp : PagesOk g b live) (hb : BlocksOk g hist live) (hm : blk ∈ live)
    {x p a : Nat} (hx : InSpan g blk x) (hpage : IsPage g p) (ha : a ∈ g.free p) (hlo : a ≤ x) :
    a + binSize (g.bin p) ≤ x := by
  by_contra hcon
  have hin := hp _ _ hpage
  have hins := hin.ok.inside (List.mem_append_left _ ha)
  have hplace := hin.mem.mpr (⟨by omega, by omega⟩ : p ≤ x ∧ x < p + (kindOfBin (g.bin p)).pageSize)
  rcases span_place hp hb hm hx with ⟨q, hq, -, hlive, hspan⟩ | hrun
  · rw [hplace] at hq
    obtain rfl := Place.page.inj hq
    have hne : a ≠ blk.addr := fun e =>
      (List.nodup_append.mp hin.ok.nodup).2.2 a ha blk.addr hlive e
    have hap := hin.ok.apart (List.mem_append_left _ ha) (List.mem_append_right _ hlive) hne
    obtain ⟨h1, h2⟩ := hx
    rw [hspan] at h2
    unfold Apart at hap
    omega
  · rw [hplace] at hrun
    cases hrun

theorem span_slice (hp : PagesOk g b live) (hb : BlocksOk g hist live) (hm : blk ∈ live) {x : Nat}
    (hx : InSpan g blk x) : g.place (x / sliceSize) ≠ .free ∧ g.place (x / sliceSize) ≠ .foreign := by
  rcases span_place hp hb hm hx with ⟨p, hp, -⟩ | hrun
  · rw [hp]
    simp
  · rw [hrun]
    simp

/-! ## Stores into live blocks -/

section Write
variable [Memory M] {h : Heap M}

/-- Every byte that differs lies in the span of a live block. -/
def WritesSpans (g : Ghost) (live : List Block) (b c : Bytes) : Prop :=
  ∀ x, c x = b x ∨ ∃ blk ∈ live, InSpan g blk x

theorem WritesSpans.header (hw : WritesSpans g live b c) (hp : PagesOk g b live)
    (hb : BlocksOk g hist live) {p : Nat} (hpage : IsPage g p) (f : Page.Field) :
    Page.get c p f = Page.get b p f := by
  refine Page.get_congr fun x hlo hhi => (hw x).resolve_right ?_
  intro ⟨blk, hm, hx⟩
  have := span_header hp hb hm hx hpage hlo
  omega

/-- **A store inside live blocks** keeps the invariant. -/
theorem Core.write (hc : Core g h live) (hw : WritesSpans g live h.bytes c) :
    Core g { h with bytes := c } live := by
  have hp := hc.pages
  have hb := hc.blocks
  refine { slices := ?_, pages := ?_, blocks := hc.blocks, queues := ?_, sentinel := ?_,
           uninit := hc.uninit, log := hc.log }
  · refine hc.slices.congr fun x hx => (hw x).resolve_right ?_
    intro ⟨blk, hm, hin⟩
    exact (span_slice hp hb hm hin).1 hx
  · intro i p hi
    have hin := hp i p hi
    refine { ok := hin.ok.congr (fun f _ => hw.header hp hb hin.isPage f) ?_, slices := hin.slices }
    intro x hlo hhi hout
    refine (hw x).resolve_right ?_
    intro ⟨blk, hm, hx⟩
    have hplace := hin.mem.mpr ⟨by omega, hhi⟩
    rcases span_place hp hb hm hx with ⟨q, hq, -, hlive, hspan⟩ | hrun
    · rw [hplace] at hq
      obtain rfl := Place.page.inj hq
      exact hout ⟨blk.addr, hlive, hx.1, hspan ▸ hx.2⟩
    · rw [hplace] at hrun
      cases hrun
  · exact hc.queues.congr fun q p hmem f _ _ => hw.header hp hb (hc.queues.member q p hmem).page f
  · intro x hlo hhi
    refine ((hw x).resolve_right ?_).trans (hc.sentinel x hlo hhi)
    intro ⟨blk, hm, hin⟩
    exact (span_slice hp hb hm hin).2 (hc.slices.sentinel hlo hhi)

theorem Inv.write (hi : Inv g h live) (hw : WritesSpans g live h.bytes c) :
    Inv g { h with bytes := c } live := by
  have hget := fun p hp => hw.header hi.core.pages hi.core.blocks
    (hi.core.queues.member fullQueue p hp).page
  refine { core := hi.core.write hw, unclaimed := hi.unclaimed,
           settled := { queued := hi.settled.queued, parked := ?_ } }
  intro p hp hb
  have hpk := hi.settled.parked p hp hb
  exact { free := hpk.free, capacity := (hget p hp _).trans hpk.capacity,
          retire := (hget p hp _).trans hpk.retire }

end Write

end Wasmalloc
