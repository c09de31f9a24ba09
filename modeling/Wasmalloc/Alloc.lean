import Wasmalloc.Blocks
import Wasmalloc.PageSearch

/- Allocation.

   Each road of `alloc` and `allocZeroed` ends in one of two ways. Either it hands out
   a block (`Handed`): the invariant holds with the block among the live ones, no live
   byte and no owned slice is lost, and the block is zero if it had to be. Or it refuses
   (`Refusal`): the invariant holds for the blocks there were, and a page request is
   refused only with the supply exhausted and no page of its bin in its queue. -/
namespace Wasmalloc
open ByteMem

variable [Build] {M : Type} [Memory M] {live : List Block} {g g' : Ghost} {h h' : Heap M}
  {b c : Bytes} {p n : Nat} {layout : Layout}

/-- A block for `layout` was handed out at `a`. -/
structure Handed (live : List Block) (g' : Ghost) (h h' : Heap M) (layout : Layout) (zero : Bool)
    (a : Nat) : Prop where
  inv : Inv g' h' (⟨a, layout⟩ :: live)
  preserves : Preserves live h h'
  zeroed : zero = true → ∀ x, a ≤ x → x < a + layout.size → h'.bytes x = 0

/-- The request for `layout` was refused. -/
structure Refusal (live : List Block) (g g' : Ghost) (h h' : Heap M) (layout : Layout) : Prop where
  inv : Inv g' h' live
  evolves : Evolves live g g' h h'
  page : ∀ n, classify layout = .bin n → NoPage live g g' h h' n

/-- The two outcomes of a request, as the result `r` of the operation. -/
def Answered (live : List Block) (g : Ghost) (h : Heap M) (layout : Layout) (zero : Bool)
    (r : Option Nat × Heap M) : Prop :=
  (∃ a h' g', r = (some a, h') ∧ Handed live g' h h' layout zero a) ∨
  (∃ h' g', r = (none, h') ∧ Refusal live g g' h h' layout)

theorem Handed.after {h1 : Heap M} {zero : Bool} {a : Nat} (hp : Preserves live h h1)
    (hh : Handed live g' h1 h' layout zero a) : Handed live g' h h' layout zero a :=
  { hh with preserves := hp.trans hh.preserves }

theorem NoPage.after {h1 : Heap M} {g1 : Ghost} (he : Evolves live g g1 h h1)
    (hn : NoPage live g1 g' h1 h' n) : NoPage live g g' h h' n :=
  { exhausted := hn.exhausted.after he, empty := hn.empty }

/-! ## Storing into the block handed out -/

omit [Memory M] in
theorem newest_apart {blk : Block} {hist : History} (hp : PagesOk g b (blk :: live))
    (hb : BlocksOk g hist (blk :: live)) {x : Nat} (hx : LiveByte live x) : ¬ InSpan g blk x := by
  intro hin
  obtain ⟨blk', hm', hlo, hhi⟩ := hx
  have hnodup := hb.nodup
  rw [List.map_cons, List.nodup_cons] at hnodup
  have hm : blk ∈ blk :: live := List.mem_cons_self
  have hm'' : blk' ∈ blk :: live := List.mem_cons_of_mem blk hm'
  have hne : blk.addr ≠ blk'.addr := fun e =>
    hnodup.1 (e ▸ List.mem_map_of_mem hm')
  have hsize := size_le_span hp hb hm''
  exact spans_apart hp hb hm hm'' hne hin ⟨hlo, by omega⟩

/-- **A store inside the block handed out** changes no other live block. -/
theorem Handed.write {zero zero' : Bool} {a : Nat} (hh : Handed live g' h h' layout zero a)
    (hw : ∀ x, c x = h'.bytes x ∨ InSpan g' ⟨a, layout⟩ x)
    (hz : zero' = true → ∀ x, a ≤ x → x < a + layout.size → c x = 0) :
    Handed live g' h { h' with bytes := c } layout zero' a := by
  refine { inv := hh.inv.write fun x => (hw x).imp_right fun hx => ⟨_, List.mem_cons_self, hx⟩,
           preserves := { hh.preserves with untouched := ?_ }, zeroed := hz }
  intro x hx
  have hsame := (hw x).resolve_right (newest_apart hh.inv.core.pages hh.inv.core.blocks hx)
  exact hsame.trans (hh.preserves.untouched x hx)

/-! ## Taking a block of a page -/

omit [Memory M] in
theorem popBlock_none (hpop : Page.pop h.bytes p = (none, h.bytes)) : h.popBlock p = (none, h) := by
  unfold Heap.popBlock
  rw [hpop]

theorem Core.sentinel_get (hc : Core g h live) (f : Page.Field) : Page.get h.bytes emptyPage f = 0 := by
  have hf := f.inside
  exact readLE_zero fun x hlo hhi => hc.sentinel x (by omega) (by omega)

theorem popBlock_sentinel (hc : Core g h live) : h.popBlock emptyPage = (none, h) := by
  refine popBlock_none ?_
  unfold Page.pop
  simp only [hc.sentinel_get .free, if_true]

theorem popBlock_empty (hc : Core g h live) (hp : IsPage g p) (hfree : g.free p = []) :
    h.popBlock p = (none, h) := by
  have hok := (hc.pages _ _ hp).ok
  rw [hfree] at hok
  exact popBlock_none (Page.pop_none hok.toPageShape)

/-- **Popping a block** makes it a live block of the program. -/
theorem popBlock_spec (hi : Inv g h live) (hn : n ≤ maxBin) (hp : p ∈ g.queue n)
    (hfree : g.free p ≠ []) (hs : 1 ≤ layout.size) (hclass : classify layout = .bin n) :
    ∃ a g' h', h.popBlock p = (some a, h') ∧ Handed live g' h h' layout false a ∧
      span g' ⟨a, layout⟩ = binSize n ∧
      (h'.field p .freeIsZero ≠ 0 → ∀ x, a + usizeBytes ≤ x → x < a + binSize n →
        h'.bytes x = 0) ∧
      ∃ fl, g.free p = a :: fl ∧ g' = g.withFree p fl := by
  obtain ⟨hin, -⟩ := hi.core.member hp
  obtain ⟨hbin, -⟩ := hi.core.not_full hp hn
  have hpages := hi.core.pages
  have hblocks := hi.core.blocks
  have hok := hin.ok
  obtain ⟨a, fl, hfl⟩ := List.exists_cons_of_ne_nil hfree
  have hafree : a ∈ g.free p := by
    rw [hfl]
    exact List.mem_cons_self
  rw [hfl] at hok
  obtain ⟨hpop, hok'⟩ := Page.pop_spec hok
  have hins := hok.inside (a := a) (by simp)
  have hsize := Page.size_le
  have hge := (binGeometry hok.bin_pos hok.bin_le).size_ge
  have hheader : Page.headerOf (kindOfBin n) a = p := by
    have := hin.headerOf (a := a) (by omega) (by omega)
    rwa [← hbin] at this
  have hhome : home ⟨a, layout⟩ = some p := by
    rw [home_bin hclass, hheader]
  -- The block is none of those in use.
  have hnew : a ∉ live.map Block.addr := by
    intro hmem
    obtain ⟨blk, hm, haddr⟩ := List.mem_map.mp hmem
    have hle := size_le_span hpages hblocks hm
    have hpos := (hblocks.block blk hm).size_pos
    have := span_freeBlock hpages hblocks hm (x := a) ⟨by omega, by omega⟩ hin.isPage hafree
      (Nat.le_refl a)
    omega
  have hbinned := classify_bin hs hclass
  have hblocks' : BlocksOk g (h.history.popped a p) (⟨a, layout⟩ :: live) := by
    refine { nodup := List.nodup_cons.mpr ⟨hnew, hblocks.nodup⟩, block := ?_, runs := ?_ }
    · intro blk hmem
      rcases List.mem_cons.mp hmem with rfl | hmem
      · refine { size_pos := hs, aligned := ?_, page := ?_, run := ?_ }
        · obtain ⟨i, -, hblock⟩ := hok.mem_block (a := a) (by simp)
          obtain ⟨k, hk, hk'⟩ := layout.align_exp hbinned.align_le
          show layout.align ∣ a
          rw [← hblock, hk']
          refine Page.dvd_block hok.bin_pos hok.bin_le hk hok.aligned ?_
          rw [← hk', ← hbin]
          exact hbinned.align_dvd
        · intro m hm
          obtain rfl : n = m := Class.bin.inj (hclass.symm.trans hm)
          simp only [hheader]
          exact ⟨hin.isPage, by rw [← hbin], by rw [← hbin], Function.update_self _ _ _⟩
        · intro hh
          exact absurd (hclass.symm.trans hh) (by simp)
      · have hok := hblocks.block blk hmem
        have hne : blk.addr ≠ a := fun e => hnew (e ▸ List.mem_map_of_mem hmem)
        refine { size_pos := hok.size_pos, aligned := hok.aligned, page := ?_, run := hok.run }
        intro m hm
        obtain ⟨h1, h2, h3, h4⟩ := hok.page m hm
        exact ⟨h1, h2, h3, (Function.update_of_ne hne _ _).trans h4⟩
    · intro i a' hi
      obtain ⟨blk, hmem, hrest⟩ := hblocks.runs i a' hi
      exact ⟨blk, List.mem_cons_of_mem _ hmem, hrest⟩
  have hstep : PageStep g h.bytes (Page.popped h.bytes p (fl.headD 0)) (⟨a, layout⟩ :: live) p fl := by
    refine { ok := ?_, owned := fun f hf => ?_, outside := fun x hx => ?_ }
    · rw [liveIn_cons, if_pos hhome]
      exact hok'
    · exact Page.get_popped (Page.Field.heapOwned_ne hf rfl) (Page.Field.heapOwned_ne hf rfl)
    · refine Page.popped_out ?_
      by_contra hcon
      exact hx (hin.header (by omega) (by omega))
  have hother : ∀ q, q ≠ p → liveIn (⟨a, layout⟩ :: live) q = liveIn live q := by
    intro q hq
    rw [liveIn_cons, if_neg]
    rw [hhome]
    exact fun e => hq (Option.some.inj e).symm
  have hinv := hstep.inv hi hp hn hother hblocks'
  have huntouched := hstep.untouched hi.core fun x ⟨d, hd, hlo, hhi⟩ => by
    have hd' := (hok.inside (List.mem_append_right _ hd)).1
    exact Page.popped_out (by omega)
  refine ⟨a, g.withFree p fl, _, ?_, { inv := hinv, preserves := ?_, zeroed := fun e => by cases e },
    ?_, ?_, fl, hfl, rfl⟩
  · unfold Heap.popBlock
    rw [hpop]
  · exact { untouched := huntouched, recorded := fun _ hi => hi, size_le := Nat.le_refl _,
            policy := rfl, init := id }
  · rw [span_bin hclass]
    show binSize (g.bin (Page.headerOf (kindOfBin n) a)) = _
    rw [hheader, ← hbin]
  · intro hz x hlo hhi
    have hz' : Page.get h.bytes p .freeIsZero ≠ 0 := by
      unfold Heap.field at hz
      rwa [Page.get_popped (by decide) (by decide)] at hz
    show Page.popped h.bytes p (fl.headD 0) x = 0
    rw [Page.popped_out (by omega)]
    rw [hbin] at hhi
    exact hok.zero_free hz' a List.mem_cons_self x hlo hhi

omit [Memory M] in
theorem clearBlock_bytes (h : Heap M) (p a size : Nat) : ∃ c, h.clearBlock p a size = { h with bytes := c } ∧
    (∀ x, c x = h.bytes x ∨ (a ≤ x ∧ x < a + max size usizeBytes)) ∧
    (h.field p .freeIsZero = 0 → ∀ x, a ≤ x → x < a + size → c x = 0) ∧
    (h.field p .freeIsZero ≠ 0 → ∀ x, (a ≤ x ∧ x < a + usizeBytes → c x = 0) ∧
      (a + usizeBytes ≤ x → c x = h.bytes x)) := by
  unfold Heap.clearBlock
  by_cases hz : h.field p .freeIsZero = 0
  · rw [if_neg (not_not.mpr hz)]
    refine ⟨_, rfl, ?_, fun _ x hlo hhi => fill_in hlo hhi, fun hne => absurd hz hne⟩
    intro x
    by_cases hx : a ≤ x ∧ x < a + size
    · exact Or.inr (by omega)
    · exact Or.inl (fill_out (by omega))
  · rw [if_pos hz]
    refine ⟨_, rfl, ?_, fun h0 => absurd h0 hz, fun _ x => ⟨?_, ?_⟩⟩
    · intro x
      by_cases hx : a ≤ x ∧ x < a + usizeBytes
      · exact Or.inr (by omega)
      · exact Or.inl (Page.storeWord_out (by omega))
    · exact fun ⟨hlo, hhi⟩ => writeLE_zero_in hlo hhi
    · exact fun hlo => Page.storeWord_out (Or.inr hlo)

/-- **Taking a block** of a page that has a free one, cleared on request. -/
theorem takeBlock_spec (hi : Inv g h live) (hn : n ≤ maxBin) (hp : p ∈ g.queue n)
    (hfree : g.free p ≠ []) (hs : 1 ≤ layout.size) (hclass : classify layout = .bin n) (zero : Bool) :
    ∃ a g' h1 h', h.popBlock p = (some a, h1) ∧
      h' = (if zero then h1.clearBlock p a layout.size else h1) ∧
      Handed live g' h h' layout zero a ∧ ∃ fl, g.free p = a :: fl ∧ g' = g.withFree p fl := by
  obtain ⟨a, g', h1, hpop, hh, hspan, hzero, hlist⟩ := popBlock_spec hi hn hp hfree hs hclass
  refine ⟨a, g', h1, _, hpop, rfl, ?_, hlist⟩
  cases zero with
  | false => exact hh
  | true =>
    obtain ⟨c, hc, hout, hfill, hword⟩ := clearBlock_bytes h1 p a layout.size
    have hsize := (classify_bin hs hclass).size_le
    have hge := usizeBytes_le
    have hge' := (binGeometry (classify_bin hs hclass).bin_pos hn).size_ge
    rw [if_pos rfl, hc]
    refine hh.write (fun x => (hout x).imp_right fun hx => ?_) fun _ x hlo hhi => ?_
    · unfold InSpan
      rw [hspan]
      show a ≤ x ∧ x < a + binSize n
      omega
    · by_cases hz : h1.field p .freeIsZero = 0
      · exact hfill hz x hlo hhi
      · by_cases hx : x < a + usizeBytes
        · exact (hword hz x).1 ⟨hlo, hx⟩
        · rw [(hword hz x).2 (by omega)]
          exact hzero hz x (by omega) (by omega)

theorem takeBlock_answered (hi : Inv g h live) (hn : n ≤ maxBin) (hp : p ∈ g.queue n)
    (hfree : g.free p ≠ []) (hs : 1 ≤ layout.size) (hclass : classify layout = .bin n) (zero : Bool) :
    Answered live g h layout zero (h.takeBlock p layout zero) := by
  obtain ⟨a, g', h1, h', hpop, hh', hh, -⟩ := takeBlock_spec hi hn hp hfree hs hclass zero
  refine Or.inl ⟨a, h', g', ?_, hh⟩
  unfold Heap.takeBlock
  rw [hpop, hh']

/-! ## Runs -/

theorem hugeAlign (layout : Layout) : ∃ k ≤ usizeBits,
    max (divCeil layout.align sliceSize) 1 = 2 ^ k ∧
      ∀ start, 2 ^ k ∣ start → layout.align ∣ start * sliceSize := by
  obtain ⟨e, he⟩ := layout.align_pow2
  have hslice : sliceSize = 2 ^ 16 := by decide
  by_cases h16 : e ≤ 16
  · refine ⟨0, Nat.zero_le _, ?_, ?_⟩
    · have hle : 2 ^ e ≤ 2 ^ 16 := Nat.pow_le_pow_right (by decide) h16
      rw [he]
      unfold divCeil
      rw [hslice]
      omega
    · intro start _
      rw [he, hslice]
      exact Dvd.dvd.mul_left (Nat.pow_dvd_pow 2 h16) start
  · obtain ⟨k, rfl⟩ : ∃ k, e = k + 16 := ⟨e - 16, by omega⟩
    have hlt : 2 ^ (k + 16) < 2 ^ usizeBits := by
      have hle := layout.size_le
      rw [he] at hle
      have hpos : 0 < usizeSize := Nat.two_pow_pos _
      unfold usizeSize at *
      omega
    have hk : k + 16 < usizeBits := (Nat.pow_lt_pow_iff_right (by decide)).mp hlt
    refine ⟨k, by omega, ?_, ?_⟩
    · have hpos := Nat.two_pow_pos k
      rw [he, hslice, Nat.pow_add]
      unfold divCeil
      omega
    · intro start hdvd
      rw [he, hslice, Nat.pow_add]
      exact Nat.mul_dvd_mul_right hdvd _

/-- **Claimed slices become a run**, whose block is live. -/
theorem Claims.run {g1 : Ghost} {run : Run} {align : Nat}
    (hcl : Claims live g g1 h h' (hugeSlices layout) align run) (hs : 1 ≤ layout.size)
    (hclass : classify layout = .huge) (halign : layout.align ∣ run.start * sliceSize) :
    Inv (g1.paint (InRun run.start (hugeSlices layout)) (.run (run.start * sliceSize)))
      { h' with history := h'.history.claimed (run.start * sliceSize) (hugeSlices layout) }
      (⟨run.start * sliceSize, layout⟩ :: live) := by
  have hback : run.start * sliceSize / sliceSize = run.start := Nat.mul_div_cancel _ (by decide)
  have hcount := hugeSlices_pos layout
  generalize ha : run.start * sliceSize = a at *
  have hfirst : InRun run.start (hugeSlices layout) (a / sliceSize) := by
    rw [hback]
    exact ⟨Nat.le_refl _, by omega⟩
  have hc := hcl.core
  have hrunNew : ∀ i, g1.place i ≠ .run a := by
    intro i hi
    have hi' : (g1.paint (InRun run.start (hugeSlices layout)) .claimed).place i = .run a :=
      (paint_keeps hcl.free (by simp) (by simp)).mpr hi
    obtain ⟨blk, hm, hhuge, rfl⟩ := hc.blocks.runs i a hi'
    have hown := (((hc.blocks.block blk hm).run hhuge).2 (blk.addr / sliceSize)).mpr
      ⟨Nat.le_refl _, by have := hugeSlices_pos blk.layout; omega⟩
    rw [paint_in hfirst] at hown
    cases hown
  -- Both ways of painting the run leave pages and other runs alone.
  have hplace : ∀ {i : Nat} {pl : Place}, pl ≠ .free → pl ≠ .claimed → pl ≠ .run a →
      ((g1.paint (InRun run.start (hugeSlices layout)) (.run a)).place i = pl ↔
        (g1.paint (InRun run.start (hugeSlices layout)) .claimed).place i = pl) := by
    intro i pl h1 h2 h3
    rw [paint_keeps hcl.free h1.symm h3.symm, paint_keeps hcl.free h1.symm h2.symm]
  have hsame : SamePages (g1.paint (InRun run.start (hugeSlices layout)) .claimed)
      (g1.paint (InRun run.start (hugeSlices layout)) (.run a)) :=
    { page := fun _ _ => hplace (by simp) (by simp) (by simp), bin := rfl, free := rfl, queue := rfl }
  have hhome : home ⟨a, layout⟩ = none := home_huge hclass
  have hnew : a ∉ live.map Block.addr := by
    intro hmem
    obtain ⟨blk, hm, haddr⟩ := List.mem_map.mp hmem
    have hle := size_le_span hc.pages hc.blocks hm
    have hpos := (hc.blocks.block blk hm).size_pos
    rcases span_place hc.pages hc.blocks hm (x := a) ⟨by omega, by omega⟩ with ⟨q, hq, -⟩ | hq
    · rw [paint_in hfirst] at hq
      cases hq
    · rw [paint_in hfirst] at hq
      cases hq
  have hliveIn : ∀ q, liveIn (⟨a, layout⟩ :: live) q = liveIn live q := by
    intro q
    rw [liveIn_cons, hhome, if_neg (by simp)]
  have hruns : ∀ i, (g1.paint (InRun run.start (hugeSlices layout)) (.run a)).place i = .run a ↔
      InRun run.start (hugeSlices layout) i := by
    intro i
    rw [paint_self]
    exact or_iff_left (hrunNew i)
  refine { core := ?_, settled := hcl.settled.repaint ?_, unclaimed := ?_ }
  · refine { slices := ?_, pages := ?_, blocks := ?_, queues := ?_, sentinel := hc.sentinel,
             uninit := hc.uninit, log := hc.log }
    · refine hc.slices.repaint (fun i => hplace (by simp) (by simp) (by simp)) ?_
      exact fun i => by rw [paint_other (by simp), paint_other (by simp)]
    · intro i q hq
      have hin := hsame.pages hc.pages (fun _ _ _ => rfl) i q hq
      exact { ok := by rw [hliveIn]; exact hin.ok, slices := hin.slices }
    · refine { nodup := List.nodup_cons.mpr ⟨hnew, hc.blocks.nodup⟩, block := ?_, runs := ?_ }
      · intro blk hmem
        rcases List.mem_cons.mp hmem with rfl | hmem
        · refine { size_pos := hs, aligned := halign, page := ?_, run := ?_ }
          · exact fun n hn => absurd (hclass.symm.trans hn) (by simp)
          · intro _
            refine ⟨⟨⟨run.start, by rw [Nat.mul_comm, ← ha]⟩, Function.update_self _ _ _⟩, fun i => ?_⟩
            show _ ↔ InRun (a / sliceSize) _ i
            rw [hback]
            exact hruns i
        · have hok := hc.blocks.block blk hmem
          have hne : blk.addr ≠ a := fun e => hnew (e ▸ List.mem_map_of_mem hmem)
          refine { size_pos := hok.size_pos, aligned := hok.aligned, page := ?_, run := ?_ }
          · intro n hn
            obtain ⟨h1, h2⟩ := hok.page n hn
            exact ⟨(hsame.page _ _).mpr h1, h2⟩
          · intro hh
            obtain ⟨⟨h1, h3⟩, h2⟩ := hok.run hh
            refine ⟨⟨h1, (Function.update_of_ne hne _ _).trans h3⟩, fun i =>
              (hplace (by simp) (by simp) ?_).trans (h2 i)⟩
            exact fun e => hne (Place.run.inj e)
      · intro i a' hi
        by_cases he : a' = a
        · exact ⟨_, List.mem_cons_self, hclass, he.symm⟩
        · obtain ⟨blk, hm, hrest⟩ := hc.blocks.runs i a'
            ((hplace (by simp) (by simp) fun e => he (Place.run.inj e)).mp hi)
          exact ⟨blk, List.mem_cons_of_mem _ hm, hrest⟩
    · exact hsame.queues hc.queues hc.pages fun _ _ _ => rfl
  · exact fun i q => paint_keeps hcl.free (by simp) (by simp)
  · intro i hi
    exact hcl.unclaimed i ((paint_other (by simp)).mp hi).2

variable [Memory.Contract M]

/-- **A request for a run** is answered. -/
theorem allocHuge_answered (hi : Inv g h live) (hinit : h.initialized = true) (hs : 1 ≤ layout.size)
    (hclass : classify layout = .huge) (zero top : Bool) :
    Answered live g h layout zero (h.allocHuge layout zero top) := by
  obtain ⟨k, hk, halign, hdvd⟩ := hugeAlign layout
  unfold Heap.allocHuge
  simp only [halign]
  rcases acquireRun_spec hi hinit (hugeSlices_pos layout) hk top with
    ⟨run, h1, g1, hres, hcl⟩ | ⟨h1, g1, hres, hx⟩
  · rw [hres]
    simp only
    have hinv := hcl.run hs hclass (hdvd _ hcl.aligned)
    have hpres : Preserves live h h1 := hcl.evolves.preserves hi.core.slices fun i => by
      rw [hcl.core.slices.recorded]
      exact (paint_keeps hcl.free (by simp) (by simp)).not
    have hh : Handed live _ h { h1 with
        history := h1.history.claimed (run.start * sliceSize) (hugeSlices layout) } layout false
        (run.start * sliceSize) :=
      { inv := hinv, zeroed := fun e => by cases e
        preserves := { hpres with untouched := hpres.untouched } }
    by_cases hz : (zero && !run.zeroed) = true
    · rw [if_pos hz]
      refine Or.inl ⟨_, _, _, rfl, hh.write ?_ fun _ x hlo hhi => fill_in hlo hhi⟩
      intro x
      by_cases hx : run.start * sliceSize ≤ x ∧ x < run.start * sliceSize + layout.size
      · refine Or.inr ⟨hx.1, ?_⟩
        have hcov := size_le_span hinv.core.pages hinv.core.blocks List.mem_cons_self
        simp only at hcov ⊢
        omega
      · exact Or.inl (fill_out (by omega))
    · rw [if_neg hz]
      refine Or.inl ⟨_, _, _, rfl, { hh with zeroed := fun hzero x hlo hhi => ?_ }⟩
      have hclean : run.zeroed = true := by
        rw [hzero] at hz
        simpa using hz
      refine hcl.zeroed hclean x ?_
      rw [inRun_div]
      have hcov := huge_covers layout
      omega
  · rw [hres]
    exact Or.inr ⟨h1, g1, rfl, { inv := hx.inv, evolves := hx.evolves,
                                 page := fun n hn => absurd (hclass.symm.trans hn) (by simp) }⟩

/-! ## The page search -/

/-- The heap in which `searchPage` calls `findPage`. -/
def Heap.readied (h : Heap M) : Heap M :=
  let h := h.ensureInit
  let h := { h with genericCount := h.genericCount + 1 }
  if genericCollectPeriod ≤ h.genericCount then { h with genericCount := 0 }.collectRetired else h

omit [Memory.Contract M] in
theorem searchPage_eq (h : Heap M) (n : Nat) : h.searchPage n = h.readied.findPage n := rfl

theorem readied_inv (hi : Inv g h live) (hcov : h.initialized = false → CoversInitial h) :
    Internal live g h h.readied ∧ h.readied.initialized = true := by
  obtain ⟨⟨g1, hi1, he1⟩, hinit1⟩ := ensureInit_inv hi hcov
  unfold Heap.readied
  by_cases hperiod : genericCollectPeriod ≤ h.ensureInit.genericCount + 1
  · -- This search ages the retired pages first.
    obtain ⟨hi2, he2⟩ := hi1.bookkeeping h.ensureInit.retiredMin h.ensureInit.retiredMax 0
      h.ensureInit.collections
    obtain ⟨g3, hi3, he3⟩ := collectRetired_inv hi2
    have hev := he2.trans he3
    simp only [if_pos hperiod]
    exact ⟨⟨g3, hi3, he1.trans hev⟩, hev.init hinit1⟩
  · obtain ⟨hi2, he2⟩ := hi1.bookkeeping h.ensureInit.retiredMin h.ensureInit.retiredMax
      (h.ensureInit.genericCount + 1) h.ensureInit.collections
    simp only [if_neg hperiod]
    exact ⟨⟨g1, hi2, he1.trans he2⟩, hinit1⟩

/-- **`searchPage`** ends as `findPage` does. -/
theorem searchPage_spec (hi : Inv g h live) (hcov : h.initialized = false → CoversInitial h)
    (hn : 1 ≤ n) (hn' : n ≤ maxBin) :
    (∃ p h' g', h.searchPage n = (some p, h') ∧ Found live g' h h' n p) ∨
    (∃ h' g', h.searchPage n = (none, h') ∧ NoPage live g g' h h' n ∧ h'.initialized = true) := by
  obtain ⟨⟨g3, hi3, hev⟩, hinit⟩ := readied_inv hi hcov
  rw [searchPage_eq]
  rcases findPage_spec hi3 hinit hn hn' with ⟨p, h4, g4, hres, hf⟩ | ⟨h4, g4, hres, hx⟩
  · refine Or.inl ⟨p, h4, g4, hres, { hf with preserves := ?_ }⟩
    exact (hev.preserves hi.core.slices hi3.core.slices.recorded).trans hf.preserves
  · exact Or.inr ⟨h4, g4, hres, hx.after hev, hx.exhausted.evolves.init hinit⟩

theorem searched_answered (hi : Inv g h live) (hcov : h.initialized = false → CoversInitial h)
    (hs : 1 ≤ layout.size) (hclass : classify layout = .bin n) (zero : Bool) :
    Answered live g h layout zero (match h.searchPage n with
      | (none, h) => (none, h)
      | (some page, h) => h.takeBlock page layout zero) := by
  have hbinned := classify_bin hs hclass
  rcases searchPage_spec hi hcov hbinned.bin_pos hbinned.bin_lt with
    ⟨p, h1, g1, hres, hf⟩ | ⟨h1, g1, hres, hx, -⟩
  · rw [hres]
    rcases takeBlock_answered hf.inv hbinned.bin_lt hf.queued hf.free hs hclass zero with
      ⟨a, h2, g2, hr, hh⟩ | ⟨h2, g2, hr, hno⟩
    · exact Or.inl ⟨a, h2, g2, hr, hh.after hf.preserves⟩
    · -- A page that was found has a block to take.
      obtain ⟨a, g', h3, h4, hpop, -⟩ := takeBlock_spec hf.inv hbinned.bin_lt hf.queued hf.free hs
        hclass zero
      unfold Heap.takeBlock at hr
      rw [hpop] at hr
      cases (Prod.mk.inj hr).1
  · rw [hres]
    refine Or.inr ⟨h1, g1, rfl, { inv := hx.exhausted.inv, evolves := hx.exhausted.evolves, page := ?_ }⟩
    intro m hm
    obtain rfl := Class.bin.inj (hclass.symm.trans hm)
    exact hx

/-- **The generic path** is answered. -/
theorem allocGeneric_answered (hi : Inv g h live) (hcov : h.initialized = false → CoversInitial h)
    (hs : 1 ≤ layout.size) (zero : Bool) :
    Answered live g h layout zero (h.allocGeneric layout zero) := by
  unfold Heap.allocGeneric
  cases hclass : classify layout with
  | huge =>
    obtain ⟨⟨g1, hi1, he1⟩, hinit1⟩ := ensureInit_inv hi hcov
    have hpres := he1.preserves hi.core.slices hi1.core.slices.recorded
    rcases allocHuge_answered hi1 hinit1 hs hclass zero false with
      ⟨a, h2, g2, hr, hh⟩ | ⟨h2, g2, hr, hno⟩
    · exact Or.inl ⟨a, h2, g2, hr, hh.after hpres⟩
    · exact Or.inr ⟨h2, g2, hr, { inv := hno.inv, evolves := he1.trans hno.evolves,
                                  page := fun n hn => absurd (hclass.symm.trans hn) (by simp) }⟩
  | bin n =>
    have hbinned := classify_bin hs hclass
    have hlt := bin_lt hbinned.bin_lt
    simp only [queueIndex_of_lt hlt]
    split
    · rename_i hhead
      obtain ⟨-, hne, hfree⟩ := hhead
      have hmem := (first_mem hi hlt).resolve_left (by rw [queueIndex_of_lt hlt]; exact hne)
      rw [queueIndex_of_lt hlt] at hmem
      obtain ⟨hin, -⟩ := hi.core.member hmem
      exact takeBlock_answered hi hbinned.bin_lt hmem (hin.ok.hasFree_iff.mp hfree) hs hclass zero
    · exact searched_answered hi hcov hs hclass zero

omit [Memory.Contract M] in
theorem takeBlock_ne_none (hi : Inv g h live) (hn : n ≤ maxBin) (hp : p ∈ g.queue n)
    (hfree : g.free p ≠ []) (hs : 1 ≤ layout.size) (hclass : classify layout = .bin n) (zero : Bool) :
    h.takeBlock p layout zero ≠ (none, h') := by
  obtain ⟨a, g1, h1, h2, hpop, -⟩ := takeBlock_spec hi hn hp hfree hs hclass zero
  unfold Heap.takeBlock
  rw [hpop]
  simp

theorem allocGeneric_refused (hi : Inv g h live) (hcov : h.initialized = false → CoversInitial h)
    (hs : 1 ≤ layout.size) {zero : Bool} (hr : h.allocGeneric layout zero = (none, h')) :
    h'.initialized = true := by
  unfold Heap.allocGeneric at hr
  cases hclass : classify layout with
  | huge =>
    rw [hclass] at hr
    obtain ⟨⟨g1, hi1, -⟩, hinit1⟩ := ensureInit_inv hi hcov
    rcases allocHuge_answered hi1 hinit1 hs hclass zero false with
      ⟨a, h2, g2, hr', -⟩ | ⟨h2, g2, hr', hno⟩
    · cases hr.symm.trans hr'
    · obtain rfl := (Prod.mk.inj (hr.symm.trans hr')).2
      exact hno.evolves.init hinit1
  | bin n =>
    have hbinned := classify_bin hs hclass
    have hlt := bin_lt hbinned.bin_lt
    rw [hclass] at hr
    simp only [queueIndex_of_lt hlt] at hr
    split at hr
    · rename_i hhead
      obtain ⟨-, hne, hfree⟩ := hhead
      have hmem := (first_mem hi hlt).resolve_left (by rw [queueIndex_of_lt hlt]; exact hne)
      rw [queueIndex_of_lt hlt] at hmem
      obtain ⟨hin, -⟩ := hi.core.member hmem
      exact absurd hr (takeBlock_ne_none hi hbinned.bin_lt hmem (hin.ok.hasFree_iff.mp hfree) hs hclass zero)
    · rcases searchPage_spec hi hcov hbinned.bin_pos hbinned.bin_lt with
        ⟨p, h1, g1, hres, hf⟩ | ⟨h1, g1, hres, -, hinit⟩
      · rw [hres] at hr
        exact absurd hr (takeBlock_ne_none hf.inv hbinned.bin_lt hf.queued hf.free hs hclass zero)
      · rw [hres] at hr
        obtain rfl := (Prod.mk.inj hr).2
        exact hinit

/-! ## `alloc` and `allocZeroed` -/

omit [Memory M] [Memory.Contract M] in
/-- The two fast paths round a size as `classify` does. -/
theorem directSize_eq {layout : Layout} (halign : layout.align ≤ maxNaturalAlign) :
    directSize layout = binnedSize layout := by
  unfold directSize binnedSize
  by_cases hw : layout.align ≤ word
  · rw [if_pos hw, if_neg (by omega)]
  · rw [if_neg hw, if_pos halign, if_pos (by omega)]
    obtain ⟨k, hk, hk'⟩ := layout.align_exp halign
    have hle := layout.size_le
    have hsmall : layout.size + 2 ^ k - 1 < usizeSize := by
      have := two_pow_32_le
      rw [hk'] at hle
      omega
    rw [hk']
    exact roundUpPow2_eq hsmall (by omega)

omit [Memory M] [Memory.Contract M] in
/-- A small request is binned by its slot of the direct table. -/
theorem classify_direct {layout : Layout} (hs : 1 ≤ layout.size)
    (h : directSize layout ≤ directMaxSize) :
    classify layout = .bin (bin (directIndex (directSize layout) * word)) ∧
      directIndex (directSize layout) < directEntries ∧ layout.align ≤ maxNaturalAlign ∧
      directSize layout = binnedSize layout := by
  have hmax : directMaxSize < usizeMax := by
    have := two_pow_32_le
    unfold directMaxSize usizeMax
    omega
  have halign : layout.align ≤ maxNaturalAlign := by
    unfold directSize at h
    split at h
    · rename_i hw
      exact le_trans hw (by decide)
    · split at h
      · assumption
      · omega
  have heq := directSize_eq halign
  have hpos : 1 ≤ directSize layout := by
    rw [heq]
    exact le_trans hs (le_binnedSize layout)
  have hslot : ∀ s < 1025, 1 ≤ s → bin s = bin (directIndex s * word) ∧ directIndex s < directEntries := by
    decide +kernel
  obtain ⟨hbin, hidx⟩ := hslot (directSize layout) (Nat.lt_succ_of_le h) hpos
  refine ⟨?_, hidx, halign, heq⟩
  rw [classify_eq, if_neg, ← heq, hbin]
  rw [not_or]
  refine ⟨by omega, ?_⟩
  rw [← heq]
  have : directMaxSize ≤ maxBinnedObjSize := by decide
  omega

omit [Memory.Contract M] in
/-- The page the direct table names is the first of the bin's queue, or the sentinel. -/
theorem direct_pop (hi : Inv g h live) (hs : 1 ≤ layout.size)
    (hsmall : directSize layout ≤ directMaxSize) :
    (h.popBlock (h.direct (directIndex (directSize layout))) = (none, h)) ∨
    (∃ n, classify layout = .bin n ∧ n ≤ maxBin ∧
      h.direct (directIndex (directSize layout)) ∈ g.queue n ∧
      g.free (h.direct (directIndex (directSize layout))) ≠ []) := by
  obtain ⟨hclass, hidx, -, -⟩ := classify_direct hs hsmall
  rw [hi.core.queues.direct_eq _ hidx]
  generalize bin (directIndex (directSize layout) * word) = n at hclass
  cases hq : g.queue n with
  | nil => exact Or.inl (popBlock_sentinel hi.core)
  | cons p l =>
    have hmem : p ∈ g.queue n := by
      rw [hq]
      exact List.mem_cons_self
    by_cases hfree : g.free p = []
    · exact Or.inl (popBlock_empty hi.core (hi.core.queues.member n p hmem).page hfree)
    · exact Or.inr ⟨n, hclass, (classify_bin hs hclass).bin_lt, by rw [hq]; simp, hfree⟩

/-- **`alloc`** is answered. -/
theorem alloc_answered (hi : Inv g h live) (hcov : h.initialized = false → CoversInitial h)
    (hs : 1 ≤ layout.size) : Answered live g h layout false (h.alloc layout) := by
  unfold Heap.alloc
  simp only
  split
  · rename_i hsmall
    rcases direct_pop hi hs hsmall with hnone | ⟨n, hclass, hn, hmem, hfree⟩
    · rw [hnone]
      exact allocGeneric_answered hi hcov hs false
    · obtain ⟨a, g', h1, h', hpop, hh', hh, -⟩ := takeBlock_spec hi hn hmem hfree hs hclass false
      rw [hpop]
      rw [if_neg (by decide)] at hh'
      exact Or.inl ⟨a, h1, g', rfl, hh' ▸ hh⟩
  · exact allocGeneric_answered hi hcov hs false

/-- **`allocZeroed`** is answered, with a zero block. -/
theorem allocZeroed_answered (hi : Inv g h live) (hcov : h.initialized = false → CoversInitial h)
    (hs : 1 ≤ layout.size) : Answered live g h layout true (h.allocZeroed layout) := by
  unfold Heap.allocZeroed
  simp only
  split
  · rename_i hsmall
    rcases direct_pop hi hs hsmall with hnone | ⟨n, hclass, hn, hmem, hfree⟩
    · rw [hnone]
      exact allocGeneric_answered hi hcov hs true
    · obtain ⟨a, g', h1, h', hpop, hh', hh, -⟩ := takeBlock_spec hi hn hmem hfree hs hclass true
      rw [hpop]
      rw [if_pos rfl] at hh'
      exact Or.inl ⟨a, _, g', rfl, hh' ▸ hh⟩
  · exact allocGeneric_answered hi hcov hs true

theorem alloc_refused (hi : Inv g h live) (hcov : h.initialized = false → CoversInitial h)
    (hs : 1 ≤ layout.size) (hr : h.alloc layout = (none, h')) : h'.initialized = true := by
  unfold Heap.alloc at hr
  simp only at hr
  split at hr
  · rename_i hsmall
    rcases direct_pop hi hs hsmall with hnone | ⟨n, hclass, hn, hmem, hfree⟩
    · rw [hnone] at hr
      exact allocGeneric_refused hi hcov hs hr
    · obtain ⟨a, g1, h1, h2, hpop, -⟩ := takeBlock_spec hi hn hmem hfree hs hclass false
      rw [hpop] at hr
      cases hr
  · exact allocGeneric_refused hi hcov hs hr

theorem allocZeroed_refused (hi : Inv g h live) (hcov : h.initialized = false → CoversInitial h)
    (hs : 1 ≤ layout.size) (hr : h.allocZeroed layout = (none, h')) : h'.initialized = true := by
  unfold Heap.allocZeroed at hr
  simp only at hr
  split at hr
  · rename_i hsmall
    rcases direct_pop hi hs hsmall with hnone | ⟨n, hclass, hn, hmem, hfree⟩
    · rw [hnone] at hr
      exact allocGeneric_refused hi hcov hs hr
    · obtain ⟨a, g1, h1, h2, hpop, -⟩ := takeBlock_spec hi hn hmem hfree hs hclass true
      rw [hpop] at hr
      cases hr
  · exact allocGeneric_refused hi hcov hs hr

end Wasmalloc
