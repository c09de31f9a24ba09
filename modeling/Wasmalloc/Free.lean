import Wasmalloc.Alloc

/- Freeing.

   `dealloc` takes a block out of the live ones. A block of a page goes to the front of
   its page's free list, after which the page may leave the full queue and may be
   retired or released; a run returns to the map. The masked test in front of it picks
   the same page as `classify` does (`dealloc_eq`). -/
namespace Wasmalloc
open ByteMem

variable [Build] {M : Type} [Memory M] {live live' : List Block} {g g' : Ghost} {h h' : Heap M}
  {b c : Bytes} {p a : Nat} {blk : Block} {layout : Layout}

/-! ## The live blocks, as a set -/

omit [Memory M] in
theorem BlocksOk.perm {hist : History} (hb : BlocksOk g hist live) (hl : live.Perm live') :
    BlocksOk g hist live' where
  nodup := (hl.map Block.addr).nodup_iff.mp hb.nodup
  block := fun blk hm => hb.block blk (hl.mem_iff.mpr hm)
  runs := fun i a hi => by
    obtain ⟨blk, hm, hrest⟩ := hb.runs i a hi
    exact ⟨blk, hl.mem_iff.mp hm, hrest⟩

theorem Core.perm (hc : Core g h live) (hl : live.Perm live') : Core g h live' :=
  { hc with
    pages := fun i p hi => { ok := (hc.pages i p hi).ok.perm (liveIn_perm hl p)
                             slices := (hc.pages i p hi).slices }
    blocks := hc.blocks.perm hl }

theorem Inv.perm (hi : Inv g h live) (hl : live.Perm live') : Inv g h live' :=
  { hi with core := hi.core.perm hl }

theorem Inv.initialized (hi : Inv g h live) (hm : blk ∈ live) : h.initialized = true := by
  by_contra h0
  have h0 : h.initialized = false := by simpa using h0
  have hpos := (hi.core.blocks.block blk hm).size_pos
  have hle := size_le_span hi.core.pages hi.core.blocks hm
  have hin : InSpan g blk blk.addr := ⟨Nat.le_refl _, by omega⟩
  exact (span_slice hi.core.pages hi.core.blocks hm hin).2 (hi.core.uninit_foreign h0 _)

theorem BlocksOk.tail {hist : History} (hb : BlocksOk g hist (blk :: live))
    (hclass : classify blk.layout ≠ .huge) : BlocksOk g hist live where
  nodup := (List.nodup_cons.mp hb.nodup).2
  block := fun blk' hm => hb.block blk' (List.mem_cons_of_mem _ hm)
  runs := fun i a hi => by
    obtain ⟨blk', hm, hhuge, haddr⟩ := hb.runs i a hi
    rcases List.mem_cons.mp hm with rfl | hm
    · exact absurd hhuge hclass
    · exact ⟨blk', hm, hhuge, haddr⟩

/-! ## Blocks of pages -/

omit [Memory M] in
theorem Moved.preserves [Memory M] {Q : Nat → List Nat} (hc : Core g h live) (m : Moved g Q h h') :
    Preserves live h h' := by
  have hlive : ∀ x, LiveByte live x → h'.bytes x = h.bytes x := fun x hx =>
    m.edit.liveByte hc.pages hc.blocks hx
  have hframe := m.frame
  exact { untouched := hlive, recorded := fun i hr => by rw [hframe]; exact hr,
          size_le := by rw [hframe], policy := by rw [hframe], init := by rw [hframe]; exact id }

theorem Settled.rejoin {q : Nat} (hs : Settled g b fun x => x = p) (hq : p ∈ g.queue q)
    (hno : p ∉ g.queue fullQueue) : Settled g b fun _ => False where
  queued := fun i x hx _ => by
    by_cases he : x = p
    · exact ⟨q, he ▸ hq⟩
    · exact hs.queued i x hx he
  parked := fun x hx _ => hs.parked x hx fun he => hno (he ▸ hx)

/-- What a block that came back to page `p` changed: the page is in its bin's queue, perhaps
    put back there, and has one block less out. -/
structure PutBack (g g1 : Ghost) (h h1 : Heap M) (p : Nat) : Prop where
  bin : g1.bin = g.bin
  place : g1.place = g.place
  mem : p ∈ g1.queue (g.bin p)
  queue : (p ∈ g.queue (g.bin p) ∧ g1.queue = g.queue) ∨
    (p ∈ g.queue fullQueue ∧ g1.queue (g.bin p) = g.queue (g.bin p) ++ [p] ∧
      ∀ r, r ≠ g.bin p → r ≠ fullQueue → g1.queue r = g.queue r)
  others : ∀ q, ∀ x ∈ g.queue q, x ≠ p → ∀ f : Page.Field, f.heapOwned = false ∨ f = .retireExpire →
    Page.get h1.bytes x f = Page.get h.bytes x f
  used : Page.get h1.bytes p .used + 1 = Page.get h.bytes p .used
  capacity : Page.get h1.bytes p .capacity = Page.get h.bytes p .capacity
  expire : Page.get h1.bytes p .retireExpire = Page.get h.bytes p .retireExpire
  range : h1.retiredMin = h.retiredMin ∧ h1.retiredMax = h.retiredMax ∧ h1.collections = h.collections

/-- **Pushing a block** onto its page, which the queues do not see yet. -/
theorem push_core (hi : Inv g h (blk :: live)) {n : Nat} (hclass : classify blk.layout = .bin n) :
    let p := Page.headerOf (kindOfBin n) blk.addr
    let c := Page.push h.bytes p blk.addr
    PageStep g h.bytes c live p (blk.addr :: g.free p) ∧
      Core (g.withFree p (blk.addr :: g.free p)) { h with bytes := c } live ∧
      Preserves live h { h with bytes := c } ∧
      Page.get c p .used + 1 = Page.get h.bytes p .used ∧
      Page.get c p .capacity = Page.get h.bytes p .capacity := by
  have hpages := hi.core.pages
  have hblocks := hi.core.blocks
  have hm : blk ∈ blk :: live := List.mem_cons_self
  obtain ⟨hin, -⟩ := (hblocks.block blk hm).in_page hpages hm hclass
  have hhome := home_bin hclass
  generalize Page.headerOf (kindOfBin n) blk.addr = p at *
  have hok := hin.ok
  have hlv : liveIn (blk :: live) p = blk.addr :: liveIn live p := by
    rw [liveIn_cons, if_pos hhome]
  rw [hlv] at hok
  have hins := hok.inside (a := blk.addr) (by simp)
  have hsize := Page.size_le
  have hword := hok.word_le_size
  -- The freed block becomes the head of the list, and no longer counts as live.
  have hpush := Page.push_ok hok (List.Perm.refl _)
  have hstep : PageStep g h.bytes (Page.push h.bytes p blk.addr) live p (blk.addr :: g.free p) := by
    refine { ok := hpush, owned := fun f hf => ?_, outside := ?_ }
    · exact Page.get_push (by omega) (Page.Field.heapOwned_ne hf rfl)
        (Page.Field.heapOwned_ne hf rfl) (Page.Field.heapOwned_ne hf rfl)
    · intro x hx
      rw [ne_eq, hin.mem] at hx
      have h64 : pageHeaderReserve ≤ (kindOfBin (g.bin p)).pageSize := by
        cases kindOfBin (g.bin p) <;> decide
      exact Page.push_out (by omega) (by omega)
  have hother : ∀ q, q ≠ p → liveIn live q = liveIn (blk :: live) q := by
    intro q hq
    rw [liveIn_cons, if_neg]
    rw [hhome]
    exact fun e => hq (Option.some.inj e).symm
  have hblocks' : BlocksOk g h.history live := hblocks.tail (by rw [hclass]; simp)
  refine ⟨hstep, hstep.core hi.core hother hblocks', ?_, ?_, ?_⟩
  · refine { untouched := ?_, recorded := fun _ hr => hr, size_le := Nat.le_refl _, policy := rfl,
             init := id }
    intro x hx
    have hspanblk : span g blk = binSize (g.bin p) := by
      rw [span_bin hclass]
      have := Option.some.inj ((home_bin hclass).symm.trans hhome)
      rw [this]
    have hout := newest_apart hpages hblocks hx
    unfold InSpan at hout
    rw [hspanblk] at hout
    by_cases hpx : g.place (x / sliceSize) = .page p
    · obtain ⟨blk', hm', hspan⟩ := LiveByte.inSpan hpages hblocks
        (hx.imp fun _ hb => ⟨List.mem_cons_of_mem _ hb.1, hb.2⟩)
      have hlo := (hin.mem.mp hpx).1
      have hhead := span_header hpages hblocks hm' hspan hin.isPage hlo
      exact Page.push_out (Or.inr hhead) (by omega)
    · exact hstep.outside x hpx
  · rw [hpush.used, hok.used]
    rfl
  · exact Page.get_push (by omega) (by decide) (by decide) (by decide)

/-- **A page with a block more** goes back to its bin's queue if it was parked. -/
theorem unfull_putBack {q : Nat} (hc : Core g h live) (hs : Settled g h.bytes fun x => x = p)
    (hu : ∀ i, g.place i ≠ .claimed) (hq : p ∈ g.queue q) :
    ∃ g1 h1, (if Page.inFullQueue h.bytes p then h.unfull p else h) = h1 ∧ Inv g1 h1 live ∧
      Preserves live h h1 ∧ p ∈ g1.queue (g.bin p) ∧ g1.bin = g.bin ∧ g1.place = g.place ∧
      g1.free = g.free ∧ (∀ x, PageAddr x → ∀ f : Page.Field, f.heapOwned = false ∨ f = .retireExpire →
        Page.get h1.bytes x f = Page.get h.bytes x f) ∧
      (h1.retiredMin = h.retiredMin ∧ h1.retiredMax = h.retiredMax ∧ h1.collections = h.collections) ∧
      ((p ∈ g.queue (g.bin p) ∧ g1.queue = g.queue) ∨
        (p ∈ g.queue fullQueue ∧ g1.queue (g.bin p) = g.queue (g.bin p) ++ [p] ∧
          ∀ r, r ≠ g.bin p → r ≠ fullQueue → g1.queue r = g.queue r)) := by
  have hm := hc.queues.member q p hq
  rcases hm.home with ⟨hbin, hflags⟩ | ⟨hfull, hflags⟩
  · have hno : p ∉ g.queue fullQueue := fun hmem => by
      have := hc.queues.disjoint _ _ p hmem hq
      have := hm.bin_le
      have := maxBin_lt_full
      omega
    have hflag : ¬ Page.inFullQueue h.bytes p = true := by
      unfold Page.inFullQueue
      rw [hflags]
      decide
    have hmem : p ∈ g.queue (g.bin p) := hbin ▸ hq
    refine ⟨g, h, if_neg hflag, { core := hc, settled := hs.rejoin hq hno, unclaimed := hu }, ?_, hmem,
      rfl, rfl, rfl, fun _ _ _ _ => rfl, ⟨rfl, rfl, rfl⟩, Or.inl ⟨hmem, rfl⟩⟩
    exact { untouched := fun _ _ => rfl, recorded := fun _ hr => hr, size_le := Nat.le_refl _,
            policy := rfl, init := id }
  · have hflag : Page.inFullQueue h.bytes p = true := by
      unfold Page.inFullQueue
      rw [hflags]
      rfl
    rw [hfull] at hq
    obtain ⟨Q, hi1, hm1, ht1⟩ := unfull_inv hc hs hu hq
    have hgone : ∀ r, r ≠ fullQueue → p ∉ g.queue r := fun r hr hmem => hr (hc.queues.disjoint _ _ p hmem hq)
    have hne : g.bin p ≠ fullQueue := by
      have := hm.bin_le
      have := maxBin_lt_full
      omega
    refine ⟨_, h.unfull p, if_pos hflag, hi1, hm1.preserves hc, ht1.mem, rfl, rfl, rfl, ?_, hm1.range,
      Or.inr ⟨hq, ?_, fun r hr hr' => ?_⟩⟩
    · intro x hx f hf
      rcases hf with hf | rfl
      · exact hm1.edit.fields x hx f hf
      · exact hm1.retire x hx
    · exact ht1.append.trans (by rw [List.erase_of_not_mem (hgone _ hne)])
    · exact (ht1.keeps r hr).trans (List.erase_of_not_mem (hgone r hr'))

/-- **`pushBlock`** puts a block back, and retires the page if that leaves it empty with no
    countdown. -/
theorem pushBlock_putBack (hi : Inv g h (blk :: live)) {n : Nat} (hclass : classify blk.layout = .bin n) :
    let p := Page.headerOf (kindOfBin n) blk.addr
    ∃ g1 h1, Inv g1 h1 live ∧ Preserves live h h1 ∧ PutBack g g1 h h1 p ∧
      g1.free = Function.update g.free p (blk.addr :: g.free p) ∧
      ((h.pushBlock p blk.addr = h1.retire p ∧ Page.allFree h1.bytes p = true) ∨
        (h.pushBlock p blk.addr = h1 ∧ (h1.field p .used ≠ 0 ∨ h1.field p .retireExpire ≠ 0))) := by
  obtain ⟨hstep, hcore, hpres, hused, hcap⟩ := push_core hi hclass
  have hin := ((hi.core.blocks.block blk List.mem_cons_self).in_page hi.core.pages
    List.mem_cons_self hclass).1
  generalize Page.headerOf (kindOfBin n) blk.addr = p at *
  obtain ⟨q, hq⟩ := hi.settled.queued _ p hin.isPage (fun e => e)
  have haddr := hi.core.queues.addr p hq
  obtain ⟨g1, h1, hdef, hi1, hp1, hmem, hbin, hplace, hlists, hget, hrange, hqueue⟩ :=
    unfull_putBack hcore (hstep.settled hi) hi.unclaimed hq
  have hback : PutBack g g1 h h1 p :=
    { bin := hbin, place := hplace, mem := hmem, queue := hqueue, range := hrange
      others := fun r x hx hne f hf => (hget x (hi.core.queues.addr x hx) f hf).trans
        (hstep.get hi.core.pages (hi.core.queues.member r x hx).page hne f)
      used := by rw [hget p haddr _ (Or.inl rfl)]; exact hused
      capacity := (hget p haddr _ (Or.inl rfl)).trans hcap
      expire := (hget p haddr _ (Or.inr rfl)).trans (hstep.owned _ rfl) }
  refine ⟨g1, h1, hi1, hpres.trans hp1, hback, hlists, ?_⟩
  unfold Heap.pushBlock
  dsimp only
  by_cases hneeds : needsTransition (Page.push h.bytes p blk.addr) p = true
  · rw [if_pos hneeds]
    unfold Heap.deallocTransition
    dsimp only
    rw [hdef]
    by_cases hfree : Page.allFree h1.bytes p = true
    · rw [if_pos hfree]
      exact Or.inl ⟨rfl, hfree⟩
    · rw [if_neg hfree]
      unfold Page.allFree at hfree
      rw [beq_iff_eq] at hfree
      exact Or.inr ⟨rfl, Or.inl hfree⟩
  · rw [if_neg hneeds]
    unfold needsTransition at hneeds
    simp only [Bool.or_eq_true, Bool.and_eq_true, beq_iff_eq, not_or, not_and_or, bne_iff_ne, ne_eq,
      not_not] at hneeds
    obtain ⟨hbusy, hflags⟩ := hneeds
    have hflag : ¬ Page.inFullQueue (Page.push h.bytes p blk.addr) p = true := by
      unfold Page.inFullQueue
      rw [hflags]
      decide
    rw [if_neg hflag] at hdef
    rw [← hdef]
    exact Or.inr ⟨rfl, hbusy⟩

/-- **`pushBlock`** returns a live block to its page. -/
theorem pushBlock_spec (hi : Inv g h (blk :: live)) {n : Nat} (hclass : classify blk.layout = .bin n) :
    ∃ g', Inv g' (h.pushBlock (Page.headerOf (kindOfBin n) blk.addr) blk.addr) live ∧
      Preserves live h (h.pushBlock (Page.headerOf (kindOfBin n) blk.addr) blk.addr) := by
  obtain ⟨g1, h1, hi1, hp1, hback, -, ⟨hdef, hfree⟩ | ⟨hdef, -⟩⟩ := pushBlock_putBack hi hclass
  · rw [hdef]
    have hmem := hback.mem
    rw [← hback.bin] at hmem
    obtain ⟨hin, -⟩ := hi1.core.member hmem
    obtain ⟨g2, hi2, he2⟩ := retire_inv hi1 hmem ((allFree_iff hin).mp hfree)
    exact ⟨g2, hi2, hp1.trans (he2.preserves hi1.core.slices hi2.core.slices.recorded)⟩
  · rw [hdef]
    exact ⟨g1, hi1, hp1⟩

/-! ## Slices of runs -/

/-- Slices that change hands between the map and a run, given the blocks afterwards. -/
theorem Inv.repaint {S : Nat → Prop} {pl pl' : Place} {m : SliceMap} {F Z : Nat → Prop}
    {hist : History}
    (hi : Inv g h live) (hS : ∀ i, S i → g.place i = pl)
    (hpl : ∀ q, pl ≠ .page q ∧ pl' ≠ .page q) (hf : pl ≠ .foreign ∧ pl' ≠ .foreign)
    (hcl : pl' ≠ .claimed) (hm : SliceMap.Becomes h.slices m F Z)
    (hfree : ∀ i, F i ↔ (g.paint S pl').place i = .free) (hzero : ∀ i, Z i → h.slices.Zero i)
    (hinit : h.initialized = true) (hlive : ∀ p, liveIn live' p = liveIn live p)
    (hblocks : BlocksOk (g.paint S pl') hist live') :
    Inv (g.paint S pl') { h with slices := m, history := hist } live' := by
  have hc := hi.core
  have hsame : SamePages g (g.paint S pl') :=
    { page := fun _ q => paint_keeps hS (hpl q).1 (hpl q).2, bin := rfl, free := rfl, queue := rfl }
  refine { core := ?_, settled := hi.settled.repaint hsame.page, unclaimed := ?_ }
  · refine { slices := ?_, pages := ?_, blocks := hblocks, queues := ?_, sentinel := hc.sentinel,
             uninit := fun h0 => absurd (hinit.symm.trans h0) (by decide), log := hc.log }
    · exact hc.slices.becomes hm (fun i => paint_keeps hS hf.1 hf.2) hfree hzero
    · intro i q hq
      have hin := hsame.pages hc.pages (fun _ _ _ => rfl) i q hq
      exact { ok := by rw [hlive]; exact hin.ok, slices := hin.slices }
    · exact hsame.queues hc.queues hc.pages fun _ _ _ => rfl
  · exact fun i hi' => hi.unclaimed i ((paint_other hcl).mp hi').2

theorem Inv.give {start count : Nat} {m : SliceMap} {hist : History} (hi : Inv g h live)
    (hrun : ∀ i, InRun start count i → g.place i = .run a)
    (hgives : SliceMap.Gives h.slices m start count)
    (hinit : h.initialized = true) (hlive : ∀ p, liveIn live' p = liveIn live p)
    (hblocks : BlocksOk (g.paint (InRun start count) .free) hist live') :
    Inv (g.paint (InRun start count) .free) { h with slices := m, history := hist } live' :=
  hi.repaint hrun (by simp) (by simp) (by simp) hgives
    (fun i => by rw [hi.core.slices.free, paint_self, or_comm]) (fun _ hz => hz) hinit hlive hblocks

theorem Inv.take {start count : Nat} {m : SliceMap} {hist : History} (hi : Inv g h live)
    (hfree : ∀ i, InRun start count i → g.place i = .free)
    (htakes : SliceMap.Takes h.slices m start count)
    (hinit : h.initialized = true) (hlive : ∀ p, liveIn live' p = liveIn live p)
    (hblocks : BlocksOk (g.paint (InRun start count) (.run a)) hist live') :
    Inv (g.paint (InRun start count) (.run a)) { h with slices := m, history := hist } live' :=
  hi.repaint hfree (by simp) (by simp) (by simp) htakes
    (fun i => by rw [hi.core.slices.free, paint_other (by simp), and_comm]) (fun _ hz => hz.1) hinit
    hlive hblocks

/-- The run of the block in front: its slices, and the blocks without it. -/
theorem front_run (hi : Inv g h (blk :: live)) (hclass : classify blk.layout = .huge) :
    sliceSize ∣ blk.addr ∧
    (∀ i, g.place i = .run blk.addr ↔ InRun (blk.addr / sliceSize) (hugeSlices blk.layout) i) ∧
    (∀ p, liveIn (blk :: live) p = liveIn live p) ∧
    (∀ blk' ∈ live, blk'.addr ≠ blk.addr) := by
  obtain ⟨⟨hdvd, -⟩, hrun⟩ := (hi.core.blocks.block blk List.mem_cons_self).run hclass
  refine ⟨hdvd, hrun, ?_, ?_⟩
  · intro p
    rw [liveIn_cons, home_huge hclass, if_neg (by simp)]
  · intro blk' hm e
    exact (List.nodup_cons.mp hi.core.blocks.nodup).1 (e ▸ List.mem_map_of_mem hm)

/-- **Freeing a run** returns its slices to the map. -/
theorem freeRun_inv (hi : Inv g h (blk :: live)) (hclass : classify blk.layout = .huge) :
    ∃ g', Inv g' { h with slices := h.slices.freeRun (blk.addr / sliceSize) (hugeSlices blk.layout) }
        live ∧
      Preserves live h
        { h with slices := h.slices.freeRun (blk.addr / sliceSize) (hugeSlices blk.layout) } := by
  obtain ⟨-, hrun, hlive, hne⟩ := front_run hi hclass
  have hin : ∀ i, InRun (blk.addr / sliceSize) (hugeSlices blk.layout) i →
      g.place i = .run blk.addr := fun i hi' => (hrun i).mpr hi'
  have hkeep : ∀ {i : Nat} {pl : Place}, pl ≠ .run blk.addr → pl ≠ .free →
      ((g.paint (InRun (blk.addr / sliceSize) (hugeSlices blk.layout)) .free).place i = pl ↔
        g.place i = pl) := fun h1 h2 => paint_keeps hin h1.symm h2.symm
  have hb := hi.core.blocks
  have hblocks : BlocksOk (g.paint (InRun (blk.addr / sliceSize) (hugeSlices blk.layout)) .free)
      h.history live := by
    refine { nodup := (List.nodup_cons.mp hb.nodup).2, block := ?_, runs := ?_ }
    · intro blk' hm
      have hok := hb.block blk' (List.mem_cons_of_mem _ hm)
      refine { size_pos := hok.size_pos, aligned := hok.aligned, page := ?_, run := ?_ }
      · intro n hn
        obtain ⟨h1, h2⟩ := hok.page n hn
        exact ⟨(hkeep (by simp) (by simp)).mpr h1, h2⟩
      · intro hh
        obtain ⟨h1, h2⟩ := hok.run hh
        exact ⟨h1, fun i => (hkeep (fun e => hne blk' hm (Place.run.inj e)) (by simp)).trans (h2 i)⟩
    · intro i a' hi'
      obtain ⟨hout, hplace⟩ := (paint_other (by simp)).mp hi'
      obtain ⟨blk', hm, hhuge, haddr⟩ := hb.runs i a' hplace
      rcases List.mem_cons.mp hm with rfl | hm
      · exact absurd ((hrun i).mp (by rw [haddr]; exact hplace)) hout
      · exact ⟨blk', hm, hhuge, haddr⟩
  have hinside := hi.core.slices.inside_run (hugeSlices_pos blk.layout) fun i hi' => by
    rw [hin i hi']
    simp
  have hgives := SliceMap.freeRun_gives hi.core.slices.inv hinside
  refine ⟨_, hi.give hin hgives (hi.initialized List.mem_cons_self) (fun p => (hlive p).symm) hblocks,
    ?_⟩
  exact { untouched := fun _ _ => rfl, size_le := Nat.le_refl _, policy := rfl, init := id
          recorded := fun i hr => (hgives.recorded_iff i).mpr hr }

/-! ## `dealloc` -/

omit [Memory M] in
/-- The mask of `dealloc` rounds the limit down to the alignment. -/
theorem smallLimit_eq {k : Nat} (hk : k ≤ 12) (halign : layout.align = 2 ^ k) :
    smallMaxObjSize &&& wrappingNeg layout.align = smallMaxObjSize / 2 ^ k * 2 ^ k := by
  have hlarge := two_pow_32_le
  have hneg : wrappingNeg layout.align = usizeNot (2 ^ k - 1) := by
    have hpow : 2 ^ k ≤ 2 ^ 12 := Nat.pow_le_pow_right (by decide) hk
    have hpos := Nat.two_pow_pos k
    unfold wrappingNeg usizeNot usizeMax
    have hmod : 2 ^ k % usizeSize = 2 ^ k := Nat.mod_eq_of_lt (by omega)
    rw [halign, hmod, Nat.mod_eq_of_lt (by omega)]
    omega
  rw [hneg, land_usizeNot (by unfold smallMaxObjSize; omega) (by omega)]

omit [Memory M] in
/-- **The masked test of `dealloc`** holds exactly when `classify` picks a small bin. -/
theorem smallTest_iff (hs : 1 ≤ layout.size) :
    (layout.align ≤ maxNaturalAlign ∧ layout.size ≤ smallMaxObjSize &&& wrappingNeg layout.align) ↔
      ∃ b, classify layout = .bin b ∧ kindOfBin b = .small := by
  constructor
  · rintro ⟨halign, hsize⟩
    obtain ⟨k, hk, hk'⟩ := layout.align_exp halign
    rw [smallLimit_eq hk hk'] at hsize
    have hbinned : binnedSize layout ≤ smallMaxObjSize := by
      have hdiv : smallMaxObjSize / 2 ^ k * 2 ^ k ≤ smallMaxObjSize := Nat.div_mul_le_self _ _
      unfold binnedSize
      split
      · rw [hk']
        exact le_trans ((PowTwo.roundUp_le (Nat.two_pow_pos k) (Nat.dvd_mul_left _ _)).mpr hsize) hdiv
      · omega
    refine ⟨bin (binnedSize layout), ?_, ?_⟩
    · rw [classify_eq, if_neg]
      rw [not_or]
      have : smallMaxObjSize ≤ maxBinnedObjSize := by decide
      omega
    · unfold kindOfBin
      rw [if_pos]
      exact bin_mono (le_trans hs (le_binnedSize layout)) (by decide) hbinned
  · rintro ⟨b, hclass, hkind⟩
    have hbinned := classify_bin hs hclass
    have hb : b ≤ smallMaxBin := by
      by_contra hlt
      unfold kindOfBin at hkind
      rw [if_neg hlt] at hkind
      split at hkind <;> cases hkind
    obtain ⟨k, hk, hk'⟩ := layout.align_exp hbinned.align_le
    refine ⟨hbinned.align_le, ?_⟩
    have hround : PowTwo.roundUp layout.size layout.align ≤ smallMaxObjSize :=
      calc PowTwo.roundUp layout.size layout.align ≤ binSize b := hbinned.rounded_le
        _ ≤ binSize smallMaxBin := binSize_le (by decide +kernel) hb
        _ = smallMaxObjSize := by decide +kernel
    rw [smallLimit_eq hk hk']
    rw [hk'] at hround
    obtain ⟨m, hm⟩ := PowTwo.dvd_roundUp layout.size (2 ^ k)
    have hle := PowTwo.le_roundUp (x := layout.size) (Nat.two_pow_pos k)
    rw [hm, Nat.mul_comm] at hround hle
    exact hle.trans (Nat.mul_le_mul_right _ ((Nat.le_div_iff_mul_le (Nat.two_pow_pos k)).mpr hround))

omit [Memory M] in
/-- `dealloc` frees to the page `classify` would pick. -/
theorem dealloc_eq (h : Heap M) (ptr : Nat) (hs : 1 ≤ layout.size) :
    h.dealloc ptr layout = h.deallocGeneric ptr layout := by
  unfold Heap.dealloc
  simp only
  split
  swap
  · rfl
  rename_i hsmall
  obtain ⟨b, hclass, hkind⟩ := (smallTest_iff hs).mp hsmall
  unfold Heap.deallocGeneric
  rw [hclass]
  simp only [hkind]

/-- **`dealloc`** takes a live block out, and leaves the others alone. -/
theorem dealloc_spec (hi : Inv g h (blk :: live)) :
    ∃ g', Inv g' (h.dealloc blk.addr blk.layout) live ∧
      Preserves live h (h.dealloc blk.addr blk.layout) := by
  rw [dealloc_eq h blk.addr (hi.core.blocks.block blk List.mem_cons_self).size_pos]
  unfold Heap.deallocGeneric
  cases hclass : classify blk.layout with
  | bin n => exact pushBlock_spec hi hclass
  | huge => exact freeRun_inv hi hclass

end Wasmalloc
