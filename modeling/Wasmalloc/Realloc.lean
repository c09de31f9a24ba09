import Wasmalloc.Free

/- Resizing.

   Each road of `realloc` ends in one of two ways. Either the block has its new Layout
   and its contents (`Resize`): in place, where a block keeps serving a smaller request of
   its page kind, a run gives back its tail or takes the slices behind it, or moved. Or
   nothing has happened to any live block, the one passed in included. -/
namespace Wasmalloc
open ByteMem

variable [Build] {M : Type} [Memory M] {live live' : List Block} {g g' : Ghost} {h h' : Heap M}
  {a : Nat} {blk : Block} {layout newLayout : Layout} {hist : History}

/-- The block `blk` was resized to `newLayout`, at `q`. -/
structure Resize (live : List Block) (g' : Ghost) (h h' : Heap M) (blk : Block) (newLayout : Layout)
    (q : Nat) : Prop where
  inv : Inv g' h' (⟨q, newLayout⟩ :: live)
  preserves : Preserves live h h'
  contents : ∀ i, i < blk.layout.size → i < newLayout.size → h'.bytes (q + i) = h.bytes (blk.addr + i)

/-- The two outcomes of resizing, as the result `r` of the operation. -/
def Resized (live : List Block) (g : Ghost) (h : Heap M) (blk : Block) (newLayout : Layout)
    (r : Option Nat × Heap M) : Prop :=
  (∃ q h' g', r = (some q, h') ∧ Resize live g' h h' blk newLayout q) ∨
  (∃ h' g', r = (none, h') ∧ Inv g' h' (blk :: live) ∧ Evolves (blk :: live) g g' h h')

theorem LiveByte.cons {x : Nat} (hx : LiveByte live x) : LiveByte (blk :: live) x := by
  obtain ⟨blk', hm, hin⟩ := hx
  exact ⟨blk', List.mem_cons_of_mem _ hm, hin⟩

theorem Preserves.tail (hp : Preserves (blk :: live) h h') : Preserves live h h' :=
  { hp with untouched := fun x hx => hp.untouched x hx.cons }

theorem Resize.after {h1 : Heap M} {q : Nat} (hp : Preserves (blk :: live) h h1)
    (hr : Resize live g' h1 h' blk newLayout q) : Resize live g' h h' blk newLayout q where
  inv := hr.inv
  preserves := hp.tail.trans hr.preserves
  contents := fun i hi hi' => (hr.contents i hi hi').trans
    (hp.untouched _ ⟨blk, List.mem_cons_self, Nat.le_add_right _ _, Nat.add_lt_add_left hi _⟩)

/-! ## In place -/

omit [Build] [Memory M] in
theorem History.claimed_self {hist : History} {n : Nat} (h : hist.runSlices a = n) :
    hist.claimed a n = hist := by
  unfold History.claimed
  rw [← h, Function.update_eq_self]

theorem Inv.relabel (hi : Inv g h live) (hlive : ∀ p, liveIn live' p = liveIn live p)
    (hblocks : BlocksOk g h.history live') : Inv g h live' :=
  { hi with
    core := { hi.core with
              blocks := hblocks
              pages := fun i p hp => { ok := by rw [hlive]; exact (hi.core.pages i p hp).ok
                                       slices := (hi.core.pages i p hp).slices } } }

omit [Memory M] in
/-- A block of a page keeps serving a request of a smaller bin of the kind. -/
theorem BlocksOk.relabel (hb : BlocksOk g hist (⟨a, layout⟩ :: live)) {old new : Nat}
    (hold : classify layout = .bin old) (hnew : classify newLayout = .bin new)
    (hkind : kindOfBin new = kindOfBin old) (hle : new ≤ old) (hs : 1 ≤ newLayout.size)
    (halign : newLayout.align = layout.align) :
    BlocksOk g hist (⟨a, newLayout⟩ :: live) ∧
      ∀ p, liveIn (⟨a, newLayout⟩ :: live) p = liveIn (⟨a, layout⟩ :: live) p := by
  have hok := hb.block _ List.mem_cons_self
  refine ⟨{ nodup := hb.nodup, block := ?_, runs := ?_ }, ?_⟩
  · intro blk hm
    rcases List.mem_cons.mp hm with rfl | hm
    · refine { size_pos := hs, aligned := ?_, page := ?_, run := ?_ }
      · show newLayout.align ∣ a
        rw [halign]
        exact hok.aligned
      · intro n hn
        obtain rfl : new = n := Class.bin.inj (hnew.symm.trans hn)
        obtain ⟨h1, h2, h3, h4⟩ := hok.page old hold
        rw [hkind]
        exact ⟨h1, h2, le_trans hle h3, h4⟩
      · exact fun hh => absurd (hnew.symm.trans hh) (by simp)
    · exact hb.block blk (List.mem_cons_of_mem _ hm)
  · intro i a' hi
    obtain ⟨blk, hm, hhuge, haddr⟩ := hb.runs i a' hi
    rcases List.mem_cons.mp hm with rfl | hm
    · exact absurd (hold.symm.trans hhuge) (by simp)
    · exact ⟨blk, List.mem_cons_of_mem _ hm, hhuge, haddr⟩
  · intro p
    have hsame : home ⟨a, newLayout⟩ = home ⟨a, layout⟩ := by
      unfold home
      simp only [hold, hnew, hkind]
    rw [liveIn_cons, liveIn_cons, hsame]

omit [Memory M] in
theorem BlocksOk.resizeRun (g' : Ghost) (newLayout : Layout) {hist' : History}
    (hb : BlocksOk g hist (⟨a, layout⟩ :: live))
    (hhist : hist' = hist.claimed a (hugeSlices newLayout))
    (hold : classify layout = .huge) (hnew : classify newLayout = .huge) (hs : 1 ≤ newLayout.size)
    (halign : newLayout.align = layout.align) (hbin : g'.bin = g.bin)
    (hplace : ∀ i pl, pl ≠ .run a → pl ≠ .free → (g'.place i = pl ↔ g.place i = pl))
    (hrun : ∀ i, g'.place i = .run a ↔ InRun (a / sliceSize) (hugeSlices newLayout) i) :
    BlocksOk g' hist' (⟨a, newLayout⟩ :: live) ∧
      ∀ p, liveIn (⟨a, newLayout⟩ :: live) p = liveIn (⟨a, layout⟩ :: live) p := by
  have hok := hb.block _ List.mem_cons_self
  refine ⟨{ nodup := hb.nodup, block := ?_, runs := ?_ }, ?_⟩
  · intro blk hm
    rcases List.mem_cons.mp hm with rfl | hm
    · refine { size_pos := hs, aligned := ?_, page := ?_,
               run := fun _ => ⟨⟨(hok.run hold).1.1, ?_⟩, hrun⟩ }
      · show newLayout.align ∣ a
        rw [halign]
        exact hok.aligned
      · exact fun n hn => absurd (hnew.symm.trans hn) (by simp)
      · rw [hhist]
        exact Function.update_self _ _ _
    · have hok' := hb.block blk (List.mem_cons_of_mem _ hm)
      have hne : blk.addr ≠ a := by
        intro e
        have hmem : blk.addr ∈ live.map Block.addr := List.mem_map_of_mem hm
        rw [e] at hmem
        exact (List.nodup_cons.mp hb.nodup).1 hmem
      refine { size_pos := hok'.size_pos, aligned := hok'.aligned, page := ?_, run := ?_ }
      · intro n hn
        obtain ⟨h1, h2⟩ := hok'.page n hn
        rw [hbin, hhist]
        exact ⟨(hplace _ _ (by simp) (by simp)).mpr h1, h2⟩
      · intro hh
        obtain ⟨⟨h1, h3⟩, h2⟩ := hok'.run hh
        refine ⟨⟨h1, ?_⟩, fun i =>
          (hplace _ _ (fun e => hne (Place.run.inj e)) (by simp)).trans (h2 i)⟩
        rw [hhist]
        exact (Function.update_of_ne hne _ _).trans h3
  · intro i a' hi
    by_cases he : a' = a
    · exact ⟨_, List.mem_cons_self, hnew, he.symm⟩
    · obtain ⟨blk, hm, hhuge, haddr⟩ := hb.runs i a'
        ((hplace _ _ (fun e => he (Place.run.inj e)) (by simp)).mp hi)
      rcases List.mem_cons.mp hm with rfl | hm
      · exact absurd haddr.symm he
      · exact ⟨blk, List.mem_cons_of_mem _ hm, hhuge, haddr⟩
  · intro p
    have hsame : home ⟨a, newLayout⟩ = home ⟨a, layout⟩ := by
      unfold home
      simp only [hold, hnew]
    rw [liveIn_cons, liveIn_cons, hsame]

theorem Resize.inPlace {m : SliceMap} (hrec : ∀ i, h.slices.Recorded i → m.Recorded i)
    (hi : Inv g' { h with slices := m, history := hist } (⟨a, newLayout⟩ :: live)) :
    Resize live g' h { h with slices := m, history := hist } ⟨a, layout⟩ newLayout a where
  inv := hi
  preserves := { untouched := fun _ _ => rfl, recorded := hrec, size_le := Nat.le_refl _,
                 policy := rfl, init := id }
  contents := fun _ _ _ => rfl

/-- **A run shrinks** by giving its tail back. -/
theorem shrink_resize (hi : Inv g h (⟨a, layout⟩ :: live)) (hold : classify layout = .huge)
    (hnew : classify newLayout = .huge) (hs : 1 ≤ newLayout.size)
    (halign : newLayout.align = layout.align) (hlt : hugeSlices newLayout < hugeSlices layout) :
    ∃ g', Resize live g' h
      { h with
        slices := h.slices.shrink (a / sliceSize) (hugeSlices layout) (hugeSlices newLayout)
        history := h.history.claimed a (hugeSlices newLayout) }
      ⟨a, layout⟩ newLayout a := by
  obtain ⟨-, hrun, -, -⟩ := front_run hi hold
  simp only at hrun
  have hinside := hi.core.slices.inside_run (hugeSlices_pos layout) fun i hi' => by
    rw [(hrun i).mpr hi']
    simp
  have hgives := SliceMap.shrink_gives hi.core.slices.inv hinside hlt
  have htail : ∀ i, InRun (a / sliceSize + hugeSlices newLayout)
      (hugeSlices layout - hugeSlices newLayout) i → g.place i = .run a := by
    intro i hi'
    refine (hrun i).mpr ?_
    unfold InRun at *
    omega
  obtain ⟨hblocks, hlive⟩ := hi.core.blocks.resizeRun (g.paint (InRun (a / sliceSize + hugeSlices newLayout)
    (hugeSlices layout - hugeSlices newLayout)) .free) newLayout rfl hold hnew hs halign rfl
    (fun i pl h1 h2 => paint_keeps htail h1.symm h2.symm) fun i => by
      rw [paint_other (by simp), hrun]
      unfold InRun
      omega
  exact ⟨_, Resize.inPlace (fun i hr => (hgives.recorded_iff i).mpr hr)
    (hi.give htail hgives (hi.initialized List.mem_cons_self) hlive hblocks)⟩

/-- **A run grows** into the free slices behind it. -/
theorem extend_resize {m : SliceMap} (hi : Inv g h (⟨a, layout⟩ :: live))
    (hold : classify layout = .huge) (hnew : classify newLayout = .huge) (hs : 1 ≤ newLayout.size)
    (halign : newLayout.align = layout.align) (hlt : hugeSlices layout < hugeSlices newLayout)
    (hfree : h.slices.TailFree (a / sliceSize) (hugeSlices layout)
      (hugeSlices newLayout - hugeSlices layout))
    (htakes : SliceMap.Takes h.slices m (a / sliceSize + hugeSlices layout)
      (hugeSlices newLayout - hugeSlices layout)) :
    ∃ g', Resize live g' h
      { h with slices := m, history := h.history.claimed a (hugeSlices newLayout) }
      ⟨a, layout⟩ newLayout a := by
  obtain ⟨-, hrun, -, -⟩ := front_run hi hold
  simp only at hrun
  have htail : ∀ i, InRun (a / sliceSize + hugeSlices layout)
      (hugeSlices newLayout - hugeSlices layout) i → g.place i = .free := fun i hi' =>
    (hi.core.slices.free i).mp (hfree i hi')
  obtain ⟨hblocks, hlive⟩ := hi.core.blocks.resizeRun (g.paint (InRun (a / sliceSize + hugeSlices layout)
    (hugeSlices newLayout - hugeSlices layout)) (.run a)) newLayout rfl hold hnew hs halign rfl
    (fun i pl h1 h2 => paint_keeps htail h2.symm h1.symm) fun i => by
      rw [paint_self, hrun]
      unfold InRun
      omega
  exact ⟨_, Resize.inPlace (fun i hr => (htakes.recorded_iff i).mpr hr)
    (hi.take htail htakes (hi.initialized List.mem_cons_self) hlive hblocks)⟩

/-! ## Resizing in place -/

/-- Growing a run once the slices behind it are not free: release the empty pages, and grow. -/
def Heap.growRun (h : Heap M) (ptr start oldN newN : Nat) : Option Nat × Heap M :=
  let h := h.releaseEmptyPages
  match h.supply.extendWithGrowth h.policy start oldN (newN - oldN) with
  | (some _, s) =>
    let h := h.withSupply s
    (some ptr, { h with history := h.history.claimed ptr newN })
  | (none, s) => (none, h.withSupply s)

theorem resizeInPlace_huge {oldN newN : Nat} (hold : classify layout = .huge)
    (hnew : classify newLayout = .huge) (holdN : hugeSlices layout = oldN)
    (hnewN : hugeSlices newLayout = newN) :
    h.resizeInPlace a layout newLayout =
      if newN = oldN then (some a, h)
      else if newN < oldN then
        (some a, { h with slices := h.slices.shrink (a / sliceSize) oldN newN
                          history := h.history.claimed a newN })
      else
        match h.slices.tryExtend (a / sliceSize) oldN (newN - oldN) with
        | (some _, m) => (some a, { h with slices := m, history := h.history.claimed a newN })
        | (none, m) => ({ h with slices := m } : Heap M).growRun a (a / sliceSize) oldN newN := by
  rw [Heap.resizeInPlace, hold, hnew, holdN, hnewN]
  rfl

variable [Memory.Contract M]

/-- **A run grows** after releasing pages or growing memory, or stays as it is. -/
theorem growRun_resized {oldN newN : Nat} (hi : Inv g h (⟨a, layout⟩ :: live))
    (hold : classify layout = .huge) (hnew : classify newLayout = .huge) (hs : 1 ≤ newLayout.size)
    (halign : newLayout.align = layout.align) (holdN : hugeSlices layout = oldN)
    (hnewN : hugeSlices newLayout = newN) (hlt : oldN < newN) :
    Resized live g h ⟨a, layout⟩ newLayout (h.growRun a (a / sliceSize) oldN newN) := by
  have hinit := hi.initialized List.mem_cons_self
  obtain ⟨g2, hi2, he2, hquiet, hrange⟩ := releaseEmptyPages_inv hi
  unfold Heap.growRun
  generalize h.releaseEmptyPages = h2 at *
  dsimp only
  obtain ⟨-, hrun, -, -⟩ := front_run hi2 hold
  simp only [holdN] at hrun
  have hinside := hi2.core.slices.inside_run (holdN ▸ hugeSlices_pos layout) fun i hi' => by
    rw [(hrun i).mpr hi']
    simp
  obtain ⟨s1, N, m, hgrown, hs1, hres⟩ : h2.supply.Extended (a / sliceSize) oldN
      (newN - oldN) (h2.supply.extendWithGrowth h2.policy (a / sliceSize) oldN (newN - oldN)) :=
    Supply.extendWithGrowth_spec h2.policy hi2.core.slices.inv hi2.core.slices.base_le hinside
  have hinit2 := he2.init hinit
  obtain ⟨hi3, he3⟩ := grown_inv hi2 hinit2 ⟨hquiet, hrange⟩ hgrown (size_pos h2.mem)
  have hev := he2.trans he3
  generalize h2.supply.extendWithGrowth h2.policy (a / sliceSize) oldN (newN - oldN) = r at *
  obtain ⟨r, s⟩ := r
  simp only at hs1 hres
  have hwith : h2.withSupply s = { h2.withSupply s1 with slices := m } := by
    rw [hs1]
    rfl
  rcases hres with ⟨z, hz, hfree, htakes⟩ | ⟨hnone, hm⟩
  · rw [hz]
    simp only
    rw [hwith]
    subst holdN hnewN
    obtain ⟨g4, hr4⟩ := extend_resize hi3 hold hnew hs halign hlt hfree htakes
    exact Or.inl ⟨a, _, g4, rfl, hr4.after (hev.preserves hi.core.slices hi3.core.slices.recorded)⟩
  · rw [hnone]
    simp only
    rw [hwith, hm]
    exact Or.inr ⟨_, _, rfl, hi3, hev⟩

/-- **The in-place roads** of `realloc`. -/
theorem resizeInPlace_resized (hi : Inv g h (⟨a, layout⟩ :: live)) (hs : 1 ≤ newLayout.size)
    (halign : newLayout.align = layout.align) :
    Resized live g h ⟨a, layout⟩ newLayout (h.resizeInPlace a layout newLayout) := by
  have hstay : Resized live g h ⟨a, layout⟩ newLayout (none, h) :=
    Or.inr ⟨h, g, rfl, hi, Evolves.refl _ _ _⟩
  cases hold : classify layout with
  | bin old =>
    cases hnew : classify newLayout with
    | huge =>
      rw [Heap.resizeInPlace, hold, hnew]
      exact hstay
    | bin new =>
      rw [Heap.resizeInPlace, hold, hnew]
      simp only
      -- A block of a bin stays where it is, and only its layout changes.
      by_cases hfit : fitsInPlace old new newLayout.size = true
      · rw [if_pos hfit]
        have hkind : kindOfBin new = kindOfBin old ∧ new ≤ old := by
          unfold fitsInPlace at hfit
          simp only [Bool.or_eq_true, Bool.and_eq_true, beq_iff_eq, decide_eq_true_eq] at hfit
          rcases hfit with he | ⟨⟨hlt, hk⟩, -⟩
          · exact ⟨congrArg kindOfBin he, Nat.le_of_eq he⟩
          · exact ⟨hk, Nat.le_of_lt hlt⟩
        obtain ⟨hblocks, hlive⟩ := hi.core.blocks.relabel hold hnew hkind.1 hkind.2 hs halign
        exact Or.inl ⟨a, _, g, rfl, Resize.inPlace (fun _ hr => hr) (hi.relabel hlive hblocks)⟩
      · rw [if_neg hfit]
        exact hstay
  | huge =>
    cases hnew : classify newLayout with
    | bin new =>
      rw [Heap.resizeInPlace, hold, hnew]
      exact hstay
    | huge =>
      obtain ⟨newN, hnewN⟩ : ∃ n, hugeSlices newLayout = n := ⟨_, rfl⟩
      obtain ⟨oldN, holdN⟩ : ∃ n, hugeSlices layout = n := ⟨_, rfl⟩
      rw [resizeInPlace_huge hold hnew holdN hnewN]
      obtain ⟨-, hrun, -, -⟩ := front_run hi hold
      simp only [holdN] at hrun
      -- A run of slices: as long as before, shorter, or longer.
      by_cases heq : newN = oldN
      · rw [if_pos heq]
        subst holdN hnewN
        have hown := ((hi.core.blocks.block _ List.mem_cons_self).run hold).1.2
        have hhist := (History.claimed_self (hown.trans heq.symm)).symm
        obtain ⟨hblocks, hlive⟩ := hi.core.blocks.resizeRun g newLayout hhist hold hnew hs halign rfl (fun _ _ _ _ => Iff.rfl) (fun i => by rw [heq]; exact hrun i)
        exact Or.inl ⟨a, _, g, rfl, Resize.inPlace (fun _ hr => hr) (hi.relabel hlive hblocks)⟩
      rw [if_neg heq]
      by_cases hlt : newN < oldN
      · rw [if_pos hlt]
        subst holdN hnewN
        obtain ⟨g1, hr⟩ := shrink_resize hi hold hnew hs halign hlt
        exact Or.inl ⟨a, _, g1, rfl, hr⟩
      rw [if_neg hlt]
      have hgt : oldN < newN := by omega
      have hinside := hi.core.slices.inside_run (holdN ▸ hugeSlices_pos layout) fun i hi' => by
        rw [(hrun i).mpr hi']
        simp
      obtain ⟨hsome, hnone⟩ := @SliceMap.tryExtend_spec _ _ _ _ (newN - oldN)
        hi.core.slices.inv hinside
      rcases hr : h.slices.tryExtend (a / sliceSize) oldN (newN - oldN) with ⟨z | z, m⟩
      · have hsame : ({ h with slices := m } : Heap M) = h := by rw [(hnone m hr).1]
        simp only
        rw [hsame]
        exact growRun_resized hi hold hnew hs halign holdN hnewN hgt
      · simp only
        obtain ⟨hfree, -, htakes, -⟩ := hsome z m hr
        subst holdN hnewN
        obtain ⟨g1, hr1⟩ := extend_resize hi hold hnew hs halign hgt hfree htakes
        exact Or.inl ⟨a, _, g1, rfl, hr1⟩

/-! ## Moving -/

omit [Memory.Contract M] in
theorem Handed.copyOver {h1 : Heap M} {g1 : Ghost} {q : Nat}
    (hh : Handed (⟨a, layout⟩ :: live) g1 h h1 newLayout false q) :
    Handed (⟨a, layout⟩ :: live) g1 h
      { h1 with bytes := copy h1.bytes a q (min layout.size newLayout.size) } newLayout false q := by
  have hsize := size_le_span hh.inv.core.pages hh.inv.core.blocks List.mem_cons_self
  simp only at hsize
  refine hh.write (fun x => ?_) (fun e => by cases e)
  by_cases hx : q ≤ x ∧ x < q + min layout.size newLayout.size
  · refine Or.inr ⟨hx.1, ?_⟩
    show x < q + span g1 ⟨q, newLayout⟩
    omega
  · exact Or.inl (copy_out (by omega))

omit [Memory.Contract M] in
theorem copyOver_resized (r : Option Nat × Heap M) :
    Answered (⟨a, layout⟩ :: live) g h newLayout false r →
    Resized live g h ⟨a, layout⟩ newLayout (match r with
      | (none, h) => (none, h)
      | (some new, h) =>
        (some new, ({ h with bytes := copy h.bytes a new (min layout.size newLayout.size) } :
          Heap M).dealloc a layout)) := by
  intro hans
  rcases hans with ⟨q, h1, g1, rfl, hh⟩ | ⟨h1, g1, rfl, hno⟩
  · simp only
    have hcopy := hh.copyOver
    obtain ⟨g2, hi2, hp2⟩ := dealloc_spec (hcopy.inv.perm (List.Perm.swap _ _ _))
    refine Or.inl ⟨q, _, g2, rfl, { inv := hi2, preserves := ?_, contents := ?_ }⟩
    · exact hcopy.preserves.tail.trans hp2.tail
    · intro i hlt hlt'
      have hnew : LiveByte (⟨q, newLayout⟩ :: live) (q + i) :=
        ⟨⟨q, newLayout⟩, List.mem_cons_self, Nat.le_add_right q i, Nat.add_lt_add_left hlt' q⟩
      have hold : LiveByte (⟨a, layout⟩ :: live) (a + i) :=
        ⟨⟨a, layout⟩, List.mem_cons_self, Nat.le_add_right a i, Nat.add_lt_add_left hlt a⟩
      calc _ = copy h1.bytes a q (min layout.size newLayout.size) (q + i) := hp2.untouched _ hnew
        _ = h1.bytes (a + i) := copy_in (Nat.lt_min.mpr ⟨hlt, hlt'⟩)
        _ = h.bytes (a + i) := hh.preserves.untouched _ hold
  · exact Or.inr ⟨h1, g1, rfl, hno.inv, hno.evolves⟩

/-- **The last resort**: allocate, copy, free. -/
theorem moveBlock_resized (hi : Inv g h (⟨a, layout⟩ :: live)) (hs : 1 ≤ newLayout.size) :
    Resized live g h ⟨a, layout⟩ newLayout (h.moveBlock a layout newLayout) := by
  have hinit := hi.initialized List.mem_cons_self
  unfold Heap.moveBlock
  cases hnew : classify newLayout with
  | huge => exact copyOver_resized _ (allocHuge_answered hi hinit hs hnew false true)
  | bin n =>
    exact copyOver_resized _
      (alloc_answered hi (fun h0 => absurd (hinit.symm.trans h0) (by decide)) hs)

theorem same_slot {newSize : Nat} (fits : newSize + layout.align ≤ usizeSize / 2)
    (hs : 1 ≤ layout.size) (hs' : 1 ≤ newSize) (hslot : layout.align ≤ word ∧
      layout.size ≤ directMaxSize ∧ newSize ≤ directMaxSize ∧
      directIndex layout.size = directIndex newSize) :
    ∃ n, classify layout = .bin n ∧ classify (layout.withSize newSize fits) = .bin n := by
  obtain ⟨hal, hsz, hsz', hidx⟩ := hslot
  have hold : directSize layout = layout.size := if_pos hal
  have hnew : directSize (layout.withSize newSize fits) = newSize := if_pos hal
  obtain ⟨hclass, -⟩ := @classify_direct _ layout hs (by rw [hold]; exact hsz)
  obtain ⟨hclass', -⟩ := @classify_direct _ (layout.withSize newSize fits) hs'
    (by rw [hnew]; exact hsz')
  rw [hold] at hclass
  rw [hnew, ← hidx] at hclass'
  exact ⟨_, hclass, hclass'⟩

/-- **`realloc`** resizes the block and keeps its contents, or changes no live block. -/
theorem realloc_resized (hi : Inv g h (⟨a, layout⟩ :: live)) {newSize : Nat} (hs : 1 ≤ newSize)
    (fits : newSize + layout.align ≤ usizeSize / 2) :
    Resized live g h ⟨a, layout⟩ (layout.withSize newSize fits) (h.realloc a layout newSize fits) := by
  have hs' : 1 ≤ (layout.withSize newSize fits).size := hs
  have halign : (layout.withSize newSize fits).align = layout.align := rfl
  have hs0 := (hi.core.blocks.block _ List.mem_cons_self).size_pos
  unfold Heap.realloc
  split
  · rename_i hslot
    obtain ⟨n, hold, hnew⟩ := same_slot fits hs0 hs hslot
    obtain ⟨hblocks, hlive⟩ := hi.core.blocks.relabel hold hnew rfl (Nat.le_refl _) hs' halign
    exact Or.inl ⟨a, _, g, rfl, Resize.inPlace (fun _ hr => hr) (hi.relabel hlive hblocks)⟩
  · simp only
    rcases resizeInPlace_resized hi hs' halign with ⟨q, h1, g1, hr, hres⟩ | ⟨h1, g1, hr, hi1, he1⟩
    · rw [hr]
      exact Or.inl ⟨q, h1, g1, rfl, hres⟩
    · rw [hr]
      have hpres := he1.preserves hi.core.slices hi1.core.slices.recorded
      rcases moveBlock_resized hi1 hs' with ⟨q, h2, g2, hr2, hres⟩ | ⟨h2, g2, hr2, hi2, he2⟩
      · exact Or.inl ⟨q, h2, g2, hr2, hres.after hpres⟩
      · exact Or.inr ⟨h2, g2, hr2, hi2, he1.trans he2⟩

end Wasmalloc
