import Wasmalloc.Twins
import Wasmalloc.ShelfTurns

/- The calls of the allocator, on twins.

   What the allocator owns of the memory is the fields of the page headers, the links of
   the free blocks, and the sentinel (`Ghost.owned`). A call that starts from twins over
   these bytes answers the same in both and ends in twins over the bytes owned then: what
   it reads it owned, and what it comes to own it has written. -/
namespace Wasmalloc
open ByteMem

variable [Build] {M : Type} {S : Set Nat} {h k : Heap M}

/-! ## Growing -/

namespace Supply
variable {s t : Supply M}

/-- The same supply, over bytes that agree on `S`. -/
def Twin (S : Set Nat) (s t : Supply M) : Prop :=
  ∃ c l, t = { s with bytes := c, calls := l } ∧ Set.EqOn s.bytes c S

theorem addRegion_twin (ht : Twin S s t) (start count : Nat) :
    Twin S (s.addRegion start count) (t.addRegion start count) := by
  obtain ⟨c, l, rfl, hb⟩ := ht
  exact ⟨c, l, rfl, hb⟩

theorem alloc_twin (ht : Twin S s t) (count align : Nat) :
    SameAnswer (Twin S) (s.alloc count align) (t.alloc count align) := by
  obtain ⟨c, l, rfl, hb⟩ := ht
  exact ⟨rfl, c, l, rfl, hb⟩

theorem tryExtend_twin (ht : Twin S s t) (start count extra : Nat) :
    SameAnswer (Twin S) (s.tryExtend start count extra) (t.tryExtend start count extra) := by
  obtain ⟨c, l, rfl, hb⟩ := ht
  exact ⟨rfl, c, l, rfl, hb⟩

omit [Build] in
theorem Twin.map_mem (ht : Twin S s t) : t.map = s.map ∧ t.mem = s.mem := by
  obtain ⟨c, l, rfl, -⟩ := ht
  exact ⟨rfl, rfl⟩

variable [Memory M] {policy : GrowPolicy}

omit [Build] in
/-- **A call of `grow`** clears the same region in both. -/
theorem grow_twin (ht : Twin S s t) (need : Need) (stop want : Nat) :
    SameAnswer (Twin S) (s.grow need stop want) (t.grow need stop want) := by
  obtain ⟨c, l, rfl, hb⟩ := ht
  unfold grow
  refine ⟨rfl, _, _, rfl, ?_⟩
  dsimp only
  cases (Memory.grow s.mem want).1 with
  | none => exact hb
  | some start => exact (eqOn_fill hb).mono Set.subset_union_left

omit [Build] in
theorem growWant_twin (ht : Twin S s t) (need : Need) (stop want needed : Nat) :
    SameAnswer (Twin S) (s.growWant need stop want needed) (t.growWant need stop want needed) := by
  obtain ⟨got, s1, t1, hs1, ht1, htw⟩ := (grow_twin ht need stop want).split
  unfold growWant
  rw [hs1, ht1]
  cases got with
  | some start => exact ⟨rfl, htw⟩
  | none =>
    dsimp only
    split
    · obtain ⟨got, s2, t2, hs2, ht2, htw⟩ := (grow_twin htw need stop needed).split
      rw [hs2, ht2]
      cases got with
      | some start => exact ⟨rfl, htw⟩
      | none => exact ⟨rfl, htw⟩
    · exact ⟨rfl, htw⟩

theorem growAndAlloc_twin (ht : Twin S s t) (count align : Nat) :
    SameAnswer (Twin S) (s.growAndAlloc policy count align) (t.growAndAlloc policy count align) := by
  unfold growAndAlloc
  simp only [ht.map_mem]
  cases checkedAdd (wrappingNeg (sizeSlices s.mem) &&& (align - 1)) count with
  | none => exact ⟨rfl, ht⟩
  | some needed =>
  dsimp only
  split
  · exact ⟨rfl, ht⟩
  obtain ⟨got, s1, t1, hs1, ht1, htw⟩ := (growWant_twin ht (.run count align) (sizeSlices s.mem)
    (min (max needed (growthStep s.map (sizeSlices s.mem) policy))
      (s.map.usableLimit - sizeSlices s.mem)) needed).split
  rw [hs1, ht1]
  rcases got with _ | ⟨start, got⟩
  · exact ⟨rfl, htw⟩
  obtain ⟨run, s2, t2, hs2, ht2, hta⟩ := (alloc_twin (addRegion_twin htw start got) count align).split
  dsimp only
  rw [hs2, ht2]
  cases run with
  | some run => exact ⟨rfl, hta⟩
  | none =>
  cases checkedAdd count (align - 1) with
  | none => exact ⟨rfl, hta⟩
  | some worst =>
  have hmem : t2.mem = s2.mem := hta.map_mem.2
  dsimp only
  rw [hmem]
  split
  · exact ⟨rfl, hta⟩
  obtain ⟨got, s3, t3, hs3, ht3, htg⟩ :=
    (grow_twin hta (.run count align) (sizeSlices s2.mem) worst).split
  rw [hs3, ht3]
  cases got with
  | none => exact ⟨rfl, htg⟩
  | some start => exact alloc_twin (addRegion_twin htg start worst) count align

/-- **`acquire`** never looks at the bytes. -/
theorem acquire_twin (ht : Twin S s t) (count align : Nat) :
    SameAnswer (Twin S) (s.acquire policy count align) (t.acquire policy count align) := by
  obtain ⟨run, s1, t1, hs1, ht1, hta⟩ := (alloc_twin ht count align).split
  unfold acquire
  rw [hs1, ht1]
  cases run with
  | some run => exact ⟨rfl, hta⟩
  | none => exact growAndAlloc_twin hta count align

theorem growAndExtend_twin (ht : Twin S s t) (start count extra : Nat) :
    SameAnswer (Twin S) (s.growAndExtend policy start count extra)
      (t.growAndExtend policy start count extra) := by
  unfold growAndExtend
  simp only [ht.map_mem]
  split
  · exact ⟨rfl, ht⟩
  split
  · exact ⟨rfl, ht⟩
  split
  · exact ⟨rfl, ht⟩
  obtain ⟨got, s1, t1, hs1, ht1, htw⟩ := (growWant_twin ht (.tail start count extra) (sizeSlices s.mem)
    (min (max (extra - (sizeSlices s.mem - (start + count)))
      (growthStep s.map (sizeSlices s.mem) policy)) (s.map.usableLimit - sizeSlices s.mem))
    (extra - (sizeSlices s.mem - (start + count)))).split
  rw [hs1, ht1]
  rcases got with _ | ⟨region, got⟩
  · exact ⟨rfl, htw⟩
  have htr := addRegion_twin htw region got
  dsimp only
  split
  · exact ⟨rfl, htr⟩
  · exact tryExtend_twin htr start count extra

theorem extendWithGrowth_twin (policy : GrowPolicy) (ht : Twin S s t) (start count extra : Nat) :
    SameAnswer (Twin S) (s.extendWithGrowth policy start count extra)
      (t.extendWithGrowth policy start count extra) := by
  obtain ⟨zeroed, s1, t1, hs1, ht1, hte⟩ := (tryExtend_twin ht start count extra).split
  unfold extendWithGrowth
  rw [hs1, ht1]
  cases zeroed with
  | some zeroed => exact ⟨rfl, hte⟩
  | none => exact growAndExtend_twin hte start count extra

end Supply

/-! ## Acquiring slices -/

omit [Build] in
theorem Twin.withSlices (ht : Twin S h k) (m : SliceMap) :
    Twin S { h with slices := m } { k with slices := m } := by
  obtain ⟨c, l, rfl, hb⟩ := ht
  exact ⟨c, l, rfl, hb⟩

omit [Build] in
theorem Twin.supply (ht : Twin S h k) : Supply.Twin S h.supply k.supply := by
  obtain ⟨c, l, rfl, hb⟩ := ht
  exact ⟨c, [], rfl, hb⟩

omit [Build] in
theorem Twin.withSupply (ht : Twin S h k) {s t : Supply M} (hs : Supply.Twin S s t) :
    Twin S (h.withSupply s) (k.withSupply t) := by
  obtain ⟨c, l, rfl, -⟩ := ht
  obtain ⟨c', l', rfl, hb⟩ := hs
  exact ⟨c', _, rfl, hb⟩

section Acquire
variable [Memory M] {P : Set Nat}

theorem Twin.ensureInit (ht : Twin S h k) : Twin S h.ensureInit k.ensureInit := by
  obtain ⟨c, l, rfl, hb⟩ := ht
  unfold Heap.ensureInit
  dsimp only
  split
  · exact ⟨c, l, rfl, hb⟩
  · split
    · exact ⟨c, l, rfl, hb⟩
    · exact ⟨c, l, rfl, hb⟩

omit [Memory M] in
theorem Walk.withSlices (w : Walk P S h k) (m : SliceMap) :
    Walk P S { h with slices := m } { k with slices := m } :=
  ⟨⟨w.closed.addr, w.closed.link, w.closed.ends⟩, w.headers, w.twin.withSlices m⟩

/-- **Slices** are found, released and grown alike. -/
theorem Walk.acquireRun (w : Walk P S h k) (count align : Nat) (top : Bool) :
    SameAnswer (Twin S) (h.acquireRun count align top) (k.acquireRun count align top) := by
  have hslices : k.slices = h.slices := w.twin.rest.2.1
  have hmem : k.mem = h.mem := w.twin.rest.1
  have hfirst : (if top then k.slices.allocTail count align (sizeSlices k.mem) else (none, k.slices)) =
      (if top then h.slices.allocTail count align (sizeSlices h.mem) else (none, h.slices)) := by
    rw [hslices, hmem]
  unfold Heap.acquireRun
  dsimp only
  rw [hfirst]
  generalize (if top then h.slices.allocTail count align (sizeSlices h.mem)
    else (none, h.slices)) = r
  obtain ⟨run, m⟩ := r
  cases run with
  | some run => exact ⟨rfl, w.twin.withSlices m⟩
  | none =>
  dsimp only
  generalize m.alloc count align = r
  obtain ⟨run, m'⟩ := r
  cases run with
  | some run => exact ⟨rfl, w.twin.withSlices m'⟩
  | none =>
  have hr := (w.withSlices m').releaseEmptyPages
  dsimp only
  generalize ({ h with slices := m' } : Heap M).releaseEmptyPages = h1 at hr ⊢
  generalize ({ k with slices := m' } : Heap M).releaseEmptyPages = k1 at hr ⊢
  have hpolicy : k1.policy = h1.policy := hr.rest.2.2.1
  rw [hpolicy]
  obtain ⟨hrun, ha⟩ := Supply.acquire_twin hr.supply count align
  exact ⟨hrun, hr.withSupply ha⟩

end Acquire

/-! ## What the allocator owns -/

section Owned
variable {live live' : List Block} {g g' : Ghost} {h' : Heap M} {p a n : Nat} {T : Set Nat}
  {layout newLayout : Layout} {blk : Block}

/-- The sentinel, the fields of the page headers, and the links of the free blocks. -/
def Ghost.owned (g : Ghost) : Set Nat :=
  {x | (emptyPage ≤ x ∧ x < emptyPage + Page.size) ∨
    ∃ p, IsPage g p ∧ (x ∈ Page.headerBytes p ∨ ∃ a ∈ g.free p, x ∈ Page.linkBytes a)}

theorem headerBytes_inside {x : Nat} (hx : x ∈ Page.headerBytes p) : p ≤ x ∧ x < p + Page.size := by
  obtain ⟨f, hlo, hhi⟩ := hx
  have hf := f.inside
  exact ⟨by omega, by omega⟩

theorem owned_header (hp : IsPage g p) : Page.headerBytes p ⊆ g.owned := fun _ hx =>
  Or.inr ⟨p, hp, Or.inl hx⟩

theorem owned_link (hp : IsPage g p) (ha : a ∈ g.free p) : Page.linkBytes a ⊆ g.owned := fun _ hx =>
  Or.inr ⟨p, hp, Or.inr ⟨a, ha, hx⟩⟩

theorem owned_sentinel (g : Ghost) : Page.headerBytes emptyPage ⊆ g.owned := fun _ hx =>
  Or.inl (headerBytes_inside hx)

theorem owned_subset (hg : g.owned ⊆ T)
    (hpage : ∀ p, IsPage g' p → Page.headerBytes p ⊆ T ∧ ∀ a ∈ g'.free p, Page.linkBytes a ⊆ T) :
    g'.owned ⊆ T := by
  rintro x (hx | ⟨p, hp, hx | ⟨a, ha, hx⟩⟩)
  · exact hg (Or.inl hx)
  · exact (hpage p hp).1 hx
  · exact (hpage p hp).2 a ha hx

theorem owned_mono (hpage : ∀ p, IsPage g' p → IsPage g p)
    (hfree : ∀ p, IsPage g' p → ∀ a ∈ g'.free p, a ∈ g.free p) : g'.owned ⊆ g.owned :=
  owned_subset (Set.Subset.refl _) fun p hp =>
    ⟨owned_header (hpage p hp), fun a ha => owned_link (hpage p hp) (hfree p hp a ha)⟩

variable [Memory M]

theorem Evolves.owned (he : Evolves live g g' h h') : g'.owned ⊆ g.owned :=
  owned_mono (fun _ hp => he.page_back hp) fun p _ a ha => by rwa [he.lists] at ha

/-- Nothing the allocator owns lies in a live block. -/
theorem Core.owned_apart (hc : Core g h live) {x : Nat} (hx : x ∈ g.owned) {blk : Block}
    (hm : blk ∈ live) : ¬ InSpan g blk x := by
  intro hin
  rcases hx with ⟨hlo, hhi⟩ | ⟨p, hp, hx | ⟨a, ha, hlo, hhi⟩⟩
  · exact (span_slice hc.pages hc.blocks hm hin).2 (hc.slices.sentinel hlo hhi)
  · have hinside := headerBytes_inside hx
    have := span_header hc.pages hc.blocks hm hin hp hinside.1
    omega
  · have hblock := span_freeBlock hc.pages hc.blocks hm hin hp ha hlo
    have hword := (hc.pages _ _ hp).ok.word_le_size
    omega

/-- The ghost state names what the heap itself tells: two accounts with the same queues, and
    free lists read from the bytes, own the same. -/
theorem Inv.owned_eq (hi : Inv g h live) (hi' : Inv g' h' live') (hqueue : g'.queue = g.queue)
    {fl : Nat → List Nat} (hfl : ∀ p, IsPage g p → Page.FreeList h'.bytes p (fl p)) :
    g'.owned = ({ g with free := fl } : Ghost).owned := by
  have hpage : ∀ p, IsPage g' p ↔ IsPage g p := by
    intro p
    rw [hi'.isPage_iff, hi.isPage_iff]
    simp only [hi'.core.queued_iff, hi.core.queued_iff, hqueue]
  have hfree : ∀ p, IsPage g p → g'.free p = fl p := fun p hp =>
    ((freeList_iff (hi'.core.pages _ _ ((hpage p).mpr hp))).mp (hfl p hp)).symm
  refine Set.Subset.antisymm ?_ ?_
  · exact owned_mono (fun p hp => (hpage p).mp hp) fun p hp a ha => by
      rwa [hfree p ((hpage p).mp hp)] at ha
  · exact owned_mono (fun p hp => (hpage p).mpr hp) fun p hp a ha => by
      rwa [hfree p hp]

theorem Inv.owned_same (hi : Inv g h live) (hi' : Inv g' h' live') (hqueues : h'.queues = h.queues)
    (hb : SameBytes g h.bytes h'.bytes) : g'.owned = g.owned := by
  have hget := fun p hp => hb.get (p := p) hi.core.pages hp
  have hqueue : g'.queue = g.queue := hi.core.queues.queue_eq hi'.core.queues hqueues fun q p hp =>
    let hpage := (hi.core.queues.member q p hp).page
    ⟨hget p hpage _, hget p hpage _⟩
  refine hi.owned_eq hi' hqueue fun p hp => ?_
  obtain ⟨hhead, hchain, h0⟩ := hi.freeList hp
  refine ⟨(hget p hp _).trans hhead, hchain.congr fun a ha => ?_, h0⟩
  have hin := hi.core.pages _ _ hp
  have hins := hin.ok.inside (List.mem_append_left _ ha)
  have hword := hin.ok.word_le_size
  exact Page.loadWord_congr fun x hlo hhi => hb x p (hin.mem.mpr ⟨by omega, by omega⟩)

theorem Inv.closed (hi : Inv g h live) : Closed {p | IsPage g p} h := by
  have hq := hi.core.queues
  have hmem : ∀ {q x : Nat}, x = 0 ∨ x ∈ g.queue q → x ∈ insert 0 {p | IsPage g p} := fun hx =>
    hx.imp_right fun hx => (hq.member _ _ hx).page
  refine { addr := fun p hp => (hi.core.isPage_addr hp).2, link := ?_, ends := ?_ }
  · rintro p hp f hf
    obtain ⟨q, hpq⟩ := hi.settled.queued _ p hp (fun e => e)
    have hqok := hq.queue q (hq.lt hpq)
    rcases hf with rfl | rfl
    · exact hmem (hqok.next_mem hpq)
    · exact hmem (hqok.prev_mem hpq)
  · intro q hlt
    have hqok := hq.queue q hlt
    rw [hqok.first, hqok.last]
    exact ⟨hmem (headD_mem _), hmem (getLastD_mem _)⟩

theorem Inv.walk (hi : Inv g h live) (ht : Twin g.owned h k) :
    Walk {p | IsPage g p} g.owned h k :=
  ⟨hi.closed, fun _ hp => owned_header hp, ht⟩

theorem Twin.recount (ht : Twin g.owned h k) (hi : Inv g h live) (hi' : Inv g' h live') :
    Twin g'.owned h k := by
  rw [hi.owned_same hi' rfl fun _ _ _ => rfl]
  exact ht

/-- The same answer, and twins over what is owned afterwards, whatever account one gives. -/
def Blind {α : Type} (r r' : α × Heap M) : Prop :=
  r'.1 = r.1 ∧ ∀ (g : Ghost) (live : List Block), Inv g r.2 live → Twin g.owned r.2 r'.2

theorem Blind.of {α : Type} {r r' : α × Heap M} (h : SameAnswer (Twin S) r r') (hi : Inv g r.2 live)
    (hg : g.owned ⊆ S) : Blind r r' :=
  ⟨h.1, fun _ _ hi' => (h.2.mono hg).recount hi hi'⟩

/-! ## Pages -/

theorem collectRetired_twin (hi : Inv g h live) (ht : Twin g.owned h k)
    (hi' : Inv g' h.collectRetired live) : Twin g'.owned h.collectRetired k.collectRetired := by
  obtain ⟨g1, hi1, he1⟩ := collectRetired_inv hi
  exact ((hi.walk ht).collectRetired.mono he1.owned).recount hi1 hi'

theorem useCandidate_inv (hi : Inv g h live) (hn : n ≤ maxBin) (hp : p ∈ g.queue n) :
    ∃ Q, Inv { g with queue := Q } ((h.moveToFront n p).setField p .retireExpire 0) live := by
  obtain ⟨Q, hi1, -⟩ := moveToFront_inv hi hp hn
  have hpage : IsPage g p := (hi.core.queues.member n p hp).page
  exact ⟨Q, (setRetire_inv hi1 hpage (by decide) (Or.inr rfl)).1⟩

theorem useCandidate_twin (hi : Inv g h live) (hn : n ≤ maxBin) (hp : p ∈ g.queue n)
    (ht : Twin T h k) (hT : g.owned ⊆ T) :
    Blind (some p, (h.moveToFront n p).setField p .retireExpire 0)
      (some p, (k.moveToFront n p).setField p .retireExpire 0) := by
  have hhead := (owned_header (hi.core.queues.member n p hp).page).trans hT
  obtain ⟨Q, hi'⟩ := useCandidate_inv hi hn hp
  exact Blind.of ⟨rfl, (ht.moveToFront hhead).setField _ _⟩ hi' hT

variable [Memory.Contract M]

theorem freshPage_twin (hi : Inv g h live) (hinit : h.initialized = true) (hn : 1 ≤ n)
    (hn' : n ≤ maxBin) (ht : Twin g.owned h k) : Blind (h.freshPage n) (k.freshPage n) := by
  have hspec := freshPage_spec hi hinit hn hn'
  have hdef : (kindOfBin n).pageSize / sliceSize = pageSlices n := rfl
  obtain ⟨run, h1, k1, hs, hk, ht1⟩ := ((hi.walk ht).acquireRun (pageSlices n) (pageSlices n) false).split
  unfold Heap.freshPage at hspec ⊢
  simp only [hdef] at hspec ⊢
  rw [hs] at hspec ⊢
  rw [hk]
  cases run with
  | none =>
    -- No run: neither heap has a page to give.
    rcases hspec with ⟨_, _, _, _, _, _, hres, -⟩ | ⟨h2, g2, hres, hex⟩
    · cases hres
    · obtain ⟨-, rfl⟩ := Prod.mk.inj hres
      exact Blind.of ⟨rfl, ht1⟩ hex.inv hex.evolves.owned
  | some run =>
    rcases hspec with ⟨p, h2, g2, run', h1', g1, hres, hfound, hacq, hcl, hfresh, -⟩ | ⟨_, _, hres, -⟩
    swap
    · cases hres
    obtain ⟨hrun, rfl⟩ := Prod.mk.inj hacq
    obtain rfl : run = run' := Option.some.inj hrun
    dsimp only at hres ⊢
    obtain ⟨hp, rfl⟩ := Prod.mk.inj hres
    obtain rfl := Option.some.inj hp
    generalize hp : run.start * sliceSize = p at *
    have hin := hcl.core.queues.queue n (bin_lt hn')
    -- Both heaps write the same header, so they agree on it whatever lay there.
    have hwritten : Set.EqOn (Page.init h1.bytes p (kindOfBin n) n run.zeroed)
        (Page.init k1.bytes p (kindOfBin n) n run.zeroed) (g.owned ∪ Page.headerBytes p) :=
      Page.eqOn_write ht1.bytes _
    have hpush := (ht1.withBytes hwritten).pushFront n (p := p)
    have hget : ∀ f : Page.Field, f ≠ .next → f ≠ .prev →
        Page.get ((({ h1 with bytes := Page.init h1.bytes p (kindOfBin n) n run.zeroed } : Heap M)
          ).pushFront n p).bytes p f = Page.fresh (kindOfBin n) n run.zeroed f := by
      intro f hnext hprev
      have haddr := (hfound.inv.core.member hfound.queued).2
      obtain ⟨⟨hdvd, hlt⟩, -⟩ := hin.ends fun x hx => (hcl.core.member hx).2
      rw [Heap.pushFront_eq]
      dsimp only
      rw [queueIndex_of_lt (bin_lt hn'), get_frontLinked haddr hdvd hlt haddr.dvd,
        if_neg (fun e => hprev e.2.2), if_neg (fun e => hprev e.2), if_neg (fun e => hnext e.2)]
      exact Page.get_init hn hn' f
    generalize (({ h1 with bytes := Page.init h1.bytes p (kindOfBin n) n run.zeroed } : Heap M)
      ).pushFront n p = h2 at *
    generalize (({ k1 with bytes := Page.init k1.bytes p (kindOfBin n) n run.zeroed } : Heap M)
      ).pushFront n p = k2 at *
    have hhead : Page.headerBytes p ⊆ g.owned ∪ Page.headerBytes p := Set.subset_union_right
    have hext := Page.extend_eqOn hpush.bytes hhead
    refine Blind.of ⟨rfl, hpush.withBytes hext.2⟩ hfound.inv ?_
    have hsub : ∀ T : Set Nat, g.owned ⊆ g.owned ∪ Page.headerBytes p ∪ T := fun T =>
      Set.subset_union_left.trans Set.subset_union_left
    refine owned_subset (hsub _) fun x hx => ?_
    by_cases hxp : x = p
    · -- The links of the new page were all written.
      subst hxp
      refine ⟨hhead.trans Set.subset_union_left, fun a ha y hy => Or.inr ?_⟩
      have hok := (hfound.inv.core.pages _ _ hx).ok
      obtain ⟨i, hi', rfl⟩ := hok.mem_block (List.mem_append_left _ ha)
      have hbin := (hfound.inv.core.not_full hfound.queued hn').1
      refine ⟨i, ?_, hi', ?_⟩
      · rw [hget _ (by decide) (by decide)]
        exact Nat.zero_le i
      · rw [hget _ (by decide) (by decide), hget _ (by decide) (by decide)]
        rwa [← hbin] at hy
    · have hold := hfresh.pages x hx hxp
      have hpage : IsPage g x := hcl.evolves.page_back hold
      rw [hfresh.lists x hxp, hcl.evolves.lists]
      exact ⟨(owned_header hpage).trans (hsub _), fun a ha => (owned_link hpage ha).trans (hsub _)⟩

/-- **The page search.** -/
theorem findPage_twin (hi : Inv g h live) (hinit : h.initialized = true) (hn : 1 ≤ n)
    (hn' : n ≤ maxBin) (ht : Twin g.owned h k) : Blind (h.findPage n) (k.findPage n) := by
  have hlt := bin_lt hn'
  have hqok := hi.core.queues.queue n hlt
  have w := hi.walk ht
  have hqueues : k.queues = h.queues := ht.rest.2.2.2.2.1
  obtain ⟨Q, h1, found, hres, hi1, he1, hend, -⟩ := findCandidate_spec hn' (g.queue n).length []
    (g.queue n) 0 maxCandidates hi rfl (Nat.le_refl _) (Or.inl ⟨rfl, rfl⟩)
    (fun _ hx => absurd hx List.not_mem_nil)
  have hfirst := (w.closed.ends n hlt).1
  rw [hqok.first] at hfirst
  obtain ⟨hfound, ht1⟩ := w.findCandidate n (g.queue n).length
    (Or.inl rfl : (0 : Nat) ∈ insert 0 {p | IsPage g p}) hfirst
  rw [hres] at hfound ht1
  unfold Heap.findPage
  simp only [hqueues, queueIndex_of_lt hlt, hqok.count, hqok.first, hres]
  generalize Heap.findCandidate n (g.queue n).length k 0 maxCandidates ((g.queue n).headD 0) = r at *
  obtain ⟨k1, found'⟩ := r
  obtain rfl : found' = found := hfound
  change Twin g.owned h1 k1 at ht1
  -- Both heaps found the same candidate, since the walk reads headers alone.
  rcases hend with ⟨h0, -⟩ | ⟨hmem, hroomy⟩
  · simp only [h0, ne_eq, not_true_eq_false, decide_false, Bool.false_and, Bool.false_eq_true,
      if_false, if_true]
    obtain ⟨g2, hi2, he2⟩ := collectRetired_inv hi1
    exact freshPage_twin hi2 (he2.init (he1.init hinit)) hn hn' (collectRetired_twin hi1 ht1 hi2)
  · have hne : found' ≠ 0 := (hi1.core.queues.queue n hlt).ne_zero hmem
    have hpage : IsPage g found' := (hi1.core.member hmem).1.isPage
    have hfree := (Page.asks_eqOn ht1.bytes (owned_header hpage)).1
    dsimp only
    rw [hfree]
    by_cases hf : Page.hasFree h1.bytes found' = true
    · simp only [hf, ne_eq, hne, not_false_eq_true, decide_true, Bool.not_true, Bool.and_false,
        Bool.false_eq_true, if_false]
      exact useCandidate_twin hi1 hn' hmem ht1 (Set.Subset.refl _)
    · have hf' : Page.hasFree h1.bytes found' = false := by simpa using hf
      obtain ⟨c, hext, -, hi2, -, -, hcap⟩ := extendPage_inv hi1 hmem hn' (hroomy.resolve_left hf)
      obtain ⟨hflag, heq⟩ := Page.extend_eqOn ht1.bytes (owned_header hpage)
      rw [hext] at hflag heq
      simp only [hf', ne_eq, hne, not_false_eq_true, decide_true, Bool.not_false, Bool.and_self,
        if_true, hext, hflag, if_false]
      refine useCandidate_twin hi2 hn' hmem (ht1.withBytes heq) ?_
      have hok := (hi1.core.pages _ _ hpage).ok
      refine owned_subset Set.subset_union_left fun x hx => ?_
      refine ⟨(owned_header (g := g) hx).trans Set.subset_union_left, fun a ha => ?_⟩
      -- The blocks this extension linked were written alike; the older ones were owned.
      by_cases hxf : x = found'
      · rw [hxf] at ha
        replace ha : a ∈ Function.update g.free found' (Page.extensionOf h1.bytes found' (g.bin found') ++
          g.free found') found' := ha
        rw [Function.update_self] at ha
        rcases List.mem_append.mp ha with hnew | hold
        · obtain ⟨i, hlo, hhi, rfl⟩ := Page.mem_extensionOf.mp hnew
          rw [← hcap] at hhi
          refine fun y hy => Or.inr ⟨i, hlo, hhi, ?_⟩
          rw [hok.blockStart, hok.blockSize]
          exact hy
        · exact (owned_link (g := g) hpage hold).trans Set.subset_union_left
      · replace ha : a ∈ Function.update g.free found' _ x := ha
        rw [Function.update_of_ne hxf] at ha
        exact (owned_link (g := g) hx ha).trans Set.subset_union_left

/-! ## Blocks -/

omit [Memory.Contract M] in
theorem Inv.head_owned (hi : Inv g h live) (hp : p = emptyPage ∨ IsPage g p) :
    Page.headerBytes p ⊆ g.owned ∧
      (h.field p .free ≠ 0 → Page.linkBytes (h.field p .free) ⊆ g.owned) := by
  rcases hp with rfl | hp
  · exact ⟨owned_sentinel g, fun h0 => absurd (hi.core.sentinel_get .free) h0⟩
  · refine ⟨owned_header hp, fun h0 => ?_⟩
    have hhead : h.field p .free = (g.free p).headD 0 := (hi.freeList hp).1
    rw [hhead] at h0 ⊢
    exact owned_link hp ((headD_mem _).resolve_left h0)

omit [Memory M] [Memory.Contract M] in
theorem Twin.popBlock (ht : Twin S h k) (hp : Page.headerBytes p ⊆ S)
    (hlink : h.field p .free ≠ 0 → Page.linkBytes (h.field p .free) ⊆ S) :
    SameAnswer (Twin S) (h.popBlock p) (k.popBlock p) := by
  obtain ⟨c, l, rfl, hb⟩ := ht
  obtain ⟨a, b', c', hs, hk, hb'⟩ := SameAnswer.split (R := fun b c => Set.EqOn b c S)
    (Page.pop_eqOn hb hp hlink)
  unfold Heap.popBlock
  dsimp only
  rw [hs, hk]
  cases a with
  | none => exact ⟨rfl, c', l, rfl, hb'⟩
  | some a => exact ⟨rfl, c', l, rfl, hb'⟩

omit [Memory.Contract M] in
/-- **A block off the free list.** -/
theorem popBlock_twin (hi : Inv g h live) (ht : Twin g.owned h k) (hp : p = emptyPage ∨ IsPage g p) :
    SameAnswer (Twin g.owned) (h.popBlock p) (k.popBlock p) :=
  ht.popBlock (hi.head_owned hp).1 (hi.head_owned hp).2

omit [Memory M] [Memory.Contract M] in
theorem Twin.clearBlock (ht : Twin S h k) (hp : Page.headerBytes p ⊆ S) (size : Nat) :
    Twin S (h.clearBlock p a size) (k.clearBlock p a size) := by
  unfold Heap.clearBlock
  rw [ht.field hp]
  split
  · exact ht.withBytes ((Page.eqOn_storeWord ht.bytes).mono Set.subset_union_left)
  · exact ht.withBytes ((eqOn_fill ht.bytes).mono Set.subset_union_left)

omit [Memory.Contract M] in
theorem takeBlock_twin (hi : Inv g h live) (ht : Twin g.owned h k) (hn : n ≤ maxBin)
    (hp : p ∈ g.queue n) (hfree : g.free p ≠ []) (hs : 1 ≤ layout.size)
    (hclass : classify layout = .bin n) (zero : Bool) :
    Blind (h.takeBlock p layout zero) (k.takeBlock p layout zero) := by
  have hpage : IsPage g p := (hi.core.member hp).1.isPage
  obtain ⟨a, g1, h1, h2, hpop, hh2, hh, fl, hfl, hg1⟩ := takeBlock_spec hi hn hp hfree hs hclass zero
  obtain ⟨a', s, t, hs1, hk1, ht1⟩ := (popBlock_twin hi ht (Or.inr hpage)).split
  rw [hpop] at hs1
  obtain ⟨rfl, rfl⟩ := Prod.mk.inj hs1
  have howned : g1.owned ⊆ g.owned := by
    rw [hg1]
    refine owned_mono (fun _ hx => hx) fun x _ d hd => ?_
    replace hd : d ∈ Function.update g.free p fl x := hd
    by_cases hx : x = p
    · rw [hx, Function.update_self] at hd
      rw [hx, hfl]
      exact List.mem_cons_of_mem a hd
    · rwa [Function.update_of_ne hx] at hd
  unfold Heap.takeBlock
  rw [hpop, hk1]
  refine Blind.of (S := g.owned) ⟨rfl, ?_⟩ (g := g1) (hh2 ▸ hh.inv) howned
  dsimp only
  cases zero with
  | false => exact ht1
  | true => exact ht1.clearBlock (owned_header hpage) _

/-! ## Requests -/

omit [Memory.Contract M] in
theorem Blind.none_answer (hi : Inv g h live) (ht : Twin g.owned h k) :
    Blind ((none : Option Nat), h) (none, k) :=
  Blind.of ⟨rfl, ht⟩ hi (Set.Subset.refl _)

/-- **A run.** -/
theorem allocHuge_twin (hi : Inv g h live) (hinit : h.initialized = true) (hs : 1 ≤ layout.size)
    (hclass : classify layout = .huge) (ht : Twin g.owned h k) (zero top : Bool) :
    Blind (h.allocHuge layout zero top) (k.allocHuge layout zero top) := by
  obtain ⟨e, he, halign, hdvd⟩ := hugeAlign layout
  have hspec := acquireRun_spec hi hinit (hugeSlices_pos layout) he top
  obtain ⟨run, h1, k1, hs1, hk1, ht1⟩ := ((hi.walk ht).acquireRun (hugeSlices layout) (2 ^ e) top).split
  unfold Heap.allocHuge
  simp only [halign]
  rw [hs1] at hspec ⊢
  rw [hk1]
  rcases hspec with ⟨run', h1', g1, hres, hcl⟩ | ⟨h1', g1, hres, hx⟩
  · obtain ⟨rfl, rfl⟩ := Prod.mk.inj hres
    have hinv := hcl.run hs hclass (hdvd _ hcl.aligned)
    have hpaint : (g1.paint (InRun run'.start (hugeSlices layout))
        (.run (run'.start * sliceSize))).owned ⊆ g.owned :=
      (owned_mono (fun p hp => (paint_keeps hcl.free (by simp) (by simp)).mp hp)
        fun _ _ _ ha => ha).trans hcl.evolves.owned
    have hclaimed : Twin g.owned
        { h1 with history := h1.history.claimed (run'.start * sliceSize) (hugeSlices layout) }
        { k1 with history := k1.history.claimed (run'.start * sliceSize) (hugeSlices layout) } := by
      obtain ⟨c, l, rfl, hb⟩ := ht1
      exact ⟨c, l, rfl, hb⟩
    dsimp only
    by_cases hz : (zero && !run'.zeroed) = true
    · rw [if_pos hz, if_pos hz]
      refine ⟨rfl, fun g' live' hi' => ?_⟩
      have hsame : g'.owned = _ := hinv.owned_same hi' rfl fun x p hx => ?_
      · rw [hsame]
        exact (hclaimed.withBytes ((eqOn_fill ht1.bytes).mono Set.subset_union_left)).mono hpaint
      · -- No page meets the run that is cleared.
        refine fill_out ?_
        by_contra hcon
        have hcov := huge_covers layout
        have hin : InRun run'.start (hugeSlices layout) (x / sliceSize) := inRun_div.mpr (by omega)
        rw [paint_in hin] at hx
        cases hx
    · rw [if_neg hz, if_neg hz]
      exact Blind.of ⟨rfl, hclaimed⟩ hinv hpaint
  · obtain ⟨rfl, rfl⟩ := Prod.mk.inj hres
    exact Blind.of ⟨rfl, ht1⟩ hx.inv hx.evolves.owned

theorem searchPage_twin (hi : Inv g h live) (hcov : h.initialized = false → CoversInitial h)
    (hn : 1 ≤ n) (hn' : n ≤ maxBin) (ht : Twin g.owned h k) :
    Blind (h.searchPage n) (k.searchPage n) := by
  obtain ⟨⟨g1, hi1, he1⟩, hinit1⟩ := ensureInit_inv hi hcov
  have ht1 : Twin g1.owned h.ensureInit k.ensureInit := ht.ensureInit.mono he1.owned
  unfold Heap.searchPage
  generalize h.ensureInit = h1 at *
  generalize k.ensureInit = k1 at *
  dsimp only
  rw [ht1.rest.2.2.2.2.2.2.2.2]
  have hcount : ∀ c : Nat, Inv g1 { h1 with genericCount := c } live ∧
      Twin g1.owned { h1 with genericCount := c } { k1 with genericCount := c } := fun c =>
    ⟨(hi1.bookkeeping h1.retiredMin h1.retiredMax c h1.collections).1, by
      obtain ⟨d, l, rfl, hb⟩ := ht1
      exact ⟨d, l, rfl, hb⟩⟩
  by_cases hc : genericCollectPeriod ≤ h1.genericCount + 1
  · rw [if_pos hc, if_pos hc]
    obtain ⟨g2, hi2, he2⟩ := collectRetired_inv (hcount 0).1
    exact findPage_twin hi2 (he2.init hinit1) hn hn' (collectRetired_twin (hcount 0).1 (hcount 0).2 hi2)
  · rw [if_neg hc, if_neg hc]
    exact findPage_twin (hcount _).1 hinit1 hn hn' (hcount _).2

/-- **The generic path.** -/
theorem allocGeneric_twin (hi : Inv g h live) (hcov : h.initialized = false → CoversInitial h)
    (hs : 1 ≤ layout.size) (ht : Twin g.owned h k) (zero : Bool) :
    Blind (h.allocGeneric layout zero) (k.allocGeneric layout zero) := by
  unfold Heap.allocGeneric
  cases hclass : classify layout with
  | huge =>
    obtain ⟨⟨g1, hi1, he1⟩, hinit1⟩ := ensureInit_inv hi hcov
    exact allocHuge_twin hi1 hinit1 hs hclass (ht.ensureInit.mono he1.owned) zero false
  | bin n =>
    have hbinned := classify_bin hs hclass
    have hlt := bin_lt hbinned.bin_lt
    have hqueues : k.queues = h.queues := ht.rest.2.2.2.2.1
    simp only [queueIndex_of_lt hlt, hqueues]
    have hsame : (h.queues n).first ≠ 0 →
        Page.hasFree k.bytes (h.queues n).first = Page.hasFree h.bytes (h.queues n).first := by
      intro hne
      have hmem := (first_mem hi hlt).resolve_left (by rw [queueIndex_of_lt hlt]; exact hne)
      rw [queueIndex_of_lt hlt] at hmem
      exact (Page.asks_eqOn ht.bytes (owned_header (hi.core.member hmem).1.isPage)).1
    by_cases hhead : directMaxBin < n ∧ (h.queues n).first ≠ 0 ∧
        Page.hasFree h.bytes (h.queues n).first = true
    · obtain ⟨hdirect, hne, hfree⟩ := hhead
      rw [if_pos ⟨hdirect, hne, hfree⟩, if_pos ⟨hdirect, hne, (hsame hne).trans hfree⟩]
      have hmem := (first_mem hi hlt).resolve_left (by rw [queueIndex_of_lt hlt]; exact hne)
      rw [queueIndex_of_lt hlt] at hmem
      obtain ⟨hin, -⟩ := hi.core.member hmem
      exact takeBlock_twin hi ht hbinned.bin_lt hmem (hin.ok.hasFree_iff.mp hfree) hs hclass zero
    · rw [if_neg hhead, if_neg fun e => hhead ⟨e.1, e.2.1, (hsame e.2.1).symm.trans e.2.2⟩]
      obtain ⟨hanswer, hblind⟩ := searchPage_twin hi hcov hbinned.bin_pos hbinned.bin_lt ht
      generalize k.searchPage n = r at *
      obtain ⟨found, k1⟩ := r
      rcases searchPage_spec hi hcov hbinned.bin_pos hbinned.bin_lt with
        ⟨p, h1, g1, hres, hf⟩ | ⟨h1, g1, hres, hx, -⟩
      · rw [hres] at hanswer hblind ⊢
        obtain rfl : found = some p := hanswer
        exact takeBlock_twin hf.inv (hblind _ _ hf.inv) hbinned.bin_lt hf.queued hf.free hs hclass zero
      · rw [hres] at hanswer hblind ⊢
        obtain rfl : found = none := hanswer
        exact Blind.none_answer hx.exhausted.inv (hblind _ _ hx.exhausted.inv)

omit [Memory.Contract M] in
theorem Inv.direct_page (hi : Inv g h live) {i : Nat} (hlt : i < directEntries) :
    h.direct i = emptyPage ∨ IsPage g (h.direct i) := by
  rw [hi.core.queues.direct_eq _ hlt]
  cases hq : g.queue (bin (i * word)) with
  | nil => exact Or.inl rfl
  | cons p l =>
    refine Or.inr (hi.core.queues.member (bin (i * word)) p ?_).page
    rw [hq]
    exact List.mem_cons_self

omit [Memory.Contract M] in
theorem direct_twin (hi : Inv g h live) (hs : 1 ≤ layout.size)
    (hsmall : directSize layout ≤ directMaxSize) (hp : h.direct (directIndex (directSize layout)) = p)
    (ht : Twin g.owned h k) (zero : Bool) :
    (∃ k1, h.popBlock p = (none, h) ∧ k.popBlock p = (none, k1) ∧ Twin g.owned h k1) ∨
    (∃ a h1 k1, h.popBlock p = (some a, h1) ∧ k.popBlock p = (some a, k1) ∧
      Blind (h.takeBlock p layout zero) (k.takeBlock p layout zero)) := by
  obtain ⟨-, hidx, -, -⟩ := classify_direct hs hsmall
  obtain ⟨a, h1, k1, hh1, hk1, ht1⟩ := (popBlock_twin hi ht (hi.direct_page hidx)).split
  have hpop := direct_pop hi hs hsmall
  rw [hp] at hh1 hk1 hpop
  rcases hpop with hnone | ⟨n, hclass, hn, hmem, hfree⟩
  · rw [hnone] at hh1
    obtain ⟨rfl, rfl⟩ := Prod.mk.inj hh1
    exact Or.inl ⟨k1, hnone, hk1, ht1⟩
  · obtain ⟨a', -, h2, -, hsome, -⟩ := takeBlock_spec hi hn hmem hfree hs hclass zero
    rw [hsome] at hh1
    obtain ⟨rfl, rfl⟩ := Prod.mk.inj hh1
    exact Or.inr ⟨a', h2, k1, hsome, hk1, takeBlock_twin hi ht hn hmem hfree hs hclass zero⟩

/-- **`alloc`** reads only what the allocator owns. -/
theorem alloc_twin (hi : Inv g h live) (hcov : h.initialized = false → CoversInitial h)
    (hs : 1 ≤ layout.size) (ht : Twin g.owned h k) : Blind (h.alloc layout) (k.alloc layout) := by
  unfold Heap.alloc
  simp only [ht.rest.2.2.2.1]
  by_cases hsmall : directSize layout ≤ directMaxSize
  swap
  · rw [if_neg hsmall, if_neg hsmall]
    exact allocGeneric_twin hi hcov hs ht false
  rw [if_pos hsmall, if_pos hsmall]
  rcases direct_twin hi hs hsmall rfl ht false with ⟨k1, hh, hk, ht1⟩ | ⟨a, h1, k1, hh, hk, htake⟩
  · rw [hh, hk]
    exact allocGeneric_twin hi hcov hs ht1 false
  · unfold Heap.takeBlock at htake
    rw [hh, hk] at htake ⊢
    exact htake

/-- **`alloc_zeroed`** too. -/
theorem allocZeroed_twin (hi : Inv g h live) (hcov : h.initialized = false → CoversInitial h)
    (hs : 1 ≤ layout.size) (ht : Twin g.owned h k) :
    Blind (h.allocZeroed layout) (k.allocZeroed layout) := by
  unfold Heap.allocZeroed
  simp only [ht.rest.2.2.2.1]
  by_cases hsmall : directSize layout ≤ directMaxSize
  swap
  · rw [if_neg hsmall, if_neg hsmall]
    exact allocGeneric_twin hi hcov hs ht true
  rw [if_pos hsmall, if_pos hsmall]
  rcases direct_twin hi hs hsmall rfl ht true with ⟨k1, hh, hk, ht1⟩ | ⟨a, h1, k1, hh, hk, htake⟩
  · rw [hh, hk]
    exact allocGeneric_twin hi hcov hs ht1 true
  · unfold Heap.takeBlock at htake
    rw [hh, hk] at htake ⊢
    exact htake

/-! ## Freeing -/

omit [Memory M] [Memory.Contract M] in
theorem Twin.pushBlock (ht : Twin S h k) (hp : Page.headerBytes p ⊆ S) :
    Twin (S ∪ Page.linkBytes a) (h.pushBlock p a) (k.pushBlock p a) := by
  have hpush := ht.withBytes (Page.push_eqOn (a := a) ht.bytes hp)
  have hp' : Page.headerBytes p ⊆ S ∪ Page.linkBytes a := hp.trans Set.subset_union_left
  unfold Heap.pushBlock Heap.deallocTransition
  generalize ({ h with bytes := Page.push h.bytes p a } : Heap M) = h1 at *
  generalize ({ k with bytes := Page.push k.bytes p a } : Heap M) = k1 at *
  obtain ⟨-, -, -, -, hflag, -, hneeds⟩ := Page.asks_eqOn hpush.bytes hp'
  dsimp only
  rw [hflag, hneeds]
  have hunfull : Twin (S ∪ Page.linkBytes a)
      (if Page.inFullQueue h1.bytes p = true then h1.unfull p else h1)
      (if Page.inFullQueue h1.bytes p = true then k1.unfull p else k1) := by
    split
    · exact hpush.unfull hp'
    · exact hpush
  generalize (if Page.inFullQueue h1.bytes p = true then h1.unfull p else h1) = h2 at *
  generalize (if Page.inFullQueue h1.bytes p = true then k1.unfull p else k1) = k2 at *
  rw [(Page.asks_eqOn hunfull.bytes hp').2.2.1]
  by_cases hn : needsTransition h1.bytes p = true
  · rw [if_pos hn, if_pos hn]
    split
    · exact hunfull.retire hp'
    · exact hunfull
  · rw [if_neg hn, if_neg hn]
    exact hpush

omit [Memory.Contract M] in
/-- **A block back on its page.** -/
theorem pushBlock_twin (hi : Inv g h (blk :: live)) (hclass : classify blk.layout = .bin n)
    (ht : Twin g.owned h k)
    (hi' : Inv g' (h.pushBlock (Page.headerOf (kindOfBin n) blk.addr) blk.addr) live) :
    Twin g'.owned (h.pushBlock (Page.headerOf (kindOfBin n) blk.addr) blk.addr)
      (k.pushBlock (Page.headerOf (kindOfBin n) blk.addr) blk.addr) := by
  have hpage := ((hi.core.blocks.block blk List.mem_cons_self).in_page hi.core.pages
    List.mem_cons_self hclass).1.isPage
  obtain ⟨g1, h1, hi1, -, hback, hlists, hres⟩ := pushBlock_putBack hi hclass
  have htwin := ht.pushBlock (a := blk.addr) (owned_header hpage)
  generalize Page.headerOf (kindOfBin n) blk.addr = p at *
  have hown : g1.owned ⊆ g.owned ∪ Page.linkBytes blk.addr := by
    refine owned_subset Set.subset_union_left fun x hx => ?_
    have hx' : IsPage g x := by
      unfold IsPage at hx ⊢
      rwa [hback.place] at hx
    refine ⟨(owned_header hx').trans Set.subset_union_left, fun b hb => ?_⟩
    rw [hlists] at hb
    by_cases hxp : x = p
    · rw [hxp, Function.update_self] at hb
      rcases List.mem_cons.mp hb with rfl | hb
      · exact Set.subset_union_right
      · exact (owned_link hpage hb).trans Set.subset_union_left
    · rw [Function.update_of_ne hxp] at hb
      exact (owned_link hx' hb).trans Set.subset_union_left
  rcases hres with ⟨hdef, hfree⟩ | ⟨hdef, -⟩
  · have hmem := hback.mem
    rw [← hback.bin] at hmem
    obtain ⟨g2, hi2, he2⟩ := retire_inv hi1 hmem ((allFree_iff (hi1.core.member hmem).1).mp hfree)
    rw [← hdef] at hi2
    exact (htwin.mono (he2.owned.trans hown)).recount hi2 hi'
  · rw [← hdef] at hi1
    exact (htwin.mono hown).recount hi1 hi'

omit [Memory.Contract M] in
/-- **`dealloc`.** -/
theorem dealloc_twin (hi : Inv g h (blk :: live)) (ht : Twin g.owned h k)
    (hi' : Inv g' (h.dealloc blk.addr blk.layout) live) :
    Twin g'.owned (h.dealloc blk.addr blk.layout) (k.dealloc blk.addr blk.layout) := by
  have hs := (hi.core.blocks.block blk List.mem_cons_self).size_pos
  cases hclass : classify blk.layout with
  | bin n =>
    have heq : ∀ h : Heap M, h.dealloc blk.addr blk.layout =
        h.pushBlock (Page.headerOf (kindOfBin n) blk.addr) blk.addr := fun h => by
      rw [dealloc_eq h blk.addr hs, Heap.deallocGeneric, hclass]
    rw [heq] at hi' ⊢
    rw [heq]
    exact pushBlock_twin hi hclass ht hi'
  | huge =>
    have heq : ∀ h : Heap M, h.dealloc blk.addr blk.layout =
        { h with slices := h.slices.freeRun (blk.addr / sliceSize) (hugeSlices blk.layout) } :=
      fun h => by rw [dealloc_eq h blk.addr hs, Heap.deallocGeneric, hclass]
    rw [heq] at hi' ⊢
    rw [heq]
    have hown : g'.owned = g.owned := hi.owned_same hi' rfl fun _ _ _ => rfl
    rw [hown, ht.rest.2.1]
    exact ht.withSlices _

/-! ## Resizing -/

section Grow
variable {P : Set Nat} {oldN newN : Nat}

omit [Memory.Contract M] in
theorem Walk.growRun (w : Walk P S h k) (start : Nat) :
    SameAnswer (Twin S) (h.growRun a start oldN newN) (k.growRun a start oldN newN) := by
  have hr := w.releaseEmptyPages
  unfold Heap.growRun
  generalize h.releaseEmptyPages = h1 at *
  generalize k.releaseEmptyPages = k1 at *
  dsimp only
  rw [hr.rest.2.2.1]
  obtain ⟨zeroed, s, t, hs, hk, ha⟩ :=
    (Supply.extendWithGrowth_twin h1.policy hr.supply start oldN (newN - oldN)).split
  rw [hs, hk]
  obtain ⟨c, l, heq, hb⟩ := hr.withSupply ha
  cases zeroed with
  | some z =>
    dsimp only
    rw [heq]
    exact ⟨rfl, c, l, rfl, hb⟩
  | none => exact ⟨rfl, c, l, heq, hb⟩

omit [Memory.Contract M] in
/-- **The in-place roads** look at layouts and slices only. -/
theorem Walk.resizeInPlace (a : Nat) (layout newLayout : Layout) (w : Walk P S h k) :
    SameAnswer (Twin S) (h.resizeInPlace a layout newLayout) (k.resizeInPlace a layout newLayout) := by
  have hslices : k.slices = h.slices := w.twin.rest.2.1
  have hset : ∀ m n, Twin S { h with slices := m, history := h.history.claimed a n }
      { k with slices := m, history := k.history.claimed a n } := by
    obtain ⟨c, l, rfl, hb⟩ := w.twin
    exact fun m n => ⟨c, l, rfl, hb⟩
  rcases hold : classify layout with old | - <;> rcases hnew : classify newLayout with new | -
  iterate 3
    rw [Heap.resizeInPlace, Heap.resizeInPlace, hold, hnew]
    exact ⟨rfl, w.twin⟩
  obtain ⟨newN, hnewN⟩ : ∃ n, hugeSlices newLayout = n := ⟨_, rfl⟩
  obtain ⟨oldN, holdN⟩ : ∃ n, hugeSlices layout = n := ⟨_, rfl⟩
  rw [resizeInPlace_huge hold hnew holdN hnewN, resizeInPlace_huge hold hnew holdN hnewN, hslices]
  split_ifs
  · exact ⟨rfl, w.twin⟩
  · exact ⟨rfl, hset _ _⟩
  rcases h.slices.tryExtend (a / sliceSize) oldN (newN - oldN) with ⟨z | z, m⟩
  · dsimp only
    exact (w.withSlices m).growRun _
  · exact ⟨rfl, hset _ _⟩

theorem resizeInPlace_owned (hi : Inv g h (⟨a, layout⟩ :: live))
    (hi' : Inv g' (h.resizeInPlace a layout newLayout).2 live') : g'.owned ⊆ g.owned := by
  rcases resizeInPlace_shape newLayout hi with ⟨m, hist, hres⟩ | ⟨hold, extra, hist, hres⟩
  · rw [hres] at hi'
    exact (hi.owned_same hi' rfl fun _ _ _ => rfl).subset
  · rw [hres] at hi'
    obtain ⟨g2, hi2, he2, -⟩ := releaseEmptyPages_inv hi
    generalize h.releaseEmptyPages = h2 at *
    obtain ⟨-, hrun, -, -⟩ := front_run hi2 hold
    simp only at hrun
    have hinside := hi2.core.slices.inside_run (hugeSlices_pos layout) fun i hi' => by
      rw [(hrun i).mpr hi']
      simp
    obtain ⟨s1, N, m, hgrown, hs1, -⟩ : h2.supply.Extended (a / sliceSize) (hugeSlices layout) extra
        (h2.supply.extendWithGrowth h2.policy (a / sliceSize) (hugeSlices layout) extra) :=
      Supply.extendWithGrowth_spec h2.policy hi2.core.slices.inv hi2.core.slices.base_le hinside
    rw [hs1] at hi'
    have hsame : SameBytes g2 h2.bytes s1.bytes := fun x p hx =>
      hgrown.bytes x (hi2.core.slices.lt _ (by rw [hx]; simp))
    exact (hi2.owned_same hi' rfl hsame).subset.trans he2.owned

theorem resizeInPlace_twin (newLayout : Layout) (hi : Inv g h (⟨a, layout⟩ :: live)) (ht : Twin g.owned h k) :
    Blind (h.resizeInPlace a layout newLayout) (k.resizeInPlace a layout newLayout) := by
  obtain ⟨hanswer, htwin⟩ := (hi.walk ht).resizeInPlace a layout newLayout
  exact ⟨hanswer, fun g' live' hi' => htwin.mono (resizeInPlace_owned hi hi')⟩

end Grow

/-- **Moving**: the copy writes what the program owns, and is not read again. -/
theorem moveBlock_twin (hi : Inv g h (⟨a, layout⟩ :: live)) (hs : 1 ≤ newLayout.size)
    (ht : Twin g.owned h k) :
    Blind (h.moveBlock a layout newLayout) (k.moveBlock a layout newLayout) := by
  have hinit := hi.initialized List.mem_cons_self
  have hcov : h.initialized = false → CoversInitial h := fun h0 =>
    absurd (hinit.symm.trans h0) (by decide)
  obtain ⟨hans, hanswer, hblind⟩ :
      Answered (⟨a, layout⟩ :: live) g h newLayout false (h.moveTarget newLayout) ∧
        Blind (h.moveTarget newLayout) (k.moveTarget newLayout) := by
    unfold Heap.moveTarget
    cases hnew : classify newLayout with
    | huge => exact ⟨allocHuge_answered hi hinit hs hnew false true,
        allocHuge_twin hi hinit hs hnew ht false true⟩
    | bin n => exact ⟨alloc_answered hi hcov hs, alloc_twin hi hcov hs ht⟩
  rw [moveBlock_eq, moveBlock_eq]
  generalize k.moveTarget newLayout = r at *
  obtain ⟨target, k1⟩ := r
  rcases hans with ⟨q, h1, g1, hres, hh⟩ | ⟨h1, g1, hres, hno⟩
  · rw [hres] at hanswer hblind ⊢
    obtain rfl : target = some q := hanswer
    have hcopy := hh.copyOver
    have hi1 := hcopy.inv.perm (List.Perm.swap _ _ _)
    have htwin : Twin g1.owned
        { h1 with bytes := copy h1.bytes a q (min layout.size newLayout.size) }
        { k1 with bytes := copy k1.bytes a q (min layout.size newLayout.size) } := by
      have h1twin : Twin g1.owned h1 k1 := hblind _ _ hh.inv
      refine (h1twin.withBytes (eqOn_copy h1twin.bytes)).mono fun x hx => ⟨hx, fun hin => ?_⟩
      have hsize := size_le_span hh.inv.core.pages hh.inv.core.blocks List.mem_cons_self
      simp only at hsize
      refine hh.inv.core.owned_apart hx List.mem_cons_self ⟨hin.1, ?_⟩
      have := hin.2
      show x < q + span g1 ⟨q, newLayout⟩
      omega
    exact ⟨rfl, fun g' live' hi' => by
      obtain ⟨g2, hi2, -⟩ := dealloc_spec hi1
      exact (dealloc_twin hi1 htwin hi2).recount hi2 hi'⟩
  · rw [hres] at hanswer hblind ⊢
    obtain rfl : target = none := hanswer
    exact Blind.none_answer hno.inv (hblind _ _ hno.inv)

/-- **`realloc`.** -/
theorem realloc_twin (hi : Inv g h (⟨a, layout⟩ :: live)) {newSize : Nat} (hs : 1 ≤ newSize)
    (fits : newSize + layout.align ≤ usizeSize / 2) (ht : Twin g.owned h k) :
    Blind (h.realloc a layout newSize fits) (k.realloc a layout newSize fits) := by
  have hs' : 1 ≤ (layout.withSize newSize fits).size := hs
  unfold Heap.realloc
  split
  · exact ⟨rfl, fun g' live' hi' => ht.recount hi hi'⟩
  · dsimp only
    obtain ⟨hanswer, hblind⟩ := resizeInPlace_twin (layout.withSize newSize fits) hi ht
    have hres := resizeInPlace_resized hi hs' rfl
    generalize h.resizeInPlace a layout (layout.withSize newSize fits) = r at *
    generalize k.resizeInPlace a layout (layout.withSize newSize fits) = r' at *
    obtain ⟨answer, h1⟩ := r
    obtain ⟨answer', k1⟩ := r'
    obtain rfl : answer' = answer := hanswer
    rcases hres with ⟨q, h2, g2, hr, hresize⟩ | ⟨h2, g2, hr, hi2, he2⟩
    · obtain ⟨rfl, rfl⟩ := Prod.mk.inj hr
      exact ⟨rfl, hblind⟩
    · obtain ⟨rfl, rfl⟩ := Prod.mk.inj hr
      exact moveBlock_twin hi2 hs' (hblind _ _ hi2)

end Owned

end Wasmalloc
