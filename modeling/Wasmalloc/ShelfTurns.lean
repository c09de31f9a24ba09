import Wasmalloc.HeapShelves

/- A call, as a turn of the shelves.

   A request hands out a block of a page that was at hand or found, and nothing else
   happens to the shelves but moves (`alloc_serving`). A free returns its block to the page,
   which stays, is retired or is released (`dealloc_turn`). Stores into live blocks, runs
   and growth leave the shelves alone. -/
namespace Wasmalloc
open ByteMem

variable [Build] {M : Type} [Memory M] {live live' : List Block} {g g' : Ghost} {h h' h1 : Heap M}
  {p n : Nat} {blk : Block} {layout newLayout : Layout}

theorem Inv.shelves_eq (hi : Inv g h live) (hi' : Inv g' h live') : hi'.shelves = hi.shelves := by
  have hqueue : g'.queue = g.queue :=
    hi.core.queues.queue_eq hi'.core.queues rfl fun _ _ _ => ⟨rfl, rfl⟩
  simp only [Inv.shelves, hqueue]

/-- Whatever is live afterwards, the call served. -/
def Serving {g : Ghost} {h : Heap M} {live : List Block} (hi : Inv g h live) (h' : Heap M) : Prop :=
  ∀ (g' : Ghost) (live' : List Block) (hi' : Inv g' h' live'), Shelves.Serves hi.shelves hi'.shelves

theorem Reaches.serving {hi : Inv g h live} (hr : Reaches live hi h') : Serving hi h' := fun _ _ hi' =>
  .moves (hr.moves hi')

theorem Serving.after {g1 : Ghost} {hi : Inv g h live} {hi1 : Inv g1 h1 live'}
    (hm : Shelves.Moves hi.shelves hi1.shelves) (hs : Serving hi1 h') : Serving hi h' := fun _ _ hi' =>
  (hs _ _ hi').after hm

omit [Memory M] in
theorem Frames.refl : Frames g h h := ⟨rfl, fun _ _ _ _ => rfl, rfl, rfl, rfl⟩

omit [Memory M] in
theorem Frames.trans {g1 : Ghost} {h2 : Heap M} (hq : g1.queue = g.queue) (hf : Frames g h h1)
    (hf' : Frames g1 h1 h2) : Frames g h h2 where
  queues := hf'.queues.trans hf.queues
  header := fun q p hp f => (hf'.header q p (hq ▸ hp) f).trans (hf.header q p hp f)
  lo := hf'.lo.trans hf.lo
  hi := hf'.hi.trans hf.hi
  collections := hf'.collections.trans hf.collections

/-! ## Blocks -/

/-- A step on one page that leaves the links alone changes the card of that page. -/
structure Deals (g : Ghost) (h h' : Heap M) (p : Nat) : Prop where
  queues : h'.queues = h.queues
  others : ∀ q, ∀ x ∈ g.queue q, x ≠ p → ∀ f, Page.get h'.bytes x f = Page.get h.bytes x f
  owned : ∀ f : Page.Field, f.heapOwned = true → Page.get h'.bytes p f = Page.get h.bytes p f
  capacity : Page.get h'.bytes p .capacity = Page.get h.bytes p .capacity
  lo : h'.retiredMin = h.retiredMin
  hi : h'.retiredMax = h.retiredMax
  collections : h'.collections = h.collections

theorem Deals.queue_eq (hd : Deals g h h' p) (hc : Core g h live) (hc' : Core g' h' live') :
    g'.queue = g.queue := by
  refine hc.queues.queue_eq hc'.queues hd.queues fun q x hx => ?_
  by_cases hxp : x = p
  · rw [hxp]
    exact ⟨hd.owned _ rfl, hd.owned _ rfl⟩
  · exact ⟨hd.others q x hx hxp _, hd.others q x hx hxp _⟩

omit [Memory M] in
theorem Deals.card (hd : Deals g h h' p) {q x : Nat} (hx : x ∈ g.queue q) (hne : x ≠ p) :
    h'.card x = h.card x :=
  card_of (hd.others q x hx hne _) (hd.others q x hx hne _) (hd.others q x hx hne _)

omit [Memory M] in
/-- Outside the slices of page `p` nothing changed. -/
theorem others_of_outside {b c : Bytes} (hp : PagesOk g b live)
    (hout : ∀ x, g.place (x / sliceSize) ≠ .page p → c x = b x) {x : Nat} (hx : IsPage g x)
    (hne : x ≠ p) (f : Page.Field) : Page.get c x f = Page.get b x f := by
  refine Page.get_congr fun y hlo hhi => hout y ?_
  rw [(hp _ _ hx).header hlo hhi]
  exact fun e => hne (Place.page.inj e)

/-- **Popping a block** of a page in a bin. -/
theorem popBlock_pops (hi : Inv g h live) (hn : n ≤ maxBin) (hp : p ∈ g.queue n)
    (hfree : g.free p ≠ []) (hs : 1 ≤ layout.size) (hclass : classify layout = .bin n) :
    ∃ a g1 h1, h.popBlock p = (some a, h1) ∧ ∃ hi1 : Inv g1 h1 (⟨a, layout⟩ :: live),
      Shelves.Pops hi.shelves hi1.shelves n p := by
  obtain ⟨a, g1, h1, hres, hh, -⟩ := popBlock_spec hi hn hp hfree hs hclass
  obtain ⟨hin, -⟩ := hi.core.member hp
  obtain ⟨b, fl, hfl⟩ := List.exists_cons_of_ne_nil hfree
  have hok := hin.ok
  rw [hfl] at hok
  obtain ⟨hpop, hok'⟩ := Page.pop_spec hok
  have hdef := hres
  unfold Heap.popBlock at hdef
  rw [hpop] at hdef
  obtain ⟨-, rfl⟩ := Prod.mk.inj hdef
  have hdeals : Deals g h { h with
      bytes := Page.popped h.bytes p (fl.headD 0), history := h.history.popped b p } p := by
    refine { queues := rfl, others := fun q x hx hne f => ?_, owned := fun f hf => ?_,
             capacity := Page.get_popped (by decide) (by decide), lo := rfl, hi := rfl,
             collections := rfl }
    · refine others_of_outside hi.core.pages (fun y hy => Page.popped_out ?_)
        (hi.core.queues.member q x hx).page hne f
      by_contra hcon
      exact hy (hin.header (by omega) (by omega))
    · exact Page.get_popped (Page.Field.heapOwned_ne hf rfl) (Page.Field.heapOwned_ne hf rfl)
  have hq := hdeals.queue_eq hi.core hh.inv.core
  refine ⟨a, g1, _, hres, hh.inv, ?_⟩
  refine { bin := hn, mem := hp, queue := fun r _ => congrFun hq r, card := fun r _ x hx hne => ?_,
           used := hok'.used.trans (congrArg (· + 1) hok.used.symm), capacity := le_of_eq hdeals.capacity.symm, expire := hdeals.owned _ rfl,
           range := ⟨hdeals.lo, hdeals.hi, hdeals.collections⟩ }
  have hx : x ∈ g1.queue r := hx
  rw [hq] at hx
  refine (congrArg (Card.Same _) (hdeals.card hx hne).symm).mp ?_
  exact ⟨rfl, Nat.le_refl _, rfl⟩

theorem Inv.write_frames {c : Bytes} (hi : Inv g h live) (hw : WritesSpans g live h.bytes c) :
    Frames g h { h with bytes := c } where
  queues := rfl
  header := fun q p hp f => hw.header hi.core.pages hi.core.blocks (hi.core.queues.member q p hp).page f
  lo := rfl
  hi := rfl
  collections := rfl

theorem clearBlock_frames {a : Nat} (hi : Inv g h (⟨a, layout⟩ :: live)) (hclass : classify layout = .bin n)
    (p : Nat) : Frames g h (h.clearBlock p a layout.size) := by
  have hmem : (⟨a, layout⟩ : Block) ∈ (⟨a, layout⟩ :: live : List Block) := List.mem_cons_self
  obtain ⟨hin, -, hsize, -⟩ := (hi.core.blocks.block _ hmem).in_page hi.core.pages hmem hclass
  have hfit : max layout.size usizeBytes ≤ span g ⟨a, layout⟩ := by
    rw [span_bin hclass]
    exact max_le hsize hin.ok.word_le_size
  obtain ⟨c, hc, hout, -⟩ := clearBlock_bytes h p a layout.size
  rw [hc]
  refine hi.write_frames fun x => (hout x).imp_right fun hx => ⟨_, hmem, hx.1, ?_⟩
  exact lt_of_lt_of_le hx.2 (Nat.add_le_add_left hfit a)

/-- A block of page `p` was handed out, and nothing else happened. -/
def Deal {g : Ghost} {h : Heap M} {live : List Block} (hi : Inv g h live) (n p : Nat)
    (r : Option Nat × Heap M) : Prop :=
  ∃ a h' m, r = (some a, h') ∧ Shelves.Pops hi.shelves m n p ∧
    ∀ (g' : Ghost) (live' : List Block) (hi' : Inv g' h' live'), Shelves.Moves m hi'.shelves

/-- **Taking a block** of a page that has a free one. -/
theorem takeBlock_deal (hi : Inv g h live) (hn : n ≤ maxBin) (hp : p ∈ g.queue n)
    (hfree : g.free p ≠ []) (hs : 1 ≤ layout.size) (hclass : classify layout = .bin n) (zero : Bool) :
    Deal hi n p (h.takeBlock p layout zero) := by
  obtain ⟨a, g1, h1, hpop, hi1, hpops⟩ := popBlock_pops hi hn hp hfree hs hclass
  unfold Heap.takeBlock
  rw [hpop]
  cases zero with
  | false => exact ⟨a, h1, hi1.shelves, rfl, hpops, fun _ _ hi' => Frames.refl.moves hi1 hi'⟩
  | true =>
    exact ⟨a, _, hi1.shelves, rfl, hpops, fun _ _ hi' => (clearBlock_frames hi1 hclass p).moves hi1 hi'⟩

theorem Deal.serving {hi : Inv g h live} {r : Option Nat × Heap M} (hd : Deal hi n p r) :
    Serving hi r.2 := by
  obtain ⟨a, h', m, rfl, hpops, hmoves⟩ := hd
  exact fun _ _ hi' => .pops n p _ m Relation.ReflTransGen.refl hpops (hmoves _ _ hi')

theorem Discovers.serving {hi : Inv g h live} {r : Option Nat × Heap M} {g1 : Ghost}
    (hd : Discovers live hi g1 h1 n p) (hdeal : ∀ hi1 : Inv g1 h1 live, Deal hi1 n p r) :
    Serving hi r.2 := by
  obtain ⟨g2, h2, hi2, hi1, hmoves, hfinds, -⟩ := hd
  obtain ⟨a, h', m, rfl, hpops, hafter⟩ := hdeal hi1
  exact fun _ _ hi' => .finds n p _ _ m hmoves hfinds hpops (hafter _ _ hi')

variable [Memory.Contract M]

/-! ## Requests -/

omit [Memory.Contract M] in
theorem ensureInit_frames (g : Ghost) (h : Heap M) : Frames g h h.ensureInit := by
  unfold Heap.ensureInit
  split
  · exact Frames.refl
  · dsimp only
    split <;> exact ⟨rfl, fun _ _ _ _ => rfl, rfl, rfl, rfl⟩

/-- What the search does before `findPage` only ages pages. -/
theorem readied_moves (hi : Inv g h live) (hcov : h.initialized = false → CoversInitial h)
    (hi' : Inv g' h.readied live) : Shelves.Moves hi.shelves hi'.shelves := by
  obtain ⟨⟨g1, hi1, -⟩, -⟩ := ensureInit_inv hi hcov
  have hm1 := (ensureInit_frames g h).moves hi hi1
  revert hi'
  unfold Heap.readied
  by_cases hperiod : genericCollectPeriod ≤ h.ensureInit.genericCount + 1
  · obtain ⟨hi2, -⟩ := hi1.bookkeeping h.ensureInit.retiredMin h.ensureInit.retiredMax 0
      h.ensureInit.collections
    have hframes : Frames g1 h.ensureInit { h.ensureInit with genericCount := 0 } :=
      ⟨rfl, fun _ _ _ _ => rfl, rfl, rfl, rfl⟩
    simp only [if_pos hperiod]
    intro hi'
    exact (hm1.trans (hframes.moves hi1 hi2)).tail (.ages (collectRetired_ages hi2 hi'))
  · have hframes : Frames g1 h.ensureInit { h.ensureInit with
        genericCount := h.ensureInit.genericCount + 1 } := ⟨rfl, fun _ _ _ _ => rfl, rfl, rfl, rfl⟩
    simp only [if_neg hperiod]
    intro hi'
    exact hm1.trans (hframes.moves hi1 hi')

/-- **The counted page search.** -/
theorem searchPage_discovers (hi : Inv g h live) (hcov : h.initialized = false → CoversInitial h)
    (hn : 1 ≤ n) (hn' : n ≤ maxBin) :
    (∃ p h' g', h.searchPage n = (some p, h') ∧ Discovers live hi g' h' n p) ∨
    (∃ h', h.searchPage n = (none, h') ∧ Reaches live hi h') := by
  obtain ⟨⟨g1, hi1, -⟩, hinit1⟩ := readied_inv hi hcov
  have hm1 := readied_moves hi hcov hi1
  rw [searchPage_eq]
  rcases findPage_discovers hi1 hinit1 hn hn' with ⟨p, h2, g2, hr, hd⟩ | ⟨h2, hr, g3, h3, hi3, hm3, hf3⟩
  · exact Or.inl ⟨p, h2, g2, hr, hd.after hm1⟩
  · exact Or.inr ⟨h2, hr, g3, h3, hi3, hm1.trans hm3, hf3⟩

omit [Memory.Contract M] in
theorem Serving.refl (hi : Inv g h live) : Serving hi h := (Reaches.refl hi Frames.refl).serving

theorem searched_serving (hi : Inv g h live) (hcov : h.initialized = false → CoversInitial h)
    (hs : 1 ≤ layout.size) (hclass : classify layout = .bin n) (zero : Bool) :
    Serving hi (match h.searchPage n with
      | (none, h) => (none, h)
      | (some page, h) => h.takeBlock page layout zero).2 := by
  have hbinned := classify_bin hs hclass
  rcases searchPage_discovers hi hcov hbinned.bin_pos hbinned.bin_lt with
    ⟨p, h1, g1, hres, hd⟩ | ⟨h1, hres, hr⟩
  · rw [hres]
    obtain ⟨-, -, -, -, -, -, hmem, hfree⟩ := id hd
    exact hd.serving fun hi1 => takeBlock_deal hi1 hbinned.bin_lt hmem hfree hs hclass zero
  · rw [hres]
    exact hr.serving

/-- **A run** leaves the queues alone, but for what is released for it. -/
theorem allocHuge_reaches (hi : Inv g h live) (hinit : h.initialized = true) (zero top : Bool) :
    Reaches live hi (h.allocHuge layout zero top).2 := by
  obtain ⟨k, hk, halign, -⟩ := hugeAlign layout
  have hreach := acquireRun_reaches hi hinit (hugeSlices_pos layout) hk top
  unfold Heap.allocHuge
  simp only [halign]
  rcases acquireRun_spec hi hinit (hugeSlices_pos layout) hk top with
    ⟨run, h1, g1, hres, hcl⟩ | ⟨h1, g1, hres, -⟩
  swap
  · rw [hres] at hreach ⊢
    exact hreach
  rw [hres] at hreach ⊢
  obtain ⟨g2, h2, hi2, hmoves, hframes⟩ := hreach
  have hqueue : (g1.paint (InRun run.start (hugeSlices layout)) .claimed).queue = g2.queue :=
    hi2.core.queues.queue_eq hcl.core.queues hframes.queues fun q x hx =>
      ⟨hframes.header q x hx _, hframes.header q x hx _⟩
  refine ⟨g2, h2, hi2, hmoves, hframes.trans hqueue ?_⟩
  dsimp only
  split
  swap
  · exact ⟨rfl, fun _ _ _ _ => rfl, rfl, rfl, rfl⟩
  -- The bytes cleared are in the run, and no header is.
  refine ⟨rfl, fun q x hx f => Page.get_congr fun y hlo hhi => fill_out ?_, rfl, rfl, rfl⟩
  by_contra hcon
  have hplace := (hcl.core.member hx).1.header hlo hhi
  have hcov := huge_covers layout
  have hin : InRun run.start (hugeSlices layout) (y / sliceSize) := inRun_div.mpr (by omega)
  rw [paint_in hin] at hplace
  cases hplace

theorem allocGeneric_serving (hi : Inv g h live) (hcov : h.initialized = false → CoversInitial h)
    (hs : 1 ≤ layout.size) (zero : Bool) : Serving hi (h.allocGeneric layout zero).2 := by
  unfold Heap.allocGeneric
  cases hclass : classify layout with
  | huge =>
    obtain ⟨⟨g1, hi1, -⟩, hinit1⟩ := ensureInit_inv hi hcov
    exact (allocHuge_reaches hi1 hinit1 zero false).serving.after ((ensureInit_frames g h).moves hi hi1)
  | bin n =>
    have hbinned := classify_bin hs hclass
    have hlt := bin_lt hbinned.bin_lt
    simp only [queueIndex_of_lt hlt]
    split
    · rename_i hhead
      obtain ⟨-, hne, hfree⟩ := hhead
      have hmem := (first_mem hi hlt).resolve_left (by rw [queueIndex_of_lt hlt]; exact hne)
      rw [queueIndex_of_lt hlt] at hmem
      obtain ⟨hin, -⟩ := hi.core.member hmem
      exact (takeBlock_deal hi hbinned.bin_lt hmem (hin.ok.hasFree_iff.mp hfree) hs hclass zero).serving
    · exact searched_serving hi hcov hs hclass zero

/-- **`alloc`** serves. -/
theorem alloc_serving (hi : Inv g h live) (hcov : h.initialized = false → CoversInitial h)
    (hs : 1 ≤ layout.size) : Serving hi (h.alloc layout).2 := by
  unfold Heap.alloc
  simp only
  split
  swap
  · exact allocGeneric_serving hi hcov hs false
  rename_i hsmall
  rcases direct_pop hi hs hsmall with hnone | ⟨n, hclass, hn, hmem, hfree⟩
  · rw [hnone]
    exact allocGeneric_serving hi hcov hs false
  · obtain ⟨a, g1, h1, hpop, hi1, hpops⟩ := popBlock_pops hi hn hmem hfree hs hclass
    rw [hpop]
    exact fun _ _ hi' => .pops n _ _ _ Relation.ReflTransGen.refl hpops (Frames.refl.moves hi1 hi')

/-- **`allocZeroed`** serves. -/
theorem allocZeroed_serving (hi : Inv g h live) (hcov : h.initialized = false → CoversInitial h)
    (hs : 1 ≤ layout.size) : Serving hi (h.allocZeroed layout).2 := by
  unfold Heap.allocZeroed
  simp only
  split
  swap
  · exact allocGeneric_serving hi hcov hs true
  rename_i hsmall
  rcases direct_pop hi hs hsmall with hnone | ⟨n, hclass, hn, hmem, hfree⟩
  · rw [hnone]
    exact allocGeneric_serving hi hcov hs true
  · obtain ⟨a, g1, h1, hpop, hi1, hpops⟩ := popBlock_pops hi hn hmem hfree hs hclass
    rw [hpop]
    exact fun _ _ hi' => .pops n _ _ _ Relation.ReflTransGen.refl hpops
      ((clearBlock_frames hi1 hclass _).moves hi1 hi')

/-! ## Frees -/

omit [Memory.Contract M] in
theorem bin_not_full (hi : Inv g h live) (hp : IsPage g p) : g.bin p ≤ maxBin ∧ g.bin p ≠ fullQueue := by
  have hle := (hi.core.pages _ _ hp).ok.bin_le
  have hfull := maxBin_lt_full
  omega

omit [Memory.Contract M] in
theorem PutBack.returns {g1 : Ghost} (hb : PutBack g g1 h h1 p) (hi : Inv g h live)
    (hi1 : Inv g1 h1 live') (hp : IsPage g p) : Shelves.Returns hi.shelves hi1.shelves (g.bin p) p := by
  obtain ⟨hle, hne⟩ := bin_not_full hi hp
  have hback : ∀ r ≤ maxBin, ∀ x ∈ g1.queue r, x ≠ p → x ∈ g.queue r := by
    intro r hr x hx hxp
    rcases hb.queue with ⟨-, hq⟩ | ⟨-, happ, hother⟩
    · rwa [hq] at hx
    · by_cases hrb : r = g.bin p
      · rw [hrb, happ] at hx
        rw [hrb]
        exact (List.mem_append.mp hx).resolve_right fun e => hxp (List.mem_singleton.mp e)
      · have hfull := maxBin_lt_full
        rwa [hother r hrb (by omega)] at hx
  refine { bin := hle, queue := ?_, elsewhere := fun r hr hrb => ?_, card := fun r hr x hx hxp => ?_,
           used := hb.used, capacity := le_of_eq hb.capacity.symm, expire := hb.expire,
           range := ⟨hb.range.1, hb.range.2.1, hb.range.2.2⟩ }
  · rcases hb.queue with ⟨hmem, hq⟩ | ⟨hmem, happ, -⟩
    · exact Or.inl ⟨hmem, congrFun hq _⟩
    · exact Or.inr ⟨hmem, happ⟩
  · rcases hb.queue with ⟨-, hq⟩ | ⟨-, -, hother⟩
    · exact congrFun hq r
    · have hfull := maxBin_lt_full
      exact hother r hrb (by omega)
  · have hget := hb.others r x (hback r hr x hx hxp) hxp
    have hcard : h1.card x = h.card x :=
      card_of (hget _ (Or.inl rfl)) (hget _ (Or.inl rfl)) (hget _ (Or.inr rfl))
    refine (congrArg (Card.Same _) hcard.symm).mp ?_
    exact ⟨rfl, Nat.le_refl _, rfl⟩

omit [Memory.Contract M] in
theorem retire_eq (hi : Inv g h live) (hp : p ∈ g.queue (g.bin p)) :
    h.retire p = if (g.queue (g.bin p)).length ≤ retireMaxPages ∧
        ((g.queue (g.bin p)).length = 1 ∨ binSize (g.bin p) < directMaxSize) then
      { h.setField p .retireExpire (cyclesOf (binSize (g.bin p))) with
        retiredMin := min h.retiredMin (g.bin p), retiredMax := max h.retiredMax (g.bin p) }
    else h.freePage p (g.bin p) := by
  obtain ⟨hin, -⟩ := hi.core.member hp
  have hlt := bin_lt hin.ok.bin_le
  have hbin : h.field p .bin = g.bin p := hin.ok.bin
  have hsize : h.field p .blockSize = binSize (g.bin p) := hin.ok.blockSize
  have hcount : (h.queues (queueIndex (g.bin p))).count = (g.queue (g.bin p)).length := by
    rw [queueIndex_of_lt hlt]
    exact (hi.core.queues.queue _ hlt).count
  unfold Heap.retire
  simp only [hbin, hsize, hcount]
  rfl

omit [Memory.Contract M] in
/-- **`retire`** settles an empty page. -/
theorem retire_settles (hi : Inv g h live) (hp : p ∈ g.queue (g.bin p)) (hempty : liveIn live p = [])
    (hi' : Inv g' (h.retire p) live') : Shelves.Settles hi.shelves hi'.shelves (g.bin p) p := by
  obtain ⟨hin, haddr⟩ := hi.core.member hp
  obtain ⟨-, hne⟩ := bin_not_full hi hin.isPage
  generalize hdef : h.retire p = h2 at hi'
  rw [retire_eq hi hp] at hdef
  split at hdef
  · rename_i hfew
    have hv : cyclesOf (binSize (g.bin p)) < 256 := lt_of_le_of_lt (cyclesOf_le _) (by decide)
    have hnot : p ∉ g.queue fullQueue := fun hmem => hne (hi.core.queues.disjoint _ _ p hp hmem)
    obtain ⟨hi3, -⟩ := setRetire_inv hi hin.isPage hv (Or.inl hnot)
    subst hdef
    have hcard : ∀ q, ∀ x ∈ g.queue q, (h.setField p .retireExpire (cyclesOf (binSize (g.bin p)))).card x =
        if x = p then { h.card p with expire := cyclesOf (binSize (g.bin p)) } else h.card x :=
      fun q x hx => card_setRetire haddr (hi.core.queues.addr x hx) hv
    have hq : g'.queue = g.queue :=
      hi3.core.queues.queue_eq hi'.core.queues rfl fun _ _ _ => ⟨rfl, rfl⟩
    have hcardp := (hcard _ p hp).trans (if_pos rfl)
    have hused : h.field p .used = 0 := by
      unfold Heap.field
      rw [hin.ok.used, hempty]
      rfl
    refine .retires hfew.1 hfew.2 (fun r _ => congrFun hq r) (fun r _ x hx hxp => ?_)
      ((congrArg Card.used hcardp).trans hused) (le_of_eq (congrArg Card.capacity hcardp).symm)
      (congrArg Card.expire hcardp) rfl rfl rfl
    have hx : x ∈ g'.queue r := hx
    rw [hq] at hx
    refine (congrArg (Card.Same _) ((hcard r x hx).trans (if_neg hxp)).symm).mp ?_
    exact ⟨rfl, Nat.le_refl _, rfl⟩
  · obtain ⟨hi3, -⟩ := freePage_inv hi hp hempty
    have hw := freePage_walks (0, 0) hi hp hi3
    subst hdef
    rw [hi3.shelves_eq hi']
    refine .frees (fun r => not_mem_without hi.core.queues hp r) ?_
    refine { queue := hw.queue, card := fun q hq x hx _ => ?_, range := hw.same }
    have hcard := freePage_card hi.core.queues hp (hi.core.queues.addr x ((hw.queue q hq).subset hx))
    refine (congrArg (Card.Same _) hcard.symm).mp ?_
    exact ⟨rfl, Nat.le_refl _, rfl⟩

omit [Memory.Contract M] in
theorem page_in_use (hi : Inv g h live) (hm : blk ∈ live) (hclass : classify blk.layout = .bin n) :
    (h.card (Page.headerOf (kindOfBin n) blk.addr)).used ≠ 0 := by
  obtain ⟨hin, hlive, -⟩ := (hi.core.blocks.block blk hm).in_page hi.core.pages hm hclass
  have hused : (h.card (Page.headerOf (kindOfBin n) blk.addr)).used = _ := hin.ok.used
  rw [hused]
  exact Nat.pos_iff_ne_zero.mp (List.length_pos_of_mem hlive)

omit [Memory.Contract M] in
/-- **A free** of a block of a page. -/
theorem dealloc_frees (hi : Inv g h (blk :: live)) (hclass : classify blk.layout = .bin n)
    (hi' : Inv g' (h.dealloc blk.addr blk.layout) live') :
    Shelves.Frees hi.shelves hi'.shelves (Page.headerOf (kindOfBin n) blk.addr) := by
  have hm : blk ∈ blk :: live := List.mem_cons_self
  have hpage := ((hi.core.blocks.block blk hm).in_page hi.core.pages hm hclass).1.isPage
  obtain ⟨g1, h1, hi1, -, hback, -, hdef⟩ := pushBlock_putBack hi hclass
  have heq : h.dealloc blk.addr blk.layout =
      h.pushBlock (Page.headerOf (kindOfBin n) blk.addr) blk.addr := by
    rw [dealloc_eq h blk.addr (hi.core.blocks.block blk hm).size_pos]
    unfold Heap.deallocGeneric
    rw [hclass]
  generalize Page.headerOf (kindOfBin n) blk.addr = p at *
  generalize h.dealloc blk.addr blk.layout = h2 at *
  have hreturns := hback.returns hi hi1 hpage
  have hmem := hback.mem
  rw [← hback.bin] at hmem hreturns
  refine ⟨g1.bin p, hi1.shelves, hreturns, ?_⟩
  rcases hdef with ⟨hdef, hfree⟩ | ⟨hdef, hbusy⟩
  · rw [hdef] at heq
    subst heq
    exact retire_settles hi1 hmem ((allFree_iff (hi1.core.member hmem).1).mp hfree) hi'
  · rw [hdef] at heq
    subst heq
    exact .stays hbusy (hi1.shelves_eq hi')

omit [Memory.Contract M] in
theorem dealloc_run_frames (hi : Inv g h (blk :: live)) (hclass : classify blk.layout = .huge) :
    Frames g h (h.dealloc blk.addr blk.layout) := by
  have hdef : h.dealloc blk.addr blk.layout =
      { h with slices := h.slices.freeRun (blk.addr / sliceSize) (hugeSlices blk.layout) } := by
    rw [dealloc_eq h blk.addr (hi.core.blocks.block blk List.mem_cons_self).size_pos]
    unfold Heap.deallocGeneric
    rw [hclass]
  rw [hdef]
  generalize h.slices.freeRun (blk.addr / sliceSize) (hugeSlices blk.layout) = m
  exact ⟨rfl, fun _ _ _ _ => rfl, rfl, rfl, rfl⟩

omit [Memory.Contract M] in
/-- **A free is a turn**, also after the call handed out another block. -/
theorem dealloc_turn {s : Shelves} (hi : Inv g h (blk :: live)) (hserves : Shelves.Serves s hi.shelves)
    (hout : ∀ n, classify blk.layout = .bin n → (s.card (Page.headerOf (kindOfBin n) blk.addr)).used ≠ 0)
    (hi' : Inv g' (h.dealloc blk.addr blk.layout) live') : Shelves.Turn s hi'.shelves := by
  cases hclass : classify blk.layout with
  | bin n => exact .frees _ hi.shelves (hout n hclass) hserves (dealloc_frees hi hclass hi')
  | huge => exact .serves (hserves.before ((dealloc_run_frames hi hclass).moves hi hi'))

/-! ## Resizing -/

/-- Growing a run releases the empty pages first. -/
theorem growRun_reaches {a : Nat} (hi : Inv g h (⟨a, layout⟩ :: live)) (hold : classify layout = .huge)
    (extra : Nat) (hist : History) : Reaches (⟨a, layout⟩ :: live) hi
      { h.releaseEmptyPages.withSupply (h.releaseEmptyPages.supply.extendWithGrowth
          h.releaseEmptyPages.policy (a / sliceSize) (hugeSlices layout) extra).2 with
        history := hist } := by
  obtain ⟨g2, hi2, -, -⟩ := releaseEmptyPages_inv hi
  have hquiets := releaseEmptyPages_quiets hi hi2
  generalize h.releaseEmptyPages = h2 at *
  obtain ⟨-, hrun, -, -⟩ := front_run hi2 hold
  simp only at hrun
  have hinside := hi2.core.slices.inside_run (hugeSlices_pos layout) fun i hi' => by
    rw [(hrun i).mpr hi']
    simp
  obtain ⟨s1, N, m, hgrown, hs1, -⟩ : h2.supply.Extended (a / sliceSize) (hugeSlices layout) extra
      (h2.supply.extendWithGrowth h2.policy (a / sliceSize) (hugeSlices layout) extra) :=
    Supply.extendWithGrowth_spec h2.policy hi2.core.slices.inv hi2.core.slices.base_le hinside
  have hheader : ∀ q, ∀ p ∈ g2.queue q, ∀ f, Page.get s1.bytes p f = Page.get h2.bytes p f := by
    intro q p hp f
    refine Page.get_congr fun x hlo hhi => hgrown.bytes x ?_
    have hplace := (hi2.core.member hp).1.header hlo hhi
    exact hi2.core.slices.lt _ (by rw [hplace]; simp)
  refine ⟨g2, h2, hi2, Relation.ReflTransGen.single (.quiets hquiets), ?_⟩
  rw [hs1]
  exact ⟨rfl, hheader, rfl, rfl, rfl⟩

omit [Memory.Contract M] in
/-- **What the in-place roads change**: slices, or whatever growing the run takes. -/
theorem resizeInPlace_shape {a : Nat} (newLayout : Layout) (hi : Inv g h (⟨a, layout⟩ :: live)) :
    (∃ m hist, (h.resizeInPlace a layout newLayout).2 = { h with slices := m, history := hist }) ∨
    (classify layout = .huge ∧ ∃ extra hist, (h.resizeInPlace a layout newLayout).2 =
      { h.releaseEmptyPages.withSupply (h.releaseEmptyPages.supply.extendWithGrowth
          h.releaseEmptyPages.policy (a / sliceSize) (hugeSlices layout) extra).2 with
        history := hist }) := by
  rcases hold : classify layout with old | - <;> rcases hnew : classify newLayout with new | -
  iterate 3
    rw [Heap.resizeInPlace, hold, hnew]
    exact Or.inl ⟨_, _, rfl⟩
  obtain ⟨newN, hnewN⟩ : ∃ n, hugeSlices newLayout = n := ⟨_, rfl⟩
  obtain ⟨oldN, holdN⟩ : ∃ n, hugeSlices layout = n := ⟨_, rfl⟩
  rw [resizeInPlace_huge hold hnew holdN hnewN, holdN]
  split_ifs
  · exact Or.inl ⟨_, _, rfl⟩
  · exact Or.inl ⟨_, _, rfl⟩
  obtain ⟨-, hrun, -, -⟩ := front_run hi hold
  simp only [holdN] at hrun
  have hinside := hi.core.slices.inside_run (holdN ▸ hugeSlices_pos layout) fun i hi' => by
    rw [(hrun i).mpr hi']
    simp
  obtain ⟨-, hnone⟩ := @SliceMap.tryExtend_spec _ _ _ _ (newN - oldN) hi.core.slices.inv hinside
  rcases hr : h.slices.tryExtend (a / sliceSize) oldN (newN - oldN) with ⟨z | z, m⟩
  swap
  · exact Or.inl ⟨_, _, rfl⟩
  -- The slices behind the run are not free: memory is grown.
  have hsame : ({ h with slices := m } : Heap M) = h := by rw [(hnone m hr).1]
  simp only [hsame]
  refine Or.inr ⟨trivial, newN - oldN, ?_⟩
  unfold Heap.growRun
  generalize h.releaseEmptyPages = h2
  rcases hr2 : h2.supply.extendWithGrowth h2.policy (a / sliceSize) oldN (newN - oldN)
    with ⟨z | z, s⟩
  all_goals
    dsimp only
    rw [hr2]
    exact ⟨_, rfl⟩

/-- **The in-place roads** leave the queues alone, but for what is released for them. -/
theorem resizeInPlace_reaches {a : Nat} (newLayout : Layout) (hi : Inv g h (⟨a, layout⟩ :: live)) :
    Reaches (⟨a, layout⟩ :: live) hi (h.resizeInPlace a layout newLayout).2 := by
  rcases resizeInPlace_shape newLayout hi with ⟨m, hist, hres⟩ | ⟨hold, extra, hist, hres⟩
  · rw [hres]
    exact Reaches.refl hi ⟨rfl, fun _ _ _ _ => rfl, rfl, rfl, rfl⟩
  · rw [hres]
    exact growRun_reaches hi hold extra hist

/-- The request a move makes first. -/
def Heap.moveTarget (h : Heap M) (newLayout : Layout) : Option Nat × Heap M :=
  match classify newLayout with
  | .huge => h.allocHuge newLayout false true
  | .bin _ => h.alloc newLayout

omit [Memory.Contract M] in
theorem moveBlock_eq (h : Heap M) (ptr : Nat) (layout newLayout : Layout) :
    h.moveBlock ptr layout newLayout = match h.moveTarget newLayout with
      | (none, h) => (none, h)
      | (some new, h) =>
        (some new, ({ h with bytes := copy h.bytes ptr new (min layout.size newLayout.size) } :
          Heap M).dealloc ptr layout) := rfl

theorem moveTarget_serves {a : Nat} (hi : Inv g h (⟨a, layout⟩ :: live)) (hs : 1 ≤ newLayout.size) :
    (∃ q h1 g1, h.moveTarget newLayout = (some q, h1) ∧
      ∃ hi1 : Inv g1 { h1 with bytes := copy h1.bytes a q (min layout.size newLayout.size) }
        (⟨a, layout⟩ :: ⟨q, newLayout⟩ :: live), Shelves.Serves hi.shelves hi1.shelves) ∨
    (∃ h1, h.moveTarget newLayout = (none, h1) ∧ Serving hi h1) := by
  have hinit := hi.initialized List.mem_cons_self
  have hcov : h.initialized = false → CoversInitial h := fun h0 =>
    absurd (hinit.symm.trans h0) (by decide)
  obtain ⟨hans, hserving⟩ : Answered (⟨a, layout⟩ :: live) g h newLayout false (h.moveTarget newLayout) ∧
      Serving hi (h.moveTarget newLayout).2 := by
    unfold Heap.moveTarget
    cases hnew : classify newLayout with
    | huge =>
      exact ⟨allocHuge_answered hi hinit hs hnew false true,
        (allocHuge_reaches hi hinit false true).serving⟩
    | bin n => exact ⟨alloc_answered hi hcov hs, alloc_serving hi hcov hs⟩
  rcases hans with ⟨q, h1, g1, hres, hh⟩ | ⟨h1, g1, hres, -⟩
  swap
  · rw [hres] at hserving
    exact Or.inr ⟨h1, hres, hserving⟩
  rw [hres] at hserving
  -- The copy stays inside the new block.
  have hi1 := hh.inv
  have hmem : (⟨q, newLayout⟩ : Block) ∈ (⟨q, newLayout⟩ :: ⟨a, layout⟩ :: live : List Block) :=
    List.mem_cons_self
  have hsize : newLayout.size ≤ span g1 ⟨q, newLayout⟩ := size_le_span hi1.core.pages hi1.core.blocks hmem
  have hw : WritesSpans g1 (⟨q, newLayout⟩ :: ⟨a, layout⟩ :: live) h1.bytes
      (copy h1.bytes a q (min layout.size newLayout.size)) := by
    intro x
    by_cases hx : q ≤ x ∧ x < q + min layout.size newLayout.size
    · refine Or.inr ⟨_, hmem, hx.1, ?_⟩
      show x < q + span g1 ⟨q, newLayout⟩
      omega
    · exact Or.inl (copy_out (by omega))
  have hi2 := (hi1.write hw).perm (List.Perm.swap _ _ _)
  exact Or.inl ⟨q, h1, g1, hres, hi2,
    (hserving _ _ hi1).before ((hi1.write_frames hw).moves hi1 hi2)⟩

/-- **Moving a block** hands one out and takes one back. -/
theorem moveBlock_turn {a : Nat} {s : Shelves} (hi : Inv g h (⟨a, layout⟩ :: live))
    (hs : 1 ≤ newLayout.size) (hm : Shelves.Moves s hi.shelves)
    (hout : ∀ n, classify layout = .bin n → (s.card (Page.headerOf (kindOfBin n) a)).used ≠ 0)
    (hi' : Inv g' (h.moveBlock a layout newLayout).2 live') : Shelves.Turn s hi'.shelves := by
  generalize hdef : h.moveBlock a layout newLayout = r at hi'
  rw [moveBlock_eq] at hdef
  rcases moveTarget_serves hi hs with ⟨q, h1, g1, hres, hi1, hserves⟩ | ⟨h1, hres, hserving⟩
  · rw [hres] at hdef
    subst hdef
    exact dealloc_turn hi1 (hserves.after hm) hout hi'
  · rw [hres] at hdef
    subst hdef
    exact .serves ((hserving _ _ hi').after hm)

/-- **`realloc`** is a turn. -/
theorem realloc_turn {a newSize : Nat} (hi : Inv g h (⟨a, layout⟩ :: live)) (hs : 1 ≤ newSize)
    (fits : newSize + layout.align ≤ usizeSize / 2)
    (hi' : Inv g' (h.realloc a layout newSize fits).2 live') : Shelves.Turn hi.shelves hi'.shelves := by
  have hout : ∀ n, classify layout = .bin n →
      (hi.shelves.card (Page.headerOf (kindOfBin n) a)).used ≠ 0 := fun n hclass =>
    page_in_use hi List.mem_cons_self hclass
  have hreach := resizeInPlace_reaches (layout.withSize newSize fits) hi
  generalize hdef : h.realloc a layout newSize fits = r at hi'
  unfold Heap.realloc at hdef
  split at hdef
  · subst hdef
    exact .serves (Serving.refl hi _ _ hi')
  · dsimp only at hdef
    have hs' : 1 ≤ (layout.withSize newSize fits).size := hs
    rcases resizeInPlace_resized hi hs' rfl with
      ⟨q, h1, g1, hr, -⟩ | ⟨h1, g1, hr, hi1, -⟩
    · rw [hr] at hdef hreach
      subst hdef
      exact .serves (hreach.serving _ _ hi')
    · rw [hr] at hdef hreach
      subst hdef
      exact moveBlock_turn hi1 hs' (hreach.moves hi1) hout hi'

/-! ## Steps of a program -/

/-- **Every step is a turn** of the shelves. -/
theorem step_turn {c : Config M} {e : Event M} (hi : Inv g c.heap c.live) (ha : c.Allowed e)
    (hi' : Inv g' (c.step e).heap (c.step e).live) : Shelves.Turn hi.shelves hi'.shelves := by
  have hanswer : ∀ (layout : Layout) (rest : List Block) (r : Option Nat × Heap M), Serving hi r.2 →
      ∀ hi' : Inv g' (c.answer layout rest r).heap (c.answer layout rest r).live,
        Shelves.Turn hi.shelves hi'.shelves := by
    intro layout rest r hserving hi'
    obtain ⟨a | a, h1⟩ := r
    · exact .serves (hserving _ _ hi')
    · exact .serves (hserving _ _ hi')
  cases e with
  | alloc layout => exact hanswer layout c.live _ (alloc_serving hi ha.2 ha.1) hi'
  | allocZeroed layout => exact hanswer layout c.live _ (allocZeroed_serving hi ha.2 ha.1) hi'
  | dealloc blk =>
    have hi0 := hi.perm (List.perm_cons_erase ha)
    rw [← hi.shelves_eq hi0]
    exact dealloc_turn hi0 (.moves Relation.ReflTransGen.refl)
      (fun n hclass => page_in_use hi0 List.mem_cons_self hclass) hi'
  | realloc blk newSize fits =>
    have hi0 := hi.perm (List.perm_cons_erase ha.1)
    rw [← hi.shelves_eq hi0]
    have hheap : (c.step (.realloc blk newSize fits)).heap =
        (c.heap.realloc blk.addr blk.layout newSize fits).2 := by
      show (c.answer _ _ (c.heap.realloc blk.addr blk.layout newSize fits)).heap = _
      rcases c.heap.realloc blk.addr blk.layout newSize fits with ⟨a | a, h1⟩ <;> rfl
    generalize (c.step (.realloc blk newSize fits)).live = live' at hi'
    generalize (c.step (.realloc blk newSize fits)).heap = h1 at hi' hheap
    subst hheap
    exact realloc_turn hi0 ha.2 fits hi'
  | write bytes =>
    have hw : WritesSpans g c.live c.heap.bytes bytes := fun x =>
      (ha x).imp_right fun hx => hx.inSpan hi.core.pages hi.core.blocks
    exact .serves (.moves ((hi.write_frames hw).moves hi hi'))
  | outside mem bytes =>
    have hframes : Frames g c.heap { c.heap with mem := mem, bytes := bytes } := by
      refine ⟨rfl, fun q p hp f => Page.get_congr fun x hlo hhi => ?_, rfl, rfl, rfl⟩
      refine (ha.2 x).resolve_right fun hno => hno.1 ((hi.core.slices.recorded _).mpr ?_)
      rw [(hi.core.member hp).1.header hlo hhi]
      simp
    exact .serves (.moves (hframes.moves hi hi'))

end Wasmalloc
