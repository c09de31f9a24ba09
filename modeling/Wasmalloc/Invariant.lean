import Wasmalloc.HeapQueues

/- The heap invariant.

   `Core g h live` ties together the bytes, the slice map, the queues and the blocks
   the program holds, through the ghost state `g`: every recorded slice is free, in
   one page or in one run (`SlicesOk`), every page is well formed and its live blocks
   are the program's (`PagesOk`), every block the program holds can be found again
   from its Layout (`BlocksOk`), and the queues hold pages of their bin (`QueuesOk`).
   It holds at every point of an operation. `Settled` holds between operations: every
   page is in a queue, and the pages in the full queue have no room.

   The rest of the module is the geometry that follows: what lies where. -/
namespace Wasmalloc
open ByteMem

variable [Build] {M : Type}

/-- A block the program holds, with the Layout it currently carries. -/
structure Block where
  addr : Nat
  layout : Layout
  deriving DecidableEq

/-- The page header a free of the block goes to. -/
def home (blk : Block) : Option Nat :=
  match classify blk.layout with
  | .bin b => some (Page.headerOf (kindOfBin b) blk.addr)
  | .huge => none

/-- The live blocks of the page at `p`. -/
def liveIn (live : List Block) (p : Nat) : List Nat :=
  (live.filter fun blk => home blk = some p).map Block.addr

/-- A byte of a live block's Layout. -/
def LiveByte (live : List Block) (x : Nat) : Prop :=
  ∃ blk ∈ live, blk.addr ≤ x ∧ x < blk.addr + blk.layout.size

omit [Build] in
/-- The slices of a page of bin `n`. -/
def pageSlices (n : Nat) : Nat := (kindOfBin n).pageSize / sliceSize

structure SlicesOk (place : Nat → Place) (m : SliceMap) (size : Nat) (b : Bytes) : Prop where
  inv : m.Inv
  base_le : m.base ≤ size
  recorded : ∀ i, m.Recorded i ↔ place i ≠ .foreign
  free : ∀ i, m.Free i ↔ place i = .free
  zero : ∀ x, m.Zero (x / sliceSize) → b x = 0
  pos : ∀ i, place i ≠ .foreign → 0 < i
  lt : ∀ i, place i ≠ .foreign → i < size
  inside : ∀ i, place i ≠ .foreign → m.base ≤ i ∧ i < m.limit
  apart : ∀ i, place i ≠ .foreign → Apart (i * sliceSize) sliceSize emptyPage Page.size

/-- The page at `p` is well formed, and its slices are its own. -/
structure PageIn (g : Ghost) (b : Bytes) (live : List Block) (p : Nat) : Prop where
  ok : Page.PageOk b p (g.bin p) (g.free p) (liveIn live p)
  slices : ∀ i, g.place i = .page p ↔ InRun (p / sliceSize) (pageSlices (g.bin p)) i

def PagesOk (g : Ghost) (b : Bytes) (live : List Block) : Prop :=
  ∀ i p, g.place i = .page p → PageIn g b live p

/-- The block can be found again from its Layout alone. -/
structure BlockOk (g : Ghost) (hist : History) (blk : Block) : Prop where
  size_pos : 1 ≤ blk.layout.size
  aligned : blk.layout.align ∣ blk.addr
  page : ∀ b, classify blk.layout = .bin b →
    let p := Page.headerOf (kindOfBin b) blk.addr
    IsPage g p ∧ kindOfBin (g.bin p) = kindOfBin b ∧ b ≤ g.bin p ∧ hist.poppedFrom blk.addr = p
  run : classify blk.layout = .huge →
    (sliceSize ∣ blk.addr ∧ hist.runSlices blk.addr = hugeSlices blk.layout) ∧
      ∀ i, g.place i = .run blk.addr ↔ InRun (blk.addr / sliceSize) (hugeSlices blk.layout) i

structure BlocksOk (g : Ghost) (hist : History) (live : List Block) : Prop where
  nodup : (live.map Block.addr).Nodup
  block : ∀ blk ∈ live, BlockOk g hist blk
  runs : ∀ i a, g.place i = .run a → ∃ blk ∈ live, classify blk.layout = .huge ∧ blk.addr = a

/-- A call of `grow` made with nothing left to release, for a request the map could not serve. -/
structure Justified (e : GrowEntry) : Prop where
  unserved : ¬ e.call.need.Servable e.call.map
  range : e.retiredMax < e.retiredMin
  pages : ∃ queue : Nat → List Nat, (∀ q < queueCount, QueueOk e.call.bytes (e.queues q) (queue q)) ∧
    ∀ q < queueCount, ∀ p ∈ queue q,
      0 < Page.get e.call.bytes p .used ∧ Page.get e.call.bytes p .retireExpire = 0

structure Core [Memory M] (g : Ghost) (h : Heap M) (live : List Block) : Prop where
  slices : SlicesOk g.place h.slices (sizeSlices h.mem) h.bytes
  pages : PagesOk g h.bytes live
  blocks : BlocksOk g h.history live
  queues : QueuesOk g h.bytes h.queues h.direct h.occupied
  sentinel : ∀ x, emptyPage ≤ x → x < emptyPage + Page.size → h.bytes x = 0
  uninit : h.initialized = false → h.slices = SliceMap.new
  log : ∀ e ∈ h.growLog, Justified e

/-- A page without a free and without a never-used block, and without a countdown. -/
structure Parked (g : Ghost) (b : Bytes) (p : Nat) : Prop where
  free : g.free p = []
  capacity : Page.get b p .capacity = Page.reservedOf (g.bin p)
  retire : Page.get b p .retireExpire = 0

/-- Every page but those of `but` is in a queue, and parked if that is the full queue. -/
structure Settled (g : Ghost) (b : Bytes) (but : Nat → Prop) : Prop where
  queued : ∀ i p, g.place i = .page p → ¬ but p → ∃ q, p ∈ g.queue q
  parked : ∀ p ∈ g.queue fullQueue, ¬ but p → Parked g b p

/-- The invariant between two operations. -/
structure Inv [Memory M] (g : Ghost) (h : Heap M) (live : List Block) : Prop where
  core : Core g h live
  settled : Settled g h.bytes fun _ => False
  unclaimed : ∀ i, g.place i ≠ .claimed

/-! ## Live blocks by page -/

theorem mem_liveIn {live : List Block} {p a : Nat} :
    a ∈ liveIn live p ↔ ∃ blk ∈ live, home blk = some p ∧ blk.addr = a := by
  simp [liveIn, and_assoc]

theorem liveIn_cons (blk : Block) (live : List Block) (p : Nat) :
    liveIn (blk :: live) p = if home blk = some p then blk.addr :: liveIn live p else liveIn live p := by
  unfold liveIn
  by_cases h : home blk = some p <;> simp [h]

theorem liveIn_perm {live live' : List Block} (h : live.Perm live') (p : Nat) :
    (liveIn live p).Perm (liveIn live' p) :=
  (h.filter _).map _

theorem home_bin {blk : Block} {b : Nat} (h : classify blk.layout = .bin b) :
    home blk = some (Page.headerOf (kindOfBin b) blk.addr) := by
  unfold home
  rw [h]

theorem home_huge {blk : Block} (h : classify blk.layout = .huge) : home blk = none := by
  unfold home
  rw [h]

theorem LiveByte.perm {live live' : List Block} (h : live.Perm live') {x : Nat} :
    LiveByte live x ↔ LiveByte live' x := by
  unfold LiveByte
  simp only [h.mem_iff]

/-! ## Masking an address -/

omit [Build] in
theorem pageSize_pow (k : PageKind) : ∃ e, e ≤ 32 ∧ 16 ≤ e ∧ k.pageSize = 2 ^ e := by
  cases k
  · exact ⟨16, by decide⟩
  · exact ⟨18, by decide⟩
  · exact ⟨22, by decide⟩

omit [Build] in
theorem slice_dvd_pageSize (k : PageKind) : sliceSize ∣ k.pageSize := by
  cases k <;> decide

omit [Build] in
theorem pageSlices_mul (n : Nat) : pageSlices n * sliceSize = (kindOfBin n).pageSize :=
  Nat.div_mul_cancel (slice_dvd_pageSize _)

omit [Build] in
theorem pageSlices_pos (n : Nat) : 1 ≤ pageSlices n := by
  unfold pageSlices
  cases kindOfBin n <;> decide

/-- **The mask trick**: masking an address inside an aligned page finds the page. -/
theorem headerOf_eq {k : PageKind} {a p : Nat} (hp : k.pageSize ∣ p) (hend : p + k.pageSize ≤ usizeSize)
    (hlo : p ≤ a) (hhi : a < p + k.pageSize) : Page.headerOf k a = p := by
  obtain ⟨e, he, -, hpow⟩ := pageSize_pow k
  unfold Page.headerOf PageKind.pageMask
  rw [hpow] at hp hend hhi ⊢
  rw [land_usizeNot (by omega) he]
  obtain ⟨m, rfl⟩ := hp
  have hdiv : a / 2 ^ e = m := by
    refine Nat.div_eq_of_lt_le ?_ ?_
    · rw [Nat.mul_comm]
      exact hlo
    · rw [Nat.add_mul, Nat.one_mul, Nat.mul_comm m]
      exact hhi
  rw [hdiv, Nat.mul_comm]

/-! ## Where things lie -/

section Geometry
variable {g : Ghost} {b c : Bytes} {live : List Block} {p : Nat}

theorem PageIn.mem (h : PageIn g b live p) {x : Nat} :
    g.place (x / sliceSize) = .page p ↔ p ≤ x ∧ x < p + (kindOfBin (g.bin p)).pageSize := by
  have hdvd : sliceSize ∣ p := dvd_trans (slice_dvd_pageSize _) h.ok.aligned
  rw [h.slices, inRun_div, Nat.div_mul_cancel hdvd, pageSlices_mul]

theorem PageIn.isPage (h : PageIn g b live p) : IsPage g p := by
  obtain ⟨e, -, -, hpow⟩ := pageSize_pow (kindOfBin (g.bin p))
  have hpos : 0 < (kindOfBin (g.bin p)).pageSize := by
    rw [hpow]
    exact Nat.two_pow_pos e
  exact h.mem.mpr ⟨Nat.le_refl p, by omega⟩

theorem PageIn.addr {m : SliceMap} {size : Nat} (h : PageIn g b live p)
    (hs : SlicesOk g.place m size c) : PageAddr p := by
  have hpage := h.isPage
  unfold IsPage at hpage
  have hpos := hs.pos (p / sliceSize) (by rw [hpage]; exact fun e => by cases e)
  have hend := h.ok.end_le
  obtain ⟨e, -, -, hpow⟩ := pageSize_pow (kindOfBin (g.bin p))
  have hsize : 0 < (kindOfBin (g.bin p)).pageSize := by
    rw [hpow]
    exact Nat.two_pow_pos e
  refine { dvd := dvd_trans (slice_dvd_pageSize _) h.ok.aligned, pos := ?_, lt := ?_ }
  · by_contra h0
    rw [Nat.eq_zero_of_not_pos h0] at hpos
    simp at hpos
  · rw [← usizeSize_eq_pow]
    omega

theorem PageIn.header (h : PageIn g b live p) {x : Nat} (hlo : p ≤ x) (hhi : x < p + Page.size) :
    g.place (x / sliceSize) = .page p := by
  have hsize := Page.size_le
  have h64 : pageHeaderReserve ≤ (kindOfBin (g.bin p)).pageSize := by
    cases kindOfBin (g.bin p) <;> decide
  exact h.mem.mpr ⟨hlo, by omega⟩

theorem PageIn.headerOf (h : PageIn g b live p) {a : Nat} (hlo : p ≤ a)
    (hhi : a < p + (kindOfBin (g.bin p)).pageSize) :
    Page.headerOf (kindOfBin (g.bin p)) a = p :=
  headerOf_eq h.ok.aligned h.ok.end_le hlo hhi

theorem huge_covers (layout : Layout) : layout.size ≤ hugeSlices layout * sliceSize := by
  unfold hugeSlices divCeil sliceSize
  omega

theorem hugeSlices_pos (layout : Layout) : 1 ≤ hugeSlices layout := Nat.le_max_right _ _

variable {hist : History}

theorem BlockOk.in_page {blk : Block} (h : BlockOk g hist blk) (hp : PagesOk g b live)
    (hmem : blk ∈ live) {n : Nat} (hn : classify blk.layout = .bin n) :
    let p := Page.headerOf (kindOfBin n) blk.addr
    PageIn g b live p ∧ blk.addr ∈ liveIn live p ∧ blk.layout.size ≤ binSize (g.bin p) ∧
      p + pageHeaderReserve ≤ blk.addr ∧
      blk.addr + binSize (g.bin p) ≤ p + (kindOfBin (g.bin p)).pageSize := by
  obtain ⟨hpage, hkind, hle, -⟩ := h.page n hn
  have hin := hp _ _ hpage
  have hlive : blk.addr ∈ liveIn live (Page.headerOf (kindOfBin n) blk.addr) :=
    mem_liveIn.mpr ⟨blk, hmem, home_bin hn, rfl⟩
  have hfit := (classify_bin h.size_pos hn).size_le
  obtain ⟨hlo, hhi⟩ := hin.ok.inside (List.mem_append_right _ hlive)
  exact ⟨hin, hlive, le_trans hfit (binSize_le hin.ok.bin_le hle), hlo, hhi⟩

/-- **Where a live byte lies**: in a live block of a page, or in a run. -/
theorem live_place (hp : PagesOk g b live) (hb : BlocksOk g hist live) {x : Nat}
    (hx : LiveByte live x) :
    (∃ p, g.place (x / sliceSize) = .page p ∧
      Page.InBlocks (binSize (g.bin p)) (liveIn live p) x) ∨
    (∃ a, g.place (x / sliceSize) = .run a) := by
  obtain ⟨blk, hmem, hlo, hhi⟩ := hx
  have hok := hb.block blk hmem
  cases hclass : classify blk.layout with
  | bin n =>
    obtain ⟨hin, hlive, hfit, hblo, hbhi⟩ := hok.in_page hp hmem hclass
    refine Or.inl ⟨_, hin.mem.mpr ⟨by omega, by omega⟩, blk.addr, hlive, hlo, by omega⟩
  | huge =>
    obtain ⟨⟨hdvd, -⟩, hrun⟩ := hok.run hclass
    have hcov := huge_covers blk.layout
    refine Or.inr ⟨blk.addr, (hrun _).mpr ?_⟩
    rw [inRun_div, Nat.div_mul_cancel hdvd]
    omega

theorem liveIn_block (hb : BlocksOk g hist live) {a : Nat} (ha : a ∈ liveIn live p) :
    ∃ blk ∈ live, blk.addr = a ∧ hist.poppedFrom a = p := by
  obtain ⟨blk, hmem, hhome, rfl⟩ := mem_liveIn.mp ha
  refine ⟨blk, hmem, rfl, ?_⟩
  cases hclass : classify blk.layout with
  | bin n =>
    obtain ⟨-, -, -, hpop⟩ := (hb.block blk hmem).page n hclass
    rw [home_bin hclass] at hhome
    rw [hpop]
    exact Option.some.inj hhome
  | huge =>
    rw [home_huge hclass] at hhome
    cases hhome

end Geometry

/-! ## Frames -/

section Frames
variable {g : Ghost} {b c : Bytes} {live : List Block} {m : SliceMap} {size : Nat}

/-- The slices depend on the bytes of free slices only. -/
theorem SlicesOk.congr {place : Nat → Place} (h : SlicesOk place m size b)
    (hc : ∀ x, place (x / sliceSize) = .free → c x = b x) : SlicesOk place m size c :=
  { h with
    zero := fun x hx => by
      rw [hc x ((h.free _).mp (hx.free h.inv))]
      exact h.zero x hx }

/-- The slices follow what a step does to the sets of the map. -/
theorem SlicesOk.becomes {place place' : Nat → Place} {m' : SliceMap} {F Z : Nat → Prop}
    (h : SlicesOk place m size b) (hm : SliceMap.Becomes m m' F Z)
    (hforeign : ∀ i, place' i = .foreign ↔ place i = .foreign)
    (hfree : ∀ i, F i ↔ place' i = .free) (hzero : ∀ i, Z i → m.Zero i) :
    SlicesOk place' m' size b where
  inv := hm.inv
  base_le := by
    rw [hm.base]
    exact h.base_le
  recorded := fun i => (hm.recorded_iff i).trans ((h.recorded i).trans (hforeign i).not.symm)
  free := fun i => (hm.free i).trans (hfree i)
  zero := fun x hx => h.zero x (hzero _ ((hm.zero _).mp hx))
  pos := fun i hi => h.pos i ((hforeign i).not.mp hi)
  lt := fun i hi => h.lt i ((hforeign i).not.mp hi)
  inside := fun i hi => by
    rw [hm.base, hm.limit]
    exact h.inside i ((hforeign i).not.mp hi)
  apart := fun i hi => h.apart i ((hforeign i).not.mp hi)

theorem PagesOk.header_unique (hp : PagesOk g b live) {p q x : Nat} (hx : g.place (x / sliceSize) = .page p)
    (hq : IsPage g q) (hlo : q ≤ x) (hhi : x < q + Page.size) : q = p := by
  have hin := hp _ _ hq
  have := hin.header hlo hhi
  rw [hx] at this
  exact (Place.page.inj this).symm

/-- Edits of the heap-owned header fields keep every page. -/
theorem PagesOk.linkEdit (hp : PagesOk g b live) (hs : SlicesOk g.place m size b)
    (he : LinkEdit g b c) : PagesOk g c live := by
  intro i p hi
  have hin := hp i p hi
  have haddr := hin.addr hs
  refine { ok := hin.ok.congr (fun f hf => he.fields p haddr f hf) ?_, slices := hin.slices }
  intro x hlo hhi _
  have hsize := Page.size_le
  have hpage : g.place (x / sliceSize) = .page p := hin.mem.mpr ⟨by omega, hhi⟩
  refine he.outside x ?_
  intro q _ hq
  by_contra hcon
  have hqp := hp.header_unique hpage hq (by omega) (by omega)
  omega

theorem LinkEdit.not_page (he : LinkEdit g b c) (hp : PagesOk g b live) {x : Nat}
    (hx : ∀ p, g.place (x / sliceSize) ≠ .page p) : c x = b x := by
  refine he.outside x ?_
  intro q _ hq
  by_contra hcon
  exact hx q ((hp _ _ hq).header (by omega) (by omega))

theorem LinkEdit.liveByte (he : LinkEdit g b c) (hp : PagesOk g b live) {hist : History}
    (hb : BlocksOk g hist live) {x : Nat} (hx : LiveByte live x) : c x = b x := by
  rcases live_place hp hb hx with ⟨p, hpage, a, ha, hlo, hhi⟩ | ⟨a, hrun⟩
  · refine he.outside x ?_
    intro q _ hq
    by_contra hcon
    have hqp := hp.header_unique hpage hq (by omega) (by omega)
    have hin := ((hp _ _ hpage).ok.inside (List.mem_append_right _ ha)).1
    have hsize := Page.size_le
    omega
  · refine he.not_page hp ?_
    intro p hpage
    rw [hrun] at hpage
    cases hpage

theorem SlicesOk.sentinel {place : Nat → Place} (h : SlicesOk place m size b) {x : Nat}
    (hlo : emptyPage ≤ x) (hhi : x < emptyPage + Page.size) : place (x / sliceSize) = .foreign := by
  by_contra hne
  have hap := h.apart _ hne
  unfold Apart at hap
  have hx : x / sliceSize * sliceSize ≤ x := Nat.div_mul_le_self x sliceSize
  have hx' : x < x / sliceSize * sliceSize + sliceSize := by
    have := Nat.lt_div_mul_add (a := x) (b := sliceSize) (by decide)
    exact this
  omega

theorem LinkEdit.sentinel (he : LinkEdit g b c) (hp : PagesOk g b live)
    (hs : SlicesOk g.place m size b) {x : Nat} (hlo : emptyPage ≤ x) (hhi : x < emptyPage + Page.size) :
    c x = b x := by
  refine he.not_page hp ?_
  intro p hpage
  rw [hs.sentinel hlo hhi] at hpage
  cases hpage

end Frames

end Wasmalloc
