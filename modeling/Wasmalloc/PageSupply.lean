import Wasmalloc.Release

/- Where slices come from: the first use of the map, growth, and `acquireRun`.

   The ghost state follows by painting: the slices a step concerns get a new place,
   and the pages, the runs and the queues, which depend on their own slices only, stay
   (`SamePages`). Growth and the initial range paint foreign slices free
   (`Gains.keeps`); a search that succeeds paints its run claimed (`Claims`), and one that
   fails leaves a heap without empty pages and with no run to serve it (`Exhausted`). -/
namespace Wasmalloc
open ByteMem

variable [Build] {M : Type} [Memory M] {live : List Block} {g g' : Ghost} {h h' : Heap M}
  {b c : Bytes}

/-! ## Painting slices -/

section Paint
variable {S : Nat → Prop} {pl pl' : Place} {i : Nat}

open Classical in
/-- The ghost state with the slices `S` at place `pl`. -/
noncomputable def Ghost.paint (g : Ghost) (S : Nat → Prop) (pl : Place) : Ghost :=
  { g with place := fun i => if S i then pl else g.place i }

omit [Build] in
theorem paint_in (hi : S i) : (g.paint S pl).place i = pl := if_pos hi

omit [Build] in
theorem paint_out (hi : ¬ S i) : (g.paint S pl).place i = g.place i := if_neg hi

omit [Build] in
theorem paint_self : (g.paint S pl).place i = pl ↔ S i ∨ g.place i = pl := by
  by_cases hi : S i
  · rw [paint_in hi]
    exact ⟨fun _ => Or.inl hi, fun _ => rfl⟩
  · rw [paint_out hi]
    exact (or_iff_right hi).symm

omit [Build] in
theorem paint_other (hne : pl ≠ pl') :
    (g.paint S pl).place i = pl' ↔ ¬ S i ∧ g.place i = pl' := by
  by_cases hi : S i
  · rw [paint_in hi]
    exact ⟨fun e => absurd e hne, fun e => absurd hi e.1⟩
  · rw [paint_out hi]
    exact (and_iff_right hi).symm

omit [Build] in
theorem paint_keeps {pl₀ : Place} (hS : ∀ i, S i → g.place i = pl₀) (h0 : pl₀ ≠ pl') (hne : pl ≠ pl') :
    (g.paint S pl).place i = pl' ↔ g.place i = pl' := by
  rw [paint_other hne, and_iff_right_iff_imp]
  intro hi hs
  rw [hS i hs] at hi
  exact h0 hi

end Paint

/-! ## Ghost states with the same pages -/

/-- The two states differ in slices that belong to no page. -/
structure SamePages (g g' : Ghost) : Prop where
  page : ∀ i p, g'.place i = .page p ↔ g.place i = .page p
  bin : g'.bin = g.bin
  free : g'.free = g.free
  queue : g'.queue = g.queue

/-- The two heaps agree on the queues and their caches, and on the history of blocks. -/
structure SameQueues (h h' : Heap M) : Prop where
  queues : h'.queues = h.queues
  direct : h'.direct = h.direct
  occupied : h'.occupied = h.occupied
  history : h'.history = h.history
  policy : h'.policy = h.policy

/-- The bytes of pages are the same. -/
def SameBytes (g : Ghost) (b c : Bytes) : Prop := ∀ x p, g.place (x / sliceSize) = .page p → c x = b x

section SamePages

theorem SameBytes.get (hb : SameBytes g b c) (hp : PagesOk g b live) {p : Nat} (hpage : IsPage g p)
    (f : Page.Field) : Page.get c p f = Page.get b p f :=
  Page.get_congr fun x hlo hhi => hb x p ((hp _ _ hpage).header hlo hhi)

theorem SamePages.pages (s : SamePages g g') (hp : PagesOk g b live) (hb : SameBytes g b c) :
    PagesOk g' c live := by
  intro i p hi
  have hin := hp i p ((s.page i p).mp hi)
  refine { ok := ?_, slices := fun j => by rw [s.page, s.bin]; exact hin.slices j }
  rw [s.bin, s.free]
  refine hin.ok.congr (fun f _ => hb.get hp hin.isPage f) ?_
  intro x hlo hhi _
  exact hb x p (hin.mem.mpr ⟨by omega, hhi⟩)

theorem SamePages.blocks {hist : History} (s : SamePages g g') (hb : BlocksOk g hist live)
    (hrun : ∀ i a, g'.place i = .run a ↔ g.place i = .run a) : BlocksOk g' hist live := by
  refine { nodup := hb.nodup, block := ?_, runs := fun i a hi => hb.runs i a ((hrun i a).mp hi) }
  intro blk hmem
  have hok := hb.block blk hmem
  refine { size_pos := hok.size_pos, aligned := hok.aligned, page := ?_, run := ?_ }
  · intro n hn
    obtain ⟨h1, h2⟩ := hok.page n hn
    rw [s.bin]
    exact ⟨(s.page _ _).mpr h1, h2⟩
  · intro hh
    obtain ⟨h1, h2⟩ := hok.run hh
    exact ⟨h1, fun i => (hrun i _).trans (h2 i)⟩

theorem SamePages.queues {queues : Nat → PageQueue} {direct : Nat → Nat} {occupied : Words.U64}
    (s : SamePages g g') (hq : QueuesOk g b queues direct occupied) (hp : PagesOk g b live)
    (hb : SameBytes g b c) : QueuesOk g' c queues direct occupied := by
  have hok := hq.congr (c := c) fun q p hmem f _ _ => hb.get hp (hq.member q p hmem).page f
  refine { queue := by rw [s.queue]; exact hok.queue, member := ?_,
           disjoint := by rw [s.queue]; exact hok.disjoint,
           direct_eq := by rw [s.queue]; exact hok.direct_eq,
           occupied_iff := by rw [s.queue]; exact hok.occupied_iff }
  rw [s.queue]
  intro q p hmem
  have hm := hok.member q p hmem
  refine { addr := hm.addr, page := (s.page _ _).mpr hm.page, bin_pos := ?_, bin_le := ?_,
           home := ?_ }
  all_goals rw [s.bin]
  · exact hm.bin_pos
  · exact hm.bin_le
  · exact hm.home

theorem SamePages.settled {but : Nat → Prop} (s : SamePages g g') (hs : Settled g b but)
    (hpage : ∀ p ∈ g.queue fullQueue, IsPage g p) (hp : PagesOk g b live) (hb : SameBytes g b c) :
    Settled g' c but := by
  refine { queued := ?_, parked := ?_ }
  · intro i p hi hbut
    rw [s.queue]
    exact hs.queued i p ((s.page i p).mp hi) hbut
  · rw [s.queue]
    intro p hmem hbut
    have hpk := hs.parked p hmem hbut
    refine { free := ?_, capacity := ?_, retire := ?_ }
    · rw [s.free]
      exact hpk.free
    · rw [s.bin, hb.get hp (hpage p hmem)]
      exact hpk.capacity
    · rw [hb.get hp (hpage p hmem)]
      exact hpk.retire

/-- The places of slices that are neither free nor foreign do not matter to the map. -/
theorem SlicesOk.repaint {place place' : Nat → Place} {m : SliceMap} {size : Nat}
    (hs : SlicesOk place m size b) (hforeign : ∀ i, place' i = .foreign ↔ place i = .foreign)
    (hfree : ∀ i, place' i = .free ↔ place i = .free) : SlicesOk place' m size b :=
  hs.becomes (SliceMap.Keeps.refl hs.inv) hforeign (fun i => (hs.free i).trans (hfree i).symm)
    fun _ hz => hz

omit [Memory M] in
theorem Settled.repaint {but : Nat → Prop} {S : Nat → Prop} {pl : Place} (hs : Settled g b but)
    (hpage : ∀ i p, (g.paint S pl).place i = .page p ↔ g.place i = .page p) :
    Settled (g.paint S pl) b but :=
  { queued := fun i p hi => hs.queued i p ((hpage i p).mp hi)
    parked := fun p hp hbut => { free := (hs.parked p hp hbut).free
                                 capacity := (hs.parked p hp hbut).capacity
                                 retire := (hs.parked p hp hbut).retire } }

/-- The invariant after a step that changes no page, no run and no queue. -/
theorem SamePages.core (s : SamePages g g') (hc : Core g h live) (hq : SameQueues h h')
    (hrun : ∀ i a, g'.place i = .run a ↔ g.place i = .run a)
    (hb : SameBytes g h.bytes h'.bytes)
    (hslices : SlicesOk g'.place h'.slices (sizeSlices h'.mem) h'.bytes)
    (hsent : ∀ x, emptyPage ≤ x → x < emptyPage + Page.size → h'.bytes x = h.bytes x)
    (hinit : h'.initialized = true) (hlog : ∀ e ∈ h'.growLog, Justified e) : Core g' h' live where
  slices := hslices
  pages := s.pages hc.pages hb
  blocks := by
    rw [hq.history]
    exact s.blocks hc.blocks hrun
  queues := by
    rw [hq.queues, hq.direct, hq.occupied]
    exact s.queues hc.queues hc.pages hb
  sentinel := fun x hlo hhi => (hsent x hlo hhi).trans (hc.sentinel x hlo hhi)
  uninit := fun h0 => by
    rw [hinit] at h0
    cases h0
  log := hlog

end SamePages

/-! ## Memory that joins the map -/

/-- `h'` is `h` with the slices `N` of foreign memory added to the map as free. -/
structure Gains (g : Ghost) (h h' : Heap M) (N : Nat → Prop) : Prop where
  inv : h'.slices.Inv
  base_le : h'.slices.base ≤ sizeSlices h'.mem
  size_le : sizeSlices h.mem ≤ sizeSlices h'.mem
  inside : ∀ i, g.place i ≠ .foreign ∨ N i → h'.slices.base ≤ i ∧ i < h'.slices.limit
  foreign : ∀ i, N i → g.place i = .foreign
  recorded : ∀ i, h'.slices.Recorded i ↔ h.slices.Recorded i ∨ N i
  free : ∀ i, h'.slices.Free i ↔ h.slices.Free i ∨ N i
  zero : ∀ i, h'.slices.Zero i → h.slices.Zero i ∨ N i
  zero_new : ∀ x, N (x / sliceSize) → h'.slices.Zero (x / sliceSize) → h'.bytes x = 0
  pos : ∀ i, N i → 0 < i
  lt : ∀ i, N i → i < sizeSlices h'.mem
  apart : ∀ i, N i → Apart (i * sliceSize) sliceSize emptyPage Page.size
  bytes : ∀ x, g.place (x / sliceSize) ≠ .foreign → h'.bytes x = h.bytes x
  sentinel : ∀ x, emptyPage ≤ x → x < emptyPage + Page.size → h'.bytes x = h.bytes x
  init : h'.initialized = true
  queues : SameQueues h h'
  log : ∃ new, h'.growLog = new ++ h.growLog ∧ ∀ e ∈ new, Justified e ∧
    ∀ r, e.call.got = some r → ∀ i, InRun r e.call.want i → i < e.call.map.usableLimit → N i

theorem Gains.samePages {N : Nat → Prop} (hg : Gains g h h' N) : SamePages g (g.paint N .free) :=
  { page := fun _ _ => paint_keeps hg.foreign (by simp) (by simp), bin := rfl, free := rfl,
    queue := rfl }

theorem Gains.sameBytes {N : Nat → Prop} (hg : Gains g h h' N) : SameBytes g h.bytes h'.bytes :=
  fun x p hx => hg.bytes x (by rw [hx]; simp)

/-- **Memory that joins the map** keeps the invariant. -/
theorem Gains.keeps {N : Nat → Prop} (hi : Inv g h live) (hg : Gains g h h' N) :
    Inv (g.paint N .free) h' live ∧ Evolves live g (g.paint N .free) h h' := by
  have hs := hi.core.slices
  obtain ⟨new, hnew, hlog⟩ := hg.log
  have hforeign : ∀ i, (g.paint N .free).place i ≠ .foreign ↔ g.place i ≠ .foreign ∨ N i := by
    intro i
    rw [ne_eq, paint_other (by simp)]
    tauto
  have hslices : SlicesOk (g.paint N .free).place h'.slices (sizeSlices h'.mem) h'.bytes := by
    refine { inv := hg.inv, base_le := hg.base_le, recorded := ?_, free := ?_, zero := ?_,
             pos := ?_, lt := ?_, inside := ?_, apart := ?_ }
    · intro i
      rw [hg.recorded, hs.recorded, hforeign]
    · intro i
      rw [hg.free, hs.free, paint_self, or_comm]
    · intro x hx
      rcases hg.zero _ hx with hz | hn
      · have hfree := (hs.free _).mp (hz.free hs.inv)
        rw [hg.bytes x (by rw [hfree]; simp)]
        exact hs.zero x hz
      · exact hg.zero_new x hn hx
    · exact fun i hi' => ((hforeign i).mp hi').elim (hs.pos i) (hg.pos i)
    · exact fun i hi' => ((hforeign i).mp hi').elim
        (fun h0 => lt_of_lt_of_le (hs.lt i h0) hg.size_le) (hg.lt i)
    · exact fun i hi' => hg.inside i ((hforeign i).mp hi')
    · exact fun i hi' => ((hforeign i).mp hi').elim (hs.apart i) (hg.apart i)
  have hjust : ∀ e ∈ h'.growLog, Justified e := by
    intro e he
    rw [hnew, List.mem_append] at he
    exact he.elim (fun hn => (hlog e hn).1) (hi.core.log e)
  have hcore := hg.samePages.core hi.core hg.queues
    (fun i a => paint_keeps hg.foreign (by simp) (by simp)) hg.sameBytes hslices hg.sentinel
    hg.init hjust
  have hmem := fun p hp => (hi.core.queues.member fullQueue p hp).page
  refine ⟨{ core := hcore
            settled := hg.samePages.settled hi.settled hmem hi.core.pages hg.sameBytes
            unclaimed := fun i hc => hi.unclaimed i ((paint_other (by simp)).mp hc).2 }, ?_⟩
  refine { untouched := ?_, size_le := hg.size_le, foreign := ?_, free := fun i hf =>
             paint_self.mpr (Or.inr hf), claimed := fun i hc => absurd hc (hi.unclaimed i),
           run := fun i a hr => (paint_keeps hg.foreign (by simp) (by simp)).mpr hr,
           page := fun i p hp => Or.inl ((hg.samePages.page i p).mpr hp), bin := rfl, lists := rfl,
           binned := fun _ _ _ hx => hx, history := hg.queues.history, policy := hg.queues.policy,
           init := fun _ => hg.init, log := ⟨new, hnew, ?_⟩ }
  · intro x hx
    refine hg.bytes x ?_
    rcases live_place hi.core.pages hi.core.blocks hx with ⟨p, hp, -⟩ | ⟨a, ha⟩
    · rw [hp]
      simp
    · rw [ha]
      simp
  · intro i hf
    by_cases hn : N i
    · exact Or.inr (paint_in hn)
    · exact Or.inl (by rw [paint_out hn]; exact hf)
  · intro e he r hr i hi' hlim
    exact paint_in ((hlog e he).2 r hr i hi' hlim)

/-! ## The first use of the map -/

/-- The slice map, once initialised, reaches the end of the memory there is. -/
def CoversInitial (h : Heap M) : Prop :=
  sizeSlices h.mem ≤ (h.slices.init (heapBase h.mem / sliceSize)).limit

theorem Core.uninit_foreign (hc : Core g h live) (h0 : h.initialized = false) (i : Nat) :
    g.place i = .foreign := by
  by_contra hne
  have hrec := (hc.slices.recorded i).mpr hne
  rw [hc.uninit h0] at hrec
  exact SliceMap.not_recorded_new i hrec

variable [Memory.Contract M]

/-- **`ensureInit`** records the slices between the heap base and the end of memory. -/
theorem ensureInit_inv (hi : Inv g h live) (hcov : h.initialized = false → CoversInitial h) :
    Internal live g h h.ensureInit ∧ h.ensureInit.initialized = true := by
  unfold Heap.ensureInit
  by_cases h1 : h.initialized = true
  · rw [if_pos h1]
    exact ⟨⟨g, hi, Evolves.refl live g h⟩, h1⟩
  rw [if_neg h1]
  have h0 : h.initialized = false := by
    rw [← Bool.not_eq_true]
    exact h1
  have hforeign := hi.core.uninit_foreign h0
  have hnew := hi.core.uninit h0
  have hcov := hcov h0
  unfold CoversInitial at hcov
  rw [hnew] at hcov
  have hpos := Memory.Contract.heapBase_pos h.mem
  have hlt := Memory.Contract.heapBase_lt h.mem
  have hle := Memory.Contract.heapBase_le h.mem
  have hap := Memory.Contract.initial_apart h.mem
  have hslice : heapBase h.mem / sliceSize < usizeSize := lt_of_le_of_lt (Nat.div_le_self _ _) hlt
  have hbase := SliceMap.base_init (m := SliceMap.new) hslice
  have hinit := SliceMap.init_inv hslice
  simp only [hnew, initialFreeRange]
  generalize hm0 : SliceMap.new.init (heapBase h.mem / sliceSize) = m0 at hcov hbase hinit
  have hrec0 : ∀ i, ¬ m0.Recorded i := fun i hr => by
    rw [← hm0] at hr
    exact SliceMap.not_recorded_new i hr
  have hfree0 : ∀ i, ¬ m0.Free i := fun i hf => by
    rw [← hm0] at hf
    simpa [SliceMap.init, SliceMap.new, Words.bitAt] using hf.2.2
  have hzero0 : ∀ i, ¬ m0.Zero i := fun i hz => hfree0 i (hz.free hinit)
  -- The first slice that lies wholly above the heap base.
  have hfirst : 0 < divCeil (heapBase h.mem) sliceSize ∧
      heapBase h.mem ≤ divCeil (heapBase h.mem) sliceSize * sliceSize ∧
      m0.base ≤ divCeil (heapBase h.mem) sliceSize := by
    unfold divCeil sliceSize at *
    omega
  have hbasele : m0.base ≤ sizeSlices h.mem := by
    unfold sliceSize at *
    omega
  generalize divCeil (heapBase h.mem) sliceSize = first at hfirst
  -- One map for both branches: `n` slices from `first` on, possibly none.
  obtain ⟨m, n, hm, hn, hminv, hmbase, hmrec, hmfree, hmzero⟩ : ∃ m n,
      (if 0 < sizeSlices h.mem - first then m0.addFree first (sizeSlices h.mem - first) false
        else m0) = m ∧ n ≤ sizeSlices h.mem - first ∧ m.Inv ∧ m.base = m0.base ∧
      (∀ i, m.Recorded i ↔ InRun first n i) ∧ (∀ i, m.Free i ↔ InRun first n i) ∧
      (∀ i, ¬ m.Zero i) := by
    by_cases hlen : 0 < sizeSlices h.mem - first
    · rw [if_pos hlen]
      have hinside : m0.Inside first (sizeSlices h.mem - first) := ⟨hfirst.2.2, by omega⟩
      obtain ⟨a1, a2, a3, a4, a5⟩ := SliceMap.addFree_spec false hinit hinside.clipped
      refine ⟨_, _, rfl, SliceMap.clippedCount_le first _, a1, a2, ?_, ?_, ?_⟩
      · exact fun i => (a3 i).trans (or_iff_right (hrec0 i))
      · exact fun i => (a4 i).trans (or_iff_right (hfree0 i))
      · exact fun i hz => ((a5 i).mp hz).elim (hzero0 i) fun e => by cases e.1
    · rw [if_neg hlen]
      refine ⟨m0, 0, rfl, Nat.zero_le _, hinit, rfl, ?_, ?_, hzero0⟩
      · exact fun i => ⟨fun hr => absurd hr (hrec0 i), fun hr => by unfold InRun at hr; omega⟩
      · exact fun i => ⟨fun hr => absurd hr (hfree0 i), fun hr => by unfold InRun at hr; omega⟩
  have hmlimit : m.limit = m0.limit := by
    unfold SliceMap.limit
    rw [hmbase]
  have hgains : Gains g h { h with initialized := true, slices := m } (InRun first n) := by
    refine { inv := hminv, base_le := by rw [hmbase]; exact hbasele, size_le := Nat.le_refl _,
             inside := ?_, foreign := fun i _ => hforeign i, recorded := ?_, free := ?_,
             zero := fun i hz => absurd hz (hmzero i), zero_new := fun x _ hz => absurd hz (hmzero _),
             pos := ?_, lt := ?_, apart := ?_, bytes := fun _ _ => rfl, sentinel := fun _ _ _ => rfl,
             init := rfl, queues := ⟨rfl, rfl, rfl, rfl, rfl⟩,
             log := ⟨[], rfl, fun e he => absurd he List.not_mem_nil⟩ }
    · intro i hor
      have hrun := hor.resolve_left (fun hne => hne (hforeign i))
      unfold InRun at hrun
      show m.base ≤ i ∧ i < m.limit
      rw [hmbase, hmlimit]
      omega
    · intro i
      rw [hnew]
      exact (hmrec i).trans (or_iff_right (SliceMap.not_recorded_new i)).symm
    · intro i
      rw [hnew]
      exact (hmfree i).trans (or_iff_right (SliceMap.not_free_new i)).symm
    · intro i hrun
      unfold InRun at hrun
      omega
    · intro i hrun
      unfold InRun at hrun
      show i < sizeSlices h.mem
      omega
    · intro i hrun
      unfold InRun at hrun
      have hlo : first * sliceSize ≤ i * sliceSize := Nat.mul_le_mul_right _ hrun.1
      have hhi : (i + 1) * sliceSize ≤ sizeSlices h.mem * sliceSize :=
        Nat.mul_le_mul_right _ (by omega)
      rw [Nat.add_mul, Nat.one_mul] at hhi
      unfold Apart at hap ⊢
      omega
  obtain ⟨hinv, hev⟩ := hgains.keeps hi
  have hheap : (if 0 < sizeSlices h.mem - first then
      ({ h with initialized := true, slices := m0.addFree first (sizeSlices h.mem - first) false } : Heap M)
      else { h with initialized := true, slices := m0 })
      = { h with initialized := true, slices := m } := by
    rw [← hm]
    split <;> rfl
  rw [hheap]
  exact ⟨⟨_, hinv, hev⟩, rfl⟩

/-! ## Growth -/

/-- Nothing is left to release: every page of every queue is in use and carries no
    countdown, and the retired range is empty. -/
def Released (g : Ghost) (h : Heap M) : Prop :=
  (∀ q, ∀ p ∈ g.queue q, Quiet h.bytes p) ∧ h.retiredMax < h.retiredMin

omit [Memory.Contract M] in
/-- A logged call of `grow` was made while nothing was left to release. -/
theorem justified {need : Need} {N : Nat → Prop} {call : GrowCall} (hi : Inv g h live)
    (hr : Released g h) (hl : Supply.Logged h.supply need N call) :
    Justified (h.entry call) := by
  have hget : ∀ {p : Nat}, IsPage g p → ∀ f, Page.get call.bytes p f = Page.get h.bytes p f := by
    intro p hp f
    refine Page.get_congr fun x hlo hhi => hl.bytes x ?_
    have hplace := (hi.core.pages _ _ hp).header hlo hhi
    exact hi.core.slices.lt _ (by rw [hplace]; simp)
  refine { unserved := hl.need_eq ▸ hl.unserved, range := hr.2, pages := ⟨g.queue, ?_, ?_⟩ }
  · intro q hq
    exact (hi.core.queues.queue q hq).congr fun p hp =>
      ⟨hget (hi.core.queues.member q p hp).page _, hget (hi.core.queues.member q p hp).page _⟩
  · intro q _ p hp
    show Quiet call.bytes p
    unfold Quiet
    rw [hget (hi.core.queues.member q p hp).page, hget (hi.core.queues.member q p hp).page]
    exact hr.1 q p hp

omit [Memory.Contract M] in
/-- **Growing** keeps the invariant when nothing was left to release. -/
theorem grown_inv {s : Supply M} {need : Need} {N : Nat → Prop} (hi : Inv g h live)
    (hinit : h.initialized = true) (hr : Released g h) (hg : Supply.Grown h.supply s need N)
    (hpos : 0 < sizeSlices h.mem) :
    Inv (g.paint N .free) (h.withSupply s) live ∧
      Evolves live g (g.paint N .free) h (h.withSupply s) := by
  have hs := hi.core.slices
  have hforeign : ∀ i, N i → g.place i = .foreign := by
    intro i hn
    by_contra hne
    have hlt := hs.lt i hne
    have hge : sizeSlices h.mem ≤ i := hg.new_ge i hn
    omega
  have hbase : s.map.base = h.slices.base := hg.base
  have hlimit : s.map.limit = h.slices.limit := (Supply.limit_eq hg.base).1
  refine Gains.keeps hi ?_
  refine { inv := hg.inv, base_le := ?_, size_le := hg.size_le, inside := ?_, foreign := hforeign,
           recorded := hg.recorded, free := hg.free, zero := fun i hz => (hg.zero i).mp hz,
           zero_new := fun x hn _ => hg.bytes_new x hn, pos := ?_, lt := hg.new_lt,
           apart := hg.new_apart, bytes := fun x hx => hg.bytes x (hs.lt _ hx),
           sentinel := hg.sentinel, init := hinit, queues := ⟨rfl, rfl, rfl, rfl, rfl⟩, log := ?_ }
  · show s.map.base ≤ _
    rw [hbase]
    exact le_trans hs.base_le hg.size_le
  · intro i hor
    show s.map.base ≤ i ∧ i < s.map.limit
    rw [hbase, hlimit]
    rcases hor with hne | hn
    · exact hs.inside i hne
    · exact ⟨le_trans hs.base_le (hg.new_ge i hn), hg.new_limit i hn⟩
  · intro i hn
    exact lt_of_lt_of_le hpos (hg.new_ge i hn)
  · obtain ⟨new, hnew, hlog⟩ := hg.calls
    have hnew : s.calls = new := by
      rw [hnew]
      exact List.append_nil new
    refine ⟨new.map _, by rw [← hnew]; rfl, ?_⟩
    intro e he
    obtain ⟨call, hc, rfl⟩ := List.mem_map.mp he
    exact ⟨justified hi hr (hlog call hc), (hlog call hc).granted⟩

omit [Memory.Contract M] in
theorem keeps_inv {m : SliceMap} (hi : Inv g h live) (hm : SliceMap.Keeps h.slices m)
    (hinit : h.initialized = true) :
    Inv g { h with slices := m } live ∧ Evolves live g g h { h with slices := m } := by
  have hs := hi.core.slices
  refine ⟨{ core := ?_, settled := hi.settled, unclaimed := hi.unclaimed },
    { Evolves.refl live g h with untouched := fun _ _ => rfl }⟩
  exact { slices := hs.becomes hm (fun _ => Iff.rfl) hs.free (fun _ hz => hz)
          pages := hi.core.pages, blocks := hi.core.blocks, queues := hi.core.queues,
          sentinel := hi.core.sentinel, log := hi.core.log
          uninit := fun h0 => absurd (hinit.symm.trans h0) (by decide) }

/-! ## `acquireRun` -/

/-- A run of free slices was taken from the map: `g1` and `h'` before it is put to use. -/
structure Claims (live : List Block) (g g1 : Ghost) (h h' : Heap M) (count align : Nat) (run : Run) :
    Prop where
  evolves : Evolves live g g1 h h'
  core : Core (g1.paint (InRun run.start count) .claimed) h' live
  settled : Settled g1 h'.bytes fun _ => False
  unclaimed : ∀ i, g1.place i ≠ .claimed
  free : ∀ i, InRun run.start count i → g1.place i = .free
  aligned : align ∣ run.start
  zeroed : run.zeroed = true → ∀ x, InRun run.start count (x / sliceSize) → h'.bytes x = 0

/-- How the page supply ended: in a refusal, a region away from the old end, or no room. -/
def SupplyEnded (h h' : Heap M) (count align : Nat) : Prop :=
  (∃ e rest, h'.growLog = e :: rest ∧ h.growLog <:+ rest ∧ e.call.got = none) ∨
  (∃ e rest r, h'.growLog = e :: rest ∧ h.growLog <:+ rest ∧ e.call.got = some r ∧ r ≠ e.call.stop) ∨
  h'.slices.usableLimit < PowTwo.roundUp (sizeSlices h'.mem) align + count

/-- No run was found: nothing is left to release, and growth is at its end. -/
structure Exhausted (live : List Block) (g g' : Ghost) (h h' : Heap M) (count align : Nat) :
    Prop where
  inv : Inv g' h' live
  evolves : Evolves live g g' h h'
  quiet : ∀ q, ∀ p ∈ g'.queue q, Quiet h'.bytes p
  unserved : ∀ start, ¬ h'.slices.Serves count align start
  ended : SupplyEnded h h' count align

omit [Memory.Contract M] in
theorem claims_of_served {h1 : Heap M} {m : SliceMap} {count align : Nat} {run : Run} {g1 : Ghost}
    (he : Evolves live g g1 h h1) (hi : Inv g1 h1 live) (hinit : h1.initialized = true)
    (hsv : SliceMap.Served h1.slices m count align run) :
    Claims live g g1 h { h1 with slices := m } count align run := by
  have hs := hi.core.slices
  have hfree : ∀ i, InRun run.start count i → g1.place i = .free := fun i hi' =>
    (hs.free i).mp (hsv.serves.free i hi')
  have hsame : SamePages g1 (g1.paint (InRun run.start count) .claimed) :=
    { page := fun _ _ => paint_keeps hfree (by simp) (by simp), bin := rfl, free := rfl,
      queue := rfl }
  have hslices : SlicesOk (g1.paint (InRun run.start count) .claimed).place m
      (sizeSlices h1.mem) h1.bytes :=
    hs.becomes hsv.takes (fun i => paint_keeps hfree (by simp) (by simp))
      (fun i => by rw [hs.free, paint_other (by simp), and_comm]) fun _ hz => hz.1
  refine { evolves := he.trans { Evolves.refl live g1 h1 with untouched := fun _ _ => rfl },
           core := ?_, settled := hi.settled, unclaimed := hi.unclaimed, free := hfree,
           aligned := hsv.serves.aligned,
           zeroed := fun hz x hx => hs.zero x (hsv.zeroed hz _ hx) }
  exact hsame.core hi.core ⟨rfl, rfl, rfl, rfl, rfl⟩
    (fun i a => paint_keeps hfree (by simp) (by simp)) (fun _ _ _ => rfl) hslices (fun _ _ _ => rfl)
    hinit hi.core.log

theorem size_pos (c : M) : 0 < sizeSlices c := by
  have hpos := Memory.Contract.heapBase_pos c
  have hle := Memory.Contract.heapBase_le c
  by_contra h0
  rw [Nat.eq_zero_of_not_pos h0, Nat.zero_mul] at hle
  omega

omit [Memory.Contract M] in
theorem supplyEnded_of {h1 : Heap M} {s : Supply M} {count align : Nat}
    (hlog : ∃ new, h1.growLog = new ++ h.growLog)
    (hend : Supply.Refused h1.supply s ∨ Supply.Displaced h1.supply s ∨
      Supply.OutOfRoom s count align) :
    SupplyEnded h (h1.withSupply s) count align := by
  obtain ⟨new, hnew⟩ := hlog
  have hsuffix : ∀ l, h.growLog <:+ l ++ h1.growLog := by
    intro l
    rw [hnew]
    exact ⟨l ++ new, List.append_assoc l new _⟩
  rcases hend with ⟨c, rest, hc, -, hgot⟩ | ⟨c, rest, r, hc, -, hgot, hne⟩ | hroom
  · left
    refine ⟨h1.entry c, _, ?_, hsuffix (rest.map h1.entry), hgot⟩
    unfold Heap.withSupply
    simp only [hc, List.map_cons, List.cons_append]
  · right; left
    refine ⟨h1.entry c, _, r, ?_, hsuffix (rest.map h1.entry), hgot, hne⟩
    unfold Heap.withSupply
    simp only [hc, List.map_cons, List.cons_append]
  · exact Or.inr (Or.inr hroom)

omit [Memory.Contract M] in
theorem SupplyEnded.back {h1 h2 : Heap M} {count align : Nat}
    (hlog : ∃ new, h1.growLog = new ++ h.growLog) (he : SupplyEnded h1 h2 count align) :
    SupplyEnded h h2 count align := by
  obtain ⟨new, hnew⟩ := hlog
  have hsuffix : h.growLog <:+ h1.growLog := ⟨new, hnew.symm⟩
  rcases he with ⟨e, rest, h1, h2, h3⟩ | ⟨e, rest, r, h1, h2, h3⟩ | h1
  · exact Or.inl ⟨e, rest, h1, hsuffix.trans h2, h3⟩
  · exact Or.inr (Or.inl ⟨e, rest, r, h1, hsuffix.trans h2, h3⟩)
  · exact Or.inr (Or.inr h1)

omit [Memory.Contract M] in
theorem Exhausted.after {g1 : Ghost} {h1 h2 : Heap M} {g2 : Ghost} {count align : Nat}
    (he : Evolves live g g1 h h1) (hx : Exhausted live g1 g2 h1 h2 count align) :
    Exhausted live g g2 h h2 count align where
  inv := hx.inv
  evolves := he.trans hx.evolves
  quiet := hx.quiet
  unserved := hx.unserved
  ended := by
    obtain ⟨new, hnew, -⟩ := he.log
    exact hx.ended.back ⟨new, hnew⟩

/-- **`acquireRun`** claims an aligned run of free slices, or leaves nothing to release. -/
theorem acquireRun_spec (hi : Inv g h live) (hinit : h.initialized = true) {count k : Nat}
    (hc : 1 ≤ count) (hk : k ≤ usizeBits) (top : Bool) :
    (∃ run h' g1, h.acquireRun count (2 ^ k) top = (some run, h') ∧
      Claims live g g1 h h' count (2 ^ k) run) ∨
    (∃ h' g', h.acquireRun count (2 ^ k) top = (none, h') ∧
      Exhausted live g g' h h' count (2 ^ k)) := by
  have hinv := hi.core.slices.inv
  obtain ⟨htail, htail0⟩ := SliceMap.allocTail_spec (k := k) (sizeSlices h.mem) hinv hc
  obtain ⟨halloc, halloc0⟩ := SliceMap.alloc_spec (k := k) hinv hc
  -- What the two searches of the map leave to do.
  have hlow : (∃ run h' g1, h.acquireRun count (2 ^ k) false = (some run, h') ∧
      Claims live g g1 h h' count (2 ^ k) run) ∨
      (∃ h' g', h.acquireRun count (2 ^ k) false = (none, h') ∧
        Exhausted live g g' h h' count (2 ^ k)) := by
    unfold Heap.acquireRun
    simp only [Bool.false_eq_true, if_false]
    rcases hr : h.slices.alloc count (2 ^ k) with ⟨run | run, m⟩
    swap
    · exact Or.inl ⟨run, _, g, rfl,
        claims_of_served (Evolves.refl live g h) hi hinit (halloc run m hr)⟩
    simp only
    obtain ⟨hkeeps, -⟩ := halloc0 m hr
    obtain ⟨hi1, he1⟩ := keeps_inv hi hkeeps hinit
    obtain ⟨g2, hi2, he2, hquiet, hrange⟩ := releaseEmptyPages_inv hi1
    have hev := he1.trans he2
    generalize hh2 : ({ h with slices := m } : Heap M).releaseEmptyPages = h2 at *
    have hinit2 := hev.init hinit
    obtain ⟨s1, N, m', hgrown, hs1, hres⟩ := Supply.acquire_spec (s := h2.supply) h2.policy
      hi2.core.slices.inv hi2.core.slices.base_le hc hk
    obtain ⟨hi3, he3⟩ := grown_inv hi2 hinit2 ⟨hquiet, hrange⟩ hgrown (size_pos h2.mem)
    have hinit3 := he3.init hinit2
    generalize ha : h2.supply.acquire h2.policy count (2 ^ k) = a at *
    obtain ⟨r, s⟩ := a
    simp only at hs1 hres ⊢
    have hwith : h2.withSupply s = { h2.withSupply s1 with slices := m' } := by
      rw [hs1]
      rfl
    rcases hres with ⟨run, hrun, hserved⟩ | ⟨hnone, hkeeps3, hno, hend⟩
    · refine Or.inl ⟨run, _, g2.paint N .free, by rw [hrun], ?_⟩
      rw [hwith]
      exact claims_of_served (hev.trans he3) hi3 hinit3 hserved
    · obtain ⟨hi4, he4⟩ := keeps_inv hi3 hkeeps3 hinit3
      refine Or.inr ⟨_, g2.paint N .free, by rw [hnone], ?_⟩
      obtain ⟨new, hnew, -⟩ := hev.log
      refine { inv := ?_, evolves := ?_, quiet := ?_, unserved := ?_,
               ended := supplyEnded_of ⟨new, hnew⟩ hend }
      · rw [hwith]
        exact hi4
      · rw [hwith]
        exact hev.trans (he3.trans he4)
      · intro q p hp
        have hpage := (hi2.core.queues.member q p hp).page
        have hget : ∀ f, Page.get s.bytes p f = Page.get h2.bytes p f := by
          intro f
          rw [hs1]
          refine Page.get_congr fun x hlo hhi => hgrown.bytes x ?_
          have hplace := (hi2.core.pages _ _ hpage).header hlo hhi
          exact hi2.core.slices.lt _ (by rw [hplace]; simp)
        show Quiet s.bytes p
        unfold Quiet
        rw [hget, hget]
        exact hquiet q p hp
      · intro start hsv
        refine hno start { free := fun i hi' => ?_, aligned := hsv.aligned }
        have hfree := hsv.free i hi'
        rw [hwith] at hfree
        exact (hkeeps3.free i).mp hfree
  cases top with
  | false => exact hlow
  | true =>
    rcases hr : h.slices.allocTail count (2 ^ k) (sizeSlices h.mem) with ⟨run | run, m⟩
    · have hm := htail0 m hr
      have heq : h.acquireRun count (2 ^ k) true = h.acquireRun count (2 ^ k) false := by
        unfold Heap.acquireRun
        simp only [if_true, hr, hm, Bool.false_eq_true, if_false]
      rw [heq]
      exact hlow
    · refine Or.inl ⟨run, { h with slices := m }, g, ?_,
        claims_of_served (Evolves.refl live g h) hi hinit (htail run m hr)⟩
      unfold Heap.acquireRun
      simp only [if_true, hr]

end Wasmalloc
