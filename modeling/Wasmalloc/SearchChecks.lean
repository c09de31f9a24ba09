import Wasmalloc.ReleaseChecks

/- The page supply and the page search pass their checks.

   Two assertions of `find_page` rest on more than the invariant: a candidate without a
   free block is not empty because every page has been extended once, and a fresh page
   ends below the top of the address space because the last slice of a 32-bit address
   space is never handed out, and a 64-bit host puts no memory there (`EndsInside`). -/
namespace Wasmalloc
open ByteMem Words Obligations

variable [Build] {M : Type} [Memory M] {live : List Block} {g : Ghost} {h : Heap M} {p qi n : Nat}

/-- On a 64-bit host the memory ends below the top of the address space. -/
def Memory.EndsInside (M : Type) [Memory M] : Prop :=
  usizeBytes = 8 → ∀ c : M, sizeSlices c * sliceSize < usizeSize

/-! ## Page supply -/

theorem Inv.supply_bounded (hi : Inv g h live) (hb : h.InBounds) : h.supply.Bounded where
  inv := hi.core.slices.inv
  base_le := hi.core.slices.base_le
  limit := hb.limit
  free := fun i hf => hi.core.slices.lt i (by rw [(hi.core.slices.free i).mp hf]; simp)

variable [Memory.Contract M]

/-- **The end of a recorded slice** is a `usize`. -/
theorem SlicesOk.end_fits {place : Nat → Place} {b : Bytes} (hmem : Memory.EndsInside M)
    (hs : SlicesOk place h.slices (sizeSlices h.mem) b) (hb : h.InBounds) {i : Nat}
    (hi : place i ≠ .foreign) : FitsUsize ((i + 1) * sliceSize) := by
  have hlt := hs.lt i hi
  have hsize := Memory.Contract.size_le h.mem
  unfold FitsUsize
  rcases Build.usizeBytes_eq with h4 | h8
  · have h32 : usizeSize = 2 ^ 32 := by
      rw [usizeSize_eq_pow, h4]
      rfl
    have hne : i ≠ maxSliceIndex := by
      rintro rfl
      exact hb.last (hs.inside _ hi).1 ((hs.recorded _).mpr hi)
    unfold maxSliceIndex at hne
    unfold sliceSize at *
    omega
  · have htop := hmem h8 h.mem
    have := Nat.mul_le_mul_right sliceSize (show i + 1 ≤ sizeSlices h.mem from hlt)
    omega

theorem SlicesOk.start_fits {place : Nat → Place} {m : SliceMap} {b : Bytes}
    {c : M} (hs : SlicesOk place m (sizeSlices c) b) {i : Nat} (hi : place i ≠ .foreign) :
    FitsUsize (i * sliceSize) := by
  have hlt := hs.lt i hi
  have hsize := Memory.Contract.size_le c
  unfold FitsUsize
  unfold sliceSize at *
  omega

theorem ensureInit_checks (k : Check) (hi : Inv g h live) (hcov : h.initialized = false → CoversInitial h) :
    h.EnsureInitChecks k := by
  intro h0
  have hnew := hi.core.uninit h0
  have hcov := hcov h0
  unfold CoversInitial at hcov
  have hlt := Memory.Contract.heapBase_lt h.mem
  have hslice : heapBase h.mem / sliceSize < usizeSize := lt_of_le_of_lt (Nat.div_le_self _ _) hlt
  have hbase := SliceMap.base_init (m := SliceMap.new) hslice
  have hinit := SliceMap.init_inv hslice
  rw [hnew] at hcov ⊢
  refine ⟨SliceMap.init_checks k (lt_of_le_of_lt (Nat.div_mul_le_self _ _) hlt), fun hpos => ?_⟩
  have hfree : ∀ i, ¬ (SliceMap.new.init (heapBase h.mem / sliceSize)).Free i := fun i hf => by
    simpa [SliceMap.init, SliceMap.new, Words.bitAt] using hf.2.2
  generalize SliceMap.new.init (heapBase h.mem / sliceSize) = m0 at *
  unfold initialFreeRange at hpos ⊢
  simp only at hpos ⊢
  have hfirst : m0.base ≤ divCeil (heapBase h.mem) sliceSize := by
    unfold divCeil sliceSize at *
    omega
  have hinside : m0.Inside (divCeil (heapBase h.mem) sliceSize)
      (sizeSlices h.mem - divCeil (heapBase h.mem) sliceSize) := ⟨hfirst, by omega⟩
  exact SliceMap.addFree_checks k hinit hinside.clipped fun i _ => hfree i

theorem acquireRun_checks (k : Check) {count e : Nat} (hi : Inv g h live) (hinit : h.initialized = true)
    (hb : h.InBounds) (hd : h.policy.StepChecks k) (hc : 1 ≤ count) (he : e ≤ usizeBits) (top : Bool) :
    h.AcquireRunChecks k count (2 ^ e) top := by
  have hinv := hi.core.slices.inv
  refine ⟨fun _ => SliceMap.allocTail_checks k hb.limit hc ⟨e, rfl⟩ _, fun m htail => ?_⟩
  have hm : m = h.slices := by
    cases top with
    | false => exact (Prod.mk.inj htail).2.symm
    | true => exact (SliceMap.allocTail_spec (sizeSlices h.mem) hinv hc).2 m htail
  subst hm
  refine ⟨SliceMap.alloc_checks k hinv hb.limit hc ⟨e, rfl⟩, fun m halloc => ?_⟩
  obtain ⟨hkeeps, -⟩ := (SliceMap.alloc_spec hinv hc).2 m halloc
  obtain ⟨hi1, -⟩ := keeps_inv hi hkeeps hinit
  have hgrows := h.slices.alloc_extent count (2 ^ e)
  rw [halloc] at hgrows
  have hb1 := hb.grows ((h.withSlices_grows hgrows).trans (Heap.releaseEmptyPages_grows _))
  obtain ⟨g2, hi2, -⟩ := releaseEmptyPages_inv hi1
  exact ⟨releaseEmptyPages_checks k hi1, Supply.acquire_checks k (hi2.supply_bounded hb1) hd hc he⟩

theorem extend_fst (b : Bytes) (p : Nat) : (Page.extend b p).1 = Page.isExpandable b p := by
  unfold Page.extend Page.isExpandable
  simp only
  split
  · exact (decide_eq_false (by omega)).symm
  · exact (decide_eq_true (by omega)).symm

/-- **A claimed run becomes a page** that is in no queue yet. -/
theorem Claims.newPage {g1 : Ghost} {h1 : Heap M} {run : Run}
    (hcl : Claims live g g1 h h1 (pageSlices n) (pageSlices n) run) (hn : 1 ≤ n) (hn' : n ≤ maxBin)
    (hp : run.start * sliceSize = p) : ∃ gp : Ghost,
      Core gp { h1 with bytes := Page.init h1.bytes p (kindOfBin n) n run.zeroed } live ∧
      Member gp (Page.init h1.bytes p (kindOfBin n) n run.zeroed) n p ∧ (∀ r, p ∉ gp.queue r) ∧
      (kindOfBin n).pageSize ∣ p := by
  have hcore := hcl.core
  have hpos := pageSlices_pos n
  have hback : p / sliceSize = run.start := by
    rw [← hp]
    exact Nat.mul_div_cancel _ (by decide)
  have hclaimed : ∀ i, InRun (p / sliceSize) (pageSlices n) i →
      (g1.paint (InRun run.start (pageSlices n)) .claimed).place i = .claimed := fun i hi =>
    paint_in (hback ▸ hi)
  have hdvd : (kindOfBin n).pageSize ∣ p := by
    rw [← hp, ← pageSlices_mul]
    exact Nat.mul_dvd_mul_right hcl.aligned sliceSize
  obtain ⟨hc2, haddr, hpage, -, -⟩ := hcore.newPage (z := run.zeroed) hn hn' hdvd hclaimed (by
    rw [hback]
    exact hcl.zeroed)
  have hbin : ((g1.paint (InRun run.start (pageSlices n)) .claimed).withPage p n).bin p = n :=
    Function.update_self _ _ _
  refine ⟨_, hc2, ?_, fun r hr => ?_, hdvd⟩
  · exact { addr := haddr, page := hpage, bin_pos := by rw [hbin]; exact hn,
            bin_le := by rw [hbin]; exact hn', home := Or.inl ⟨hbin.symm, Page.get_init hn hn' .flags⟩ }
  · have hpg := (hcore.queues.member r p hr).page
    unfold IsPage at hpg
    rw [hclaimed _ ⟨Nat.le_refl _, by omega⟩] at hpg
    cases hpg

theorem freshPage_checks (k : Check) (hmem : Memory.EndsInside M) (hi : Inv g h live)
    (hinit : h.initialized = true) (hb : h.InBounds) (hd : h.policy.StepChecks k) (hn : 1 ≤ n)
    (hn' : n ≤ maxBin) : h.FreshPageChecks k n := by
  obtain ⟨e, he, hpow⟩ := pageSlices_pow n
  have hdef : (kindOfBin n).pageSize / sliceSize = pageSlices n := rfl
  have hrun := acquireRun_checks k hi hinit hb hd (pageSlices_pos n) (le_usizeBits he) false
  have hacq := acquireRun_spec hi hinit (pageSlices_pos n) (le_usizeBits he) false
  have hgrows : h.Grows (h.acquireRun (pageSlices n) (2 ^ e) false).2 :=
    h.acquireRun_grows (pageSlices_pos n) false
  rw [← hpow] at hrun hacq hgrows
  unfold Heap.FreshPageChecks
  simp only [hdef]
  refine ⟨asserts_of ⟨hn, hn'⟩, hrun, fun run h1 hres => ?_⟩
  rw [hres] at hgrows hacq
  have hb1 := hb.grows hgrows
  rcases hacq with ⟨run', h1', g1, hres', hcl⟩ | ⟨h1', g1, hres', -⟩
  swap
  · cases hres'
  cases hres'
  have hmul := pageSlices_mul n
  have hpos := pageSlices_pos n
  -- The page ends where its last slice ends.
  have hend := hcl.core.slices.end_fits hmem hb1 (i := run.start + (pageSlices n - 1)) (by
    rw [paint_in ⟨by omega, by omega⟩]
    simp)
  have hstart := hcl.core.slices.start_fits (i := run.start) (by
    rw [paint_in ⟨by omega, by omega⟩]
    simp)
  rw [show run.start + (pageSlices n - 1) + 1 = run.start + pageSlices n by omega, Nat.add_mul, hmul]
    at hend
  generalize hp : run.start * sliceSize = p at *
  obtain ⟨gp, hc2, hmember, hnotin, hdvd⟩ := hcl.newPage hn hn' hp
  have hm3 := (pushFront_ok hc2.queues hmember hnotin).moved
  have hin3 := (hc2.moved hm3).1.pages _ _ hmember.page
  refine ⟨computes_of hstart, Page.init_checks k hn hn' hdvd hend run.zeroed,
    pushFront_checks k hc2.queues hc2.slices (bin_lt hn'), hin3.ok.toPageShape.extend_checks k,
    asserts_of ?_⟩
  have hgeo := (binGeometry hn hn').reserved_ge
  rw [extend_fst]
  unfold Page.isExpandable
  rw [hm3.edit.fields p hmember.addr _ rfl, hm3.edit.fields p hmember.addr _ rfl, Page.get_init hn hn',
    Page.get_init hn hn', decide_eq_true_eq]
  show 0 < blocksPerPage (kindOfBin n) (binSize n)
  omega

/-! ## The page search -/

section Search
omit [Memory.Contract M]

/-- Every page of a bin queue has been extended. -/
def Opened (g : Ghost) (h : Heap M) : Prop := ∀ q ≤ maxBin, ∀ x ∈ g.queue q, 1 ≤ (h.card x).capacity

/-- A page without room can be parked once its countdown is off. -/
theorem parked_setRetire (hi : Inv g h live) (hp : p ∈ g.queue qi) (hroom : NoRoom h.bytes p) :
    Parked g (h.setField p .retireExpire 0).bytes p := by
  obtain ⟨hin, haddr⟩ := hi.core.member hp
  have hv : 0 < 256 ^ Page.Field.retireExpire.width := Nat.pow_pos (by decide)
  obtain ⟨hi1, -⟩ := setRetire_inv hi hin.isPage (by decide) (Or.inr rfl)
  have hget : ∀ f : Page.Field, f ≠ .retireExpire →
      Page.get (h.setField p .retireExpire 0).bytes p f = Page.get h.bytes p f := fun f hf => by
    rw [get_setField haddr haddr hv, if_neg fun e => hf e.2]
  obtain ⟨hfree, hexp⟩ := hroom
  refine parked_of (hi1.core.member hp).1 ?_ ?_ (Page.get_set_same hv)
  · unfold Page.hasFree at hfree ⊢
    rw [hget _ (by decide)]
    exact hfree
  · unfold Page.isExpandable at hexp ⊢
    rw [hget _ (by decide), hget _ (by decide)]
    exact hexp

theorem park_inv (hi : Inv g h live) (hp : p ∈ g.queue qi) (hroom : NoRoom h.bytes p) :
    ∃ Q, Inv { g with queue := Q } (h.park qi p) live ∧ (∀ q ≤ maxBin, Q q = (g.queue q).erase p) ∧
      ∀ x, PageAddr x → ∀ f : Page.Field, f.heapOwned = false →
        Page.get (h.park qi p).bytes x f = Page.get h.bytes x f := by
  obtain ⟨hin, haddr⟩ := hi.core.member hp
  have hv : 0 < 256 ^ Page.Field.retireExpire.width := Nat.pow_pos (by decide)
  obtain ⟨hi1, -⟩ := setRetire_inv hi hin.isPage (by decide) (Or.inr rfl)
  obtain ⟨Q, hi2, -, hm2, ht2⟩ := moveToFull_inv hi1 hp (parked_setRetire hi hp hroom)
  have hfull := maxBin_lt_full
  refine ⟨Q, hi2, fun q hq => ht2.keeps q (by omega), fun x hx f hf =>
    (hm2.edit.fields x hx f hf).trans ?_⟩
  rw [get_setField haddr hx hv, if_neg fun e => by rw [e.2] at hf; cases hf]

theorem mostlyUsed_checks (k : Check) (hi : Inv g h live) (hp : p ∈ g.queue qi) :
    MostlyUsedChecks k h.bytes p := by
  have hok := (hi.core.member hp).1.ok
  have hused := hok.used_le
  have hcap := hok.capacity_le
  have hmax : Page.reservedOf (g.bin p) ≤ 8188 := (binGeometry hok.bin_pos hok.bin_le).reserved_le
  refine computes_of ⟨?_, ?_⟩
  · rw [hok.used]
    exact fits_of_le (by omega)
  · rw [hok.reserved]
    exact fits_of_le (by omega)

/-- **The candidate walk**: `done` lies behind it, the candidate among them. -/
theorem findCandidate_checks (k : Check) (hqi : qi ≤ maxBin) (left : Nat) (hleft : left ≤ 65536) :
    ∀ {g : Ghost} {h : Heap M} (done rest : List Nat) (candidate : Nat) (limit : Int), Inv g h live →
    g.queue qi = done ++ rest → Opened g h →
    (candidate ≠ 0 → candidate ∈ done ∧ Page.hasFree h.bytes candidate = false) →
    (left : Int) - 65536 ≤ limit →
    Heap.FindCandidateChecks k qi left h candidate limit (rest.headD 0) := by
  have h32 := two_pow_32_le
  -- The limit falls by one a page, so 65536 pages cannot take it below the range of the type.
  induction left with
  | zero =>
    intro g h done rest candidate limit _ _ _ _ _
    trivial
  | succ left ih =>
    intro g h done rest candidate limit hi hsplit hopened hcand hlimit hne
    obtain ⟨cur, rest, rfl⟩ : ∃ cur rest', rest = cur :: rest' := by
      cases rest with
      | nil => exact absurd rfl hne
      | cons cur rest => exact ⟨cur, rest, rfl⟩
    rw [List.headD_cons] at hne ⊢
    have hp : cur ∈ g.queue qi := by
      rw [hsplit]
      simp
    have hqok := hi.core.queues.queue qi (bin_lt hqi)
    have hnd := (List.nodup_cons.mp hqok.nodup).2
    rw [hsplit] at hqok hnd
    have hnext : h.field cur .next = rest.headD 0 := hqok.neighbours.1
    have hcurd : cur ∉ done := fun hmem =>
      (List.nodup_append.mp hnd).2.2 cur hmem cur List.mem_cons_self rfl
    rw [hnext]
    by_cases hroom : NoRoom h.bytes cur
    · rw [if_pos hroom]
      obtain ⟨hi1, -⟩ := setRetire_inv hi (hi.core.member hp).1.isPage (by decide) (Or.inr rfl)
      obtain ⟨Q, hi2, hkeeps, hfields⟩ := park_inv hi hp hroom
      refine ⟨moveToFull_checks k hi1.core hp, computes_of (by omega), ?_⟩
      refine ih (by omega) done rest candidate (limit - 1) hi2 ?_ ?_ (fun h0 => ?_) (by omega)
      · show Q qi = done ++ rest
        rw [hkeeps qi hqi, hsplit, List.erase_append_right _ hcurd, List.erase_cons_head]
      · intro q hq x hx
        replace hx : x ∈ Q q := hx
        rw [hkeeps q hq] at hx
        have hx := List.mem_of_mem_erase hx
        show 1 ≤ Page.get (h.park qi cur).bytes x .capacity
        rw [hfields x (hi.core.queues.addr x hx) _ rfl]
        exact hopened q hq x hx
      · obtain ⟨hmem, hfree⟩ := hcand h0
        refine ⟨hmem, ?_⟩
        have hca : PageAddr candidate := hi.core.queues.addr (q := qi) candidate (by
          rw [hsplit]
          exact List.mem_append_left _ hmem)
        unfold Page.hasFree at hfree ⊢
        rw [hfields candidate hca _ rfl]
        exact hfree
    · rw [if_neg hroom]
      refine ⟨fun h0 => ⟨asserts_of ?_, fun _ => mostlyUsed_checks k hi hp⟩, fun hgo => ?_⟩
      · obtain ⟨hmem, hfree⟩ := hcand h0
        refine hi.busy hopened hqi candidate ?_ hfree
        rw [hsplit]
        exact List.mem_append_left _ hmem
      · rw [not_or, Bool.not_eq_true] at hgo
        have hlow : (left : Int) - 65536 ≤ (h.weigh candidate limit cur).2 - 1 := by
          unfold Heap.weigh maxCandidates
          simp only
          split <;> omega
        refine ⟨computes_of (by omega), ih (by omega) (done ++ [cur]) rest _ _ hi ?_ hopened ?_ hlow⟩
        · rw [hsplit]
          simp
        · intro _
          rw [List.mem_append, List.mem_singleton]
          unfold Heap.weigh
          simp only
          split
          · exact ⟨Or.inr rfl, hgo.1⟩
          · rename_i h0
            obtain ⟨hmem, hfree⟩ := hcand h0
            split
            · exact ⟨Or.inr rfl, hgo.1⟩
            · exact ⟨Or.inl hmem, hfree⟩

theorem extendCandidate_checks (k : Check) (hi : Inv g h live) (hp : p ∈ g.queue qi)
    (hroomy : Roomy h.bytes p) : h.ExtendCandidateChecks k p := by
  refine fun _ hfree => ⟨(hi.core.member hp).1.ok.toPageShape.extend_checks k, asserts_of ?_⟩
  rw [extend_fst]
  exact hroomy.resolve_left fun e => by rw [hfree] at e; cases e

end Search

theorem findPage_checks (k : Check) (hmem : Memory.EndsInside M) (hi : Inv g h live)
    (hinit : h.initialized = true) (hb : h.InBounds) (hd : h.policy.StepChecks k) (hopened : Opened g h)
    (hn : 1 ≤ n) (hn' : n ≤ maxBin) : h.FindPageChecks k n := by
  have hlt := bin_lt hn'
  have hqok := hi.core.queues.queue n hlt
  have hcount := hi.core.queues.count_le hi.core.slices hlt
  have hcap := SliceMap.capacity_le
  rw [queueIndex_of_lt hlt, hqok.count] at hcount
  obtain ⟨Q, h1, found, hres, hi1, he1, hend, -⟩ := findCandidate_spec hn' (g.queue n).length []
    (g.queue n) 0 maxCandidates hi rfl (Nat.le_refl _) (Or.inl ⟨rfl, rfl⟩)
    (fun _ hx => absurd hx List.not_mem_nil)
  have hwalk := findCandidate_checks k hn' (g.queue n).length (by omega) [] (g.queue n) 0 maxCandidates hi
    rfl hopened (fun h0 => absurd rfl h0) (by unfold maxCandidates; omega)
  have hgrows := Heap.findCandidate_grows n (g.queue n).length h 0 maxCandidates ((g.queue n).headD 0)
  unfold Heap.FindPageChecks
  rw [hres] at hgrows
  have hb1 := hb.grows hgrows
  simp only [queueIndex_of_lt hlt, hqok.count, hqok.first, hres]
  refine ⟨queueIndex_checks k hlt, hwalk, ?_⟩
  rcases hend with ⟨h0, -⟩ | ⟨hfound, hroomy⟩
  · -- No candidate: a fresh page is taken.
    subst h0
    obtain ⟨g2, hi2, he2⟩ := collectRetired_inv hi1
    simp only [ne_eq, not_true_eq_false, decide_false, Bool.false_and, Bool.false_eq_true,
      if_false, if_true]
    refine ⟨fun h0 => absurd rfl h0, collectRetired_checks k hi1, ?_⟩
    refine freshPage_checks k hmem hi2 (he2.init (he1.init hinit)) (hb1.grows h1.collectRetired_grows)
      ?_ hn hn'
    rw [he2.policy, he1.policy]
    exact hd
  · have hne : found ≠ 0 := (hi1.core.queues.queue n hlt).ne_zero hfound
    refine ⟨extendCandidate_checks k hi1 hfound hroomy, ?_⟩
    by_cases hfree : Page.hasFree h1.bytes found = true
    · simp only [hfree, ne_eq, hne, not_false_eq_true, decide_true, Bool.not_true, Bool.and_false,
        Bool.false_eq_true, if_false]
      exact moveToFront_checks k hi1.core hfound
    · have hfree' : Page.hasFree h1.bytes found = false := by simpa using hfree
      obtain ⟨c, hext, -, hi2, -⟩ := extendPage_inv hi1 hfound hn' (hroomy.resolve_left hfree)
      simp only [hfree', ne_eq, hne, not_false_eq_true, decide_true, Bool.not_false, Bool.and_self,
        if_true, hext, if_false]
      exact moveToFront_checks k hi2.core hfound

end Wasmalloc
