import Wasmalloc.CallChecks
import Wasmalloc.Pace

/- What the heap writes: its own slices.

   Linear memory is shared. Within the memory there was before a call, the call changes
   bytes of recorded slices only, and the slices it comes to record lie behind that memory,
   in a region it was granted; its calls of `grow` keep the pace of the policy (`Confined`).
   The relation is reflexive and transitive, so it follows the code function by function;
   a step of a run keeps to it (`step_confined`), up to the initial memory which the first
   call records. -/
namespace Wasmalloc
open ByteMem

variable [Build] {M : Type} [Memory M] {live : List Block} {g g1 : Ghost} {h h1 h2 : Heap M} {b : Bytes}
  {p q qi n : Nat} {layout newLayout : Layout} {blk : Block} {a : Nat}

/-- The bytes `b` are the heap's, but for those of its own slices and those behind memory. -/
def Heap.Spares (h : Heap M) (b : Bytes) : Prop :=
  ∀ x, x / sliceSize < sizeSlices h.mem → ¬ h.slices.Recorded (x / sliceSize) → b x = h.bytes x

/-- Memory was not grown from `h` to `h1`. -/
structure Heap.Still (h h1 : Heap M) : Prop where
  log : h1.growLog = h.growLog
  policy : h1.policy = h.policy
  init : h1.initialized = h.initialized

/-- The calls of `grow` from `h` to `h1`, by the pace of the policy. -/
structure Heap.Paced (h h1 : Heap M) : Prop where
  base : h1.slices.base = h.slices.base
  policy : h1.policy = h.policy
  init : h.initialized = true → h1.initialized = true
  calls : ∃ new, h1.growLog = new ++ h.growLog ∧
    Climbs h.policy h.slices.base (sizeSlices h.mem) (sizeSlices h1.mem) (new.map GrowEntry.call)

/-- From `h` to `h1` no slice was lost, no byte of foreign memory was written, and memory
    was grown at the pace of the policy. -/
structure Confined (h h1 : Heap M) : Prop where
  size_le : sizeSlices h.mem ≤ sizeSlices h1.mem
  recorded : ∀ r ∈ h.slices.recorded, r ∈ h1.slices.recorded
  paced : h.Paced h1
  granted : ∀ r ∈ h1.slices.recorded, r ∈ h.slices.recorded ∨
    sizeSlices h.mem ≤ r.1 ∧ ∃ e ∈ h1.growLog, e.call.Covers r
  spares : h.Spares h1.bytes

/-! ## Composition -/

section Confined

omit [Build] [Memory M] in
theorem Heap.Still.refl (h : Heap M) : h.Still h := ⟨rfl, rfl, rfl⟩

theorem Heap.Still.paced (hs : h.Still h1) (hbase : h1.slices.base = h.slices.base)
    (hsize : sizeSlices h.mem ≤ sizeSlices h1.mem) : h.Paced h1 where
  base := hbase
  policy := hs.policy
  init := fun hi => hs.init.trans hi
  calls := ⟨[], hs.log, .idle hsize⟩

theorem Heap.Paced.trans (hp : h.Paced h1) (hp' : h1.Paced h2) : h.Paced h2 where
  base := hp'.base.trans hp.base
  policy := hp'.policy.trans hp.policy
  init := fun hi => hp'.init (hp.init hi)
  calls := by
    obtain ⟨new, hnew, hclimb⟩ := hp.calls
    obtain ⟨new', hnew', hclimb'⟩ := hp'.calls
    rw [hp.policy, hp.base] at hclimb'
    refine ⟨new' ++ new, by rw [hnew', hnew, List.append_assoc], ?_⟩
    rw [List.map_append]
    exact hclimb.append hclimb'

theorem Confined.log (c : Confined h h1) : ∀ e ∈ h.growLog, e ∈ h1.growLog := by
  obtain ⟨new, hnew, -⟩ := c.paced.calls
  exact fun e he => hnew ▸ List.mem_append_right _ he

theorem Confined.of_paced (hg : h.Grows h1) (hp : h.Paced h1) (hb : h.Spares h1.bytes) : Confined h h1 where
  size_le := hg.size_le
  recorded := by
    obtain ⟨new, hnew, -⟩ := hg.slices.recorded
    exact fun r hr => hnew ▸ List.mem_append_right _ hr
  paced := hp
  granted := hg.granted
  spares := hb

theorem Confined.of_grows (hg : h.Grows h1) (hs : h.Still h1) (hb : h.Spares h1.bytes) : Confined h h1 :=
  Confined.of_paced hg (hs.paced hg.slices.base hg.size_le) hb

omit [Build] in
theorem Heap.Spares.refl (h : Heap M) : h.Spares h.bytes := fun _ _ _ => rfl

theorem Confined.refl (h : Heap M) : Confined h h :=
  Confined.of_grows (Heap.Grows.refl h) (Heap.Still.refl h) (Heap.Spares.refl h)

theorem Confined.recorded_of_lt (c : Confined h h1) {i : Nat} (hlt : i < sizeSlices h.mem)
    (hr : h1.slices.Recorded i) : h.slices.Recorded i := by
  obtain ⟨r, hm, hin⟩ := hr
  rcases c.granted r hm with hm | ⟨hle, -⟩
  · exact ⟨r, hm, hin⟩
  · unfold InRun at hin
    omega

theorem Confined.trans (c : Confined h h1) (c' : Confined h1 h2) : Confined h h2 where
  size_le := le_trans c.size_le c'.size_le
  recorded := fun r hr => c'.recorded r (c.recorded r hr)
  paced := c.paced.trans c'.paced
  granted := by
    intro r hr
    rcases c'.granted r hr with hr | ⟨hle, hcov⟩
    · refine (c.granted r hr).imp_right ?_
      rintro ⟨hle, e, he, hcov⟩
      exact ⟨hle, e, c'.log e he, hcov⟩
    · exact Or.inr ⟨le_trans c.size_le hle, hcov⟩
  spares := by
    intro x hlt hno
    have hno1 : ¬ h1.slices.Recorded (x / sliceSize) := fun hr => hno (c.recorded_of_lt hlt hr)
    exact (c'.spares x (lt_of_lt_of_le hlt c.size_le) hno1).trans (c.spares x hlt hno)

/-- What is neither memory nor map nor log does not matter. -/
theorem Confined.same (hslices : h1.slices = h.slices) (hmem : h1.mem = h.mem) (hs : h.Still h1)
    (hbytes : h1.bytes = h.bytes) : Confined h h1 where
  size_le := by rw [hmem]
  recorded := fun r hr => hslices ▸ hr
  paced := hs.paced (by rw [hslices]) (by rw [hmem])
  granted := fun r hr => Or.inl (hslices ▸ hr)
  spares := fun x _ _ => congrFun hbytes x

theorem Confined.same_bytes (hg : h.Grows h1) (hs : h.Still h1) (hb : h1.bytes = h.bytes) : Confined h h1 :=
  Confined.of_grows hg hs fun _ _ _ => congrFun hb _

end Confined

/-! ## Edits of pages -/

theorem Core.spares_pages (hc : Core g h live)
    (hb : ∀ x, (∀ q, g.place (x / sliceSize) ≠ .page q) → b x = h.bytes x) : h.Spares b := by
  intro x _ hno
  refine hb x fun q hq => hno ((hc.slices.recorded _).mpr ?_)
  rw [hq]
  simp

theorem LinkEdit.spares (hc : Core g h live) (he : LinkEdit g h.bytes b) : h.Spares b :=
  hc.spares_pages fun _ hx => he.not_page hc.pages hx

theorem PageStep.spares {live' : List Block} {fl : List Nat} (hc : Core g h live)
    (hs : PageStep g h.bytes b live' p fl) : h.Spares b :=
  hc.spares_pages fun x hx => hs.outside x (hx p)

theorem Core.spares_header (hc : Core g h live) (hp : IsPage g p)
    (hb : ∀ x, x < p ∨ p + Page.size ≤ x → b x = h.bytes x) : h.Spares b := by
  refine hc.spares_pages fun x hx => hb x ?_
  by_contra hcon
  exact hx p ((hc.pages _ _ hp).header (by omega) (by omega))

theorem setField_confined (hc : Core g h live) (hp : IsPage g p) (f : Page.Field) (v : Nat) :
    Confined h (h.setField p f v) :=
  Confined.of_grows (h.setField_grows p f v) ⟨rfl, rfl, rfl⟩ (hc.spares_header hp fun _ hx => Page.set_out hx)

theorem Moved.confined {Q : Nat → List Nat} (hc : Core g h live) (m : Moved g Q h h1) : Confined h h1 := by
  refine Confined.of_grows ?_ ?_ (m.edit.spares hc)
  · rw [m.frame]
    exact Heap.Grows.frame (SliceMap.SameExtent.refl _) rfl rfl rfl
  · rw [m.frame]
    exact ⟨rfl, rfl, rfl⟩

theorem extend_confined (hc : Core g h live) (hp : IsPage g p) :
    Confined h { h with bytes := (Page.extend h.bytes p).2 } := by
  refine Confined.of_grows (h.withBytes_grows _) ⟨rfl, rfl, rfl⟩ (hc.spares_pages fun x hx => ?_)
  have hin := hc.pages _ _ hp
  have hok := hin.ok
  by_cases hroom : Page.get h.bytes p .capacity < Page.reservedOf (g.bin p)
  · obtain ⟨c, hext, hext', hok'⟩ := Page.extend_spec hok hroom
    have hcap := hok'.capacity_le
    have hword := hok.word_le_size
    have hsize := Page.size_le
    rw [hext'.capacity] at hcap
    have hout : x < p ∨ p + (kindOfBin (g.bin p)).pageSize ≤ x := by
      have hnot := hx p
      rw [ne_eq, hin.mem] at hnot
      omega
    have h64 : pageHeaderReserve ≤ (kindOfBin (g.bin p)).pageSize := by
      cases kindOfBin (g.bin p) <;> decide
    rw [hext]
    refine hext'.frame x (by omega) fun i _ hlt => ?_
    have hlo := Page.block_lower (p := p) (i := i) hok.bin_pos hok.bin_le
    have hup := Page.block_upper (p := p) (i := i) hok.bin_pos hok.bin_le (by omega)
    omega
  · unfold Page.extend
    simp only
    rw [if_pos (by rw [hok.reserved]; omega)]

/-! ## Page release -/

omit [Memory M] in
theorem Heap.freePage_still (h : Heap M) (p qi : Nat) : h.Still (h.freePage p qi) := by
  unfold Heap.freePage
  simp only [Heap.remove_eq]
  exact ⟨rfl, rfl, rfl⟩

theorem freePage_confined (hc : Core g h live) (hp : p ∈ g.queue qi) : Confined h (h.freePage p qi) :=
  Confined.of_grows (h.freePage_grows p qi) (h.freePage_still p qi) ((remove_ok hc.queues hp).edit.spares hc)

omit [Memory M] in
theorem Heap.retire_still (h : Heap M) (p : Nat) : h.Still (h.retire p) := by
  unfold Heap.retire
  simp only
  split
  · exact ⟨rfl, rfl, rfl⟩
  · exact h.freePage_still p _

theorem retire_confined (hc : Core g h live) (hp : p ∈ g.queue (g.bin p)) : Confined h (h.retire p) := by
  have hin := (hc.member hp).1
  have hset := fun v => hc.spares_header (b := Page.set h.bytes p .retireExpire v) hin.isPage
    fun _ hx => Page.set_out hx
  refine Confined.of_grows (h.retire_grows p) (h.retire_still p) ?_
  unfold Heap.retire
  simp only
  split
  · exact hset _
  · rw [show h.field p .bin = g.bin p from hin.ok.bin]
    exact (freePage_confined hc hp).spares

theorem agePage_confined {cur : Nat} (range : Nat × Nat) (hi : Inv g h live) (hp : cur ∈ g.queue qi)
    (hqi : qi ≤ maxBin) : Confined h (h.agePage qi cur range).1 := by
  have hin := (hi.core.member hp).1
  have hnot : cur ∉ g.queue fullQueue := fun hmem => by
    have := hi.core.queues.disjoint _ _ cur hmem hp
    have := maxBin_lt_full
    omega
  have hexp : h.field cur .retireExpire < 256 := Page.get_lt h.bytes cur .retireExpire
  have hset := setField_confined hi.core hin.isPage .retireExpire
  unfold Heap.agePage
  split
  · split
    · simp only
      split
      · obtain ⟨hi1, -⟩ := setRetire_inv (v := h.field cur .retireExpire - 1) hi hin.isPage (by omega)
          (Or.inl hnot)
        exact (hset _).trans (freePage_confined hi1.core hp)
      · exact hset _
    · exact hset _
  · exact Confined.refl h

theorem collectQueue_confined (hqi : qi ≤ maxBin) (left : Nat) : ∀ {g : Ghost} {h : Heap M}
    (range : Nat × Nat) {cur : Nat}, Inv g h live → (cur = 0 ∨ cur ∈ g.queue qi) →
    Confined h (Heap.collectQueue qi left (h, range) cur).1 := by
  induction left with
  | zero => exact fun _ _ _ _ => Confined.refl _
  | succ left ih =>
    intro g h range cur hi hcur
    by_cases h0 : cur = 0
    · rw [Heap.collectQueue, if_pos h0]
      exact Confined.refl h
    · rw [collectQueue_succ qi left h range h0]
      have hp := hcur.resolve_left h0
      obtain ⟨g1, hi1, hnext⟩ := agePage_inv range hi hqi hp
      exact (agePage_confined range hi hp hqi).trans (ih (h.agePage qi cur range).2 hi1 hnext)

theorem collectRetired_confined (hi : Inv g h live) : Confined h h.collectRetired := by
  have hfold : ∀ (l : List Nat), (∀ qi ∈ l, qi ≤ maxBin) → ∀ (g : Ghost) (s : Heap M × Nat × Nat),
      Inv g s.1 live → Confined s.1 (l.foldl (fun s qi =>
        Heap.collectQueue qi retireMaxPages s (s.1.queues (queueIndex qi)).first) s).1 := by
    intro l
    induction l with
    | nil => exact fun _ _ s _ => Confined.refl s.1
    | cons qi l ih =>
      intro hl g s hi
      have hle := hl qi List.mem_cons_self
      have hfirst := first_mem hi (bin_lt hle)
      obtain ⟨g1, hi1, -⟩ := collectQueue_inv hle retireMaxPages s.2 hi hfirst
      exact (collectQueue_confined hle retireMaxPages s.2 hi hfirst).trans
        (ih (fun q hq => hl q (List.mem_cons_of_mem _ hq)) g1 _ hi1)
  unfold Heap.collectRetired
  simp only
  split
  · refine (hfold _ (fun qi hqi => ?_) g (h, queueCount, 0) hi).trans (Confined.same rfl rfl ⟨rfl, rfl, rfl⟩ rfl)
    have := List.mem_range'_1.mp hqi
    omega
  · exact Confined.same rfl rfl ⟨rfl, rfl, rfl⟩ rfl

theorem releaseEmptyPages_confined (hi : Inv g h live) : Confined h h.releaseEmptyPages := by
  have hframe := (releaseEmptyPages_swept hi).frame
  have hstill : h.Still h.releaseEmptyPages := by
    rw [hframe]
    exact ⟨rfl, rfl, rfl⟩
  refine Confined.of_grows h.releaseEmptyPages_grows hstill (hi.core.spares_pages fun x hx => ?_)
  refine (releaseEmptyPages_swept hi).outside x fun q p hq => ?_
  have hin := (hi.core.member (hi.core.queued_iff.mp hq)).1
  by_contra hcon
  exact hx p (hin.header (by omega) (by omega))

/-! ## Page supply -/

theorem withSupply_confined {s : Supply M} (hs : h.supply.Grows s) (hc : Supply.Calls h.policy h.supply s) :
    Confined h (h.withSupply s) := by
  refine Confined.of_paced (h.withSupply_grows hs) ?_ fun x hlt _ => hs.bytes x hlt
  obtain ⟨new, hnew, hclimb⟩ := hc
  have hcalls : s.calls = new := by rw [hnew, show h.supply.calls = [] from rfl, List.append_nil]
  refine { base := hs.map.base, policy := rfl, init := id, calls := ⟨s.calls.map h.entry, rfl, ?_⟩ }
  have hmap : (s.calls.map h.entry).map GrowEntry.call = s.calls := by
    rw [List.map_map]
    exact List.map_id _
  rw [hmap, hcalls]
  exact hclimb

section Supply
variable [Memory.Contract M]

theorem acquireRun_confined {count e : Nat} (hi : Inv g h live) (hinit : h.initialized = true)
    (hc : 1 ≤ count) (he : e ≤ usizeBits) (top : Bool) : Confined h (h.acquireRun count (2 ^ e) top).2 := by
  have hinv := hi.core.slices.inv
  have htop : ∀ m, (if top then h.slices.allocTail count (2 ^ e) (sizeSlices h.mem)
      else (none, h.slices)) = (none, m) → m = h.slices := by
    intro m htail
    cases top with
    | false => exact (Prod.mk.inj htail).2.symm
    | true => exact (SliceMap.allocTail_spec (sizeSlices h.mem) hinv hc).2 m htail
  have htake : ∀ {m}, h.slices.SameExtent m → Confined h { h with slices := m } := fun hm =>
    Confined.same_bytes (h.withSlices_grows hm) ⟨rfl, rfl, rfl⟩ rfl
  have htail : h.slices.SameExtent (if top then h.slices.allocTail count (2 ^ e) (sizeSlices h.mem)
      else (none, h.slices)).2 := by
    cases top
    · exact SliceMap.SameExtent.refl _
    · exact SliceMap.allocTail_extent _ _ _ _
  unfold Heap.acquireRun
  simp only
  rcases hr : (if top then h.slices.allocTail count (2 ^ e) (sizeSlices h.mem) else (none, h.slices)) with
    ⟨_ | run, m⟩
  swap
  · rw [hr] at htail
    exact htake htail
  obtain rfl := htop m hr
  simp only
  have hgrows := h.slices.alloc_extent count (2 ^ e)
  rcases hm : h.slices.alloc count (2 ^ e) with ⟨_ | run, m⟩ <;> rw [hm] at hgrows
  swap
  · exact htake hgrows
  -- Neither the map nor its tail has the run: the empty pages go, and memory is grown.
  obtain ⟨hkeeps, -⟩ := (SliceMap.alloc_spec hinv hc).2 m hm
  obtain ⟨hi1, -⟩ := keeps_inv hi hkeeps hinit
  obtain ⟨g2, hi2, -⟩ := releaseEmptyPages_inv hi1
  have hs := hi2.core.slices
  exact ((htake hgrows).trans (releaseEmptyPages_confined hi1)).trans
    (withSupply_confined (Supply.acquire_grows _ _ hc) (Supply.acquire_calls _ hs.inv hs.base_le hc he))

theorem freshPage_confined (hi : Inv g h live) (hinit : h.initialized = true) (hn : 1 ≤ n) (hn' : n ≤ maxBin) :
    Confined h (h.freshPage n).2 := by
  obtain ⟨e, he, hpow⟩ := pageSlices_pow n
  have hdef : (kindOfBin n).pageSize / sliceSize = pageSlices n := rfl
  have hrun : Confined h (h.acquireRun (pageSlices n) (2 ^ e) false).2 :=
    acquireRun_confined hi hinit (pageSlices_pos n) (le_usizeBits he) false
  have hacq := acquireRun_spec hi hinit (pageSlices_pos n) (le_usizeBits he) false
  rw [← hpow] at hrun hacq
  unfold Heap.freshPage
  simp only [hdef]
  rcases hacq with ⟨run, h1, g1, hres, hcl⟩ | ⟨h1, g1, hres, -⟩ <;> rw [hres] at hrun ⊢
  swap
  · exact hrun
  simp only
  generalize hp : run.start * sliceSize = p at *
  obtain ⟨gp, hc2, hmember, hnotin, hdvd⟩ := hcl.newPage hn hn' hp
  -- The header, the links and the first blocks.
  have hinitial : Confined h1 { h1 with bytes := Page.init h1.bytes p (kindOfBin n) n run.zeroed } := by
    refine Confined.of_grows (h1.withBytes_grows _) ⟨rfl, rfl, rfl⟩ fun x _ hno => Page.write_out ?_
    by_contra hcon
    have hin := (hc2.pages _ _ hmember.page).header (x := x) (by omega) (by omega)
    refine hno ((hc2.slices.recorded _).mpr ?_)
    rw [hin]
    simp
  have hm3 := (pushFront_ok hc2.queues hmember hnotin).moved
  obtain ⟨hc3, -⟩ := hc2.moved hm3
  refine ((hrun.trans hinitial).trans (hm3.confined hc2)).trans (extend_confined hc3 hmember.page)

/-! ## The page search -/

omit [Memory.Contract M] in
theorem park_confined (hi : Inv g h live) (hp : p ∈ g.queue qi) (hroom : NoRoom h.bytes p) :
    Confined h (h.park qi p) := by
  have hin := (hi.core.member hp).1
  obtain ⟨hi1, -⟩ := setRetire_inv hi hin.isPage (by decide) (Or.inr rfl)
  obtain ⟨Q, -, -, hm, -⟩ := moveToFull_inv hi1 hp (parked_setRetire hi hp hroom)
  exact (setField_confined hi.core hin.isPage .retireExpire 0).trans (hm.confined hi1.core)

omit [Memory.Contract M] in
theorem findCandidate_confined (hqi : qi ≤ maxBin) (left : Nat) : ∀ {g : Ghost} {h : Heap M}
    (done rest : List Nat) (candidate : Nat) (limit : Int), Inv g h live → g.queue qi = done ++ rest →
    Confined h (Heap.findCandidate qi left h candidate limit (rest.headD 0)).1 := by
  induction left with
  | zero => exact fun _ _ _ _ _ _ => Confined.refl _
  | succ left ih =>
    intro g h done rest candidate limit hi hsplit
    cases rest with
    | nil =>
      rw [List.headD_nil, Heap.findCandidate, if_pos rfl]
      exact Confined.refl h
    | cons cur rest =>
      have hp : cur ∈ g.queue qi := by
        rw [hsplit]
        simp
      have hqok := hi.core.queues.queue qi (bin_lt hqi)
      have hne : cur ≠ 0 := hqok.ne_zero hp
      have hnd := (List.nodup_cons.mp hqok.nodup).2
      rw [hsplit] at hqok hnd
      have hnext : h.field cur .next = rest.headD 0 := hqok.neighbours.1
      have hcurd : cur ∉ done := fun hmem =>
        (List.nodup_append.mp hnd).2.2 cur hmem cur List.mem_cons_self rfl
      rw [List.headD_cons, findCandidate_succ left h candidate limit hne, hnext]
      split
      · rename_i hroom
        obtain ⟨Q, hi2, hkeeps, -⟩ := park_inv hi hp hroom
        refine (park_confined hi hp hroom).trans (ih done rest candidate (limit - 1) hi2 ?_)
        show Q qi = done ++ rest
        rw [hkeeps qi hqi, hsplit, List.erase_append_right _ hcurd, List.erase_cons_head]
      · split
        · exact Confined.refl h
        · exact ih (done ++ [cur]) rest _ _ hi (by rw [hsplit]; simp)

omit [Memory.Contract M] in
theorem useCandidate_confined (hi : Inv g h live) (hp : p ∈ g.queue n) (hn : n ≤ maxBin) :
    Confined h ((h.moveToFront n p).setField p .retireExpire 0) := by
  obtain ⟨Q, hi1, -, hm, -⟩ := moveToFront_inv hi hp hn
  have hpage : IsPage ({ g with queue := Q } : Ghost) p := (hi.core.member hp).1.isPage
  exact (hm.confined hi.core).trans (setField_confined hi1.core hpage _ _)

theorem findPage_confined (hi : Inv g h live) (hinit : h.initialized = true) (hn : 1 ≤ n) (hn' : n ≤ maxBin) :
    Confined h (h.findPage n).2 := by
  have hlt := bin_lt hn'
  have hqok := hi.core.queues.queue n hlt
  obtain ⟨Q, h1, found, hres, hi1, he1, hend, -⟩ := findCandidate_spec hn' (g.queue n).length []
    (g.queue n) 0 maxCandidates hi rfl (Nat.le_refl _) (Or.inl ⟨rfl, rfl⟩)
    (fun _ hx => absurd hx List.not_mem_nil)
  have hwalk := findCandidate_confined hn' (g.queue n).length [] (g.queue n) 0 maxCandidates hi rfl
  rw [hres] at hwalk
  unfold Heap.findPage
  simp only [queueIndex_of_lt hlt, hqok.count, hqok.first, hres]
  rcases hend with ⟨h0, -⟩ | ⟨hfound, hroomy⟩
  · -- No candidate: a fresh page is taken.
    subst h0
    obtain ⟨g2, hi2, he2⟩ := collectRetired_inv hi1
    simp only [ne_eq, not_true_eq_false, decide_false, Bool.false_and, Bool.false_eq_true,
      if_false, if_true]
    exact (hwalk.trans (collectRetired_confined hi1)).trans
      (freshPage_confined hi2 (he2.init (he1.init hinit)) hn hn')
  · have hne : found ≠ 0 := (hi1.core.queues.queue n hlt).ne_zero hfound
    by_cases hfree : Page.hasFree h1.bytes found = true
    · simp only [hfree, ne_eq, hne, not_false_eq_true, decide_true, Bool.not_true, Bool.and_false,
        Bool.false_eq_true, if_false]
      exact hwalk.trans (useCandidate_confined hi1 hfound hn')
    · have hfree' : Page.hasFree h1.bytes found = false := by simpa using hfree
      have hextend := extend_confined hi1.core (hi1.core.member hfound).1.isPage
      obtain ⟨c, hext, -, hi2, -⟩ := extendPage_inv hi1 hfound hn' (hroomy.resolve_left hfree)
      rw [hext] at hextend
      simp only [hfree', ne_eq, hne, not_false_eq_true, decide_true, Bool.not_false, Bool.and_self,
        if_true, hext, if_false]
      exact (hwalk.trans hextend).trans (useCandidate_confined hi2 hfound hn')

end Supply

/-! ## Allocation -/

theorem popBlock_confined (hc : Core g h live) (hp : IsPage g p) : Confined h (h.popBlock p).2 := by
  obtain ⟨b, hist, hframe⟩ := h.popBlock_frame p
  have hstill : h.Still (h.popBlock p).2 := by
    rw [hframe]
    exact ⟨rfl, rfl, rfl⟩
  refine Confined.of_grows (h.popBlock_grows p) hstill (hc.spares_header hp fun x hx => ?_)
  unfold Heap.popBlock Page.pop
  by_cases h0 : Page.get h.bytes p .free = 0
  · simp only [if_pos h0]
  · simp only [if_neg h0]
    rw [Page.set_out hx, Page.set_out hx]

theorem writesSpans_confined (hi : Inv g h live) (hw : WritesSpans g live h.bytes b) :
    Confined h { h with bytes := b } := by
  refine Confined.of_grows (h.withBytes_grows b) ⟨rfl, rfl, rfl⟩ fun x _ hno => (hw x).resolve_right ?_
  rintro ⟨blk, hm, hin⟩
  exact hno ((hi.core.slices.recorded _).mpr (span_slice hi.core.pages hi.core.blocks hm hin).2)

theorem takeBlock_confined (hi : Inv g h live) (hn : n ≤ maxBin) (hp : p ∈ g.queue n)
    (hfree : g.free p ≠ []) (hs : 1 ≤ layout.size) (hclass : classify layout = .bin n) (zero : Bool) :
    Confined h (h.takeBlock p layout zero).2 := by
  have hpopc := popBlock_confined hi.core (hi.core.member hp).1.isPage
  obtain ⟨a, g', h1, hpop, hh, hspan, -⟩ := popBlock_spec hi hn hp hfree hs hclass
  unfold Heap.takeBlock
  rw [hpop] at hpopc ⊢
  cases zero with
  | false => exact hpopc
  | true =>
    obtain ⟨c, hc, hout, -⟩ := clearBlock_bytes h1 p a layout.size
    have hbinned := classify_bin hs hclass
    have hsize := hbinned.size_le
    have hge := usizeBytes_le
    have hge' := (binGeometry hbinned.bin_pos hn).size_ge
    simp only [if_true]
    rw [hc]
    refine hpopc.trans (writesSpans_confined hh.inv fun x => (hout x).imp_right fun hx => ?_)
    refine ⟨⟨a, layout⟩, List.mem_cons_self, ?_⟩
    unfold InSpan
    rw [hspan]
    show a ≤ x ∧ x < a + binSize n
    omega

section Alloc
variable [Memory.Contract M]

theorem allocHuge_confined (hi : Inv g h live) (hinit : h.initialized = true) (zero top : Bool) :
    Confined h (h.allocHuge layout zero top).2 := by
  obtain ⟨e, he, halign, -⟩ := hugeAlign layout
  have hpos := hugeSlices_pos layout
  have hrun : Confined h (h.acquireRun (hugeSlices layout) (2 ^ e) top).2 := acquireRun_confined hi hinit hpos he top
  have hspec := acquireRun_spec hi hinit hpos he top
  unfold Heap.allocHuge
  simp only
  rw [halign]
  rcases hspec with ⟨run, h1, g1, hres, hcl⟩ | ⟨h1, g1, hres, -⟩ <;> rw [hres] at hrun ⊢
  swap
  · exact hrun
  have hclaim : Confined h
      { h1 with history := h1.history.claimed (run.start * sliceSize) (hugeSlices layout) } :=
    hrun.trans (Confined.same rfl rfl ⟨rfl, rfl, rfl⟩ rfl)
  simp only
  split
  · -- The bytes cleared lie in the run.
    refine hclaim.trans (Confined.of_grows (Heap.withBytes_grows _ _) ⟨rfl, rfl, rfl⟩ fun x _ hno => fill_out ?_)
    have hcovers := huge_covers layout
    by_contra hcon
    have hin : InRun run.start (hugeSlices layout) (x / sliceSize) := by
      rw [inRun_div]
      omega
    refine hno ((hcl.core.slices.recorded _).mpr ?_)
    rw [paint_in hin]
    simp
  · exact hclaim

omit [Memory.Contract M] in
theorem ensureInit_eq (hinit : h.initialized = true) : h.ensureInit = h := by
  unfold Heap.ensureInit
  rw [if_pos hinit]

omit [Memory.Contract M] in
theorem Core.initialized_of (hc : Core g h live) (hp : IsPage g p) : h.initialized = true := by
  by_contra hno
  have hforeign := hc.uninit_foreign (by simpa using hno) (p / sliceSize)
  unfold IsPage at hp
  rw [hp] at hforeign
  cases hforeign

theorem readied_confined (hi : Inv g h live) (hcov : h.initialized = false → CoversInitial h) :
    Confined h.ensureInit h.readied := by
  obtain ⟨⟨g1, hi1, -⟩, -⟩ := ensureInit_inv hi hcov
  unfold Heap.readied
  simp only
  split
  · have hcount : Confined h.ensureInit { h.ensureInit with genericCount := 0 } :=
      Confined.same rfl rfl ⟨rfl, rfl, rfl⟩ rfl
    exact hcount.trans (collectRetired_confined (hi1.bookkeeping _ _ _ _).1)
  · exact Confined.same rfl rfl ⟨rfl, rfl, rfl⟩ rfl

theorem allocGeneric_confined (hi : Inv g h live) (hcov : h.initialized = false → CoversInitial h)
    (hs : 1 ≤ layout.size) (zero : Bool) : Confined h.ensureInit (h.allocGeneric layout zero).2 := by
  unfold Heap.allocGeneric
  cases hclass : classify layout with
  | huge =>
    obtain ⟨⟨g1, hi1, -⟩, hinit⟩ := ensureInit_inv hi hcov
    exact allocHuge_confined hi1 hinit zero false
  | bin n =>
    have hbinned := classify_bin hs hclass
    have hlt := bin_lt hbinned.bin_lt
    simp only [queueIndex_of_lt hlt]
    split
    · rename_i hhead
      obtain ⟨-, hne, hfree⟩ := hhead
      have hmem := (first_mem hi hlt).resolve_left (by rw [queueIndex_of_lt hlt]; exact hne)
      rw [queueIndex_of_lt hlt] at hmem
      have hin := (hi.core.member hmem).1
      rw [ensureInit_eq (hi.core.initialized_of hin.isPage)]
      exact takeBlock_confined hi hbinned.bin_lt hmem (hin.ok.hasFree_iff.mp hfree) hs hclass zero
    · obtain ⟨⟨g2, hi2, -⟩, hinit⟩ := readied_inv hi hcov
      have hfind := (readied_confined hi hcov).trans
        (findPage_confined hi2 hinit hbinned.bin_pos hbinned.bin_lt)
      rw [← searchPage_eq] at hfind
      rcases searchPage_spec hi hcov hbinned.bin_pos hbinned.bin_lt with
        ⟨p, h1, g1, hres, hf⟩ | ⟨h1, g1, hres, -⟩ <;> rw [hres] at hfind ⊢
      · exact hfind.trans (takeBlock_confined hf.inv hbinned.bin_lt hf.queued hf.free hs hclass zero)
      · exact hfind

theorem alloc_confined (hi : Inv g h live) (hcov : h.initialized = false → CoversInitial h)
    (hs : 1 ≤ layout.size) : Confined h.ensureInit (h.alloc layout).2 := by
  unfold Heap.alloc
  simp only
  split
  · rename_i hsmall
    rcases direct_pop hi hs hsmall with hnone | ⟨n, hclass, hn, hp, hfree⟩
    · rw [hnone]
      exact allocGeneric_confined hi hcov hs false
    · have hpage := (hi.core.member hp).1.isPage
      have hpopc := popBlock_confined hi.core hpage
      obtain ⟨a, g1, h1, hpop, -⟩ := popBlock_spec hi hn hp hfree hs hclass
      rw [ensureInit_eq (hi.core.initialized_of hpage)]
      rw [hpop] at hpopc ⊢
      exact hpopc
  · exact allocGeneric_confined hi hcov hs false

theorem allocZeroed_confined (hi : Inv g h live) (hcov : h.initialized = false → CoversInitial h)
    (hs : 1 ≤ layout.size) : Confined h.ensureInit (h.allocZeroed layout).2 := by
  unfold Heap.allocZeroed
  simp only
  split
  · rename_i hsmall
    rcases direct_pop hi hs hsmall with hnone | ⟨n, hclass, hn, hp, hfree⟩
    · rw [hnone]
      exact allocGeneric_confined hi hcov hs true
    · have htake := takeBlock_confined hi hn hp hfree hs hclass true
      obtain ⟨a, g1, h1, hpop, -⟩ := popBlock_spec hi hn hp hfree hs hclass
      unfold Heap.takeBlock at htake
      rw [ensureInit_eq (hi.core.initialized_of (hi.core.member hp).1.isPage)]
      rw [hpop] at htake ⊢
      exact htake
  · exact allocGeneric_confined hi hcov hs true

end Alloc

/-! ## Freeing -/

theorem pushBlock_confined (hi : Inv g h (blk :: live)) (hclass : classify blk.layout = .bin n) :
    Confined h (h.pushBlock (Page.headerOf (kindOfBin n) blk.addr) blk.addr) := by
  obtain ⟨hstep, hcore, -⟩ := push_core hi hclass
  have hin := ((hi.core.blocks.block blk List.mem_cons_self).in_page hi.core.pages
    List.mem_cons_self hclass).1
  generalize Page.headerOf (kindOfBin n) blk.addr = p at *
  obtain ⟨q, hq⟩ := hi.settled.queued _ p hin.isPage (fun e => e)
  have hpush : Confined h { h with bytes := Page.push h.bytes p blk.addr } :=
    Confined.of_grows (h.withBytes_grows _) ⟨rfl, rfl, rfl⟩ (hstep.spares hi.core)
  unfold Heap.pushBlock
  simp only
  split
  swap
  · exact hpush
  obtain ⟨g1, h1, hdef, hi1, -, hmem, hbin, -⟩ := unfull_putBack hcore (hstep.settled hi) hi.unclaimed hq
  have hback : Confined { h with bytes := Page.push h.bytes p blk.addr } h1 := by
    rw [← hdef]
    split
    · rename_i hflag
      -- A flagged page is in the full queue.
      have hfull : p ∈ (g.withFree p (blk.addr :: g.free p)).queue fullQueue := by
        rcases (hcore.queues.member q p hq).home with ⟨-, hf⟩ | ⟨hfull, -⟩
        · unfold Page.inFullQueue at hflag
          rw [hf] at hflag
          cases hflag
        · exact hfull ▸ hq
      obtain ⟨Q, -, hm, -⟩ := unfull_inv hcore (hstep.settled hi) hi.unclaimed hfull
      exact hm.confined hcore
    · exact Confined.refl _
  unfold Heap.deallocTransition
  simp only
  rw [hdef]
  split
  · rw [← hbin] at hmem
    exact (hpush.trans hback).trans (retire_confined hi1.core hmem)
  · exact hpush.trans hback

/-- **`dealloc`** of a live block. -/
theorem dealloc_confined (hi : Inv g h (blk :: live)) : Confined h (h.dealloc blk.addr blk.layout) := by
  rw [dealloc_eq h blk.addr (hi.core.blocks.block blk List.mem_cons_self).size_pos]
  unfold Heap.deallocGeneric
  cases hclass : classify blk.layout with
  | huge => exact Confined.same_bytes (h.withSlices_grows (SliceMap.freeRun_extent _ _ _)) ⟨rfl, rfl, rfl⟩ rfl
  | bin n => exact pushBlock_confined hi hclass

/-! ## Resizing -/

section Resize
variable [Memory.Contract M]

theorem growRun_confined (hi : Inv g h live) (start oldN newN : Nat) :
    Confined h (h.growRun a start oldN newN).2 := by
  have hgrow := (releaseEmptyPages_confined hi).trans (withSupply_confined
    (Supply.extendWithGrowth_grows h.releaseEmptyPages.supply h.releaseEmptyPages.policy start oldN (newN - oldN))
    (Supply.extendWithGrowth_calls _ _ start oldN (newN - oldN)))
  unfold Heap.growRun
  simp only
  rcases hs : Supply.extendWithGrowth h.releaseEmptyPages.supply h.releaseEmptyPages.policy start oldN
    (newN - oldN) with ⟨_ | z, s⟩ <;> rw [hs] at hgrow
  · exact hgrow
  · exact hgrow.trans (Confined.same rfl rfl ⟨rfl, rfl, rfl⟩ rfl)

theorem resizeInPlace_confined (hi : Inv g h (⟨a, layout⟩ :: live)) :
    Confined h (h.resizeInPlace a layout newLayout).2 := by
  cases hold : classify layout with
  | bin old =>
    unfold Heap.resizeInPlace
    rw [hold]
    cases classify newLayout <;> exact Confined.refl h
  | huge =>
    cases hnew : classify newLayout with
    | bin new =>
      unfold Heap.resizeInPlace
      rw [hold, hnew]
      exact Confined.refl h
    | huge =>
      have hclaim : ∀ {m hist}, h.slices.SameExtent m →
          Confined h { h with slices := m, history := hist } := fun hm =>
        (Confined.same_bytes (h.withSlices_grows hm) ⟨rfl, rfl, rfl⟩ rfl).trans
          (Confined.same rfl rfl ⟨rfl, rfl, rfl⟩ rfl)
      rw [resizeInPlace_huge hold hnew rfl rfl]
      split
      · exact Confined.refl h
      split
      · exact hclaim (SliceMap.shrink_extent _ _ _ _)
      have htry := SliceMap.tryExtend_extent h.slices (a / sliceSize) (hugeSlices layout)
        (hugeSlices newLayout - hugeSlices layout)
      rcases hr : h.slices.tryExtend (a / sliceSize) (hugeSlices layout)
        (hugeSlices newLayout - hugeSlices layout) with ⟨_ | z, m⟩
      · obtain ⟨rfl, -⟩ := (SliceMap.tryExtend_spec hi.core.slices.inv (run_inside hi hold).1).2 m hr
        exact growRun_confined hi _ _ _
      · rw [hr] at htry
        exact hclaim htry

/-- **The copy and the free** of a move. -/
theorem moveBlock_confined (hi : Inv g h (⟨a, layout⟩ :: live)) (hs : 1 ≤ newLayout.size) :
    Confined h (h.moveBlock a layout newLayout).2 := by
  have hinit := hi.initialized List.mem_cons_self
  have hcov : h.initialized = false → CoversInitial h := fun h0 => by
    rw [hinit] at h0
    cases h0
  have htarget : Confined h (h.moveTarget newLayout).2 := by
    unfold Heap.moveTarget
    cases classify newLayout with
    | huge => exact allocHuge_confined hi hinit false true
    | bin n =>
      have halloc := alloc_confined hi hcov hs
      rwa [ensureInit_eq hinit] at halloc
  have hserves := moveTarget_serves hi hs
  rw [moveBlock_eq]
  rcases hserves with ⟨q, h1, g1, hres, hi1, -⟩ | ⟨h1, hres, -⟩ <;> rw [hres] at htarget ⊢
  swap
  · exact htarget
  -- The copy stays inside the new block.
  have hcopy : Confined h1 { h1 with bytes := copy h1.bytes a q (min layout.size newLayout.size) } := by
    refine Confined.of_grows (h1.withBytes_grows _) ⟨rfl, rfl, rfl⟩ fun x _ hno => copy_out ?_
    by_contra hcon
    have hm : ⟨q, newLayout⟩ ∈ (⟨a, layout⟩ :: ⟨q, newLayout⟩ :: live : List Block) := by simp
    have hsize := size_le_span hi1.core.pages hi1.core.blocks hm
    have hin : InSpan g1 ⟨q, newLayout⟩ x := by
      unfold InSpan
      simp only at hsize ⊢
      omega
    exact hno ((hi1.core.slices.recorded _).mpr (span_slice hi1.core.pages hi1.core.blocks hm hin).2)
  exact (htarget.trans hcopy).trans (dealloc_confined hi1)

/-- **`realloc`** of a live block. -/
theorem realloc_confined (hi : Inv g h (⟨a, layout⟩ :: live)) {newSize : Nat} (hs : 1 ≤ newSize)
    (fits : newSize + layout.align ≤ usizeSize / 2) : Confined h (h.realloc a layout newSize fits).2 := by
  have hs' : 1 ≤ (layout.withSize newSize fits).size := hs
  unfold Heap.realloc
  split
  · exact Confined.refl h
  have hplace : Confined h (h.resizeInPlace a layout (layout.withSize newSize fits)).2 :=
    resizeInPlace_confined hi
  simp only
  rcases resizeInPlace_resized hi hs' rfl with ⟨q, h1, g1, hres, -⟩ | ⟨h1, g1, hres, hi1, -⟩ <;>
    rw [hres] at hplace ⊢
  · exact hplace
  · exact hplace.trans (moveBlock_confined hi1 hs')

end Resize

/-! ## Every run -/

section Runs
variable [Memory.Contract M] {c : Config M} {e : Event M}

/-- The event is the program's, not the other code's. -/
def Event.own : Event M → Prop
  | .outside _ _ => False
  | _ => True

omit [Memory M] [Memory.Contract M] in
theorem answer_heap (c : Config M) (layout : Layout) (rest : List Block) (r : Option Nat × Heap M) :
    (c.answer layout rest r).heap = r.2 := by
  rcases r with ⟨_ | a, h⟩ <;> rfl

/-- **One step** is confined, from the heap as the first call prepares it. -/
theorem step_confined (hi : Inv g c.heap c.live) (ha : c.Allowed e) (hown : e.own) :
    Confined c.heap (c.step e).heap ∨ Confined c.heap.ensureInit (c.step e).heap := by
  cases e with
  | alloc layout =>
    refine Or.inr ?_
    show Confined _ (c.answer _ _ _).heap
    rw [answer_heap]
    exact alloc_confined hi ha.2 ha.1
  | allocZeroed layout =>
    refine Or.inr ?_
    show Confined _ (c.answer _ _ _).heap
    rw [answer_heap]
    exact allocZeroed_confined hi ha.2 ha.1
  | dealloc blk => exact Or.inl (dealloc_confined (hi.perm (List.perm_cons_erase ha)))
  | realloc blk newSize fits =>
    refine Or.inl ?_
    show Confined _ (c.answer _ _ _).heap
    rw [answer_heap]
    exact realloc_confined (hi.perm (List.perm_cons_erase ha.1)) ha.2 fits
  | write bytes =>
    refine Or.inl (Confined.of_grows (c.heap.withBytes_grows bytes) ⟨rfl, rfl, rfl⟩ fun x _ hno => ?_)
    refine (ha x).resolve_right fun hx => ?_
    obtain ⟨blk, hm, hin⟩ := LiveByte.inSpan hi.core.pages hi.core.blocks hx
    exact hno ((hi.core.slices.recorded _).mpr (span_slice hi.core.pages hi.core.blocks hm hin).2)
  | outside mem bytes => exact absurd hown id

/-- The initial memory a heap records at its first allocation. -/
def Heap.initialRange (h : Heap M) : Nat × Nat := initialFreeRange (heapBase h.mem) (sizeSlices h.mem)

omit [Memory.Contract M] in
theorem ensureInit_extent (h : Heap M) : h.ensureInit.bytes = h.bytes ∧ h.ensureInit.mem = h.mem ∧
    h.ensureInit.growLog = h.growLog ∧ (∀ r ∈ h.slices.recorded, r ∈ h.ensureInit.slices.recorded) ∧
    ∀ r ∈ h.ensureInit.slices.recorded, r ∈ h.slices.recorded ∨
      h.initialized = false ∧ 0 < h.initialRange.2 ∧ h.initialRange.1 ≤ r.1 ∧
        r.1 + r.2 ≤ h.initialRange.1 + h.initialRange.2 := by
  unfold Heap.ensureInit Heap.initialRange
  split
  · exact ⟨rfl, rfl, rfl, fun _ hr => hr, fun _ hr => Or.inl hr⟩
  rename_i hinit
  simp only
  split
  swap
  · exact ⟨rfl, rfl, rfl, fun _ hr => hr, fun _ hr => Or.inl hr⟩
  rename_i hpos
  generalize initialFreeRange (heapBase h.mem) (sizeSlices h.mem) = range at *
  obtain ⟨-, new, hnew, hrange⟩ :=
    (h.slices.init (heapBase h.mem / sliceSize)).addFree_extent range.1 range.2 false
  have hclip := SliceMap.clippedCount_le range.1 range.2
  refine ⟨rfl, rfl, rfl, fun r hr => hnew ▸ List.mem_append_right _ hr, fun r hr => ?_⟩
  have hr : r ∈ ((h.slices.init (heapBase h.mem / sliceSize)).addFree range.1 range.2 false).recorded := hr
  rw [hnew] at hr
  rcases List.mem_append.mp hr with hr | hr
  · rw [hrange r hr]
    exact Or.inr ⟨by simpa using hinit, hpos, Nat.le_refl _, Nat.add_le_add_left hclip _⟩
  · exact Or.inl hr

/-- **What a call writes and records**: inside the memory there was, it changes bytes of
    recorded slices only; and new slices lie behind that memory, or are the initial range. -/
structure Footprint (h h1 : Heap M) : Prop where
  size_le : sizeSlices h.mem ≤ sizeSlices h1.mem
  recorded : ∀ r ∈ h.slices.recorded, r ∈ h1.slices.recorded
  log : ∀ e ∈ h.growLog, e ∈ h1.growLog
  granted : ∀ r ∈ h1.slices.recorded, r ∈ h.slices.recorded ∨
    (sizeSlices h.mem ≤ r.1 ∧ ∃ e ∈ h1.growLog, e.call.Covers r) ∨
    (h.initialized = false ∧ 0 < h.initialRange.2 ∧ h.initialRange.1 ≤ r.1 ∧
      r.1 + r.2 ≤ h.initialRange.1 + h.initialRange.2)
  bytes : ∀ x, x / sliceSize < sizeSlices h.mem → ¬ h1.slices.Recorded (x / sliceSize) → h1.bytes x = h.bytes x

theorem step_footprint (hi : Inv g c.heap c.live) (ha : c.Allowed e) (hown : e.own) :
    Footprint c.heap (c.step e).heap := by
  rcases step_confined hi ha hown with hconf | hconf
  · refine { size_le := hconf.size_le, recorded := hconf.recorded, log := hconf.log,
             granted := fun r hr => (hconf.granted r hr).imp_right Or.inl, bytes := fun x hlt hno => ?_ }
    exact hconf.spares x hlt fun ⟨r, hr, hin⟩ => hno ⟨r, hconf.recorded r hr, hin⟩
  · obtain ⟨hbytes, hmem, hlog, hkeep, hnew⟩ := ensureInit_extent c.heap
    refine { size_le := hmem ▸ hconf.size_le, recorded := fun r hr => hconf.recorded r (hkeep r hr),
             log := fun e' he => hconf.log e' (hlog ▸ he), granted := fun r hr => ?_,
             bytes := fun x hlt hno => ?_ }
    · rcases hconf.granted r hr with hr | hgrant
      · exact (hnew r hr).imp_right Or.inr
      · rw [hmem] at hgrant
        exact Or.inr (Or.inl hgrant)
    · rw [← hbytes]
      exact hconf.spares x (hmem ▸ hlt) fun ⟨r, hr, hin⟩ => hno ⟨r, hconf.recorded r hr, hin⟩

/-- The runs from `c` on in which no other code acts. -/
def Config.alone (c : Config M) : Run.System (Config M) (Event M) :=
  { init := (· = c), allowed := fun s e => s.Allowed e ∧ e.own, step := Config.step }

/-- **Foreign memory is untouched**: a run in which no other code acts changes no byte of the
    memory there was, but in slices that the heap has recorded. -/
theorem foreign_untouched {c' : Config M} (hc : Reachable c) (hr : Run.Reachable c.alone c') {x : Nat}
    (hx : x / sliceSize < sizeSlices c.heap.mem) (hno : ¬ c'.heap.slices.Recorded (x / sliceSize)) :
    c'.heap.bytes x = c.heap.bytes x := by
  have hinv : Reachable c' ∧ sizeSlices c.heap.mem ≤ sizeSlices c'.heap.mem ∧
      (¬ c'.heap.slices.Recorded (x / sliceSize) → c'.heap.bytes x = c.heap.bytes x) := by
    refine hr.invariant (I := fun s => Reachable s ∧ sizeSlices c.heap.mem ≤ sizeSlices s.heap.mem ∧
      (¬ s.heap.slices.Recorded (x / sliceSize) → s.heap.bytes x = c.heap.bytes x)) ?_ ?_
    · rintro s rfl
      exact ⟨hc, Nat.le_refl _, fun _ => rfl⟩
    · rintro s e ⟨hs, hle, hsame⟩ ⟨ha, hown⟩
      obtain ⟨g, hi⟩ := reachable_ok hs
      have hf := step_footprint hi ha hown
      refine ⟨reachable_step hs ha, le_trans hle hf.size_le, fun hno => ?_⟩
      refine (hf.bytes x (lt_of_lt_of_le hx hle) hno).trans (hsame ?_)
      exact fun ⟨r, hr, hin⟩ => hno ⟨r, hf.recorded r hr, hin⟩
  exact hinv.2.2 hno

end Runs

end Wasmalloc

namespace Wasmalloc.Sample

/-- A request for a run, which grows memory. -/
def grown : Config SimMemory := held.step (.allocZeroed huge)

theorem grown_alone : Run.Reachable start.alone grown :=
  Run.Reachable.step (S := start.alone) (e := .allocZeroed huge)
    (Run.Reachable.step (S := start.alone) (e := .alloc small) (.init rfl)
      ⟨(start_allowed small (by decide)).1, trivial⟩)
    ⟨(held_allowed huge (by decide)).2, trivial⟩

theorem grown_recorded : grown.heap.slices.recorded = [(3, 2), (2, 1)] := by decide +kernel

/-- A page and a cleared run later, the slice below the heap base holds what it held. -/
theorem grown_untouched : grown.heap.bytes 70000 = 255 := by
  refine foreign_untouched start_reachable grown_alone (x := 70000) (by decide) ?_
  rintro ⟨r, hr, hin⟩
  rw [grown_recorded] at hr
  unfold InRun at hin
  revert r
  decide

end Wasmalloc.Sample
