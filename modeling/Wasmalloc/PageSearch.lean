import Wasmalloc.PageSupply

/- Finding a page with a free block.

   A step on the blocks of one page keeps the invariant when it keeps the page
   (`PageStep.core`); `extend` is such a step. The candidate search parks the pages it
   passes that have no room and ends with a page that has some, or with an empty queue
   (`findCandidate_spec`); a fresh page is claimed slices with a new header
   (`freshPage_spec`). Either way `findPage` ends with a page of the bin that has a free
   block, or with the page supply exhausted and no page of the bin in its queue
   (`findPage_spec`). -/
namespace Wasmalloc
open ByteMem

variable [Build] {M : Type} [Memory M] {live : List Block} {g g' : Ghost} {h h' : Heap M}
  {b c : Bytes} {p qi : Nat}

/-! ## A step on one page -/

omit [Build] in
/-- The ghost state once the free list of page `p` is `fl`. -/
def Ghost.withFree (g : Ghost) (p : Nat) (fl : List Nat) : Ghost :=
  { g with free := Function.update g.free p fl }

/-- The blocks of page `p` moved: the page is well formed, and nothing else changed. -/
structure PageStep (g : Ghost) (b c : Bytes) (live : List Block) (p : Nat) (fl : List Nat) : Prop where
  ok : Page.PageOk c p (g.bin p) fl (liveIn live p)
  owned : ∀ f : Page.Field, f.heapOwned = true → Page.get c p f = Page.get b p f
  outside : ∀ x, g.place (x / sliceSize) ≠ .page p → c x = b x

section PageStep
variable {fl : List Nat} {live' : List Block} {hist : History}

theorem PageStep.get (hs : PageStep g b c live' p fl) (hp : PagesOk g b live) {q : Nat}
    (hq : IsPage g q) (hne : q ≠ p) (f : Page.Field) : Page.get c q f = Page.get b q f := by
  refine Page.get_congr fun x hlo hhi => hs.outside x ?_
  rw [(hp _ _ hq).header hlo hhi]
  exact fun e => hne (Place.page.inj e)

/-- **A step on one page** keeps the invariant, given the blocks afterwards. -/
theorem PageStep.core (hs : PageStep g h.bytes c live' p fl) (hc : Core g h live)
    (hlive : ∀ q, q ≠ p → liveIn live' q = liveIn live q) (hblocks : BlocksOk g hist live') :
    Core (g.withFree p fl) { h with bytes := c, history := hist } live' := by
  refine { slices := ?_, pages := ?_, blocks := ?_, queues := ?_, sentinel := ?_,
           uninit := hc.uninit, log := hc.log }
  · refine hc.slices.congr fun x hx => hs.outside x ?_
    rw [hx]
    simp
  · intro i q hq
    have hin := hc.pages i q hq
    refine { ok := ?_, slices := hin.slices }
    by_cases hqp : q = p
    · show Page.PageOk c q (g.bin q) (Function.update g.free p fl q) (liveIn live' q)
      rw [hqp, Function.update_self]
      exact hs.ok
    · show Page.PageOk c q (g.bin q) (Function.update g.free p fl q) (liveIn live' q)
      rw [Function.update_of_ne hqp, hlive q hqp]
      refine hin.ok.congr (fun f _ => hs.get hc.pages hin.isPage hqp f) ?_
      intro x hlo hhi _
      refine hs.outside x ?_
      rw [hin.mem.mpr ⟨by omega, hhi⟩]
      exact fun e => hqp (Place.page.inj e)
  · exact { nodup := hblocks.nodup, runs := hblocks.runs
            block := fun blk hm => { size_pos := (hblocks.block blk hm).size_pos
                                     aligned := (hblocks.block blk hm).aligned
                                     page := (hblocks.block blk hm).page
                                     run := (hblocks.block blk hm).run } }
  · have hok := hc.queues.congr (c := c) fun q x hx f hf _ => by
      by_cases hxp : x = p
      · rw [hxp]
        exact hs.owned f hf
      · exact hs.get hc.pages (hc.queues.member q x hx).page hxp f
    exact { queue := hok.queue, disjoint := hok.disjoint, direct_eq := hok.direct_eq,
            occupied_iff := hok.occupied_iff
            member := fun q x hx => { addr := (hok.member q x hx).addr
                                      page := (hok.member q x hx).page
                                      bin_pos := (hok.member q x hx).bin_pos
                                      bin_le := (hok.member q x hx).bin_le
                                      home := (hok.member q x hx).home } }
  · intro x hlo hhi
    refine (hs.outside x ?_).trans (hc.sentinel x hlo hhi)
    rw [hc.slices.sentinel hlo hhi]
    simp

theorem PageStep.settled (hs : PageStep g h.bytes c live' p fl) (hi : Inv g h live) :
    Settled (g.withFree p fl) c fun x => x = p := by
  refine { queued := fun i x hx _ => hi.settled.queued i x hx (fun e => e), parked := ?_ }
  intro x hx hne
  have hpk := hi.settled.parked x hx (fun e => e)
  have hget := hs.get hi.core.pages (hi.core.queues.member _ x hx).page hne
  refine { free := ?_, capacity := (hget _).trans hpk.capacity, retire := (hget _).trans hpk.retire }
  show Function.update g.free p fl x = []
  rw [Function.update_of_ne hne]
  exact hpk.free

theorem PageStep.untouched (hs : PageStep g h.bytes c live' p fl) (hc : Core g h live)
    (hin : ∀ x, Page.InBlocks (binSize (g.bin p)) (liveIn live p) x → c x = h.bytes x) :
    ∀ x, LiveByte live x → c x = h.bytes x := by
  intro x hx
  rcases live_place hc.pages hc.blocks hx with ⟨q, hq, hblock⟩ | ⟨a, ha⟩
  · by_cases hqp : q = p
    · rw [hqp] at hblock
      exact hin x hblock
    · refine hs.outside x ?_
      rw [hq]
      exact fun e => hqp (Place.page.inj e)
  · refine hs.outside x ?_
    rw [ha]
    simp

theorem PageStep.inv (hs : PageStep g h.bytes c live' p fl) (hi : Inv g h live)
    (hp : p ∈ g.queue qi) (hqi : qi ≤ maxBin)
    (hlive : ∀ q, q ≠ p → liveIn live' q = liveIn live q) (hblocks : BlocksOk g hist live') :
    Inv (g.withFree p fl) { h with bytes := c, history := hist } live' := by
  have hset := hs.settled hi
  refine { core := hs.core hi.core hlive hblocks, unclaimed := hi.unclaimed, settled := ?_ }
  refine { queued := fun i x hx _ => hi.settled.queued i x hx (fun e => e), parked := ?_ }
  intro x hx _
  refine hset.parked x hx fun he => ?_
  have := hi.core.queues.disjoint _ _ p (he ▸ hx) hp
  have := maxBin_lt_full
  omega

end PageStep

/-! ## Extending a page -/

/-- A page with a free block, or with a block it has not used yet. -/
def Roomy (b : Bytes) (p : Nat) : Prop := Page.hasFree b p = true ∨ Page.isExpandable b p = true

/-- What extending page `p` leaves of the headers. -/
structure Extends (g : Ghost) (b c : Bytes) (p : Nat) : Prop where
  others : ∀ x, IsPage g x → x ≠ p → ∀ f, Page.get c x f = Page.get b x f
  same : ∀ f, f ≠ .free → f ≠ .capacity → Page.get c p f = Page.get b p f
  capacity : Page.get b p .capacity ≤ Page.get c p .capacity

/-- **Extending** a page of a bin queue puts the next blocks on its free list. -/
theorem extendPage_inv (hi : Inv g h live) (hp : p ∈ g.queue qi) (hqi : qi ≤ maxBin)
    (hroom : Page.isExpandable h.bytes p = true) :
    ∃ c, Page.extend h.bytes p = (true, c) ∧ Page.get h.bytes p .capacity < Page.reservedOf (g.bin p) ∧
      Inv (g.withFree p (Page.extensionOf h.bytes p (g.bin p) ++ g.free p)) { h with bytes := c } live ∧
      Preserves live h { h with bytes := c } ∧ Extends g h.bytes c p ∧
      Page.get c p .capacity = Page.get h.bytes p .capacity +
        Page.batch (g.bin p) (Page.get h.bytes p .capacity) := by
  obtain ⟨hin, -⟩ := hi.core.member hp
  have hok := hin.ok
  have hlt : Page.get h.bytes p .capacity < Page.reservedOf (g.bin p) := by
    unfold Page.isExpandable at hroom
    rw [decide_eq_true_eq, hok.reserved] at hroom
    exact hroom
  obtain ⟨c, hext, hx, hok'⟩ := Page.extend_spec hok hlt
  have hword := hok.word_le_size
  have hsize := Page.size_le
  have hcap' := hok'.capacity_le
  rw [hx.capacity] at hcap'
  have hstep : PageStep g h.bytes c live p (Page.extensionOf h.bytes p (g.bin p) ++ g.free p) := by
    refine { ok := hok', owned := fun f hf => hx.rest f ?_ ?_, outside := ?_ }
    · exact Page.Field.heapOwned_ne hf rfl
    · exact Page.Field.heapOwned_ne hf rfl
    · intro x hout
      rw [ne_eq, hin.mem] at hout
      have h64 : pageHeaderReserve ≤ (kindOfBin (g.bin p)).pageSize := by
        cases kindOfBin (g.bin p) <;> decide
      refine hx.frame x (by omega) ?_
      intro i _ hlt'
      have hlo := Page.block_lower (p := p) (i := i) hok.bin_pos hok.bin_le
      have hup := Page.block_upper (p := p) (i := i) hok.bin_pos hok.bin_le (by omega)
      omega
  have huntouched := hstep.untouched hi.core fun x ⟨a, ha, hlo, hhi⟩ => by
    have hins := (hok.inside (List.mem_append_right _ ha)).1
    refine hx.frame x (by omega) ?_
    intro i hge _
    have hap := hok.apart_fresh (List.mem_append_right (g.free p) ha) hge
    unfold Apart at hap
    omega
  exact ⟨c, hext, hlt, hstep.inv hi hp hqi (fun _ _ => rfl) hi.core.blocks,
    { untouched := huntouched, recorded := fun _ hr => hr, size_le := Nat.le_refl _, policy := rfl,
      init := id },
    { others := fun x hx hne f => hstep.get hi.core.pages hx hne f, same := hx.rest,
      capacity := by rw [hx.capacity]; exact Nat.le_add_right _ _ }, hx.capacity⟩

theorem extended_ne_nil {n : Nat} (hroom : Page.get b p .capacity < Page.reservedOf n) (fl : List Nat) :
    (g.withFree p (Page.extensionOf b p n ++ fl)).free p ≠ [] := by
  show Function.update g.free p (Page.extensionOf b p n ++ fl) p ≠ []
  rw [Function.update_self]
  exact List.append_ne_nil_of_left_ne_nil (Page.extensionOf_ne_nil hroom) fl

/-! ## The candidate search -/

theorem parked_of (hin : PageIn g b live p) (hfree : Page.hasFree b p = false)
    (hexp : Page.isExpandable b p = false) (hretire : Page.get b p .retireExpire = 0) :
    Parked g b p := by
  refine { free := ?_, capacity := ?_, retire := hretire }
  · by_contra hne
    rw [hin.ok.hasFree_iff.mpr hne] at hfree
    cases hfree
  · unfold Page.isExpandable at hexp
    rw [decide_eq_false_iff_not, hin.ok.reserved] at hexp
    have := hin.ok.capacity_le
    omega

theorem Roomy.congr (hr : Roomy b p) (hget : ∀ f : Page.Field, f.heapOwned = false →
    Page.get c p f = Page.get b p f) : Roomy c p := by
  unfold Roomy Page.hasFree Page.isExpandable at *
  rw [hget _ rfl, hget _ rfl, hget _ rfl]
  exact hr

/-- What the search does to the bin queues: pages left them, and those before the one found
    have no free block. -/
structure Searched (g : Ghost) (Q : Nat → List Nat) (h h' : Heap M) (qi found : Nat) : Prop where
  queue : ∀ q ≤ maxBin, (Q q).Sublist (g.queue q)
  header : ∀ q ≤ maxBin, ∀ p ∈ Q q, ∀ f : Page.Field, f.heapOwned = false ∨ f = .retireExpire →
    Page.get h'.bytes p f = Page.get h.bytes p f
  range : h'.retiredMin = h.retiredMin ∧ h'.retiredMax = h.retiredMax ∧
    h'.collections = h.collections
  passed : found ≠ 0 → ∃ pre suf, Q qi = pre ++ found :: suf ∧ ∀ x ∈ pre, g.free x = []

omit [Memory M] in
theorem Searched.of_done {done rest : List Nat} {candidate : Nat} (hsplit : g.queue qi = done ++ rest)
    (hcand : candidate ≠ 0 → candidate ∈ done) (hout : ∀ x ∈ done, g.free x = []) :
    Searched g g.queue h h qi candidate where
  queue := fun _ _ => List.Sublist.refl _
  header := fun _ _ _ _ _ _ => rfl
  range := ⟨rfl, rfl, rfl⟩
  passed := fun hne => by
    obtain ⟨pre, suf, hdone⟩ := List.append_of_mem (hcand hne)
    refine ⟨pre, suf ++ rest, ?_, fun x hx => hout x ?_⟩
    · rw [hsplit, hdone, List.append_assoc, List.cons_append]
    · rw [hdone]
      exact List.mem_append_left _ hx

/-- **The candidate search** from `rest` on: it parks pages without room, and ends with a
    page that has some, or with an empty queue. -/
theorem findCandidate_spec (hqi : qi ≤ maxBin) (left : Nat) : ∀ {g : Ghost} {h : Heap M}
    (done rest : List Nat) (candidate : Nat) (limit : Int), Inv g h live →
    g.queue qi = done ++ rest → rest.length ≤ left →
    ((candidate = 0 ∧ done = []) ∨ (candidate ∈ done ∧ Roomy h.bytes candidate)) →
    (∀ x ∈ done, g.free x = []) →
    ∃ Q h' found, Heap.findCandidate qi left h candidate limit (rest.headD 0) = (h', found) ∧
      Inv { g with queue := Q } h' live ∧ Evolves live g { g with queue := Q } h h' ∧
      ((found = 0 ∧ Q qi = []) ∨ (found ∈ Q qi ∧ Roomy h'.bytes found)) ∧
      Searched g Q h h' qi found := by
  have hmem : ∀ {c : Nat} {l : List Nat} {b : Bytes}, ((c = 0 ∧ l = []) ∨ (c ∈ l ∧ Roomy b c)) →
      c ≠ 0 → c ∈ l := fun hor hne => (hor.resolve_left fun e => hne e.1).1
  -- Along the bound on the pages looked at: `done` are passed already, `rest` are to come.
  induction left with
  | zero =>
    intro g h done rest candidate limit hi hsplit hlen hcand hout
    have hnil : rest = [] := List.length_eq_zero_iff.mp (by omega)
    have hsearched := Searched.of_done (h := h) hsplit (hmem hcand) hout
    rw [hnil, List.append_nil] at hsplit
    refine ⟨g.queue, h, candidate, rfl, hi, Evolves.refl live g h, ?_, hsearched⟩
    rw [hsplit]
    exact hcand
  | succ left ih =>
    intro g h done rest candidate limit hi hsplit hlen hcand hout
    cases rest with
    | nil =>
      have hsearched := Searched.of_done (h := h) hsplit (hmem hcand) hout
      rw [List.append_nil] at hsplit
      rw [List.headD_nil, Heap.findCandidate, if_pos rfl]
      refine ⟨g.queue, h, candidate, rfl, hi, Evolves.refl live g h, ?_, hsearched⟩
      rw [hsplit]
      exact hcand
    | cons cur rest =>
      have hp : cur ∈ g.queue qi := by
        rw [hsplit]
        simp
      obtain ⟨hin, haddr⟩ := hi.core.member hp
      have hqok := hi.core.queues.queue qi (bin_lt hqi)
      have hcur0 : cur ≠ 0 := hqok.ne_zero hp
      have hnd := (List.nodup_cons.mp hqok.nodup).2
      rw [hsplit] at hqok hnd
      have hnext : h.field cur .next = rest.headD 0 := hqok.neighbours.1
      have hcurd : cur ∉ done := fun hmem =>
        (List.nodup_append.mp hnd).2.2 cur hmem cur List.mem_cons_self rfl
      have hcons : g.queue qi = (done ++ [cur]) ++ rest := by
        rw [hsplit]
        simp
      rw [List.length_cons] at hlen
      rw [List.headD_cons, Heap.findCandidate, if_neg hcur0]
      simp only [hnext]
      by_cases hroom : Page.hasFree h.bytes cur = false ∧ Page.isExpandable h.bytes cur = false
      · -- No room: the page is parked.
        obtain ⟨hfree, hexp⟩ := hroom
        simp only [hfree, hexp, Bool.not_false, Bool.and_self, if_true]
        obtain ⟨hi1, he1⟩ := setRetire_inv hi hin.isPage (by decide) (Or.inr rfl)
        have hv : 0 < 256 ^ Page.Field.retireExpire.width := Nat.pow_pos (by decide)
        have hget : ∀ {x : Nat}, PageAddr x → ∀ f : Page.Field, f ≠ .retireExpire →
            Page.get (h.setField cur .retireExpire 0).bytes x f = Page.get h.bytes x f := by
          intro x hx f hf
          rw [get_setField haddr hx hv, if_neg (fun e => hf e.2)]
        have hin1 := (hi1.core.member hp).1
        have hparked : Parked g (h.setField cur .retireExpire 0).bytes cur := by
          refine parked_of hin1 ?_ ?_ (Page.get_set_same hv)
          · unfold Page.hasFree at hfree ⊢
            rw [hget haddr _ (by decide)]
            exact hfree
          · unfold Page.isExpandable at hexp ⊢
            rw [hget haddr _ (by decide), hget haddr _ (by decide)]
            exact hexp
        obtain ⟨Q, hi2, he2, hm2, ht2⟩ := moveToFull_inv hi1 hp hparked
        have hfull := maxBin_lt_full
        have hq2 : Q qi = done ++ rest := by
          rw [ht2.keeps qi (by omega), hsplit, List.erase_append_right _ hcurd,
            List.erase_cons_head]
        have hcand2 : (candidate = 0 ∧ done = []) ∨ (candidate ∈ done ∧
            Roomy ((h.setField cur .retireExpire 0).moveToFull qi cur).bytes candidate) := by
          refine hcand.imp_right fun ⟨hmem, hr⟩ => ⟨hmem, hr.congr fun f hf => ?_⟩
          have hca : PageAddr candidate := hi.core.queues.addr (q := qi) candidate (by
            rw [hsplit]
            exact List.mem_append_left _ hmem)
          rw [hm2.edit.fields candidate hca f hf, hget hca f fun e => by rw [e] at hf; cases hf]
        obtain ⟨R, h3, found, hres, hi3, he3, hend, hs3⟩ := ih done rest candidate (limit - 1) hi2 hq2
          (by omega) hcand2 hout
        refine ⟨R, h3, found, hres, hi3, he1.trans (he2.trans he3), hend, ?_⟩
        refine { queue := fun q hq => ?_, header := fun q hq x hx f hf => ?_, range := ?_,
                 passed := hs3.passed }
        · refine (hs3.queue q hq).trans ?_
          show (Q q).Sublist (g.queue q)
          rw [ht2.keeps q (by omega)]
          exact List.erase_sublist
        · have hxQ : x ∈ Q q := (hs3.queue q hq).subset hx
          have hxa := hi2.core.queues.addr x hxQ
          have hne : x ≠ cur := fun e => by
            have := ht2.only q (e ▸ hxQ)
            omega
          refine (hs3.header q hq x hx f hf).trans ?_
          have hmoved : Page.get ((h.setField cur .retireExpire 0).moveToFull qi cur).bytes x f =
              Page.get (h.setField cur .retireExpire 0).bytes x f :=
            hf.elim (hm2.edit.fields x hxa f) fun e => e ▸ hm2.retire x hxa
          rw [hmoved, get_setField haddr hxa hv, if_neg fun e => hne e.1]
        · obtain ⟨h1, h2, h3⟩ := hm2.range
          obtain ⟨h1', h2', h3'⟩ := hs3.range
          exact ⟨h1'.trans h1, h2'.trans h2, h3'.trans h3⟩
      · -- Room: the page is a candidate, perhaps the last one looked at.
        have hroomy : Roomy h.bytes cur := by
          unfold Roomy
          by_contra hcon
          rw [not_or, Bool.not_eq_true, Bool.not_eq_true] at hcon
          exact hroom hcon
        have hcond : (!Page.hasFree h.bytes cur && !Page.isExpandable h.bytes cur) = false := by
          rcases hroomy with hr | hr <;> simp [hr]
        simp only [hcond, Bool.false_eq_true, if_false]
        generalize hc' : (if candidate = 0 then cur
          else if (decide (h.field candidate .used ≤ h.field cur .used) && !mostlyUsed h.bytes cur)
            = true then cur else candidate) = candidate'
        generalize (if candidate = 0 then maxCandidates else limit) = limit'
        have hcand' : (candidate' = cur ∨ candidate' ∈ done) ∧ Roomy h.bytes candidate' := by
          rw [← hc']
          rcases hcand with ⟨h0, -⟩ | ⟨hmem, hr⟩
          · rw [if_pos h0]
            exact ⟨Or.inl rfl, hroomy⟩
          · split
            · exact ⟨Or.inl rfl, hroomy⟩
            · split
              · exact ⟨Or.inl rfl, hroomy⟩
              · exact ⟨Or.inr hmem, hr⟩
        obtain ⟨hwhere, hroomy'⟩ := hcand'
        have hmem' : candidate' ∈ done ++ [cur] := by
          rcases hwhere with he | hd
          · simp [he]
          · exact List.mem_append_left _ hd
        -- The walk stops at this page, or goes on with it among the passed ones.
        split
        · refine ⟨g.queue, h, candidate', rfl, hi, Evolves.refl live g h, Or.inr ⟨?_, hroomy'⟩, ?_⟩
          · rw [hcons]
            exact List.mem_append_left _ hmem'
          · rcases hwhere with he | hd
            · -- The last page looked at may have a free block; those before it have none.
              refine { Searched.of_done hsplit (fun e => absurd rfl e) hout with
                       passed := fun _ => ⟨done, rest, by rw [hsplit, he], hout⟩ }
            · exact Searched.of_done hsplit (fun _ => hd) hout
        · rename_i hgo
          refine ih (done ++ [cur]) rest candidate' (limit' - 1) hi hcons (by omega)
            (Or.inr ⟨hmem', hroomy'⟩) ?_
          intro x hx
          rcases List.mem_append.mp hx with hx | hx
          · exact hout x hx
          · rw [List.mem_singleton.mp hx]
            rw [Bool.or_eq_true, not_or] at hgo
            by_contra hne
            exact hgo.1 (hin.ok.hasFree_iff.mpr hne)

/-! ## Fresh pages -/

/-- The ghost state with a new page of bin `n` at `p`. -/
noncomputable def Ghost.withPage (g : Ghost) (p n : Nat) : Ghost :=
  { place := (g.paint (InRun (p / sliceSize) (pageSlices n)) (.page p)).place
    bin := Function.update g.bin p n
    free := Function.update g.free p []
    queue := g.queue }

/-- **A header in claimed slices** makes them a page. -/
theorem Core.newPage [Memory.Contract M] (hc : Core g h live) {n : Nat} {z : Bool} (hn : 1 ≤ n)
    (hn' : n ≤ maxBin) (hp : (kindOfBin n).pageSize ∣ p)
    (hclaimed : ∀ i, InRun (p / sliceSize) (pageSlices n) i → g.place i = .claimed)
    (hzero : z = true → ∀ x, InRun (p / sliceSize) (pageSlices n) (x / sliceSize) →
      h.bytes x = 0) :
    Core (g.withPage p n) { h with bytes := Page.init h.bytes p (kindOfBin n) n z } live ∧
      PageAddr p ∧ IsPage (g.withPage p n) p ∧
      (∀ x, LiveByte live x → Page.init h.bytes p (kindOfBin n) n z x = h.bytes x) ∧
      (∀ q, IsPage g q → ∀ f, Page.get (Page.init h.bytes p (kindOfBin n) n z) q f
        = Page.get h.bytes q f) := by
  have hs := hc.slices
  have hmul := pageSlices_mul n
  have hcount := pageSlices_pos n
  have hdvd : sliceSize ∣ p := dvd_trans (slice_dvd_pageSize _) hp
  have hback : p / sliceSize * sliceSize = p := Nat.div_mul_cancel hdvd
  have hsize := Page.size_le
  have hreserve : pageHeaderReserve ≤ (kindOfBin n).pageSize := by
    cases kindOfBin n <;> decide
  -- The bytes of the new page.
  have hbytes : ∀ x, InRun (p / sliceSize) (pageSlices n) (x / sliceSize) ↔
      p ≤ x ∧ x < p + (kindOfBin n).pageSize := by
    intro x
    rw [inRun_div, hback, hmul]
  have hfirst := hclaimed (p / sliceSize) ⟨Nat.le_refl _, by omega⟩
  have hnew : ∀ i, g.place i ≠ .page p := by
    intro i hi
    have hpage := (hc.pages i p hi).isPage
    unfold IsPage at hpage
    rw [hfirst] at hpage
    cases hpage
  have hlast : p / sliceSize + pageSlices n ≤ sizeSlices h.mem :=
    hs.run_le hcount fun i hi => by
      rw [hclaimed i hi]
      simp
  have hend : p + (kindOfBin n).pageSize ≤ usizeSize := by
    have hmono := Nat.mul_le_mul_right sliceSize hlast
    rw [Nat.add_mul, hback, hmul] at hmono
    exact le_trans hmono (Memory.Contract.size_le h.mem)
  have haddr : PageAddr p := by
    have hpos := hs.pos _ (by rw [hfirst]; simp : g.place (p / sliceSize) ≠ .foreign)
    refine { dvd := hdvd, pos := ?_, lt := ?_ }
    · exact Nat.pos_of_ne_zero fun h0 => by simp [h0] at hpos
    · rw [← usizeSize_eq_pow]
      unfold pageHeaderReserve at hreserve
      omega
  -- The header store stays in the claimed slices.
  have hout : ∀ x, g.place (x / sliceSize) ≠ .claimed →
      Page.init h.bytes p (kindOfBin n) n z x = h.bytes x := by
    intro x hx
    unfold Page.init
    refine Page.write_out ?_
    by_contra hcon
    exact hx (hclaimed _ ((hbytes x).mpr ⟨by omega, by omega⟩))
  have hpage : ∀ i q, (g.withPage p n).place i = .page q ↔
      (q = p ∧ InRun (p / sliceSize) (pageSlices n) i) ∨ (q ≠ p ∧ g.place i = .page q) := by
    intro i q
    by_cases hqp : q = p
    · subst hqp
      have := hnew i
      show (g.paint _ _).place i = _ ↔ _
      rw [paint_self]
      tauto
    · show (g.paint _ _).place i = _ ↔ _
      rw [paint_keeps hclaimed (by simp) (fun e => hqp (Place.page.inj e).symm)]
      tauto
  have hold : ∀ i, g.place i ≠ .claimed → (g.withPage p n).place i = g.place i := by
    intro i hi
    exact paint_out fun hr => hi (hclaimed i hr)
  have hne : ∀ i q, g.place i = .page q → q ≠ p := fun i q hi e => hnew i (e ▸ hi)
  have hget : ∀ q, IsPage g q → ∀ f, Page.get (Page.init h.bytes p (kindOfBin n) n z) q f
      = Page.get h.bytes q f := by
    intro q hq f
    refine Page.get_congr fun x hlo hhi => hout x ?_
    rw [(hc.pages _ _ hq).header hlo hhi]
    simp
  have hisPage : IsPage (g.withPage p n) p :=
    (hpage _ _).mpr (Or.inl ⟨rfl, Nat.le_refl _, by omega⟩)
  have hlivep : liveIn live p = [] := by
    by_contra hcon
    obtain ⟨a, ha⟩ := List.exists_mem_of_ne_nil _ hcon
    obtain ⟨blk, hmem, hhome, -⟩ := mem_liveIn.mp ha
    cases hclass : classify blk.layout with
    | bin m =>
      obtain ⟨hpage', -⟩ := (hc.blocks.block blk hmem).page m hclass
      rw [home_bin hclass] at hhome
      rw [Option.some.inj hhome] at hpage'
      exact hnew _ hpage'
    | huge =>
      rw [home_huge hclass] at hhome
      cases hhome
  refine ⟨?_, haddr, hisPage, ?_, hget⟩
  · refine { slices := ?_, pages := ?_, blocks := ?_, queues := ?_, sentinel := ?_,
             uninit := hc.uninit, log := hc.log }
    · refine (hs.congr fun x hx => hout x (by rw [hx]; simp)).repaint ?_ ?_
      · exact fun i => paint_keeps hclaimed (by simp) (by simp)
      · exact fun i => paint_keeps hclaimed (by simp) (by simp)
    · intro i q hq
      rcases (hpage i q).mp hq with ⟨rfl, -⟩ | ⟨hqp, hq⟩
      · have hbin : (g.withPage q n).bin q = n := Function.update_self _ _ _
        have hfree : (g.withPage q n).free q = [] := Function.update_self _ _ _
        refine { ok := ?_, slices := fun j => ?_ }
        · rw [hbin, hfree, hlivep]
          exact Page.init_ok hn hn' hp hend fun hz x hlo hhi => hzero hz x ((hbytes x).mpr ⟨hlo, hhi⟩)
        · rw [hbin, hpage]
          tauto
      · have hin := hc.pages i q hq
        have hbin : (g.withPage p n).bin q = g.bin q := Function.update_of_ne hqp _ _
        have hfree : (g.withPage p n).free q = g.free q := Function.update_of_ne hqp _ _
        refine { ok := ?_, slices := fun j => ?_ }
        · rw [hbin, hfree]
          refine hin.ok.congr (fun f _ => hget q hin.isPage f) ?_
          intro x hlo hhi _
          refine hout x ?_
          rw [hin.mem.mpr ⟨by omega, hhi⟩]
          simp
        · rw [hbin, hpage, ← hin.slices]
          tauto
    · refine { nodup := hc.blocks.nodup, block := ?_, runs := ?_ }
      · intro blk hmem
        have hok := hc.blocks.block blk hmem
        refine { size_pos := hok.size_pos, aligned := hok.aligned, page := ?_, run := ?_ }
        · intro m hm
          obtain ⟨h1, h2, h3, h4⟩ := hok.page m hm
          have hqp := hne _ _ h1
          have hbin : (g.withPage p n).bin (Page.headerOf (kindOfBin m) blk.addr)
              = g.bin (Page.headerOf (kindOfBin m) blk.addr) := Function.update_of_ne hqp _ _
          simp only [hbin]
          exact ⟨(hpage _ _).mpr (Or.inr ⟨hqp, h1⟩), h2, h3, h4⟩
        · intro hh
          obtain ⟨h1, h2⟩ := hok.run hh
          exact ⟨h1, fun i => (paint_keeps hclaimed (by simp) (by simp)).trans (h2 i)⟩
      · intro i a hi
        exact hc.blocks.runs i a ((paint_keeps hclaimed (by simp) (by simp)).mp hi)
    · have hok := hc.queues.congr (c := Page.init h.bytes p (kindOfBin n) n z)
        fun q x hx f _ _ => hget x (hc.queues.member q x hx).page f
      refine { queue := hok.queue, disjoint := hok.disjoint, direct_eq := hok.direct_eq,
               occupied_iff := hok.occupied_iff, member := ?_ }
      intro q x hx
      have hm := hok.member q x hx
      have hxp := hne _ _ hm.page
      have hbin : (g.withPage p n).bin x = g.bin x := Function.update_of_ne hxp _ _
      refine { addr := hm.addr, page := (hpage _ _).mpr (Or.inr ⟨hxp, hm.page⟩), bin_pos := ?_,
               bin_le := ?_, home := ?_ }
      all_goals rw [hbin]
      · exact hm.bin_pos
      · exact hm.bin_le
      · exact hm.home
    · intro x hlo hhi
      refine (hout x ?_).trans (hc.sentinel x hlo hhi)
      rw [hs.sentinel hlo hhi]
      simp
  · intro x hx
    refine hout x ?_
    rcases live_place hc.pages hc.blocks hx with ⟨q, hq, -⟩ | ⟨a, ha⟩
    · rw [hq]
      simp
    · rw [ha]
      simp

theorem Core.queueFront (hc : Core g h live) (hset : Settled g h.bytes fun x => x = p)
    (hu : ∀ i, g.place i ≠ .claimed) {n : Nat} (hn : n ≤ maxBin) (hm : Member g h.bytes n p)
    (hnew : ∀ r, p ∉ g.queue r) :
    Inv (g.withQueue n (p :: g.queue n)) (h.pushFront n p) live := by
  have hmoved := (pushFront_ok hc.queues hm hnew).moved
  have hfull := maxBin_lt_full
  refine { core := (hc.moved hmoved).1, settled := ?_, unclaimed := hu }
  refine hset.moved hmoved ?_ ?_
  · intro i x hx _
    by_cases hxp : x = p
    · exact ⟨n, by rw [hxp, Function.update_self]; exact List.mem_cons_self⟩
    · obtain ⟨q, hq⟩ := hset.queued i x hx hxp
      by_cases hqn : q = n
      · refine ⟨q, ?_⟩
        rw [hqn, Function.update_self]
        rw [hqn] at hq
        exact List.mem_cons_of_mem p hq
      · exact ⟨q, by rw [Function.update_of_ne hqn]; exact hq⟩
  · intro x hx _
    rw [Function.update_of_ne (by omega)] at hx
    exact Or.inl ⟨hx, fun e => hnew _ (e ▸ hx)⟩

/-- A page of bin `n` with a free block was found, in its queue. -/
structure Found (live : List Block) (g' : Ghost) (h h' : Heap M) (n p : Nat) : Prop where
  inv : Inv g' h' live
  queued : p ∈ g'.queue n
  free : g'.free p ≠ []
  preserves : Preserves live h h'

theorem Evolves.empty (he : Evolves live g g' h h') {n : Nat} (hn : n ≤ maxBin)
    (h0 : g.queue n = []) : g'.queue n = [] := by
  by_contra hne
  obtain ⟨x, hx⟩ := List.exists_mem_of_ne_nil _ hne
  have hmem := he.binned n hn x hx
  rw [h0] at hmem
  cases hmem

theorem useCandidate (hi : Inv g h live) {n : Nat} (hn : n ≤ maxBin) (hp : p ∈ g.queue n)
    (hfree : g.free p ≠ []) :
    ∃ g', Found live g' h ((h.moveToFront n p).setField p .retireExpire 0) n p := by
  obtain ⟨Q, hi1, he1, -, hfront, -⟩ := moveToFront_inv hi hp hn
  have hq : p ∈ Q n := hfront ▸ List.mem_cons_self
  obtain ⟨hi2, he2⟩ := setRetire_inv hi1 (hi1.core.queues.member n p hq).page (by decide)
    (Or.inr rfl)
  exact ⟨_, { inv := hi2, queued := hq, free := hfree
              preserves := (he1.trans he2).preserves hi.core.slices hi2.core.slices.recorded }⟩

omit [Build] in
theorem pageSlices_pow (n : Nat) : ∃ k ≤ 32, pageSlices n = 2 ^ k := by
  unfold pageSlices
  cases kindOfBin n
  · exact ⟨0, by decide⟩
  · exact ⟨2, by decide⟩
  · exact ⟨6, by decide⟩

theorem le_usizeBits {k : Nat} (hk : k ≤ 32) : k ≤ usizeBits := by
  rcases usizeBits_cases with h | h <;> omega

variable [Memory.Contract M]

/-- What a fresh page of bin `n` changes of the queues and headers. -/
structure Freshens (g g' : Ghost) (h h' : Heap M) (n p : Nat) : Prop where
  queue : g'.queue = Function.update g.queue n (p :: g.queue n)
  header : ∀ q, ∀ x ∈ g.queue q, ∀ f : Page.Field, f.heapOwned = false ∨ f = .retireExpire →
    Page.get h'.bytes x f = Page.get h.bytes x f
  expire : Page.get h'.bytes p .retireExpire = 0
  range : h'.retiredMin = h.retiredMin ∧ h'.retiredMax = h.retiredMax ∧
    h'.collections = h.collections
  pages : ∀ x, IsPage g' x → x ≠ p → IsPage g x
  lists : ∀ x, x ≠ p → g'.free x = g.free x

/-- **A fresh page** is at the front of its queue and has a free block. -/
theorem freshPage_spec (hi : Inv g h live) (hinit : h.initialized = true) {n : Nat} (hn : 1 ≤ n)
    (hn' : n ≤ maxBin) :
    (∃ p h' g' run h1 g1, h.freshPage n = (some p, h') ∧ Found live g' h h' n p ∧
      h.acquireRun (pageSlices n) (pageSlices n) false = (some run, h1) ∧
      Claims live g g1 h h1 (pageSlices n) (pageSlices n) run ∧ Freshens g1 g' h1 h' n p ∧
      g'.free p = (List.range' 0 (Page.batch n 0)).map (Page.block p n) ∧
      h'.field p .capacity = Page.batch n 0) ∨
    (∃ h' g', h.freshPage n = (none, h') ∧
      Exhausted live g g' h h' (pageSlices n) (pageSlices n)) := by
  obtain ⟨k, hk, hpow⟩ := pageSlices_pow n
  have hdef : (kindOfBin n).pageSize / sliceSize = pageSlices n := rfl
  unfold Heap.freshPage
  simp only [hdef]
  have hacq := acquireRun_spec hi hinit (pageSlices_pos n) (le_usizeBits hk) false
  rw [← hpow] at hacq
  rcases hacq with ⟨run, h1, g1, hres, hcl⟩ | ⟨h1, g1, hres, hex⟩
  swap
  · rw [hres]
    exact Or.inr ⟨h1, g1, rfl, hex⟩
  rw [hres]
  simp only
  have hmul := pageSlices_mul n
  have hback : run.start * sliceSize / sliceSize = run.start :=
    Nat.mul_div_cancel _ (by decide)
  generalize hp : run.start * sliceSize = p at hback ⊢
  have hdvd : (kindOfBin n).pageSize ∣ p := by
    rw [← hp, ← hmul]
    exact Nat.mul_dvd_mul_right hcl.aligned sliceSize
  have hclaimed : ∀ i, InRun (p / sliceSize) (pageSlices n) i →
      (g1.paint (InRun run.start (pageSlices n)) .claimed).place i = .claimed := by
    rw [hback]
    exact fun i hi => paint_in hi
  have hcore := hcl.core
  have hold : ∀ i, (g1.paint (InRun run.start (pageSlices n)) .claimed).place i ≠ .foreign ↔
      g1.place i ≠ .foreign := fun i => (paint_keeps hcl.free (by simp) (by simp)).not
  obtain ⟨hc2, haddr, hpage, hlive2, hget2⟩ := hcore.newPage (z := run.zeroed) hn hn' hdvd hclaimed
    (by rw [hback]; exact hcl.zeroed)
  generalize hgc : g1.paint (InRun run.start (pageSlices n)) .claimed = gc at *
  have hqueue : (gc.withPage p n).queue = g1.queue := by rw [← hgc]; rfl
  have hbin : (gc.withPage p n).bin p = n := Function.update_self _ _ _
  have hnotin : ∀ r, p ∉ (gc.withPage p n).queue r := by
    intro r hr
    have hpg := (hcore.queues.member r p hr).page
    unfold IsPage at hpg
    rw [hclaimed (p / sliceSize) ⟨Nat.le_refl _, by have := pageSlices_pos n; omega⟩] at hpg
    cases hpg
  generalize hh2 : ({ h1 with bytes := Page.init h1.bytes p (kindOfBin n) n run.zeroed } : Heap M) = h2
    at hc2
  have hbytes2 : h2.bytes = Page.init h1.bytes p (kindOfBin n) n run.zeroed := by rw [← hh2]
  have hmember : Member (gc.withPage p n) h2.bytes n p := by
    refine { addr := haddr, page := hpage, bin_pos := by rw [hbin]; exact hn,
             bin_le := by rw [hbin]; exact hn', home := Or.inl ⟨hbin.symm, ?_⟩ }
    rw [hbytes2]
    exact Page.get_init hn hn' .flags
  have hm3 := (pushFront_ok hc2.queues hmember hnotin).moved
  -- The other pages are in their queues as before.
  have hpageOf : ∀ i x, (gc.withPage p n).place i = .page x → x ≠ p → g1.place i = .page x := by
    intro i x hx hne
    have hx' := (paint_other (fun e => hne (Place.page.inj e).symm)).mp hx
    rw [← hgc] at hx'
    exact ((paint_other (by simp)).mp hx'.2).2
  have hset2 : Settled (gc.withPage p n) h2.bytes fun x => x = p := by
    refine { queued := ?_, parked := ?_ }
    · intro i x hx hne
      rw [hqueue]
      exact hcl.settled.queued i x (hpageOf i x hx hne) (fun e => e)
    · intro x hx hne
      rw [hqueue] at hx
      have hpk := hcl.settled.parked x hx (fun e => e)
      have hxg : x ∈ gc.queue fullQueue := by
        rw [← hgc]
        exact hx
      have hget := hget2 x (hcore.queues.member _ x hxg).page
      have hb : (gc.withPage p n).bin x = g1.bin x := by
        rw [← hgc]
        exact Function.update_of_ne hne _ _
      have hf : (gc.withPage p n).free x = g1.free x := by
        rw [← hgc]
        exact Function.update_of_ne hne _ _
      refine { free := hf.trans hpk.free, capacity := ?_, retire := ?_ }
      · rw [hbytes2, hget, hb]
        exact hpk.capacity
      · rw [hbytes2, hget]
        exact hpk.retire
  have hunclaimed : ∀ i, (gc.withPage p n).place i ≠ .claimed := by
    intro i hi
    obtain ⟨hout, hin⟩ := (paint_other (by simp)).mp hi
    rw [hback] at hout
    rw [← hgc] at hin
    exact (paint_self.mp hin).elim hout (hcl.unclaimed i)
  have hi3 := hc2.queueFront hset2 hunclaimed hn' hmember hnotin
  have hq3 : p ∈ Function.update (gc.withPage p n).queue n (p :: (gc.withPage p n).queue n) n := by
    rw [Function.update_self]
    exact List.mem_cons_self
  have hcap3 : Page.get (h2.pushFront n p).bytes p .capacity = 0 := by
    rw [hm3.edit.fields p haddr _ rfl, hbytes2]
    exact Page.get_init hn hn' .capacity
  have hexp : Page.isExpandable (h2.pushFront n p).bytes p = true := by
    have hgeo := (binGeometry hn hn').reserved_ge
    have hres : Page.get (h2.pushFront n p).bytes p .reserved = blocksPerPage (kindOfBin n) (binSize n) := by
      rw [hm3.edit.fields p haddr _ rfl, hbytes2]
      exact Page.get_init hn hn' .reserved
    unfold Page.isExpandable
    rw [hcap3, hres, decide_eq_true_eq]
    omega
  obtain ⟨c, hext, hroom4, hi4, he4, hx4, hcap4⟩ := extendPage_inv hi3 hq3 hn' hexp
  -- The page was new, so its free list is what the extension linked.
  have hbin3 : ((gc.withPage p n).withQueue n (p :: (gc.withPage p n).queue n)).bin p = n := hbin
  have hlist : Page.extensionOf (h2.pushFront n p).bytes p n ++
      ((gc.withPage p n).withQueue n (p :: (gc.withPage p n).queue n)).free p =
        (List.range' 0 (Page.batch n 0)).map (Page.block p n) := by
    have hnil : ((gc.withPage p n).withQueue n (p :: (gc.withPage p n).queue n)).free p = [] :=
      Function.update_self _ _ _
    unfold Page.extensionOf
    rw [hcap3, hnil, List.append_nil]
  have hne : (List.range' 0 (Page.batch n 0)).map (Page.block p n) ≠ [] := by
    rw [hbin3] at hroom4
    rw [← hlist]
    exact List.append_ne_nil_of_left_ne_nil (Page.extensionOf_ne_nil hroom4) _
  rw [hbin3, hlist] at hi4
  rw [hbin3, hcap3, Nat.zero_add] at hcap4
  generalize hfl : (List.range' 0 (Page.batch n 0)).map (Page.block p n) = fl at hi4 hne
  refine Or.inl ⟨p, { h2.pushFront n p with bytes := c },
    ((gc.withPage p n).withQueue n (p :: (gc.withPage p n).queue n)).withFree p fl, run, h1, g1,
    ?_, ?_, rfl, hcl, ?_, (Function.update_self _ _ _).trans hfl.symm, hcap4⟩
  · rw [hext]
  swap
  · refine { queue := ?_, header := fun q x hx f hf => ?_, expire := ?_, range := ?_,
             pages := fun x hx hne => hpageOf _ x hx hne, lists := fun x hne => ?_ }
    · show Function.update (gc.withPage p n).queue n _ = _
      rw [hqueue]
    · have hx2 : x ∈ (gc.withPage p n).queue q := by rwa [hqueue]
      have hxa := hc2.queues.addr x hx2
      have hne : x ≠ p := fun e => hnotin q (e ▸ hx2)
      have hxg : x ∈ gc.queue q := by
        rw [← hgc]
        exact hx
      have h4 := hx4.others x (hc2.queues.member q x hx2).page hne f
      have h3 : Page.get (h2.pushFront n p).bytes x f = Page.get h2.bytes x f :=
        hf.elim (hm3.edit.fields x hxa f) fun e => e ▸ hm3.retire x hxa
      rw [h4, h3, hbytes2]
      exact hget2 x (hcore.queues.member q x hxg).page f
    · rw [hx4.same _ (by decide) (by decide), hm3.retire p haddr, hbytes2]
      exact Page.get_init hn hn' .retireExpire
    · obtain ⟨e1, e2, e3⟩ := hm3.range
      rw [← hh2] at e1 e2 e3 ⊢
      exact ⟨e1, e2, e3⟩
    · show Function.update (gc.withPage p n).free p fl x = _
      rw [Function.update_of_ne hne, ← hgc]
      exact Function.update_of_ne hne _ _
  · refine { inv := hi4, queued := hq3, free := ?_, preserves := ?_ }
    · show Function.update (gc.withPage p n).free p fl p ≠ []
      rw [Function.update_self]
      exact hne
    · have hp1 : Preserves live h h1 := hcl.evolves.preserves hi.core.slices fun i => by
        rw [hcore.slices.recorded]
        exact hold i
      have hp2 : Preserves live h1 (h2.pushFront n p) := by
        have hlive3 : ∀ x, LiveByte live x → (h2.pushFront n p).bytes x = h2.bytes x := fun x hx =>
          hm3.edit.liveByte hc2.pages hc2.blocks hx
        have hframe := hm3.frame
        generalize h2.pushFront n p = h3 at hlive3 hframe
        rw [hframe, ← hh2]
        refine { untouched := ?_, recorded := fun i hi => hi, size_le := Nat.le_refl _,
                 policy := rfl, init := id }
        intro x hx
        show h3.bytes x = h1.bytes x
        rw [hlive3 x hx, hbytes2]
        exact hlive2 x hx
      exact hp1.trans (hp2.trans he4)

/-! ## `findPage` -/

/-- The page supply is exhausted, and no page of bin `n` is in its queue. -/
structure NoPage (live : List Block) (g g' : Ghost) (h h' : Heap M) (n : Nat) : Prop where
  exhausted : Exhausted live g g' h h' (pageSlices n) (pageSlices n)
  empty : g'.queue n = []

/-- **`findPage`** ends with a page of the bin that has a free block, or with the supply
    exhausted and no page of the bin in its queue. -/
theorem findPage_spec (hi : Inv g h live) (hinit : h.initialized = true) {n : Nat} (hn : 1 ≤ n)
    (hn' : n ≤ maxBin) :
    (∃ p h' g', h.findPage n = (some p, h') ∧ Found live g' h h' n p) ∨
    (∃ h' g', h.findPage n = (none, h') ∧ NoPage live g g' h h' n) := by
  have hlt := bin_lt hn'
  have hqok := hi.core.queues.queue n hlt
  obtain ⟨Q, h1, found, hres, hi1, he1, hend, -⟩ := findCandidate_spec hn' (g.queue n).length []
    (g.queue n) 0 maxCandidates hi rfl (Nat.le_refl _) (Or.inl ⟨rfl, rfl⟩)
    (fun _ hx => absurd hx List.not_mem_nil)
  have hpres : ∀ {p : Nat} {h2 : Heap M} {g2 : Ghost}, Found live g2 h1 h2 n p →
      Found live g2 h h2 n p := fun hf =>
    { hf with
      preserves := (he1.preserves hi.core.slices hi1.core.slices.recorded).trans hf.preserves }
  unfold Heap.findPage
  simp only [queueIndex_of_lt hlt, hqok.count, hqok.first, hres]
  rcases hend with ⟨h0, hempty⟩ | ⟨hmem, hroomy⟩
  · -- No candidate: the queue is empty, and stays so.
    simp only [h0, ne_eq, not_true_eq_false, decide_false, Bool.false_and, Bool.false_eq_true,
      if_false, if_true]
    obtain ⟨g2, hi2, he2⟩ := collectRetired_inv hi1
    have hinit2 := he2.init (he1.init hinit)
    rcases freshPage_spec hi2 hinit2 hn hn' with
      ⟨p, h3, g3, -, -, -, hr, hf, -⟩ | ⟨h3, g3, hr, hx⟩
    · refine Or.inl ⟨p, h3, g3, hr, hpres { hf with preserves := ?_ }⟩
      exact (he2.preserves hi1.core.slices hi2.core.slices.recorded).trans hf.preserves
    · refine Or.inr ⟨h3, g3, hr, { exhausted := hx.after (he1.trans he2), empty := ?_ }⟩
      exact hx.evolves.empty hn' (he2.empty hn' hempty)
  · have hne : found ≠ 0 := (hi1.core.queues.queue n hlt).ne_zero hmem
    obtain ⟨hin, -⟩ := hi1.core.member hmem
    by_cases hfree : Page.hasFree h1.bytes found = true
    · simp only [hfree, ne_eq, hne, not_false_eq_true, decide_true, Bool.not_true, Bool.and_false,
        Bool.false_eq_true, if_false]
      obtain ⟨g2, hf⟩ := useCandidate hi1 hn' hmem (hin.ok.hasFree_iff.mp hfree)
      exact Or.inl ⟨found, _, g2, rfl, hpres hf⟩
    · have hfree' : Page.hasFree h1.bytes found = false := by simpa using hfree
      obtain ⟨c, hext, hroom, hi2, he2, -⟩ := extendPage_inv hi1 hmem hn' (hroomy.resolve_left hfree)
      simp only [hfree', ne_eq, hne, not_false_eq_true, decide_true, Bool.not_false, Bool.and_self,
        if_true, hext, if_false]
      obtain ⟨g3, hf⟩ := useCandidate hi2 hn' hmem (extended_ne_nil hroom _)
      refine Or.inl ⟨found, _, g3, rfl, hpres { hf with preserves := ?_ }⟩
      exact he2.trans hf.preserves

end Wasmalloc
