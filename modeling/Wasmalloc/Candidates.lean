import Wasmalloc.EmptyPages
import Wasmalloc.Retention

/- The page search returns a usable page and disturbs nothing else.

   The search walks a queue that it edits: a member without room is parked in the full
   queue, one with room may become the candidate. `CandidateWalk` is the loop of the
   source without a bound, with its assertion that a candidate which is compared is not
   empty. `findCandidate_walk` says that the bounded recursion of the model is that loop,
   and which lists it leaves; it needs that a member without a free block has a live one.
   `find_page_exact` adds what follows the loop: at most one extension, the move to the
   front, or a collection and a fresh page. -/
namespace Wasmalloc
open ByteMem

variable [Build] {M : Type} {h h' : Heap M} {lists : Nat → List Nat} {qi p : Nat}

/-! ## One member of the walk -/

/-- A page with neither a free nor an unextended block. -/
def NoRoom (b : Bytes) (p : Nat) : Prop := Page.hasFree b p = false ∧ Page.isExpandable b p = false

instance (b : Bytes) (p : Nat) : Decidable (NoRoom b p) := inferInstanceAs (Decidable (_ ∧ _))

/-- `(*page).retire_expire = 0; self.move_to_full(qi, page)`. -/
def Heap.park (h : Heap M) (qi page : Nat) : Heap M := (h.setField page .retireExpire 0).moveToFull qi page

/-- The candidate and the limit once member `cur`, which has room, was compared. -/
def Heap.weigh (h : Heap M) (candidate : Nat) (limit : Int) (cur : Nat) : Nat × Int :=
  (if candidate = 0 then cur
   else if decide (h.field candidate .used ≤ h.field cur .used) && !mostlyUsed h.bytes cur then cur
   else candidate,
   if candidate = 0 then maxCandidates else limit)

/-- The candidate loop of `find_page` from page `cur` on: the members it visits, the heap
    it leaves and the candidate it ends with. -/
inductive CandidateWalk (qi : Nat) : Heap M → Nat → Int → Nat → List Nat → Heap M → Nat → Prop where
  | done (h : Heap M) (candidate : Nat) (limit : Int) : CandidateWalk qi h candidate limit 0 [] h candidate
  | park {h h' : Heap M} {candidate cur found : Nat} {limit : Int} {vs : List Nat} :
    cur ≠ 0 → NoRoom h.bytes cur →
    CandidateWalk qi (h.park qi cur) candidate (limit - 1) (h.field cur .next) vs h' found →
    CandidateWalk qi h candidate limit cur (cur :: vs) h' found
  | stop {h : Heap M} {candidate cur : Nat} {limit : Int} :
    cur ≠ 0 → ¬ NoRoom h.bytes cur → (candidate ≠ 0 → Page.allFree h.bytes candidate = false) →
    (Page.hasFree h.bytes cur = true ∨ (h.weigh candidate limit cur).2 ≤ 0) →
    CandidateWalk qi h candidate limit cur [cur] h (h.weigh candidate limit cur).1
  | pass {h h' : Heap M} {candidate cur found : Nat} {limit : Int} {vs : List Nat} :
    cur ≠ 0 → ¬ NoRoom h.bytes cur → (candidate ≠ 0 → Page.allFree h.bytes candidate = false) →
    ¬ (Page.hasFree h.bytes cur = true ∨ (h.weigh candidate limit cur).2 ≤ 0) →
    CandidateWalk qi h (h.weigh candidate limit cur).1 ((h.weigh candidate limit cur).2 - 1)
      (h.field cur .next) vs h' found →
    CandidateWalk qi h candidate limit cur (cur :: vs) h' found

theorem findCandidate_succ (left : Nat) (h : Heap M) (candidate : Nat) (limit : Int) {cur : Nat}
    (hcur : cur ≠ 0) : Heap.findCandidate qi (left + 1) h candidate limit cur =
      if NoRoom h.bytes cur then
        Heap.findCandidate qi left (h.park qi cur) candidate (limit - 1) (h.field cur .next)
      else if Page.hasFree h.bytes cur = true ∨ (h.weigh candidate limit cur).2 ≤ 0 then
        (h, (h.weigh candidate limit cur).1)
      else Heap.findCandidate qi left h (h.weigh candidate limit cur).1
        ((h.weigh candidate limit cur).2 - 1) (h.field cur .next) := by
  rw [Heap.findCandidate, if_neg hcur]
  have hroom : (!Page.hasFree h.bytes cur && !Page.isExpandable h.bytes cur) =
      decide (NoRoom h.bytes cur) := by
    rw [Bool.eq_iff_iff, decide_eq_true_eq]
    simp [NoRoom]
  have hend : (Page.hasFree h.bytes cur || decide ((h.weigh candidate limit cur).2 ≤ 0)) =
      decide (Page.hasFree h.bytes cur = true ∨ (h.weigh candidate limit cur).2 ≤ 0) := by
    rw [Bool.decide_or, Bool.decide_eq_true]
  simp only [hroom, decide_eq_true_eq]
  split
  · rfl
  · unfold Heap.weigh at hend ⊢
    simp only [hend, decide_eq_true_eq]

/-! ## Parking -/

/-- The lists once the pages `ps` of queue `qi` went to the full queue. -/
def parkedLists (lists : Nat → List Nat) (qi : Nat) (ps : List Nat) : Nat → List Nat :=
  Function.update (Function.update lists qi ((lists qi).filter (· ∉ ps))) fullQueue
    (lists fullQueue ++ ps)

/-- Pages `ps` of queue `qi` were parked, and nothing else changed. -/
structure Parks (h h' : Heap M) (lists : Nat → List Nat) (qi : Nat) (ps : List Nat) : Prop where
  represents : Represents h' (parkedLists lists qi ps)
  fields : ∀ y, PageAddr y → ∀ f : Page.Field, f ≠ .next → f ≠ .prev → f ≠ .flags →
    f ≠ .retireExpire → Page.get h'.bytes y f = Page.get h.bytes y f
  frame : h' = { h with bytes := h'.bytes, queues := h'.queues, direct := h'.direct,
                        occupied := h'.occupied }

theorem Parks.refl (hr : Represents h lists) (qi : Nat) : Parks h h lists qi [] where
  represents := by
    have hsame : parkedLists lists qi [] = lists := by
      unfold parkedLists
      simp
    rw [hsame]
    exact hr
  fields := fun _ _ _ _ _ _ _ => rfl
  frame := rfl

theorem Represents.park (hr : Represents h lists) (hp : p ∈ lists qi) (hqi : qi ≠ fullQueue) :
    Parks h (h.park qi p) lists qi [p] := by
  have haddr := hr.addr qi p hp
  have hr1 := hr.setField (v := 0) haddr (f := .retireExpire) (by decide) (by decide)
    (Nat.pow_pos (by decide))
  obtain ⟨hmove, -⟩ := hr1.moveToFull hp hqi
  have hnodup := (List.nodup_cons.mp (hr.queue qi (hr.lt qi p hp)).nodup).2
  refine { represents := ?_, fields := fun y hy f h1 h2 h3 h4 => ?_, frame := ?_ }
  · have hlists : parkedLists lists qi [p] = Function.update (Function.update lists qi
        ((lists qi).erase p)) fullQueue (lists fullQueue ++ [p]) := by
      unfold parkedLists
      rw [hnodup.erase_eq_filter]
      simp only [List.mem_singleton, decide_not, bne, Bool.beq_eq_decide_eq]
    rw [hlists]
    exact hmove.represents
  · refine (hmove.fields y hy f h1 h2 fun e => absurd e h3).trans ?_
    unfold Heap.setField
    rw [Page.get_set haddr.dvd hy.dvd (Nat.pow_pos (by decide)), if_neg fun e => h4 e.2]
  · exact hmove.frame

theorem Parks.cons {h1 : Heap M} {ps : List Nat} (hp : Parks h h1 lists qi [p])
    (hps : Parks h1 h' (parkedLists lists qi [p]) qi ps) (hqi : qi ≠ fullQueue) :
    Parks h h' lists qi (p :: ps) := by
  refine { represents := ?_, fields := fun y hy f h1 h2 h3 h4 => ?_, frame := ?_ }
  · have hlists : parkedLists (parkedLists lists qi [p]) qi ps = parkedLists lists qi (p :: ps) := by
      funext q
      unfold parkedLists
      by_cases hq : q = fullQueue
      · subst hq
        simp [Function.update_of_ne hqi]
      · by_cases hqq : q = qi
        · subst hqq
          simp [Function.update_of_ne hqi, List.filter_filter, Bool.and_comm]
        · simp [Function.update_of_ne hq, Function.update_of_ne hqq]
    rw [← hlists]
    exact hps.represents
  · exact (hps.fields y hy f h1 h2 h3 h4).trans (hp.fields y hy f h1 h2 h3 h4)
  · rw [hps.frame, hp.frame]

/-! ## The walk -/

/-- Members keep what decides about room and emptiness when others are parked. -/
theorem Parks.same {ps : List Nat} (hp : Parks h h' lists qi ps) {y : Nat} (hy : PageAddr y) :
    Page.hasFree h'.bytes y = Page.hasFree h.bytes y ∧
      Page.isExpandable h'.bytes y = Page.isExpandable h.bytes y ∧
      Page.allFree h'.bytes y = Page.allFree h.bytes y := by
  have hget : ∀ f : Page.Field, f.heapOwned = false → Page.get h'.bytes y f = Page.get h.bytes y f :=
    fun f hf => hp.fields y hy f (fun e => by rw [e] at hf; cases hf) (fun e => by rw [e] at hf; cases hf)
      (fun e => by rw [e] at hf; cases hf) (fun e => by rw [e] at hf; cases hf)
  unfold Page.hasFree Page.isExpandable Page.allFree
  rw [hget _ rfl, hget _ rfl, hget _ rfl, hget _ rfl]
  exact ⟨rfl, rfl, rfl⟩

theorem Parks.noRoom {ps : List Nat} (hp : Parks h h' lists qi ps) {y : Nat} (hy : PageAddr y) :
    NoRoom h'.bytes y ↔ NoRoom h.bytes y := by
  unfold NoRoom
  rw [(hp.same hy).1, (hp.same hy).2.1]

/-- **The bounded recursion is the loop**, from `rest` on: it visits a first part of `rest`
    and parks the members of it that have no room. -/
theorem findCandidate_walk (hqi : qi ≠ fullQueue) (left : Nat) : ∀ {h : Heap M} {lists : Nat → List Nat}
    (done rest : List Nat) (candidate : Nat) (limit : Int), Represents h lists →
    lists qi = done ++ rest → rest.length ≤ left →
    (∀ x ∈ lists qi, Page.hasFree h.bytes x = false → Page.allFree h.bytes x = false) →
    (candidate ≠ 0 → candidate ∈ done ∧ Page.hasFree h.bytes candidate = false) →
    ∃ vs suf h' found, rest = vs ++ suf ∧
      Heap.findCandidate qi left h candidate limit (rest.headD 0) = (h', found) ∧
      CandidateWalk qi h candidate limit (rest.headD 0) vs h' found ∧
      Parks h h' lists qi (vs.filter (NoRoom h.bytes)) ∧
      (found = candidate ∨ (found ∈ vs ∧ ¬ NoRoom h.bytes found)) ∧
      (found = 0 → candidate = 0 ∧ suf = [] ∧ ∀ x ∈ vs, NoRoom h.bytes x) := by
  induction left with
  | zero =>
    intro h lists done rest candidate limit hr _ hlen _ _
    have hnil : rest = [] := List.length_eq_zero_iff.mp (by omega)
    subst hnil
    exact ⟨[], [], h, candidate, rfl, rfl, .done h candidate limit, Parks.refl hr qi, Or.inl rfl,
      fun h0 => ⟨h0, rfl, fun _ hx => absurd hx List.not_mem_nil⟩⟩
  | succ left ih =>
    intro h lists done rest candidate limit hr hsplit hlen hbusy hcand
    cases rest with
    | nil =>
      refine ⟨[], [], h, candidate, rfl, ?_, .done h candidate limit, Parks.refl hr qi, Or.inl rfl,
        fun h0 => ⟨h0, rfl, fun _ hx => absurd hx List.not_mem_nil⟩⟩
      rw [List.headD_nil, Heap.findCandidate, if_pos rfl]
    | cons cur rest =>
      have hp : cur ∈ lists qi := by
        rw [hsplit]
        simp
      have hlt := hr.lt qi cur hp
      have hqok := hr.queue qi hlt
      have haddr := hr.addr qi cur hp
      have hcur0 : cur ≠ 0 := hqok.ne_zero hp
      have hnd := (List.nodup_cons.mp hqok.nodup).2
      rw [hsplit] at hqok hnd
      have hnext : h.field cur .next = rest.headD 0 := hqok.neighbours.1
      rw [List.length_cons] at hlen
      rw [List.headD_cons, findCandidate_succ left h candidate limit hcur0, hnext]
      -- A candidate in hand has no free block, so it has a live one.
      have hassert : candidate ≠ 0 → Page.allFree h.bytes candidate = false := fun h0 =>
        hbusy candidate (by rw [hsplit]; exact List.mem_append_left _ (hcand h0).1) (hcand h0).2
      by_cases hroom : NoRoom h.bytes cur
      · -- No room: the page is parked.
        rw [if_pos hroom]
        have hpark := hr.park hp hqi
        have hsplit' : parkedLists lists qi [cur] qi = done ++ rest := by
          have hcurd : cur ∉ done := fun hm => (List.nodup_append.mp hnd).2.2 cur hm cur List.mem_cons_self rfl
          have hcurr := (List.nodup_cons.mp (List.nodup_append.mp hnd).2.1).1
          have hkeep : ∀ l : List Nat, cur ∉ l → l.filter (· ∉ [cur]) = l := fun l hl =>
            List.filter_eq_self.mpr fun x hx => by
              rw [decide_eq_true_eq, List.mem_singleton]
              exact fun e => hl (e ▸ hx)
          unfold parkedLists
          rw [Function.update_of_ne hqi, Function.update_self, hsplit, List.filter_append,
            List.filter_cons_of_neg (by simp), hkeep done hcurd, hkeep rest hcurr]
        have haddr' : ∀ x ∈ done ++ rest, PageAddr x := fun x hx => hr.addr qi x (by
          rw [hsplit]
          rcases List.mem_append.mp hx with hx | hx
          · exact List.mem_append_left _ hx
          · exact List.mem_append_right _ (List.mem_cons_of_mem cur hx))
        have hbusy' : ∀ x ∈ parkedLists lists qi [cur] qi, Page.hasFree (h.park qi cur).bytes x = false →
            Page.allFree (h.park qi cur).bytes x = false := by
          intro x hx
          rw [hsplit'] at hx
          rw [(hpark.same (haddr' x hx)).1, (hpark.same (haddr' x hx)).2.2]
          refine hbusy x ?_
          rw [hsplit]
          rcases List.mem_append.mp hx with hx | hx
          · exact List.mem_append_left _ hx
          · exact List.mem_append_right _ (List.mem_cons_of_mem cur hx)
        have hcand' : candidate ≠ 0 → candidate ∈ done ∧
            Page.hasFree (h.park qi cur).bytes candidate = false := by
          intro h0
          refine ⟨(hcand h0).1, ?_⟩
          rw [(hpark.same (haddr' candidate (List.mem_append_left _ (hcand h0).1))).1]
          exact (hcand h0).2
        obtain ⟨vs, suf, h', found, hrest, hres, hwalk, hparks, hfound, hnone⟩ :=
          ih done rest candidate (limit - 1) hpark.represents hsplit' (by omega) hbusy' hcand'
        subst hrest
        have hsame : ∀ x ∈ vs, (NoRoom (h.park qi cur).bytes x ↔ NoRoom h.bytes x) := fun x hx =>
          hpark.noRoom (haddr' x (List.mem_append_right _ (List.mem_append_left _ hx)))
        refine ⟨cur :: vs, suf, h', found, rfl, hres, .park hcur0 hroom (hnext ▸ hwalk), ?_, ?_, ?_⟩
        · rw [List.filter_cons_of_pos (by simpa using hroom)]
          have hfilter : vs.filter (NoRoom (h.park qi cur).bytes) = vs.filter (NoRoom h.bytes) :=
            List.filter_congr fun x hx => by rw [decide_eq_decide]; exact hsame x hx
          exact Parks.cons hpark (hfilter ▸ hparks) hqi
        · rcases hfound with h0 | ⟨hm, hno⟩
          · exact Or.inl h0
          · exact Or.inr ⟨List.mem_cons_of_mem cur hm, (hsame found hm).not.mp hno⟩
        · intro h0
          obtain ⟨hc, hs, hall⟩ := hnone h0
          exact ⟨hc, hs, List.forall_mem_cons.mpr ⟨hroom, fun x hx => (hsame x hx).mp (hall x hx)⟩⟩
      · -- Room: the page is compared, and the walk may end.
        rw [if_neg hroom]
        have hweigh : (h.weigh candidate limit cur).1 = cur ∨
            ((h.weigh candidate limit cur).1 = candidate ∧ candidate ≠ 0) := by
          unfold Heap.weigh
          by_cases h0 : candidate = 0
          · simp [h0]
          · simp only [if_neg h0]
            split
            · exact Or.inl rfl
            · exact Or.inr ⟨rfl, h0⟩
        have hne : (h.weigh candidate limit cur).1 ≠ 0 := by
          rcases hweigh with he | ⟨he, h0⟩
          · rw [he]
            exact hcur0
          · rw [he]
            exact h0
        by_cases hend : Page.hasFree h.bytes cur = true ∨ (h.weigh candidate limit cur).2 ≤ 0
        · rw [if_pos hend]
          refine ⟨[cur], rest, h, _, rfl, rfl, .stop hcur0 hroom hassert hend, ?_, ?_, fun h0 => absurd h0 hne⟩
          · rw [List.filter_cons_of_neg (by simpa using hroom), List.filter_nil]
            exact Parks.refl hr qi
          · rcases hweigh with he | ⟨he, -⟩
            · rw [he]
              exact Or.inr ⟨List.mem_singleton_self cur, hroom⟩
            · exact Or.inl he
        · rw [if_neg hend]
          have hfree : Page.hasFree h.bytes cur = false := by
            rw [← Bool.not_eq_true]
            exact fun e => hend (Or.inl e)
          obtain ⟨vs, suf, h', found, hrest, hres, hwalk, hparks, hfound, hnone⟩ :=
            ih (done ++ [cur]) rest (h.weigh candidate limit cur).1
              ((h.weigh candidate limit cur).2 - 1) hr (by rw [hsplit]; simp) (by omega) hbusy (fun _ => by
                rcases hweigh with he | ⟨he, h0⟩
                · rw [he]
                  exact ⟨List.mem_append_right _ (List.mem_singleton_self cur), hfree⟩
                · rw [he]
                  exact ⟨List.mem_append_left _ (hcand h0).1, (hcand h0).2⟩)
          subst hrest
          refine ⟨cur :: vs, suf, h', found, rfl, hres, .pass hcur0 hroom hassert hend (hnext ▸ hwalk), ?_,
            ?_, fun h0 => absurd (hnone h0).1 hne⟩
          · rw [List.filter_cons_of_neg (by simpa using hroom)]
            exact hparks
          · rcases hfound with he | ⟨hm, hno⟩
            · rcases hweigh with he' | ⟨he', -⟩
              · rw [he, he']
                exact Or.inr ⟨List.mem_cons_self, hroom⟩
              · exact Or.inl (he.trans he')
            · exact Or.inr ⟨List.mem_cons_of_mem cur hm, hno⟩

/-! ## Free lists -/

/-- Page `p` of bin `n` was extended at most once, and then from an empty free list. -/
inductive ExtendedOnce (b c : Bytes) (p n : Nat) : Prop where
  | same (fl : List Nat) : Page.FreeList b p fl → Page.FreeList c p fl →
    Page.get c p .capacity = Page.get b p .capacity → ExtendedOnce b c p n
  | extended : Page.FreeList b p [] → Page.FreeList c p (Page.extensionOf b p n) →
    Page.get b p .capacity < Page.reservedOf n →
    Page.get c p .capacity = Page.get b p .capacity + Page.batch n (Page.get b p .capacity) →
    ExtendedOnce b c p n

/-! ## What a page search leaves -/

/-- The page found: at the front of queue `n`, of that bin, with a free block. -/
structure Usable (h : Heap M) (lists : Nat → List Nat) (n p : Nat) : Prop where
  front : ∃ l, lists n = p :: l
  bin : h.field p .bin = n
  flag : Page.inFullQueue h.bytes p = false
  free : ∃ fl, fl ≠ [] ∧ Page.FreeList h.bytes p fl
  expire : h.field p .retireExpire = 0

/-- What any search leaves: of the members it visited those without room are at the end of
    the full queue, and free lists, but for that of the page found, are as they were. -/
structure Disturbs (h h' : Heap M) (lists lists' : Nat → List Nat) (ps : List Nat) (result : Option Nat) :
    Prop where
  before : Represents h lists
  after : Represents h' lists'
  parked : lists' fullQueue = lists fullQueue ++ ps
  flagged : ∀ x ∈ ps, Page.inFullQueue h'.bytes x = true ∧ h'.field x .retireExpire = 0
  others : ∀ q, ∀ x ∈ lists' q, result ≠ some x → ∃ fl, Page.FreeList h.bytes x fl ∧ Page.FreeList h'.bytes x fl

/-- The page was a member the search visited: the others keep their order, and no memory
    was acquired. -/
structure FromQueue (h h' : Heap M) (lists lists' : Nat → List Nat) (vs : List Nat) (n p : Nat) : Prop where
  visited : p ∈ vs
  roomy : ¬ NoRoom h.bytes p
  rest : lists' n = p :: ((lists n).filter (· ∉ vs.filter (NoRoom h.bytes))).erase p
  elsewhere : ∀ r, r ≠ n → r ≠ fullQueue → lists' r = lists r
  memory : h'.slices = h.slices ∧ h'.mem = h.mem ∧ h'.growLog = h.growLog
  extended : ExtendedOnce h.bytes h'.bytes p n

/-- The page is fresh: no member had room, and the page was extended once. -/
structure FromSupply (h h' : Heap M) (lists lists' : Nat → List Nat) (vs : List Nat) (n p : Nat) : Prop where
  visited : vs = lists n
  full : ∀ x ∈ vs, NoRoom h.bytes x
  alone : lists' n = [p]
  list : Page.FreeList h'.bytes p ((List.range' 0 (Page.batch n 0)).map (Page.block p n))
  capacity : h'.field p .capacity = Page.batch n 0

section Inv
variable [Memory M] {live : List Block} {g g' : Ghost} {n : Nat}

theorem Inv.usable (hi : Inv g h live) {l : List Nat} (hn : n ≤ maxBin) (hfront : g.queue n = p :: l)
    (hfree : g.free p ≠ []) (hexp : h.field p .retireExpire = 0) : Usable h g.queue n p := by
  have hp : p ∈ g.queue n := by
    rw [hfront]
    exact List.mem_cons_self
  obtain ⟨hin, -⟩ := hi.core.member hp
  obtain ⟨hbin, hflags⟩ := hi.core.not_full hp hn
  refine { front := ⟨l, hfront⟩, bin := hin.ok.bin.trans hbin.symm, flag := ?_
           free := ⟨g.free p, hfree, hi.freeList hin.isPage⟩, expire := hexp }
  unfold Page.inFullQueue
  rw [hflags]
  rfl

theorem Inv.flagged (hi : Inv g h live) {x : Nat} (hx : x ∈ g.queue fullQueue) :
    Page.inFullQueue h.bytes x = true ∧ h.field x .retireExpire = 0 := by
  refine ⟨?_, (hi.settled.parked x hx fun e => e).retire⟩
  have hm := hi.core.queues.member fullQueue x hx
  have hfull := maxBin_lt_full
  have hflags := (hm.home.resolve_left fun e => by have := hm.bin_le; omega).2
  unfold Page.inFullQueue
  rw [hflags]
  rfl

/-- A member without a free block has a live one, if it ever had a block. -/
theorem Inv.busy (hi : Inv g h live) (hopened : ∀ q ≤ maxBin, ∀ x ∈ g.queue q, 1 ≤ (h.card x).capacity)
    (hn : n ≤ maxBin) : ∀ x ∈ g.queue n, Page.hasFree h.bytes x = false → Page.allFree h.bytes x = false := by
  intro x hx hfree
  have hnil : g.free x = [] := by
    by_contra hne
    rw [(hi.core.member hx).1.ok.hasFree_iff.mpr hne] at hfree
    cases hfree
  have hused : (h.card x).used = (h.card x).capacity := used_eq_capacity hi hx hnil
  have hcap := hopened n hn x hx
  have hused : Page.get h.bytes x .used = (h.card x).capacity := hused
  unfold Page.allFree
  rw [beq_eq_false_iff_ne]
  omega

/-! ## After the loop -/

theorem takeToFront (hi : Inv g h live) (hn : n ≤ maxBin) (hp : p ∈ g.queue n) :
    ∃ Q, Inv { g with queue := Q } ((h.moveToFront n p).setField p .retireExpire 0) live ∧
      Q n = p :: (g.queue n).erase p ∧ (∀ r ≠ n, Q r = g.queue r) ∧
      ((h.moveToFront n p).setField p .retireExpire 0).field p .retireExpire = 0 ∧
      ((h.moveToFront n p).setField p .retireExpire 0).field p .capacity = h.field p .capacity ∧
      (h.moveToFront n p).slices = h.slices ∧ (h.moveToFront n p).mem = h.mem ∧
      (h.moveToFront n p).growLog = h.growLog := by
  have haddr := hi.core.queues.addr p hp
  obtain ⟨Q, hi1, -, hm1, hfront, hothers⟩ := moveToFront_inv hi hp hn
  have hq : p ∈ Q n := hfront ▸ List.mem_cons_self
  obtain ⟨hi2, -⟩ := setRetire_inv hi1 (hi1.core.queues.member n p hq).page (by decide) (Or.inr rfl)
  refine ⟨Q, hi2, hfront, hothers, Page.get_set_same (Nat.pow_pos (by decide)), ?_, ?_⟩
  · refine (get_setField haddr haddr (Nat.pow_pos (by decide))).trans ?_
    rw [if_neg fun e => absurd e.2 (by decide)]
    exact hm1.edit.fields p haddr _ rfl
  · rw [hm1.frame]
    exact ⟨rfl, rfl, rfl⟩

theorem extendCandidate (hi : Inv g h live) (hn : n ≤ maxBin) (hp : p ∈ g.queue n)
    (hfree : Page.hasFree h.bytes p = false) (hexp : Page.isExpandable h.bytes p = true) :
    ∃ c, Page.extend h.bytes p = (true, c) ∧ g.free p = [] ∧
      Page.get h.bytes p .capacity < Page.reservedOf n ∧
      Inv (g.withFree p (Page.extensionOf h.bytes p n)) { h with bytes := c } live ∧
      Page.get c p .capacity = Page.get h.bytes p .capacity + Page.batch n (Page.get h.bytes p .capacity) := by
  obtain ⟨hin, -⟩ := hi.core.member hp
  obtain ⟨hbin, -⟩ := hi.core.not_full hp hn
  have hnil : g.free p = [] := by
    by_contra hne
    rw [hin.ok.hasFree_iff.mpr hne] at hfree
    cases hfree
  obtain ⟨c, hext, hroom, hi', -, -, hcap⟩ := extendPage_inv hi hp hn hexp
  rw [hnil, List.append_nil, ← hbin] at hi'
  rw [← hbin] at hroom hcap
  exact ⟨c, hext, hnil, hroom, hi', hcap⟩

theorem Frames.queue_core {live' : List Block} (hf : Frames g h h') (hc : Core g h live) (hc' : Core g' h' live') :
    g'.queue = g.queue :=
  hc.queues.queue_eq hc'.queues hf.queues fun q x hx => ⟨hf.header q x hx _, hf.header q x hx _⟩

theorem releaseEmptyPages_full (hi : Inv g h live) (hi' : Inv g' h.releaseEmptyPages live) :
    g'.queue fullQueue = g.queue fullQueue := by
  obtain ⟨-, l, hl, hl'⟩ := (releaseEmptyPages_swept hi).full
  rw [← hl'.unique (hi'.core.queues.queue _ full_lt), hl.unique (hi.core.queues.queue _ full_lt)]

variable [Memory.Contract M]

theorem acquireRun_full {live' : List Block} {count k : Nat} (hi : Inv g h live)
    (hinit : h.initialized = true) (hc : 1 ≤ count) (hk : k ≤ usizeBits) (top : Bool)
    (hc' : Core g' (h.acquireRun count (2 ^ k) top).2 live') : g'.queue fullQueue = g.queue fullQueue := by
  rcases acquireRun_frames hi hinit hc hk top with hf | ⟨m, g1, hi1, hi2, hf⟩
  · rw [hf.queue_core hi.core hc']
  · rw [hf.queue_core hi2.core hc']
    exact releaseEmptyPages_full hi1 hi2

/-! ## `find_page` -/

theorem freshPage_exact (hi : Inv g h live) (hinit : h.initialized = true) (hn : 1 ≤ n)
    (hn' : n ≤ maxBin) (hempty : g.queue n = []) :
    ∃ g', Inv g' (h.freshPage n).2 live ∧ g'.queue fullQueue = g.queue fullQueue ∧
      (∀ x, IsPage g' x → (h.freshPage n).1 ≠ some x → IsPage g x ∧ g'.free x = g.free x) ∧
      (∀ p, (h.freshPage n).1 = some p → g'.queue n = [p] ∧ (h.freshPage n).2.field p .retireExpire = 0 ∧
        (h.freshPage n).2.field p .capacity = Page.batch n 0 ∧ g'.free p ≠ [] ∧
        g'.free p = (List.range' 0 (Page.batch n 0)).map (Page.block p n)) ∧
      ((h.freshPage n).1 = none → g'.queue n = []) := by
  obtain ⟨k, hk, hpow⟩ := pageSlices_pow n
  have hfull := maxBin_lt_full
  have hback : ∀ {g1 : Ghost} {h1 : Heap M}, Evolves live g g1 h h1 → ∀ x, IsPage g1 x →
      IsPage g x ∧ g1.free x = g.free x := fun he x hx => ⟨he.page_back hx, congrFun he.lists x⟩
  rcases freshPage_spec hi hinit hn hn' with
    ⟨p, h', g', run, h1, g1, hres, hfound, hacq, hclaims, hfresh, hlist, hcap⟩ | ⟨h', g', hres, hex⟩
  · rw [hres]
    have hacq' : (h.acquireRun (pageSlices n) (2 ^ k) false).2 = h1 := by rw [← hpow, hacq]
    have hcore : Core (g1.paint (InRun run.start (pageSlices n)) .claimed)
        (h.acquireRun (pageSlices n) (2 ^ k) false).2 live := by
      rw [hacq']
      exact hclaims.core
    have hq1 : (g1.paint (InRun run.start (pageSlices n)) .claimed).queue fullQueue = g.queue fullQueue :=
      acquireRun_full hi hinit (pageSlices_pos n) (le_usizeBits hk) false hcore
    have hnil : g1.queue n = [] := hclaims.evolves.empty hn' hempty
    have hq' : g'.queue n = [p] := by rw [hfresh.queue, Function.update_self, hnil]
    refine ⟨g', hfound.inv, ?_, fun x hx hne => ?_, fun q hq => ?_, fun e => by cases e⟩
    · rw [hfresh.queue, Function.update_of_ne (by omega)]
      exact hq1
    · have hxp : x ≠ p := fun e => hne (congrArg some e.symm)
      obtain ⟨hpage, hfree⟩ := hback hclaims.evolves x (hfresh.pages x hx hxp)
      exact ⟨hpage, (hfresh.lists x hxp).trans hfree⟩
    · obtain rfl := Option.some.inj hq
      exact ⟨hq', hfresh.expire, hcap, hfound.free, hlist⟩
  · rw [hres]
    have hacq' : (h.acquireRun (pageSlices n) (2 ^ k) false).2 = h' := by rw [← hpow, freshPage_none hres]
    refine ⟨g', hex.inv, ?_, fun x hx _ => hback hex.evolves x hx, fun _ e => (by cases e),
      fun _ => hex.evolves.empty hn' hempty⟩
    have hcore : Core g' (h.acquireRun (pageSlices n) (2 ^ k) false).2 live := by
      rw [hacq']
      exact hex.inv.core
    exact acquireRun_full hi hinit (pageSlices_pos n) (le_usizeBits hk) false hcore

/-- **`find_page`**, in a heap all of whose members once had a block. -/
theorem findPage_exact (hi : Inv g h live) (hinit : h.initialized = true) (hn : 1 ≤ n) (hn' : n ≤ maxBin)
    (hopened : ∀ q ≤ maxBin, ∀ x ∈ g.queue q, 1 ≤ (h.card x).capacity) :
    ∃ lists lists' vs suf h1 found, lists n = vs ++ suf ∧
      CandidateWalk n h 0 maxCandidates (h.queues (queueIndex n)).first vs h1 found ∧
      Disturbs h (h.findPage n).2 lists lists' (vs.filter (NoRoom h.bytes)) (h.findPage n).1 ∧
      (∀ p, (h.findPage n).1 = some p → Usable (h.findPage n).2 lists' n p ∧
        (FromQueue h (h.findPage n).2 lists lists' vs n p ∨
          FromSupply h (h.findPage n).2 lists lists' vs n p)) ∧
      ((h.findPage n).1 = none → vs = lists n ∧ (∀ x ∈ vs, NoRoom h.bytes x) ∧ lists' n = []) := by
  have hlt := bin_lt hn'
  have hfull : n ≠ fullQueue := by
    have := maxBin_lt_full
    omega
  have hqok := hi.core.queues.queue n hlt
  obtain ⟨Q, h1, found, hres, hi1, he1, hend, -⟩ := findCandidate_spec hn' (g.queue n).length []
    (g.queue n) 0 maxCandidates hi rfl (Nat.le_refl _) (Or.inl ⟨rfl, rfl⟩)
    (fun _ hx => absurd hx List.not_mem_nil)
  obtain ⟨vs, suf, h1', found', hsplit, hres', hwalk, hparks, hfound, hnone⟩ :=
    findCandidate_walk hfull (g.queue n).length [] (g.queue n) 0 maxCandidates hi.core.queues.represents
      rfl (Nat.le_refl _) (hi.busy hopened hn') (fun h0 => absurd rfl h0)
  obtain ⟨rfl, rfl⟩ := Prod.mk.inj (hres.symm.trans hres')
  have hQ : Q = parkedLists g.queue n (vs.filter (NoRoom h.bytes)) :=
    hparks.represents.unique hi1.core.queues.represents
  have hQfull : Q fullQueue = g.queue fullQueue ++ vs.filter (NoRoom h.bytes) := by
    rw [hQ]
    exact Function.update_self _ _ _
  have hQn : Q n = (g.queue n).filter (· ∉ vs.filter (NoRoom h.bytes)) := by
    rw [hQ]
    unfold parkedLists
    rw [Function.update_of_ne hfull, Function.update_self]
  have hQr : ∀ r, r ≠ n → r ≠ fullQueue → Q r = g.queue r := fun r h1 h2 => by
    rw [hQ]
    unfold parkedLists
    rw [Function.update_of_ne h2, Function.update_of_ne h1]
  -- What follows the loop keeps the full queue and the free lists of the other pages.
  have hdisturbs : ∀ {g' : Ghost} {h' : Heap M} {result : Option Nat}, Inv g' h' live →
      g'.queue fullQueue = Q fullQueue →
      (∀ x, IsPage g' x → result ≠ some x → IsPage g x ∧ g'.free x = g.free x) →
      Disturbs h h' g.queue g'.queue (vs.filter (NoRoom h.bytes)) result := by
    intro g' h' result hi' hq hfree
    have hparked : g'.queue fullQueue = g.queue fullQueue ++ vs.filter (NoRoom h.bytes) := hq.trans hQfull
    refine { before := hi.core.queues.represents, after := hi'.core.queues.represents, parked := hparked
             flagged := fun x hx => hi'.flagged ?_, others := fun q x hx hne => ?_ }
    · rw [hparked]
      exact List.mem_append_right _ hx
    · have hpage := (hi'.core.queues.member q x hx).page
      obtain ⟨hold, heq⟩ := hfree x hpage hne
      exact ⟨g.free x, hi.freeList hold, heq ▸ hi'.freeList hpage⟩
  refine ⟨g.queue, ?_⟩
  rw [queueIndex_of_lt hlt, hqok.first]
  unfold Heap.findPage
  simp only [queueIndex_of_lt hlt, hqok.count, hqok.first, hres]
  rcases hend with ⟨h0, hempty⟩ | ⟨hmem, hroomy⟩
  · -- No candidate: every member was parked, and a fresh page is tried.
    subst h0
    obtain ⟨-, rfl, hall⟩ := hnone rfl
    rw [List.append_nil] at hsplit
    subst hsplit
    simp only [ne_eq, not_true_eq_false, decide_false, Bool.false_and, Bool.false_eq_true,
      if_false, if_true]
    obtain ⟨g2, hi2, he2⟩ := collectRetired_inv hi1
    obtain ⟨g3, hi3, hq3, hpages3, hsome3, hnone3⟩ := freshPage_exact hi2 (he2.init (he1.init hinit)) hn hn'
      (he2.empty hn' hempty)
    refine ⟨g3.queue, g.queue n, [], h1, 0, (List.append_nil _).symm, hwalk, ?_, ?_, ?_⟩
    · refine hdisturbs hi3 (hq3.trans (collectRetired_full hi1 hi2)) fun x hx hne => ?_
      obtain ⟨hpage, hfree⟩ := hpages3 x hx hne
      exact ⟨he2.page_back hpage, hfree.trans (congrFun he2.lists x)⟩
    · intro p hp
      obtain ⟨hq, hexp, hcap, hne, hlist⟩ := hsome3 p hp
      have hpage : IsPage g3 p := (hi3.core.queues.member n p (by rw [hq]; exact List.mem_singleton_self p)).page
      exact ⟨hi3.usable hn' hq hne hexp, Or.inr { visited := rfl, full := hall, alone := hq
                                                  list := hlist ▸ hi3.freeList hpage, capacity := hcap }⟩
    · exact fun hp => ⟨rfl, hall, hnone3 hp⟩
  · obtain ⟨hvisit, hroom⟩ := hfound.resolve_left fun h0 =>
      (hi1.core.queues.queue n hlt).ne_zero hmem h0
    have hne : found ≠ 0 := (hi1.core.queues.queue n hlt).ne_zero hmem
    obtain ⟨hin, haddr⟩ := hi1.core.member hmem
    have hpage : IsPage g found := hin.isPage
    have hcap1 : Page.get h1.bytes found .capacity = Page.get h.bytes found .capacity :=
      hparks.fields found haddr _ (by decide) (by decide) (by decide) (by decide)
    have hmem1 : h1.slices = h.slices ∧ h1.mem = h.mem ∧ h1.growLog = h.growLog := by
      rw [hparks.frame]
      exact ⟨rfl, rfl, rfl⟩
    -- What the move to the front leaves, whether the candidate was extended or not.
    have hserve : ∀ {Q2 : Nat → List Nat} {h2 : Heap M}, Q2 n = found :: (Q n).erase found →
        (∀ r ≠ n, Q2 r = Q r) → (h2.slices = h1.slices ∧ h2.mem = h1.mem ∧ h2.growLog = h1.growLog) →
        ExtendedOnce h.bytes h2.bytes found n → FromQueue h h2 g.queue Q2 vs n found :=
      fun hfront hothers hmem2 hext =>
        { visited := hvisit, roomy := hroom, rest := hQn ▸ hfront
          elsewhere := fun r h1 h2 => (hothers r h1).trans (hQr r h1 h2)
          memory := ⟨hmem2.1.trans hmem1.1, hmem2.2.1.trans hmem1.2.1, hmem2.2.2.trans hmem1.2.2⟩
          extended := hext }
    by_cases hfree : Page.hasFree h1.bytes found = true
    · simp only [hfree, ne_eq, hne, not_false_eq_true, decide_true, Bool.not_true, Bool.and_false,
        Bool.false_eq_true, if_false]
      obtain ⟨Q2, hi2, hfront, hothers, hexp, hcap, hmem2⟩ := takeToFront hi1 hn' hmem
      refine ⟨Q2, vs, suf, h1, found, hsplit, hwalk, ?_, ?_, fun e => by cases e⟩
      · exact hdisturbs hi2 (hothers _ (Ne.symm hfull)) fun x hx _ => ⟨hx, rfl⟩
      · rintro p ⟨⟩
        refine ⟨hi2.usable hn' hfront (hin.ok.hasFree_iff.mp hfree) hexp, Or.inl (hserve hfront hothers hmem2 ?_)⟩
        exact .same (g.free found) (hi.freeList hpage) (hi2.freeList hpage) (hcap.trans hcap1)
    · have hfree' : Page.hasFree h1.bytes found = false := by simpa using hfree
      obtain ⟨c, hext, hnil, hlt', hi2, hcap2⟩ :=
        extendCandidate hi1 hn' hmem hfree' (hroomy.resolve_left hfree)
      simp only [hfree', ne_eq, hne, not_false_eq_true, decide_true, Bool.not_false, Bool.and_self,
        if_true, hext, if_false]
      obtain ⟨Q3, hi3, hfront, hothers, hexp, hcap, hmem3⟩ := takeToFront hi2 hn' hmem
      have hlist := hi3.freeList hpage
      replace hlist : Page.FreeList _ found
        (Function.update g.free found (Page.extensionOf h1.bytes found n) found) := hlist
      rw [Function.update_self] at hlist
      refine ⟨Q3, vs, suf, h1, found, hsplit, hwalk, ?_, ?_, fun e => by cases e⟩
      · refine hdisturbs hi3 (hothers _ (Ne.symm hfull)) fun x hx hne' => ⟨hx, ?_⟩
        exact Function.update_of_ne (fun e => hne' (congrArg some e.symm)) _ _
      · rintro p ⟨⟩
        refine ⟨hi3.usable hn' hfront ?_ hexp, Or.inl (hserve hfront hothers hmem3 ?_)⟩
        · show Function.update g.free found (Page.extensionOf h1.bytes found n) found ≠ []
          rw [Function.update_self]
          exact Page.extensionOf_ne_nil hlt'
        · have hsame : Page.extensionOf h1.bytes found n = Page.extensionOf h.bytes found n := by
            unfold Page.extensionOf
            rw [hcap1]
          rw [hsame] at hlist
          refine .extended (hnil ▸ hi.freeList hpage) hlist (hcap1 ▸ hlt') ?_
          rw [← hcap1]
          exact hcap.trans hcap2

/-- **`find_page` returns a usable page and disturbs nothing else**, from every state of a
    run once it is initialised, and from the state in which a request calls it: the loop
    ends with its assertion holding, and `Disturbs`, `Usable`, and `FromQueue` or
    `FromSupply` say what was returned and what was left. -/
theorem find_page_exact {c : Config M} (hc : Reachable c)
    (hcov : c.heap.initialized = false → CoversInitial c.heap)
    (hh : h = c.heap.ensureInit ∨ h = c.heap.readied) (hn : 1 ≤ n) (hn' : n ≤ maxBin) :
    ∃ lists lists' vs suf h1 found, lists n = vs ++ suf ∧
      CandidateWalk n h 0 maxCandidates (h.queues (queueIndex n)).first vs h1 found ∧
      Disturbs h (h.findPage n).2 lists lists' (vs.filter (NoRoom h.bytes)) (h.findPage n).1 ∧
      (∀ p, (h.findPage n).1 = some p → Usable (h.findPage n).2 lists' n p ∧
        (FromQueue h (h.findPage n).2 lists lists' vs n p ∨
          FromSupply h (h.findPage n).2 lists lists' vs n p)) ∧
      ((h.findPage n).1 = none → vs = lists n ∧ (∀ x ∈ vs, NoRoom h.bytes x) ∧ lists' n = []) := by
  obtain ⟨g, hi, hkept⟩ := reachable_retains hc
  -- No member of a queue is without a block ever made, as the run kept its shelves.
  have hstate : ∃ g' live', ∃ hi' : Inv g' h live', Shelves.Moves hi.shelves hi'.shelves ∧
      h.initialized = true := by
    rcases hh with rfl | rfl
    · obtain ⟨⟨g1, hi1, -⟩, hinit⟩ := ensureInit_inv hi hcov
      exact ⟨g1, _, hi1, (ensureInit_frames g c.heap).moves hi hi1, hinit⟩
    · obtain ⟨⟨g1, hi1, -⟩, hinit⟩ := readied_inv hi hcov
      exact ⟨g1, _, hi1, readied_moves hi hcov hi1, hinit⟩
  obtain ⟨g', live', hi', hmoves, hinit⟩ := hstate
  exact findPage_exact hi' hinit hn hn' (hmoves.kept hkept).opened

end Inv

end Wasmalloc

namespace Wasmalloc.Sample

/-- The page of the block `held` keeps serves its bin. -/
theorem held_find_page :
    (held.heap.ensureInit.findPage 11).1 = some 131072 ∧
    ∃ lists', Usable (held.heap.ensureInit.findPage 11).2 lists' 11 131072 := by
  have hinit : held.heap.initialized = true := by decide +kernel
  have hcov : held.heap.initialized = false → CoversInitial held.heap := fun h => by
    rw [hinit] at h
    cases h
  have hfound : (held.heap.ensureInit.findPage 11).1 = some 131072 := by decide +kernel
  obtain ⟨_, lists', _, _, _, _, -, -, -, husable, -⟩ :=
    find_page_exact held_reachable hcov (Or.inl rfl) (n := 11) (by decide) (by decide)
  exact ⟨hfound, lists', (husable _ hfound).1⟩

end Wasmalloc.Sample
