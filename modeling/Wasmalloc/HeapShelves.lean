import Wasmalloc.Shelves
import Wasmalloc.Observed

/- The shelves of a heap.

   Between operations the queues of a heap are shelves (`Inv.shelves`). This module reads
   the functions of the heap that move pages as moves of the shelves: what only touches
   blocks and slices leaves them, the aging walk is one collection, the release walk
   leaves pages in use, and the page search finds a page behind full ones. -/
namespace Wasmalloc
open ByteMem

variable [Build] {M : Type} [Memory M] {live live' : List Block} {g g' : Ghost} {h h' h1 : Heap M}
  {p q qi : Nat}

/-- What the header at `p` tells. -/
def Heap.card (h : Heap M) (p : Nat) : Card :=
  { used := h.field p .used, capacity := h.field p .capacity, expire := h.field p .retireExpire }

/-- A heap between operations, as shelves. -/
def Inv.shelves (hi : Inv g h live) : Shelves where
  queue := g.queue
  card := h.card
  lo := h.retiredMin
  hi := h.retiredMax
  collections := h.collections
  nodup := fun q => by
    by_cases hlt : q < queueCount
    · exact (List.nodup_cons.mp (hi.core.queues.queue q hlt).nodup).2
    · have hnil : g.queue q = [] := List.eq_nil_iff_forall_not_mem.mpr fun p hp =>
        hlt (hi.core.queues.lt hp)
      rw [hnil]
      exact List.nodup_nil
  disjoint := hi.core.queues.disjoint
  home := fun q p hp => by
    have hm := hi.core.queues.member q p hp
    exact hm.home.imp (fun e => le_of_eq_of_le e.1 hm.bin_le) And.left
  used_le := fun q p hp => by
    have hok := (hi.core.member hp).1.ok
    exact le_of_eq_of_le hok.used hok.used_le
  full := fun p hp => by
    obtain ⟨hused, hexp⟩ := parked_quiet hi hp
    exact ⟨Nat.pos_iff_ne_zero.mp hused, hexp⟩

/-! ## The queues are in the heap -/

omit [Memory M] in
theorem QueuesOk.queue_eq {b b' : Bytes} {queues queues' : Nat → PageQueue} {direct direct' : Nat → Nat}
    {occupied occupied' : Words.U64} (hq : QueuesOk g b queues direct occupied)
    (hq' : QueuesOk g' b' queues' direct' occupied') (hsame : queues' = queues)
    (hlinks : ∀ q, ∀ p ∈ g.queue q, Page.get b' p .next = Page.get b p .next ∧
      Page.get b' p .prev = Page.get b p .prev) : g'.queue = g.queue := by
  funext q
  by_cases hlt : q < queueCount
  · have hok := hq'.queue q hlt
    rw [hsame] at hok
    exact hok.unique ((hq.queue q hlt).congr (hlinks q))
  · have hnil : ∀ {g : Ghost} {b : Bytes} {queues : Nat → PageQueue} {direct : Nat → Nat}
        {occupied : Words.U64}, QueuesOk g b queues direct occupied → g.queue q = [] := fun h =>
      List.eq_nil_iff_forall_not_mem.mpr fun p hp => hlt (h.lt hp)
    rw [hnil hq, hnil hq']

/-- The queues, the headers of their pages and the retired range are as before. -/
structure Frames (g : Ghost) (h h' : Heap M) : Prop where
  queues : h'.queues = h.queues
  header : ∀ q, ∀ p ∈ g.queue q, ∀ f, Page.get h'.bytes p f = Page.get h.bytes p f
  lo : h'.retiredMin = h.retiredMin
  hi : h'.retiredMax = h.retiredMax
  collections : h'.collections = h.collections

theorem Frames.queue_eq (hf : Frames g h h') (hi : Inv g h live) (hi' : Inv g' h' live') :
    g'.queue = g.queue :=
  hi.core.queues.queue_eq hi'.core.queues hf.queues fun q p hp =>
    ⟨hf.header q p hp _, hf.header q p hp _⟩

theorem Frames.thins (hf : Frames g h h') (hi : Inv g h live) (hi' : Inv g' h' live') :
    Shelves.Thins hi.shelves hi'.shelves := by
  have hq := hf.queue_eq hi hi'
  have hcard : ∀ q, ∀ p ∈ g'.queue q, h'.card p = h.card p := by
    intro q p hp
    rw [hq] at hp
    unfold Heap.card Heap.field
    rw [hf.header q p hp, hf.header q p hp, hf.header q p hp]
  refine { queue := fun q _ => ?_, card := fun q _ p hp _ => ?_, range := ⟨hf.lo, hf.hi, hf.collections⟩ }
  · show (g'.queue q).Sublist (g.queue q)
    rw [hq]
  · show (h.card p).Same (h'.card p)
    rw [hcard q p hp]
    exact ⟨rfl, Nat.le_refl _, rfl⟩

theorem Frames.moves (hf : Frames g h h') (hi : Inv g h live) (hi' : Inv g' h' live') :
    Shelves.Moves hi.shelves hi'.shelves :=
  Relation.ReflTransGen.single (.thins (hf.thins hi hi'))

/-! ## The aging walk -/

omit [Memory M] in
theorem card_setRetire {v x : Nat} (hp : PageAddr p) (hx : PageAddr x) (hv : v < 256) :
    (h.setField p .retireExpire v).card x =
      if x = p then { h.card p with expire := v } else h.card x := by
  have hget : ∀ k, Page.get (h.setField p .retireExpire v).bytes x k =
      if x = p ∧ k = .retireExpire then v else Page.get h.bytes x k := fun _ => get_setField hp hx hv
  unfold Heap.card Heap.field
  rw [hget, hget, hget]
  by_cases hxp : x = p <;> simp [hxp]

omit [Memory M] in
theorem Moved.card {Q : Nat → List Nat} (m : Moved g Q h h') {x : Nat} (hx : PageAddr x) :
    h'.card x = h.card x := by
  unfold Heap.card Heap.field
  rw [m.edit.fields x hx _ rfl, m.edit.fields x hx _ rfl, m.retire x hx]

/-- What one page of the aging walk does, from the range found so far. -/
def Heap.agePage (h : Heap M) (qi cur : Nat) (range : Nat × Nat) : Heap M × Nat × Nat :=
  if h.field cur .retireExpire ≠ 0 then
    if Page.allFree h.bytes cur then
      let h := h.setField cur .retireExpire (h.field cur .retireExpire - 1)
      if h.field cur .retireExpire = 0 then (h.freePage cur qi, range)
      else (h, min range.1 qi, max range.2 qi)
    else (h.setField cur .retireExpire 0, range)
  else (h, range)

omit [Memory M] in
theorem collectQueue_succ (qi left : Nat) (h : Heap M) (range : Nat × Nat) {cur : Nat} (hcur : cur ≠ 0) :
    Heap.collectQueue qi (left + 1) (h, range) cur =
      Heap.collectQueue qi left (h.agePage qi cur range) (h.field cur .next) := by
  rw [Heap.collectQueue, if_neg hcur]
  rfl

theorem setRetire_walks {v : Nat} {range range' : Nat × Nat} (hi : Inv g h live) (hp : p ∈ g.queue qi)
    (hv : v < 256) (hi' : Inv g (h.setField p .retireExpire v) live)
    (hle : v ≤ h.field p .retireExpire)
    (htick : h.field p .used = 0 → h.field p .retireExpire ≠ 0 →
      v + 1 = h.field p .retireExpire ∧ v ≠ 0 ∧ range'.1 ≤ qi ∧ qi ≤ range'.2)
    (hlower : range'.1 ≤ range.1) (hupper : range.2 ≤ range'.2) :
    Shelves.Walks hi.shelves hi'.shelves (fun q x => q = qi ∧ x = p) range range' := by
  have haddr := (hi.core.member hp).2
  have hcard : ∀ q, ∀ x ∈ g.queue q, (h.setField p .retireExpire v).card x =
      if x = p then { h.card p with expire := v } else h.card x := fun q x hx =>
    card_setRetire haddr (hi.core.queues.addr x hx) hv
  refine { queue := fun _ _ => List.Sublist.refl _, outside := ?_, used := ?_, capacity := ?_,
           expire := ?_, tick := ?_, lower := hlower, upper := hupper, same := ⟨rfl, rfl, rfl⟩ }
  · intro q _ x hx hno
    refine ⟨hx, (hcard q x hx).trans (if_neg fun e => hno ⟨?_, e⟩)⟩
    exact hi.core.queues.disjoint q qi p (e ▸ hx) hp
  · intro q _ x hx
    refine (congrArg Card.used (hcard q x hx)).trans ?_
    split
    · rename_i e
      rw [e]
      rfl
    · rfl
  · intro q _ x hx
    refine (congrArg Card.capacity (hcard q x hx)).trans ?_
    split
    · rename_i e
      rw [e]
      rfl
    · rfl
  · intro q _ x hx
    refine le_of_eq_of_le (congrArg Card.expire (hcard q x hx)) ?_
    split
    · rename_i e
      rw [e]
      exact hle
    · exact Nat.le_refl _
  · rintro q _ x hx ⟨rfl, rfl⟩ h0 hne
    have hexp := (congrArg Card.expire (hcard q x hx)).trans (by rw [if_pos rfl])
    have hexp : (hi'.shelves.card x).expire = v := hexp
    rw [hexp]
    exact htick h0 hne

omit [Memory M] in
theorem freePage_card {x : Nat} (hq : QueuesOk g h.bytes h.queues h.direct h.occupied)
    (hp : p ∈ g.queue qi) (hx : PageAddr x) : (h.freePage p qi).card x = h.card x :=
  (remove_ok hq hp).moved.card hx

theorem freePage_walks (range : Nat × Nat) (hi : Inv g h live) (hp : p ∈ g.queue qi)
    (hi' : Inv (({ g with queue := without g qi p } : Ghost).freed p) (h.freePage p qi) live) :
    Shelves.Walks hi.shelves hi'.shelves (fun q x => q = qi ∧ x = p) range range := by
  have hcard : ∀ q, ∀ x ∈ g.queue q, (h.freePage p qi).card x = h.card x := fun q x hx =>
    freePage_card hi.core.queues hp (hi.core.queues.addr x hx)
  have hback : ∀ q, ∀ x ∈ without g qi p q, x ∈ g.queue q := fun q x hx => mem_without hx
  refine { queue := ?_, outside := ?_, used := ?_, capacity := ?_, expire := ?_, tick := ?_,
           lower := Nat.le_refl _, upper := Nat.le_refl _, same := ?_ }
  · intro q _
    show (without g qi p q).Sublist (g.queue q)
    unfold without
    by_cases hq : q = qi
    · rw [hq, Function.update_self]
      exact List.erase_sublist
    · rw [Function.update_of_ne hq]
  · intro q _ x hx hno
    refine ⟨mem_without_of_ne hx fun e => hno ⟨?_, e⟩, hcard q x hx⟩
    exact hi.core.queues.disjoint q qi p (e ▸ hx) hp
  · exact fun q _ x hx => congrArg Card.used (hcard q x (hback q x hx))
  · exact fun q _ x hx => congrArg Card.capacity (hcard q x (hback q x hx))
  · exact fun q _ x hx => le_of_eq (congrArg Card.expire (hcard q x (hback q x hx)))
  · rintro q _ x hx ⟨rfl, rfl⟩
    exact absurd hx (not_mem_without hi.core.queues hp q)
  · have hframe := (remove_ok hi.core.queues hp).frame
    refine ⟨?_, ?_, ?_⟩
    all_goals
      unfold Inv.shelves Heap.freePage
      simp only
      rw [hframe]

/-- **One page of the aging walk.** -/
theorem agePage_walks {cur : Nat} (range : Nat × Nat) (hi : Inv g h live) (hqi : qi ≤ maxBin)
    (hp : cur ∈ g.queue qi) :
    ∃ h1 range1 g1, h.agePage qi cur range = (h1, range1) ∧ ∃ hi1 : Inv g1 h1 live,
      Shelves.Walks hi.shelves hi1.shelves (fun q x => q = qi ∧ x = cur) range range1 ∧
      (g1.queue qi = g.queue qi ∨ g1.queue qi = (g.queue qi).erase cur) ∧
      g1.queue fullQueue = g.queue fullQueue := by
  obtain ⟨hin, haddr⟩ := hi.core.member hp
  have hnot : cur ∉ g.queue fullQueue := fun hmem => by
    have := hi.core.queues.disjoint _ _ cur hmem hp
    have := maxBin_lt_full
    omega
  have hexp : h.field cur .retireExpire < 256 := Page.get_lt h.bytes cur .retireExpire
  unfold Heap.agePage
  by_cases hr : h.field cur .retireExpire ≠ 0
  swap
  · refine ⟨h, range, g, if_neg hr, hi, ?_, Or.inl rfl, rfl⟩
    exact { Shelves.Walks.refl hi.shelves range with
            outside := fun q _ x hx _ => ⟨hx, rfl⟩
            tick := fun q _ x _ hx _ hne => absurd (hx.2 ▸ hne) hr }
  simp only [if_pos hr]
  -- A page in use again only loses its countdown.
  by_cases hfree : Page.allFree h.bytes cur = true
  · simp only [if_pos hfree]
    have hv : h.field cur .retireExpire - 1 < 256 := by omega
    obtain ⟨hi1, -⟩ := setRetire_inv hi hin.isPage hv (Or.inl hnot)
    have hset : (h.setField cur .retireExpire (h.field cur .retireExpire - 1)).field cur .retireExpire =
        h.field cur .retireExpire - 1 := Page.get_set_same hv
    simp only [hset]
    by_cases hlast : h.field cur .retireExpire - 1 = 0
    · -- The countdown ran out.
      obtain ⟨hi2, -, -⟩ := freePage_inv hi1 hp ((allFree_iff hin).mp hfree)
      have hw2 := freePage_walks range hi1 hp hi2
      have hkept : without g qi cur fullQueue = g.queue fullQueue :=
        Function.update_of_ne (by have := maxBin_lt_full; omega) _ _
      refine ⟨_, range, _, if_pos hlast, hi2, ?_, Or.inr (Function.update_self _ _ _), hkept⟩
      have hcard : ∀ q, ∀ x ∈ without g qi cur q, ((h.setField cur .retireExpire
          (h.field cur .retireExpire - 1)).freePage cur qi).card x = h.card x := by
        intro q x hx
        have hxa := hi.core.queues.addr x (mem_without hx)
        have hne : x ≠ cur := fun e => not_mem_without hi.core.queues hp q (e ▸ hx)
        rw [freePage_card hi1.core.queues hp hxa, card_setRetire haddr hxa hv, if_neg hne]
      refine { hw2 with
               outside := fun q hq x hx hno => ?_, used := fun q _ x hx => ?_
               capacity := fun q _ x hx => ?_, expire := fun q _ x hx => ?_, tick := ?_
               same := ⟨hw2.same.lo, hw2.same.hi, hw2.same.collections⟩ }
      · obtain ⟨hx', -⟩ := hw2.outside q hq x hx hno
        exact ⟨hx', hcard q x hx'⟩
      · exact congrArg Card.used (hcard q x hx)
      · exact congrArg Card.capacity (hcard q x hx)
      · exact le_of_eq (congrArg Card.expire (hcard q x hx))
      · rintro q _ x hx ⟨rfl, rfl⟩
        exact absurd hx (not_mem_without hi.core.queues hp q)
    · refine ⟨_, _, g, if_neg hlast, hi1, setRetire_walks hi hp hv hi1 (Nat.sub_le _ _) ?_ ?_ ?_,
        Or.inl rfl, rfl⟩
      · intro _ _
        simp only
        omega
      · exact Nat.min_le_left _ _
      · exact Nat.le_max_left _ _
  · simp only [if_neg hfree]
    obtain ⟨hi1, -⟩ := setRetire_inv hi hin.isPage (show 0 < 256 by decide) (Or.inr rfl)
    refine ⟨_, range, g, rfl, hi1, setRetire_walks hi hp (by decide) hi1 (Nat.zero_le _) ?_
      (Nat.le_refl _) (Nat.le_refl _), Or.inl rfl, rfl⟩
    intro h0
    unfold Page.allFree at hfree
    rw [beq_iff_eq] at hfree
    exact absurd h0 hfree

/-- **The aging walk** over one queue, `done` being the part it has passed. -/
theorem collectQueue_walks (hqi : qi ≤ maxBin) (left : Nat) : ∀ {g : Ghost} {h : Heap M}
    (range : Nat × Nat) (done rest : List Nat) (hi : Inv g h live), g.queue qi = done ++ rest →
    ∃ h' range' g', Heap.collectQueue qi left (h, range) (rest.headD 0) = (h', range') ∧
      ∃ hi' : Inv g' h' live,
        Shelves.Walks hi.shelves hi'.shelves (fun q x => q = qi ∧ x ∈ rest.take left) range range' ∧
        g'.queue fullQueue = g.queue fullQueue := by
  induction left with
  | zero =>
    intro g h range done rest hi _
    refine ⟨h, range, g, rfl, hi, ?_, rfl⟩
    exact { Shelves.Walks.refl hi.shelves range with
            outside := fun q _ x hx _ => ⟨hx, rfl⟩
            tick := fun q _ x _ hx => absurd hx.2 (by simp) }
  | succ left ih =>
    intro g h range done rest hi hsplit
    cases rest with
    | nil =>
      refine ⟨h, range, g, if_pos rfl, hi, ?_, rfl⟩
      exact { Shelves.Walks.refl hi.shelves range with
              outside := fun q _ x hx _ => ⟨hx, rfl⟩
              tick := fun q _ x _ hx => absurd hx.2 (by simp) }
    | cons cur rest =>
      have hp : cur ∈ g.queue qi := by
        rw [hsplit]
        simp
      have hqok := hi.core.queues.queue qi (bin_lt hqi)
      have hcur0 : cur ≠ 0 := hqok.ne_zero hp
      have hnd := hi.shelves.nodup qi
      have hnd : (g.queue qi).Nodup := hnd
      rw [hsplit] at hqok hnd
      have hnext : h.field cur .next = rest.headD 0 := hqok.neighbours.1
      obtain ⟨-, hnd2, hdis⟩ := List.nodup_append.mp hnd
      have hcurd : cur ∉ done := fun hmem => hdis cur hmem cur List.mem_cons_self rfl
      have hcurr := (List.nodup_cons.mp hnd2).1
      obtain ⟨h1, range1, g1, hres1, hi1, hw1, hq1, hf1⟩ := agePage_walks range hi hqi hp
      -- What is left of the queue ends in the part still to be seen.
      obtain ⟨done1, hsplit1⟩ : ∃ done1, g1.queue qi = done1 ++ rest := by
        rcases hq1 with hq1 | hq1
        · exact ⟨done ++ [cur], by rw [hq1, hsplit]; simp⟩
        · exact ⟨done, by rw [hq1, hsplit, List.erase_append_right _ hcurd, List.erase_cons_head]⟩
      obtain ⟨h2, range2, g2, hres2, hi2, hw2, hf2⟩ := ih range1 done1 rest hi1 hsplit1
      refine ⟨h2, range2, g2, ?_, hi2, hw1.trans hw2 ?_ ?_, hf2.trans hf1⟩
      · rw [List.headD_cons, collectQueue_succ qi left h range hcur0, hres1, hnext]
        exact hres2
      · rintro q _ x _ ⟨rfl, rfl⟩ ⟨-, hx⟩
        exact hcurr (List.mem_of_mem_take hx)
      · intro q _ x _
        rw [List.take_succ_cons, List.mem_cons]
        constructor
        · rintro ⟨hq, hx | hx⟩
          · exact Or.inl ⟨hq, hx⟩
          · exact Or.inr ⟨hq, hx⟩
        · rintro (⟨hq, hx⟩ | ⟨hq, hx⟩)
          · exact ⟨hq, Or.inl hx⟩
          · exact ⟨hq, Or.inr hx⟩

theorem collect_walks (l : List Nat) : ∀ {g : Ghost} {h : Heap M} (range : Nat × Nat)
    (hi : Inv g h live), (∀ q ∈ l, q ≤ maxBin) → l.Nodup →
    ∃ h' range' g', l.foldl (fun s qi =>
        Heap.collectQueue qi retireMaxPages s (s.1.queues (queueIndex qi)).first) (h, range) =
          (h', range') ∧
      ∃ hi' : Inv g' h' live, Shelves.Walks hi.shelves hi'.shelves
        (fun q x => q ∈ l ∧ x ∈ (g.queue q).take retireMaxPages) range range' ∧
        g'.queue fullQueue = g.queue fullQueue := by
  induction l with
  | nil =>
    intro g h range hi _ _
    refine ⟨h, range, g, rfl, hi, ?_, rfl⟩
    exact { Shelves.Walks.refl hi.shelves range with
            outside := fun q _ x hx _ => ⟨hx, rfl⟩
            tick := fun q _ x _ hx => absurd hx.1 (by simp) }
  | cons qi l ih =>
    intro g h range hi hl hnd
    obtain ⟨hqil, hnd⟩ := List.nodup_cons.mp hnd
    have hqi := hl qi List.mem_cons_self
    have hlt := bin_lt hqi
    have hfirst : (h.queues (queueIndex qi)).first = (g.queue qi).headD 0 := by
      rw [queueIndex_of_lt hlt]
      exact (hi.core.queues.queue qi hlt).first
    obtain ⟨h1, range1, g1, hres1, hi1, hw1, hf1⟩ :=
      collectQueue_walks hqi retireMaxPages range [] (g.queue qi) hi rfl
    obtain ⟨h2, range2, g2, hres2, hi2, hw2, hf2⟩ := ih range1 hi1
      (fun q hq => hl q (List.mem_cons_of_mem qi hq)) hnd
    -- The walk over one queue leaves the queues of the others as they are.
    have hother : ∀ q ∈ l, g1.queue q = g.queue q := fun q hq =>
      hw1.untouched (hl q (List.mem_cons_of_mem qi hq)) fun x hx => hqil (hx.1 ▸ hq)
    refine ⟨h2, range2, g2, ?_, hi2, hw1.trans hw2 ?_ ?_, hf2.trans hf1⟩
    · rw [List.foldl_cons, hfirst, hres1]
      exact hres2
    · rintro q _ x _ ⟨rfl, -⟩ ⟨hq, -⟩
      exact hqil hq
    · intro q _ x _
      rw [List.mem_cons]
      constructor
      · rintro ⟨rfl | hq, hx⟩
        · exact Or.inl ⟨rfl, hx⟩
        · exact Or.inr ⟨hq, by rwa [hother q hq]⟩
      · rintro (⟨rfl, hx⟩ | ⟨hq, hx⟩)
        · exact ⟨Or.inl rfl, hx⟩
        · exact ⟨Or.inr hq, by rwa [← hother q hq]⟩

/-- The walks of `collectRetired` go over the queues of the range, or over none. -/
theorem collectRetired_walks (hi : Inv g h live) :
    ∃ (l : List Nat) (h1 : Heap M) (range : Nat × Nat) (g1 : Ghost),
      (∀ q, q ∈ l ↔ q ≤ maxBin ∧ h.retiredMin ≤ q ∧ q ≤ h.retiredMax) ∧
      h.collectRetired = { h1 with retiredMin := range.1, retiredMax := range.2,
                                   collections := h1.collections + 1 } ∧
      ∃ hi1 : Inv g1 h1 live, Shelves.Walks hi.shelves hi1.shelves
        (fun q x => q ∈ l ∧ x ∈ (g.queue q).take retireMaxPages) (queueCount, 0) range ∧
        g1.queue fullQueue = g.queue fullQueue := by
  obtain ⟨l, hl, hl', hdef⟩ : ∃ l : List Nat, l.Nodup ∧
      (∀ q, q ∈ l ↔ q ≤ maxBin ∧ h.retiredMin ≤ q ∧ q ≤ h.retiredMax) ∧
      ∀ h1 range, l.foldl (fun s qi => Heap.collectQueue qi retireMaxPages s
        (s.1.queues (queueIndex qi)).first) (h, (queueCount, 0)) = (h1, range) →
      h.collectRetired = { h1 with retiredMin := range.1, retiredMax := range.2,
                                   collections := h1.collections + 1 } := by
    by_cases hle : h.retiredMin ≤ h.retiredMax
    · refine ⟨List.range' h.retiredMin (min h.retiredMax maxBin + 1 - h.retiredMin),
        List.nodup_range', fun q => ?_, fun h1 range hres => ?_⟩
      · rw [List.mem_range'_1]
        omega
      · unfold Heap.collectRetired
        simp only [if_pos hle]
        rw [hres]
    · refine ⟨[], List.nodup_nil, fun q => ?_, fun h1 range hres => ?_⟩
      · simp only [List.not_mem_nil, false_iff]
        omega
      · obtain ⟨rfl, rfl⟩ := Prod.mk.inj hres
        unfold Heap.collectRetired
        simp only [if_neg hle]
  obtain ⟨h1, range, g1, hres, hi1, hw⟩ := collect_walks l (queueCount, 0) hi
    (fun q hq => ((hl' q).mp hq).1) hl
  exact ⟨l, h1, range, g1, hl', hdef h1 range hres, hi1, hw⟩

/-- **`collectRetired` is one collection.** -/
theorem collectRetired_ages (hi : Inv g h live) (hi' : Inv g' h.collectRetired live) :
    Shelves.Ages hi.shelves hi'.shelves := by
  obtain ⟨l, h1, range, g1, hl, heq, hi1, hw, -⟩ := collectRetired_walks hi
  rw [heq] at hi'
  have hq : g'.queue = g1.queue := hi1.core.queues.queue_eq hi'.core.queues rfl fun _ _ _ => ⟨rfl, rfl⟩
  have hages : Shelves.Ages hi.shelves hi'.shelves := by
    refine hw.ages ?_ hq rfl rfl rfl ?_
    · intro q hq' p
      rw [hl q]
      exact ⟨fun e => ⟨e.1.2.1, e.1.2.2, e.2⟩, fun e => ⟨⟨hq', e.1, e.2.1⟩, e.2.2⟩⟩
    · exact congrArg (· + 1) hw.same.collections
  simpa only [heq] using hages

theorem collectRetired_full (hi : Inv g h live) (hi' : Inv g' h.collectRetired live) :
    g'.queue fullQueue = g.queue fullQueue := by
  obtain ⟨l, h1, range, g1, -, heq, hi1, -, hfull⟩ := collectRetired_walks hi
  rw [heq] at hi'
  have hq : g'.queue = g1.queue := hi1.core.queues.queue_eq hi'.core.queues rfl fun _ _ _ => ⟨rfl, rfl⟩
  rw [hq]
  exact hfull

/-! ## The release walk -/

theorem Inv.queue_eq {live' : List Block} (hi : Inv g h live) (hi' : Inv g' h live') :
    g'.queue = g.queue :=
  hi.core.queues.queue_eq hi'.core.queues rfl fun _ _ _ => ⟨rfl, rfl⟩

/-- **After the release walk** every page is in use and carries no countdown. -/
theorem releaseEmptyPages_quiets (hi : Inv g h live) (hi' : Inv g' h.releaseEmptyPages live) :
    Shelves.Quiets hi.shelves hi'.shelves := by
  obtain ⟨g2, hi2, he2, hquiet, -⟩ := releaseEmptyPages_inv hi
  have hqueue := hi2.queue_eq hi'
  refine { mem := fun q hq p hp => ?_, quiet := fun q p hp => ?_,
           collections := (releaseEmptyPages_onlyFrees h).collections }
  all_goals
    have hp : p ∈ g'.queue q := hp
    rw [hqueue] at hp
  · exact he2.binned q hq p hp
  obtain ⟨hused, hexp⟩ := hquiet q p hp
  exact ⟨Nat.pos_iff_ne_zero.mp hused, hexp⟩

/-! ## Page supply -/

/-- The shelves moved to those of a heap `h1`, of which `h'` keeps queues and headers. -/
def Reaches (live : List Block) {g : Ghost} {h : Heap M} (hi : Inv g h live) (h' : Heap M) : Prop :=
  ∃ g1 : Ghost, ∃ h1 : Heap M, ∃ hi1 : Inv g1 h1 live,
    Shelves.Moves hi.shelves hi1.shelves ∧ Frames g1 h1 h'

theorem Reaches.refl (hi : Inv g h live) (hf : Frames g h h') : Reaches live hi h' :=
  ⟨g, h, hi, Relation.ReflTransGen.refl, hf⟩

theorem Reaches.moves {hi : Inv g h live} (hr : Reaches live hi h') (hi' : Inv g' h' live') :
    Shelves.Moves hi.shelves hi'.shelves := by
  obtain ⟨g1, h1, hi1, hm, hf⟩ := hr
  exact hm.trans (hf.moves hi1 hi')

variable [Memory.Contract M]

/-- **`acquireRun`** touches the queues to release empty pages only. -/
theorem acquireRun_frames (hi : Inv g h live) (hinit : h.initialized = true) {count k : Nat}
    (hc : 1 ≤ count) (hk : k ≤ usizeBits) (top : Bool) :
    Frames g h (h.acquireRun count (2 ^ k) top).2 ∨
    ∃ m g1, Inv g { h with slices := m } live ∧ Inv g1 { h with slices := m }.releaseEmptyPages live ∧
      Frames g1 { h with slices := m }.releaseEmptyPages (h.acquireRun count (2 ^ k) top).2 := by
  have hslices : ∀ m : SliceMap, Frames g h { h with slices := m } := fun m =>
    ⟨rfl, fun _ _ _ _ => rfl, rfl, rfl, rfl⟩
  have hlow : ∀ m, SliceMap.Keeps h.slices m → ∃ g1, Inv g { h with slices := m } live ∧
      Inv g1 { h with slices := m }.releaseEmptyPages live ∧
      Frames g1 { h with slices := m }.releaseEmptyPages
        ({ h with slices := m }.releaseEmptyPages.withSupply
          ({ h with slices := m }.releaseEmptyPages.supply.acquire
            { h with slices := m }.releaseEmptyPages.policy count (2 ^ k)).2) := by
    intro m hkeeps
    obtain ⟨hi1, -⟩ := keeps_inv hi hkeeps hinit
    obtain ⟨g2, hi2, -⟩ := releaseEmptyPages_inv hi1
    refine ⟨g2, hi1, hi2, ?_⟩
    generalize ({ h with slices := m } : Heap M).releaseEmptyPages = h2 at *
    obtain ⟨s1, N, m', hgrown, hs1, -⟩ := Supply.acquire_spec (s := h2.supply) h2.policy
      hi2.core.slices.inv hi2.core.slices.base_le hc hk
    refine { queues := rfl, header := fun q p hp f => ?_, lo := rfl, hi := rfl, collections := rfl }
    rw [hs1]
    refine Page.get_congr fun x hlo hhi => hgrown.bytes x ?_
    have hplace := (hi2.core.member hp).1.header hlo hhi
    exact hi2.core.slices.lt _ (by rw [hplace]; simp)
  obtain ⟨-, hnone⟩ := SliceMap.alloc_spec (k := k) hi.core.slices.inv hc
  obtain ⟨-, hnone'⟩ := SliceMap.allocTail_spec (k := k) (sizeSlices h.mem) hi.core.slices.inv hc
  have hfalse : Frames g h (h.acquireRun count (2 ^ k) false).2 ∨
      ∃ m g1, Inv g { h with slices := m } live ∧ Inv g1 { h with slices := m }.releaseEmptyPages live ∧
        Frames g1 { h with slices := m }.releaseEmptyPages (h.acquireRun count (2 ^ k) false).2 := by
    unfold Heap.acquireRun
    simp only [Bool.false_eq_true, if_false]
    rcases hr : h.slices.alloc count (2 ^ k) with ⟨run | run, m⟩
    · exact Or.inr ⟨m, hlow m (hnone m hr).1⟩
    · exact Or.inl (hslices m)
  cases top with
  | false => exact hfalse
  | true =>
    rcases hr : h.slices.allocTail count (2 ^ k) (sizeSlices h.mem) with ⟨run | run, m⟩
    · have hm := hnone' m hr
      have heq : h.acquireRun count (2 ^ k) true = h.acquireRun count (2 ^ k) false := by
        unfold Heap.acquireRun
        simp only [if_true, hr, hm, Bool.false_eq_true, if_false]
      rw [heq]
      exact hfalse
    · unfold Heap.acquireRun
      simp only [if_true, hr]
      exact Or.inl (hslices m)

theorem acquireRun_reaches (hi : Inv g h live) (hinit : h.initialized = true) {count k : Nat}
    (hc : 1 ≤ count) (hk : k ≤ usizeBits) (top : Bool) :
    Reaches live hi (h.acquireRun count (2 ^ k) top).2 := by
  rcases acquireRun_frames hi hinit hc hk top with hf | ⟨m, g1, hi1, hi2, hf⟩
  · exact Reaches.refl hi hf
  · have hq := releaseEmptyPages_quiets hi1 hi2
    exact ⟨g1, _, hi2, Relation.ReflTransGen.single (.quiets ⟨hq.mem, hq.quiet, hq.collections⟩), hf⟩

/-! ## The page search -/

omit [Memory M] [Memory.Contract M] in
theorem card_of {x : Nat} (hused : Page.get h'.bytes x .used = Page.get h.bytes x .used)
    (hcap : Page.get h'.bytes x .capacity = Page.get h.bytes x .capacity)
    (hexp : Page.get h'.bytes x .retireExpire = Page.get h.bytes x .retireExpire) :
    h'.card x = h.card x := by
  unfold Heap.card Heap.field
  rw [hused, hcap, hexp]

omit [Memory.Contract M] in
theorem used_eq_capacity (hi : Inv g h live) (hp : p ∈ g.queue q) (hfree : g.free p = []) :
    (h.card p).used = (h.card p).capacity := by
  have hok := (hi.core.member hp).1.ok
  have hlen := hok.blocks.length_eq
  rw [hfree] at hlen
  simp only [List.nil_append, Page.blocks, List.length_map, List.length_range] at hlen
  exact hok.used.trans hlen

omit [Memory.Contract M] in
theorem capacity_pos (hi : Inv g h live) (hp : p ∈ g.queue q) (hfree : g.free p ≠ []) :
    1 ≤ (h.card p).capacity := by
  have hlen := (hi.core.member hp).1.ok.blocks.length_eq
  have hpos := List.length_pos_iff.mpr hfree
  simp only [List.length_append, Page.blocks, List.length_map, List.length_range] at hlen
  unfold Heap.card Heap.field
  simp only
  omega

omit [Memory.Contract M] in
theorem Searched.thins {Q : Nat → List Nat} {found : Nat} (hi : Inv g h live)
    (hi' : Inv { g with queue := Q } h' live) (hs : Searched g Q h h' qi found) :
    Shelves.Thins hi.shelves hi'.shelves := by
  obtain ⟨hlo, hhi, hcol⟩ := hs.range
  refine { queue := hs.queue, card := fun q hq x hx _ => ?_, range := ⟨hlo, hhi, hcol⟩ }
  have hcard : h'.card x = h.card x := card_of (hs.header q hq x hx _ (Or.inl rfl))
    (hs.header q hq x hx _ (Or.inl rfl)) (hs.header q hq x hx _ (Or.inr rfl))
  show (h.card x).Same (h'.card x)
  rw [hcard]
  exact ⟨rfl, Nat.le_refl _, rfl⟩

omit [Memory.Contract M] in
theorem useCandidate_finds {n : Nat} {pre suf : List Nat} (hi : Inv g h live) (hn : n ≤ maxBin)
    (hsplit : g.queue n = pre ++ p :: suf) (hout : ∀ x ∈ pre, g.free x = []) :
    ∃ g', ∃ hi' : Inv g' ((h.moveToFront n p).setField p .retireExpire 0) live,
      Shelves.Finds hi.shelves hi'.shelves n p ∧ p ∈ g'.queue n ∧ g'.free = g.free := by
  have hp : p ∈ g.queue n := by
    rw [hsplit]
    simp
  have haddr := hi.core.queues.addr p hp
  have hnd : (g.queue n).Nodup := hi.shelves.nodup n
  have hpre : p ∉ pre := fun hmem => by
    rw [hsplit] at hnd
    exact (List.nodup_append.mp hnd).2.2 p hmem p List.mem_cons_self rfl
  obtain ⟨Q, hi1, -, hm1, hfront, hothers⟩ := moveToFront_inv hi hp hn
  have hQ : Q n = p :: (pre ++ suf) := by
    rw [hfront, hsplit, List.erase_append_right _ hpre, List.erase_cons_head]
  have hq : p ∈ Q n := hfront ▸ List.mem_cons_self
  obtain ⟨hi2, -⟩ := setRetire_inv hi1 (hi1.core.queues.member n p hq).page (by decide) (Or.inr rfl)
  have hcard : ∀ q, ∀ x ∈ Q q, ((h.moveToFront n p).setField p .retireExpire 0).card x =
      if x = p then { h.card p with expire := 0 } else h.card x := by
    intro q x hx
    have hxa := hi1.core.queues.addr x hx
    rw [card_setRetire haddr hxa (by decide), hm1.card hxa, hm1.card haddr]
  have hcardp := (hcard n p hq).trans (if_pos rfl)
  obtain ⟨hlo, hhi, hcol⟩ := hm1.range
  refine ⟨{ g with queue := Q }, hi2, ?_, hq, rfl⟩
  refine { bin := hn, opens := ?_, elsewhere := fun r _ hr => hothers r hr,
           card := fun q _ x hx hne => ?_, range := ⟨hlo, hhi, hcol⟩ }
  swap
  · have hx := (hcard q x hx).trans (if_neg hne)
    show (h.card x).Same (((h.moveToFront n p).setField p .retireExpire 0).card x)
    rw [hx]
    exact ⟨rfl, Nat.le_refl _, rfl⟩
  · refine .candidate pre suf hsplit hQ ?_ ?_ ?_
    · intro x hx
      exact used_eq_capacity hi (q := n) (by rw [hsplit]; exact List.mem_append_left _ hx) (hout x hx)
    · exact le_of_eq (congrArg Card.capacity hcardp).symm
    · exact congrArg Card.expire hcardp

omit [Memory.Contract M] in
theorem Extends.thins {c : Bytes} {fl : List Nat} (hi : Inv g h live) (hx : Extends g h.bytes c p)
    (hi' : Inv (g.withFree p fl) { h with bytes := c } live) :
    Shelves.Thins hi.shelves hi'.shelves := by
  refine { queue := fun _ _ => List.Sublist.refl _, card := fun q _ x hx' _ => ?_, range := ⟨rfl, rfl, rfl⟩ }
  have hpage := (hi.core.queues.member q x hx').page
  by_cases hxp : x = p
  · rw [hxp]
    exact ⟨hx.same _ (by decide) (by decide), hx.capacity, hx.same _ (by decide) (by decide)⟩
  · exact ⟨hx.others x hpage hxp _, le_of_eq (hx.others x hpage hxp _).symm, hx.others x hpage hxp _⟩

/-- The shelves moved, and then a page of bin `n` was found. -/
def Discovers (live : List Block) {g : Ghost} {h : Heap M} (hi : Inv g h live) (g' : Ghost)
    (h' : Heap M) (n p : Nat) : Prop :=
  ∃ g1 : Ghost, ∃ h1 : Heap M, ∃ hi1 : Inv g1 h1 live, ∃ hi' : Inv g' h' live,
    Shelves.Moves hi.shelves hi1.shelves ∧ Shelves.Finds hi1.shelves hi'.shelves n p ∧ p ∈ g'.queue n ∧ g'.free p ≠ []

omit [Memory.Contract M] in
theorem Discovers.after {n : Nat} {g1 : Ghost} {hi : Inv g h live} {hi1 : Inv g1 h1 live}
    (hm : Shelves.Moves hi.shelves hi1.shelves) (hd : Discovers live hi1 g' h' n p) :
    Discovers live hi g' h' n p := by
  obtain ⟨g2, h2, hi2, hi', hm2, hrest⟩ := hd
  exact ⟨g2, h2, hi2, hi', hm.trans hm2, hrest⟩

omit [Memory.Contract M] in
theorem freshPage_none {n : Nat} (hres : h.freshPage n = (none, h')) :
    (h.acquireRun (pageSlices n) (pageSlices n) false).2 = h' := by
  unfold Heap.freshPage at hres
  simp only [show (kindOfBin n).pageSize / sliceSize = pageSlices n from rfl] at hres
  rcases hacq : h.acquireRun (pageSlices n) (pageSlices n) false with ⟨run | run, h1⟩
  · rw [hacq] at hres
    exact (Prod.mk.inj hres).2
  · rw [hacq] at hres
    cases (Prod.mk.inj hres).1

/-- **A fresh page** goes on an empty shelf. -/
theorem freshPage_discovers {n : Nat} (hi : Inv g h live) (hinit : h.initialized = true) (hn : 1 ≤ n)
    (hn' : n ≤ maxBin) (hempty : g.queue n = []) :
    (∃ p h' g', h.freshPage n = (some p, h') ∧ Discovers live hi g' h' n p) ∨
    (∃ h', h.freshPage n = (none, h') ∧ Reaches live hi h') := by
  obtain ⟨k, hk, hpow⟩ := pageSlices_pow n
  have hreach := acquireRun_reaches hi hinit (pageSlices_pos n) (le_usizeBits hk) false
  rw [← hpow] at hreach
  rcases freshPage_spec hi hinit hn hn' with
    ⟨p, h', g', run, h1, g1, hres, hfound, hacq, hclaims, hfresh, -⟩ | ⟨h', g', hres, -⟩
  · rw [hacq] at hreach
    obtain ⟨g0, h0, hi0, hmoves, hframes⟩ := hreach
    have hqueue : (g1.paint (InRun run.start (pageSlices n)) .claimed).queue = g0.queue :=
      hi0.core.queues.queue_eq hclaims.core.queues hframes.queues fun q x hx =>
        ⟨hframes.header q x hx _, hframes.header q x hx _⟩
    replace hqueue : g1.queue = g0.queue := hqueue
    have hnil : g0.queue n = [] := List.eq_nil_iff_forall_not_mem.mpr fun x hx => by
      have hmem : x ∈ g.queue n := hmoves.mem hn' hx
      rw [hempty] at hmem
      cases hmem
    have hq' : g'.queue = Function.update g0.queue n [p] := by
      rw [hfresh.queue, hqueue, hnil]
    refine Or.inl ⟨p, h', g', hres, g0, h0, hi0, hfound.inv, hmoves, ?_, hfound.queued, hfound.free⟩
    refine { bin := hn', opens := .fresh hnil ?_ (capacity_pos hfound.inv hfound.queued hfound.free)
               hfresh.expire,
             elsewhere := fun r _ hr => ?_, card := fun q _ x hx hne => ?_, range := ?_ }
    · show g'.queue n = [p]
      rw [hq', Function.update_self]
    · show g'.queue r = g0.queue r
      rw [hq', Function.update_of_ne hr]
    · have hx : x ∈ g'.queue q := hx
      have hx0 : x ∈ g0.queue q := by
        rw [hq'] at hx
        by_cases hqn : q = n
        · rw [hqn, Function.update_self] at hx
          exact absurd (List.mem_singleton.mp hx) hne
        · rwa [Function.update_of_ne hqn] at hx
      have hget : ∀ f : Page.Field, f.heapOwned = false ∨ f = .retireExpire →
          Page.get h'.bytes x f = Page.get h0.bytes x f := fun f hf =>
        (hfresh.header q x (hqueue ▸ hx0) f hf).trans (hframes.header q x hx0 f)
      have hcard : h'.card x = h0.card x :=
        card_of (hget _ (Or.inl rfl)) (hget _ (Or.inl rfl)) (hget _ (Or.inr rfl))
      show (h0.card x).Same (h'.card x)
      rw [hcard]
      exact ⟨rfl, Nat.le_refl _, rfl⟩
    · obtain ⟨hlo, hhi, hcol⟩ := hfresh.range
      exact ⟨hlo.trans hframes.lo, hhi.trans hframes.hi, hcol.trans hframes.collections⟩
  · refine Or.inr ⟨h', hres, ?_⟩
    rwa [freshPage_none hres] at hreach

/-- **`findPage`** finds a page, or leaves the shelves with what it parked and released. -/
theorem findPage_discovers {n : Nat} (hi : Inv g h live) (hinit : h.initialized = true) (hn : 1 ≤ n)
    (hn' : n ≤ maxBin) :
    (∃ p h' g', h.findPage n = (some p, h') ∧ Discovers live hi g' h' n p) ∨
    (∃ h', h.findPage n = (none, h') ∧ Reaches live hi h') := by
  have hlt := bin_lt hn'
  have hqok := hi.core.queues.queue n hlt
  obtain ⟨Q, h1, found, hres, hi1, he1, hend, hsearched⟩ := findCandidate_spec hn'
    (g.queue n).length [] (g.queue n) 0 maxCandidates hi rfl (Nat.le_refl _) (Or.inl ⟨rfl, rfl⟩)
    (fun _ hx => absurd hx List.not_mem_nil)
  have hthins := hsearched.thins hi hi1
  have hm1 : Shelves.Moves hi.shelves hi1.shelves := Relation.ReflTransGen.single (.thins hthins)
  unfold Heap.findPage
  simp only [queueIndex_of_lt hlt, hqok.count, hqok.first, hres]
  rcases hend with ⟨h0, hempty⟩ | ⟨hmem, hroomy⟩
  · -- No candidate: one collection, and a fresh page.
    simp only [h0, ne_eq, not_true_eq_false, decide_false, Bool.false_and, Bool.false_eq_true,
      if_false, if_true]
    obtain ⟨g2, hi2, he2⟩ := collectRetired_inv hi1
    have hm2 : Shelves.Moves hi.shelves hi2.shelves := hm1.tail (.ages (collectRetired_ages hi1 hi2))
    have hinit2 := he2.init (he1.init hinit)
    rcases freshPage_discovers hi2 hinit2 hn hn' (he2.empty hn' hempty) with
      ⟨p, h3, g3, hr, hd⟩ | ⟨h3, hr, g4, h4, hi4, hm4, hf4⟩
    · exact Or.inl ⟨p, h3, g3, hr, hd.after hm2⟩
    · exact Or.inr ⟨h3, hr, g4, h4, hi4, hm2.trans hm4, hf4⟩
  · have hne : found ≠ 0 := (hi1.core.queues.queue n hlt).ne_zero hmem
    obtain ⟨pre, suf, hsplit, hout⟩ := hsearched.passed hne
    obtain ⟨hin, -⟩ := hi1.core.member hmem
    by_cases hfree : Page.hasFree h1.bytes found = true
    · simp only [hfree, ne_eq, hne, not_false_eq_true, decide_true, Bool.not_true, Bool.and_false,
        Bool.false_eq_true, if_false]
      obtain ⟨g2, hi2, hfinds, hmem2, hfl2⟩ := useCandidate_finds hi1 hn' hsplit hout
      refine Or.inl ⟨found, _, g2, rfl, _, h1, hi1, hi2, hm1, hfinds, hmem2, ?_⟩
      rw [hfl2]
      exact hin.ok.hasFree_iff.mp hfree
    · have hfree' : Page.hasFree h1.bytes found = false := by simpa using hfree
      obtain ⟨c, hext, hroom, hi2, -, hx2, -⟩ :=
        extendPage_inv hi1 hmem hn' (hroomy.resolve_left hfree)
      simp only [hfree', ne_eq, hne, not_false_eq_true, decide_true, Bool.not_false, Bool.and_self,
        if_true, hext, if_false]
      have hm2 : Shelves.Moves hi.shelves hi2.shelves := hm1.tail (.thins (hx2.thins hi1 hi2))
      have hnd : (Q n).Nodup := hi1.shelves.nodup n
      have hout2 : ∀ x ∈ pre, (({ g with queue := Q } : Ghost).withFree found
          (Page.extensionOf h1.bytes found (g.bin found) ++ g.free found)).free x = [] := by
        intro x hx
        have hxf : x ≠ found := fun e => by
          rw [hsplit] at hnd
          exact (List.nodup_append.mp hnd).2.2 x hx found List.mem_cons_self e
        exact (Function.update_of_ne hxf _ _).trans (hout x hx)
      obtain ⟨g3, hi3, hfinds, hmem3, hfl3⟩ := useCandidate_finds hi2 hn' hsplit hout2
      refine Or.inl ⟨found, _, g3, rfl, _, _, hi2, hi3, hm2, hfinds, hmem3, ?_⟩
      rw [hfl3]
      exact extended_ne_nil hroom _

end Wasmalloc
