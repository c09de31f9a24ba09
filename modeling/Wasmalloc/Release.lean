import Wasmalloc.Evolve

/- Retirement and page release.

   Each of these operations keeps the invariant and is a step of `Evolves`: setting a
   countdown, moving pages between queues, freeing an empty page, the aging walk
   (`collectRetired_inv`) and the release walk. After the release walk every page in
   every queue is in use and carries no countdown (`releaseEmptyPages_inv`), which is
   what memory growth relies on. -/
namespace Wasmalloc
open ByteMem

variable [Build] {M : Type} [Memory M] {live : List Block} {g : Ghost} {h : Heap M} {p qi : Nat}

theorem Core.isPage_addr (hc : Core g h live) (hp : IsPage g p) : PageIn g h.bytes live p ∧ PageAddr p :=
  ⟨hc.pages _ _ hp, (hc.pages _ _ hp).addr hc.slices⟩

theorem Core.member (hc : Core g h live) (hp : p ∈ g.queue qi) :
    PageIn g h.bytes live p ∧ PageAddr p :=
  hc.isPage_addr (hc.queues.member qi p hp).page

theorem Core.not_full (hc : Core g h live) (hp : p ∈ g.queue qi) (hqi : qi ≤ maxBin) :
    qi = g.bin p ∧ Page.get h.bytes p .flags = 0 := by
  have hfull := maxBin_lt_full
  rcases (hc.queues.member qi p hp).home with h | ⟨h, -⟩
  · exact h
  · omega

/-! ## Countdowns -/

omit [Memory M] in
theorem get_setField {x v : Nat} {f f' : Page.Field} (hp : PageAddr p) (hx : PageAddr x)
    (hv : v < 256 ^ f.width) : Page.get (h.setField p f v).bytes x f' =
      if x = p ∧ f' = f then v else Page.get h.bytes x f' :=
  Page.get_set hp.dvd hx.dvd hv

theorem setRetire_inv {v : Nat} (hi : Inv g h live) (hp : IsPage g p) (hv : v < 256)
    (hfull : p ∉ g.queue fullQueue ∨ v = 0) :
    Inv g (h.setField p .retireExpire v) live ∧
      Evolves live g g h (h.setField p .retireExpire v) := by
  obtain ⟨-, haddr⟩ := hi.core.isPage_addr hp
  have hget : ∀ {x : Nat}, PageAddr x → ∀ f' : Page.Field, f' ≠ .retireExpire →
      Page.get (h.setField p .retireExpire v).bytes x f' = Page.get h.bytes x f' := by
    intro x hx f' hf
    rw [get_setField haddr hx hv, if_neg (fun e => hf e.2)]
  have edit : LinkEdit g h.bytes (h.setField p .retireExpire v).bytes := by
    refine { outside := fun x hx => Page.set_out (hx p haddr hp), fields := ?_ }
    intro x hx f hf
    exact hget hx f (fun e => by rw [e] at hf; cases hf)
  have ok := hi.core.queues.congr (c := (h.setField p .retireExpire v).bytes)
    fun q x hx f _ hf => hget (hi.core.queues.addr x hx) f hf
  obtain ⟨hcore, hev⟩ := hi.core.relink (Q := g.queue) edit ok rfl
  have hev := hev fun _ _ _ hx => hx
  refine ⟨{ core := hcore, settled := { queued := hi.settled.queued, parked := ?_ },
            unclaimed := hi.unclaimed }, hev⟩
  intro x hx hb
  have hpk := hi.settled.parked x hx hb
  have hxa := hi.core.queues.addr x hx
  refine { free := hpk.free, capacity := (hget hxa _ (by decide)).trans hpk.capacity, retire := ?_ }
  rw [get_setField haddr hxa hv]
  by_cases he : x = p
  · rcases hfull with hno | h0
    · exact absurd (he ▸ hx) hno
    · rw [if_pos ⟨he, rfl⟩, h0]
  · rw [if_neg (fun e => he e.1)]
    exact hpk.retire

/-! ## Moves -/

theorem flags_le (hc : Core g h live) (hp : p ∈ g.queue qi) :
    Page.get h.bytes p .flags = 0 ∨ Page.get h.bytes p .flags = 1 := by
  rcases (hc.queues.member qi p hp).home with ⟨-, h⟩ | ⟨-, h⟩
  · exact Or.inl h
  · exact Or.inr h

theorem moveToFull_inv (hi : Inv g h live) (hp : p ∈ g.queue qi) (hparked : Parked g h.bytes p) :
    ∃ Q, Inv { g with queue := Q } (h.moveToFull qi p) live ∧
      Evolves live g { g with queue := Q } h (h.moveToFull qi p) ∧
      Moved g Q h (h.moveToFull qi p) ∧ Transferred g Q p fullQueue := by
  have hr := remove_ok hi.core.queues hp
  have haddr := (hi.core.member hp).2
  have hflags : (h.remove qi p).setInFullQueue p true
      = (h.remove qi p).setField p .flags flagInFullQueue := by
    have hval : Page.get (h.remove qi p).bytes p .flags ||| flagInFullQueue = flagInFullQueue := by
      rw [(hr.kept p haddr).1]
      rcases flags_le hi.core hp with h0 | h1
      · rw [h0]
        rfl
      · rw [h1]
        rfl
    unfold Heap.setInFullQueue Page.setInFullQueue Heap.setField
    rw [if_pos rfl, hval]
  obtain ⟨Q, hm, ht⟩ := transfer hi.core.queues hp (by decide) (Or.inr ⟨rfl, rfl⟩)
  rw [← hflags] at hm
  have hm : Moved g Q h (h.moveToFull qi p) := hm
  obtain ⟨hc, hev⟩ := hi.core.moved hm
  have hsub : ∀ q ≤ maxBin, ∀ x ∈ Q q, x ∈ g.queue q := by
    intro q hq x hx
    have hfull := maxBin_lt_full
    rw [ht.keeps q (by omega)] at hx
    exact List.mem_of_mem_erase hx
  refine ⟨Q, { core := hc, unclaimed := hi.unclaimed, settled := ?_ }, hev hsub, hm, ht⟩
  refine hi.settled.moved hm ?_ ?_
  · intro i x hx hb
    by_cases he : x = p
    · exact ⟨fullQueue, he ▸ ht.mem⟩
    · obtain ⟨q, hq⟩ := hi.settled.queued i x hx hb
      exact ⟨q, (ht.others q x he).mpr hq⟩
  · intro x hx hb
    by_cases he : x = p
    · exact Or.inr (he ▸ hparked)
    · exact Or.inl ⟨(ht.others _ x he).mp hx, hb⟩

theorem unfull_inv (hc : Core g h live) (hs : Settled g h.bytes fun x => x = p)
    (hu : ∀ i, g.place i ≠ .claimed) (hp : p ∈ g.queue fullQueue) :
    ∃ Q, Inv { g with queue := Q } (h.unfull p) live ∧ Moved g Q h (h.unfull p) ∧
      Transferred g Q p (g.bin p) := by
  have hr := remove_ok hc.queues hp
  obtain ⟨hin, haddr⟩ := hc.member hp
  have hflags : (h.remove fullQueue p).setInFullQueue p false
      = (h.remove fullQueue p).setField p .flags 0 := by
    have hval : Page.get (h.remove fullQueue p).bytes p .flags &&& (255 - flagInFullQueue) = 0 := by
      rw [(hr.kept p haddr).1]
      rcases flags_le hc hp with h0 | h1
      · rw [h0]
        rfl
      · rw [h1]
        rfl
    unfold Heap.setInFullQueue Page.setInFullQueue Heap.setField
    rw [if_neg (by decide), hval]
  have hbin : ((h.remove fullQueue p).setField p .flags 0).field p .bin = g.bin p := by
    show Page.get ((h.remove fullQueue p).setField p .flags 0).bytes p .bin = g.bin p
    rw [get_setField haddr haddr (Nat.pow_pos (by decide)), if_neg (fun e => absurd e.2 (by decide)),
      hr.edit.fields p haddr _ rfl]
    exact hin.ok.bin
  obtain ⟨Q, hm, ht⟩ := transfer (v := 0) hc.queues hp (by decide) (Or.inl ⟨rfl, rfl⟩)
  rw [← hbin, ← hflags] at hm
  have hm : Moved g Q h (h.unfull p) := hm
  refine ⟨Q, { core := (hc.moved hm).1, unclaimed := hu, settled := ?_ }, hm, ht⟩
  have hle := hin.ok.bin_le
  have hfull := maxBin_lt_full
  refine hs.moved hm ?_ ?_
  · intro i x hx _
    by_cases he : x = p
    · exact ⟨g.bin p, he ▸ ht.mem⟩
    · obtain ⟨q, hq⟩ := hs.queued i x hx he
      exact ⟨q, (ht.others q x he).mpr hq⟩
  · intro x hx _
    by_cases he : x = p
    · have := ht.only fullQueue (he ▸ hx)
      omega
    · exact Or.inl ⟨(ht.others _ x he).mp hx, he⟩

theorem moveToFront_inv (hi : Inv g h live) (hp : p ∈ g.queue qi) (hqi : qi ≤ maxBin) :
    ∃ Q, Inv { g with queue := Q } (h.moveToFront qi p) live ∧
      Evolves live g { g with queue := Q } h (h.moveToFront qi p) ∧
      Moved g Q h (h.moveToFront qi p) ∧ Q qi = p :: (g.queue qi).erase p ∧
      ∀ r ≠ qi, Q r = g.queue r := by
  have hq := hi.core.queues
  have hlt := hq.lt hp
  have hqok := hq.queue qi hlt
  unfold Heap.moveToFront
  rw [queueIndex_of_lt hlt]
  split
  · -- Already at the front: nothing is written.
    rename_i hfirst
    refine ⟨g.queue, hi, Evolves.refl live g h, ?_, ?_, fun _ _ => rfl⟩
    · exact { ok := hq, edit := ⟨fun _ _ => rfl, fun _ _ _ _ => rfl⟩, retire := fun _ _ => rfl,
              frame := rfl }
    rw [hqok.first] at hfirst
    cases hl : g.queue qi with
    | nil =>
      rw [hl] at hp
      cases hp
    | cons x l =>
      rw [hl] at hfirst
      have hfirst : x = p := hfirst
      rw [hfirst, List.erase_cons_head]
  · -- Unlinked and linked again in front: a change of order, so every page keeps its queue.
    have hr := remove_ok hq hp
    have hm := hq.member qi p hp
    have hout : ∀ q, p ∉ without g qi p q := not_mem_without hq hp
    have hmember : Member { g with queue := without g qi p } (h.remove qi p).bytes qi p :=
      { addr := hm.addr, page := hm.page, bin_pos := hm.bin_pos, bin_le := hm.bin_le,
        home := by rw [(hr.kept p hm.addr).1]; exact hm.home }
    have hm2 := hr.moved.trans (pushFront_ok hr.ok hmember hout).moved
    obtain ⟨hc, hev⟩ := hi.core.moved hm2
    refine ⟨_, { core := hc, unclaimed := hi.unclaimed, settled := ?_ }, hev ?_, hm2, ?_, ?_⟩
    · have hfull := maxBin_lt_full
      refine hi.settled.moved hm2 ?_ ?_
      · intro i x hx hb
        by_cases he : x = p
        · exact ⟨qi, by rw [he, Function.update_self]; exact List.mem_cons_self⟩
        · obtain ⟨q, hq⟩ := hi.settled.queued i x hx hb
          have hw : x ∈ without g qi p q := mem_without_of_ne hq he
          by_cases heq : q = qi
          · refine ⟨q, ?_⟩
            rw [heq, Function.update_self]
            rw [heq] at hw
            exact List.mem_cons_of_mem p hw
          · refine ⟨q, ?_⟩
            rw [Function.update_of_ne heq]
            exact hw
      · intro x hx hb
        rw [Function.update_of_ne (by omega)] at hx
        exact Or.inl ⟨mem_without hx, hb⟩
    · intro q _ x hx
      by_cases heq : q = qi
      · rw [heq, Function.update_self] at hx
        rw [heq]
        rcases List.mem_cons.mp hx with he | hx
        · exact he ▸ hp
        · exact mem_without hx
      · rw [Function.update_of_ne heq] at hx
        exact mem_without hx
    · rw [Function.update_self]
      exact congrArg (p :: ·) (Function.update_self _ _ _)
    · intro r hr
      rw [Function.update_of_ne hr]
      exact Function.update_of_ne hr _ _

/-! ## What the walks store -/

/-- Stores to page headers only, and there to links and countdowns: a countdown stays or ends. -/
structure Unretired (g : Ghost) (b c : Bytes) : Prop where
  outside : ∀ x, (∀ p, PageAddr p → IsPage g p → x < p ∨ p + Page.size ≤ x) → c x = b x
  fields : ∀ x, PageAddr x → ∀ f : Page.Field, f ≠ .next → f ≠ .prev → f ≠ .retireExpire →
    Page.get c x f = Page.get b x f
  countdown : ∀ x, PageAddr x → Page.get c x .retireExpire = Page.get b x .retireExpire ∨
    Page.get c x .retireExpire = 0

theorem Unretired.refl (g : Ghost) (b : Bytes) : Unretired g b b :=
  { outside := fun _ _ => rfl, fields := fun _ _ _ _ _ _ => rfl, countdown := fun _ _ => Or.inl rfl }

theorem Unretired.trans {g' : Ghost} {b c d : Bytes} (e : Unretired g b c) (e' : Unretired g' c d)
    (hpage : ∀ p, IsPage g' p → IsPage g p) : Unretired g b d := by
  refine { outside := fun x hx => ?_, fields := fun x hx f h1 h2 h3 => ?_, countdown := fun x hx => ?_ }
  · rw [e'.outside x fun p hp hg => hx p hp (hpage p hg), e.outside x hx]
  · rw [e'.fields x hx f h1 h2 h3, e.fields x hx f h1 h2 h3]
  · rcases e'.countdown x hx with h | h
    · rw [h]
      exact e.countdown x hx
    · exact Or.inr h

omit [Memory M] in
theorem Relinked.unretired {g' : Ghost} {h' : Heap M} (hr : Relinked g g' h h') :
    Unretired g h.bytes h'.bytes := by
  refine { outside := hr.edit.outside, fields := fun x hx f h1 h2 h3 => ?_,
           countdown := fun x hx => Or.inl (hr.kept x hx).2 }
  cases f with
  | next => exact absurd rfl h1
  | prev => exact absurd rfl h2
  | retireExpire => exact absurd rfl h3
  | flags => exact (hr.kept x hx).1
  | _ => exact hr.edit.fields x hx _ rfl

omit [Memory M] in
theorem setRetire_unretired (hp : IsPage g p) (ha : PageAddr p) :
    Unretired g h.bytes (h.setField p .retireExpire 0).bytes := by
  have hv : 0 < 256 ^ Page.Field.retireExpire.width := Nat.pow_pos (by decide)
  refine { outside := fun x hx => Page.set_out (hx p ha hp), fields := fun x hx f _ _ h3 => ?_,
           countdown := fun x hx => ?_ }
  · rw [get_setField ha hx hv, if_neg fun e => h3 e.2]
  · rw [get_setField ha hx hv]
    by_cases he : x = p
    · rw [if_pos ⟨he, rfl⟩]
      exact Or.inr rfl
    · rw [if_neg fun e => he e.1]
      exact Or.inl rfl

/-- A page in use that carries no countdown. -/
def Quiet (b : Bytes) (p : Nat) : Prop :=
  0 < Page.get b p .used ∧ Page.get b p .retireExpire = 0

theorem Unretired.quiet {b c : Bytes} (e : Unretired g b c) (hp : PageAddr p) (hq : Quiet b p) :
    Quiet c p := by
  refine ⟨?_, ?_⟩
  · rw [e.fields p hp .used (by decide) (by decide) (by decide)]
    exact hq.1
  · rcases e.countdown p hp with h | h
    · rw [h]
      exact hq.2
    · exact h

/-! ## Freeing a page -/

/-- The ghost state once the slices of page `p` are free. -/
def Ghost.freed (g : Ghost) (p : Nat) : Ghost :=
  { g with place := fun i => if g.place i = .page p then .free else g.place i }

omit [Build] [Memory M] in
theorem freed_page {i q : Nat} : (g.freed p).place i = .page q ↔ g.place i = .page q ∧ q ≠ p := by
  show (if g.place i = .page p then Place.free else g.place i) = .page q ↔ _
  by_cases hi : g.place i = .page p
  · rw [if_pos hi, hi]
    constructor
    · intro e
      cases e
    · intro ⟨e, hne⟩
      exact absurd (Place.page.inj e).symm hne
  · rw [if_neg hi]
    exact ⟨fun e => ⟨e, fun he => hi (he ▸ e)⟩, fun e => e.1⟩

omit [Build] [Memory M] in
theorem freed_run {i a : Nat} : (g.freed p).place i = .run a ↔ g.place i = .run a := by
  show (if g.place i = .page p then Place.free else g.place i) = .run a ↔ _
  by_cases hi : g.place i = .page p
  · rw [if_pos hi, hi]
    constructor <;> intro e <;> cases e
  · rw [if_neg hi]

omit [Build] [Memory M] in
theorem freed_foreign {i : Nat} : (g.freed p).place i ≠ .foreign ↔ g.place i ≠ .foreign := by
  show (if g.place i = .page p then Place.free else g.place i) ≠ .foreign ↔ _
  by_cases hi : g.place i = .page p
  · rw [if_pos hi, hi]
    simp
  · rw [if_neg hi]

theorem SlicesOk.inside_run {m : SliceMap} {size start count : Nat} {b : Bytes}
    {place : Nat → Place} (hs : SlicesOk place m size b) (hc : 1 ≤ count)
    (hrun : ∀ i, InRun start count i → place i ≠ .foreign) : m.Inside start count := by
  have hfirst := hs.inside start (hrun start (by unfold InRun; omega))
  have hlast := hs.inside (start + count - 1) (hrun _ (by unfold InRun; omega))
  unfold SliceMap.Inside
  omega

theorem SlicesOk.run_le {m : SliceMap} {size start count : Nat} {b : Bytes}
    {place : Nat → Place} (hs : SlicesOk place m size b) (hc : 1 ≤ count)
    (hrun : ∀ i, InRun start count i → place i ≠ .foreign) : start + count ≤ size := by
  have hlast := hs.lt (start + count - 1) (hrun _ (by unfold InRun; omega))
  omega

/-- **Releasing an empty page** that is in no queue. -/
theorem Core.freeSlices (hc : Core g h live) (hp : IsPage g p) (hno : ∀ q, p ∉ g.queue q)
    (hempty : liveIn live p = []) :
    Core (g.freed p) { h with slices := h.slices.freeRun (p / sliceSize) (pageSlices (g.bin p)) } live ∧
    Evolves live g (g.freed p) h
      { h with slices := h.slices.freeRun (p / sliceSize) (pageSlices (g.bin p)) } := by
  have hin := hc.pages _ _ hp
  have hslices := hin.slices
  have hinside := hc.slices.inside_run (pageSlices_pos (g.bin p)) fun i hi => by
    rw [(hslices i).mpr hi]
    exact fun e => by cases e
  have hgives := SliceMap.freeRun_gives hc.slices.inv hinside
  -- Before `init` nothing is recorded, so there is no page to free.
  have hinit : h.initialized = false → False := by
    intro h0
    have hnew := hc.uninit h0
    have hrec : h.slices.Recorded (p / sliceSize) := by
      rw [hc.slices.recorded]
      unfold IsPage at hp
      rw [hp]
      exact fun e => by cases e
    rw [hnew] at hrec
    exact SliceMap.not_recorded_new _ hrec
  refine ⟨{ slices := ?_, pages := ?_, blocks := ?_, queues := ?_, sentinel := hc.sentinel,
            uninit := fun h0 => (hinit h0).elim, log := hc.log }, ?_⟩
  · refine hc.slices.becomes hgives (fun i => not_iff_not.mp freed_foreign) ?_ (fun _ hz => hz)
    intro i
    rw [hc.slices.free, ← hslices]
    show _ ↔ (if g.place i = .page p then Place.free else g.place i) = .free
    by_cases hi : g.place i = .page p
    · rw [if_pos hi]
      exact ⟨fun _ => rfl, fun _ => Or.inr hi⟩
    · rw [if_neg hi]
      exact or_iff_left hi
  · intro i q hq
    obtain ⟨hq, hne⟩ := freed_page.mp hq
    have hq' := hc.pages i q hq
    refine { ok := hq'.ok, slices := fun i => ?_ }
    rw [freed_page]
    exact ⟨fun e => (hq'.slices i).mp e.1, fun e => ⟨(hq'.slices i).mpr e, hne⟩⟩
  · refine { nodup := hc.blocks.nodup, block := ?_, runs := ?_ }
    · intro blk hmem
      have hok := hc.blocks.block blk hmem
      refine { size_pos := hok.size_pos, aligned := hok.aligned, page := ?_, run := ?_ }
      · intro n hn
        obtain ⟨h1, h2, h3, h4⟩ := hok.page n hn
        refine ⟨freed_page.mpr ⟨h1, ?_⟩, h2, h3, h4⟩
        intro e
        have hmemlive := (hok.in_page hc.pages hmem hn).2.1
        rw [e, hempty] at hmemlive
        cases hmemlive
      · intro hh
        obtain ⟨h1, h2⟩ := hok.run hh
        exact ⟨h1, fun i => freed_run.trans (h2 i)⟩
    · exact fun i a hi => hc.blocks.runs i a (freed_run.mp hi)
  · have hq := hc.queues
    refine { queue := hq.queue, member := ?_, disjoint := hq.disjoint, direct_eq := hq.direct_eq,
             occupied_iff := hq.occupied_iff }
    intro q x hx
    have hm := hq.member q x hx
    exact { addr := hm.addr, page := freed_page.mpr ⟨hm.page, fun e => hno q (e ▸ hx)⟩,
            bin_pos := hm.bin_pos, bin_le := hm.bin_le, home := hm.home }
  · -- Only the slices of the page change hands.
    refine { Evolves.refl live g h with
             foreign := ?_, free := ?_, claimed := ?_, run := fun i a hi => freed_run.mpr hi,
             page := ?_, log := ⟨[], rfl, fun _ he => absurd he List.not_mem_nil⟩, bin := rfl,
             binned := fun _ _ _ hx => hx }
    · intro i hi
      left
      show (if g.place i = .page p then Place.free else g.place i) = .foreign
      rw [hi]
      rfl
    · intro i hi
      show (if g.place i = .page p then Place.free else g.place i) = .free
      rw [hi]
      rfl
    · intro i hi
      show (if g.place i = .page p then Place.free else g.place i) = .claimed
      rw [hi]
      rfl
    · intro i q hi
      by_cases he : q = p
      · right
        refine ⟨?_, he ▸ hempty⟩
        show (if g.place i = .page p then Place.free else g.place i) = .free
        rw [if_pos (he ▸ hi)]
      · exact Or.inl (freed_page.mpr ⟨hi, he⟩)

theorem kind_eq {b : Bytes} (hin : PageIn g b live p) : Page.kind b p = kindOfBin (g.bin p) :=
  Page.kind_of_byte hin.ok.kind

theorem freePage_inv (hi : Inv g h live) (hp : p ∈ g.queue qi)
    (hempty : liveIn live p = []) :
    let g' := ({ g with queue := without g qi p } : Ghost).freed p
    Inv g' (h.freePage p qi) live ∧ Evolves live g g' h (h.freePage p qi) ∧
      Unretired g h.bytes (h.freePage p qi).bytes := by
  have hr := remove_ok hi.core.queues hp
  have hm := hr.moved
  obtain ⟨hin, haddr⟩ := hi.core.member hp
  have hpage := hin.isPage
  obtain ⟨hc1, he1⟩ := hi.core.moved hm
  have he1 := he1 fun q _ x hx => mem_without hx
  have hout : ∀ q, p ∉ without g qi p q := not_mem_without hi.core.queues hp
  obtain ⟨hc2, he2⟩ := hc1.freeSlices hpage hout hempty
  have hdef : h.freePage p qi = { (h.remove qi p) with
      slices := (h.remove qi p).slices.freeRun (p / sliceSize) (pageSlices (g.bin p)) } := by
    unfold Heap.freePage
    have hk := kind_eq (hc1.pages _ _ hpage)
    simp only at hk
    simp only [hk]
    rfl
  rw [hdef]
  refine ⟨{ core := hc2, settled := ?_, unclaimed := (he1.trans he2).unclaimed hi.unclaimed },
    he1.trans he2, ?_⟩
  · refine { queued := ?_, parked := ?_ }
    · intro i x hx _
      obtain ⟨hx, hne⟩ := freed_page.mp hx
      obtain ⟨q, hq⟩ := hi.settled.queued i x hx (fun e => e)
      exact ⟨q, mem_without_of_ne hq hne⟩
    · intro x hx _
      have hx : x ∈ without g qi p fullQueue := hx
      have hpk := hi.settled.parked x (mem_without hx) (fun e => e)
      have hxa := hi.core.queues.addr x (mem_without hx)
      exact { free := hpk.free, capacity := (hm.edit.fields x hxa _ rfl).trans hpk.capacity,
              retire := (hm.retire x hxa).trans hpk.retire }
  · exact hr.unretired

/-! ## Retirement -/

/-- The retired range and the counters are bookkeeping the invariant does not see. -/
theorem Inv.bookkeeping (hi : Inv g h live) (lo hi' n k : Nat) :
    let h' := { h with retiredMin := lo, retiredMax := hi', genericCount := n, collections := k }
    Inv g h' live ∧ Evolves live g g h h' :=
  ⟨{ core := { slices := hi.core.slices, pages := hi.core.pages, blocks := hi.core.blocks,
               queues := hi.core.queues, sentinel := hi.core.sentinel, uninit := hi.core.uninit,
               log := hi.core.log }
     settled := hi.settled, unclaimed := hi.unclaimed },
   { Evolves.refl live g h with untouched := fun _ _ => rfl }⟩

/-- An operation that keeps the invariant and hands nothing out. -/
def Internal (live : List Block) (g : Ghost) (h h' : Heap M) : Prop :=
  ∃ g', Inv g' h' live ∧ Evolves live g g' h h'

theorem Internal.trans {g' : Ghost} {h1 h2 : Heap M} (e : Evolves live g g' h h1)
    (i : Internal live g' h1 h2) : Internal live g h h2 := by
  obtain ⟨g2, hinv, hev⟩ := i
  exact ⟨g2, hinv, e.trans hev⟩

omit [Memory M] in
theorem allFree_iff (hin : PageIn g h.bytes live p) :
    Page.allFree h.bytes p = true ↔ liveIn live p = [] := by
  unfold Page.allFree
  rw [hin.ok.used, beq_iff_eq, List.length_eq_zero_iff]

/-- **`retire`** keeps an empty page with a countdown, or releases it. -/
theorem retire_inv (hi : Inv g h live) (hp : p ∈ g.queue (g.bin p)) (hempty : liveIn live p = []) :
    Internal live g h (h.retire p) := by
  obtain ⟨hin, haddr⟩ := hi.core.member hp
  have hbin : h.field p .bin = g.bin p := hin.ok.bin
  have hfull := maxBin_lt_full
  have hle := hin.ok.bin_le
  unfold Heap.retire
  simp only [hbin]
  split
  · have hv : (if h.field p .blockSize ≤ smallMaxObjSize then retireCycles else retireCycles / 4)
        < 256 := by split <;> decide
    have hnot : p ∉ g.queue fullQueue := fun hmem => by
      have := hi.core.queues.disjoint _ _ p hmem hp
      omega
    obtain ⟨hi1, he1⟩ := setRetire_inv hi hin.isPage hv (Or.inl hnot)
    obtain ⟨hi2, he2⟩ := hi1.bookkeeping (min h.retiredMin (g.bin p)) (max h.retiredMax (g.bin p))
      h.genericCount h.collections
    exact ⟨g, hi2, he1.trans he2⟩
  · obtain ⟨hi1, he1, -⟩ := freePage_inv hi hp hempty
    exact ⟨_, hi1, he1⟩

omit [Memory M] in
theorem next_spec (hq : QueuesOk g h.bytes h.queues h.direct h.occupied) (hp : p ∈ g.queue qi) :
    h.field p .next = 0 ∨ (h.field p .next ∈ g.queue qi ∧ h.field p .next ≠ p) := by
  have hqok := hq.queue qi (hq.lt hp)
  obtain ⟨xs, ys, hsplit⟩ := List.append_of_mem hp
  rw [hsplit] at hqok ⊢
  have hnd := (List.nodup_cons.mp hqok.nodup).2
  unfold Heap.field
  rw [hqok.neighbours.1]
  cases ys with
  | nil => exact Or.inl rfl
  | cons y ys =>
    right
    refine ⟨by simp, ?_⟩
    intro e
    have hpys : p ∉ y :: ys := (List.nodup_cons.mp (List.nodup_append.mp hnd).2.1).1
    exact hpys (by rw [← e]; exact List.mem_cons_self)

theorem collectQueue_inv (hqi : qi ≤ maxBin) (left : Nat) : ∀ {g : Ghost} {h : Heap M}
    (range : Nat × Nat) {cur : Nat}, Inv g h live → (cur = 0 ∨ cur ∈ g.queue qi) →
    Internal live g h (Heap.collectQueue qi left (h, range) cur).1 := by
  induction left with
  | zero =>
    intro g h range cur hi _
    exact ⟨g, hi, Evolves.refl live g h⟩
  | succ left ih =>
    intro g h range cur hi hcur
    rw [Heap.collectQueue]
    by_cases h0 : cur = 0
    · rw [if_pos h0]
      exact ⟨g, hi, Evolves.refl live g h⟩
    rw [if_neg h0]
    have hp := hcur.resolve_left h0
    obtain ⟨hin, haddr⟩ := hi.core.member hp
    have hnot : cur ∉ g.queue fullQueue := fun hmem => by
      have := hi.core.queues.disjoint _ _ cur hmem hp
      have := maxBin_lt_full
      omega
    have hnext := next_spec hi.core.queues hp
    simp only
    by_cases hr : h.field cur .retireExpire ≠ 0
    swap
    · rw [if_neg hr]
      exact ih _ hi (hnext.imp_right fun e => e.1)
    rw [if_pos hr]
    by_cases hfree : Page.allFree h.bytes cur = true
    · rw [if_pos hfree]
      have hlt : h.field cur .retireExpire - 1 < 256 := by
        have : h.field cur .retireExpire < 256 := Page.get_lt h.bytes cur .retireExpire
        omega
      obtain ⟨hi1, he1⟩ := setRetire_inv hi hin.isPage hlt (Or.inl hnot)
      split
      · obtain ⟨hi2, he2, -⟩ := freePage_inv hi1 hp ((allFree_iff hin).mp hfree)
        refine Internal.trans (he1.trans he2) (ih _ hi2 (hnext.imp_right fun e => ?_))
        exact mem_without_of_ne e.1 e.2
      · exact Internal.trans he1 (ih _ hi1 (hnext.imp_right fun e => e.1))
    · rw [if_neg hfree]
      obtain ⟨hi1, he1⟩ := setRetire_inv hi hin.isPage (by decide) (Or.inr rfl)
      exact Internal.trans he1 (ih _ hi1 (hnext.imp_right fun e => e.1))

theorem first_mem (hi : Inv g h live) (hqi : qi < queueCount) :
    (h.queues (queueIndex qi)).first = 0 ∨ (h.queues (queueIndex qi)).first ∈ g.queue qi := by
  rw [queueIndex_of_lt hqi, (hi.core.queues.queue qi hqi).first]
  exact headD_mem _

omit [Build] in
theorem bin_lt (hqi : qi ≤ maxBin) : qi < queueCount := by
  have := maxBin_lt_full
  have := full_lt
  omega

/-- **The aging walk** keeps the invariant. -/
theorem collectRetired_inv (hi : Inv g h live) : Internal live g h h.collectRetired := by
  have hfold : ∀ (l : List Nat), (∀ qi ∈ l, qi ≤ maxBin) → ∀ {g : Ghost} {s : Heap M × Nat × Nat},
      Inv g s.1 live → Internal live g s.1 (l.foldl (fun s qi =>
        Heap.collectQueue qi retireMaxPages s (s.1.queues (queueIndex qi)).first) s).1 := by
    intro l
    induction l with
    | nil =>
      intro _ g s hi
      exact ⟨g, hi, Evolves.refl live g s.1⟩
    | cons qi l ih =>
      intro hl g s hi
      have hqi := hl qi List.mem_cons_self
      obtain ⟨g1, hi1, he1⟩ := collectQueue_inv hqi retireMaxPages s.2 hi
        (first_mem hi (bin_lt hqi))
      rw [List.foldl_cons]
      exact Internal.trans he1 (ih (fun x hx => hl x (List.mem_cons_of_mem qi hx)) hi1)
  unfold Heap.collectRetired
  simp only
  split
  · obtain ⟨g1, hi1, he1⟩ := hfold (List.range' h.retiredMin
      (min h.retiredMax maxBin + 1 - h.retiredMin)) (fun qi hqi => by
        have := List.mem_range'_1.mp hqi
        omega) (s := (h, queueCount, 0)) hi
    obtain ⟨hi2, he2⟩ := hi1.bookkeeping _ _ _ _
    exact ⟨g1, hi2, he1.trans he2⟩
  · obtain ⟨hi2, he2⟩ := hi.bookkeeping queueCount 0 h.genericCount (h.collections + 1)
    exact ⟨g, hi2, he2⟩

/-! ## Release -/

/-- What the walk does to the page at `cur`. -/
def Heap.releaseOne (h : Heap M) (qi cur : Nat) : Heap M :=
  if Page.allFree h.bytes cur then h.freePage cur qi
  else if h.field cur .retireExpire ≠ 0 then h.setField cur .retireExpire 0
  else h

/-- The walk over queue `qi` from page `cur` on, with no bound but its own exit. -/
inductive QueueWalk (qi : Nat) : Heap M → Nat → Heap M → Prop where
  | done (h : Heap M) : QueueWalk qi h 0 h
  | page {h h' : Heap M} {cur : Nat} : cur ≠ 0 →
    QueueWalk qi (h.releaseOne qi cur) (h.field cur .next) h' → QueueWalk qi h cur h'

open Words in
/-- The walk over the queues of the bits in `pending`, again with no bound. -/
inductive PendingWalk : Heap M → U64 → Heap M → Prop where
  | done (h : Heap M) : PendingWalk h 0 h
  | queue {h h1 h' : Heap M} {pending : U64} : pending ≠ 0 →
    QueueWalk (trailingZeros pending) h
      (h.queues (queueIndex (trailingZeros pending))).first h1 →
    PendingWalk h1 (pending &&& (pending - 1)) h' → PendingWalk h pending h'

omit [Memory M] in
theorem Heap.releaseQueue_succ (h : Heap M) (left : Nat) {cur : Nat} (hcur : cur ≠ 0) :
    Heap.releaseQueue qi (left + 1) h cur =
      Heap.releaseQueue qi left (h.releaseOne qi cur) (h.field cur .next) := by
  rw [Heap.releaseQueue, if_neg hcur]
  rfl

theorem releaseOne_inv {done rest : List Nat} {cur : Nat} (hi : Inv g h live) (hqi : qi ≤ maxBin)
    (hsplit : g.queue qi = done ++ cur :: rest) :
    ∃ g', Inv g' (h.releaseOne qi cur) live ∧ Evolves live g g' h (h.releaseOne qi cur) ∧
      Unretired g h.bytes (h.releaseOne qi cur).bytes ∧
      (∀ r ≠ qi, g'.queue r = g.queue r) ∧
      ((Page.allFree h.bytes cur = true ∧ g'.queue qi = done ++ rest) ∨
       (Page.allFree h.bytes cur = false ∧ g'.queue qi = done ++ cur :: rest ∧
        Quiet (h.releaseOne qi cur).bytes cur)) := by
  have hp : cur ∈ g.queue qi := by
    rw [hsplit]
    simp
  obtain ⟨hin, haddr⟩ := hi.core.member hp
  unfold Heap.releaseOne
  cases hfree : Page.allFree h.bytes cur with
  | true =>
    rw [if_pos rfl]
    obtain ⟨hi1, he1, hu1⟩ := freePage_inv hi hp ((allFree_iff hin).mp hfree)
    refine ⟨_, hi1, he1, hu1, fun r hr => Function.update_of_ne hr _ _, Or.inl ⟨rfl, ?_⟩⟩
    have hnd := (List.nodup_cons.mp (hi.core.queues.queue qi (bin_lt hqi)).nodup).2
    rw [hsplit] at hnd
    have hout : cur ∉ done := fun hmem =>
      (List.nodup_append.mp hnd).2.2 cur hmem cur List.mem_cons_self rfl
    show without g qi cur qi = done ++ rest
    unfold without
    rw [Function.update_self, hsplit, List.erase_append_right _ hout, List.erase_cons_head]
  | false =>
    rw [if_neg Bool.false_ne_true]
    have hused : 0 < Page.get h.bytes cur .used := by
      unfold Page.allFree at hfree
      rw [beq_eq_false_iff_ne] at hfree
      omega
    by_cases hr : h.field cur .retireExpire ≠ 0
    · rw [if_pos hr]
      obtain ⟨hi1, he1⟩ := setRetire_inv hi hin.isPage (by decide) (Or.inr rfl)
      have hu : Unretired g h.bytes (h.setField cur .retireExpire 0).bytes :=
        setRetire_unretired hin.isPage haddr
      refine ⟨g, hi1, he1, hu, fun _ _ => rfl, Or.inr ⟨rfl, hsplit, ?_, ?_⟩⟩
      · rw [hu.fields cur haddr .used (by decide) (by decide) (by decide)]
        exact hused
      · rw [get_setField haddr haddr (Nat.pow_pos (by decide)), if_pos ⟨rfl, rfl⟩]
    · rw [if_neg hr]
      exact ⟨g, hi, Evolves.refl live g h, Unretired.refl g h.bytes, fun _ _ => rfl,
        Or.inr ⟨rfl, hsplit, hused, not_not.mp hr⟩⟩

/-- The walk over one queue, `done` being the part it has passed. -/
theorem releaseQueue_inv (hqi : qi ≤ maxBin) (left : Nat) : ∀ {g : Ghost} {h : Heap M}
    (done rest : List Nat), Inv g h live → g.queue qi = done ++ rest → rest.length ≤ left →
    (∀ p ∈ done, Quiet h.bytes p) →
    let h' := Heap.releaseQueue qi left h (rest.headD 0)
    QueueWalk qi h (rest.headD 0) h' ∧
    ∃ g', Inv g' h' live ∧ Evolves live g g' h h' ∧ Unretired g h.bytes h'.bytes ∧
      (∀ r ≠ qi, g'.queue r = g.queue r) ∧
      g'.queue qi = done ++ rest.filter (fun p => !Page.allFree h.bytes p) ∧
      (∀ p ∈ g'.queue qi, Quiet h'.bytes p) := by
  induction left with
  | zero =>
    intro g h done rest hi hsplit hlen hdone
    have hnil : rest = [] := List.length_eq_zero_iff.mp (by omega)
    subst hnil
    refine ⟨QueueWalk.done h, g, hi, Evolves.refl live g h, Unretired.refl g h.bytes,
      fun _ _ => rfl, hsplit, ?_⟩
    rw [hsplit, List.append_nil]
    exact hdone
  | succ left ih =>
    intro g h done rest hi hsplit hlen hdone
    cases rest with
    | nil =>
      rw [List.headD_nil, Heap.releaseQueue, if_pos rfl]
      refine ⟨QueueWalk.done h, g, hi, Evolves.refl live g h, Unretired.refl g h.bytes,
        fun _ _ => rfl, hsplit, ?_⟩
      rw [hsplit, List.append_nil]
      exact hdone
    | cons cur rest =>
      have hqok := hi.core.queues.queue qi (bin_lt hqi)
      rw [hsplit] at hqok
      have hcur0 : cur ≠ 0 := hqok.ne_zero (by simp)
      have hnext : h.field cur .next = rest.headD 0 := hqok.neighbours.1
      have hmem : ∀ x ∈ done ++ cur :: rest, PageAddr x := fun x hx =>
        hi.core.queues.addr (q := qi) x (hsplit ▸ hx)
      rw [List.length_cons] at hlen
      rw [List.headD_cons, Heap.releaseQueue_succ h left hcur0, hnext]
      obtain ⟨g1, hi1, he1, hu1, hother1, hstep⟩ := releaseOne_inv hi hqi hsplit
      -- The pages still ahead are empty exactly if they were before this step.
      have hfilter : rest.filter (fun p => !Page.allFree (h.releaseOne qi cur).bytes p)
          = rest.filter (fun p => !Page.allFree h.bytes p) := by
        refine List.filter_congr fun p hp => ?_
        unfold Page.allFree
        rw [hu1.fields p (hmem p (by simp [hp])) .used (by decide) (by decide) (by decide)]
      have hdone1 : ∀ p ∈ done, Quiet (h.releaseOne qi cur).bytes p := fun p hp =>
        hu1.quiet (hmem p (by simp [hp])) (hdone p hp)
      have hback : ∀ p, IsPage g1 p → IsPage g p := fun p hp => he1.page_back hp
      rcases hstep with ⟨hempty, hq1⟩ | ⟨hbusy, hq1, hquiet⟩
      · obtain ⟨hw, g2, hi2, he2, hu2, hother, hqueue, hall⟩ :=
          ih done rest hi1 hq1 (by omega) hdone1
        refine ⟨.page hcur0 (hnext ▸ hw), g2, hi2, he1.trans he2, hu1.trans hu2 hback,
          fun r hr => (hother r hr).trans (hother1 r hr), ?_, hall⟩
        rw [hqueue, hfilter, List.filter_cons_of_neg (by simp [hempty])]
      · have hq1 : g1.queue qi = (done ++ [cur]) ++ rest := by
          rw [hq1]
          simp
        have hdone2 : ∀ p ∈ done ++ [cur], Quiet (h.releaseOne qi cur).bytes p := by
          intro p hp
          rcases List.mem_append.mp hp with hp | hp
          · exact hdone1 p hp
          · rw [List.mem_singleton.mp hp]
            exact hquiet
        obtain ⟨hw, g2, hi2, he2, hu2, hother, hqueue, hall⟩ :=
          ih (done ++ [cur]) rest hi1 hq1 (by omega) hdone2
        refine ⟨.page hcur0 (hnext ▸ hw), g2, hi2, he1.trans he2, hu1.trans hu2 hback,
          fun r hr => (hother r hr).trans (hother1 r hr), ?_, hall⟩
        rw [hqueue, hfilter, List.filter_cons_of_pos (by simp [hbusy])]
        simp

open Words in
/-- The walk over the queues of the bits in `pending`: the other bin queues are done. -/
theorem releasePending_inv (left : Nat) : ∀ {g : Ghost} {h : Heap M} (pending : U64),
    Inv g h live → (∀ i, i + left < 64 → pending.getLsbD i = false) →
    (∀ i, pending.getLsbD i = true → i ≤ maxBin) →
    (∀ q ≤ maxBin, pending.getLsbD q = false → ∀ p ∈ g.queue q, Quiet h.bytes p) →
    let h' := Heap.releasePending left h pending
    PendingWalk h pending h' ∧
    ∃ g', Inv g' h' live ∧ Evolves live g g' h h' ∧ Unretired g h.bytes h'.bytes ∧
      (∀ q, g'.queue q = if pending.getLsbD q then
        (g.queue q).filter (fun p => !Page.allFree h.bytes p) else g.queue q) ∧
      (∀ q ≤ maxBin, ∀ p ∈ g'.queue q, Quiet h'.bytes p) := by
  have hstop : ∀ {g : Ghost} {h : Heap M}, Inv g h live →
      (∀ q ≤ maxBin, ∀ p ∈ g.queue q, Quiet h.bytes p) →
      PendingWalk h 0 h ∧ ∃ g', Inv g' h live ∧ Evolves live g g' h h ∧
        Unretired g h.bytes h.bytes ∧ (∀ q, g'.queue q = if (0 : U64).getLsbD q then
          (g.queue q).filter (fun p => !Page.allFree h.bytes p) else g.queue q) ∧
        (∀ q ≤ maxBin, ∀ p ∈ g'.queue q, Quiet h.bytes p) := fun {g h} hi hdone =>
    ⟨PendingWalk.done h, g, hi, Evolves.refl live g h, Unretired.refl g h.bytes,
      fun q => by simp, hdone⟩
  -- Along the bits left: a bin below 64 whose bit is clear has been swept already.
  induction left with
  | zero =>
    intro g h pending hi hlow _ hdone
    have h0 : pending = 0 := by
      refine BitVec.eq_of_getLsbD_eq fun i hi' => ?_
      rw [hlow i (by omega)]
      simp
    subst h0
    exact hstop hi fun q hq => hdone q hq (by simp)
  | succ left ih =>
    intro g h pending hi hlow hbins hdone
    rw [Heap.releasePending]
    by_cases h0 : pending = 0
    · subst h0
      rw [if_pos rfl]
      exact hstop hi fun q hq => hdone q hq (by simp)
    rw [if_neg h0]
    simp only
    obtain ⟨hlt, hbit, hmin⟩ := trailingZeros_spec h0
    have hclear := getLsbD_clear_lowest h0
    have hwalk : ∀ {h1 h' : Heap M}, QueueWalk (trailingZeros pending) h
        (h.queues (queueIndex (trailingZeros pending))).first h1 →
        PendingWalk h1 (pending &&& (pending - 1)) h' → PendingWalk h pending h' :=
      PendingWalk.queue h0
    -- The lowest bit names the queue swept now.
    generalize trailingZeros pending = qi at hlt hbit hmin hclear hwalk
    have hle := hbins qi hbit
    have hqok := hi.core.queues.queue qi (bin_lt hle)
    rw [queueIndex_of_lt (bin_lt hle), hqok.count, hqok.first]
    rw [queueIndex_of_lt (bin_lt hle), hqok.first] at hwalk
    obtain ⟨hw1, g1, hi1, he1, hu1, hother, hqueue, hall⟩ := releaseQueue_inv hle
      (g.queue qi).length [] (g.queue qi) hi rfl (Nat.le_refl _)
      (fun p hp => absurd hp List.not_mem_nil)
    have hlow1 : ∀ i, i + left < 64 → (pending &&& (pending - 1)).getLsbD i = false := by
      intro i hi'
      rw [hclear]
      by_cases he : i = qi
      · simp [he]
      · have hfalse : pending.getLsbD i = false := by
          by_cases hlt' : i < qi
          · exact hmin i hlt'
          · refine hlow i ?_
            by_contra hge
            have : qi + (left + 1) < 64 := by omega
            rw [hlow qi this] at hbit
            cases hbit
        simp [hfalse]
    have hbins1 : ∀ i, (pending &&& (pending - 1)).getLsbD i = true → i ≤ maxBin := by
      intro i hi'
      rw [hclear, Bool.and_eq_true] at hi'
      exact hbins i hi'.1
    have hdone1 : ∀ q ≤ maxBin, (pending &&& (pending - 1)).getLsbD q = false →
        ∀ p ∈ g1.queue q, Quiet (Heap.releaseQueue qi (g.queue qi).length h
          ((g.queue qi).headD 0)).bytes p := by
      intro q hq hpend p hp
      by_cases he : q = qi
      · rw [he] at hp
        exact hall p hp
      · rw [hother q he] at hp
        refine hu1.quiet (hi.core.queues.addr p hp) (hdone q hq ?_ p hp)
        rw [hclear] at hpend
        simpa [he] using hpend
    obtain ⟨hw2, g2, hi2, he2, hu2, hqueue2, hend⟩ :=
      ih (pending &&& (pending - 1)) hi1 hlow1 hbins1 hdone1
    refine ⟨hwalk hw1 hw2, g2, hi2, he1.trans he2, hu1.trans hu2 fun p hp => he1.page_back hp,
      fun q => ?_, hend⟩
    rw [hqueue2 q, hclear]
    by_cases he : q = qi
    · rw [he, hqueue, hbit]
      simp
    · rw [hother q he]
      have hkeep : (pending.getLsbD q && decide (q ≠ qi)) = pending.getLsbD q := by simp [he]
      rw [hkeep]
      refine if_congr Iff.rfl (List.filter_congr fun p hp => ?_) rfl
      unfold Page.allFree
      rw [hu1.fields p (hi.core.queues.addr p hp) .used (by decide) (by decide) (by decide)]

omit [Build] in
theorem binQueueBits_iff : ∀ i < 64,
    binQueueBits.getLsbD i = decide (1 ≤ i ∧ i ≤ maxBin) := by decide +kernel

theorem parked_quiet (hi : Inv g h live) (hp : p ∈ g.queue fullQueue) : Quiet h.bytes p := by
  have hpk := hi.settled.parked p hp (fun e => e)
  obtain ⟨hin, -⟩ := hi.core.member hp
  have hlen := hin.ok.blocks.length_eq
  rw [hpk.free, hpk.capacity] at hlen
  simp only [List.nil_append, Page.blocks, List.length_map, List.length_range] at hlen
  have hres := (binGeometry hin.ok.bin_pos hin.ok.bin_le).reserved_ge
  refine ⟨?_, hpk.retire⟩
  rw [hin.ok.used, hlen]
  unfold Page.reservedOf
  omega

open Words in
/-- **The release walk** ends, and filters the empty pages out of every queue. -/
theorem releaseEmptyPages_exact (hi : Inv g h live) :
    (∃ h1, PendingWalk h (h.occupied &&& binQueueBits) h1 ∧
      h.releaseEmptyPages = { h1 with retiredMin := queueCount, retiredMax := 0 }) ∧
    ∃ g', Inv g' h.releaseEmptyPages live ∧ Evolves live g g' h h.releaseEmptyPages ∧
      Unretired g h.bytes h.releaseEmptyPages.bytes ∧
      (∀ q, g'.queue q = (g.queue q).filter fun p => !Page.allFree h.bytes p) ∧
      (∀ q, ∀ p ∈ g'.queue q, Quiet h.releaseEmptyPages.bytes p) := by
  have hmask : ∀ i, (h.occupied &&& binQueueBits).getLsbD i = true ↔
      h.occupied.getLsbD i = true ∧ 1 ≤ i ∧ i ≤ maxBin := by
    intro i
    rw [BitVec.getLsbD_and, Bool.and_eq_true]
    by_cases hlt : i < 64
    · rw [binQueueBits_iff i hlt, decide_eq_true_eq]
    · have : h.occupied.getLsbD i = false := BitVec.getLsbD_of_ge _ i (by omega)
      simp [this]
  -- A queue of a bin whose bit is not set holds no page.
  have hmissed : ∀ q ≤ maxBin, (h.occupied &&& binQueueBits).getLsbD q = false →
      ∀ p, p ∉ g.queue q := by
    intro q hq hbit p hp
    have hm := hi.core.queues.member q p hp
    have hocc := (hi.core.queues.occupied_iff q hm.lt).mpr (List.ne_nil_of_mem hp)
    have hbin := (hi.core.not_full hp hq).1
    have htrue := (hmask q).mpr ⟨hocc, by have := hm.bin_pos; omega, hq⟩
    rw [hbit] at htrue
    cases htrue
  obtain ⟨hw, g1, hi1, he1, hu1, hqueue, hquiet⟩ := releasePending_inv 64
    (h.occupied &&& binQueueBits) hi (fun i hlt => by omega)
    (fun i hbit => ((hmask i).mp hbit).2.2)
    (fun q hq hbit p hp => absurd hp (hmissed q hq hbit p))
  refine ⟨⟨_, hw, rfl⟩, ?_⟩
  obtain ⟨hi2, he2⟩ := hi1.bookkeeping queueCount 0 (Heap.releasePending 64 h
    (h.occupied &&& binQueueBits)).genericCount (Heap.releasePending 64 h
    (h.occupied &&& binQueueBits)).collections
  refine ⟨g1, hi2, he1.trans he2, hu1, fun q => ?_, fun q p hp => ?_⟩
  · rw [hqueue]
    by_cases hbit : (h.occupied &&& binQueueBits).getLsbD q = true
    · rw [if_pos hbit]
    -- The full queue holds no empty page, and the other queues not walked hold none.
    · rw [if_neg hbit, eq_comm, List.filter_eq_self]
      intro p hp
      have hin := (hi.core.member hp).1
      rcases (hi.core.queues.member q p hp).home with ⟨hq, -⟩ | ⟨hq, -⟩
      · exact absurd hp (hmissed q (hq ▸ hin.ok.bin_le) (Bool.eq_false_of_not_eq_true hbit) p)
      · have hused := (parked_quiet hi (hq ▸ hp)).1
        unfold Page.allFree
        simp only [Bool.not_eq_true', beq_eq_false_iff_ne]
        omega
  · rcases (hi2.core.queues.member q p hp).home with ⟨hq, -⟩ | ⟨hq, -⟩
    · exact hquiet q (by rw [hq]; exact (hi2.core.queues.member q p hp).bin_le) p hp
    · rw [hq] at hp
      exact parked_quiet hi2 hp

/-- **After the release walk** every page of every queue is in use, no page carries a
    countdown, and the retired range is empty. -/
theorem releaseEmptyPages_inv (hi : Inv g h live) :
    ∃ g', Inv g' h.releaseEmptyPages live ∧ Evolves live g g' h h.releaseEmptyPages ∧
      (∀ q, ∀ p ∈ g'.queue q, Quiet h.releaseEmptyPages.bytes p) ∧
      h.releaseEmptyPages.retiredMax < h.releaseEmptyPages.retiredMin := by
  obtain ⟨-, g1, hi1, he1, -, -, hquiet⟩ := releaseEmptyPages_exact hi
  refine ⟨g1, hi1, he1, hquiet, ?_⟩
  show 0 < queueCount
  rw [queueCount_eq]
  decide

/-! ## What releasing pages leaves alone -/

/-- Everything but the bytes, the queues with their caches, and the bitmap of free slices. -/
def SameButFree (h h' : Heap M) : Prop :=
  h' = { h with
         bytes := h'.bytes, queues := h'.queues, direct := h'.direct, occupied := h'.occupied
         slices := { h.slices with free := h'.slices.free, hint := h'.slices.hint } }

omit [Build] [Memory M] in
theorem SameButFree.trans {h1 h2 : Heap M} (e : SameButFree h h1) (e' : SameButFree h1 h2) :
    SameButFree h h2 :=
  Eq.trans e' (congrArg (fun k : Heap M => { k with
    bytes := h2.bytes, queues := h2.queues, direct := h2.direct, occupied := h2.occupied
    slices := { k.slices with free := h2.slices.free, hint := h2.slices.hint } }) e)

omit [Memory M] in
theorem releaseOne_same (h : Heap M) (qi cur : Nat) : SameButFree h (h.releaseOne qi cur) := by
  unfold Heap.releaseOne
  split
  · unfold Heap.freePage
    rw [Heap.remove_eq]
    rfl
  · split
    · rfl
    · rfl

omit [Memory M] in
theorem releaseQueue_same (qi left : Nat) : ∀ (h : Heap M) (cur : Nat),
    SameButFree h (Heap.releaseQueue qi left h cur) := by
  induction left with
  | zero => exact fun h cur => rfl
  | succ left ih =>
    intro h cur
    by_cases hcur : cur = 0
    · rw [Heap.releaseQueue, if_pos hcur]
      rfl
    · rw [Heap.releaseQueue_succ h left hcur]
      exact (releaseOne_same h qi cur).trans (ih _ _)

omit [Memory M] in
theorem releasePending_same (left : Nat) : ∀ (h : Heap M) (pending : Words.U64),
    SameButFree h (Heap.releasePending left h pending) := by
  induction left with
  | zero => exact fun h pending => rfl
  | succ left ih =>
    intro h pending
    rw [Heap.releasePending]
    split
    · rfl
    · exact (releaseQueue_same _ _ h _).trans (ih _ _)

/-- The slices owned, and the records of growth and of collections, are as before. -/
structure OnlyFrees (h h' : Heap M) : Prop where
  recorded : h'.slices.recorded = h.slices.recorded
  growLog : h'.growLog = h.growLog
  collections : h'.collections = h.collections

omit [Memory M] in
theorem releaseEmptyPages_onlyFrees (h : Heap M) : OnlyFrees h h.releaseEmptyPages := by
  have hs := releasePending_same 64 h (h.occupied &&& binQueueBits)
  unfold SameButFree at hs
  have hrec := congrArg (fun k => k.slices.recorded) hs
  have hlog := congrArg Heap.growLog hs
  have hcol := congrArg Heap.collections hs
  exact ⟨hrec, hlog, hcol⟩

end Wasmalloc
