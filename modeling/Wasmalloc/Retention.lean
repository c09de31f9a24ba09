import Wasmalloc.ShelfTurns

/- How long the heap keeps an empty page.

   In every state of a run an empty page is in its bin's queue and counts down, and a
   bin keeps few of them (`retention_bounded`). A page that a free emptied and retired,
   and that nobody has used since, stays in reach of the collections: each one lowers
   its countdown, so that it is released when the countdown says (`idle_page_ages`). -/
namespace Wasmalloc
open ByteMem

section Runs
variable [Build] {M : Type} [Memory M] {live live' : List Block} {g g' : Ghost} {h h' : Heap M}
  {p q : Nat} {blk : Block}

/-! ## Along a run -/

theorem start_kept {c : Config M} (hc : Starts c) (hi : Inv g c.heap c.live) :
    Shelves.Kept hi.shelves none := by
  obtain ⟨mem, bytes, policy, hsent, rfl⟩ := hc
  have hnil : ∀ q, g.queue q = [] := by
    intro q
    by_contra hne
    obtain ⟨p, hp⟩ := List.exists_mem_of_ne_nil _ hne
    have hfirst := (hi.core.queues.queue q (hi.core.queues.lt hp)).first_eq_zero.mp rfl
    exact hne hfirst
  refine { opened := fun q _ p hp => ?_, empty := fun q _ p hp => ?_, bound := fun q _ p hp => ?_,
           few := fun q _ => ?_ }
  · exact absurd (show p ∈ g.queue q from hp) (by simp [hnil])
  · exact absurd (show p ∈ g.queue q from hp) (by simp [hnil])
  · exact absurd (show p ∈ g.queue q from hp) (by simp [hnil])
  · show hi.shelves.ticking (g.queue q) ≤ _
    rw [hnil]
    exact Nat.zero_le _

variable [Memory.Contract M] {c : Config M} {e : Event M}

/-- The bounds on what is retained hold, for some ghost state. -/
def Config.Retains (c : Config M) : Prop :=
  ∃ g, ∃ hi : Inv g c.heap c.live, Shelves.Kept hi.shelves none

/-- **What is retained stays bounded** along a run. -/
theorem reachable_retains (hc : Reachable c) : c.Retains := by
  refine hc.invariant (fun c hs => ?_) (fun c e hr (ha : c.Allowed e) => ?_)
  · obtain ⟨g, hi⟩ := start_ok hs
    exact ⟨g, hi, start_kept hs hi⟩
  · obtain ⟨g, hi, hk⟩ := hr
    obtain ⟨g', hi'⟩ := (step_ok hi ha).1
    exact ⟨g', hi', (step_turn hi ha hi').kept hk⟩

/-- **Bounded retention.** An empty page is in the queue of its bin and counts down; a full
    page does not; a bin has few pages that count down, and no more that are empty. -/
theorem retention_bounded (hc : Reachable c) :
    (∀ q p, c.heap.Queued q p → c.heap.field p .used = 0 →
      q = c.heap.field p .bin ∧ q ≤ maxBin ∧
        1 ≤ c.heap.field p .retireExpire ∧ c.heap.field p .retireExpire ≤ retireCycles) ∧
    (∀ p, c.heap.Queued fullQueue p →
      c.heap.field p .retireExpire = 0 ∧ c.heap.field p .used = c.heap.field p .reserved) ∧
    (∀ q ≤ maxBin, ∃ l, QueueOk c.heap.bytes (c.heap.queues q) l ∧
      l.countP (fun p => decide (c.heap.field p .retireExpire ≠ 0)) ≤ retireLimit q ∧
      l.countP (fun p => decide (c.heap.field p .used = 0)) ≤ retireLimit q) := by
  obtain ⟨g, hi, hk⟩ := reachable_retains hc
  refine ⟨?_, ?_, ?_⟩
  · intro q p hq hused
    have hp := hi.core.queued_iff.mp hq
    have hbin : q ≤ maxBin := by
      refine (hi.shelves.home q p hp).resolve_right fun e => (hi.shelves.full p ?_).1 hused
      rw [← e]
      exact hp
    have hne : c.heap.field p .retireExpire ≠ 0 := hk.empty q hbin p hp (by simp) hused
    refine ⟨?_, hbin, by omega, hk.bound q hbin p hp⟩
    exact (hi.core.not_full hp hbin).1.trans (hi.core.member hp).1.ok.bin.symm
  · intro p hq
    have hp := hi.core.queued_iff.mp hq
    obtain ⟨hin, -⟩ := hi.core.member hp
    have hparked := hi.settled.parked p hp (fun e => e)
    have hcap : c.heap.field p .capacity = c.heap.field p .reserved :=
      hparked.capacity.trans hin.ok.reserved.symm
    exact ⟨hparked.retire, (used_eq_capacity hi hp hparked.free).trans hcap⟩
  · intro q hq
    exact ⟨g.queue q, hi.core.queues.queue q (bin_lt hq), hk.few q hq, hk.few_empty hq⟩

end Runs

open Sample in
/-- The block of `held` freed, which retires its page. -/
def Sample.drained : Config SimMemory := held.step (.dealloc block)

open Sample in
/-- The page of `drained` is empty, kept, and counts down. -/
theorem Sample.drained_retention :
    drained.heap.field 131072 .used = 0 ∧ drained.heap.field 131072 .retireExpire = retireCycles ∧
    ∃ l, QueueOk drained.heap.bytes (drained.heap.queues 11) l ∧
      l.countP (fun p => decide (drained.heap.field p .retireExpire ≠ 0)) ≤ retireLimit 11 ∧
      l.countP (fun p => decide (drained.heap.field p .used = 0)) ≤ retireLimit 11 := by
  have hreach : Reachable drained := reachable_step held_reachable (e := .dealloc block) held_mem
  exact ⟨by decide +kernel, by decide +kernel, (retention_bounded hreach).2.2 11 (by decide)⟩

/-! ## Pages nobody uses -/

section Idle
variable [Build] {M : Type} [Memory M] {live : List Block} {g g' : Ghost} {h : Heap M} {p k : Nat}
  {blk : Block}

/-- The page a free hands to `retire`: its last block came back, and it has no countdown. -/
def Heap.retiring (h : Heap M) (ptr : Nat) (layout : Layout) : Option Nat :=
  match classify layout with
  | .huge => none
  | .bin bin =>
    let page := Page.headerOf (kindOfBin bin) ptr
    let b := Page.push h.bytes page ptr
    if needsTransition b page && Page.allFree b page then some page else none

/-- The heap on which an event frees a block, and the block: a move frees after it copied. -/
def Config.freed (c : Config M) : Event M → Option (Heap M × Block)
  | .dealloc blk => some (c.heap, blk)
  | .realloc blk newSize fits =>
    if blk.layout.align ≤ word ∧ blk.layout.size ≤ directMaxSize ∧ newSize ≤ directMaxSize ∧
        directIndex blk.layout.size = directIndex newSize then none
    else
      let newLayout := blk.layout.withSize newSize fits
      match c.heap.resizeInPlace blk.addr blk.layout newLayout with
      | (some _, _) => none
      | (none, h) =>
        match h.moveTarget newLayout with
        | (none, _) => none
        | (some new, h) =>
          some ({ h with bytes := copy h.bytes blk.addr new (min blk.layout.size newLayout.size) }, blk)
  | _ => none

theorem freed_step {c : Config M} {e : Event M} (hf : c.freed e = some (h, blk)) :
    (c.step e).heap = h.dealloc blk.addr blk.layout := by
  cases e with
  | dealloc blk' =>
    obtain ⟨rfl, rfl⟩ := Prod.mk.inj (Option.some.inj hf)
    rfl
  | realloc blk' newSize fits =>
    unfold Config.freed at hf
    unfold Config.step Heap.realloc
    dsimp only at hf ⊢
    split at hf
    · cases hf
    rename_i hslot
    rw [if_neg hslot]
    generalize c.heap.resizeInPlace blk'.addr blk'.layout (blk'.layout.withSize newSize fits) = r at hf ⊢
    obtain ⟨_ | q, h1⟩ := r
    swap
    · cases hf
    dsimp only at hf ⊢
    rw [moveBlock_eq]
    generalize h1.moveTarget (blk'.layout.withSize newSize fits) = r at hf ⊢
    obtain ⟨_ | q, h2⟩ := r
    · cases hf
    obtain ⟨rfl, rfl⟩ := Prod.mk.inj (Option.some.inj hf)
    rfl
  | _ => cases hf

theorem retiring_card (hi : Inv g h (blk :: live)) (hr : h.retiring blk.addr blk.layout = some p) :
    ∃ n, classify blk.layout = .bin n ∧ p = Page.headerOf (kindOfBin n) blk.addr ∧
      h.field p .used = 1 ∧ h.field p .retireExpire = 0 := by
  cases hclass : classify blk.layout with
  | huge =>
    unfold Heap.retiring at hr
    rw [hclass] at hr
    cases hr
  | bin n =>
    unfold Heap.retiring at hr
    rw [hclass] at hr
    dsimp only at hr
    split at hr
    swap
    · cases hr
    rename_i hneeds
    obtain ⟨hstep, -, -, hused, -⟩ := push_core hi hclass
    have hpage := ((hi.core.blocks.block blk List.mem_cons_self).in_page hi.core.pages
      List.mem_cons_self hclass).1.isPage
    refine ⟨n, rfl, (Option.some.inj hr).symm, ?_⟩
    rw [Option.some.inj hr] at hstep hused hneeds hpage
    unfold needsTransition Page.allFree at hneeds
    simp only [Bool.and_eq_true, Bool.or_eq_true, beq_iff_eq, bne_iff_ne, ne_eq] at hneeds
    obtain ⟨hneeds, h0⟩ := hneeds
    have hexp := hstep.owned .retireExpire rfl
    have hflags := hstep.owned .flags rfl
    unfold Heap.field
    refine ⟨by omega, ?_⟩
    rcases hneeds with ⟨-, he⟩ | hne
    · exact hexp.symm.trans he
    · -- A flagged page is parked.
      obtain ⟨q, hq⟩ := hi.settled.queued _ p hpage (fun e => e)
      rw [hflags] at hne
      rcases (hi.core.queues.member q p hq).home with ⟨-, hf⟩ | ⟨rfl, -⟩
      · exact absurd hf hne
      · exact (hi.settled.parked p hq (fun e => e)).retire

variable [Memory.Contract M] {c : Config M} {e : Event M}

theorem freed_inv (hi : Inv g c.heap c.live) (ha : c.Allowed e) (hf : c.freed e = some (h, blk)) :
    ∃ g1 live1, Inv g1 h (blk :: live1) := by
  cases e with
  | dealloc blk' =>
    obtain ⟨rfl, rfl⟩ := Prod.mk.inj (Option.some.inj hf)
    exact ⟨g, _, hi.perm (List.perm_cons_erase ha)⟩
  | realloc blk' newSize fits =>
    have hi0 := hi.perm (List.perm_cons_erase ha.1)
    unfold Config.freed at hf
    dsimp only at hf
    split at hf
    · cases hf
    have hs : 1 ≤ (blk'.layout.withSize newSize fits).size := ha.2
    rcases resizeInPlace_resized hi0 hs rfl with
      ⟨q, h1, g1, hr, -⟩ | ⟨h1, g1, hr, hi1, -⟩
    · rw [hr] at hf
      cases hf
    rw [hr] at hf
    dsimp only at hf
    rcases moveTarget_serves hi1 hs with
      ⟨q, h2, g2, hres, hi2, -⟩ | ⟨h2, hres, -⟩
    · rw [hres] at hf
      obtain ⟨rfl, rfl⟩ := Prod.mk.inj (Option.some.inj hf)
      exact ⟨g2, _, hi2⟩
    · rw [hres] at hf
      cases hf
  | _ => cases hf

/-- A free retired page `p` after `k` collections and kept it; since then no block of it
    was popped, and it was not released. -/
inductive Idle (p k : Nat) : Config M → Prop where
  | retired {c : Config M} {e : Event M} {h : Heap M} {blk : Block} : Reachable c → c.Allowed e →
    c.freed e = some (h, blk) → h.retiring blk.addr blk.layout = some p →
    (∃ q, (c.step e).heap.Queued q p) → (c.step e).heap.collections = k → Idle p k (c.step e)
  | stays {c : Config M} {e : Event M} : Idle p k c → c.Allowed e →
    (∃ q, (c.step e).heap.Queued q p) → (c.step e).heap.field p .used = 0 → Idle p k (c.step e)

/-- **An idle page rests** on its shelf. -/
theorem Idle.rests (hidle : Idle p k c) : Reachable c ∧ ∃ g, ∃ hi : Inv g c.heap c.live,
    ∃ q, hi.shelves.Rests p q (cyclesOf (binSize q) + k) := by
  induction hidle with
  | @retired c e h blk hc ha hf hr hkept hk =>
    have hc' := reachable_step hc ha
    obtain ⟨g, hi⟩ := reachable_ok hc
    obtain ⟨g', hi'⟩ := reachable_ok hc'
    refine ⟨hc', g', hi', ?_⟩
    obtain ⟨q, hq⟩ := hkept
    have hp : p ∈ g'.queue q := hi'.core.queued_iff.mp hq
    obtain ⟨g1, live1, hi1⟩ := freed_inv hi ha hf
    obtain ⟨n, hclass, hpage, hused, hexp⟩ := retiring_card hi1 hr
    rw [← hk]
    generalize hlive : (c.step e).live = live' at hi'
    generalize hheap : (c.step e).heap = h' at hi'
    rw [freed_step hf] at hheap
    subst hheap
    have hfrees := dealloc_frees hi1 hclass hi'
    rw [← hpage] at hfrees
    exact hfrees.rests hused hexp ⟨q, hp⟩
  | @stays c e _ ha hkept hused ih =>
    obtain ⟨hc, g, hi, q, hrests⟩ := ih
    have hc' := reachable_step hc ha
    obtain ⟨g0, hi0, hk0⟩ := reachable_retains hc
    rw [hi.shelves_eq hi0] at hk0
    obtain ⟨g', hi'⟩ := reachable_ok hc'
    refine ⟨hc', g', hi', q, ?_⟩
    obtain ⟨r, hr⟩ := hkept
    have hp : p ∈ g'.queue r := hi'.core.queued_iff.mp hr
    exact ((step_turn hi ha hi').due hk0 hrests).resolve_right fun hlost => hlost r hp hused

/-- **An idle page is never lost to the collections.** It is among the first pages of its
    bin, its bin is in the retired range, and each collection that does not release it
    lowers its countdown by one; so the countdown and the collections made since the page
    was retired add up to the countdown it got, and it is released before more are made. -/
theorem idle_page_ages (hidle : Idle p k c) :
    (∃ l, QueueOk c.heap.bytes (c.heap.queues (c.heap.field p .bin)) l ∧ p ∈ l.take retireMaxPages) ∧
    (c.heap.retiredMin ≤ c.heap.field p .bin ∧ c.heap.field p .bin ≤ c.heap.retiredMax) ∧
    ((∃ q, c.heap.collectRetired.Queued q p) →
      c.heap.collectRetired.field p .retireExpire + 1 = c.heap.field p .retireExpire) ∧
    c.heap.field p .retireExpire + c.heap.collections = cyclesOf (c.heap.field p .blockSize) + k ∧
    c.heap.collections < cyclesOf (c.heap.field p .blockSize) + k := by
  obtain ⟨-, g, hi, q, hr⟩ := hidle.rests
  have hp : p ∈ g.queue q := List.mem_of_mem_take hr.window
  obtain ⟨hin, -⟩ := hi.core.member hp
  have hbin : c.heap.field p .bin = q := hin.ok.bin.trans (hi.core.not_full hp hr.bin).1.symm
  have hsize : c.heap.field p .blockSize = binSize q := by
    rw [(hi.core.not_full hp hr.bin).1]
    exact hin.ok.blockSize
  have hexp : c.heap.field p .retireExpire ≠ 0 := hr.expire
  have hdue : c.heap.field p .retireExpire + c.heap.collections = cyclesOf (binSize q) + k := hr.due
  rw [hbin, hsize]
  refine ⟨⟨g.queue q, hi.core.queues.queue q (bin_lt hr.bin), hr.window⟩, ⟨hr.lo, hr.hi⟩, ?_, hdue,
    by omega⟩
  intro ⟨r, hqueued⟩
  obtain ⟨g', hi', he'⟩ := collectRetired_inv hi
  have hages := collectRetired_ages hi hi'
  have hp' : p ∈ g'.queue r := hi'.core.queued_iff.mp hqueued
  -- The page is still in the queue of its bin.
  have hrq : r = q := by
    rcases hi'.shelves.home r p hp' with hr' | rfl
    · exact hi.core.queues.disjoint r q p (he'.binned r hr' p hp') hp
    · refine absurd ?_ (hi'.shelves.full p hp').1
      exact (hi'.core.member hp').1.ok.used.trans (hin.ok.used.symm.trans hr.used)
  rw [hrq] at hp'
  exact (hages.tick q hr.bin hr.lo hr.hi p hr.window hr.used hr.expire hp').1

omit [Memory.Contract M] in
theorem queued_first {q : Nat} (hi : Inv g h live) (hlt : q < queueCount) (hne : (h.queues q).first ≠ 0) :
    h.Queued q (h.queues q).first := by
  refine hi.core.queued_iff.mpr ?_
  have hmem := (first_mem hi hlt).resolve_left (by rwa [queueIndex_of_lt hlt])
  rwa [queueIndex_of_lt hlt] at hmem

end Idle

namespace Sample

theorem drained_queued : ∃ q, drained.heap.Queued q 131072 := by
  obtain ⟨g, hi⟩ := reachable_ok (reachable_step held_reachable (e := .dealloc block) held_mem)
  have hfirst : (drained.heap.queues 11).first = 131072 := by decide +kernel
  have hne : (drained.heap.queues 11).first ≠ 0 := by
    rw [hfirst]
    decide
  have hlt : 11 < queueCount := by
    rw [queueCount_eq]
    decide
  exact ⟨11, hfirst ▸ queued_first hi hlt hne⟩

theorem drained_idle : Idle 131072 1 drained :=
  .retired (e := .dealloc block) held_reachable held_mem rfl (by decide +kernel) drained_queued
    (by decide +kernel)

/-- The page of `drained` counts down from the start. -/
theorem drained_ages : drained.heap.field 131072 .retireExpire + drained.heap.collections =
      cyclesOf (drained.heap.field 131072 .blockSize) + 1 ∧
    drained.heap.collections < cyclesOf (drained.heap.field 131072 .blockSize) + 1 :=
  (idle_page_ages drained_idle).2.2.2

end Sample

end Wasmalloc
