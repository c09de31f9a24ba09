import Wasmalloc.Observed

/- The release walk removes exactly the empty pages.

   `Swept h h'` says, of what the memory holds, how a heap looks after
   `release_empty_pages`: which pages are left in which queue, which slices became free,
   what of the headers changed, and that the caches fit the queues. It holds in every
   state of a run (`release_empty_pages_exact`), whatever the countdowns and the retired
   range are, and a second walk finds nothing to do. -/
namespace Wasmalloc
open ByteMem

section
variable [Build] {M : Type} {live : List Block} {g g' : Ghost} {h h' : Heap M}

/-- Slice `i` belongs to an empty page of a bin queue. -/
def Heap.OnEmptyPage (h : Heap M) (i : Nat) : Prop :=
  ∃ q ≤ maxBin, ∃ p, h.Queued q p ∧ h.field p .used = 0 ∧ h.OnPage p i

/-- `h'` is `h` without its empty pages, and without a countdown. -/
structure Swept (h h' : Heap M) : Prop where
  bins : ∀ q ≤ maxBin, ∃ l, QueueOk h.bytes (h.queues q) l ∧
    QueueOk h'.bytes (h'.queues q) (l.filter fun p => h.field p .used ≠ 0)
  full : h'.queues fullQueue = h.queues fullQueue ∧ ∃ l,
    QueueOk h.bytes (h.queues fullQueue) l ∧ QueueOk h'.bytes (h'.queues fullQueue) l
  free : ∀ i, h'.slices.Free i ↔ h.slices.Free i ∨ h.OnEmptyPage i
  freed : ∀ i, h.OnEmptyPage i → ¬ h.slices.Free i ∧ ¬ h'.slices.Zero i
  header : ∀ q p, h'.Queued q p → h'.field p .retireExpire = 0 ∧
    ∀ f : Page.Field, f ≠ .next → f ≠ .prev → f ≠ .retireExpire → h'.field p f = h.field p f
  range : h'.retiredMin = queueCount ∧ h'.retiredMax = 0
  direct : ∀ i < directEntries, h'.direct i =
    if (h'.queues (bin (i * word))).first = 0 then emptyPage else (h'.queues (bin (i * word))).first
  occupied : ∀ q < queueCount, h'.occupied.getLsbD q = true ↔ (h'.queues q).count ≠ 0
  outside : ∀ x, (∀ q p, h.Queued q p → x < p ∨ p + Page.size ≤ x) → h'.bytes x = h.bytes x
  frame : h' = { h with
    bytes := h'.bytes, queues := h'.queues, direct := h'.direct, occupied := h'.occupied
    slices := { h.slices with free := h'.slices.free, hint := h'.slices.hint }
    retiredMin := h'.retiredMin, retiredMax := h'.retiredMax }

theorem QueueOk.record_eq {b c : Bytes} {q r : PageQueue} {l : List Nat} (hq : QueueOk b q l)
    (hr : QueueOk c r l) : r = q := by
  have hfirst : r.first = q.first := hr.first.trans hq.first.symm
  have hlast : r.last = q.last := hr.last.trans hq.last.symm
  have hcount : r.count = q.count := hr.count.trans hq.count.symm
  cases q
  cases r
  simp only at hfirst hlast hcount
  rw [hfirst, hlast, hcount]

theorem QueuesOk.caches {b : Bytes} {queues : Nat → PageQueue} {direct : Nat → Nat} {occupied : Words.U64}
    (hq : QueuesOk g b queues direct occupied) :
    (∀ i < directEntries, direct i =
      if (queues (bin (i * word))).first = 0 then emptyPage else (queues (bin (i * word))).first) ∧
    (∀ q < queueCount, occupied.getLsbD q = true ↔ (queues q).count ≠ 0) := by
  refine ⟨fun i hi => ?_, fun q hlt => ?_⟩
  · have hbin := (bin_direct i hi).2
    have hle := directMaxBin_le
    rw [hq.direct_eq i hi, (hq.queue _ (bin_lt (by omega))).headD]
  · rw [hq.occupied_iff q hlt, (hq.queue q hlt).count, ne_eq, ne_eq, List.length_eq_zero_iff]

variable [Memory M]

/-- A page that is empty sits in the queue of its bin. -/
theorem Inv.onEmptyPage_iff (hi : Inv g h live) {i : Nat} :
    h.OnEmptyPage i ↔ ∃ p, g.place i = .page p ∧ h.field p .used = 0 := by
  constructor
  · intro ⟨q, _, p, hq, hused, hon⟩
    exact ⟨p, (hi.core.onPage_iff hq).mp hon, hused⟩
  · intro ⟨p, hplace, hused⟩
    obtain ⟨q, hmem⟩ := hi.settled.queued i p hplace (fun e => e)
    have hqueued := hi.core.queued_iff.mpr hmem
    refine ⟨q, ?_, p, hqueued, hused, (hi.core.onPage_iff hqueued).mpr hplace⟩
    rcases (hi.core.queues.member q p hmem).home with ⟨hq, -⟩ | ⟨hq, -⟩
    · rw [hq]
      exact (hi.core.member hmem).1.ok.bin_le
    · have hquiet := (parked_quiet hi (hq ▸ hmem)).1
      unfold Heap.field at hused
      omega

theorem swept_place (hi : Inv g h live) (hi' : Inv g' h' live) (he : Evolves live g g' h h')
    (hqueue : ∀ q, g'.queue q = (g.queue q).filter fun p => !Page.allFree h.bytes p) {i p : Nat}
    (hplace : g.place i = .page p) : g'.place i = .free ↔ h.field p .used = 0 := by
  have hin := hi.core.pages i p hplace
  obtain ⟨q, hmem⟩ := hi.settled.queued i p hplace (fun e => e)
  constructor
  · intro hfree
    by_contra hused
    have hmem' : p ∈ g'.queue q := by
      rw [hqueue, List.mem_filter]
      refine ⟨hmem, ?_⟩
      unfold Page.allFree
      simpa [Heap.field] using hused
    have hslice := (hi'.core.member hmem').1.slices i
    rw [he.bin, ← hin.slices i] at hslice
    rw [hslice.mpr hplace] at hfree
    cases hfree
  · intro hused
    refine ((he.page i p hplace).resolve_left fun hpage => ?_).1
    obtain ⟨r, hr⟩ := hi'.settled.queued i p hpage (fun e => e)
    rw [hqueue, List.mem_filter] at hr
    have hbusy := hr.2
    unfold Page.allFree at hbusy
    unfold Heap.field at hused
    simp [hused] at hbusy

theorem releaseEmptyPages_swept (hi : Inv g h live) : Swept h h.releaseEmptyPages := by
  obtain ⟨-, g', hi', he, hu, hqueue, hquiet⟩ := releaseEmptyPages_exact hi
  have hsame := releasePending_same 64 h (h.occupied &&& binQueueBits)
  have hframe : h.releaseEmptyPages = { h with
      bytes := h.releaseEmptyPages.bytes, queues := h.releaseEmptyPages.queues
      direct := h.releaseEmptyPages.direct, occupied := h.releaseEmptyPages.occupied
      slices := { h.slices with free := h.releaseEmptyPages.slices.free
                                hint := h.releaseEmptyPages.slices.hint }
      retiredMin := h.releaseEmptyPages.retiredMin
      retiredMax := h.releaseEmptyPages.retiredMax } :=
    congrArg (fun k : Heap M => { k with retiredMin := queueCount, retiredMax := 0 }) hsame
  have hrange : h.releaseEmptyPages.retiredMin = queueCount ∧ h.releaseEmptyPages.retiredMax = 0 :=
    ⟨rfl, rfl⟩
  have hs := hi.core.slices
  have hs' := hi'.core.slices
  generalize h.releaseEmptyPages = h' at *
  -- The zero bits and the recorded slices are not part of what the sweep writes.
  have hzero : ∀ i, h'.slices.Zero i ↔ h.slices.Zero i := by
    intro i
    rw [hframe]
    exact Iff.rfl
  have hforeign : ∀ i, g'.place i = .foreign ↔ g.place i = .foreign := by
    intro i
    have hrec : h'.slices.Recorded i ↔ h.slices.Recorded i := by
      rw [hframe]
      exact Iff.rfl
    rw [hs.recorded, hs'.recorded] at hrec
    exact not_iff_not.mp hrec
  have hqueues := hi.core.queues
  have hqueues' := hi'.core.queues
  have hfilter : ∀ q, (g.queue q).filter (fun p => !Page.allFree h.bytes p)
      = (g.queue q).filter fun p => h.field p .used ≠ 0 := by
    intro q
    refine List.filter_congr fun p _ => ?_
    unfold Page.allFree Heap.field
    simp [beq_eq_decide]
  -- A full page holds blocks, so the full queue loses none.
  have hfull : g'.queue fullQueue = g.queue fullQueue := by
    rw [hqueue, List.filter_eq_self]
    intro p hp
    have hused := (parked_quiet hi hp).1
    unfold Page.allFree
    simp only [Bool.not_eq_true', beq_eq_false_iff_ne]
    omega
  refine { bins := fun q hq => ?_, full := ?_, free := fun i => ?_, freed := fun i hon => ?_,
           header := fun q p hp => ?_, range := hrange, direct := hqueues'.caches.1,
           occupied := hqueues'.caches.2, outside := fun x hx => ?_, frame := hframe }
  · refine ⟨g.queue q, hqueues.queue q (bin_lt hq), ?_⟩
    rw [← hfilter, ← hqueue]
    exact hqueues'.queue q (bin_lt hq)
  · have hq := hqueues.queue fullQueue full_lt
    have hq' := hqueues'.queue fullQueue full_lt
    rw [hfull] at hq'
    exact ⟨hq.record_eq hq', g.queue fullQueue, hq, hq'⟩
  · rw [hs'.free, hs.free, hi.onEmptyPage_iff]
    cases hplace : g.place i with
    | free => simp [he.free i hplace]
    | foreign => simp [(hforeign i).mpr hplace]
    | claimed => simp [he.claimed i hplace]
    | run a => simp [he.run i a hplace]
    | page p => simp [swept_place hi hi' he hqueue hplace]
  · obtain ⟨p, hplace, -⟩ := hi.onEmptyPage_iff.mp hon
    have hnot : ¬ h.slices.Free i := by
      rw [hs.free, hplace]
      exact fun e => by cases e
    exact ⟨hnot, fun hz => hnot (((hzero i).mp hz).free hs.inv)⟩
  · have hmem' := hi'.core.queued_iff.mp hp
    have haddr := hqueues'.addr p hmem'
    exact ⟨(hquiet q p hmem').2, fun f h1 h2 h3 => hu.fields p haddr f h1 h2 h3⟩
  · refine hu.outside x fun p _ hpage => ?_
    obtain ⟨q, hq⟩ := hi.isPage_iff.mp hpage
    exact hx q p hq

/-! ## A second walk -/

omit [Memory M] in
theorem releaseOne_quiet {qi cur : Nat} (hq : Quiet h.bytes cur) : h.releaseOne qi cur = h := by
  unfold Heap.releaseOne
  have hfree : Page.allFree h.bytes cur = false := by
    unfold Page.allFree
    rw [beq_eq_false_iff_ne]
    exact Nat.ne_of_gt hq.1
  have hexp : h.field cur .retireExpire = 0 := hq.2
  rw [hfree, if_neg Bool.false_ne_true, if_neg (not_not.mpr hexp)]

/-- Where every page is quiet the walk over a queue changes nothing. -/
theorem releaseQueue_quiet (hi : Inv g h live) {qi : Nat}
    (hq : ∀ p ∈ g.queue qi, Quiet h.bytes p) (left : Nat) : ∀ {cur : Nat},
    (cur = 0 ∨ cur ∈ g.queue qi) → Heap.releaseQueue qi left h cur = h := by
  induction left with
  | zero => exact fun _ => rfl
  | succ left ih =>
    intro cur hcur
    by_cases h0 : cur = 0
    · rw [Heap.releaseQueue, if_pos h0]
    · have hmem := hcur.resolve_left h0
      rw [Heap.releaseQueue_succ h left h0, releaseOne_quiet (hq cur hmem)]
      exact ih ((next_spec hi.core.queues hmem).imp_right fun e => e.1)

theorem releasePending_quiet (hi : Inv g h live) (hq : ∀ q, ∀ p ∈ g.queue q, Quiet h.bytes p)
    (left : Nat) : ∀ {pending : Words.U64}, (∀ i, pending.getLsbD i = true → i ≤ maxBin) →
    Heap.releasePending left h pending = h := by
  induction left with
  | zero => exact fun _ => rfl
  | succ left ih =>
    intro pending hbins
    rw [Heap.releasePending]
    by_cases h0 : pending = 0
    · rw [if_pos h0]
    · obtain ⟨-, hbit, -⟩ := Words.trailingZeros_spec h0
      have hle := hbins _ hbit
      rw [if_neg h0]
      simp only
      rw [releaseQueue_quiet hi (hq _) _ (first_mem hi (bin_lt hle))]
      refine ih fun i hi' => hbins i ?_
      rw [Words.getLsbD_clear_lowest h0, Bool.and_eq_true] at hi'
      exact hi'.1

theorem releaseEmptyPages_twice (hi : Inv g h live) :
    h.releaseEmptyPages.releaseEmptyPages = h.releaseEmptyPages := by
  obtain ⟨-, g', hi', -, -, -, hquiet⟩ := releaseEmptyPages_exact hi
  have hrange : h.releaseEmptyPages.retiredMin = queueCount ∧ h.releaseEmptyPages.retiredMax = 0 :=
    ⟨rfl, rfl⟩
  generalize h.releaseEmptyPages = h' at *
  have hbins : ∀ i, (h'.occupied &&& binQueueBits).getLsbD i = true → i ≤ maxBin := by
    intro i hbit
    rw [BitVec.getLsbD_and, Bool.and_eq_true] at hbit
    have hlt : i < 64 := BitVec.lt_of_getLsbD hbit.2
    have hin := hbit.2
    rw [binQueueBits_iff i hlt, decide_eq_true_eq] at hin
    exact hin.2
  have hwalk := releasePending_quiet hi' hquiet 64 hbins
  unfold Heap.releaseEmptyPages
  rw [hwalk, ← hrange.1, ← hrange.2]

open Words in
/-- **`release_empty_pages` removes exactly the empty pages**, from every state of a run:
    the walk ends, leaves `Swept`, and done again it changes nothing. -/
theorem release_empty_pages_exact [Memory.Contract M] {c : Config M} (hc : Reachable c) :
    (∃ h1, PendingWalk c.heap (c.heap.occupied &&& binQueueBits) h1 ∧
      c.heap.releaseEmptyPages = { h1 with retiredMin := queueCount, retiredMax := 0 }) ∧
    Swept c.heap c.heap.releaseEmptyPages ∧
    c.heap.releaseEmptyPages.releaseEmptyPages = c.heap.releaseEmptyPages := by
  obtain ⟨g, hi⟩ := reachable_ok hc
  exact ⟨(releaseEmptyPages_exact hi).1, releaseEmptyPages_swept hi, releaseEmptyPages_twice hi⟩

end

open Sample in
/-- The block of `held` freed: its page, kept with a countdown, goes. -/
theorem Sample.drained_swept :
    ((held.step (.dealloc block)).heap.queues 11).count = 1 ∧
    Swept (held.step (.dealloc block)).heap (held.step (.dealloc block)).heap.releaseEmptyPages ∧
    ((held.step (.dealloc block)).heap.releaseEmptyPages.queues 11).count = 0 := by
  have hreach := reachable_step held_reachable (e := .dealloc block) held_mem
  exact ⟨by decide +kernel, (release_empty_pages_exact hreach).2.1, by decide +kernel⟩

end Wasmalloc
