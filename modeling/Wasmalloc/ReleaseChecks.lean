import Wasmalloc.Extent
import Wasmalloc.HeapChecks

/- The queues, retirement and page release pass their checks.

   What the checks on queues need beyond `QueuesOk` is one bound: a queue holds at most as
   many pages as the map has slices (`QueuesOk.count_le`), so its count can be raised.
   The walks follow the recursion of the code, with the invariant of the walk's own lemma. -/
namespace Wasmalloc
open ByteMem Words Obligations

variable [Build] {M : Type} [Memory M] {live : List Block} {g : Ghost} {h : Heap M} {p qi n : Nat}

omit [Build] in
theorem queueIndex_checks (k : Check) (hlt : qi < queueCount) : QueueIndexChecks k qi :=
  ⟨asserts_of hlt, guards_of (queueIndex_of_lt hlt)⟩

omit [Build] in
theorem updateDirect_checks (k : Check) (bin : Nat) : UpdateDirectChecks k bin := by
  intro hbin
  have hle : bin ≤ maxBin := by omega
  refine ⟨⟨asserts_of ⟨by omega, hle⟩, fun hne => ⟨computes_of (by omega), asserts_of (by omega)⟩⟩,
    queueIndex_checks k (bin_lt hle)⟩

/-! ## Queues -/

/-- Pages of one map are no more than its slices. -/
theorem pages_length_le {place : Nat → Place} {m : SliceMap} {size : Nat} {b : Bytes} {l : List Nat}
    (hs : SlicesOk place m size b) (hl : l.Nodup)
    (hp : ∀ p ∈ l, PageAddr p ∧ place (p / sliceSize) = .page p) : l.length ≤ SliceMap.capacity := by
  have hinside : ∀ p ∈ l, m.base ≤ p / sliceSize ∧ p / sliceSize < m.base + SliceMap.capacity :=
    fun p hm => hs.inside _ (by rw [(hp p hm).2]; simp)
  have hnodup : (l.map fun p => p / sliceSize - m.base).Nodup := by
    refine hl.map_on fun p hm q hm' heq => ?_
    have hslice : p / sliceSize = q / sliceSize := by
      have := (hinside p hm).1
      have := (hinside q hm').1
      omega
    have hpage := (hp p hm).2
    rw [hslice, (hp q hm').2] at hpage
    exact (Place.page.inj hpage).symm
  have hsub : l.map (fun p => p / sliceSize - m.base) ⊆ List.range SliceMap.capacity := by
    intro i hi
    obtain ⟨p, hm, rfl⟩ := List.mem_map.mp hi
    have := hinside p hm
    rw [List.mem_range]
    omega
  have hlen := (hnodup.subperm hsub).length_le
  rwa [List.length_map, List.length_range] at hlen

section Queues
omit [Memory M]
variable {m : SliceMap} {size : Nat} {b : Bytes}

theorem QueuesOk.count_le (hq : QueuesOk g h.bytes h.queues h.direct h.occupied)
    (hs : SlicesOk g.place m size b) (hlt : qi < queueCount) :
    (h.queues (queueIndex qi)).count ≤ SliceMap.capacity := by
  rw [queueIndex_of_lt hlt, (hq.queue qi hlt).count]
  exact pages_length_le hs (List.nodup_cons.mp (hq.queue qi hlt).nodup).2 fun p hp =>
    ⟨(hq.member qi p hp).addr, (hq.member qi p hp).page⟩

theorem QueuesOk.count_fits (hq : QueuesOk g h.bytes h.queues h.direct h.occupied)
    (hs : SlicesOk g.place m size b) (hlt : qi < queueCount) :
    FitsUsize ((h.queues (queueIndex qi)).count + 1) := by
  have hcount := hq.count_le hs hlt
  have hcap := SliceMap.capacity_le
  have h32 := two_pow_32_le
  unfold FitsUsize
  omega

theorem pushFront_checks (k : Check) (hq : QueuesOk g h.bytes h.queues h.direct h.occupied)
    (hs : SlicesOk g.place m size b) (hlt : qi < queueCount) : h.PushFrontChecks k qi :=
  ⟨queueIndex_checks k hlt, computes_of (hq.count_fits hs hlt), updateDirect_checks k qi⟩

theorem pushBack_checks (k : Check) (hq : QueuesOk g h.bytes h.queues h.direct h.occupied)
    (hs : SlicesOk g.place m size b) (hlt : qi < queueCount) : h.PushBackChecks k qi :=
  ⟨queueIndex_checks k hlt, computes_of (hq.count_fits hs hlt), fun _ => updateDirect_checks k qi⟩

theorem remove_checks (k : Check) (hq : QueuesOk g h.bytes h.queues h.direct h.occupied)
    (hp : p ∈ g.queue qi) : h.RemoveChecks k qi p := by
  have hlt := hq.lt hp
  have hcount : 0 < (h.queues (queueIndex qi)).count := by
    rw [queueIndex_of_lt hlt, (hq.queue qi hlt).count]
    exact List.length_pos_of_mem hp
  exact ⟨queueIndex_checks k hlt, asserts_of hcount, computes_of hcount, fun _ => updateDirect_checks k qi⟩

end Queues

theorem moveToFront_checks (k : Check) (hc : Core g h live) (hp : p ∈ g.queue qi) :
    h.MoveToFrontChecks k qi p := by
  have hlt := hc.queues.lt hp
  exact ⟨queueIndex_checks k hlt, fun _ => ⟨remove_checks k hc.queues hp,
    pushFront_checks k (remove_ok hc.queues hp).ok hc.slices hlt⟩⟩

theorem moveToFull_checks (k : Check) (hc : Core g h live) (hp : p ∈ g.queue qi) :
    h.MoveToFullChecks k qi p := by
  have hback : (h.remove qi p).PushBackChecks k fullQueue :=
    pushBack_checks k (remove_ok hc.queues hp).ok hc.slices full_lt
  exact ⟨remove_checks k hc.queues hp, hback⟩

theorem unfull_checks (k : Check) (hc : Core g h live) (hp : p ∈ g.queue fullQueue) :
    h.UnfullChecks k p := by
  have hr := remove_ok hc.queues hp
  obtain ⟨hin, haddr⟩ := hc.member hp
  have hbin : ((h.remove fullQueue p).setInFullQueue p false).field p .bin = g.bin p := by
    show Page.get (Page.set (h.remove fullQueue p).bytes p .flags _) p .bin = g.bin p
    rw [Page.get_set_ne (by decide), hr.edit.fields p haddr _ rfl]
    exact hin.ok.bin
  have hback : (h.remove fullQueue p).PushBackChecks k (g.bin p) :=
    pushBack_checks k hr.ok hc.slices (bin_lt hin.ok.bin_le)
  refine ⟨remove_checks k hc.queues hp, ?_⟩
  simp only
  rw [hbin]
  exact hback

/-! ## Retirement and page release -/

theorem freePage_checks (k : Check) (hi : Inv g h live) (hp : p ∈ g.queue qi)
    (hempty : Page.allFree h.bytes p = true) : h.FreePageChecks k p qi := by
  have hr := remove_ok hi.core.queues hp
  obtain ⟨hc1, -⟩ := hi.core.moved hr.moved
  have hpage := (hi.core.member hp).1.isPage
  have hin1 := hc1.pages _ _ hpage
  have hkind := kind_eq hin1
  have hs := hc1.slices
  refine ⟨asserts_of hempty, remove_checks k hi.core.queues hp, hin1.ok.toPageShape.kind_checks k, ?_⟩
  rw [hkind]
  have hplace : ∀ i, InRun (p / sliceSize) (pageSlices (g.bin p)) i → g.place i = .page p :=
    fun i hi' => (hin1.slices i).mpr hi'
  refine SliceMap.freeRun_checks k hs.inv (pageSlices_pos _)
    (hs.inside_run (pageSlices_pos _) fun i hi' => ?_) fun i hi' hf => ?_
  · show g.place i ≠ .foreign
    rw [hplace i hi']
    exact fun e => by cases e
  · have hf := (hs.free i).mp hf
    rw [show g.place i = .page p from hplace i hi'] at hf
    cases hf

theorem retire_checks (k : Check) (hi : Inv g h live) (hp : p ∈ g.queue (g.bin p))
    (hempty : Page.allFree h.bytes p = true) : h.RetireChecks k p := by
  have hin := (hi.core.member hp).1
  unfold Heap.RetireChecks
  rw [show h.field p .bin = g.bin p from hin.ok.bin]
  exact ⟨asserts_of hempty, queueIndex_checks k (bin_lt hin.ok.bin_le), fun _ => freePage_checks k hi hp hempty⟩

/-! ## Walks over queues -/

theorem agePage_inv {cur : Nat} (range : Nat × Nat) (hi : Inv g h live) (hqi : qi ≤ maxBin)
    (hp : cur ∈ g.queue qi) : ∃ g1, Inv g1 (h.agePage qi cur range).1 live ∧
      (h.field cur .next = 0 ∨ h.field cur .next ∈ g1.queue qi) := by
  obtain ⟨hin, -⟩ := hi.core.member hp
  have hnot : cur ∉ g.queue fullQueue := fun hmem => by
    have := hi.core.queues.disjoint _ _ cur hmem hp
    have := maxBin_lt_full
    omega
  have hnext := next_spec hi.core.queues hp
  have hstay := hnext.imp_right fun e => e.1
  have hexp : h.field cur .retireExpire < 256 := Page.get_lt h.bytes cur .retireExpire
  unfold Heap.agePage
  split
  · split
    · rename_i hfree
      obtain ⟨hi1, -⟩ := setRetire_inv (v := h.field cur .retireExpire - 1) hi hin.isPage (by omega)
        (Or.inl hnot)
      simp only
      split
      · obtain ⟨hi2, -, -⟩ := freePage_inv hi1 hp ((allFree_iff hin).mp hfree)
        exact ⟨_, hi2, hnext.imp_right fun e => mem_without_of_ne e.1 e.2⟩
      · exact ⟨g, hi1, hstay⟩
    · exact ⟨g, (setRetire_inv hi hin.isPage (by decide) (Or.inr rfl)).1, hstay⟩
  · exact ⟨g, hi, hstay⟩

theorem agePage_checks (k : Check) {cur : Nat} (hi : Inv g h live) (hp : cur ∈ g.queue qi)
    (hqi : qi ≤ maxBin) : h.AgePageChecks k qi cur := by
  obtain ⟨hin, -⟩ := hi.core.member hp
  have hnot : cur ∉ g.queue fullQueue := fun hmem => by
    have := hi.core.queues.disjoint _ _ cur hmem hp
    have := maxBin_lt_full
    omega
  have hexp : h.field cur .retireExpire < 256 := Page.get_lt h.bytes cur .retireExpire
  intro hr hfree
  obtain ⟨hi1, -⟩ := setRetire_inv (v := h.field cur .retireExpire - 1) hi hin.isPage (by omega) (Or.inl hnot)
  have hfree1 := (allFree_iff (hi1.core.member hp).1).mpr ((allFree_iff hin).mp hfree)
  exact ⟨computes_of (by omega), fun _ => freePage_checks k hi1 hp hfree1⟩

theorem collectQueue_checks (k : Check) (hqi : qi ≤ maxBin) (left : Nat) : ∀ {g : Ghost} {h : Heap M}
    (range : Nat × Nat) {cur : Nat}, Inv g h live → (cur = 0 ∨ cur ∈ g.queue qi) →
    Heap.CollectQueueChecks k qi left (h, range) cur := by
  induction left with
  | zero => exact fun _ _ _ _ => trivial
  | succ left ih =>
    intro g h range cur hi hcur hne
    have hp := hcur.resolve_left hne
    obtain ⟨g1, hi1, hnext⟩ := agePage_inv range hi hqi hp
    exact ⟨agePage_checks k hi hp hqi, ih (h.agePage qi cur range).2 hi1 hnext⟩

theorem collectRetired_checks (k : Check) (hi : Inv g h live) : h.CollectRetiredChecks k := by
  refine fun _ => Along.of_invariant (fun s => ∃ g, Inv g s.1 live) _ ?_ ⟨g, hi⟩
  rintro s ⟨g, hi⟩ qi hqi
  have hle : qi ≤ maxBin := by
    have := List.mem_range'_1.mp hqi
    omega
  have hfirst := first_mem hi (bin_lt hle)
  obtain ⟨g1, hi1, -⟩ := collectQueue_inv hle retireMaxPages s.2 hi hfirst
  exact ⟨⟨queueIndex_checks k (bin_lt hle), collectQueue_checks k hle retireMaxPages s.2 hi hfirst⟩, g1, hi1⟩

theorem releaseQueue_checks (k : Check) (hqi : qi ≤ maxBin) (left : Nat) : ∀ {g : Ghost} {h : Heap M}
    {cur : Nat}, Inv g h live → (cur = 0 ∨ cur ∈ g.queue qi) →
    Heap.ReleaseQueueChecks k qi left h cur := by
  induction left with
  | zero => exact fun _ _ => trivial
  | succ left ih =>
    intro g h cur hi hcur hne
    have hp := hcur.resolve_left hne
    obtain ⟨done, rest, hsplit⟩ := List.append_of_mem hp
    obtain ⟨g1, hi1, -, -, -, hstep⟩ := releaseOne_inv hi hqi hsplit
    refine ⟨fun hfree => freePage_checks k hi hp hfree, ih hi1 ?_⟩
    refine (next_spec hi.core.queues hp).imp_right fun ⟨hmem, hother⟩ => ?_
    rw [hsplit] at hmem
    rcases hstep with ⟨-, hqueue⟩ | ⟨-, hqueue, -⟩
    · rw [hqueue]
      simp only [List.mem_append, List.mem_cons] at hmem ⊢
      tauto
    · rw [hqueue]
      exact hmem

theorem releasePending_checks (k : Check) (left : Nat) : ∀ {g : Ghost} {h : Heap M} {pending : U64},
    Inv g h live → (∀ i, pending.getLsbD i = true → i ≤ maxBin) →
    Heap.ReleasePendingChecks k left h pending := by
  induction left with
  | zero => exact fun _ _ => trivial
  | succ left ih =>
    intro g h pending hi hbins hne
    obtain ⟨-, hbit, -⟩ := trailingZeros_spec hne
    have hle := hbins _ hbit
    have hlt := bin_lt hle
    have hqok := hi.core.queues.queue _ hlt
    obtain ⟨-, g1, hi1, -⟩ := releaseQueue_inv hle (g.queue (trailingZeros pending)).length []
      (g.queue (trailingZeros pending)) hi rfl (Nat.le_refl _) (fun p hp => absurd hp List.not_mem_nil)
    refine ⟨queueIndex_checks k hlt, releaseQueue_checks k hle _ hi (first_mem hi hlt), ih (g := g1) ?_ ?_⟩
    · rw [queueIndex_of_lt hlt, hqok.count, hqok.first]
      exact hi1
    · intro i hi'
      rw [getLsbD_clear_lowest hne] at hi'
      exact hbins i (Bool.and_eq_true_iff.mp hi').1

theorem releaseEmptyPages_checks (k : Check) (hi : Inv g h live) : h.ReleaseEmptyPagesChecks k := by
  refine releasePending_checks k 64 hi fun i hbit => ?_
  rw [BitVec.getLsbD_and] at hbit
  have hmask := (Bool.and_eq_true_iff.mp hbit).2
  have hlt := BitVec.lt_of_getLsbD hmask
  rw [binQueueBits_iff i hlt] at hmask
  exact (of_decide_eq_true hmask).2

end Wasmalloc
