import Wasmalloc.Safety
import Wasmalloc.Testing.Verdicts

/- The heap under test: the model of `testing/sim.rs`.

   A heap over a simulated memory obeys the contract of the tester (`heap_obeys`), so that
   the tester raises no false alarm on it. -/
namespace Wasmalloc.Testing
open ByteMem

variable [Build]

instance : RawAlloc (Heap SimMemory) where
  alloc h layout := h.alloc layout
  allocZeroed h layout := h.allocZeroed layout
  dealloc h ptr layout := h.dealloc ptr layout
  realloc h ptr layout newSize :=
    -- The caller promises that the new size fits.
    if fits : newSize + layout.align ≤ usizeSize / 2 then h.realloc ptr layout newSize fits
    else (none, h)
  footprintBytes h := some (sizeSlices h.mem * sliceSize - heapBase h.mem)
  bytes h := h.bytes
  setBytes h bytes := { h with bytes := bytes }
  bytes_setBytes _ _ := rfl

/-- The blocks, as the tester names them. -/
def heldBy (live : List Wasmalloc.Block) : Held := {x | ∃ blk ∈ live, (blk.addr, blk.layout) = x}

/-- The heap is in order with the blocks of `l` handed out. -/
def InOrder (h : Heap SimMemory) (l : Held) : Prop :=
  ∃ g live, Inv g h live ∧ (h.initialized = false → CoversInitial h) ∧ l = heldBy live

variable {h h' : Heap SimMemory} {g g' : Ghost} {live : List Wasmalloc.Block} {layout : Layout} {a : Nat}

theorem heldBy_cons (blk : Wasmalloc.Block) :
    heldBy (blk :: live) = insert (blk.addr, blk.layout) (heldBy live) := by
  ext x
  simp only [heldBy, List.mem_cons, exists_eq_or_imp, Set.mem_insert_iff, Set.mem_ofPred_eq]
  exact or_congr_left eq_comm

theorem keeps_of (hp : Preserves live h h') : Keeps (heldBy live) h h' := by
  rintro x ⟨blk, hm, rfl⟩ i hi
  exact hp.untouched _ ⟨blk, hm, Nat.le_add_right _ _, Nat.add_lt_add_left hi _⟩

theorem fresh_of (hi : Inv g h (⟨a, layout⟩ :: live)) : FreshAt (heldBy live) a layout := by
  have hex := Inv.exclusive (c := ⟨h, ⟨a, layout⟩ :: live⟩) hi List.mem_cons_self
  have hnd : (a :: live.map Wasmalloc.Block.addr).Nodup := hi.core.blocks.nodup
  have hpos : 1 ≤ layout.size := (hi.core.blocks.block _ List.mem_cons_self).size_pos
  refine ⟨hex.aligned, ?_, ?_⟩
  · -- The last byte is in memory, whose end is in the address space.
    have hown := hex.owned (a + layout.size - 1) (by show a ≤ _; omega)
      (by show _ < a + layout.size; omega)
    have hlt := hi.core.slices.lt _ ((hi.core.slices.recorded _).mp hown)
    have hend : sizeSlices h.mem * sliceSize < usizeSize := h.mem.end_lt
    have := (Nat.div_lt_iff_lt_mul (by decide)).mp hlt
    omega
  · rintro x ⟨blk, hm, rfl⟩
    have hne : blk ≠ ⟨a, layout⟩ := fun e => (List.nodup_cons.mp hnd).1 (by
      rw [e] at hm
      exact List.mem_map_of_mem (f := Wasmalloc.Block.addr) hm)
    have hap : Apart a layout.size blk.addr blk.layout.size :=
      hex.other blk (List.mem_cons_of_mem _ hm) hne
    rw [Set.Ico_disjoint_Ico]
    rcases hap with hap | hap
    · exact (min_le_left _ _).trans (hap.trans (le_max_right _ _))
    · exact (min_le_right _ _).trans (hap.trans (le_max_left _ _))

theorem inOrder_of (hi : Inv g h live) (hinit : h.initialized = true) : InOrder h (heldBy live) :=
  ⟨g, live, hi, fun h0 => absurd (h0.symm.trans hinit) (by decide), rfl⟩

theorem answers_of {zero : Bool} {r : Option Nat × Heap SimMemory} (hi : Inv g h live)
    (hans : Answered live g h layout zero r) (hinit : ∀ h', r = (none, h') → h'.initialized = true) :
    Answers InOrder (heldBy live) h layout r ∧
      (zero = true → ∀ ptr, r.1 = some ptr → ∀ i, i < layout.size → r.2.bytes (ptr + i) = 0) := by
  rcases hans with ⟨a, h', g', rfl, hh⟩ | ⟨h', g', rfl, hno⟩
  · refine ⟨Or.inr ⟨a, rfl, fresh_of hh.inv, ?_, keeps_of hh.preserves⟩, fun hz ptr hptr i hlt => ?_⟩
    · rw [← heldBy_cons ⟨a, layout⟩]
      exact inOrder_of hh.inv (hh.inv.initialized List.mem_cons_self)
    · obtain rfl := Option.some.inj hptr
      exact hh.zeroed hz _ (Nat.le_add_right _ _) (Nat.add_lt_add_left hlt _)
  · refine ⟨Or.inl ⟨rfl, inOrder_of hno.inv (hinit h' rfl), keeps_of ?_⟩, fun _ ptr hptr => by cases hptr⟩
    exact hno.evolves.preserves hi.core.slices hno.inv.core.slices.recorded

theorem heldBy_nil : heldBy [] = ∅ :=
  Set.eq_empty_iff_forall_notMem.mpr fun _ ⟨_, hm, _⟩ => absurd hm List.not_mem_nil

theorem heldBy_perm {rest : List Wasmalloc.Block} (h : live.Perm rest) : heldBy live = heldBy rest :=
  Set.ext fun _ => exists_congr fun _ => and_congr_left fun _ => h.mem_iff

theorem held_head {ptr : Nat} (hi : Inv g h live) (hm : (ptr, layout) ∈ heldBy live) :
    ∃ rest, Inv g h (⟨ptr, layout⟩ :: rest) ∧ heldBy live = insert (ptr, layout) (heldBy rest) ∧
      heldBy rest = heldBy live \ {(ptr, layout)} := by
  obtain ⟨⟨addr, own⟩, hm, he⟩ := hm
  obtain ⟨rfl, rfl⟩ := Prod.mk.inj he
  have hperm := List.perm_cons_erase hm
  have hi' := hi.perm hperm
  have hlive := (heldBy_perm hperm).trans (heldBy_cons _)
  refine ⟨_, hi', hlive, ?_⟩
  have hnd := hi'.core.blocks.nodup
  rw [List.map_cons, List.nodup_cons] at hnd
  have hout : (addr, own) ∉ heldBy (live.erase ⟨addr, own⟩) := fun ⟨b, hb, he⟩ => hnd.1 (by
    rw [show (⟨addr, own⟩ : Wasmalloc.Block).addr = b.addr from (Prod.mk.inj he).1.symm]
    exact List.mem_map_of_mem hb)
  rw [hlive]
  exact (Set.insert_sdiff_self_of_notMem hout).symm

/-- **The heap obeys the contract.** -/
theorem heap_obeys : Obeys InOrder where
  alloc := by
    rintro h l layout ⟨g, live, hi, hcov, rfl⟩ hs
    exact (answers_of hi (alloc_answered hi hcov hs) fun _ => alloc_refused hi hcov hs).1
  allocZeroed := by
    rintro h l layout ⟨g, live, hi, hcov, rfl⟩ hs
    exact (answers_of hi (allocZeroed_answered hi hcov hs) fun _ =>
      allocZeroed_refused hi hcov hs).imp_right fun h => h rfl
  dealloc := by
    rintro h l ptr layout ⟨g, live, hi, hcov, rfl⟩ hm
    obtain ⟨rest, hi', -, hrest⟩ := held_head hi hm
    obtain ⟨g', hi1, hp⟩ := dealloc_spec hi'
    rw [← hrest]
    exact ⟨inOrder_of hi1 (hp.init (hi'.initialized List.mem_cons_self)), keeps_of hp⟩
  realloc := by
    rintro h l ptr layout newLayout ⟨g, live, hi, hcov, rfl⟩ hm hs halign
    obtain ⟨rest, hi', hlive, hrest⟩ := held_head hi hm
    have fits : newLayout.size + layout.align ≤ usizeSize / 2 := halign ▸ newLayout.size_le
    have hnew : layout.withSize newLayout.size fits = newLayout := by
      obtain ⟨size, align, hpow, hle⟩ := newLayout
      subst halign
      rfl
    have hcall : RawAlloc.realloc h ptr layout newLayout.size =
        h.realloc ptr layout newLayout.size fits := dif_pos fits
    have hinit := hi'.initialized List.mem_cons_self
    have hres := realloc_resized hi' hs fits
    rw [hnew] at hres
    rw [hcall, ← hrest]
    rcases hres with ⟨q, h1, g1, hr, hq⟩ | ⟨h1, g1, hr, hi1, he1⟩
    · rw [hr]
      refine Or.inr ⟨q, rfl, fresh_of hq.inv, ?_, keeps_of hq.preserves, fun i hlt => ?_⟩
      · rw [← heldBy_cons ⟨q, newLayout⟩]
        exact inOrder_of hq.inv (hq.preserves.init hinit)
      · exact hq.contents i (lt_min_iff.mp hlt).1 (lt_min_iff.mp hlt).2
    · rw [hr, hlive, ← heldBy_cons ⟨ptr, layout⟩]
      exact Or.inl ⟨rfl, inOrder_of hi1 (he1.init hinit),
        keeps_of (he1.preserves hi'.core.slices hi1.core.slices.recorded)⟩
  write := by
    rintro h l b ⟨g, live, hi, hcov, rfl⟩ hb
    refine ⟨g, live, hi.write fun x => ?_, hcov, rfl⟩
    refine (hb x).imp_right ?_
    rintro ⟨y, ⟨blk, hm, rfl⟩, hlo, hhi⟩
    exact LiveByte.inSpan hi.core.pages hi.core.blocks ⟨blk, hm, hlo, hhi⟩

/-- **The tester passes the heap**: a run of a preset on a heap that has not been used yet frees
    all it allocated, unless memory cannot be grown. -/
theorem heap_verdict {E : Type} [Entropy E] {e : E} {live : List Wasmalloc.Block}
    (hstart : Starts ⟨h, live⟩) (hcov : CoversInitial h) {profile : Profile}
    (hp : profile ∈ Profile.all) {ops : Nat} (hops : ops < usizeSize) :
    Verdict h profile (runWith h e ops profile) := by
  obtain ⟨g, hi⟩ := start_ok hstart
  obtain ⟨mem, bytes, policy, -, hc⟩ := id hstart
  have hnil : live = [] := congrArg Config.live hc
  refine runWith_verdict heap_obeys ⟨g, live, hi, fun _ => hcov, ?_⟩ hp hops
  rw [hnil, heldBy_nil]

end Wasmalloc.Testing

/-! ## A run to evaluate -/
namespace Wasmalloc.Testing.Sample
open Wasmalloc.Sample

/-- A source of one hundred draws. -/
def source : ByteSource := ⟨(List.range 400).map fun n => UInt8.ofNat (37 * n)⟩

/-- The heap of `start` under test. -/
theorem start_no_false_alarm :
    Verdict start.heap .smallChurn (runWith start.heap source 12 .smallChurn) ∧
      ∀ s : Session (Heap SimMemory) ByteSource, Reached start.heap .smallChurn s →
        s.model.byAddr.entries.Perm (s.model.live.map Block.interval) ∧
        s.model.liveBytes = (s.model.live.map fun block => block.layout.size).sum ∧
        s.model.liveBytes ≤ Profile.smallChurn.maxLiveBytes := by
  have hcov : CoversInitial start.heap := by
    unfold CoversInitial
    decide +kernel
  obtain ⟨g, hi⟩ := reachable_ok start_reachable
  exact no_false_alarm heap_obeys ⟨g, [], hi, fun _ => hcov, heldBy_nil.symm⟩ List.mem_cons_self
    (by decide)

theorem start_starts : Starts ⟨start.heap, []⟩ := by
  refine ⟨memory, _, _, fun x _ hx => ?_, rfl⟩
  have hsize : emptyPage + Page.size = 1060 := by decide
  exact if_pos (by omega)

/-- The heap of `start` passes. -/
theorem start_verdict : Verdict start.heap .smallChurn (runWith start.heap source 12 .smallChurn) := by
  have hcov : CoversInitial start.heap := by
    unfold CoversInitial
    decide +kernel
  have hp : Profile.smallChurn ∈ Profile.all := List.mem_cons_self
  -- With a number in its place Lean would evaluate the run.
  obtain ⟨n, hn, hlt⟩ : ∃ n, n = 12 ∧ n < usizeSize := ⟨12, rfl, by decide⟩
  have hrun := heap_verdict (e := source) start_starts hcov hp hlt
  rw [hn] at hrun
  assumption

end Wasmalloc.Testing.Sample
