import Wasmalloc.Conservation
import Wasmalloc.Validators

/- The heap validator: `Heap::validate` of `heap.rs`, which the tests of the source run
   after their steps.

   It checks every queue, and every entry of the direct table against the queue it
   stands for. `validate_ok` says what it accepts; `reachable_validates`, that it
   accepts whatever a run of a program leaves, so a test that runs it can only fail
   on a program that broke the contract of the calls. -/
namespace Wasmalloc
open ByteMem Checks

variable [Build] {M : Type}

namespace Heap

/-- Check direct entry `i`: the first page of its queue, or the sentinel. -/
def validateDirectEntry (debug : Bool) (h : Heap M) (i : Nat) : Except Stop Unit := do
  let b := bin (i * word)
  refuse (debug = true ∧ ¬ b < queueCount) (.panic s!"queue index {b} out of range")
  let first := (h.queues (queueIndex b)).first
  let expect := if first = 0 then emptyPage else first
  refuse (h.direct i ≠ expect) (.err "direct entry does not point at its queue's first page")

/-- Every queue and every direct entry. -/
def validate (debug : Bool) (h : Heap M) : Except Stop Unit := do
  each (h.validateQueue debug) queueCount 0
  each (h.validateDirectEntry debug) directEntries 0

end Heap

/-! ## What the validator accepts -/

/-- Direct entry `i` is the head of the queue its size belongs to, or the sentinel. -/
def DirectValid (h : Heap M) (i : Nat) : Prop :=
  h.direct i = if (h.queues (bin (i * word))).first = 0 then emptyPage
    else (h.queues (bin (i * word))).first

/-- The queues are valid, and the direct table agrees with their heads. -/
structure HeapValid (debug : Bool) (h : Heap M) : Prop where
  queue : ∀ q < queueCount, QueueValid debug true h q
  direct : ∀ i < directEntries, DirectValid h i

section Validate
variable {debug : Bool} {h : Heap M} {i q p : Nat}

omit [Build] in
theorem bin_direct_lt (hi : i < directEntries) : bin (i * word) < queueCount := by
  have hle := (bin_direct i hi).2
  have hmax : directMaxBin < queueCount := by decide +kernel
  omega

theorem validateDirectEntry_ok (hi : i < directEntries) :
    h.validateDirectEntry debug i = .ok () ↔ DirectValid h i := by
  have hlt := bin_direct_lt hi
  unfold Heap.validateDirectEntry DirectValid
  simp only [bind_ok, refuse_ok, exists_const, queueIndex_of_lt hlt, hlt, not_true_eq_false,
    and_false, not_false_eq_true, true_and, ne_eq, not_not]

/-- **The heap validator accepts exactly the valid heaps.** -/
theorem validate_ok (hfirst : ∀ q < queueCount, (h.queues q).first < usizeSize) :
    h.validate debug = .ok () ↔ HeapValid debug h := by
  have hqueue : ∀ q < queueCount, (h.validateQueue debug q = .ok () ↔ QueueValid debug true h q) := by
    intro q hq
    have hindex := queueIndex_of_lt hq
    exact validateQueueInner_ok (by rw [hindex]; exact hfirst q hq)
  unfold Heap.validate
  simp only [bind_ok, each_ok, exists_const, Nat.zero_add]
  constructor
  · rintro ⟨hqueues, hdirect⟩
    exact { queue := fun q hq => (hqueue q hq).mp (hqueues q hq)
            direct := fun i hi => (validateDirectEntry_ok hi).mp (hdirect i hi) }
  · intro hv
    exact ⟨fun q hq => (hqueue q hq).mpr (hv.queue q hq),
      fun i hi => (validateDirectEntry_ok hi).mpr (hv.direct i hi)⟩

end Validate

/-! ## The states of a run are valid -/

section Reachable
variable [Memory M] {debug : Bool} {g : Ghost} {h : Heap M} {live : List Block} {q p s : Nat}

theorem Core.page_notFree (hc : Core g h live) (hq : h.Queued q p)
    (hs : s < pageSlices (g.bin p)) : h.slices.NotFree debug (p / sliceSize + s) := by
  have hplace : g.place (p / sliceSize + s) = .page p :=
    ((hc.queued hq).slices _).mpr ⟨by omega, by omega⟩
  have hown : g.place (p / sliceSize + s) ≠ .foreign := by simp [hplace]
  obtain ⟨hbase, hlimit⟩ := hc.slices.inside _ hown
  have hcap := Build.words_le
  have husize := two_pow_32_le
  have hrel : h.slices.wrappingRel (p / sliceSize + s) = p / sliceSize + s - h.slices.base := by
    unfold SliceMap.limit SliceMap.capacity at hlimit
    unfold SliceMap.wrappingRel
    rw [show p / sliceSize + s + usizeSize - h.slices.base =
      p / sliceSize + s - h.slices.base + usizeSize by omega, Nat.add_mod_right]
    exact Nat.mod_eq_of_lt (by omega)
  unfold SliceMap.NotFree
  rw [hrel]
  refine ⟨fun _ => ⟨hbase, by unfold SliceMap.limit at hlimit; omega⟩, ?_⟩
  have hfree : ¬ h.slices.Free (p / sliceSize + s) := by simp [hc.slices.free, hplace]
  rw [bit_eq, Bool.and_eq_false_iff]
  right
  rw [Bool.eq_false_iff]
  exact fun hbit => hfree ⟨hbase, hlimit, hbit⟩

theorem Core.page_valid (hc : Core g h live) (hq : h.Queued q p) : Page.Valid h.bytes p := by
  have hok := (hc.queued hq).ok
  have hlt := (hc.queues.member q p (hc.queued_iff.mp hq)).addr.lt
  rw [← usizeSize_eq_pow] at hlt
  exact (Page.valid_iff_shape hlt).mpr ⟨_, _, _, hok.toPageShape⟩

theorem Inv.queueMember (hi : Inv g h live) (hq : h.Queued q p) : QueueMember debug true h q p := by
  have hc := hi.core
  have hwf := hi.wellFormed
  refine { valid := hc.page_valid hq, full := ?_, bin := ?_, taken := ?_ }
  · rintro rfl
    obtain ⟨hflag, hfree, hcap⟩ := hwf.full p hq
    have hhead : Page.get h.bytes p .free = 0 := hfree.1
    refine ⟨hflag, ?_, ?_⟩
    · unfold Page.hasFree
      rw [hhead]
      rfl
    · exact decide_eq_false (Nat.not_lt.mpr (le_of_eq hcap.symm))
  · intro hne
    exact hwf.binned q ((hwf.queues q p hq).resolve_right hne) p hq
  · intro _ s hs
    have hbin : Page.get h.bytes p .bin = g.bin p := (hc.queued hq).ok.bin
    rw [hbin] at hs
    exact hc.page_notFree hq hs

theorem Inv.valid (hi : Inv g h live) : HeapValid debug h := by
  have hwf := hi.wellFormed
  refine { queue := ?_, direct := hwf.direct }
  intro q hq
  obtain ⟨l, hl⟩ := hwf.queue q hq
  have hmem : ∀ p, p ∈ l ↔ h.Queued q p := by
    intro p
    constructor
    · exact fun hp => ⟨hq, l, hl, hp⟩
    · rintro ⟨-, l', hl', hp⟩
      rwa [hl.unique hl']
  refine { index := fun _ => hq, occupied := ?_, list := ⟨l, ?_, ?_⟩ }
  · rw [queueIndex_of_lt hq, hwf.occupied q hq, hl.count, List.length_pos_iff_exists_mem]
    exact exists_congr fun p => (hmem p).symm
  · rw [queueIndex_of_lt hq]
    exact hl
  · exact fun p hp => hi.queueMember ((hmem p).mp hp)

variable [Memory.Contract M] {c : Config M}

/-- **Every reachable heap passes the validator**, with assertions on and off: no queue, no
    page, no slice and no direct entry is ever reported. -/
theorem reachable_validates (hc : Reachable c) (debug : Bool) : c.heap.validate debug = .ok () := by
  obtain ⟨g, hi⟩ := reachable_ok hc
  have hfirst : ∀ q < queueCount, (c.heap.queues q).first < usizeSize := by
    intro q hq
    rw [usizeSize_eq_pow]
    exact ((hi.core.queues.queue q hq).ends hi.core.queues.addr).1.2
  exact (validate_ok hfirst).mpr hi.valid

end Reachable

end Wasmalloc

namespace Wasmalloc.Sample

theorem held_validates : held.heap.validate true = .ok () := reachable_validates held_reachable true

end Wasmalloc.Sample
