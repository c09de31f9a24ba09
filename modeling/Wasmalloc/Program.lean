import Wasmalloc.Realloc
import Wasmalloc.Lib.Run

/- Runs of a program over the heap.

   A configuration is the heap with the blocks the program holds. Between calls of the
   allocator the program writes into its blocks, and another party may grow the memory
   and write outside what the heap owns. `Allowed` is the caller's contract: sizes are
   not zero, and a block is freed or resized only while live, with the Layout it carries.
   `reachable_inv` is the invariant in every state a run can reach. -/
namespace Wasmalloc
open ByteMem

variable [Build] {M : Type} [Memory M]

structure Config (M : Type) where
  heap : Heap M
  live : List Block

/-- What can happen next: a call of the allocator, or a store by the program, or growth
    of the memory by another party. -/
inductive Event (M : Type) where
  | alloc (layout : Layout)
  | allocZeroed (layout : Layout)
  | dealloc (blk : Block)
  | realloc (blk : Block) (newSize : Nat) (fits : newSize + blk.layout.align ≤ usizeSize / 2)
  | write (bytes : Bytes)
  | outside (mem : M) (bytes : Bytes)

namespace Config
variable (c : Config M)

/-- The result of a call for `layout`: a new block in front of `rest`, or no change. -/
def answer (layout : Layout) (rest : List Block) : Option Nat × Heap M → Config M
  | (some a, h) => { heap := h, live := ⟨a, layout⟩ :: rest }
  | (none, h) => { heap := h, live := c.live }

def step : Event M → Config M
  | .alloc layout => c.answer layout c.live (c.heap.alloc layout)
  | .allocZeroed layout => c.answer layout c.live (c.heap.allocZeroed layout)
  | .dealloc blk => { heap := c.heap.dealloc blk.addr blk.layout, live := c.live.erase blk }
  | .realloc blk newSize fits =>
    c.answer (blk.layout.withSize newSize fits) (c.live.erase blk)
      (c.heap.realloc blk.addr blk.layout newSize fits)
  | .write bytes => { c with heap := { c.heap with bytes := bytes } }
  | .outside mem bytes => { c with heap := { c.heap with mem := mem, bytes := bytes } }

/-- The caller's contract, and the backend's. -/
def Allowed : Event M → Prop
  | .alloc layout => 1 ≤ layout.size ∧ (c.heap.initialized = false → CoversInitial c.heap)
  | .allocZeroed layout => 1 ≤ layout.size ∧ (c.heap.initialized = false → CoversInitial c.heap)
  | .dealloc blk => blk ∈ c.live
  | .realloc blk newSize _ => blk ∈ c.live ∧ 1 ≤ newSize
  | .write bytes => ∀ x, bytes x = c.heap.bytes x ∨ LiveByte c.live x
  | .outside mem bytes => sizeSlices c.heap.mem ≤ sizeSlices mem ∧
      ∀ x, bytes x = c.heap.bytes x ∨
        (¬ c.heap.slices.Recorded (x / sliceSize) ∧ ¬ (emptyPage ≤ x ∧ x < emptyPage + Page.size))

/-- The blocks an event is not about. -/
def others : Event M → List Block
  | .dealloc blk => c.live.erase blk
  | .realloc blk _ _ => c.live.erase blk
  | _ => c.live

end Config

/-- A heap at its start; the static `EMPTY_PAGE` is all zeros. -/
def Starts (c : Config M) : Prop :=
  ∃ mem bytes policy, (∀ x, emptyPage ≤ x → x < emptyPage + Page.size → bytes x = 0) ∧
    c = { heap := Heap.new mem bytes policy, live := [] }

/-- The runs that obey the contract. -/
def program (M : Type) [Memory M] : Run.System (Config M) (Event M) :=
  { init := Starts, allowed := Config.Allowed, step := Config.step }

abbrev Reachable (c : Config M) : Prop := Run.Reachable (program M) c

theorem reachable_step {c : Config M} {e : Event M} (hc : Reachable c) (ha : c.Allowed e) :
    Reachable (c.step e) :=
  Run.Reachable.step (S := program M) hc ha

/-! ## The invariant along a run -/

/-- The invariant holds, for some ghost state. -/
def Config.Ok (c : Config M) : Prop := ∃ g, Inv g c.heap c.live

/-- The ghost state of a heap that owns nothing. -/
def Ghost.empty : Ghost :=
  { place := fun _ => .foreign, bin := fun _ => 0, free := fun _ => [], queue := fun _ => [] }

theorem start_ok {c : Config M} (hc : Starts c) : c.Ok := by
  obtain ⟨mem, bytes, policy, hsent, rfl⟩ := hc
  have hslices : SlicesOk Ghost.empty.place SliceMap.new (sizeSlices mem) bytes := by
    refine { inv := SliceMap.new_inv, base_le := Nat.zero_le _, recorded := ?_, free := ?_,
             zero := fun x hx => absurd hx (SliceMap.not_zero_new _), pos := ?_, lt := ?_,
             inside := ?_, apart := ?_ }
    · exact fun i => ⟨fun hr => absurd hr (SliceMap.not_recorded_new i), fun hf => absurd rfl hf⟩
    · exact fun i => ⟨fun hf => absurd hf (SliceMap.not_free_new i), fun hf => by cases hf⟩
    all_goals exact fun i hi => absurd rfl hi
  have hnew := represents_new mem bytes policy
  have hqueues : QueuesOk Ghost.empty bytes (fun _ => emptyQueue) (fun _ => emptyPage) 0 :=
    { queue := hnew.queue, member := fun q p hp => absurd hp List.not_mem_nil
      disjoint := hnew.disjoint, direct_eq := hnew.direct_eq, occupied_iff := hnew.occupied_iff }
  refine ⟨Ghost.empty, { core := ?_, settled := ?_, unclaimed := fun i hi => by cases hi }⟩
  · refine { slices := hslices, pages := ?_, blocks := ?_, queues := hqueues, sentinel := hsent,
             uninit := fun _ => rfl, log := fun e he => absurd he List.not_mem_nil }
    · exact fun i p hp => absurd hp (fun e => by cases e)
    · exact { nodup := List.nodup_nil, block := fun blk hm => absurd hm List.not_mem_nil,
              runs := fun i a hi => absurd hi (fun e => by cases e) }
  · exact { queued := fun i p hp => absurd hp (fun e => by cases e),
            parked := fun p hp => absurd hp List.not_mem_nil }

theorem Inv.outside {g : Ghost} {h : Heap M} {live : List Block} (hi : Inv g h live) {mem : M}
    {bytes : Bytes} (hsize : sizeSlices h.mem ≤ sizeSlices mem)
    (hb : ∀ x, bytes x = h.bytes x ∨
      (¬ h.slices.Recorded (x / sliceSize) ∧ ¬ (emptyPage ≤ x ∧ x < emptyPage + Page.size))) :
    Inv g { h with mem := mem, bytes := bytes } live ∧
      Preserves live h { h with mem := mem, bytes := bytes } := by
  have hs := hi.core.slices
  have hown : ∀ x, g.place (x / sliceSize) ≠ .foreign → bytes x = h.bytes x := fun x hx =>
    (hb x).resolve_right fun hno => hno.1 ((hs.recorded _).mpr hx)
  have hpage : SameBytes g h.bytes bytes := fun x p hx => hown x (by rw [hx]; simp)
  have hsame : SamePages g g :=
    { page := fun _ _ => Iff.rfl, bin := rfl, free := rfl, queue := rfl }
  have hmem := fun p hp => (hi.core.queues.member fullQueue p hp).page
  refine ⟨{ core := ?_, settled := hsame.settled hi.settled hmem hi.core.pages hpage,
            unclaimed := hi.unclaimed }, ?_⟩
  · refine { slices := ?_, pages := hsame.pages hi.core.pages hpage, blocks := hi.core.blocks,
             queues := hsame.queues hi.core.queues hi.core.pages hpage, sentinel := ?_,
             uninit := hi.core.uninit, log := hi.core.log }
    · have hs' := hs.congr (c := bytes) fun x hx => hown x (by rw [hx]; simp)
      exact { hs' with
              base_le := le_trans hs.base_le hsize
              lt := fun i hi' => lt_of_lt_of_le (hs.lt i hi') hsize }
    · intro x hlo hhi
      exact ((hb x).resolve_right fun hno => hno.2 ⟨hlo, hhi⟩).trans (hi.core.sentinel x hlo hhi)
  · refine { untouched := fun x hx => hown x ?_, recorded := fun _ hr => hr, size_le := hsize,
             policy := rfl, init := id }
    obtain ⟨blk, hm, hin⟩ := hx.inSpan hi.core.pages hi.core.blocks
    exact (span_slice hi.core.pages hi.core.blocks hm hin).2

variable [Memory.Contract M] {c : Config M} {e : Event M}

/-- **One step** keeps the invariant; the blocks it is not about stay, and unless the
    program writes, so do their bytes. -/
theorem step_ok {g : Ghost} (hi : Inv g c.heap c.live) (ha : c.Allowed e) :
    (c.step e).Ok ∧ (∀ blk ∈ c.others e, blk ∈ (c.step e).live) ∧
      (∀ i, c.heap.slices.Recorded i → (c.step e).heap.slices.Recorded i) ∧
      ((∀ b, e ≠ .write b) → Preserves (c.others e) c.heap (c.step e).heap) := by
  have hanswer : ∀ (layout : Layout) (zero : Bool) (r : Option Nat × Heap M),
      Answered c.live g c.heap layout zero r →
      (c.answer layout c.live r).Ok ∧ (∀ blk ∈ c.live, blk ∈ (c.answer layout c.live r).live) ∧
        Preserves c.live c.heap (c.answer layout c.live r).heap := by
    intro layout zero r hans
    rcases hans with ⟨a, h', g', rfl, hh⟩ | ⟨h', g', rfl, hno⟩
    · exact ⟨⟨g', hh.inv⟩, fun blk hm => List.mem_cons_of_mem _ hm, hh.preserves⟩
    · exact ⟨⟨g', hno.inv⟩, fun blk hm => hm,
        hno.evolves.preserves hi.core.slices hno.inv.core.slices.recorded⟩
  cases e with
  | alloc layout =>
    obtain ⟨h1, h2, h3⟩ := hanswer layout false _ (alloc_answered hi ha.2 ha.1)
    exact ⟨h1, h2, h3.recorded, fun _ => h3⟩
  | allocZeroed layout =>
    obtain ⟨h1, h2, h3⟩ := hanswer layout true _ (allocZeroed_answered hi ha.2 ha.1)
    exact ⟨h1, h2, h3.recorded, fun _ => h3⟩
  | dealloc blk =>
    obtain ⟨g', hi', hp⟩ := dealloc_spec (hi.perm (List.perm_cons_erase ha))
    exact ⟨⟨g', hi'⟩, fun _ hm => hm, hp.recorded, fun _ => hp⟩
  | realloc blk newSize fits =>
    have hi' := hi.perm (List.perm_cons_erase ha.1)
    have hres : Resized (c.live.erase blk) g c.heap blk (blk.layout.withSize newSize fits)
        (c.heap.realloc blk.addr blk.layout newSize fits) := realloc_resized hi' ha.2 fits
    have hstep : c.step (.realloc blk newSize fits) = c.answer (blk.layout.withSize newSize fits)
        (c.live.erase blk) (c.heap.realloc blk.addr blk.layout newSize fits) := rfl
    rw [hstep]
    rcases hres with ⟨q, h1, g1, hr, hq⟩ | ⟨h1, g1, hr, hi1, he1⟩
    · rw [hr]
      exact ⟨⟨g1, hq.inv⟩, fun _ hm => List.mem_cons_of_mem _ hm, hq.preserves.recorded,
        fun _ => hq.preserves⟩
    · rw [hr]
      have hp := he1.preserves hi'.core.slices hi1.core.slices.recorded
      exact ⟨⟨g1, hi1.perm (List.perm_cons_erase ha.1).symm⟩, fun _ hm => List.mem_of_mem_erase hm,
        hp.recorded, fun _ => hp.tail⟩
  | write bytes =>
    have hw : WritesSpans g c.live c.heap.bytes bytes := fun x =>
      (ha x).imp_right fun hx => hx.inSpan hi.core.pages hi.core.blocks
    exact ⟨⟨g, hi.write hw⟩, fun _ hm => hm, fun _ hr => hr, fun hne => absurd rfl (hne bytes)⟩
  | outside mem bytes =>
    obtain ⟨hi', hp⟩ := hi.outside ha.1 ha.2
    exact ⟨⟨g, hi'⟩, fun _ hm => hm, fun _ hr => hr, fun _ => hp⟩

/-- **The invariant holds in every state a run can reach.** -/
theorem reachable_ok (hc : Reachable c) : c.Ok :=
  hc.invariant (fun _ => start_ok) fun c e hok (ha : c.Allowed e) =>
    hok.elim fun _ hi => (step_ok hi ha).1

end Wasmalloc

/-! ## A run to evaluate -/
namespace Wasmalloc.Sample
open ByteMem

/-- Two slices and a bit in use, one free, and room for two more. -/
def memory : SimMemory where
  firstSlice := 0
  capacitySlices := 5
  endSlice := 3
  heapBase := 66000
  heapBase_pos := by decide
  heapBase_le := by decide
  end_le := by decide
  region_le := by decide
  empty_below := by decide

/-- A request of `size` bytes that a word aligns. -/
def request (size : Nat) (fits : size + 8 ≤ usizeSize / 2) : Layout :=
  { size := size, align := 8, align_pow2 := ⟨3, rfl⟩, size_le := fits }

def small : Layout := request 100 (by decide)
def medium : Layout := request 20000 (by decide)
def huge : Layout := request 70000 (by decide)

/-- Memory above the sentinel holds stale bytes. -/
def start : Config SimMemory :=
  { heap := Heap.new memory (fun x => if x < 2048 then 0 else 255) GrowPolicy.default, live := [] }

theorem start_reachable : Reachable start := by
  refine Run.Reachable.init ⟨memory, _, _, ?_, rfl⟩
  intro x _ hx
  have hsize : emptyPage + Page.size = 1060 := by decide
  exact if_pos (by omega)

theorem start_allowed (layout : Layout) (hs : 1 ≤ layout.size) :
    start.Allowed (.alloc layout) ∧ start.Allowed (.allocZeroed layout) := by
  have hcov : CoversInitial start.heap := by
    unfold CoversInitial
    decide +kernel
  exact ⟨⟨hs, fun _ => hcov⟩, ⟨hs, fun _ => hcov⟩⟩

/-- The program holds one small block. -/
def held : Config SimMemory := start.step (.alloc small)

theorem held_reachable : Reachable held :=
  reachable_step start_reachable (start_allowed small (by decide)).1

def block : Block := ⟨131136, small⟩

theorem held_live : held.live = [block] := by decide +kernel

theorem held_mem : block ∈ held.live := by
  rw [held_live]
  exact List.mem_singleton_self _

theorem held_allowed (layout : Layout) (hs : 1 ≤ layout.size) :
    held.Allowed (.alloc layout) ∧ held.Allowed (.allocZeroed layout) := by
  have hinit : held.heap.initialized = true := by decide +kernel
  have hcov : held.heap.initialized = false → CoversInitial held.heap := fun h => by
    rw [hinit] at h
    cases h
  exact ⟨⟨hs, hcov⟩, ⟨hs, hcov⟩⟩

end Wasmalloc.Sample
