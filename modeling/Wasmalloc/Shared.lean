import Wasmalloc.Footprint
import Wasmalloc.WasmMemory

/- One linear memory, two users.

   The heap shares linear memory with code that takes memory of its own: libc's malloc on
   wasi, a host or another allocator elsewhere. At the start that code has all that lies
   below the heap base. From then on it grows and writes memory between the calls of the
   heap, in any order; only where the base is the linker's symbol it must not grow before
   the heap's first allocation, which takes all of memory from there on.

   That no slice belongs to both is proved, not assumed, and so is that neither writes the
   other's bytes (`shared_memory`): the other code is an environment the contract of a run
   allows. On wasi every slice of the heap comes from its own calls of `memory.grow`
   (`wasi_grants`). -/
namespace Wasmalloc
open ByteMem

variable [Build] {target : Target}

/-- The heap with its program, and the regions the other code has taken. -/
structure Shared (target : Target) where
  config : Config (WasmMemory target)
  theirs : List (Nat × Nat)

inductive Turn (target : Target) where
  | own (e : Event (WasmMemory target))
  | grow (slices : Nat)
  | store (bytes : Bytes)

namespace Shared
variable (s : Shared target)

/-- Slice `i` belongs to the other code. -/
def Theirs (i : Nat) : Prop := ∃ r ∈ s.theirs, InRun r.1 r.2 i

/-- The other code calls `memory.grow`: the engine hands out cleared slices. -/
def grow (slices : Nat) : Shared target :=
  match s.config.heap.mem.grow slices with
  | (none, mem) => { s with config := s.config.step (.outside mem s.config.heap.bytes) }
  | (some start, mem) =>
    { config := s.config.step (.outside mem
        (fill s.config.heap.bytes (start * sliceSize) (slices * sliceSize) 0))
      theirs := (start, slices) :: s.theirs }

def step : Turn target → Shared target
  | .own e => { s with config := s.config.step e }
  | .grow slices => s.grow slices
  | .store bytes => { s with config := s.config.step (.outside s.config.heap.mem bytes) }

variable {s} in
theorem grow_none {slices : Nat} {mem : WasmMemory target} (h : s.config.heap.mem.grow slices = (none, mem)) :
    s.grow slices = { s with config := s.config.step (.outside mem s.config.heap.bytes) } := by
  unfold grow
  rw [h]

variable {s} in
theorem grow_some {slices start : Nat} {mem : WasmMemory target}
    (h : s.config.heap.mem.grow slices = (some start, mem)) : s.grow slices =
      { config := s.config.step (.outside mem
          (fill s.config.heap.bytes (start * sliceSize) (slices * sliceSize) 0))
        theirs := (start, slices) :: s.theirs } := by
  unfold grow
  rw [h]

/-- The other code stores where it has memory, and leaves the static `EMPTY_PAGE` alone. -/
def Allowed : Turn target → Prop
  | .own e => e.own ∧ s.config.Allowed e
  | .grow _ => target = .wasi ∨ s.config.heap.initialized = true
  | .store bytes => ∀ x, bytes x = s.config.heap.bytes x ∨
      (s.Theirs (x / sliceSize) ∧ ¬ (emptyPage ≤ x ∧ x < emptyPage + Page.size))

end Shared

def sharing (target : Target) : Run.System (Shared target) (Turn target) where
  init s := Starts s.config ∧ s.theirs = [(0, s.config.heap.initialRange.1)]
  allowed := Shared.Allowed
  step := Shared.step

/-! ## Separation -/

/-- What holds of the two users in every state. -/
structure Shared.Separate (s : Shared target) : Prop where
  reachable : Reachable s.config
  apart : ∀ i, s.Theirs i → ¬ s.config.heap.slices.Recorded i
  inside : ∀ i, s.Theirs i → i < sizeSlices s.config.heap.mem
  before : s.config.heap.initialized = false → ∀ i, s.Theirs i → i < s.config.heap.initialRange.1

section Separate
variable {s : Shared target} {t : Turn target}

theorem WasmMemory.initialRange_le (c : WasmMemory target) :
    (initialFreeRange (heapBase c) (sizeSlices c)).1 ≤ sizeSlices c := by
  have hle := c.heapBase_bounds.2.2
  show divCeil c.wasmHeapBase sliceSize ≤ c.pages
  unfold divCeil sliceSize at *
  omega

theorem WasmMemory.initialRange_wasi (c : WasmMemory .wasi) :
    (initialFreeRange (heapBase c) (sizeSlices c)).1 = sizeSlices c := by
  have hnone := c.initialFreeRange_wasi
  have hle := c.initialRange_le
  show divCeil c.wasmHeapBase sliceSize = c.pages
  have hnone : c.pages - divCeil c.wasmHeapBase sliceSize = 0 := hnone
  have hle : divCeil c.wasmHeapBase sliceSize ≤ c.pages := hle
  omega

theorem start_separate (hs : (sharing target).init s) : s.Separate := by
  obtain ⟨hc, htheirs⟩ := hs
  have hlt : ∀ i, s.Theirs i → i < s.config.heap.initialRange.1 := by
    rintro i ⟨r, hr, hin⟩
    rw [htheirs, List.mem_singleton] at hr
    rw [hr] at hin
    exact lt_of_lt_of_le hin.2 (by omega)
  refine { reachable := .init hc, apart := fun i _ hr => ?_, inside := fun i hi => ?_, before := fun _ => hlt }
  · obtain ⟨mem, bytes, policy, -, hc⟩ := hc
    rw [hc] at hr
    exact SliceMap.not_recorded_new i hr
  · exact lt_of_lt_of_le (hlt i hi) (WasmMemory.initialRange_le s.config.heap.mem)

end Separate

/-- A heap that is not initialised after a step of its own has only been written to. -/
theorem step_unready {M : Type} [Memory M] [Memory.Contract M] {c : Config M} {e : Event M} {g : Ghost}
    (hi : Inv g c.heap c.live) (ha : c.Allowed e) (hown : e.own)
    (h0 : (c.step e).heap.initialized = false) :
    c.heap.initialized = false ∧ (c.step e).heap.mem = c.heap.mem := by
  have hserved : ∀ {layout : Layout} {zero : Bool} {r : Option Nat × Heap M},
      Answered c.live g c.heap layout zero r → (∀ h', r = (none, h') → h'.initialized = true) →
      r.2.initialized = true := by
    rintro layout zero r (⟨a, h', g', rfl, hh⟩ | ⟨h', g', rfl, -⟩) hno
    · exact hh.inv.initialized List.mem_cons_self
    · exact hno h' rfl
  cases e with
  | alloc layout =>
    have hready := hserved (alloc_answered hi ha.2 ha.1) fun h' hr => alloc_refused hi ha.2 ha.1 hr
    rw [← answer_heap c layout c.live (c.heap.alloc layout)] at hready
    exact absurd (hready.symm.trans h0) (by decide)
  | allocZeroed layout =>
    have hready := hserved (allocZeroed_answered hi ha.2 ha.1) fun h' hr => allocZeroed_refused hi ha.2 ha.1 hr
    rw [← answer_heap c layout c.live (c.heap.allocZeroed layout)] at hready
    exact absurd (hready.symm.trans h0) (by decide)
  | dealloc blk =>
    have hi0 := hi.perm (List.perm_cons_erase ha)
    obtain ⟨-, -, hp⟩ := dealloc_spec hi0
    exact absurd ((hp.init (hi0.initialized List.mem_cons_self)).symm.trans h0) (by decide)
  | realloc blk newSize fits =>
    have hi0 := hi.perm (List.perm_cons_erase ha.1)
    have hinit := hi0.initialized List.mem_cons_self
    have hready : (c.heap.realloc blk.addr blk.layout newSize fits).2.initialized = true := by
      rcases realloc_resized hi0 ha.2 fits with ⟨q, h', g', hr, hres⟩ | ⟨h', g', hr, -, he⟩ <;> rw [hr]
      · exact hres.preserves.init hinit
      · exact he.init hinit
    rw [← answer_heap c (blk.layout.withSize newSize fits) (c.live.erase blk)] at hready
    exact absurd (hready.symm.trans h0) (by decide)
  | write bytes => exact ⟨h0, rfl⟩
  | outside mem bytes => exact absurd hown id

/-! ## Every interleaving -/

section Turns
variable {s : Shared target} {t : Turn target}

theorem own_separate {e : Event (WasmMemory target)} (hs : s.Separate) (ha : s.config.Allowed e)
    (hown : e.own) : (s.step (.own e)).Separate := by
  obtain ⟨g, hi⟩ := reachable_ok hs.reachable
  have hf := step_footprint hi ha hown
  refine { reachable := reachable_step hs.reachable ha, apart := ?_, before := ?_
           inside := fun i hi => lt_of_lt_of_le (hs.inside i hi) hf.size_le }
  · -- A new slice lies behind the other code's, or it was not yet anyone's.
    rintro i htheirs ⟨r, hr, hin⟩
    have htheirs : s.Theirs i := htheirs
    have hlt := hs.inside i htheirs
    unfold InRun at hin
    rcases hf.granted r hr with hr | ⟨hle, -⟩ | ⟨h0, -, hle, -⟩
    · exact hs.apart i htheirs ⟨r, hr, hin⟩
    · omega
    · have := hs.before h0 i htheirs
      omega
  · intro h0 i htheirs
    obtain ⟨hinit, hmem⟩ := step_unready hi ha hown h0
    show i < (initialFreeRange (heapBase (s.config.step e).heap.mem) (sizeSlices (s.config.step e).heap.mem)).1
    rw [hmem]
    exact hs.before hinit i htheirs

theorem store_allowed {bytes : Bytes} (hs : s.Separate) (ha : s.Allowed (.store bytes)) :
    s.config.Allowed (.outside s.config.heap.mem bytes) :=
  ⟨Nat.le_refl _, fun x => (ha x).imp_right fun ⟨htheirs, hno⟩ => ⟨hs.apart _ htheirs, hno⟩⟩

theorem grow_allowed {slices : Nat} (hs : s.Separate) {start : Nat} {mem : WasmMemory target}
    (hgrow : s.config.heap.mem.grow slices = (some start, mem)) :
    s.config.Allowed (.outside mem (fill s.config.heap.bytes (start * sliceSize) (slices * sliceSize) 0)) ∧
      sizeSlices s.config.heap.mem ≤ start ∧ start + slices ≤ sizeSlices mem := by
  obtain ⟨g, hi⟩ := reachable_ok hs.reachable
  have hgot : (Memory.grow s.config.heap.mem slices).1 = some start := congrArg Prod.fst hgrow
  have hmem : (Memory.grow s.config.heap.mem slices).2 = mem := congrArg Prod.snd hgrow
  obtain ⟨hlo, hhi⟩ := Memory.Contract.grow_fresh s.config.heap.mem slices start hgot
  have hsize := Memory.Contract.size_mono s.config.heap.mem slices
  have hapart := Memory.Contract.grow_apart s.config.heap.mem slices start hgot
  rw [hmem] at hhi hsize
  refine ⟨⟨hsize, fun x => ?_⟩, hlo, hhi⟩
  by_cases hx : start * sliceSize ≤ x ∧ x < start * sliceSize + slices * sliceSize
  swap
  · exact Or.inl (fill_out (by omega))
  refine Or.inr ⟨fun hr => ?_, fun hempty => ?_⟩
  · have hlt := hi.core.slices.lt _ ((hi.core.slices.recorded _).mp hr)
    have := (Nat.le_div_iff_mul_le (by decide)).mpr hx.1
    omega
  · unfold Apart at hapart
    omega

theorem grow_separate {slices : Nat} (hs : s.Separate) (ha : s.Allowed (.grow slices)) :
    (s.step (.grow slices)).Separate := by
  obtain ⟨g, hi⟩ := reachable_ok hs.reachable
  have hsize : sizeSlices s.config.heap.mem ≤ sizeSlices (s.config.heap.mem.grow slices).2 :=
    Memory.Contract.size_mono s.config.heap.mem slices
  -- Before the first allocation only wasi lets the other code grow, where the base moves along.
  have hbefore : ∀ {mem : WasmMemory target} {i : Nat}, s.config.heap.initialized = false →
      i < sizeSlices mem → i < (initialFreeRange (heapBase mem) (sizeSlices mem)).1 := by
    intro mem i h0 hlt
    rcases ha with rfl | hinit
    · rwa [mem.initialRange_wasi]
    · exact absurd (hinit.symm.trans h0) (by decide)
  rcases hgrow : s.config.heap.mem.grow slices with ⟨_ | start, mem⟩ <;> rw [hgrow] at hsize
  · show (s.grow slices).Separate
    rw [Shared.grow_none hgrow]
    have hlt : ∀ i, s.Theirs i → i < sizeSlices mem := fun i hi => lt_of_lt_of_le (hs.inside i hi) hsize
    have hallowed : s.config.Allowed (.outside mem s.config.heap.bytes) := ⟨hsize, fun _ => Or.inl rfl⟩
    exact { reachable := reachable_step hs.reachable hallowed, apart := hs.apart
            inside := hlt, before := fun h0 i hi => hbefore h0 (hlt i hi) }
  · obtain ⟨hallowed, hlo, hhi⟩ := grow_allowed hs hgrow
    show (s.grow slices).Separate
    rw [Shared.grow_some hgrow]
    have hcases : ∀ i, (∃ r ∈ (start, slices) :: s.theirs, InRun r.1 r.2 i) →
        InRun start slices i ∨ s.Theirs i := by
      rintro i ⟨r, hr, hin⟩
      rcases List.mem_cons.mp hr with rfl | hr
      · exact Or.inl hin
      · exact Or.inr ⟨r, hr, hin⟩
    have hlt : ∀ i, (∃ r ∈ (start, slices) :: s.theirs, InRun r.1 r.2 i) → i < sizeSlices mem := by
      intro i hi
      rcases hcases i hi with hin | htheirs
      · exact lt_of_lt_of_le hin.2 hhi
      · exact lt_of_lt_of_le (hs.inside i htheirs) hsize
    refine { reachable := reachable_step hs.reachable hallowed, apart := fun i htheirs hr => ?_
             inside := hlt, before := fun h0 i hi => hbefore h0 (hlt i hi) }
    have hr : s.config.heap.slices.Recorded i := hr
    rcases hcases i htheirs with hin | htheirs
    · have := hi.core.slices.lt i ((hi.core.slices.recorded i).mp hr)
      have := hin.1
      omega
    · exact hs.apart i htheirs hr

theorem step_separate (hs : s.Separate) (ha : s.Allowed t) : (s.step t).Separate := by
  cases t with
  | own e => exact own_separate hs ha.2 ha.1
  | grow slices => exact grow_separate hs ha
  | store bytes =>
    exact { reachable := reachable_step hs.reachable (store_allowed hs ha), apart := hs.apart
            inside := hs.inside, before := hs.before }

theorem reachable_separate (hs : Run.Reachable (sharing target) s) : s.Separate :=
  hs.invariant (fun _ => start_separate) fun _ _ => step_separate

/-- **One memory, two users**, in any order of their steps: the heap is in a state that a run
    under its contract reaches; no slice belongs to both; and whichever takes the next step,
    the bytes of the other's slices stay. -/
theorem shared_memory (hs : Run.Reachable (sharing target) s) (ha : s.Allowed t) :
    Reachable s.config ∧ (∀ i, s.Theirs i → ¬ s.config.heap.slices.Recorded i) ∧
    (∀ e, t = .own e → ∀ x, s.Theirs (x / sliceSize) →
      (s.step t).config.heap.bytes x = s.config.heap.bytes x) ∧
    ((∀ e, t ≠ .own e) → ∀ x, s.config.heap.slices.Recorded (x / sliceSize) →
      (s.step t).config.heap.bytes x = s.config.heap.bytes x) := by
  have hsep := reachable_separate hs
  refine ⟨hsep.reachable, hsep.apart, ?_, fun hother x hr => ?_⟩
  · rintro e rfl x htheirs
    obtain ⟨g, hi⟩ := reachable_ok hsep.reachable
    have hnext := own_separate hsep ha.2 ha.1
    exact (step_footprint hi ha.2 ha.1).bytes x (hsep.inside _ htheirs) (hnext.apart _ htheirs)
  · cases t with
    | own e => exact absurd rfl (hother e)
    | grow slices =>
      rcases hgrow : s.config.heap.mem.grow slices with ⟨_ | start, mem⟩
      · show (s.grow slices).config.heap.bytes x = _
        rw [Shared.grow_none hgrow]
        rfl
      · obtain ⟨hallowed, -⟩ := grow_allowed hsep hgrow
        show (s.grow slices).config.heap.bytes x = _
        rw [Shared.grow_some hgrow]
        exact (hallowed.2 x).resolve_right fun hno => hno.1 hr
    | store bytes => exact ((store_allowed hsep ha).2 x).resolve_right fun hno => hno.1 hr

end Turns

/-! ## The heap's own grants -/

/-- **On wasi every slice of the heap comes from a call of `memory.grow` it made itself**, in
    every state of every run. -/
theorem wasi_grants {c : Config (WasmMemory .wasi)} (hc : Reachable c) :
    ∀ r ∈ c.heap.slices.recorded, ∃ e ∈ c.heap.growLog, e.call.Covers r := by
  have hinv : Reachable c ∧ ∀ r ∈ c.heap.slices.recorded, ∃ e ∈ c.heap.growLog, e.call.Covers r := by
    refine hc.invariant (I := fun c => Reachable c ∧
      ∀ r ∈ c.heap.slices.recorded, ∃ e ∈ c.heap.growLog, e.call.Covers r) ?_ ?_
    · rintro c hs
      refine ⟨.init hs, fun r hr => ?_⟩
      obtain ⟨mem, bytes, policy, -, rfl⟩ := hs
      exact absurd hr List.not_mem_nil
    · rintro c e ⟨hc, hgrants⟩ (ha : c.Allowed e)
      refine ⟨reachable_step hc ha, ?_⟩
      by_cases hown : e.own
      swap
      · cases e with
        | outside mem bytes => exact hgrants
        | _ => exact absurd trivial hown
      obtain ⟨g, hi⟩ := reachable_ok hc
      have hf := step_footprint hi ha hown
      intro r hr
      rcases hf.granted r hr with hr | ⟨-, hcov⟩ | ⟨-, hpos, -⟩
      · obtain ⟨e', he, hcov⟩ := hgrants r hr
        exact ⟨e', hf.log e' he, hcov⟩
      · exact hcov
      · -- The initial range is empty.
        have hnone := c.heap.mem.initialFreeRange_wasi
        unfold Heap.initialRange at hpos
        omega
  exact hinv.2

end Wasmalloc

namespace Wasmalloc.Sample
open ByteMem

/-- A wasi module, whose memory is all libc's. -/
def wasiStart : Config (WasmMemory .wasi) :=
  { heap := Heap.new (linearMemory .wasi) (fun x => if x < 2048 then 0 else 255) GrowPolicy.default, live := [] }

/-- The heap takes its first slices, and libc the next two. -/
def crowded : Shared .wasi := (Shared.step ⟨wasiStart, [(0, 4)]⟩ (.own (.alloc small))).step (.grow 2)

theorem wasi_starts : Starts wasiStart := by
  refine ⟨linearMemory .wasi, _, _, fun x _ hx => if_pos ?_, rfl⟩
  have hsize : emptyPage + Page.size = 1060 := by decide
  omega

theorem wasi_allowed : wasiStart.Allowed (.alloc small) := by
  refine ⟨by decide, fun _ => ?_⟩
  unfold CoversInitial
  decide +kernel

theorem crowded_reachable : Run.Reachable (sharing .wasi) crowded := by
  have hstart : (sharing .wasi).init ⟨wasiStart, [(0, 4)]⟩ := ⟨wasi_starts, by decide⟩
  have hown : Shared.Allowed ⟨wasiStart, [(0, 4)]⟩ (.own (.alloc small)) := ⟨trivial, wasi_allowed⟩
  have hgrow : Shared.Allowed (Shared.step ⟨wasiStart, [(0, 4)]⟩ (.own (.alloc small))) (.grow 2) := Or.inl rfl
  exact Run.Reachable.step (S := sharing .wasi) (e := .grow 2)
    (Run.Reachable.step (S := sharing .wasi) (e := .own (.alloc small)) (.init hstart) hown) hgrow

theorem crowded_theirs : crowded.theirs = [(6, 2), (0, 4)] := by decide +kernel

theorem crowded_allowed : crowded.Allowed (.own (.allocZeroed huge)) := by
  have hinit : crowded.config.heap.initialized = true := by decide +kernel
  exact ⟨trivial, by decide, fun h0 => absurd (hinit.symm.trans h0) (by decide)⟩

/-- Between the heap's slices lie libc's, which a cleared run of the heap leaves alone. -/
theorem crowded_apart : ¬ crowded.config.heap.slices.Recorded 7 ∧
    (crowded.step (.own (.allocZeroed huge))).config.heap.bytes 470000 = crowded.config.heap.bytes 470000 := by
  have htheirs : crowded.Theirs 7 := ⟨(6, 2), by rw [crowded_theirs]; exact List.mem_cons_self, by decide, by decide⟩
  obtain ⟨-, hapart, hown, -⟩ := shared_memory crowded_reachable crowded_allowed
  exact ⟨hapart 7 htheirs, hown _ rfl 470000 htheirs⟩

theorem crowded_recorded : (4, 2) ∈ crowded.config.heap.slices.recorded := by decide +kernel

/-- The first region is one it was granted. -/
theorem crowded_grants : ∃ e ∈ crowded.config.heap.growLog, e.call.Covers (4, 2) :=
  wasi_grants (reachable_separate crowded_reachable).reachable _ crowded_recorded

end Wasmalloc.Sample
