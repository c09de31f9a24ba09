import Wasmalloc.TwinCalls
import Wasmalloc.Observed

/- Decisions and program data.

   Two runs over one backend that make the same calls, while the program writes other bytes
   into its blocks and the memory starts with other contents. Everything the allocator
   answers and keeps is the same in both: the heaps stay twins over what the allocator
   owns, and a write of the program is outside of that. -/
namespace Wasmalloc
open ByteMem

variable [Build] {M : Type} [Memory M]

/-- The same call, on blocks that hold whatever they hold. -/
inductive SameCall : Event M → Event M → Prop
  | alloc (layout : Layout) : SameCall (.alloc layout) (.alloc layout)
  | allocZeroed (layout : Layout) : SameCall (.allocZeroed layout) (.allocZeroed layout)
  | dealloc (blk : Block) : SameCall (.dealloc blk) (.dealloc blk)
  | realloc (blk : Block) (newSize : Nat) (fits : newSize + blk.layout.align ≤ usizeSize / 2) :
      SameCall (.realloc blk newSize fits) (.realloc blk newSize fits)
  | write (b c : Bytes) : SameCall (.write b) (.write c)
  | outside (mem : M) (b c : Bytes) : SameCall (.outside mem b) (.outside mem c)

/-- Two runs that make the same calls over the same backend. -/
inductive TwinRuns : Config M → Config M → Prop
  | start {mem : M} {b c : Bytes} {policy : GrowPolicy}
      (hb : ∀ x, emptyPage ≤ x → x < emptyPage + Page.size → b x = 0)
      (hc : ∀ x, emptyPage ≤ x → x < emptyPage + Page.size → c x = 0) :
      TwinRuns { heap := Heap.new mem b policy, live := [] }
        { heap := Heap.new mem c policy, live := [] }
  | step {c d : Config M} {e f : Event M} (hr : TwinRuns c d) (hs : SameCall e f)
      (he : c.Allowed e) (hf : d.Allowed f) : TwinRuns (c.step e) (d.step f)

/-- What a call returns. -/
def Config.returns (c : Config M) : Event M → Option Nat
  | .alloc layout => (c.heap.alloc layout).1
  | .allocZeroed layout => (c.heap.allocZeroed layout).1
  | .realloc blk newSize fits => (c.heap.realloc blk.addr blk.layout newSize fits).1
  | _ => none

/-- What the allocator keeps is the same: all fields of the heap, the headers of the pages,
    the queues and the free lists. -/
structure SameState (h k : Heap M) : Prop where
  heap : ∃ bytes log, k = { h with bytes := bytes, growLog := log }
  header : ∀ q p, h.Queued q p → ∀ f : Page.Field, k.field p f = h.field p f
  queue : ∀ q < queueCount, ∀ l, QueueOk k.bytes (k.queues q) l ↔ QueueOk h.bytes (h.queues q) l
  freeList : ∀ q p, h.Queued q p → ∀ fl, Page.FreeList k.bytes p fl ↔ Page.FreeList h.bytes p fl

section Twins
variable {g : Ghost} {live : List Block} {h k : Heap M}

/-- **Twins keep the same state.** -/
theorem Inv.same_state (hi : Inv g h live) (ht : Twin g.owned h k) : SameState h k where
  heap := by
    obtain ⟨c, l, rfl, -⟩ := ht
    exact ⟨c, l, rfl⟩
  header := fun q p hq => ht.field (owned_header (hi.isPage_iff.mpr ⟨q, hq⟩))
  queue := by
    intro q hq l
    have hl := hi.core.queues.queue q hq
    have hqueue : k.queues q = h.queues q := congrFun ht.rest.2.2.2.2.1 q
    have hk : QueueOk k.bytes (k.queues q) (g.queue q) := by
      rw [hqueue]
      have hfield : ∀ p ∈ g.queue q, ∀ f, Page.get k.bytes p f = Page.get h.bytes p f := fun p hp =>
        Page.get_eqOn ht.bytes (owned_header (hi.core.member hp).1.isPage)
      exact hl.congr fun p hp => ⟨hfield p hp _, hfield p hp _⟩
    exact ⟨fun h' => hk.unique h' ▸ hl, fun h' => hl.unique h' ▸ hk⟩
  freeList := by
    intro q p hq fl
    have hp : IsPage g p := hi.isPage_iff.mpr ⟨q, hq⟩
    obtain ⟨hhead, hchain, h0⟩ := hi.freeList hp
    have hk : Page.FreeList k.bytes p (g.free p) :=
      ⟨(Page.get_eqOn ht.bytes (owned_header hp) _).trans hhead,
        hchain.congr fun a ha => Page.loadWord_eqOn ht.bytes (owned_link hp ha), h0⟩
    exact ⟨fun h' => hk.unique h' ▸ hi.freeList hp, fun h' => (hi.freeList hp).unique h' ▸ hk⟩

/-- What the allocator owns lies in its slices, or is the sentinel. -/
theorem Inv.owned_recorded (hi : Inv g h live) {x : Nat} (hx : x ∈ g.owned) :
    h.slices.Recorded (x / sliceSize) ∨ (emptyPage ≤ x ∧ x < emptyPage + Page.size) := by
  rcases hx with hx | ⟨p, hp, hx⟩
  · exact Or.inr hx
  · have hin := hi.core.pages _ _ hp
    have hreserve : Page.size ≤ (kindOfBin (g.bin p)).pageSize :=
      Page.size_le.trans (by cases kindOfBin (g.bin p) <;> decide)
    have hplace : g.place (x / sliceSize) = .page p := by
      rcases hx with hx | ⟨a, ha, hlo, hhi⟩
      · have := headerBytes_inside hx
        exact hin.mem.mpr ⟨by omega, by omega⟩
      · have hins := hin.ok.inside (List.mem_append_left _ ha)
        have hword := hin.ok.word_le_size
        exact hin.mem.mpr ⟨by omega, by omega⟩
    exact Or.inl ((hi.core.slices.recorded _).mpr (by rw [hplace]; simp))

end Twins

section Step
variable [Memory.Contract M] {c d : Config M} {e f : Event M} {g : Ghost}

omit [Memory.Contract M] in
theorem answer_twin {layout : Layout} {rest rest' : List Block} {r r' : Option Nat × Heap M}
    (hlive : d.live = c.live) (hrest : rest' = rest) (hr : Blind r r')
    (hok : (c.answer layout rest r).Ok) :
    (d.answer layout rest' r').live = (c.answer layout rest r).live ∧
      ∃ g', Inv g' (c.answer layout rest r).heap (c.answer layout rest r).live ∧
        Twin g'.owned (c.answer layout rest r).heap (d.answer layout rest' r').heap := by
  obtain ⟨answer, h⟩ := r
  obtain ⟨answer', k⟩ := r'
  obtain ⟨hanswer, hblind⟩ := hr
  obtain rfl : answer' = answer := hanswer
  obtain rfl := hrest
  obtain ⟨g', hi'⟩ := hok
  cases answer' with
  | some a => exact ⟨rfl, g', hi', hblind g' _ hi'⟩
  | none => exact ⟨hlive, g', hi', hblind g' _ hi'⟩

/-- **One call**: the same answer, and twins again. -/
theorem step_twin (hi : Inv g c.heap c.live) (hlive : d.live = c.live)
    (ht : Twin g.owned c.heap d.heap) (hs : SameCall e f) (he : c.Allowed e) (hf : d.Allowed f) :
    d.returns f = c.returns e ∧ (d.step f).live = (c.step e).live ∧
      ∃ g', Inv g' (c.step e).heap (c.step e).live ∧ Twin g'.owned (c.step e).heap (d.step f).heap := by
  have hok := (step_ok hi he).1
  cases hs with
  | alloc layout =>
    have hblind := alloc_twin hi he.2 he.1 ht
    exact ⟨hblind.1, answer_twin hlive hlive hblind hok⟩
  | allocZeroed layout =>
    have hblind := allocZeroed_twin hi he.2 he.1 ht
    exact ⟨hblind.1, answer_twin hlive hlive hblind hok⟩
  | dealloc blk =>
    have hi' := hi.perm (List.perm_cons_erase he)
    obtain ⟨g', hg', -⟩ := dealloc_spec hi'
    refine ⟨rfl, ?_, g', hg', dealloc_twin hi' ht hg'⟩
    show d.live.erase blk = c.live.erase blk
    rw [hlive]
  | realloc blk newSize fits =>
    have hblind := realloc_twin (hi.perm (List.perm_cons_erase he.1)) he.2 fits ht
    exact ⟨hblind.1, answer_twin hlive (by rw [hlive]) hblind hok⟩
  | write b b' =>
    -- What the program writes is in a live block, and nothing of that is owned.
    have hw : WritesSpans g c.live c.heap.bytes b := fun x =>
      (he x).imp_right fun hx => hx.inSpan hi.core.pages hi.core.blocks
    refine ⟨rfl, hlive, g, hi.write hw, ht.withBytes fun x hx => ?_⟩
    have hout : ¬ LiveByte c.live x := fun hlv => by
      obtain ⟨blk, hm, hin⟩ := hlv.inSpan hi.core.pages hi.core.blocks
      exact hi.core.owned_apart hx hm hin
    rw [(he x).resolve_right hout, (hf x).resolve_right (hlive ▸ hout)]
    exact ht.bytes hx
  | outside mem b b' =>
    refine ⟨rfl, hlive, g, (hi.outside he.1 he.2).1, ?_⟩
    have hout : ∀ x ∈ g.owned, ¬ (¬ c.heap.slices.Recorded (x / sliceSize) ∧
        ¬ (emptyPage ≤ x ∧ x < emptyPage + Page.size)) := fun x hx hno =>
      (hi.owned_recorded hx).elim hno.1 hno.2
    have hslices : d.heap.slices = c.heap.slices := ht.rest.2.1
    obtain ⟨bytes, log, heq, hb⟩ := ht
    refine ⟨b', log, ?_, fun x hx => ?_⟩
    · show ({ d.heap with mem := mem, bytes := b' } : Heap M) = _
      rw [heq]
      rfl
    · have hd := (hf.2 x).resolve_right (by rw [hslices]; exact hout x hx)
      show b x = b' x
      rw [(he.2 x).resolve_right (hout x hx), hd, heq]
      exact hb hx

/-- **Two runs** stay twins. -/
theorem TwinRuns.twin (hr : TwinRuns c d) : Reachable c ∧ Reachable d ∧ d.live = c.live ∧
    ∃ g, Inv g c.heap c.live ∧ Twin g.owned c.heap d.heap := by
  induction hr with
  | @start mem b c policy hb hc =>
    have hstart : ∀ b : Bytes, (∀ x, emptyPage ≤ x → x < emptyPage + Page.size → b x = 0) →
        Starts ({ heap := Heap.new mem b policy, live := [] } : Config M) := fun b hb =>
      ⟨mem, b, policy, hb, rfl⟩
    obtain ⟨g, hi⟩ := start_ok (hstart b hb)
    refine ⟨Run.Reachable.init (hstart b hb), Run.Reachable.init (hstart c hc), rfl, g, hi, c, _, rfl, fun x hx => ?_⟩
    -- Nothing is recorded yet: only the sentinel is owned.
    rcases hi.owned_recorded hx with hrec | hin
    · exact absurd hrec (SliceMap.not_recorded_new _)
    · exact (hb x hin.1 hin.2).trans (hc x hin.1 hin.2).symm
  | @step c d e f hr hs he hf ih =>
    obtain ⟨hc, hd, hlive, g, hi, ht⟩ := ih
    obtain ⟨-, hlive', g', hi', ht'⟩ := step_twin hi hlive ht hs he hf
    exact ⟨reachable_step hc he, reachable_step hd hf, hlive', g', hi', ht'⟩

/-- **No decision depends on program data.** Two runs that make the same calls over the same
    backend, whatever the program writes into its blocks and whatever the memory held first,
    keep the same state and the same live blocks, and the next call answers the same. -/
theorem decisions_ignore_data (hr : TwinRuns c d) : d.live = c.live ∧ SameState c.heap d.heap ∧
    ∀ e f, SameCall e f → c.Allowed e → d.Allowed f → d.returns f = c.returns e := by
  obtain ⟨-, -, hlive, g, hi, ht⟩ := hr.twin
  exact ⟨hlive, hi.same_state ht, fun e f hs he hf => (step_twin hi hlive ht hs he hf).1⟩

end Step

end Wasmalloc

namespace Wasmalloc.Sample
open ByteMem

/-- `start` over a memory with other contents. -/
def other : Config SimMemory :=
  { heap := Heap.new memory (fun x => if x < 2048 then 0 else 7) GrowPolicy.default, live := [] }

/-- The program fills its block. -/
def scribble (c : Config SimMemory) (v : UInt8) : Event SimMemory :=
  .write (fill c.heap.bytes block.addr block.layout.size v)

theorem scribble_allowed {c : Config SimMemory} (hlive : c.live = [block]) (v : UInt8) :
    c.Allowed (scribble c v) := by
  intro x
  by_cases hx : block.addr ≤ x ∧ x < block.addr + block.layout.size
  · exact Or.inr ⟨block, by rw [hlive]; exact List.mem_cons_self, hx⟩
  · exact Or.inl (fill_out (by omega))

theorem scribbled_twins : TwinRuns (held.step (scribble held 1))
    ((other.step (.alloc small)).step (scribble (other.step (.alloc small)) 2)) := by
  have hzero : ∀ v : UInt8, ∀ x, emptyPage ≤ x → x < emptyPage + Page.size →
      (if x < 2048 then 0 else v) = 0 := by
    intro v x hlo hhi
    rw [if_pos]
    exact Nat.lt_of_lt_of_le hhi (by decide)
  have hstart : TwinRuns start other := .start (hzero 255) (hzero 7)
  have hother : other.Allowed (.alloc small) :=
    ⟨by decide, fun _ => (start_allowed small (by decide)).1.2 rfl⟩
  have hheld : TwinRuns held (other.step (.alloc small)) :=
    .step hstart (.alloc small) (start_allowed small (by decide)).1 hother
  exact .step hheld (.write _ _) (scribble_allowed held_live 1)
    (scribble_allowed (hheld.twin.2.2.1.trans held_live) 2)

/-- One block, filled with ones in one run and with twos in the other. -/
theorem scribbled_same : SameState (held.step (scribble held 1)).heap
    ((other.step (.alloc small)).step (scribble (other.step (.alloc small)) 2)).heap :=
  (decisions_ignore_data scribbled_twins).2.1

end Wasmalloc.Sample
