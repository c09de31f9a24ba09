import Wasmalloc.Program

/- What can be read off a heap.

   The guarantees are stated about what the memory holds, without ghost state: the
   members of a queue are those its links lead to (`Heap.Queued`), the blocks on a free
   list those its words lead to (`Page.FreeList`), the slices of a page those its header
   tells (`Heap.OnPage`). In every state of a run these are what the ghost state says. -/
namespace Wasmalloc
open ByteMem

variable [Build] {M : Type} {live : List Block} {g : Ghost} {h : Heap M} {b : Bytes} {p q : Nat}
  {fl : List Nat}

/-- The links of queue `q` lead to the page at `p`. -/
def Heap.Queued (h : Heap M) (q p : Nat) : Prop :=
  q < queueCount ∧ ∃ l, QueueOk h.bytes (h.queues q) l ∧ p ∈ l

/-- The free list of the page at `p` visits the blocks `fl` and ends. -/
def Page.FreeList (b : Bytes) (p : Nat) (fl : List Nat) : Prop :=
  Page.get b p .free = fl.headD 0 ∧ Links.Chain (Page.loadWord b) 0 fl ∧ 0 ∉ fl

/-- Slice `i` belongs to the page whose header is at `p`. -/
def Heap.OnPage (h : Heap M) (p i : Nat) : Prop :=
  InRun (p / sliceSize) ((Page.kind h.bytes p).pageSize / sliceSize) i

/-- Slice `i` belongs to the run of a header-less block. -/
def OnRun (blk : Block) (i : Nat) : Prop :=
  classify blk.layout = .huge ∧ InRun (blk.addr / sliceSize) (hugeSlices blk.layout) i

theorem QueueOk.unique {queue : PageQueue} {l l' : List Nat} (h : QueueOk b queue l)
    (h' : QueueOk b queue l') : l = l' :=
  h.ring.unique h'.ring (List.nodup_cons.mp h.nodup).1 (List.nodup_cons.mp h'.nodup).1

theorem Page.FreeList.unique {fl' : List Nat} (h : Page.FreeList b p fl) (h' : Page.FreeList b p fl') :
    fl = fl' :=
  h.2.1.unique h'.2.1 (h.1.symm.trans h'.1) h.2.2 h'.2.2

theorem Page.PageShape.freeList {n : Nat} {lv : List Nat} (h : PageShape b p n fl lv) :
    FreeList b p fl := by
  refine ⟨h.head, h.chain, fun hmem => ?_⟩
  have hins := (h.inside (List.mem_append_left lv hmem)).1
  unfold pageHeaderReserve at hins
  omega

theorem freeList_iff (hin : PageIn g b live p) : Page.FreeList b p fl ↔ fl = g.free p :=
  ⟨fun h => h.unique hin.ok.toPageShape.freeList, fun e => e ▸ hin.ok.toPageShape.freeList⟩

section Core
variable [Memory M]

theorem Core.queued_iff (hc : Core g h live) : h.Queued q p ↔ p ∈ g.queue q := by
  constructor
  · intro ⟨hlt, l, hl, hmem⟩
    rw [← hl.unique (hc.queues.queue q hlt)]
    exact hmem
  · exact fun hmem => ⟨hc.queues.lt hmem, _, hc.queues.queue q (hc.queues.lt hmem), hmem⟩

theorem Inv.freeList (hi : Inv g h live) (hp : IsPage g p) : Page.FreeList h.bytes p (g.free p) :=
  (freeList_iff (hi.core.pages _ _ hp)).mpr rfl

theorem Core.queued (hc : Core g h live) (hq : h.Queued q p) : PageIn g h.bytes live p :=
  (hc.member (hc.queued_iff.mp hq)).1

theorem Inv.isPage_iff (hi : Inv g h live) : IsPage g p ↔ ∃ q, h.Queued q p := by
  constructor
  · intro hp
    obtain ⟨q, hq⟩ := hi.settled.queued _ p hp (fun e => e)
    exact ⟨q, hi.core.queued_iff.mpr hq⟩
  · exact fun ⟨q, hq⟩ => (hi.core.queued hq).isPage

theorem Core.onPage_iff (hc : Core g h live) (hq : h.Queued q p) {i : Nat} :
    h.OnPage p i ↔ g.place i = .page p := by
  have hin := hc.queued hq
  unfold Heap.OnPage
  rw [kind_eq hin, hin.slices]
  rfl

theorem Core.onRun_iff (hc : Core g h live) {blk : Block} (hm : blk ∈ live) {i : Nat} :
    OnRun blk i ↔ classify blk.layout = .huge ∧ g.place i = .run blk.addr := by
  unfold OnRun
  refine and_congr_right fun hclass => ?_
  exact (((hc.blocks.block blk hm).run hclass).2 i).symm

theorem Core.freeList (hc : Core g h live) (hq : h.Queued q p) :
    Page.FreeList h.bytes p (g.free p) :=
  (freeList_iff (hc.queued hq)).mpr rfl

theorem Core.block_eq (hc : Core g h live) (hq : h.Queued q p) (i : Nat) :
    Page.block p (g.bin p) i = p + h.field p .blockStart + i * h.field p .blockSize := by
  have hok := (hc.queued hq).ok
  unfold Heap.field
  rw [hok.blockStart, hok.blockSize]
  rfl

end Core

omit [Build] in
theorem apart_of {a n c k : Nat} (hn : 1 ≤ n) (hk : 1 ≤ k)
    (h : ∀ x, a ≤ x → x < a + n → c ≤ x → x < c + k → False) : Apart a n c k := by
  unfold Apart
  by_contra hcon
  exact h (max a c) (by omega) (by omega) (by omega) (by omega)

end Wasmalloc
