import Wasmalloc.QueueLists

/- All queues of a heap at once.

   `QueuesOk` says that every queue is well formed and what its members satisfy, and
   that the direct table and the occupancy word agree with the queue heads. `remove`,
   `pushFront` and `pushBack` keep it: on the lists they are what `QueueLists` says, and
   the members are pages of their bin as before. -/
namespace Wasmalloc
open ByteMem Words

variable [Build]

/-- What a page in queue `q` satisfies: it is in the queue of its bin, or it is flagged
    full and in the full queue. -/
structure Member (g : Ghost) (b : Bytes) (q p : Nat) : Prop where
  addr : PageAddr p
  page : IsPage g p
  bin_pos : 1 ≤ g.bin p
  bin_le : g.bin p ≤ maxBin
  home : (q = g.bin p ∧ Page.get b p .flags = 0) ∨
    (q = fullQueue ∧ Page.get b p .flags = flagInFullQueue)

structure QueuesOk (g : Ghost) (b : Bytes) (queues : Nat → PageQueue) (direct : Nat → Nat)
    (occupied : U64) : Prop where
  queue : ∀ q < queueCount, QueueOk b (queues q) (g.queue q)
  member : ∀ q, ∀ p ∈ g.queue q, Member g b q p
  disjoint : ∀ q r p, p ∈ g.queue q → p ∈ g.queue r → q = r
  direct_eq : ∀ i < directEntries, direct i = (g.queue (bin (i * word))).headD emptyPage
  occupied_iff : ∀ q < queueCount, occupied.getLsbD q = true ↔ g.queue q ≠ []

theorem Member.lt {g : Ghost} {b : Bytes} {q p : Nat} (h : Member g b q p) : q < queueCount := by
  have hle := h.bin_le
  have hfull := maxBin_lt_full
  have hlt := full_lt
  rcases h.home with ⟨hq, -⟩ | ⟨hq, -⟩ <;> omega

section QueuesOk
variable {g : Ghost} {b c : Bytes} {queues : Nat → PageQueue} {direct : Nat → Nat} {occupied : U64}

theorem QueuesOk.addr (h : QueuesOk g b queues direct occupied) {q : Nat} :
    ∀ p ∈ g.queue q, PageAddr p := fun p hp => (h.member q p hp).addr

theorem QueuesOk.lt (h : QueuesOk g b queues direct occupied) {q p : Nat} (hp : p ∈ g.queue q) :
    q < queueCount := (h.member q p hp).lt

/-- The queues depend on the bytes through links and flags of their members only. -/
theorem QueuesOk.congr (h : QueuesOk g b queues direct occupied)
    (hget : ∀ q, ∀ p ∈ g.queue q, ∀ f : Page.Field, f.heapOwned = true → f ≠ .retireExpire →
      Page.get c p f = Page.get b p f) : QueuesOk g c queues direct occupied := by
  refine { h with queue := ?_, member := ?_ }
  · intro q hq
    exact (h.queue q hq).congr fun x hx =>
      ⟨hget q x hx _ rfl (by decide), hget q x hx _ rfl (by decide)⟩
  · intro q p hp
    have hm := h.member q p hp
    exact { hm with home := by rw [hget q p hp _ rfl (by decide)]; exact hm.home }

end QueuesOk

/-! ## The primitives keep `QueuesOk` -/

omit [Build] in
/-- The same ghost state with other members in queue `qi`. -/
def Ghost.withQueue (g : Ghost) (qi : Nat) (l : List Nat) : Ghost :=
  { g with queue := Function.update g.queue qi l }

/-- Stores into the heap-owned fields of page headers. -/
structure LinkEdit (g : Ghost) (b c : Bytes) : Prop where
  outside : ∀ x, (∀ p, PageAddr p → IsPage g p → x < p ∨ p + Page.size ≤ x) → c x = b x
  fields : ∀ p, PageAddr p → ∀ f : Page.Field, f.heapOwned = false → Page.get c p f = Page.get b p f

theorem LinkEdit.trans {g : Ghost} {b c d : Bytes} (h : LinkEdit g b c) (h' : LinkEdit g c d) :
    LinkEdit g b d where
  outside := fun x hx => by rw [h'.outside x hx, h.outside x hx]
  fields := fun p hp f hf => by rw [h'.fields p hp f hf, h.fields p hp f hf]

section Primitives
variable {M : Type} {g : Ghost} {h : Heap M} {qi p : Nat}

/-- What a link primitive does to the bytes and to the queues. -/
structure Relinked (g g' : Ghost) (h h' : Heap M) : Prop where
  ok : QueuesOk g' h'.bytes h'.queues h'.direct h'.occupied
  edit : LinkEdit g h.bytes h'.bytes
  kept : ∀ x, PageAddr x → Page.get h'.bytes x .flags = Page.get h.bytes x .flags ∧
    Page.get h'.bytes x .retireExpire = Page.get h.bytes x .retireExpire
  frame : h' = { h with bytes := h'.bytes, queues := h'.queues, direct := h'.direct,
                        occupied := h'.occupied }

theorem QueuesOk.represents (hq : QueuesOk g h.bytes h.queues h.direct h.occupied) :
    Represents h g.queue where
  lt := fun _ _ hp => hq.lt hp
  addr := fun _ => hq.addr
  disjoint := hq.disjoint
  queue := hq.queue
  direct_eq := hq.direct_eq
  occupied_iff := hq.occupied_iff

/-- An operation on the lists, for queues whose members are pages of their bin: `p` is one
    that belongs into queue `qi`. -/
theorem Relisted.relinked {h' : Heap M} {l : List Nat}
    (r : Relisted h h' (Function.update g.queue qi l) [qi] (p :: g.queue qi) [])
    (hq : QueuesOk g h.bytes h.queues h.direct h.occupied) (hm : Member g h.bytes qi p)
    (hl : ∀ x ∈ l, x = p ∨ x ∈ g.queue qi) : Relinked g (g.withQueue qi l) h h' := by
  have hfields : ∀ y, PageAddr y → ∀ f : Page.Field, f ≠ .next → f ≠ .prev →
      Page.get h'.bytes y f = Page.get h.bytes y f := fun y hy f h1 h2 =>
    r.fields y hy f h1 h2 fun _ => List.not_mem_nil
  have hmember : ∀ t, ∀ x ∈ Function.update g.queue qi l t, Member g h.bytes t x := by
    intro t x hx
    by_cases he : t = qi
    · rw [he, Function.update_self] at hx
      rw [he]
      rcases hl x hx with rfl | hx
      · exact hm
      · exact hq.member qi x hx
    · rw [Function.update_of_ne he] at hx
      exact hq.member t x hx
  refine { ok := ?_, edit := ?_, kept := ?_, frame := r.frame }
  · refine { queue := r.represents.queue, member := ?_, disjoint := r.represents.disjoint
             direct_eq := r.represents.direct_eq, occupied_iff := r.represents.occupied_iff }
    intro t x hx
    have hmt := hmember t x hx
    exact { addr := hmt.addr, page := hmt.page, bin_pos := hmt.bin_pos, bin_le := hmt.bin_le
            home := by
              rw [hfields x hmt.addr _ (by decide) (by decide)]
              exact hmt.home }
  · refine { outside := ?_, fields := ?_ }
    · intro x hx
      refine r.bytes x (fun y hy hlink => ?_) fun y hy => absurd hy List.not_mem_nil
      have hmy : Member g h.bytes qi y := by
        rcases List.mem_cons.mp hy with rfl | hy
        · exact hm
        · exact hq.member qi y hy
      have hout := hx y hmy.addr hmy.page
      obtain ⟨hlo, hhi⟩ := hlink
      omega
    · intro y hy f hf
      exact hfields y hy f (fun e => by rw [e] at hf; cases hf) (fun e => by rw [e] at hf; cases hf)
  · exact fun y hy => ⟨hfields y hy _ (by decide) (by decide), hfields y hy _ (by decide) (by decide)⟩

theorem remove_ok (hq : QueuesOk g h.bytes h.queues h.direct h.occupied) (hp : p ∈ g.queue qi) :
    Relinked g (g.withQueue qi ((g.queue qi).erase p)) h (h.remove qi p) :=
  (hq.represents.remove hp).relinked hq (hq.member qi p hp) fun _ hx =>
    Or.inr (List.mem_of_mem_erase hx)

theorem pushFront_ok (hq : QueuesOk g h.bytes h.queues h.direct h.occupied)
    (hm : Member g h.bytes qi p) (hnew : ∀ r, p ∉ g.queue r) :
    Relinked g (g.withQueue qi (p :: g.queue qi)) h (h.pushFront qi p) :=
  (hq.represents.pushFront hm.lt hm.addr hnew).relinked hq hm fun _ hx => List.mem_cons.mp hx

theorem pushBack_ok (hq : QueuesOk g h.bytes h.queues h.direct h.occupied)
    (hm : Member g h.bytes qi p) (hnew : ∀ r, p ∉ g.queue r) :
    Relinked g (g.withQueue qi (g.queue qi ++ [p])) h (h.pushBack qi p) := by
  refine (hq.represents.pushBack hm.lt hm.addr hnew).relinked hq hm fun x hx => ?_
  rcases List.mem_append.mp hx with hx | hx
  · exact Or.inr hx
  · exact Or.inl (List.mem_singleton.mp hx)

end Primitives

end Wasmalloc
