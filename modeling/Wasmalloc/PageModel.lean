import Wasmalloc.PageInv
import Wasmalloc.Lib.Pool
import Wasmalloc.Lib.Run

/- A page as a stack of blocks below a watermark.

   `Pool` says what a page is for: the blocks below the watermark are on a stack or
   handed out, and the stack is refilled with the next ones. The page keeps the stack
   inside the free blocks themselves, among blocks the program writes. `Lockstep` runs
   the page and the pool side by side; in every state a run can reach they answer alike
   (`refines_pool`), whatever the memory held when the page was initialised. -/
namespace Wasmalloc
open ByteMem

section
variable [Build]

namespace Page

/-- Pop a block, linking the next batch when the list is empty. -/
def popExtended (b : Bytes) (page : Nat) : Option Nat × Bytes :=
  match pop b page with
  | (some a, b) => (some a, b)
  | (none, b) => if (extend b page).1 then pop (extend b page).2 page else (none, b)

/-- Pop with extension until it fails. -/
def drain (page : Nat) : Nat → Bytes → List Nat × Bytes
  | 0, b => ([], b)
  | fuel + 1, b =>
    match popExtended b page with
    | (none, b) => ([], b)
    | (some a, b) => (a :: (drain page fuel b).1, (drain page fuel b).2)

/-! ## The page and the pool side by side -/

inductive Op where
  | pop
  | extend
  | push (block : Nat)
  | write (bytes : Bytes)

/-- The memory, the blocks popped and not yet pushed back, and the model. -/
structure Lockstep (n : Nat) where
  bytes : Bytes
  out : List Nat
  pool : Pool (reservedOf n)

/-- The most blocks one extension of a page of bin `n` links. -/
def mostLinked (n : Nat) : Nat := max 1 (maxExtendSize / binSize n)

namespace Lockstep
variable {n : Nat}

def step (p : Nat) (s : Lockstep n) : Op → Lockstep n
  | .pop =>
    { bytes := (pop s.bytes p).2, out := (pop s.bytes p).1.toList ++ s.out, pool := s.pool.pop.2 }
  | .extend => { s with bytes := (extend s.bytes p).2, pool := (s.pool.extend (mostLinked n)).2 }
  | .push a =>
    { bytes := push s.bytes p a, out := s.out.erase a
      pool := (blockIndex s.bytes p a).elim s.pool s.pool.push }
  | .write bytes => { s with bytes := bytes }

/-- Only blocks that are out are pushed, and of the page only they are written. -/
def Allowed (p : Nat) (s : Lockstep n) : Op → Prop
  | .pop => True
  | .extend => True
  | .push a => a ∈ s.out
  | .write bytes => ∀ x, p ≤ x → x < p + (kindOfBin n).pageSize →
      ¬ InBlocks (binSize n) s.out x → bytes x = s.bytes x

/-- The runs of a page of bin `n` at `p`, initialised over any memory. -/
def system (n p : Nat) (zeroed : Bool) : Run.System (Lockstep n) Op :=
  { init := fun s => ∃ b, s =
      { bytes := init b p (kindOfBin n) n zeroed, out := [], pool := Pool.empty (reservedOf n) }
    allowed := Allowed p
    step := step p }

/-- The free list is the model's stack, and the watermarks are equal. -/
structure Represents (p : Nat) (s : Lockstep n) : Prop where
  shape : PageShape s.bytes p n (s.pool.stack.map (block p n)) s.out
  capacity : get s.bytes p .capacity = s.pool.capacity

section Represents
variable {p : Nat} {s : Lockstep n}

theorem Represents.out_iff (h : Represents p s) {i : Nat} :
    block p n i ∈ s.out ↔ i ∈ s.pool.live := by
  have hinj : ∀ {j}, block p n i = block p n j → i = j := fun e =>
    block_inj h.shape.bin_pos h.shape.bin_le e
  obtain ⟨-, -, hdisj⟩ := List.nodup_append.mp h.shape.nodup
  constructor
  · intro hout
    obtain ⟨j, hj, hij⟩ := h.shape.mem_block (List.mem_append_right _ hout)
    obtain rfl := hinj hij.symm
    rw [h.capacity, ← s.pool.mem_iff] at hj
    refine hj.resolve_left fun hstack => ?_
    exact hdisj _ (List.mem_map_of_mem hstack) _ hout rfl
  · intro hlive
    have hlt := (s.pool.mem_iff i).mp (Or.inr hlive)
    rw [← h.capacity] at hlt
    have hmem := h.shape.blocks.mem_iff.mpr (mem_blocks.mpr ⟨i, hlt, rfl⟩)
    refine (List.mem_append.mp hmem).resolve_left fun hstack => ?_
    obtain ⟨j, hj, hij⟩ := List.mem_map.mp hstack
    obtain rfl := hinj hij.symm
    exact s.pool.disjoint _ hj hlive

theorem Represents.used (h : Represents p s) : get s.bytes p .used = s.pool.live.card := by
  have hlen := h.shape.blocks.length_eq
  have hpool := s.pool.length_add_card
  simp only [Page.blocks, List.length_append, List.length_map, List.length_range] at hlen
  rw [h.shape.used]
  rw [h.capacity] at hlen
  omega

theorem Represents.pop (h : Represents p s) :
    (Page.pop s.bytes p).1 = s.pool.pop.1.map (block p n) ∧ Represents p (s.step p .pop) := by
  have hshape := h.shape
  cases hstack : s.pool.stack with
  | nil =>
    rw [hstack] at hshape
    unfold step
    rw [pop_none hshape, Pool.pop_nil hstack]
    exact ⟨rfl, h⟩
  | cons i rest =>
    rw [hstack, List.map_cons] at hshape
    obtain ⟨hreply, hrest, -, hcap⟩ := Pool.pop_cons hstack
    obtain ⟨hpop, hshape'⟩ := pop_shape hshape
    unfold step
    rw [hpop, hreply]
    refine ⟨rfl, { shape := ?_, capacity := ?_ }⟩
    · rw [hrest]
      exact hshape'
    · rw [hcap]
      exact (get_popped (by decide) (by decide)).trans h.capacity

theorem Represents.extend (h : Represents p s) :
    (Page.extend s.bytes p).1 = (s.pool.extend (mostLinked n)).1 ∧
      Represents p (s.step p .extend) := by
  have hle := s.pool.capacity_le
  by_cases hfull : s.pool.capacity = reservedOf n
  · have hfull' : reservedOf n ≤ get s.bytes p .capacity := by
      rw [h.capacity]
      exact Nat.le_of_eq hfull.symm
    unfold step
    rw [extend_false hfull' h.shape, Pool.extend_full _ hfull]
    exact ⟨rfl, h⟩
  · obtain ⟨hreply, hcap, hstack, -⟩ := Pool.extend_room (mostLinked n) hfull
    obtain ⟨c, hext, hx, hshape⟩ := extend_shape h.shape (by rw [h.capacity]; omega)
    unfold extensionOf at hshape
    rw [h.capacity] at hx hshape
    unfold step
    rw [hext, hreply]
    refine ⟨rfl, { shape := ?_, capacity := ?_ }⟩
    · rw [hstack, List.map_append]
      exact hshape
    · rw [hcap]
      exact hx.capacity.trans (by rw [h.capacity]; rfl)

theorem Represents.push (h : Represents p s) {a : Nat} (ha : a ∈ s.out) :
    Represents p (s.step p (.push a)) := by
  obtain ⟨i, hi, rfl⟩ := h.shape.mem_block (List.mem_append_right _ ha)
  obtain ⟨hstack, -, hcap⟩ := Pool.push_live (h.out_iff.mp ha)
  have hinside := h.shape.inside (List.mem_append_right _ ha)
  have hsize := size_le
  have hstep : s.step p (.push (block p n i)) =
      { bytes := Page.push s.bytes p (block p n i), out := s.out.erase (block p n i)
        pool := s.pool.push i } := by
    simp only [Lockstep.step, h.shape.blockIndex_block hi, Option.elim_some]
  rw [hstep]
  refine { shape := ?_, capacity := ?_ }
  · simp only
    rw [hstack, List.map_cons]
    exact push_shape h.shape (List.perm_cons_erase ha)
  · simp only
    rw [hcap, get_push (by omega) (by decide) (by decide) (by decide), h.capacity]

theorem Represents.write (h : Represents p s) {bytes : Bytes} (hw : s.Allowed p (.write bytes)) :
    Represents p (s.step p (.write bytes)) := by
  have hsize := size_le
  have hpage : pageHeaderReserve ≤ (kindOfBin n).pageSize := by
    cases kindOfBin n <;> decide
  have hget : ∀ f, get bytes p f = get s.bytes p f := by
    intro f
    refine get_congr fun x hx hx' => hw x hx (by omega) fun ⟨a, ha, hax, _⟩ => ?_
    -- Blocks lie behind the header.
    have := h.shape.inside (List.mem_append_right _ ha)
    omega
  refine { shape := ?_, capacity := (hget _).trans h.capacity }
  exact h.shape.congr (fun f _ => hget f) fun x hx hx' hout => hw x (by omega) hx' hout

theorem Represents.step (h : Represents p s) {op : Op} (hop : s.Allowed p op) :
    Represents p (s.step p op) := by
  cases op with
  | pop => exact h.pop.2
  | extend => exact h.extend.2
  | push a => exact h.push hop
  | write bytes => exact h.write hop

theorem represents_init {zeroed : Bool} {b : Bytes} (hn : 1 ≤ n) (hn' : n ≤ maxBin)
    (hp : (kindOfBin n).pageSize ∣ p) (hend : p + (kindOfBin n).pageSize ≤ usizeSize) :
    Represents p { bytes := init b p (kindOfBin n) n zeroed, out := [],
                   pool := Pool.empty (reservedOf n) } :=
  { shape := init_shape hn hn' hp hend, capacity := get_init hn hn' _ }

end Represents
end Lockstep

/-! ## Popping with extension -/

section Drain
variable {b : Bytes} {p n : Nat} {fl lv : List Nat}

theorem popExtended_spec (h : PageShape b p n fl lv) :
    (∃ a c fl', popExtended b p = (some a, c) ∧ PageShape c p n fl' (a :: lv)) ∨
    (popExtended b p = (none, b) ∧ lv.Perm (blocks p n (reservedOf n))) := by
  unfold popExtended
  cases fl with
  | cons a fl =>
    obtain ⟨hpop, hshape⟩ := pop_shape h
    rw [hpop]
    exact Or.inl ⟨a, _, fl, rfl, hshape⟩
  | nil =>
    rw [pop_none h]
    by_cases hfull : reservedOf n ≤ get b p .capacity
    · simp only [extend_false hfull h]
      refine Or.inr ⟨rfl, ?_⟩
      have hblocks := h.blocks
      rwa [Nat.le_antisymm h.capacity_le hfull] at hblocks
    · obtain ⟨c, hext, hx, hshape⟩ := extend_shape h (Nat.lt_of_not_le hfull)
      simp only [hext, if_true]
      obtain ⟨k, hk⟩ : ∃ k, batch n (get b p .capacity) = k + 1 :=
        ⟨_, (Nat.sub_add_cancel hx.count_pos).symm⟩
      unfold extensionOf at hshape
      rw [hk, List.range'_succ, List.map_cons, List.cons_append] at hshape
      obtain ⟨hpop, hshape'⟩ := pop_shape hshape
      exact Or.inl ⟨_, _, _, hpop, hshape'⟩

/-- **Popping with extension hands out every block that is not live**, once, and then fails. -/
theorem drain_spec {fuel : Nat} : ∀ {b : Bytes} {fl lv : List Nat}, PageShape b p n fl lv →
    reservedOf n ≤ lv.length + fuel →
    ((drain p fuel b).1 ++ lv).Perm (blocks p n (reservedOf n)) ∧
      (popExtended (drain p fuel b).2 p).1 = none := by
  induction fuel with
  | zero =>
    intro b fl lv h hfuel
    rcases popExtended_spec h with ⟨a, c, fl', -, hshape⟩ | ⟨hnone, hperm⟩
    · have hle := hshape.used_le
      have hcap := hshape.capacity_le
      simp only [List.length_cons] at hle
      omega
    · exact ⟨hperm, by rw [drain, hnone]⟩
  | succ fuel ih =>
    intro b fl lv h hfuel
    rw [drain]
    rcases popExtended_spec h with ⟨a, c, fl', hpop, hshape⟩ | ⟨hnone, hperm⟩
    · rw [hpop]
      obtain ⟨hperm, hnone⟩ := ih hshape (by simp only [List.length_cons]; omega)
      exact ⟨List.perm_middle.symm.trans hperm, hnone⟩
    · rw [hnone]
      exact ⟨hperm, by rw [hnone]⟩

end Drain

/-! ## The page refines the pool -/

namespace Lockstep
variable {n p : Nat}

/-- The page answers as the pool does. -/
structure Agrees (p : Nat) (s : Lockstep n) : Prop where
  pop : (Page.pop s.bytes p).1 = s.pool.pop.1.map (block p n)
  pop_none : (Page.pop s.bytes p).1 = none ↔ s.pool.stack = []
  extend : (Page.extend s.bytes p).1 = (s.pool.extend (mostLinked n)).1
  extend_false : (Page.extend s.bytes p).1 = false ↔
    get s.bytes p .capacity = get s.bytes p .reserved
  head : get s.bytes p .free = (s.pool.stack.map (block p n)).headD 0
  links : Links.Chain (loadWord s.bytes) 0 (s.pool.stack.map (block p n))
  out : s.out.Nodup ∧ ∀ a, a ∈ s.out ↔ ∃ i ∈ s.pool.live, block p n i = a
  partition : (∀ i, i ∈ s.pool.stack ∨ i ∈ s.pool.live ↔ i < get s.bytes p .capacity) ∧
    ∀ i ∈ s.pool.stack, i ∉ s.pool.live
  used : get s.bytes p .used = s.pool.live.card
  capacity : get s.bytes p .capacity = s.pool.capacity
  reserved : get s.bytes p .reserved = reservedOf n
  counts : get s.bytes p .used ≤ get s.bytes p .capacity ∧
    get s.bytes p .capacity ≤ get s.bytes p .reserved
  drains : ((drain p (reservedOf n) s.bytes).1 ++ s.out).Perm (blocks p n (reservedOf n)) ∧
    (popExtended (drain p (reservedOf n) s.bytes).2 p).1 = none

theorem Represents.agrees {s : Lockstep n} (h : Represents p s) : s.Agrees p := by
  have hused := h.used
  have hcard := s.pool.card_le
  refine { pop := h.pop.1, pop_none := ?_, extend := h.extend.1, extend_false := ?_,
           head := h.shape.head, links := h.shape.chain, out := ⟨?_, ?_⟩,
           partition := ⟨h.capacity ▸ s.pool.mem_iff, s.pool.disjoint⟩, used := hused,
           capacity := h.capacity, reserved := h.shape.reserved, counts := ⟨?_, ?_⟩,
           drains := drain_spec h.shape (Nat.le_add_left _ _) }
  · rw [h.pop.1]
    cases hstack : s.pool.stack with
    | nil => simp [Pool.pop_nil hstack]
    | cons i rest => simp [(Pool.pop_cons hstack).1]
  · rw [h.extend.1, h.capacity, h.shape.reserved]
    by_cases hfull : s.pool.capacity = reservedOf n
    · simp [Pool.extend_full _ hfull, hfull]
    · simp [(Pool.extend_room (mostLinked n) hfull).1, hfull]
  · exact (List.nodup_append.mp h.shape.nodup).2.1
  · intro a
    constructor
    · intro ha
      obtain ⟨i, -, rfl⟩ := h.shape.mem_block (List.mem_append_right _ ha)
      exact ⟨i, h.out_iff.mp ha, rfl⟩
    · rintro ⟨i, hi, rfl⟩
      exact h.out_iff.mpr hi
  · rw [hused, h.capacity]
    exact hcard
  · rw [h.shape.reserved]
    exact h.shape.capacity_le

/-- **A page refines the pool.** Whatever the memory held when it was initialised, and
    whatever the program writes into the blocks it holds, the page pops, pushes and extends
    as the pool does. -/
theorem refines_pool {zeroed : Bool} (hn : 1 ≤ n) (hn' : n ≤ maxBin)
    (hp : (kindOfBin n).pageSize ∣ p) (hend : p + (kindOfBin n).pageSize ≤ usizeSize)
    {s : Lockstep n} (hs : Run.Reachable (system n p zeroed) s) :
    s.Agrees p := by
  have hrep : Represents p s := by
    refine hs.invariant (I := Represents p) ?_ fun s op h hop => h.step hop
    rintro s ⟨b, rfl⟩
    exact represents_init hn hn' hp hend
  exact hrep.agrees

end Lockstep
end Page

end

namespace Sample
open Page.Lockstep

/-- A page of 40 KiB blocks over stale memory, of which one block is popped. -/
def page : Page.Lockstep 45 :=
  { bytes := Page.init (fun _ => 255) 262144 (kindOfBin 45) 45 true, out := []
    pool := Pool.empty (Page.reservedOf 45) }

def popped : Page.Lockstep 45 := (page.step 262144 .extend).step 262144 .pop

theorem refines_pool_popped : popped.out = [262144 + 4096] ∧ popped.Agrees 262144 := by
  have hinit : Run.Reachable (system 45 262144 true) page := .init ⟨_, rfl⟩
  have hext : Run.Reachable (system 45 262144 true) (page.step 262144 .extend) :=
    Run.Reachable.step (S := system 45 262144 true) (e := .extend) hinit trivial
  have hpop : Run.Reachable (system 45 262144 true) popped :=
    Run.Reachable.step (S := system 45 262144 true) (e := .pop) hext trivial
  refine ⟨by decide +kernel, ?_⟩
  exact refines_pool (by decide) (by decide) (by decide) (by decide) hpop

end Sample

end Wasmalloc
