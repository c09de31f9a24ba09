import Wasmalloc.Heap
import Mathlib.Data.List.Perm.Subperm

/- Shelves: how long the queues keep an empty page.

   An abstract account of the queues, without memory: each bin has a shelf of pages, each
   page a card that tells how many of its blocks are out and how many collections it has
   left. The moves are what the heap does to them between two states of a run; a
   collection ages the first cards of each shelf of the retired range.

   `Kept` bounds what is retained: an empty page carries a countdown, and a shelf has few
   of them. `Due` follows one page that was put on its countdown: until the page is used
   again or released it stays in the window and in the range of the collections, and falls
   due at a fixed one. -/
namespace Wasmalloc

/-! ## Windows of a list -/

section Lists
variable {α : Type} {x y : α} {l l' pre suf : List α} {n : Nat}

theorem mem_take_iff : x ∈ l.take n ↔ ∃ pre suf, l = pre ++ x :: suf ∧ pre.length < n := by
  constructor
  · intro hx
    obtain ⟨pre, suf, hsplit⟩ := List.append_of_mem hx
    refine ⟨pre, suf ++ l.drop n, ?_, ?_⟩
    · calc l = l.take n ++ l.drop n := (List.take_append_drop n l).symm
        _ = pre ++ x :: (suf ++ l.drop n) := by rw [hsplit, List.append_assoc, List.cons_append]
    · have hlen := List.length_take_le n l
      rw [hsplit, List.length_append, List.length_cons] at hlen
      omega
  · rintro ⟨pre, suf, rfl, hlt⟩
    obtain ⟨k, hk⟩ : ∃ k, n - pre.length = k + 1 := ⟨n - pre.length - 1, by omega⟩
    rw [List.take_append, hk, List.take_succ_cons]
    simp

theorem mem_take_of_sublist (hnd : l.Nodup) (hsub : l'.Sublist l) (hx : x ∈ l.take n)
    (hx' : x ∈ l') : x ∈ l'.take n := by
  obtain ⟨pre, suf, rfl, hlt⟩ := mem_take_iff.mp hx
  obtain ⟨hpre, hcons, hap⟩ := List.nodup_append.mp hnd
  obtain ⟨a, b, rfl, ha, hb⟩ := List.sublist_append_iff.mp hsub
  have hxb : x ∈ b := by
    refine (List.mem_append.mp hx').resolve_left fun hxa => ?_
    exact hap x (ha.subset hxa) x List.mem_cons_self rfl
  cases hb with
  | cons _ hb => exact absurd (hb.subset hxb) (List.nodup_cons.mp hcons).1
  | cons_cons _ hb => exact mem_take_iff.mpr ⟨a, _, rfl, lt_of_le_of_lt ha.length_le hlt⟩

theorem mem_take_front (hx : x ∈ (pre ++ y :: suf).take n) (hne : x ≠ y) (hpre : x ∉ pre) :
    x ∈ (y :: (pre ++ suf)).take n := by
  rw [List.take_append] at hx
  replace hx := (List.mem_append.mp hx).resolve_left fun h => hpre (List.mem_of_mem_take h)
  obtain ⟨k, hk⟩ : ∃ k, n - pre.length = k + 1 := by
    refine ⟨n - pre.length - 1, ?_⟩
    by_contra hcon
    have h0 : n - pre.length = 0 := by omega
    rw [h0, List.take_zero] at hx
    cases hx
  rw [hk, List.take_succ_cons] at hx
  replace hx := (List.mem_cons.mp hx).resolve_left hne
  obtain ⟨m, rfl⟩ : ∃ m, n = m + 1 := ⟨n - 1, by omega⟩
  rw [List.take_succ_cons, List.take_append, show m - pre.length = k by omega]
  exact List.mem_cons_of_mem _ (List.mem_append_right _ hx)

end Lists

/-! ## Shelves -/

/-- What the header of a page tells: blocks out, blocks ever made, collections left. -/
structure Card where
  used : Nat
  capacity : Nat
  expire : Nat

/-- The same card, but for blocks added to the page. -/
structure Card.Same (c c' : Card) : Prop where
  used : c'.used = c.used
  capacity : c.capacity ≤ c'.capacity
  expire : c'.expire = c.expire

/-- The pages on the shelf of each bin and on that of the full pages, and the range of
    shelves a collection looks at. -/
structure Shelves where
  queue : Nat → List Nat
  card : Nat → Card
  lo : Nat
  hi : Nat
  collections : Nat
  nodup : ∀ q, (queue q).Nodup
  disjoint : ∀ q r p, p ∈ queue q → p ∈ queue r → q = r
  home : ∀ q p, p ∈ queue q → q ≤ maxBin ∨ q = fullQueue
  used_le : ∀ q, ∀ p ∈ queue q, (card p).used ≤ (card p).capacity
  full : ∀ p ∈ queue fullQueue, (card p).used ≠ 0 ∧ (card p).expire = 0

/-- The countdowns a shelf may hold. -/
def retireLimit (q : Nat) : Nat := if binSize q < directMaxSize then retireMaxPages else 1

/-- The countdown of a page whose blocks have `size` bytes. -/
def cyclesOf (size : Nat) : Nat := if size ≤ smallMaxObjSize then retireCycles else retireCycles / 4

theorem cyclesOf_pos (size : Nat) : cyclesOf size ≠ 0 := by
  unfold cyclesOf
  split <;> decide

theorem cyclesOf_le (size : Nat) : cyclesOf size ≤ retireCycles := by
  unfold cyclesOf
  split <;> decide

namespace Shelves

/-- The pages of a list that carry a countdown. -/
def ticking (s : Shelves) (l : List Nat) : Nat := l.countP fun p => decide ((s.card p).expire ≠ 0)

/-- The range and the number of collections are the same. -/
structure SameRange (s s' : Shelves) : Prop where
  lo : s'.lo = s.lo
  hi : s'.hi = s.hi
  collections : s'.collections = s.collections

/-- The cards of the pages in the bins are the same, but for that of `but`. -/
def SameCards (s s' : Shelves) (but : Nat → Prop) : Prop :=
  ∀ q ≤ maxBin, ∀ p ∈ s'.queue q, ¬ but p → (s.card p).Same (s'.card p)

/-! ### Moves -/

/-- Pages leave the bins. -/
structure Thins (s s' : Shelves) : Prop where
  queue : ∀ q ≤ maxBin, (s'.queue q).Sublist (s.queue q)
  card : SameCards s s' fun _ => False
  range : SameRange s s'

/-- A collection: the empty pages in the window of the range get one step older. -/
structure Ages (s s' : Shelves) : Prop where
  queue : ∀ q ≤ maxBin, (s'.queue q).Sublist (s.queue q)
  used : ∀ q ≤ maxBin, ∀ p ∈ s'.queue q, (s'.card p).used = (s.card p).used
  capacity : ∀ q ≤ maxBin, ∀ p ∈ s'.queue q, (s.card p).capacity ≤ (s'.card p).capacity
  expire : ∀ q ≤ maxBin, ∀ p ∈ s'.queue q, (s'.card p).expire ≤ (s.card p).expire
  expired : ∀ q ≤ maxBin, ∀ p ∈ s'.queue q, (s.card p).used = 0 → (s.card p).expire ≠ 0 →
    (s'.card p).expire ≠ 0
  tick : ∀ q ≤ maxBin, s.lo ≤ q → q ≤ s.hi → ∀ p ∈ (s.queue q).take retireMaxPages,
    (s.card p).used = 0 → (s.card p).expire ≠ 0 → p ∈ s'.queue q →
      (s'.card p).expire + 1 = (s.card p).expire ∧ s'.lo ≤ q ∧ q ≤ s'.hi
  collections : s'.collections = s.collections + 1

/-- After a release every page is in use, and carries no countdown. -/
structure Quiets (s s' : Shelves) : Prop where
  mem : ∀ q ≤ maxBin, ∀ p ∈ s'.queue q, p ∈ s.queue q
  quiet : ∀ q, ∀ p ∈ s'.queue q, (s'.card p).used ≠ 0 ∧ (s'.card p).expire = 0
  collections : s'.collections = s.collections

/-- What the heap does between the calls of the program. -/
inductive Move (s s' : Shelves) : Prop where
  | thins : Thins s s' → Move s s'
  | ages : Ages s s' → Move s s'
  | quiets : Quiets s s' → Move s s'

def Moves : Shelves → Shelves → Prop := Relation.ReflTransGen Move

/-- The shelves of the other bins stay. -/
def Elsewhere (s s' : Shelves) (q : Nat) : Prop := ∀ r ≤ maxBin, r ≠ q → s'.queue r = s.queue r

/-- A page is found for bin `q`: one behind pages without a free block goes to the front
    and loses its countdown, or the shelf is empty and gets a fresh page. -/
inductive Opens (s s' : Shelves) (q p : Nat) : Prop where
  | candidate (pre suf : List Nat) (split : s.queue q = pre ++ p :: suf)
    (front : s'.queue q = p :: (pre ++ suf)) (out : ∀ x ∈ pre, (s.card x).used = (s.card x).capacity)
    (capacity : (s.card p).capacity ≤ (s'.card p).capacity) (expire : (s'.card p).expire = 0) :
    Opens s s' q p
  | fresh (empty : s.queue q = []) (only : s'.queue q = [p]) (capacity : 1 ≤ (s'.card p).capacity)
    (expire : (s'.card p).expire = 0) : Opens s s' q p

/-- A page of bin `q` is found, and nothing else changes. -/
structure Finds (s s' : Shelves) (q p : Nat) : Prop where
  bin : q ≤ maxBin
  opens : Opens s s' q p
  elsewhere : Elsewhere s s' q
  card : SameCards s s' fun x => x = p
  range : SameRange s s'

/-- A block of `p` is handed out. -/
structure Pops (s s' : Shelves) (q p : Nat) : Prop where
  bin : q ≤ maxBin
  mem : p ∈ s.queue q
  queue : ∀ r ≤ maxBin, s'.queue r = s.queue r
  card : SameCards s s' fun x => x = p
  used : (s'.card p).used = (s.card p).used + 1
  capacity : (s.card p).capacity ≤ (s'.card p).capacity
  expire : (s'.card p).expire = (s.card p).expire
  range : SameRange s s'

/-- A call that hands out a block, or none. -/
inductive Serves (s s' : Shelves) : Prop where
  | moves : Moves s s' → Serves s s'
  | pops (q p : Nat) (m n : Shelves) : Moves s m → Pops m n q p → Moves n s' → Serves s s'
  | finds (q p : Nat) (m n k : Shelves) : Moves s m → Finds m n q p → Pops n k q p → Moves k s' →
    Serves s s'

/-- A block comes back to `p`, which returns to the end of its shelf if it was full. -/
structure Returns (s s' : Shelves) (q p : Nat) : Prop where
  bin : q ≤ maxBin
  queue : (p ∈ s.queue q ∧ s'.queue q = s.queue q) ∨
    (p ∈ s.queue fullQueue ∧ s'.queue q = s.queue q ++ [p])
  elsewhere : Elsewhere s s' q
  card : SameCards s s' fun x => x = p
  used : (s'.card p).used + 1 = (s.card p).used
  capacity : (s.card p).capacity ≤ (s'.card p).capacity
  expire : (s'.card p).expire = (s.card p).expire
  range : SameRange s s'

/-- What becomes of a page of bin `q` after a block came back to it. -/
inductive Settles (s s' : Shelves) (q p : Nat) : Prop where
  | stays (busy : (s.card p).used ≠ 0 ∨ (s.card p).expire ≠ 0) (same : s' = s) : Settles s s' q p
  | retires (short : (s.queue q).length ≤ retireMaxPages)
    (small : (s.queue q).length = 1 ∨ binSize q < directMaxSize)
    (queue : ∀ r ≤ maxBin, s'.queue r = s.queue r) (card : SameCards s s' fun x => x = p)
    (used : (s'.card p).used = 0) (capacity : (s.card p).capacity ≤ (s'.card p).capacity)
    (expire : (s'.card p).expire = cyclesOf (binSize q)) (lo : s'.lo = min s.lo q)
    (hi : s'.hi = max s.hi q) (collections : s'.collections = s.collections) : Settles s s' q p
  | frees (gone : ∀ r, p ∉ s'.queue r) (thins : Thins s s') : Settles s s' q p

/-- A block comes back to page `p`, and the page stays, is retired or is released. -/
def Frees (s s' : Shelves) (p : Nat) : Prop := ∃ q m, Returns s m q p ∧ Settles m s' q p

/-- A call: it hands out a block or none, and may take one back after that. -/
inductive Turn (s s' : Shelves) : Prop where
  | serves : Serves s s' → Turn s s'
  | frees (p : Nat) (m : Shelves) (out : (s.card p).used ≠ 0) : Serves s m → Frees m s' p → Turn s s'

/-! ### Walks -/

/-- A walk that ages the pages of the window `W` and keeps the range of those it saw. -/
structure Walks (s s' : Shelves) (W : Nat → Nat → Prop) (range range' : Nat × Nat) : Prop where
  queue : ∀ q ≤ maxBin, (s'.queue q).Sublist (s.queue q)
  outside : ∀ q ≤ maxBin, ∀ p ∈ s.queue q, ¬ W q p → p ∈ s'.queue q ∧ s'.card p = s.card p
  used : ∀ q ≤ maxBin, ∀ p ∈ s'.queue q, (s'.card p).used = (s.card p).used
  capacity : ∀ q ≤ maxBin, ∀ p ∈ s'.queue q, (s'.card p).capacity = (s.card p).capacity
  expire : ∀ q ≤ maxBin, ∀ p ∈ s'.queue q, (s'.card p).expire ≤ (s.card p).expire
  tick : ∀ q ≤ maxBin, ∀ p ∈ s'.queue q, W q p → (s.card p).used = 0 → (s.card p).expire ≠ 0 →
    (s'.card p).expire + 1 = (s.card p).expire ∧ (s'.card p).expire ≠ 0 ∧ range'.1 ≤ q ∧
      q ≤ range'.2
  lower : range'.1 ≤ range.1
  upper : range.2 ≤ range'.2
  same : SameRange s s'

theorem Walks.refl (s : Shelves) (range : Nat × Nat) : Walks s s (fun _ _ => False) range range where
  queue := fun _ _ => List.Sublist.refl _
  outside := fun _ _ _ hp _ => ⟨hp, rfl⟩
  used := fun _ _ _ _ => rfl
  capacity := fun _ _ _ _ => rfl
  expire := fun _ _ _ _ => Nat.le_refl _
  tick := fun _ _ _ _ hw => hw.elim
  lower := Nat.le_refl _
  upper := Nat.le_refl _
  same := ⟨rfl, rfl, rfl⟩

theorem Walks.trans {s m s' : Shelves} {W V U : Nat → Nat → Prop} {r r1 r2 : Nat × Nat}
    (h : Walks s m W r r1) (h' : Walks m s' V r1 r2)
    (hdis : ∀ q ≤ maxBin, ∀ p ∈ s.queue q, W q p → ¬ V q p)
    (hU : ∀ q ≤ maxBin, ∀ p ∈ s.queue q, U q p ↔ W q p ∨ V q p) : Walks s s' U r r2 := by
  have hmid : ∀ q ≤ maxBin, ∀ p ∈ s'.queue q, p ∈ m.queue q := fun q hq p hp =>
    (h'.queue q hq).subset hp
  refine { queue := fun q hq => (h'.queue q hq).trans (h.queue q hq), outside := ?_, used := ?_,
           capacity := ?_, expire := ?_, tick := ?_, lower := le_trans h'.lower h.lower,
           upper := le_trans h.upper h'.upper, same := ?_ }
  · intro q hq p hp hno
    rw [hU q hq p hp, not_or] at hno
    obtain ⟨hpm, hcard⟩ := h.outside q hq p hp hno.1
    obtain ⟨hps, hcard'⟩ := h'.outside q hq p hpm hno.2
    exact ⟨hps, hcard'.trans hcard⟩
  · exact fun q hq p hp => (h'.used q hq p hp).trans (h.used q hq p (hmid q hq p hp))
  · exact fun q hq p hp => (h'.capacity q hq p hp).trans (h.capacity q hq p (hmid q hq p hp))
  · exact fun q hq p hp => le_trans (h'.expire q hq p hp) (h.expire q hq p (hmid q hq p hp))
  · intro q hq p hp hu h0 hne
    have hpm := hmid q hq p hp
    have hps := (h.queue q hq).subset hpm
    rcases (hU q hq p hps).mp hu with hw | hv
    · obtain ⟨ht, hne', hlo, hhi⟩ := h.tick q hq p hpm hw h0 hne
      rw [(h'.outside q hq p hpm (hdis q hq p hps hw)).2]
      exact ⟨ht, hne', le_trans h'.lower hlo, le_trans hhi h'.upper⟩
    · have hnw : ¬ W q p := fun hw => hdis q hq p hps hw hv
      rw [← (h.outside q hq p hps hnw).2] at h0 hne ⊢
      exact h'.tick q hq p hp hv h0 hne
  · exact ⟨h'.same.lo.trans h.same.lo, h'.same.hi.trans h.same.hi,
      h'.same.collections.trans h.same.collections⟩

theorem Walks.untouched {s s' : Shelves} {W : Nat → Nat → Prop} {r r' : Nat × Nat} {q : Nat}
    (h : Walks s s' W r r') (hq : q ≤ maxBin) (hno : ∀ p, ¬ W q p) : s'.queue q = s.queue q := by
  refine (h.queue q hq).eq_of_length_le ?_
  exact (List.subperm_of_subset (s.nodup q) fun p hp => (h.outside q hq p hp (hno p)).1).length_le

/-- A walk over the windows of the range is a collection, once its range is recorded. -/
theorem Walks.ages {s m s' : Shelves} {W : Nat → Nat → Prop} {r range : Nat × Nat}
    (h : Walks s m W r range) (hW : ∀ q ≤ maxBin, ∀ p,
      W q p ↔ s.lo ≤ q ∧ q ≤ s.hi ∧ p ∈ (s.queue q).take retireMaxPages)
    (hqueue : s'.queue = m.queue) (hcard : s'.card = m.card) (hlo : s'.lo = range.1)
    (hhi : s'.hi = range.2) (hcol : s'.collections = s.collections + 1) : Ages s s' := by
  refine { queue := ?_, used := ?_, capacity := ?_, expire := ?_, expired := ?_, tick := ?_,
           collections := hcol }
  all_goals rw [hqueue]
  · exact h.queue
  · rw [hcard]
    exact h.used
  · rw [hcard]
    exact fun q hq p hp => le_of_eq (h.capacity q hq p hp).symm
  · rw [hcard]
    exact h.expire
  · intro q hq p hp h0 hne
    rw [hcard]
    by_cases hw : W q p
    · exact (h.tick q hq p hp hw h0 hne).2.1
    · rw [(h.outside q hq p ((h.queue q hq).subset hp) hw).2]
      exact hne
  · intro q hq hlo' hhi' p hwin h0 hne hp
    rw [hcard, hlo, hhi]
    obtain ⟨ht, -, hr⟩ := h.tick q hq p hp ((hW q hq p).mpr ⟨hlo', hhi', hwin⟩) h0 hne
    exact ⟨ht, hr⟩

/-! ### What is retained -/

/-- Every page has made blocks; an empty one, but for `but`, carries a countdown; countdowns
    are short, and a shelf has few. -/
structure Kept (s : Shelves) (but : Option Nat) : Prop where
  opened : ∀ q ≤ maxBin, ∀ p ∈ s.queue q, 1 ≤ (s.card p).capacity
  empty : ∀ q ≤ maxBin, ∀ p ∈ s.queue q, but ≠ some p → (s.card p).used = 0 → (s.card p).expire ≠ 0
  bound : ∀ q ≤ maxBin, ∀ p ∈ s.queue q, (s.card p).expire ≤ retireCycles
  few : ∀ q ≤ maxBin, s.ticking (s.queue q) ≤ retireLimit q

variable {s s' : Shelves} {but : Option Nat} {q p : Nat}

theorem Kept.exempt (h : Kept s none) (p : Nat) : Kept s (some p) :=
  { h with empty := fun q hq x hx _ => h.empty q hq x hx (by simp) }

theorem ticking_le {l l' : List Nat} (hsub : l'.Sublist l)
    (hcard : ∀ x ∈ l', (s'.card x).expire ≠ 0 → (s.card x).expire ≠ 0) :
    s'.ticking l' ≤ s.ticking l :=
  calc s'.ticking l' ≤ s.ticking l' := List.countP_mono_left fun x hx => by
        rw [decide_eq_true_eq, decide_eq_true_eq]
        exact hcard x hx
    _ ≤ s.ticking l := hsub.countP_le

theorem Thins.kept (h : Thins s s') (hk : Kept s but) : Kept s' but := by
  have hcard : ∀ q ≤ maxBin, ∀ x ∈ s'.queue q, (s.card x).Same (s'.card x) :=
    fun q hq x hx => h.card q hq x hx fun e => e
  have hmem : ∀ q ≤ maxBin, ∀ x ∈ s'.queue q, x ∈ s.queue q := fun q hq x hx =>
    (h.queue q hq).subset hx
  refine { opened := ?_, empty := ?_, bound := ?_, few := ?_ }
  · exact fun q hq x hx => le_trans (hk.opened q hq x (hmem q hq x hx)) (hcard q hq x hx).capacity
  · intro q hq x hx hno h0
    rw [(hcard q hq x hx).used] at h0
    rw [(hcard q hq x hx).expire]
    exact hk.empty q hq x (hmem q hq x hx) hno h0
  · intro q hq x hx
    rw [(hcard q hq x hx).expire]
    exact hk.bound q hq x (hmem q hq x hx)
  · intro q hq
    refine le_trans (ticking_le (h.queue q hq) fun x hx hne => ?_) (hk.few q hq)
    rwa [(hcard q hq x hx).expire] at hne

theorem Ages.kept (h : Ages s s') (hk : Kept s none) : Kept s' none := by
  have hmem : ∀ q ≤ maxBin, ∀ x ∈ s'.queue q, x ∈ s.queue q := fun q hq x hx =>
    (h.queue q hq).subset hx
  refine { opened := ?_, empty := ?_, bound := ?_, few := ?_ }
  · exact fun q hq x hx => le_trans (hk.opened q hq x (hmem q hq x hx)) (h.capacity q hq x hx)
  · intro q hq x hx hno h0
    rw [h.used q hq x hx] at h0
    exact h.expired q hq x hx h0 (hk.empty q hq x (hmem q hq x hx) hno h0)
  · exact fun q hq x hx => le_trans (h.expire q hq x hx) (hk.bound q hq x (hmem q hq x hx))
  · intro q hq
    refine le_trans (ticking_le (h.queue q hq) fun x hx hne => ?_) (hk.few q hq)
    have := h.expire q hq x hx
    omega

theorem Quiets.kept (h : Quiets s s') : Kept s' none := by
  refine { opened := ?_, empty := ?_, bound := ?_, few := ?_ }
  · intro q _ x hx
    have hle := s'.used_le q x hx
    have hne := (h.quiet q x hx).1
    omega
  · exact fun q _ x hx _ h0 => absurd h0 (h.quiet q x hx).1
  · intro q _ x hx
    rw [(h.quiet q x hx).2]
    exact Nat.zero_le _
  · intro q _
    have hzero : s'.ticking (s'.queue q) = 0 := by
      unfold ticking
      rw [List.countP_eq_zero]
      intro x hx
      simp [(h.quiet q x hx).2]
    rw [hzero]
    exact Nat.zero_le _

theorem Move.kept (h : Move s s') (hk : Kept s none) : Kept s' none := by
  cases h with
  | thins h => exact h.kept hk
  | ages h => exact h.kept hk
  | quiets h => exact h.kept

theorem Moves.kept (h : Moves s s') (hk : Kept s none) : Kept s' none := by
  induction h with
  | refl => exact hk
  | tail _ hmove ih => exact hmove.kept ih

theorem Moves.mem (h : Moves s s') (hq : q ≤ maxBin) (hp : p ∈ s'.queue q) : p ∈ s.queue q := by
  induction h with
  | refl => exact hp
  | tail _ hmove ih =>
    cases hmove with
    | thins h => exact ih ((h.queue q hq).subset hp)
    | ages h => exact ih ((h.queue q hq).subset hp)
    | quiets h => exact ih (h.mem q hq p hp)

theorem kept_of_page (hk : Kept s (some p)) (helse : Elsewhere s s' q) (hcard : SameCards s s' fun x => x = p)
    (hp : p ∈ s'.queue q) (hmem : ∀ x ∈ s'.queue q, x ≠ p → x ∈ s.queue q)
    (hopened : 1 ≤ (s'.card p).capacity) (hbound : (s'.card p).expire ≤ retireCycles)
    (hfew : s'.ticking (s'.queue q) ≤ retireLimit q) : Kept s' (some p) := by
  have hback : ∀ r ≤ maxBin, ∀ x ∈ s'.queue r, x ≠ p → x ∈ s.queue r := by
    intro r hr x hx hne
    by_cases hrq : r = q
    · rw [hrq] at hx ⊢
      exact hmem x hx hne
    · rwa [← helse r hr hrq]
  refine { opened := ?_, empty := ?_, bound := ?_, few := ?_ }
  · intro r hr x hx
    by_cases hxp : x = p
    · rwa [hxp]
    · exact le_trans (hk.opened r hr x (hback r hr x hx hxp)) (hcard r hr x hx hxp).capacity
  · intro r hr x hx hno h0
    have hxp : x ≠ p := fun e => hno (by rw [e])
    rw [(hcard r hr x hx hxp).used] at h0
    rw [(hcard r hr x hx hxp).expire]
    exact hk.empty r hr x (hback r hr x hx hxp) hno h0
  · intro r hr x hx
    by_cases hxp : x = p
    · rwa [hxp]
    · rw [(hcard r hr x hx hxp).expire]
      exact hk.bound r hr x (hback r hr x hx hxp)
  · intro r hr
    by_cases hrq : r = q
    · rwa [hrq]
    · refine le_trans (ticking_le ?_ fun x hx hne => ?_) (hk.few r hr)
      · rw [helse r hr hrq]
      · have hxp : x ≠ p := fun e => hrq (s'.disjoint r q p (e ▸ hx) hp)
        rwa [(hcard r hr x hx hxp).expire] at hne

theorem Kept.settle (hk : Kept s (some p))
    (hp : ∀ q ≤ maxBin, p ∈ s.queue q → (s.card p).used = 0 → (s.card p).expire ≠ 0) :
    Kept s none := by
  refine { hk with empty := fun q hq x hx _ => ?_ }
  by_cases hxp : x = p
  · rw [hxp] at hx ⊢
    exact hp q hq hx
  · exact hk.empty q hq x hx fun e => hxp (Option.some.inj e).symm

theorem Finds.kept (h : Finds s s' q p) (hk : Kept s none) :
    Kept s' (some p) := by
  obtain ⟨hq, hopens, helse, hcard, -⟩ := h
  cases hopens with
  | candidate pre suf hsplit hfront hout hcap hexp =>
    have hnd := s'.nodup q
    rw [hfront] at hnd
    have hp : p ∈ s.queue q := by simp [hsplit]
    have hp' : p ∈ s'.queue q := by simp [hfront]
    have hsub : (pre ++ suf).Sublist (s.queue q) := by
      rw [hsplit]
      exact List.Sublist.append (List.Sublist.refl pre) (List.sublist_cons_self p suf)
    refine kept_of_page (hk.exempt p) helse hcard hp' ?_
      (le_trans (hk.opened q hq p hp) hcap) (by omega) ?_
    · intro x hx hne
      rw [hfront] at hx
      exact hsub.subset ((List.mem_cons.mp hx).resolve_left hne)
    · calc s'.ticking (s'.queue q) = s'.ticking (pre ++ suf) := by
            rw [hfront]
            exact List.countP_cons_of_neg (by simp [hexp])
        _ ≤ s.ticking (s.queue q) := ticking_le hsub fun x hx hne => by
            have hxp : x ≠ p := fun e => (List.nodup_cons.mp hnd).1 (e ▸ hx)
            rwa [(hcard q hq x (by rw [hfront]; exact List.mem_cons_of_mem p hx) hxp).expire] at hne
        _ ≤ retireLimit q := hk.few q hq
  | fresh hempty honly hcap hexp =>
    refine kept_of_page (hk.exempt p) helse hcard (by simp [honly]) ?_ hcap (by omega) ?_
    · intro x hx hne
      rw [honly] at hx
      exact absurd (List.mem_singleton.mp hx) hne
    · rw [honly]
      simp [ticking, hexp]

theorem Pops.kept (h : Pops s s' q p) (hk : Kept s (some p)) :
    Kept s' none := by
  have hp' : p ∈ s'.queue q := by
    rw [h.queue q h.bin]
    exact h.mem
  have hsame : ∀ x ∈ s'.queue q, (s'.card x).expire = (s.card x).expire := by
    intro x hx
    by_cases hxp : x = p
    · rw [hxp]
      exact h.expire
    · exact (h.card q h.bin x hx hxp).expire
  have hk' := kept_of_page hk (fun r hr _ => h.queue r hr) h.card hp'
    (fun x hx _ => by rwa [← h.queue q h.bin])
    (le_trans (hk.opened q h.bin p h.mem) h.capacity)
    (le_of_eq_of_le h.expire (hk.bound q h.bin p h.mem))
    (le_trans (ticking_le (by rw [h.queue q h.bin]) fun x hx hne => by rwa [hsame x hx] at hne)
      (hk.few q h.bin))
  refine hk'.settle fun _ _ _ h0 => ?_
  rw [h.used] at h0
  omega

theorem Returns.kept (h : Returns s s' q p) (hk : Kept s none) :
    p ∈ s'.queue q ∧ Kept s' (some p) := by
  rcases h.queue with ⟨hp, heq⟩ | ⟨hp, heq⟩
  · have hp' : p ∈ s'.queue q := heq ▸ hp
    refine ⟨hp', kept_of_page (hk.exempt p) h.elsewhere h.card hp' (fun x hx _ => heq ▸ hx)
      (le_trans (hk.opened q h.bin p hp) h.capacity) (le_of_eq_of_le h.expire (hk.bound q h.bin p hp)) ?_⟩
    refine le_trans (ticking_le (by rw [heq]) fun x hx hne => ?_) (hk.few q h.bin)
    by_cases hxp : x = p
    · rwa [hxp, h.expire, ← hxp] at hne
    · rwa [(h.card q h.bin x hx hxp).expire] at hne
  · have hp' : p ∈ s'.queue q := by simp [heq]
    obtain ⟨hused, hexp⟩ := s.full p hp
    have hle := s.used_le fullQueue p hp
    have hexp' := h.expire.trans hexp
    have hout : p ∉ s.queue q := fun hmem => by
      have := s.disjoint q fullQueue p hmem hp
      have := h.bin
      unfold fullQueue binCount at *
      omega
    refine ⟨hp', kept_of_page (hk.exempt p) h.elsewhere h.card hp' ?_ ?_ (by omega) ?_⟩
    · intro x hx hne
      rw [heq] at hx
      exact (List.mem_append.mp hx).resolve_right fun e => hne (List.mem_singleton.mp e)
    · have := h.capacity
      omega
    · calc s'.ticking (s'.queue q) = s'.ticking (s.queue q) := by
            unfold ticking
            rw [heq, List.countP_append]
            simp [hexp']
        _ ≤ s.ticking (s.queue q) := ticking_le (List.Sublist.refl _) fun x hx hne => by
            have hxp : x ≠ p := fun e => hout (e ▸ hx)
            rwa [(h.card q h.bin x (by rw [heq]; exact List.mem_append_left _ hx) hxp).expire] at hne
        _ ≤ retireLimit q := hk.few q h.bin

theorem Settles.kept (h : Settles s s' q p) (hq : q ≤ maxBin) (hp : p ∈ s.queue q)
    (hk : Kept s (some p)) : Kept s' none := by
  cases h with
  | stays hbusy hsame =>
    rw [hsame]
    exact hk.settle fun _ _ _ h0 => hbusy.resolve_left (not_not.mpr h0)
  | retires hshort hsmall hqueue hcard hused hcap hexp hlo hhi hcol =>
    have hp' : p ∈ s'.queue q := by rwa [hqueue q hq]
    have hk' := kept_of_page hk (fun r hr _ => hqueue r hr) hcard hp'
      (fun x hx _ => by rwa [← hqueue q hq]) (le_trans (hk.opened q hq p hp) hcap)
      (by rw [hexp]; exact cyclesOf_le _) ?_
    · refine hk'.settle fun _ _ _ _ => ?_
      rw [hexp]
      exact cyclesOf_pos _
    · have hle : s'.ticking (s'.queue q) ≤ (s.queue q).length := by
        rw [hqueue q hq]
        exact List.countP_le_length
      unfold retireLimit
      split
      · omega
      · rename_i hbig
        have := hsmall.resolve_right hbig
        omega
  | frees hgone hthins =>
    exact (hthins.kept hk).settle fun r _ hr => absurd hr (hgone r)

theorem Serves.kept (h : Serves s s') (hk : Kept s none) : Kept s' none := by
  cases h with
  | moves h => exact h.kept hk
  | pops q p m n hbefore hpops hafter => exact hafter.kept (hpops.kept ((hbefore.kept hk).exempt p))
  | finds q p m n k hbefore hfinds hpops hafter =>
    exact hafter.kept (hpops.kept (hfinds.kept (hbefore.kept hk)))

theorem Serves.after (h : Serves s s') {r : Shelves} (hm : Moves r s) : Serves r s' := by
  cases h with
  | moves h => exact .moves (hm.trans h)
  | pops q p m n hbefore hpops hafter => exact .pops q p m n (hm.trans hbefore) hpops hafter
  | finds q p m n k hbefore hfinds hpops hafter =>
    exact .finds q p m n k (hm.trans hbefore) hfinds hpops hafter

theorem Serves.before (h : Serves s s') {r : Shelves} (hm : Moves s' r) : Serves s r := by
  cases h with
  | moves h => exact .moves (h.trans hm)
  | pops q p m n hbefore hpops hafter => exact .pops q p m n hbefore hpops (hafter.trans hm)
  | finds q p m n k hbefore hfinds hpops hafter =>
    exact .finds q p m n k hbefore hfinds hpops (hafter.trans hm)

/-- **What is retained stays bounded**, whatever the program calls. -/
theorem Turn.kept (h : Turn s s') (hk : Kept s none) : Kept s' none := by
  cases h with
  | serves h => exact h.kept hk
  | frees p m hout hserves hfrees =>
    obtain ⟨q, n, hreturns, hsettles⟩ := hfrees
    obtain ⟨hp, hk'⟩ := hreturns.kept (hserves.kept hk)
    exact hsettles.kept hreturns.bin hp hk'

theorem Kept.few_empty (hk : Kept s none) (hq : q ≤ maxBin) :
    (s.queue q).countP (fun p => decide ((s.card p).used = 0)) ≤ retireLimit q := by
  refine le_trans (List.countP_mono_left fun p hp h0 => ?_) (hk.few q hq)
  rw [decide_eq_true_eq] at h0 ⊢
  exact hk.empty q hq p hp (by simp) h0

/-! ### Falling due -/

/-- Page `p` of bin `b` rests on its countdown, in the window and the range of the
    collections, and falls due at collection `due`. -/
structure Rests (s : Shelves) (p b due : Nat) : Prop where
  bin : b ≤ maxBin
  window : p ∈ (s.queue b).take retireMaxPages
  lo : s.lo ≤ b
  hi : b ≤ s.hi
  used : (s.card p).used = 0
  expire : (s.card p).expire ≠ 0
  due : (s.card p).expire + s.collections = due

/-- Page `p` is in use, or on no shelf. -/
def Lost (s : Shelves) (p : Nat) : Prop := ∀ q, p ∈ s.queue q → (s.card p).used ≠ 0

/-- Page `p` rests, unless it was used again or released. -/
def Due (s : Shelves) (p b due : Nat) : Prop := s.Rests p b due ∨ s.Lost p

variable {x b k : Nat}

theorem lost_of_bins (h : ∀ q ≤ maxBin, p ∈ s.queue q → (s.card p).used ≠ 0) : s.Lost p := by
  intro q hp
  rcases s.home q p hp with hq | rfl
  · exact h q hq hp
  · exact (s.full p hp).1

theorem Lost.thins (hl : s.Lost p) (hqueue : ∀ q ≤ maxBin, (s'.queue q).Sublist (s.queue q))
    (hused : ∀ q ≤ maxBin, ∀ x ∈ s'.queue q, (s'.card x).used = (s.card x).used) : s'.Lost p := by
  refine lost_of_bins fun q hq hp => ?_
  rw [hused q hq p hp]
  exact hl q ((hqueue q hq).subset hp)

/-- Of a page in a bin, what stays there rests as before, and what leaves is lost. -/
theorem Due.thins (hd : s.Due p b k) (hqueue : ∀ q ≤ maxBin, (s'.queue q).Sublist (s.queue q))
    (hused : ∀ q ≤ maxBin, ∀ x ∈ s'.queue q, (s'.card x).used = (s.card x).used)
    (hrest : b ≤ maxBin → p ∈ s'.queue b → p ∈ (s.queue b).take retireMaxPages → s.lo ≤ b →
      b ≤ s.hi → (s.card p).used = 0 → (s.card p).expire ≠ 0 → s'.lo ≤ b ∧ b ≤ s'.hi ∧
        (s'.card p).expire ≠ 0 ∧
        (s'.card p).expire + s'.collections = (s.card p).expire + s.collections) :
    s'.Due p b k := by
  rcases hd with hr | hl
  swap
  · exact Or.inr (hl.thins hqueue hused)
  have hwin := hr.window
  by_cases hp : p ∈ s'.queue b
  · obtain ⟨hlo, hhi, hne, hdue⟩ := hrest hr.bin hp hwin hr.lo hr.hi hr.used hr.expire
    refine Or.inl { bin := hr.bin, window := ?_, lo := hlo, hi := hhi, used := ?_, expire := hne,
                    due := hdue.trans hr.due }
    · exact mem_take_of_sublist (s.nodup b) (hqueue b hr.bin) hwin hp
    · rw [hused b hr.bin p hp]
      exact hr.used
  · refine Or.inr (lost_of_bins fun r hr' hp' => absurd ?_ hp)
    rwa [s.disjoint b r p (List.mem_of_mem_take hwin) ((hqueue r hr').subset hp')]

theorem Thins.due (h : Thins s s') (hd : s.Due p b k) : s'.Due p b k := by
  have hcard : ∀ q ≤ maxBin, ∀ x ∈ s'.queue q, (s.card x).Same (s'.card x) :=
    fun q hq x hx => h.card q hq x hx fun e => e
  refine hd.thins h.queue (fun q hq x hx => (hcard q hq x hx).used) ?_
  intro hq hp _ hlo hhi _ hne
  rw [h.range.lo, h.range.hi, h.range.collections, (hcard b hq p hp).expire]
  exact ⟨hlo, hhi, hne, rfl⟩

theorem Ages.due (h : Ages s s') (hd : s.Due p b k) : s'.Due p b k := by
  refine hd.thins h.queue h.used ?_
  intro hq hp hwin hlo hhi hused hne
  obtain ⟨hexp, hlo', hhi'⟩ := h.tick b hq hlo hhi p hwin hused hne hp
  refine ⟨hlo', hhi', h.expired b hq p hp hused hne, ?_⟩
  rw [h.collections]
  omega

theorem Moves.due (h : Moves s s') (hd : s.Due p b k) : s'.Due p b k := by
  induction h with
  | refl => exact hd
  | tail _ hmove ih =>
    cases hmove with
    | thins h => exact h.due ih
    | ages h => exact h.due ih
    | quiets h => exact Or.inr fun q hp => (h.quiet q p hp).1

theorem Due.other (hd : s.Due p b k) (hcard : SameCards s s' fun x => x = q) (hne : p ≠ q)
    (hmem : ∀ r ≤ maxBin, p ∈ s'.queue r → p ∈ s.queue r)
    (hwin : ∀ r ≤ maxBin, (s.card p).used = 0 → p ∈ (s.queue r).take retireMaxPages →
      p ∈ (s'.queue r).take retireMaxPages)
    (hrange : ∀ r, s.lo ≤ r → r ≤ s.hi → s'.lo ≤ r ∧ r ≤ s'.hi)
    (hcol : s'.collections = s.collections) : s'.Due p b k := by
  rcases hd with hr | hl
  · have hw' := hwin b hr.bin hr.used hr.window
    have hsame := hcard b hr.bin p (List.mem_of_mem_take hw') hne
    obtain ⟨hlo, hhi⟩ := hrange b hr.lo hr.hi
    refine Or.inl { bin := hr.bin, window := hw', lo := hlo, hi := hhi, used := ?_, expire := ?_,
                    due := ?_ }
    · exact hsame.used.trans hr.used
    · rw [hsame.expire]
      exact hr.expire
    · rw [hsame.expire, hcol]
      exact hr.due
  · refine Or.inr (lost_of_bins fun r hr hp => ?_)
    rw [(hcard r hr p hp hne).used]
    exact hl r (hmem r hr hp)

theorem SameRange.keeps (h : SameRange s s') (r : Nat) (hlo : s.lo ≤ r) (hhi : r ≤ s.hi) :
    s'.lo ≤ r ∧ r ≤ s'.hi := by
  rw [h.lo, h.hi]
  exact ⟨hlo, hhi⟩

theorem Finds.due (h : Finds s s' q x) (hk : Kept s none) (hne : p ≠ x)
    (hd : s.Due p b k) : s'.Due p b k := by
  obtain ⟨hq, hopens, helse, hcard, hrange⟩ := h
  cases hopens with
  | candidate pre suf hsplit hfront hout hcap hexp =>
    refine hd.other hcard hne ?_ ?_ hrange.keeps hrange.collections
    · intro r hr hp
      by_cases hrq : r = q
      · rw [hrq, hfront] at hp
        rw [hrq, hsplit]
        have := (List.mem_cons.mp hp).resolve_left hne
        exact (List.mem_append.mp this).elim (List.mem_append_left _)
          fun hs => List.mem_append_right _ (List.mem_cons_of_mem x hs)
      · rwa [← helse r hr hrq]
    · intro r hr h0 hw
      by_cases hrq : r = q
      · rw [hrq, hsplit] at hw
        rw [hrq, hfront]
        -- The pages passed over have all their blocks out, and a resting page has none.
        refine mem_take_front hw hne fun hpre => ?_
        have hcap := hk.opened q hq p (by rw [hsplit]; exact List.mem_append_left _ hpre)
        have := hout p hpre
        omega
      · rwa [helse r hr hrq]
  | fresh hempty honly hcap hexp =>
    refine hd.other hcard hne ?_ ?_ hrange.keeps hrange.collections
    · intro r hr hp
      by_cases hrq : r = q
      · rw [hrq, honly] at hp
        exact absurd (List.mem_singleton.mp hp) hne
      · rwa [← helse r hr hrq]
    · intro r hr _ hw
      by_cases hrq : r = q
      · rw [hrq, hempty] at hw
        cases List.mem_of_mem_take hw
      · rwa [helse r hr hrq]

theorem Pops.due (h : Pops s s' q x) (hne : p ≠ x) (hd : s.Due p b k) : s'.Due p b k :=
  hd.other h.card hne (fun r hr hp => by rwa [← h.queue r hr])
    (fun r hr _ hw => by rwa [h.queue r hr]) h.range.keeps h.range.collections

theorem Pops.lost (h : Pops s s' q p) : s'.Lost p := by
  refine lost_of_bins fun _ _ _ h0 => ?_
  rw [h.used] at h0
  omega

theorem Serves.due (h : Serves s s') (hk : Kept s none) (hd : s.Due p b k) :
    s'.Due p b k := by
  cases h with
  | moves h => exact h.due hd
  | pops q x m n hbefore hpops hafter =>
    refine hafter.due ?_
    by_cases hne : p = x
    · rw [hne]
      exact Or.inr hpops.lost
    · exact hpops.due hne (hbefore.due hd)
  | finds q x m n r hbefore hfinds hpops hafter =>
    refine hafter.due ?_
    by_cases hne : p = x
    · rw [hne]
      exact Or.inr hpops.lost
    · exact hpops.due hne (hfinds.due (hbefore.kept hk) hne (hbefore.due hd))

theorem Returns.due (h : Returns s s' q x) (hne : p ≠ x) (hd : s.Due p b k) : s'.Due p b k := by
  refine hd.other h.card hne ?_ ?_ h.range.keeps h.range.collections
  · intro r hr hp
    by_cases hrq : r = q
    · rw [hrq] at hp ⊢
      rcases h.queue with ⟨-, heq⟩ | ⟨-, heq⟩
      · rwa [heq] at hp
      · rw [heq] at hp
        exact (List.mem_append.mp hp).resolve_right fun e => hne (List.mem_singleton.mp e)
    · rwa [← h.elsewhere r hr hrq]
  · intro r hr _ hw
    by_cases hrq : r = q
    · rw [hrq] at hw ⊢
      rcases h.queue with ⟨-, heq⟩ | ⟨-, heq⟩
      · rwa [heq]
      · rw [heq, List.take_append]
        exact List.mem_append_left _ hw
    · rwa [h.elsewhere r hr hrq]

theorem Settles.due (h : Settles s s' q x) (hne : p ≠ x) (hd : s.Due p b k) : s'.Due p b k := by
  cases h with
  | stays _ hsame => rwa [hsame]
  | retires _ _ hqueue hcard _ _ _ hlo hhi hcol =>
    refine hd.other hcard hne (fun r hr hp => by rwa [← hqueue r hr])
      (fun r hr _ hw => by rwa [hqueue r hr]) (fun r hr hr' => ?_) hcol
    rw [hlo, hhi]
    omega
  | frees _ hthins => exact hthins.due hd

/-- **A resting page falls due** when it was to, unless it was used again or released. -/
theorem Turn.due (h : Turn s s') (hk : Kept s none) (hr : s.Rests p b k) :
    s'.Due p b k := by
  cases h with
  | serves h => exact h.due hk (Or.inl hr)
  | frees x m hout hserves hfrees =>
    obtain ⟨q, n, hreturns, hsettles⟩ := hfrees
    have hne : p ≠ x := fun e => hout (e ▸ hr.used)
    exact hsettles.due hne (hreturns.due hne (hserves.due hk (Or.inl hr)))

/-- **A page that a free empties**, and that had no countdown, rests from then on unless it
    is released. -/
theorem Frees.rests (h : Frees s s' p) (hused : (s.card p).used = 1) (hexp : (s.card p).expire = 0)
    (hp : ∃ q, p ∈ s'.queue q) :
    ∃ q, s'.Rests p q (cyclesOf (binSize q) + s'.collections) := by
  obtain ⟨q, m, hreturns, hsettles⟩ := h
  have hmem : p ∈ m.queue q := by
    rcases hreturns.queue with ⟨hx, heq⟩ | ⟨-, heq⟩
    · rwa [heq]
    · simp [heq]
  cases hsettles with
  | stays hbusy _ =>
    have := hreturns.used
    have := hreturns.expire
    omega
  | frees hgone _ =>
    obtain ⟨r, hr⟩ := hp
    exact absurd hr (hgone r)
  | retires hshort _ hqueue hcard hused hcap hexp hlo hhi hcol =>
    refine ⟨q, { bin := hreturns.bin, window := ?_, lo := by omega, hi := by omega, used := hused,
                 expire := ?_, due := by rw [hexp] }⟩
    · rw [hqueue q hreturns.bin, List.take_of_length_le hshort]
      exact hmem
    · rw [hexp]
      exact cyclesOf_pos _

end Shelves
end Wasmalloc
