import Mathlib.Data.Finset.Basic
import Mathlib.Data.Finset.Card
import Mathlib.Data.List.Nodup

/- A pool of numbered objects that is put into use lazily.

   The objects below the watermark `capacity` are either on a stack, from which they
   are handed out, or live; the rest of the `reserved` objects have never been used.
   The partition is part of the type, so every operation keeps it by construction. -/

/-- Of `reserved` objects, those below `capacity` are on the stack or live, not both. -/
structure Pool (reserved : Nat) where
  capacity : Nat
  stack : List Nat
  live : Finset Nat
  capacity_le : capacity ≤ reserved
  nodup : stack.Nodup
  disjoint : ∀ i ∈ stack, i ∉ live
  mem_iff : ∀ i, i ∈ stack ∨ i ∈ live ↔ i < capacity

namespace Pool
variable {r : Nat}

def empty (r : Nat) : Pool r :=
  { capacity := 0, stack := [], live := ∅, capacity_le := Nat.zero_le r, nodup := List.nodup_nil
    disjoint := by simp, mem_iff := by simp }

/-- Hand out the top of the stack. -/
def pop (p : Pool r) : Option Nat × Pool r :=
  match h : p.stack with
  | [] => (none, p)
  | i :: rest =>
    (some i,
      { capacity := p.capacity, stack := rest, live := insert i p.live
        capacity_le := p.capacity_le
        nodup := (List.nodup_cons.mp (h ▸ p.nodup)).2
        disjoint := fun j hj => by
          have hne : j ≠ i := fun e => (List.nodup_cons.mp (h ▸ p.nodup)).1 (e ▸ hj)
          have hj' := p.disjoint j (h ▸ List.mem_cons_of_mem i hj)
          simp [hne, hj']
        mem_iff := fun j => by
          rw [← p.mem_iff, h, Finset.mem_insert, List.mem_cons]
          tauto })

/-- Take a live object back onto the stack. -/
def push (p : Pool r) (i : Nat) : Pool r :=
  if h : i ∈ p.live then
    { capacity := p.capacity, stack := i :: p.stack, live := p.live.erase i
      capacity_le := p.capacity_le
      nodup := List.nodup_cons.mpr ⟨fun hi => p.disjoint i hi h, p.nodup⟩
      disjoint := fun j hj => by
        rcases List.mem_cons.mp hj with rfl | hj
        · simp
        · simp [p.disjoint j hj]
      mem_iff := fun j => by
        rw [← p.mem_iff, Finset.mem_erase, List.mem_cons]
        by_cases hj : j = i
        · simp [hj, h]
        · simp [hj] }
  else p

/-- Put the next objects, at most `most` of them, on top of the stack in increasing order. -/
def extend (p : Pool r) (most : Nat) : Bool × Pool r :=
  if p.capacity = r then (false, p)
  else
    (true,
      { capacity := p.capacity + min (r - p.capacity) most
        stack := List.range' p.capacity (min (r - p.capacity) most) ++ p.stack
        live := p.live
        capacity_le := by
          have := p.capacity_le
          omega
        nodup := by
          refine List.nodup_append.mpr ⟨List.nodup_range', p.nodup, fun i hi j hj hij => ?_⟩
          have hlo := (List.mem_range'_1.mp hi).1
          have hhi := (p.mem_iff j).mp (Or.inl hj)
          omega
        disjoint := fun i hi hl => by
          rcases List.mem_append.mp hi with hi | hi
          · have hlo := (List.mem_range'_1.mp hi).1
            have hhi := (p.mem_iff i).mp (Or.inr hl)
            omega
          · exact p.disjoint i hi hl
        mem_iff := fun i => by
          have hmem := p.mem_iff i
          rw [List.mem_append, List.mem_range'_1, or_assoc, hmem]
          omega })

theorem pop_nil {p : Pool r} (h : p.stack = []) : p.pop = (none, p) := by
  unfold pop
  split
  · rfl
  · rename_i i rest heq
    rw [h] at heq
    cases heq

theorem pop_cons {p : Pool r} {i : Nat} {rest : List Nat} (h : p.stack = i :: rest) :
    p.pop.1 = some i ∧ p.pop.2.stack = rest ∧ p.pop.2.live = insert i p.live ∧
      p.pop.2.capacity = p.capacity := by
  unfold pop
  split
  · rename_i heq
    rw [h] at heq
    cases heq
  · rename_i j rest' heq
    rw [h] at heq
    obtain ⟨rfl, rfl⟩ := List.cons.inj heq
    exact ⟨rfl, rfl, rfl, rfl⟩

theorem push_live {p : Pool r} {i : Nat} (h : i ∈ p.live) :
    (p.push i).stack = i :: p.stack ∧ (p.push i).live = p.live.erase i ∧
      (p.push i).capacity = p.capacity := by
  unfold push
  rw [dif_pos h]
  exact ⟨rfl, rfl, rfl⟩

theorem extend_room {p : Pool r} (most : Nat) (h : p.capacity ≠ r) :
    (p.extend most).1 = true ∧
      (p.extend most).2.capacity = p.capacity + min (r - p.capacity) most ∧
      (p.extend most).2.stack = List.range' p.capacity (min (r - p.capacity) most) ++ p.stack ∧
      (p.extend most).2.live = p.live := by
  unfold extend
  rw [if_neg h]
  exact ⟨rfl, rfl, rfl, rfl⟩

theorem extend_full {p : Pool r} (most : Nat) (h : p.capacity = r) :
    p.extend most = (false, p) :=
  if_pos h

/-- What is on the stack and what is live add up to the watermark. -/
theorem length_add_card (p : Pool r) : p.stack.length + p.live.card = p.capacity := by
  have hdisj : Disjoint p.stack.toFinset p.live := by
    rw [Finset.disjoint_left]
    exact fun i hi => p.disjoint i (List.mem_toFinset.mp hi)
  have hunion : p.stack.toFinset ∪ p.live = Finset.range p.capacity := by
    ext i
    rw [Finset.mem_union, List.mem_toFinset, Finset.mem_range, p.mem_iff]
  rw [← List.toFinset_card_of_nodup p.nodup, ← Finset.card_union_of_disjoint hdisj, hunion,
    Finset.card_range]

theorem card_le (p : Pool r) : p.live.card ≤ p.capacity := by
  rw [← p.length_add_card]
  exact Nat.le_add_left _ _

end Pool
