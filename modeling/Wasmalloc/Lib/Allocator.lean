import Mathlib.Data.Set.Insert
import Mathlib.Data.Set.Function
import Mathlib.Order.Interval.Set.Defs
import Wasmalloc.Lib.Refine

/- What an allocator promises the program that uses it.

   The abstract allocator knows the blocks the program holds and the bytes in them. A
   request is served with a block that overlaps none of them, or refused with the null
   address, 0, and nothing is lost either way. Which address is handed out, and what is in
   a fresh block, is left open; so is every byte the program does not hold. What the
   program sees is the results of its calls and the bytes it loads.

   `loads_last_store` is what a program relies on when it uses its blocks as memory. -/
namespace Allocator
open Refine

/-- What a request asks for. -/
structure Shape where
  size : Nat
  align : Nat

/-- A block the program holds. -/
structure Held where
  addr : Nat
  shape : Shape

def Held.span (b : Held) : Set Nat := Set.Ico b.addr (b.addr + b.shape.size)

structure State where
  live : Set Held
  byte : Nat → UInt8

/-- The bytes of the program. -/
def State.owned (s : State) : Set Nat := {x | ∃ b ∈ s.live, x ∈ b.span}

/-- A step of the program, with what it sees of it; the result of a request is an address. -/
inductive Seen where
  | alloc (shape : Shape) (zeroed : Bool) (result : Nat)
  | dealloc (b : Held)
  | realloc (b : Held) (newSize result : Nat)
  | load (x : Nat) (v : UInt8)
  | store (x : Nat) (v : UInt8)
  /-- a step of somebody else -/
  | other

/-- A block that may be handed out beside the live ones. -/
structure Fits (space : Nat) (live : Set Held) (b : Held) : Prop where
  nonnull : b.addr ≠ 0
  aligned : b.shape.align ∣ b.addr
  inside : b.addr + b.shape.size ≤ space
  apart : ∀ c ∈ live, ∀ x ∈ b.span, x ∉ c.span

/-- The same blocks, with the same bytes in them. -/
structure Same (s s' : State) : Prop where
  live : s'.live = s.live
  byte : Set.EqOn s'.byte s.byte s.owned

/-- `b` joins the blocks of `s`, which keep their bytes. -/
structure Joins (space : Nat) (s s' : State) (b : Held) : Prop where
  fits : Fits space s.live b
  live : s'.live = insert b s.live
  byte : Set.EqOn s'.byte s.byte s.owned

def State.without (s : State) (b : Held) : State := { s with live := s.live \ {b} }

def Held.resized (b : Held) (addr newSize : Nat) : Held := ⟨addr, { b.shape with size := newSize }⟩

/-- The steps of an allocator whose addresses end at `space`. -/
inductive Step (space : Nat) : State → Seen → State → Prop where
  | allocRefused {s s' : State} (shape : Shape) (zeroed : Bool) : Same s s' →
    Step space s (.alloc shape zeroed 0) s'
  | alloc {s s' : State} (shape : Shape) (zeroed : Bool) (a : Nat) : Joins space s s' ⟨a, shape⟩ →
    (zeroed = true → ∀ x ∈ Held.span ⟨a, shape⟩, s'.byte x = 0) → Step space s (.alloc shape zeroed a) s'
  | dealloc {s s' : State} {b : Held} : b ∈ s.live → Same (s.without b) s' → Step space s (.dealloc b) s'
  | reallocRefused {s s' : State} {b : Held} (newSize : Nat) : b ∈ s.live → Same s s' →
    Step space s (.realloc b newSize 0) s'
  | realloc {s s' : State} {b : Held} (newSize a : Nat) : b ∈ s.live →
    Joins space (s.without b) s' (b.resized a newSize) →
    (∀ i < min b.shape.size newSize, s'.byte (a + i) = s.byte (b.addr + i)) →
    Step space s (.realloc b newSize a) s'
  | load {s : State} {x : Nat} : x ∈ s.owned → Step space s (.load x (s.byte x)) s
  | store {s s' : State} {x : Nat} {v : UInt8} : x ∈ s.owned → s'.live = s.live → s'.byte x = v →
    Set.EqOn s'.byte s.byte (s.owned \ {x}) → Step space s (.store x v) s'
  | other {s s' : State} : Same s s' → Step space s .other s'

/-- The contract: a program starts with no block. -/
def contract (space : Nat) : Machine State Seen :=
  { init := fun s => s.live = ∅, step := Step space }

/-! ## Memory -/

variable {space : Nat} {s s' : State} {b : Held} {x : Nat} {v w : UInt8}

/-- The step leaves the byte at `x` to its block. -/
def Seen.Spares (x : Nat) : Seen → Prop
  | .store y _ => y ≠ x
  | .dealloc b => x ∉ b.span
  | .realloc b _ _ => x ∉ b.span
  | _ => True

/-- The program holds the byte at `x`, and `v` is in it. -/
structure Holds (x : Nat) (v : UInt8) (s : State) : Prop where
  owned : x ∈ s.owned
  byte : s.byte x = v

theorem Same.holds (h : Same s s') (hx : Holds x v s) : Holds x v s' where
  owned := by
    unfold State.owned
    rw [h.live]
    exact hx.owned
  byte := (h.byte hx.owned).trans hx.byte

theorem Joins.holds (h : Joins space s s' b) (hx : Holds x v s) : Holds x v s' where
  owned := by
    obtain ⟨c, hc, hmem⟩ := hx.owned
    exact ⟨c, h.live ▸ Set.mem_insert_of_mem _ hc, hmem⟩
  byte := (h.byte hx.owned).trans hx.byte

theorem Holds.without (hx : Holds x v s) (hb : x ∉ b.span) : Holds x v (s.without b) where
  owned := by
    obtain ⟨c, hc, hmem⟩ := hx.owned
    exact ⟨c, ⟨hc, fun e => hb (e ▸ hmem)⟩, hmem⟩
  byte := hx.byte

theorem Step.holds {l : Seen} (h : Step space s l s') (hl : l.Spares x) (hx : Holds x v s) :
    Holds x v s' := by
  cases h with
  | allocRefused _ _ hsame => exact hsame.holds hx
  | alloc _ _ _ hjoins _ => exact hjoins.holds hx
  | dealloc _ hsame => exact hsame.holds (hx.without hl)
  | reallocRefused _ _ hsame => exact hsame.holds hx
  | realloc _ _ _ hjoins _ => exact hjoins.holds (hx.without hl)
  | load _ => exact hx
  | store _ hlive _ hbyte =>
    have howned : s'.owned = s.owned := by
      unfold State.owned
      rw [hlive]
    exact { owned := howned ▸ hx.owned, byte := (hbyte ⟨hx.owned, fun e => hl e.symm⟩).trans hx.byte }
  | other hsame => exact hsame.holds hx

theorem Step.stored (h : Step space s (.store x v) s') : Holds x v s' := by
  cases h with
  | store howned hlive hbyte _ =>
    refine { owned := ?_, byte := hbyte }
    unfold State.owned
    rw [hlive]
    exact howned

theorem Step.loaded (h : Step space s (.load x w) s') : w = s.byte x := by
  cases h with
  | load _ => rfl

/-- **A load returns the last store**, as long as the block is held. -/
theorem loads_last_store {before between after : List Seen}
    (h : before ++ .store x v :: (between ++ .load x w :: after) ∈ (contract space).traces)
    (hspares : ∀ l ∈ between, l.Spares x) : w = v := by
  obtain ⟨s0, s1, -, hp⟩ := h
  obtain ⟨s2, -, hp⟩ := hp.split
  cases hp with
  | cons hstore hp =>
    obtain ⟨s4, hbetween, hp⟩ := hp.split
    cases hp with
    | cons hload _ =>
      have hx := hbetween.keeps (fun _ _ _ hl hs hstep => hstep.holds (hspares _ hl) hs) hstore.stored
      exact hload.loaded.trans hx.byte

/-! ## What the contract allows

From any state a request may be served with any block that fits, and the bytes of the
program may be loaded and stored in any order. -/

theorem Same.refl (s : State) : Same s s := ⟨rfl, fun _ _ => rfl⟩

/-- A fresh block, with `f` in it. -/
def State.join (s : State) (b : Held) (f : Nat → UInt8) : State where
  live := insert b s.live
  byte x := if b.addr ≤ x ∧ x < b.addr + b.shape.size then f x else s.byte x

theorem State.join_in {f : Nat → UInt8} (h : x ∈ b.span) : (s.join b f).byte x = f x := if_pos h

theorem joins_join (hfits : Fits space s.live b) (f : Nat → UInt8) : Joins space s (s.join b f) b where
  fits := hfits
  live := rfl
  byte := fun x ⟨c, hc, hx⟩ => if_neg fun h => hfits.apart c hc x h hx

theorem serve {a : Nat} {shape : Shape} (hfits : Fits space s.live ⟨a, shape⟩) (zeroed : Bool) :
    ∃ s', Step space s (.alloc shape zeroed a) s' ∧ Joins space s s' ⟨a, shape⟩ ∧
      (zeroed = true → ∀ x ∈ Held.span ⟨a, shape⟩, s'.byte x = 0) := by
  have hjoins := joins_join hfits fun _ => 0
  have hzero : zeroed = true → ∀ x ∈ Held.span ⟨a, shape⟩,
      (s.join ⟨a, shape⟩ fun _ => 0).byte x = 0 := fun _ x hx => State.join_in hx
  exact ⟨_, .alloc shape zeroed a hjoins hzero, hjoins, hzero⟩

theorem resize {a newSize : Nat} (hb : b ∈ s.live)
    (hfits : Fits space (s.without b).live (b.resized a newSize)) :
    ∃ s', Step space s (.realloc b newSize a) s' ∧ Joins space (s.without b) s' (b.resized a newSize) ∧
      ∀ i < min b.shape.size newSize, s'.byte (a + i) = s.byte (b.addr + i) := by
  have hjoins := joins_join hfits fun x => s.byte (b.addr + (x - a))
  have hcopy : ∀ i < min b.shape.size newSize,
      ((s.without b).join (b.resized a newSize) fun x => s.byte (b.addr + (x - a))).byte (a + i) =
        s.byte (b.addr + i) := by
    intro i hi
    have hin : a + i ∈ (b.resized a newSize).span :=
      ⟨Nat.le_add_right _ _, Nat.add_lt_add_left (Nat.lt_min.mp hi).2 _⟩
    rw [State.join_in hin, Nat.add_sub_cancel_left]
  exact ⟨_, .realloc newSize a hb hjoins hcopy, hjoins, hcopy⟩

theorem loads {f : Nat → UInt8} {xs : List Nat} (h : ∀ x ∈ xs, x ∈ s.owned ∧ f x = s.byte x) :
    Path (contract space) s (xs.map fun x => .load x (f x)) s := by
  induction xs with
  | nil => exact .nil s
  | cons x xs ih =>
    obtain ⟨howned, hf⟩ := h x List.mem_cons_self
    have hload : Step space s (.load x (f x)) s := by
      rw [hf]
      exact .load howned
    exact .cons hload (ih fun y hy => h y (List.mem_cons_of_mem _ hy))

theorem stores {f : Nat → UInt8} {xs : List Nat} : ∀ {s : State}, (∀ x ∈ xs, x ∈ s.owned) →
    ∃ s', Path (contract space) s (xs.map fun x => .store x (f x)) s' ∧ s'.live = s.live ∧
      (∀ x ∈ xs, s'.byte x = f x) ∧ ∀ x, x ∉ xs → s'.byte x = s.byte x := by
  induction xs with
  | nil => exact fun {s} _ => ⟨s, .nil s, rfl, fun _ h => absurd h List.not_mem_nil, fun _ _ => rfl⟩
  | cons y xs ih =>
    intro s h
    -- The state after the first store.
    have hstore : Step space s (.store y (f y)) { s with byte := Function.update s.byte y (f y) } :=
      .store (h y List.mem_cons_self) rfl (Function.update_self ..)
        fun x hx => Function.update_of_ne hx.2 _ _
    obtain ⟨s', hp, hlive, hin, hout⟩ := ih (s := { s with byte := Function.update s.byte y (f y) })
      fun x hx => h x (List.mem_cons_of_mem _ hx)
    refine ⟨s', .cons hstore hp, hlive, fun x hx => ?_, fun x hx => ?_⟩
    · by_cases hmem : x ∈ xs
      · exact hin x hmem
      · obtain rfl : x = y := (List.mem_cons.mp hx).resolve_right hmem
        exact (hout x hmem).trans (Function.update_self ..)
    · obtain ⟨hne, hmem⟩ := not_or.mp fun h => hx (List.mem_cons.mpr h)
      exact (hout x hmem).trans (Function.update_of_ne hne _ _)

end Allocator
