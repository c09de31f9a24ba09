import Mathlib.Data.UInt
import Wasmalloc.Lib.Act

/- The entropy of the model tester: the model of `testing/rng.rs`.

   Every decision of the tester is drawn from a stream of 32-bit values that may run dry
   at any draw. The draws are programs over the stream; what the source asserts is a
   `panic`, so that a proof that none happens is a proof that the assertions hold. -/
namespace Wasmalloc.Testing

/-- Why a program stopped: with a failure it reports, or by a panic. -/
inductive Halt (ε : Type) where
  | failure (f : ε)
  | panic (message : String)

/-- A stream of 32-bit values that may run dry. -/
class Entropy (E : Type) where
  nextU32 : E → Option UInt32 × E

variable {E ε : Type} [Entropy E]

abbrev Draw (E ε α : Type) : Type := Act E (Halt ε) α

def draw : Draw E ε (Option UInt32) :=
  ⟨fun e => (.ok (Entropy.nextU32 e).1, (Entropy.nextU32 e).2)⟩

/-- Uniform in `0..n` for non-zero `n`. -/
def below (n : Nat) : Draw E ε (Option Nat) := do
  Act.require (0 < n) (.panic "assertion failed: n > 0")
  let x ← draw
  pure (x.map fun x => x.toNat * n / 2 ^ 32)

/-- Uniform in `lo..=hi`. -/
def range (lo hi : Nat) : Draw E ε (Option Nat) := do
  Act.require (lo ≤ hi) (.panic "assertion failed: lo <= hi")
  let width := hi - lo + 1
  Act.require (width < 2 ^ 32) (.panic "assertion failed: width <= u32::MAX as usize")
  let x ← below width
  pure (x.map fun x => lo + x)

/-- The index `weighted` settles on, counted from `i`. -/
def weightedIndex : List Nat → Nat → Nat → Nat
  | [], _, i => i - 1
  | w :: weights, x, i => if x < w then i else weightedIndex weights (x - w) (i + 1)

/-- Pick an index with probability proportional to its weight. -/
def weighted (weights : List Nat) : Draw E ε (Option Nat) := do
  let total := weights.sum
  Act.require (total < 2 ^ 32) (.panic "attempt to add with overflow")
  Act.require (0 < total) (.panic "all weights are zero")
  let x ← below total
  pure (x.map fun x => weightedIndex weights x 0)

/-- splitmix64 output mixer. -/
def mix64 (z : UInt64) : UInt64 :=
  let z := (z ^^^ (z >>> 30)) * 0xBF58476D1CE4E5B9
  let z := (z ^^^ (z >>> 27)) * 0x94D049BB133111EB
  z ^^^ (z >>> 31)

/-- splitmix64: a Weyl sequence through `mix64`. -/
structure Rng where
  state : UInt64

instance : Entropy Rng where
  nextU32 e :=
    let state := e.state + 0x9E3779B97F4A7C15
    (some (mix64 state >>> 32).toUInt32, ⟨state⟩)

/-- Little-endian values read off a list of bytes; runs dry when fewer than four remain. -/
structure ByteSource where
  data : List UInt8

instance : Entropy ByteSource where
  nextU32
    | ⟨a :: b :: c :: d :: tail⟩ =>
      (some (a.toUInt32 ||| b.toUInt32 <<< 8 ||| c.toUInt32 <<< 16 ||| d.toUInt32 <<< 24), ⟨tail⟩)
    | e => (none, e)

/-! ## What is drawn

    Each draw stays in its range. It may panic only where the assertion fails; a caller
    that does not care passes an `H` that any panic satisfies. -/

variable {H : Halt ε → E → Prop}

/-- The assertion `p` holds, or its panic is allowed. -/
def Asserts (H : Halt ε → E → Prop) (p : Prop) : Prop := p ∨ ∀ msg e, H (.panic msg) e

omit [Entropy E] in
theorem Asserts.of {p q : Prop} (hp : Asserts H p) (h : p → q) : Asserts H q := hp.imp_left h

omit [Entropy E] in
theorem Asserts.require {p : Prop} [Decidable p] {P : E → Prop} {msg : String} (h : Asserts H p) :
    Act.Spec P (Act.require p (.panic msg)) (fun _ s => P s ∧ p) H :=
  Act.Spec.require (fun _ hs hp => ⟨hs, hp⟩) fun s _ hp => (h.resolve_left hp) msg s

theorem below_spec {n : Nat} (h : Asserts H (0 < n)) :
    Act.Spec (fun _ => True) (below n) (fun o _ => ∀ x ∈ o, x < n) H := by
  unfold below
  refine Act.Spec.bind h.require fun _ => ?_
  refine Act.Spec.bind (Q := fun _ _ => 0 < n) (fun s hs => hs.2) fun x => ?_
  refine Act.Spec.pure fun _ hn y hy => ?_
  obtain ⟨x, -, rfl⟩ := Option.map_eq_some_iff.mp hy
  have hx := x.toNat_lt
  exact Nat.div_lt_of_lt_mul (Nat.mul_lt_mul_of_pos_right hx hn)

theorem range_spec {lo hi : Nat} (h : Asserts H (lo ≤ hi ∧ hi - lo + 1 < 2 ^ 32)) :
    Act.Spec (fun _ => True) (range lo hi) (fun o _ => ∀ x ∈ o, lo ≤ x ∧ x ≤ hi) H := by
  have hlo : Asserts H (lo ≤ hi) := h.of And.left
  have hwidth : Asserts H (hi - lo + 1 < 2 ^ 32) := h.of And.right
  unfold range
  refine Act.Spec.bind hlo.require fun _ => ?_
  refine Act.Spec.bind hwidth.require fun _ => ?_
  refine Act.Spec.fix fun s hs => ?_
  have hle := hs.1.2
  refine Act.Spec.bind ((below_spec (Or.inl (Nat.succ_pos _))).pre fun _ _ => trivial) fun o => ?_
  refine Act.Spec.pure fun _ ho y hy => ?_
  obtain ⟨x, hx, rfl⟩ := Option.map_eq_some_iff.mp hy
  have := ho x hx
  omega

theorem weightedIndex_spec : ∀ (weights : List Nat) (x i : Nat), x < weights.sum →
    ∃ j w, weightedIndex weights x i = i + j ∧ weights[j]? = some w ∧ 0 < w
  | [], _, _, h => absurd h (Nat.not_lt_zero _)
  | w :: weights, x, i, h => by
    rw [List.sum_cons] at h
    unfold weightedIndex
    split
    · exact ⟨0, w, rfl, rfl, by omega⟩
    · obtain ⟨j, v, hj, hv, hpos⟩ := weightedIndex_spec weights (x - w) (i + 1) (by omega)
      exact ⟨j + 1, v, by omega, hv, hpos⟩

theorem weighted_spec {weights : List Nat} (h : Asserts H (weights.sum < 2 ^ 32 ∧ 0 < weights.sum)) :
    Act.Spec (fun _ => True) (weighted weights)
      (fun o _ => ∀ i ∈ o, ∃ w, weights[i]? = some w ∧ 0 < w) H := by
  have hsum : Asserts H (weights.sum < 2 ^ 32) := h.of And.left
  have hpos : Asserts H (0 < weights.sum) := h.of And.right
  unfold weighted
  refine Act.Spec.bind hsum.require fun _ => ?_
  refine Act.Spec.bind hpos.require fun _ => ?_
  refine Act.Spec.fix fun s hs => ?_
  refine Act.Spec.bind ((below_spec (Or.inl hs.2)).pre fun _ _ => trivial) fun o => ?_
  refine Act.Spec.pure fun _ ho i hi => ?_
  obtain ⟨x, hx, rfl⟩ := Option.map_eq_some_iff.mp hi
  obtain ⟨j, w, hj, hw, hpos⟩ := weightedIndex_spec weights x 0 (ho x hx)
  rw [hj, Nat.zero_add]
  exact ⟨w, hw, hpos⟩

end Wasmalloc.Testing
