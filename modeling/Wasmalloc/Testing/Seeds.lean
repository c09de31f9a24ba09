import Wasmalloc.Lib.Mixing
import Wasmalloc.Testing.Model
import Wasmalloc.Testing.Verify

/- Distinct blocks never carry the same pattern.

   The mixer keeps the counter values apart, so every block of a run gets a seed of its
   own (`Issued.nodup`). The words of two seeds differ in every chunk, and the words of one
   seed differ in any two chunks that are less than 2^64 apart. So a block that was filled
   for another one (`verify_other`), or that holds its own pattern at another place
   (`verify_moved`), fails the check as soon as one whole word of it is looked at. -/
namespace Wasmalloc.Testing
open ByteMem (Bytes readLE writeLE)
open Mixing

variable {b : Bytes} {p len limit x y : Nat} {seed seed' : UInt64}

/-! ## Seeds -/

theorem mix64_injective : Function.Injective mix64 := by
  have h1 : Function.Injective fun z : UInt64 => (z ^^^ z >>> 30) * 0xBF58476D1CE4E5B9 :=
    (mulOdd64_injective (by decide)).comp (xorShift64_injective (by decide))
  have h2 : Function.Injective fun z : UInt64 => (z ^^^ z >>> 27) * 0x94D049BB133111EB :=
    (mulOdd64_injective (by decide)).comp (xorShift64_injective (by decide))
  have h3 : Function.Injective fun z : UInt64 => z ^^^ z >>> 31 := xorShift64_injective (by decide)
  exact h3.comp (h2.comp h1)

theorem ofNat_inj {i j : Nat} (hi : i < 2 ^ 64) (hj : j < 2 ^ 64)
    (h : UInt64.ofNat i = UInt64.ofNat j) : i = j := by
  have hnat := congrArg UInt64.toNat h
  rwa [UInt64.toNat_ofNat', UInt64.toNat_ofNat', Nat.mod_eq_of_lt hi, Nat.mod_eq_of_lt hj] at hnat

/-- The first `n` seeds. -/
def issued (n : Nat) : List UInt64 := (List.range n).map fun k => mix64 (UInt64.ofNat (k + 1))

theorem issued_succ (n : Nat) : issued (n + 1) = issued n ++ [mix64 (UInt64.ofNat (n + 1))] := by
  unfold issued
  rw [List.range_succ, List.map_append, List.map_singleton]

theorem issued_nodup {n : Nat} (h : n < 2 ^ 64) : (issued n).Nodup := by
  refine List.Nodup.map_on (fun i hi j hj heq => ?_) List.nodup_range
  have hi := List.mem_range.mp hi
  have hj := List.mem_range.mp hj
  have := ofNat_inj (by omega) (by omega) (mix64_injective heq)
  omega

section
variable [Build] {A : Type} {m m' : Model A} {l : List UInt64}

/-! ## The counter -/

theorem freshSeed_run (h : m.nextSeed + 1 < 2 ^ 64) : Model.freshSeed.run m =
    (.ok (mix64 (UInt64.ofNat (m.nextSeed + 1))), { m with nextSeed := m.nextSeed + 1 }) := by
  unfold Model.freshSeed
  rw [Act.run_get_bind, Act.run_require_bind h]
  rfl

theorem freshSeed_ok (h : Model.freshSeed.run m = (.ok seed, m')) : m.nextSeed + 1 < 2 ^ 64 ∧
    m'.nextSeed = m.nextSeed + 1 ∧ seed = mix64 (UInt64.ofNat (m.nextSeed + 1)) := by
  by_cases hlt : m.nextSeed + 1 < 2 ^ 64
  · rw [freshSeed_run hlt] at h
    cases h
    exact ⟨hlt, rfl, rfl⟩
  · unfold Model.freshSeed at h
    rw [Act.run_get_bind] at h
    unfold Act.require at h
    rw [if_neg hlt] at h
    cases h

/-- The seeds of a run, in the order they were drawn: `fresh_seed` adds one, and nothing else
    the run does touches the counter. -/
inductive Issued : Model A → List UInt64 → Prop
  | new (alloc : A) (profile : Profile) : Issued (Model.new alloc profile) []
  | other {m m' : Model A} {l : List UInt64} (h : Issued m l) (hsame : m'.nextSeed = m.nextSeed) :
      Issued m' l
  | fresh {m m' : Model A} {l : List UInt64} {seed : UInt64} (h : Issued m l)
      (hrun : Model.freshSeed.run m = (.ok seed, m')) : Issued m' (l ++ [seed])

theorem Issued.eq (h : Issued m l) : m.nextSeed < 2 ^ 64 ∧ l = issued m.nextSeed := by
  induction h with
  | new alloc profile => exact ⟨Nat.two_pow_pos 64, rfl⟩
  | other h hsame ih =>
    rw [hsame]
    exact ih
  | fresh h hrun ih =>
    obtain ⟨hlt, hnext, hseed⟩ := freshSeed_ok hrun
    rw [hnext, issued_succ, ← ih.2, ← hseed]
    exact ⟨hlt, rfl⟩

/-- **No seed is given out twice.** -/
theorem Issued.nodup (h : Issued m l) : l.Nodup := by
  obtain ⟨hlt, rfl⟩ := h.eq
  exact issued_nodup hlt

theorem issued_of_lt : ∀ (n : Nat) {m : Model A}, n < 2 ^ 64 → m.nextSeed = n → Issued m (issued n)
  | 0, m, _, hm => (Issued.new m.alloc m.profile).other hm
  | n + 1, m, hn, hm => by
    have h := issued_of_lt n (m := { m with nextSeed := n }) (by omega) rfl
    rw [issued_succ]
    exact (h.fresh (freshSeed_run hn)).other hm

end

/-! ## Words -/

theorem neByte_ext {v w : UInt64} (h : ∀ i, i < 8 → neByte v i = neByte w i) : v = w := by
  let z : Bytes := fun _ => 0
  have hread : ∀ u : UInt64, readLE (writeLE z 0 8 u.toNat) 0 8 = u.toNat := fun u =>
    ByteMem.readLE_writeLE_of_lt u.toNat_lt
  have hbytes : ∀ x, 0 ≤ x → x < 0 + 8 → writeLE z 0 8 v.toNat x = writeLE z 0 8 w.toNat x := by
    intro x hlo hhi
    unfold writeLE
    rw [if_pos ⟨hlo, hhi⟩, if_pos ⟨hlo, hhi⟩]
    exact h x (by omega)
  apply UInt64.toNat_inj.mp
  rw [← hread v, ← hread w]
  exact ByteMem.readLE_congr hbytes

theorem word_seed {chunk : Nat} (h : word seed chunk = word seed' chunk) : seed = seed' := by
  unfold word at h
  exact (UInt64.xor_left_inj _).mp h

theorem word_chunk {i j : Nat} (h : word seed i = word seed j) : i ≡ j [MOD 2 ^ 64] := by
  unfold word at h
  have hmul := (UInt64.xor_right_inj _).mp h
  have hnat := congrArg UInt64.toNat (mulOdd64_injective (by decide) hmul)
  rwa [UInt64.toNat_ofNat', UInt64.toNat_ofNat'] at hnat

/-! ## Misplaced patterns -/

/-- The pattern that `seed` has at `y` stands at `x`, and a check against `seed'` lets it
    pass: the words are the same. -/
theorem word_of_verify (h : verify b p len limit (some seed') = none) (hx : x % 8 = 0)
    (hy : y % 8 = 0) (hc : ∀ i, i < 8 → Covered len limit (x + i))
    (hb : ∀ i, i < 8 → b (p + (x + i)) = expectedByte (some seed) (y + i)) :
    word seed (y / 8) = word seed' (x / 8) := by
  refine neByte_ext fun i hi => ?_
  calc neByte (word seed (y / 8)) i = expectedByte (some seed) (y + i) :=
        (expectedByte_add (s := some seed) hy hi).symm
    _ = b (p + (x + i)) := (hb i hi).symm
    _ = expectedByte (some seed') (x + i) := verify_none_iff.mp h _ (hc i hi)
    _ = neByte (word seed' (x / 8)) i := expectedByte_add hx hi

theorem Covered.first (h : 8 ≤ limit) : ∀ i, i < 8 → Covered len limit (0 + i) := fun i hi =>
  Covered.dense (Nat.lt_min.mpr ⟨by omega, by unfold densePrefix; omega⟩)

/-- The fill of one block does not pass for another. -/
theorem verify_other {len' : Nat} (hs : seed ≠ seed') (hlen : 8 ≤ len) (hlimit : 8 ≤ limit) :
    verify (fill b p len seed) p len' limit (some seed') ≠ none := by
  intro h
  refine hs (word_seed (word_of_verify h rfl rfl (Covered.first hlimit) fun i hi => ?_))
  have hfill := (@fill_apply b p len seed (p + (0 + i))).1
    ⟨Nat.le_add_right _ _, by rw [Nat.add_sub_cancel_left]; exact Covered.first hlen i hi⟩
  rwa [Nat.add_sub_cancel_left] at hfill

/-- A word of the pattern does not pass in the place of another. -/
theorem verify_moved (hx : x % 8 = 0) (hy : y % 8 = 0) (hne : x ≠ y) (hxy : x < y + 2 ^ 64)
    (hyx : y < x + 2 ^ 64) (hc : ∀ i, i < 8 → Covered len limit (x + i))
    (hb : ∀ i, i < 8 → b (p + (x + i)) = expectedByte (some seed) (y + i)) :
    verify b p len limit (some seed) ≠ none := by
  intro h
  have hmod := word_chunk (word_of_verify h hx hy hc hb)
  unfold Nat.ModEq at hmod
  omega

end Wasmalloc.Testing
