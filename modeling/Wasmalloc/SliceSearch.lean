import Wasmalloc.Slices
import Wasmalloc.Lib.Search

/- What the searches of the slice map find.

   A relative index `r` fits a request when the `count` slices from it are free and
   inside the map and its absolute index is a multiple of `align` (`Fits`). Five
   search algorithms serve the requests: scans for a set bit, a full nibble, byte or
   word, and a general scan over maximal free runs. All of them find the least index
   that fits (`find_least`), and `findTail` finds the least aligned index of the free
   tail (`findTail_spec`). -/
namespace Wasmalloc
open Words Search

variable [Build]

namespace SliceMap

/-- What every method of the map maintains. -/
structure Inv (m : SliceMap) : Prop where
  base_dvd : 64 ∣ m.base
  hint_le : m.hint ≤ words
  below_hint : ∀ i < m.hint * 64, bitAt m.free i = false
  zero_free : ∀ i, bitAt m.zero i = true → bitAt m.free i = true

/-- A run of `count` free slices with an aligned start can begin at `r`. -/
structure Fits (m : SliceMap) (count align r : Nat) : Prop where
  inside : r + count ≤ capacity
  free : ∀ i, r ≤ i → i < r + count → bitAt m.free i = true
  aligned : align ∣ m.base + r

theorem capacity_le : capacity ≤ 65536 := Build.words_le

theorem capacity_lt_usize : capacity < usizeSize := by
  have := capacity_le
  have := two_pow_32_le
  omega

/-! ## The scans of words -/

omit [Build] in
theorem pick_bit_least {x : U64} {w : Nat} :
    Least (fun k => k / 64 = w ∧ x.getLsbD (k % 64) = true)
      (if x ≠ 0 then some (w * 64 + trailingZeros x) else none) := by
  by_cases hx : x = 0
  · rw [if_neg (not_not.mpr hx)]
    intro k hk
    rw [hx] at hk
    simp at hk
  · rw [if_pos hx]
    obtain ⟨hlt, hbit, hlow⟩ := trailingZeros_spec hx
    have hdiv : (w * 64 + trailingZeros x) / 64 = w := by omega
    have hmod : (w * 64 + trailingZeros x) % 64 = trailingZeros x := by omega
    refine ⟨⟨hdiv, by rw [hmod]; exact hbit⟩, ?_⟩
    intro k hk hk'
    have hfalse := hlow (k % 64) (by omega)
    rw [hk'.2] at hfalse
    cases hfalse

/-- A scan for a picked bit finds the least one: the words below the hint hold none. -/
theorem findFirst_least {m : SliceMap} {pick : U64 → U64} (h : m.Inv)
    (hpick : ∀ x : U64, ∀ j, (pick x).getLsbD j = true → x.getLsbD j = true) :
    Least (fun k => k < capacity ∧ (pick (m.free (k / 64))).getLsbD (k % 64) = true)
      (m.findFirst pick) := by
  have hhint := h.hint_le
  apply least_findSome? 64
  · intro k hk
    have hfree : bitAt m.free k = true := hpick _ _ hk.2
    have hlow : ¬ k < m.hint * 64 := by
      intro hlt
      rw [h.below_hint k hlt] at hfree
      cases hfree
    have hcap := hk.1
    unfold capacity at hcap
    omega
  · intro w hw hw'
    refine pick_bit_least.congr ?_
    intro k
    constructor
    · intro hk
      have hcap : k < capacity := by unfold capacity; omega
      exact ⟨hk.1, hcap, by rw [hk.1]; exact hk.2⟩
    · intro hk
      refine ⟨hk.1, ?_⟩
      have := hk.2.2
      rwa [hk.1] at this

section Folds
omit [Build]

/-- Folding by `s` halves the spacing: it joins the groups of bits `2s` apart to
    groups of bits `s` apart. -/
theorem fold_spaced {x y : U64} {s n : Nat}
    (hy : ∀ j, y.getLsbD j = true ↔ ∀ d < n, x.getLsbD (j + 2 * s * d) = true) (j : Nat) :
    (y &&& (y >>> s)).getLsbD j = true ↔ ∀ d < 2 * n, x.getLsbD (j + s * d) = true := by
  rw [BitVec.getLsbD_and, BitVec.getLsbD_ushiftRight, Bool.and_eq_true, hy, hy]
  constructor
  · intro h d hd
    rcases Nat.even_or_odd' d with ⟨e, he | he⟩
    · have := h.1 e (by omega)
      rwa [show j + 2 * s * e = j + s * d by rw [he]; ring] at this
    · have := h.2 e (by omega)
      rwa [show s + j + 2 * s * e = j + s * d by rw [he]; ring] at this
  · intro h
    refine ⟨?_, ?_⟩
    · intro d hd
      have := h (2 * d) (by omega)
      rwa [show j + s * (2 * d) = j + 2 * s * d by ring] at this
    · intro d hd
      have := h (2 * d + 1) (by omega)
      rwa [show j + s * (2 * d + 1) = s + j + 2 * s * d by ring] at this

theorem getLsbD_fold_mask {x y m : U64} {k : Nat} (hk : 0 < k)
    (hy : ∀ j, y.getLsbD j = true ↔ ∀ d < k, x.getLsbD (j + d) = true)
    (hm : ∀ j < 64, m.getLsbD j = decide (k ∣ j)) (j : Nat) :
    (y &&& m).getLsbD j = true ↔ k ∣ j ∧ ∀ d < k, x.getLsbD (j + d) = true := by
  rw [BitVec.getLsbD_and, Bool.and_eq_true, hy]
  by_cases hj : j < 64
  · rw [hm j hj, decide_eq_true_eq]
    exact And.comm
  · have hx : x.getLsbD j = false := BitVec.getLsbD_of_ge x j (by omega)
    have hnone : ¬ ∀ d < k, x.getLsbD (j + d) = true := by
      intro h
      have := h 0 hk
      rw [Nat.add_zero, hx] at this
      cases this
    exact ⟨fun h => absurd h.1 hnone, fun h => absurd h.2 hnone⟩

theorem getLsbD_fullNibbles (x : U64) (j : Nat) : (fullNibbles x).getLsbD j = true ↔
    4 ∣ j ∧ ∀ d < 4, x.getLsbD (j + d) = true := by
  have h1 : ∀ j, x.getLsbD j = true ↔ ∀ d < 1, x.getLsbD (j + 2 * 2 * d) = true := by simp
  have h2 := fold_spaced (n := 1) h1
  have h4 := fold_spaced (s := 1) (n := 2) h2
  simp only [Nat.one_mul] at h4
  exact getLsbD_fold_mask (by decide) h4 (by decide) j

theorem getLsbD_fullBytes (x : U64) (j : Nat) : (fullBytes x).getLsbD j = true ↔
    8 ∣ j ∧ ∀ d < 8, x.getLsbD (j + d) = true := by
  have h1 : ∀ j, x.getLsbD j = true ↔ ∀ d < 1, x.getLsbD (j + 2 * 4 * d) = true := by simp
  have h2 := fold_spaced (n := 1) h1
  have h4 := fold_spaced (s := 2) (n := 2) h2
  have h8 := fold_spaced (s := 1) (n := 4) h4
  simp only [Nat.one_mul] at h8
  exact getLsbD_fold_mask (by decide) h8 (by decide) j

end Folds

/-- A run as long as its alignment `k`, a divisor of 64, is a group of `k` bits of one word. -/
theorem fits_group {m : SliceMap} (h : m.Inv) {k r : Nat} (hk : 0 < k) (hdvd : k ∣ 64) :
    m.Fits k k r ↔ r < capacity ∧
      k ∣ r % 64 ∧ ∀ d < k, (m.free (r / 64)).getLsbD (r % 64 + d) = true := by
  have hbase : k ∣ m.base := dvd_trans hdvd h.base_dvd
  have hword : k ∣ r → ∀ d < k, (r + d) / 64 = r / 64 ∧ (r + d) % 64 = r % 64 + d := by
    intro hr d hd
    have hmod : k ∣ r % 64 := (Nat.dvd_mod_iff hdvd).mpr hr
    have hle : k ≤ 64 - r % 64 := Nat.le_of_dvd (by omega) (Nat.dvd_sub hdvd hmod)
    omega
  constructor
  · intro hf
    have hr : k ∣ r := (Nat.dvd_add_right hbase).mp hf.aligned
    have hin := hf.inside
    refine ⟨by omega, (Nat.dvd_mod_iff hdvd).mpr hr, ?_⟩
    intro d hd
    have hbit := hf.free (r + d) (by omega) (by omega)
    obtain ⟨hdiv, hmod⟩ := hword hr d hd
    unfold bitAt at hbit
    rwa [hdiv, hmod] at hbit
  · intro ⟨hcap, hmod, hbits⟩
    have hr : k ∣ r := (Nat.dvd_mod_iff hdvd).mp hmod
    refine { inside := ?_, free := ?_, aligned := Nat.dvd_add hbase hr }
    · have hcap64 : k ∣ capacity := dvd_trans hdvd (Dvd.intro_left _ rfl)
      have hle : k ≤ capacity - r := Nat.le_of_dvd (by omega) (Nat.dvd_sub hcap64 hr)
      omega
    · intro i hi hi'
      obtain ⟨hdiv, himod⟩ := hword hr (i - r) (by omega)
      rw [show r + (i - r) = i by omega] at hdiv himod
      have hbit := hbits (i - r) (by omega)
      unfold bitAt
      rwa [hdiv, himod]

theorem findFirst_fits {m : SliceMap} {pick : U64 → U64} (h : m.Inv) {k : Nat} (hk : 0 < k)
    (hdvd : k ∣ 64) (hpick : ∀ x : U64, ∀ j, (pick x).getLsbD j = true ↔
      k ∣ j ∧ ∀ d < k, x.getLsbD (j + d) = true) :
    Least (m.Fits k k) (m.findFirst pick) := by
  have hsub : ∀ x : U64, ∀ j, (pick x).getLsbD j = true → x.getLsbD j = true := by
    intro x j hj
    have := ((hpick x j).mp hj).2 0 hk
    rwa [Nat.add_zero] at this
  refine (findFirst_least h hsub).congr ?_
  intro r
  rw [fits_group h hk hdvd, hpick]

theorem findWord_eq (m : SliceMap) : m.findWord =
    m.findFirst (fun x => if x = BitVec.allOnes 64 then 1 else 0) := by
  unfold findWord findFirst
  congr 1
  funext w
  by_cases hw : m.free w = BitVec.allOnes 64
  · simp only [hw, if_true]
    rfl
  · have hpick : (if m.free w = BitVec.allOnes 64 then (1 : U64) else 0) = 0 := if_neg hw
    simp only [hpick, if_neg hw, ne_eq, not_true_eq_false, if_false]

omit [Build] in
theorem getLsbD_fullWord (x : U64) (j : Nat) :
    (if x = BitVec.allOnes 64 then (1 : U64) else 0).getLsbD j = true ↔
      64 ∣ j ∧ ∀ d < 64, x.getLsbD (j + d) = true := by
  have hone : (1 : U64).getLsbD j = decide (j = 0) := by simp
  by_cases hx : x = BitVec.allOnes 64
  · rw [if_pos hx, hone, decide_eq_true_eq]
    constructor
    · intro hj
      subst hj
      exact ⟨Nat.dvd_zero 64, fun d hd => by rw [Nat.zero_add]; exact eq_allOnes_iff.mp hx d hd⟩
    · intro hj
      have hlt : j + 0 < 64 := BitVec.lt_of_getLsbD (hj.2 0 (by decide))
      obtain ⟨q, hq⟩ := hj.1
      omega
  · rw [if_neg hx]
    have hz : (0 : U64).getLsbD j = false := by simp
    rw [hz]
    constructor
    · intro hf
      cases hf
    · intro hj
      exfalso
      apply hx
      rw [eq_allOnes_iff]
      have hlt : j + 0 < 64 := BitVec.lt_of_getLsbD (hj.2 0 (by decide))
      obtain ⟨q, hq⟩ := hj.1
      intro i hi
      have := hj.2 i hi
      rwa [show j + i = i by omega] at this

/-! ## The general scan -/

/-- The scan stands at word `w`, whose bits from `pos` on are in `b`, and has found
    nothing in the words before. -/
theorem nextSetFrom_least {m : SliceMap} {pos fuel : Nat} : ∀ {w : Nat} {b : U64},
    w < words → words ≤ w + fuel → pos / 64 ≤ w →
    (∀ k, pos ≤ k → k < capacity → bitAt m.free k = true → w ≤ k / 64) →
    (∀ j < 64, b.getLsbD j = true ↔ (m.free w).getLsbD j = true ∧ pos ≤ w * 64 + j) →
    Least (fun k => pos ≤ k ∧ k < capacity ∧ bitAt m.free k = true)
      (nextSetFrom m.free fuel w b) := by
  induction fuel with
  | zero => intro w b hw hfuel; omega
  | succ fuel ih =>
    intro w b hw hfuel hpos hbefore hb
    -- A free slice of word `w` shows in `b`.
    have hshow : ∀ k, pos ≤ k → k / 64 = w → bitAt m.free k = true →
        b.getLsbD (k % 64) = true := by
      intro k hk hkw hbit
      unfold bitAt at hbit
      rw [hkw] at hbit
      exact (hb (k % 64) (by omega)).mpr ⟨hbit, by omega⟩
    rw [nextSetFrom]
    by_cases hb0 : b = 0
    · have hword : ∀ k, pos ≤ k → k < capacity → bitAt m.free k = true → w + 1 ≤ k / 64 := by
        intro k hk hcap hbit
        have hge := hbefore k hk hcap hbit
        by_contra hlt
        exact ne_zero_of_bit (hshow k hk (by omega) hbit) hb0
      rw [if_neg (not_not.mpr hb0)]
      by_cases hlast : words ≤ w + 1
      · rw [if_pos hlast]
        intro k hk
        have := hword k hk.1 hk.2.1 hk.2.2
        have hcap := hk.2.1
        unfold capacity at hcap
        omega
      · rw [if_neg hlast]
        refine ih (by omega) (by omega) (by omega) hword ?_
        intro j hj
        have hge : pos ≤ (w + 1) * 64 + j := by omega
        simp [hge]
    · rw [if_pos hb0]
      obtain ⟨hlt, hbit, hlow⟩ := trailingZeros_spec hb0
      obtain ⟨hfree, hge⟩ := (hb _ hlt).mp hbit
      have hdiv : (w * 64 + trailingZeros b) / 64 = w := by omega
      have hmod : (w * 64 + trailingZeros b) % 64 = trailingZeros b := by omega
      refine ⟨⟨hge, ?_, ?_⟩, ?_⟩
      · unfold capacity
        omega
      · unfold bitAt
        rwa [hdiv, hmod]
      · intro k hk ⟨hkpos, hkcap, hkbit⟩
        have hkw := hbefore k hkpos hkcap hkbit
        have htrue := hshow k hkpos (by omega) hkbit
        rw [hlow (k % 64) (by omega)] at htrue
        cases htrue

omit [Build] in
theorem getLsbD_from {x : U64} {s j : Nat} (hj : j < 64) :
    (x &&& (BitVec.allOnes 64 <<< s)).getLsbD j = true ↔ x.getLsbD j = true ∧ s ≤ j := by
  rw [BitVec.getLsbD_and, BitVec.getLsbD_shiftLeft, BitVec.getLsbD_allOnes, Bool.and_eq_true]
  have hlt : j - s < 64 := by omega
  simp [hj, hlt]

theorem nextSet_least (m : SliceMap) (pos : Nat) :
    Least (fun k => pos ≤ k ∧ k < capacity ∧ bitAt m.free k = true) (m.nextSet pos) := by
  unfold nextSet
  by_cases hw : words ≤ pos / 64
  · simp only [hw, if_true]
    intro k hk
    have hcap := hk.2.1
    unfold capacity at hcap
    omega
  · simp only [hw, if_false]
    refine nextSetFrom_least (by omega) (by omega) (Nat.le_refl _) ?_ ?_
    · intro k hk _ _
      exact Nat.div_le_div_right hk
    · intro j hj
      rw [getLsbD_from hj]
      apply and_congr_right
      intro _
      omega

/-- `hi` ends the run of free slices that starts at `pos`. -/
structure EndsRun (m : SliceMap) (pos hi : Nat) : Prop where
  le : pos ≤ hi
  le_capacity : hi ≤ capacity
  free : ∀ k, pos ≤ k → k < hi → bitAt m.free k = true
  taken : hi < capacity → bitAt m.free hi = false

theorem nextClearFrom_spec {m : SliceMap} {pos fuel : Nat} (hcap : pos ≤ capacity) :
    ∀ {w : Nat} {b : U64}, w < words → words ≤ w + fuel → pos / 64 ≤ w →
    (∀ k, pos ≤ k → k < w * 64 → bitAt m.free k = true) →
    (∀ j < 64, b.getLsbD j = true ↔ (m.free w).getLsbD j = true ∨ w * 64 + j < pos) →
    m.EndsRun pos (nextClearFrom m.free fuel w b) := by
  induction fuel with
  | zero => intro w b hw hfuel; omega
  | succ fuel ih =>
    intro w b hw hfuel hpos hbefore hb
    rw [nextClearFrom]
    -- `b` is the word with the bits below `pos` set, so its first clear bit ends the run.
    by_cases hones : b = BitVec.allOnes 64
    · have hword : ∀ k, pos ≤ k → k < (w + 1) * 64 → bitAt m.free k = true := by
        intro k hk hk'
        by_cases hkw : k < w * 64
        · exact hbefore k hk hkw
        · have hdiv : k / 64 = w := by omega
          unfold bitAt
          rw [hdiv]
          have hbit := (hb (k % 64) (by omega)).mp (eq_allOnes_iff.mp hones _ (by omega))
          exact hbit.resolve_right (by omega)
      rw [if_neg (not_not.mpr hones)]
      -- All ones: the run goes on into the next word, or to the end of the map.
      by_cases hlast : words ≤ w + 1
      · rw [if_pos hlast]
        refine { le := hcap, le_capacity := Nat.le_refl _, free := ?_, taken := ?_ }
        · intro k hk hk'
          unfold capacity at hk'
          exact hword k hk (by omega)
        · intro h
          omega
      · rw [if_neg hlast]
        refine ih (by omega) (by omega) (by omega) hword ?_
        intro j hj
        have hge : ¬ (w + 1) * 64 + j < pos := by omega
        simp [hge]
    · rw [if_pos hones]
      have hne : ~~~b ≠ 0 := by
        intro h0
        apply hones
        rw [eq_allOnes_iff]
        intro j hj
        have := eq_zero_iff.mp h0 j hj
        rw [BitVec.getLsbD_not] at this
        simpa [hj] using this
      obtain ⟨hlt, hbit, hlow⟩ := trailingZeros_spec hne
      generalize trailingZeros (~~~b) = t at hlt hbit hlow
      have hclear : b.getLsbD t = false := by
        rw [BitVec.getLsbD_not] at hbit
        simpa [hlt] using hbit
      have hboth : ¬ ((m.free w).getLsbD t = true ∨ w * 64 + t < pos) := by
        rw [← hb t hlt, hclear]
        exact Bool.false_ne_true
      obtain ⟨htaken, hge⟩ := not_or.mp hboth
      refine { le := by omega, le_capacity := ?_, free := ?_, taken := ?_ }
      · unfold capacity
        omega
      · intro k hk hk'
        by_cases hkw : k < w * 64
        · exact hbefore k hk hkw
        · have hdiv : k / 64 = w := by omega
          have hset := hlow (k % 64) (by omega)
          rw [BitVec.getLsbD_not] at hset
          have hk64 : k % 64 < 64 := by omega
          have hbk : b.getLsbD (k % 64) = true := by simpa [hk64] using hset
          unfold bitAt
          rw [hdiv]
          exact ((hb _ hk64).mp hbk).resolve_right (by omega)
      · intro _
        have hdiv : (w * 64 + t) / 64 = w := by omega
        have hmod : (w * 64 + t) % 64 = t := by omega
        unfold bitAt
        rw [hdiv, hmod]
        exact Bool.not_eq_true _ ▸ htaken

theorem nextClear_spec (m : SliceMap) {pos : Nat} (h : pos < capacity) :
    m.EndsRun pos (m.nextClear pos) := by
  have hw : ¬ words ≤ pos / 64 := by
    unfold capacity at h
    omega
  unfold nextClear
  simp only [hw, if_false]
  refine nextClearFrom_spec (Nat.le_of_lt h) (by omega) (by omega) (Nat.le_refl _) ?_ ?_
  · intro k hk hk'
    omega
  · intro j hj
    rw [BitVec.getLsbD_or, BitVec.getLsbD_not, BitVec.getLsbD_shiftLeft, BitVec.getLsbD_allOnes,
      Bool.or_eq_true]
    have hlt : j - pos % 64 < 64 := by omega
    apply or_congr_right
    simp only [hj, hlt, decide_true, Bool.true_and, Bool.and_true, Bool.not_not, decide_eq_true_eq]
    omega

/-- `lo` starts the run of free slices that ends at `pos`. -/
structure StartsRun (m : SliceMap) (lo pos : Nat) : Prop where
  le : lo ≤ pos
  free : ∀ k, lo ≤ k → k < pos → bitAt m.free k = true
  taken : 0 < lo → bitAt m.free (lo - 1) = false

omit [Build] in
/-- The bits of word `w` in `b` are its taken slices below `pos`; there is none. -/
theorem free_of_none {m : SliceMap} {pos w : Nat} {b : U64}
    (hafter : ∀ k, (w + 1) * 64 ≤ k → k < pos → bitAt m.free k = true)
    (hb : ∀ j < 64, b.getLsbD j = true ↔ (m.free w).getLsbD j = false ∧ w * 64 + j < pos)
    (hb0 : b = 0) {k : Nat} (hk : w * 64 ≤ k) (hk' : k < pos) : bitAt m.free k = true := by
  by_cases hkw : (w + 1) * 64 ≤ k
  · exact hafter k hkw hk'
  · have hdiv : k / 64 = w := by omega
    have hlt : k % 64 < 64 := Nat.mod_lt k (by decide)
    have hclear := eq_zero_iff.mp hb0 (k % 64) hlt
    unfold bitAt
    rw [hdiv]
    by_contra hf
    rw [Bool.not_eq_true] at hf
    rw [(hb _ hlt).mpr ⟨hf, by omega⟩] at hclear
    cases hclear

omit [Build] in
theorem startsRun_of_bit {m : SliceMap} {pos w : Nat} {b : U64}
    (hafter : ∀ k, (w + 1) * 64 ≤ k → k < pos → bitAt m.free k = true)
    (hb : ∀ j < 64, b.getLsbD j = true ↔ (m.free w).getLsbD j = false ∧ w * 64 + j < pos)
    (hb0 : b ≠ 0) : m.StartsRun (w * 64 + (63 - leadingZeros b) + 1) pos := by
  obtain ⟨hlz, hbit, hhigh⟩ := leadingZeros_spec hb0
  have hlt : 63 - leadingZeros b < 64 := by omega
  generalize 63 - leadingZeros b = t at hbit hhigh hlt
  obtain ⟨htaken, hpos⟩ := (hb t hlt).mp hbit
  refine { le := hpos, free := ?_, taken := ?_ }
  · intro k hk hk'
    by_cases hkw : (w + 1) * 64 ≤ k
    · exact hafter k hkw hk'
    · have hdiv : k / 64 = w := by omega
      have hlt : k % 64 < 64 := Nat.mod_lt k (by decide)
      have hclear := hhigh (k % 64) hlt (by omega)
      unfold bitAt
      rw [hdiv]
      by_contra hf
      rw [Bool.not_eq_true] at hf
      rw [(hb _ hlt).mpr ⟨hf, by omega⟩] at hclear
      cases hclear
  · intro _
    have hdiv : (w * 64 + t + 1 - 1) / 64 = w := by omega
    have hmod : (w * 64 + t + 1 - 1) % 64 = t := by omega
    unfold bitAt
    rw [hdiv, hmod]
    exact htaken

omit [Build] in
theorem prevClearFrom_spec {m : SliceMap} {pos : Nat} : ∀ {w : Nat} {b : U64},
    w * 64 < pos →
    (∀ k, (w + 1) * 64 ≤ k → k < pos → bitAt m.free k = true) →
    (∀ j < 64, b.getLsbD j = true ↔ (m.free w).getLsbD j = false ∧ w * 64 + j < pos) →
    m.StartsRun ((prevClearFrom m.free w b).elim 0 (· + 1)) pos := by
  intro w
  induction w with
  | zero =>
    intro b hw hafter hb
    rw [prevClearFrom]
    by_cases hb0 : b = 0
    · rw [if_neg (not_not.mpr hb0)]
      exact { le := Nat.zero_le _, free := fun k _ hk => free_of_none hafter hb hb0 (by omega) hk,
              taken := fun h => absurd h (Nat.lt_irrefl 0) }
    · rw [if_pos hb0]
      exact startsRun_of_bit hafter hb hb0
  | succ w ih =>
    intro b hw hafter hb
    rw [prevClearFrom]
    by_cases hb0 : b = 0
    · rw [if_neg (not_not.mpr hb0)]
      refine ih (by omega) (fun k hk hk' => free_of_none hafter hb hb0 hk hk') ?_
      intro j hj
      have hlt : w * 64 + j < pos := by omega
      rw [BitVec.getLsbD_not]
      simp [hj, hlt]
    · rw [if_pos hb0]
      exact startsRun_of_bit hafter hb hb0

theorem prevClear_spec (m : SliceMap) (pos : Nat) (h : pos ≤ capacity) :
    m.StartsRun ((m.prevClear pos).elim 0 (· + 1)) pos := by
  unfold prevClear
  by_cases h0 : pos = 0
  · rw [if_pos h0]
    exact { le := Nat.zero_le _, free := fun k _ hk => by omega,
            taken := fun h => absurd h (Nat.lt_irrefl 0) }
  · rw [if_neg h0]
    have hw : min ((pos - 1) / 64) (words - 1) = (pos - 1) / 64 := by
      unfold capacity at h
      omega
    simp only [hw]
    refine prevClearFrom_spec (by omega) (fun k hk hk' => by omega) ?_
    intro j hj
    rw [BitVec.getLsbD_and, BitVec.getLsbD_not, BitVec.getLsbD_ushiftRight,
      BitVec.getLsbD_allOnes, Bool.and_eq_true]
    have hiff : 63 - (pos - 1) % 64 + j < 64 ↔ (pos - 1) / 64 * 64 + j < pos := by omega
    simp [hj, hiff]

/-! ## Aligned runs -/

/-- `alignUp` finds the least aligned index at or above `r`; it fails only where that
    index does not fit a `usize`. -/
theorem alignUp_spec (m : SliceMap) (r : Nat) {k : Nat} :
    (∀ s, m.alignUp r (2 ^ k) = some s →
      r ≤ s ∧ 2 ^ k ∣ m.base + s ∧ ∀ t, r ≤ t → 2 ^ k ∣ m.base + t → s ≤ t) ∧
    (m.alignUp r (2 ^ k) = none → ∀ t, r ≤ t → 2 ^ k ∣ m.base + t → usizeSize ≤ t) := by
  have hpos : 0 < 2 ^ k := Nat.two_pow_pos k
  unfold alignUp
  simp only [Nat.and_two_pow_sub_one_eq_mod]
  have hmod := Nat.mod_lt (m.base + r) hpos
  have hdiv := Nat.div_add_mod (m.base + r) (2 ^ k)
  by_cases h0 : (m.base + r) % 2 ^ k = 0
  · rw [if_pos h0]
    refine ⟨?_, fun h => by cases h⟩
    intro s hs
    obtain rfl := Option.some.inj hs
    exact ⟨Nat.le_refl r, Nat.dvd_of_mod_eq_zero h0, fun t ht _ => ht⟩
  · rw [if_neg h0]
    -- The next multiple is `2^k - excess` further; none lies in between.
    have hnext : ∀ t, r ≤ t → 2 ^ k ∣ m.base + t → r + (2 ^ k - (m.base + r) % 2 ^ k) ≤ t := by
      intro t ht hdvd
      obtain ⟨q, hq⟩ := hdvd
      have hlt : (m.base + r) / 2 ^ k < q := by
        by_contra hge
        have := Nat.mul_le_mul_left (2 ^ k) (Nat.le_of_not_lt hge)
        omega
      have hmul := Nat.mul_le_mul_left (2 ^ k) (Nat.succ_le_of_lt hlt)
      rw [Nat.mul_succ] at hmul
      omega
    have haligned : 2 ^ k ∣ m.base + (r + (2 ^ k - (m.base + r) % 2 ^ k)) := by
      refine ⟨(m.base + r) / 2 ^ k + 1, ?_⟩
      rw [Nat.mul_add, Nat.mul_one]
      omega
    unfold checkedAdd
    split_ifs with hfit
    · refine ⟨?_, fun h => by cases h⟩
      intro s hs
      obtain rfl := Option.some.inj hs
      exact ⟨Nat.le_add_right _ _, haligned, hnext⟩
    · refine ⟨(fun s hs => by cases hs), fun _ t ht hdvd => ?_⟩
      have := hnext t ht hdvd
      omega

theorem findGeneralFrom_least {m : SliceMap} {count k fuel : Nat} (hc : 1 ≤ count) :
    ∀ {pos : Nat}, capacity < pos + fuel → (∀ r < pos, ¬ m.Fits count (2 ^ k) r) →
    Least (m.Fits count (2 ^ k)) (m.findGeneralFrom count (2 ^ k) fuel pos) := by
  have hcap := capacity_lt_usize
  induction fuel with
  | zero =>
    intro pos hfuel hbelow r hr
    exact hbelow r (by have := hr.inside; omega) hr
  | succ fuel ih =>
    intro pos hfuel hbelow
    have hset := m.nextSet_least pos
    rw [findGeneralFrom]
    cases hlo : m.nextSet pos with
    | none =>
      rw [hlo] at hset
      intro r hr
      have hin := hr.inside
      by_cases hrp : r < pos
      · exact hbelow r hrp hr
      · exact hset r ⟨by omega, by omega, hr.free r (Nat.le_refl r) (by omega)⟩
    | some lo =>
      rw [hlo] at hset
      obtain ⟨⟨hpos, hcaplo, hbit⟩, hleast⟩ := hset
      have hends := m.nextClear_spec hcaplo
      obtain ⟨hsome, hnone⟩ := m.alignUp_spec lo (k := k)
      -- What fits starts inside the maximal run `[lo, hi)` or above it.
      have hlow : ∀ r, m.Fits count (2 ^ k) r → lo ≤ r := by
        intro r hr
        have hin := hr.inside
        by_contra hlt
        by_cases hrp : r < pos
        · exact hbelow r hrp hr
        · exact hleast r (by omega)
            ⟨by omega, by omega, hr.free r (Nat.le_refl r) (by omega)⟩
      have hinside : ∀ r, m.Fits count (2 ^ k) r → r < m.nextClear lo →
          r + count ≤ m.nextClear lo := by
        intro r hr hlt
        by_contra hgt
        have hin := hr.inside
        have hfree := hr.free (m.nextClear lo) (Nat.le_of_lt hlt) (by omega)
        rw [hends.taken (by omega)] at hfree
        cases hfree
      simp only
      cases hstart : m.alignUp lo (2 ^ k) with
      | none =>
        intro r hr
        have hin := hr.inside
        have := hnone hstart r (hlow r hr) hr.aligned
        omega
      | some start =>
        obtain ⟨hge, halign, hmin⟩ := hsome start hstart
        simp only
        split_ifs with hroom
        · have hhi := hends.le_capacity
          refine ⟨{ inside := by omega, free := ?_, aligned := halign }, ?_⟩
          · intro i hi hi'
            exact hends.free i (by omega) (by omega)
          · intro r hr hfits
            have := hmin r (hlow r hfits) hfits.aligned
            omega
        · have hhilo : lo < m.nextClear lo := by
            by_contra hle
            have heq : m.nextClear lo = lo := Nat.le_antisymm (by omega) hends.le
            have := hends.taken (by omega)
            rw [heq, hbit] at this
            cases this
          refine ih (by omega) ?_
          intro r hr hfits
          have := hmin r (hlow r hfits) hfits.aligned
          have := hinside r hfits hr
          exact hroom ⟨by omega, by omega⟩

theorem findGeneral_least {m : SliceMap} {count k : Nat} (h : m.Inv) (hc : 1 ≤ count) :
    Least (m.Fits count (2 ^ k)) (m.findGeneral count (2 ^ k)) := by
  unfold findGeneral
  split_ifs with hbig
  · intro r hr
    have := hr.inside
    omega
  · refine findGeneralFrom_least hc (by omega) ?_
    intro r hr hfits
    have hfree := hfits.free r (Nat.le_refl r) (by omega)
    rw [h.below_hint r hr] at hfree
    cases hfree

/-- **Every search finds the least fit**, and `none` means that nothing fits. -/
theorem find_least {m : SliceMap} {count k : Nat} (h : m.Inv) (hc : 1 ≤ count) :
    Least (m.Fits count (2 ^ k)) (m.find count (2 ^ k)) := by
  unfold find
  split_ifs with heq h1 h4 h8 h64
  · rw [← heq, h1]
    refine findFirst_fits h (by decide) (by decide) ?_
    intro x j
    simp
  · rw [← heq, h4]
    exact findFirst_fits h (by decide) (by decide) getLsbD_fullNibbles
  · rw [← heq, h8]
    exact findFirst_fits h (by decide) (by decide) getLsbD_fullBytes
  · rw [← heq, h64, findWord_eq]
    exact findFirst_fits h (by decide) (by decide) getLsbD_fullWord
  · exact findGeneral_least h hc
  · exact findGeneral_least h hc

/-- `s` starts a run of free slices that ends at `stop`. -/
def InTail (m : SliceMap) (stop s : Nat) : Prop :=
  s < stop ∧ ∀ j, s ≤ j → j < stop → bitAt m.free j = true

/-- The end of the tail, relative to the map. -/
def relEnd (m : SliceMap) (below : Nat) : Nat := min (below - m.base) capacity

omit [Build] in
theorem inTail_iff {m : SliceMap} {stop lo s : Nat} (hlast : bitAt m.free (stop - 1) = true)
    (hstarts : m.StartsRun lo (stop - 1)) : m.InTail stop s ↔ lo ≤ s ∧ s < stop := by
  constructor
  · intro ⟨hlt, hfree⟩
    refine ⟨?_, hlt⟩
    by_contra hlo
    have htaken := hstarts.taken (by omega)
    have hle := hstarts.le
    rw [hfree (lo - 1) (by omega) (by omega)] at htaken
    cases htaken
  · intro ⟨hge, hlt⟩
    refine ⟨hlt, fun j hj hj' => ?_⟩
    by_cases hjl : j = stop - 1
    · rw [hjl]
      exact hlast
    · exact hstarts.free j (by omega) (by omega)

/-- **`findTail` takes the bottom of the tail**: the least aligned slice of the free tail, when
    it leaves room for `count` slices. -/
theorem findTail_spec {m : SliceMap} {count k below : Nat} (hc : 1 ≤ count) :
    (∀ r, m.findTail count (2 ^ k) below = some r →
      Least (fun s => m.InTail (m.relEnd below) s ∧ 2 ^ k ∣ m.base + s) (some r) ∧
        r + count ≤ m.relEnd below) ∧
    (m.findTail count (2 ^ k) below = none → ∀ s, m.InTail (m.relEnd below) s →
      2 ^ k ∣ m.base + s → m.relEnd below < s + count) := by
  have hcap := capacity_lt_usize
  have hle : m.relEnd below ≤ capacity := Nat.min_le_right _ _
  unfold findTail
  simp only
  rw [show min (below - m.base) capacity = m.relEnd below from rfl]
  generalize m.relEnd below = stop at hle ⊢
  split_ifs with hstop
  · -- The slice below the end is taken: the tail is empty.
    refine ⟨fun r hr => (by cases hr), fun _ s hs _ => ?_⟩
    obtain ⟨hlt, hfree⟩ := hs
    rcases hstop with h0 | hlast
    · omega
    · have hbit := hfree (stop - 1) (by omega) (by omega)
      rw [bit_eq, hbit, Bool.and_true, decide_eq_false_iff_not] at hlast
      exact absurd (show stop - 1 < capacity by omega) hlast
  · obtain ⟨hne, hlast⟩ := not_or.mp hstop
    rw [Bool.not_eq_false, bit_eq, Bool.and_eq_true] at hlast
    -- The tail starts after the last clear bit, or at the base where there is none.
    have hstarts := m.prevClear_spec (stop - 1) (by omega)
    split
    · rename_i hstart
      obtain ⟨lo, hstarts, hstart⟩ : ∃ lo, m.StartsRun lo (stop - 1) ∧
          m.alignUp lo (2 ^ k) = none := by
        cases hprev : m.prevClear (stop - 1) with
        | none =>
          rw [hprev] at hstart hstarts
          exact ⟨0, hstarts, hstart⟩
        | some c =>
          rw [hprev] at hstart hstarts
          exact ⟨c + 1, hstarts, hstart⟩
      refine ⟨fun r hr => (by cases hr), fun _ s hs hdvd => ?_⟩
      have := (m.alignUp_spec lo).2 hstart s ((inTail_iff hlast.2 hstarts).mp hs).1 hdvd
      have := hs.1
      omega
    · rename_i start hstart
      obtain ⟨lo, hstarts, hstart⟩ : ∃ lo, m.StartsRun lo (stop - 1) ∧
          m.alignUp lo (2 ^ k) = some start := by
        cases hprev : m.prevClear (stop - 1) with
        | none =>
          rw [hprev] at hstart hstarts
          exact ⟨0, hstarts, hstart⟩
        | some c =>
          rw [hprev] at hstart hstarts
          exact ⟨c + 1, hstarts, hstart⟩
      obtain ⟨hge, halign, hmin⟩ := (m.alignUp_spec lo).1 start hstart
      have hleast : ∀ s, m.InTail stop s → 2 ^ k ∣ m.base + s → start ≤ s := fun s hs hdvd =>
        hmin s ((inTail_iff hlast.2 hstarts).mp hs).1 hdvd
      split_ifs with hroom
      · refine ⟨fun r hr => ?_, fun hr => (by cases hr)⟩
        obtain rfl := Option.some.inj hr
        have hin : m.InTail stop start := (inTail_iff hlast.2 hstarts).mpr ⟨hge, by omega⟩
        refine ⟨⟨⟨hin, halign⟩, fun s hs hs' => ?_⟩, by omega⟩
        have := hleast s hs'.1 hs'.2
        omega
      · refine ⟨fun r hr => (by cases hr), fun _ s hs hdvd => ?_⟩
        have := hleast s hs hdvd
        have := hs.1
        omega

theorem findTail_fits {m : SliceMap} {count k below r : Nat} (hc : 1 ≤ count)
    (h : m.findTail count (2 ^ k) below = some r) : m.Fits count (2 ^ k) r := by
  obtain ⟨⟨⟨⟨-, hfree⟩, halign⟩, -⟩, hroom⟩ := (findTail_spec hc).1 r h
  have hle : m.relEnd below ≤ capacity := Nat.min_le_right _ _
  exact { inside := by omega, free := fun i hi hi' => hfree i hi (by omega), aligned := halign }

end SliceMap

end Wasmalloc
