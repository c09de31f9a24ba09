import Wasmalloc.Growth

/- How far the calls of `grow` reach.

   Memory is grown by the step of the policy, a fraction of the heap, so that a heap
   needs few calls. `Climbs` says what the calls of an operation, newest first, add up to:
   each is sized from an end of memory at or above what the earlier ones reached, and
   asks for the full step, as far as there is room. Two calls may ask for less: the bare
   request after a refusal, and the second request after a region that started elsewhere.
   So a call that asks for less follows one that was disturbed. -/
namespace Wasmalloc

variable [Build]

namespace GrowCall

omit [Build] in
/-- Refused, or granted elsewhere than at the end of memory the request was sized from. -/
def Disturbed (c : GrowCall) : Prop := c.got ≠ some c.stop

/-- The call asks for the step of the policy, as far as there is room. -/
def Full (policy : GrowPolicy) (c : GrowCall) : Prop :=
  min (growthStep c.map c.stop policy) (c.map.usableLimit - c.stop) ≤ c.want

omit [Build] in
/-- The slices the call added to memory. -/
def added (c : GrowCall) : Nat := if c.got = none then 0 else c.want

end GrowCall

/-- The calls, newest first, lead from an end of memory at `lo` to one at `hi`. -/
inductive Climbs (policy : GrowPolicy) (base lo : Nat) : Nat → List GrowCall → Prop where
  | idle {hi : Nat} : lo ≤ hi → Climbs policy base lo hi []
  | call {hi : Nat} {c : GrowCall} {older : List GrowCall} : c.map.base = base →
    (c.Full policy ∨ ∃ d ∈ older.head?, d.Disturbed) → c.stop + c.added ≤ hi →
    Climbs policy base lo c.stop older → Climbs policy base lo hi (c :: older)

section Climbs
variable {policy : GrowPolicy} {base lo mid hi hi' : Nat} {new old : List GrowCall}

theorem Climbs.mono (h : Climbs policy base lo hi new) (hle : hi ≤ hi') : Climbs policy base lo hi' new := by
  cases h with
  | idle hlo => exact .idle (le_trans hlo hle)
  | call hbase hpace hreach hold => exact .call hbase hpace (le_trans hreach hle) hold

theorem Climbs.append (h : Climbs policy base lo mid old) (h' : Climbs policy base mid hi new) :
    Climbs policy base lo hi (new ++ old) := by
  induction h' with
  | idle hle => exact h.mono hle
  | @call hi c older hbase hpace hreach _ ih =>
    refine .call hbase (hpace.imp_right ?_) hreach ih
    rintro ⟨d, hd, hdisturbed⟩
    exact ⟨d, List.mem_head?_append_of_mem_head? hd, hdisturbed⟩

end Climbs

namespace Supply
variable {M : Type} [Memory M] [Memory.Contract M] {s s1 s2 : Supply M} {need : Need} {policy : GrowPolicy}

theorem grow_call {stop want : Nat} {got : Option Nat} (hstop : stop ≤ sizeSlices s.mem)
    (h : s.grow need stop want = (got, s1)) :
    ∃ c : GrowCall, s1.calls = c :: s.calls ∧ c.map = s.map ∧ c.stop = stop ∧ c.want = want ∧
      c.got = got ∧ s1.map = s.map ∧ sizeSlices s.mem ≤ sizeSlices s1.mem ∧
      c.stop + c.added ≤ sizeSlices s1.mem := by
  obtain ⟨hgot, rfl⟩ := Prod.mk.inj h
  have hsize := Memory.Contract.size_mono s.mem want
  refine ⟨_, rfl, rfl, rfl, rfl, hgot, rfl, hsize, ?_⟩
  unfold GrowCall.added
  simp only
  cases hr : (Memory.grow s.mem want).1 with
  | none =>
    rw [if_pos rfl]
    exact le_trans hstop hsize
  | some start =>
    obtain ⟨hlo, hhi⟩ := Memory.Contract.grow_fresh s.mem want start hr
    rw [if_neg (by simp)]
    show stop + want ≤ sizeSlices (Memory.grow s.mem want).2
    omega

theorem growWant_climbs {want needed : Nat} {r : Option (Nat × Nat)}
    (hfull : min (growthStep s.map (sizeSlices s.mem) policy)
      (s.map.usableLimit - sizeSlices s.mem) ≤ want)
    (h : s.growWant need (sizeSlices s.mem) want needed = (r, s1)) :
    ∃ new, s1.calls = new ++ s.calls ∧ s1.map = s.map ∧
      Climbs policy s.map.base (sizeSlices s.mem) (sizeSlices s1.mem) new ∧
      ∀ start got, r = some (start, got) → ∃ c ∈ new.head?, c.got = some start ∧ c.stop = sizeSlices s.mem := by
  unfold growWant at h
  rcases hfirst : s.grow need (sizeSlices s.mem) want with ⟨got1, s2⟩
  obtain ⟨c, hcalls, hmap, hstop, hwant, hgot, hmap2, hsize, hreach⟩ := grow_call (Nat.le_refl _) hfirst
  have hpaced : c.Full policy := by
    unfold GrowCall.Full
    rw [hmap, hstop, hwant]
    exact hfull
  have hone : ∀ {hi : Nat}, c.stop + c.added ≤ hi →
      Climbs policy s.map.base (sizeSlices s.mem) hi [c] := fun hle =>
    .call (by rw [hmap]) (Or.inl hpaced) hle (.idle (le_of_eq hstop.symm))
  rw [hfirst] at h
  cases got1 with
  | some start =>
    cases h
    refine ⟨[c], hcalls, hmap2, hone hreach, ?_⟩
    rintro start' got' hr
    cases hr
    exact ⟨c, rfl, hgot, hstop⟩
  | none =>
    simp only at h
    have hrefused : c.Disturbed := by
      unfold GrowCall.Disturbed
      rw [hgot]
      simp
    split at h
    · rcases hsecond : s2.grow need (sizeSlices s.mem) needed with ⟨got2, s3⟩
      obtain ⟨d, hcalls2, hmapd, hstopd, -, hgotd, hmap3, hsize2, hreach2⟩ := grow_call hsize hsecond
      -- The refused call added nothing.
      have hnothing : c.stop + c.added ≤ d.stop := by
        unfold GrowCall.added
        rw [hgot, if_pos rfl, hstop, hstopd]
        exact Nat.le_refl _
      have hboth : Climbs policy s.map.base (sizeSlices s.mem) (sizeSlices s3.mem) [d, c] :=
        .call (by rw [hmapd, hmap2]) (Or.inr ⟨c, rfl, hrefused⟩) hreach2 (hone hnothing)
      have hlog : s3.calls = [d, c] ++ s.calls := by
        rw [hcalls2, hcalls]
        rfl
      rw [hsecond] at h
      cases got2 with
      | some start =>
        cases h
        refine ⟨[d, c], hlog, hmap3.trans hmap2, hboth, ?_⟩
        rintro start' got' hr
        cases hr
        exact ⟨d, rfl, hgotd, hstopd⟩
      | none =>
        cases h
        exact ⟨[d, c], hlog, hmap3.trans hmap2, hboth, fun _ _ hr => by cases hr⟩
    · cases h
      exact ⟨[c], hcalls, hmap2, hone hreach, fun _ _ hr => by cases hr⟩

/-- The calls of an operation on the supply. -/
def Calls (policy : GrowPolicy) (s s' : Supply M) : Prop :=
  ∃ new, s'.calls = new ++ s.calls ∧
    Climbs policy s.map.base (sizeSlices s.mem) (sizeSlices s'.mem) new

omit [Memory.Contract M] in
theorem Calls.refl (s : Supply M) : Calls policy s s := ⟨[], rfl, .idle (Nat.le_refl _)⟩

omit [Memory.Contract M] in
theorem firstRequest_full (s : Supply M) (policy : GrowPolicy) (count align : Nat) :
    min (growthStep s.map (sizeSlices s.mem) policy) (s.map.usableLimit - sizeSlices s.mem) ≤
      s.firstRequest policy count align := by
  unfold firstRequest
  omega

theorem growAndAlloc_calls (policy : GrowPolicy) {count k : Nat} (hinv : s.map.Inv)
    (hbase : s.map.base ≤ sizeSlices s.mem) (hc : 1 ≤ count) (hk : k ≤ usizeBits)
    (hneed : ∀ start, ¬ s.map.Serves count (2 ^ k) start) :
    Calls policy s (s.growAndAlloc policy count (2 ^ k)).2 := by
  have hfull := s.firstRequest_full policy count (2 ^ k)
  have hroad := growAndAlloc_road policy hbase hc hk
  generalize s.growAndAlloc policy count (2 ^ k) = r at hroad ⊢
  cases hroad with
  | full _ => exact Calls.refl s
  | refused _ hgrow =>
    obtain ⟨new, hcalls, -, hclimb, -⟩ := growWant_climbs hfull hgrow
    exact ⟨new, hcalls, hclimb⟩
  | served _ hgrow halloc =>
    obtain ⟨new, hcalls, -, hclimb, -⟩ := growWant_climbs hfull hgrow
    obtain ⟨-, rfl⟩ := Prod.mk.inj halloc
    exact ⟨new, hcalls, hclimb⟩
  | stuck _ hgrow halloc _ =>
    obtain ⟨new, hcalls, -, hclimb, -⟩ := growWant_climbs hfull hgrow
    obtain ⟨-, rfl⟩ := Prod.mk.inj halloc
    exact ⟨new, hcalls, hclimb⟩
  | @again s1 s2 s3 start got got3 hfit hgrow halloc _ hgrow3 =>
    obtain ⟨new, hcalls, -, hclimb, hnewest⟩ := growWant_climbs hfull hgrow
    obtain ⟨⟨N, hgrown⟩, -, -, helsewhere, -⟩ := growWant_stuck hinv hbase hc hneed hfit hgrow halloc
    obtain ⟨-, rfl⟩ := Prod.mk.inj halloc
    -- The region that did not serve started elsewhere.
    obtain ⟨c, hhead, hgot, hstop⟩ := hnewest start got rfl
    have hdisturbed : c.Disturbed := by
      unfold GrowCall.Disturbed
      rw [hgot, hstop]
      exact fun he => helsewhere (Option.some.inj he)
    obtain ⟨d, hcalls3, hmapd, hstopd, -, -, -, -, hreach⟩ := grow_call (Nat.le_refl _) hgrow3
    have hthree : s3.calls = (d :: new) ++ s.calls := by
      rw [hcalls3]
      exact congrArg (d :: ·) hcalls
    have hclimb3 : Climbs policy s.map.base (sizeSlices s.mem) (sizeSlices s3.mem) (d :: new) := by
      refine .call ?_ (Or.inr ⟨c, hhead, hdisturbed⟩) hreach ?_
      · rw [hmapd]
        exact hgrown.base
      · rw [hstopd]
        exact hclimb
    cases got3 with
    | none => exact ⟨d :: new, hthree, hclimb3⟩
    | some start3 => exact ⟨d :: new, hthree, hclimb3⟩

theorem acquire_calls (policy : GrowPolicy) {count k : Nat} (hinv : s.map.Inv)
    (hbase : s.map.base ≤ sizeSlices s.mem) (hc : 1 ≤ count) (hk : k ≤ usizeBits) :
    Calls policy s (s.acquire policy count (2 ^ k)).2 := by
  unfold acquire
  rcases halloc : s.alloc count (2 ^ k) with ⟨_ | run, s1⟩
  · obtain ⟨hnone, rfl⟩ := Prod.mk.inj halloc
    rcases hm : s.map.alloc count (2 ^ k) with ⟨run, m⟩
    rw [hm] at hnone
    simp only at hnone
    subst hnone
    obtain ⟨hkeeps, hno⟩ := (SliceMap.alloc_spec (k := k) hinv hc).2 m hm
    have hno1 : ∀ a, ¬ m.Serves count (2 ^ k) a := fun a ha =>
      hno a { aligned := ha.aligned, free := fun i hi => (hkeeps.free i).mp (ha.free i hi) }
    have hcalls := growAndAlloc_calls (s := { s with map := m }) policy hkeeps.inv
      (hkeeps.base.symm ▸ hbase) hc hk hno1
    unfold Calls at hcalls
    rw [show ({ s with map := m } : Supply M).map.base = s.map.base from hkeeps.base] at hcalls
    exact hcalls
  · obtain ⟨-, rfl⟩ := Prod.mk.inj halloc
    exact Calls.refl s

theorem growAndExtend_calls (s : Supply M) (policy : GrowPolicy) (start count extra : Nat) :
    Calls policy s (s.growAndExtend policy start count extra).2 := by
  unfold growAndExtend
  simp only
  split
  · exact Calls.refl s
  split
  · exact Calls.refl s
  split
  · exact Calls.refl s
  have hfull : min (growthStep s.map (sizeSlices s.mem) policy)
      (s.map.usableLimit - sizeSlices s.mem) ≤
      min (max (extra - (sizeSlices s.mem - (start + count)))
        (growthStep s.map (sizeSlices s.mem) policy)) (s.map.usableLimit - sizeSlices s.mem) := by
    omega
  generalize min (max (extra - (sizeSlices s.mem - (start + count)))
    (growthStep s.map (sizeSlices s.mem) policy)) (s.map.usableLimit - sizeSlices s.mem) = want at *
  rcases hgrow : s.growWant (.tail start count extra) (sizeSlices s.mem) want
    (extra - (sizeSlices s.mem - (start + count))) with ⟨r, s1⟩
  obtain ⟨new, hcalls, -, hclimb, -⟩ := growWant_climbs hfull hgrow
  cases r with
  | none => exact ⟨new, hcalls, hclimb⟩
  | some region =>
    simp only
    split
    · exact ⟨new, hcalls, hclimb⟩
    · exact ⟨new, hcalls, hclimb⟩

theorem extendWithGrowth_calls (s : Supply M) (policy : GrowPolicy) (start count extra : Nat) :
    Calls policy s (s.extendWithGrowth policy start count extra).2 := by
  unfold extendWithGrowth
  rcases htry : s.tryExtend start count extra with ⟨_ | z, s1⟩
  · have hsame : s1 = s := by
      obtain ⟨hnone, rfl⟩ := Prod.mk.inj htry
      unfold SliceMap.tryExtend at hnone ⊢
      simp only at hnone ⊢
      split at hnone
      · rename_i hc
        simp only [if_pos hc]
      · cases hnone
    rw [hsame]
    exact s.growAndExtend_calls policy start count extra
  · obtain ⟨-, rfl⟩ := Prod.mk.inj htry
    exact Calls.refl s

end Supply

end Wasmalloc
