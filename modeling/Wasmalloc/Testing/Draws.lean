import Wasmalloc.Testing.Books

/- What the tester draws.

   An operation that is drawn can be carried out: a block to free or resize exists, sizes
   are not zero, and the live bytes stay within the cap of the profile (`Drawn`). With the
   weights of a preset (`Tame`) no assertion on the way fails, whatever the entropy source
   yields; with any other profile one may, and nothing is said about what follows. -/
namespace Wasmalloc.Testing

variable [Build] {A E α : Type}

/-- The numbers of a profile that the draws rely on. -/
structure Tame (profile : Profile) : Prop where
  ops : profile.ops.toList.sum < 2 ^ 32 ∧ 0 < profile.ops.toList.sum
  allocs : profile.ops[0] + profile.ops[1] < 2 ^ 32 ∧ 0 < profile.ops[0] + profile.ops[1]
  batched : [profile.ops[0], profile.ops[1], 0, profile.ops[3]].sum < 2 ^ 32 ∧
    0 < [profile.ops[0], profile.ops[1], 0, profile.ops[3]].sum
  sizes : profile.sizes.toList.sum < 2 ^ 32 ∧ 0 < profile.sizes.toList.sum
  aligns : profile.aligns.toList.sum < 2 ^ 32 ∧ 0 < profile.aligns.toList.sum
  batch : profile.batch < 2 ^ 32
  cap : 0 < profile.maxLiveBytes ∧ profile.maxLiveBytes ≤ 2 ^ 28

omit [Build] in
theorem all_tame : ∀ profile ∈ Profile.all, Tame profile := by
  unfold Profile.all
  simp only [List.forall_mem_cons, List.not_mem_nil, false_implies, implies_true, and_true]
  refine ⟨?_, ?_, ?_, ?_, ?_, ?_⟩ <;> constructor <;> decide

/-- The operation can be carried out. -/
def Drawn (m : Model A) : Op → Prop
  | .alloc layout _ => 1 ≤ layout.size ∧ m.liveBytes + layout.size ≤ m.profile.maxLiveBytes
  | .dealloc => m.live ≠ []
  | .realloc index newSize => 1 ≤ newSize ∧ ∃ block, m.live[index]? = some block ∧
      m.liveBytes - block.layout.size + newSize ≤ m.profile.maxLiveBytes

theorem fromSizeAlign_eq {size align : Nat} {layout : Layout}
    (h : fromSizeAlign size align = some layout) : layout.size = size ∧ layout.align = align := by
  unfold fromSizeAlign at h
  split at h
  · obtain rfl := Option.some.inj h
    exact ⟨rfl, rfl⟩
  · cases h

theorem fromSizeAlign_ne_none {size align : Nat} (ha : ∃ k, align = 2 ^ k)
    (hs : size + align ≤ 2 ^ 31) : fromSizeAlign size align ≠ none := by
  have hle := two_pow_32_le
  unfold fromSizeAlign
  rw [dif_pos ⟨ha, by omega⟩]
  exact Option.some_ne_none _

section Draw
variable [Entropy E] {profile : Profile}

/-! ## Sizes and layouts -/

section Source
variable {H : Stop → E → Prop}

omit [Build] in
theorem pickSize_spec (hp : Asserts H (Tame profile)) : Act.Spec (fun _ => True)
    (Model.pickSize profile) (fun o _ => ∀ n ∈ o, 1 ≤ n ∧ n ≤ 2 ^ 26) H := by
  have hrange : ∀ {lo hi : Nat}, 1 ≤ lo → lo ≤ hi → hi ≤ 2 ^ 26 → Act.Spec (fun _ : E => True)
      (range (ε := Failure) lo hi) (fun o _ => ∀ n ∈ o, 1 ≤ n ∧ n ≤ 2 ^ 26) H := fun h1 h2 h3 =>
    (range_spec (Or.inl ⟨h2, by omega⟩)).post fun o _ ho n hn =>
      ⟨h1.trans (ho n hn).1, (ho n hn).2.trans h3⟩
  unfold Model.pickSize
  refine Act.Spec.bind (weighted_spec (hp.of Tame.sizes)) fun o => Act.Spec.pre ?_ fun _ _ => trivial
  match o with
  | none => exact Act.Spec.pure fun _ _ n hn => absurd hn (by simp)
  | some 0 =>
    refine Act.Spec.bind (below_spec (Or.inl (by decide))) fun k => ?_
    cases k with
    | none => exact Act.Spec.pure fun _ _ n hn => absurd hn (by simp)
    | some k =>
      refine Act.Spec.fix fun e hk => Act.Spec.pre ?_ fun _ _ => trivial
      have h13 : 2 ^ k ≤ 2 ^ 13 := Nat.pow_le_pow_right (by decide) (by have := hk k rfl; omega)
      have h1 := Nat.one_le_two_pow (n := k)
      have hsucc : 2 ^ (k + 1) = 2 * 2 ^ k := by rw [Nat.pow_succ, Nat.mul_comm]
      refine hrange h1 (le_min (by omega) (h13.trans (by decide))) ?_
      exact (Nat.min_le_right _ _).trans (by decide)
  | some 1 => exact hrange (by decide) (by decide) (by decide)
  | some 2 => exact hrange (by decide) (by decide) (by decide)
  | some (_ + 3) => exact hrange (by decide) (by decide) (by decide)

omit [Build] in
theorem pickAlign_spec (cls : Nat) : Act.Spec (fun _ => True) (Model.pickAlign cls)
    (fun o _ => ∀ a ∈ o, ∃ k ≤ 16, a = 2 ^ k) H := by
  have hfix : ∀ k ≤ 16, Act.Spec (fun _ : E => True) (pure (some (2 ^ k)) : Draw E Failure (Option Nat))
      (fun o _ => ∀ a ∈ o, ∃ k ≤ 16, a = 2 ^ k) H := fun k hk =>
    Act.Spec.pure fun _ _ a ha => ⟨k, hk, (Option.some.inj ha).symm⟩
  have hmap : ∀ o : Option Nat, (∀ k ∈ o, k ≤ 16) → ∀ a ∈ o.map (2 ^ ·), ∃ k ≤ 16, a = 2 ^ k := by
    intro o ho a ha
    obtain ⟨k, hk, rfl⟩ := Option.map_eq_some_iff.mp ha
    exact ⟨k, ho k hk, rfl⟩
  unfold Model.pickAlign
  match cls with
  | 0 =>
    refine Act.Spec.bind (below_spec (Or.inl (by decide))) fun o => Act.Spec.pure fun _ ho => ?_
    exact hmap o fun k hk => by have := ho k hk; omega
  | 1 => exact hfix 4 (by decide)
  | 2 => exact hfix 5 (by decide)
  | 3 => exact hfix 6 (by decide)
  | 4 => exact hfix 12 (by decide)
  | _ + 5 =>
    refine Act.Spec.bind (range_spec (Or.inl (by decide))) fun o => Act.Spec.pure fun _ ho => ?_
    exact hmap o fun k hk => (ho k hk).2

theorem pickLayout_spec (hp : Asserts H (Tame profile)) : Act.Spec (fun _ => True)
    (Model.pickLayout profile) (fun o _ => ∀ l ∈ o, 1 ≤ l.size ∧ l.size ≤ 2 ^ 26 ∧ l.align ≤ 2 ^ 16) H := by
  have hlayout : ∀ {size k : Nat} {msg : String}, 1 ≤ size → size ≤ 2 ^ 26 → k ≤ 16 →
      Act.Spec (fun _ : E => True) (do
        let layout ← Act.expect (fromSizeAlign size (2 ^ k)) (.panic msg)
        pure (some layout)) (fun o _ => ∀ l ∈ o, 1 ≤ l.size ∧ l.size ≤ 2 ^ 26 ∧ l.align ≤ 2 ^ 16) H := by
    intro size k msg h1 h2 hk
    have hpow : 2 ^ k ≤ 2 ^ 16 := Nat.pow_le_pow_right (by decide) hk
    refine Act.Spec.bind (Act.Spec.expect (Q := fun l _ => fromSizeAlign size (2 ^ k) = some l)
      (fun _ _ _ h => h) fun _ _ h => absurd h (fromSizeAlign_ne_none ⟨k, rfl⟩ (by omega))) fun l => ?_
    refine Act.Spec.pure fun _ hl l' hl' => ?_
    obtain rfl := Option.some.inj hl'
    obtain ⟨hsize, halign⟩ := fromSizeAlign_eq hl
    rw [hsize, halign]
    exact ⟨h1, h2, hpow⟩
  unfold Model.pickLayout
  refine Act.Spec.bind (weighted_spec (hp.of Tame.aligns)) fun o => Act.Spec.pre ?_ fun _ _ => trivial
  cases o with
  | none => exact Act.Spec.pure fun _ _ l hl => absurd hl (by simp)
  | some cls =>
    dsimp only
    split
    · exact hlayout (k := 16) (by decide) (by decide) (Nat.le_refl _)
    · refine Act.Spec.bind (pickSize_spec hp) fun size => ?_
      cases size with
      | none => exact Act.Spec.pure fun _ _ l hl => absurd hl (by simp)
      | some size =>
        refine Act.Spec.fix fun e hsize => ?_
        obtain ⟨h1, h2⟩ := hsize size rfl
        refine Act.Spec.bind ((pickAlign_spec cls).pre fun _ _ => trivial) fun align => ?_
        cases align with
        | none => exact Act.Spec.pure fun _ _ l hl => absurd hl (by simp)
        | some align =>
          refine Act.Spec.fix fun e halign => Act.Spec.pre ?_ fun _ _ => trivial
          obtain ⟨k, hk, rfl⟩ := halign align rfl
          exact hlayout h1 h2 hk

end Source

/-! ## Operations -/

variable {m : Model A} {H : Stop → Session A E → Prop}

omit [Entropy E] in
theorem onEntropy_spec {x : Draw E Failure α} {p : Prop} {R : α → Prop} (hp : Asserts H p)
    (hx : ∀ {H' : Stop → E → Prop}, Asserts H' p →
      Act.Spec (fun _ => True) x (fun a _ => R a) H') :
    Act.Spec (fun s => s.model = m) (onEntropy x) (fun a s => s.model = m ∧ R a) H := by
  refine Act.Spec.zoom fun s hs => ?_
  have hpanic : Asserts (fun h e => H h { s with entropy := e }) p :=
    hp.imp_right fun h msg e => h msg _
  exact (hx hpanic).imp (fun _ _ => trivial) (fun a e ha => ⟨hs, ha⟩) fun _ _ he => he

/-- Only the batch counter has changed. -/
def Rebatched (m m' : Model A) : Prop := ∃ left, m' = { m with batchLeft := left }

theorem batchClass_spec (hp : Asserts H (Tame m.profile)) (hbatch : 0 < m.profile.batch) :
    Act.Spec (fun s => s.model = m) (Model.batchClass : Drive A E _)
      (fun _ s => Rebatched m s.model) H := by
  unfold Model.batchClass
  refine Act.Spec.get fun s hm => ?_
  dsimp only
  rw [hm]
  refine Act.Spec.pre ?_ fun t ht => show t.model = m by rw [ht, hm]
  refine Act.Spec.bind (Q := fun _ (s : Session A E) => s.model = m) ?_ fun left => ?_
  · split
    · exact (onEntropy_spec hp fun h => (range_spec (h.of fun ht => ⟨hbatch, by
        have := ht.batch
        omega⟩)).post fun _ _ _ => trivial).post fun _ _ hs => hs.1
    · exact Act.Spec.pure fun _ hs => hs
  · cases left with
    | none => exact Act.Spec.pure fun s hs => ⟨m.batchLeft, hs⟩
    | some left =>
      refine Act.Spec.bind (Q := fun _ s => s.model = { m with batchLeft := left }) ?_ fun _ => ?_
      · refine Act.Spec.zoom fun s hs => Act.Spec.modify fun m' hm' => ?_
        rw [hm', hs]
      · split
        · exact (onEntropy_spec hp fun h => (weighted_spec (h.of Tame.batched)).post
            fun _ _ _ => trivial).post fun _ _ hs => ⟨left, hs.1⟩
        · exact Act.Spec.pure fun _ hs => ⟨left, hs⟩

theorem nextAlloc_spec (hp : Asserts H (Tame m.profile)) (hm : m.Sound) (zeroed : Bool) :
    Act.Spec (fun s => s.model = m) (Model.nextAlloc zeroed : Drive A E _)
      (fun o s => s.model = m ∧ ∀ op ∈ o, Drawn m op) H := by
  unfold Model.nextAlloc
  refine Act.Spec.get fun s hs => ?_
  dsimp only
  rw [hs]
  refine Act.Spec.pre ?_ fun t ht => show t.model = m by rw [ht, hs]
  refine Act.Spec.bind (onEntropy_spec hp fun h => pickLayout_spec h) fun layout => ?_
  cases layout with
  | none => exact Act.Spec.pure fun s hs => ⟨hs.1, fun op hop => absurd hop (by simp)⟩
  | some layout =>
    refine Act.Spec.fix fun t ⟨ht, hl⟩ => ?_
    obtain ⟨h1, h2, h3⟩ := hl layout rfl
    have hcap := hm.cap
    refine Act.Spec.bind (Act.Spec.require (R := fun _ s => s = t) (fun _ h _ => h)
      fun _ _ hn => absurd hcap hn) fun _ => ?_
    have hdone : ∀ op, Drawn m op → Act.Spec (fun s => s = t) (pure (some op) : Drive A E _)
        (fun o s => s.model = m ∧ ∀ op ∈ o, Drawn m op) H := fun op hop =>
      Act.Spec.pure fun s hs => ⟨hs ▸ ht, fun op' h => Option.some.inj h ▸ hop⟩
    split
    · rename_i hroom
      split
      · rename_i hne
        exact hdone _ hne
      · rename_i hnil
        -- Nothing is live: the request is clamped to the cap.
        have hzero : m.liveBytes = 0 := by
          rw [hm.books.bytes, not_not.mp hnil]
          rfl
        have hpos := hm.cap_pos
        refine Act.Spec.bind (Act.Spec.expect (Q := fun l s => s = t ∧
            fromSizeAlign (max (m.profile.maxLiveBytes - m.liveBytes) 1) layout.align = some l)
          (fun _ _ h h' => ⟨h, h'⟩) fun _ _ h => absurd h ?_) fun l => ?_
        · exact fromSizeAlign_ne_none layout.align_pow2 (by omega)
        · refine Act.Spec.fix fun s ⟨hst, hl⟩ => ?_
          obtain ⟨hsize, -⟩ := fromSizeAlign_eq hl
          rw [hst]
          exact hdone (.alloc l zeroed) ⟨by omega, by omega⟩
    · exact hdone (.alloc layout zeroed) ⟨h1, by omega⟩

omit [Entropy E] in
theorem Model.Sound.index_pos (hm : m.Sound) (hne : m.live ≠ []) (ht : Tame m.profile) :
    0 < m.live.length % 2 ^ 32 := by
  have hcap := hm.cap
  have hlen := hm.books.length_le
  have htame := ht.cap.2
  rw [Nat.mod_eq_of_lt (by omega)]
  exact List.length_pos_of_ne_nil hne

theorem nextRealloc_spec (hp : Asserts H (Tame m.profile)) (hm : m.Sound) (hne : m.live ≠ []) :
    Act.Spec (fun s => s.model = m) (Model.nextRealloc : Drive A E _)
      (fun o s => s.model = m ∧ ∀ op ∈ o, Drawn m op) H := by
  have hcap := hm.cap
  have hnone : Act.Spec (fun s : Session A E => s.model = m) (pure none)
      (fun o s => s.model = m ∧ ∀ op ∈ o, Drawn m op) H :=
    Act.Spec.pure fun s hs => ⟨hs, fun op hop => absurd hop (by simp)⟩
  unfold Model.nextRealloc
  refine Act.Spec.get fun s hs => ?_
  dsimp only
  rw [hs]
  refine Act.Spec.pre ?_ fun t ht => show t.model = m by rw [ht, hs]
  refine Act.Spec.bind (onEntropy_spec hp fun h => below_spec (h.of (hm.index_pos hne))) fun index => ?_
  cases index with
  | none => exact hnone.pre fun s hs => hs.1
  | some index =>
    refine Act.Spec.fix fun t ⟨ht, hi⟩ => ?_
    have hlt : index < m.live.length := (hi index rfl).trans_le (Nat.mod_le _ _)
    have hget : m.live[index]? = some m.live[index] := List.getElem?_eq_getElem hlt
    have hmem : m.live[index] ∈ m.live := List.getElem_mem hlt
    generalize m.live[index] = block at hget hmem
    refine Act.Spec.bind (Act.Spec.expect (Q := fun b s => s.model = m ∧ b = block)
      (fun s b h h' => ⟨h ▸ ht, Option.some.inj (h'.symm.trans hget)⟩)
      fun _ _ h => absurd (h.symm.trans hget) (by simp)) fun b => ?_
    refine Act.Spec.fix fun t ⟨ht, hb⟩ => ?_
    subst hb
    have hold := hm.books.size_pos hmem
    have hold' := hm.books.size_le hmem
    refine Act.Spec.pre ?_ fun s h => show s.model = m by rw [h, ht]
    refine Act.Spec.bind (onEntropy_spec hp fun _ => below_spec (Or.inl (by decide))) fun half => ?_
    cases half with
    | none => exact hnone.pre fun s hs => hs.1
    | some half =>
      refine Act.Spec.bind (Act.Spec.pre (onEntropy_spec (m := m) (R := fun o => ∀ n ∈ o, 1 ≤ n) hp
        fun h => ?_) fun s hs => hs.1) fun newSize => ?_
      · -- The new size is drawn from the range around the old one, or afresh.
        split
        · refine (range_spec (h.of fun ht => ?_)).post fun o _ ho n hn => by
            have := (ho n hn).1
            omega
          have := ht.cap.2
          have h32 := two_pow_32_le
          unfold usizeMax
          omega
        · exact (pickSize_spec h).post fun o _ ho n hn => (ho n hn).1
      · cases newSize with
        | none => exact hnone.pre fun s hs => hs.1
        | some newSize =>
          refine Act.Spec.fix fun t ⟨ht, hn⟩ => ?_
          have h1 := hn newSize rfl
          refine Act.Spec.bind (Act.Spec.require (R := fun _ s => s = t) (fun _ h _ => h)
            fun _ _ hno => absurd hcap hno) fun _ => ?_
          have hroom : Tame m.profile →
              m.profile.maxLiveBytes - m.liveBytes + b.layout.size < usizeSize := fun ht => by
            have := ht.cap.2
            have h32 := two_pow_32_le
            omega
          refine Act.Spec.bind ((Asserts.of hp hroom).require) fun _ => ?_
          refine Act.Spec.pure fun s hs => ⟨hs.1 ▸ ht, fun op hop => ?_⟩
          obtain rfl := Option.some.inj hop
          exact ⟨by omega, b, hget, by omega⟩

/-- **What `next_op` draws can be carried out**, and only the batch counter changes. -/
theorem nextOp_spec (hp : Asserts H (Tame m.profile)) (hm : m.Sound) :
    Act.Spec (fun s => s.model = m) (Model.nextOp : Drive A E _)
      (fun o s => Rebatched m s.model ∧ ∀ op ∈ o, Drawn m op) H := by
  unfold Model.nextOp
  refine Act.Spec.get fun s hs => ?_
  rw [hs]
  refine Act.Spec.pre ?_ fun t ht => show t.model = m by rw [ht, hs]
  refine Act.Spec.bind (Q := fun _ s => Rebatched m s.model) ?_ fun cls => ?_
  · split
    · rename_i hbatch
      exact batchClass_spec hp hbatch
    · exact (onEntropy_spec hp fun h => (weighted_spec (h.of Tame.ops)).post
        fun _ _ _ => trivial).post fun _ _ hs => ⟨m.batchLeft, hs.1⟩
  · cases cls with
    | none => exact Act.Spec.pure fun s hs => ⟨hs, fun op hop => absurd hop (by simp)⟩
    | some cls =>
      refine Act.Spec.fix fun t ⟨left, ht⟩ => ?_
      -- The model drawn from differs in the batch counter alone.
      have hm' : Model.Sound { m with batchLeft := left } := ⟨hm.books, hm.cap, hm.cap_pos⟩
      have hp' : Asserts H (Tame ({ m with batchLeft := left } : Model A).profile) := hp
      have hlift : ∀ {x : Drive A E (Option Op)}, Act.Spec (fun s => s.model = { m with batchLeft := left }) x
          (fun o s => s.model = { m with batchLeft := left } ∧
            ∀ op ∈ o, Drawn { m with batchLeft := left } op) H →
          Act.Spec (fun s => s = t) x (fun o s => Rebatched m s.model ∧ ∀ op ∈ o, Drawn m op) H := by
        intro x hx
        refine hx.imp (fun s h => h ▸ ht) (fun o s h => ⟨⟨left, h.1⟩, fun op hop => ?_⟩) fun _ _ h => h
        have hd := h.2 op hop
        cases op <;> exact hd
      dsimp only
      by_cases hempty : 2 ≤ cls ∧ m.live.isEmpty = true
      · rw [if_pos hempty]
        exact hlift (nextAlloc_spec hp' hm' false)
      · rw [if_neg hempty]
        have hne : 2 ≤ cls → m.live ≠ [] := fun h2 h0 => hempty ⟨h2, by rw [h0]; rfl⟩
        match cls with
        | 0 => exact hlift (nextAlloc_spec hp' hm' false)
        | 1 => exact hlift (nextAlloc_spec hp' hm' true)
        | 2 =>
          refine Act.Spec.pure fun s hs => ⟨⟨left, hs ▸ ht⟩, fun op hop => ?_⟩
          obtain rfl := Option.some.inj hop
          exact hne (Nat.le_refl _)
        | n + 3 => exact hlift (nextRealloc_spec hp' hm' (hne (by omega)))

end Draw

end Wasmalloc.Testing
