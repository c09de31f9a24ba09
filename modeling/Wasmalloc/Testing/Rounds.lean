import Wasmalloc.Testing.Contract

/- The operations of the tester.

   What each operation does to the books, the counters and the contents (`After`). A check
   fails only if the allocator broke its contract, and an assertion only if the numbers ran
   out of range; where one of these is excluded the operation does not end that way. -/
namespace Wasmalloc.Testing

variable [Build] {A E : Type}

/-! ## Counters and outcomes -/

/-- The counters after `i` operations. -/
structure Counts (m : Model A) (i : Nat) : Prop where
  freed : m.stats.allocs + m.stats.zeroedAllocs = m.live.length + m.stats.deallocs
  calls : m.stats.allocs + m.stats.zeroedAllocs ≤ i
  reallocs : m.stats.reallocs ≤ i
  seeds : m.nextSeed ≤ i

/-- No number of the next operation runs out of range. -/
structure Able (m : Model A) (i : Nat) : Prop where
  counts : Counts m i
  index : i + 1 < usizeSize
  tame : Tame m.profile

/-- The check `c` passes, or its failure is allowed. A refusal by the allocator is no failed check. -/
def Passes {σ : Type} (H : Stop → σ → Prop) (c : Prop) : Prop :=
  c ∨ ∀ f s, f.kind ≠ .allocFailed → H (.failure f) s

/-- A refusal may end an operation on `m`, with the books in order. -/
def Refusable (H : Stop → Model A → Prop) (m : Model A) : Prop :=
  ∀ f s, f.kind = .allocFailed → s.Sound → s.profile = m.profile → H (.failure f) s

omit [Build] in
theorem Passes.of {σ : Type} {H : Stop → σ → Prop} {c d : Prop} (hc : Passes H c) (h : c → d) :
    Passes H d := hc.imp_left h

variable [RawAlloc A] {ok : A → Held → Prop} {H : Stop → Model A → Prop} {m s : Model A} {i j : Nat}
  {ptr : Nat} {layout : Layout} {block : Block} {rest : List Block}

/-- What an operation keeps. -/
structure After (ok : A → Held → Prop) (m s : Model A) (i j : Nat) : Prop where
  sound : s.Sound
  profile : s.profile = m.profile
  contents : Contents ok m.alloc m.live → Contents ok s.alloc s.live
  counts : Counts m i → Counts s j

theorem After.trans {t : Model A} {k : Nat} (h : After ok m s i j) (h' : After ok s t j k) :
    After ok m t i k where
  sound := h'.sound
  profile := h'.profile.trans h.profile
  contents := fun hc => h'.contents (h.contents hc)
  counts := fun hc => h'.counts (h.counts hc)

/-! ## Contents -/

theorem Holds.keeps {a a' : A} {l : Held} (h : Holds a block) (hk : Keeps l a a')
    (hm : (block.addr, block.layout) ∈ l) : Holds a' block := fun x hx =>
  (hk _ hm x hx.lt).trans (h x hx)

theorem contents_adopt (hob : Obeys ok) {a : A} {live : List Block} {seed : UInt64}
    (hok : ok a (insert (ptr, layout) (held live))) (hholds : ∀ block ∈ live, Holds a block)
    (hfresh : FreshAt (held live) ptr layout) :
    Contents ok (RawAlloc.setBytes a (fill (RawAlloc.bytes a) ptr layout.size seed))
      (live ++ [⟨ptr, layout, seed⟩]) := by
  constructor
  · rw [held_append]
    refine hob.write _ _ _ hok fun x => ?_
    by_cases hx : ptr ≤ x ∧ x < ptr + layout.size
    · exact Or.inr ⟨(ptr, layout), Set.mem_insert _ _, hx⟩
    · exact Or.inl (fill_out (by omega))
  · intro block hm x hx
    rw [RawAlloc.bytes_setBytes]
    rcases List.mem_append.mp hm with hm | hm
    · refine (fill_out ?_).trans (hholds block hm x hx)
      have hdis := hfresh.2.2 _ ⟨block, hm, rfl⟩
      have hlt := hx.lt
      by_contra hin
      have hnew : block.addr + x ∈ Set.Ico ptr (ptr + layout.size) := ⟨by omega, by omega⟩
      exact Set.disjoint_left.mp hdis hnew ⟨Nat.le_add_right _ _, Nat.add_lt_add_left hlt _⟩
    · obtain rfl := List.mem_singleton.mp hm
      have hsub : ptr + x - ptr = x := Nat.add_sub_cancel_left _ _
      have hread : fill (RawAlloc.bytes a) ptr layout.size seed (ptr + x) =
          expectedByte (some seed) (ptr + x - ptr) :=
        (fill_apply _).1 ⟨Nat.le_add_right _ _, hsub.symm ▸ hx⟩
      rwa [hsub] at hread

theorem Holds.verify {a : A} (h : Holds a block) :
    verify (RawAlloc.bytes a) block.addr block.layout.size block.layout.size (some block.seed) = none :=
  verify_none h

/-! ## The parts of an operation -/

theorem usizeSize_le : usizeSize ≤ 2 ^ 64 := by
  unfold usizeSize usizeBits
  refine Nat.pow_le_pow_right (by decide) ?_
  rcases Build.usizeBytes_eq with h | h <;> omega

omit [RawAlloc A] in
theorem fail_spec {α : Type} {kind : FailureKind} {detail : String} {c : Prop} {P : Model A → Prop}
    {Q : α → Model A → Prop} (hk : kind ≠ .allocFailed) (hf : Passes H c) (hc : ¬ c) :
    Act.Spec P (Model.fail kind detail) Q H := by
  unfold Model.fail
  exact Act.Spec.get fun s _ => Act.Spec.throw fun t _ => (hf.resolve_left hc) _ t hk

omit [RawAlloc A] in
theorem call_spec {f : A → Option Nat × A} : Act.Spec (fun s => s = m) (Model.call f)
    (fun o s => o = (f m.alloc).1 ∧ s = { m with alloc := (f m.alloc).2 }) H := by
  intro s hs
  rw [hs]
  exact ⟨rfl, rfl⟩

theorem tally_spec {zeroed : Bool}
    (hn : Asserts H (m.stats.allocs + 1 < usizeSize ∧ m.stats.zeroedAllocs + 1 < usizeSize))
    (hz : Passes H (zeroed = true → ∀ i, i < layout.size → RawAlloc.bytes m.alloc (ptr + i) = 0)) :
    Act.Spec (fun s => s = m) (Model.tally ptr layout zeroed) (fun _ s => ∃ stats,
      s = { m with stats := stats } ∧ stats.deallocs = m.stats.deallocs ∧
      stats.reallocs = m.stats.reallocs ∧
      stats.allocs + stats.zeroedAllocs = m.stats.allocs + m.stats.zeroedAllocs + 1) H := by
  have hallocs : Asserts H (m.stats.allocs + 1 < usizeSize) := hn.of And.left
  have hzeroed : Asserts H (m.stats.zeroedAllocs + 1 < usizeSize) := hn.of And.right
  unfold Model.tally
  refine Act.Spec.get fun s hs => ?_
  rw [hs]
  cases zeroed with
  | false =>
    refine Act.Spec.bind hallocs.require fun _ => Act.Spec.modify fun s ⟨hs, _⟩ => ?_
    rw [hs]
    exact ⟨_, rfl, rfl, rfl, Nat.add_right_comm _ _ _⟩
  | true =>
    rw [if_pos rfl]
    cases hv : verify (RawAlloc.bytes m.alloc) ptr layout.size layout.size none with
    | some e =>
      refine fail_spec (by decide) hz fun hzero => ?_
      rw [verify_none fun x hx => (hzero rfl x hx.lt).trans (expectedByte_none x).symm] at hv
      cases hv
    | none =>
      refine Act.Spec.bind hzeroed.require fun _ => Act.Spec.modify fun s ⟨hs, _⟩ => ?_
      rw [hs]
      exact ⟨_, rfl, rfl, rfl, rfl⟩

/-- The block at `ptr` was filled and recorded. -/
structure Adopted (m s : Model A) (block : Block) : Prop where
  live : s.live = m.live ++ [block]
  byAddr : s.byAddr = m.byAddr
  liveBytes : s.liveBytes = m.liveBytes + block.layout.size
  profile : s.profile = m.profile
  alloc : s.alloc = RawAlloc.setBytes m.alloc
    (fill (RawAlloc.bytes m.alloc) block.addr block.layout.size block.seed)
  allocs : s.stats.allocs = m.stats.allocs ∧ s.stats.zeroedAllocs = m.stats.zeroedAllocs
  frees : s.stats.deallocs = m.stats.deallocs ∧ s.stats.reallocs = m.stats.reallocs
  nextSeed : s.nextSeed = m.nextSeed + 1

theorem Adopted.sound {byAddr : SortedMap Nat Nat} (h : Adopted m s block)
    (hb : Books m.live byAddr m.liveBytes) (hs : 1 ≤ block.layout.size)
    (hfits : Fits byAddr block.addr block.layout)
    (hby : m.byAddr = byAddr.insert block.addr (block.addr + block.layout.size))
    (hroom : m.liveBytes + block.layout.size ≤ m.profile.maxLiveBytes) : s.Sound where
  books := by
    rw [h.live, h.byAddr, h.liveBytes, hby]
    exact hb.add hs hfits
  cap := by
    rw [h.liveBytes, h.profile]
    exact hroom
  cap_pos := by
    rw [h.profile]
    omega

theorem adopt_spec (hn : Asserts H (m.nextSeed + 1 < 2 ^ 64 ∧ m.liveBytes + layout.size < usizeSize)) :
    Act.Spec (fun s => s = m) (Model.adopt ptr layout)
      (fun _ s => ∃ seed, Adopted m s ⟨ptr, layout, seed⟩) H := by
  have hseed : Asserts H (m.nextSeed + 1 < 2 ^ 64) := hn.of And.left
  have hbytes : Asserts H (m.liveBytes + layout.size < usizeSize) := hn.of And.right
  unfold Model.adopt Model.freshSeed
  refine Act.Spec.bind (Q := fun _ s => s = { m with nextSeed := m.nextSeed + 1 })
    (Act.Spec.get fun s hs => ?_) fun seed => ?_
  · rw [hs]
    refine Act.Spec.bind hseed.require fun _ => ?_
    refine Act.Spec.bind (Q := fun _ s => s = { m with nextSeed := m.nextSeed + 1 })
      (Act.Spec.modify fun s ⟨hs, _⟩ => by rw [hs]) fun _ => Act.Spec.pure fun _ hs => hs
  · refine Act.Spec.bind (Q := fun _ s => s = { m with
        nextSeed := m.nextSeed + 1
        alloc := RawAlloc.setBytes m.alloc (fill (RawAlloc.bytes m.alloc) ptr layout.size seed) })
      (Act.Spec.modify fun s hs => by rw [hs]) fun _ => ?_
    unfold Model.recordLive
    refine Act.Spec.get fun s hs => ?_
    rw [hs]
    refine Act.Spec.bind hbytes.require fun _ => Act.Spec.modify fun s ⟨hs, _⟩ => ⟨seed, ?_⟩
    rw [hs]
    exact { live := rfl, byAddr := rfl, liveBytes := rfl, profile := rfl, alloc := rfl
            allocs := ⟨rfl, rfl⟩, frees := ⟨rfl, rfl⟩, nextSeed := rfl }

omit [RawAlloc A] in
theorem admitted_spec {live : List Block} {n : Nat} {what : String} (hb : Books live m.byAddr n)
    (hs : 1 ≤ layout.size) (hf : Passes H (FreshAt (held live) ptr layout)) :
    Act.Spec (fun s => s = m) (Model.admitBlock what ptr layout) (fun _ s => Fits m.byAddr ptr layout ∧
      s = { m with byAddr := m.byAddr.insert ptr (ptr + layout.size) }) H := by
  intro s hs'
  rw [hs']
  rcases admit_spec what ptr hb.apart hs with ⟨hfits, hrun⟩ | ⟨hno, f, ⟨-, hk⟩, hrun⟩
  · rw [hrun]
    exact ⟨hfits, rfl⟩
  · rw [hrun]
    refine (hf.resolve_left fun hc => hno (hb.fits_iff.mpr hc)) f m ?_
    rcases hk with hk | hk <;> rw [hk] <;> decide

/-! ## `do_alloc` -/

omit [RawAlloc A] in
theorem Able.numbers (h : Able m i) {n : Nat} (hn : n ≤ m.profile.maxLiveBytes) :
    (m.nextSeed + 1 < 2 ^ 64 ∧ n < usizeSize) ∧
      m.stats.allocs + 1 < usizeSize ∧ m.stats.zeroedAllocs + 1 < usizeSize ∧
      m.stats.reallocs + 1 < usizeSize := by
  have h64 := usizeSize_le
  have h32 := two_pow_32_le
  have hidx := h.index
  have hcap := h.tame.cap.2
  obtain ⟨-, hcalls, hre, hseeds⟩ := h.counts
  omega

/-- **`do_alloc`** adds a block to the books, or fails as the allocator did. -/
theorem doAlloc_spec (hob : Obeys ok) (hm : m.Sound) {zeroed : Bool}
    (hd : Drawn m (.alloc layout zeroed)) (hn : Asserts H (Able m i))
    (hf : Passes H (Contents ok m.alloc m.live))
    (hrefused : Refusable H m) :
    Act.Spec (fun s => s = m) (Model.doAlloc layout zeroed) (fun _ s => After ok m s i (i + 1)) H := by
  obtain ⟨hs, hroom⟩ := hd
  have hnumbers := fun ha : Able m i => ha.numbers hroom
  unfold Model.doAlloc
  dsimp only
  refine Act.Spec.bind call_spec fun o => ?_
  refine Act.Spec.fix fun t ⟨ho, ht⟩ => ?_
  generalize hr : (if zeroed = true then RawAlloc.allocZeroed m.alloc layout
    else RawAlloc.alloc m.alloc layout) = r at ho ht
  have hcontract : Contents ok m.alloc m.live → Answers ok (held m.live) m.alloc layout r ∧
      (zeroed = true → ∀ ptr, r.1 = some ptr → ∀ i, i < layout.size →
        RawAlloc.bytes r.2 (ptr + i) = 0) := by
    intro hc
    rw [← hr]
    cases zeroed with
    | false => exact ⟨hob.alloc _ _ _ hc.1 hs, fun e => by cases e⟩
    | true => exact (hob.allocZeroed _ _ _ hc.1 hs).imp_right fun h _ => h
  cases o with
  | none =>
    refine Act.Spec.get fun s hs => ?_
    unfold Model.fail
    refine Act.Spec.get fun s' hs' => Act.Spec.throw fun u hu => ?_
    rw [hu, hs', hs, ht]
    exact hrefused _ _ rfl ⟨hm.books, hm.cap, hm.cap_pos⟩ rfl
  | some ptr =>
    -- What the contract says of the pointer.
    have hfresh : Contents ok m.alloc m.live → FreshAt (held m.live) ptr layout ∧
        ok r.2 (insert (ptr, layout) (held m.live)) ∧ Keeps (held m.live) m.alloc r.2 := by
      intro hc
      rcases (hcontract hc).1 with ⟨hnone, -⟩ | ⟨q, hq, hf, hok, hk⟩
      · cases ho.trans hnone
      · obtain rfl := Option.some.inj (ho.trans hq)
        exact ⟨hf, hok, hk⟩
    have hb : Books m.live t.byAddr m.liveBytes := by
      rw [ht]
      exact hm.books
    refine Act.Spec.bind (admitted_spec hb hs (hf.of fun hc => (hfresh hc).1)) fun _ => ?_
    refine Act.Spec.fix fun u ⟨hfits, hu⟩ => ?_
    subst ht hu
    refine Act.Spec.bind (tally_spec (hn.of fun ha => ⟨(hnumbers ha).2.1, (hnumbers ha).2.2.1⟩)
      (hf.of fun hc hz => (hcontract hc).2 hz ptr ho.symm)) fun _ => ?_
    refine Act.Spec.fix fun v ⟨stats, hv, hfrees, hre, hsum⟩ => ?_
    subst hv
    refine Act.Spec.bind (adopt_spec (hn.of fun ha => (hnumbers ha).1)) fun _ => ?_
    refine Act.Spec.modify fun w ⟨seed, hw⟩ => ?_
    -- The batch counters are all that changes once the block is recorded.
    have hsound := hw.sound hm.books hs hfits rfl hroom
    have hlast : ∀ left free, After ok m { w with batchLeft := left, freeLeft := free } i (i + 1) := by
      intro left free
      refine { sound := ⟨hsound.books, hsound.cap, hsound.cap_pos⟩, profile := hw.profile
               contents := fun hc => ?_, counts := fun hc => ?_ }
      · show Contents ok w.alloc w.live
        obtain ⟨hfresh, hok, hk⟩ := hfresh hc
        rw [hw.live, hw.alloc]
        exact contents_adopt hob hok
          (fun block hb => (hc.2 block hb).keeps hk ⟨block, hb, rfl⟩) hfresh
      · have hallocs : w.stats.allocs + w.stats.zeroedAllocs =
            m.stats.allocs + m.stats.zeroedAllocs + 1 := by
          rw [hw.allocs.1, hw.allocs.2]
          exact hsum
        have hlive : w.live.length = m.live.length + 1 := by
          rw [hw.live, List.length_append]
          rfl
        have hde : w.stats.deallocs = m.stats.deallocs := hw.frees.1.trans hfrees
        have hre' : w.stats.reallocs = m.stats.reallocs := hw.frees.2.trans hre
        have hseed : w.nextSeed = m.nextSeed + 1 := hw.nextSeed
        obtain ⟨h1, h2, h3, h4⟩ := hc
        refine ⟨?_, ?_, ?_, ?_⟩
        · show w.stats.allocs + w.stats.zeroedAllocs = w.live.length + w.stats.deallocs
          omega
        · show w.stats.allocs + w.stats.zeroedAllocs ≤ i + 1
          omega
        · show w.stats.reallocs ≤ i + 1
          omega
        · show w.nextSeed ≤ i + 1
          omega
    split
    · exact hlast _ _
    · exact hlast w.batchLeft w.freeLeft

/-! ## `release` and `do_dealloc` -/

/-- The numbers of a free. -/
structure Spent (m : Model A) (i : Nat) : Prop where
  counts : Counts m i
  index : i < usizeSize

/-- **A block is freed**: it leaves the books. -/
theorem freeVictim_spec {take : List Block → Option Block × List Block} (hob : Obeys ok) (hm : m.Sound)
    (htake : take m.live = (some block, rest)) (hp : m.live.Perm (block :: rest))
    (hn : Asserts H (Spent m i)) (hf : Passes H (Contents ok m.alloc m.live)) :
    Act.Spec (fun s => s = m) (Model.freeVictim take)
      (fun _ s => After ok m s i i ∧ s.live.length + 1 = m.live.length) H := by
  obtain ⟨hdrop, hle⟩ := hm.books.drop hp
  have hmem : block ∈ m.live := hp.mem_iff.mpr List.mem_cons_self
  have hlen : m.live.length = rest.length + 1 := hp.length_eq
  have hspent : Spent m i → m.stats.deallocs + 1 < usizeSize := fun h => by
    have := h.counts.freed
    have := h.counts.calls
    have := h.index
    omega
  unfold Model.freeVictim
  refine Act.Spec.get fun s hs => ?_
  rw [hs, htake]
  refine Act.Spec.bind (Q := fun _ s => s = { m with live := rest })
    (Act.Spec.modify fun s hs => by rw [hs]) fun _ => ?_
  refine Act.Spec.bind (Act.Spec.expect (Q := fun b s => s = { m with live := rest } ∧ b = block)
    (fun s b hs hb => ⟨hs, (Option.some.inj hb).symm⟩) fun _ _ h => by cases h) fun b => ?_
  refine Act.Spec.fix fun s ⟨hs, hb⟩ => ?_
  subst hb
  unfold Model.release
  refine Act.Spec.get fun t ht => ?_
  rw [ht, hs]
  dsimp only
  cases hv : verify (RawAlloc.bytes m.alloc) b.addr b.layout.size b.layout.size (some b.seed) with
  | some e =>
    refine fail_spec (by decide) hf fun hc => ?_
    rw [(hc.2 b hmem).verify] at hv
    cases hv
  | none =>
    refine Act.Spec.bind (Act.Spec.require (R := fun _ s => s = { m with live := rest })
      (fun _ h _ => h) fun _ _ hno => absurd hle hno) fun _ => ?_
    have hde : Asserts H (m.stats.deallocs + 1 < usizeSize) := hn.of hspent
    refine Act.Spec.bind hde.require fun _ => Act.Spec.modify fun t ⟨ht, _⟩ => ?_
    rw [ht]
    refine ⟨{ sound := ⟨hdrop, (Nat.sub_le _ _).trans hm.cap, hm.cap_pos⟩, profile := rfl,
              contents := fun hc => ?_, counts := fun hc => ?_ }, hlen.symm⟩
    · have hin : (b.addr, b.layout) ∈ held m.live := ⟨b, hmem, rfl⟩
      obtain ⟨hok, hk⟩ := hob.dealloc _ _ _ _ hc.1 hin
      rw [← hm.books.held_drop hp] at hok hk
      exact ⟨hok, fun d hd => (hc.2 d (hp.mem_iff.mpr (List.mem_cons_of_mem _ hd))).keeps hk ⟨d, hd, rfl⟩⟩
    · obtain ⟨h1, h2, h3, h4⟩ := hc
      refine ⟨?_, h2, h3, h4⟩
      show m.stats.allocs + m.stats.zeroedAllocs = rest.length + (m.stats.deallocs + 1)
      omega

theorem After.refl (hm : m.Sound) : After ok m m i i where
  sound := hm
  profile := rfl
  contents := id
  counts := id

theorem drainOne_spec (hob : Obeys ok) (hm : m.Sound) (hn : Asserts H (Spent m i))
    (hf : Passes H (Contents ok m.alloc m.live)) : Act.Spec (fun s => s = m) Model.drainOne
      (fun more s => After ok m s i i ∧ (more = true → s.live.length + 1 = m.live.length) ∧
        (more = false → s.live = [])) H := by
  unfold Model.drainOne
  refine Act.Spec.get fun s hs => ?_
  rw [hs]
  split
  · rename_i hnil
    refine Act.Spec.pure fun s hs => ?_
    rw [hs]
    exact ⟨.refl hm, nofun, fun _ => List.isEmpty_iff.mp hnil⟩
  · rename_i hne
    rw [List.isEmpty_iff] at hne
    obtain ⟨block, rest, hback, hp⟩ := popBack_spec hne
    obtain ⟨block', rest', hfront, hp'⟩ := popFront_spec hne
    refine Act.Spec.bind (Q := fun _ s => After ok m s i i ∧ s.live.length + 1 = m.live.length) ?_
      fun _ => Act.Spec.pure fun s hs => ⟨hs.1, fun _ => hs.2, nofun⟩
    unfold Model.freeNext
    cases m.profile.order with
    | fifo => exact freeVictim_spec hob hm hfront hp' hn hf
    | lifo => exact freeVictim_spec hob hm hback hp hn hf
    | random => exact freeVictim_spec hob hm hback hp hn hf

/-! ## `do_realloc` -/

omit [RawAlloc A] in
/-- The alignment of a Layout leaves room for a size within the cap of a preset. -/
theorem realloc_layout {newSize : Nat} (h1 : 1 ≤ layout.size) (hn : newSize ≤ 2 ^ 28) :
    fromSizeAlign newSize layout.align ≠ none := by
  obtain ⟨k, hk⟩ := layout.align_pow2
  have hle := layout.size_le
  obtain ⟨n, hbits, hsize⟩ : ∃ n, 32 ≤ n ∧ usizeSize = 2 ^ n :=
    ⟨usizeBits, by rcases usizeBits_cases with h | h <;> omega, rfl⟩
  have h30 : 2 ^ 30 ≤ 2 ^ (n - 2) := Nat.pow_le_pow_right (by decide) (by omega)
  have hquarter : 2 ^ n = 4 * 2 ^ (n - 2) := by
    rw [show n = n - 2 + 2 by omega, Nat.pow_add, Nat.add_sub_cancel]
    omega
  have halign : layout.align ≤ 2 ^ (n - 2) := by
    rw [hk]
    refine Nat.pow_le_pow_right (by decide) ?_
    have hlt : 2 ^ k < 2 ^ (n - 1) := by
      rw [show 2 ^ (n - 1) = 2 * 2 ^ (n - 2) by rw [← Nat.pow_succ']; congr 1; omega]
      omega
    have := (Nat.pow_lt_pow_iff_right (by decide)).mp hlt
    omega
  unfold fromSizeAlign
  rw [dif_pos ⟨⟨k, hk⟩, by omega⟩]
  exact Option.some_ne_none _

/-- A model from which the block was taken to be resized. -/
structure Taken (m s : Model A) (old : Block) (rest : List Block) : Prop where
  perm : m.live.Perm (old :: rest)
  state : s = { m with live := rest, byAddr := m.byAddr.erase old.addr }

/-- **`do_realloc`, after the block is taken**: the answer takes its place, or it is put back. -/
theorem resize_spec (hob : Obeys ok) (hm : m.Sound) {old : Block} {newSize : Nat} {newLayout : Layout}
    (ht : Taken m s old rest) (hnew : fromSizeAlign newSize old.layout.align = some newLayout)
    (h1 : 1 ≤ newSize) (hroom : m.liveBytes - old.layout.size + newSize ≤ m.profile.maxLiveBytes)
    (hn : Asserts H (Able m i)) (hf : Passes H (Contents ok m.alloc m.live))
    (hrefused : Refusable H m) :
    Act.Spec (fun t => t = s) (Model.resize old newSize newLayout)
      (fun _ s => After ok m s i (i + 1)) H := by
  obtain ⟨hp, hs⟩ := ht
  subst hs
  obtain ⟨hsize, halign⟩ := fromSizeAlign_eq hnew
  obtain ⟨hdrop, hle⟩ := hm.books.drop hp
  have hmem : old ∈ m.live := hp.mem_iff.mpr List.mem_cons_self
  have hin : (old.addr, old.layout) ∈ held m.live := ⟨old, hmem, rfl⟩
  have hheld := hm.books.held_drop hp
  have hnumbers := fun ha : Able m i => ha.numbers hroom
  unfold Model.resize
  refine Act.Spec.bind call_spec fun o => ?_
  refine Act.Spec.fix fun t ⟨ho, ht⟩ => ?_
  dsimp only at ho ht
  -- What the contract says of the call.
  have hcontract := fun hc : Contents ok m.alloc m.live =>
    hob.realloc _ _ _ _ newLayout hc.1 hin (hsize ▸ h1) halign
  rw [hsize, ← hheld] at hcontract
  generalize hr : RawAlloc.realloc m.alloc old.addr old.layout newSize = r at ho ht hcontract
  cases o with
  | none =>
    refine Act.Spec.bind (Act.Spec.require (R := fun _ s => s = t) (fun _ h _ => h)
      fun _ _ hno => absurd (hm.books.top old hmem) hno) fun _ => ?_
    refine Act.Spec.bind (Q := fun _ s => s.Sound ∧ s.profile = m.profile)
      (Act.Spec.modify fun u hu => ?_) fun _ => ?_
    · rw [hu, ht]
      exact ⟨⟨hm.books.restore hp, hm.cap, hm.cap_pos⟩, rfl⟩
    · refine Act.Spec.get fun u hu => ?_
      unfold Model.fail
      refine Act.Spec.get fun v hv => Act.Spec.throw fun w hw => ?_
      rw [hw, hv]
      exact hrefused _ _ rfl hu.1 hu.2
  | some ptr =>
    have hfresh : Contents ok m.alloc m.live → FreshAt (held rest) ptr newLayout ∧
        ok r.2 (insert (ptr, newLayout) (held rest)) ∧ Keeps (held rest) m.alloc r.2 ∧
        ∀ i, i < min old.layout.size newSize → RawAlloc.bytes r.2 (ptr + i) =
          RawAlloc.bytes m.alloc (old.addr + i) := by
      intro hc
      rcases hcontract hc with ⟨hnone, -⟩ | ⟨q, hq, hf, hok, hk, hcopy⟩
      · cases ho.trans hnone
      · obtain rfl := Option.some.inj (ho.trans hq)
        exact ⟨hf, hok, hk, hcopy⟩
    refine Act.Spec.get fun u hu => ?_
    refine Act.Spec.bind (Act.Spec.require (R := fun _ s => s = t)
      (fun _ h _ => h.trans hu) fun _ _ hno => absurd ?_ hno) fun _ => ?_
    · rw [hu, ht]
      exact hle
    refine Act.Spec.bind (Q := fun _ s => s = { t with liveBytes := m.liveBytes - old.layout.size })
      (Act.Spec.modify fun v hv => by rw [hv, ht]) fun _ => ?_
    subst ht
    refine Act.Spec.bind (admitted_spec (n := m.liveBytes - old.layout.size) hdrop (hsize ▸ h1)
      (hf.of fun hc => (hfresh hc).1)) fun _ => ?_
    refine Act.Spec.fix fun v ⟨hfits, hv⟩ => ?_
    refine Act.Spec.get fun w hw => ?_
    rw [hw, hv]
    dsimp only
    cases hver : verify (RawAlloc.bytes r.2) ptr old.layout.size (min old.layout.size newSize)
      (some old.seed) with
    | some e =>
      refine fail_spec (by decide) hf fun hc => ?_
      rw [verify_none fun x hx => ?_] at hver
      · cases hver
      · exact ((hfresh hc).2.2.2 x hx.lt).trans (hc.2 old hmem x (hx.mono (Nat.min_le_left _ _)))
    | none =>
      refine Act.Spec.bind (adopt_spec (hn.of fun ha => ?_)) fun _ => ?_
      · rw [hsize]
        exact (hnumbers ha).1
      refine Act.Spec.fix fun w ⟨seed, hw⟩ => ?_
      have hre : w.stats.reallocs = m.stats.reallocs := hw.frees.2
      refine Act.Spec.bind (hn.of fun ha => (hnumbers ha).2.2.2).require fun _ => ?_
      refine Act.Spec.modify fun w' ⟨hw', _⟩ => ?_
      rw [hw']
      have hsound : w.Sound := hw.sound hdrop (hsize ▸ h1) hfits rfl (by
        show m.liveBytes - old.layout.size + newLayout.size ≤ m.profile.maxLiveBytes
        rwa [hsize])
      refine { sound := ⟨hsound.books, hsound.cap, hsound.cap_pos⟩, profile := hw.profile
               contents := fun hc => ?_, counts := fun hc => ?_ }
      · show Contents ok w.alloc w.live
        obtain ⟨hfr, hok, hk, -⟩ := hfresh hc
        rw [hw.live, hw.alloc]
        exact contents_adopt hob hok (fun block hb =>
          (hc.2 block (hp.mem_iff.mpr (List.mem_cons_of_mem _ hb))).keeps hk ⟨block, hb, rfl⟩) hfr
      · have hallocs : w.stats.allocs + w.stats.zeroedAllocs =
            m.stats.allocs + m.stats.zeroedAllocs := by
          rw [hw.allocs.1, hw.allocs.2]
        have hlive : w.live.length = m.live.length := by
          rw [hw.live, List.length_append, hp.length_eq]
          rfl
        have hde : w.stats.deallocs = m.stats.deallocs := hw.frees.1
        have hseed : w.nextSeed = m.nextSeed + 1 := hw.nextSeed
        obtain ⟨h1, h2, h3, h4⟩ := hc
        refine ⟨?_, ?_, ?_, ?_⟩
        · show w.stats.allocs + w.stats.zeroedAllocs = w.live.length + w.stats.deallocs
          omega
        · show w.stats.allocs + w.stats.zeroedAllocs ≤ i + 1
          omega
        · show w.stats.reallocs + 1 ≤ i + 1
          omega
        · show w.nextSeed ≤ i + 1
          omega

theorem doRealloc_spec (hob : Obeys ok) (hm : m.Sound) {index newSize : Nat}
    (hd : Drawn m (.realloc index newSize)) (hn : Asserts H (Able m i))
    (hf : Passes H (Contents ok m.alloc m.live))
    (hrefused : Refusable H m) :
    Act.Spec (fun s => s = m) (Model.doRealloc index newSize)
      (fun _ s => After ok m s i (i + 1)) H := by
  obtain ⟨h1, old, hget, hroom⟩ := hd
  obtain ⟨rest, htake, hp⟩ := swapRemoveBack_spec hget
  have hmem : old ∈ m.live := hp.mem_iff.mpr List.mem_cons_self
  unfold Model.doRealloc
  refine Act.Spec.get fun s hs => ?_
  rw [hs, htake]
  refine Act.Spec.bind (Q := fun _ s => s = { m with live := rest })
    (Act.Spec.modify fun s hs => by rw [hs]) fun _ => ?_
  refine Act.Spec.bind (Act.Spec.expect (Q := fun b s => s = { m with live := rest } ∧ b = old)
    (fun s b hs hb => ⟨hs, (Option.some.inj hb).symm⟩) fun _ _ h => by cases h) fun b => ?_
  refine Act.Spec.fix fun s ⟨hs, hb⟩ => ?_
  subst hb
  dsimp only
  cases hv : verify (RawAlloc.bytes m.alloc) b.addr b.layout.size b.layout.size (some b.seed) with
  | some e =>
    refine fail_spec (by decide) hf fun hc => ?_
    rw [(hc.2 b hmem).verify] at hv
    cases hv
  | none =>
    refine Act.Spec.bind (Q := fun _ s => Taken m s b rest) (Act.Spec.modify fun t ht => ⟨hp, ?_⟩)
      fun _ => ?_
    · rw [ht, hs]
    refine Act.Spec.fix fun t ht => ?_
    have hfits : Asserts H (fromSizeAlign newSize b.layout.align ≠ none) := hn.of fun ha =>
      realloc_layout (hm.books.size_pos hmem) (by have := ha.tame.cap.2; omega)
    refine Act.Spec.bind (Act.Spec.expect (Q := fun l s => s = t ∧
        fromSizeAlign newSize b.layout.align = some l)
      (fun _ _ h h' => ⟨h, h'⟩) fun s _ h => hfits.resolve_left (fun hne => hne h) _ s) fun l => ?_
    refine Act.Spec.fix fun u ⟨hu, hl⟩ => ?_
    subst hu
    exact resize_spec hob hm ht hl h1 hroom hn hf hrefused

end Wasmalloc.Testing
