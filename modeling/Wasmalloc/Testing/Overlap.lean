import Wasmalloc.Testing.Runs

/- The overlap check of the tester.

   Between operations the books are in order, so that one look at `by_addr` tells exactly
   whether a block meets a live one. `admit` thus succeeds just on the blocks that are
   aligned, do not wrap and meet no live block, and the turn in which the allocator
   returned any other block ends with a report of it (`admit_exact`). -/
namespace Wasmalloc.Testing

variable [Build] {A E α : Type} {m : Model A} {ptr i : Nat} {layout : Layout} {live : List Block}

/-! ## `admit` -/

/-- The model `n` at a call of `admit` in an operation on `m`: `do_alloc` has changed the
    allocator alone, and `do_realloc` has taken out the block it resizes. -/
inductive AtAdmit (m n : Model A) : Prop
  | alloc (hlive : n.live = m.live) (hby : n.byAddr = m.byAddr)
  | realloc (i : Nat) (old : Block) (hlive : swapRemoveBack m.live i = (some old, n.live))
      (hby : n.byAddr = m.byAddr.erase old.addr)

/-- The block is aligned, does not wrap, and meets no live block. -/
def Clear (live : List Block) (ptr : Nat) (layout : Layout) : Prop :=
  layout.align ∣ ptr ∧ ptr + layout.size < usizeSize ∧
    ∀ block ∈ live, Disjoint (Set.Ico ptr (ptr + layout.size))
      (Set.Ico block.addr (block.addr + block.layout.size))

instance (live : List Block) (ptr : Nat) (layout : Layout) : Decidable (Clear live ptr layout) :=
  decidable_of_iff (layout.align ∣ ptr ∧ ptr + layout.size < usizeSize ∧ ∀ block ∈ live,
    min (ptr + layout.size) (block.addr + block.layout.size) ≤ max ptr block.addr)
    (and_congr_right fun _ => and_congr_right fun _ => forall₂_congr fun _ _ =>
      Set.Ico_disjoint_Ico.symm)

/-- The stop reports a misplaced block of operation `i`. -/
def Misplaced (i : Nat) (stop : Stop) : Prop :=
  ∃ f, stop = .failure f ∧ f.opIndex = i ∧ (f.kind = .misaligned ∨ f.kind = .overlap)

theorem perm_of_swapRemoveBack {l rest : List Block} {old : Block}
    (h : swapRemoveBack l i = (some old, rest)) : l.Perm (old :: rest) := by
  cases hget : l[i]? with
  | none =>
    unfold swapRemoveBack at h
    rw [hget] at h
    cases h
  | some block =>
    obtain ⟨rest', htake, hp⟩ := swapRemoveBack_spec hget
    rw [h] at htake
    cases htake
    exact hp

theorem AtAdmit.books {n : Model A} (h : AtAdmit m n) (hb : Books m.live m.byAddr m.liveBytes) :
    ∃ bytes, Books n.live n.byAddr bytes := by
  cases h with
  | alloc hlive hby =>
    rw [hlive, hby]
    exact ⟨_, hb⟩
  | realloc i old hlive hby =>
    rw [hby]
    exact ⟨_, (hb.drop (perm_of_swapRemoveBack hlive)).1⟩

theorem Books.clear_iff {byAddr : SortedMap Nat Nat} {n : Nat} (hb : Books live byAddr n) :
    Fits byAddr ptr layout ↔ Clear live ptr layout := by
  refine and_congr_right fun _ => and_congr_right fun _ => ⟨fun hf block hm => ?_, fun hf i hi => ?_⟩
  · exact hf block.interval (hb.mem_iff.mpr ⟨block, hm, rfl⟩)
  · obtain ⟨block, hm, rfl⟩ := hb.mem_iff.mp hi
    exact hf block hm

/-! ## Reports

    An operation tells whether a block is clear: it goes on only if it is, and where it
    stops, it reports the block just if it is not. -/

/-- The stop tells whether `c` holds of the block that operation `i` was answered with. -/
def Tells {σ : Type} (i : Nat) (c : Prop) (stop : Stop) (_ : σ) : Prop := Misplaced i stop ↔ ¬ c

/-- The result is a report of a misplaced block of operation `i`. -/
def Reports {σ : Type} (i : Nat) (r : Except Stop α × σ) : Prop :=
  ∃ stop s, r = (.error stop, s) ∧ Misplaced i stop

omit [Build] in
theorem reports_iff {σ : Type} {c : Prop} {r : Except Stop α × σ}
    (h : Act.Ends (fun _ _ => c) (Tells i c) r) : Reports i r ↔ ¬ c := by
  obtain ⟨stop | a, s⟩ := r
  · refine ⟨fun ⟨_, _, hr, hmis⟩ => ?_, fun hc => ⟨stop, s, rfl, h.mpr hc⟩⟩
    cases hr
    exact h.mp hmis
  · refine ⟨fun ⟨_, _, hr, _⟩ => ?_, fun hc => absurd h hc⟩
    cases hr

/-- The program reports no misplaced block. -/
def Silent (x : Check A α) : Prop :=
  Act.Spec (fun _ => True) x (fun _ _ => True) fun stop _ => ∀ i, ¬ Misplaced i stop

omit [Build] in
theorem not_misplaced {f : Failure} (hm : f.kind ≠ .misaligned) (ho : f.kind ≠ .overlap) (i : Nat) :
    ¬ Misplaced i (.failure f) := by
  rintro ⟨f, hf, -, hk⟩
  cases hf
  exact hk.elim hm ho

theorem silent_fail {kind : FailureKind} {detail : String} (hm : kind ≠ .misaligned)
    (ho : kind ≠ .overlap) : Silent (Model.fail kind detail : Check A α) := by
  unfold Model.fail
  exact Act.Spec.get fun _ _ => Act.Spec.throw fun _ _ => not_misplaced hm ho

theorem silent_require {p : Prop} [Decidable p] {msg : String} :
    Silent (Act.require p (.panic msg) : Check A Unit) :=
  Act.Spec.require (fun _ _ _ => trivial) fun _ _ _ _ ⟨_, hf, _⟩ => by cases hf

theorem silent_modify {f : Model A → Model A} : Silent (Act.modify f : Check A Unit) :=
  Act.Spec.modify fun _ _ => trivial

/-- What follows on a block that was admitted says nothing of it. -/
theorem Silent.tells {x : Check A α} {c : Prop} (h : Silent x) :
    Act.Spec (fun _ => c) x (fun _ _ => c) (Tells i c) :=
  fun s hc => (h s trivial).imp (fun _ _ _ => hc) fun _ _ hno => iff_of_false (hno i) (not_not.mpr hc)

theorem admit_tells {n : Nat} {what : String} (hb : Books live m.byAddr n) (hs : 1 ≤ layout.size) :
    Act.Spec (fun s => s = m) (Model.admitBlock what ptr layout) (fun _ _ => Clear live ptr layout)
      (Tells m.opIndex (Clear live ptr layout)) := by
  intro s hm
  rw [hm]
  rcases admit_spec what ptr hb.apart hs with ⟨hfits, hrun⟩ | ⟨hno, f, hk, hrun⟩
  · rw [hrun]
    exact hb.clear_iff.mp hfits
  · rw [hrun]
    rw [hb.clear_iff] at hno
    exact iff_of_true ⟨f, rfl, hk⟩ hno

section Operations
variable [RawAlloc A]

theorem silent_tally {zeroed : Bool} : Silent (Model.tally ptr layout zeroed : Check A Unit) := by
  unfold Model.tally
  refine Act.Spec.get fun m _ => Act.Spec.pre ?_ fun _ _ => trivial
  split
  · split
    · exact silent_fail (by decide) (by decide)
    · exact Act.Spec.bind silent_require fun _ => silent_modify
  · exact Act.Spec.bind silent_require fun _ => silent_modify

theorem silent_adopt : Silent (Model.adopt ptr layout : Check A Unit) := by
  refine fun m _ => (adopt_spec (Or.inr fun _ _ _ ⟨_, hf, _⟩ => ?_) m rfl).imp
    (fun _ _ _ => trivial) fun _ _ h => h
  cases hf

theorem doAlloc_tells {zeroed : Bool} (hb : Books m.live m.byAddr m.liveBytes) (hs : 1 ≤ layout.size)
    (hans : (if zeroed then RawAlloc.allocZeroed m.alloc layout
      else RawAlloc.alloc m.alloc layout).1 = some ptr) :
    Act.Spec (fun s => s = m) (Model.doAlloc layout zeroed) (fun _ _ => Clear m.live ptr layout)
      (Tells m.opIndex (Clear m.live ptr layout)) := by
  unfold Model.doAlloc
  dsimp only
  refine Act.Spec.bind call_spec fun o => Act.Spec.fix fun t ⟨ho, ht⟩ => ?_
  rw [hans] at ho
  subst ho ht
  refine Act.Spec.bind (admit_tells hb hs) fun _ => ?_
  refine Act.Spec.bind silent_tally.tells fun _ => ?_
  exact Act.Spec.bind silent_adopt.tells fun _ => silent_modify.tells

theorem doRealloc_tells {index newSize : Nat} {old : Block}
    (hb : Books m.live m.byAddr m.liveBytes) (hs : 1 ≤ layout.size)
    (htake : swapRemoveBack m.live index = (some old, live))
    (hkept : verify (RawAlloc.bytes m.alloc) old.addr old.layout.size old.layout.size
      (some old.seed) = none)
    (hnew : fromSizeAlign newSize old.layout.align = some layout)
    (hans : (RawAlloc.realloc m.alloc old.addr old.layout newSize).1 = some ptr) :
    Act.Spec (fun s => s = m) (Model.doRealloc index newSize) (fun _ _ => Clear live ptr layout)
      (Tells m.opIndex (Clear live ptr layout)) := by
  obtain ⟨hdrop, hle⟩ := hb.drop (perm_of_swapRemoveBack htake)
  unfold Model.doRealloc
  refine Act.Spec.get fun s hm => ?_
  rw [hm, htake]
  -- The block leaves `live`, its bytes are as they were, and it leaves `by_addr`.
  refine Act.Spec.bind (Q := fun _ s => s = { m with live := live })
    (Act.Spec.modify fun s hm => by rw [hm]) fun _ => ?_
  show Act.Spec _ (Act.expect (some old) _ >>= _) _ _
  refine Act.Spec.bind (Q := fun b s => s = { m with live := live } ∧ b = old)
    (Act.Spec.pure fun s hm => ⟨hm, rfl⟩) fun b => Act.Spec.fix fun s ⟨hm, hold⟩ => ?_
  subst hm hold
  dsimp only
  rw [hkept]
  refine Act.Spec.bind (Q := fun _ s => s = { m with live := live, byAddr := m.byAddr.erase b.addr })
    (Act.Spec.modify fun s hm => by rw [hm]) fun _ => ?_
  rw [hnew]
  refine Act.Spec.bind (Q := fun l s => s = { m with live := live, byAddr := m.byAddr.erase b.addr } ∧
    l = layout) (Act.Spec.pure fun s hm => ⟨hm, rfl⟩) fun l => Act.Spec.fix fun s ⟨hm, hl⟩ => ?_
  subst hm hl
  unfold Model.resize
  refine Act.Spec.bind call_spec fun o => Act.Spec.fix fun t ⟨ho, ht⟩ => ?_
  rw [hans] at ho
  subst ho ht
  -- What `admit` sees are the books of the other blocks.
  refine Act.Spec.get fun s hm => ?_
  subst hm
  refine Act.Spec.bind (Act.Spec.require (R := fun _ s => s = _) (fun s hm _ => hm)
    fun _ _ hno => absurd hle hno) fun _ => ?_
  refine Act.Spec.bind (Q := fun _ s => Books live s.byAddr (m.liveBytes - b.layout.size) ∧
    s.opIndex = m.opIndex)
    (Act.Spec.modify fun s hm => ?_) fun _ => Act.Spec.fix fun s ⟨hbooks, hop⟩ => ?_
  · rw [hm]
    exact ⟨hdrop, rfl⟩
  rw [← hop]
  refine Act.Spec.bind (admit_tells hbooks hs) fun _ => Silent.tells ?_
  refine Act.Spec.get fun s _ => Act.Spec.pre ?_ fun _ _ => trivial
  split
  · exact silent_fail (by decide) (by decide)
  · exact Act.Spec.bind silent_adopt fun _ => Act.Spec.bind silent_require fun _ => silent_modify

/-! ## Turns -/

/-- In the operation `op` on `m` the allocator returns the block `ptr` of `layout`, beside the live
    blocks `live`. -/
inductive Returned (m : Model A) (ptr : Nat) : Op → Layout → List Block → Prop
  | alloc {layout : Layout} {zeroed : Bool}
      (hans : (if zeroed then RawAlloc.allocZeroed m.alloc layout
        else RawAlloc.alloc m.alloc layout).1 = some ptr) :
      Returned m ptr (.alloc layout zeroed) layout m.live
  | realloc {index newSize : Nat} {old : Block} {rest : List Block} {layout : Layout}
      (htake : swapRemoveBack m.live index = (some old, rest))
      -- A block that was overwritten is reported before the call.
      (hkept : verify (RawAlloc.bytes m.alloc) old.addr old.layout.size old.layout.size
        (some old.seed) = none)
      (hnew : fromSizeAlign newSize old.layout.align = some layout)
      (hans : (RawAlloc.realloc m.alloc old.addr old.layout newSize).1 = some ptr) :
      Returned m ptr (.realloc index newSize) layout rest

variable [Entropy E] {a : A} {profile : Profile} {s t : Session A E} {op : Op}

/-- In turn `i` of `s` the operation `op` is drawn, to be carried out on `t`. -/
def Draws (s : Session A E) (i : Nat) (op : Op) (t : Session A E) : Prop :=
  Model.nextOp.run { s with model := { s.model with opIndex := i } } = (.ok (some op), t)

omit [RawAlloc A] in
theorem Draws.model (h : Draws s i op t) (hm : s.model.Sound) :
    Books t.model.live t.model.byAddr t.model.liveBytes ∧ t.model.opIndex = i := by
  have hsound : Model.Sound { s.model with opIndex := i } := ⟨hm.books, hm.cap, hm.cap_pos⟩
  have hnext := nextOp_spec (H := fun _ (_ : Session A E) => True) (Or.inr fun _ _ => trivial) hsound
    { s with model := { s.model with opIndex := i } } rfl
  unfold Draws at h
  rw [h] at hnext
  obtain ⟨⟨left, ht⟩, -⟩ := hnext
  rw [ht]
  exact ⟨hm.books, rfl⟩

theorem execute_tells (hret : Returned t.model ptr op layout live) (hs : 1 ≤ layout.size)
    (hb : Books t.model.live t.model.byAddr t.model.liveBytes) :
    Act.Spec (fun s => s = t) (Model.execute op) (fun _ _ => Clear live ptr layout)
      (Tells t.model.opIndex (Clear live ptr layout)) := by
  have hmodel : ∀ {x : Check A Unit}, Act.Spec (fun m => m = t.model) x (fun _ _ => Clear live ptr layout)
      (Tells t.model.opIndex (Clear live ptr layout)) →
      Act.Spec (fun s => s = t) (onModel x) (fun _ _ => Clear live ptr layout)
        (Tells t.model.opIndex (Clear live ptr layout)) := fun hx =>
    Act.Spec.zoom fun s hs => hs ▸ hx
  cases hret with
  | alloc hans =>
    exact Act.Spec.bind (hmodel (doAlloc_tells hb hs hans)) fun _ => Act.Spec.pure fun _ hc => hc
  | realloc htake hkept hnew hans =>
    exact Act.Spec.bind (hmodel (doRealloc_tells hb hs htake hkept hnew hans)) fun _ =>
      Act.Spec.pure fun _ hc => hc

/-- The turn ends with a report of the block just if it is not clear. -/
theorem turn_reports (hm : s.model.Sound) (hdraw : Draws s i op t)
    (hret : Returned t.model ptr op layout live) (hs : 1 ≤ layout.size) :
    Reports i ((Model.turn i).run s) ↔ ¬ Clear live ptr layout := by
  obtain ⟨hb, hop⟩ := hdraw.model hm
  refine reports_iff ?_
  have hexec := execute_tells hret hs hb
  rw [hop] at hexec
  unfold Model.turn
  rw [Act.run_bind]
  show Act.Ends _ _ ((Model.nextOp >>= _).run { s with model := { s.model with opIndex := i } })
  rw [Act.run_bind, hdraw]
  show Act.Ends _ _ ((Model.execute op >>= _).run t)
  refine Act.Spec.bind hexec (fun more => ?_) t rfl
  cases more with
  | false => exact Act.Spec.pure fun _ hc => hc
  | true =>
    exact Act.Spec.bind (Q := fun _ _ => Clear live ptr layout)
      (Act.Spec.zoom fun _ hc => Act.Spec.modify fun _ _ => hc) fun _ => Act.Spec.pure fun _ hc => hc

/-- **The overlap check is exact**, in every state a run reaches and whatever the allocator.
    `admit` succeeds just on a block that is aligned, does not wrap and meets no live one; it
    then adds the interval to the live ones, which stay disjoint, and else it leaves them as
    they are. The turn in which the allocator returned a block ends with a report of it just
    if the block is not clear. -/
theorem admit_exact (h : Reached a profile s) (what : String) (ptr : Nat) (layout : Layout)
    (hs : 1 ≤ layout.size) :
    (∀ m, AtAdmit s.model m →
      (((Model.admitBlock what ptr layout).run m).1 = .ok () ↔ Clear m.live ptr layout) ∧
      (((Model.admitBlock what ptr layout).run m).1 = .ok () → ∃ byAddr,
        ((Model.admitBlock what ptr layout).run m).2 = { m with byAddr := byAddr } ∧
        byAddr.entries.Perm ((ptr, ptr + layout.size) :: m.live.map Block.interval) ∧
        byAddr.entries.Pairwise fun i j => Disjoint (Set.Ico i.1 i.2) (Set.Ico j.1 j.2)) ∧
      (((Model.admitBlock what ptr layout).run m).1 ≠ .ok () →
        ∃ f, (Model.admitBlock what ptr layout).run m = (.error (.failure f), m) ∧
          (f.kind = .misaligned ∨ f.kind = .overlap))) ∧
    ∀ i op t live, Draws s i op t → Returned t.model ptr op layout live →
      (Reports i ((Model.turn i).run s) ↔ ¬ Clear live ptr layout) := by
  refine ⟨fun m hm => ?_, fun i op t live hdraw hret => turn_reports h.sound.1 hdraw hret hs⟩
  obtain ⟨n, hb⟩ := hm.books h.sound.1.books
  rcases admit_spec what ptr hb.apart hs with ⟨hfits, hrun⟩ | ⟨hno, f, ⟨-, hk⟩, hrun⟩
  · rw [hrun, ← hb.clear_iff]
    have hlt : ptr < ptr + layout.size := by omega
    obtain ⟨hapart, hnew⟩ := hb.apart.insert hlt hfits.2.2
    refine ⟨iff_of_true rfl hfits, fun _ => ⟨_, rfl, ?_, hapart.pairwise⟩, fun hne => absurd rfl hne⟩
    exact (SortedMap.insert_perm hnew).trans (hb.intervals.cons _)
  · rw [hrun, ← hb.clear_iff]
    exact ⟨iff_of_false (by simp) hno, fun hok => absurd hok (by simp), fun _ => ⟨f, rfl, hk⟩⟩

end Operations
end Wasmalloc.Testing

/-! ## Two blocks, and a third that meets one of them -/
namespace Wasmalloc.Testing.Sample
open ByteMem (Bytes)
open Wasmalloc.Sample

/-- An allocator that gives the answers it was told, whatever is asked. -/
structure Script where
  answers : List Nat
  bytes : Bytes

def Script.answer (b : Script) : Option Nat × Script :=
  (b.answers.head?, { b with answers := b.answers.tail })

instance : RawAlloc Script where
  alloc b _ := b.answer
  allocZeroed b _ := b.answer
  dealloc b _ _ := b
  realloc b _ _ _ := b.answer
  footprintBytes _ := none
  bytes b := b.bytes
  setBytes b bytes := { b with bytes := bytes }
  bytes_setBytes _ _ := rfl

/-- Draws of an `alloc` of 32 bytes, of another, and of a `realloc` of the first to 16 bytes. -/
def requests : ByteSource :=
  ⟨[0, 0, 0, 0, 0, 0, 0, 0, 0, 0, 0, 0, 0, 0, 0, 0x60, 0, 0, 0, 0, 0, 0, 0, 0x80,
    0, 0, 0, 0, 0, 0, 0, 0, 0, 0, 0, 0, 0, 0, 0, 0x60, 0, 0, 0, 0, 0, 0, 0, 0x80,
    0xFF, 0xFF, 0xFF, 0xFF, 0, 0, 0, 0, 0, 0, 0, 0, 0, 0, 0, 0]⟩

def line : Layout := { size := 32, align := 4, align_pow2 := ⟨2, rfl⟩, size_le := by decide }

def scripted : Session Script ByteSource :=
  ⟨Model.new ⟨[64, 128, 136], fun _ => 0⟩ .smallChurn, requests⟩

/-- `[64, 96)` is live. -/
def one : Session Script ByteSource := ((Model.turn 0).run scripted).2

/-- So is `[128, 160)`. -/
def two : Session Script ByteSource := ((Model.turn 1).run one).2

theorem one_reached : Reached scripted.model.alloc .smallChurn one :=
  .turn (.start requests (by decide)) (show (Model.turn 0).run scripted = (.ok true, one) from rfl)

theorem two_reached : Reached scripted.model.alloc .smallChurn two :=
  .turn one_reached (show (Model.turn 1).run one = (.ok true, two) from rfl)

theorem one_draws : Draws one 1 (.alloc line false)
    ⟨{ one.model with opIndex := 1 }, ⟨requests.data.drop 48⟩⟩ := rfl

theorem two_draws : Draws two 2 (.realloc 0 16) ⟨{ two.model with opIndex := 2 }, ⟨[]⟩⟩ := rfl

/-- A block behind the two is admitted, one that meets the second is not. The turn in which the
    second is returned reports nothing; the turn in which the first is moved into it does. -/
theorem two_admit_exact :
    ((Model.admitBlock "alloc" 192 line).run two.model).1 = .ok () ∧
    (∃ f, (Model.admitBlock "alloc" 136 line).run two.model = (.error (.failure f), two.model) ∧
      (f.kind = .misaligned ∨ f.kind = .overlap)) ∧
    ¬ Reports 1 ((Model.turn 1).run one) ∧ Reports 2 ((Model.turn 2).run two) := by
  have hat : AtAdmit two.model two.model := .alloc rfl rfl
  refine ⟨?_, ?_, ?_, ?_⟩
  · exact ((admit_exact two_reached "alloc" 192 line (by decide)).1 _ hat).1.mpr (by decide +kernel)
  · obtain ⟨hiff, -, hreport⟩ := (admit_exact two_reached "alloc" 136 line (by decide)).1 _ hat
    exact hreport fun hok => absurd (hiff.mp hok) (by decide +kernel)
  · rw [(admit_exact one_reached "alloc" 128 line (by decide)).2 _ _ _ _ one_draws (.alloc rfl)]
    decide +kernel
  · rw [(admit_exact two_reached "realloc" 136 ⟨16, 4, ⟨2, rfl⟩, by decide⟩ (by decide)).2 _ _ _ _
      two_draws (.realloc rfl (by decide +kernel) rfl rfl)]
    decide +kernel

end Wasmalloc.Testing.Sample
