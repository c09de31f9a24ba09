import Wasmalloc.Testing.Recorder
import Wasmalloc.Testing.Verdicts
import Wasmalloc.Testing.Verify

/- A passed run vouches for the allocator.

   A run of the tester that reports nothing has seen nothing the contract of `GlobalAlloc`
   forbids: the calls it made, with their results, and the bytes it read and wrote around
   them are a trace of the abstract allocator (`passed_lawful`). What carries the proof is
   that after every operation some run of the abstract allocator explains the log, and ends
   with the blocks of the tester and with their patterns in them (`Accounted`). -/
namespace Wasmalloc.Testing
open Allocator (Seen)
open ByteMem (Bytes)
open Refine (Path)

variable [Build] {A E : Type}

/-! ## What the log tells -/

/-- The blocks, as the abstract allocator knows them. -/
def blocks (live : List Block) : Set Allocator.Held :=
  (fun x : Nat × Layout => (⟨x.1, x.2.shape⟩ : Allocator.Held)) '' held live

def Block.named (block : Block) : Allocator.Held := ⟨block.addr, block.layout.shape⟩

/-- The abstract allocator holds the blocks, with their patterns in them. -/
structure Knows (live : List Block) (t : Allocator.State) : Prop where
  same : t.live = blocks live
  pattern : ∀ block ∈ live, ∀ x, Covered block.layout.size block.layout.size x →
    t.byte (block.addr + x) = expectedByte (some block.seed) x

/-- Some run of the abstract allocator has shown the log. -/
def Accounted (log : List Seen) (live : List Block) : Prop :=
  ∃ s t, (Allocator.contract usizeSize).init s ∧ Path (Allocator.contract usizeSize) s log t ∧
    Knows live t

/-- The log is a trace of the abstract allocator. -/
def Lawful (r : Recorder A) : Prop := r.log ∈ (Allocator.contract usizeSize).traces

section Blocks
variable {live rest : List Block} {byAddr : SortedMap Nat Nat} {liveBytes : Nat} {block : Block}
  {t : Allocator.State} {log more : List Seen} {ptr : Nat} {layout : Layout}

theorem mem_blocks_of (hm : block ∈ live) : block.named ∈ blocks live :=
  ⟨(block.addr, block.layout), ⟨block, hm, rfl⟩, rfl⟩

theorem blocks_append : blocks (live ++ [block]) = insert block.named (blocks live) := by
  unfold blocks
  rw [held_append, Set.image_insert_eq]
  rfl

theorem named_injective :
    Function.Injective fun x : Nat × Layout => (⟨x.1, x.2.shape⟩ : Allocator.Held) := by
  rintro ⟨p, size, align, hpow, hle⟩ ⟨q, size', align', hpow', hle'⟩ h
  injection h with haddr hshape
  injection hshape with hsize halign
  dsimp only at haddr hsize halign
  subst haddr hsize halign
  rfl

theorem Books.blocks_drop (h : Books live byAddr liveBytes) (hp : live.Perm (block :: rest)) :
    blocks rest = blocks live \ {block.named} := by
  unfold blocks
  rw [h.held_drop hp, Set.image_sdiff named_injective, Set.image_singleton]
  rfl

theorem FreshAt.fits (h : FreshAt (held live) ptr layout) (h0 : ptr ≠ 0) :
    Allocator.Fits usizeSize (blocks live) ⟨ptr, layout.shape⟩ where
  nonnull := h0
  aligned := h.1
  inside := h.2.1.le
  apart := by
    rintro c ⟨x, hx, rfl⟩ y hy
    exact Set.disjoint_left.mp (h.2.2 x hx) hy

theorem Knows.owned (hk : Knows live t) (hm : block ∈ live) {x : Nat} (hx : x < block.layout.size) :
    block.addr + x ∈ t.owned := by
  refine ⟨block.named, ?_, Nat.le_add_right _ _, Nat.add_lt_add_left hx _⟩
  rw [hk.same]
  exact mem_blocks_of hm

theorem Knows.loads (hk : Knows live t) (hm : block ∈ live) {b : Bytes}
    (hb : ∀ x, Covered block.layout.size block.layout.size x →
      b (block.addr + x) = expectedByte (some block.seed) x) :
    Path (Allocator.contract usizeSize) t
      (Recorder.loads b block.addr block.layout.size block.layout.size) t := by
  refine Allocator.loads fun y hy => ?_
  obtain ⟨x, hx, rfl⟩ := List.mem_map.mp hy
  rw [mem_positions] at hx
  exact ⟨hk.owned hm hx.lt, (hb x hx).trans (hk.pattern block hm x hx).symm⟩

theorem Knows.without (hk : Knows live t) (hb : Books live byAddr liveBytes)
    (hp : live.Perm (block :: rest)) : Knows rest (t.without block.named) where
  same := by
    rw [hb.blocks_drop hp, ← hk.same]
    rfl
  pattern := fun d hd => hk.pattern d (hp.mem_iff.mpr (List.mem_cons_of_mem _ hd))

theorem Knows.filled {t' : Allocator.State} {seed : UInt64} {b : Bytes} (hk : Knows live t)
    (hj : Allocator.Joins usizeSize t t' ⟨ptr, layout.shape⟩)
    (hb : ∀ x, Covered layout.size layout.size x → b (ptr + x) = expectedByte (some seed) x) :
    ∃ t'', Path (Allocator.contract usizeSize) t' (Recorder.stores b ptr layout.size) t'' ∧
      Knows (live ++ [⟨ptr, layout, seed⟩]) t'' := by
  have hspan : ∀ y ∈ marked ptr layout.size layout.size,
      y ∈ Allocator.Held.span ⟨ptr, layout.shape⟩ := by
    intro y hy
    obtain ⟨x, hx, rfl⟩ := List.mem_map.mp hy
    exact ⟨Nat.le_add_right _ _, Nat.add_lt_add_left (mem_positions.mp hx).lt _⟩
  have hjoined : ∀ y ∈ marked ptr layout.size layout.size, y ∈ t'.owned := fun y hy =>
    ⟨⟨ptr, layout.shape⟩, hj.live ▸ Set.mem_insert _ _, hspan y hy⟩
  obtain ⟨t'', hp, hlive, hin, hout⟩ := @Allocator.stores usizeSize b _ t' hjoined
  refine ⟨t'', hp, { same := ?_, pattern := fun d hd x hx => ?_ }⟩
  · rw [hlive, hj.live, hk.same, blocks_append]
    rfl
  · rcases List.mem_append.mp hd with hd | hd
    · -- The stores are in the new block, which meets no other.
      have howned := hk.owned hd hx.lt
      obtain ⟨c, hc, hmem⟩ := howned
      rw [hout _ fun hy => hj.fits.apart c hc _ (hspan _ hy) hmem, hj.byte ⟨c, hc, hmem⟩]
      exact hk.pattern d hd x hx
    · obtain rfl := List.mem_singleton.mp hd
      exact (hin _ (List.mem_map_of_mem (mem_positions.mpr hx))).trans (hb x hx)

theorem joined_loads {t' : Allocator.State} {c : Allocator.Held} {b : Bytes} {len limit : Nat}
    (hj : Allocator.Joins usizeSize t t' c) (hle : limit ≤ c.shape.size)
    (hb : ∀ x, Covered len limit x → b (c.addr + x) = t'.byte (c.addr + x)) :
    Path (Allocator.contract usizeSize) t' (Recorder.loads b c.addr len limit) t' := by
  refine Allocator.loads fun y hy => ?_
  obtain ⟨x, hx, rfl⟩ := List.mem_map.mp hy
  rw [mem_positions] at hx
  have hlt := hx.lt
  refine ⟨⟨c, hj.live ▸ Set.mem_insert _ _, Nat.le_add_right _ _, ?_⟩, hb x hx⟩
  show c.addr + x < c.addr + c.shape.size
  omega

omit [Build] in
theorem fill_covered {b : Bytes} {p len x : Nat} {seed : UInt64} (hx : Covered len len x) :
    fill b p len seed (p + x) = expectedByte (some seed) x := by
  have h := (@fill_apply b p len seed (p + x)).1
  rw [Nat.add_sub_cancel_left] at h
  exact h ⟨Nat.le_add_right _ _, hx⟩

end Blocks

/-! ## What a call adds to the log -/

section Calls
variable [RawAlloc A] {r : Recorder A} {live rest : List Block} {byAddr : SortedMap Nat Nat}
  {liveBytes ptr newSize : Nat} {block old : Block} {layout : Layout} {zeroed : Bool} {seed : UInt64}

omit [RawAlloc A] in
theorem Accounted.lawful (ha : Accounted r.log live) : Lawful r := by
  obtain ⟨s, t, hinit, hp, -⟩ := ha
  exact ⟨s, t, hinit, hp⟩

theorem checks_some {res : Option Nat × A} {len limit : Nat} (h : res.1 = some ptr) :
    Recorder.checks res len limit = Recorder.loads (RawAlloc.bytes res.2) ptr len limit := by
  unfold Recorder.checks
  rw [h]

theorem checks_none {res : Option Nat × A} {len limit : Nat} (h : res.1 = none) :
    Recorder.checks res len limit = [] := by
  unfold Recorder.checks
  rw [h]

theorem Accounted.refused (ha : Accounted r.log live) (hnone : (r.request layout zeroed).1 = none) :
    Lawful (r.request layout zeroed).2 := by
  obtain ⟨s, t, hinit, hp, -⟩ := ha
  have hinner : (r.served layout zeroed).1 = none := hnone
  refine ⟨s, t, hinit, hp.append ?_⟩
  unfold Recorder.asked
  rw [checks_none hinner, ite_self, hinner]
  exact .single (.allocRefused layout.shape zeroed (.refl t))

theorem Accounted.served (ha : Accounted r.log live) (hptr : (r.request layout zeroed).1 = some ptr)
    (h0 : ptr ≠ 0) (hfresh : FreshAt (held live) ptr layout)
    (hz : zeroed = true → ∀ x, Covered layout.size layout.size x →
      RawAlloc.bytes (r.request layout zeroed).2 (ptr + x) = 0) :
    Accounted (RawAlloc.setBytes (r.request layout zeroed).2
        (fill (RawAlloc.bytes (r.request layout zeroed).2) ptr layout.size seed)).log
      (live ++ [⟨ptr, layout, seed⟩]) := by
  obtain ⟨s, t, hinit, hp, hk⟩ := ha
  obtain ⟨t', hstep, hj, hzero⟩ := Allocator.serve (hk.same ▸ hfresh.fits h0) zeroed
  obtain ⟨t'', hstores, hk'⟩ := hk.filled hj fun x hx =>
    @fill_covered (RawAlloc.bytes (r.request layout zeroed).2) ptr layout.size x seed hx
  have hinner : (r.served layout zeroed).1 = some ptr := hptr
  have hasked : Path (Allocator.contract usizeSize) t
      (Recorder.asked (r.served layout zeroed) layout zeroed) t' := by
    unfold Recorder.asked
    rw [checks_some hinner, hinner]
    refine .cons hstep ?_
    cases zeroed with
    | false => exact .nil t'
    | true =>
      refine joined_loads hj (Nat.le_refl _) fun x hx => ?_
      exact (hz rfl x hx).trans (hzero rfl _ ⟨Nat.le_add_right _ _, Nat.add_lt_add_left hx.lt _⟩).symm
  have hspot : (r.request layout zeroed).2.fresh = (ptr, layout.size) :=
    Prod.ext (congrArg toRaw hptr) rfl
  refine ⟨s, t'', hinit, (hp.append hasked).append ?_, hk'⟩
  rw [hspot]
  exact hstores

theorem Accounted.freed (ha : Accounted r.log live) (hb : Books live byAddr liveBytes)
    (hp : live.Perm (old :: rest))
    (hold : ∀ x, Covered old.layout.size old.layout.size x →
      RawAlloc.bytes r (old.addr + x) = expectedByte (some old.seed) x) :
    Accounted (RawAlloc.dealloc r old.addr old.layout).log rest := by
  obtain ⟨s, t, hinit, hpath, hk⟩ := ha
  have hmem : old ∈ live := hp.mem_iff.mpr List.mem_cons_self
  have hin : old.named ∈ t.live := hk.same ▸ mem_blocks_of hmem
  exact ⟨s, t.without old.named, hinit,
    hpath.append ((hk.loads hmem hold).append (.single (.dealloc hin (.refl _)))), hk.without hb hp⟩

theorem Accounted.kept (ha : Accounted r.log live) (hmem : old ∈ live)
    (hold : ∀ x, Covered old.layout.size old.layout.size x →
      RawAlloc.bytes r (old.addr + x) = expectedByte (some old.seed) x)
    (hnone : (RawAlloc.realloc r old.addr old.layout newSize).1 = none) :
    Lawful (RawAlloc.realloc r old.addr old.layout newSize).2 := by
  obtain ⟨s, t, hinit, hpath, hk⟩ := ha
  have hin : old.named ∈ t.live := hk.same ▸ mem_blocks_of hmem
  have hinner : (RawAlloc.realloc r.inner old.addr old.layout newSize).1 = none := hnone
  refine ⟨s, t, hinit, hpath.append ?_⟩
  unfold Recorder.resizing
  rw [checks_none hinner, hinner]
  exact (hk.loads hmem hold).append (.single (.reallocRefused newSize hin (.refl t)))

theorem Accounted.resized (ha : Accounted r.log live) (hb : Books live byAddr liveBytes)
    (hp : live.Perm (old :: rest))
    (hold : ∀ x, Covered old.layout.size old.layout.size x →
      RawAlloc.bytes r (old.addr + x) = expectedByte (some old.seed) x)
    (hlayout : layout.size = newSize ∧ layout.align = old.layout.align)
    (hptr : (RawAlloc.realloc r old.addr old.layout newSize).1 = some ptr)
    (h0 : ptr ≠ 0) (hfresh : FreshAt (held rest) ptr layout)
    (hnew : ∀ x, Covered old.layout.size (min old.layout.size newSize) x →
      RawAlloc.bytes (RawAlloc.realloc r old.addr old.layout newSize).2 (ptr + x) =
        expectedByte (some old.seed) x) :
    Accounted (RawAlloc.setBytes (RawAlloc.realloc r old.addr old.layout newSize).2
        (fill (RawAlloc.bytes (RawAlloc.realloc r old.addr old.layout newSize).2) ptr layout.size
          seed)).log (rest ++ [⟨ptr, layout, seed⟩]) := by
  obtain ⟨s, t, hinit, hpath, hk⟩ := ha
  have hmem : old ∈ live := hp.mem_iff.mpr List.mem_cons_self
  have hin : old.named ∈ t.live := hk.same ▸ mem_blocks_of hmem
  have hkrest := hk.without hb hp
  have hname : old.named.resized ptr newSize = ⟨ptr, layout.shape⟩ := by
    show (⟨ptr, ⟨newSize, old.layout.align⟩⟩ : Allocator.Held) = ⟨ptr, ⟨layout.size, layout.align⟩⟩
    rw [hlayout.1, hlayout.2]
  have hfits : Allocator.Fits usizeSize (t.without old.named).live (old.named.resized ptr newSize) :=
    hname ▸ hkrest.same ▸ hfresh.fits h0
  obtain ⟨t', hstep, hj, hcopy⟩ := Allocator.resize hin hfits
  rw [hname] at hj
  obtain ⟨t'', hstores, hk'⟩ := hkrest.filled hj fun x hx =>
    @fill_covered (RawAlloc.bytes (RawAlloc.realloc r old.addr old.layout newSize).2) ptr layout.size
      x seed hx
  have hraw : toRaw (RawAlloc.realloc r old.addr old.layout newSize).1 = ptr := congrArg toRaw hptr
  have hafter : Path (Allocator.contract usizeSize) t'
      (Recorder.loads (RawAlloc.bytes (RawAlloc.realloc r old.addr old.layout newSize).2) ptr
        old.layout.size (min old.layout.size newSize)) t' := by
    refine joined_loads hj ?_ fun x hx => ?_
    · show _ ≤ layout.size
      rw [hlayout.1]
      exact Nat.min_le_right _ _
    · -- The bytes were moved with the block.
      have hmoved : t'.byte (ptr + x) = t.byte (old.addr + x) := hcopy x hx.lt
      rw [hmoved, hk.pattern old hmem x (hx.mono (Nat.min_le_left _ _))]
      exact hnew x hx
  have hcall : Path (Allocator.contract usizeSize) t (Recorder.resizing (RawAlloc.bytes r) old.addr
      old.layout newSize (RawAlloc.realloc r.inner old.addr old.layout newSize)) t' := by
    have hinner : (RawAlloc.realloc r.inner old.addr old.layout newSize).1 = some ptr := hptr
    unfold Recorder.resizing
    rw [checks_some hinner]
    refine (hk.loads hmem hold).append (.cons ?_ hafter)
    rw [← hraw] at hstep
    exact hstep
  refine ⟨s, t'', hinit, (hpath.append hcall).append ?_, hk'⟩
  have hspot : (RawAlloc.realloc r old.addr old.layout newSize).2.fresh = (ptr, layout.size) :=
    Prod.ext hraw hlayout.1.symm
  rw [hspot]
  exact hstores

end Calls

/-! ## The operations -/

/-- A pointer that is returned is not null. -/
structure NonNull (A : Type) [RawAlloc A] : Prop where
  alloc : ∀ (a : A) (layout : Layout), (RawAlloc.alloc a layout).1 ≠ some 0
  allocZeroed : ∀ (a : A) (layout : Layout), (RawAlloc.allocZeroed a layout).1 ≠ some 0
  realloc : ∀ (a : A) (p : Nat) (layout : Layout) (newSize : Nat),
    (RawAlloc.realloc a p layout newSize).1 ≠ some 0

/-- What is left when the allocator refuses. -/
def Halted {σ : Type} (P : σ → Prop) (stop : Stop) (s : σ) : Prop := Refused stop → P s

omit [Build] in
theorem Halted.passes {σ : Type} {P : σ → Prop} {c : Prop} : Passes (Halted P) c :=
  Or.inr fun f _ hk ⟨_, he, hk'⟩ => by
    cases he
    exact absurd hk' hk

omit [Build] in
theorem Halted.asserts {σ : Type} {P : σ → Prop} {p : Prop} : Asserts (Halted P) p :=
  Or.inr fun _ _ ⟨_, he, _⟩ => by cases he

section Operations
variable [RawAlloc A] {m s : Model (Recorder A)} {ptr : Nat} {layout : Layout} {zeroed : Bool}
  {block : Block} {rest : List Block}

theorem NonNull.request (hn : NonNull A) {r : Recorder A}
    (h : (r.request layout zeroed).1 = some ptr) : ptr ≠ 0 := by
  rintro rfl
  cases zeroed with
  | false => exact hn.alloc _ _ h
  | true => exact hn.allocZeroed _ _ h

theorem tally_zeroes : Act.Spec (fun s => s = m) (Model.tally ptr layout zeroed)
    (fun _ _ => zeroed = true → ∀ x, Covered layout.size layout.size x →
      RawAlloc.bytes m.alloc (ptr + x) = 0) fun _ _ => True := by
  have hpass : ∀ {p : Prop} [Decidable p], Act.Spec (fun s : Model (Recorder A) => s = m)
      (Act.require p overflow) (fun _ _ => True) fun _ _ => True := fun {_ _} =>
    Act.Spec.require (fun _ _ _ => trivial) fun _ _ _ => trivial
  unfold Model.tally
  refine Act.Spec.get fun s hs => ?_
  rw [hs]
  cases zeroed with
  | false => exact Act.Spec.bind hpass fun _ => Act.Spec.modify fun _ _ h => by cases h
  | true =>
    rw [if_pos rfl]
    cases hv : verify (RawAlloc.bytes m.alloc) ptr layout.size layout.size none with
    | some e => exact fun _ _ => trivial
    | none =>
      refine Act.Spec.bind hpass fun _ => Act.Spec.modify fun _ _ _ x hx => ?_
      exact (verify_none_iff.mp hv x hx).trans (expectedByte_none x)

/-- **`do_alloc`** records a block the allocator may hand out. -/
theorem doAlloc_accounted (hn : NonNull A) (hm : m.Sound) (hs : 1 ≤ layout.size)
    (ha : Accounted m.alloc.log m.live) :
    Act.Spec (fun s => s = m) (Model.doAlloc layout zeroed) (fun _ s => Accounted s.alloc.log s.live)
      (Halted fun s => Lawful s.alloc) := by
  have hcall : (if zeroed = true then RawAlloc.allocZeroed m.alloc layout
      else RawAlloc.alloc m.alloc layout) = m.alloc.request layout zeroed := by
    cases zeroed with
    | false => rfl
    | true => rfl
  unfold Model.doAlloc
  dsimp only
  refine Act.Spec.bind call_spec fun o => ?_
  refine Act.Spec.fix fun t ⟨ho, ht⟩ => ?_
  rw [hcall] at ho ht
  cases o with
  | none =>
    refine Act.Spec.get fun s hs => ?_
    unfold Model.fail
    refine Act.Spec.get fun s' hs' => Act.Spec.throw fun u hu _ => ?_
    rw [hu, hs', hs, ht]
    exact ha.refused ho.symm
  | some ptr =>
    have hb : Books m.live t.byAddr m.liveBytes := by
      rw [ht]
      exact hm.books
    refine Act.Spec.bind (admitted_spec hb hs Halted.passes) fun _ => ?_
    refine Act.Spec.fix fun u ⟨hfits, hu⟩ => ?_
    subst ht hu
    refine Act.Spec.bind (((tally_spec Halted.asserts Halted.passes).and tally_zeroes).imp
      (fun s hs => ⟨hs, hs⟩) (fun _ _ h => h) fun _ _ h => h.1) fun _ => ?_
    refine Act.Spec.fix fun v ⟨⟨stats, hv, _⟩, hz⟩ => ?_
    subst hv
    refine Act.Spec.bind (adopt_spec Halted.asserts) fun _ => Act.Spec.modify fun w ⟨seed, hw⟩ => ?_
    have hdone : Accounted w.alloc.log w.live := by
      rw [hw.alloc, hw.live]
      exact ha.served ho.symm (hn.request ho.symm) (hb.fits_iff.mp hfits) hz
    split
    · exact hdone
    · exact hdone

/-- **A block is freed** with its pattern in it. -/
theorem freeVictim_accounted {take : List Block → Option Block × List Block} (hm : m.Sound)
    (htake : take m.live = (some block, rest)) (hp : m.live.Perm (block :: rest))
    (ha : Accounted m.alloc.log m.live) :
    Act.Spec (fun s => s = m) (Model.freeVictim take) (fun _ s => Accounted s.alloc.log s.live)
      (Halted fun s => Lawful s.alloc) := by
  unfold Model.freeVictim
  refine Act.Spec.get fun s hs => ?_
  rw [hs, htake]
  refine Act.Spec.bind (Q := fun _ s => s = { m with live := rest })
    (Act.Spec.modify fun s hs => by rw [hs]) fun _ => ?_
  refine Act.Spec.bind (Act.Spec.expect (Q := fun b s => s = { m with live := rest } ∧ b = block)
    (fun s b hs hb => ⟨hs, (Option.some.inj hb).symm⟩) fun _ _ h => by cases h) fun b => ?_
  refine Act.Spec.fix fun s ⟨hs, hb⟩ => ?_
  subst hb
  unfold Model.release
  refine Act.Spec.get fun t ht => ?_
  rw [ht, hs]
  dsimp only
  cases hv : verify (RawAlloc.bytes m.alloc) b.addr b.layout.size b.layout.size (some b.seed) with
  | some e => exact fail_spec (by decide) Halted.passes not_false
  | none =>
    refine Act.Spec.bind Halted.asserts.require fun _ => Act.Spec.bind Halted.asserts.require fun _ => ?_
    refine Act.Spec.modify fun u ⟨⟨hu, _⟩, _⟩ => ?_
    rw [hu]
    exact ha.freed hm.books hp (verify_none_iff.mp hv)

/-- **A block is resized** with its pattern in it. -/
theorem resize_accounted (hn : NonNull A) (hm : m.Sound) {old : Block} {newSize : Nat}
    {newLayout : Layout} (ht : Taken m s old rest)
    (hnew : fromSizeAlign newSize old.layout.align = some newLayout) (h1 : 1 ≤ newSize)
    (hold : ∀ x, Covered old.layout.size old.layout.size x →
      RawAlloc.bytes m.alloc (old.addr + x) = expectedByte (some old.seed) x)
    (ha : Accounted m.alloc.log m.live) :
    Act.Spec (fun t => t = s) (Model.resize old newSize newLayout)
      (fun _ s => Accounted s.alloc.log s.live) (Halted fun s => Lawful s.alloc) := by
  obtain ⟨hp, hs⟩ := ht
  subst hs
  have hlayout := fromSizeAlign_eq hnew
  have hmem : old ∈ m.live := hp.mem_iff.mpr List.mem_cons_self
  have hdrop := (hm.books.drop hp).1
  unfold Model.resize
  refine Act.Spec.bind call_spec fun o => ?_
  refine Act.Spec.fix fun t ⟨ho, ht⟩ => ?_
  dsimp only at ho ht
  cases o with
  | none =>
    refine Act.Spec.bind Halted.asserts.require fun _ => ?_
    refine Act.Spec.bind (Q := fun _ s => Lawful s.alloc) (Act.Spec.modify fun u hu => ?_) fun _ => ?_
    · rw [hu.1, ht]
      exact ha.kept hmem hold ho.symm
    · refine Act.Spec.get fun u hu => ?_
      unfold Model.fail
      refine Act.Spec.get fun v hv => Act.Spec.throw fun w hw _ => ?_
      rw [hw, hv]
      exact hu
  | some ptr =>
    have h0 : ptr ≠ 0 := by
      rintro rfl
      exact hn.realloc _ _ _ _ ho.symm
    refine Act.Spec.get fun u hu => ?_
    refine Act.Spec.bind Halted.asserts.require fun _ => ?_
    refine Act.Spec.bind (Q := fun _ s => s = { t with liveBytes := m.liveBytes - old.layout.size })
      (Act.Spec.modify fun v hv => by rw [hv.1, hu, ht]) fun _ => ?_
    subst ht
    refine Act.Spec.bind (admitted_spec (n := m.liveBytes - old.layout.size) hdrop (hlayout.1 ▸ h1)
      Halted.passes) fun _ => ?_
    refine Act.Spec.fix fun v ⟨hfits, hv⟩ => ?_
    refine Act.Spec.get fun w hw => ?_
    rw [hw, hv]
    dsimp only
    cases hver : verify (RawAlloc.bytes (RawAlloc.realloc m.alloc old.addr old.layout newSize).2) ptr
      old.layout.size (min old.layout.size newSize) (some old.seed) with
    | some e => exact fail_spec (by decide) Halted.passes not_false
    | none =>
      refine Act.Spec.bind (adopt_spec Halted.asserts) fun _ => ?_
      refine Act.Spec.fix fun x ⟨seed, hx⟩ => ?_
      refine Act.Spec.bind Halted.asserts.require fun _ => Act.Spec.modify fun y ⟨hy, _⟩ => ?_
      show Accounted y.alloc.log y.live
      rw [hy, hx.alloc, hx.live]
      exact ha.resized hm.books hp hold hlayout ho.symm h0 (hdrop.fits_iff.mp hfits)
        (verify_none_iff.mp hver)

theorem doRealloc_accounted (hn : NonNull A) (hm : m.Sound) {index newSize : Nat}
    (hd : Drawn m (.realloc index newSize)) (ha : Accounted m.alloc.log m.live) :
    Act.Spec (fun s => s = m) (Model.doRealloc index newSize) (fun _ s => Accounted s.alloc.log s.live)
      (Halted fun s => Lawful s.alloc) := by
  obtain ⟨h1, old, hget, -⟩ := hd
  obtain ⟨rest, htake, hp⟩ := swapRemoveBack_spec hget
  unfold Model.doRealloc
  refine Act.Spec.get fun s hs => ?_
  rw [hs, htake]
  refine Act.Spec.bind (Q := fun _ s => s = { m with live := rest })
    (Act.Spec.modify fun s hs => by rw [hs]) fun _ => ?_
  refine Act.Spec.bind (Act.Spec.expect (Q := fun b s => s = { m with live := rest } ∧ b = old)
    (fun s b hs hb => ⟨hs, (Option.some.inj hb).symm⟩) fun _ _ h => by cases h) fun b => ?_
  refine Act.Spec.fix fun s ⟨hs, hb⟩ => ?_
  subst hb
  dsimp only
  cases hv : verify (RawAlloc.bytes m.alloc) b.addr b.layout.size b.layout.size (some b.seed) with
  | some e => exact fail_spec (by decide) Halted.passes not_false
  | none =>
    refine Act.Spec.bind (Q := fun _ s => Taken m s b rest) (Act.Spec.modify fun t ht => ⟨hp, ?_⟩)
      fun _ => ?_
    · rw [ht, hs]
    refine Act.Spec.fix fun t ht => ?_
    refine Act.Spec.bind (Act.Spec.expect (Q := fun l s => s = t ∧
        fromSizeAlign newSize b.layout.align = some l)
      (fun _ _ h h' => ⟨h, h'⟩) fun s _ _ ⟨_, he, _⟩ => by cases he) fun l => ?_
    refine Act.Spec.fix fun u ⟨hu, hl⟩ => ?_
    subst hu
    exact resize_accounted hn hm ht hl h1 (verify_none_iff.mp hv) ha

theorem drainOne_accounted (hm : m.Sound) (ha : Accounted m.alloc.log m.live) :
    Act.Spec (fun s => s = m) Model.drainOne (fun _ s => Accounted s.alloc.log s.live)
      (Halted fun s => Lawful s.alloc) := by
  unfold Model.drainOne
  refine Act.Spec.get fun s hs => ?_
  rw [hs]
  split
  · exact Act.Spec.pure fun s hs => hs ▸ ha
  · rename_i hne
    rw [List.isEmpty_iff] at hne
    obtain ⟨block, rest, hback, hp⟩ := popBack_spec hne
    obtain ⟨block', rest', hfront, hp'⟩ := popFront_spec hne
    refine Act.Spec.bind (Q := fun _ s => Accounted s.alloc.log s.live) ?_
      fun _ => Act.Spec.pure fun _ h => h
    unfold Model.freeNext
    cases m.profile.order with
    | fifo => exact freeVictim_accounted hm hfront hp' ha
    | lifo => exact freeVictim_accounted hm hback hp ha
    | random => exact freeVictim_accounted hm hback hp ha

end Operations

/-! ## Runs -/

/-- The state of a run that has reported nothing. -/
structure Vouched (profile : Profile) (m : Model (Recorder A)) : Prop where
  sound : m.Sound
  profile : m.profile = profile
  accounted : Accounted m.alloc.log m.live

section Runs
variable [RawAlloc A] [Entropy E] {profile : Profile} {m : Model (Recorder A)} {i ops : Nat}

/-- A run that stops with a refusal has seen nothing unlawful. -/
abbrev Excused : Stop → Session (Recorder A) E → Prop := Halted fun s => Lawful s.model.alloc

theorem doDealloc_accounted (hm : m.Sound) (hne : m.live ≠ []) (ha : Accounted m.alloc.log m.live) :
    Act.Spec (fun s => s.model = m) (Model.doDealloc : Drive (Recorder A) E _)
      (fun _ s => Accounted s.model.alloc.log s.model.live) Excused := by
  have hfree : ∀ {take : List Block → Option Block × List Block} {block rest},
      take m.live = (some block, rest) → m.live.Perm (block :: rest) →
      Act.Spec (fun s => s.model = m) (do onModel (Model.freeVictim take); pure true : Drive (Recorder A) E _)
        (fun _ s => Accounted s.model.alloc.log s.model.live) Excused := fun htake hp =>
    Act.Spec.bind (onModel_spec fun s => freeVictim_accounted hm htake hp ha)
      fun _ => Act.Spec.pure fun _ h => h
  unfold Model.doDealloc
  refine Act.Spec.get fun s hs => ?_
  rw [hs]
  refine Act.Spec.pre ?_ fun t ht => show t.model = m by rw [ht, hs]
  cases m.profile.order with
  | random =>
    refine Act.Spec.bind (onEntropy_spec (Halted.asserts (p := Tame m.profile)) fun ht =>
      below_spec (ht.of fun ht => hm.index_pos hne ht)) fun o => ?_
    cases o with
    | none => exact Act.Spec.pure fun s hs => hs.1 ▸ ha
    | some j =>
      refine Act.Spec.fix fun t ⟨ht, hj⟩ => ?_
      have hlt : j < m.live.length := (hj j rfl).trans_le (Nat.mod_le _ _)
      obtain ⟨rest, htake, hp⟩ := swapRemoveBack_spec (List.getElem?_eq_getElem hlt)
      exact (hfree htake hp).pre fun t' ht' => ht' ▸ ht
  | lifo =>
    obtain ⟨block, rest, htake, hp⟩ := popBack_spec hne
    exact hfree htake hp
  | fifo =>
    obtain ⟨block, rest, htake, hp⟩ := popFront_spec hne
    exact hfree htake hp

theorem execute_accounted (hn : NonNull A) (hm : m.Sound) {op : Op} (hd : Drawn m op)
    (ha : Accounted m.alloc.log m.live) :
    Act.Spec (fun s => s.model = m) (Model.execute op : Drive (Recorder A) E _)
      (fun _ s => Accounted s.model.alloc.log s.model.live) Excused := by
  cases op with
  | alloc layout zeroed =>
    exact Act.Spec.bind (onModel_spec fun s => doAlloc_accounted hn hm hd.1 ha) fun _ =>
      Act.Spec.pure fun _ h => h
  | dealloc => exact doDealloc_accounted hm hd ha
  | realloc index newSize =>
    exact Act.Spec.bind (onModel_spec fun s => doRealloc_accounted hn hm hd ha) fun _ =>
      Act.Spec.pure fun _ h => h

/-- **One turn** is accounted for. -/
theorem turn_accounted (hn : NonNull A) (h : Vouched profile m) :
    Act.Spec (fun s => s.model = m) (Model.turn i : Drive (Recorder A) E _)
      (fun _ s => Accounted s.model.alloc.log s.model.live) Excused := by
  unfold Model.turn
  refine Act.Spec.bind (onModel_spec (Q := fun _ m' => m' = { m with opIndex := i }) fun s =>
    Act.Spec.modify fun t ht => by rw [ht]) fun _ => ?_
  have hm : Model.Sound { m with opIndex := i } := ⟨h.sound.books, h.sound.cap, h.sound.cap_pos⟩
  refine Act.Spec.bind (nextOp_spec Halted.asserts hm) fun o => ?_
  cases o with
  | none =>
    refine Act.Spec.pure fun s ⟨⟨left, hs⟩, _⟩ => ?_
    rw [hs]
    exact h.accounted
  | some op =>
    refine Act.Spec.fix fun s ⟨⟨left, hs⟩, hd⟩ => ?_
    have hm' : Model.Sound { m with opIndex := i, batchLeft := left } :=
      ⟨h.sound.books, h.sound.cap, h.sound.cap_pos⟩
    have hdrawn : Drawn { m with opIndex := i, batchLeft := left } op := by
      have hd := hd op rfl
      cases op <;> exact hd
    refine Act.Spec.bind ((execute_accounted hn hm' hdrawn h.accounted).pre fun t ht => ht ▸ hs)
      fun more => ?_
    cases more with
    | false => exact Act.Spec.pure fun _ h => h
    | true =>
      exact Act.Spec.bind (Q := fun _ t => Accounted t.model.alloc.log t.model.live)
        (Act.Spec.zoom fun t ht => Act.Spec.modify fun m' hm' => hm' ▸ ht) fun _ =>
          Act.Spec.pure fun _ h => h

theorem turn_vouched (hn : NonNull A) :
    Act.Spec (fun s : Session (Recorder A) E => Vouched profile s.model) (Model.turn i)
      (fun _ s => Vouched profile s.model) Excused := by
  intro s hs
  have hsound := turn_sound i ⟨hs.sound, hs.profile⟩
  exact (hsound.and (turn_accounted hn hs s rfl)).imp
    (fun _ _ h => ⟨h.1.1, h.1.2, h.2⟩) fun _ _ h => h.2

omit [Entropy E] in
theorem drain_vouched (s : Session (Recorder A) E) : Act.Spec (Vouched profile) Model.drain
    (fun _ m => Vouched profile m) (Through Excused s) := by
  unfold Model.drain
  refine Act.Spec.get fun m hm => ?_
  refine (Act.Spec.loop (n := m.live.length) (I := fun _ m => Vouched profile m)
    (D := Vouched profile) (fun i _ => ?_) (fun _ h => h) _ 0 (Nat.zero_add _)).pre fun t ht => ht ▸ hm
  intro m hm
  have hsound := drainOne_sound hm.sound
  refine (hsound.and (drainOne_accounted hm.sound hm.accounted m rfl)).imp
    (fun _ _ h => ?_) fun _ _ h => h.2
  have hv : Vouched profile _ := ⟨h.1.1, h.1.2.trans hm.profile, h.2⟩
  exact ⟨fun _ => hv, fun _ => hv⟩

omit [Entropy E] in
theorem sweep_vouched (s : Session (Recorder A) E) : Act.Spec (Vouched profile) (Model.sweep i)
    (fun _ m => Vouched profile m) (Through Excused s) := by
  unfold Model.sweep
  refine Act.Spec.get fun m hm => ?_
  split
  · exact (drain_vouched s).pre fun t ht => ht ▸ hm
  · exact Act.Spec.pure fun t ht => ht ▸ hm

omit [RawAlloc A] in
theorem new_vouched (a : A) (hcap : 0 < profile.maxLiveBytes) :
    Vouched profile (Model.new (Recorder.new a) profile) where
  sound := new_sound _ hcap
  profile := rfl
  accounted := by
    have hnone : blocks [] = ∅ := Set.eq_empty_iff_forall_notMem.mpr
      fun _ ⟨_, ⟨_, hm, _⟩, _⟩ => absurd hm List.not_mem_nil
    refine ⟨⟨∅, fun _ => 0⟩, ⟨∅, fun _ => 0⟩, rfl, .nil _, ⟨hnone.symm, ?_⟩⟩
    exact fun block hm => absurd hm List.not_mem_nil

/-- **A run** is accounted for. -/
theorem drive_vouched (hn : NonNull A) {a : A} {e : E} :
    Act.Spec (fun s => s = ⟨Model.new (Recorder.new a) profile, e⟩) (drive ops profile)
      (fun _ s => Vouched profile s.model) Excused := by
  have hmodel : ∀ {x : Check (Recorder A) Unit}, (∀ s : Session (Recorder A) E,
      Act.Spec (Vouched profile) x (fun _ m => Vouched profile m) (Through Excused s)) →
      Act.Spec (fun s : Session (Recorder A) E => Vouched profile s.model) (onModel x)
        (fun _ s => Vouched profile s.model) Excused := fun hx =>
    Act.Spec.zoom fun s hs => (hx s).pre fun _ ht => ht ▸ hs
  unfold drive
  refine Act.Spec.bind (validate_spec Halted.asserts) fun _ => ?_
  refine Act.Spec.bind ((Act.Spec.loop (n := ops) (I := fun _ s => Vouched profile s.model)
    (D := fun s => Vouched profile s.model) (fun i _ => ?_) (fun _ h => h) _ 0 (Nat.zero_add _)).pre
    fun s hs => hs.1 ▸ new_vouched a hs.2) fun _ => ?_
  · -- One turn, and the sweep after it.
    refine Act.Spec.bind (turn_vouched hn) fun more => ?_
    cases more with
    | false => exact Act.Spec.pure fun s hs => ⟨nofun, fun _ => hs⟩
    | true =>
      exact Act.Spec.bind (hmodel sweep_vouched) fun _ =>
        Act.Spec.pure fun s hs => ⟨fun _ => hs, nofun⟩
  · exact Act.Spec.bind (hmodel drain_vouched) fun _ =>
      Act.Spec.get fun s hs => Act.Spec.pure fun t ht => ht ▸ hs

/-- Nothing is reported against the allocator. -/
def Passed (r : Except Stop Stats) : Prop := ∀ stop, r = .error stop → Refused stop

theorem Verdict.passed {a : A} {r : Except Stop Stats × Session A E} (h : Verdict a profile r) :
    Passed r.1 := by
  obtain ⟨stop | stats, s⟩ := r
  · intro stop' he
    cases he
    exact h.1
  · intro stop he
    cases he

/-- **A passed run vouches for the allocator**: what the tester has seen of it the abstract
    allocator could have shown. -/
theorem passed_lawful (hn : NonNull A) (a : A) (e : E) (h : Passed (runWith a e ops profile).1) :
    ∃ s : Session (Recorder A) E,
      runWith (Recorder.new a) e ops profile = ((runWith a e ops profile).1, s) ∧
      s.forget = (runWith a e ops profile).2 ∧
      s.model.alloc.log ∈ (Allocator.contract usizeSize).traces := by
  have hrec : runWith a e ops profile = _ := runWith_recorded a e ops
  have hdrive : Act.Spec (fun s : Session (Recorder A) E => s = ⟨Model.new (Recorder.new a) profile, e⟩)
      (drive ops profile) (fun _ s => Vouched profile s.model) Excused := drive_vouched hn
  have hend := hdrive _ rfl
  change Act.Ends _ _ (runWith (Recorder.new a) e ops profile) at hend
  generalize runWith (Recorder.new a) e ops profile = r at hrec hend ⊢
  rw [hrec] at h ⊢
  obtain ⟨stop | stats, s⟩ := r
  · exact ⟨s, rfl, rfl, hend (h stop rfl)⟩
  · exact ⟨s, rfl, rfl, hend.accounted.lawful⟩

/-- **Every allocator gets a verdict**: whatever the allocator answers, a run of a preset frees all
    it allocated or reports a failure. -/
theorem preset_verdict (hp : profile ∈ Profile.all) (hops : ops < usizeSize) (a : A) (e : E) :
    Act.Ends (fun stats s => s.model.Sound ∧ s.model.live = [] ∧ stats = s.model.stats ∧
      Counts s.model ops) (fun stop _ => ∃ f, stop = .failure f) (runWith a e ops profile) := by
  have hH : Permits profile ops fun stop (_ : Session A E) => ∃ f, stop = .failure f :=
    { tame := Or.inl (all_tame profile hp), index := Or.inl hops
      refused := fun f _ _ _ _ => ⟨f, rfl⟩ }
  refine (drive_spec obeys_none hH (Or.inr fun f _ _ => ⟨f, rfl⟩) _ rfl).imp
    (fun stats s ⟨hgo, hnil, hstats⟩ => ⟨hgo.sound, hnil, hstats, ?_⟩) fun _ _ h => h
  refine hgo.counts.resolve_right fun hpanic => ?_
  obtain ⟨f, hf⟩ := hpanic "" s
  cases hf

end Runs
end Wasmalloc.Testing

/-! ## Two allocators -/
namespace Wasmalloc.Testing.Sample
open ByteMem (Bytes)
open Wasmalloc.Sample

/-- Every block lies behind the one before it, and none is used again. -/
structure Bump where
  next : Nat
  bytes : Bytes

/-- The next address for a Layout, if it is in the address space. -/
def Bump.place (b : Bump) (layout : Layout) : Option Nat × Bump :=
  let p := layout.align * (b.next / layout.align + 1)
  if p + layout.size < usizeSize then (some p, { b with next := p + layout.size }) else (none, b)

/-- Whatever lies behind the last block is zero. -/
def Bump.clear (b : Bump) : Bump := { b with bytes := fun x => if b.next ≤ x then 0 else b.bytes x }

instance : RawAlloc Bump where
  alloc b layout := b.place layout
  allocZeroed b layout := b.clear.place layout
  dealloc b _ _ := b
  realloc b _ _ _ := (none, b)
  footprintBytes _ := none
  bytes b := b.bytes
  setBytes b bytes := { b with bytes := bytes }
  bytes_setBytes _ _ := rfl

/-- The blocks handed out lie before the next one. -/
def Bump.Behind (b : Bump) (l : Testing.Held) : Prop := ∀ x ∈ l, x.1 + x.2.size ≤ b.next

theorem Bump.place_some {b : Bump} {layout : Layout} {p : Nat} (h : (b.place layout).1 = some p) :
    layout.align ∣ p ∧ b.next < p ∧ p + layout.size < usizeSize ∧
      b.place layout = (some p, { b with next := p + layout.size }) := by
  unfold place at h ⊢
  dsimp only at h ⊢
  split at h
  · rename_i hroom
    obtain rfl := Option.some.inj h
    rw [if_pos hroom]
    exact ⟨Nat.dvd_mul_right _ _, Nat.lt_mul_div_succ _ layout.align_pos, hroom, rfl⟩
  · cases h

theorem Bump.place_answers {b c : Bump} {l : Testing.Held} (h : c.Behind l) (hk : Keeps l b c)
    (layout : Layout) : Answers Behind l b layout (c.place layout) := by
  cases hp : (c.place layout).1 with
  | none =>
    have hsame : (c.place layout).2 = c := by
      unfold place at hp ⊢
      dsimp only at hp ⊢
      split at hp
      · cases hp
      · rename_i hroom
        rw [if_neg hroom]
    exact Or.inl ⟨hp, by rw [hsame]; exact h, by rw [hsame]; exact hk⟩
  | some p =>
    obtain ⟨hdvd, hlt, hroom, heq⟩ := place_some hp
    refine Or.inr ⟨p, hp, ⟨hdvd, hroom, fun x hx => ?_⟩, ?_, ?_⟩
    · rw [Set.Ico_disjoint_Ico]
      exact (min_le_right _ _).trans (((h x hx).trans hlt.le).trans (le_max_left _ _))
    · rw [heq]
      intro x hx
      rcases Set.mem_insert_iff.mp hx with rfl | hx
      · exact Nat.le_refl _
      · exact (h x hx).trans (hlt.le.trans (Nat.le_add_right _ _))
    · rw [heq]
      exact hk

theorem bump_obeys : Obeys Bump.Behind where
  alloc := fun b l layout h _ => Bump.place_answers h (fun _ _ _ _ => rfl) layout
  allocZeroed := by
    intro b l layout h _
    refine ⟨Bump.place_answers (c := b.clear) h (fun x hx i hi => ?_) layout, fun p hp i _ => ?_⟩
    · have hend := h x hx
      exact if_neg (by omega)
    · obtain ⟨-, hlt, -, heq⟩ := Bump.place_some hp
      have hlt' : b.next < p := hlt
      show RawAlloc.bytes (b.clear.place layout).2 (p + i) = 0
      rw [heq]
      exact if_pos (by omega)
  dealloc := fun _ _ _ _ h _ => ⟨fun x hx => h x hx.1, fun _ _ _ _ => rfl⟩
  realloc := fun _ _ _ _ _ h _ _ _ => Or.inl ⟨rfl, h, fun _ _ _ _ => rfl⟩
  write := fun _ _ _ h _ => h

theorem bump_nonNull : NonNull Bump where
  alloc := fun _ _ h => absurd (Bump.place_some h).2.1 (Nat.not_lt_zero _)
  allocZeroed := fun _ _ h => absurd (Bump.place_some h).2.1 (Nat.not_lt_zero _)
  realloc := fun _ _ _ _ h => by cases h

/-- Nothing was handed out. -/
def bump : Bump := { next := 0, bytes := fun _ => 255 }

/-- A source of fifty draws. -/
def draws : ByteSource := ⟨(List.range 200).map fun n => UInt8.ofNat (11 * n)⟩

theorem bump_passes : Passed (runWith bump draws 40 .mixed).1 :=
  (runWith_verdict bump_obeys (fun _ hx => absurd hx (Set.notMem_empty _))
    (List.mem_cons_of_mem _ List.mem_cons_self) (by decide)).passed

theorem bump_vouched : ∃ s : Session (Recorder Bump) ByteSource,
    runWith (Recorder.new bump) draws 40 .mixed = ((runWith bump draws 40 .mixed).1, s) ∧
      s.forget = (runWith bump draws 40 .mixed).2 ∧
      s.model.alloc.log ∈ (Allocator.contract usizeSize).traces :=
  passed_lawful bump_nonNull bump draws bump_passes

/-- Every request is answered with the same block. -/
structure Stuck where
  bytes : Bytes

instance : RawAlloc Stuck where
  alloc b _ := (some 4096, b)
  allocZeroed b _ := (some 4096, b)
  dealloc b _ _ := b
  realloc b _ _ _ := (some 4096, b)
  footprintBytes _ := none
  bytes b := b.bytes
  setBytes _ bytes := ⟨bytes⟩
  bytes_setBytes _ _ := rfl

theorem stuck_verdict : Act.Ends (fun stats s => s.model.Sound ∧ s.model.live = [] ∧
      stats = s.model.stats ∧ Counts s.model 40) (fun stop _ => ∃ f, stop = .failure f)
    (runWith (Stuck.mk fun _ => 0) draws 40 .smallChurn) :=
  preset_verdict List.mem_cons_self (by decide) _ draws

end Wasmalloc.Testing.Sample
