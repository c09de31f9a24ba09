import Wasmalloc.Global
import Wasmalloc.Testing.Model

/- An allocator under record.

   A recorder passes every call on to an allocator and keeps a log in the words of the
   abstract allocator: the calls with their results, the bytes the tester reads of a block
   around them, and the bytes it fills a new block with. The tester does with a recorder
   what it does with the allocator in it (`runWith_recorded`). -/
namespace Wasmalloc.Testing
open Allocator (Seen)
open ByteMem (Bytes)

variable [Build] {A E α : Type}

/-- The positions that carry the pattern. -/
def positions (len limit : Nat) : List Nat :=
  (spans len limit).flatMap fun span => List.range' span.1 (span.2 - span.1)

omit [Build] in
theorem mem_positions {len limit x : Nat} : x ∈ positions len limit ↔ Covered len limit x := by
  unfold positions
  rw [List.mem_flatMap]
  refine exists_congr fun span => and_congr_right fun _ => ?_
  rw [List.mem_range'_1]
  omega

/-- The bytes of the block at `p` that carry the pattern. -/
def marked (p len limit : Nat) : List Nat := (positions len limit).map (p + ·)

/-- An allocator, the address and size of the block it handed out last, and what was seen. -/
structure Recorder (A : Type) where
  inner : A
  fresh : Nat × Nat
  log : List Seen

namespace Recorder

def new (a : A) : Recorder A := { inner := a, fresh := (0, 0), log := [] }

/-- What `verify` reads. -/
def loads (b : Bytes) (p len limit : Nat) : List Seen := (marked p len limit).map fun x => .load x (b x)

/-- What `fill` writes. -/
def stores (b : Bytes) (p len : Nat) : List Seen := (marked p len len).map fun x => .store x (b x)

variable [RawAlloc A]

/-- What is read of a block that was handed out. -/
def checks (res : Option Nat × A) (len limit : Nat) : List Seen :=
  match res.1 with
  | some p => loads (RawAlloc.bytes res.2) p len limit
  | none => []

/-- The answer of the allocator is passed on. -/
def answer (r : Recorder A) (res : Option Nat × A) (size : Nat) (seen : List Seen) :
    Option Nat × Recorder A :=
  (res.1, { inner := res.2, fresh := (toRaw res.1, size), log := r.log ++ seen })

/-- What is seen of a request. -/
def asked (res : Option Nat × A) (layout : Layout) (zeroed : Bool) : List Seen :=
  .alloc layout.shape zeroed (toRaw res.1) ::
    if zeroed then checks res layout.size layout.size else []

/-- What the allocator under record answers. -/
def served (r : Recorder A) (layout : Layout) (zeroed : Bool) : Option Nat × A :=
  if zeroed then RawAlloc.allocZeroed r.inner layout else RawAlloc.alloc r.inner layout

def request (r : Recorder A) (layout : Layout) (zeroed : Bool) : Option Nat × Recorder A :=
  r.answer (r.served layout zeroed) layout.size (asked (r.served layout zeroed) layout zeroed)

/-- What is seen of a block whose size changes. -/
def resizing (b : Bytes) (p : Nat) (layout : Layout) (newSize : Nat) (res : Option Nat × A) : List Seen :=
  loads b p layout.size layout.size ++ .realloc ⟨p, layout.shape⟩ newSize (toRaw res.1) ::
    checks res layout.size (min layout.size newSize)

instance : RawAlloc (Recorder A) where
  alloc r layout := r.request layout false
  allocZeroed r layout := r.request layout true
  dealloc r p layout :=
    { r with inner := RawAlloc.dealloc r.inner p layout
             log := r.log ++ (loads (RawAlloc.bytes r.inner) p layout.size layout.size ++
               [.dealloc ⟨p, layout.shape⟩]) }
  realloc r p layout newSize :=
    let res := RawAlloc.realloc r.inner p layout newSize
    r.answer res newSize (resizing (RawAlloc.bytes r.inner) p layout newSize res)
  footprintBytes r := RawAlloc.footprintBytes r.inner
  bytes r := RawAlloc.bytes r.inner
  setBytes r b :=
    { r with inner := RawAlloc.setBytes r.inner b, log := r.log ++ stores b r.fresh.1 r.fresh.2 }
  bytes_setBytes r b := RawAlloc.bytes_setBytes r.inner b

end Recorder

/-! ## The record is not looked at -/

/-- The model without the record. -/
def Model.forget (m : Model (Recorder A)) : Model A := { m with alloc := m.alloc.inner }

def Session.forget (s : Session (Recorder A) E) : Session A E :=
  { model := s.model.forget, entropy := s.entropy }

/-- The program does the same on a recorder as on the allocator in it. -/
abbrev Blind (x : Check (Recorder A) α) (y : Check A α) : Prop := Act.Projects Model.forget x y

/-- So does a program that also draws. -/
abbrev BlindDrive (x : Drive (Recorder A) E α) (y : Drive A E α) : Prop :=
  Act.Projects Session.forget x y

theorem Blind.onModel {x : Check (Recorder A) α} {y : Check A α} (h : Blind x y) :
    BlindDrive (E := E) (Testing.onModel x) (Testing.onModel y) :=
  h.zoom (fun _ => rfl) fun _ _ => rfl

theorem onEntropy_blind (x : Draw E Failure α) :
    BlindDrive (onEntropy x : Drive (Recorder A) E α) (onEntropy x) := by
  have hx : Act.Projects id x x := fun _ => rfl
  exact hx.zoom (fun _ => rfl) fun _ _ => rfl

namespace Model

theorem fail_blind {kind : FailureKind} {detail : String} :
    Blind (fail kind detail : Check (Recorder A) α) (fail kind detail) :=
  .get fun _ => .throw _

theorem freshSeed_blind : Blind (freshSeed : Check (Recorder A) UInt64) freshSeed :=
  .get fun _ => .bind .require fun _ => .bind (.modify fun _ => rfl) fun _ => .pure _

theorem admitBlock_blind {what : String} {ptr : Nat} {layout : Layout} :
    Blind (admitBlock what ptr layout : Check (Recorder A) Unit) (admitBlock what ptr layout) := by
  refine .get fun m => .ite fail_blind (.ite fail_blind ?_)
  dsimp only [forget]
  cases m.byAddr.lastBelow (ptr + layout.size) with
  | none => exact .modify fun _ => rfl
  | some e => exact .ite fail_blind (.modify fun _ => rfl)

section Choose
variable [Entropy E]

theorem batchClass_blind : BlindDrive (batchClass : Drive (Recorder A) E _) batchClass := by
  refine .get fun s => .bind (.ite (onEntropy_blind _) (.pure _)) fun left => ?_
  cases left with
  | none => exact .pure _
  | some left =>
    refine .bind (Blind.onModel (.modify fun _ => rfl)) fun _ => ?_
    exact .ite (onEntropy_blind _) (.pure _)

theorem nextAlloc_blind {zeroed : Bool} :
    BlindDrive (nextAlloc zeroed : Drive (Recorder A) E _) (nextAlloc zeroed) := by
  refine .get fun s => .bind (onEntropy_blind _) fun layout => ?_
  cases layout with
  | none => exact .pure _
  | some layout =>
    refine .bind .require fun _ => .ite (.ite (.pure _) ?_) (.pure _)
    exact .bind .expect fun _ => .pure _

theorem nextRealloc_blind : BlindDrive (nextRealloc : Drive (Recorder A) E _) nextRealloc := by
  refine .get fun s => .bind (onEntropy_blind _) fun index => ?_
  cases index with
  | none => exact .pure _
  | some index =>
    refine .bind .expect fun block => .bind (onEntropy_blind _) fun half => ?_
    cases half with
    | none => exact .pure _
    | some half =>
      refine .bind (onEntropy_blind _) fun newSize => ?_
      cases newSize with
      | none => exact .pure _
      | some newSize => exact .bind .require fun _ => .bind .require fun _ => .pure _

theorem nextOp_blind : BlindDrive (nextOp : Drive (Recorder A) E _) nextOp := by
  refine .get fun s => .bind (.ite batchClass_blind (onEntropy_blind _)) fun cls => ?_
  cases cls with
  | none => exact .pure _
  | some cls =>
    have hif : (if 2 ≤ cls ∧ s.forget.model.live.isEmpty = true then 0 else cls) =
        if 2 ≤ cls ∧ s.model.live.isEmpty = true then 0 else cls := rfl
    dsimp only
    rw [hif]
    generalize (if 2 ≤ cls ∧ s.model.live.isEmpty = true then 0 else cls) = cls
    rcases cls with _ | _ | _ | cls
    · exact nextAlloc_blind
    · exact nextAlloc_blind
    · exact .pure _
    · exact nextRealloc_blind

end Choose

variable [RawAlloc A]

theorem forget_bytes {m : Model (Recorder A)} :
    RawAlloc.bytes m.forget.alloc = RawAlloc.bytes m.alloc := rfl

theorem recordLive_blind {block : Block} :
    Blind (recordLive block : Check (Recorder A) Unit) (recordLive block) :=
  .get fun _ => .bind .require fun _ => .modify fun _ => rfl

omit [RawAlloc A] in
theorem call_blind {f : Recorder A → Option Nat × Recorder A} {g : A → Option Nat × A}
    (h : ∀ r, (f r).1 = (g r.inner).1 ∧ (f r).2.inner = (g r.inner).2) : Blind (call f) (call g) := by
  refine .get fun m => ?_
  rw [(h m.alloc).1]
  refine .bind (.modify fun m => ?_) fun _ => .pure _
  show ({ m.forget with alloc := (g m.alloc.inner).2 } : Model A) =
    { m.forget with alloc := (f m.alloc).2.inner }
  rw [(h m.alloc).2]

theorem tally_blind {ptr : Nat} {layout : Layout} {zeroed : Bool} :
    Blind (tally ptr layout zeroed : Check (Recorder A) Unit) (tally ptr layout zeroed) := by
  refine .get fun m => .ite ?_ (.bind .require fun _ => .modify fun _ => rfl)
  rw [forget_bytes]
  cases verify (RawAlloc.bytes m.alloc) ptr layout.size layout.size none with
  | some e => exact fail_blind
  | none => exact .bind .require fun _ => .modify fun _ => rfl

theorem adopt_blind {ptr : Nat} {layout : Layout} :
    Blind (adopt ptr layout : Check (Recorder A) Unit) (adopt ptr layout) :=
  .bind freshSeed_blind fun _ => .bind (.modify fun _ => rfl) fun _ => recordLive_blind

theorem doAlloc_blind {layout : Layout} {zeroed : Bool} :
    Blind (doAlloc layout zeroed : Check (Recorder A) Unit) (doAlloc layout zeroed) := by
  refine .bind (call_blind fun r => ?_) fun o => ?_
  · cases zeroed with
    | false => exact ⟨rfl, rfl⟩
    | true => exact ⟨rfl, rfl⟩
  · cases o with
    | none => exact .get fun m => fail_blind
    | some ptr =>
      refine .bind admitBlock_blind fun _ => .bind tally_blind fun _ => .bind adopt_blind fun _ => ?_
      refine .modify fun m => ?_
      show (if 0 < m.batchLeft then _ else _) = forget (if 0 < m.batchLeft then _ else _)
      split
      · rfl
      · rfl

theorem release_blind {block : Block} :
    Blind (release block : Check (Recorder A) Unit) (release block) := by
  refine .get fun m => ?_
  dsimp only
  rw [forget_bytes]
  cases verify (RawAlloc.bytes m.alloc) block.addr block.layout.size block.layout.size
    (some block.seed) with
  | some e => exact fail_blind
  | none => exact .bind .require fun _ => .bind .require fun _ => .modify fun _ => rfl

theorem freeVictim_blind {take : List Block → Option Block × List Block} :
    Blind (freeVictim take : Check (Recorder A) Unit) (freeVictim take) :=
  .get fun _ => .bind (.modify fun _ => rfl) fun _ => .bind .expect fun _ => release_blind

theorem resize_blind {old : Block} {newSize : Nat} {newLayout : Layout} :
    Blind (resize old newSize newLayout : Check (Recorder A) Unit) (resize old newSize newLayout) := by
  refine .bind (call_blind fun r => ⟨rfl, rfl⟩) fun o => ?_
  cases o with
  | none =>
    exact .bind .require fun _ => .bind (.modify fun _ => rfl) fun _ => .get fun m => fail_blind
  | some ptr =>
    refine .get fun m => .bind .require fun _ => .bind (.modify fun _ => rfl) fun _ => ?_
    refine .bind admitBlock_blind fun _ => .get fun m => ?_
    rw [forget_bytes]
    cases verify (RawAlloc.bytes m.alloc) ptr old.layout.size (min old.layout.size newSize)
      (some old.seed) with
    | some e => exact fail_blind
    | none => exact .bind adopt_blind fun _ => .bind .require fun _ => .modify fun _ => rfl

theorem doRealloc_blind {index newSize : Nat} :
    Blind (doRealloc index newSize : Check (Recorder A) Unit) (doRealloc index newSize) := by
  refine .get fun m => .bind (.modify fun _ => rfl) fun _ => .bind .expect fun old => ?_
  dsimp only
  rw [forget_bytes]
  cases verify (RawAlloc.bytes m.alloc) old.addr old.layout.size old.layout.size (some old.seed) with
  | some e => exact fail_blind
  | none => exact .bind (.modify fun _ => rfl) fun _ => .bind .expect fun _ => resize_blind

theorem freeNext_blind {order : Order} :
    Blind (freeNext order : Check (Recorder A) Unit) (freeNext order) := by
  cases order with
  | fifo => exact freeVictim_blind
  | lifo => exact freeVictim_blind
  | random => exact freeVictim_blind

theorem drainOne_blind : Blind (drainOne : Check (Recorder A) Bool) drainOne :=
  .get fun _ => .ite (.pure _) (.bind freeNext_blind fun _ => .pure _)

theorem drain_blind : Blind (drain : Check (Recorder A) Unit) drain :=
  .get fun _ => .loop (fun _ => drainOne_blind) _ _

theorem sweep_blind {i : Nat} : Blind (sweep i : Check (Recorder A) Unit) (sweep i) :=
  .get fun _ => .ite drain_blind (.pure _)

variable [Entropy E]

theorem doDealloc_blind : BlindDrive (doDealloc : Drive (Recorder A) E _) doDealloc := by
  refine .get fun s => ?_
  have horder : s.forget.model.profile.order = s.model.profile.order := rfl
  rw [horder]
  cases s.model.profile.order with
  | random =>
    refine .bind (onEntropy_blind _) fun i => ?_
    cases i with
    | none => exact .pure _
    | some i => exact .bind freeVictim_blind.onModel fun _ => .pure _
  | lifo => exact .bind freeVictim_blind.onModel fun _ => .pure _
  | fifo => exact .bind freeVictim_blind.onModel fun _ => .pure _

theorem execute_blind {op : Op} : BlindDrive (execute op : Drive (Recorder A) E _) (execute op) := by
  cases op with
  | alloc layout zeroed => exact .bind doAlloc_blind.onModel fun _ => .pure _
  | dealloc => exact doDealloc_blind
  | realloc index newSize => exact .bind doRealloc_blind.onModel fun _ => .pure _

theorem turn_blind {i : Nat} : BlindDrive (turn i : Drive (Recorder A) E _) (turn i) := by
  refine .bind (Blind.onModel (.modify fun _ => rfl)) fun _ => .bind nextOp_blind fun op => ?_
  cases op with
  | none => exact .pure _
  | some op =>
    refine .bind execute_blind fun more => ?_
    cases more with
    | false => exact .pure _
    | true => exact .bind (Blind.onModel (.modify fun _ => rfl)) fun _ => .pure _

end Model

theorem validate_blind {profile : Profile} :
    BlindDrive (profile.validate : Drive (Recorder A) E _) profile.validate :=
  .bind .require fun _ => .bind .require fun _ => .bind .require fun _ => .bind .require fun _ =>
    .bind .require fun _ => .bind .require fun _ => .require

variable [RawAlloc A] [Entropy E] {profile : Profile}

theorem drive_blind {ops : Nat} : BlindDrive (drive ops profile : Drive (Recorder A) E _)
    (drive ops profile) := by
  refine .bind validate_blind fun _ => .bind (.loop (fun i => .bind Model.turn_blind fun more => ?_) _ _)
    fun _ => .bind Model.drain_blind.onModel fun _ => .get fun _ => .pure _
  cases more with
  | false => exact .pure _
  | true => exact .bind Model.sweep_blind.onModel fun _ => .pure _

/-- **The tester does not notice the recorder.** -/
theorem runWith_recorded (a : A) (e : E) (ops : Nat) :
    runWith a e ops profile = ((runWith (Recorder.new a) e ops profile).1,
      (runWith (Recorder.new a) e ops profile).2.forget) :=
  drive_blind ⟨Model.new (Recorder.new a) profile, e⟩

end Wasmalloc.Testing
