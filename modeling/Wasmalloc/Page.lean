import Mathlib.Logic.Function.Basic
import Wasmalloc.Bins
import Wasmalloc.Lib.ByteMem

/- The page header and the free list it owns: the model of `page.rs`.

   A header lives in the byte memory at the address of its page, at the offsets of
   `#[repr(C)]`. `(*page).f` is `get b page .f` and a store to it is `set`; both
   are plain little-endian accesses of the field's width, so a store truncates as
   the field's type does. A flag byte is 0 or 1. `Memory::ptr` is the identity on
   addresses, so it does not appear. The padding of the struct keeps what it held.

   `(*page).used - 1` in `push` is only ever taken of a page with a live block. The
   link loop of `extend` carries the number of blocks it links as its fuel. -/
namespace Wasmalloc
open ByteMem

def maxExtendSize : Nat := 8 * 1024
def flagInFullQueue : Nat := 1

/-- Byte stored in `Page::kind` for a page kind. -/
def kindToU8 : PageKind → Nat
  | .small => 0
  | .medium => 1
  | .large => 2

variable [Build]

namespace Page

/-- The fields of the header, in order. -/
inductive Field where
  | free | used | capacity | reserved | blockSize | blockStart | freeIsZero | bin | kind | flags
  | retireExpire | next | prev
  deriving DecidableEq, Repr

def Field.width : Field → Nat
  | .free | .next | .prev => usizeBytes
  | .used | .capacity | .reserved | .blockSize => 4
  | .blockStart => 2
  | .freeIsZero | .bin | .kind | .flags | .retireExpire => 1

def Field.offset : Field → Nat
  | .free => 0
  | .used => usizeBytes
  | .capacity => usizeBytes + 4
  | .reserved => usizeBytes + 8
  | .blockSize => usizeBytes + 12
  | .blockStart => usizeBytes + 16
  | .freeIsZero => usizeBytes + 18
  | .bin => usizeBytes + 19
  | .kind => usizeBytes + 20
  | .flags => usizeBytes + 21
  | .retireExpire => usizeBytes + 22
  | .next => usizeBytes + 24
  | .prev => 2 * usizeBytes + 24

omit [Build] in
def Field.all : List Field :=
  [.free, .used, .capacity, .reserved, .blockSize, .blockStart, .freeIsZero, .bin, .kind, .flags,
   .retireExpire, .next, .prev]

/-- `size_of::<Page>()`. -/
def size : Nat := 3 * usizeBytes + 24

/-- `(*page).f`. -/
def get (b : Bytes) (page : Nat) (f : Field) : Nat := readLE b (page + f.offset) f.width

/-- `(*page).f = v`. -/
def set (b : Bytes) (page : Nat) (f : Field) (v : Nat) : Bytes := writeLE b (page + f.offset) f.width v

/-- `page.write(header)`. -/
def write (b : Bytes) (page : Nat) (header : Field → Nat) : Bytes :=
  Field.all.foldl (fun b f => set b page f (header f)) b

/-- A `usize` in block memory. -/
def loadWord (b : Bytes) (a : Nat) : Nat := readLE b a usizeBytes
def storeWord (b : Bytes) (a v : Nat) : Bytes := writeLE b a usizeBytes v

/-- The page header address for a block address: the mask trick. -/
def headerOf (kind : PageKind) (blockAddr : Nat) : Nat := blockAddr &&& kind.pageMask

/-- The header `init` writes. -/
def fresh (kind : PageKind) (bin : Nat) (zeroed : Bool) : Field → Nat
  | .reserved => blocksPerPage kind (binSize bin)
  | .blockSize => binSize bin
  | .blockStart => blockStart (binSize bin)
  | .freeIsZero => zeroed.toNat
  | .bin => bin
  | .kind => kindToU8 kind
  | _ => 0

/-- Write a fresh header for a page of `kind` serving `bin`. -/
def init (b : Bytes) (pageAddr : Nat) (kind : PageKind) (bin : Nat) (zeroed : Bool) : Bytes :=
  write b pageAddr (fresh kind bin zeroed)

/-- Pop a block from the free list. `none` when the list is empty. -/
def pop (b : Bytes) (page : Nat) : Option Nat × Bytes :=
  let block := get b page .free
  if block = 0 then (none, b)
  else
    let next := loadWord b block
    let b := set b page .free next
    let b := set b page .used (get b page .used + 1)
    (some block, b)

/-- Push a live block back onto the free list. -/
def push (b : Bytes) (page block : Nat) : Bytes :=
  let used := get b page .used - 1
  let b := storeWord b block (get b page .free)
  let b := set b page .free block
  let b := set b page .used used
  set b page .freeIsZero 0

/-- Store in every block below `last` the address of the next one. -/
def linkBlocks (blockSize last : Nat) : Nat → Bytes → Nat → Bytes
  | 0, b, _ => b
  | fuel + 1, b, block =>
    if block < last then
      let next := block + blockSize
      linkBlocks blockSize last fuel (storeWord b block next) next
    else b

/-- Link the next batch of never-used blocks onto the free list. -/
def extend (b : Bytes) (page : Nat) : Bool × Bytes :=
  let capacity := get b page .capacity
  let reserved := get b page .reserved
  if reserved ≤ capacity then (false, b)
  else
    let blockSize := get b page .blockSize
    let maxExtend := max (maxExtendSize / max blockSize 1) 1
    let count := min (reserved - capacity) maxExtend
    let first := page + get b page .blockStart + capacity * blockSize
    let last := first + (count - 1) * blockSize
    let b := linkBlocks blockSize last count b first
    let b := storeWord b last (get b page .free)
    let b := set b page .free first
    (true, set b page .capacity (capacity + count))

def allFree (b : Bytes) (page : Nat) : Bool := get b page .used == 0
def hasFree (b : Bytes) (page : Nat) : Bool := get b page .free != 0
def isExpandable (b : Bytes) (page : Nat) : Bool :=
  decide (get b page .capacity < get b page .reserved)
def inFullQueue (b : Bytes) (page : Nat) : Bool := get b page .flags &&& flagInFullQueue != 0

/-- Record whether the page is in the heap's full queue. -/
def setInFullQueue (b : Bytes) (page : Nat) (inFull : Bool) : Bytes :=
  if inFull then set b page .flags (get b page .flags ||| flagInFullQueue)
  else set b page .flags (get b page .flags &&& (255 - flagInFullQueue))

def kind (b : Bytes) (page : Nat) : PageKind :=
  match get b page .kind with
  | 0 => .small
  | 1 => .medium
  | _ => .large

/-- Index of `block` in the initialised block area, or `none`. -/
def blockIndex (b : Bytes) (page block : Nat) : Option Nat :=
  -- `block.wrapping_sub(page.addr()).checked_sub(block_start)?`
  let distance := (block + usizeSize - page) % usizeSize
  if distance < get b page .blockStart then none
  else
    let offset := distance - get b page .blockStart
    let index := offset / get b page .blockSize
    if offset % get b page .blockSize = 0 ∧ index < get b page .capacity then some index else none

/-! ## Reading back header stores -/

theorem Field.inside (f : Field) : f.offset + f.width ≤ size := by
  have hbytes := usizeBytes_le
  cases f <;> simp only [Field.offset, Field.width, size] <;> omega

theorem Field.apart {f g : Field} (h : f ≠ g) :
    f.offset + f.width ≤ g.offset ∨ g.offset + g.width ≤ f.offset := by
  have hbytes : usizeBytes = 4 ∨ usizeBytes = 8 := Build.usizeBytes_eq
  cases f <;> cases g <;> simp only [Field.offset, Field.width] <;>
    first | exact absurd rfl h | omega

theorem size_le : size ≤ pageHeaderReserve := by
  have hbytes := usizeBytes_le
  unfold size pageHeaderReserve
  omega

theorem get_set_same {b : Bytes} {p v : Nat} {f : Field} (hv : v < 256 ^ f.width) :
    get (set b p f v) p f = v :=
  readLE_writeLE_of_lt hv

theorem get_set_ne {b : Bytes} {p v : Nat} {f g : Field} (h : g ≠ f) :
    get (set b p f v) p g = get b p g := by
  apply readLE_writeLE_apart
  unfold Apart
  rcases Field.apart h with h | h
  · exact Or.inr (by omega)
  · exact Or.inl (by omega)

theorem get_set_apart {b : Bytes} {p q v : Nat} {f g : Field} (h : Apart p size q size) :
    get (set b p f v) q g = get b q g := by
  have hf := f.inside
  have hg := g.inside
  apply readLE_writeLE_apart
  unfold Apart at h ⊢
  omega

theorem set_out {b : Bytes} {p v x : Nat} {f : Field} (h : x < p ∨ p + size ≤ x) :
    set b p f v x = b x := by
  have hf := f.inside
  exact writeLE_out (by omega)

theorem get_congr {b c : Bytes} {p : Nat} {f : Field}
    (h : ∀ x, p ≤ x → x < p + size → c x = b x) : get c p f = get b p f := by
  have hf := f.inside
  exact readLE_congr fun x hx hx' => h x (by omega) (by omega)

theorem loadWord_congr {b c : Bytes} {a : Nat}
    (h : ∀ x, a ≤ x → x < a + usizeBytes → c x = b x) : loadWord c a = loadWord b a :=
  readLE_congr h

theorem storeWord_out {b : Bytes} {a v x : Nat} (h : x < a ∨ a + usizeBytes ≤ x) :
    storeWord b a v x = b x :=
  writeLE_out h

theorem get_lt (b : Bytes) (p : Nat) (f : Field) : get b p f < 256 ^ f.width := readLE_lt _ _ _

/-- Storing fields one after the other leaves the fields that follow to be stored. -/
theorem get_foldl {header : Field → Nat} (hfit : ∀ f, header f < 256 ^ f.width) {p : Nat} {g : Field}
    (l : List Field) : ∀ b : Bytes, g ∈ l ∨ get b p g = header g →
      get (l.foldl (fun b f => set b p f (header f)) b) p g = header g := by
  induction l with
  | nil =>
    intro b h
    exact h.resolve_left (List.not_mem_nil)
  | cons f l ih =>
    intro b h
    rw [List.foldl_cons]
    apply ih
    by_cases hg : g = f
    · subst hg
      exact Or.inr (get_set_same (hfit g))
    · rw [get_set_ne hg]
      exact h.imp_left fun hmem => (List.mem_cons.mp hmem).resolve_left hg

omit [Build] in
theorem Field.mem_all (f : Field) : f ∈ Field.all := by
  cases f <;> decide

theorem get_write {b : Bytes} {p : Nat} {header : Field → Nat} (g : Field)
    (hfit : ∀ f, header f < 256 ^ f.width) : get (write b p header) p g = header g :=
  get_foldl hfit Field.all b (Or.inl g.mem_all)

theorem write_out {b : Bytes} {p x : Nat} {header : Field → Nat} (h : x < p ∨ p + size ≤ x) :
    write b p header x = b x := by
  unfold write
  generalize Field.all = l
  induction l generalizing b with
  | nil => rfl
  | cons f l ih => rw [List.foldl_cons, ih, set_out h]

end Page

end Wasmalloc
