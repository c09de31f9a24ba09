import Wasmalloc.Page
import Wasmalloc.Lib.Links

/- The page invariants and what the free-list operations do to them.

   `PageOk b p n fl lv` says that the page at `p` serves bin `n`, that its free list
   visits the blocks `fl` in order, and that the blocks `lv` are live. It holds of a
   page just initialised, and `pop`, `push` and `extend` move blocks between the
   never-used part of the page, `fl` and `lv`. Each operation also leaves alone the
   header fields that belong to the heap and every byte of a live block. -/
namespace Wasmalloc
open ByteMem

variable [Build]

namespace Page

/-- The fields the free-list operations never touch: queue links and bookkeeping. -/
def Field.heapOwned : Field → Bool
  | .flags | .retireExpire | .next | .prev => true
  | _ => false

/-- Block `i` of a page of bin `n` at `p`. -/
def block (p n i : Nat) : Nat := p + blockStart (binSize n) + i * binSize n

/-- The first `c` blocks. -/
def blocks (p n c : Nat) : List Nat := (List.range c).map (block p n)

def reservedOf (n : Nat) : Nat := blocksPerPage (kindOfBin n) (binSize n)

/-- Address `x` lies in one of the blocks `l` of `s` bytes. -/
def InBlocks (s : Nat) (l : List Nat) (x : Nat) : Prop := ∃ a ∈ l, a ≤ x ∧ x < a + s

/-- The header, the geometry and the free list of a page, whatever its free blocks hold. -/
structure PageShape (b : Bytes) (p n : Nat) (fl lv : List Nat) : Prop where
  bin_pos : 1 ≤ n
  bin_le : n ≤ maxBin
  aligned : (kindOfBin n).pageSize ∣ p
  end_le : p + (kindOfBin n).pageSize ≤ usizeSize
  bin : get b p .bin = n
  kind : get b p .kind = kindToU8 (kindOfBin n)
  blockSize : get b p .blockSize = binSize n
  blockStart : get b p .blockStart = blockStart (binSize n)
  reserved : get b p .reserved = reservedOf n
  capacity_le : get b p .capacity ≤ reservedOf n
  used : get b p .used = lv.length
  head : get b p .free = fl.headD 0
  chain : Links.Chain (loadWord b) 0 fl
  blocks : (fl ++ lv).Perm (blocks p n (get b p .capacity))

/-- A page whose `free_is_zero` flag tells the truth. -/
structure PageOk (b : Bytes) (p n : Nat) (fl lv : List Nat) : Prop extends
    PageShape b p n fl lv where
  zero_free : get b p .freeIsZero ≠ 0 → ∀ a ∈ fl, ∀ x, a + usizeBytes ≤ x → x < a + binSize n →
    b x = 0
  zero_fresh : get b p .freeIsZero ≠ 0 → ∀ i, get b p .capacity ≤ i → i < reservedOf n →
    ∀ x, block p n i ≤ x → x < block p n i + binSize n → b x = 0

/-! ## Blocks -/

theorem block_lower {p n i : Nat} (hn : 1 ≤ n) (hn' : n ≤ maxBin) :
    p + pageHeaderReserve ≤ block p n i := by
  have hstart := (binGeometry hn hn').start_ge
  unfold block
  omega

theorem block_upper {p n i : Nat} (hn : 1 ≤ n) (hn' : n ≤ maxBin) (hi : i < reservedOf n) :
    block p n i + binSize n ≤ p + (kindOfBin n).pageSize := by
  have hfits := (binGeometry hn hn').fits
  have hmul : (i + 1) * binSize n ≤ reservedOf n * binSize n := Nat.mul_le_mul_right _ hi
  rw [Nat.add_mul, Nat.one_mul] at hmul
  unfold reservedOf at hmul
  unfold block
  omega

/-- The offset of a block from its page, in wrapping arithmetic. -/
theorem block_distance {p n i : Nat} (hn : 1 ≤ n) (hn' : n ≤ maxBin) (hi : i < reservedOf n)
    (hend : p + (kindOfBin n).pageSize ≤ usizeSize) :
    (block p n i + usizeSize - p) % usizeSize = blockStart (binSize n) + i * binSize n := by
  have hsize := (binGeometry hn hn').size_ge
  have hupper := block_upper (p := p) hn hn' hi
  unfold block at hupper ⊢
  have hlt : blockStart (binSize n) + i * binSize n < usizeSize := by omega
  rw [show p + blockStart (binSize n) + i * binSize n + usizeSize - p =
    blockStart (binSize n) + i * binSize n + usizeSize by omega, Nat.add_mod_right,
    Nat.mod_eq_of_lt hlt]

theorem block_apart {p n i j : Nat} (h : i ≠ j) :
    Apart (block p n i) (binSize n) (block p n j) (binSize n) := by
  unfold Apart block
  rcases Nat.lt_or_gt_of_ne h with hlt | hlt
  · have hmul : (i + 1) * binSize n ≤ j * binSize n := Nat.mul_le_mul_right _ hlt
    rw [Nat.add_mul, Nat.one_mul] at hmul
    exact Or.inl (by omega)
  · have hmul : (j + 1) * binSize n ≤ i * binSize n := Nat.mul_le_mul_right _ hlt
    rw [Nat.add_mul, Nat.one_mul] at hmul
    exact Or.inr (by omega)

theorem block_inj {p n i j : Nat} (hn : 1 ≤ n) (hn' : n ≤ maxBin) (h : block p n i = block p n j) :
    i = j := by
  have hsize := (binGeometry hn hn').size_ge
  by_contra hne
  have hapart := block_apart (p := p) (n := n) hne
  unfold Apart at hapart
  omega

theorem mem_blocks {p n c a : Nat} : a ∈ blocks p n c ↔ ∃ i < c, block p n i = a := by
  simp [blocks]

theorem nodup_blocks {p n c : Nat} (hn : 1 ≤ n) (hn' : n ≤ maxBin) : (blocks p n c).Nodup :=
  List.nodup_range.map fun _ _ h => block_inj hn hn' h

theorem dvd_block {p n i k : Nat} (hn : 1 ≤ n) (hn' : n ≤ maxBin) (hk : k ≤ 12)
    (hp : (kindOfBin n).pageSize ∣ p) (hsize : 2 ^ k ∣ binSize n) : 2 ^ k ∣ block p n i := by
  have hpage : 2 ^ k ∣ (kindOfBin n).pageSize := by
    have h12 : 2 ^ k ∣ 2 ^ 12 := Nat.pow_dvd_pow 2 hk
    refine dvd_trans h12 ?_
    cases kindOfBin n <;> decide
  have hstart := (binGeometry hn hn').start_dvd k hk hsize
  unfold block
  exact Nat.dvd_add (Nat.dvd_add (dvd_trans hpage hp) hstart) (Dvd.dvd.mul_left hsize i)

theorem kind_of_byte {b : Bytes} {p : Nat} {k : PageKind} (hk : get b p .kind = kindToU8 k) :
    kind b p = k := by
  unfold kind
  rw [hk]
  cases k <;> rfl

section PageShape
variable {b c : Bytes} {p n : Nat} {fl lv : List Nat}

theorem PageShape.mem_block (h : PageShape b p n fl lv) {a : Nat} (ha : a ∈ fl ++ lv) :
    ∃ i < get b p .capacity, block p n i = a :=
  mem_blocks.mp (h.blocks.mem_iff.mp ha)

theorem PageShape.nodup (h : PageShape b p n fl lv) : (fl ++ lv).Nodup :=
  h.blocks.nodup_iff.mpr (nodup_blocks h.bin_pos h.bin_le)

theorem PageShape.inside (h : PageShape b p n fl lv) {a : Nat} (ha : a ∈ fl ++ lv) :
    p + pageHeaderReserve ≤ a ∧ a + binSize n ≤ p + (kindOfBin n).pageSize := by
  obtain ⟨i, hi, rfl⟩ := h.mem_block ha
  exact ⟨block_lower h.bin_pos h.bin_le,
    block_upper h.bin_pos h.bin_le (lt_of_lt_of_le hi h.capacity_le)⟩

theorem PageShape.apart (h : PageShape b p n fl lv) {a d : Nat} (ha : a ∈ fl ++ lv) (hd : d ∈ fl ++ lv)
    (hne : a ≠ d) : Apart a (binSize n) d (binSize n) := by
  obtain ⟨i, -, rfl⟩ := h.mem_block ha
  obtain ⟨j, -, rfl⟩ := h.mem_block hd
  exact block_apart fun hij => hne (congrArg (block p n) hij)

/-- A never-used block shares no byte with the blocks handed out so far. -/
theorem PageShape.apart_fresh (h : PageShape b p n fl lv) {a i : Nat} (ha : a ∈ fl ++ lv)
    (hi : get b p .capacity ≤ i) : Apart a (binSize n) (block p n i) (binSize n) := by
  obtain ⟨j, hj, rfl⟩ := h.mem_block ha
  exact block_apart (by omega)

theorem PageShape.blockIndex_block (h : PageShape b p n fl lv) {i : Nat}
    (hi : i < get b p .capacity) : blockIndex b p (block p n i) = some i := by
  have hsize := (binGeometry h.bin_pos h.bin_le).size_ge
  have hdist := block_distance h.bin_pos h.bin_le (lt_of_lt_of_le hi h.capacity_le) h.end_le
  unfold blockIndex
  simp only [hdist, h.blockStart, h.blockSize]
  rw [if_neg (by omega), Nat.add_sub_cancel_left, Nat.mul_mod_left,
    Nat.mul_div_cancel i (show 0 < binSize n by omega), if_pos ⟨rfl, hi⟩]

theorem PageShape.word_le_size (h : PageShape b p n fl lv) : usizeBytes ≤ binSize n :=
  le_trans usizeBytes_le (binGeometry h.bin_pos h.bin_le).size_ge

theorem PageShape.addr_lt (h : PageShape b p n fl lv) {a : Nat} (ha : a ∈ fl ++ lv) : a < 256 ^ usizeBytes := by
  have hin := h.inside ha
  have hend := h.end_le
  have hsize := (binGeometry h.bin_pos h.bin_le).size_ge
  rw [← usizeSize_eq_pow]
  omega

theorem PageShape.headD_lt (h : PageShape b p n fl lv) : fl.headD 0 < 256 ^ usizeBytes := by
  cases fl with
  | nil => exact Nat.pow_pos (by decide)
  | cons a fl => exact h.addr_lt (by simp)

theorem PageShape.hasFree_iff (h : PageShape b p n fl lv) : hasFree b p = true ↔ fl ≠ [] := by
  unfold hasFree
  rw [h.head, bne_iff_ne]
  cases fl with
  | nil => simp
  | cons a fl =>
    have hin := h.inside (a := a) (by simp)
    unfold pageHeaderReserve at hin
    simp only [List.headD_cons, ne_eq, reduceCtorEq, not_false_eq_true, iff_true]
    omega

theorem PageShape.used_le (h : PageShape b p n fl lv) : lv.length ≤ get b p .capacity := by
  have hlen := h.blocks.length_eq
  simp only [Page.blocks, List.length_append, List.length_map, List.length_range] at hlen
  omega

/-- The live blocks matter as a set only. -/
theorem PageShape.perm (h : PageShape b p n fl lv) {lv' : List Nat} (hp : lv.Perm lv') :
    PageShape b p n fl lv' :=
  { h with
    used := by rw [h.used, hp.length_eq]
    blocks := (hp.symm.append_left fl).trans h.blocks }

theorem PageOk.perm (h : PageOk b p n fl lv) {lv' : List Nat} (hp : lv.Perm lv') :
    PageOk b p n fl lv' :=
  { h.toPageShape.perm hp with zero_free := h.zero_free, zero_fresh := h.zero_fresh }

theorem PageShape.same_free (h : PageShape b p n fl lv)
    (hbytes : ∀ x, p + pageHeaderReserve ≤ x → x < p + (kindOfBin n).pageSize →
      ¬ InBlocks (binSize n) lv x → c x = b x) {a x : Nat} (ha : a ∈ fl) (hx : a ≤ x)
    (hx' : x < a + binSize n) : c x = b x := by
  have hin := h.inside (List.mem_append_left lv ha)
  refine hbytes x (by omega) (by omega) ?_
  intro ⟨d, hd, hdx, hdx'⟩
  have hne : a ≠ d := fun e =>
    (List.nodup_append.mp h.nodup).2.2 a ha d hd e
  have hapart := h.apart (List.mem_append_left lv ha) (List.mem_append_right fl hd) hne
  unfold Apart at hapart
  omega

/-- A page depends on its own header fields and on the bytes outside its live blocks. -/
theorem PageShape.congr (h : PageShape b p n fl lv)
    (hget : ∀ f, f.heapOwned = false → get c p f = get b p f)
    (hbytes : ∀ x, p + pageHeaderReserve ≤ x → x < p + (kindOfBin n).pageSize →
      ¬ InBlocks (binSize n) lv x → c x = b x) : PageShape c p n fl lv := by
  have hword := h.word_le_size
  refine { bin_pos := h.bin_pos, bin_le := h.bin_le, aligned := h.aligned, end_le := h.end_le,
           bin := by rw [hget _ rfl, h.bin], kind := by rw [hget _ rfl, h.kind],
           blockSize := by rw [hget _ rfl, h.blockSize],
           blockStart := by rw [hget _ rfl, h.blockStart],
           reserved := by rw [hget _ rfl, h.reserved],
           capacity_le := by rw [hget _ rfl]; exact h.capacity_le,
           used := by rw [hget _ rfl, h.used], head := by rw [hget _ rfl, h.head],
           chain := ?_, blocks := by rw [hget _ rfl]; exact h.blocks }
  refine h.chain.congr ?_
  intro a ha
  exact loadWord_congr fun x hx hx' => h.same_free hbytes ha hx (by omega)

theorem PageOk.congr (h : PageOk b p n fl lv)
    (hget : ∀ f, f.heapOwned = false → get c p f = get b p f)
    (hbytes : ∀ x, p + pageHeaderReserve ≤ x → x < p + (kindOfBin n).pageSize →
      ¬ InBlocks (binSize n) lv x → c x = b x) : PageOk c p n fl lv := by
  have hfresh : ∀ i, get b p .capacity ≤ i → i < reservedOf n → ∀ x, block p n i ≤ x →
      x < block p n i + binSize n → c x = b x := by
    intro i hi hi' x hx hx'
    have hlo := block_lower (p := p) (i := i) h.bin_pos h.bin_le
    have hup := block_upper (p := p) h.bin_pos h.bin_le hi'
    refine hbytes x (by omega) (by omega) ?_
    intro ⟨d, hd, hdx, hdx'⟩
    have hapart := h.apart_fresh (List.mem_append_right fl hd) hi
    unfold Apart at hapart
    omega
  refine { h.toPageShape.congr hget hbytes with zero_free := ?_, zero_fresh := ?_ }
  · intro hz a ha x hx hx'
    rw [hget _ rfl] at hz
    rw [h.same_free hbytes ha (by omega) hx']
    exact h.zero_free hz a ha x hx hx'
  · intro hz i hi hi' x hx hx'
    rw [hget _ rfl] at hz hi
    rw [hfresh i hi hi' x hx hx']
    exact h.zero_fresh hz i hi hi' x hx hx'

/-! ## `init` -/

theorem fresh_lt {n : Nat} (hn : 1 ≤ n) (hn' : n ≤ maxBin) (z : Bool) (f : Field) :
    fresh (kindOfBin n) n z f < 256 ^ f.width := by
  have hgeo := binGeometry hn hn'
  have hr := hgeo.reserved_le
  have hs := hgeo.size_le
  have hst := hgeo.start_le
  unfold largeMaxObjSize at hs
  unfold maxBin at hn'
  cases f <;> simp only [fresh, Field.width] <;>
    first
    | exact Nat.pow_pos (by decide)
    | (cases z <;> decide)
    | (cases kindOfBin n <;> decide)
    | omega

theorem get_init {z : Bool} (hn : 1 ≤ n) (hn' : n ≤ maxBin) (f : Field) :
    get (init b p (kindOfBin n) n z) p f = fresh (kindOfBin n) n z f :=
  get_write f (fresh_lt hn hn' z)

theorem init_shape {z : Bool} (hn : 1 ≤ n) (hn' : n ≤ maxBin)
    (hp : (kindOfBin n).pageSize ∣ p) (hend : p + (kindOfBin n).pageSize ≤ usizeSize) :
    PageShape (init b p (kindOfBin n) n z) p n [] [] := by
  have hget : ∀ f, get (init b p (kindOfBin n) n z) p f = fresh (kindOfBin n) n z f := fun f =>
    get_init hn hn' f
  exact { bin_pos := hn, bin_le := hn', aligned := hp, end_le := hend, bin := hget _,
          kind := hget _, blockSize := hget _, blockStart := hget _, reserved := hget _,
          capacity_le := by rw [hget]; exact Nat.zero_le _, used := hget _, head := hget _,
          chain := Links.chain_nil, blocks := by rw [hget]; exact List.Perm.refl _ }

/-- **A fresh page** of memory known to be zero says so rightly. -/
theorem init_ok {z : Bool} (hn : 1 ≤ n) (hn' : n ≤ maxBin)
    (hp : (kindOfBin n).pageSize ∣ p) (hend : p + (kindOfBin n).pageSize ≤ usizeSize)
    (hzero : z = true → ∀ x, p ≤ x → x < p + (kindOfBin n).pageSize → b x = 0) :
    PageOk (init b p (kindOfBin n) n z) p n [] [] := by
  refine { init_shape hn hn' hp hend with
    zero_free := fun _ a ha => absurd ha (List.not_mem_nil), zero_fresh := ?_ }
  intro hz i hi hi' x hx hx'
  rw [get_init hn hn'] at hz
  have hlo := block_lower (p := p) (i := i) hn hn'
  have hup := block_upper (p := p) hn hn' hi'
  have hsize := size_le
  have htrue : z = true := by
    cases z with
    | true => rfl
    | false => exact absurd rfl hz
  unfold init
  rw [write_out (by omega)]
  exact hzero htrue x (by omega) (by omega)

/-! ## `pop` and `push` -/

theorem pop_none (h : PageShape b p n [] lv) : pop b p = (none, b) := by
  unfold pop
  rw [h.head]
  rfl

/-- The two header stores of `pop`. -/
def popped (b : Bytes) (p next : Nat) : Bytes :=
  set (set b p .free next) p .used (get b p .used + 1)

theorem popped_out {next x : Nat} (hx : x < p ∨ p + size ≤ x) : popped b p next x = b x := by
  unfold popped
  rw [set_out hx, set_out hx]

theorem get_popped {next : Nat} {f : Field} (h1 : f ≠ .free) (h2 : f ≠ .used) :
    get (popped b p next) p f = get b p f := by
  unfold popped
  rw [get_set_ne h2, get_set_ne h1]

theorem pop_shape {a : Nat} (h : PageShape b p n (a :: fl) lv) :
    pop b p = (some a, popped b p (fl.headD 0)) ∧
      PageShape (popped b p (fl.headD 0)) p n fl (a :: lv) := by
  have hin := h.inside (a := a) (by simp)
  have hsize := size_le
  obtain ⟨hnext, hchain⟩ := Links.chain_cons.mp h.chain
  have hpop : pop b p = (some a, popped b p (fl.headD 0)) := by
    have hhead : get b p .free = a := h.head
    have ha0 : a ≠ 0 := by unfold pageHeaderReserve at hin; omega
    unfold pop popped
    simp only [hhead, if_neg ha0, hnext]
    rw [get_set_ne (by decide)]
  refine ⟨hpop, ?_⟩
  have hheadD : fl.headD 0 < 256 ^ usizeBytes := by
    cases fl with
    | nil => exact Nat.pow_pos (by decide)
    | cons d fl => exact h.addr_lt (by simp)
  have hused : get (popped b p (fl.headD 0)) p .used = lv.length + 1 := by
    have hle := h.used_le
    have hcap := h.capacity_le
    have hres := (binGeometry h.bin_pos h.bin_le).reserved_le
    unfold popped
    rw [get_set_same (by rw [h.used]; unfold reservedOf at hcap; simp only [Field.width]; omega),
      h.used]
  have hblocks : (fl ++ a :: lv).Perm (blocks p n (get b p .capacity)) :=
    List.perm_middle.trans h.blocks
  refine { bin_pos := h.bin_pos, bin_le := h.bin_le, aligned := h.aligned, end_le := h.end_le,
           bin := by rw [get_popped (by decide) (by decide), h.bin],
           kind := by rw [get_popped (by decide) (by decide), h.kind],
           blockSize := by rw [get_popped (by decide) (by decide), h.blockSize],
           blockStart := by rw [get_popped (by decide) (by decide), h.blockStart],
           reserved := by rw [get_popped (by decide) (by decide), h.reserved],
           capacity_le := by rw [get_popped (by decide) (by decide)]; exact h.capacity_le,
           used := hused, head := ?_, chain := ?_,
           blocks := by rw [get_popped (by decide) (by decide)]; exact hblocks }
  · unfold popped
    rw [get_set_ne (by decide), get_set_same hheadD]
  · refine hchain.congr ?_
    intro d hd
    have hd' := h.inside (a := d) (by simp [hd])
    exact loadWord_congr fun x hx _ => popped_out (Or.inr (by omega))

/-- **`pop`** keeps what the page says about its zero bytes. -/
theorem pop_spec {a : Nat} (h : PageOk b p n (a :: fl) lv) :
    pop b p = (some a, popped b p (fl.headD 0)) ∧
      PageOk (popped b p (fl.headD 0)) p n fl (a :: lv) := by
  obtain ⟨hpop, hshape⟩ := pop_shape h.toPageShape
  have hsize := size_le
  refine ⟨hpop, { hshape with zero_free := ?_, zero_fresh := ?_ }⟩
  · intro hz d hd x hx hx'
    rw [get_popped (by decide) (by decide)] at hz
    have hd' := h.inside (a := d) (by simp [hd])
    rw [popped_out (Or.inr (by omega))]
    exact h.zero_free hz d (List.mem_cons_of_mem a hd) x hx hx'
  · intro hz i hi hi' x hx hx'
    rw [get_popped (by decide) (by decide)] at hz hi
    have hlo := block_lower (p := p) (i := i) h.bin_pos h.bin_le
    rw [popped_out (Or.inr (by omega))]
    exact h.zero_fresh hz i hi hi' x hx hx'

omit [Build] in
theorem Field.heapOwned_ne {f g : Field} (hf : f.heapOwned = true) (hg : g.heapOwned = false) :
    f ≠ g := fun e => by
  rw [e, hg] at hf
  cases hf

theorem push_out {a x : Nat} (hx : x < p ∨ p + size ≤ x) (ha : x < a ∨ a + usizeBytes ≤ x) :
    push b p a x = b x := by
  unfold push
  rw [set_out hx, set_out hx, set_out hx, storeWord_out ha]

theorem get_push {a : Nat} {f : Field} (ha : p + size ≤ a) (h1 : f ≠ .free) (h2 : f ≠ .used)
    (h3 : f ≠ .freeIsZero) : get (push b p a) p f = get b p f := by
  unfold push
  rw [get_set_ne h3, get_set_ne h2, get_set_ne h1]
  exact get_congr fun x _ hx => storeWord_out (Or.inl (by omega))

theorem push_shape {a : Nat} {lv' : List Nat} (h : PageShape b p n fl lv)
    (hp : lv.Perm (a :: lv')) : PageShape (push b p a) p n (a :: fl) lv' := by
  have hmem : a ∈ fl ++ lv := List.mem_append_right fl (hp.mem_iff.mpr List.mem_cons_self)
  have hin := h.inside hmem
  have hsize := size_le
  have hword := h.word_le_size
  have ha : p + size ≤ a := by omega
  have hrest : ∀ f, f ≠ .free → f ≠ .used → f ≠ .freeIsZero →
      get (push b p a) p f = get b p f := fun f h1 h2 h3 => get_push ha h1 h2 h3
  have hafl : a ∉ fl := by
    intro hfl
    exact (List.nodup_append.mp h.nodup).2.2 a hfl a (hp.mem_iff.mpr List.mem_cons_self) rfl
  -- The block's first word is the only block memory that changes.
  have hsame : ∀ x, p + size ≤ x → (x < a ∨ a + usizeBytes ≤ x) → push b p a x = b x :=
    fun x hx ha' => push_out (Or.inr hx) ha'
  have hload : loadWord (push b p a) a = fl.headD 0 := by
    have hst : loadWord (push b p a) a = loadWord (storeWord b a (get b p .free)) a := by
      refine loadWord_congr fun x hx hx' => ?_
      unfold push
      rw [set_out (by omega), set_out (by omega), set_out (by omega)]
    rw [hst, h.head]
    exact readLE_writeLE_of_lt h.headD_lt
  have hused : get (push b p a) p .used = lv'.length := by
    have hlen : lv.length = lv'.length + 1 := hp.length_eq
    have hlt := get_lt b p .used
    unfold push
    rw [get_set_ne (by decide), get_set_same (by omega), h.used]
    omega
  have hblocks : (a :: fl ++ lv').Perm (blocks p n (get b p .capacity)) :=
    calc (a :: fl ++ lv').Perm (fl ++ a :: lv') := List.perm_middle.symm
      _ |>.Perm (fl ++ lv) := hp.symm.append_left fl
      _ |>.Perm (blocks p n (get b p .capacity)) := h.blocks
  refine { bin_pos := h.bin_pos, bin_le := h.bin_le, aligned := h.aligned, end_le := h.end_le,
           bin := by rw [hrest _ (by decide) (by decide) (by decide), h.bin],
           kind := by rw [hrest _ (by decide) (by decide) (by decide), h.kind],
           blockSize := by rw [hrest _ (by decide) (by decide) (by decide), h.blockSize],
           blockStart := by rw [hrest _ (by decide) (by decide) (by decide), h.blockStart],
           reserved := by rw [hrest _ (by decide) (by decide) (by decide), h.reserved],
           capacity_le := by rw [hrest _ (by decide) (by decide) (by decide)]; exact h.capacity_le,
           used := hused, head := ?_, chain := ?_,
           blocks := by rw [hrest _ (by decide) (by decide) (by decide)]; exact hblocks }
  · unfold push
    rw [get_set_ne (by decide), get_set_ne (by decide), get_set_same (h.addr_lt hmem)]
    rfl
  · rw [Links.chain_cons]
    refine ⟨hload, h.chain.congr ?_⟩
    intro d hd
    have hd' := h.inside (List.mem_append_left lv hd)
    have hapart := h.apart (List.mem_append_left lv hd) hmem (fun e => hafl (e ▸ hd))
    refine loadWord_congr fun x hx hx' => hsame x (by omega) ?_
    unfold Apart at hapart
    omega

/-- **`push`** makes the page say that its free blocks are not zero. -/
theorem push_ok {a : Nat} {lv' : List Nat} (h : PageOk b p n fl lv) (hp : lv.Perm (a :: lv')) :
    PageOk (push b p a) p n (a :: fl) lv' := by
  have hzero : get (push b p a) p .freeIsZero = 0 := by
    unfold push
    exact get_set_same (Nat.pow_pos (by decide))
  exact { push_shape h.toPageShape hp with
    zero_free := fun hz => absurd hzero hz, zero_fresh := fun hz => absurd hzero hz }

/-! ## `extend` -/

/-- The loop stores in every block of a row the address of the next. -/
theorem linkBlocks_spec {s k : Nat} (hs : usizeBytes ≤ s) : ∀ (fuel : Nat) (b : Bytes) (first : Nat),
    k ≤ fuel → first + k * s < usizeSize →
    (∀ i < k, loadWord (linkBlocks s (first + k * s) fuel b first) (first + i * s)
      = first + (i + 1) * s) ∧
    (∀ x, (∀ i < k, x < first + i * s ∨ first + i * s + usizeBytes ≤ x) →
      linkBlocks s (first + k * s) fuel b first x = b x) := by
  induction k with
  | zero =>
    intro fuel b first _ _
    refine ⟨fun i hi => absurd hi (Nat.not_lt_zero i), fun x _ => ?_⟩
    cases fuel with
    | zero => rfl
    | succ fuel =>
      rw [linkBlocks, Nat.zero_mul, if_neg (by omega)]
  | succ k ih =>
    intro fuel b first hfuel hlt
    cases fuel with
    | zero => omega
    | succ fuel =>
      have hpos := usizeBytes_pos
      have hlast : first + (k + 1) * s = (first + s) + k * s := by
        rw [Nat.add_mul, Nat.one_mul]
        omega
      have hstep : ∀ i, first + (i + 1) * s = (first + s) + i * s := by
        intro i
        rw [Nat.add_mul, Nat.one_mul]
        omega
      rw [linkBlocks, if_pos (by rw [hlast]; omega)]
      simp only
      rw [hlast]
      -- The first word is written now, the rest from the second block on.
      obtain ⟨hload, hframe⟩ := ih fuel (storeWord b first (first + s)) (first + s)
        (by omega) (by rw [← hlast]; exact hlt)
      refine ⟨?_, ?_⟩
      · intro i hi
        cases i with
        | zero =>
          have hback : loadWord (storeWord b first (first + s)) first = first + s := by
            refine readLE_writeLE_of_lt ?_
            rw [← usizeSize_eq_pow]
            omega
          have hsame : ∀ x, first ≤ x → x < first + usizeBytes →
              linkBlocks s (first + s + k * s) fuel (storeWord b first (first + s)) (first + s) x
                = storeWord b first (first + s) x :=
            fun x _ hx => hframe x fun j _ => Or.inl (by omega)
          rw [Nat.zero_mul, Nat.add_zero, Nat.zero_add, Nat.one_mul, loadWord_congr hsame, hback]
        | succ i =>
          rw [hstep i, hload i (by omega), hstep (i + 1)]
      · intro x hx
        rw [hframe x]
        · have h0 := hx 0 (by omega)
          rw [Nat.zero_mul, Nat.add_zero] at h0
          exact storeWord_out h0
        · intro i hi
          have := hx (i + 1) (by omega)
          rwa [hstep i] at this

omit [Build] in
theorem chain_row {nx : Nat → Nat} {f : Nat → Nat} {fl : List Nat} {k : Nat} : ∀ {c : Nat},
    (∀ i, c ≤ i → i + 1 < c + (k + 1) → nx (f i) = f (i + 1)) →
    nx (f (c + k)) = fl.headD 0 → Links.Chain nx 0 fl →
    Links.Chain nx 0 ((List.range' c (k + 1)).map f ++ fl) := by
  induction k with
  | zero =>
    intro c _ hlast hfl
    exact Links.chain_cons.mpr ⟨hlast, hfl⟩
  | succ k ih =>
    intro c hrow hlast hfl
    rw [List.range'_succ, List.map_cons, List.cons_append, Links.chain_cons]
    refine ⟨?_, ih (fun i hi hi' => hrow i (by omega) (by omega)) ?_ hfl⟩
    · rw [hrow c (Nat.le_refl c) (by omega)]
      rfl
    · rw [show c + 1 + k = c + (k + 1) by omega]
      exact hlast

theorem extend_false (h : reservedOf n ≤ get b p .capacity) (hp : PageShape b p n fl lv) :
    extend b p = (false, b) := by
  unfold extend
  rw [hp.reserved, if_pos h]

/-- What `extend` does to the bytes: the header, and the first words of never-used blocks. -/
structure Extended (b c : Bytes) (p n k : Nat) : Prop where
  count_pos : 1 ≤ k
  capacity : get c p .capacity = get b p .capacity + k
  rest : ∀ f, f ≠ .free → f ≠ .capacity → get c p f = get b p f
  frame : ∀ x, (x < p ∨ p + size ≤ x) → (∀ i, get b p .capacity ≤ i →
    i < get b p .capacity + k → x < block p n i ∨ block p n i + usizeBytes ≤ x) → c x = b x

/-- How many blocks one call of `extend` links. -/
def batch (n capacity : Nat) : Nat :=
  min (reservedOf n - capacity) (max 1 (maxExtendSize / binSize n))

/-- The blocks that one call of `extend` links on page `p` of bin `n`. -/
def extensionOf (b : Bytes) (p n : Nat) : List Nat :=
  (List.range' (get b p .capacity) (batch n (get b p .capacity))).map (block p n)

theorem mem_extensionOf {a : Nat} : a ∈ extensionOf b p n ↔ ∃ i, get b p .capacity ≤ i ∧
    i < get b p .capacity + batch n (get b p .capacity) ∧ block p n i = a := by
  unfold extensionOf
  simp only [List.mem_map, List.mem_range'_1, and_assoc]

theorem batch_pos {capacity : Nat} (hroom : capacity < reservedOf n) : 1 ≤ batch n capacity := by
  unfold batch
  omega

theorem extensionOf_ne_nil (hroom : get b p .capacity < reservedOf n) : extensionOf b p n ≠ [] := by
  have hpos := batch_pos hroom
  unfold extensionOf
  rw [ne_eq, List.map_eq_nil_iff, List.range'_eq_nil_iff]
  omega

theorem extend_shape (h : PageShape b p n fl lv) (hroom : get b p .capacity < reservedOf n) :
    ∃ c, extend b p = (true, c) ∧ Extended b c p n (batch n (get b p .capacity)) ∧
      PageShape c p n (extensionOf b p n ++ fl) lv := by
  have hgeo := binGeometry h.bin_pos h.bin_le
  have hsize := size_le
  have hword := h.word_le_size
  have hsge := hgeo.size_ge
  have hres := hgeo.reserved_le
  have hend := h.end_le
  unfold extend extensionOf
  simp only [h.reserved, h.blockSize, h.blockStart, if_neg (Nat.not_le.mpr hroom)]
  have hbatch : min (reservedOf n - get b p .capacity)
      (max (maxExtendSize / max (binSize n) 1) 1) = batch n (get b p .capacity) := by
    unfold batch
    rw [Nat.max_eq_left (show 1 ≤ binSize n by omega), Nat.max_comm]
  have hk : 1 ≤ batch n (get b p .capacity) ∧
      get b p .capacity + batch n (get b p .capacity) ≤ reservedOf n := by
    rw [← hbatch]
    omega
  rw [hbatch]
  generalize batch n (get b p .capacity) = k at hk
  generalize hcapdef : get b p .capacity = cap at hroom hk
  obtain ⟨k, rfl⟩ : ∃ j, k = j + 1 := ⟨k - 1, by omega⟩
  have hfirst : p + Wasmalloc.blockStart (binSize n) + cap * binSize n = block p n cap := rfl
  have hrow : ∀ i, block p n cap + i * binSize n = block p n (cap + i) := by
    intro i
    unfold block
    rw [Nat.add_mul]
    omega
  rw [hfirst, Nat.add_sub_cancel]
  have hupper := block_upper (p := p) h.bin_pos h.bin_le (i := cap + k) (by omega)
  have hlower := fun i => block_lower (p := p) (i := i) h.bin_pos h.bin_le
  obtain ⟨hload, hlinkframe⟩ := linkBlocks_spec hword (k + 1) b (block p n cap)
    (Nat.le_succ k) (by rw [hrow]; omega)
  simp only [hrow] at hload hlinkframe ⊢
  generalize linkBlocks (binSize n) (block p n (cap + k)) (k + 1) b (block p n cap) = b1
    at hload hlinkframe
  -- The header is not part of the row, so its fields read as before.
  have hget1 : ∀ f, get b1 p f = get b p f := by
    intro f
    refine get_congr fun x _ hx => hlinkframe x fun i _ => Or.inl ?_
    have := hlower (cap + i)
    omega
  rw [hget1, h.head]
  have hlast := hlower (cap + k)
  generalize hc : set (set (storeWord b1 (block p n (cap + k)) (fl.headD 0)) p .free (block p n cap))
    p .capacity (cap + (k + 1)) = c
  have hcout : ∀ x, (x < p ∨ p + size ≤ x) →
      c x = storeWord b1 (block p n (cap + k)) (fl.headD 0) x := by
    intro x hx
    rw [← hc, set_out hx, set_out hx]
  have hframe : ∀ x, (x < p ∨ p + size ≤ x) → (∀ i, cap ≤ i → i < cap + (k + 1) →
      x < block p n i ∨ block p n i + usizeBytes ≤ x) → c x = b x := by
    intro x hx hrowx
    rw [hcout x hx, storeWord_out (hrowx (cap + k) (by omega) (by omega))]
    exact hlinkframe x fun i hi => hrowx (cap + i) (by omega) (by omega)
  have hstore : ∀ f, get (storeWord b1 (block p n (cap + k)) (fl.headD 0)) p f = get b p f := by
    intro f
    rw [← hget1 f]
    exact get_congr fun x _ hx => storeWord_out (Or.inl (by omega))
  have hrest : ∀ f, f ≠ .free → f ≠ .capacity → get c p f = get b p f := by
    intro f h1 h2
    rw [← hc, get_set_ne h2, get_set_ne h1, hstore]
  have hcap : get c p .capacity = cap + (k + 1) := by
    rw [← hc, get_set_same]
    unfold reservedOf at hk
    simp only [Field.width]
    omega
  have hfree : get c p .free = block p n cap := by
    rw [← hc, get_set_ne (by decide), get_set_same]
    show block p n cap < 256 ^ usizeBytes
    have := block_upper (p := p) h.bin_pos h.bin_le (i := cap) (by omega)
    rw [← usizeSize_eq_pow]
    omega
  -- Blocks of the free list and of the page's live part lie apart from the row.
  have hold : ∀ d ∈ fl ++ lv, ∀ x, d ≤ x → x < d + binSize n → c x = b x := by
    intro d hd x hx hx'
    have hd' := h.inside hd
    refine hframe x (Or.inr (by omega)) ?_
    intro i hi _
    have hapart := h.apart_fresh hd (i := i) (by omega)
    unfold Apart at hapart
    omega
  have hloadc : ∀ i, i < k → loadWord c (block p n (cap + i)) = block p n (cap + (i + 1)) := by
    intro i hi
    rw [← hload i hi]
    refine loadWord_congr fun x hx hx' => ?_
    have := hlower (cap + i)
    have hapart := block_apart (p := p) (n := n) (i := cap + i) (j := cap + k) (by omega)
    unfold Apart at hapart
    rw [hcout x (by omega), storeWord_out (by omega)]
  have hloadlast : loadWord c (block p n (cap + k)) = fl.headD 0 := by
    have hst : loadWord (storeWord b1 (block p n (cap + k)) (fl.headD 0)) (block p n (cap + k))
        = fl.headD 0 := readLE_writeLE_of_lt h.headD_lt
    rw [← hst]
    exact loadWord_congr fun x hx hx' => hcout x (by omega)
  refine ⟨c, rfl, ⟨by omega, by rw [hcap, hcapdef], hrest, ?_⟩, ?_⟩
  · rw [hcapdef]
    exact hframe
  refine { bin_pos := h.bin_pos, bin_le := h.bin_le, aligned := h.aligned, end_le := h.end_le,
           bin := by rw [hrest _ (by decide) (by decide), h.bin],
           kind := by rw [hrest _ (by decide) (by decide), h.kind],
           blockSize := by rw [hrest _ (by decide) (by decide), h.blockSize],
           blockStart := by rw [hrest _ (by decide) (by decide), h.blockStart],
           reserved := by rw [hrest _ (by decide) (by decide), h.reserved],
           capacity_le := by rw [hcap]; omega,
           used := by rw [hrest _ (by decide) (by decide), h.used],
           head := by rw [hfree]; rfl, chain := ?_, blocks := ?_ }
  · refine chain_row ?_ hloadlast ?_
    · intro i hi hi'
      obtain ⟨j, rfl⟩ : ∃ j, i = cap + j := ⟨i - cap, by omega⟩
      exact hloadc j (by omega)
    · refine h.chain.congr ?_
      intro d hd
      exact loadWord_congr fun x hx hx' => hold d (List.mem_append_left lv hd) x hx (by omega)
  · have hperm := h.blocks
    rw [hcapdef] at hperm
    have hsplit : blocks p n (cap + (k + 1)) =
        blocks p n cap ++ (List.range' cap (k + 1)).map (block p n) := by
      unfold blocks
      have hrange : List.range (cap + (k + 1)) = List.range cap ++ List.range' cap (k + 1) := by
        rw [List.range_eq_range', List.range_eq_range', ← List.range'_append_1, Nat.zero_add]
      rw [hrange, List.map_append]
    rw [hcap, hsplit, List.append_assoc]
    exact List.perm_append_comm.trans (hperm.append_right _)

theorem Extended.same {k d x : Nat} (hx : Extended b c p n k) (h : PageShape b p n fl lv)
    (hd : d ∈ fl ++ lv) (hlo : d ≤ x) (hhi : x < d + binSize n) : c x = b x := by
  have hin := h.inside hd
  have hsize := size_le
  have hword := h.word_le_size
  refine hx.frame x (Or.inr (by omega)) fun i hi _ => ?_
  have hapart := h.apart_fresh hd hi
  unfold Apart at hapart
  omega

theorem Extended.same_rest {k i x : Nat} (hx : Extended b c p n k) (h : PageShape b p n fl lv)
    (hlo : block p n i + usizeBytes ≤ x) (hhi : x < block p n i + binSize n) : c x = b x := by
  have hlower := block_lower (p := p) (i := i) h.bin_pos h.bin_le
  have hsize := size_le
  have hword := h.word_le_size
  refine hx.frame x (Or.inr (by omega)) fun j _ _ => ?_
  by_cases hij : i = j
  · subst hij
    exact Or.inr (by omega)
  · have hapart := block_apart (p := p) (n := n) hij
    unfold Apart at hapart
    omega

/-- **`extend`** keeps what the page says about its zero bytes. -/
theorem extend_spec (h : PageOk b p n fl lv) (hroom : get b p .capacity < reservedOf n) :
    ∃ c, extend b p = (true, c) ∧ Extended b c p n (batch n (get b p .capacity)) ∧
      PageOk c p n (extensionOf b p n ++ fl) lv := by
  obtain ⟨c, hext, hx, hshape⟩ := extend_shape h.toPageShape hroom
  have hk : get b p .capacity + batch n (get b p .capacity) ≤ reservedOf n := by
    unfold batch
    omega
  have hsize := size_le
  refine ⟨c, hext, hx, { hshape with zero_free := ?_, zero_fresh := ?_ }⟩
  · intro hz d hd x hlo hhi
    rw [hx.rest _ (by decide) (by decide)] at hz
    rcases List.mem_append.mp hd with hd | hd
    · obtain ⟨i, hlo', hhi', rfl⟩ := mem_extensionOf.mp hd
      rw [hx.same_rest h.toPageShape hlo hhi]
      exact h.zero_fresh hz i (by omega) (by omega) x (by omega) hhi
    · rw [hx.same h.toPageShape (List.mem_append_left lv hd) (by omega) hhi]
      exact h.zero_free hz d hd x hlo hhi
  · intro hz i hi hi' x hlo hhi
    rw [hx.rest _ (by decide) (by decide)] at hz
    rw [hx.capacity] at hi
    have hlower := block_lower (p := p) (i := i) h.bin_pos h.bin_le
    rw [hx.frame x (Or.inr (by omega)) ?_]
    · exact h.zero_fresh hz i (by omega) hi' x hlo hhi
    · intro j _ hj
      have hword := h.word_le_size
      have hapart := block_apart (p := p) (n := n) (i := i) (j := j) (by omega)
      unfold Apart at hapart
      omega

end PageShape

end Page

end Wasmalloc
