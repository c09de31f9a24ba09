import Mathlib.Tactic.Ring
import Mathlib.Algebra.Order.Ring.Nat

/- Byte-addressed memory.

   A memory is a total function from addresses to bytes. `readLE` and `writeLE`
   access `n` bytes from an address as one little-endian number, `fill` and `copy`
   are the block operations. Every operation has one lemma that reads back what it
   wrote and one that frames what it left alone; the lemmas about ranges speak of
   `Apart`, two address ranges without a common byte. -/
namespace ByteMem

abbrev Bytes := Nat → UInt8

/-- The ranges `[a, a + n)` and `[c, c + k)` share no address. -/
def Apart (a n c k : Nat) : Prop := a + n ≤ c ∨ c + k ≤ a

/-- The `n` bytes from `a`, the lowest address least significant. -/
def readLE (b : Bytes) (a : Nat) : Nat → Nat
  | 0 => 0
  | n + 1 => (b a).toNat + 256 * readLE b (a + 1) n

/-- Store the low `n` bytes of `v` from `a` on. -/
def writeLE (b : Bytes) (a n v : Nat) : Bytes := fun x =>
  if a ≤ x ∧ x < a + n then UInt8.ofNat (v / 256 ^ (x - a)) else b x

def fill (b : Bytes) (a n : Nat) (v : UInt8) : Bytes := fun x =>
  if a ≤ x ∧ x < a + n then v else b x

/-- Copy `n` bytes from `src` to `dst`, as if through a buffer. -/
def copy (b : Bytes) (src dst n : Nat) : Bytes := fun x =>
  if dst ≤ x ∧ x < dst + n then b (src + (x - dst)) else b x

/-! ## Frames -/

theorem writeLE_out {b : Bytes} {a n v x : Nat} (h : x < a ∨ a + n ≤ x) :
    writeLE b a n v x = b x := by
  unfold writeLE
  rw [if_neg (by omega)]

theorem fill_out {b : Bytes} {a n x : Nat} {v : UInt8} (h : x < a ∨ a + n ≤ x) :
    fill b a n v x = b x := by
  unfold fill
  rw [if_neg (by omega)]

theorem fill_in {b : Bytes} {a n x : Nat} {v : UInt8} (h : a ≤ x) (h' : x < a + n) :
    fill b a n v x = v := by
  unfold fill
  rw [if_pos ⟨h, h'⟩]

theorem copy_out {b : Bytes} {src dst n x : Nat} (h : x < dst ∨ dst + n ≤ x) :
    copy b src dst n x = b x := by
  unfold copy
  rw [if_neg (by omega)]

theorem copy_in {b : Bytes} {src dst n i : Nat} (h : i < n) :
    copy b src dst n (dst + i) = b (src + i) := by
  unfold copy
  rw [if_pos (by omega), Nat.add_sub_cancel_left]

/-! ## Reading back -/

theorem readLE_congr {b c : Bytes} {n : Nat} : ∀ {a : Nat},
    (∀ x, a ≤ x → x < a + n → b x = c x) → readLE b a n = readLE c a n := by
  induction n with
  | zero => intro a _; rfl
  | succ n ih =>
    intro a h
    have hhead : b a = c a := h a (Nat.le_refl a) (by omega)
    have htail : readLE b (a + 1) n = readLE c (a + 1) n :=
      ih (fun x hx hx' => h x (by omega) (by omega))
    simp only [readLE, hhead, htail]

theorem readLE_lt (b : Bytes) (n : Nat) : ∀ a, readLE b a n < 256 ^ n := by
  induction n with
  | zero => intro a; simp [readLE]
  | succ n ih =>
    intro a
    have hbyte := (b a).toNat_lt
    have htail := ih (a + 1)
    simp only [readLE, pow_succ]
    omega

theorem readLE_zero {b : Bytes} {n : Nat} : ∀ {a : Nat},
    (∀ x, a ≤ x → x < a + n → b x = 0) → readLE b a n = 0 := by
  induction n with
  | zero => intro a _; rfl
  | succ n ih =>
    intro a h
    have hhead : b a = 0 := h a (Nat.le_refl a) (by omega)
    have htail : readLE b (a + 1) n = 0 := ih (fun x hx hx' => h x (by omega) (by omega))
    simp [readLE, hhead, htail]

theorem readLE_writeLE_apart {b : Bytes} {a n v c k : Nat} (h : Apart a n c k) :
    readLE (writeLE b a n v) c k = readLE b c k := by
  apply readLE_congr
  intro x hx hx'
  rcases h with h | h
  · exact writeLE_out (Or.inr (by omega))
  · exact writeLE_out (Or.inl (by omega))

theorem writeLE_tail (b : Bytes) (a n v x : Nat) (h : a + 1 ≤ x) (h' : x < a + 1 + n) :
    writeLE b a (n + 1) v x = writeLE b (a + 1) n (v / 256) x := by
  have hshift : x - a = (x - (a + 1)) + 1 := by omega
  unfold writeLE
  rw [if_pos (by omega), if_pos (by omega), hshift, pow_succ, Nat.mul_comm, Nat.div_div_eq_div_mul]

theorem readLE_writeLE (b : Bytes) (n : Nat) : ∀ a v,
    readLE (writeLE b a n v) a n = v % 256 ^ n := by
  induction n with
  | zero => intro a v; simp [readLE, Nat.mod_one]
  | succ n ih =>
    intro a v
    have hhead : (writeLE b a (n + 1) v a).toNat = v % 256 := by
      unfold writeLE
      rw [if_pos (by omega)]
      simp
    have htail : readLE (writeLE b a (n + 1) v) (a + 1) n = v / 256 % 256 ^ n := by
      rw [← ih (a + 1) (v / 256)]
      apply readLE_congr
      intro x hx hx'
      exact writeLE_tail b a n v x hx hx'
    rw [readLE, hhead, htail, pow_succ, Nat.mul_comm (256 ^ n), Nat.mod_mul]

theorem readLE_writeLE_of_lt {b : Bytes} {a n v : Nat} (h : v < 256 ^ n) :
    readLE (writeLE b a n v) a n = v := by
  rw [readLE_writeLE, Nat.mod_eq_of_lt h]

theorem writeLE_zero_in {b : Bytes} {a n x : Nat} (h : a ≤ x) (h' : x < a + n) :
    writeLE b a n 0 x = 0 := by
  unfold writeLE
  rw [if_pos ⟨h, h'⟩, Nat.zero_div]
  rfl

end ByteMem
