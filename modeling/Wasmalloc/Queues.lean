import Wasmalloc.Heap
import Wasmalloc.PageInv

/- The page queues: what the three link primitives do.

   `QueueOk b q l` says that the queue record `q` and the links in the headers hold
   the doubly linked list `l`: with a null owner at both ends it is a ring. `QueuesOk`
   says it of all queues at once, with what every member satisfies and with the two
   caches of the queue heads: the direct table and the occupancy word. `remove`,
   `pushFront` and `pushBack` keep it, and store into queue links only. -/
namespace Wasmalloc
open ByteMem Words

variable [Build]

/-! ## Ghost state -/

/-- Where a slice is. `claimed` is in between: taken from the map, not yet a page or a run. -/
inductive Place where
  | foreign
  | free
  | claimed
  | page (p : Nat)
  | run (a : Nat)
  deriving DecidableEq

/-- What the bytes encode: the place of every slice, the bin and the free list of the page
    at an address, the members of every queue. -/
structure Ghost where
  place : Nat → Place
  bin : Nat → Nat
  free : Nat → List Nat
  queue : Nat → List Nat

omit [Build] in
/-- A page starts at address `p`. -/
def IsPage (g : Ghost) (p : Nat) : Prop := g.place (p / sliceSize) = .page p

/-- `p` can be the address of a page. -/
structure PageAddr (p : Nat) : Prop where
  dvd : sliceSize ∣ p
  pos : 0 < p
  lt : p < 256 ^ usizeBytes

namespace Page

theorem get_set {b : Bytes} {p q v : Nat} {f f' : Field} (hp : sliceSize ∣ p) (hq : sliceSize ∣ q)
    (hv : v < 256 ^ f.width) :
    get (set b p f v) q f' = if q = p ∧ f' = f then v else get b q f' := by
  by_cases hqp : q = p
  · subst hqp
    by_cases hf : f' = f
    · rw [if_pos ⟨rfl, hf⟩, hf, get_set_same hv]
    · rw [if_neg (fun h => hf h.2), get_set_ne hf]
  · rw [if_neg (fun h => hqp h.1)]
    apply get_set_apart
    have hsize := size_le
    obtain ⟨m, rfl⟩ := hp
    obtain ⟨k, rfl⟩ := hq
    have hmk : m ≠ k := fun e => hqp (congrArg _ e.symm)
    unfold Apart
    unfold pageHeaderReserve at hsize
    unfold sliceSize
    rcases Nat.lt_or_gt_of_ne hmk with h | h <;> omega

end Page

/-! ## One queue -/

/-- The links of a queue, its record standing for the null owner. -/
def nextOf (b : Bytes) (q : PageQueue) (x : Nat) : Nat := if x = 0 then q.first else Page.get b x .next
def prevOf (b : Bytes) (q : PageQueue) (x : Nat) : Nat := if x = 0 then q.last else Page.get b x .prev

structure QueueOk (b : Bytes) (q : PageQueue) (l : List Nat) : Prop where
  ring : Links.Ring (nextOf b q) (prevOf b q) 0 l
  nodup : (0 :: l).Nodup
  count : q.count = l.length

section QueueOk
variable {b c : Bytes} {q : PageQueue} {l : List Nat} {p : Nat}

theorem QueueOk.first (h : QueueOk b q l) : q.first = l.headD 0 := h.ring.first
theorem QueueOk.last (h : QueueOk b q l) : q.last = l.getLastD 0 := h.ring.last

theorem QueueOk.ne_zero (h : QueueOk b q l) (hp : p ∈ l) : p ≠ 0 := fun e =>
  (List.nodup_cons.mp h.nodup).1 (e ▸ hp)

theorem QueueOk.first_eq_zero (h : QueueOk b q l) : q.first = 0 ↔ l = [] := by
  rw [h.first]
  cases l with
  | nil => simp
  | cons x l => simpa using h.ne_zero (p := x) (by simp)

theorem QueueOk.headD (h : QueueOk b q l) (d : Nat) :
    (if q.first = 0 then d else q.first) = l.headD d := by
  by_cases h0 : l = []
  · rw [if_pos (h.first_eq_zero.mpr h0), h0]
    rfl
  · rw [if_neg (fun e => h0 (h.first_eq_zero.mp e)), h.first]
    cases l with
    | nil => exact absurd rfl h0
    | cons x l => rfl

theorem QueueOk.congr (h : QueueOk b q l)
    (hget : ∀ x ∈ l, Page.get c x .next = Page.get b x .next ∧ Page.get c x .prev = Page.get b x .prev) :
    QueueOk c q l := by
  refine { ring := h.ring.congr ?_ ?_, nodup := h.nodup, count := h.count }
  · intro a ha
    unfold nextOf
    by_cases h0 : a = 0
    · rw [if_pos h0, if_pos h0]
    · rw [if_neg h0, if_neg h0]
      exact (hget a ((List.mem_cons.mp ha).resolve_left h0)).1
  · intro a ha
    unfold prevOf
    by_cases h0 : a = 0
    · rw [if_pos h0, if_pos h0]
    · rw [if_neg h0, if_neg h0]
      exact (hget a ((List.mem_cons.mp ha).resolve_left h0)).2

theorem QueueOk.neighbours {xs ys : List Nat} (h : QueueOk b q (xs ++ p :: ys)) :
    Page.get b p .next = ys.headD 0 ∧ Page.get b p .prev = xs.getLastD 0 := by
  have hp : p ≠ 0 := h.ne_zero (by simp)
  have hn := h.ring.neighbours
  unfold nextOf prevOf at hn
  rwa [if_neg hp, if_neg hp] at hn

end QueueOk

/-! ### `remove` on the links -/

/-- The stores of `remove`: the neighbours skip the page, whose links are cleared. -/
def unlinked (b : Bytes) (p : Nat) : Bytes :=
  let prev := Page.get b p .prev
  let next := Page.get b p .next
  let b := if prev ≠ 0 then Page.set b prev .next next else b
  let b := if next ≠ 0 then Page.set b next .prev prev else b
  Page.set (Page.set b p .next 0) p .prev 0

omit [Build] in
/-- The queue record without a page whose neighbours are `prev` and `next`. -/
def PageQueue.without (q : PageQueue) (p prev next : Nat) : PageQueue :=
  { first := if q.first = p then next else q.first
    last := if q.last = p then prev else q.last
    count := q.count - 1 }

theorem word_pos : 0 < 256 ^ usizeBytes := Nat.pow_pos (by decide)

section Unlink
variable {b : Bytes} {p x : Nat}

theorem get_unlinked (hp : sliceSize ∣ p) (hn : sliceSize ∣ Page.get b p .next)
    (hv : sliceSize ∣ Page.get b p .prev) (hx : sliceSize ∣ x) (f : Page.Field) :
    Page.get (unlinked b p) x f =
      if x = p ∧ (f = .next ∨ f = .prev) then 0
      else if x = Page.get b p .prev ∧ Page.get b p .prev ≠ 0 ∧ f = .next then Page.get b p .next
      else if x = Page.get b p .next ∧ Page.get b p .next ≠ 0 ∧ f = .prev then Page.get b p .prev
      else Page.get b x f := by
  have hnlt := Page.get_lt b p .next
  have hvlt := Page.get_lt b p .prev
  unfold unlinked
  simp only
  generalize Page.get b p .prev = prev at hv hvlt ⊢
  generalize Page.get b p .next = next at hn hnlt ⊢
  rw [Page.get_set hp hx word_pos, Page.get_set hp hx word_pos]
  have h2 : ∀ c : Bytes, Page.get (if next ≠ 0 then Page.set c next .prev prev else c) x f =
      if x = next ∧ next ≠ 0 ∧ f = .prev then prev else Page.get c x f := by
    intro c
    by_cases h0 : next ≠ 0
    · rw [if_pos h0, Page.get_set hn hx hvlt]
      simp [h0]
    · rw [if_neg h0]
      simp [h0]
  have h1 : Page.get (if prev ≠ 0 then Page.set b prev .next next else b) x f =
      if x = prev ∧ prev ≠ 0 ∧ f = .next then next else Page.get b x f := by
    by_cases h0 : prev ≠ 0
    · rw [if_pos h0, Page.get_set hv hx hnlt]
      simp [h0]
    · rw [if_neg h0]
      simp [h0]
  rw [h2, h1]
  cases f <;> simp

/-- Byte `x` is of one of the two links of the page at `p`. -/
def LinkByte (p x : Nat) : Prop := p + Page.Field.offset .next ≤ x ∧ x < p + Page.size

theorem link_out {v : Nat} {f : Page.Field} (hf : f = .next ∨ f = .prev) (hout : ¬ LinkByte p x) :
    Page.set b p f v x = b x := by
  refine writeLE_out ?_
  unfold LinkByte Page.size at hout
  rcases hf with rfl | rfl
  · simp only [Page.Field.offset, Page.Field.width] at hout ⊢
    omega
  · simp only [Page.Field.offset, Page.Field.width] at hout ⊢
    omega

theorem unlinked_out (hout : ∀ y ∈ [p, Page.get b p .prev, Page.get b p .next], y ≠ 0 →
    ¬ LinkByte y x) (hp : p ≠ 0) : unlinked b p x = b x := by
  simp only [List.forall_mem_cons, List.not_mem_nil, false_implies, implies_true, and_true] at hout
  unfold unlinked
  rw [link_out (Or.inr rfl) (hout.1 hp), link_out (Or.inl rfl) (hout.1 hp)]
  have h2 : ∀ c : Bytes, (if Page.get b p .next ≠ 0 then
      Page.set c (Page.get b p .next) .prev (Page.get b p .prev) else c) x = c x := by
    intro c
    split
    · rename_i h0
      exact link_out (Or.inr rfl) (hout.2.2 h0)
    · rfl
  rw [h2]
  split
  · rename_i h0
    exact link_out (Or.inl rfl) (hout.2.1 h0)
  · rfl

end Unlink

omit [Build] in
theorem headD_mem (l : List Nat) : l.headD 0 = 0 ∨ l.headD 0 ∈ l := by
  cases l with
  | nil => exact Or.inl rfl
  | cons x l => exact Or.inr (by simp)

omit [Build] in
theorem getLastD_mem (l : List Nat) : l.getLastD 0 = 0 ∨ l.getLastD 0 ∈ l := by
  rcases List.eq_nil_or_concat l with rfl | ⟨zs, z, rfl⟩
  · exact Or.inl rfl
  · right
    rw [List.concat_eq_append, List.getLastD_concat]
    simp

section Remove
variable {b : Bytes} {q : PageQueue} {l : List Nat} {p : Nat}

theorem QueueOk.next_mem (h : QueueOk b q l) (hp : p ∈ l) :
    Page.get b p .next = 0 ∨ Page.get b p .next ∈ l := by
  obtain ⟨xs, ys, rfl⟩ := List.append_of_mem hp
  rw [h.neighbours.1]
  exact (headD_mem ys).imp_right fun hm => List.mem_append_right xs (List.mem_cons_of_mem p hm)

theorem QueueOk.prev_mem (h : QueueOk b q l) (hp : p ∈ l) :
    Page.get b p .prev = 0 ∨ Page.get b p .prev ∈ l := by
  obtain ⟨xs, ys, rfl⟩ := List.append_of_mem hp
  rw [h.neighbours.2]
  exact (getLastD_mem xs).imp_right fun hm => List.mem_append_left (p :: ys) hm

theorem QueueOk.link_dvd (h : QueueOk b q l) (haddr : ∀ x ∈ l, PageAddr x) (hp : p ∈ l) :
    sliceSize ∣ Page.get b p .next ∧ sliceSize ∣ Page.get b p .prev := by
  refine ⟨?_, ?_⟩
  · rcases h.next_mem hp with h0 | hm
    · rw [h0]
      exact Nat.dvd_zero _
    · exact (haddr _ hm).dvd
  · rcases h.prev_mem hp with h0 | hm
    · rw [h0]
      exact Nat.dvd_zero _
    · exact (haddr _ hm).dvd

/-- **Removing a member** of a queue. -/
theorem QueueOk.remove (h : QueueOk b q l) (haddr : ∀ x ∈ l, PageAddr x) (hp : p ∈ l) :
    QueueOk (unlinked b p) (q.without p (Page.get b p .prev) (Page.get b p .next)) (l.erase p) := by
  obtain ⟨hdn, hdv⟩ := h.link_dvd haddr hp
  have hpdvd := (haddr p hp).dvd
  have hp0 := h.ne_zero hp
  obtain ⟨xs, ys, rfl⟩ := List.append_of_mem hp
  obtain ⟨hnext, hprev⟩ := h.neighbours
  have hnd := (List.nodup_cons.mp h.nodup).2
  have hpxs : p ∉ xs := fun hm =>
    (List.nodup_append.mp hnd).2.2 p hm p List.mem_cons_self rfl
  have hpys : p ∉ ys := (List.nodup_cons.mp (List.nodup_append.mp hnd).2.1).1
  have herase : (xs ++ p :: ys).erase p = xs ++ ys := by
    rw [List.erase_append_right _ hpxs, List.erase_cons_head]
  rw [herase]
  have hsub : (xs ++ ys).Sublist (xs ++ p :: ys) := by simp
  -- The first and the last member are the ones without a neighbour on that side.
  have hfirst : q.first = p ↔ Page.get b p .prev = 0 := by
    rw [h.first, hprev]
    cases xs with
    | nil => simp
    | cons z zs =>
      have hz : z ≠ p := fun e => hpxs (by simp [e])
      have hl := getLastD_mem (z :: zs)
      have hne : (z :: zs).getLastD 0 ≠ 0 := by
        intro e0
        have hmem : (z :: zs).getLastD 0 ∈ z :: zs := by
          rw [List.getLastD_cons]
          exact List.getLastD_mem_cons
        rw [e0] at hmem
        exact h.ne_zero (p := 0) (List.mem_append_left _ hmem) rfl
      simp only [List.cons_append, List.headD_cons]
      exact ⟨fun e => absurd e hz, fun e => absurd e hne⟩
  have hlast : q.last = p ↔ Page.get b p .next = 0 := by
    rw [h.last, hnext]
    cases ys with
    | nil => simp
    | cons z zs =>
      have hne : z ≠ 0 := h.ne_zero (by simp)
      have hlast : (xs ++ p :: z :: zs).getLastD 0 ∈ z :: zs := by
        rw [List.getLastD_eq_getLast?, List.getLast?_append, List.getLast?_cons_cons]
        simp only [List.getLast?_cons, Option.some_or, Option.getD_some]
        rw [← List.getLastD_eq_getLast?]
        exact List.getLastD_mem_cons
      simp only [List.headD_cons]
      exact ⟨fun e => absurd (e ▸ hlast) hpys, fun e => absurd e hne⟩
  refine { ring := ?_, nodup := h.nodup.sublist (hsub.cons_cons 0), count := ?_ }
  · refine Links.Ring.unlink h.ring h.nodup ?_ ?_
    · intro a ha
      by_cases h0 : a = 0
      · subst h0
        simp only [nextOf, prevOf, if_true, if_neg hp0, PageQueue.without]
        by_cases hf : q.first = p
        · rw [if_pos hf, if_pos (hfirst.mp hf).symm]
        · rw [if_neg hf, if_neg (fun e => hf (hfirst.mpr e.symm))]
      · have hmem := (List.mem_cons.mp ha).resolve_left h0
        have hap : a ≠ p := by
          intro e
          rw [e] at hmem
          exact (List.mem_append.mp hmem).elim hpxs hpys
        have hadvd := (haddr a (hsub.subset hmem)).dvd
        simp only [nextOf, prevOf, if_neg h0, if_neg hp0]
        rw [get_unlinked hpdvd hdn hdv hadvd]
        rw [if_neg (fun e => hap e.1)]
        by_cases he : a = Page.get b p .prev
        · rw [if_pos ⟨he, he ▸ h0, rfl⟩, if_pos he]
        · rw [if_neg (fun e => he e.1), if_neg (fun e => absurd e.2.2 (by decide)), if_neg he]
    · intro a ha
      by_cases h0 : a = 0
      · subst h0
        simp only [nextOf, prevOf, if_true, if_neg hp0, PageQueue.without]
        by_cases hf : q.last = p
        · rw [if_pos hf, if_pos (hlast.mp hf).symm]
        · rw [if_neg hf, if_neg (fun e => hf (hlast.mpr e.symm))]
      · have hmem := (List.mem_cons.mp ha).resolve_left h0
        have hap : a ≠ p := by
          intro e
          rw [e] at hmem
          exact (List.mem_append.mp hmem).elim hpxs hpys
        have hadvd := (haddr a (hsub.subset hmem)).dvd
        simp only [nextOf, prevOf, if_neg h0, if_neg hp0]
        rw [get_unlinked hpdvd hdn hdv hadvd]
        rw [if_neg (fun e => hap e.1)]
        by_cases he : a = Page.get b p .next
        · rw [if_neg (fun e => absurd e.2.2 (by decide)), if_pos ⟨he, he ▸ h0, rfl⟩, if_pos he]
        · rw [if_neg (fun e => absurd e.2.2 (by decide)), if_neg (fun e => he e.1), if_neg he]
  · have := h.count
    simp only [PageQueue.without, List.length_append, List.length_cons] at this ⊢
    omega

end Remove

/-! ### `pushFront` and `pushBack` on the links -/

/-- The stores of `pushFront`. -/
def frontLinked (b : Bytes) (p first : Nat) : Bytes :=
  let b := Page.set (Page.set b p .next first) p .prev 0
  if first ≠ 0 then Page.set b first .prev p else b

/-- The stores of `pushBack`. -/
def backLinked (b : Bytes) (p last : Nat) : Bytes :=
  let b := Page.set (Page.set b p .prev last) p .next 0
  if last ≠ 0 then Page.set b last .next p else b

omit [Build] in
def PageQueue.withFront (q : PageQueue) (p : Nat) : PageQueue :=
  { first := p, last := if q.first = 0 then p else q.last, count := q.count + 1 }

omit [Build] in
def PageQueue.withBack (q : PageQueue) (p : Nat) : PageQueue :=
  { first := if q.first = 0 then p else q.first, last := p, count := q.count + 1 }

section Push
variable {b : Bytes} {q : PageQueue} {l : List Nat} {p x y : Nat}

theorem get_frontLinked (hp : PageAddr p) (hy : sliceSize ∣ y) (hlt : y < 256 ^ usizeBytes)
    (hx : sliceSize ∣ x) (f : Page.Field) :
    Page.get (frontLinked b p y) x f =
      if x = y ∧ y ≠ 0 ∧ f = .prev then p
      else if x = p ∧ f = .prev then 0
      else if x = p ∧ f = .next then y
      else Page.get b x f := by
  unfold frontLinked
  simp only
  have h1 : Page.get (Page.set (Page.set b p .next y) p .prev 0) x f =
      if x = p ∧ f = .prev then 0 else if x = p ∧ f = .next then y else Page.get b x f := by
    rw [Page.get_set hp.dvd hx word_pos, Page.get_set hp.dvd hx hlt]
  by_cases h0 : y ≠ 0
  · rw [if_pos h0, Page.get_set hy hx hp.lt, h1]
    simp [h0]
  · rw [if_neg h0, h1]
    simp [h0]

theorem get_backLinked (hp : PageAddr p) (hy : sliceSize ∣ y) (hlt : y < 256 ^ usizeBytes)
    (hx : sliceSize ∣ x) (f : Page.Field) :
    Page.get (backLinked b p y) x f =
      if x = y ∧ y ≠ 0 ∧ f = .next then p
      else if x = p ∧ f = .next then 0
      else if x = p ∧ f = .prev then y
      else Page.get b x f := by
  unfold backLinked
  simp only
  have h1 : Page.get (Page.set (Page.set b p .prev y) p .next 0) x f =
      if x = p ∧ f = .next then 0 else if x = p ∧ f = .prev then y else Page.get b x f := by
    rw [Page.get_set hp.dvd hx word_pos, Page.get_set hp.dvd hx hlt]
  by_cases h0 : y ≠ 0
  · rw [if_pos h0, Page.get_set hy hx hp.lt, h1]
    simp [h0]
  · rw [if_neg h0, h1]
    simp [h0]

theorem frontLinked_out {a : Nat} (hp : ¬ LinkByte p a) (hy : y ≠ 0 → ¬ LinkByte y a) :
    frontLinked b p y a = b a := by
  unfold frontLinked
  split
  · rename_i h0
    rw [link_out (Or.inr rfl) (hy h0), link_out (Or.inr rfl) hp, link_out (Or.inl rfl) hp]
  · rw [link_out (Or.inr rfl) hp, link_out (Or.inl rfl) hp]

theorem backLinked_out {a : Nat} (hp : ¬ LinkByte p a) (hy : y ≠ 0 → ¬ LinkByte y a) :
    backLinked b p y a = b a := by
  unfold backLinked
  split
  · rename_i h0
    rw [link_out (Or.inl rfl) (hy h0), link_out (Or.inl rfl) hp, link_out (Or.inr rfl) hp]
  · rw [link_out (Or.inl rfl) hp, link_out (Or.inr rfl) hp]

theorem QueueOk.ends (h : QueueOk b q l) (haddr : ∀ x ∈ l, PageAddr x) :
    (sliceSize ∣ q.first ∧ q.first < 256 ^ usizeBytes) ∧
      (sliceSize ∣ q.last ∧ q.last < 256 ^ usizeBytes) := by
  have hend : ∀ z, z = 0 ∨ z ∈ l → sliceSize ∣ z ∧ z < 256 ^ usizeBytes := by
    intro z hz
    rcases hz with h0 | hm
    · rw [h0]
      exact ⟨Nat.dvd_zero _, word_pos⟩
    · exact ⟨(haddr z hm).dvd, (haddr z hm).lt⟩
  rw [h.first, h.last]
  exact ⟨hend _ (headD_mem l), hend _ (getLastD_mem l)⟩

/-- **Adding a page in front** of a queue. -/
theorem QueueOk.pushFront (h : QueueOk b q l) (haddr : ∀ x ∈ l, PageAddr x) (hp : PageAddr p)
    (hnew : p ∉ l) : QueueOk (frontLinked b p q.first) (q.withFront p) (p :: l) := by
  obtain ⟨⟨hdvd, hlt⟩, -⟩ := h.ends haddr
  have hp0 : p ≠ 0 := Nat.pos_iff_ne_zero.mp hp.pos
  have hfirst0 := h.first_eq_zero
  have hnd : (0 :: p :: l).Nodup := by
    have hnl := List.nodup_cons.mp h.nodup
    simp only [List.nodup_cons, List.mem_cons, not_or]
    exact ⟨⟨hp0.symm, hnl.1⟩, hnew, hnl.2⟩
  have hpfirst : p ≠ q.first := by
    rw [h.first]
    rcases headD_mem l with h0 | hm
    · rw [h0]
      exact hp0
    · exact fun e => hnew (e ▸ hm)
  refine { ring := ?_, nodup := hnd, count := ?_ }
  · refine Links.Ring.link_front h.ring hnd ?_ ?_
    · intro a ha
      by_cases h0 : a = 0
      · simp only [nextOf, if_pos h0, PageQueue.withFront]
      · have had : sliceSize ∣ a := by
          rcases List.mem_cons.mp ((List.mem_cons.mp ha).resolve_left h0) with rfl | hm
          · exact hp.dvd
          · exact (haddr a hm).dvd
        simp only [nextOf, if_neg h0, if_true]
        rw [get_frontLinked hp hdvd hlt had, if_neg (fun e => absurd e.2.2 (by decide)),
          if_neg (fun e => absurd e.2 (by decide))]
        simp only [and_true]
    · intro a ha
      by_cases h0 : a = 0
      · subst h0
        simp only [prevOf, nextOf, if_true, if_neg hp0.symm, PageQueue.withFront]
        by_cases hf : q.first = 0
        · rw [if_pos hf, if_pos hf.symm]
        · rw [if_neg hf, if_neg (fun e => hf e.symm)]
      · have had : sliceSize ∣ a := by
          rcases List.mem_cons.mp ((List.mem_cons.mp ha).resolve_left h0) with rfl | hm
          · exact hp.dvd
          · exact (haddr a hm).dvd
        simp only [prevOf, nextOf, if_neg h0, if_true]
        rw [get_frontLinked hp hdvd hlt had]
        by_cases hap : a = p
        · subst hap
          rw [if_neg (fun e => hpfirst e.1), if_pos ⟨rfl, rfl⟩, if_pos rfl]
        · rw [if_neg hap, if_neg (fun e => hap e.1 : ¬ (a = p ∧ Page.Field.prev = .prev)),
            if_neg (fun e => hap e.1 : ¬ (a = p ∧ Page.Field.prev = .next))]
          by_cases haf : a = q.first
          · rw [if_pos ⟨haf, haf ▸ h0, rfl⟩, if_pos haf]
          · rw [if_neg (fun e => haf e.1), if_neg haf]
  · have := h.count
    simp only [PageQueue.withFront, List.length_cons] at this ⊢
    omega

/-- **Adding a page at the end** of a queue. -/
theorem QueueOk.pushBack (h : QueueOk b q l) (haddr : ∀ x ∈ l, PageAddr x) (hp : PageAddr p)
    (hnew : p ∉ l) : QueueOk (backLinked b p q.last) (q.withBack p) (l ++ [p]) := by
  obtain ⟨-, hdvd, hlt⟩ := h.ends haddr
  have hp0 : p ≠ 0 := Nat.pos_iff_ne_zero.mp hp.pos
  have hnl := List.nodup_cons.mp h.nodup
  have hnd : (0 :: p :: l).Nodup := by
    simp only [List.nodup_cons, List.mem_cons, not_or]
    exact ⟨⟨hp0.symm, hnl.1⟩, hnew, hnl.2⟩
  have hempty : q.first = 0 ↔ q.last = 0 := by
    rw [h.first_eq_zero, h.last]
    rcases List.eq_nil_or_concat l with rfl | ⟨zs, z, rfl⟩
    · simp
    · have hz : z ≠ 0 := h.ne_zero (by simp)
      simp [hz]
  have hplast : p ≠ q.last := by
    rw [h.last]
    rcases getLastD_mem l with h0 | hm
    · rw [h0]
      exact hp0
    · exact fun e => hnew (e ▸ hm)
  refine { ring := ?_, nodup := ?_, count := ?_ }
  · refine Links.Ring.link_back h.ring hnd ?_ ?_
    · intro a ha
      by_cases h0 : a = 0
      · subst h0
        simp only [prevOf, nextOf, if_true, if_neg hp0.symm, PageQueue.withBack]
        by_cases hf : q.first = 0
        · rw [if_pos hf, if_pos (hempty.mp hf).symm]
        · rw [if_neg hf, if_neg (fun e => hf (hempty.mpr e.symm))]
      · have had : sliceSize ∣ a := by
          rcases List.mem_cons.mp ((List.mem_cons.mp ha).resolve_left h0) with rfl | hm
          · exact hp.dvd
          · exact (haddr a hm).dvd
        simp only [prevOf, nextOf, if_neg h0, if_true]
        rw [get_backLinked hp hdvd hlt had]
        by_cases hap : a = p
        · subst hap
          rw [if_neg (fun e => hplast e.1), if_pos ⟨rfl, rfl⟩, if_pos rfl]
        · rw [if_neg hap, if_neg (fun e => hap e.1 : ¬ (a = p ∧ Page.Field.next = .next)),
            if_neg (fun e => hap e.1 : ¬ (a = p ∧ Page.Field.next = .prev))]
          by_cases haf : a = q.last
          · rw [if_pos ⟨haf, haf ▸ h0, rfl⟩, if_pos haf]
          · rw [if_neg (fun e => haf e.1), if_neg haf]
    · intro a ha
      by_cases h0 : a = 0
      · simp only [prevOf, if_pos h0, PageQueue.withBack]
      · have had : sliceSize ∣ a := by
          rcases List.mem_cons.mp ((List.mem_cons.mp ha).resolve_left h0) with rfl | hm
          · exact hp.dvd
          · exact (haddr a hm).dvd
        simp only [prevOf, if_neg h0, if_true]
        rw [get_backLinked hp hdvd hlt had, if_neg (fun e => absurd e.2.2 (by decide)),
          if_neg (fun e => absurd e.2 (by decide))]
        simp only [and_true]
  · have hperm : (0 :: p :: l).Perm (0 :: (l ++ [p])) :=
      (List.perm_append_singleton p l).symm.cons 0
    exact hperm.nodup_iff.mp hnd
  · have := h.count
    simp only [PageQueue.withBack, List.length_append, List.length_singleton] at this ⊢
    omega

end Push

end Wasmalloc
