import Mathlib.Data.List.Chain
import Mathlib.Data.List.Nodup

/- Linked lists threaded through two link functions.

   `nx` and `pv` are the forward and backward links of the nodes. A doubly linked
   list with an owner record `o` is a ring: the links lead from `o` through the
   members `l` in order and back to `o` (`Ring`), so the first and last member, and
   the empty list, are no special cases. A singly linked list is a chain that ends
   at a terminator (`Chain`). The edits are stated for any new link functions that
   read as the edit demands on the nodes concerned. -/
namespace Links

variable {α : Type} {nx pv nx' pv' : α → α} {o x : α} {l xs ys : List α}

/-- Consecutive nodes point at each other. -/
def Linked (nx pv : α → α) (l : List α) : Prop :=
  l.IsChain (fun a b => nx a = b ∧ pv b = a)

/-- The members `l` of the list owned by `o`, in forward order. -/
def Ring (nx pv : α → α) (o : α) (l : List α) : Prop := Linked nx pv (o :: (l ++ [o]))

/-- Following `nx` from a node of `l` visits the rest of `l` and ends at `o`. -/
def Chain (nx : α → α) (o : α) (l : List α) : Prop := (l ++ [o]).IsChain (fun a b => nx a = b)

/-! ## Singly linked lists -/

theorem chain_nil : Chain nx o [] := by
  simp [Chain]

theorem chain_cons : Chain nx o (x :: l) ↔ nx x = l.headD o ∧ Chain nx o l := by
  unfold Chain
  cases l with
  | nil => simp
  | cons y l => simp [List.isChain_cons_cons]

theorem Chain.congr (h : Chain nx o l) (hnx : ∀ a ∈ l, nx' a = nx a) : Chain nx' o l := by
  induction l with
  | nil => exact chain_nil
  | cons y l ih =>
    rw [chain_cons] at h ⊢
    refine ⟨?_, ih h.2 (fun a ha => hnx a (List.mem_cons_of_mem y ha))⟩
    rw [hnx y List.mem_cons_self]
    exact h.1

theorem Chain.unique (h : Chain nx o l) : ∀ {l' : List α}, Chain nx o l' → l.headD o = l'.headD o →
    o ∉ l → o ∉ l' → l = l' := by
  induction l with
  | nil =>
    intro l' _ hhead _ ho'
    cases l' with
    | nil => rfl
    | cons y l' => exact absurd (List.mem_cons.mpr (Or.inl hhead)) ho'
  | cons x l ih =>
    intro l' h' hhead ho ho'
    cases l' with
    | nil => exact absurd (List.mem_cons.mpr (Or.inl hhead.symm)) ho
    | cons y l' =>
      obtain rfl : x = y := hhead
      rw [chain_cons] at h h'
      rw [ih h.2 h'.2 (h.1.symm.trans h'.1) (fun hm => ho (List.mem_cons_of_mem x hm))
        fun hm => ho' (List.mem_cons_of_mem x hm)]

theorem Chain.nodup (h : Chain nx o l) (ho : o ∉ l) : l.Nodup := by
  induction l with
  | nil => exact List.nodup_nil
  | cons a l ih =>
    have htail : Chain nx o l := (chain_cons.mp h).2
    refine List.nodup_cons.mpr ⟨fun ha => ?_, ih htail fun hm => ho (List.mem_cons_of_mem a hm)⟩
    -- From its second visit on, `a` would lead to the same nodes as from the first.
    obtain ⟨xs, ys, rfl⟩ := List.append_of_mem ha
    have hagain : Chain nx o (a :: ys) := by
      unfold Chain at htail ⊢
      rw [List.append_assoc] at htail
      exact htail.right_of_append
    have ho' : o ∉ a :: ys := fun hm =>
      ho (List.mem_cons_of_mem a (List.mem_append_right xs hm))
    have hsame : a :: (xs ++ a :: ys) = a :: ys := h.unique hagain rfl ho ho'
    have hlen := congrArg List.length hsame
    simp only [List.length_cons, List.length_append] at hlen
    omega

/-! ## The two ends of a list -/

theorem cons_eq_concat (a : α) (l : List α) : ∃ as z, a :: l = as ++ [z] :=
  ⟨(a :: l).dropLast, (a :: l).getLast (List.cons_ne_nil a l),
    (List.dropLast_append_getLast (List.cons_ne_nil a l)).symm⟩

theorem concat_eq_cons (l : List α) (z : α) : ∃ b bs, l ++ [z] = b :: bs := by
  cases l with
  | nil => exact ⟨z, [], rfl⟩
  | cons y l => exact ⟨y, l ++ [z], rfl⟩

theorem nodup_concat (h : (o :: l).Nodup) : (l ++ [o]).Nodup := by
  have hperm : ([o] ++ l).Perm (l ++ [o]) := List.perm_append_comm
  exact hperm.nodup_iff.mp h

/-! ## Doubly linked lists -/

theorem Linked.congr (h : Linked nx pv l) (hnx : ∀ a ∈ l.dropLast, nx' a = nx a)
    (hpv : ∀ b ∈ l.tail, pv' b = pv b) : Linked nx' pv' l := by
  induction l with
  | nil => exact List.isChain_nil
  | cons a l ih =>
    cases l with
    | nil => exact List.isChain_singleton a
    | cons b l =>
      unfold Linked at h ⊢
      rw [List.isChain_cons_cons] at h ⊢
      obtain ⟨⟨hab, hba⟩, hrest⟩ := h
      refine ⟨⟨?_, ?_⟩, ih hrest ?_ ?_⟩
      · rw [hnx a (by simp), hab]
      · rw [hpv b (by simp), hba]
      · intro c hc
        exact hnx c (by simp only [List.dropLast_cons_cons]; exact List.mem_cons_of_mem a hc)
      · intro c hc
        exact hpv c (by simp only [List.tail_cons] at hc ⊢; exact List.mem_cons_of_mem b hc)

theorem ring_nil : Ring nx pv o [] ↔ nx o = o ∧ pv o = o := by
  simp [Ring, Linked]

theorem Ring.congr (h : Ring nx pv o l) (hnx : ∀ a ∈ o :: l, nx' a = nx a)
    (hpv : ∀ a ∈ o :: l, pv' a = pv a) : Ring nx' pv' o l := by
  refine Linked.congr h ?_ ?_
  · intro a ha
    apply hnx
    rw [← List.cons_append, List.dropLast_concat] at ha
    exact ha
  · intro a ha
    apply hpv
    rw [List.tail_cons] at ha
    rw [List.mem_append, List.mem_singleton] at ha
    exact List.mem_cons.mpr ha.symm

theorem Ring.chain (h : Ring nx pv o l) : Chain nx o l ∧ nx o = l.headD o := by
  unfold Ring Linked at h
  unfold Chain
  cases l with
  | nil =>
    rw [List.nil_append, List.isChain_cons_cons] at h
    exact ⟨List.isChain_singleton o, h.1.1⟩
  | cons x l =>
    rw [List.cons_append, List.isChain_cons_cons] at h
    exact ⟨h.2.imp fun a b hab => hab.1, h.1.1⟩

theorem Ring.unique {l' : List α} (h : Ring nx pv o l) (h' : Ring nx pv o l') (ho : o ∉ l)
    (ho' : o ∉ l') : l = l' :=
  h.chain.1.unique h'.chain.1 (h.chain.2.symm.trans h'.chain.2) ho ho'

/-- A linked list cut in two: both parts, and the links across the cut. -/
theorem linked_append {a b : α} : Linked nx pv ((xs ++ [a]) ++ (b :: ys)) ↔
    Linked nx pv (xs ++ [a]) ∧ Linked nx pv (b :: ys) ∧ nx a = b ∧ pv b = a := by
  unfold Linked
  rw [List.isChain_append]
  simp

/-- The links of a member lead to its neighbours, the owner standing at both ends. -/
theorem Ring.neighbours (h : Ring nx pv o (xs ++ x :: ys)) :
    nx x = ys.headD o ∧ pv x = xs.getLastD o := by
  obtain ⟨as, a, ha⟩ := cons_eq_concat o xs
  obtain ⟨b, bs, hb⟩ := concat_eq_cons ys o
  have hx : Linked nx pv ((as ++ [a]) ++ x :: b :: bs) := by
    rw [← ha, ← hb]
    simpa [Ring] using h
  obtain ⟨-, hright, hax, hxa⟩ := linked_append.mp hx
  have hxb : nx x = b := by
    unfold Linked at hright
    rw [List.isChain_cons_cons] at hright
    exact hright.1.1
  refine ⟨?_, ?_⟩
  · rw [hxb]
    cases ys with
    | nil => simpa using (List.cons.inj hb).1.symm
    | cons y ys => simpa using (List.cons.inj hb).1.symm
  · rw [hxa]
    have hlast : (o :: xs).getLast? = some a := by rw [ha]; simp
    cases xs with
    | nil => simpa using hlast.symm
    | cons z zs =>
      rw [List.getLast?_cons_cons] at hlast
      rw [List.getLastD_eq_getLast?, hlast]
      rfl

theorem Ring.first (h : Ring nx pv o l) : nx o = l.headD o := by
  cases l with
  | nil => exact (ring_nil.mp h).1
  | cons y l =>
    unfold Ring Linked at h
    rw [List.cons_append, List.isChain_cons_cons] at h
    exact h.1.1

theorem Ring.last (h : Ring nx pv o l) : pv o = l.getLastD o := by
  rcases List.eq_nil_or_concat l with rfl | ⟨zs, z, rfl⟩
  · exact (ring_nil.mp h).2
  · unfold Ring at h
    rw [List.concat_eq_append, ← List.cons_append, ← List.cons_append] at h
    obtain ⟨-, -, -, hlast⟩ := linked_append.mp h
    rw [List.concat_eq_append, List.getLastD_concat]
    exact hlast

variable [DecidableEq α]

/-- **Unlinking.** Pointing the neighbours of `x` at each other removes `x`. -/
theorem Ring.unlink (h : Ring nx pv o (xs ++ x :: ys)) (hn : (o :: (xs ++ x :: ys)).Nodup)
    (hnx : ∀ a ∈ o :: (xs ++ ys), nx' a = if a = pv x then nx x else nx a)
    (hpv : ∀ a ∈ o :: (xs ++ ys), pv' a = if a = nx x then pv x else pv a) :
    Ring nx' pv' o (xs ++ ys) := by
  obtain ⟨as, a, ha⟩ := cons_eq_concat o xs
  obtain ⟨b, bs, hb⟩ := concat_eq_cons ys o
  have hx : Linked nx pv ((as ++ [a]) ++ x :: b :: bs) := by
    rw [← ha, ← hb]
    simpa [Ring] using h
  obtain ⟨hleft, hright, hax, hxa⟩ := linked_append.mp hx
  obtain ⟨⟨hxb, -⟩, hbs⟩ : (nx x = b ∧ pv b = x) ∧ Linked nx pv (b :: bs) := by
    unfold Linked at hright ⊢
    rwa [List.isChain_cons_cons] at hright
  -- Both sides of the cut are made of members, and share only the owner.
  have hmemL : ∀ c ∈ as ++ [a], c ∈ o :: (xs ++ ys) := by
    intro c hc
    rw [← ha] at hc
    simp only [List.mem_cons, List.mem_append] at hc ⊢
    tauto
  have hmemR : ∀ c ∈ b :: bs, c ∈ o :: (xs ++ ys) := by
    intro c hc
    rw [← hb] at hc
    simp only [List.mem_cons, List.mem_append, List.not_mem_nil, or_false] at hc ⊢
    tauto
  have hndL : (as ++ [a]).Nodup := by
    rw [← ha]
    exact hn.sublist (by simp)
  have hndR : (b :: bs).Nodup := by
    rw [← hb]
    exact nodup_concat (hn.sublist (by simp))
  have hcross : ∀ c ∈ xs, c ∉ ys ++ [o] := by
    intro c hc hc'
    simp only [List.nodup_cons, List.mem_append, List.mem_cons, not_or, List.nodup_append] at hn
    rcases List.mem_append.mp hc' with hc' | hc'
    · exact hn.2.2.2 c hc c (Or.inr hc') rfl
    · rw [List.mem_singleton] at hc'
      exact hn.1.1 (hc' ▸ hc)
  have hcross' : ∀ c ∈ ys, c ∉ o :: xs := by
    intro c hc hc'
    rcases List.mem_cons.mp hc' with rfl | hc'
    · simp only [List.nodup_cons, List.mem_append, List.mem_cons, not_or] at hn
      exact hn.1.2.2 hc
    · exact hcross c hc' (List.mem_append_left _ hc)
  have key : Linked nx' pv' ((as ++ [a]) ++ (b :: bs)) := by
    refine linked_append.mpr ⟨hleft.congr ?_ ?_, hbs.congr ?_ ?_, ?_, ?_⟩
    · intro c hc
      rw [List.dropLast_concat] at hc
      rw [hnx c (hmemL c (List.mem_append_left _ hc)), if_neg]
      rintro rfl
      rw [hxa] at hc
      exact (List.nodup_append.mp hndL).2.2 a hc a (by simp) rfl
    · intro c hc
      rw [← ha, List.tail_cons] at hc
      rw [hpv c (by simp [hc]), if_neg]
      rintro rfl
      exact hcross _ hc (by rw [hb, hxb]; simp)
    · intro c hc
      have hcy : c ∈ ys := by
        rw [← hb, List.dropLast_concat] at hc
        exact hc
      rw [hnx c (by simp [hcy]), if_neg]
      rintro rfl
      exact hcross' _ hcy (by rw [ha, hxa]; simp)
    · intro c hc
      rw [List.tail_cons] at hc
      rw [hpv c (hmemR c (List.mem_cons_of_mem b hc)), if_neg]
      rintro rfl
      rw [hxb] at hc
      exact (List.nodup_cons.mp hndR).1 hc
    · rw [hnx a (hmemL a (by simp)), if_pos hxa.symm, hxb]
    · rw [hpv b (hmemR b (by simp)), if_pos hxb.symm, hxa]
  unfold Ring
  rw [List.append_assoc, hb, ← List.cons_append, ha]
  exact key

/-- **Linking in front.** `x` goes between the owner and its first member. -/
theorem Ring.link_front (h : Ring nx pv o l) (hn : (o :: x :: l).Nodup)
    (hnx : ∀ a ∈ o :: x :: l, nx' a = if a = o then x else if a = x then nx o else nx a)
    (hpv : ∀ a ∈ o :: x :: l, pv' a = if a = x then o else if a = nx o then x else pv a) :
    Ring nx' pv' o (x :: l) := by
  obtain ⟨b, bs, hb⟩ := concat_eq_cons l o
  have hring : Linked nx pv (o :: b :: bs) := by
    rw [← hb]
    exact h
  obtain ⟨⟨hob, hbo⟩, hbs⟩ : (nx o = b ∧ pv b = o) ∧ Linked nx pv (b :: bs) := by
    unfold Linked at hring ⊢
    rwa [List.isChain_cons_cons] at hring
  have hmem : ∀ c ∈ b :: bs, c ∈ o :: x :: l := by
    intro c hc
    rw [← hb] at hc
    simp only [List.mem_append, List.mem_cons, List.not_mem_nil, or_false] at hc ⊢
    tauto
  have hndR : (b :: bs).Nodup := by
    rw [← hb]
    exact nodup_concat (hn.sublist (by simp))
  have hox : o ≠ x := fun e => (List.nodup_cons.mp hn).1 (by simp [e])
  have hol : o ∉ l := fun e => (List.nodup_cons.mp hn).1 (by simp [e])
  have hxl : x ∉ l := (List.nodup_cons.mp (List.nodup_cons.mp hn).2).1
  have hxb : ∀ c ∈ b :: bs, c ≠ x := by
    intro c hc
    rw [← hb] at hc
    rcases List.mem_append.mp hc with hc | hc
    · exact fun e => hxl (e ▸ hc)
    · rw [List.mem_singleton] at hc
      exact fun e => hox (hc.symm.trans e)
  have key : Linked nx' pv' (o :: x :: b :: bs) := by
    unfold Linked
    rw [List.isChain_cons_cons, List.isChain_cons_cons]
    refine ⟨⟨?_, ?_⟩, ⟨?_, ?_⟩, hbs.congr ?_ ?_⟩
    · rw [hnx o (by simp), if_pos rfl]
    · rw [hpv x (by simp), if_pos rfl]
    · rw [hnx x (by simp), if_neg hox.symm, if_pos rfl, hob]
    · rw [hpv b (hmem b (by simp)), if_neg (hxb b (by simp)), if_pos hob.symm]
    · intro c hc
      have hcl : c ∈ l := by
        rw [← hb, List.dropLast_concat] at hc
        exact hc
      rw [hnx c (by simp [hcl]), if_neg (ne_of_mem_of_not_mem hcl hol),
        if_neg (ne_of_mem_of_not_mem hcl hxl)]
    · intro c hc
      rw [List.tail_cons] at hc
      have hc' : c ∈ b :: bs := List.mem_cons_of_mem b hc
      rw [hpv c (hmem c hc'), if_neg (hxb c hc'), if_neg]
      rintro rfl
      rw [hob] at hc
      exact (List.nodup_cons.mp hndR).1 hc
  unfold Ring
  rw [List.cons_append, hb]
  exact key

/-- **Linking at the back.** `x` goes between the last member and the owner. -/
theorem Ring.link_back (h : Ring nx pv o l) (hn : (o :: x :: l).Nodup)
    (hnx : ∀ a ∈ o :: x :: l, nx' a = if a = x then o else if a = pv o then x else nx a)
    (hpv : ∀ a ∈ o :: x :: l, pv' a = if a = o then x else if a = x then pv o else pv a) :
    Ring nx' pv' o (l ++ [x]) := by
  obtain ⟨as, a, ha⟩ := cons_eq_concat o l
  have hring : Linked nx pv ((as ++ [a]) ++ o :: []) := by
    rw [← ha]
    exact h
  obtain ⟨hleft, -, hao, hoa⟩ := linked_append.mp hring
  have hox : o ≠ x := fun e => (List.nodup_cons.mp hn).1 (by simp [e])
  have hol : o ∉ l := fun e => (List.nodup_cons.mp hn).1 (by simp [e])
  have hxl : x ∉ l := (List.nodup_cons.mp (List.nodup_cons.mp hn).2).1
  have hmem : ∀ c ∈ as ++ [a], c = o ∨ c ∈ l := by
    intro c hc
    rw [← ha] at hc
    exact List.mem_cons.mp hc
  have hne : ∀ c ∈ as ++ [a], c ≠ x := by
    intro c hc e
    rcases hmem c hc with rfl | hc
    · exact hox e
    · exact hxl (e ▸ hc)
  have hin : ∀ c ∈ as ++ [a], c ∈ o :: x :: l := by
    intro c hc
    rcases hmem c hc with rfl | hc <;> simp [*]
  have hndL : (as ++ [a]).Nodup := by
    rw [← ha]
    exact hn.sublist (by simp)
  have key : Linked nx' pv' ((as ++ [a]) ++ x :: [o]) := by
    refine linked_append.mpr ⟨hleft.congr ?_ ?_, ?_, ?_, ?_⟩
    · intro c hc
      rw [List.dropLast_concat] at hc
      have hc' : c ∈ as ++ [a] := List.mem_append_left _ hc
      rw [hnx c (hin c hc'), if_neg (hne c hc'), if_neg]
      rintro rfl
      rw [hoa] at hc
      exact (List.nodup_append.mp hndL).2.2 a hc a (by simp) rfl
    · intro c hc
      rw [← ha, List.tail_cons] at hc
      rw [hpv c (by simp [hc]), if_neg (ne_of_mem_of_not_mem hc hol),
        if_neg (ne_of_mem_of_not_mem hc hxl)]
    · unfold Linked
      rw [List.isChain_cons_cons]
      refine ⟨⟨?_, ?_⟩, List.isChain_singleton o⟩
      · rw [hnx x (by simp), if_pos rfl]
      · rw [hpv o (by simp), if_pos rfl]
    · rw [hnx a (hin a (by simp)), if_neg (hne a (by simp)), if_pos hoa.symm]
    · rw [hpv x (by simp), if_neg hox.symm, if_pos rfl, hoa]
  unfold Ring
  rw [List.append_assoc, ← List.cons_append, ha]
  exact key

end Links
