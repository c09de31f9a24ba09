import Mathlib.Order.CompletePartialOrder
import Mathlib.Order.Interval.Set.Basic
import Mathlib.Order.Interval.Set.Disjoint
import Mathlib.Data.List.Pairwise
import Mathlib.Data.List.Nodup

/- Sorted maps, and the intervals kept in one.

   A `SortedMap` is a finite map as its entries in increasing order of key. One that holds
   intervals, start to end, that do not meet (`Apart`) tells whether a new interval meets
   any of them by one look: at the last entry that starts below the new end. -/

structure SortedMap (κ ν : Type) [LinearOrder κ] where
  entries : List (κ × ν)
  sorted : entries.Pairwise fun a b => a.1 < b.1

namespace SortedMap

variable {κ ν : Type} [LinearOrder κ] {m : SortedMap κ ν} {k : κ} {v : ν} {e : κ × ν}

instance : Membership (κ × ν) (SortedMap κ ν) := ⟨fun m e => e ∈ m.entries⟩

def empty : SortedMap κ ν := ⟨[], List.Pairwise.nil⟩

def insert (m : SortedMap κ ν) (k : κ) (v : ν) : SortedMap κ ν where
  entries := m.entries.filter (fun e => decide (e.1 < k)) ++
    (k, v) :: m.entries.filter fun e => decide (k < e.1)
  sorted := by
    refine List.pairwise_append.mpr ⟨m.sorted.filter _, List.pairwise_cons.mpr ⟨?_, m.sorted.filter _⟩, ?_⟩
    · exact fun e he => of_decide_eq_true (List.mem_filter.mp he).2
    · intro a ha b hb
      have hak : a.1 < k := of_decide_eq_true (List.mem_filter.mp ha).2
      rcases List.mem_cons.mp hb with rfl | hb
      · exact hak
      · exact hak.trans (of_decide_eq_true (List.mem_filter.mp hb).2)

def erase (m : SortedMap κ ν) (k : κ) : SortedMap κ ν :=
  ⟨m.entries.filter fun e => decide (e.1 ≠ k), m.sorted.filter _⟩

/-- The entry with the greatest key below `k`. -/
def lastBelow (m : SortedMap κ ν) (k : κ) : Option (κ × ν) :=
  (m.entries.filter fun e => decide (e.1 < k)).getLast?

theorem not_mem_empty : e ∉ (empty : SortedMap κ ν) := List.not_mem_nil

theorem mem_insert : e ∈ m.insert k v ↔ e = (k, v) ∨ (e ∈ m ∧ e.1 ≠ k) := by
  show e ∈ m.entries.filter _ ++ _ ↔ e = (k, v) ∨ (e ∈ m.entries ∧ e.1 ≠ k)
  simp only [List.mem_append, List.mem_cons, List.mem_filter, decide_eq_true_eq, ne_iff_lt_or_gt]
  tauto

theorem mem_erase : e ∈ m.erase k ↔ e ∈ m ∧ e.1 ≠ k := by
  show e ∈ m.entries.filter _ ↔ _
  simp only [List.mem_filter, decide_eq_true_eq]
  rfl

theorem nodup (m : SortedMap κ ν) : m.entries.Nodup :=
  m.sorted.imp fun h e => absurd (congrArg Prod.fst e) h.ne

theorem key_inj {d : κ × ν} (hd : d ∈ m) (he : e ∈ m) (hk : d.1 = e.1) : d = e := by
  by_contra hne
  have hkeys : m.entries.Pairwise fun a b => a.1 ≠ b.1 := m.sorted.imp fun h => h.ne
  have : Std.Symm fun a b : κ × ν => a.1 ≠ b.1 := ⟨fun _ _ h => h.symm⟩
  exact hkeys.forall hd he hne hk

theorem insert_perm (h : ∀ d ∈ m, d.1 ≠ k) : (m.insert k v).entries.Perm ((k, v) :: m.entries) := by
  refine (List.perm_ext_iff_of_nodup (nodup _) (List.nodup_cons.mpr ⟨fun hm => h _ hm rfl, m.nodup⟩)).mpr
    fun e => ?_
  rw [List.mem_cons]
  exact mem_insert.trans (or_congr_right ⟨fun hm => hm.1, fun hm => ⟨hm, h e hm⟩⟩)

theorem perm_erase (h : e ∈ m) : m.entries.Perm (e :: (m.erase e.1).entries) := by
  have hout : e ∉ (m.erase e.1).entries := fun hm => (mem_erase.mp hm).2 rfl
  refine (List.perm_ext_iff_of_nodup m.nodup (List.nodup_cons.mpr ⟨hout, nodup _⟩)).mpr fun d => ?_
  rw [List.mem_cons]
  constructor
  · intro hd
    by_cases hk : d.1 = e.1
    · exact Or.inl (key_inj hd h hk)
    · exact Or.inr (mem_erase.mpr ⟨hd, hk⟩)
  · rintro (rfl | hd)
    · exact h
    · exact (mem_erase.mp hd).1

theorem lastBelow_some (h : m.lastBelow k = some e) :
    e ∈ m ∧ e.1 < k ∧ ∀ d ∈ m, d.1 < k → d.1 ≤ e.1 := by
  unfold lastBelow at h
  have hsorted := m.sorted.filter fun e => decide (e.1 < k)
  obtain ⟨init, hinit⟩ := List.getLast?_eq_some_iff.mp h
  have he : e ∈ m.entries.filter fun e => decide (e.1 < k) := by
    rw [hinit]
    exact List.mem_append_right _ List.mem_cons_self
  obtain ⟨hmem, hlt⟩ := List.mem_filter.mp he
  refine ⟨hmem, of_decide_eq_true hlt, fun d hd hdk => ?_⟩
  have hdf : d ∈ m.entries.filter fun e => decide (e.1 < k) :=
    List.mem_filter.mpr ⟨hd, decide_eq_true hdk⟩
  rw [hinit] at hdf hsorted
  rcases List.mem_append.mp hdf with hd' | hd'
  · exact ((List.pairwise_append.mp hsorted).2.2 d hd' e List.mem_cons_self).le
  · rw [List.mem_singleton.mp hd']

theorem lastBelow_none (h : m.lastBelow k = none) : ∀ d ∈ m, ¬ d.1 < k := by
  intro d hd hlt
  have hd' : d ∈ m.entries.filter fun e => decide (e.1 < k) :=
    List.mem_filter.mpr ⟨hd, decide_eq_true hlt⟩
  rw [List.getLast?_eq_none_iff.mp h] at hd'
  exact List.not_mem_nil hd'

/-! ## Intervals -/

/-- The entries are intervals, none empty, that do not meet. -/
structure Apart (m : SortedMap κ κ) : Prop where
  proper : ∀ e ∈ m, e.1 < e.2
  apart : ∀ d ∈ m, ∀ e ∈ m, d.1 < e.1 → d.2 ≤ e.1

variable {m : SortedMap κ κ} {start stop : κ}

theorem empty_apart : (empty : SortedMap κ κ).Apart :=
  ⟨fun _ he => absurd he not_mem_empty, fun _ hd => absurd hd not_mem_empty⟩

theorem Apart.erase (h : m.Apart) : (m.erase k).Apart where
  proper := fun e he => h.proper e (mem_erase.mp he).1
  apart := fun d hd e he => h.apart d (mem_erase.mp hd).1 e (mem_erase.mp he).1

theorem Apart.disjoint (h : m.Apart) {d e : κ × κ} (hd : d ∈ m) (he : e ∈ m) (hne : d ≠ e) :
    Disjoint (Set.Ico d.1 d.2) (Set.Ico e.1 e.2) := by
  rw [Set.Ico_disjoint_Ico]
  rcases lt_trichotomy d.1 e.1 with hlt | heq | hgt
  · exact (min_le_left _ _).trans ((h.apart d hd e he hlt).trans (le_max_right _ _))
  · exact absurd (key_inj hd he heq) hne
  · exact (min_le_right _ _).trans ((h.apart e he d hd hgt).trans (le_max_left _ _))

theorem Apart.pairwise (h : m.Apart) :
    m.entries.Pairwise fun d e => Disjoint (Set.Ico d.1 d.2) (Set.Ico e.1 e.2) :=
  m.sorted.imp_of_mem fun hd he hlt => h.disjoint hd he fun heq => hlt.ne (congrArg Prod.fst heq)

/-- **One look is enough**: an interval meets no entry exactly when the last entry that starts
    below its end has ended by its start. -/
theorem Apart.free_iff (h : m.Apart) (hlt : start < stop) :
    (∀ e, m.lastBelow stop = some e → e.2 ≤ start) ↔
      ∀ e ∈ m, Disjoint (Set.Ico start stop) (Set.Ico e.1 e.2) := by
  constructor
  · intro hlast d hd
    rw [Set.Ico_disjoint_Ico]
    by_cases hds : d.1 < stop
    · obtain ⟨e, he⟩ : ∃ e, m.lastBelow stop = some e := by
        cases hb : m.lastBelow stop with
        | none => exact absurd hds (lastBelow_none hb d hd)
        | some e => exact ⟨e, rfl⟩
      obtain ⟨hem, -, hmax⟩ := lastBelow_some he
      have hd2 : d.2 ≤ start := by
        rcases (hmax d hd hds).lt_or_eq with hde | hde
        · exact (h.apart d hd e hem hde).trans ((h.proper e hem).le.trans (hlast e he))
        · rw [key_inj hd hem hde]
          exact hlast e he
      exact (min_le_right _ _).trans (hd2.trans (le_max_left _ _))
    · exact (min_le_left _ _).trans ((not_lt.mp hds).trans (le_max_right _ _))
  · intro hall e he
    obtain ⟨hem, hes, -⟩ := lastBelow_some he
    by_contra hgt
    have hgt' := not_le.mp hgt
    have := hall e hem
    rw [Set.Ico_disjoint_Ico] at this
    exact absurd this (not_le.mpr (lt_min (max_lt hlt hes) (max_lt hgt' (h.proper e hem))))

theorem Apart.insert (h : m.Apart) (hlt : start < stop)
    (hfree : ∀ e ∈ m, Disjoint (Set.Ico start stop) (Set.Ico e.1 e.2)) :
    (m.insert start stop).Apart ∧ ∀ d ∈ m, d.1 ≠ start := by
  have hside : ∀ e ∈ m, e.2 ≤ start ∨ stop ≤ e.1 := by
    intro e he
    have := hfree e he
    rw [Set.Ico_disjoint_Ico, min_le_iff, le_max_iff, le_max_iff] at this
    rcases this with (h1 | h1) | (h1 | h1)
    · exact absurd h1 (not_le.mpr hlt)
    · exact Or.inr h1
    · exact Or.inl h1
    · exact absurd h1 (not_le.mpr (h.proper e he))
  refine ⟨⟨?_, ?_⟩, fun d hd hk => ?_⟩
  · intro e he
    rcases mem_insert.mp he with rfl | ⟨he, -⟩
    · exact hlt
    · exact h.proper e he
  · intro d hd e he hde
    rcases mem_insert.mp hd with rfl | ⟨hd, -⟩ <;> rcases mem_insert.mp he with rfl | ⟨he, -⟩
    · exact absurd hde (lt_irrefl _)
    · exact (hside e he).resolve_left fun h2 => absurd hde (not_lt.mpr ((h.proper e he).le.trans h2))
    · exact (hside d hd).resolve_right fun h2 => absurd hde (not_lt.mpr (hlt.le.trans h2))
    · exact h.apart d hd e he hde
  · rcases hside d hd with h2 | h2
    · exact absurd (h.proper d hd) (not_lt.mpr (hk ▸ h2))
    · exact absurd hlt (not_lt.mpr (hk ▸ h2))

end SortedMap
