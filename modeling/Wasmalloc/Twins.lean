import Wasmalloc.Lib.Agree
import Wasmalloc.HeapShelves

/- Two heaps that differ in bytes the allocator does not own.

   `Twin S h k`: the heaps `h` and `k` hold the same but for their bytes, and these agree
   on `S`. An operation that reads inside `S` only answers the same in both and keeps them
   twins, however it stores. The walks over queues stay inside `S` because the links of
   the pages they start from lead to such pages (`Closed`). -/
namespace Wasmalloc
open ByteMem

variable [Build]

/-! ## Pages -/

namespace Page
variable {b c : Bytes} {S : Set Nat} {p a : Nat}

/-- The bytes of the fields of a header; the padding is not among them. -/
def headerBytes (p : Nat) : Set Nat :=
  {x | ∃ f : Field, x ∈ Set.Ico (p + f.offset) (p + f.offset + f.width)}

/-- The bytes of the link of a free block. -/
def linkBytes (a : Nat) : Set Nat := Set.Ico a (a + usizeBytes)

theorem field_subset (p : Nat) (f : Field) :
    Set.Ico (p + f.offset) (p + f.offset + f.width) ⊆ headerBytes p := fun _ hx => ⟨f, hx⟩

theorem get_eqOn (h : Set.EqOn b c S) (hp : headerBytes p ⊆ S) (f : Field) :
    get c p f = get b p f :=
  readLE_eqOn h ((field_subset p f).trans hp)

theorem loadWord_eqOn (h : Set.EqOn b c S) (ha : linkBytes a ⊆ S) : loadWord c a = loadWord b a :=
  readLE_eqOn h ha

theorem eqOn_set (h : Set.EqOn b c S) {f : Field} {v : Nat} :
    Set.EqOn (set b p f v) (set c p f v) S :=
  (eqOn_writeLE h).mono Set.subset_union_left

theorem eqOn_storeWord (h : Set.EqOn b c S) {v : Nat} :
    Set.EqOn (storeWord b a v) (storeWord c a v) (S ∪ linkBytes a) :=
  eqOn_writeLE h

theorem eqOn_write (h : Set.EqOn b c S) (header : Field → Nat) :
    Set.EqOn (write b p header) (write c p header) (S ∪ headerBytes p) := by
  have hfold : ∀ (l : List Field) (b c : Bytes) (S : Set Nat), Set.EqOn b c S →
      Set.EqOn (l.foldl (fun b f => set b p f (header f)) b)
        (l.foldl (fun b f => set b p f (header f)) c)
        (S ∪ {x | ∃ f ∈ l, x ∈ Set.Ico (p + f.offset) (p + f.offset + f.width)}) := by
    intro l
    induction l with
    | nil =>
      intro b c S hb x hx
      refine hb (hx.resolve_right ?_)
      rintro ⟨f, hf, -⟩
      exact absurd hf List.not_mem_nil
    | cons g l ih =>
      intro b c S hb
      refine (ih _ _ _ (eqOn_writeLE hb)).mono ?_
      rintro x (hx | ⟨f, hf, hx⟩)
      · exact Or.inl (Or.inl hx)
      · rcases List.mem_cons.mp hf with rfl | hf
        · exact Or.inl (Or.inr hx)
        · exact Or.inr ⟨f, hf, hx⟩
  refine (hfold Field.all b c S h).mono ?_
  rintro x (hx | ⟨f, hx⟩)
  · exact Or.inl hx
  · exact Or.inr ⟨f, f.mem_all, hx⟩

theorem asks_eqOn (h : Set.EqOn b c S) (hp : headerBytes p ⊆ S) :
    hasFree c p = hasFree b p ∧ isExpandable c p = isExpandable b p ∧ allFree c p = allFree b p ∧
      kind c p = kind b p ∧ inFullQueue c p = inFullQueue b p ∧ mostlyUsed c p = mostlyUsed b p ∧
      needsTransition c p = needsTransition b p := by
  simp only [hasFree, isExpandable, allFree, kind, inFullQueue, mostlyUsed, needsTransition,
    get_eqOn h hp, and_self]

/-- **Popping** reads the header and the link of the first free block. -/
theorem pop_eqOn (h : Set.EqOn b c S) (hp : headerBytes p ⊆ S)
    (hlink : get b p .free ≠ 0 → linkBytes (get b p .free) ⊆ S) :
    (pop c p).1 = (pop b p).1 ∧ Set.EqOn (pop b p).2 (pop c p).2 S := by
  unfold pop
  simp only [get_eqOn h hp]
  split
  · exact ⟨rfl, h⟩
  · rename_i hfree
    simp only [loadWord_eqOn h (hlink hfree), get_eqOn (eqOn_set h) hp]
    exact ⟨trivial, eqOn_set (eqOn_set h)⟩

/-- **Pushing** reads the header only, and afterwards the two agree on the new link. -/
theorem push_eqOn (h : Set.EqOn b c S) (hp : headerBytes p ⊆ S) :
    Set.EqOn (push b p a) (push c p a) (S ∪ linkBytes a) := by
  unfold push
  simp only [get_eqOn h hp]
  exact eqOn_set (eqOn_set (eqOn_set (eqOn_storeWord h)))

theorem linkBlocks_eqOn {s : Nat} (last fuel : Nat) : ∀ {b c : Bytes} {S : Set Nat} {a : Nat},
    Set.EqOn b c S → Set.EqOn (linkBlocks s last fuel b a) (linkBlocks s last fuel c a)
      (S ∪ {x | ∃ i < fuel, a + i * s < last ∧ x ∈ linkBytes (a + i * s)}) := by
  induction fuel with
  | zero =>
    intro b c S a h x hx
    refine h (hx.resolve_right ?_)
    rintro ⟨i, hi, -⟩
    exact absurd hi (Nat.not_lt_zero i)
  | succ fuel ih =>
    intro b c S a h
    unfold linkBlocks
    split
    · refine (ih (eqOn_storeWord h)).mono ?_
      rintro x (hx | ⟨i, hi, hlt, hx⟩)
      · exact Or.inl (Or.inl hx)
      · cases i with
        | zero =>
          rw [Nat.zero_mul] at hx
          exact Or.inl (Or.inr hx)
        | succ i =>
          have hnext : a + (i + 1) * s = a + s + i * s := by ring
          rw [hnext] at hlt hx
          exact Or.inr ⟨i, Nat.lt_of_succ_lt_succ hi, hlt, hx⟩
    · rename_i hend
      intro x hx
      refine h (hx.resolve_right ?_)
      rintro ⟨i, -, hlt, -⟩
      exact hend (lt_of_le_of_lt (Nat.le_add_right _ _) hlt)

/-- **Extending** reads the header only, and afterwards the two agree on the new links. -/
theorem extend_eqOn (h : Set.EqOn b c S) (hp : headerBytes p ⊆ S) :
    (extend c p).1 = (extend b p).1 ∧ Set.EqOn (extend b p).2 (extend c p).2
      (S ∪ {x | ∃ i, get b p .capacity ≤ i ∧ i < get (extend b p).2 p .capacity ∧
        x ∈ linkBytes (p + get b p .blockStart + i * get b p .blockSize)}) := by
  have hS : ∀ T : Set Nat, headerBytes p ⊆ S ∪ T := fun T => hp.trans Set.subset_union_left
  unfold extend
  simp only [get_eqOn h hp]
  split
  · refine ⟨rfl, ?_⟩
    intro x hx
    refine h (hx.resolve_right ?_)
    rintro ⟨i, hlo, hhi, -⟩
    exact absurd hhi (Nat.not_lt.mpr hlo)
  · rename_i hroom
    dsimp only
    generalize hcount : min (get b p .reserved - get b p .capacity)
      (max (maxExtendSize / max (get b p .blockSize) 1) 1) = count
    generalize get b p .blockSize = s
    generalize hcap : get b p .capacity = cap at *
    generalize hfirst : p + get b p .blockStart + cap * s = first
    have hlinks := linkBlocks_eqOn (s := s) (first + (count - 1) * s) count (a := first) h
    have hfit : cap + count < 256 ^ Field.capacity.width := by
      have hres : get b p .reserved < 256 ^ Field.reserved.width := get_lt _ _ _
      have hwidth : Field.reserved.width = Field.capacity.width := rfl
      rw [hwidth] at hres
      omega
    rw [get_eqOn hlinks (hS _), get_set_same hfit]
    refine ⟨rfl, (eqOn_set (eqOn_set (eqOn_storeWord hlinks))).mono ?_⟩
    rintro x (hx | ⟨i, hlo, hhi, hx⟩)
    · exact Or.inl (Or.inl hx)
    obtain ⟨j, rfl⟩ := Nat.exists_eq_add_of_le hlo
    have hblock : p + get b p .blockStart + (cap + j) * s = first + j * s := by
      rw [← hfirst]
      ring
    rw [hblock] at hx
    by_cases hj : j = count - 1
    · rw [hj] at hx
      exact Or.inr hx
    · rcases Nat.eq_zero_or_pos s with rfl | hs
      · exact Or.inr hx
      · refine Or.inl (Or.inr ⟨j, by omega, ?_, hx⟩)
        exact Nat.add_lt_add_left (Nat.mul_lt_mul_of_pos_right (by omega) hs) _

end Page

/-! ## Heaps -/

variable {M : Type} {S : Set Nat} {h k : Heap M} {p qi : Nat}

/-- The same heap, over bytes that agree on `S`. -/
def Twin (S : Set Nat) (h k : Heap M) : Prop :=
  ∃ c l, k = { h with bytes := c, growLog := l } ∧ Set.EqOn h.bytes c S

/-- The same answer, and states that are related. -/
def SameAnswer {α σ : Type} (R : σ → σ → Prop) (r r' : α × σ) : Prop := r'.1 = r.1 ∧ R r.2 r'.2

omit [Build] in
theorem SameAnswer.split {α σ : Type} {R : σ → σ → Prop} {r r' : α × σ} (h : SameAnswer R r r') :
    ∃ a s t, r = (a, s) ∧ r' = (a, t) ∧ R s t :=
  ⟨r.1, r.2, r'.2, rfl, Prod.ext h.1 rfl, h.2⟩

omit [Build] in
theorem Twin.mono {T : Set Nat} (ht : Twin S h k) (hT : T ⊆ S) : Twin T h k := by
  obtain ⟨c, l, hk, hb⟩ := ht
  exact ⟨c, l, hk, hb.mono hT⟩

omit [Build] in
theorem Twin.withBytes {T : Set Nat} {b c : Bytes} (ht : Twin S h k) (hb : Set.EqOn b c T) :
    Twin T { h with bytes := b } { k with bytes := c } := by
  obtain ⟨d, l, rfl, -⟩ := ht
  exact ⟨c, l, rfl, hb⟩

omit [Build] in
theorem Twin.bytes (ht : Twin S h k) : Set.EqOn h.bytes k.bytes S := by
  obtain ⟨c, l, rfl, hb⟩ := ht
  exact hb

theorem Twin.field (ht : Twin S h k) (hp : Page.headerBytes p ⊆ S) (f : Page.Field) :
    k.field p f = h.field p f :=
  Page.get_eqOn ht.bytes hp f

omit [Build] in
/-- What does not look at the bytes is the same in both. -/
theorem Twin.rest (ht : Twin S h k) : k.mem = h.mem ∧ k.slices = h.slices ∧ k.policy = h.policy ∧
    k.direct = h.direct ∧ k.queues = h.queues ∧ k.retiredMin = h.retiredMin ∧
    k.retiredMax = h.retiredMax ∧ k.initialized = h.initialized ∧
    k.genericCount = h.genericCount := by
  obtain ⟨c, l, rfl, -⟩ := ht
  exact ⟨rfl, rfl, rfl, rfl, rfl, rfl, rfl, rfl, rfl⟩

theorem Twin.setField (ht : Twin S h k) (f : Page.Field) (v : Nat) :
    Twin S (h.setField p f v) (k.setField p f v) := by
  obtain ⟨c, l, rfl, hb⟩ := ht
  exact ⟨Page.set c p f v, l, rfl, Page.eqOn_set hb⟩

/-- **Unlinking** a page reads its links. -/
theorem Twin.remove (ht : Twin S h k) (hp : Page.headerBytes p ⊆ S) :
    Twin S (h.remove qi p) (k.remove qi p) := by
  obtain ⟨c, l, rfl, hb⟩ := ht
  refine ⟨unlinked c p, l, ?_, ?_⟩
  · rw [Heap.remove_eq, Heap.remove_eq]
    simp only [Heap.field, Page.get_eqOn hb hp]
    rfl
  · rw [Heap.remove_eq]
    simp only [unlinked, Page.get_eqOn hb hp]
    refine Page.eqOn_set (Page.eqOn_set (eqOn_ite (Page.eqOn_set (eqOn_ite ?_ hb)) (eqOn_ite ?_ hb)))
    · exact Page.eqOn_set hb
    · exact Page.eqOn_set hb

theorem Twin.pushFront (qi : Nat) (ht : Twin S h k) : Twin S (h.pushFront qi p) (k.pushFront qi p) := by
  obtain ⟨c, l, rfl, hb⟩ := ht
  refine ⟨frontLinked c p (h.queues (queueIndex qi)).first, l, ?_, ?_⟩
  · rw [Heap.pushFront_eq, Heap.pushFront_eq]
    rfl
  · rw [Heap.pushFront_eq]
    have hlinked := Page.eqOn_set (f := .prev) (v := 0) (p := p)
      (Page.eqOn_set (f := .next) (v := (h.queues (queueIndex qi)).first) (p := p) hb)
    exact eqOn_ite (Page.eqOn_set hlinked) hlinked

theorem Twin.pushBack (ht : Twin S h k) : Twin S (h.pushBack qi p) (k.pushBack qi p) := by
  obtain ⟨c, l, rfl, hb⟩ := ht
  refine ⟨backLinked c p (h.queues (queueIndex qi)).last, l, ?_, ?_⟩
  · rw [Heap.pushBack_eq, Heap.pushBack_eq]
    rfl
  · rw [Heap.pushBack_eq]
    have hlinked := Page.eqOn_set (f := .next) (v := 0) (p := p)
      (Page.eqOn_set (f := .prev) (v := (h.queues (queueIndex qi)).last) (p := p) hb)
    exact eqOn_ite (Page.eqOn_set hlinked) hlinked

theorem Twin.moveToFront (ht : Twin S h k) (hp : Page.headerBytes p ⊆ S) :
    Twin S (h.moveToFront qi p) (k.moveToFront qi p) := by
  unfold Heap.moveToFront
  rw [ht.rest.2.2.2.2.1]
  split
  · exact ht
  · exact (ht.remove hp).pushFront _

theorem Twin.setInFullQueue (ht : Twin S h k) (hp : Page.headerBytes p ⊆ S) (inFull : Bool) :
    Twin S (h.setInFullQueue p inFull) (k.setInFullQueue p inFull) := by
  obtain ⟨c, l, rfl, hb⟩ := ht
  refine ⟨Page.setInFullQueue c p inFull, l, rfl, ?_⟩
  simp only [Heap.setInFullQueue, Page.setInFullQueue, Page.get_eqOn hb hp]
  exact eqOn_ite (Page.eqOn_set hb) (Page.eqOn_set hb)

theorem Twin.moveToFull (ht : Twin S h k) (hp : Page.headerBytes p ⊆ S) :
    Twin S (h.moveToFull qi p) (k.moveToFull qi p) :=
  ((ht.remove hp).setInFullQueue hp true).pushBack

theorem Twin.unfull (ht : Twin S h k) (hp : Page.headerBytes p ⊆ S) :
    Twin S (h.unfull p) (k.unfull p) := by
  have hremoved : Twin S (h.remove fullQueue p) (k.remove fullQueue p) := ht.remove hp
  have hflagged := hremoved.setInFullQueue hp false
  unfold Heap.unfull
  simp only [hflagged.field hp]
  exact hflagged.pushBack

theorem Twin.freePage (ht : Twin S h k) (hp : Page.headerBytes p ⊆ S) :
    Twin S (h.freePage p qi) (k.freePage p qi) := by
  have hr : Twin S (h.remove qi p) (k.remove qi p) := ht.remove hp
  unfold Heap.freePage
  generalize h.remove qi p = h1 at hr ⊢
  generalize k.remove qi p = k1 at hr ⊢
  have hkind := (Page.asks_eqOn hr.bytes hp).2.2.2.1
  obtain ⟨c, l, rfl, hb⟩ := hr
  dsimp only at hkind ⊢
  rw [hkind]
  exact ⟨c, l, rfl, hb⟩

/-- **Retiring** a page, or releasing it, reads its header. -/
theorem Twin.retire (ht : Twin S h k) (hp : Page.headerBytes p ⊆ S) :
    Twin S (h.retire p) (k.retire p) := by
  unfold Heap.retire
  simp only [ht.field hp, ht.rest]
  split
  · obtain ⟨c, l, hk, hb⟩ := ht.setField (p := p) .retireExpire
      (if h.field p .blockSize ≤ smallMaxObjSize then retireCycles else retireCycles / 4)
    rw [hk]
    exact ⟨c, l, rfl, hb⟩
  · exact ht.freePage hp

/-! ## Walks -/

/-- The links of the pages `P`, and the ends of the queues, lead to pages of `P` or nowhere. -/
structure Closed (P : Set Nat) (h : Heap M) : Prop where
  addr : ∀ p ∈ P, PageAddr p
  link : ∀ p ∈ P, ∀ f, f = .next ∨ f = .prev → h.field p f ∈ insert 0 P
  ends : ∀ q < queueCount, (h.queues q).first ∈ insert 0 P ∧ (h.queues q).last ∈ insert 0 P

section Closed
variable {P : Set Nat} {cur : Nat}

omit [Build] in
theorem queueIndex_lt (qi : Nat) : queueIndex qi < queueCount := by
  have hpos : 0 < queueCount := by
    rw [queueCount_eq]
    decide
  exact lt_of_le_of_lt Nat.and_le_right (Nat.sub_lt hpos (by decide))

theorem Closed.mem_dvd (hc : Closed P h) {x : Nat} (hx : x ∈ insert 0 P) :
    sliceSize ∣ x ∧ x < 256 ^ usizeBytes := by
  rcases hx with rfl | hx
  · exact ⟨dvd_zero _, word_pos⟩
  · exact ⟨(hc.addr x hx).dvd, (hc.addr x hx).lt⟩

theorem Closed.edit {h' : Heap M} {q : PageQueue} (hc : Closed P h)
    (hlink : ∀ x ∈ P, ∀ f, f = .next ∨ f = .prev → h'.field x f ∈ insert 0 P)
    (hqueues : h'.queues = Function.update h.queues qi q)
    (hends : q.first ∈ insert 0 P ∧ q.last ∈ insert 0 P) : Closed P h' where
  addr := hc.addr
  link := hlink
  ends := fun r hr => by
    rw [hqueues]
    by_cases he : r = qi
    · rw [he, Function.update_self]
      exact hends
    · rw [Function.update_of_ne he]
      exact hc.ends r hr

theorem Closed.setField (hc : Closed P h) (hp : p ∈ P) {f : Page.Field} {v : Nat} (h1 : f ≠ .next)
    (h2 : f ≠ .prev) (hv : v < 256 ^ f.width) : Closed P (h.setField p f v) where
  addr := hc.addr
  link := fun x hx f' hf' => by
    have hne : f' ≠ f := fun e => hf'.elim (fun e' => h1 (e ▸ e')) fun e' => h2 (e ▸ e')
    have hget : (h.setField p f v).field x f' = h.field x f' :=
      (get_setField (hc.addr p hp) (hc.addr x hx) hv).trans (if_neg fun e => hne e.2)
    rw [hget]
    exact hc.link x hx f' hf'
  ends := hc.ends

theorem Closed.remove (hc : Closed P h) (hp : p ∈ P) : Closed P (h.remove qi p) := by
  have haddr := hc.addr p hp
  have hnext : h.field p .next ∈ insert 0 P := hc.link p hp _ (Or.inl rfl)
  have hprev : h.field p .prev ∈ insert 0 P := hc.link p hp _ (Or.inr rfl)
  obtain ⟨hfirst, hlast⟩ := hc.ends _ (queueIndex_lt qi)
  rw [Heap.remove_eq]
  refine hc.edit (fun x hx f hf => ?_) rfl ⟨?_, ?_⟩
  · have hget := get_unlinked (b := h.bytes) haddr.dvd (hc.mem_dvd hnext).1 (hc.mem_dvd hprev).1
      (hc.addr x hx).dvd f
    show Page.get (unlinked h.bytes p) x f ∈ insert 0 P
    rw [hget]
    split_ifs
    · exact Or.inl rfl
    · exact hnext
    · exact hprev
    · exact hc.link x hx f hf
  · show (if _ = p then _ else _) ∈ insert 0 P
    split
    · exact hnext
    · exact hfirst
  · show (if _ = p then _ else _) ∈ insert 0 P
    split
    · exact hprev
    · exact hlast

theorem Closed.pushBack (hc : Closed P h) (hp : p ∈ P) : Closed P (h.pushBack qi p) := by
  obtain ⟨hfirst, hlast⟩ := hc.ends _ (queueIndex_lt qi)
  obtain ⟨hdvd, hlt⟩ := hc.mem_dvd hlast
  rw [Heap.pushBack_eq]
  refine hc.edit (fun x hx f hf => ?_) rfl ⟨?_, Or.inr hp⟩
  · have hget := get_backLinked (b := h.bytes) (hc.addr p hp) hdvd hlt (hc.addr x hx).dvd f
    show Page.get (backLinked h.bytes p _) x f ∈ insert 0 P
    rw [hget]
    split_ifs
    · exact Or.inr hp
    · exact Or.inl rfl
    · exact hlast
    · exact hc.link x hx f hf
  · show (if _ = 0 then _ else _) ∈ insert 0 P
    split
    · exact Or.inr hp
    · exact hfirst

theorem Closed.freePage (hc : Closed P h) (hp : p ∈ P) : Closed P (h.freePage p qi) :=
  let hr : Closed P (h.remove qi p) := hc.remove hp
  ⟨hr.addr, hr.link, hr.ends⟩

theorem Closed.moveToFull (hc : Closed P h) (hp : p ∈ P) : Closed P (h.moveToFull qi p) := by
  have hr : Closed P (h.remove qi p) := hc.remove hp
  have hflags : Page.get (h.remove qi p).bytes p .flags ||| flagInFullQueue <
      256 ^ Page.Field.flags.width :=
    Nat.or_lt_two_pow (n := 8) (Page.get_lt _ _ _) (by decide)
  exact (hr.setField hp (by decide) (by decide) hflags).pushBack hp

/-- The pages whose headers lie in `S`, and the twins to walk. -/
structure Walk (P S : Set Nat) (h k : Heap M) : Prop where
  closed : Closed P h
  headers : ∀ p ∈ P, Page.headerBytes p ⊆ S
  twin : Twin S h k

variable {range : Nat × Nat}

theorem Walk.setRetire (w : Walk P S h k) (hp : p ∈ P) {v : Nat} (hv : v < 256) :
    Walk P S (h.setField p .retireExpire v) (k.setField p .retireExpire v) :=
  ⟨w.closed.setField hp (by decide) (by decide) hv, w.headers, w.twin.setField _ _⟩

theorem Walk.freePage (w : Walk P S h k) (hp : p ∈ P) :
    Walk P S (h.freePage p qi) (k.freePage p qi) :=
  ⟨w.closed.freePage hp, w.headers, w.twin.freePage (w.headers p hp)⟩

theorem Walk.agePage (qi : Nat) (range : Nat × Nat) (w : Walk P S h k) (hp : cur ∈ P) :
    (k.agePage qi cur range).2 = (h.agePage qi cur range).2 ∧
      Walk P S (h.agePage qi cur range).1 (k.agePage qi cur range).1 := by
  have hget := w.twin.field (w.headers cur hp)
  have hfree := (Page.asks_eqOn w.twin.bytes (w.headers cur hp)).2.2.1
  have hlt : h.field cur .retireExpire - 1 < 256 := by
    have : h.field cur .retireExpire < 256 := Page.get_lt h.bytes cur .retireExpire
    omega
  have wset := w.setRetire hp hlt
  unfold Heap.agePage
  simp only [hget, hfree, wset.twin.field (w.headers cur hp)]
  split_ifs
  · exact ⟨rfl, wset.freePage hp⟩
  · exact ⟨rfl, wset⟩
  · exact ⟨rfl, w.setRetire hp (by decide)⟩
  · exact ⟨rfl, w⟩

theorem Walk.collectQueue (qi left : Nat) : ∀ {h k : Heap M} {range : Nat × Nat} {cur : Nat},
    Walk P S h k → cur ∈ insert 0 P →
    (Heap.collectQueue qi left (k, range) cur).2 = (Heap.collectQueue qi left (h, range) cur).2 ∧
      Walk P S (Heap.collectQueue qi left (h, range) cur).1
        (Heap.collectQueue qi left (k, range) cur).1 := by
  induction left with
  | zero => exact fun w _ => ⟨rfl, w⟩
  | succ left ih =>
    intro h k range cur w hcur
    rcases hcur with rfl | hcur
    · exact ⟨rfl, w⟩
    have h0 : cur ≠ 0 := Nat.pos_iff_ne_zero.mp (w.closed.addr cur hcur).pos
    obtain ⟨hrange, wage⟩ := w.agePage qi range hcur
    rw [collectQueue_succ qi left h range h0, collectQueue_succ qi left k range h0,
      w.twin.field (w.headers cur hcur)]
    generalize h.agePage qi cur range = s at *
    generalize k.agePage qi cur range = t at *
    obtain ⟨t1, t2⟩ := t
    obtain rfl : t2 = s.2 := hrange
    exact ih wage (w.closed.link cur hcur _ (Or.inl rfl))

/-- **The aging walk.** -/
theorem Walk.collectRetired (w : Walk P S h k) : Twin S h.collectRetired k.collectRetired := by
  have hfold : ∀ (l : List Nat) {s t : Heap M × Nat × Nat}, t.2 = s.2 → Walk P S s.1 t.1 →
      let walk := fun (s : Heap M × Nat × Nat) qi =>
        Heap.collectQueue qi retireMaxPages s (s.1.queues (queueIndex qi)).first
      (l.foldl walk t).2 = (l.foldl walk s).2 ∧ Walk P S (l.foldl walk s).1 (l.foldl walk t).1 := by
    intro l
    induction l with
    | nil => exact fun hr w => ⟨hr, w⟩
    | cons qi l ih =>
      rintro ⟨s1, s2⟩ ⟨t1, t2⟩ hr w
      obtain rfl : t2 = s2 := hr
      have hqueues : t1.queues = s1.queues := w.twin.rest.2.2.2.2.1
      obtain ⟨hrange, wq⟩ := w.collectQueue qi retireMaxPages
        (w.closed.ends _ (queueIndex_lt qi)).1
      simp only [List.foldl_cons, hqueues]
      exact ih hrange wq
  have hfinish : ∀ {s t : Heap M × Nat × Nat}, t.2 = s.2 → Twin S s.1 t.1 →
      Twin S { s.1 with retiredMin := s.2.1, retiredMax := s.2.2, collections := s.1.collections + 1 }
        { t.1 with retiredMin := t.2.1, retiredMax := t.2.2, collections := t.1.collections + 1 } := by
    rintro ⟨s1, s2⟩ ⟨t1, t2⟩ hr ⟨c, l, ht, hb⟩
    obtain rfl : t2 = s2 := hr
    obtain rfl : t1 = _ := ht
    exact ⟨c, l, rfl, hb⟩
  unfold Heap.collectRetired
  simp only [w.twin.rest]
  split
  · obtain ⟨hrange, wl⟩ := hfold (List.range' h.retiredMin (min h.retiredMax maxBin + 1 - h.retiredMin))
      (s := (h, queueCount, 0)) (t := (k, queueCount, 0)) rfl w
    exact hfinish hrange wl.twin
  · exact hfinish (s := (h, queueCount, 0)) (t := (k, queueCount, 0)) rfl w.twin

/-! ## Release -/

theorem Walk.releaseQueue (left : Nat) : ∀ {h k : Heap M} {cur : Nat}, Walk P S h k →
    cur ∈ insert 0 P →
    Walk P S (Heap.releaseQueue qi left h cur) (Heap.releaseQueue qi left k cur) := by
  induction left with
  | zero => exact fun w _ => w
  | succ left ih =>
    intro h k cur w hcur
    rcases hcur with rfl | hcur
    · exact w
    have h0 : cur ≠ 0 := Nat.pos_iff_ne_zero.mp (w.closed.addr cur hcur).pos
    have hget := w.twin.field (w.headers cur hcur)
    have hfree := (Page.asks_eqOn w.twin.bytes (w.headers cur hcur)).2.2.1
    have hnext := w.closed.link cur hcur .next (Or.inl rfl)
    rw [Heap.releaseQueue, Heap.releaseQueue, if_neg h0, if_neg h0]
    simp only [hget, hfree]
    split_ifs
    · exact ih (w.freePage hcur) hnext
    · exact ih (w.setRetire hcur (by decide)) hnext
    · exact ih w hnext

theorem Walk.releasePending (left : Nat) : ∀ {h k : Heap M} (pending : Words.U64), Walk P S h k →
    Walk P S (Heap.releasePending left h pending) (Heap.releasePending left k pending) := by
  induction left with
  | zero => exact fun _ w => w
  | succ left ih =>
    intro h k pending w
    have hqueues : k.queues = h.queues := w.twin.rest.2.2.2.2.1
    rw [Heap.releasePending, Heap.releasePending, hqueues]
    split_ifs
    · exact w
    · exact ih _ (w.releaseQueue _ (w.closed.ends _ (queueIndex_lt _)).1)

/-- **The release of the empty pages.** -/
theorem Walk.releaseEmptyPages (w : Walk P S h k) :
    Twin S h.releaseEmptyPages k.releaseEmptyPages := by
  have hocc : k.occupied = h.occupied := by
    obtain ⟨c, l, rfl, -⟩ := w.twin
    rfl
  obtain ⟨c, l, hk, hb⟩ := (w.releasePending 64 (h.occupied &&& binQueueBits)).twin
  unfold Heap.releaseEmptyPages
  rw [hocc, hk]
  exact ⟨c, l, rfl, hb⟩

/-! ## The candidate search -/

theorem Walk.moveToFull (w : Walk P S h k) (hp : p ∈ P) :
    Walk P S (h.moveToFull qi p) (k.moveToFull qi p) :=
  ⟨w.closed.moveToFull hp, w.headers, w.twin.moveToFull (w.headers p hp)⟩

theorem Walk.findCandidate (qi left : Nat) : ∀ {h k : Heap M} {candidate cur : Nat} {limit : Int},
    Walk P S h k → candidate ∈ insert 0 P → cur ∈ insert 0 P →
    (Heap.findCandidate qi left k candidate limit cur).2 =
        (Heap.findCandidate qi left h candidate limit cur).2 ∧
      Twin S (Heap.findCandidate qi left h candidate limit cur).1
        (Heap.findCandidate qi left k candidate limit cur).1 := by
  induction left with
  | zero => exact fun w _ _ => ⟨rfl, w.twin⟩
  | succ left ih =>
    intro h k candidate cur limit w hcand hcur
    rcases hcur with rfl | hcur
    · exact ⟨rfl, w.twin⟩
    have h0 : cur ≠ 0 := Nat.pos_iff_ne_zero.mp (w.closed.addr cur hcur).pos
    have hget := w.twin.field (w.headers cur hcur)
    obtain ⟨hfree, hexp, -, -, -, hmost, -⟩ := Page.asks_eqOn w.twin.bytes (w.headers cur hcur)
    have hnext := w.closed.link cur hcur .next (Or.inl rfl)
    rw [Heap.findCandidate, Heap.findCandidate, if_neg h0, if_neg h0]
    simp only [hget, hfree, hexp, hmost]
    split
    · exact ih ((w.setRetire hcur (by decide)).moveToFull hcur) hcand hnext
    · have hend : ∀ {c : Nat} {n : Int}, c ∈ insert 0 P →
          let stop := Page.hasFree h.bytes cur || decide (n ≤ 0)
          let next := h.field cur .next
          SameAnswer (Twin S)
            (if stop then (h, c) else Heap.findCandidate qi left h c (n - 1) next).swap
            (if stop then (k, c) else Heap.findCandidate qi left k c (n - 1) next).swap := by
        intro c n hc
        dsimp only
        split
        · exact ⟨rfl, w.twin⟩
        · exact ih w hc hnext
      rcases hcand with rfl | hcand
      · exact hend (Or.inr hcur)
      · have hne : candidate ≠ 0 := Nat.pos_iff_ne_zero.mp (w.closed.addr candidate hcand).pos
        simp only [w.twin.field (w.headers candidate hcand), if_neg hne]
        refine hend ?_
        split
        · exact Or.inr hcur
        · exact Or.inr hcand

end Closed

end Wasmalloc
