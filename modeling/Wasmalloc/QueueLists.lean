import Wasmalloc.Queues

/- The queues of a heap as lists.

   What the queues are for: each is a list of pages. `Represents h lists` says that the
   queue records and the links in the headers hold the lists, that the counts are their
   lengths, and that the direct table and the occupancy word agree with their heads. The
   link primitives are first put in closed form (`remove_eq`, `pushFront_eq`,
   `pushBack_eq`); on the lists they are deletion, cons and append, and the three moves
   are made of these (`queue_ops_refine`). -/
namespace Wasmalloc
open ByteMem Words

variable [Build]

/-! ## Indices -/

section Indices
omit [Build]

theorem queueCount_eq : queueCount = 64 := by decide +kernel

theorem queueIndex_of_lt {qi : Nat} (h : qi < queueCount) : queueIndex qi = qi := by
  unfold queueIndex
  rw [queueCount_eq] at h ⊢
  have hmask := Nat.and_two_pow_sub_one_eq_mod qi 6
  rw [show (2 : Nat) ^ 6 - 1 = 64 - 1 by decide] at hmask
  rw [hmask]
  exact Nat.mod_eq_of_lt h

theorem directRange_iff : ∀ b < 61, 1 ≤ b → ∀ i < directEntries,
    ((directRange b).1 ≤ i ∧ i ≤ (directRange b).2 ↔ bin (i * word) = b) := by decide +kernel

theorem bin_direct : ∀ i < directEntries, 1 ≤ bin (i * word) ∧ bin (i * word) ≤ directMaxBin := by
  decide +kernel

theorem directMaxBin_le : directMaxBin ≤ maxBin := by decide +kernel

theorem maxBin_lt_full : maxBin < fullQueue := by decide

theorem full_lt : fullQueue < queueCount := by decide +kernel

end Indices

/-! ## The primitives in closed form -/

namespace Heap
variable {M : Type} (h : Heap M)

/-- The direct table after the queue of `bin` got the first page `first`. -/
def directFor (bin first : Nat) (i : Nat) : Nat :=
  if i < directEntries ∧ Wasmalloc.bin (i * word) = bin then if first = 0 then emptyPage else first
  else h.direct i

theorem updateDirect_eq (b : Nat) : h.updateDirect b =
    { h with direct := h.directFor b (h.queues (queueIndex b)).first } := by
  have hnone : (∀ i < directEntries, bin (i * word) ≠ b) →
      h.directFor b (h.queues (queueIndex b)).first = h.direct := by
    intro hne
    funext i
    unfold directFor
    rw [if_neg (fun e => hne i e.1 e.2)]
  unfold updateDirect
  split
  · rename_i hb
    rw [hnone]
    intro i hi
    have := bin_direct i hi
    have := directMaxBin_le
    omega
  · rename_i hb
    obtain ⟨hb0, hble⟩ := not_or.mp hb
    have hiff := directRange_iff b (by unfold maxBin at hble; omega) (by omega)
    simp only
    split
    · rename_i hempty
      rw [hnone]
      intro i hi heq
      have := (hiff i hi).mpr heq
      omega
    · congr 1
      funext i
      unfold directFor
      by_cases hi : i < directEntries
      · simp only [hi, true_and, and_true, hiff i hi]
      · simp only [hi, false_and, and_false]

theorem pushFront_eq (qi p : Nat) : h.pushFront qi p =
    { h with
      bytes := frontLinked h.bytes p (h.queues (queueIndex qi)).first
      queues := Function.update h.queues (queueIndex qi) ((h.queues (queueIndex qi)).withFront p)
      occupied := h.occupied ||| ((1 : U64) <<< queueIndex qi)
      direct := h.directFor qi p } := by
  unfold pushFront frontLinked PageQueue.withFront
  simp only [updateDirect_eq, setField]
  by_cases h0 : (h.queues (queueIndex qi)).first = 0
  · simp [h0]
    rfl
  · simp [h0]
    rfl

theorem pushBack_eq (qi p : Nat) : h.pushBack qi p =
    { h with
      bytes := backLinked h.bytes p (h.queues (queueIndex qi)).last
      queues := Function.update h.queues (queueIndex qi) ((h.queues (queueIndex qi)).withBack p)
      occupied := h.occupied ||| ((1 : U64) <<< queueIndex qi)
      direct := if (h.queues (queueIndex qi)).first = 0 then h.directFor qi p else h.direct } := by
  unfold pushBack backLinked PageQueue.withBack
  simp only [updateDirect_eq, setField]
  by_cases h0 : (h.queues (queueIndex qi)).last = 0 <;>
    by_cases h1 : (h.queues (queueIndex qi)).first = 0 <;> simp [h0, h1] <;> rfl

theorem remove_eq (qi p : Nat) : h.remove qi p =
    let q := h.queues (queueIndex qi)
    let q' := q.without p (h.field p .prev) (h.field p .next)
    { h with
      bytes := unlinked h.bytes p
      queues := Function.update h.queues (queueIndex qi) q'
      occupied := if q'.count = 0 then h.occupied &&& ~~~((1 : U64) <<< queueIndex qi)
        else h.occupied
      direct := if q.first = p then h.directFor qi q'.first else h.direct } := by
  unfold remove unlinked PageQueue.without field
  simp only [updateDirect_eq, setField]
  by_cases h0 : Page.get h.bytes p .prev = 0 <;> by_cases h1 : Page.get h.bytes p .next = 0 <;>
    by_cases h2 : (h.queues (queueIndex qi)).first = p <;>
    by_cases h3 : (h.queues (queueIndex qi)).last = p <;> simp [h0, h1, h2, h3] <;> rfl

end Heap

omit [Build] in
theorem bit_set {occupied : U64} {qi q : Nat} (hq : q < 64) :
    (occupied ||| ((1 : U64) <<< qi)).getLsbD q = true ↔ q = qi ∨ occupied.getLsbD q = true := by
  rw [BitVec.getLsbD_or, BitVec.getLsbD_shiftLeft]
  by_cases h : q = qi
  · subst h
    simp [hq]
  · by_cases hlt : q < qi
    · simp [h, hlt]
    · have hpos : ¬ q - qi = 0 := by omega
      simp [h, hlt, hq, hpos]

omit [Build] in
theorem bit_clear {occupied : U64} {qi q : Nat} (hq : q < 64) :
    (occupied &&& ~~~((1 : U64) <<< qi)).getLsbD q = true ↔ q ≠ qi ∧ occupied.getLsbD q = true := by
  rw [BitVec.getLsbD_and, BitVec.getLsbD_not, BitVec.getLsbD_shiftLeft]
  by_cases h : q = qi
  · subst h
    simp [hq]
  · by_cases hlt : q < qi
    · simp [h, hlt, hq]
    · have hpos : ¬ q - qi = 0 := by omega
      simp [h, hlt, hq, hpos]

/-! ## Lists -/

/-- The queues of `h` hold the lists. -/
structure Represents {M : Type} (h : Heap M) (lists : Nat → List Nat) : Prop where
  lt : ∀ q, ∀ p ∈ lists q, q < queueCount
  addr : ∀ q, ∀ p ∈ lists q, PageAddr p
  disjoint : ∀ q r p, p ∈ lists q → p ∈ lists r → q = r
  queue : ∀ q < queueCount, QueueOk h.bytes (h.queues q) (lists q)
  direct_eq : ∀ i < directEntries, h.direct i = (lists (bin (i * word))).headD emptyPage
  occupied_iff : ∀ q < queueCount, h.occupied.getLsbD q = true ↔ lists q ≠ []

/-- What a queue operation does: the queues hold other lists. It writes the links of the pages
    `ps` and the flags of the pages `fl`, and the records of the queues `qs`. -/
structure Relisted {M : Type} (h h' : Heap M) (lists : Nat → List Nat) (qs ps fl : List Nat) : Prop where
  represents : Represents h' lists
  others : ∀ r, r ∉ qs → h'.queues r = h.queues r
  bytes : ∀ x, (∀ y ∈ ps, ¬ LinkByte y x) → (∀ y ∈ fl, x ≠ y + Page.Field.offset .flags) →
    h'.bytes x = h.bytes x
  fields : ∀ y, PageAddr y → ∀ f : Page.Field, f ≠ .next → f ≠ .prev → (f = .flags → y ∉ fl) →
    Page.get h'.bytes y f = Page.get h.bytes y f
  frame : h' = { h with bytes := h'.bytes, queues := h'.queues, direct := h'.direct,
                        occupied := h'.occupied }

/-- Headers start in different slices: a link byte in a header is a link byte of that page. -/
theorem linkByte_page {p y x : Nat} (hp : PageAddr p) (hy : PageAddr y) (hx : LinkByte p x)
    (hlo : y ≤ x) (hhi : x < y + Page.size) : p = y := by
  obtain ⟨hlo', hhi'⟩ := hx
  have hsize : Page.size < sliceSize := by
    have := usizeBytes_le
    unfold Page.size sliceSize
    omega
  obtain ⟨i, rfl⟩ := hp.dvd
  obtain ⟨j, rfl⟩ := hy.dvd
  have hle : ∀ {m n : Nat}, m < n → sliceSize * m + sliceSize ≤ sliceSize * n := fun h => by
    rw [← Nat.mul_succ]
    exact Nat.mul_le_mul_left _ h
  rcases Nat.lt_trichotomy i j with hlt | heq | hlt
  · have := hle hlt
    omega
  · rw [heq]
  · have := hle hlt
    omega

section Bytes
variable {b c : Bytes} {ps : List Nat} {y : Nat} {f : Page.Field}

theorem header_of_links (hps : ∀ p ∈ ps, PageAddr p) (hbytes : ∀ x, (∀ p ∈ ps, ¬ LinkByte p x) → c x = b x)
    (hy : PageAddr y) (hout : y ∉ ps) : Page.get c y f = Page.get b y f := by
  refine Page.get_congr fun x hlo hhi => hbytes x fun p hp hx => hout ?_
  rwa [← linkByte_page (hps p hp) hy hx hlo hhi]

theorem fields_of_links (hps : ∀ p ∈ ps, PageAddr p) (hbytes : ∀ x, (∀ p ∈ ps, ¬ LinkByte p x) → c x = b x)
    (hy : PageAddr y) (h1 : f ≠ .next) (h2 : f ≠ .prev) : Page.get c y f = Page.get b y f := by
  refine readLE_congr fun x hlo hhi => hbytes x fun p hp hx => ?_
  have hin := f.inside
  obtain rfl := linkByte_page (hps p hp) hy hx (by omega) (by omega)
  obtain ⟨hlo', hhi'⟩ := hx
  have hn := Page.Field.apart h1
  have hv := Page.Field.apart h2
  unfold Page.size at hhi'
  simp only [Page.Field.offset, Page.Field.width] at hn hv hlo' hlo hhi hhi'
  omega

end Bytes

section Relist
variable {M : Type} {h h' : Heap M} {lists lists' : Nat → List Nat} {qi p : Nat} {l : List Nat}
  {q' : PageQueue}

/-- Giving queue `qi` other members: `p` comes or goes, and links of the old members change. -/
theorem Represents.relist (hr : Represents h lists) (hqi : qi < queueCount) (haddr : PageAddr p)
    (honly : ∀ r, p ∈ lists r → r = qi)
    (hframe : h' = { h with bytes := h'.bytes, queues := Function.update h.queues qi q'
                            direct := h'.direct, occupied := h'.occupied })
    (hqueue : QueueOk h'.bytes q' l) (hmem : ∀ x ∈ l, x = p ∨ x ∈ lists qi)
    (hbytes : ∀ x, (∀ y ∈ p :: lists qi, ¬ LinkByte y x) → h'.bytes x = h.bytes x)
    (hocc : ∀ q < queueCount, h'.occupied.getLsbD q = true ↔
      if q = qi then l ≠ [] else h.occupied.getLsbD q = true)
    (hdirect : ∀ i < directEntries, h'.direct i =
      if bin (i * word) = qi then l.headD emptyPage else h.direct i) :
    Relisted h h' (Function.update lists qi l) [qi] (p :: lists qi) [] := by
  have hsame : ∀ r, r ≠ qi → Function.update lists qi l r = lists r := fun r hne =>
    Function.update_of_ne hne _ _
  have hself : Function.update lists qi l qi = l := Function.update_self _ _ _
  have hqueues : h'.queues = Function.update h.queues qi q' := congrArg Heap.queues hframe
  have hpages : ∀ y ∈ p :: lists qi, PageAddr y := by
    intro y hy
    rcases List.mem_cons.mp hy with rfl | hy
    · exact haddr
    · exact hr.addr qi y hy
  have hhome : ∀ x ∈ l, PageAddr x ∧ ∀ r, x ∈ lists r → r = qi := by
    intro x hx
    rcases hmem x hx with rfl | hx
    · exact ⟨haddr, honly⟩
    · exact ⟨hr.addr qi x hx, fun r hxr => hr.disjoint r qi x hxr hx⟩
  -- A member of another queue is not `p`, nor a member of this one.
  have hother : ∀ r ≠ qi, ∀ x ∈ lists r, x ∉ p :: lists qi := by
    intro r hne x hx hin
    rcases List.mem_cons.mp hin with rfl | hin
    · exact hne (honly r hx)
    · exact hne (hr.disjoint r qi x hx hin)
  refine { represents := ?_, others := ?_, bytes := fun x hx _ => hbytes x hx, fields := ?_
           frame := by rw [hqueues]; exact hframe }
  · constructor
    case lt =>
      intro r x hx
      by_cases he : r = qi
      · rw [he]
        exact hqi
      · rw [hsame r he] at hx
        exact hr.lt r x hx
    case addr =>
      intro r x hx
      by_cases he : r = qi
      · rw [he, hself] at hx
        exact (hhome x hx).1
      · rw [hsame r he] at hx
        exact hr.addr r x hx
    case disjoint =>
      intro r t x hxr hxt
      by_cases her : r = qi
      · by_cases het : t = qi
        · rw [her, het]
        · rw [her, hself] at hxr
          rw [hsame t het] at hxt
          exact absurd ((hhome x hxr).2 t hxt) het
      · by_cases het : t = qi
        · rw [het, hself] at hxt
          rw [hsame r her] at hxr
          exact absurd ((hhome x hxt).2 r hxr) her
        · rw [hsame r her] at hxr
          rw [hsame t het] at hxt
          exact hr.disjoint r t x hxr hxt
    case queue =>
      intro r hlt
      rw [hqueues]
      by_cases he : r = qi
      · rw [he, hself, Function.update_self]
        exact hqueue
      · rw [hsame r he, Function.update_of_ne he]
        refine (hr.queue r hlt).congr fun x hx => ?_
        have hheader := fun f => header_of_links (f := f) hpages hbytes (hr.addr r x hx) (hother r he x hx)
        exact ⟨hheader _, hheader _⟩
    case direct_eq =>
      intro i hi
      rw [hdirect i hi]
      by_cases he : bin (i * word) = qi
      · rw [if_pos he, he, hself]
      · rw [if_neg he, hsame _ he, hr.direct_eq i hi]
    case occupied_iff =>
      intro r hlt
      rw [hocc r hlt]
      by_cases he : r = qi
      · rw [if_pos he, he, hself]
      · rw [if_neg he, hsame r he, hr.occupied_iff r hlt]
  · intro r hout
    rw [hqueues, Function.update_of_ne (fun e => hout (List.mem_singleton.mpr e))]
  · exact fun y hy f h1 h2 _ => fields_of_links hpages hbytes hy h1 h2

/-- **`remove` is deletion.** -/
theorem Represents.remove (hr : Represents h lists) (hp : p ∈ lists qi) :
    Relisted h (h.remove qi p) (Function.update lists qi ((lists qi).erase p)) [qi] (p :: lists qi) [] := by
  have hqi := hr.lt qi p hp
  have hqok := hr.queue qi hqi
  have haddr := hr.addr qi p hp
  have hremoved := hqok.remove (hr.addr qi) hp
  rw [Heap.remove_eq, queueIndex_of_lt hqi]
  refine hr.relist hqi haddr (fun r hpr => hr.disjoint r qi p hpr hp) rfl hremoved
    (fun x hx => Or.inr (List.mem_of_mem_erase hx)) ?_ ?_ ?_
  · intro x hx
    refine unlinked_out (fun y hy hy0 => hx y ?_) (hqok.ne_zero hp)
    simp only [List.mem_cons, List.not_mem_nil, or_false] at hy
    rcases hy with rfl | rfl | rfl
    · exact List.mem_cons_self
    · exact List.mem_cons_of_mem _ ((hqok.prev_mem hp).resolve_left hy0)
    · exact List.mem_cons_of_mem _ ((hqok.next_mem hp).resolve_left hy0)
  · intro r hlt
    have hr64 : r < 64 := by rwa [queueCount_eq] at hlt
    have hcount := hremoved.count
    simp only [Heap.field, hcount]
    by_cases hempty : ((lists qi).erase p).length = 0
    · rw [if_pos hempty, bit_clear hr64]
      have hnil := List.length_eq_zero_iff.mp hempty
      by_cases he : r = qi
      · simp [he, hnil]
      · simp [he]
    · rw [if_neg hempty]
      by_cases he : r = qi
      · have hne : lists qi ≠ [] := List.ne_nil_of_mem hp
        have hne' : (lists qi).erase p ≠ [] := fun e => hempty (by rw [e]; rfl)
        simp only [he, if_true, hr.occupied_iff qi hqi]
        exact ⟨fun _ => hne', fun _ => hne⟩
      · rw [if_neg he]
  · intro i hi
    have hhead := hremoved.headD emptyPage
    simp only
    by_cases hf : (h.queues qi).first = p
    · rw [if_pos hf]
      unfold Heap.directFor
      by_cases he : bin (i * word) = qi
      · rw [if_pos ⟨hi, he⟩, if_pos he, ← hhead]
        rfl
      · rw [if_neg (fun e => he e.2), if_neg he]
    · -- The head stays, so the table is right as it is.
      rw [if_neg hf]
      by_cases he : bin (i * word) = qi
      · have hfirst : ((h.queues qi).without p (Page.get h.bytes p .prev)
            (Page.get h.bytes p .next)).first = (h.queues qi).first := if_neg hf
        rw [if_pos he, hr.direct_eq i hi, he, ← hqok.headD, ← hhead, hfirst]
      · rw [if_neg he]

/-- **`push_front` is cons.** -/
theorem Represents.pushFront (hr : Represents h lists) (hqi : qi < queueCount) (haddr : PageAddr p)
    (hnew : ∀ r, p ∉ lists r) :
    Relisted h (h.pushFront qi p) (Function.update lists qi (p :: lists qi)) [qi] (p :: lists qi) [] := by
  have hqok := hr.queue qi hqi
  have hfirst : (h.queues qi).first ≠ 0 → (h.queues qi).first ∈ lists qi := by
    rw [hqok.first]
    exact (headD_mem (lists qi)).resolve_left
  rw [Heap.pushFront_eq, queueIndex_of_lt hqi]
  refine hr.relist hqi haddr (fun r hpr => absurd hpr (hnew r)) rfl
    (hqok.pushFront (hr.addr qi) haddr (hnew qi)) (fun x hx => List.mem_cons.mp hx) ?_ ?_ ?_
  · intro x hx
    exact frontLinked_out (hx p List.mem_cons_self) fun h0 => hx _ (List.mem_cons_of_mem _ (hfirst h0))
  · intro r hlt
    have hr64 : r < 64 := by rwa [queueCount_eq] at hlt
    simp only
    rw [bit_set hr64]
    by_cases he : r = qi <;> simp [he]
  · intro i hi
    have hp0 : p ≠ 0 := Nat.pos_iff_ne_zero.mp haddr.pos
    simp only
    unfold Heap.directFor
    by_cases he : bin (i * word) = qi
    · rw [if_pos ⟨hi, he⟩, if_pos he, if_neg hp0]
      rfl
    · rw [if_neg (fun e => he e.2), if_neg he]

/-- **`push_back` is append.** -/
theorem Represents.pushBack (hr : Represents h lists) (hqi : qi < queueCount) (haddr : PageAddr p)
    (hnew : ∀ r, p ∉ lists r) :
    Relisted h (h.pushBack qi p) (Function.update lists qi (lists qi ++ [p])) [qi] (p :: lists qi) [] := by
  have hqok := hr.queue qi hqi
  have hlast : (h.queues qi).last ≠ 0 → (h.queues qi).last ∈ lists qi := by
    rw [hqok.last]
    exact (getLastD_mem (lists qi)).resolve_left
  rw [Heap.pushBack_eq, queueIndex_of_lt hqi]
  refine hr.relist hqi haddr (fun r hpr => absurd hpr (hnew r)) rfl
    (hqok.pushBack (hr.addr qi) haddr (hnew qi)) ?_ ?_ ?_ ?_
  · intro x hx
    rcases List.mem_append.mp hx with hx | hx
    · exact Or.inr hx
    · exact Or.inl (List.mem_singleton.mp hx)
  · intro x hx
    exact backLinked_out (hx p List.mem_cons_self) fun h0 => hx _ (List.mem_cons_of_mem _ (hlast h0))
  · intro r hlt
    have hr64 : r < 64 := by rwa [queueCount_eq] at hlt
    simp only
    rw [bit_set hr64]
    by_cases he : r = qi <;> simp [he]
  · intro i hi
    have hp0 : p ≠ 0 := Nat.pos_iff_ne_zero.mp haddr.pos
    simp only
    by_cases h0 : (h.queues qi).first = 0
    · have hnil := hqok.first_eq_zero.mp h0
      rw [if_pos h0]
      unfold Heap.directFor
      by_cases he : bin (i * word) = qi
      · rw [if_pos ⟨hi, he⟩, if_pos he, if_neg hp0, hnil]
        rfl
      · rw [if_neg (fun e => he e.2), if_neg he]
    · -- The queue had a head already.
      rw [if_neg h0]
      by_cases he : bin (i * word) = qi
      · rw [if_pos he, hr.direct_eq i hi, he]
        cases hl : lists qi with
        | nil => exact absurd (hqok.first_eq_zero.mpr hl) h0
        | cons x l => rfl
      · rw [if_neg he]

/-! ## The moves -/

theorem Relisted.trans {h2 : Heap M} {qs ps fl qs' ps' fl' : List Nat}
    (r : Relisted h h' lists qs ps fl) (r' : Relisted h' h2 lists' qs' ps' fl') :
    Relisted h h2 lists' (qs ++ qs') (ps ++ ps') (fl ++ fl') where
  represents := r'.represents
  others := fun t ht => by
    rw [List.mem_append, not_or] at ht
    rw [r'.others t ht.2, r.others t ht.1]
  bytes := fun x hp hf => by
    simp only [List.mem_append] at hp hf
    rw [r'.bytes x (fun y hy => hp y (Or.inr hy)) fun y hy => hf y (Or.inr hy),
      r.bytes x (fun y hy => hp y (Or.inl hy)) fun y hy => hf y (Or.inl hy)]
  fields := fun y hy f h1 h2 hf => by
    simp only [List.mem_append, not_or] at hf
    rw [r'.fields y hy f h1 h2 fun e => (hf e).2, r.fields y hy f h1 h2 fun e => (hf e).1]
  frame := by
    rw [r'.frame, r.frame]

theorem Relisted.mono {qs ps fl qs' ps' fl' : List Nat} (r : Relisted h h' lists qs ps fl)
    (hqs : qs ⊆ qs') (hps : ps ⊆ ps') (hfl : fl ⊆ fl') : Relisted h h' lists qs' ps' fl' where
  represents := r.represents
  others := fun t ht => r.others t fun hm => ht (hqs hm)
  bytes := fun x hp hf => r.bytes x (fun y hy => hp y (hps hy)) fun y hy => hf y (hfl hy)
  fields := fun y hy f h1 h2 hf => r.fields y hy f h1 h2 fun e hm => hf e (hfl hm)
  frame := r.frame

theorem Represents.refl (hr : Represents h lists) (qs ps fl : List Nat) : Relisted h h lists qs ps fl where
  represents := hr
  others := fun _ _ => rfl
  bytes := fun _ _ _ => rfl
  fields := fun _ _ _ _ _ _ => rfl
  frame := rfl

theorem Represents.setField (hr : Represents h lists) (haddr : PageAddr p) {f : Page.Field} {v : Nat}
    (h1 : f ≠ .next) (h2 : f ≠ .prev) (hv : v < 256 ^ f.width) :
    Represents (h.setField p f v) lists := by
  refine { lt := hr.lt, addr := hr.addr, disjoint := hr.disjoint, direct_eq := hr.direct_eq
           occupied_iff := hr.occupied_iff, queue := fun q hq => (hr.queue q hq).congr fun x hx => ?_ }
  have hx' := hr.addr q x hx
  unfold Heap.setField
  rw [Page.get_set haddr.dvd hx'.dvd hv, Page.get_set haddr.dvd hx'.dvd hv, if_neg fun e => h1 e.2.symm,
    if_neg fun e => h2 e.2.symm]
  exact ⟨rfl, rfl⟩

theorem Represents.setFlags (hr : Represents h lists) (haddr : PageAddr p) {v : Nat} (hv : v < 256) :
    Relisted h (h.setField p .flags v) lists [] [] [p] := by
  refine { represents := hr.setField haddr (by decide) (by decide) (by exact hv), others := fun _ _ => rfl
           bytes := ?_, fields := ?_, frame := rfl }
  · intro x _ hx
    have hne := hx p (List.mem_singleton_self p)
    exact writeLE_out (by simp only [Page.Field.width]; omega)
  · intro y hy f _ _ hf
    unfold Heap.setField
    rw [Page.get_set haddr.dvd hy.dvd (by exact hv), if_neg]
    exact fun e => hf e.2 (List.mem_singleton.mpr e.1)

theorem Represents.not_mem_erased (hr : Represents h lists) (hp : p ∈ lists qi) (r : Nat) :
    p ∉ Function.update lists qi ((lists qi).erase p) r := by
  have hnodup := (List.nodup_cons.mp (hr.queue qi (hr.lt qi p hp)).nodup).2
  by_cases he : r = qi
  · rw [he, Function.update_self]
    exact hnodup.not_mem_erase
  · rw [Function.update_of_ne he]
    exact fun hm => he (hr.disjoint r qi p hm hp)

/-- Deletion, a flag, and append to another queue. -/
theorem Represents.transfer {dst v : Nat} (hr : Represents h lists) (hp : p ∈ lists qi)
    (hdst : dst < queueCount) (hne : dst ≠ qi) (hv : v < 256) :
    Relisted h (((h.remove qi p).setField p .flags v).pushBack dst p)
      (Function.update (Function.update lists qi ((lists qi).erase p)) dst (lists dst ++ [p]))
      [qi, dst] (lists qi ++ lists dst) [p] ∧
    Page.get (((h.remove qi p).setField p .flags v).pushBack dst p).bytes p .flags = v := by
  have haddr := hr.addr qi p hp
  have r1 := hr.remove hp
  have r2 := r1.represents.setFlags haddr hv
  have r3 := r2.represents.pushBack hdst haddr (hr.not_mem_erased hp)
  rw [Function.update_of_ne hne] at r3
  constructor
  · refine ((r1.trans r2).trans r3).mono (List.Subset.refl _) (fun x hx => ?_) (List.Subset.refl _)
    simp only [List.mem_append, List.mem_cons, List.not_mem_nil, or_false] at hx ⊢
    rcases hx with (rfl | hx) | rfl | hx
    · exact Or.inl hp
    · exact Or.inl hx
    · exact Or.inl hp
    · exact Or.inr hx
  · rw [r3.fields p haddr _ (by decide) (by decide) fun _ => List.not_mem_nil]
    exact Page.get_set_same (by exact hv)

theorem Represents.moveToFront (hr : Represents h lists) (hp : p ∈ lists qi) :
    Relisted h (h.moveToFront qi p) (Function.update lists qi (p :: (lists qi).erase p)) [qi]
      (lists qi) [] := by
  have hqi := hr.lt qi p hp
  unfold Heap.moveToFront
  rw [queueIndex_of_lt hqi]
  split
  · -- The page is the head, and stays.
    rename_i hfirst
    have hlist : p :: (lists qi).erase p = lists qi := by
      rw [(hr.queue qi hqi).first] at hfirst
      cases hl : lists qi with
      | nil =>
        rw [hl] at hp
        exact absurd hp List.not_mem_nil
      | cons x l =>
        rw [hl] at hfirst
        obtain rfl : x = p := hfirst
        rw [List.erase_cons_head]
    rw [hlist, Function.update_eq_self]
    exact hr.refl _ _ _
  · have r1 := hr.remove hp
    have r2 := r1.represents.pushFront hqi (hr.addr qi p hp) (hr.not_mem_erased hp)
    rw [Function.update_self, Function.update_idem] at r2
    refine (r1.trans r2).mono ?_ (fun x hx => ?_) (List.Subset.refl _)
    · simp
    · simp only [List.mem_append, List.mem_cons] at hx
      rcases hx with (rfl | hx) | rfl | hx
      · exact hp
      · exact hx
      · exact hp
      · exact List.mem_of_mem_erase hx

/-- The flags are read after the deletion, which leaves them alone. -/
theorem Represents.flags_remove (hr : Represents h lists) (hp : p ∈ lists qi) :
    Page.get (h.remove qi p).bytes p .flags = Page.get h.bytes p .flags :=
  (hr.remove hp).fields p (hr.addr qi p hp) _ (by decide) (by decide) fun _ => List.not_mem_nil

theorem Represents.moveToFull (hr : Represents h lists) (hp : p ∈ lists qi) (hne : qi ≠ fullQueue) :
    Relisted h (h.moveToFull qi p) (Function.update (Function.update lists qi ((lists qi).erase p))
        fullQueue (lists fullQueue ++ [p])) [qi, fullQueue] (lists qi ++ lists fullQueue) [p] ∧
      Page.get (h.moveToFull qi p).bytes p .flags = Page.get h.bytes p .flags ||| flagInFullQueue := by
  have hset : (h.remove qi p).setInFullQueue p true =
      (h.remove qi p).setField p .flags (Page.get h.bytes p .flags ||| flagInFullQueue) := by
    unfold Heap.setInFullQueue Page.setInFullQueue Heap.setField
    rw [if_pos rfl, hr.flags_remove hp]
  have hv : Page.get h.bytes p .flags ||| flagInFullQueue < 256 :=
    Nat.or_lt_two_pow (n := 8) (Page.get_lt h.bytes p .flags) (by decide)
  unfold Heap.moveToFull
  simp only [hset]
  exact hr.transfer hp full_lt (Ne.symm hne) hv

theorem Represents.unfull {b : Nat} (hr : Represents h lists) (hp : p ∈ lists fullQueue)
    (hbin : Page.get h.bytes p .bin = b) (hb : b ≤ maxBin) :
    Relisted h (h.unfull p) (Function.update (Function.update lists fullQueue
        ((lists fullQueue).erase p)) b (lists b ++ [p])) [fullQueue, b] (lists fullQueue ++ lists b) [p] ∧
      Page.get (h.unfull p).bytes p .flags = Page.get h.bytes p .flags &&& (255 - flagInFullQueue) := by
  have hset : (h.remove fullQueue p).setInFullQueue p false = (h.remove fullQueue p).setField p .flags
      (Page.get h.bytes p .flags &&& (255 - flagInFullQueue)) := by
    unfold Heap.setInFullQueue Page.setInFullQueue Heap.setField
    rw [if_neg (by decide), hr.flags_remove hp]
  have haddr := hr.addr fullQueue p hp
  have hv : Page.get h.bytes p .flags &&& (255 - flagInFullQueue) < 256 :=
    Nat.lt_of_le_of_lt Nat.and_le_left (Page.get_lt h.bytes p .flags)
  have r1 := hr.remove hp
  have hbin' : ((h.remove fullQueue p).setField p .flags
      (Page.get h.bytes p .flags &&& (255 - flagInFullQueue))).field p .bin = b := by
    have r2 := r1.trans (r1.represents.setFlags haddr hv)
    unfold Heap.field
    rw [r2.fields p haddr .bin (by decide) (by decide) nofun]
    exact hbin
  have hfull := maxBin_lt_full
  have hlt := full_lt
  unfold Heap.unfull
  simp only [hset, hbin']
  exact hr.transfer hp (by omega) (by omega) hv

theorem Represents.unique (hr : Represents h lists) (hr' : Represents h lists') : lists' = lists := by
  funext q
  by_cases hq : q < queueCount
  · have ho := (List.nodup_cons.mp (hr.queue q hq).nodup).1
    have ho' := (List.nodup_cons.mp (hr'.queue q hq).nodup).1
    exact (hr'.queue q hq).ring.unique (hr.queue q hq).ring ho' ho
  · have hnil : ∀ {l : Nat → List Nat}, Represents h l → l q = [] := fun hr =>
      List.eq_nil_iff_forall_not_mem.mpr fun p hp => hq (hr.lt q p hp)
    rw [hnil hr, hnil hr']

/-- **The queue operations are list operations**: cons, append, deletion, deletion then cons, and
    deletion then append to another queue with the flag set or cleared. -/
theorem queue_ops_refine (hr : Represents h lists) :
    (∀ qi p, qi < queueCount → PageAddr p → (∀ r, p ∉ lists r) →
      Relisted h (h.pushFront qi p) (Function.update lists qi (p :: lists qi)) [qi] (p :: lists qi) [] ∧
      Relisted h (h.pushBack qi p) (Function.update lists qi (lists qi ++ [p])) [qi] (p :: lists qi) []) ∧
    (∀ qi p, p ∈ lists qi →
      Relisted h (h.remove qi p) (Function.update lists qi ((lists qi).erase p)) [qi] (lists qi) [] ∧
      Relisted h (h.moveToFront qi p) (Function.update lists qi (p :: (lists qi).erase p)) [qi]
        (lists qi) []) ∧
    (∀ qi p, p ∈ lists qi → qi ≠ fullQueue →
      Relisted h (h.moveToFull qi p) (Function.update (Function.update lists qi ((lists qi).erase p))
          fullQueue (lists fullQueue ++ [p])) [qi, fullQueue] (lists qi ++ lists fullQueue) [p] ∧
      Page.get (h.moveToFull qi p).bytes p .flags = Page.get h.bytes p .flags ||| flagInFullQueue) ∧
    ∀ p b, p ∈ lists fullQueue → Page.get h.bytes p .bin = b → b ≤ maxBin →
      Relisted h (h.unfull p) (Function.update (Function.update lists fullQueue
          ((lists fullQueue).erase p)) b (lists b ++ [p])) [fullQueue, b]
          (lists fullQueue ++ lists b) [p] ∧
      Page.get (h.unfull p).bytes p .flags = Page.get h.bytes p .flags &&& (255 - flagInFullQueue) := by
  refine ⟨fun qi p hqi haddr hnew => ⟨hr.pushFront hqi haddr hnew, hr.pushBack hqi haddr hnew⟩,
    fun qi p hp => ⟨?_, hr.moveToFront hp⟩, fun qi p hp hne => hr.moveToFull hp hne,
    fun p b hp hbin hb => hr.unfull hp hbin hb⟩
  refine (hr.remove hp).mono (List.Subset.refl _) (fun x hx => ?_) (List.Subset.refl _)
  rcases List.mem_cons.mp hx with rfl | hx
  · exact hp
  · exact hx

end Relist

theorem represents_new {M : Type} (mem : M) (bytes : Bytes) (policy : GrowPolicy) :
    Represents (Heap.new mem bytes policy) fun _ => [] where
  lt := fun _ _ hp => absurd hp List.not_mem_nil
  addr := fun _ _ hp => absurd hp List.not_mem_nil
  disjoint := fun _ _ _ hp => absurd hp List.not_mem_nil
  queue := fun _ _ => { ring := Links.ring_nil.mpr ⟨rfl, rfl⟩, nodup := List.nodup_singleton _, count := rfl }
  direct_eq := fun _ _ => rfl
  occupied_iff := fun q _ => by
    show (0 : U64).getLsbD q = true ↔ _
    simp

end Wasmalloc

namespace Wasmalloc.Sample

def unused : Heap Unit := Heap.new () (fun _ => 0) GrowPolicy.default

/-- Two pages go to queue 5, and the first of them on to the full queue. -/
theorem pages_move : ∃ lists, lists 5 = [131072] ∧ lists fullQueue = [65536] ∧
    Represents (((unused.pushBack 5 65536).pushBack 5 131072).moveToFull 5 65536) lists := by
  have haddr : ∀ n, 0 < n → n < 65536 → PageAddr (n * 65536) := fun n h0 hn =>
    { dvd := Nat.dvd_mul_left _ _, pos := by omega
      lt := by show n * 65536 < 4294967296; omega }
  have r1 := ((queue_ops_refine (represents_new () (fun _ => 0) GrowPolicy.default)).1 5 65536
    (by decide +kernel) (haddr 1 (by decide) (by decide)) fun _ => List.not_mem_nil).2.represents
  have hnew : ∀ r, 131072 ∉ Function.update (fun _ => []) 5 [65536] r := by
    intro r
    by_cases he : r = 5
    · rw [he, Function.update_self]
      decide
    · rw [Function.update_of_ne he]
      exact List.not_mem_nil
  have r2 := ((queue_ops_refine r1).1 5 131072 (by decide +kernel)
    (haddr 2 (by decide) (by decide)) hnew).2.represents
  have r3 := ((queue_ops_refine r2).2.2.1 5 65536 (by decide) (by decide)).1.represents
  exact ⟨_, by decide +kernel, by decide +kernel, r3⟩

end Wasmalloc.Sample
