import Wasmalloc.Classes
import Wasmalloc.Lib.Checks

/- The validators: `page::validate` of `page.rs` and `Heap::validate_queue` of
   `heap.rs`, which every test and every proof harness of the source trusts.

   Both read headers and links that may hold anything. `page_valid_iff` and
   `queue_valid_iff` say that they accept exactly the well-formed ones: a page whose
   header fits its bin and whose free list visits every block that is not in use, and a
   queue that is a list of such pages. The two loops count down what the source counts
   up, so that each is a recursion on the members it may still visit.

   The validators are built for tests, where `debug_assert!` is usually on: `debug`
   says whether it is. A failed assertion panics, an outcome of its own.

   Correspondence (Rust ↔ Lean):
     `return Err(e)` under a condition ↔ `refuse condition e`
     `debug_assert!(c, e)`             ↔ `refuse (debug = true ∧ ¬ c) (.panic e)`
     `expected_len - len`              ↔ `room` of `walkFree`
     `q.count + 1 - n`                 ↔ `room` of `walkQueue` -/
namespace Wasmalloc
open ByteMem Words Checks

variable [Build]

namespace Page

/-! ## The page validator -/

omit [Build] in
def kindFromU8 : Nat → Option PageKind
  | 0 => some .small
  | 1 => some .medium
  | 2 => some .large
  | _ => none

/-- The checks of `validate` on the header. -/
def validateHeader (b : Bytes) (page : Nat) : Except String Unit := do
  let kind ← okOr (kindFromU8 (get b page .kind)) "kind byte is not a PageKind"
  refuse (¬ (1 ≤ get b page .bin ∧ get b page .bin ≤ maxBin)) "bin out of range"
  refuse (kindOfBin (get b page .bin) ≠ kind) "kind does not match bin"
  let size := get b page .blockSize
  refuse (size ≠ binSize (get b page .bin)) "block_size does not match bin"
  refuse (get b page .blockStart ≠ Wasmalloc.blockStart size) "block_start does not match block_size"
  refuse (get b page .reserved ≠ blocksPerPage kind size) "reserved does not match page geometry"
  refuse (page % kind.pageSize ≠ 0) "page address is not aligned to its kind"
  refuse (get b page .capacity > get b page .reserved) "capacity exceeds reserved"
  refuse (get b page .used > get b page .capacity) "used exceeds capacity"

/-- The walk of the free list from `cur`, with `room` blocks still expected: the result,
    and the blocks whose link it read. -/
def walkFree (b : Bytes) (page : Nat) : Nat → Nat → Except String Unit × List Nat
  | room, cur =>
    if cur = 0 then
      (refuse (room ≠ 0) "used + free list length != capacity", [])
    else
      match room with
      | 0 => (.error "free list longer than capacity - used (cycle or lost block)", [])
      | room + 1 =>
        if (blockIndex b page cur).isNone then
          (.error "free link outside the initialised block area or misaligned", [])
        else
          let (result, reads) := walkFree b page room (loadWord b cur)
          (result, cur :: reads)

/-- Check a page, and the blocks whose link was read on the way. -/
def validate (b : Bytes) (page : Nat) : Except String Unit × List Nat :=
  match validateHeader b page with
  | .error e => (.error e, [])
  | .ok () => walkFree b page (get b page .capacity - get b page .used) (get b page .free)

/-! ## What a valid page is -/

/-- The geometry fields match the bin and the kind, and the counters are in order. -/
structure HeaderOk (b : Bytes) (page : Nat) : Prop where
  bin_pos : 1 ≤ get b page .bin
  bin_le : get b page .bin ≤ maxBin
  kind : get b page .kind = kindToU8 (kindOfBin (get b page .bin))
  blockSize : get b page .blockSize = binSize (get b page .bin)
  blockStart : get b page .blockStart = Wasmalloc.blockStart (binSize (get b page .bin))
  reserved : get b page .reserved = reservedOf (get b page .bin)
  aligned : (kindOfBin (get b page .bin)).pageSize ∣ page
  capacity_le : get b page .capacity ≤ get b page .reserved
  used_le : get b page .used ≤ get b page .capacity

/-- The initialised blocks of a page, by its header. -/
def initialised (b : Bytes) (page : Nat) : List Nat :=
  blocks page (get b page .bin) (get b page .capacity)

/-- A page whose free list holds every initialised block that is not in use, once. -/
structure Valid (b : Bytes) (page : Nat) : Prop extends HeaderOk b page where
  free : ∃ fl, get b page .free = fl.headD 0 ∧ Links.Chain (loadWord b) 0 fl ∧ fl.Nodup ∧
    fl ⊆ initialised b page ∧ fl.length = get b page .capacity - get b page .used

section Valid
variable {b : Bytes} {page a cur room : Nat}

omit [Build] in
theorem kindFromU8_iff {byte : Nat} {k : PageKind} : kindFromU8 byte = some k ↔ byte = kindToU8 k := by
  unfold kindFromU8 kindToU8
  constructor
  · intro h
    split at h <;> cases h <;> rfl
  · intro h
    cases k <;> subst h <;> rfl

theorem validateHeader_ok : validateHeader b page = .ok () ↔ HeaderOk b page := by
  unfold validateHeader
  simp only [bind_ok, refuse_ok, okOr_ok, exists_const, kindFromU8_iff, not_not, not_lt, gt_iff_lt,
    ← Nat.dvd_iff_mod_eq_zero]
  constructor
  · rintro ⟨kind, hkind, hbin, rfl, hsize, hstart, hreserved, hdvd, hcap, hused⟩
    rw [hsize] at hstart hreserved
    exact { bin_pos := hbin.1, bin_le := hbin.2, kind := hkind, blockSize := hsize
            blockStart := hstart, reserved := hreserved, aligned := hdvd
            capacity_le := hcap, used_le := hused }
  · intro h
    refine ⟨_, h.kind, ⟨h.bin_pos, h.bin_le⟩, rfl, h.blockSize, ?_, ?_, h.aligned, h.capacity_le,
      h.used_le⟩
    · rw [h.blockSize]
      exact h.blockStart
    · rw [h.blockSize]
      exact h.reserved

/-- An address has a block index when it is that of an initialised block. An address
    below the page wraps to an offset past the last block. -/
theorem HeaderOk.blockIndex_iff (h : HeaderOk b page) (hpage : page < usizeSize) (ha : a < usizeSize) :
    (blockIndex b page a).isSome ↔ a ∈ initialised b page := by
  have hgeo := binGeometry h.bin_pos h.bin_le
  have hend := page_end h.aligned hpage
  have hsize := hgeo.size_ge
  have hreserved : ∀ i < get b page .capacity, i < reservedOf (get b page .bin) := fun i hi =>
    h.reserved ▸ lt_of_lt_of_le hi h.capacity_le
  unfold initialised
  rw [mem_blocks]
  unfold blockIndex
  simp only [h.blockSize, h.blockStart]
  constructor
  · intro hsome
    split at hsome
    · cases hsome
    · next hge =>
      split at hsome
      · next hblock =>
        obtain ⟨hmod, hlt⟩ := hblock
        have hup := block_upper (p := page) h.bin_pos h.bin_le (hreserved _ hlt)
        have hdiv := Nat.div_add_mod' ((a + usizeSize - page) % usizeSize -
          Wasmalloc.blockStart (binSize (get b page .bin))) (binSize (get b page .bin))
        rw [hmod, Nat.add_zero] at hdiv
        refine ⟨_, hlt, ?_⟩
        unfold block at hup ⊢
        rw [hdiv] at hup ⊢
        by_cases hlo : page ≤ a
        · rw [show a + usizeSize - page = a - page + usizeSize by omega, Nat.add_mod_right,
            Nat.mod_eq_of_lt (by omega)] at hge ⊢
          omega
        · rw [Nat.mod_eq_of_lt (by omega : a + usizeSize - page < usizeSize)] at hge hup
          omega
      · cases hsome
  · rintro ⟨i, hi, rfl⟩
    have hdist := block_distance h.bin_pos h.bin_le (hreserved i hi) hend
    rw [hdist, if_neg (by omega), Nat.add_sub_cancel_left, Nat.mul_mod_left,
      Nat.mul_div_cancel i (by omega : 0 < binSize (get b page .bin)), if_pos ⟨rfl, hi⟩]
    rfl

theorem HeaderOk.inside (h : HeaderOk b page) (ha : a ∈ initialised b page) :
    page + pageHeaderReserve ≤ a ∧
      a + binSize (get b page .bin) ≤ page + (kindOfBin (get b page .bin)).pageSize := by
  obtain ⟨i, hi, rfl⟩ := mem_blocks.mp ha
  exact ⟨block_lower h.bin_pos h.bin_le,
    block_upper h.bin_pos h.bin_le (h.reserved ▸ lt_of_lt_of_le hi h.capacity_le)⟩

theorem HeaderOk.addr (h : HeaderOk b page) (hpage : page < usizeSize) (ha : a ∈ initialised b page) :
    0 < a ∧ a < usizeSize := by
  have hin := h.inside ha
  have hend := page_end h.aligned hpage
  have hsize := (binGeometry h.bin_pos h.bin_le).size_ge
  unfold pageHeaderReserve at hin
  omega

theorem loadWord_lt (b : Bytes) (a : Nat) : loadWord b a < usizeSize := by
  rw [usizeSize_eq_pow]
  exact readLE_lt _ _ _

/-- The walk accepts exactly the chains of the expected length that stay on blocks. -/
theorem walkFree_ok (hcur : cur < usizeSize) : (walkFree b page room cur).1 = .ok () ↔
    ∃ fl, cur = fl.headD 0 ∧ Links.Chain (loadWord b) 0 fl ∧ 0 ∉ fl ∧
      (∀ a ∈ fl, a < usizeSize ∧ (blockIndex b page a).isSome) ∧ fl.length = room := by
  -- On the blocks the header still counts: the chain has exactly as many links.
  induction room generalizing cur with
  | zero =>
    unfold walkFree
    by_cases h0 : cur = 0
    · rw [if_pos h0]
      simp only [refuse_ok, ne_eq, not_true_eq_false, not_false_eq_true, true_iff]
      exact ⟨[], h0, Links.chain_nil, List.not_mem_nil, fun _ hm => absurd hm List.not_mem_nil, rfl⟩
    · rw [if_neg h0]
      simp only [reduceCtorEq, false_iff]
      rintro ⟨fl, rfl, -, -, -, hlen⟩
      rw [List.length_eq_zero_iff] at hlen
      subst hlen
      exact h0 rfl
  | succ room ih =>
    unfold walkFree
    by_cases h0 : cur = 0
    · rw [if_pos h0]
      simp only [refuse_ok, ne_eq, Nat.add_eq_zero_iff, one_ne_zero, and_false, not_false_eq_true,
        not_true_eq_false, false_iff]
      rintro ⟨fl, rfl, -, hne, -, hlen⟩
      cases fl with
      | nil => cases hlen
      | cons a fl => exact hne (h0 ▸ List.mem_cons_self)
    · rw [if_neg h0]
      cases hindex : (blockIndex b page cur).isNone with
      | true =>
        simp only [if_true, reduceCtorEq, false_iff]
        rintro ⟨fl, rfl, -, -, hall, hlen⟩
        cases fl with
        | nil => cases hlen
        | cons a fl =>
          have hsome := (hall a List.mem_cons_self).2
          rw [Option.isNone_iff_eq_none, List.headD_cons] at hindex
          rw [hindex] at hsome
          cases hsome
      | false =>
        simp only [Bool.false_eq_true, if_false]
        rw [ih (loadWord_lt b cur)]
        have hsome : (blockIndex b page cur).isSome := by
          rw [← Option.not_isNone, hindex]
          rfl
        constructor
        · rintro ⟨fl, hhead, hchain, hne, hall, rfl⟩
          refine ⟨cur :: fl, rfl, Links.chain_cons.mpr ⟨hhead, hchain⟩, ?_, ?_, rfl⟩
          · rw [List.mem_cons, not_or]
            exact ⟨Ne.symm h0, hne⟩
          · rw [List.forall_mem_cons]
            exact ⟨⟨hcur, hsome⟩, hall⟩
        · rintro ⟨fl, rfl, hchain, hne, hall, hlen⟩
          cases fl with
          | nil => cases hlen
          | cons a fl =>
            rw [Links.chain_cons] at hchain
            exact ⟨fl, hchain.1, hchain.2, fun hm => hne (List.mem_cons_of_mem a hm),
              fun x hx => hall x (List.mem_cons_of_mem a hx), Nat.succ.inj hlen⟩

/-- Whatever the links hold, the walk reads only words that `blockIndex` accepts. -/
theorem walkFree_reads (hcur : cur < usizeSize) : ∀ a ∈ (walkFree b page room cur).2,
    a < usizeSize ∧ (blockIndex b page a).isSome := by
  induction room generalizing cur with
  | zero =>
    unfold walkFree
    split <;> simp
  | succ room ih =>
    unfold walkFree
    by_cases h0 : cur = 0
    · simp [h0]
    · rw [if_neg h0]
      cases hindex : (blockIndex b page cur).isNone with
      | true => simp
      | false =>
        simp only [Bool.false_eq_true, if_false, List.forall_mem_cons]
        refine ⟨⟨hcur, ?_⟩, ih (loadWord_lt b cur)⟩
        rw [← Option.not_isNone, hindex]
        rfl

theorem free_lt : get b page .free < usizeSize := by
  rw [usizeSize_eq_pow]
  exact get_lt b page .free

/-- **The page validator accepts exactly the valid pages.** -/
theorem validate_ok (hpage : page < usizeSize) : (validate b page).1 = .ok () ↔ Valid b page := by
  unfold validate
  constructor
  · intro h
    split at h
    · cases h
    · next hheader =>
      have hok := validateHeader_ok.mp hheader
      obtain ⟨fl, hhead, hchain, hne, hall, hlen⟩ := (walkFree_ok free_lt).mp h
      exact { hok with
        free := ⟨fl, hhead, hchain, hchain.nodup hne, fun a ha =>
          (hok.blockIndex_iff hpage (hall a ha).1).mp (hall a ha).2, hlen⟩ }
  · intro h
    rw [validateHeader_ok.mpr h.toHeaderOk]
    obtain ⟨fl, hhead, hchain, -, hsub, hlen⟩ := h.free
    have hblock : ∀ a ∈ fl, 0 < a ∧ a < usizeSize := fun a ha => h.addr hpage (hsub ha)
    refine (walkFree_ok free_lt).mpr ⟨fl, hhead, hchain, ?_, ?_, hlen⟩
    · exact fun hm => absurd (hblock 0 hm).1 (Nat.lt_irrefl 0)
    · exact fun a ha => ⟨(hblock a ha).2, (h.blockIndex_iff hpage (hblock a ha).2).mpr (hsub ha)⟩

theorem validate_reads (hpage : page < usizeSize) (ha : a ∈ (validate b page).2) :
    a ∈ initialised b page ∧ page + pageHeaderReserve ≤ a ∧
      a + usizeBytes ≤ page + (kindOfBin (get b page .bin)).pageSize := by
  unfold validate at ha
  split at ha
  · exact absurd ha List.not_mem_nil
  · next hheader =>
    have hok := validateHeader_ok.mp hheader
    obtain ⟨hlt, hsome⟩ := walkFree_reads free_lt a ha
    have hmem := (hok.blockIndex_iff hpage hlt).mp hsome
    have hin := hok.inside hmem
    have hword := le_trans usizeBytes_le (binGeometry hok.bin_pos hok.bin_le).size_ge
    exact ⟨hmem, hin.1, by omega⟩

/-- The valid pages are those of the page invariant, for some live blocks. -/
theorem valid_iff_shape (hpage : page < usizeSize) :
    Valid b page ↔ ∃ n fl lv, PageShape b page n fl lv := by
  constructor
  · intro h
    obtain ⟨fl, hhead, hchain, hnodup, hsub, hlen⟩ := h.free
    have hblocks : (initialised b page).Nodup := nodup_blocks h.bin_pos h.bin_le
    have hperm : (fl ++ (initialised b page).filter (· ∉ fl)).Perm (initialised b page) := by
      rw [List.perm_ext_iff_of_nodup _ hblocks]
      · intro a
        simp only [List.mem_append, List.mem_filter, decide_eq_true_eq]
        exact ⟨fun h => h.elim (fun ha => hsub ha) (fun ha => ha.1), fun ha =>
          (em (a ∈ fl)).imp_right fun hn => ⟨ha, hn⟩⟩
      · refine List.nodup_append'.mpr ⟨hnodup, hblocks.filter _, fun a ha ha' => ?_⟩
        simp only [List.mem_filter, decide_eq_true_eq] at ha'
        exact ha'.2 ha
    have hcount := hperm.length_eq
    have hused := h.used_le
    simp only [initialised, Page.blocks, List.length_append, List.length_map, List.length_range,
      hlen] at hcount
    exact ⟨get b page .bin, fl, _,
      { bin_pos := h.bin_pos, bin_le := h.bin_le, aligned := h.aligned
        end_le := page_end h.aligned hpage, bin := rfl, kind := h.kind, blockSize := h.blockSize
        blockStart := h.blockStart, reserved := h.reserved
        capacity_le := h.reserved ▸ h.capacity_le
        used := by simp only [initialised, Page.blocks]; omega
        head := hhead, chain := hchain, blocks := hperm }⟩
  · rintro ⟨n, fl, lv, h⟩
    have hlen := h.blocks.length_eq
    have hused := h.used
    simp only [Page.blocks, List.length_append, List.length_map, List.length_range] at hlen
    have hbin := h.bin
    subst hbin
    exact { bin_pos := h.bin_pos, bin_le := h.bin_le, kind := h.kind, blockSize := h.blockSize
            blockStart := h.blockStart, reserved := h.reserved, aligned := h.aligned
            capacity_le := h.reserved ▸ h.capacity_le, used_le := by omega
            free := ⟨fl, h.head, h.chain, h.nodup.of_append_left, fun a ha =>
              h.blocks.subset (List.mem_append_left lv ha), by omega⟩ }

end Valid

end Page

/-! ## The queue validator -/

/-- How a check of a heap stops: with an error, or at a failed debug assertion. -/
inductive Stop where
  | err (message : String)
  | panic (message : String)
  deriving DecidableEq, Repr

/-- `start - self.base`, for an index that may lie below the map. -/
def SliceMap.wrappingRel (m : SliceMap) (start : Nat) : Nat := (start + usizeSize - m.base) % usizeSize

/-- `is_free`, with the assertions of `rel`. -/
def SliceMap.isFreeChecked (debug : Bool) (m : SliceMap) (idx : Nat) : Except Stop Bool := do
  refuse (debug = true ∧ idx < m.base) (.panic s!"slice {idx} is below the map")
  let rel := m.wrappingRel idx
  refuse (debug = true ∧ ¬ (rel ≤ capacity ∧ 1 ≤ capacity - rel))
    (.panic s!"slices {idx}+1 reach beyond the map")
  .ok (bit m.free rel)

namespace Heap
variable {M : Type}

/-- The bin or full-queue conditions on a member of queue `qi`. -/
def validatePlace (b : Bytes) (qi page : Nat) : Except Stop Unit :=
  if qi = fullQueue then do
    refuse (¬ Page.inFullQueue b page) (.err "full-queue member is not flagged full")
    refuse (Page.hasFree b page ∨ Page.isExpandable b page) (.err "full-queue member still has room")
  else do
    refuse (Page.get b page .bin ≠ qi) (.err "page sits in the queue of another bin")
    refuse (Page.inFullQueue b page) (.err "bin-queue member is flagged full")

/-- No slice of `[idx, idx + count)` is free in the map. -/
def validateSlices (debug : Bool) (m : SliceMap) : Nat → Nat → Except Stop Unit
  | 0, _ => .ok ()
  | count + 1, idx => do
    let free ← m.isFreeChecked debug idx
    refuse free (.err "a slice of a live page is free in the map")
    validateSlices debug m count (idx + 1)

/-- The checks on one member of queue `qi`, whose predecessor is `prev`. -/
def validateMember (debug slices : Bool) (h : Heap M) (qi prev page : Nat) : Except Stop Unit := do
  refuse (h.field page .prev ≠ prev) (.err "prev link does not point at the previous member")
  refuse (debug = true ∧ Page.kindFromU8 (h.field page .kind) = none) (.panic "corrupt kind byte")
  let kind := Page.kind h.bytes page
  refuse (page % kind.pageSize ≠ 0) (.err "page address is not aligned to its kind")
  match (Page.validate h.bytes page).1 with
  | .error e => .error (.err e)
  | .ok () =>
    validatePlace h.bytes qi page
    if slices then validateSlices debug h.slices (kind.pageSize / sliceSize) (page / sliceSize)
    else .ok ()

/-- The walk of queue `qi` from `cur`, at most `room` members on: the last member, and the
    room it left. -/
def walkQueue (debug slices : Bool) (h : Heap M) (qi : Nat) : Nat → Nat → Nat → Except Stop (Nat × Nat)
  | room, prev, cur =>
    if cur = 0 then .ok (prev, room)
    else
      match room with
      | 0 => .error (.err "queue longer than its count (cycle or lost page)")
      | room + 1 => do
        validateMember debug slices h qi prev cur
        walkQueue debug slices h qi room cur (h.field cur .next)

def validateQueueInner (debug : Bool) (h : Heap M) (qi : Nat) (slices : Bool) : Except Stop Unit := do
  refuse (debug = true ∧ ¬ qi < queueCount) (.panic s!"queue index {qi} out of range")
  let q := h.queues (queueIndex qi)
  refuse ((((h.occupied >>> queueIndex qi) &&& 1) == 1) ≠ decide (0 < q.count))
    (.err "occupancy bit disagrees with the queue's count")
  let (prev, room) ← walkQueue debug slices h qi (q.count + 1) 0 q.first
  refuse (q.last ≠ prev) (.err "last does not point at the final member")
  refuse (q.count ≠ q.count + 1 - room) (.err "count does not match the members")

/-- Check queue `qi`: its record, its links and its members. -/
def validateQueue (debug : Bool) (h : Heap M) (qi : Nat) : Except Stop Unit :=
  h.validateQueueInner debug qi true

end Heap

/-! ## What a valid queue is -/

/-- Slice `idx` is not free in the map; where assertions are on, it is a slice of the map. -/
def SliceMap.NotFree (debug : Bool) (m : SliceMap) (idx : Nat) : Prop :=
  (debug = true → m.base ≤ idx ∧ m.wrappingRel idx < capacity) ∧ bit m.free (m.wrappingRel idx) = false

/-- A member of queue `qi`: a valid page, of the queue's bin or full, none of whose
    slices is free. -/
structure QueueMember {M : Type} (debug slices : Bool) (h : Heap M) (qi p : Nat) : Prop where
  valid : Page.Valid h.bytes p
  full : qi = fullQueue → Page.inFullQueue h.bytes p = true ∧ Page.hasFree h.bytes p = false ∧
    Page.isExpandable h.bytes p = false
  bin : qi ≠ fullQueue → Page.get h.bytes p .bin = qi ∧ Page.inFullQueue h.bytes p = false
  taken : slices = true → ∀ s < (kindOfBin (Page.get h.bytes p .bin)).pageSize / sliceSize,
    h.slices.NotFree debug (p / sliceSize + s)

/-- A queue whose record and links hold a list of distinct members. -/
structure QueueValid {M : Type} (debug slices : Bool) (h : Heap M) (qi : Nat) : Prop where
  index : debug = true → qi < queueCount
  occupied : h.occupied.getLsbD (queueIndex qi) = true ↔ 0 < (h.queues (queueIndex qi)).count
  list : ∃ l, QueueOk h.bytes (h.queues (queueIndex qi)) l ∧ ∀ p ∈ l, QueueMember debug slices h qi p

section Queue
variable {M : Type} {debug slices : Bool} {h : Heap M} {qi prev cur p room left : Nat}

theorem isFreeChecked_ok {m : SliceMap} {idx : Nat} {free : Bool} :
    m.isFreeChecked debug idx = .ok free ↔
      (debug = true → m.base ≤ idx ∧ m.wrappingRel idx < SliceMap.capacity) ∧
        bit m.free (m.wrappingRel idx) = free := by
  unfold SliceMap.isFreeChecked
  simp only [bind_ok, refuse_ok, exists_const, not_and, not_lt, Except.ok.injEq]
  constructor
  · rintro ⟨hlo, hhi, hbit⟩
    exact ⟨fun hd => ⟨hlo hd, by have := hhi hd; omega⟩, hbit⟩
  · rintro ⟨hin, hbit⟩
    exact ⟨fun hd => (hin hd).1, fun hd => by have := (hin hd).2; omega, hbit⟩

theorem validateSlices_ok {m : SliceMap} {count idx : Nat} :
    Heap.validateSlices debug m count idx = .ok () ↔ ∀ s < count, m.NotFree debug (idx + s) := by
  induction count generalizing idx with
  | zero => simp [Heap.validateSlices]
  | succ count ih =>
    unfold Heap.validateSlices
    simp only [bind_ok, refuse_ok, exists_const, isFreeChecked_ok, ih]
    constructor
    · rintro ⟨free, ⟨hin, hbit⟩, hnot, hrest⟩ s hs
      cases s with
      | zero =>
        rw [Bool.not_eq_true] at hnot
        exact ⟨hin, hbit.trans hnot⟩
      | succ s =>
        have hs' := hrest s (by omega)
        rwa [Nat.add_right_comm] at hs'
    · intro hall
      have hfirst := hall 0 (by omega)
      refine ⟨false, hfirst, Bool.false_ne_true, fun s hs => ?_⟩
      have hs' := hall (s + 1) (by omega)
      rwa [Nat.add_right_comm]

theorem validatePlace_ok {b : Bytes} : Heap.validatePlace b qi p = .ok () ↔
    (qi = fullQueue → Page.inFullQueue b p = true ∧ Page.hasFree b p = false ∧
      Page.isExpandable b p = false) ∧
    (qi ≠ fullQueue → Page.get b p .bin = qi ∧ Page.inFullQueue b p = false) := by
  unfold Heap.validatePlace
  by_cases hqi : qi = fullQueue
  · rw [if_pos hqi]
    simp [bind_ok, refuse_ok, hqi]
  · rw [if_neg hqi]
    simp [bind_ok, refuse_ok, hqi]

theorem validateMember_ok (hp : p < usizeSize) :
    h.validateMember debug slices qi prev p = .ok () ↔
      Page.get h.bytes p .prev = prev ∧ QueueMember debug slices h qi p := by
  unfold Heap.validateMember
  simp only [bind_ok, refuse_ok, exists_const, ne_eq, not_not]
  constructor
  · rintro ⟨hprev, -, -, hrest⟩
    split at hrest
    · cases hrest
    · next hvalid =>
      have hv := (Page.validate_ok hp).mp hvalid
      rw [bind_ok] at hrest
      obtain ⟨_, hplace, hslices⟩ := hrest
      have hplace' := validatePlace_ok.mp hplace
      refine ⟨hprev, { valid := hv, full := hplace'.1, bin := hplace'.2, taken := fun hs => ?_ }⟩
      rw [if_pos hs, Page.kind_of_byte hv.kind] at hslices
      exact validateSlices_ok.mp hslices
  · rintro ⟨hprev, hm⟩
    have hkind := Page.kind_of_byte hm.valid.kind
    refine ⟨hprev, ?_, ?_, ?_⟩
    · rintro ⟨-, hnone⟩
      have hsome := Page.kindFromU8_iff.mpr hm.valid.kind
      unfold Heap.field at hnone
      rw [hnone] at hsome
      cases hsome
    · rw [hkind, ← Nat.dvd_iff_mod_eq_zero]
      exact hm.valid.aligned
    · rw [(Page.validate_ok hp).mpr hm.valid]
      simp only [bind_ok]
      refine ⟨(), validatePlace_ok.mpr ⟨hm.full, hm.bin⟩, ?_⟩
      cases hs : slices with
      | false => rfl
      | true =>
        rw [if_pos rfl, hkind]
        exact validateSlices_ok.mpr (hm.taken hs)

/-- The links lead from `prev` through members back to the record, and `left` of the room
    is not needed. -/
def MembersFrom {M : Type} (debug slices : Bool) (h : Heap M) (qi prev room left : Nat) : Prop :=
  ∃ l, Links.Linked (nextOf h.bytes (h.queues (queueIndex qi)))
      (prevOf h.bytes (h.queues (queueIndex qi))) (prev :: (l ++ [0])) ∧ 0 ∉ l ∧
    (∀ p ∈ l, QueueMember debug slices h qi p) ∧ l.length + left = room

theorem membersFrom_end (hnext : nextOf h.bytes (h.queues (queueIndex qi)) prev = 0) :
    MembersFrom debug slices h qi prev room left ↔
      prev = (h.queues (queueIndex qi)).last ∧ room = left := by
  constructor
  · rintro ⟨l, hlinked, hne, -, rfl⟩
    cases l with
    | nil =>
      have hlast := (List.isChain_cons_cons.mp hlinked).1.2
      exact ⟨hlast.symm, Nat.zero_add left⟩
    | cons p l =>
      have hfirst := (List.isChain_cons_cons.mp hlinked).1.1
      exact absurd (hnext.symm.trans hfirst) fun he => hne (he ▸ List.mem_cons_self)
  · rintro ⟨hlast, rfl⟩
    refine ⟨[], ?_, List.not_mem_nil, fun _ hm => absurd hm List.not_mem_nil, Nat.zero_add room⟩
    exact List.isChain_cons_cons.mpr ⟨⟨hnext, hlast.symm⟩, List.isChain_singleton 0⟩

theorem membersFrom_member (hnext : nextOf h.bytes (h.queues (queueIndex qi)) prev = cur)
    (h0 : cur ≠ 0) : MembersFrom debug slices h qi prev room left ↔
      ∃ room', room = room' + 1 ∧ (Page.get h.bytes cur .prev = prev ∧
        QueueMember debug slices h qi cur) ∧ MembersFrom debug slices h qi cur room' left := by
  have hprev : prevOf h.bytes (h.queues (queueIndex qi)) cur = Page.get h.bytes cur .prev := if_neg h0
  constructor
  · rintro ⟨l, hlinked, hne, hall, rfl⟩
    cases l with
    | nil => exact absurd (hnext.symm.trans (List.isChain_cons_cons.mp hlinked).1.1) h0
    | cons p l =>
      obtain ⟨⟨hp, hback⟩, hrest⟩ := List.isChain_cons_cons.mp hlinked
      obtain rfl : p = cur := hp.symm.trans hnext
      refine ⟨l.length + left, Nat.add_right_comm _ _ _, ⟨hprev.symm.trans hback,
        hall p List.mem_cons_self⟩, l, hrest, fun hm => hne (List.mem_cons_of_mem p hm),
        fun x hx => hall x (List.mem_cons_of_mem p hx), rfl⟩
  · rintro ⟨_, rfl, ⟨hback, hmember⟩, l, hlinked, hne, hall, rfl⟩
    refine ⟨cur :: l, List.isChain_cons_cons.mpr ⟨⟨hnext, hprev.trans hback⟩, hlinked⟩, ?_, ?_,
      Nat.add_right_comm _ _ _⟩
    · rw [List.mem_cons, not_or]
      exact ⟨Ne.symm h0, hne⟩
    · rw [List.forall_mem_cons]
      exact ⟨hmember, hall⟩

/-- The walk comes back to the record exactly along links that hold a list of members. -/
theorem walkQueue_ok (hcur : cur < usizeSize)
    (hnext : nextOf h.bytes (h.queues (queueIndex qi)) prev = cur) :
    h.walkQueue debug slices qi room prev cur = .ok ((h.queues (queueIndex qi)).last, left) ↔
      MembersFrom debug slices h qi prev room left := by
  induction room generalizing prev cur with
  | zero =>
    unfold Heap.walkQueue
    by_cases h0 : cur = 0
    · rw [if_pos h0, membersFrom_end (hnext.trans h0), Except.ok.injEq, Prod.mk.injEq]
    · rw [if_neg h0, membersFrom_member hnext h0]
      simp
  | succ room ih =>
    unfold Heap.walkQueue
    by_cases h0 : cur = 0
    · rw [if_pos h0, membersFrom_end (hnext.trans h0), Except.ok.injEq, Prod.mk.injEq]
    · have hlt : h.field cur .next < usizeSize := by
        rw [usizeSize_eq_pow]
        exact Page.get_lt _ _ .next
      rw [if_neg h0, membersFrom_member hnext h0]
      simp only [bind_ok, exists_const, validateMember_ok hcur]
      rw [ih hlt (if_neg h0)]
      constructor
      · rintro ⟨hmember, hrest⟩
        exact ⟨room, rfl, hmember, hrest⟩
      · rintro ⟨room', hroom, hmember, hrest⟩
        cases hroom
        exact ⟨hmember, hrest⟩

/-- **The queue validator accepts exactly the valid queues.** -/
theorem validateQueueInner_ok (hfirst : (h.queues (queueIndex qi)).first < usizeSize) :
    h.validateQueueInner debug qi slices = .ok () ↔ QueueValid debug slices h qi := by
  unfold Heap.validateQueueInner
  simp only [bind_ok, refuse_ok, exists_const, shift_and_one, ne_eq, not_not, not_and]
  have hroom : (h.queues (queueIndex qi)).count + 1 - 1 = (h.queues (queueIndex qi)).count := rfl
  constructor
  · rintro ⟨hindex, hbit, ⟨prev, left⟩, hwalk, rfl, hcount⟩
    obtain ⟨l, hring, hne, hall, hlen⟩ := (walkQueue_ok hfirst (if_pos rfl)).mp hwalk
    refine { index := hindex, occupied := by rw [hbit, decide_eq_true_eq], list := ⟨l, ?_, hall⟩ }
    have hchain := Links.Ring.chain hring
    exact { ring := hring, nodup := List.nodup_cons.mpr ⟨hne, hchain.1.nodup hne⟩
            count := by omega }
  · intro hv
    obtain ⟨l, hok, hall⟩ := hv.list
    have hlen := hok.count
    have hwalk : h.walkQueue debug slices qi ((h.queues (queueIndex qi)).count + 1) 0
        (h.queues (queueIndex qi)).first = .ok ((h.queues (queueIndex qi)).last, 1) :=
      (walkQueue_ok hfirst (if_pos rfl)).mpr
        ⟨l, hok.ring, (List.nodup_cons.mp hok.nodup).1, hall, by omega⟩
    exact ⟨hv.index, by rw [Bool.eq_iff_iff, decide_eq_true_eq]; exact hv.occupied, _, hwalk, rfl, hroom.symm⟩

end Queue

/-- **The validators are exact oracles.** For any bytes, the page validator reads links in
    initialised blocks only and accepts exactly the valid pages; for any links between
    pages, the queue validator accepts exactly the valid queues. -/
theorem validators_exact {M : Type} :
    (∀ (b : Bytes) page, page < usizeSize →
      ((Page.validate b page).1 = .ok () ↔ Page.Valid b page) ∧
      ∀ a ∈ (Page.validate b page).2, a ∈ Page.initialised b page ∧ page + pageHeaderReserve ≤ a ∧
        a + usizeBytes ≤ page + (kindOfBin (Page.get b page .bin)).pageSize) ∧
    ∀ debug (h : Heap M) qi, (h.queues (queueIndex qi)).first < usizeSize →
      (h.validateQueue debug qi = .ok () ↔ QueueValid debug true h qi) :=
  ⟨fun _ _ hpage => ⟨Page.validate_ok hpage, fun _ => Page.validate_reads hpage⟩,
    fun _ _ _ hfirst => validateQueueInner_ok hfirst⟩

end Wasmalloc

namespace Wasmalloc.Sample

/-- A page of bin 36 with its first blocks linked, and a heap whose queue 36 it is. -/
def linkedPage : ByteMem.Bytes := (Page.extend (Page.init (fun _ => 0) 65536 .small 36 true) 65536).2

def onePage : Heap Unit := { unused with bytes := linkedPage }.pushBack 36 65536

/-- The page and the queue pass, so they are valid. -/
theorem onePage_valid : Page.Valid onePage.bytes 65536 ∧ QueueValid true true onePage 36 :=
  ⟨((validators_exact (M := Unit)).1 _ _ (by decide)).1.mp (by decide +kernel),
    (validators_exact.2 true onePage 36 (by decide +kernel)).mp (by decide +kernel)⟩

end Wasmalloc.Sample
