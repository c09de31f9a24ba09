import Wasmalloc.Program

/- The size-class decisions agree.

   How a Layout is served is decided in four places: `alloc` looks a slot of the direct
   table up, `dealloc` masks a limit, `classify` does the bin arithmetic, and `realloc`
   compares slots or bins. `classes_agree` says that they decide alike for every Layout,
   and that what `classify` decides is right: a block of the bin, in any page of its kind,
   holds the request, is aligned, and is masked back to the page; a run covers it. -/
namespace Wasmalloc

variable [Build] {layout newLayout : Layout} {b o n page : Nat}

/-! ## Blocks of a bin -/

/-- The address of block `i` of a page of bin `b`. -/
def blockAddr (page b i : Nat) : Nat := page + blockStart (binSize b) + i * binSize b

/-- The block at `a` serves `layout` in the page at `page`, of bin `b`. -/
structure Serves (layout : Layout) (page b a : Nat) : Prop where
  holds : PowTwo.roundUp layout.size layout.align ≤ binSize b
  aligned : layout.align ∣ a
  header : page + pageHeaderReserve ≤ a
  inside : a + binSize b ≤ page + (kindOfBin b).pageSize
  found : ∀ x, a ≤ x → x < a + binSize b → Page.headerOf (kindOfBin b) x = page

theorem page_end (hp : (kindOfBin b).pageSize ∣ page) (hlt : page < usizeSize) :
    page + (kindOfBin b).pageSize ≤ usizeSize := by
  obtain ⟨e, he, -, hpow⟩ := pageSize_pow (kindOfBin b)
  have hbits : e ≤ usizeBits := by
    rcases usizeBits_cases with h | h <;> omega
  obtain ⟨m, rfl⟩ := hp
  have hsplit : usizeSize = 2 ^ e * 2 ^ (usizeBits - e) := by
    rw [← Nat.pow_add, Nat.add_sub_cancel' hbits]
    rfl
  rw [hpow, hsplit] at hlt ⊢
  have hm : m < 2 ^ (usizeBits - e) := Nat.lt_of_mul_lt_mul_left hlt
  calc 2 ^ e * m + 2 ^ e = 2 ^ e * (m + 1) := (Nat.mul_succ _ _).symm
    _ ≤ 2 ^ e * 2 ^ (usizeBits - e) := Nat.mul_le_mul_left _ hm

/-- **Every block of the bin serves the request.** -/
theorem Binned.serves (h : Binned layout b) (hp : (kindOfBin b).pageSize ∣ page)
    (hlt : page < usizeSize) {i : Nat} (hi : i < blocksPerPage (kindOfBin b) (binSize b)) :
    Serves layout page b (blockAddr page b i) := by
  have hgeo := binGeometry h.bin_pos h.bin_lt
  have hend := page_end hp hlt
  have hblock : blockStart (binSize b) + i * binSize b + binSize b ≤ (kindOfBin b).pageSize :=
    calc blockStart (binSize b) + i * binSize b + binSize b
        = blockStart (binSize b) + (i + 1) * binSize b := by rw [Nat.succ_mul, Nat.add_assoc]
      _ ≤ blockStart (binSize b) + blocksPerPage (kindOfBin b) (binSize b) * binSize b :=
          Nat.add_le_add_left (Nat.mul_le_mul_right _ hi) _
      _ ≤ (kindOfBin b).pageSize := hgeo.fits
  have hstart := hgeo.start_ge
  unfold blockAddr
  refine { holds := h.rounded_le, aligned := ?_, header := by omega, inside := by omega,
           found := fun x hlo hhi => headerOf_eq hp hend (by omega) (by omega) }
  obtain ⟨k, hk, hk'⟩ := layout.align_exp h.align_le
  have hsize := h.align_dvd
  rw [hk'] at hsize ⊢
  have hpage : 2 ^ k ∣ page := by
    refine dvd_trans ?_ hp
    obtain ⟨e, -, hge, hpow⟩ := pageSize_pow (kindOfBin b)
    rw [hpow]
    exact Nat.pow_dvd_pow 2 (by omega)
  exact Nat.dvd_add (Nat.dvd_add hpage (hgeo.start_dvd k hk hsize)) (Dvd.dvd.mul_left hsize i)

/-! ## The direct table -/

/-- A size that the direct table does not serve has a bin above it, if any. -/
theorem above_direct (hs : 1 ≤ layout.size) (hlarge : ¬ directSize layout ≤ directMaxSize)
    (hclass : classify layout = .bin b) : directMaxBin < b := by
  have hbinned := classify_bin hs hclass
  rw [directSize_eq hbinned.align_le] at hlarge
  have hmax : maxBinnedObjSize ≤ largeMaxObjSize := by decide
  have hdirect : binSize directMaxBin = directMaxSize := by decide +kernel
  by_contra hle
  rw [not_lt, hbinned.bin_eq, bin_le_iff (hs.trans (le_binnedSize layout))
    (hbinned.binned_le.trans hmax) (by decide +kernel) (by decide +kernel), hdirect] at hle
  exact hlarge hle

/-! ## Resizing in place -/

/-- What `realloc` relies on when it keeps a block of bin `o` for `newLayout`, of bin `n`. -/
structure KeepsServing (newLayout : Layout) (o n : Nat) : Prop where
  bin_le : n ≤ o
  kind : kindOfBin n = kindOfBin o
  holds : PowTwo.roundUp newLayout.size newLayout.align ≤ binSize o

theorem fitsInPlace_keeps (hnew : Binned newLayout n) (ho : o ≤ maxBin) {newSize : Nat}
    (hfits : fitsInPlace o n newSize = true) : KeepsServing newLayout o n := by
  unfold fitsInPlace at hfits
  simp only [Bool.or_eq_true, Bool.and_eq_true, beq_iff_eq, decide_eq_true_eq] at hfits
  have hle : n ≤ o := by
    rcases hfits with rfl | ⟨⟨hlt, -⟩, -⟩
    · exact Nat.le_refl _
    · exact Nat.le_of_lt hlt
  refine { bin_le := hle, kind := ?_, holds := hnew.rounded_le.trans (binSize_le ho hle) }
  rcases hfits with rfl | ⟨⟨-, hkind⟩, -⟩
  · rfl
  · exact hkind

omit [Build] in
theorem not_fitsInPlace {newSize : Nat} (hfits : fitsInPlace o n newSize = false) : n ≠ o := by
  rintro rfl
  unfold fitsInPlace at hfits
  simp at hfits

/-! ## The agreement -/

/-- The decisions about one Layout agree. -/
structure ClassesAgree (layout : Layout) : Prop where
  direct : directSize layout ≤ directMaxSize →
    classify layout = .bin (bin (directIndex (directSize layout) * word))
  generic : ¬ directSize layout ≤ directMaxSize →
    classify layout = .huge ∨ ∃ b, classify layout = .bin b ∧ directMaxBin < b
  small : (layout.align ≤ maxNaturalAlign ∧
    layout.size ≤ smallMaxObjSize &&& wrappingNeg layout.align) ↔
      ∃ b, classify layout = .bin b ∧ kindOfBin b = .small
  binned : ∀ b, classify layout = .bin b → ∀ page, (kindOfBin b).pageSize ∣ page →
    page < usizeSize → ∀ i, i < blocksPerPage (kindOfBin b) (binSize b) →
      Serves layout page b (blockAddr page b i)
  huge : classify layout = .huge → layout.size ≤ hugeSlices layout * sliceSize ∧
    ∀ start, max (divCeil layout.align sliceSize) 1 ∣ start → layout.align ∣ start * sliceSize

/-- The decisions about two Layouts of one alignment agree. -/
structure ResizesAgree (layout newLayout : Layout) : Prop where
  slot : layout.align ≤ word → layout.size ≤ directMaxSize → newLayout.size ≤ directMaxSize →
    directIndex layout.size = directIndex newLayout.size →
    ∃ b, classify layout = .bin b ∧ classify newLayout = .bin b
  fits : ∀ o n, classify layout = .bin o → classify newLayout = .bin n →
    fitsInPlace o n newLayout.size = true → KeepsServing newLayout o n ∧
      ((newLayout.align ≤ maxNaturalAlign ∧
        newLayout.size ≤ smallMaxObjSize &&& wrappingNeg newLayout.align) ↔ kindOfBin o = .small)
  moves : ∀ o n, classify layout = .bin o → classify newLayout = .bin n →
    fitsInPlace o n newLayout.size = false → n ≠ o

/-- **All size-class decisions agree**, for every Layout and for both widths of `usize`. -/
theorem classes_agree (layout : Layout) (hs : 1 ≤ layout.size) : ClassesAgree layout ∧
    ∀ newLayout : Layout, 1 ≤ newLayout.size → newLayout.align = layout.align →
      ResizesAgree layout newLayout := by
  refine ⟨{ direct := fun hd => (classify_direct hs hd).1, generic := fun hd => ?_
            small := smallTest_iff hs, binned := ?_, huge := fun _ => ⟨huge_covers layout, ?_⟩ }, ?_⟩
  · cases hclass : classify layout with
    | huge => exact Or.inl rfl
    | bin b => exact Or.inr ⟨b, rfl, above_direct hs hd hclass⟩
  · exact fun b hclass page hp hlt i hi => (classify_bin hs hclass).serves hp hlt hi
  · obtain ⟨k, -, hk, hdvd⟩ := hugeAlign layout
    rw [hk]
    exact hdvd
  · intro newLayout hs' halign
    refine { slot := fun hw h1 h2 hidx => ?_, fits := fun o n ho hn hfits => ⟨?_, ?_⟩
             moves := fun o n _ _ hno => not_fitsInPlace hno }
    · have fits : newLayout.size + layout.align ≤ usizeSize / 2 := halign ▸ newLayout.size_le
      have hnew : layout.withSize newLayout.size fits = newLayout := by
        obtain ⟨size, align, hpow, hle⟩ := newLayout
        subst halign
        rfl
      have := same_slot fits hs hs' ⟨hw, h1, h2, hidx⟩
      rwa [hnew] at this
    · exact fitsInPlace_keeps (classify_bin hs' hn) (classify_bin hs ho).bin_lt hfits
    · have hkeeps := fitsInPlace_keeps (classify_bin hs' hn) (classify_bin hs ho).bin_lt hfits
      rw [smallTest_iff hs', hn, ← hkeeps.kind]
      exact ⟨fun ⟨b, hb, hkind⟩ => Class.bin.inj hb ▸ hkind, fun hkind => ⟨n, rfl, hkind⟩⟩

end Wasmalloc

namespace Wasmalloc.Sample

theorem small_classes_agree : ClassesAgree small ∧ ∀ newLayout : Layout, 1 ≤ newLayout.size →
    newLayout.align = small.align → ResizesAgree small newLayout :=
  classes_agree small (by decide)

end Wasmalloc.Sample
