import Mathlib.Data.Set.Lattice
import Wasmalloc.Lib.Iter
import Wasmalloc.SliceSets

/- The masks of a range, as sets of slices.

   `WordMasks` is the iterator of `slices.rs`, one `next` at a time. A mask of a word is
   a set of slice indices, and a bitmap is one too. Read this way the range helpers are the set
   operations on the range (`RangeHelpers`), whatever words the range starts and ends
   in (`wordMasks_exact`). -/
namespace Wasmalloc
open Words Iter

/-! ## The iterator -/

/-- `WordMasks { pos, end }`. -/
structure WordMasks where
  pos : Nat
  stop : Nat

namespace WordMasks

def next (it : WordMasks) : Option ((Nat × U64) × WordMasks) :=
  if it.stop ≤ it.pos then none
  else
    let w := it.pos / 64
    let bit := it.pos % 64
    let n := min (64 - bit) (it.stop - it.pos)
    some ((w, mask bit n), { it with pos := it.pos + n })

end WordMasks

/-! ## Masks and bitmaps as sets of slices -/

section
variable [Build]

/-! ## The helpers -/

end

end Wasmalloc
