import Adios2.Toolkit.Aggregator.MPIShmChain
import Adios2.Engine.BP5.Theorems.DataPlacement

-- When the two buffers have a size, and where they lie in the segment.

namespace MPIShmChain

open BP5 Layout

variable {n a sizeofSegment blocksize maxsegmentsize : Nat}

theorem alignSize_eq (ha : 0 < a) (h : alignUp a n < wordSize) : alignSize n a = alignUp a n := by
  rw [alignSize, paddingToAlignOffset_eq ha]
  exact Nat.mod_eq_of_lt h

theorem subSize_eq {m : Nat} (hm : m < wordSize) (hn : n ≤ m) : subSize m n = m - n := by
  rw [subSize, show m + wordSize - n = m - n + wordSize by omega, Nat.add_mod_right,
    Nat.mod_eq_of_lt (by omega)]

-- Either everything fits, or there is room for the least size of two buffers in what is allowed. In
-- both cases the sizes are numbers of type `size_t`.
def Fits (sizeofSegment blocksize maxsegmentsize a : Nat) : Prop :=
  alignUp a sizeofSegment + 2 * alignUp a blocksize ≤ maxsegmentsize ∨
  alignUp a sizeofSegment + 2 * alignUp a blocksize < wordSize ∧
    alignUp a sizeofSegment + 2 * a ≤ maxsegmentsize / a * a

instance : Decidable (Fits sizeofSegment blocksize maxsegmentsize a) :=
  inferInstanceAs (Decidable (_ ∨ _))

namespace Fits

theorem size_lt (hmax : maxsegmentsize < wordSize)
    (h : Fits sizeofSegment blocksize maxsegmentsize a) :
    alignUp a sizeofSegment + 2 * alignUp a blocksize < wordSize := by
  cases h with
  | inl h => omega
  | inr h => exact h.left

-- The sizes that are calculated from what is allowed.
theorem rolledBack (ha : 0 < a) (hmax : maxsegmentsize < wordSize) {s : Nat}
    (hroom : s + 2 * a ≤ maxsegmentsize / a * a) :
    alignSize ((subSize maxsegmentsize a + 1) % wordSize) a = maxsegmentsize / a * a ∧
    alignSize ((subSize (subSize (maxsegmentsize / a * a) s / 2) a + 1) % wordSize) a =
      (maxsegmentsize / a * a - s) / 2 / a * a := by
  have hle : maxsegmentsize / a * a ≤ maxsegmentsize := Nat.div_mul_le_self _ _
  constructor
  · rw [subSize_eq hmax (by omega), Nat.mod_eq_of_lt (by omega),
      show maxsegmentsize - a + 1 = maxsegmentsize + 1 - a by omega]
    rw [alignSize_eq ha, alignUp_sub_eq ha (by omega)]
    rw [alignUp_sub_eq ha (by omega)]
    omega
  · have hdiff : subSize (maxsegmentsize / a * a) s = maxsegmentsize / a * a - s :=
      subSize_eq (by omega) (by omega)
    rw [hdiff]
    generalize hhalf : (maxsegmentsize / a * a - s) / 2 = half
    have hlt : half / a * a ≤ half := Nat.div_mul_le_self _ _
    rw [subSize_eq (by omega) (by omega), Nat.mod_eq_of_lt (by omega),
      show half - a + 1 = half + 1 - a by omega]
    rw [alignSize_eq ha, alignUp_sub_eq ha (by omega)]
    rw [alignUp_sub_eq ha (by omega)]
    omega

-- Two buffers behind the structure fill the segment, and they have a size where there is something to
-- be copied.
theorem createShm (ha : 0 < a) (hmax : maxsegmentsize < wordSize)
    (h : Fits sizeofSegment blocksize maxsegmentsize a) :
    ∃ size, createShm sizeofSegment blocksize maxsegmentsize a =
        { totalSize := structSize sizeofSegment a + 2 * size, blockSize := size } ∧
      structSize sizeofSegment a + 2 * size ≤ maxsegmentsize ∧ (0 < blocksize → 0 < size) := by
  have hlt := h.size_lt hmax
  have hstruct : structSize sizeofSegment a = alignUp a sizeofSegment := alignSize_eq ha (by omega)
  have hblock : alignSize blocksize a = alignUp a blocksize := alignSize_eq ha (by omega)
  unfold MPIShmChain.createShm
  dsimp only
  rw [hstruct, hblock, Nat.mod_eq_of_lt hlt]
  split
  case isTrue hgt =>
    -- what is allowed does not hold everything
    have hroom : alignUp a sizeofSegment + 2 * a ≤ maxsegmentsize / a * a := by
      cases h with
      | inl h => omega
      | inr h => exact h.right
    have ⟨htotal, hsize⟩ := rolledBack ha hmax hroom
    rw [htotal, hsize]
    generalize hhalf : (maxsegmentsize / a * a - alignUp a sizeofSegment) / 2 = half
    have hle : maxsegmentsize / a * a ≤ maxsegmentsize := Nat.div_mul_le_self _ _
    have hhalf' : half / a * a ≤ half := Nat.div_mul_le_self _ _
    refine ⟨half / a * a, ?_, by omega, fun _ => ?_⟩
    · rw [Nat.mod_eq_of_lt (by omega)]
    · exact Nat.mul_pos (Nat.div_pos (by omega) ha) ha
  case isFalse hle =>
    refine ⟨alignUp a blocksize, rfl, by omega, fun hpos => ?_⟩
    exact lt_of_lt_of_le hpos le_alignUp

end Fits

theorem queriedBlockSize_eq {s size : Nat} (h : s + 2 * size < wordSize) :
    queriedBlockSize (s + 2 * size) s = size := by
  rw [queriedBlockSize, subSize_eq h (by omega)]
  omega

-- A segment that is to be too small leaves no room in the buffers.
example : createShm 112 1000 128 32 = { totalSize := 128, blockSize := 0 } := by decide

end MPIShmChain
