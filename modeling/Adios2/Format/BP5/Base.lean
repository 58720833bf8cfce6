import Adios2.Helper.Log

-- What serializer, deserializer and engines of BP5 share.

namespace BP5

open Bytes

-- `(size + 7) & ~0x7`
def alignedSize (size : Nat) : Nat := (size + 7) / 8 * 8

-- A block with zeros up to a multiple of eight bytes.
def padded (block : List Byte) : List Byte :=
  block ++ .replicate (alignedSize block.length - block.length) 0

structure MetaMetaInfoBlock where
  metaMetaInfo : List Byte
  metaMetaID   : List Byte
  deriving DecidableEq, Repr

def MetaMetaInfoBlock.padded (b : MetaMetaInfoBlock) : MetaMetaInfoBlock :=
  { b with metaMetaInfo := BP5.padded b.metaMetaInfo }

theorem le_alignedSize (n : Nat) : n ≤ alignedSize n := by
  unfold alignedSize
  omega

@[simp]
theorem padded_length (block : List Byte) : (padded block).length = alignedSize block.length := by
  have := le_alignedSize block.length
  simp [padded, this]

@[simp]
theorem padded_nil : padded [] = [] := rfl

theorem alignedSize_pos {n : Nat} (h : 0 < n) : 0 < alignedSize n := by
  unfold alignedSize
  omega

theorem dvd_alignedSize (n : Nat) : 8 ∣ alignedSize n :=
  Nat.dvd_mul_left 8 _

@[simp]
theorem alignedSize_alignedSize (n : Nat) : alignedSize (alignedSize n) = alignedSize n := by
  unfold alignedSize
  omega

@[simp]
theorem padded_padded (block : List Byte) : padded (padded block) = padded block := by
  rw [padded, padded_length, alignedSize_alignedSize, Nat.sub_self]
  exact List.append_nil _

end BP5
