import Adios2.Engine.BP5.MetadataFile

-- A record of the metadata file is taken apart into the blocks that it was made from.

namespace BP5

open Bytes

variable {e : Endian} {blocks attributes : List (List Byte)} {buf : List Byte} {pos : Nat}

@[simp]
theorem sizes_length : (sizes blocks).length = blocks.length :=
  List.length_map _

theorem sizes_sum : (sizes blocks).sum = blocks.flatten.length :=
  List.length_flatten.symm

def metadataRecord (e : Endian) (blocks attributes : List (List Byte)) : List Byte :=
  (writeMetadata e blocks attributes).1

theorem metadataRecord_length : (metadataRecord e blocks attributes).length =
    8 + 8 * blocks.length + 8 * attributes.length + blocks.flatten.length
      + attributes.flatten.length := by
  simp only [metadataRecord, writeMetadata, List.length_append, u64_length, u64s_length, sizes_length]

theorem installBlocks_eq {mdPos : Nat} (hsizes : Holds buf pos (u64s e (sizes blocks)))
    (hblocks : Within buf mdPos blocks.flatten) (hlt : blocks.flatten.length < 2 ^ 64) :
    installBlocks e buf blocks.length pos mdPos = some (blocks, mdPos + blocks.flatten.length) := by
  induction blocks generalizing pos mdPos with
  | nil => rfl
  | cons block blocks ih =>
    rw [sizes, List.map_cons, u64s_cons, holds_append, u64_length] at hsizes
    rw [List.flatten_cons] at hblocks
    rw [List.flatten_cons, List.length_append] at hlt
    have ⟨hblock, hrest⟩ := hblocks.append
    have hsize := readUInt_u64 hsizes.left (by omega)
    have hih := ih hsizes.right hrest (by omega)
    rw [List.length_cons, installBlocks, hsize, Option.bind_eq_bind, Option.bind_some,
      hblock.readBytes]
    simp [hih, Nat.add_assoc]

-- The record can be anywhere in memory.
theorem installMetadataForTimestep_eq {n : Nat} (hblocks : blocks.length = n)
    (hattributes : attributes.length = n)
    (h : Within buf pos (metadataRecord e blocks attributes))
    (hlt : (metadataRecord e blocks attributes).length < 2 ^ 64) :
    installMetadataForTimestep e buf pos n =
      some { metadata := blocks, attributes := attributes.filter fun a => !a.isEmpty } := by
  rw [metadataRecord_length] at hlt
  have ⟨h, hattr⟩ := h.append
  have ⟨h, hmd⟩ := h.append
  have ⟨h, hattrSizes⟩ := h.append
  have ⟨_, hsizes⟩ := h.append
  simp only [List.length_append, u64_length, u64s_length, sizes_length, hblocks, hattributes]
    at hsizes hattrSizes hmd hattr
  have h₁ : installBlocks e buf n (pos + 8) (pos + (8 + 8 * n + 8 * n)) = _ :=
    hblocks ▸ installBlocks_eq hsizes.holds hmd (by omega)
  have h₂ : installBlocks e buf n (pos + (8 + 8 * n))
      (pos + (8 + 8 * n + 8 * n + blocks.flatten.length)) = _ :=
    hattributes ▸ installBlocks_eq hattrSizes.holds hattr (by omega)
  have hmdPosition : pos + 8 + 2 * 8 * n = pos + (8 + 8 * n + 8 * n) := by ring
  have hattrPosition : pos + 8 + 8 * n = pos + (8 + 8 * n) := by ring
  unfold installMetadataForTimestep
  dsimp only
  rw [hmdPosition, hattrPosition, h₁, Option.bind_eq_bind, Option.bind_some]
  dsimp only
  rw [Nat.add_assoc, h₂]
  rfl

-- Blocks that are one behind the other in memory lead to the same record. Ranks without an attribute
-- block have an empty one.
theorem writeContigMetadata_eq (hlen : attributes.length ≤ blocks.length) :
    writeContigMetadata e blocks.flatten (sizes blocks) attributes = writeMetadata e blocks
      (attributes ++ .replicate (blocks.length - attributes.length) []) := by
  have hattr (l : List (List Byte)) : sizes (attributes ++ l) = sizes attributes ++ sizes l :=
    List.map_append
  have hnone (n : Nat) : sizes (.replicate n []) = .replicate n 0 :=
    List.map_replicate
  have hempty (n : Nat) : (List.replicate n ([] : List Byte)).flatten = [] := by
    simp
  have htotal : (sizes blocks).sum + (sizes blocks).length * 8
      = ((sizes blocks).map (8 + ·)).sum := by
    generalize sizes blocks = l
    induction l with
    | nil => rfl
    | cons n l ih =>
      simp only [List.sum_cons, List.length_cons, List.map_cons]
      omega
  unfold writeContigMetadata writeMetadata
  dsimp only
  generalize hv : List.map _ (List.range (sizes blocks).length) = attrSizeVector
  have hsizes : attrSizeVector
      = sizes attributes ++ .replicate (blocks.length - attributes.length) 0 := by
    rw [← hv, sizes_length]
    apply List.ext_getElem
    · simp [hlen]
    · intro i hi _
      rw [List.length_map, List.length_range] at hi
      by_cases hi' : i < attributes.length
      · simp [sizes, hi']
      · rw [List.getElem_append_right (by rw [sizes_length]; omega)]
        simp [hi']
  rw [hsizes, htotal, hattr, hnone, List.flatten_append, hempty]
  simp [sizes_sum, List.append_assoc]

end BP5
