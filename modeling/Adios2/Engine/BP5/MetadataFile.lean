import Adios2.Format.BP5.Base

-- The metadata file `md.0`: what `BP5Writer::WriteMetadata` writes for a step, and how
-- `BP5Reader::InstallMetadataForTimestep` takes it apart again. What is written to the file of the
-- formats, `mmd.0`.

namespace BP5

open Bytes

def sizes (blocks : List (List Byte)) : List Nat :=
  blocks.map List.length

-- `WriteMetadata` for the blocks of all ranks, as `TwoLevelAggregationMetadata` has them. The size
-- that it returns comes with the bytes.
def writeMetadata (e : Endian) (metaDataBlocks attributeBlocks : List (List Byte)) :
    List Byte × Nat :=
  let sizeVector := sizes metaDataBlocks
  let attrSizeVector := sizes attributeBlocks
  let mDataTotalSize := (sizeVector.map (8 + ·)).sum + (attrSizeVector.map (8 + ·)).sum
  (u64 e mDataTotalSize ++ u64s e sizeVector ++ u64s e attrSizeVector ++ metaDataBlocks.flatten
      ++ attributeBlocks.flatten,
    -- both vectors are counted with the size of the second one
    8 + 8 * attrSizeVector.length + 8 * attrSizeVector.length + sizeVector.sum + attrSizeVector.sum)

-- `WriteMetadata` for blocks that are one behind the other in memory, as
-- `SelectiveAggregationMetadata` has them. There is an attribute size for every rank, and those
-- without a block come last.
def writeContigMetadata (e : Endian) (contigMetaData : List Byte) (sizeVector : List Nat)
    (attributeBlocks : List (List Byte)) : List Byte × Nat :=
  let attrSizeVector := (List.range sizeVector.length).map fun a =>
    match attributeBlocks[a]? with
    | some b => b.length
    | none   => 0
  let mDataTotalSize := sizeVector.sum + sizeVector.length * 8 + (attrSizeVector.map (8 + ·)).sum
  let headerBuf := u64s e (mDataTotalSize :: (sizeVector ++ attrSizeVector))
  (headerBuf ++ contigMetaData ++ attributeBlocks.flatten,
    8 + 8 * attrSizeVector.length + 8 * attrSizeVector.length + contigMetaData.length
      + (sizes attributeBlocks).sum)

def writeMetaMetadata (e : Endian) (metaMetaBlocks : List MetaMetaInfoBlock) : List Byte :=
  metaMetaBlocks.flatMap fun b =>
    u64 e b.metaMetaID.length ++ u64 e b.metaMetaInfo.length ++ b.metaMetaID ++ b.metaMetaInfo

-- What the deserializer is given for a step.
structure Installs where
  metadata   : List (List Byte)
  attributes : List (List Byte)
  deriving DecidableEq, Repr

-- One of the two loops over the writers: sizes are read from one position on, and blocks from another.
-- The position behind the last block comes with the blocks.
def installBlocks (e : Endian) (metadata : List Byte) :
    Nat → Nat → Nat → Option (List (List Byte) × Nat)
  | 0, _, mdPosition            => some ([], mdPosition)
  | n + 1, position, mdPosition => do
    let thisSize ← readUInt e 8 metadata position
    let block ← readBytes metadata mdPosition thisSize
    let (blocks, mdPosition) ← installBlocks e metadata n (position + 8) (mdPosition + thisSize)
    return (block :: blocks, mdPosition)

def installMetadataForTimestep (e : Endian) (metadata : List Byte) (pgstart writerCount : Nat) :
    Option Installs := do
  -- skip total data size
  let position := pgstart + 8
  let mdPosition := position + 2 * 8 * writerCount
  let (blocks, mdPosition) ← installBlocks e metadata writerCount position mdPosition
  let (attributes, _) ←
    installBlocks e metadata writerCount (position + 8 * writerCount) mdPosition
  return { metadata := blocks, attributes := attributes.filter fun a => !a.isEmpty }

end BP5
