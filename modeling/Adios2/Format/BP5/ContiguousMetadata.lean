import Adios2.Lib.Reader
import Adios2.Format.BP5.Helper

-- The buffer in which `BP5Serializer` hands over the metadata of a rank, or of a group of ranks, for
-- aggregation, and the two levels of aggregation in `BP5Writer`.

namespace BP5

open Bytes

-- What goes into a buffer. An attribute block can be missing.
structure ContiguousMetadata where
  newMetaMetaBlocks      : List MetaMetaInfoBlock
  metaEncodeBuffers      : List (List Byte)
  attributeEncodeBuffers : List (Option (List Byte))
  dataSizes              : List Nat
  writerDataPositions    : List Nat

-- The size of an attribute block.
def attrLen (a : Option (List Byte)) : Nat :=
  (a.getD []).length

-- `NeedThisAttr`, with the hashes in `AttrSet` so far.
def needThisAttr (hashOfBlock : List Byte → Digest) :
    List Digest → List (Option (List Byte)) → List Bool
  | _, []            => []
  | attrSet, a :: as =>
    if a.isSome ∧ 0 < attrLen a then
      let thisAttrHash := hashOfBlock (a.getD [])
      if thisAttrHash ∈ attrSet then
        false :: needThisAttr hashOfBlock attrSet as
      else
        true :: needThisAttr hashOfBlock (thisAttrHash :: attrSet) as
    else
      false :: needThisAttr hashOfBlock attrSet as

namespace ContiguousMetadata

variable (e : Endian) (hashOfBlock : List Byte → Digest) (m : ContiguousMetadata)

-- Every attribute block with whether it is written.
def attributes : List (Option (List Byte) × Bool) :=
  m.attributeEncodeBuffers.zip (needThisAttr hashOfBlock [] m.attributeEncodeBuffers)

-- The size that is computed in front of writing.
def retSize : Nat :=
  8 + (m.newMetaMetaBlocks.map fun n => 2 * 8 + (n.metaMetaInfo.length + n.metaMetaID.length)).sum
    + 8 + (m.metaEncodeBuffers.map fun b => 8 + alignedSize b.length).sum
    + 8 + ((m.attributes hashOfBlock).map fun (a, need) =>
        8 + if need then alignedSize (attrLen a) else 0).sum
    + 8 + m.dataSizes.length * 8
    + 8 + m.writerDataPositions.length * 8

def putMetaMeta (c : Cursor) (n : MetaMetaInfoBlock) : Option Cursor := do
  let c ← c.put (u64 e n.metaMetaID.length)
  let c ← c.put (u64 e n.metaMetaInfo.length)
  let c ← c.put n.metaMetaID
  c.put n.metaMetaInfo

def putBlock (c : Cursor) (block : List Byte) : Option Cursor := do
  let c ← c.put (u64 e (alignedSize block.length))
  let c ← c.put block
  if block.length ≠ alignedSize block.length then
    c.put (.replicate (alignedSize block.length - block.length) 0)
  else
    return c

def putAttribute (c : Cursor) : Option (List Byte) × Bool → Option Cursor
  | (some a, true) => putBlock e c a
  | _              => c.put (u64 e 0)

def putNumber (c : Cursor) (n : Nat) : Option Cursor :=
  c.put (u64 e n)

-- `CopyMetadataToContiguous`, with the position behind the last write.
def copyMetadataToContiguous : Option Cursor := do
  let c ← putNumber e (.zeros (m.retSize hashOfBlock)) m.newMetaMetaBlocks.length
  let c ← m.newMetaMetaBlocks.foldlM (putMetaMeta e) c
  let c ← putNumber e c m.metaEncodeBuffers.length
  let c ← m.metaEncodeBuffers.foldlM (putBlock e) c
  let c ← putNumber e c m.attributeEncodeBuffers.length
  let c ← (m.attributes hashOfBlock).foldlM (putAttribute e) c
  let c ← putNumber e c m.dataSizes.length
  let c ← m.dataSizes.foldlM (putNumber e) c
  let c ← putNumber e c m.writerDataPositions.length
  m.writerDataPositions.foldlM (putNumber e) c

end ContiguousMetadata

-- What `BreakoutContiguousMetadata` has found so far.
structure Breakout where
  uniqueMetaMetaBlocks : List MetaMetaInfoBlock := []
  metadataBlocks       : List (List Byte) := []
  attributeBlocks      : List (List Byte) := []
  dataSizes            : List Nat := []
  writerDataPositions  : List Nat := []
  deriving DecidableEq, Repr

namespace Breakout

variable (e : Endian) (aggregate : List Byte)

def metaMetaBlock : Reader MetaMetaInfoBlock := do
  let idLen ← Reader.number e aggregate
  let infoLen ← Reader.number e aggregate
  let metaMetaID ← Reader.bytes aggregate idLen
  let metaMetaInfo ← Reader.bytes aggregate infoLen
  return { metaMetaInfo, metaMetaID }

-- A metadata or attribute block.
def block : Reader (List Byte) := do
  let size ← Reader.number e aggregate
  Reader.bytes aggregate size

-- A block is new if its ID differs in length or content from all others.
def addUnique (unique : List MetaMetaInfoBlock) (n : MetaMetaInfoBlock) : List MetaMetaInfoBlock :=
  if n.metaMetaID ∈ unique.map (·.metaMetaID) then unique else unique ++ [n]

def rank (b : Breakout) : Reader Breakout := do
  let newMetaMetaBlocks ← Reader.list e aggregate (metaMetaBlock e aggregate)
  let metadataBlocks ← Reader.list e aggregate (block e aggregate)
  let attributeBlocks ← Reader.list e aggregate (block e aggregate)
  let dataSizes ← Reader.list e aggregate (Reader.number e aggregate)
  let writerDataPositions ← Reader.list e aggregate (Reader.number e aggregate)
  return {
    uniqueMetaMetaBlocks := newMetaMetaBlocks.foldl addUnique b.uniqueMetaMetaBlocks
    metadataBlocks       := b.metadataBlocks ++ metadataBlocks
    attributeBlocks      := b.attributeBlocks ++ attributeBlocks
    dataSizes            := b.dataSizes ++ dataSizes
    writerDataPositions  := b.writerDataPositions ++ writerDataPositions
  }

def ranks : Nat → Breakout → Reader Breakout
  | 0, b     => return b
  | n + 1, b => do
    let b ← b.rank e aggregate
    ranks n b

end Breakout

-- Of the counts that come with the buffer only their number is looked at.
def breakoutContiguousMetadata (e : Endian) (aggregate : List Byte) (ranks : Nat) :
    Option Breakout :=
  (Breakout.ranks e aggregate ranks {}).run' 0

-- What a rank contributes in a step.
structure TimestepInfo where
  newMetaMetaBlocks     : List MetaMetaInfoBlock
  metaEncodeBuffer      : List Byte
  attributeEncodeBuffer : Option (List Byte)
  dataSize              : Nat
  startDataPos          : Nat
  dataSize_lt           : dataSize < 2 ^ 64
  startDataPos_lt       : startDataPos < 2 ^ 64

def TimestepInfo.contiguous (t : TimestepInfo) : ContiguousMetadata where
  newMetaMetaBlocks      := t.newMetaMetaBlocks
  metaEncodeBuffers      := [t.metaEncodeBuffer]
  attributeEncodeBuffers := [t.attributeEncodeBuffer]
  dataSizes              := [t.dataSize]
  writerDataPositions    := [t.startDataPos]

-- The pieces that were found, as the first rank of a group hands them over again.
def Breakout.contiguous (b : Breakout) : ContiguousMetadata where
  newMetaMetaBlocks      := b.uniqueMetaMetaBlocks
  metaEncodeBuffers      := b.metadataBlocks
  attributeEncodeBuffers := b.attributeBlocks.map some
  dataSizes              := b.dataSizes
  writerDataPositions    := b.writerDataPositions

section Aggregate

variable (e : Endian) (hashOfBlock : List Byte → Digest)

def metaBuffer (m : ContiguousMetadata) : Option (List Byte) := do
  let c ← m.copyMetadataToContiguous e hashOfBlock
  return c.buffer

-- All buffers at one place.
def aggregateMetadata (buffers : List (List Byte)) : Option Breakout :=
  breakoutContiguousMetadata e buffers.flatten buffers.length

-- The first level of `TwoLevelAggregationMetadata`. The buffer of a rank that is alone in its group
-- is passed on as it is.
def groupBuffer (group : List TimestepInfo) : Option (List Byte) := do
  let buffers ← group.mapM fun t => metaBuffer e hashOfBlock t.contiguous
  match buffers with
  | [buffer] => return buffer
  | _        => do
    let b ← aggregateMetadata e buffers
    metaBuffer e hashOfBlock b.contiguous

def twoLevelAggregationMetadata (groups : List (List TimestepInfo)) : Option Breakout := do
  let buffers ← groups.mapM (groupBuffer e hashOfBlock)
  aggregateMetadata e buffers

-- All ranks in one level.
def oneLevelAggregationMetadata (ranks : List TimestepInfo) : Option Breakout := do
  let buffers ← ranks.mapM fun t => metaBuffer e hashOfBlock t.contiguous
  aggregateMetadata e buffers

end Aggregate

end BP5
