import Adios2.Format.BP5.Base

-- `BP5Helper`: the exchange in which rank 0 collects the meta-metadata and attribute blocks that it
-- does not have from another rank already.

namespace BP5

open Bytes

abbrev Digest := List Byte

def digestSize := 16

theorem replicate_digest : (List.replicate 16 (0 : Byte)).length = digestSize := rfl

-- The slot of an ID in a zeroed array of digests.
def toDigest (id : List Byte) : Digest :=
  id ++ .replicate (digestSize - id.length) 0

-- `FMformatID_len`, from the version that an ID has in its first byte.
def formatIDLen (d : Digest) : Outcome Nat :=
  if (d.drop 4).take 4 = [0, 0, 0, 0] then
    .ok 8
  else
    match d.head? with
    | some 0 => .ok 8
    | some 1 => .ok 10
    | some 2 => .ok 12
    | _      => .error .undefined

-- A block as it comes from FFS: it is not empty, and its ID tells its own length.
structure MetaMetaInfoBlock.WellFormed (b : MetaMetaInfoBlock) : Prop where
  info_ne : b.metaMetaInfo ≠ []
  id_le   : b.metaMetaID.length ≤ digestSize
  id_len  : formatIDLen (toDigest b.metaMetaID) = .ok b.metaMetaID.length

def fixedMMBSlotCount := 4

-- What a rank brings to the exchange. Blocks of FFS are never empty.
structure RankInfo where
  newMetaMetaBlocks     : List MetaMetaInfoBlock
  attributeEncodeBuffer : Option (List Byte)
  metaEncodeSize        : Nat
  writerDataPosition    : Nat
  blocks_le             : newMetaMetaBlocks.length ≤ fixedMMBSlotCount
  blocks_wellFormed     : ∀ b ∈ newMetaMetaBlocks, b.WellFormed
  attribute_ne          : attributeEncodeBuffer ≠ some []

structure NodeContrib where
  attrHash           : Digest
  attrSize           : Nat
  mmbCount           : Nat
  mmbArray           : List Digest
  mmbSizeArray       : List Nat
  metaEncodeSize     : Nat
  writerDataPosition : Nat

-- The hash of a rank without attributes is not set, and not looked at.
def buildFixedNodeContrib (hashOfBlock : List Byte → Digest) (r : RankInfo) : NodeContrib where
  attrHash           := match r.attributeEncodeBuffer with
    | some a => hashOfBlock (padded a)
    | none   => .replicate digestSize 0
  attrSize           := match r.attributeEncodeBuffer with
    | some a => alignedSize a.length
    | none   => 0
  mmbCount           := r.newMetaMetaBlocks.length
  mmbArray           := (List.range fixedMMBSlotCount).map fun i =>
    match r.newMetaMetaBlocks[i]? with
    | some b => toDigest b.metaMetaID
    | none   => .replicate digestSize 0
  mmbSizeArray       := (List.range fixedMMBSlotCount).map fun i =>
    match r.newMetaMetaBlocks[i]? with
    | some b => alignedSize b.metaMetaInfo.length
    | none   => 0
  metaEncodeSize     := r.metaEncodeSize
  writerDataPosition := r.writerDataPosition

-- What rank 0 makes of the contributions, with the two sets that it needs on the way.
structure MInfo where
  attrSet             : List Digest := []
  mmbSet              : List Digest := []
  secondRecvCounts    : List Nat := []
  bcastInfo           : List Nat := []
  writerDataPositions : List Nat := []
  metaEncodeSize      : List Nat := []
  attrSizes           : List Nat := []
  mmbSizes            : List Nat := []
  mmbIDs              : List Digest := []

-- The loop over the blocks of a node, with `MMsNeeded` and `SecondRecvSize`.
structure BlockLoop where
  info           : MInfo
  mmsNeeded      : Nat := 0
  secondRecvSize : Nat := 0

def BlockLoop.block (l : BlockLoop) (block : Nat) (thisMMB : Digest) (thisMMBSize : Nat) :
    BlockLoop :=
  if thisMMBSize ≠ 0 ∧ thisMMB ∉ l.info.mmbSet then
    {
      info           := { l.info with
        mmbSet   := thisMMB :: l.info.mmbSet
        mmbSizes := l.info.mmbSizes ++ [alignedSize thisMMBSize]
        mmbIDs   := l.info.mmbIDs ++ [thisMMB]
      }
      mmsNeeded      := l.mmsNeeded + 2 ^ block
      secondRecvSize := l.secondRecvSize + alignedSize thisMMBSize
    }
  else
    l

def BlockLoop.blocks (nc : NodeContrib) : Nat → Nat → BlockLoop → Option BlockLoop
  | 0, _, l         => some l
  | n + 1, block, l => do
    let thisMMB ← nc.mmbArray[block]?
    let thisMMBSize ← nc.mmbSizeArray[block]?
    blocks nc n (block + 1) (l.block block thisMMB thisMMBSize)

namespace MInfo

def needAttr (info : MInfo) (nc : NodeContrib) : Bool :=
  nc.attrSize ≠ 0 ∧ nc.attrHash ∉ info.attrSet

def attrBit := 2 ^ 63

def node (info : MInfo) (nc : NodeContrib) : Option MInfo := do
  let needAttr := info.needAttr nc
  let l ← BlockLoop.blocks nc nc.mmbCount 0 {
    info           := { info with
      attrSizes := info.attrSizes ++ [nc.attrSize]
      attrSet   := if needAttr then nc.attrHash :: info.attrSet else info.attrSet
    }
    secondRecvSize := if needAttr then alignedSize nc.attrSize else 0
  }
  return { l.info with
    metaEncodeSize      := info.metaEncodeSize ++ [nc.metaEncodeSize]
    writerDataPositions := info.writerDataPositions ++ [nc.writerDataPosition]
    secondRecvCounts    := info.secondRecvCounts ++ [l.secondRecvSize]
    bcastInfo           := info.bcastInfo ++ [(if needAttr then attrBit else 0) ||| l.mmsNeeded]
  }

end MInfo

-- There is no result for a node with more blocks than there are slots. All ranks go on to another
-- exchange in that case.
def breakdownFixedIncomingMInfo (ncs : List NodeContrib) : Option MInfo :=
  ncs.foldlM (fun info nc => if nc.mmbCount > fixedMMBSlotCount then none else info.node nc) {}

-- The state of `BreakdownIncomingMData`.
structure MData where
  pos                    : Nat := 0
  newMetaMetaBlocks      : List MetaMetaInfoBlock := []
  attributeEncodeBuffers : List (List Byte) := []

namespace MData

variable (info : MInfo) (incomingMMA : List Byte)

def takeAttribute (mask attrSize : Nat) (d : MData) : Outcome MData :=
  if mask.testBit 63 then do
    let buffer ← (readBytes incomingMMA d.pos attrSize).orUndefined
    return { d with
      pos                    := d.pos + attrSize
      attributeEncodeBuffers := d.attributeEncodeBuffers ++ [buffer]
    }
  else
    .ok d

def takeBlock (d : MData) : Outcome MData := do
  let index := d.newMetaMetaBlocks.length
  let size ← (info.mmbSizes[index]?).orUndefined
  let metaMetaInfo ← (readBytes incomingMMA d.pos size).orUndefined
  let id ← (info.mmbIDs[index]?).orUndefined
  let metaMetaIDLen ← formatIDLen id
  return { d with
    pos               := d.pos + size
    newMetaMetaBlocks :=
      d.newMetaMetaBlocks ++ [{ metaMetaInfo, metaMetaID := id.take metaMetaIDLen }]
  }

-- `while (BcastInfo[node])`. The index of the bit only moves on behind a bit that is set.
def takeBlocks : Nat → Nat → Nat → MData → Outcome MData
  | 0, _, _, _           => .error .outOfFuel
  | fuel + 1, mask, b, d =>
    if mask = 0 then
      .ok d
    else if mask.testBit b then do
      let d ← d.takeBlock info incomingMMA
      takeBlocks fuel (mask.ldiff (2 ^ b)) (b + 1) d
    else
      takeBlocks fuel mask b d

-- One node, with the sum of the counts of the nodes up to it.
def node (fuel mask attrSize sum : Nat) (d : MData) : Outcome MData := do
  let d ← d.takeAttribute incomingMMA mask attrSize
  let d ← takeBlocks info incomingMMA fuel (mask.ldiff MInfo.attrBit) 0 d
  if d.pos ≠ sum then .error <| .logicError "Bad deserialization" else return d

-- The counts, masks and attribute sizes are of the nodes that are left.
def nodes (fuel : Nat) : List Nat → List Nat → List Nat → Nat → MData → Outcome MData
  | [], _, _, _, d => .ok d
  | count :: counts, mask :: masks, attrSize :: attrSizes, sum, d => do
    let d ← d.node info incomingMMA fuel mask attrSize (sum + count)
    nodes fuel counts masks attrSizes (sum + count) d
  | _, _, _, _, _ => .error .undefined

end MData

def breakdownIncomingMData (fuel : Nat) (info : MInfo) (incomingMMA : List Byte) : Outcome MData :=
  MData.nodes info incomingMMA fuel info.secondRecvCounts info.bcastInfo info.attrSizes 0 {}

def attrContrib (r : RankInfo) (mask : Nat) : Outcome (List Byte) :=
  if mask.testBit 63 then r.attributeEncodeBuffer.orUndefined else .ok []

-- What a rank sends of its blocks when rank 0 has asked for them with a mask.
def mmaContrib (r : RankInfo) (mask : Nat) : Outcome (List Byte) := do
  let attr ← attrContrib r mask
  let blocks := (List.range r.newMetaMetaBlocks.length).flatMap fun b =>
    match r.newMetaMetaBlocks[b]? with
    | some block => if mask.testBit b then padded block.metaMetaInfo else []
    | none       => []
  return padded attr ++ blocks

-- The gather of a contribution from every rank, in units of eight bytes.
def gathervArrays (contribs : List (List Byte)) (counts : List Nat) : Outcome (List Byte) :=
  if contribs.map List.length = counts then .ok contribs.flatten else .error .undefined

-- What rank 0 has after the exchange.
structure AggregatedInfo where
  newMetaMetaBlocks      : List MetaMetaInfoBlock
  attributeEncodeBuffers : List (List Byte)
  metaEncodeSize         : List Nat
  writerDataPositions    : List Nat

-- `BP5AggregateInformation` on all ranks, as far as no rank needs more than the fixed number of
-- slots. The fuel is for the loop over the bits of a mask.
def bp5AggregateInformation (hashOfBlock : List Byte → Digest) (fuel : Nat)
    (ranks : List RankInfo) : Outcome AggregatedInfo := do
  let contribs := ranks.map (buildFixedNodeContrib hashOfBlock)
  let info ← (breakdownFixedIncomingMInfo contribs).orUndefined
  let root ← ranks.head?.orUndefined
  if info.bcastInfo.all (· = 0) then
    -- Nobody has anything new, and rank 0 keeps what it came with.
    return {
      newMetaMetaBlocks      := root.newMetaMetaBlocks
      attributeEncodeBuffers := root.attributeEncodeBuffer.toList
      metaEncodeSize         := info.metaEncodeSize
      writerDataPositions    := info.writerDataPositions
    }
  else
    let contribs ← (ranks.zip info.bcastInfo).mapM fun (r, mask) => mmaContrib r mask
    let incomingMMA ← gathervArrays contribs info.secondRecvCounts
    let d ← breakdownIncomingMData fuel info incomingMMA
    return {
      newMetaMetaBlocks      := d.newMetaMetaBlocks
      attributeEncodeBuffers := d.attributeEncodeBuffers
      metaEncodeSize         := info.metaEncodeSize
      writerDataPositions    := info.writerDataPositions
    }

end BP5
