import Adios2.Lib.Reader
import Adios2.Format.BP5.Helper

-- The first phase of `BP5AggregateInformation` for any number of blocks on a rank: the contributions
-- of fixed size, and those of any size that follow when some rank has more blocks than slots.

namespace BP5

open Bytes

-- What a rank brings to the exchange, as BuildNodeContrib gets it. The bounds are those of the types.
structure Contribution where
  attrHash              : Digest
  attrSize              : Nat
  mmBlocks              : List MetaMetaInfoBlock
  metaEncodeSize        : Nat
  writerDataPosition    : Nat
  attrHash_length       : attrHash.length = digestSize
  attrSize_lt           : attrSize < 2 ^ 64
  mmBlocks_lt           : mmBlocks.length < 2 ^ 64
  info_lt               : ∀ b ∈ mmBlocks, b.metaMetaInfo.length + 7 < 2 ^ 64
  metaEncodeSize_lt     : metaEncodeSize < 2 ^ 64
  writerDataPosition_lt : writerDataPosition < 2 ^ 64

-- What a contribution of any size says.
structure NodeRecord where
  attrHash           : Digest
  attrSize           : Nat
  mmBlocks           : List (Digest × Nat)
  metaEncodeSize     : Nat
  writerDataPosition : Nat
  deriving DecidableEq, Repr

-- An ID is copied into a digest that does not have more bytes.
def copyID (b : MetaMetaInfoBlock) : Outcome Digest :=
  if b.metaMetaID.length ≤ digestSize then .ok (toDigest b.metaMetaID) else .error .undefined

section Build

variable (host : Endian)

def buildNodeContrib (c : Contribution) : Outcome (List Byte) := do
  let mmBlocksSize := c.mmBlocks.length
  let len := digestSize + 2 * 8 + mmBlocksSize * (8 + digestSize) + 8 + 8
  let ret ← ((Cursor.zeros len).put c.attrHash).orUndefined
  let ret ← (ret.put (u64 host c.attrSize)).orUndefined
  let ret ← (ret.put (u64 host mmBlocksSize)).orUndefined
  let ret ← c.mmBlocks.foldlM (fun (ret : Cursor) mm => do
    let d ← copyID mm
    let ret ← (ret.put d).orUndefined
    (ret.put (u64 host (alignedSize mm.metaMetaInfo.length))).orUndefined) ret
  let ret ← (ret.put (u64 host c.metaEncodeSize)).orUndefined
  let ret ← (ret.put (u64 host c.writerDataPosition)).orUndefined
  pure ret.buffer

-- The slots that a rank does not fill have no size, and IDs that are not looked at.
def buildFixedContrib (c : Contribution) : Outcome NodeContrib := do
  let ids ← (c.mmBlocks.take fixedMMBSlotCount).mapM copyID
  pure {
    attrHash           := c.attrHash
    attrSize           := c.attrSize
    mmbCount           := c.mmBlocks.length
    mmbArray           :=
      ids ++ .replicate (fixedMMBSlotCount - ids.length) (.replicate digestSize 0)
    mmbSizeArray       := (List.range fixedMMBSlotCount).map fun i =>
      match c.mmBlocks[i]? with
      | some b => alignedSize b.metaMetaInfo.length
      | none   => 0
    metaEncodeSize     := c.metaEncodeSize
    writerDataPosition := c.writerDataPosition
  }

end Build

section Fixed

-- An entry that no mask can be: the exchange goes on with contributions of any size.
def needDynamic := 2 ^ 64 - 1

-- `BreakdownFixedIncomingMInfo`. Where it gives up, what it has recorded before stays.
def breakdownFixedNodes : List NodeContrib → MInfo → Outcome MInfo
  | [], info        => .ok info
  | nc :: ncs, info =>
    if nc.mmbCount > fixedMMBSlotCount then
      .ok { info with
        attrSizes := info.attrSizes ++ [nc.attrSize]
        bcastInfo := (info.bcastInfo ++ .replicate (ncs.length + 1) 0).set 0 needDynamic
      }
    else do
      let info ← (info.node nc).orUndefined
      breakdownFixedNodes ncs info

end Fixed

section Dynamic

variable (host : Endian) (buf : List Byte)

-- `ReadArray` of characters and `ReadValue<size_t>`, from a buffer that is said to be big endian.
def readArray (n : Nat) : Reader (List Byte) := do
  let bs ← Reader.bytes buf n
  pure (if host = .little then bs.reverse else bs)

def readValue : Reader Nat := do
  let bs ← readArray host buf 8
  pure (decode host bs)

-- What the loop of `BreakdownIncomingMInfo` reads for one node.
def readBlock : Reader (Digest × Nat) := do
  let thisMMB ← readArray host buf digestSize
  let thisMMBSize ← readValue host buf
  pure (thisMMB, thisMMBSize)

def readNode : Reader NodeRecord := do
  let attrHash ← readArray host buf digestSize
  let attrSize ← readValue host buf
  let mmBlockCount ← readValue host buf
  let mmBlocks ← Reader.many (readBlock host buf) mmBlockCount
  let metaEncodeSize ← readValue host buf
  let writerDataPosition ← readValue host buf
  pure { attrHash, attrSize, mmBlocks, metaEncodeSize, writerDataPosition }

-- A shift by as many bits as the type has is not defined.
def BlockLoop.dynamicBlock (l : BlockLoop) (block : Nat) (mmb : Digest × Nat) : Outcome BlockLoop :=
  let (thisMMB, thisMMBSize) := mmb
  if thisMMBSize ≠ 0 ∧ thisMMB ∉ l.info.mmbSet then
    if block < 64 then
      let alignedSize := alignedSize thisMMBSize % 2 ^ 64
      .ok {
        info           := { l.info with
          mmbSet   := thisMMB :: l.info.mmbSet
          mmbSizes := l.info.mmbSizes ++ [alignedSize]
          mmbIDs   := l.info.mmbIDs ++ [thisMMB]
        }
        mmsNeeded      := l.mmsNeeded + 2 ^ block
        secondRecvSize := l.secondRecvSize + alignedSize
      }
    else .error .undefined
  else
    .ok l

def BlockLoop.dynamicBlocks : Nat → List (Digest × Nat) → BlockLoop → Outcome BlockLoop
  | _, [], l               => .ok l
  | block, mmb :: mmbs, l => do
    let l ← l.dynamicBlock block mmb
    dynamicBlocks (block + 1) mmbs l

def MInfo.dynamicNode (info : MInfo) (r : NodeRecord) : Outcome MInfo := do
  let needAttr := decide (r.attrSize ≠ 0 ∧ r.attrHash ∉ info.attrSet)
  let l ← BlockLoop.dynamicBlocks 0 r.mmBlocks {
    info           := { info with
      attrSizes := info.attrSizes ++ [r.attrSize]
      attrSet   := if needAttr then r.attrHash :: info.attrSet else info.attrSet
    }
    secondRecvSize := if needAttr then alignedSize r.attrSize % 2 ^ 64 else 0
  }
  return { l.info with
    metaEncodeSize      := info.metaEncodeSize ++ [r.metaEncodeSize]
    writerDataPositions := info.writerDataPositions ++ [r.writerDataPosition]
    secondRecvCounts    := info.secondRecvCounts ++ [l.secondRecvSize % 2 ^ 64]
    bcastInfo           := info.bcastInfo ++ [(if needAttr then MInfo.attrBit else 0) ||| l.mmsNeeded]
  }

-- What has been read, what has been made of it, and how far the buffer has been read.
structure Breakdown where
  records : List NodeRecord := []
  info    : MInfo := {}
  pos     : Nat := 0

-- The counts are of the nodes that are left, the sum is of those before.
def breakdownNodes : List Nat → Nat → Breakdown → Outcome Breakdown
  | [], _, b              => .ok b
  | count :: counts, sum, b => do
    let (record, pos) ← ((readNode host buf).run b.pos).orUndefined
    let info ← b.info.dynamicNode record
    if pos ≠ sum + count then .error <| .logicError "Bad deserialization"
    else breakdownNodes counts (sum + count) { records := b.records ++ [record], info, pos }

-- The sizes and IDs are added to the vectors, the others are written anew.
def breakdownIncomingMInfo (recvCounts : List Nat) (mmbSizes : List Nat) (mmbIDs : List Digest) :
    Outcome Breakdown :=
  breakdownNodes host buf recvCounts 0 { info := { mmbSizes, mmbIDs } }

end Dynamic

-- `BP5AggregateInformation` on rank 0, up to the broadcast of the masks that the last gather goes by.
def aggregateMInfo (host : Endian) (cs : List Contribution) : Outcome MInfo := do
  let fixed ← cs.mapM buildFixedContrib
  let info ← breakdownFixedNodes fixed {}
  let first ← info.bcastInfo.head?.orUndefined
  if first = needDynamic then do
    let contribs ← cs.mapM (buildNodeContrib host)
    let b ← breakdownIncomingMInfo host contribs.flatten (contribs.map List.length) info.mmbSizes
      info.mmbIDs
    pure b.info
  else
    pure info

end BP5
