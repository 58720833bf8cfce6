import Adios2.Engine.BP5.MetadataIndex

-- Where the ranks of a writer put their data in the data files: `WriteData_EveryoneWrites` of all
-- ranks, `FlushData`, and what `EndStep` hands on. The ranks of a chain share a file.

namespace BP5

-- `helper::PaddingToAlignOffset`
def paddingToAlignOffset (offset alignmentSize : Nat) : Nat :=
  let padSize := alignmentSize - offset % alignmentSize
  if padSize = alignmentSize then 0 else padSize

structure PlacementParams where
  stripeSize        : Nat
  dataSizeBased     : Bool
  serializedWriters : Bool
  stripeSize_pos    : 0 < stripeSize

-- The members of `BP5Writer` on one rank that are about positions in data files.
structure WriterRank where
  dataPos          : Nat := 0
  startDataPos     : Nat := 0
  substreamDataPos : Nat → Nat := fun _ => 0
  dataPosShared    : Bool := false

namespace WriterRank

variable (p : PlacementParams)

-- The position comes from the rank below, or on the first rank of a chain from the last write.
def startWrite (subStreamIndex : Nat) (w : WriterRank) : Option Nat → WriterRank
  | some token => { w with dataPos := token }
  | none       =>
    if p.dataSizeBased && w.dataPosShared then
      { w with dataPos := w.substreamDataPos subStreamIndex, dataPosShared := false }
    else
      w

def placeData (size : Nat) (w : WriterRank) : WriterRank :=
  let dataPos := w.dataPos + paddingToAlignOffset w.dataPos p.stripeSize
  { w with startDataPos := dataPos, dataPos := dataPos + size }

-- The token is sent after the write or, so that everyone can start writing, before it.
def nextWriterPos (size : Nat) (w : WriterRank) : Nat :=
  if p.serializedWriters then w.dataPos else w.startDataPos + size

end WriterRank

-- All ranks, by their rank in the communicator of the writer.
abbrev WriterRanks := Nat → WriterRank

-- The ranks of a chain from one on, which gets the token of the rank below. The result is with
-- the position of the last rank.
def passToken (p : PlacementParams) (subStreamIndex : Nat) (size : Nat → Nat) :
    Option Nat → List Nat → WriterRanks → WriterRanks
  | _, [], ws         => ws
  | token, r :: rs, ws =>
    let w := ((ws r).startWrite p subStreamIndex token).placeData p (size r)
    passToken p subStreamIndex size (some <| w.nextWriterPos p (size r)) rs
      (Function.update ws r w)

-- `WriteData_EveryoneWrites` on a chain. At the end the last rank sends the final position back.
def writeDataEveryoneWrites (p : PlacementParams) (subStreamIndex : Nat) (size : Nat → Nat)
    (chain : List Nat) (ws : WriterRanks) : WriterRanks :=
  let ws := passToken p subStreamIndex size none chain ws
  match chain with
  | first :: second :: rest =>
    let last := (second :: rest).getLast (List.cons_ne_nil _ _)
    Function.update ws first { ws first with dataPos := (ws last).dataPos }
  | _ => ws

-- A write of all ranks. The place of a chain in the list is its `m_SubStreamIndex`.
def writeData (p : PlacementParams) (size : Nat → Nat) :
    Nat → List (List Nat) → WriterRanks → WriterRanks
  | _, [], ws                  => ws
  | subStreamIndex, chain :: chains, ws =>
    writeData p size (subStreamIndex + 1) chains
      (writeDataEveryoneWrites p subStreamIndex size chain ws)

-- What the ranks do in a step: flushes, and the write of `EndStep`, each with the size of the data
-- of every rank.
structure StepData where
  chains  : List (List Nat)
  flushes : List (Nat → Nat)
  last    : Nat → Nat

-- A write with the positions that it has got.
structure DataWrite where
  size  : Nat → Nat
  start : Nat → Nat

def writeAll (p : PlacementParams) (chains : List (List Nat)) :
    List (Nat → Nat) → WriterRanks → WriterRanks × List DataWrite
  | [], ws            => (ws, [])
  | size :: sizes, ws =>
    let ws := writeData p size 0 chains ws
    let (ws', writes) := writeAll p chains sizes ws
    (ws', { size, start := fun r => (ws r).startDataPos } :: writes)

-- With aggregation by data size, the chains tell all ranks where their files end. Any rank can be
-- the first of a chain in the next step.
def shareDataPos (chains : List (List Nat)) (ws : WriterRanks) : WriterRanks := fun r =>
  { ws r with
    substreamDataPos := fun i =>
      match chains[i]? with
      | some (first :: _) => (ws first).dataPos
      | _                 => (ws r).substreamDataPos i
    dataPosShared    := true
  }

def writeStep (p : PlacementParams) (d : StepData) (ws : WriterRanks) :
    WriterRanks × List DataWrite :=
  let (ws, writes) := writeAll p d.chains (d.flushes ++ [d.last]) ws
  (if p.dataSizeBased then shareDataPos d.chains ws else ws, writes)

-- A run of the writer, with the writes of each step.
def writeSteps (p : PlacementParams) : List StepData → WriterRanks → List (List DataWrite)
  | [], _       => []
  | d :: ds, ws =>
    let (ws, writes) := writeStep p d ws
    writes :: writeSteps p ds ws

-- What rank 0 gathers of a write that is not the last of a step, and of the last one.
def DataWrite.flushPosSize (w : DataWrite) (commSize : Nat) : List Nat :=
  (List.range commSize).flatMap fun r => [w.start r, w.size r]

def DataWrite.dataPos (w : DataWrite) (commSize : Nat) : List Nat :=
  (List.range commSize).map w.start

-- The record that is made of the writes of a step.
structure Records (s : IndexStep) (writes : List DataWrite) : Prop where
  flushes : s.flushPosSizeInfo = writes.dropLast.map (·.flushPosSize s.commSize)
  last    : ∀ w ∈ writes.getLast?, s.writerDataPos = w.dataPos s.commSize

namespace IndexReader

open Bytes

-- `lf_ReadAt`, as the position in the data file.
def readAt (base offset : Nat) : Outcome Nat :=
  if offset > 2 ^ 64 - 1 ∨ base > 2 ^ 64 - 1 - offset then
    .error <| .thrown "Engine" "BP5Reader" "ReadData" "file offset exceeds size_t on this platform"
  else
    .ok (base + offset)

-- The loop over the flushes of a step, from `infoStartPos` in the index on.
def readFlushes (r : IndexReader) (startOffset : Nat) : Nat → Nat → Nat → Outcome Nat
  | 0, infoStartPos, sumDataSize         => do
    let thisDataPos ← (readUInt r.minifooter.endian 8 r.metadataIndex infoStartPos).orUndefined
    readAt thisDataPos (startOffset - sumDataSize)
  | flush + 1, infoStartPos, sumDataSize => do
    let thisDataPos ← (readUInt r.minifooter.endian 8 r.metadataIndex infoStartPos).orUndefined
    let thisDataSize ←
      (readUInt r.minifooter.endian 8 r.metadataIndex (infoStartPos + 8)).orUndefined
    if startOffset < sumDataSize + thisDataSize then
      readAt thisDataPos (startOffset - sumDataSize)
    else
      readFlushes r startOffset flush (infoStartPos + 16) (sumDataSize + thisDataSize)

-- The position in the data file at which `ReadData` reads.
def readData (r : IndexReader) (writerRank timestep startOffset : Nat) : Outcome Nat := do
  let t ← (r.metadataIndexTable.lookup timestep).orUndefined
  readFlushes r startOffset t.flushCount
    (t.dataPosPos + writerRank * (2 * t.flushCount + 1) * 8) 0

end IndexReader

end BP5
