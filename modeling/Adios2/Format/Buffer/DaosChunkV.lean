import Adios2.Lib.Coverage
import Adios2.Format.Buffer.ChunkV

-- `DaosChunkV`: a `ChunkV` that sends what it has got to an array of the object store whenever a
-- chunk's worth of bytes has come together, while more is put into it.

namespace Buffer

open Bytes Coverage

-- The constructor sets `m_NoShrink`.
def Parameters.daos (p : Parameters) : Parameters := { p with noShrink := true }

-- A part of an entry, as a `d_iov_t`.
def VecEntry.slice (offset n : Nat) : VecEntry → VecEntry
  | .external bytes  => .external ((bytes.drop offset).take n)
  | .internal base _ => .internal (base.add offset) n

-- A call of `daos_array_write`: the start of its range and the memory that goes there. The store
-- reads the memory at some time between the call and the end of its event; `moved` is what it read.
structure ArrayWrite where
  offset : Nat
  iovs   : List VecEntry
  moved  : Option (List Byte) := none
  deriving DecidableEq, Repr

-- The pieces of one call, until it has `step` bytes. The results are where the next call goes on.
def takeBatch (step : Nat) : Nat → List VecEntry → Nat → List VecEntry × List VecEntry × Nat
  | _, [], _                             => ([], [], 0)
  | batchBytes, iov :: iovs, inIovOff =>
    if batchBytes < step then
      let take := min (iov.size - inIovOff) (step - batchBytes)
      if inIovOff + take = iov.size then
        let (batch, rest, inIovOff') := takeBatch step (batchBytes + take) iovs 0
        (iov.slice inIovOff take :: batch, rest, inIovOff')
      else
        -- The call has its bytes.
        ([iov.slice inIovOff take], iov :: iovs, inIovOff + take)
    else
      ([], iov :: iovs, inIovOff)

-- Every call takes a byte at least, so there are no more calls than bytes.
def subWrites (step : Nat) : Nat → Nat → List VecEntry → Nat → List ArrayWrite
  | 0, _, _, _                    => []
  | _ + 1, _, [], _               => []
  | n + 1, offset, iovs, inIovOff =>
    let (batch, rest, inIovOff') := takeBatch step 0 iovs inIovOff
    { offset, iovs := batch } ::
      subWrites step n (offset + (batch.map VecEntry.size).sum) rest inIovOff'

-- The calls that bring entries to the array, from `offset` on. `SubmitRange` and the end of a step
-- both make them so. `writeChunk` is `DAOS_WRITE_CHUNK_BYTES`.
def arrayWrites (writeChunk offset : Nat) (entries : List VecEntry) : List ArrayWrite :=
  let iovs := entries.filter (·.size ≠ 0)
  let total := (iovs.map VecEntry.size).sum
  let step := if writeChunk = 0 then total else writeChunk
  subWrites step total offset iovs 0

-- `writes` has the calls of the step in their order; `m_Pending` are those that have not moved.
structure DaosChunkV where
  chunkV                : ChunkV := {}
  baseArrayOffset       : Nat
  submittedHigh         : Nat := 0
  lastSubmittedDataVIdx : Nat := 0
  lastSubmittedOffset   : Nat := 0
  writes                : List ArrayWrite := []

namespace DaosChunkV

variable (p : Parameters) (env : Nat → Allocation) (writeChunk : Nat)

def submitRange (firstIdx lastIdx : Nat) (s : DaosChunkV) : DaosChunkV :=
  if firstIdx > lastIdx ∨ lastIdx ≥ s.chunkV.dataV.length then
    s
  else
    let entries := (s.chunkV.dataV.drop firstIdx).take (lastIdx - firstIdx + 1)
    { s with
      writes        := s.writes ++ arrayWrites writeChunk (s.baseArrayOffset + s.submittedHigh) entries
      submittedHigh := s.submittedHigh + (entries.map VecEntry.size).sum
    }

-- The difference is one of machine words.
def pendingBytes (s : DaosChunkV) : Nat :=
  (s.chunkV.curOffset + 2 ^ 64 - s.lastSubmittedOffset) % 2 ^ 64

-- What `AddToVec` does once the bytes are in the buffer.
def submitEnough (s : DaosChunkV) : DaosChunkV :=
  if s.pendingBytes ≥ p.chunkSize then
    { s.submitRange writeChunk s.lastSubmittedDataVIdx (s.chunkV.dataV.length - 1) with
      lastSubmittedDataVIdx := s.chunkV.dataV.length
      lastSubmittedOffset   := s.chunkV.curOffset
    }
  else
    s

-- `AddToVec` when the offset is aligned.
def addAligned (buf : List Byte) (copyReqd : Bool) (s : DaosChunkV) : Outcome (Nat × DaosChunkV) := do
  let (offset, chunkV) ← s.chunkV.addAligned p.daos env buf copyReqd
  let s := { s with chunkV }
  if buf.length = 0 then
    return (offset, s)
  else
    return (offset, s.submitEnough p writeChunk)

-- `AlignBuffer` of the base class calls the `AddToVec` of this one.
def alignBuffer (align : Nat) (s : DaosChunkV) : Outcome DaosChunkV :=
  if align = 0 then
    .error .undefined
  else do
    let (_, s) ← s.addAligned p env writeChunk (.replicate (s.chunkV.addAlign align) 0) true
    return s

def addToVec (buf : List Byte) (align : Nat) (copyReqd : Bool) (s : DaosChunkV) :
    Outcome (Nat × DaosChunkV) := do
  let s ← s.alignBuffer p env writeChunk align
  s.addAligned p env writeChunk buf copyReqd

def allocate (size align : Nat) (s : DaosChunkV) : Outcome (BufferPos × DaosChunkV) := do
  if size = 0 then
    return ({ bufferIdx := none, posInBuffer := 0, globalPos := s.chunkV.curOffset }, s)
  else
    let s ← s.alignBuffer p env writeChunk align
    let (bp, chunkV) ← s.chunkV.allocateAligned p.daos env size
    return (bp, { s with chunkV })

def unflushedTail (s : DaosChunkV) : List VecEntry :=
  s.chunkV.dataV.drop s.lastSubmittedDataVIdx

-- The store reads the memory of the `i`th call.
def move (i : Nat) (s : DaosChunkV) : Outcome DaosChunkV :=
  match s.writes[i]? with
  | some { offset, iovs, moved := none } => do
    let blocks ← (iovs.mapM (ChunkV.entryBytes s.chunkV.heap)).orUndefined
    return { s with writes := s.writes.set i { offset, iovs, moved := some blocks.flatten } }
  | _                                    => .ok s

-- All calls end.
def drain (s : DaosChunkV) : Outcome DaosChunkV :=
  (List.range s.writes.length).foldlM (fun s i => s.move i) s

-- The chunks are kept. All calls of a step have ended with it.
def reset (s : DaosChunkV) : DaosChunkV := { s with
  chunkV                := s.chunkV.reset
  submittedHigh         := 0
  lastSubmittedDataVIdx := 0
  lastSubmittedOffset   := 0
  writes                := []
}

-- What has come to the array in this step.
def landed (s : DaosChunkV) : List (Piece Byte) :=
  s.writes.filterMap fun w => w.moved.map fun items => { offset := w.offset, items }

end DaosChunkV

end Buffer
