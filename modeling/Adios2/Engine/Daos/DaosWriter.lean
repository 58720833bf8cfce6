import Adios2.Format.Buffer.DaosChunkV

-- The data of a rank of the `DaosWriter`: its buffer, its array, and the steps.

namespace Daos

open Bytes Buffer

-- `m_DataBuf` is made in the first step.
structure DataWriter where
  dataBuf          : Option DaosChunkV := none
  dataArrayCursor  : Nat := 0
  stepStartDataPos : Nat := 0

namespace DataWriter

variable (p : Parameters) (env : Nat → Allocation) (writeChunk : Nat)

def stepBuf (w : DataWriter) : DaosChunkV :=
  match w.dataBuf with
  | none     => { baseArrayOffset := w.dataArrayCursor }
  | some buf => { buf.reset with baseArrayOffset := w.dataArrayCursor }

def beginStep (w : DataWriter) : DataWriter := { w with
  dataBuf          := some w.stepBuf
  stepStartDataPos := w.dataArrayCursor
}

-- The calls for the tail are not in the background, so each has moved when it returns.
def writeTail (w : DataWriter) (buf : DaosChunkV) : Outcome DaosChunkV := do
  let tail := arrayWrites writeChunk (w.dataArrayCursor + buf.submittedHigh) buf.unflushedTail
  ({ buf with writes := buf.writes ++ tail } : DaosChunkV).drain

def writeData (w : DataWriter) : Outcome DataWriter := do
  let buf ← w.dataBuf.orUndefined
  let buf ← buf.drain
  let buf ← w.writeTail writeChunk buf
  return { w with dataBuf := some buf, dataArrayCursor := w.dataArrayCursor + buf.chunkV.curOffset }

-- What happens to the buffer in a step: the calls of the serializer, what the application writes
-- to an allocation that is its own, and the progress of the store.
inductive BufferOp
  | addToVec (buf : List Byte) (align : Nat) (copyReqd : Bool)
  | allocate (size align : Nat)
  | downsizeLastAlloc (oldSize newSize : Nat)
  | fill (span relative : Nat) (bytes : List Byte)
  | move (write : Nat)

-- The step so far. The metadata gets the positions that the calls return, of bytes that were put
-- and of allocations with their sizes.
structure Step where
  buf    : DaosChunkV
  puts   : List (Nat × List Byte) := []
  allocs : List (BufferPos × Nat) := []

def BufferOp.exec (s : Step) : BufferOp → Outcome Step
  | .addToVec bytes align copyReqd     => do
    let (offset, buf) ← s.buf.addToVec p env writeChunk bytes align copyReqd
    return { s with buf, puts := s.puts ++ [(offset, bytes)] }
  | .allocate size align               => do
    let (bp, buf) ← s.buf.allocate p env writeChunk size align
    return { s with buf, allocs := s.allocs ++ [(bp, size)] }
  | .downsizeLastAlloc oldSize newSize => do
    -- The serializer only does this to what it has allocated just before.
    let (bp, size) ← s.allocs.getLast?.orUndefined
    if size = oldSize ∧ newSize ≤ oldSize ∧ bp.bufferIdx = some (s.buf.chunkV.dataV.length - 1) ∧
        bp.globalPos + size = s.buf.chunkV.curOffset then
      let chunkV ← s.buf.chunkV.downsizeLastAlloc oldSize newSize
      return { s with buf := { s.buf with chunkV }, allocs := s.allocs.dropLast ++ [(bp, newSize)] }
    else
      .error .undefined
  | .fill span relative bytes          => do
    let (bp, size) ← s.allocs[span]?.orUndefined
    if relative + bytes.length ≤ size then
      let chunkV ← s.buf.chunkV.writeThrough bp relative bytes
      return { s with buf := { s.buf with chunkV } }
    else
      .error .undefined
  | .move write                        => do
    return { s with buf := ← s.buf.move write }

def execOps (ops : List BufferOp) (s : Step) : Outcome Step :=
  ops.foldlM (BufferOp.exec p env writeChunk) s

-- A step from `BeginStep` to the end of `WriteData`. The result has the step as it was in front of
-- `WriteData`.
def execStep (w : DataWriter) (ops : List BufferOp) : Outcome (Step × DataWriter) := do
  let step ← execOps p env writeChunk ops { buf := w.stepBuf }
  let w ← ({ w.beginStep with dataBuf := some step.buf } : DataWriter).writeData writeChunk
  return (step, w)

def execSteps (w : DataWriter) : List (List BufferOp) → Outcome DataWriter
  | []           => .ok w
  | ops :: steps => do
    let (_, w) ← w.execStep p env writeChunk ops
    execSteps w steps

end DataWriter

end Daos
