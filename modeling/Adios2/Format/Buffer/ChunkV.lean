import Adios2.Helper.Log
import Adios2.Lib.Heap

-- `ChunkV`: the buffer of a step as a vector of blocks in chunks of memory that are kept from step
-- to step.

namespace Buffer

open Bytes

-- What a buffer is made with. A subclass can set `m_NoShrink`.
structure Parameters where
  alwaysCopy       : Bool
  noShrink         : Bool
  memAlign         : Nat
  memBlockSize     : Nat
  chunkSize        : Nat
  memAlign_pos     : 0 < memAlign
  memBlockSize_pos : 0 < memBlockSize

structure Chunk where
  ptr          : Pointer
  allocatedPtr : Nat
  size         : Nat
  deriving DecidableEq, Repr

-- A block of the output vector. Memory of the application that is not copied is known by what is
-- in it.
inductive VecEntry
  | external (bytes : List Byte)
  | internal (base : Pointer) (size : Nat)
  deriving DecidableEq, Repr

def VecEntry.size : VecEntry → Nat
  | external bytes  => bytes.length
  | internal _ size => size

-- The memory is part of the state, and so is the number of calls of the allocator so far.
structure ChunkV where
  heap            : Heap := []
  calls           : Nat := 0
  chunks          : List Chunk := []
  tailChunk       : Option Nat := none
  tailChunkPos    : Nat := 0
  nextActiveChunk : Nat := 0
  dataV           : List VecEntry := []
  curOffset       : Nat := 0

-- `bufferIdx` is -1 for an allocation of no bytes.
structure BufferPos where
  bufferIdx   : Option Nat
  posInBuffer : Nat
  globalPos   : Nat
  deriving DecidableEq, Repr

namespace ChunkV

variable (p : Parameters) (env : Nat → Allocation)

-- Rounded up to a multiple of `m_MemBlockSize`.
def actualSize (size : Nat) : Nat :=
  if size % p.memBlockSize ≠ 0 then size + (p.memBlockSize - size % p.memBlockSize) else size

-- How far behind the start of a block its first aligned byte is, from
-- `(p + m_MemAlign - 1) & ~(m_MemAlign - 1)`.
def alignOffset (address : Nat) : Nat :=
  let x := address + p.memAlign - 1
  x - (x &&& (p.memAlign - 1)) - address

-- `ChunkAlloc`, for a new chunk or one to resize, when there is enough memory.
def chunkAlloc (v : Option Chunk) (size : Nat) (s : ChunkV) : Outcome (Chunk × ChunkV) := do
  let actualsize := actualSize p size
  let (b, heap) ←
    (s.heap.realloc (env s.calls) (actualsize + p.memAlign - 1) (v.map (·.allocatedPtr))).orUndefined
  let block ← (heap.block? b).orUndefined
  let moved : Chunk := {
    ptr          := { block := b, offset := alignOffset p block.address }
    allocatedPtr := b
    size         := actualsize
  }
  let chunk := match v with
    | some c => if c.allocatedPtr = b then { c with size := actualsize } else moved
    | none   => moved
  return (chunk, { s with heap, calls := s.calls + 1 })

def store (ptr : Pointer) (bytes : List Byte) (s : ChunkV) : Outcome ChunkV := do
  let heap ← (s.heap.store ptr bytes).orUndefined
  return { s with heap }

def getTailChunk (s : ChunkV) : Outcome (Nat × Chunk) := do
  let i ← s.tailChunk.orUndefined
  let chunk ← s.chunks[i]?.orUndefined
  return (i, chunk)

-- An entry can be appended to the last if that is internal and ends at the tail.
def appendPossible (s : ChunkV) : Outcome Bool :=
  match s.dataV.getLast? with
  | some (.internal base size) => do
    let (_, tail) ← s.getTailChunk
    return tail.ptr.block = base.block ∧ tail.ptr.offset + s.tailChunkPos = base.offset + size
  | _                          => .ok false

-- There is no room in the tail chunk, close it out. The result is the padding behind it.
def closeOut (s : ChunkV) : Outcome (Nat × ChunkV) := do
  if p.noShrink then
    return (0, { s with tailChunk := none, tailChunkPos := 0 })
  else
    let (i, tail) ← s.getTailChunk
    let (c, s) ← chunkAlloc p env (some tail) s.tailChunkPos s
    let alignment := c.size - s.tailChunkPos
    let s ← s.store (c.ptr.add s.tailChunkPos) (.replicate alignment 0)
    return (alignment, { s with
      chunks       := s.chunks.set i c
      dataV        := s.dataV.dropLast ++ [.internal c.ptr c.size]
      tailChunk    := none
      tailChunkPos := 0
    })

-- The chunk at `m_NextActiveChunk` gets the next `size` bytes.
def claim (size : Nat) (c : Chunk) (s : ChunkV) : ChunkV := { s with
  tailChunk       := some s.nextActiveChunk
  tailChunkPos    := size
  nextActiveChunk := s.nextActiveChunk + 1
  dataV           := s.dataV ++ [.internal c.ptr size]
}

def freshChunk (size : Nat) (s : ChunkV) : Outcome ChunkV := do
  let newSize := if size > p.chunkSize then size else p.chunkSize
  let (c, s) ← chunkAlloc p env none newSize s
  return claim size c { s with chunks := s.chunks.insertIdx s.nextActiveChunk c }

-- The next of the kept chunks is taken if it is large enough.
def newChunk (size : Nat) (s : ChunkV) : Outcome ChunkV :=
  match s.chunks[s.nextActiveChunk]? with
  | some c => if c.size ≥ size then .ok (claim size c s) else s.freshChunk p env size
  | none   => s.freshChunk p env size

-- What `AddToVec` and `Allocate` do to get room for `size` bytes at the tail. The results are the
-- padding and the position in the chunk.
def makeRoom (size : Nat) (s : ChunkV) : Outcome (Nat × Nat × ChunkV) := do
  if ← s.appendPossible then
    if s.tailChunkPos + size > p.chunkSize then
      let (alignment, s) ← s.closeOut p env
      let s ← s.newChunk p env size
      return (alignment, 0, s)
    else
      match s.dataV.getLast? with
      | some (.internal base n) =>
        return (0, s.tailChunkPos, { s with
          dataV        := s.dataV.dropLast ++ [.internal base (n + size)]
          tailChunkPos := s.tailChunkPos + size
        })
      | _ => .error .undefined
  else
    let s ← s.newChunk p env size
    return (0, 0, s)

-- `AddToVec` when the offset is aligned. The result is the offset of the bytes.
def addAligned (buf : List Byte) (copyReqd : Bool) (s : ChunkV) : Outcome (Nat × ChunkV) := do
  if buf.length = 0 then
    return (s.curOffset, s)
  else if !copyReqd && !p.alwaysCopy then
    return (s.curOffset, { s with
      dataV     := s.dataV ++ [.external buf]
      curOffset := s.curOffset + buf.length
    })
  else
    let (alignment, pos, s) ← s.makeRoom p env buf.length
    let (_, tail) ← s.getTailChunk
    let s ← s.store (tail.ptr.add pos) buf
    let retOffset := s.curOffset + alignment
    return (retOffset, { s with curOffset := retOffset + buf.length })

-- The bytes that are missing up to a multiple of `align`.
def addAlign (align : Nat) (s : ChunkV) : Nat :=
  if s.curOffset % align ≠ 0 then align - s.curOffset % align else 0

-- `AlignBuffer` calls `AddToVec` with an alignment of one byte.
def alignBuffer (align : Nat) (s : ChunkV) : Outcome ChunkV := do
  let (_, s) ← s.addAligned p env (.replicate (s.addAlign align) 0) true
  return s

def addToVec (buf : List Byte) (align : Nat) (copyReqd : Bool) (s : ChunkV) :
    Outcome (Nat × ChunkV) := do
  let s ← s.alignBuffer p env align
  s.addAligned p env buf copyReqd

-- `Allocate` when the offset is aligned.
def allocateAligned (size : Nat) (s : ChunkV) : Outcome (BufferPos × ChunkV) := do
  let (alignment, pos, s) ← s.makeRoom p env size
  let bp : BufferPos := {
    bufferIdx   := some (s.dataV.length - 1)
    posInBuffer := pos
    globalPos   := s.curOffset + alignment
  }
  return (bp, { s with curOffset := s.curOffset + alignment + size })

def allocate (size align : Nat) (s : ChunkV) : Outcome (BufferPos × ChunkV) := do
  if size = 0 then
    return ({ bufferIdx := none, posInBuffer := 0, globalPos := s.curOffset }, s)
  else
    let s ← s.alignBuffer p env align
    s.allocateAligned p env size

def downsizeLastAlloc (oldSize newSize : Nat) (s : ChunkV) : Outcome ChunkV :=
  match s.dataV.getLast? with
  | some (.internal base n) => .ok { s with
      dataV        := s.dataV.dropLast ++ [.internal base (n - (oldSize - newSize))]
      curOffset    := s.curOffset - (oldSize - newSize)
      tailChunkPos := s.tailChunkPos - (oldSize - newSize)
    }
  | _ => .error .undefined

-- No pointer for an allocation of no bytes.
def getPtr (bp : BufferPos) (s : ChunkV) : Outcome (Option Pointer) :=
  match bp.bufferIdx with
  | none     => .ok none
  | some idx =>
    match s.dataV[idx]? with
    | some (.internal base _) => .ok (some (base.add bp.posInBuffer))
    | some (.external _)      => .error (refersToNone idx)
    | none                    =>
      if idx > s.dataV.length then .error (refersToNone idx) else .error .undefined
where
  refersToNone (idx : Nat) : Fault :=
    .thrown "Toolkit" "format::ChunkV" "GetPtr" <|
      "ChunkV::GetPtr(" ++ toString idx ++ ", " ++ toString bp.posInBuffer ++
        ") refers to a non-existing or deferred memory chunk."

-- What an application does with the pointer that it gets for its allocation.
def writeThrough (bp : BufferPos) (relative : Nat) (bytes : List Byte) (s : ChunkV) :
    Outcome ChunkV :=
  match bp.bufferIdx with
  | none     => if bytes = [] then .ok s else .error .undefined
  | some idx =>
    match s.dataV[idx]? with
    | some (.internal base _) => s.store (base.add (bp.posInBuffer + relative)) bytes
    | _                       => .error .undefined

-- The chunks are kept.
def reset (s : ChunkV) : ChunkV := { s with
  dataV           := []
  curOffset       := 0
  tailChunk       := none
  tailChunkPos    := 0
  nextActiveChunk := 0
}

def entryBytes (heap : Heap) : VecEntry → Option (List Byte)
  | .external bytes     => some bytes
  | .internal base size => heap.load base size

-- What the blocks of `DataVec` hold, one after the other.
def contents (s : ChunkV) : Option (List Byte) := do
  let blocks ← s.dataV.mapM (entryBytes s.heap)
  return blocks.flatten

end ChunkV

end Buffer
