import Adios2.Format.Buffer.BufferV

-- `MallocV`: the buffer of a step as a vector of blocks, where all that is copied is in one block of
-- memory that grows.

namespace Buffer

open Bytes

-- `scaled` is `m_AllocatedSize * m_GrowthFactor` as a whole number, for each size. A whole number is
-- greater than the product if and only if it is greater than that.
structure MallocParameters where
  alwaysCopy : Bool
  scaled     : Nat → Nat

-- An internal entry is known by where it starts in the internal block.
inductive MallocEntry
  | external (bytes : List Byte)
  | internal (offset size : Nat)
  deriving DecidableEq, Repr

namespace MallocEntry

def size : MallocEntry → Nat
  | external bytes  => bytes.length
  | internal _ size => size

def kind : MallocEntry → EntryKind
  | external bytes  => { isExternal := true, size := bytes.length }
  | internal _ size => { isExternal := false, size }

end MallocEntry

structure MallocV where
  heap          : Heap := []
  calls         : Nat := 0
  internalBlock : Option Nat := none
  allocatedSize : Nat := 0
  internalPos   : Nat := 0
  dataV         : List MallocEntry := []
  curOffset     : Nat := 0

namespace MallocV

variable (q : MallocParameters) (env : Nat → Allocation)

-- Room in the internal block, when there is enough memory.
def grow (size : Nat) (s : MallocV) : Outcome MallocV :=
  if s.internalPos + size > s.allocatedSize then do
    let newSize :=
      if s.internalPos + size > q.scaled s.allocatedSize then s.internalPos + size
      else q.scaled s.allocatedSize
    let (b, heap) ← (s.heap.realloc (env s.calls) newSize s.internalBlock).orUndefined
    return { s with
      heap
      calls         := s.calls + 1
      internalBlock := some b
      allocatedSize := newSize
    }
  else
    return s

-- `size` bytes more at the end of the internal block, in the tail entry if that is there too.
def extend (size : Nat) (s : MallocV) : MallocV :=
  let fresh := s.dataV ++ [.internal s.internalPos size]
  { s with
    dataV       := match s.dataV.getLast? with
      | some (.internal offset n) =>
        if s.internalPos = offset + n then s.dataV.dropLast ++ [.internal offset (n + size)]
        else fresh
      | _                         => fresh
    internalPos := s.internalPos + size
    curOffset   := s.curOffset + size
  }

-- `AddToVec` when the offset is aligned.
def addAligned (buf : List Byte) (copyReqd : Bool) (s : MallocV) : Outcome (Nat × MallocV) := do
  if buf.length = 0 then
    return (s.curOffset, s)
  else if !copyReqd && !q.alwaysCopy then
    return (s.curOffset, { s with
      dataV     := s.dataV ++ [.external buf]
      curOffset := s.curOffset + buf.length
    })
  else
    let s ← s.grow q env buf.length
    let block ← s.internalBlock.orUndefined
    let heap ← (s.heap.store { block, offset := s.internalPos } buf).orUndefined
    return (s.curOffset, extend buf.length { s with heap })

-- The bytes that are missing up to a multiple of `align`.
def addAlign (align : Nat) (s : MallocV) : Nat :=
  if s.curOffset % align ≠ 0 then align - s.curOffset % align else 0

-- `AlignBuffer` calls `AddToVec` with an alignment of one byte.
def alignBuffer (align : Nat) (s : MallocV) : Outcome MallocV := do
  if align = 0 then
    .error .undefined
  else
    let (_, s) ← s.addAligned q env (.replicate (s.addAlign align) 0) true
    return s

def addToVec (buf : List Byte) (align : Nat) (copyReqd : Bool) (s : MallocV) :
    Outcome (Nat × MallocV) := do
  let s ← s.alignBuffer q env align
  s.addAligned q env buf copyReqd

def allocate (size align : Nat) (s : MallocV) : Outcome (BufferPos × MallocV) := do
  if size = 0 then
    return ({ bufferIdx := none, posInBuffer := 0, globalPos := s.curOffset }, s)
  else
    let s ← s.alignBuffer q env align
    let s ← s.grow q env size
    let bp : BufferPos :=
      { bufferIdx := some 0, posInBuffer := s.internalPos, globalPos := s.curOffset }
    return (bp, s.extend size)

def downsizeLastAlloc (oldSize newSize : Nat) (s : MallocV) : Outcome MallocV :=
  match s.dataV.getLast? with
  | some (.internal offset n) => .ok { s with
      dataV       := s.dataV.dropLast ++ [.internal offset (n - (oldSize - newSize))]
      curOffset   := s.curOffset - (oldSize - newSize)
      internalPos := s.internalPos - (oldSize - newSize)
    }
  | _                         => .error .undefined

-- Without a block, `m_InternalBlock` is a null pointer.
def blockPlace (s : MallocV) (pos : Nat) : Place :=
  match s.internalBlock with
  | none       => .number pos
  | some block => .memory { block, offset := pos }

def getPtr (bp : BufferPos) (s : MallocV) : Outcome Place :=
  match bp.bufferIdx with
  | none   => .ok (.number 0)
  | some _ => .ok (s.blockPlace bp.posInBuffer)

def getPtrOverall (posInBuffer : Nat) (s : MallocV) : Outcome Place :=
  .ok (s.blockPlace posInBuffer)

-- What an application does with the pointer that it gets for its allocation.
def writeThrough (bp : BufferPos) (relative : Nat) (bytes : List Byte) (s : MallocV) :
    Outcome MallocV := do
  match bp.bufferIdx with
  | none   => if bytes = [] then .ok s else .error .undefined
  | some _ =>
    let block ← s.internalBlock.orUndefined
    let heap ← (s.heap.store { block, offset := bp.posInBuffer + relative } bytes).orUndefined
    return { s with heap }

-- The internal block is kept.
def reset (s : MallocV) : MallocV := { s with dataV := [], curOffset := 0, internalPos := 0 }

def iovec (s : MallocV) (i : Nat) : MallocEntry → Iovec
  | .external bytes       => { base := .application i 0, len := bytes.length }
  | .internal offset size => { base := s.blockPlace offset, len := size }

def dataVec (s : MallocV) : List Iovec :=
  s.dataV.mapIdx s.iovec

def entryBytes (s : MallocV) : MallocEntry → Option (List Byte)
  | .external bytes       => some bytes
  | .internal offset size => do
    let block ← s.internalBlock
    s.heap.load { block, offset } size

-- What the blocks of `DataVec` hold, one after the other.
def contents (s : MallocV) : Option (List Byte) := do
  let blocks ← s.dataV.mapM s.entryBytes
  return blocks.flatten

end MallocV

def mallocV (q : MallocParameters) (env : Nat → Allocation) : BufferV MallocV where
  size              := MallocV.curOffset
  addToVec          := MallocV.addToVec q env
  allocate          := MallocV.allocate q env
  downsizeLastAlloc := MallocV.downsizeLastAlloc
  reset             := MallocV.reset
  getPtr            := MallocV.getPtr
  getPtrOverall     := MallocV.getPtrOverall
  writeThrough      := MallocV.writeThrough
  entries           := fun s => s.dataV.map MallocEntry.kind
  dataVec           := MallocV.dataVec
  contents          := MallocV.contents

end Buffer
