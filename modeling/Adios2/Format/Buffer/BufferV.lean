import Adios2.Format.Buffer.ChunkV

-- `BufferV`: what the buffers of a step have in common, and what is done with one of them.

namespace Buffer

open Bytes

-- Where a pointer leads: into memory of the allocator, into the memory of the application behind an
-- entry of the vector, or to a number that is taken for an address.
inductive Place
  | memory (p : Pointer)
  | application (entry offset : Nat)
  | number (address : Nat)
  deriving DecidableEq, Repr

def Place.add (n : Nat) : Place → Place
  | memory p                 => memory (p.add n)
  | application entry offset => application entry (offset + n)
  | number address           => number (address + n)

structure Iovec where
  base : Place
  len  : Nat
  deriving DecidableEq, Repr

def Iovec.places (v : Iovec) : List Place :=
  (List.range v.len).map fun k => v.base.add k

-- Where the bytes of a vector are, one after the other.
def places (iov : List Iovec) : List Place :=
  iov.flatMap Iovec.places

-- An entry of `DataV`, as all buffers have it: whether it is external, and its size.
structure EntryKind where
  isExternal : Bool
  size       : Nat
  deriving DecidableEq, Repr

-- For every byte of the vector, whether it is in an external entry.
def externals (entries : List EntryKind) : List Bool :=
  entries.flatMap fun e => .replicate e.size e.isExternal

-- The functions of the class that each buffer has for itself. There is no remainder of an offset by
-- an alignment of zero bytes.
structure BufferV (σ : Type) where
  size              : σ → Nat
  addToVec          : List Byte → Nat → Bool → σ → Outcome (Nat × σ)
  allocate          : Nat → Nat → σ → Outcome (BufferPos × σ)
  downsizeLastAlloc : Nat → Nat → σ → Outcome σ
  reset             : σ → σ
  getPtr            : BufferPos → σ → Outcome Place
  getPtrOverall     : Nat → σ → Outcome Place
  writeThrough      : BufferPos → Nat → List Byte → σ → Outcome σ
  entries           : σ → List EntryKind
  dataVec           : σ → List Iovec
  contents          : σ → Option (List Byte)

-- What an `AddToVec` was given, with the offset that it returned.
structure Put where
  offset : Nat
  align  : Nat
  bytes  : List Byte
  deriving DecidableEq, Repr

-- What an `Allocate` was given, with the position that it returned.
structure Span where
  position : BufferPos
  align    : Nat
  size     : Nat
  deriving DecidableEq, Repr

inductive Operation
  | addToVec (bytes : List Byte) (align : Nat) (copyReqd : Bool)
  | allocate (size align : Nat)
  -- The allocation directly before it gets smaller.
  | downsizeLastAlloc (newSize : Nat)
  -- The application writes to one of its allocations.
  | write (span relative : Nat) (bytes : List Byte)
  | reset
  deriving DecidableEq, Repr

-- A buffer and what has been put into it since the last `Reset`. `content` has what its bytes are to
-- be: zeros wherever nothing has been put, and `none` for the bytes of an allocation until they are
-- written.
structure Use (σ : Type) where
  buffer    : σ
  puts      : List Put := []
  spans     : List Span := []
  lastAlloc : Option Span := none
  content   : List (Option Byte) := []

-- Zeros up to an offset.
def padTo (offset : Nat) (content : List (Option Byte)) : List (Option Byte) :=
  content ++ .replicate (offset - content.length) (some 0)

def splice (content : List (Option Byte)) (pos : Nat) (bytes : List Byte) : List (Option Byte) :=
  content.take pos ++ bytes.map some ++ content.drop (pos + bytes.length)

namespace BufferV

variable {σ : Type} (b : BufferV σ)

def step (u : Use σ) : Operation → Outcome (Use σ)
  | .addToVec bytes align copyReqd => do
    let (offset, buffer) ← b.addToVec bytes align copyReqd u.buffer
    return { u with
      buffer
      puts      := u.puts ++ [{ offset, align, bytes }]
      lastAlloc := none
      content   := padTo offset u.content ++ bytes.map some
    }
  | .allocate size align           => do
    let (position, buffer) ← b.allocate size align u.buffer
    let span : Span := { position, align, size }
    return { u with
      buffer
      spans     := u.spans ++ [span]
      lastAlloc := if size = 0 then none else some span
      content   := padTo position.globalPos u.content ++ .replicate size none
    }
  | .downsizeLastAlloc newSize     => do
    let last ← u.lastAlloc.orUndefined
    if newSize ≤ last.size then
      let buffer ← b.downsizeLastAlloc last.size newSize u.buffer
      let span := { last with size := newSize }
      return { u with
        buffer
        spans     := u.spans.dropLast ++ [span]
        lastAlloc := some span
        content   := u.content.take (u.content.length - (last.size - newSize))
      }
    else
      .error .undefined
  | .write i relative bytes        => do
    let span ← u.spans[i]?.orUndefined
    if relative + bytes.length ≤ span.size then
      let buffer ← b.writeThrough span.position relative bytes u.buffer
      return { u with
        buffer
        content := splice u.content (span.position.globalPos + relative) bytes
      }
    else
      .error .undefined
  | .reset                         => return { buffer := b.reset u.buffer }

def run (u : Use σ) (operations : List Operation) : Outcome (Use σ) :=
  operations.foldlM b.step u

end BufferV

namespace ChunkV

variable (p : Parameters) (env : Nat → Allocation)

-- The entry of an offset, and the offset in it. Behind the last entry the loop reads one that is not
-- there, before it gets to the test that would throw.
def owner : List VecEntry → Nat → Outcome (VecEntry × Nat)
  | [], _                       => .error .undefined
  | e :: es, overallPosInBuffer =>
    if e.size ≤ overallPosInBuffer then owner es (overallPosInBuffer - e.size)
    else .ok (e, overallPosInBuffer)

-- For an external entry the flag that it is external is taken for its base.
def getPtrOverall (overallPosInBuffer : Nat) (s : ChunkV) : Outcome Place :=
  if s.dataV.length = 0 then
    .ok (.number 0)
  else do
    let (e, overallPosInBuffer) ← owner s.dataV overallPosInBuffer
    match e with
    | .external _      => return .number (1 + overallPosInBuffer)
    | .internal base _ => return .memory (base.add overallPosInBuffer)

def getPlace (bp : BufferPos) (s : ChunkV) : Outcome Place := do
  match ← s.getPtr bp with
  | none   => return .number 0
  | some p => return .memory p

end ChunkV

def VecEntry.kind : VecEntry → EntryKind
  | external bytes  => { isExternal := true, size := bytes.length }
  | internal _ size => { isExternal := false, size }

def VecEntry.iovec (i : Nat) : VecEntry → Iovec
  | external bytes     => { base := .application i 0, len := bytes.length }
  | internal base size => { base := .memory base, len := size }

def chunkV (p : Parameters) (env : Nat → Allocation) : BufferV ChunkV where
  size              := ChunkV.curOffset
  addToVec          := fun bytes align copyReqd s =>
    if align = 0 then .error .undefined else s.addToVec p env bytes align copyReqd
  allocate          := fun size align s =>
    if size ≠ 0 ∧ align = 0 then .error .undefined else s.allocate p env size align
  downsizeLastAlloc := ChunkV.downsizeLastAlloc
  reset             := ChunkV.reset
  getPtr            := ChunkV.getPlace
  getPtrOverall     := ChunkV.getPtrOverall
  writeThrough      := ChunkV.writeThrough
  entries           := fun s => s.dataV.map VecEntry.kind
  dataVec           := fun s => s.dataV.mapIdx VecEntry.iovec
  contents          := ChunkV.contents

end Buffer
