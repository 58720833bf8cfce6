import Adios2.Lib.Heap
import Adios2.Engine.BP5.DataPlacement

-- The shared memory through which the ranks of an aggregator group hand their data to the aggregator:
-- its two buffers, and who is to use which of them.

namespace MPIShmChain

open Bytes BP5

-- `size_t` and `uint64_t`
def wordSize : Nat := 2 ^ 64

def subSize (a b : Nat) : Nat :=
  (a + wordSize - b) % wordSize

def alignSize (n alignmentSize : Nat) : Nat :=
  (n + paddingToAlignOffset n alignmentSize) % wordSize

-- What rank 0 allocates, and the size of one of the buffers in it.
structure ShmSize where
  totalSize : Nat
  blockSize : Nat
  deriving DecidableEq, Repr

def structSize (sizeofSegment alignmentSize : Nat) : Nat :=
  alignSize sizeofSegment alignmentSize

-- The sizes in `CreateShm` on rank 0.
def createShm (sizeofSegment blocksize maxsegmentsize alignmentSize : Nat) : ShmSize :=
  let structsize := structSize sizeofSegment alignmentSize
  let blocksize := alignSize blocksize alignmentSize
  let totalsize := (structsize + 2 * blocksize) % wordSize
  if maxsegmentsize < totalsize then
    -- roll back and calculate sizes from maxsegmentsize
    let totalsize := alignSize ((subSize maxsegmentsize alignmentSize + 1) % wordSize) alignmentSize
    let half := subSize totalsize structsize / 2
    let blocksize := alignSize ((subSize half alignmentSize + 1) % wordSize) alignmentSize
    { totalSize := (structsize + 2 * blocksize) % wordSize, blockSize := blocksize }
  else
    { totalSize := totalsize, blockSize := blocksize }

-- The other ranks have it from the size of the segment.
def queriedBlockSize (shmsize structsize : Nat) : Nat :=
  subSize shmsize structsize / 2

inductive Buffer
  | a
  | b
  deriving DecidableEq, Repr

-- `LastBufferUsed`, with `None` where there was none.
abbrev LastBufferUsed := Option Buffer

-- An address in the segment, as it is mapped in a process.
structure Address where
  process : Nat
  offset  : Nat
  deriving DecidableEq, Repr

structure ShmDataBuffer where
  maxSize    : Nat
  actualSize : Nat
  buf        : Option Address
  deriving DecidableEq, Repr

-- `lockSegment` is only held in sections that are one step here. A lock is `true` while it is held.
structure ShmSegment where
  producerBuffer : LastBufferUsed
  consumerBuffer : LastBufferUsed
  numBuffersFull : Nat
  sdb            : Buffer → ShmDataBuffer
  lock           : Buffer → Bool
  -- all bytes of the segment, of which the buffers are the last ones
  bytes          : List Byte

namespace ShmSegment

-- The segment when rank 0 has set it up. It comes with zeros.
def init (size : ShmSize) : ShmSegment where
  producerBuffer := none
  consumerBuffer := none
  numBuffersFull := 0
  sdb            := fun _ => { maxSize := size.blockSize, actualSize := 0, buf := none }
  lock           := fun _ => false
  bytes          := .replicate size.totalSize 0

-- Buffer A at first, then the two in turn.
def next : LastBufferUsed → Buffer
  | some .a => .b
  | _       => .a

def lockOf : LastBufferUsed → Buffer
  | some .a => .a
  | _       => .b

variable (shm : ShmSegment)

-- The address is different on every process, so that it is set every time.
def pointTo (sdb : Buffer) (address : Address) : ShmSegment :=
  { shm with sdb := Function.update shm.sdb sdb { shm.sdb sdb with buf := some address } }

def setLock (sdb : Buffer) (held : Bool) : ShmSegment :=
  { shm with lock := Function.update shm.lock sdb held }

-- The sections of `LockProducerBuffer` and `LockConsumerBuffer` under `lockSegment`. The argument is
-- where the process has the buffers.
def chooseProducer (address : Buffer → Address) : ShmSegment :=
  let sdb := next shm.producerBuffer
  { shm.pointTo sdb (address sdb) with producerBuffer := some sdb }

def chooseConsumer (address : Buffer → Address) : ShmSegment :=
  let sdb := next shm.consumerBuffer
  { shm.pointTo sdb (address sdb) with consumerBuffer := some sdb }

-- The counter is an `unsigned int`.
def countProducer : ShmSegment :=
  { shm with numBuffersFull := (shm.numBuffersFull + 1) % 2 ^ 32 }

def countConsumer : ShmSegment :=
  { shm with numBuffersFull := (shm.numBuffersFull + 2 ^ 32 - 1) % 2 ^ 32 }

-- What a process copies to a buffer whose address is one of its own.
def copyTo (process : Nat) (sdb : Buffer) (bs : List Byte) : Outcome ShmSegment :=
  match (shm.sdb sdb).buf with
  | some address =>
    if address.process = process ∧ address.offset + bs.length ≤ shm.bytes.length then
      .ok { shm with
        sdb   := Function.update shm.sdb sdb { shm.sdb sdb with actualSize := bs.length }
        bytes := overwrite shm.bytes address.offset bs }
    else
      .error .undefined
  | none => .error .undefined

def readFrom (process : Nat) (sdb : Buffer) : Outcome (List Byte) :=
  match (shm.sdb sdb).buf with
  | some address =>
    if address.process = process then
      (readBytes shm.bytes address.offset (shm.sdb sdb).actualSize).orUndefined
    else
      .error .undefined
  | none => .error .undefined

end ShmSegment

end MPIShmChain
