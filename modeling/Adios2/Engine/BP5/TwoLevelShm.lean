import Adios2.Lib.Threads
import Adios2.Toolkit.Transport.FilePOSIX
import Adios2.Toolkit.Aggregator.MPIShmChain

-- A write of an aggregator group with `TwoLevelShm`: the ranks copy their data one after the other to
-- shared memory, from where the aggregator writes it to its file. In `WriteData_TwoLevelShm` all
-- that is in the call; in `WriteData_TwoLevelShm_Async` a thread on every rank does the copying and
-- the writing. What a process does between two waits, or in a section under a lock, is one task.

namespace BP5

open Bytes MPIShmChain Posix Threads

-- The ranks by their number in `m_Comm`. Rank 0 is the aggregator.
structure ShmGroup where
  -- what `DataVec` of the data of a rank returns
  data           : List (List (List Byte))
  -- the position of the aggregator in its file, which is aligned
  dataPos        : Nat
  maxShmSize     : Nat
  alignmentSize  : Nat
  sizeofSegment  : Nat
  asyncWrite     : Bool
  subStreamName  : String
  data_ne        : data ≠ []
  dataPos_lt     : dataPos < 2 ^ 63
  maxShmSize_lt  : maxShmSize < wordSize
  alignment_pos  : 0 < alignmentSize

namespace ShmGroup

variable (g : ShmGroup)

def size : Nat :=
  g.data.length

def dataVec (r : Nat) : List (List Byte) :=
  g.data[r]?.getD []

-- `Data->Size()`
def dataSize (r : Nat) : Nat :=
  (g.dataVec r).flatten.length

def myTotalSize : Nat :=
  ((List.range g.size).map g.dataSize).sum

def maxSize : Nat :=
  (List.range g.size).foldl (fun maxSize r => max maxSize (g.dataSize r)) 0

def structSize : Nat :=
  MPIShmChain.structSize g.sizeofSegment g.alignmentSize

def shmSize : ShmSize :=
  createShm g.sizeofSegment g.maxSize g.maxShmSize g.alignmentSize

def blockSize (r : Nat) : Nat :=
  if r = 0 then g.shmSize.blockSize else queriedBlockSize g.shmSize.totalSize g.structSize

-- `m_ShmBufA` and `m_ShmBufB` of a rank
def address (r : Nat) : Buffer → Address
  | .a => { process := r, offset := g.structSize }
  | .b => { process := r, offset := g.structSize + g.blockSize r }

end ShmGroup

structure ShmState where
  -- `m_DataPos` of the aggregator, and `m_StartDataPos` of all ranks
  dataPos      : Nat
  startDataPos : Nat → Nat
  -- the start position that the writing thread of a rank has
  startPos     : Nat → Nat
  -- the token chain
  currentRank  : Nat
  token        : Nat
  shm          : ShmSegment
  file         : System
  -- an exception of the aggregator
  eptr         : Option Fault
  -- The contents that have been handed over by a producer, and that the aggregator has taken. This is
  -- a record for the reader, and nothing looks at it.
  released     : List (List Byte)
  consumed     : List (List Byte)

-- The calls of the token chain are in the main thread or, with asynchronous writing, in the writing
-- thread too.
inductive Part
  | main
  | thread
  deriving DecidableEq, Repr

inductive ShmTask
  | recvToken (r : Nat) (part : Part)
  | sendToken (r : Nat) (part : Part)
  | writeMyOwnData
  -- `SendDataToAggregator` in front of a block and an offset in it
  | sendData (r block tempOffset : Nat)
  | chooseProducer (r block tempOffset : Nat)
  | lockProducer (r : Nat) (sdb : Buffer) (block tempOffset : Nat)
  | fill (r : Nat) (sdb : Buffer) (block tempOffset : Nat)
  | countProducer (r block tempOffset : Nat)
  | unlockProducer (r block tempOffset : Nat)
  -- `WriteOthersData_DrainOnError` with the bytes that it has written
  | writeOthersData (wrote : Nat)
  | chooseConsumer (wrote : Nat)
  | lockConsumer (sdb : Buffer) (wrote : Nat)
  | writeBuffer (sdb : Buffer) (wrote : Nat)
  | countConsumer (wrote : Nat)
  | unlockConsumer (wrote : Nat)
  deriving DecidableEq, Repr

-- How a turn of the loop in `AsyncWriteOwnData` goes.
inductive Schedule
  | sleep
  | batch
  | rush
  deriving DecidableEq, Repr

-- `AsyncWriteOwnData` without a seek in front, with the blocks that are left and an offset in the
-- first of them.
def asyncWriteOwnData (name : String) (maxSize : Nat) :
    List Schedule → List (List Byte) → Nat → System → Outcome System
  | _, [], _, s                                 => .ok s
  | [], _ :: _, _, _                            => .error .outOfFuel
  | .sleep :: e, blocks, tempOffset, s          =>
    asyncWriteOwnData name maxSize e blocks tempOffset s
  | .rush :: _, block :: blocks, tempOffset, s  =>
    FilePOSIX.writeV name s (block.drop tempOffset :: blocks) none
  | .batch :: e, block :: blocks, tempOffset, s => do
    let n := min (block.length - tempOffset) maxSize
    let s ← FilePOSIX.write name s ((block.drop tempOffset).take n) none
    if n + tempOffset < block.length then
      asyncWriteOwnData name maxSize e (block :: blocks) (tempOffset + n) s
    else
      asyncWriteOwnData name maxSize e blocks 0 s

def asyncMaxSize (totalsize : Nat) : Nat :=
  max (1024 * 1024) (totalsize / 100)

-- The loop that fills a buffer: what is copied, how many blocks are finished, and the offset in the
-- one after them. A block is only left unfinished where the buffer is full.
def copyBlocks (maxSize : Nat) : List (List Byte) → Nat → List Byte → List Byte × Nat × Nat
  | [], tempOffset, copied              => (copied, 0, tempOffset)
  | block :: blocks, tempOffset, copied =>
    let n := min (block.length - tempOffset) (maxSize - copied.length)
    let copied := copied ++ (block.drop tempOffset).take n
    if n + tempOffset < block.length then
      (copied, 0, tempOffset + n)
    else if maxSize ≤ copied.length then
      (copied, 1, 0)
    else
      let (copied, finished, tempOffset) := copyBlocks maxSize blocks 0 copied
      (copied, finished + 1, tempOffset)

namespace ShmState

variable (g : ShmGroup) (s : ShmState)

-- With asynchronous writing an exception ends the thread of the aggregator.
def thrown : Bool :=
  g.asyncWrite && s.eptr.isSome

-- The end of a call that has written to the file, or has thrown.
def writing (o : Outcome System) : Outcome ShmState :=
  match o with
  | .ok file                                         => .ok { s with file }
  | .error (.thrown component source activity message) =>
    .ok { s with eptr := some (.thrown component source activity message) }
  | .error f                                         => .error f

def sendToken (r value : Nat) : Outcome ShmState :=
  if r ≠ s.currentRank then
    .error (.thrown "Toolkit" "shm::TokenChain" "SendToken"
      ("function can only be called by the Rank who last called RecvToken, rank = " ++ toString r))
  else
    .ok { s with
      token       := value
      currentRank := if r < g.size - 1 then r + 1 else 0 }

def recvToken : Nat → Part → ShmState
  -- the aggregator already has its position, and launches its thread with it
  | 0, .main       => { s with startPos := Function.update s.startPos 0 (s.startDataPos 0) }
  | 0, .thread     => s
  | r + 1, .main   =>
    { s with startDataPos := Function.update s.startDataPos (r + 1) s.token }
  | r + 1, .thread => { s with startPos := Function.update s.startPos (r + 1) s.token }

-- `m_DataPos` only moves on where nothing is thrown.
def writeMyOwnData (e : List Schedule) : Outcome ShmState :=
  if g.asyncWrite then
    s.writing do
      let file ← FilePOSIX.seekFile g.subStreamName s.file (s.startPos 0)
      asyncWriteOwnData g.subStreamName (asyncMaxSize (g.dataSize 0)) e (g.dataVec 0) 0 file
  else do
    let s := { s with startDataPos := Function.update s.startDataPos 0 s.dataPos }
    let s' ← s.writing
      (FilePOSIX.writeV g.subStreamName s.file (g.dataVec 0) (some s.dataPos))
    return if s'.eptr.isSome then s' else { s' with dataPos := s.dataPos + g.dataSize 0 }

-- The content of a buffer.
def content (sdb : Buffer) : List Byte :=
  (readBytes s.shm.bytes (g.address 0 sdb).offset (s.shm.sdb sdb).actualSize).getD []

-- A write of the aggregator from a buffer. After an exception the content is dropped.
def writeBuffer (e : List Schedule) (sdb : Buffer) : Outcome ShmState := do
  let s' := { s with consumed := s.consumed ++ [s.content g sdb] }
  if s.eptr.isSome then
    return s'
  else
    let bs ← s.shm.readFrom 0 sdb
    s'.writing <|
      if g.asyncWrite then
        asyncWriteOwnData g.subStreamName (asyncMaxSize bs.length) e [bs] 0 s.file
      else
        FilePOSIX.write g.subStreamName s.file bs none

def fill (r : Nat) (sdb : Buffer) (block tempOffset : Nat) : Outcome (ShmState × List ShmTask) := do
  let (copied, finished, tempOffset) :=
    copyBlocks (s.shm.sdb sdb).maxSize ((g.dataVec r).drop block) tempOffset []
  let shm ← s.shm.copyTo r sdb copied
  return ({ s with shm }, [.countProducer r (block + finished) tempOffset])

end ShmState

namespace ShmTask

variable (g : ShmGroup)

-- What a process waits for.
def ready : ShmTask → ShmState → Prop
  | recvToken r part, s       => s.currentRank = r ∨ r = 0 ∧ part = .thread ∧ s.thrown g
  | sendData r block _, s     => block < (g.dataVec r).length → s.shm.numBuffersFull ≠ 2
  | lockProducer _ _ _ _, s   => s.shm.lock (ShmSegment.lockOf s.shm.producerBuffer) = false
  | writeOthersData wrote, s  =>
    wrote < g.myTotalSize - g.dataSize 0 ∧ ¬ s.thrown g → 1 ≤ s.shm.numBuffersFull
  | lockConsumer _ _, s       => s.shm.lock (ShmSegment.lockOf s.shm.consumerBuffer) = false
  | _, _                      => True

instance : ∀ (t : ShmTask) (s : ShmState), Decidable (t.ready g s)
  | recvToken _ _, _        => inferInstanceAs (Decidable (_ ∨ _))
  | sendData _ _ _, _       => inferInstanceAs (Decidable (_ → _))
  | lockProducer _ _ _ _, _ => inferInstanceAs (Decidable (_ = _))
  | writeOthersData _, _    => inferInstanceAs (Decidable (_ → _))
  | lockConsumer _ _, _     => inferInstanceAs (Decidable (_ = _))
  | sendToken _ _, _ | writeMyOwnData, _ | chooseProducer _ _ _, _ | fill _ _ _ _, _
  | countProducer _ _ _, _ | unlockProducer _ _ _, _ | chooseConsumer _, _ | writeBuffer _ _, _
  | countConsumer _, _ | unlockConsumer _, _ => inferInstanceAs (Decidable True)

def exec (e : List Schedule) : ShmTask → ShmState → Outcome (ShmState × List ShmTask)
  | recvToken r part, s                    => .ok (s.recvToken r part, [])
  | sendToken r part, s                    => do
    let pos := match part with
      | .main   => s.startDataPos r
      | .thread => s.startPos r
    let s ← s.sendToken g r (pos + g.dataSize r)
    return (s, [])
  | writeMyOwnData, s                      => do
    let s ← s.writeMyOwnData g e
    return (s, [])
  | sendData r block tempOffset, s         =>
    .ok (s, if block < (g.dataVec r).length then [chooseProducer r block tempOffset] else [])
  | chooseProducer r block tempOffset, s   =>
    .ok ({ s with shm := s.shm.chooseProducer (g.address r) },
      [lockProducer r (ShmSegment.next s.shm.producerBuffer) block tempOffset])
  | lockProducer r sdb block tempOffset, s =>
    .ok ({ s with shm := s.shm.setLock (ShmSegment.lockOf s.shm.producerBuffer) true },
      [fill r sdb block tempOffset])
  | fill r sdb block tempOffset, s         => s.fill g r sdb block tempOffset
  | countProducer r block tempOffset, s    =>
    let sdb := ShmSegment.lockOf s.shm.producerBuffer
    .ok ({ s with
        shm      := s.shm.countProducer
        released := s.released ++ [s.content g sdb] },
      [unlockProducer r block tempOffset])
  | unlockProducer r block tempOffset, s   =>
    .ok ({ s with shm := s.shm.setLock (ShmSegment.lockOf s.shm.producerBuffer) false },
      [sendData r block tempOffset])
  | writeOthersData wrote, s               =>
    if s.thrown g then
      .ok (s, [])
    else if wrote < g.myTotalSize - g.dataSize 0 then
      .ok (s, [chooseConsumer wrote])
    else if g.asyncWrite then
      .ok (s, [])
    else
      .ok ({ s with dataPos := s.dataPos + (g.myTotalSize - g.dataSize 0) }, [])
  | chooseConsumer wrote, s                =>
    .ok ({ s with shm := s.shm.chooseConsumer (g.address 0) },
      [lockConsumer (ShmSegment.next s.shm.consumerBuffer) wrote])
  | lockConsumer sdb wrote, s              =>
    .ok ({ s with shm := s.shm.setLock (ShmSegment.lockOf s.shm.consumerBuffer) true },
      [writeBuffer sdb wrote])
  | writeBuffer sdb wrote, s               => do
    let s' ← s.writeBuffer g e sdb
    return (s', if s'.thrown g then [] else [countConsumer (wrote + (s.shm.sdb sdb).actualSize)])
  | countConsumer wrote, s                 =>
    .ok ({ s with shm := s.shm.countConsumer }, [unlockConsumer wrote])
  | unlockConsumer wrote, s                =>
    .ok ({ s with shm := s.shm.setLock (ShmSegment.lockOf s.shm.consumerBuffer) false },
      [writeOthersData wrote])

end ShmTask

namespace ShmGroup

variable (g : ShmGroup)

def program : Program Nat ShmState ShmTask (List Schedule) where
  ready  := ShmTask.ready g
  exec   := ShmTask.exec g
  begins := fun _ _ _ => False

-- What a rank does in a round of the token. Data is sent in the last round.
def round (r : Nat) : Part → List ShmTask
  | .main   =>
    if g.asyncWrite then
      [.recvToken r .main, .sendToken r .main]
    else
      [.recvToken r .main, .sendData r 0 0, .sendToken r .main]
  | .thread => [.recvToken r .thread, .sendData r 0 0, .sendToken r .thread]

def aggregatorTasks : List ShmTask :=
  if g.asyncWrite then
    [.sendToken 0 .main, .recvToken 0 .main, .sendToken 0 .thread, .writeMyOwnData,
      .writeOthersData 0, .recvToken 0 .thread]
  else
    [.sendToken 0 .main, .writeMyOwnData, .writeOthersData 0]

def tasks : Nat → List ShmTask
  | 0     => g.aggregatorTasks
  | r + 1 =>
    if r + 1 < g.size then
      if g.asyncWrite then
        g.round (r + 1) .main ++ g.round (r + 1) .thread
      else
        g.round (r + 1) .main
    else
      []

-- When the segment and the token chain have been set up.
def start (file : System) : Configuration Nat ShmState ShmTask where
  state   := {
    dataPos      := if g.asyncWrite then g.dataPos + g.myTotalSize else g.dataPos
    startDataPos := fun r => if r = 0 then g.dataPos else 0
    startPos     := fun _ => 0
    currentRank  := 0
    token        := 0
    shm          := .init g.shmSize
    file
    eptr         := none
    released     := []
    consumed     := []
  }
  threads := g.tasks

end ShmGroup

end BP5
