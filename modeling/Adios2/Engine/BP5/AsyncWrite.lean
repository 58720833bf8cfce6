import Adios2.Helper.Log
import Adios2.Lib.PosixFile

-- How the thread that writes a rank's data fits its writes into the computation of the application.

namespace BP5.AsyncWrite

open Bytes

-- `expectedComputationBlocks` are the IDs of the blocks that the last step has recorded.
structure AsyncWriteInfo where
  startPos                  : Nat
  expectedComputationBlocks : List Nat
  deriving DecidableEq, Repr

-- What the main thread has set when the writing thread looks.
structure Observation where
  flagRush                  : Bool
  inComputationBlock        : Bool
  currentComputationBlockID : Nat
  deriving DecidableEq, Repr

inductive ComputationStatus
  | inComp
  | notInCompExpectMore
  | noMoreComp
  deriving DecidableEq, Repr

-- A call of `Write` or `WriteV` of the data file, with the position to seek to, if there is one.
structure IssuedWrite where
  bufs  : List (List Byte)
  start : Option Nat
  deriving DecidableEq, Repr

def IssuedWrite.perform (f : Posix.File) (w : IssuedWrite) : Posix.File :=
  let f := match w.start with
    | some start => { f with position := start }
    | none       => f
  f.write w.bufs.flatten

-- `compBlockIdx` is left where it has been moved to. The entry there is read without another look
-- at the end of the list.
def isInComputationBlock (info : AsyncWriteInfo) (o : Observation) (compBlockIdx : Nat) :
    Outcome (ComputationStatus × Nat) :=
  let expected := info.expectedComputationBlocks
  if expected.length ≤ compBlockIdx then
    .ok (.noMoreComp, compBlockIdx)
  else if o.inComputationBlock then do
    let compBlockIdx := compBlockIdx +
      ((expected.drop compBlockIdx).takeWhile (· < o.currentComputationBlockID)).length
    let blockID ← expected[compBlockIdx]?.orUndefined
    if o.currentComputationBlockID < blockID then
      pure (.notInCompExpectMore, compBlockIdx)
    else
      pure (.inComp, compBlockIdx)
  else
    .ok (.notInCompExpectMore, compBlockIdx)

-- The local variables of the loop, whether it was left by the final write, and what was written.
structure AsyncWriteState where
  compBlockIdx : Nat := 0
  wrote        : Nat := 0
  block        : Nat := 0
  tempOffset   : Nat := 0
  firstWrite   : Bool
  left         : Bool := false
  writes       : List IssuedWrite := []
  deriving DecidableEq, Repr

section

variable (info : AsyncWriteInfo) (dataVec : List (List Byte))

-- The rest of the data in one write.
def writeRest (s : AsyncWriteState) : AsyncWriteState :=
  let vec := match dataVec.drop s.block with
    | []            => []
    | first :: rest => first.drop s.tempOffset :: rest
  { s with
    left   := true
    writes := s.writes ++
      [{ bufs := vec, start := if s.firstWrite then some (info.startPos + s.wrote) else none }] }

-- The next part of the block.
def writeBatch (maxSize : Nat) (s : AsyncWriteState) : AsyncWriteState :=
  let iov := dataVec.getD s.block []
  let n := min (iov.length - s.tempOffset) maxSize
  let within := n + s.tempOffset < iov.length
  { s with
    wrote      := s.wrote + n
    block      := if within then s.block else s.block + 1
    tempOffset := if within then s.tempOffset + n else 0
    firstWrite := false
    writes     := s.writes ++ [{
      bufs  := [(iov.drop s.tempOffset).take n]
      start := if s.firstWrite then some info.startPos else none }] }

def asyncWriteIteration (maxSize : Nat) (o : Observation) (s : AsyncWriteState) :
    Outcome AsyncWriteState :=
  if o.flagRush then
    .ok (writeRest info dataVec s)
  else do
    let (compStatus, compBlockIdx) ← isInComputationBlock info o s.compBlockIdx
    let s := { s with compBlockIdx }
    match compStatus with
    | .notInCompExpectMore => pure s
    | .noMoreComp          => pure (writeRest info dataVec s)
    | .inComp              => pure (writeBatch info dataVec maxSize s)

def AsyncWriteState.Running (s : AsyncWriteState) : Prop :=
  s.left = false ∧ s.block < dataVec.length

instance (s : AsyncWriteState) : Decidable (s.Running dataVec) :=
  inferInstanceAs (Decidable (_ ∧ _))

-- One look at the flags for each round of the loop. Where no more looks are given, it is still on its
-- way.
def writeLoop (maxSize : Nat) : List Observation → AsyncWriteState → Outcome AsyncWriteState
  | [], s      => .ok s
  | o :: os, s =>
    if s.Running dataVec then do
      let s ← asyncWriteIteration info dataVec maxSize o s
      writeLoop maxSize os s
    else
      .ok s

def asyncWriteOwnData (totalsize : Nat) (seekOnFirstWrite : Bool) (os : List Observation) :
    Outcome AsyncWriteState :=
  writeLoop info dataVec (max (1024 * 1024) (totalsize / 100)) os { firstWrite := seekOnFirstWrite }

end

end BP5.AsyncWrite
