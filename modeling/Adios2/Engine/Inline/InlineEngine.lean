import Adios2.Core.Io

-- The inline engine: a writer and a reader that share the variables of one IO, and with them the list
-- of blocks that each variable has.

namespace Inline

open Bytes BP5 Core

inductive SelectionType
  | boundingBox
  | writeBlock
  deriving DecidableEq, Repr

-- The members of a variable that a block has from its Put.
structure Selection where
  shape         : Dims
  start         : Dims
  count         : Dims
  blockID       : Nat           := 0
  selectionType : SelectionType := .boundingBox
  memoryStart   : Dims          := []
  memoryCount   : Dims          := []
  deriving DecidableEq, Repr

-- A variable at a call. Its blocks are in the state.
structure Variable where
  name        : List Byte
  elementSize : Nat
  shapeID     : ShapeID
  singleValue : Bool
  selection   : Selection
  stepsCount  : Nat := 1
  deriving DecidableEq, Repr

namespace Variable

def selectionSize (v : Variable) : Nat :=
  (v.selection.count.map UInt64.toNat).prod * v.stepsCount

def isValue (v : Variable) : Prop := v.shapeID = .globalValue ∨ v.shapeID = .localValue

instance (v : Variable) : Decidable v.isValue := by
  unfold isValue
  infer_instance

end Variable

-- Memory of the user is given by its content: it is not changed before the reader has read it. The
-- other blocks point to one of the internal buffers.
inductive Pointer
  | user (content : List Byte)
  | buffer (i : Nat)
  deriving DecidableEq, Repr

structure BlockInfo where
  selection  : Selection
  stepsStart : Option Nat
  data       : Pointer
  value      : List Byte
  isValue    : Bool           := false
  bufferP    : Option Pointer := none
  deriving DecidableEq, Repr

structure DeferredBlock where
  var        : Variable
  data       : List Byte
  dataSize   : Nat
  blockIndex : Nat
  deriving DecidableEq, Repr

inductive StepStatus
  | ok
  | notReady
  | endOfStream
  deriving DecidableEq, Repr

-- The step before the first one is `none`.
structure InlineWriter where
  currentStep     : Option Nat           := none
  insideStep      : Bool                 := false
  resetVariables  : Bool                 := false
  deferredPuts    : List DeferredBlock   := []
  internalBuffers : List (List Byte)     := []

structure InlineReader where
  currentStep       : Option Nat         := none
  insideStep        : Bool               := false
  deferredVariables : List (List Byte)   := []

-- Both engines, with `m_BlocksInfo` and the buffer indices of `m_BlocksSpan` of each variable.
structure State where
  writer     : InlineWriter                     := {}
  reader     : InlineReader                     := {}
  blocksInfo : List Byte → List BlockInfo       := fun _ => []
  blocksSpan : List Byte → Nat → Option Nat     := fun _ _ => none

namespace State

def thrown {α : Type} (source activity message : String) : Outcome α :=
  .error <| .thrown "Engine" source activity message

-- `ResetVariables`
def reset (s : State) : State :=
  { s with blocksInfo := fun _ => [], writer := { s.writer with resetVariables := false } }

section Writer

def beginStep (s : State) : Outcome (State × StepStatus) :=
  if s.writer.insideStep then
    thrown "InlineWriter" "BeginStep"
      "InlineWriter::BeginStep was called but the writer is already inside a step"
  else if s.reader.insideStep then
    .ok (s, .notReady)
  else
    let currentStep := match s.writer.currentStep with
      | none   => some 0
      | some n => some (n + 1)
    let writer := { s.writer with insideStep := true, internalBuffers := [], currentStep }
    .ok ({ s with writer }.reset, .ok)

-- `Variable<T>::SetBlockInfo`
def setBlockInfo (s : State) (v : Variable) (data : Pointer) (value : List Byte) (isValue : Bool) :
    State :=
  let info : BlockInfo :=
    { selection := v.selection, stepsStart := s.writer.currentStep, data, value, isValue }
  { s with blocksInfo := Function.update s.blocksInfo v.name (s.blocksInfo v.name ++ [info]) }

-- What a Put does first.
def resetIfNeeded (s : State) : State := if s.writer.resetVariables then s.reset else s

-- The element of a type without a value: `T()`
def defaultValue (v : Variable) : List Byte := List.replicate v.elementSize 0

def putDeferredCommon (s : State) (v : Variable) (data : List Byte) : State :=
  let s := s.resetIfNeeded
  if v.isValue then
    s.setBlockInfo v (.user data) data true
  else
    let s := s.setBlockInfo v (.user data) (defaultValue v) false
    let dataSize := v.selectionSize * v.elementSize
    let block : DeferredBlock :=
      { var := v, data, dataSize, blockIndex := (s.blocksInfo v.name).length - 1 }
    { s with writer := { s.writer with deferredPuts := s.writer.deferredPuts ++ [block] } }

def putSyncCommon (s : State) (v : Variable) (data : List Byte) : Outcome State :=
  if v.singleValue then
    .ok <| s.putDeferredCommon v data
  else
    thrown "InlineWriter" "PutSyncCommon" "Put Sync is not supported."

-- The Put of a span, with what the new buffer has in it. The span is that of the number of blocks
-- that the variable has before the Put.
def putSpan (s : State) (v : Variable) (content : List Byte) : State :=
  let index := (s.blocksInfo v.name).length
  let s := s.resetIfNeeded
  let bufferIdx := s.writer.internalBuffers.length
  let blocksSpan := Function.update s.blocksSpan v.name
    (Function.update (s.blocksSpan v.name) index (some bufferIdx))
  let writer := { s.writer with internalBuffers := s.writer.internalBuffers ++ [content] }
  { s with blocksSpan, writer }.setBlockInfo v (.buffer bufferIdx) (defaultValue v)
    (decide v.isValue)

-- The user writes to the elements of a span.
def storeSpan (s : State) (name : List Byte) (index : Nat) (content : List Byte) : Outcome State :=
  match s.blocksSpan name index with
  | none   => .error .undefined
  | some i =>
    if i < s.writer.internalBuffers.length then
      let internalBuffers := s.writer.internalBuffers.set i content
      .ok { s with writer := { s.writer with internalBuffers } }
    else
      .error .undefined

-- A round of `PerformPuts`
def performPut (s : State) (d : DeferredBlock) : Outcome State :=
  let blocks := s.blocksInfo d.var.name
  if d.dataSize ≤ d.data.length ∧ d.blockIndex < blocks.length then
    let data := Pointer.buffer s.writer.internalBuffers.length
    let blocks := blocks.modify d.blockIndex fun b => { b with data }
    let internalBuffers := s.writer.internalBuffers ++ [d.data.take d.dataSize]
    .ok { s with blocksInfo := Function.update s.blocksInfo d.var.name blocks
                 writer     := { s.writer with internalBuffers } }
  else
    .error .undefined

def performPuts (s : State) : Outcome State := do
  let s ← s.writer.deferredPuts.foldlM performPut s
  pure { s with writer := { s.writer with deferredPuts := [], resetVariables := true } }

def endStep (s : State) : Outcome State :=
  if s.writer.insideStep then
    .ok { s with writer := { s.writer with insideStep := false } }
  else
    thrown "InlineWriter" "EndStep"
      "InlineWriter::EndStep() cannot be called without a call to BeginStep() first"

end Writer

section Reader

def readerBeginStep (s : State) : Outcome (State × StepStatus) :=
  if s.reader.insideStep then
    thrown "InlineReader" "BeginStep"
      "InlineReader::BeginStep was called but the reader is already inside a step"
  else if s.writer.insideStep then
    .ok (s, .notReady)
  else
    let currentStep := s.writer.currentStep
    if currentStep = none then
      .ok ({ s with reader := { s.reader with currentStep } }, .endOfStream)
    else
      .ok ({ s with reader := { s.reader with currentStep, insideStep := true } }, .ok)

-- The bytes behind a pointer.
def content (s : State) : Pointer → Option (List Byte)
  | .user content => some content
  | .buffer i     => s.writer.internalBuffers[i]?

-- What the Get of an element takes, for elements of the size.
def getSyncCommon (s : State) (name : List Byte) (elementSize : Nat) : Outcome (List Byte) := do
  let info ← ((s.blocksInfo name).getLast?).orUndefined
  if info.isValue then
    pure info.value
  else
    let data ← (s.content info.data).orUndefined
    pure <| data.take elementSize

-- `GetBlockSyncCommon` and `GetBlockDeferredCommon` return a block of the list.
def getBlock (s : State) (name : List Byte) (blockID : Nat) (sync : Bool) : Outcome State :=
  let blocks := s.blocksInfo name
  if blockID ≥ blocks.length then
    thrown "InlineReader" (if sync then "GetBlockSyncCommon" else "GetBlockDeferredCommon") <|
      s!"selected BlockID {blockID} is above range of available blocks in GetBlockSync"
  else if sync then
    let blocks := blocks.modify blockID fun b => { b with bufferP := some b.data }
    .ok { s with blocksInfo := Function.update s.blocksInfo name blocks }
  else
    let deferredVariables := s.reader.deferredVariables ++ [name]
    .ok { s with reader := { s.reader with deferredVariables } }

-- `SetDeferredVariablePointers`
def setDeferredVariablePointers (s : State) : State :=
  let names := s.reader.deferredVariables
  { s with
    blocksInfo := fun name =>
      if name ∈ names then (s.blocksInfo name).map fun b => { b with bufferP := some b.data }
      else s.blocksInfo name
    reader     := { s.reader with deferredVariables := [] } }

def performGets (s : State) : State := s.setDeferredVariablePointers

def readerEndStep (s : State) : Outcome State :=
  if s.reader.insideStep then
    let s := if s.reader.deferredVariables = [] then s else s.setDeferredVariablePointers
    .ok { s with reader := { s.reader with insideStep := false } }
  else
    thrown "InlineReader" "EndStep"
      "InlineReader::EndStep() cannot be called without a call to BeginStep() first"

end Reader

end State

inductive Call
  | beginStep
  | putDeferred (v : Variable) (data : List Byte)
  | putSync (v : Variable) (data : List Byte)
  | putSpan (v : Variable) (content : List Byte)
  | storeSpan (name : List Byte) (index : Nat) (content : List Byte)
  | performPuts
  | endStep
  | readerBeginStep
  | get (name : List Byte) (elementSize : Nat)
  | getBlock (name : List Byte) (blockID : Nat) (sync : Bool)
  | performGets
  | readerEndStep
  deriving DecidableEq, Repr

def State.call (s : State) : Call → Outcome State
  | .beginStep                    => Prod.fst <$> s.beginStep
  | .putDeferred v data           => .ok <| s.putDeferredCommon v data
  | .putSync v data               => s.putSyncCommon v data
  | .putSpan v content            => .ok <| s.putSpan v content
  | .storeSpan name index content => s.storeSpan name index content
  | .performPuts                  => s.performPuts
  | .endStep                      => s.endStep
  | .readerBeginStep              => Prod.fst <$> s.readerBeginStep
  | .get name elementSize         => (fun _ => s) <$> s.getSyncCommon name elementSize
  | .getBlock name blockID sync   => s.getBlock name blockID sync
  | .performGets                  => .ok s.performGets
  | .readerEndStep                => s.readerEndStep

end Inline
