import Adios2.Format.DataMan.DataManSerializer
import Adios2.Lib.Threads

-- The reliable mode of DataMan, after the handshake with the readers. The writer puts packs into a
-- queue, and its reply thread answers each request of a reader with the first pack of the queue. A
-- reader requests packs in a thread of its own, until it receives the number of the final step.

namespace DataMan

open Bytes CString

variable {ε : Type} {n : Nat}

structure Parameters (n : Nat) where
  -- `CombiningSteps` of the writer
  combiningSteps : Int
  -- `Threading` of the readers
  threading      : Fin n → Bool
  endian         : Endian
  deriving DecidableEq

-- One reader.
instance instNeZeroOne : NeZero (1 : Nat) := ⟨Nat.one_ne_zero⟩

inductive Thread (n : Nat)
  -- the application of the writer and its reply thread
  | writer
  | reply
  -- the application of a reader, its request thread and that of `PutPack`
  | reader (i : Fin n)
  | request (i : Fin n)
  | putPack (i : Fin n)
  deriving DecidableEq, Repr

inductive Task (ε : Type) (n : Nat)
  | beginStep
  | putData (b : Block ε)
  | endStep
  | closePack
  | closeFinalStep
  | waitReplies
  | stopReplying
  | joinReplyThread
  | checkReplying
  | receiveRequest
  | popBufferQueue (i : Fin n)
  | sendReply (i : Fin n) (buffer : List Byte)
  | countReply
  | sendRequest (i : Fin n)
  | receiveReply (i : Fin n)
  | putPack (i : Fin n) (buffer : List Byte)
  | putPackThread (i : Fin n) (buffer : List Byte)
  | readerBeginStep (i : Fin n)
  | getEarliestStep (i : Fin n)
  | readerEndStep (i : Fin n)

structure WriterState (ε : Type) where
  currentStep       : Int              := -1
  combinedSteps     : Int              := 0
  serializer        : WriterBuffer ε   := {}
  bufferQueue       : List (List Byte) := []
  sentSteps         : Nat              := 0
  replyThreadActive : Bool             := true
  replyThreadEnded  : Bool             := false
  isClosed          : Bool             := false

-- What has been received and presented is kept for the statements.
structure ReaderState (ε : Type) where
  currentStep   : Int                   := -1
  finalStep     : Int                   := 2 ^ 63 - 1
  serializer    : VarMap ε              := {}
  -- the pack of a thread that can be joined
  putPackThread : Option (List Byte)    := none
  -- a reply on its way
  reply         : Option (List Byte)    := none
  received      : List (List Byte)      := []
  presented     : List (Int × List ε)   := []
  endOfStream   : Bool                  := false

structure State (ε : Type) (n : Nat) where
  writer   : WriterState ε
  readers  : Fin n → ReaderState ε
  -- the readers whose requests the replier has not received yet
  requests : List (Fin n)          := []

def State.modifyReader (s : State ε n) (i : Fin n) (f : ReaderState ε → ReaderState ε) :
    State ε n :=
  { s with readers := Function.update s.readers i (f (s.readers i)) }

section Writer

def WriterState.beginStep (w : WriterState ε) : WriterState ε :=
  { w with
    currentStep := w.currentStep + 1
    serializer  := if w.combinedSteps = 0 then newWriterBuffer else w.serializer }

def WriterState.putData (w : WriterState ε) (b : Block ε) : WriterState ε :=
  { w with serializer := w.serializer.putData w.currentStep.toNat b }

def WriterState.pushBufferQueue (w : WriterState ε) (buffer : List Byte) : WriterState ε :=
  { w with bufferQueue := w.bufferQueue ++ [buffer] }

def WriterState.endStep (json : JsonLibrary ε) (p : Parameters n) (w : WriterState ε) :
    WriterState ε :=
  if p.combiningSteps ≤ w.combinedSteps + 1 then
    { w with combinedSteps := 0 }.pushBufferQueue (w.serializer.getLocalPack json p.endian)
  else
    { w with combinedSteps := w.combinedSteps + 1 }

-- The two buffers that `DoClose` sends.
def WriterState.closePack (json : JsonLibrary ε) (p : Parameters n) (w : WriterState ε) :
    WriterState ε :=
  if w.combinedSteps < p.combiningSteps ∧ 0 < w.combinedSteps then
    w.pushBufferQueue (w.serializer.getLocalPack json p.endian)
  else
    w

def endSignal (currentStep : Int) : List Byte := finalStepText currentStep ++ [0]

def WriterState.closeFinalStep (w : WriterState ε) : WriterState ε :=
  w.pushBufferQueue (endSignal w.currentStep)

-- `m_SentSteps + m_CombiningSteps`
def WriterState.countReply (p : Parameters n) (w : WriterState ε) : WriterState ε :=
  { w with sentSteps := ((w.sentSteps + p.combiningSteps) % 2 ^ 64).toNat }

end Writer

section Reader

-- What `RequestThread` takes for the number of the final step.
def finalStepIn (json : JsonLibrary ε) (buffer : List Byte) : Outcome (Option Int) :=
  if buffer.length < 64 then do
    let text ← cString buffer
    match json.parse text with
    | some (.finalStep n) => pure (some n)
    | _                   => pure none
  else
    pure none

def ReaderState.putPackThread' (json : JsonLibrary ε) (e : Endian) (r : ReaderState ε)
    (buffer : List Byte) : Outcome (ReaderState ε) := do
  let serializer ← r.serializer.putPackThread json e buffer
  pure { r with serializer }

def ReaderState.atEndOfStream (r : ReaderState ε) : Bool :=
  r.finalStep ≤ r.currentStep && 0 ≤ r.currentStep

def ReaderState.endStep (r : ReaderState ε) : ReaderState ε :=
  { r with serializer := r.serializer.erase r.currentStep.toNat }

end Reader

-- Where a thread waits until a loop finds what it looks for, the task is not ready. A receiver of
-- requests that times out tests whether it has to go on, which matters when it has not.
def Task.Ready (t : Task ε n) (s : State ε n) : Prop :=
  match t with
  | .waitReplies       =>
    s.writer.replyThreadActive = true → (s.writer.currentStep + 2).toNat ≤ s.writer.sentSteps
  | .joinReplyThread   => s.writer.replyThreadEnded = true
  | .receiveRequest    => s.requests ≠ [] ∨ s.writer.replyThreadActive = false
  | .popBufferQueue _  => s.writer.bufferQueue ≠ []
  | .receiveReply i    => (s.readers i).reply ≠ none
  | .putPack i _       => (s.readers i).putPackThread = none
  | .getEarliestStep i => (s.readers i).serializer.earliestStep 1 ≠ none
  | _                  => True

instance (t : Task ε n) (s : State ε n) : Decidable (t.Ready s) := by
  cases t <;> unfold Task.Ready <;> infer_instance

def Task.exec (json : JsonLibrary ε) (p : Parameters n) (timedOut : Bool) (t : Task ε n)
    (s : State ε n) : Outcome (State ε n × List (Task ε n)) :=
  match t with
  | .beginStep      => .ok ({ s with writer := s.writer.beginStep }, [])
  | .putData b      => .ok ({ s with writer := s.writer.putData b }, [])
  | .endStep        => .ok ({ s with writer := s.writer.endStep json p }, [])
  | .closePack      => .ok ({ s with writer := s.writer.closePack json p }, [])
  | .closeFinalStep => .ok ({ s with writer := s.writer.closeFinalStep }, [])
  | .waitReplies    => .ok (s, if s.writer.replyThreadActive then [.stopReplying] else [])
  | .stopReplying   => .ok ({ s with writer.replyThreadActive := false }, [])
  | .joinReplyThread => .ok ({ s with writer.isClosed := true }, [])
  | .checkReplying  =>
    if s.writer.replyThreadActive then .ok (s, [.receiveRequest])
    else .ok ({ s with writer.replyThreadEnded := true }, [])
  | .receiveRequest =>
    match s.requests with
    | i :: requests =>
      if timedOut ∧ s.writer.replyThreadActive = false then .ok (s, [.checkReplying])
      else .ok ({ s with requests }, [.popBufferQueue i])
    | []            => .ok (s, [.checkReplying])
  | .popBufferQueue i =>
    match s.writer.bufferQueue with
    | buffer :: bufferQueue =>
      .ok ({ s with writer.bufferQueue := bufferQueue },
        if buffer.length > 0 then [.sendReply i buffer] else [.checkReplying])
    | []                    => .ok (s, [.popBufferQueue i])
  | .sendReply i buffer =>
    .ok (s.modifyReader i fun r => { r with reply := some buffer }, [.countReply])
  | .countReply     => .ok ({ s with writer := s.writer.countReply p }, [.checkReplying])
  | .sendRequest i  => .ok ({ s with requests := s.requests ++ [i] }, [.receiveReply i])
  | .receiveReply i =>
    match (s.readers i).reply with
    | none        => .ok (s, [.receiveReply i])
    | some buffer => do
      let s' := s.modifyReader i fun r =>
        { r with reply := none, received := r.received ++ [buffer] }
      if buffer.length = 0 then
        pure (s', [.sendRequest i])
      else
        match ← finalStepIn json buffer with
        | some k => pure (s'.modifyReader i fun r => { r with finalStep := k }, [])
        | none   => pure (s', [.putPack i buffer])
  | .putPack i buffer => do
    if p.threading i then
      pure (s.modifyReader i fun r => { r with putPackThread := some buffer }, [.sendRequest i])
    else
      let r ← (s.readers i).putPackThread' json p.endian buffer
      pure (s.modifyReader i fun _ => r, [.sendRequest i])
  | .putPackThread i buffer => do
    let r ← (s.readers i).putPackThread' json p.endian buffer
    pure (s.modifyReader i fun _ => { r with putPackThread := none }, [])
  | .readerBeginStep i =>
    if (s.readers i).atEndOfStream then
      .ok (s.modifyReader i fun r => { r with endOfStream := true }, [])
    else
      .ok (s, [.getEarliestStep i])
  | .getEarliestStep i =>
    match (s.readers i).serializer.earliestStep 1 with
    | none      => .ok (s, [.getEarliestStep i])
    | some step =>
      let (vars, serializer) := (s.readers i).serializer.vars step
      match vars with
      | some vars =>
        .ok (s.modifyReader i fun r =>
          { r with
            currentStep := step, serializer, presented := r.presented ++ [((step : Int), vars)] },
          [.readerEndStep i])
      -- no metadata of the step: the end of the stream, as after a timeout
      | none      =>
        .ok (s.modifyReader i fun r =>
          { r with currentStep := step, serializer, endOfStream := true }, [])
  | .readerEndStep i =>
    .ok (s.modifyReader i ReaderState.endStep, [.readerBeginStep i])

-- The tasks of a writer that puts the blocks of some steps and closes then.
def stepTasks (blocks : List (Block ε)) : List (Task ε n) :=
  .beginStep :: blocks.map .putData ++ [.endStep]

def closeTasks : List (Task ε n) := [.closePack, .closeFinalStep, .waitReplies, .joinReplyThread]

def writerTasks (steps : List (List (Block ε))) : List (Task ε n) :=
  steps.flatMap stepTasks ++ closeTasks

end DataMan
