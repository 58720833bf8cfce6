import Adios2.Lib.PosixFile
import Adios2.Lib.Threads

-- The drain of a burst buffer: a writer adds operations to a queue, and a thread takes them from
-- there and executes them, until the queue is empty and it has been told to finish.

namespace BurstBuffer

open Bytes

inductive DrainOperation
  | seekEnd
  | copyAt
  | copy
  | writeAt
  | write
  | create
  | open
  | delete
  deriving DecidableEq, Repr

structure FileDrainOperation where
  op           : DrainOperation
  fromFileName : List Byte   := []
  toFileName   : List Byte
  countBytes   : Nat         := 0
  fromOffset   : Nat         := 0
  toOffset     : Nat         := 0
  dataToWrite  : List Byte   := []
  deriving DecidableEq, Repr

-- A `std::ifstream`
structure InputStream where
  position : Nat  := 0
  eofbit   : Bool := false
  failbit  : Bool := false
  deriving DecidableEq, Repr

-- A `std::ofstream`
structure OutputStream where
  append   : Bool
  isOpen   : Bool := true
  position : Nat  := 0
  failbit  : Bool := false
  badbit   : Bool := false
  deriving DecidableEq, Repr

namespace InputStream

def good (f : InputStream) : Bool := !f.eofbit && !f.failbit

-- A call of `read`, for which `answer` bytes have arrived.
def read (f : InputStream) (content : List Byte) (answer count : Nat) : InputStream × List Byte :=
  if f.good then
    let data := (content.drop f.position).take (min answer count)
    let short := decide (data.length < count)
    ({ position := f.position + data.length, eofbit := short, failbit := short }, data)
  else
    ({ f with failbit := true }, [])

def seekg (f : InputStream) (offset : Nat) : InputStream :=
  if f.failbit then { f with eofbit := false } else { f with eofbit := false, position := offset }

end InputStream

namespace OutputStream

def good (f : OutputStream) : Bool := !f.failbit && !f.badbit

def fail (f : OutputStream) : Bool := f.failbit || f.badbit

def seekp (f : OutputStream) (offset : Nat) : OutputStream :=
  if f.fail then f else if f.isOpen then { f with position := offset } else { f with failbit := true }

-- A stream that is opened with `std::ios::app` writes to the end of the file.
def write (f : OutputStream) (content bs : List Byte) : OutputStream × List Byte :=
  if !f.good || bs = [] then
    (f, content)
  else if f.isOpen then
    let file : Posix.File := { content, position := if f.append then content.length else f.position }
    ({ f with position := (file.write bs).position }, (file.write bs).content)
  else
    ({ f with badbit := true }, content)

def close (f : OutputStream) : OutputStream :=
  if f.isOpen then { f with isOpen := false } else { f with failbit := true }

end OutputStream

-- What the drain thread works on: the files to read from with all that will have arrived, the files
-- to write to, and the open streams. The answers are those to the next calls of `read`; a call that
-- nothing is said about finds all.
structure Files where
  sources       : List Byte → Option (List Byte)
  targets       : List Byte → Option (List Byte)
  inputFileMap  : List Byte → Option InputStream      := fun _ => none
  outputFileMap : List Byte → Option OutputStream     := fun _ => none
  answers       : List Nat                            := []

abbrev Drain := EStateM Fault Files

section FileDrainer

def undefined {α : Type} : Drain α := throw .undefined

def getFileForRead (path : List Byte) : Drain InputStream := do
  let s ← get
  match s.inputFileMap path with
  | some f => pure f
  | none   =>
    let f : InputStream := { failbit := (s.sources path).isNone }
    set { s with inputFileMap := Function.update s.inputFileMap path (some f) }
    pure f

def setInput (path : List Byte) (f : InputStream) : Drain Unit :=
  modify fun s => { s with inputFileMap := Function.update s.inputFileMap path (some f) }

def getFileForWrite (path : List Byte) (append : Bool) : Drain OutputStream := do
  let s ← get
  match s.outputFileMap path with
  | some f => pure f
  | none   =>
    let f : OutputStream := { append }
    let content := if append then (s.targets path).getD [] else []
    set { s with outputFileMap := Function.update s.outputFileMap path (some f)
                 targets       := Function.update s.targets path (some content) }
    pure f

def setOutput (path : List Byte) (f : OutputStream) : Drain Unit :=
  modify fun s => { s with outputFileMap := Function.update s.outputFileMap path (some f) }

def setTarget (path : List Byte) (content : Option (List Byte)) : Drain Unit :=
  modify fun s => { s with targets := Function.update s.targets path content }

-- `Read`. The data are those that the buffer gets.
def read (path : List Byte) : Nat → Nat → Drain (List Byte)
  | _, 0               => pure []
  | 0, _               => throw .outOfFuel
  | fuel + 1, count    => do
    let f ← getFileForRead path
    let s ← get
    let (f', data) := f.read ((s.sources path).getD []) (s.answers.headD count) count
    set { s with answers := if f.good then s.answers.tail else s.answers }
    if data.length < count then
      if f'.eofbit then
        setInput path { f' with eofbit := false }
      else
        setInput path f'
        throw <| .thrown "Toolkit" "BurstBuffer::FileDrainer" "Read" "FileDrainer couldn't read"
    else
      setInput path f'
    let rest ← read path fuel (count - data.length)
    pure (data ++ rest)

def write (path bs : List Byte) : Drain Unit := do
  let f ← getFileForWrite path false
  let s ← get
  let (f', content) := f.write ((s.targets path).getD []) bs
  setOutput path f'
  if f.isOpen then
    setTarget path (some content)
  if f'.badbit then
    throw <| .thrown "Toolkit" "BurstBuffer::FileDrainer" "Write" "FileDrainer couldn't write"

def seekOutput (path : List Byte) (offset : Nat) : Drain Unit := do
  let f ← getFileForWrite path false
  setOutput path (f.seekp offset)

def seekEnd (path : List Byte) : Drain Unit := do
  let f ← getFileForWrite path false
  let s ← get
  setOutput path (f.seekp ((s.targets path).getD []).length)

def delete (path : List Byte) : Drain Unit := do
  let f ← getFileForWrite path true
  setOutput path f.close
  setTarget path none

-- `lf_Copy`. The buffer is of the size that is asked for at least.
def lfCopy (fdo : FileDrainOperation) (count : Nat) : Drain Unit := do
  let s ← get
  let data ← read fdo.fromFileName (s.answers.length + 2) count
  write fdo.toFileName data

def copyBatches (fdo : FileDrainOperation) (bufferSize : Nat) : Nat → Drain Unit
  | 0           => pure ()
  | batches + 1 => do
    lfCopy fdo bufferSize
    copyBatches fdo bufferSize batches

def copyAll (fdo : FileDrainOperation) (bufferSize : Nat) : Drain Unit := do
  if fdo.op = .copyAt then
    let fdr ← getFileForRead fdo.fromFileName
    setInput fdo.fromFileName (fdr.seekg fdo.fromOffset)
    seekOutput fdo.toFileName fdo.toOffset
  copyBatches fdo bufferSize (fdo.countBytes / bufferSize)
  if fdo.countBytes % bufferSize ≠ 0 then
    lfCopy fdo (fdo.countBytes % bufferSize)

-- An exception of a stream is logged.
def catchFailure (x : Drain Unit) : Drain Unit := fun s =>
  match x s with
  | .error (.thrown _ _ _ _) s' => .ok () s'
  | r                           => r

-- The data of an operation are as many as it says, unless it has been made without.
def writeData (fdo : FileDrainOperation) : Drain Unit :=
  if fdo.dataToWrite.length < fdo.countBytes then undefined
  else write fdo.toFileName (fdo.dataToWrite.take fdo.countBytes)

-- An operation in `DrainThread`
def execute (bufferSize : Nat) (fdo : FileDrainOperation) : Drain Unit :=
  match fdo.op with
  | .copyAt | .copy => do
    let fdr ← getFileForRead fdo.fromFileName
    let fdw ← getFileForWrite fdo.toFileName (fdo.op = .copy)
    if fdr.good && fdw.good then
      catchFailure <| copyAll fdo bufferSize
  | .seekEnd => seekEnd fdo.toFileName
  | .writeAt => do
    seekOutput fdo.toFileName fdo.toOffset
    writeData fdo
  | .write   => writeData fdo
  | .create  => do
    let _ ← getFileForWrite fdo.toFileName false
  | .open    => do
    let _ ← getFileForWrite fdo.toFileName true
  | .delete  => delete fdo.toFileName

end FileDrainer

section DrainThread

inductive Thread
  | writer
  | drainer
  deriving DecidableEq, Repr

-- The tasks of the writer are `AddOperation` and `Finish`. The drain thread looks at the queue and then
-- either at the flag or executes the first operation and takes it from the queue.
inductive Task
  | addOperation (fdo : FileDrainOperation)
  | finish
  | look
  | checkFinish
  | execute (fdo : FileDrainOperation)
  | pop
  deriving DecidableEq

-- What has been added and executed is kept for the statements.
structure State where
  operations : List FileDrainOperation   := []
  finish     : Bool                      := false
  files      : Files
  added      : List FileDrainOperation   := []
  executed   : List FileDrainOperation   := []

def Task.exec (bufferSize : Nat) (answers : List Nat) (t : Task) (s : State) :
    Outcome (State × List Task) :=
  match t with
  | .addOperation fdo =>
    .ok ({ s with operations := s.operations ++ [fdo], added := s.added ++ [fdo] }, [])
  | .finish           => .ok ({ s with finish := true }, [])
  | .look             =>
    match s.operations with
    | []       => .ok (s, [.checkFinish])
    | fdo :: _ => .ok (s, [.execute fdo])
  | .checkFinish      => .ok (s, if s.finish then [] else [.look])
  | .execute fdo      =>
    match BurstBuffer.execute bufferSize fdo { s.files with answers } with
    | .ok _ files     => .ok ({ s with files, executed := s.executed ++ [fdo] }, [.pop])
    | .error fault _  => .error fault
  | .pop              => .ok ({ s with operations := s.operations.tail }, [.look])

end DrainThread

end BurstBuffer
