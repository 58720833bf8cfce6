import Adios2.Lib.PosixFile
import Adios2.Helper.Log

-- A file transport on a stream of the standard library: opening a file to read or to write it, its
-- size, and reads and writes at a position. The local disk takes every write.

namespace FileFStream

open Bytes Posix

def defaultMaxFileBatchSize : Nat := 2147483648 - 102400

-- `MaxSizeT` is no start position.
def maxSizeT : Nat := 2 ^ 64 - 1

-- A stream on which a call failed refuses everything that follows.
structure FStream where
  name   : String
  file   : File
  failed : Bool
  deriving DecidableEq, Repr

def FStream.movedTo (s : FStream) (position : Nat) : FStream :=
  { s with file := { s.file with position := position } }

@[simp]
theorem FStream.movedTo_failed (s : FStream) (position : Nat) :
    (s.movedTo position).failed = s.failed := rfl

@[simp]
theorem FStream.movedTo_content (s : FStream) (position : Nat) :
    (s.movedTo position).file.content = s.file.content := rfl

@[simp]
theorem FStream.movedTo_position (s : FStream) (position : Nat) :
    (s.movedTo position).file.position = position := rfl

@[simp]
theorem FStream.movedTo_movedTo (s : FStream) (position position' : Nat) :
    (s.movedTo position).movedTo position' = s.movedTo position' := rfl

def failure (activity message : String) : Fault :=
  .thrown "Toolkit" "transport::file::FileFStream" activity message

-- `CheckName`
def checkName (name : String) : Outcome Unit :=
  if name = "" then
    .error (.thrown "Toolkit" "transport::Transport" "CheckName"
      "name can't be empty for fstream transport ")
  else
    pure ()

-- What is there under the name. A file that is not there is a `std::ios_base::failure`: the callers
-- catch it, and only it.
def openRead (name : String) (content : Option (List Byte)) : Outcome (Option FStream) := do
  checkName name
  pure (content.map fun content => ⟨name, ⟨content, 0⟩, false⟩)

-- The file is emptied.
def openWrite (name : String) : Outcome FStream := do
  checkName name
  pure ⟨name, ⟨[], 0⟩, false⟩

-- The position of the end is compared as an `int`. Like a missing file, a size that is not there is
-- a `std::ios_base::failure`.
def getSize (s : FStream) : Option Nat :=
  if s.file.content.length % 2 ^ 32 = 2 ^ 32 - 1 then none else some s.file.content.length

-- A position of a stream is a signed number of 64 bits.
def seek (s : FStream) (start : Nat) : FStream :=
  if start = maxSizeT then s
  else if s.failed then s
  else if start < 2 ^ 63 then s.movedTo start
  else { s with failed := true }

-- The bytes of one call of `read`, where that many are left.
def lfRead (s : FStream) (size : Nat) : Outcome (List Byte) × FStream :=
  if s.failed ∨ (size ≠ 0 ∧ s.file.content.length < s.file.position + size) then
    (.error (failure "CheckFile"
      ("couldn't read from file " ++ s.name ++ ", in call to fstream read")),
     { s with failed := true })
  else
    (.ok ((s.file.content.drop s.file.position).take size),
     s.movedTo (s.file.position + size))

def lfReads (s : FStream) : List Nat → Outcome (List Byte) × FStream
  | []            => (.ok [], s)
  | size :: sizes =>
    match lfRead s size with
    | (.error e, s) => (.error e, s)
    | (.ok bs, s)   =>
      match lfReads s sizes with
      | (.error e, s)   => (.error e, s)
      | (.ok rest, s)   => (.ok (bs ++ rest), s)

-- How many bytes each call of the stream moves.
def batches (size : Nat) : List Nat :=
  if defaultMaxFileBatchSize < size then
    List.replicate (size / defaultMaxFileBatchSize) defaultMaxFileBatchSize ++
      [size % defaultMaxFileBatchSize]
  else
    [size]

def couldntMove (name call : String) (start : Nat) : Fault :=
  failure "CheckFile" ("couldn't move to start position " ++ toString start ++ " in file " ++ name ++
    ", in call to fstream " ++ call)

def read (s : FStream) (size start : Nat) : Outcome (List Byte) × FStream :=
  let s := seek s start
  if s.failed ∧ start ≠ maxSizeT then
    (.error (couldntMove s.name "seekg" start), s)
  else
    lfReads s (batches size)

def lfWrite (s : FStream) (bs : List Byte) : Outcome FStream :=
  if s.failed then
    .error (failure "CheckFile"
      ("couldn't write from file " ++ s.name ++ ", in call to fstream write"))
  else
    .ok { s with file := s.file.write bs }

def lfWrites (s : FStream) : List Nat → List Byte → Outcome FStream
  | [], _             => .ok s
  | size :: sizes, bs => do lfWrites (← lfWrite s (bs.take size)) sizes (bs.drop size)

def write (s : FStream) (bs : List Byte) (start : Nat) : Outcome FStream :=
  let s := seek s start
  if s.failed ∧ start ≠ maxSizeT then
    .error (couldntMove s.name "seekp" start)
  else
    lfWrites s (batches bs.length) bs

end FileFStream
