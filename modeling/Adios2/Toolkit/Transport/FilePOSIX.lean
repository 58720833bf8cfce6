import Adios2.Lib.PosixFile
import Adios2.Helper.Log

-- How a POSIX file transport writes one buffer, and a vector of buffers. The wait for an asynchronous
-- open and the profiler are left out.

namespace FilePOSIX

open Bytes Posix

def defaultMaxFileBatchSize : Nat := 2147483648 - 102400

-- `INT32_MAX`
def writevMaxBytes : Nat := 2147483647

def couldntWrite (activity name message : String) : Fault :=
  .thrown "Toolkit" "transport::file::FilePOSIX" activity
    ("couldn't write to file " ++ name ++ " " ++ message)

def seek (activity name : String) (s : System) (start : Nat) : Outcome System :=
  match s.lseek start with
  | .ok s          => .ok s
  | .error message => .error (.thrown "Toolkit" "transport::file::FilePOSIX" activity
    ("couldn't move to start position " ++ toString start ++ " in file " ++ name ++ " " ++ message))

-- `Seek`, in a file that starts at its first byte. Here `MaxSizeT` is the end of the file.
def seekFile (name : String) (s : System) (start : Nat) : Outcome System :=
  if start ≠ 2 ^ 64 - 1 then
    match s.lseek start with
    | .ok s          => .ok s
    | .error message => .error (.thrown "Toolkit" "transport::file::FilePOSIX" "Seek"
      ("couldn't seek to offset " ++ toString start ++ " of file " ++ name ++ " " ++ message))
  else
    match s.lseek s.file.content.length with
    | .ok s          => .ok s
    | .error message => .error (.thrown "Toolkit" "transport::file::FilePOSIX" "SeekToEnd"
      ("couldn't seek to the end of file " ++ name ++ " " ++ message))

-- The loop over the calls of `write`. Every reply that is not used up by the loop is one turn less.
def lfWrite (name : String) : Nat → System → List Byte → Outcome System
  | 0, _, _ => .error .outOfFuel
  | fuel + 1, s, buffer =>
    if buffer = [] then
      .ok s
    else
      match s.write buffer with
      | (.ok written, s)          => lfWrite name fuel s (buffer.drop written)
      | (.error .interrupted, s)  => lfWrite name fuel s buffer
      | (.error (.other msg), _)  => .error (couldntWrite "Write" name msg)

def writeBuffer (name : String) (s : System) (buffer : List Byte) : Outcome System :=
  lfWrite name (s.writes.length + 2) s buffer

-- `MaxSizeT` is no start position.
def write (name : String) (s : System) (buffer : List Byte) (start : Option Nat) :
    Outcome System :=
  if buffer = [] ∧ start = none then
    .ok s
  else do
    let s ← match start with
      | some start => seek "Write" name s start
      | none       => .ok s
    let max := defaultMaxFileBatchSize
    if max < buffer.length then
      let batches := buffer.length / max
      let s ← (List.range batches).foldlM
        (fun s b => writeBuffer name s ((buffer.drop (max * b)).take max)) s
      writeBuffer name s (buffer.drop (max * batches))
    else
      writeBuffer name s buffer

-- Where the writing has ended: the buffer, and the offset in it.
def writingEnded (written : Nat) : Nat → Nat → List (List Byte) → Outcome (Nat × Nat)
  | c, n, []            => if n < written then .error .undefined else .ok (c, 0)
  | c, n, buffer :: iov =>
    if n < written then
      if n + buffer.length ≤ written then
        writingEnded written (c + 1) (n + buffer.length) iov
      else
        .ok (c, written - n)
    else
      .ok (c, 0)

-- One call of `writev`, and what follows where it has not accepted everything.
def lfWriteV (name : String) (s : System) (iov : List (List Byte)) : Outcome System := do
  let nBytesExpected := (iov.map (·.length)).sum
  let (ret, s) := s.writev iov
  let written ← match ret with
    | .ok written           => .ok written
    | .error .interrupted   => .ok 0
    | .error (.other msg)   => .error (couldntWrite "WriteV" name msg)
  if written < nBytesExpected then
    let (c, pos) ← writingEnded written 0 0 iov
    let buffer ← (iov[c]?).orUndefined
    -- write the rest one by one
    let s ← write name s (buffer.drop pos) none
    (iov.drop c).foldlM (fun s buffer => write name s buffer none) s
  else
    pure s

def writeVBatch (name : String) (s : System) (iov : List (List Byte)) : Outcome System :=
  if writevMaxBytes < (iov.map (·.length)).sum then
    iov.foldlM (fun s buffer => write name s buffer none) s
  else
    lfWriteV name s iov

-- Eight buffers at a time.
def batches (iov : List (List Byte)) : List (List (List Byte)) :=
  (List.range ((iov.length + 7) / 8)).map fun k => (iov.drop (8 * k)).take 8

def writeV (name : String) (s : System) (iov : List (List Byte)) (start : Option Nat) :
    Outcome System := do
  let s ← match start with
    | some start => seek "WriteV" name s start
    | none       => .ok s
  (batches iov).foldlM (writeVBatch name) s

end FilePOSIX
