import Adios2.Lib.Bytes

-- A `Get` over XRootD SSI: the request that is handed to the library and whose callbacks the library
-- calls, and the promise that `WaitForGet` waits for.

namespace XrootdRemote

open Bytes

-- What the library still has to call
inductive Awaited
  | processResponse
  | processResponseData
  | nothing
  deriving DecidableEq, Repr

-- `myRequest`. The values that the promise has been set to are in order.
structure MyRequest where
  dest         : List Byte
  expectedSize : Nat
  totbytes     : Nat := 0
  retry        : Bool := true
  promise      : List Bool := []
  awaited      : Awaited := .processResponse
  deriving DecidableEq, Repr

-- A call of the library. An error is told by an `XrdSsiErrInfo`.
inductive Callback
  | processResponse (isOK : Bool)
  | processResponseData (isOK : Bool) (buff : List Byte) (dlen : Int) (last : Bool)
  deriving DecidableEq, Repr

-- `clUI.doOnce`, which nothing changes
def doOnce : Bool := false

namespace MyRequest

-- `new myRequest` and `ProcessRequest` in `Get`
def get (dest : List Byte) (destSize : Nat) : MyRequest where
  dest         := dest
  expectedSize := destSize

def processRequest (s : MyRequest) : MyRequest := { s with awaited := .processResponse }

def getResponseData (s : MyRequest) : MyRequest := { s with awaited := .processResponseData }

-- `Finished`, mostly before `delete this`
def finished (s : MyRequest) : MyRequest := { s with awaited := .nothing }

def setValue (s : MyRequest) (value : Bool) : MyRequest := { s with promise := s.promise ++ [value] }

-- `memcpy(dest, buff, dlen)`
def copy (s : MyRequest) (buff : List Byte) (dlen : Nat) : MyRequest :=
  { s with dest := buff.take dlen ++ s.dest.drop dlen }

def processResponse (s : MyRequest) (isOK : Bool) : MyRequest :=
  if isOK then
    s.getResponseData
  else
    let s := s.finished
    if s.retry then
      { s with retry := false }.processRequest
    else
      s

def processResponseData (s : MyRequest) (isOK : Bool) (buff : List Byte) (dlen : Int) (last : Bool) :
    MyRequest :=
  if dlen < 0 ∨ ¬isOK then
    s.finished.setValue false
  else if ¬last ∧ ¬doOnce then
    s.getResponseData
  else if s.expectedSize ≠ 0 ∧ s.expectedSize < s.totbytes + dlen.toNat then
    (s.setValue false).finished
  else
    let s := { s with totbytes := s.totbytes + dlen.toNat }
    let s := s.copy buff dlen.toNat
    (s.setValue true).finished

-- The library calls what is awaited, and no chunk is longer than its buffer.
def step (s : MyRequest) : Callback → Option MyRequest
  | .processResponse isOK                     =>
    if s.awaited = .processResponse then some (s.processResponse isOK) else none
  | .processResponseData isOK buff dlen last  =>
    if s.awaited = .processResponseData ∧ dlen ≤ buff.length then
      some (s.processResponseData isOK buff dlen last)
    else
      none

def run (s : MyRequest) : List Callback → Option MyRequest
  | []      => some s
  | c :: cs => match s.step c with
    | some s' => run s' cs
    | none    => none

-- `WaitForGet` returns or throws an error with a text, but not before the promise is set.
def waitForGet (filename : String) (s : MyRequest) : Option (Except String Bool) :=
  match s.promise with
  | []         => none
  | true :: _  => some (.ok true)
  | false :: _ => some (.error ("XRootD - Get failed for file " ++ filename))

end MyRequest

end XrootdRemote
