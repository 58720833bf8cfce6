import Adios2.Lib.ObjectStore
import Adios2.Helper.Parameters
import Adios2.Toolkit.Transport.FileAWSSDK.Cache

-- A file of a cloud store as numbered objects: the sessions that write it, and the transport that
-- reads the objects one behind the other. Also the parts in which one object is written. Numbers of
-- objects and sums of sizes are natural numbers here.

namespace FileAWSSDK

open Bytes CString ObjectStore Helper FileFStream

def dot : Byte := 46

-- What the keys of the objects of a file start with.
def dotted (base : Key) : Key := base ++ [dot]

def subKey (base : Key) (n : Nat) : Key := dotted base ++ decimal n

-- What a listing says of an object that has a number.
structure SegInfo where
  key    : Key
  segNum : Nat
  size   : Nat
  deriving DecidableEq, Repr

def segInfo (front : Key) (object : Key × List Byte) : Option SegInfo :=
  let suffix := object.1.drop front.length
  if suffix ≠ [] ∧ suffix.all isDigit then
    some ⟨object.1, digitsValue suffix, object.2.length⟩
  else
    none

-- The numbered objects of a file, in the order of their numbers.
def segments (s : Store) (base : Key) : List SegInfo :=
  ((s.listing (dotted base)).filterMap (segInfo (dotted base))).insertionSort
    (fun a b => a.segNum ≤ b.segNum)

-- The fields of a transport that is open to write numbered objects.
structure Writer where
  baseObjectName        : Key
  nextObjectNumber      : Nat
  directUploadThreshold : Nat
  writeBuffer           : List Byte
  totalBytesWritten     : Nat
  deriving DecidableEq, Repr

def deleteStaleSubObjects (s : Store) (base : Key) : Store :=
  s.deleteAll ((s.listing (dotted base)).map Prod.fst)

-- `std::stoi`, where it does not throw.
def stoi (token : List Byte) : Option Int :=
  ((scanInt token).map Prod.fst).filter fun n => -2 ^ 31 ≤ n ∧ n < 2 ^ 31

-- The objects of subfiles that are no more. The number of a subfile ends at the first dot.
def deleteOrphanedSubObjects (s : Store) (objectName : Key) (numSubFiles : Int) : Store :=
  match strrchr objectName 47 with
  | none       => s
  | some slash =>
    let dirPrefix := objectName.take (slash + 1) ++ ascii "data."
    let orphans := (s.listing dirPrefix).filter fun object =>
      match stoi ((object.1.drop dirPrefix.length).takeWhile (· ≠ dot)) with
      | some subfileNum => numSubFiles ≤ subfileNum
      | none            => false
    s.deleteAll (orphans.map Prod.fst)

-- Whether the number behind the last dot is that of the first subfile.
def isFirstSubFile (objectName : Key) : Bool :=
  match strrchr objectName dot with
  | some lastDot => objectName.drop (lastDot + 1) == ascii "0"
  | none         => false

def openWrite (s : Store) (objectName : Key) (threshold : Nat) (numSubFiles : Int) :
    Writer × Store :=
  let s := deleteStaleSubObjects s objectName
  let s := s.delete objectName
  let s := if 0 < numSubFiles ∧ isFirstSubFile objectName then
      deleteOrphanedSubObjects s objectName numSubFiles
    else
      s
  (⟨objectName, 0, threshold, [], 0⟩, s)

-- One of the existing objects.
def continueBehind (w : Writer) (object : Key × List Byte) : Outcome Writer := do
  let next ← match strrchr object.1 dot with
    | some lastDot => do
      let segNum ← stoul (object.1.drop (lastDot + 1))
      pure (if w.nextObjectNumber < segNum + 1 then segNum + 1 else w.nextObjectNumber)
    | none => pure w.nextObjectNumber
  pure { w with
    nextObjectNumber  := next
    totalBytesWritten := w.totalBytesWritten + object.2.length }

def openAppend (s : Store) (objectName : Key) (threshold : Nat) : Outcome Writer :=
  (s.listing (dotted objectName)).foldlM continueBehind ⟨objectName, 0, threshold, [], 0⟩

-- A new object with the next number.
def uploadNext (w : Writer) (s : Store) (bytes : List Byte) : Writer × Store :=
  ({ w with nextObjectNumber := w.nextObjectNumber + 1 },
   s.put (subKey w.baseObjectName w.nextObjectNumber) bytes)

def flushWriteBuffer (w : Writer) (s : Store) : Writer × Store :=
  if w.writeBuffer = [] then
    (w, s)
  else
    let (w', s) := uploadNext w s w.writeBuffer
    ({ w' with writeBuffer := [] }, s)

def thrownByWrite (message : String) : Fault :=
  .thrown "Toolkit" "transport::file::FileAWSSDK" "Write" message

-- Data below the threshold waits in the buffer.
def write (w : Writer) (s : Store) (buffer : List Byte) (start : Option Nat) :
    Outcome (Writer × Store) :=
  if start ≠ none ∧ start ≠ some w.totalBytesWritten then
    .error (thrownByWrite ("S3 only supports sequential writes. Requested start: " ++
      toString (start.getD 0) ++ ", current position: " ++ toString w.totalBytesWritten ++
      ". Hint: Set StripeSize=0 when using S3 storage."))
  else
    let size := buffer.length
    let (w, s) := if w.directUploadThreshold ≤ size then
        let (w, s) := flushWriteBuffer w s
        uploadNext w s buffer
      else
        ({ w with writeBuffer := w.writeBuffer ++ buffer }, s)
    .ok ({ w with totalBytesWritten := w.totalBytesWritten + size }, s)

-- The segments in front of `length`, and behind them those that start at it or later.
def keepUpTo (length : Nat) : Nat → List SegInfo → List SegInfo × List SegInfo
  | _, []               => ([], [])
  | cumSize, seg :: segs =>
    let (kept, toDelete) := keepUpTo length (cumSize + seg.size) segs
    if length ≤ cumSize then (kept, seg :: toDelete) else (seg :: kept, toDelete)

def truncate (w : Writer) (s : Store) (length : Nat) : Writer × Store :=
  if length = 0 then
    ({ w with nextObjectNumber := 0, totalBytesWritten := 0 },
     deleteStaleSubObjects s w.baseObjectName)
  else
    let (kept, toDelete) := keepUpTo length 0 (segments s w.baseObjectName)
    ({ w with nextObjectNumber := kept.length, totalBytesWritten := length },
     s.deleteAll (toDelete.map SegInfo.key))

-- What waits in the buffer becomes an object.
def finalizeSegment (w : Writer) (s : Store) : Writer × Store := flushWriteBuffer w s

def close (w : Writer) (s : Store) : Store := (flushWriteBuffer w s).2

inductive Mode
  | write
  | append
  deriving DecidableEq, Repr

-- What happens to a file, session by session. A session can start with a cut, and a crash ends it
-- without `Close`.
inductive Event
  | open (mode : Mode) (threshold : Nat) (numSubFiles : Int) (truncateTo : Option Nat)
  | write (buffer : List Byte) (start : Option Nat)
  | finalizeSegment
  | close
  | crash
  deriving DecidableEq, Repr

structure System where
  store  : Store
  writer : Option Writer

def openFor (s : Store) (objectName : Key) (threshold : Nat) (numSubFiles : Int) :
    Mode → Outcome (Writer × Store)
  | .write  => .ok (openWrite s objectName threshold numSubFiles)
  | .append => do pure (← openAppend s objectName threshold, s)

def cutTo (w : Writer) (s : Store) : Option Nat → Writer × Store
  | none        => (w, s)
  | some length => truncate w s length

def step (objectName : Key) (sys : System) : Event → Outcome System
  | .open mode threshold numSubFiles truncateTo => do
    let (w, s) ← openFor sys.store objectName threshold numSubFiles mode
    let (w, s) := cutTo w s truncateTo
    pure ⟨s, some w⟩
  | .write buffer start => do
    let w ← sys.writer.orUndefined
    let (w, s) ← write w sys.store buffer start
    pure ⟨s, some w⟩
  | .finalizeSegment => do
    let w ← sys.writer.orUndefined
    let (w, s) := finalizeSegment w sys.store
    pure ⟨s, some w⟩
  | .close => do
    let w ← sys.writer.orUndefined
    pure ⟨close w sys.store, none⟩
  | .crash => pure ⟨sys.store, none⟩

def run (objectName : Key) (sys : System) (events : List Event) : Outcome System :=
  events.foldlM (step objectName) sys

-- What a transport that is open for reading knows of the objects.
structure SubObject where
  key              : Key
  size             : Nat
  cumulativeOffset : Nat
  deriving DecidableEq, Repr

def cumulated : Nat → List SegInfo → List SubObject
  | _, []                 => []
  | cumOffset, seg :: segs => ⟨seg.key, seg.size, cumOffset⟩ :: cumulated (cumOffset + seg.size) segs

-- One object under the name of the file, or numbered ones.
inductive Layout
  | singleObject
  | multiObject (subObjects : List SubObject)
  deriving DecidableEq, Repr

structure Reader where
  objectName : Key
  layout     : Layout
  size       : Nat
  deriving DecidableEq, Repr

def openRead (s : Store) (objectName : Key) : Outcome Reader :=
  match s.get objectName with
  | some bytes => .ok ⟨objectName, .singleObject, bytes.length⟩
  | none       =>
    let segs := segments s objectName
    if segs = [] then
      .error (.thrown "Toolkit" "transport::file::FileAWSSDK" "Open"
        ("'bucket/object'  " ++ text objectName ++ " does not exist "))
    else
      .ok ⟨objectName, .multiObject (cumulated 0 segs), (segs.map SegInfo.size).sum⟩

-- The binary search for the object that has the position: one below the first that starts behind it.
def findSubObject (subObjects : List SubObject) (readPos : Nat) : Nat → Nat → Nat → Outcome Nat
  | 0, _, _ => .error .outOfFuel
  | fuel + 1, lo, hi =>
    if lo + 1 < hi then do
      let mid := (lo + hi) / 2
      let sub ← (subObjects[mid]?).orUndefined
      if sub.cumulativeOffset ≤ readPos then
        findSubObject subObjects readPos fuel mid hi
      else
        findSubObject subObjects readPos fuel lo mid
    else
      .ok lo

-- `offsetInObject` and `availableInObject` of unsigned numbers.
def unsignedSub (a b : Nat) : Nat := if b ≤ a then a - b else a + 2 ^ 64 - b

-- The answer to the request for a range of an object.
def getRange (s : Store) (key : Key) (offset size : Nat) : Except String (List Byte) :=
  match s.get key with
  | some object => getObject object offset (lastByte offset size)
  | none        => .error "NoSuchKey: The specified key does not exist."

-- `size` bytes of an object, or the range of the request and why it failed.
def fetch (s : Store) (key : Key) (offset size : Nat) : Except String (List Byte) :=
  ((getRange s key offset size).map (·.take size)).mapError fun message =>
    "range bytes=" ++ toString offset ++ "-" ++ toString (lastByte offset size) ++ ": " ++ message

def fetchSubObject (s : Store) (key : Key) (offset size : Nat) : Outcome (List Byte) :=
  (fetch s key offset size).mapError fun message =>
    thrownByRead ("multi-object read failed for '" ++ text key ++ "' " ++ message)

def fetchSingleObject (s : Store) (name : Key) (offset size : Nat) : Outcome (List Byte) :=
  (fetch s name offset size).mapError fun message =>
    thrownByRead ("'bucket/object'  " ++ text name ++ ", " ++ message)

-- The loop over the objects that have a part of the range.
def readSubObjects (s : Store) (subObjects : List SubObject) : Nat → Nat → Nat →
    Outcome (List Byte)
  | 0, _, _ => .error .outOfFuel
  | fuel + 1, readPos, bytesRemaining =>
    if bytesRemaining = 0 then
      .ok []
    else do
      let lo ← findSubObject subObjects readPos (subObjects.length + 1) 0 subObjects.length
      let sub ← (subObjects[lo]?).orUndefined
      let offsetInObject := unsignedSub readPos sub.cumulativeOffset
      let toRead := min bytesRemaining (unsignedSub sub.size offsetInObject)
      let bytes ← fetchSubObject s sub.key offsetInObject toRead
      let rest ← readSubObjects s subObjects fuel (readPos + toRead) (bytesRemaining - toRead)
      pure (bytes ++ rest)

-- A read from a start on, of a file that nothing caches.
def readRange (s : Store) (r : Reader) (size start : Nat) : Outcome (List Byte) :=
  if r.size ≤ start then
    .error (thrownByRead ("couldn't move to start position " ++ toString start ++
      " beyond the size of " ++ text r.objectName ++ " which is " ++ toString r.size))
  else if r.size < start + size then
    .error (thrownByRead ("can't read " ++ toString size ++ " bytes from position " ++
      toString start ++ " from " ++ text r.objectName ++ " whose size is " ++
      toString r.size))
  else
    match r.layout with
    | .singleObject           => fetchSingleObject s r.objectName start size
    | .multiObject subObjects => readSubObjects s subObjects (size + 1) start size

-- One object that is uploaded in parts, which a buffer fills.
structure Multipart where
  minPartSize : Nat
  maxPartSize : Nat
  writeBuffer : List Byte
  parts       : List (List Byte)
  deriving DecidableEq, Repr

def uploadPart (m : Multipart) (bytes : List Byte) : Multipart :=
  { m with parts := m.parts ++ [bytes] }

def uploadBufferedPart (m : Multipart) : Multipart :=
  if m.writeBuffer = [] then m else { uploadPart m m.writeBuffer with writeBuffer := [] }

-- Large data directly, in parts that are not too large, and what is left to the buffer.
def uploadDirectly : Nat → Multipart → List Byte → Outcome Multipart
  | 0, _, _ => .error .outOfFuel
  | fuel + 1, m, remaining =>
    if m.minPartSize ≤ remaining.length then
      let partSize := min remaining.length m.maxPartSize
      uploadDirectly fuel (uploadPart m (remaining.take partSize)) (remaining.drop partSize)
    else
      .ok { m with writeBuffer := m.writeBuffer ++ remaining }

def writeParts (m : Multipart) (buffer : List Byte) : Outcome Multipart :=
  if m.writeBuffer = [] then
    uploadDirectly (buffer.length + 1) m buffer
  else
    let toBuffer := min buffer.length (m.minPartSize - m.writeBuffer.length)
    let m := { m with writeBuffer := m.writeBuffer ++ buffer.take toBuffer }
    let m := if m.minPartSize ≤ m.writeBuffer.length then uploadBufferedPart m else m
    uploadDirectly (buffer.length + 1) m (buffer.drop toBuffer)

-- The parts of the object that `Close` completes. Without parts the upload is aborted.
def closeParts (m : Multipart) : List (List Byte) :=
  (uploadBufferedPart m).parts

end FileAWSSDK
