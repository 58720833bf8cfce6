import Adios2.Toolkit.Transport.FileFStream

-- Reading an object of a cloud store through a local file that keeps what has been read. The bucket
-- has the object under its own key.

namespace FileAWSSDK

open Bytes FileFStream

-- What the parameters of the transport and the name in `Open` leave behind.
structure Settings where
  -- bucket and object
  name          : String
  objectName    : String
  cachePath     : String
  fileNameInTar : String
  deriving DecidableEq, Repr

-- The size of an object is a signed number of 64 bits.
structure CloudObject where
  content : List Byte
  small   : content.length < 2 ^ 63

-- The answer to a request for the bytes from `first` up to `last`. A range that ends in front of
-- its start is no range, and the answer is the object.
def getObject (object : List Byte) (first last : Nat) : Except String (List Byte) :=
  if last < first then
    .ok object
  else if object.length ≤ first then
    .error "InvalidRange: The requested range is not satisfiable"
  else
    .ok ((object.drop first).take (last + 1 - first))

def endsWith (str ending : String) : Bool :=
  ending.toList.isSuffixOf str.toList

-- `m_CachingThisFile` and `m_CacheFilePath`
def cacheFile (s : Settings) : Bool × String :=
  if s.cachePath = "" then
    (false, "")
  else
    let caching := endsWith s.objectName "md.idx" || endsWith s.objectName "md.0" ||
      endsWith s.objectName "mmd.0"
    let path := if s.fileNameInTar = "" then s.objectName else s.fileNameInTar
    if endsWith path "md.idx" then (true, s.cachePath ++ "/md.idx")
    else if endsWith path "mmd.0" then (true, s.cachePath ++ "/mmd.0")
    else if endsWith path "md.0" then (true, s.cachePath ++ "/md.0")
    else (caching, "")

-- A transport that is open for reading. `m_IsCached` says that the first of the streams is there,
-- and `m_CachingThisFile`, once the cache has been checked, that the second one is.
structure Transport where
  settings       : Settings
  size           : Nat
  seekPos        : Nat
  cacheFileRead  : Option FStream
  cacheFileWrite : Option FStream
  deriving DecidableEq, Repr

-- The stream on the cache file and its size, where neither opening it nor its size fails.
def openCacheFile (path : String) (disk : Option (List Byte)) : Outcome (Option (FStream × Nat)) := do
  let stream ← openRead path disk
  pure do
    let stream ← stream
    let size ← getSize stream
    some (stream, size)

-- Without `recheck_metadata`, a cache file is the object.
def setUpCache (s : Settings) (recheckMetadata : Bool) (disk : Option (List Byte)) :
    Outcome (Option (FStream × Nat)) :=
  if (cacheFile s).1 ∧ ¬recheckMetadata then openCacheFile (cacheFile s).2 disk else pure none

-- The streams to read from and to write to. A cache file of another size is overwritten.
def checkCache (s : Settings) (fileSize : Nat) (disk : Option (List Byte)) :
    Outcome (Option FStream × Option FStream) :=
  if (cacheFile s).1 then do
    match ← openCacheFile (cacheFile s).2 disk with
    | some (stream, cacheSize) =>
      if cacheSize = fileSize then
        pure (some stream, none)
      else
        pure (none, some (← openWrite (cacheFile s).2))
    | none => pure (none, some (← openWrite (cacheFile s).2))
  else
    pure (none, none)

-- `disk` is what there is at the path of the cache file.
def openForReading (s : Settings) (recheckMetadata : Bool) (object : CloudObject)
    (disk : Option (List Byte)) : Outcome Transport := do
  match ← setUpCache s recheckMetadata disk with
  | some (stream, size) => pure ⟨s, size, 0, some stream, none⟩
  | none                =>
    -- the answer to `HeadObject`
    let size := object.content.length
    let (cacheFileRead, cacheFileWrite) ← checkCache s size disk
    pure ⟨s, size, 0, cacheFileRead, cacheFileWrite⟩

def thrownByRead (message : String) : Fault :=
  .thrown "Toolkit" "transport::file::FileAWSSDK" "Read" message

-- The last of the bytes that a request is for, as an unsigned number.
def lastByte (seekPos size : Nat) : Nat :=
  (seekPos + size + (2 ^ 64 - 1)) % 2 ^ 64

-- What has been read goes to the cache file as well.
def saveToCache (t : Transport) (bytes : List Byte) : Outcome (List Byte) × Transport :=
  match t.cacheFileWrite with
  | none        => (.ok bytes, t)
  | some stream =>
    match FileFStream.write stream bytes t.seekPos with
    | .error e   => (.error e, t)
    | .ok stream => (.ok bytes, { t with cacheFileWrite := some stream })

-- The answer to the request for the bytes up to `last`.
def received (t : Transport) (size last : Nat) : Except String (List Byte) →
    Outcome (List Byte) × Transport
  | .ok body       => saveToCache t (body.take size)
  | .error message =>
    (.error (thrownByRead ("'bucket/object'  " ++ t.settings.name ++ ", range bytes=" ++
      toString t.seekPos ++ "-" ++ toString last ++ "GetObject: " ++ message)), t)

def readObject (t : Transport) (object : CloudObject) (size : Nat) :
    Outcome (List Byte) × Transport :=
  received t size (lastByte t.seekPos size)
    (getObject object.content t.seekPos (lastByte t.seekPos size))

def read (t : Transport) (object : CloudObject) (size start : Nat) :
    Outcome (List Byte) × Transport :=
  if start ≠ maxSizeT ∧ t.size ≤ start then
    (.error (thrownByRead ("couldn't move to start position " ++ toString start ++
      " beyond the size of " ++ t.settings.name ++ " which is " ++ toString t.size)), t)
  else
    let t := if start ≠ maxSizeT then { t with seekPos := start } else t
    if t.size < (t.seekPos + size) % 2 ^ 64 then
      (.error (thrownByRead ("can't read " ++ toString size ++ " bytes from position " ++
        toString t.seekPos ++ " from " ++ t.settings.name ++ " whose size is " ++
        toString t.size)), t)
    else
      match t.cacheFileRead with
      | some stream =>
        let (bytes, stream) := FileFStream.read stream size t.seekPos
        (bytes, { t with cacheFileRead := some stream })
      | none => readObject t object size

-- Several reads, each of a number of bytes from a position on.
def reads (object : CloudObject) : List (Nat × Nat) → Transport →
    List (Outcome (List Byte)) × Transport
  | [], t                    => ([], t)
  | (size, start) :: rest, t =>
    let (bytes, t) := read t object size start
    let (answers, t) := reads object rest t
    (bytes :: answers, t)

structure Session where
  recheckMetadata : Bool
  reads           : List (Nat × Nat)
  deriving DecidableEq, Repr

-- What a session is told, the size and the bytes of each read, and the cache file that it leaves
-- behind. Each write to the cache file is flushed, so that it does not matter how the session ends.
def session (s : Settings) (object : CloudObject) (session : Session) (disk : Option (List Byte)) :
    Outcome (Nat × List (Outcome (List Byte))) × Option (List Byte) :=
  match openForReading s session.recheckMetadata object disk with
  | .error e => (.error e, disk)
  | .ok t    =>
    let (answers, t') := reads object session.reads t
    (.ok (t.size, answers),
     match t'.cacheFileWrite with
     | some stream => some stream.file.content
     | none        => disk)

def sessions (s : Settings) (object : CloudObject) : List Session → Option (List Byte) →
    List (Outcome (Nat × List (Outcome (List Byte))))
  | [], _            => []
  | next :: rest, disk =>
    (session s object next disk).1 :: sessions s object rest (session s object next disk).2

end FileAWSSDK
