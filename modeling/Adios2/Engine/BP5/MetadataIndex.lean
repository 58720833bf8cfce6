import Adios2.Helper.Log

-- The metadata index file `md.idx`: what `BP5Writer::WriteMetadataFileIndex` writes for a step and
-- what `BP5Reader` makes of the part of the file that it can see.

namespace BP5

open Bytes

def indexHeaderSize := 64
def versionTagPosition := 0
def versionTagLength := 32
def endianFlagPosition := 36
def bpVersionPosition := 37
def bpMinorVersionPosition := 38
def activeFlagPosition := 39
def columnMajorFlagPosition := 40
def flattenStepsPosition := 41
def fileUUIDPosition := 42
def bp5MinorVersion := 2

-- The values of `enum IndexRecord`, 's' and 'w'.
def stepRecord : Byte := 115
def writerMapRecord : Byte := 119

-- What the header of an index file is made from. The version strings are set by the build, the
-- file id is random but never 0.
structure HeaderInfo where
  majorVersion    : List Byte
  minorVersion    : Byte
  patchVersion    : List Byte
  columnMajor     : Bool
  flattenSteps    : Bool
  fileUUID        : Nat
  majorVersion_ne : majorVersion ≠ []
  patchVersion_ne : patchVersion ≠ []
  fileUUID_pos    : 0 < fileUUID
  fileUUID_lt     : fileUUID < 2 ^ 32

namespace HeaderInfo

-- "ADIOS-BP v"
def tagPrefix : List Byte := [65, 68, 73, 79, 83, 45, 66, 80, 32, 118]

-- "Index Table"
def indexTable : List Byte := [73, 110, 100, 101, 120, 32, 84, 97, 98, 108, 101]

def versionLongTag (h : HeaderInfo) (fileType : List Byte) : List Byte :=
  let tag := tagPrefix ++ h.majorVersion ++ [46, h.minorVersion, 46] ++ h.patchVersion ++ [32]
  tag ++ fileType.take (versionTagLength - tag.length)

def endianness : Endian → Byte
  | .little => 0
  | .big    => 1

end HeaderInfo

-- `MakeHeader`, on a buffer that has room for a header.
def makeHeader (e : Endian) (h : HeaderInfo) (fileType : List Byte) (isActive : Bool)
    (c : Cursor) : Option Cursor := do
  let tag := (h.versionLongTag fileType).take versionTagLength
  let c ← c.put tag
  let c := c.skip (versionTagLength - tag.length)
  let c ← c.put (h.majorVersion.take 1)
  let c ← c.put [h.minorVersion]
  let c ← c.put (h.patchVersion.take 1)
  let c := c.seek endianFlagPosition
  let c ← c.put [HeaderInfo.endianness e]
  let c ← c.put [5]
  let c ← c.put [.ofNat bp5MinorVersion]
  let c ← c.put [if isActive then 1 else 0]
  let c ← c.put [if h.columnMajor then 121 else 110]
  let c ← c.put [if h.flattenSteps then 1 else 0]
  let c ← c.put (encode e 4 h.fileUUID)
  return c.seek indexHeaderSize

-- The arguments of a call of `WriteMetadataFileIndex` and the members of the writer that it reads.
-- The map is empty in a step that does not need a new one.
structure IndexStep where
  commSize         : Nat
  numAggregators   : Nat
  subStreams       : Nat
  writerSubfileMap : List Nat
  flushPosSizeInfo : List (List Nat)
  writerDataPos    : List Nat
  metaDataPos      : Nat
  metaDataSize     : Nat

namespace IndexStep

variable (e : Endian) (s : IndexStep)

def flushCount : Nat :=
  s.flushPosSizeInfo.length

def stepRecordSize : Nat :=
  1 + (4 + (s.flushCount * 2 + 1) * s.commSize) * 8

def writerMapRecordSize : Nat :=
  if s.writerSubfileMap.isEmpty then 0 else 1 + (4 + s.commSize) * 8

def headerSize : Nat :=
  if s.metaDataPos = 0 then indexHeaderSize else 0

def putHeader (h : HeaderInfo) (c : Cursor) : Option Cursor :=
  if s.metaDataPos = 0 then makeHeader e h HeaderInfo.indexTable true c else some c

def putWriterMapRecord (c : Cursor) : Option Cursor :=
  if s.writerSubfileMap.isEmpty then
    some c
  else if s.commSize ≤ s.writerSubfileMap.length then do
    let c ← c.put [writerMapRecord]
    let c ← c.put (u64 e ((3 + s.commSize) * 8))
    let c ← c.put (u64 e s.commSize)
    let c ← c.put (u64 e s.numAggregators)
    let c ← c.put (u64 e s.subStreams)
    c.put (u64s e (s.writerSubfileMap.take s.commSize))
  else
    none

def putFlush (writer : Nat) (c : Cursor) (flush : List Nat) : Option Cursor := do
  let pos ← flush[2 * writer]?
  let size ← flush[2 * writer + 1]?
  c.put (u64s e [pos, size])

def putWriter (c : Cursor) (writer : Nat) : Option Cursor := do
  let c ← s.flushPosSizeInfo.foldlM (putFlush e writer) c
  let pos ← s.writerDataPos[writer]?
  c.put (u64 e pos)

def putStepRecord (c : Cursor) : Option Cursor := do
  let c ← c.put [stepRecord]
  let c ← c.put (u64 e ((3 + (s.flushCount * 2 + 1) * s.commSize) * 8))
  let c ← c.put (u64 e s.metaDataPos)
  let c ← c.put (u64 e s.metaDataSize)
  let c ← c.put (u64 e s.flushCount)
  (List.range s.commSize).foldlM (putWriter e s) c

-- What the writer knows about the sizes and the range of these members. The map has an entry for
-- every rank, if there is one at all, and the record fits into memory.
structure WellFormed : Prop where
  commSize_pos       : 0 < s.commSize
  commSize_lt        : s.commSize < 2 ^ 31
  numAggregators_lt  : s.numAggregators < 2 ^ 32
  subStreams_lt      : s.subStreams < 2 ^ 32
  subfileMap_length  : s.writerSubfileMap ≠ [] → s.writerSubfileMap.length = s.commSize
  subfileMap_lt      : ∀ i ∈ s.writerSubfileMap, i < 2 ^ 64
  flush_length       : ∀ f ∈ s.flushPosSizeInfo, f.length = 2 * s.commSize
  flush_lt           : ∀ f ∈ s.flushPosSizeInfo, ∀ i ∈ f, i < 2 ^ 64
  dataPos_length     : s.writerDataPos.length = s.commSize
  dataPos_lt         : ∀ i ∈ s.writerDataPos, i < 2 ^ 64
  metaDataPos_lt     : s.metaDataPos < 2 ^ 64
  metaDataSize_lt    : s.metaDataSize < 2 ^ 64
  recordSize_lt      : s.stepRecordSize < 2 ^ 64

end IndexStep

-- The bytes that are appended to the index file for a step.
def writeMetadataFileIndex (e : Endian) (h : HeaderInfo) (s : IndexStep) : Option (List Byte) := do
  let c := Cursor.zeros (s.stepRecordSize + s.headerSize + s.writerMapRecordSize)
  let c ← s.putHeader e h c
  let c ← s.putWriterMapRecord e c
  let c ← s.putStepRecord e c
  return c.buffer

-- The index file of a whole run of the writer.
def indexFile (e : Endian) (h : HeaderInfo) (steps : List IndexStep) : Option (List Byte) := do
  let parts ← steps.mapM (writeMetadataFileIndex e h)
  return parts.flatten

inductive OpenMode
  | read
  | readRandomAccess
  deriving DecidableEq

-- What the user of a reader decides.
structure ReaderParams where
  openMode           : OpenMode
  ignoreFlattenSteps : Bool
  isSelected         : Nat → Bool

-- Metadata is bounded in streaming mode. (16 MB, against `MaxSizeT`)
def ReaderParams.maxMetadataSizeInMemory (p : ReaderParams) : Nat :=
  match p.openMode with
  | .read             => 16777216
  | .readRandomAccess => 2 ^ 64 - 1

structure Minifooter where
  versionTag : List Byte := []
  endian     : Endian := .little
  version    : Nat := 255

structure WriterMapStruct where
  writerCount     : Nat
  aggregatorCount : Nat
  subfileCount    : Nat
  rankToSubfile   : List Nat
  deriving DecidableEq, Repr

-- The vector of five numbers that is kept of a step.
structure IndexTableEntry where
  posInMemory  : Nat
  metadataSize : Nat
  flushCount   : Nat
  dataPosPos   : Nat
  metadataPos  : Nat

structure IndexReader where
  minifooter                   : Minifooter := {}
  writerIsActive               : Bool := true
  writerIsRowMajor             : Bool := true
  flattenSteps                 : Bool := false
  fileUUID                     : Nat := 0
  stepsCount                   : Nat := 0
  absStepsInFile               : Nat := 0
  lastMapStep                  : Nat := 0
  lastWriterCount              : Nat := 0
  writerMap                    : Nat → Option WriterMapStruct := fun _ => none
  writerMapIndex               : List Nat := []
  metadataIndexTable           : List (Nat × IndexTableEntry) := []
  filteredMetadataInfo         : List (Nat × Nat) := []
  metadataIndex                : List Byte := []
  mdIndexFileAlreadyReadSize   : Nat := 0

namespace IndexReader

def parseHeader (p : ReaderParams) (r : IndexReader) (buffer : List Byte) :
    Outcome IndexReader := do
  let versionTag ← (readBytes buffer versionTagPosition versionTagLength).orUndefined
  let endianness ← (readUInt .little 1 buffer endianFlagPosition).orUndefined
  let e := if endianness = 0 then Endian.little else .big
  let version ← (readUInt e 1 buffer bpVersionPosition).orUndefined
  if version ≠ 5 then
    .error <| .thrown "Engine" "BP5Reader" "ParseMetadataIndex"
      ("ADIOS2 BP5 Engine only supports bp format version 5, found " ++ toString version
        ++ " version")
  else
    let minorversion ← (readUInt e 1 buffer bpMinorVersionPosition).orUndefined
    if minorversion ≠ bp5MinorVersion then
      .error <| .thrown "Engine" "BP5Reader" "ParseMetadataIndex"
        ("Current ADIOS2 BP5 Engine only supports version 5." ++ toString bp5MinorVersion
          ++ ", found 5." ++ toString minorversion ++ " version")
    else
      let activeChar ← (readUInt e 1 buffer activeFlagPosition).orUndefined
      let columnMajor ← (readUInt e 1 buffer columnMajorFlagPosition).orUndefined
      let flatten ← (readUInt e 1 buffer flattenStepsPosition).orUndefined
      let fileUUID ← (readUInt e 4 buffer fileUUIDPosition).orUndefined
      return { r with
        minifooter       := { versionTag, endian := e, version }
        writerIsActive   := activeChar = 1
        writerIsRowMajor := columnMajor = 110
        flattenSteps     := flatten ≠ 0 && !p.ignoreFlattenSteps
        fileUUID
      }

end IndexReader

-- Arithmetic of `uint64_t`.
def addU64 (a b : Nat) : Nat := (a + b) % 2 ^ 64

def subU64 (a b : Nat) : Nat := (a + (2 ^ 64 - b % 2 ^ 64)) % 2 ^ 64

-- The local variables of the loop of `ParseMetadataIndex`.
structure ParseState where
  reader               : IndexReader
  position             : Nat
  metadataPosTotalSkip : Nat := 0
  minfoPos             : Nat := 0
  minfoSize            : Nat := 0
  metadataSizeToRead   : Nat := 0
  n                    : Nat := 0
  nrec                 : Nat := 0

namespace ParseState

-- `if (minfo_size > 0) m_FilteredMetadataInfo.push_back(..)`
def pushFiltered (s : ParseState) : ParseState :=
  if 0 < s.minfoSize then
    { s with reader.filteredMetadataInfo :=
        s.reader.filteredMetadataInfo ++ [(s.minfoPos, s.minfoSize)] }
  else
    s

variable (buffer : List Byte)

def parseWriterMap (s : ParseState) : Outcome ParseState := do
  let e := s.reader.minifooter.endian
  let writerCount ← (readUInt e 8 buffer s.position).orUndefined
  let aggregatorCount ← (readUInt e 8 buffer (s.position + 8)).orUndefined
  let subfileCount ← (readUInt e 8 buffer (s.position + 16)).orUndefined
  -- The counts are cast to `uint32_t`.
  let writerCount := writerCount % 2 ^ 32
  let rankToSubfile ← (readUInts e 8 buffer (s.position + 24) writerCount).orUndefined
  let m : WriterMapStruct := {
    writerCount
    aggregatorCount := aggregatorCount % 2 ^ 32
    subfileCount    := subfileCount % 2 ^ 32
    rankToSubfile
  }
  return { s with
    position               := s.position + 24 + 8 * writerCount
    reader.writerMap       := Function.update s.reader.writerMap s.reader.stepsCount (some m)
    reader.lastMapStep     := s.reader.stepsCount
    reader.lastWriterCount := writerCount
  }

-- What is kept of a selected step, and what is skipped for one that is not.
def selectStep (s : ParseState) (metadataPos metadataSize flushCount : Nat) : ParseState :=
  { s with
    minfoSize                 := addU64 s.minfoSize metadataSize
    metadataSizeToRead        := s.metadataSizeToRead + metadataSize
    reader.writerMapIndex     := s.reader.writerMapIndex ++ [s.reader.lastMapStep]
    reader.metadataIndexTable := s.reader.metadataIndexTable ++ [(s.reader.stepsCount, {
      posInMemory := subU64 metadataPos s.metadataPosTotalSkip
      metadataSize
      flushCount
      dataPosPos  := s.position
      metadataPos
    })]
    reader.stepsCount         := s.reader.stepsCount + 1
  }

def skipStep (s : ParseState) (metadataPos metadataSize : Nat) : ParseState :=
  { s.pushFiltered with
    metadataPosTotalSkip := addU64 s.metadataPosTotalSkip metadataSize
    minfoPos             := addU64 metadataPos metadataSize
    minfoSize            := 0
  }

def parseStep (p : ReaderParams) (s : ParseState) : Outcome ParseState := do
  let e := s.reader.minifooter.endian
  let metadataPos ← (readUInt e 8 buffer s.position).orUndefined
  let metadataSize ← (readUInt e 8 buffer (s.position + 8)).orUndefined
  let flushCount ← (readUInt e 8 buffer (s.position + 16)).orUndefined
  let s := { s with position := s.position + 24 }
  let s := if s.n = 0 then
      { s with minfoPos := metadataPos, metadataPosTotalSkip := metadataPos }
    else
      s
  let s := if p.isSelected s.reader.absStepsInFile then
      s.selectStep metadataPos metadataSize flushCount
    else
      s.skipStep metadataPos metadataSize
  return { s with
    -- skip over the writer -> data file offset records
    position              := s.position + 8 * s.reader.lastWriterCount * (2 * flushCount + 1)
    reader.absStepsInFile := s.reader.absStepsInFile + 1
    n                     := s.n + 1
  }

-- The `switch` over the kind of a record. A record of another kind is not looked into.
def parseBody (p : ReaderParams) (recordID : Nat) (s : ParseState) : Outcome ParseState :=
  if recordID = writerMapRecord.toNat then
    parseWriterMap buffer s
  else if recordID = stepRecord.toNat then
    parseStep buffer p s
  else
    .ok s

-- One round of the loop. There is no next state when the loop stops at a partial record.
def parseRecord (p : ReaderParams) (s : ParseState) : Outcome (Option ParseState) := do
  if s.position + 9 > buffer.length then
    return none
  else
    let e := s.reader.minifooter.endian
    let recordID ← (readUInt e 1 buffer s.position).orUndefined
    let recordLength ← (readUInt e 8 buffer (s.position + 1)).orUndefined
    let start := s.position + 9
    if start + recordLength > buffer.length then
      return none
    else
      let s' ← parseBody buffer p recordID { s with position := start }
      if s'.position - start ≠ recordLength then
        .error <| .thrown "Engine" "BP5Reader" "ParseMetadataIndex"
          ("Record " ++ toString s.nrec ++ " (id = " ++ toString recordID
            ++ ") has invalid length " ++ toString recordLength ++ ". We parsed "
            ++ toString (s'.position - start) ++ " bytes for this record")
      else
        return some { s' with nrec := s'.nrec + 1 }

-- Every record takes nine bytes at least, so that the size of the buffer is enough fuel.
def parseRecords (p : ReaderParams) : Nat → ParseState → Outcome ParseState
  | 0, s        => .ok s
  | fuel + 1, s =>
    if s.position < buffer.length ∧ s.metadataSizeToRead < p.maxMetadataSizeInMemory then do
      match ← parseRecord buffer p s with
      | none    => .ok s
      | some s' => parseRecords p fuel s'
    else
      .ok s

end ParseState

namespace IndexReader

def parseStart (p : ReaderParams) (r : IndexReader) (buffer : List Byte) (hasHeader : Bool) :
    Outcome IndexReader :=
  if hasHeader then r.parseHeader p buffer else .ok r

-- The position behind the last record that was parsed comes with the new state.
def parseMetadataIndex (p : ReaderParams) (r : IndexReader) (buffer : List Byte)
    (hasHeader : Bool) : Outcome (IndexReader × Nat) := do
  let r ← r.parseStart p buffer hasHeader
  let s ← ParseState.parseRecords buffer p buffer.length {
    reader   := { r with metadataIndexTable := [], filteredMetadataInfo := [] }
    position := if hasHeader then indexHeaderSize else 0
  }
  return (s.pushFiltered.reader, s.position)

-- `std::vector::resize`
def resize (buffer : List Byte) (n : Nat) : List Byte :=
  buffer.take n ++ .replicate (n - buffer.length) 0

-- The part of `UpdateBuffer` that is about the index file, where `mdIndexFile` is as much of the
-- file as can be read at the time of the call.
def updateBuffer (p : ReaderParams) (r : IndexReader) (mdIndexFile : List Byte) :
    Outcome IndexReader := do
  let buffer := mdIndexFile.drop r.mdIndexFileAlreadyReadSize
  if buffer.isEmpty then
    return { r with metadataIndex := [] }
  else
    let hasHeader := r.mdIndexFileAlreadyReadSize = 0
    let (r', parsedIdxSize) ← r.parseMetadataIndex p buffer hasHeader
    return { r' with
      metadataIndex              := resize buffer parsedIdxSize
      mdIndexFileAlreadyReadSize := r.mdIndexFileAlreadyReadSize + parsedIdxSize
    }

end IndexReader

-- A step as it can be looked up after a call of `UpdateBuffer`: the numbers of its table entry, the
-- writer map in force, and for each writer the position and size of each flush and the position of
-- the last write.
structure SeenStep where
  metadataPos  : Nat
  metadataSize : Nat
  flushCount   : Nat
  writerMap    : WriterMapStruct
  dataPos      : List (List Nat)
  deriving DecidableEq, Repr

namespace IndexReader

-- The numbers that `ReadData` walks over for a writer.
def dataPosOf (r : IndexReader) (t : IndexTableEntry) (writerRank : Nat) : Option (List Nat) :=
  readUInts r.minifooter.endian 8 r.metadataIndex
    (t.dataPosPos + writerRank * (2 * t.flushCount + 1) * 8) (2 * t.flushCount + 1)

def seenStep (r : IndexReader) (entry : Nat × IndexTableEntry) : Option SeenStep := do
  let (step, t) := entry
  let writerMap ← r.writerMap (← r.writerMapIndex[step]?)
  let dataPos ← (List.range writerMap.writerCount).mapM (r.dataPosOf t)
  return {
    metadataPos  := t.metadataPos
    metadataSize := t.metadataSize
    flushCount   := t.flushCount
    writerMap
    dataPos
  }

-- A call of `UpdateBuffer` with the steps that it adds.
def poll (p : ReaderParams) (r : IndexReader) (mdIndexFile : List Byte) :
    Outcome (IndexReader × List SeenStep) := do
  let r' ← r.updateBuffer p mdIndexFile
  if r.stepsCount < r'.stepsCount then
    let seen ← (r'.metadataIndexTable.mapM r'.seenStep).orUndefined
    return (r', seen)
  else
    return (r', [])

-- A run of a reader on an index file that grows. Each number is the size that the file has when
-- the reader looks at it, the result has the new steps of each look.
def polls (p : ReaderParams) (file : List Byte) :
    IndexReader → List Nat → Outcome (IndexReader × List (List SeenStep))
  | r, []           => .ok (r, [])
  | r, size :: sizes => do
    let (r, seen) ← r.poll p (file.take size)
    let (r, rest) ← polls p file r sizes
    return (r, seen :: rest)

end IndexReader

end BP5
