import Adios2.Engine.BP5.MetadataFile
import Adios2.Engine.BP5.MetadataIndex
import Adios2.Format.BP5.ContiguousMetadata

-- `BP5Reader` in streaming mode, on files that another process is still writing: what it reads of
-- the three metadata files when it looks for new steps, and what it gives to the deserializer in
-- `BeginStep`.

namespace BP5

open Bytes

-- The name of the file and the timeout are for the texts of exceptions only. FFS finds the ID of its
-- format in front of every metadata block.
structure StreamParams where
  name               : String
  timeoutSeconds     : String
  ignoreFlattenSteps : Bool
  formatID           : List Byte → List Byte

def StreamParams.reader (p : StreamParams) : ReaderParams where
  openMode           := .read
  ignoreFlattenSteps := p.ignoreFlattenSteps
  isSelected         := fun _ => true

-- What the files have in them when the writer is done with everything but the active flag.
structure StreamFiles where
  mdIndex  : List Byte
  md       : List Byte
  metaMeta : List Byte

-- As much of `md.idx` as there is at some time. The flag of the writer is cleared at the end.
structure IndexLook where
  size   : Nat
  active : Bool

namespace IndexLook

variable (files : StreamFiles) (l : IndexLook)

def file : List Byte :=
  if l.active then files.mdIndex else files.mdIndex.set activeFlagPosition 0

def content : List Byte :=
  (l.file files).take l.size

end IndexLook

-- What a call of `UpdateBuffer` can see of the files: the sizes of `md.idx` when it asks again, the
-- sizes of `md.0` until it gives up, and the size of `mmd.0`.
structure Look extends IndexLook where
  retries      : List Nat
  mdSize       : Nat
  mdSizes      : List Nat
  metaMetaSize : Nat

-- A round of the loop of `CheckForNewSteps`, which has one round at least.
structure Round where
  look  : Look
  flag  : IndexLook
  again : Look

structure Rounds where
  first : Round
  later : List Round

structure StreamReader where
  index                                : IndexReader := {}
  mdIndexFile                          : Bool := true
  mdFile                               : Bool := true
  metaMetadataFile                     : Bool := true
  metadata                             : List Byte := []
  metaMetadata                         : List Byte := []
  metaMetaDataFileAlreadyReadSize      : Nat := 0
  metaMetaDataFileAlreadyProcessedSize : Nat := 0
  installedMetaMeta                    : List MetaMetaInfoBlock := []
  currentStep                          : Nat := 0
  firstStep                            : Bool := true
  betweenStepPairs                     : Bool := false

-- What a call has changed before an exception stays changed.
abbrev Call := EStateM Fault StreamReader

-- A call of another function. One that throws has not come to the members of this module.
def Outcome.call {α} : Outcome α → Call α
  | .ok a    => pure a
  | .error f => throw f

-- `BufferSTL::Reset` zeroes the first and the last 1 kB.
def bufferReset (buffer : List Byte) : List Byte :=
  buffer.mapIdx fun i b => if i < 1024 ∨ buffer.length ≤ i + 1024 then 0 else b

namespace StreamReader

variable (p : StreamParams) (files : StreamFiles)

-- The size of `md.idx` after the retries, which end when it has not grown.
def settle (size : Nat) : List Nat → Nat
  | []                     => size
  | updatedSize :: retries => if size < updatedSize then settle updatedSize retries else size

-- The writer is done as far as the reader knows, from before or from the header it has just read.
def writerDone (r : StreamReader) (file : List Byte) (size : Nat) : Bool :=
  !r.index.writerIsActive || (r.index.mdIndexFileAlreadyReadSize = 0 && indexHeaderSize ≤ size
    && file[activeFlagPosition]? != some 1)

-- The part of `UpdateBuffer` that reads `md.idx`. The file comes as a whole up to where it is read.
def readIndex (look : Look) : Call (List Byte) := do
  let r ← get
  if r.mdIndexFile then
    let file := look.file files
    let size := min look.size file.length
    let alreadyRead := r.index.mdIndexFileAlreadyReadSize
    if size ≠ alreadyRead ∧ r.writerDone file size then
      let settled := settle size ((look.retries.take 20).map fun n => min n file.length)
      if size < alreadyRead ∧ size < settled then
        -- The number of new bytes has wrapped around, and they are read to in front of the buffer.
        throw .undefined
      else
        return file.take settled
    else
      return file.take size
  else
    return []

-- The size of `md.0` when it is large enough, or when the time is over.
def actualFileSize (expectedMinFileSize : Nat) : Nat → List Nat → Nat
  | size, []           => size
  | size, next :: rest =>
    if expectedMinFileSize ≤ size then size else actualFileSize expectedMinFileSize next rest

def readPiece (mdFile : List Byte) (piece : Nat × Nat) : Call (List Byte) :=
  match readBytes mdFile piece.1 piece.2 with
  | some bytes => pure bytes
  | none       => throw <| .thrown "Toolkit" "transport::file::FilePOSIX" "Read"
    ("Read past end of file on " ++ p.name ++ "/md.0 trying to read " ++
      toString (piece.2 - (mdFile.length - piece.1)) ++ " bytes ")

def notEnoughMetadata (newIdxSize actualFileSize expectedMinFileSize : Nat) : Fault :=
  .thrown "Engine" "BP5Reader" "UpdateBuffer"
    ("File " ++ p.name ++ " was found with an index file but md.0 has not contained enough data " ++
      "within the specified timeout of " ++ p.timeoutSeconds ++ " seconds. index size = " ++
      toString newIdxSize ++ " metadata size = " ++ toString actualFileSize ++
      " expected size = " ++ toString expectedMinFileSize ++ ". One reason could be if the " ++
      "reader finds old data while the writer is creating the new files.")

def readMetadata (look : Look) (newIdxSize : Nat) : Call Unit := do
  let r ← get
  match r.index.filteredMetadataInfo.getLast?, r.mdFile with
  | some last, true =>
    let expectedMinFileSize := addU64 last.1 last.2
    let getSize (n : Nat) := min n files.md.length
    let size := actualFileSize expectedMinFileSize (getSize look.mdSize) (look.mdSizes.map getSize)
    if expectedMinFileSize ≤ size then
      let pieces ← r.index.filteredMetadataInfo.mapM (readPiece p (files.md.take size))
      modify fun r => { r with metadata := pieces.flatten }
    else
      throw <| notEnoughMetadata p newIdxSize size expectedMinFileSize
  | _, _ => throw .undefined

def readMetaMetadata (look : Look) : Call Unit :=
  modify fun r =>
    let size := min look.metaMetaSize files.metaMeta.length
    let alreadyRead := r.metaMetaDataFileAlreadyReadSize
    if r.metaMetadataFile ∧ alreadyRead < size then
      { r with
        metaMetadata := (IndexReader.resize r.metaMetadata size).take alreadyRead
          ++ (files.metaMeta.take size).drop alreadyRead
        metaMetaDataFileAlreadyReadSize := size
      }
    else
      r

-- The loop of `InstallMetaMetaData`. A record takes 16 bytes at least, so that the size of the
-- buffer is enough fuel. The lengths in a record are not compared with what is left of the buffer.
def installMetaMetaData (e : Endian) (buffer : List Byte) :
    Nat → Nat → Option (List MetaMetaInfoBlock × Nat)
  | 0, position        => some ([], position)
  | fuel + 1, position =>
    if position < buffer.length then do
      let (mmi, position) ← (Breakout.metaMetaBlock e buffer).run position
      let (mmis, position) ← installMetaMetaData e buffer fuel position
      return (mmi :: mmis, position)
    else
      some ([], position)

-- What the deserializer has for a step when `BeginStep` returns.
structure Presented where
  step        : Nat
  writerCount : Nat
  installs    : Installs
  deriving DecidableEq, Repr

-- The deserializer looks for the format of every metadata block.
def hasFormat (installed : List MetaMetaInfoBlock) (metadataBlock : List Byte) : Bool :=
  installed.any fun mmi => mmi.metaMetaID = p.formatID metadataBlock

def installMetadataForTimestep (step : Nat) : Call Presented := do
  let r ← get
  let found : Option Presented := do
    let entry ← r.index.metadataIndexTable.lookup step
    let writerMap ← r.index.writerMap (← r.index.writerMapIndex[step]?)
    let installs ← BP5.installMetadataForTimestep r.index.minifooter.endian r.metadata
      entry.posInMemory writerMap.writerCount
    return { step, writerCount := writerMap.writerCount, installs }
  match found with
  | none           => throw .undefined
  | some presented =>
    if presented.installs.metadata.all (hasFormat p r.installedMetaMeta) then
      return presented
    else
      throw <| .thrown "Toolkit" "format::BP5Deserializer" "InstallMetaData"
        "Internal error or file corruption, no know format for Metadata Block"

-- What `UpdateBuffer` does when there are new steps in the index.
def installNewSteps (look : Look) (newIdxSize : Nat) : Call Unit := do
  modify fun r => { r with
    metadata     := bufferReset r.metadata
    metaMetadata := bufferReset r.metaMetadata
  }
  readMetadata p files look newIdxSize
  readMetaMetadata files look
  let r ← get
  match installMetaMetaData r.index.minifooter.endian r.metaMetadata r.metaMetadata.length
    r.metaMetaDataFileAlreadyProcessedSize with
  | none                  => throw .undefined
  | some (mmis, position) =>
    set { r with
      installedMetaMeta := r.installedMetaMeta ++ mmis
      metaMetaDataFileAlreadyProcessedSize := position
    }
    if r.index.flattenSteps then
      (List.range r.index.metadataIndexTable.length).forM fun step => do
        let _ ← installMetadataForTimestep p step

-- The files that are not needed any more when the writer is not active.
def closeFiles (allParsed : Bool) : Call Unit :=
  modify fun r =>
    if r.index.writerIsActive then
      r
    else
      let mdIndexFile := r.mdIndexFile && !allParsed
      { r with metaMetadataFile := false, mdIndexFile, mdFile := r.mdFile && mdIndexFile }

def updateBuffer (look : Look) : Call Unit := do
  let visible ← readIndex files look
  let r ← get
  let index ← Outcome.call <| r.index.updateBuffer p.reader visible
  set { r with index }
  let newIdxSize := visible.length - r.index.mdIndexFileAlreadyReadSize
  let parsedIdxSize := index.mdIndexFileAlreadyReadSize - r.index.mdIndexFileAlreadyReadSize
  if r.index.stepsCount < index.stepsCount then
    installNewSteps p files look newIdxSize
  closeFiles (newIdxSize ≤ parsedIdxSize)

def checkWriterActive (look : IndexLook) : Call Bool := do
  let r ← get
  if r.index.writerIsActive then
    if r.mdIndexFile then
      let header := look.content files
      let active := header.length < indexHeaderSize || header[activeFlagPosition]? == some 1
      set { r with index.writerIsActive := active }
      return active
    else
      throw .undefined
  else
    return false

inductive StepStatus
  | ok
  | notReady
  | endOfStream
  deriving DecidableEq, Repr

-- The time is over after the last round.
def pollRounds (stepsBefore : Nat) : List Round → Call Unit
  | []              => return ()
  | round :: rounds => do
    updateBuffer p files round.look
    if stepsBefore < (← get).index.stepsCount then
      return ()
    else if ← checkWriterActive files round.flag then
      pollRounds stepsBefore rounds
    else
      -- A step can have come between the two looks.
      updateBuffer p files round.again

def checkForNewSteps (rounds : Rounds) : Call StepStatus := do
  let stepsBefore := (← get).index.stepsCount
  pollRounds p files stepsBefore (rounds.first :: rounds.later)
  let r ← get
  if stepsBefore < r.index.stepsCount then
    return .ok
  else if r.index.writerIsActive then
    return .notReady
  else
    return .endOfStream

-- The status that `BeginStep` returns, with what is presented.
inductive Begun
  | ok (presented : Presented)
  | notReady
  | endOfStream
  deriving DecidableEq, Repr

def needsSteps (r : StreamReader) : Bool :=
  if r.firstStep then r.index.stepsCount = 0 else r.index.stepsCount ≤ r.currentStep + 1

def nextStep (r : StreamReader) : StreamReader :=
  { r with
    betweenStepPairs := true
    firstStep        := false
    currentStep      := if r.firstStep then r.currentStep else r.currentStep + 1
  }

def beginStep (rounds : Rounds) : Call Begun := do
  let r ← get
  if r.betweenStepPairs then
    throw <| .thrown "Engine" "BP5Reader" "BeginStep"
      "BeginStep() is called a second time without an intervening EndStep()"
  else
    let status ← if r.needsSteps then checkForNewSteps p files rounds else pure .ok
    match status with
    | .ok          =>
      modify nextStep
      return .ok (← installMetadataForTimestep p (← get).currentStep)
    | .notReady    => return .notReady
    | .endOfStream => return .endOfStream

def endStep : Call Unit := do
  let r ← get
  if r.betweenStepPairs then
    set { r with betweenStepPairs := false }
  else
    throw <| .thrown "Engine" "BP5Reader" "EndStep"
      "EndStep() is called without a successful BeginStep()"

-- The part of `Init` behind `OpenFiles`, which has waited for the three files.
def init (look : Look) : Call Unit :=
  updateBuffer p files look

-- An application takes a step with `BeginStep` and gives it back with `EndStep`.
def takeStep (rounds : Rounds) : Call Begun := do
  let begun ← beginStep p files rounds
  if begun matches .ok _ then
    endStep
  return begun

-- An application that tries again after everything that is not a step. It gets these answers.
def takeSteps : List Rounds → StreamReader → List (Except Fault Begun) × StreamReader
  | [], r                 => ([], r)
  | rounds :: attempts, r =>
    match (takeStep p files rounds).run r with
    | .ok begun r'    =>
      let (answers, last) := takeSteps attempts r'
      (.ok begun :: answers, last)
    | .error fault r' =>
      let (answers, last) := takeSteps attempts r'
      (.error fault :: answers, last)

end StreamReader

end BP5
