import Adios2.Helper.Box
import Adios2.Format.BP5.MetaFields
import Adios2.Lib.Threads

-- The reader of a time series: one engine in front of the engines of the files that an ATS list
-- names. In random access all files are open, otherwise one at a time. What the engine of a file
-- answers is a parameter.

namespace TimeSeries

open BP5 Helper

inductive OpenMode
  | read
  | readRandomAccess
  deriving DecidableEq, Repr

inductive StepStatus
  | ok
  | notReady
  | endOfStream
  | otherError
  deriving DecidableEq, Repr

inductive SelectionType
  | boundingBox
  | writeBlock
  deriving DecidableEq, Repr

def engineCurrentStep : Nat := 2 ^ 64 - 1

-- `std::numeric_limits<size_t>::max()`
def maxSize : Nat := 2 ^ 64 - 1

def sub64 (a b : Nat) : Nat := (a + (2 ^ 64 - b)) % 2 ^ 64

def getTotalSize (dims : Dims) : Nat := dims.prod

def thrown {α : Type} (activity message : String) : Outcome α :=
  .error <| .thrown "Engine" "TimeSeriesReader" activity message

section Files

-- The members of a variable by which it selects what a Get reads of a step.
structure Selection where
  selectionType : SelectionType := .boundingBox
  start         : Dims
  count         : Dims
  blockID       : Nat           := 0
  memoryStart   : Dims          := []
  memoryCount   : Dims          := []
  deriving DecidableEq, Repr

-- What they amount to: a box or a block, and the part of the memory that it goes to.
inductive Area
  | box (start count : Dims)
  | block (blockID : Nat)
  deriving DecidableEq, Repr

structure Region where
  area        : Area
  memoryStart : Dims
  memoryCount : Dims
  deriving DecidableEq, Repr

def Selection.region (s : Selection) : Region where
  area        := match s.selectionType with
    | .boundingBox => .box s.start s.count
    | .writeBlock  => .block s.blockID
  memoryStart := s.memoryStart
  memoryCount := s.memoryCount

-- A variable in the IO of a file. Its steps are those of the file in which it is, and
-- `availableSteps` are the keys of `m_AvailableStepBlockIndexOffsets`, which begin with 1, less one.
structure FileVariable where
  name               : String
  type               : DataType
  shapeID            : ShapeID
  shape              : Dims
  singleValue        : Bool     := false
  stepsCount         : Nat      := 1
  stepsStart         : Nat      := 0
  start              : Dims
  count              : Dims
  availableSteps     : List Nat := []
  firstStreamingStep : Bool     := true
  deriving DecidableEq, Repr

-- With the variables that it has in random access and those of each of its steps.
structure File where
  steps  : Nat
  vars   : List FileVariable
  varsAt : Nat → List FileVariable

structure MinVarInfo where
  step          : Nat
  wasLocalValue : Bool
  -- the counts of the blocks
  blocksInfo    : List Dims
  deriving DecidableEq, Repr

structure BPInfo where
  start : Dims
  count : Dims
  value : List UInt8
  deriving DecidableEq, Repr

structure MinMaxStruct where
  min : List UInt8
  max : List UInt8
  deriving DecidableEq, Repr

-- The place of an element behind a pointer, and the element.
abbrev Write := Nat × List UInt8

-- What the engine of a file answers to a question on a variable at a step.
structure Answers where
  minBlocksInfo  : String → Nat → Option MinVarInfo
  varShape       : String → Nat → Option Dims
  variableMinMax : String → Nat → Option MinMaxStruct
  blocksInfo     : String → Nat → List BPInfo
  blockCount     : String → Nat → Nat → Outcome Dims
  read           : String → Region → Nat → Outcome (List Write)

-- The size of what a selection has of a step.
def Answers.selectionSize (a : Answers) (name : String) (s : Selection) (step : Nat) :
    Outcome Nat :=
  match s.selectionType with
  | .boundingBox => pure <| getTotalSize s.count
  | .writeBlock  => getTotalSize <$> a.blockCount name step s.blockID

-- A Get over steps of engines: the steps go to the memory one behind the other.
def readSteps (answers : Nat → Answers) (name : String) (s : Selection) :
    List (Nat × Nat) → Nat → Outcome (List Write)
  | [], _ => pure []
  | (engine, step) :: steps, place => do
    let here ← (answers engine).read name s.region step
    let size ← (answers engine).selectionSize name s step
    let others ← readSteps answers name s steps (place + size)
    pure <| here.map (fun w => (place + w.1, w.2)) ++ others

end Files

section TimeSeriesFile

structure TimeSeriesEntry where
  localpath  : String
  remotehost : String := ""
  remotepath : String := ""
  uuid       : String := ""
  deriving DecidableEq, Repr

structure TimeSeriesList where
  lastUsedEntry : Int                  := -1
  ended         : Bool                 := false
  entries       : List TimeSeriesEntry := []
  deriving DecidableEq, Repr

-- An item of the sequence that an ATS file is.
inductive YamlNode
  | scalar (text : String)
  | map (localpath remotehost remotepath uuid : Option String)
  | other
  deriving DecidableEq, Repr

def YamlNode.entry : YamlNode → Outcome TimeSeriesEntry
  | .scalar text => pure { localpath := text }
  | .map (some localpath) remotehost remotepath uuid => pure {
      localpath
      remotehost := remotehost.getD ""
      remotepath := remotepath.getD ""
      uuid := uuid.getD ""
    }
  | .map none _ _ _ =>
    .error <| .thrown "Helper" "adiosYAML" "SetOption" "missing mandatory key: localpath"
  | .other =>
    .error <| .thrown "Helper" "TimeSeries" "ParseTimeSeriesFile" "parser error: entry"

-- The loop of `ParseTimeSeriesFile`. Where it throws, the list has what was found before.
def parseTimeSeriesFile (tsl : TimeSeriesList) : Int → List YamlNode → TimeSeriesList × Outcome Unit
  | _, [] => (tsl, pure ())
  | nEntry, node :: nodes =>
    if nEntry < tsl.lastUsedEntry then
      parseTimeSeriesFile tsl (nEntry + 1) nodes
    else match node.entry with
      | .error f => (tsl, .error f)
      | .ok tse  =>
        if tse.localpath = "end" then
          ({ tsl with ended := true }, pure ())
        else
          parseTimeSeriesFile { tsl with entries := tsl.entries ++ [tse] } (nEntry + 1) nodes

-- `CheckForFiles`, with whether it returns true.
def checkForFiles (document : List YamlNode) (tsl : TimeSeriesList) : TimeSeriesList × Bool :=
  if tsl.ended then
    (tsl, false)
  else match parseTimeSeriesFile tsl 0 document with
    | (tsl, .ok ())   => (tsl, true)
    | (tsl, .error _) => (tsl, false)

-- An ATS file in which every item names a file, as it is meant.
def Named (document : List YamlNode) : Prop := ∀ node ∈ document, ∃ tse, node.entry = .ok tse

def entries (document : List YamlNode) : List TimeSeriesEntry :=
  document.filterMap (·.entry.toOption)

-- The files that it lists, and whether the list has come to its end.
def listed (document : List YamlNode) : List TimeSeriesEntry :=
  (entries document).takeWhile (·.localpath ≠ "end")

def closed (document : List YamlNode) : Bool :=
  (entries document).any (·.localpath = "end")

end TimeSeriesFile

section Variables

-- A part of a variable: the steps that one engine has of it.
structure VarInternalInfoSingle where
  originalVar : FileVariable
  ioIdx       : Nat
  engineIdx   : Nat
  startStep   : Nat
  endStep     : Nat
  stepCount   : Nat
  deriving DecidableEq, Repr

structure VarInternalInfo where
  name     : String
  nEngines : Nat
  info     : List VarInternalInfoSingle
  deriving DecidableEq, Repr

-- A variable in the IO of the reader.
structure Variable where
  name                : String
  type                : DataType
  shapeID             : ShapeID
  shape               : Dims
  availableStepsCount : Nat
  stepsStart          : Nat
  availableSteps      : List Nat
  firstStreamingStep  : Bool
  deriving DecidableEq, Repr

-- An open file, with the number of steps that were begun.
structure Engine where
  entry : TimeSeriesEntry
  file  : File
  begun : Nat := 0

-- `selections` are those of the variables of the files, by IO and name.
structure TimeSeriesReader where
  openMode               : OpenMode
  timeSeriesList         : TimeSeriesList            := {}
  currentStep            : Nat                       := 0
  stepsCount             : Nat                       := 0
  startStepInCurrentFile : Nat                       := 0
  firstStep              : Bool                      := true
  betweenStepPairs       : Bool                      := false
  engines                : List Engine               := []
  io                     : List Variable             := []
  varInternalInfo        : List VarInternalInfo      := []
  selections             : Nat → String → Selection  := fun _ _ => { start := [], count := [] }

namespace TimeSeriesReader

variable (r : TimeSeriesReader)

def findInfo (name : String) : Option VarInternalInfo :=
  r.varInternalInfo.find? (·.name = name)

-- The variable of a file as it becomes one of the reader, which only its first file decides.
def defineVariable (v : FileVariable) : Variable := {
  name := v.name
  type := v.type
  shapeID := v.shapeID
  shape := v.shape
  availableStepsCount := v.stepsCount
  stepsStart := v.stepsStart
  availableSteps := v.availableSteps
  firstStreamingStep := v.firstStreamingStep
}

-- Where the variable has another type in the reader, `InquireVariable` gives no variable.
def duplicateVariable (v : FileVariable) (ioIdx engineIdx : Nat) : Outcome TimeSeriesReader :=
  match r.findInfo v.name with
  | some vii => do
    let w ← (r.io.find? fun w => w.name = v.name ∧ w.type = v.type).orUndefined
    if w.shapeID ≠ v.shapeID then
      thrown "DuplicateVariable" "Variable shape mismatch in separate files"
    else if w.shape.length ≠ v.shape.length then
      thrown "DuplicateVariable" "Variable shape mismatch in separate files, number of dimensions"
    else do
      let last ← vii.info.getLast?.orUndefined
      let startStep := (last.endStep + 1) % 2 ^ 64
      let viis : VarInternalInfoSingle := {
        originalVar := v
        ioIdx
        engineIdx
        startStep
        endStep := sub64 (v.stepsCount + startStep) 1
        stepCount := v.stepsCount
      }
      let vii :=
        if engineIdx = vii.nEngines - 1 then
          { vii with info := vii.info.set engineIdx viis }
        else
          { vii with nEngines := vii.nEngines + 1, info := vii.info ++ [viis] }
      pure { r with
        io := r.io.map fun w =>
          if w.name = v.name then
            { w with availableStepsCount := w.availableStepsCount + v.stepsCount }
          else
            w
        varInternalInfo := r.varInternalInfo.map fun i => if i.name = v.name then vii else i
      }
  | none =>
    let startStep := match r.openMode with
      | .readRandomAccess => 0
      | .read             => r.startStepInCurrentFile
    let viis : VarInternalInfoSingle := {
      originalVar := v
      ioIdx
      engineIdx
      startStep
      endStep := sub64 (v.stepsCount + startStep) 1
      stepCount := v.stepsCount
    }
    pure { r with
      io := r.io ++ [defineVariable v]
      varInternalInfo := r.varInternalInfo ++ [{ name := v.name, nEngines := 1, info := [viis] }]
    }

-- Variables of structures are passed over.
def HasReader (v : FileVariable) : Prop := v.type ≠ .struct ∧ v.type ≠ .none

instance (v : FileVariable) : Decidable (HasReader v) := by
  unfold HasReader
  infer_instance

-- `ProcessIO`, for the last of the files that are open.
def processIO (vs : List FileVariable) : Outcome TimeSeriesReader :=
  let idx := r.engines.length - 1
  (vs.filter fun v => HasReader v).foldlM (fun r v => r.duplicateVariable v idx idx) { r with
    selections := fun io name =>
      if io = idx then
        match vs.find? (·.name = name) with
        | some v => { start := v.start, count := v.count }
        | none   => r.selections io name
      else
        r.selections io name
  }

variable (storage : TimeSeriesEntry → File)

def initFile (tse : TimeSeriesEntry) (process : Bool) : Outcome TimeSeriesReader :=
  let file := storage tse
  let r := { r with
    stepsCount := r.stepsCount + file.steps
    engines := r.engines ++ [{ entry := tse, file }]
  }
  if process then processIO r file.vars else pure r

end TimeSeriesReader

-- `InitTransports`, which the constructor calls.
def initTransports (storage : TimeSeriesEntry → File) (document : List YamlNode)
    (openMode : OpenMode) : Outcome TimeSeriesReader :=
  let (tsl, ret) := checkForFiles document {}
  let r : TimeSeriesReader := { openMode, timeSeriesList := tsl }
  match openMode with
  | .read => pure r
  | .readRandomAccess => do
    if ¬ret then
      thrown "InitTransports" "Error reading TimeSeries file, in call to Open"
    else do
      let r ← tsl.entries.foldlM (fun r tse => r.initFile storage tse true) r
      pure { r with
        timeSeriesList := {
          lastUsedEntry := tsl.lastUsedEntry + tsl.entries.length
          ended := true
          entries := []
        }
      }

end Variables

section Inquiries

def findStep (openMode : OpenMode) (vii : VarInternalInfo) (step : Nat) : Nat :=
  match openMode with
  | .readRandomAccess =>
    let fixedstep := if step = engineCurrentStep then 0 else step
    (vii.info.findIdx? fun i => i.startStep ≤ fixedstep ∧ i.endStep ≥ fixedstep).getD maxSize
  | .read => 0

namespace TimeSeriesReader

variable (answers : Nat → Answers) (r : TimeSeriesReader)

def answersOf (engineIdx : Nat) : Outcome Answers :=
  if engineIdx < r.engines.length then pure (answers engineIdx) else .error .undefined

-- What the inquiries have in common: the part of the variable that has the step, and the number of
-- the step in its engine. `vii.info[idx].startStep` is read before `idx` is compared with the size.
def locate (vii : VarInternalInfo) (stepsStart step : Nat) :
    Outcome (Option (VarInternalInfoSingle × Nat)) := do
  let engineStep := if step = engineCurrentStep then stepsStart else step
  let idx := findStep r.openMode vii engineStep
  let first ← (vii.info[idx]?).orUndefined
  let engineStep := sub64 engineStep first.startStep
  if idx < vii.info.length then
    let viis ← (vii.info[idx]?).orUndefined
    pure <| some (viis, engineStep)
  else
    pure none

-- An inquiry that knows of variables that are not there.
def inquire {α : Type} (ask : Answers → Nat → Option α) (name : String) (stepsStart step : Nat) :
    Outcome (Option α) :=
  match r.findInfo name with
  | none     => pure none
  | some vii => do
    match ← r.locate vii stepsStart step with
    | none => pure none
    | some (viis, engineStep) => do
      let e ← r.answersOf answers viis.engineIdx
      pure <| ask e engineStep

def minBlocksInfo (name : String) (stepsStart step : Nat) : Outcome (Option MinVarInfo) := do
  let mv ← r.inquire answers (·.minBlocksInfo name) name stepsStart step
  pure <| mv.map fun mv => { mv with step }

def varShape (name : String) (stepsStart step : Nat) : Outcome (Option Dims) :=
  r.inquire answers (·.varShape name) name stepsStart step

def variableMinMax (name : String) (stepsStart step : Nat) : Outcome (Option MinMaxStruct) :=
  r.inquire answers (·.variableMinMax name) name stepsStart step

-- `DoBlocksInfo`, which takes for granted that the variable is there.
def blocksInfo (name : String) (stepsStart step : Nat) : Outcome (List BPInfo) := do
  let vii ← (r.findInfo name).orUndefined
  match ← r.locate vii stepsStart step with
  | none => pure []
  | some (viis, engineStep) => do
    let e ← r.answersOf answers viis.engineIdx
    pure <| e.blocksInfo name engineStep

-- `DoAllRelativeStepsBlocksInfo`
def allRelativeStepsBlocksInfo (name : String) : Outcome (List (List BPInfo)) := do
  let vii ← (r.findInfo name).orUndefined
  let parts ← (vii.info.take vii.nEngines).mapM fun viis => do
    let e ← r.answersOf answers viis.engineIdx
    pure <| (List.range viis.stepCount).map (e.blocksInfo name)
  pure parts.flatten

end TimeSeriesReader

end Inquiries

section Get

-- The steps that a variable selects. `SetStepSelection` refuses a count of zero.
structure StepSelection where
  start    : Nat
  count    : Nat
  start_lt : start < 2 ^ 64
  count_lt : count < 2 ^ 64
  pos      : 0 < count

namespace TimeSeriesReader

variable (answers : Nat → Answers) (r : TimeSeriesReader)

-- `Variable::Count`. With a block selection it is the count of the block, for which the reader is
-- asked.
def count (v : Variable) (s : Selection) (stepsStart : Nat) : Outcome Dims :=
  let outOfBounds : Outcome Dims :=
    .error <| .thrown "Core" "Variable" "DoCount" <|
      "blockID " ++ toString s.blockID ++ " from SetBlockSelection is out of bounds for available " ++
        "blocks"
  match s.selectionType with
  | .boundingBox => pure s.count
  | .writeBlock  => do
    match ← r.minBlocksInfo answers v.name stepsStart stepsStart with
    | some mvi =>
      match mvi.blocksInfo[s.blockID]? with
      | none   => outOfBounds
      | some d => pure <| if mvi.wasLocalValue then [1] else d
    | none => do
      let step ←
        if ¬v.firstStreamingStep then
          pure r.currentStep
        else match v.availableSteps[stepsStart]? with
          | some step => pure step
          | none      =>
            .error <| .thrown "Core" "Variable" "DoCount" <|
              "current relative step start for variable " ++ v.name ++
                " is outside the scope of available steps"
      let blocks ← r.blocksInfo answers v.name stepsStart step
      match blocks[s.blockID]? with
      | none   => outOfBounds
      | some b => pure b.count

-- What a Get leaves in the selection of the variable of a file.
def forwardSelection (v : FileVariable) (inner s : Selection) : Selection :=
  if v.singleValue then
    inner
  else match inner.selectionType with
    | .boundingBox => { inner with start := s.start, count := s.count }
    | .writeBlock  => { inner with selectionType := .writeBlock, blockID := s.blockID }

-- How many steps a part gives, from its step `engineStepStart` on.
def engineStepCount (stepCount remainingSteps engineStepStart : Nat) : Nat :=
  let count := if stepCount > remainingSteps then remainingSteps else stepCount
  if count > sub64 stepCount engineStepStart then sub64 stepCount engineStepStart else count

-- The steps that the engine of a part is asked for: those of `SetStepSelection`, or its current one.
def partSteps (openMode : OpenMode) (v : FileVariable) (engineStepStart engineStepCount : Nat) :
    Outcome (List Nat) :=
  match openMode with
  | .readRandomAccess =>
    if engineStepCount = 0 then
      .error <| .thrown "Core" "VariableBase" "SetStepSelection" <|
        "boxSteps.second count argument  can't be zero, from variable " ++ v.name ++
          ", in call to SetStepSelection"
    else
      pure <| List.range' engineStepStart engineStepCount
  | .read => pure [v.stepsStart]

-- The loop of `GetCommon` over the parts from `engineIdx` to `endEngineIdx`.
def getParts (name : String) (s : Selection) (stepsStart nElemsPerStep endEngineIdx : Nat) :
    List VarInternalInfoSingle → Nat → Nat → Nat → TimeSeriesReader →
      Outcome (TimeSeriesReader × List Write)
  | [], engineIdx, _, _, r =>
    if engineIdx ≤ endEngineIdx then .error .undefined else pure (r, [])
  | viis :: parts, engineIdx, stepFrom, remainingSteps, r =>
    if engineIdx ≤ endEngineIdx then do
      let engineStepStart := sub64 stepFrom viis.startStep
      let _ ← r.answersOf answers viis.engineIdx
      let engineStepCount := engineStepCount viis.stepCount remainingSteps engineStepStart
      let place := sub64 stepFrom stepsStart * nElemsPerStep
      let steps ← partSteps r.openMode viis.originalVar engineStepStart engineStepCount
      let inner := forwardSelection viis.originalVar (r.selections viis.ioIdx name) s
      let here ← readSteps answers name inner (steps.map (viis.engineIdx, ·)) place
      let (r, others) ← getParts name s stepsStart nElemsPerStep endEngineIdx parts (engineIdx + 1)
        ((stepFrom + engineStepCount) % 2 ^ 64) (sub64 remainingSteps engineStepCount)
        { r with
          selections := Function.update r.selections viis.ioIdx
            (Function.update (r.selections viis.ioIdx) name inner) }
      pure (r, here ++ others)
    else
      pure (r, [])

-- `GetCommon`, with what it writes to the memory of the user. The one for strings does nothing.
def getCommon (v : Variable) (s : Selection) (steps : StepSelection) :
    Outcome (TimeSeriesReader × List Write) :=
  if v.type = .string then
    pure (r, [])
  else do
    let vii ← (r.findInfo v.name).orUndefined
    let startEngineIdx := findStep r.openMode vii steps.start
    let endEngineIdx := findStep r.openMode vii ((steps.start + steps.count - 1) % 2 ^ 64)
    let nElemsPerStep ← getTotalSize <$> r.count answers v s steps.start
    getParts answers v.name s steps.start nElemsPerStep endEngineIdx (vii.info.drop startEngineIdx)
      startEngineIdx steps.start steps.count r

end TimeSeriesReader

end Get

section Steps

-- What the engine of an open file can return from `BeginStep`. The steps of a file come one after
-- the other, and the end of the stream behind the last one.
def Engine.Admits (e : Engine) : StepStatus → Prop
  | .ok                     => e.begun < e.file.steps
  | .endOfStream            => e.begun = e.file.steps
  | .notReady | .otherError => True

-- The statuses that the engines have in one turn.
abbrev Polls := { poll : Engine → StepStatus // ∀ e : Engine, e.Admits (poll e) }

-- `++` on an `int`
def incInt (n : Nat) : Outcome Nat :=
  if n + 1 < 2 ^ 31 then pure (n + 1) else .error .undefined

namespace TimeSeriesReader

variable (r : TimeSeriesReader)

-- The number of the step that a file presents.
def nextStep : Outcome Nat :=
  if r.firstStep then pure r.currentStep else incInt r.currentStep

-- What `BeginStep` makes of the status of the first engine, with what is returned; with `none` the
-- loop goes on.
def pollEngine (e : Engine) (status : StepStatus) :
    Outcome (TimeSeriesReader × Option StepStatus) :=
  match status with
  | .notReady | .otherError => pure (r, some .notReady)
  | .endOfStream => do
    let start ← incInt r.currentStep
    pure ({ r with varInternalInfo := [], engines := [], startStepInCurrentFile := start }, none)
  | .ok => do
    let step ← r.nextStep
    let r ← processIO {
      r with
      firstStep := false
      currentStep := step
      betweenStepPairs := true
      engines := r.engines.set 0 { e with begun := e.begun + 1 }
      io := []
      varInternalInfo := []
    } (e.file.varsAt e.begun)
    pure (r, some .ok)

-- The next file of the list, opened.
def openFile (file : File) (tse : TimeSeriesEntry) (entries : List TimeSeriesEntry) :
    TimeSeriesReader :=
  { r with
    stepsCount := r.stepsCount + file.steps
    engines := r.engines ++ [{ entry := tse, file }]
    timeSeriesList := { r.timeSeriesList with
      entries
      lastUsedEntry := r.timeSeriesList.lastUsedEntry + 1 } }

-- A turn of the loop of `BeginStep`.
def beginStepTurn (storage : TimeSeriesEntry → File) (document : List YamlNode) (poll : Polls) :
    Outcome (TimeSeriesReader × Option StepStatus) :=
  match r.engines with
  | e :: _ => r.pollEngine e (poll.val e)
  | []     =>
    let r := { r with timeSeriesList := (checkForFiles document r.timeSeriesList).1 }
    match r.timeSeriesList.entries with
    | []             => pure (r, some (if r.timeSeriesList.ended then .endOfStream else .notReady))
    | tse :: entries =>
      let e : Engine := { entry := tse, file := storage tse }
      (r.openFile (storage tse) tse entries).pollEngine e (poll.val e)

def endStep : TimeSeriesReader := { r with betweenStepPairs := false }

end TimeSeriesReader

-- A series that is read step by step while its list is written, with the files that were opened so
-- far, the steps that were presented and what `BeginStep` has returned.
structure World where
  document  : List YamlNode
  reader    : TimeSeriesReader
  opened    : List TimeSeriesEntry         := []
  presented : List (TimeSeriesEntry × Nat) := []
  returned  : List StepStatus              := []

inductive Party
  | writer
  | user
  deriving DecidableEq, Repr

inductive Task
  | append (node : YamlNode)
  | turn
  | endStep
  | get (v : Variable) (s : Selection) (steps : StepSelection)

namespace World

variable (storage : TimeSeriesEntry → File) (answersAt : TimeSeriesEntry → Nat → Answers)

-- What the file answers that is open, at the step that it is at.
def answers (w : World) : Nat → Answers := fun _ =>
  match w.reader.engines with
  | e :: _ => answersAt e.entry (e.begun - 1)
  | []     => answersAt { localpath := "" } 0

-- The file that a turn opens.
def nextFile (w : World) : List TimeSeriesEntry :=
  match w.reader.engines with
  | _ :: _ => []
  | []     => (checkForFiles w.document w.reader.timeSeriesList).1.entries.take 1

def turn (w : World) (poll : Polls) : Outcome (World × List Task) := do
  let (r, returned) ← w.reader.beginStepTurn storage w.document poll
  let w := { w with
    reader := r
    opened := w.opened ++ w.nextFile
    returned := w.returned ++ returned.toList
    presented := w.presented ++
      if returned = some .ok then r.engines.map fun e => (e.entry, e.begun - 1) else [] }
  pure (w, if returned = none then [.turn] else [])

def exec (poll : Polls) (task : Task) (w : World) : Outcome (World × List Task) :=
  match task with
  | .append node    => pure ({ w with document := w.document ++ [node] }, [])
  | .turn           => w.turn storage poll
  | .endStep        => pure ({ w with reader := w.reader.endStep }, [])
  | .get v s steps  => do
    let (r, _) ← w.reader.getCommon (w.answers answersAt) v s steps
    pure ({ w with reader := r }, [])

end World

-- The list grows up to its end, and the user reads between `BeginStep` and `EndStep`.
def program (storage : TimeSeriesEntry → File) (answersAt : TimeSeriesEntry → Nat → Answers) :
    Threads.Program Party World Task Polls where
  ready  := fun _ _ => True
  exec   := World.exec storage answersAt
  begins := fun
    | .writer, w, ts =>
      closed w.document = false ∧ ∃ node tse, node.entry = .ok tse ∧ ts = [.append node]
    | .user, w, ts   =>
      if w.reader.betweenStepPairs then
        ts = [.endStep] ∨ ∃ v s steps, ts = [.get v s steps]
      else
        ts = [.turn]

end Steps

end TimeSeries
