import Adios2.Format.BP5.InstalledMetadata

-- How BP5Deserializer turns a Get of a block into the requests that read it.

namespace BP5.Reader

open Bytes Helper

inductive SelectionType
  | boundingBox
  | writeBlock
  | all
  deriving DecidableEq, Repr

structure Selection where
  selType       : SelectionType
  blockID       : Option Nat
  start         : Dims
  count         : Dims
  stepStart     : Nat
  stepCount     : Nat
  deriving DecidableEq, Repr

-- The parts of a variable in the IO that a Get looks at. `onHost` is whether the memory that it
-- reads into is the host's.
structure Variable where
  varNum      : Nat
  name        : String
  shapeID     : ShapeID
  shape       : Dims
  count       : Dims
  elementSize : Nat
  onHost      : Bool
  deriving DecidableEq, Repr

inductive RequestType
  | global
  | local
  deriving DecidableEq, Repr

structure BP5ArrayRequest where
  varNum      : Nat
  requestType : RequestType
  step        : Nat
  relStep     : Nat
  blockID     : Nat
  start       : Dims
  count       : Dims
  onHost      : Bool
  data        : Nat
  deriving DecidableEq, Repr

-- Where a request's data is read to: the user's memory, memory of its own, or nowhere yet.
inductive Destination
  | app (data : Nat)
  | temporary
  | null
  deriving DecidableEq, Repr

structure ReadRequest where
  timestep          : Nat
  writerRank        : Nat
  startOffset       : Nat
  readLength        : Nat
  destinationAddr   : Destination
  directToAppMemory : Bool
  reqIndex          : Nat
  offsetInBlock     : Nat
  blockID           : Nat
  deriving DecidableEq, Repr

structure ReadRequests where
  requests    : List ReadRequest
  maxReadSize : Nat
  deriving DecidableEq, Repr

variable {α : Type}

def dataTypeOf (type : Int) : DataType :=
  let types : List DataType := [.none, .int8, .int16, .int32, .int64, .uint8, .uint16, .uint32,
    .uint64, .float, .double, .longDouble, .floatComplex, .doubleComplex, .string, .char, .struct]
  types.getD type.toNat .none

def textOf (name : List Byte) : String :=
  String.ofList (name.map fun c => Char.ofNat c.toNat)

-- The request that a Get of an array makes, if its selection fits the var.
def arrayRequest (var : Variable) (data absStep relStep : Nat) (selection : Selection) :
    Option BP5ArrayRequest :=
  let hasBlock := selection.blockID.isSome
  let (selType, start, count) :=
    if selection.selType = .all then
      if var.shapeID = .localArray ∨ hasBlock then (SelectionType.writeBlock, [], [])
      else (.boundingBox, .replicate var.shape.length 0, var.shape)
    else (selection.selType, selection.start, selection.count)
  if selType = .boundingBox ∧
      (var.shapeID = .globalArray ∨ var.shapeID = .joinedArray) then
    some {
      varNum := var.varNum, requestType := .global, step := absStep, relStep
      blockID := 2 ^ 64 - 1, start, count, onHost := var.onHost, data }
  else if selType = .writeBlock ∨ var.shapeID = .localArray then
    some {
      varNum := var.varNum, requestType := .local, step := absStep, relStep
      blockID := selection.blockID.getD 0
      start   := if selType = .boundingBox then start else []
      count   := if selType = .boundingBox then count else []
      onHost  := var.onHost, data }
  else
    none

-- A single value is copied out of the metadata, and needs no request.
def queueGetSingle (d : Deserializer α) (pending : List BP5ArrayRequest) (var : Variable)
    (data absStep relStep : Nat) (selection : Selection) : Outcome (List BP5ArrayRequest) := do
  let v : VarRec ← d.varRecs[var.varNum]?.orUndefined
  if v.origShapeID = .globalValue ∨ v.origShapeID = .localValue then
    pure pending
  else
    pure (pending ++ (arrayRequest var data absStep relStep selection).toList)

-- Whether one of the ranks wrote the variable in the step.
def anyWrote (d : Deserializer α) (varNum step : Nat) : List Nat → Outcome Bool
  | []                       => .ok false
  | writerRank :: writerRanks => do
    match ← getMetadataBase d varNum step writerRank with
    | some _ => pure true
    | none   => anyWrote d varNum step writerRanks

-- The relative steps of a Get, each with its part of the user's memory.
def queueGetSteps (d : Deserializer α) (v : VarRec) (var : Variable) (selection : Selection) :
    List Nat → List BP5ArrayRequest → Nat → Outcome (List BP5ArrayRequest)
  | [], pending, _                  => .ok pending
  | relStep :: relSteps, pending, data => do
    let absStep ← v.absStepFromRel[relStep]?.orUndefined
    if ← anyWrote d var.varNum absStep (List.range (writerCohortSize d absStep)) then
      let pending ← queueGetSingle d pending var data absStep relStep selection
      queueGetSteps d v var selection relSteps pending
        (data + var.count.prod * var.elementSize)
    else
      queueGetSteps d v var selection relSteps pending data

def queueGet (d : Deserializer α) (pending : List BP5ArrayRequest) (var : Variable)
    (data : Nat) (selection : Selection) : Outcome (List BP5ArrayRequest) := do
  if d.randomAccessMode then
    let v : VarRec ← d.varRecs[var.varNum]?.orUndefined
    if v.absStepFromRel.length < selection.stepStart + selection.stepCount then
      .error (.thrown "Toolkit" "format::BP5Deserializer" "QueueGet"
        (s!"offset {selection.stepCount} from steps start {selection.stepStart} in variable " ++
          s!"{var.name} is beyond the largest available relative step = " ++
          s!"{v.absStepFromRel.length}, check Selection step parameters (random access), or " ++
          "number of BeginStep calls (streaming)"))
    else
      queueGetSteps d v var selection (List.range' selection.stepStart selection.stepCount)
        pending data
  else
    queueGetSingle d pending var data d.curTimestep d.curTimestep selection

def calcBlockLength (dimensionsSize : Nat) (count : List Nat) : Nat :=
  (count.take dimensionsSize).prod

-- The request for block `neededBlock` of a rank's record.
def blockRequest (d : Deserializer α) (v : VarRec) (req : BP5ArrayRequest) (reqIndex : Nat)
    (doAllocTempBuffers : Bool) (writerRank : Nat) (r : MetaArrayRec α) (neededBlock : Nat) :
    Outcome ReadRequest := do
  let startOffset ← r.dataBlockLocation[neededBlock]?.orUndefined
  if startOffset = 2 ^ 64 - 1 then
    .error (.thrown "" "" "" "No data exists for this variable")
  else
    let elementSize := getDataTypeSize (dataTypeOf v.type)
    -- All multidimensional requests are taken to be not contiguous.
    let direct := req.onHost ∧ v.operator = none ∧
      d.sourceIsLittleEndian = d.readerIsLittleEndian ∧ v.dimCount = 1
    let wholeLength ←
      if v.operator.isSome then r.dataBlockSize[neededBlock]?.orUndefined
      else pure (elementSize * calcBlockLength v.dimCount (r.count.drop (neededBlock * v.dimCount)))
    pure {
      timestep := req.step
      writerRank
      startOffset :=
        if direct ∧ req.start ≠ [] then startOffset + elementSize * req.start.headD 0
        else startOffset
      readLength :=
        if direct ∧ req.start ≠ [] then elementSize * calcBlockLength v.dimCount req.count
        else wholeLength
      destinationAddr :=
        if direct then .app req.data
        else if doAllocTempBuffers then .temporary
        else .null
      directToAppMemory := direct
      reqIndex
      offsetInBlock := 0
      blockID := neededBlock }

def ReadRequests.add (ret : ReadRequests) (rr : ReadRequest) : ReadRequests where
  requests    := ret.requests ++ [rr]
  maxReadSize := if rr.directToAppMemory then ret.maxReadSize else max ret.maxReadSize rr.readLength

-- The ranks of a step, with the number of blocks in front of the rank at hand. The rank that has
-- the block ends the loop, and its own blocks are not counted.
def ranksLoop (d : Deserializer α) (v : VarRec) (req : BP5ArrayRequest) (reqIndex : Nat)
    (doAllocTempBuffers : Bool) (step : Nat) :
    List Nat → Nat → ReadRequests → Outcome (Nat × ReadRequests)
  | [], nodeFirstBlock, ret                         => .ok (nodeFirstBlock, ret)
  | writerRank :: writerRanks, nodeFirstBlock, ret => do
    match ← getMetadataBase d req.varNum step writerRank with
    | none       =>
      ranksLoop d v req reqIndex doAllocTempBuffers step writerRanks nodeFirstBlock ret
    | some field =>
      let r := field.array
      if r.blockCount = 0 then
        ranksLoop d v req reqIndex doAllocTempBuffers step writerRanks nodeFirstBlock ret
      else if nodeFirstBlock ≤ req.blockID ∧ req.blockID ≤ nodeFirstBlock + r.blockCount - 1 then do
        let rr ← blockRequest d v req reqIndex doAllocTempBuffers writerRank r
          (req.blockID - nodeFirstBlock)
        pure (nodeFirstBlock, ret.add rr)
      else
        ranksLoop d v req reqIndex doAllocTempBuffers step writerRanks
          (nodeFirstBlock + r.blockCount) ret

def stepsLoop (d : Deserializer α) (v : VarRec) (req : BP5ArrayRequest) (reqIndex : Nat)
    (doAllocTempBuffers : Bool) : List Nat → Nat → ReadRequests → Outcome ReadRequests
  | [], _, ret                       => .ok ret
  | step :: steps, nodeFirstBlock, ret => do
    let (nodeFirstBlock, ret) ← ranksLoop d v req reqIndex doAllocTempBuffers step
      (List.range (writerCohortSize d step)) nodeFirstBlock ret
    stepsLoop d v req reqIndex doAllocTempBuffers steps nodeFirstBlock ret

-- What the requests for blocks lead to; those for a region are served by `globalRequests`.
def generateReadRequest (d : Deserializer α)
    (globalRequests : BP5ArrayRequest → Nat → ReadRequests → Outcome ReadRequests)
    (doAllocTempBuffers : Bool) (ret : ReadRequests) (req : BP5ArrayRequest × Nat) :
    Outcome ReadRequests := do
  let (req, reqIndex) := req
  let v : VarRec ← d.varRecs[req.varNum]?.orUndefined
  let steps := if d.flattenSteps then List.range d.controlArray.length else [req.step]
  match req.requestType with
  | .global => globalRequests req reqIndex ret
  | .local  => do
    let ret ← stepsLoop d v req reqIndex doAllocTempBuffers steps 0 ret
    -- no block has been read of what a derived variable is computed from
    match if v.derived then d.derivedInputs req.varNum else [] with
    | []        => pure ret
    | input :: _ =>
      .error (.thrown "Toolkit" "BP5Deserializer" "GenerateReadRequests"
        (s!"derived variable {textOf v.varName} requires input variable {textOf input} " ++
          "which has no data on this step"))

def generateReadRequests (d : Deserializer α)
    (globalRequests : BP5ArrayRequest → Nat → ReadRequests → Outcome ReadRequests)
    (pending : List BP5ArrayRequest) (doAllocTempBuffers : Bool) : Outcome ReadRequests :=
  pending.zipIdx.foldlM (generateReadRequest d globalRequests doAllocTempBuffers)
    { requests := [], maxReadSize := 0 }

-- A Get that nothing is pending in front of, and the requests that perform it.
def performGet (d : Deserializer α)
    (globalRequests : BP5ArrayRequest → Nat → ReadRequests → Outcome ReadRequests)
    (var : Variable) (data : Nat) (selection : Selection) (doAllocTempBuffers : Bool) :
    Outcome ReadRequests := do
  let pending ← queueGet d [] var data selection
  generateReadRequests d globalRequests pending doAllocTempBuffers

end BP5.Reader
