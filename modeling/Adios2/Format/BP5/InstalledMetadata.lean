import Adios2.Format.BP5.DeserializerControl
import Adios2.Core.Io
import Adios2.Helper.Box

-- How BP5Deserializer installs the metadata of a file: what it keeps of each rank in each step, and
-- what it keeps of each variable. The variables that it defines in the IO are left out.

namespace BP5.Reader

open Bytes Helper

-- MetaArrayRec, with what its longer forms add to it. There are DBCount counts and offsets, and two
-- extremes of each block.
structure MetaArrayRec (α : Type) where
  dims              : Nat
  blockCount        : Nat
  dbCount           : Nat
  shape             : Option Dims
  count             : List Nat
  offsets           : Option (List Nat)
  dataBlockLocation : List Nat
  dataBlockSize     : List Nat
  minMax            : List α
  deriving DecidableEq, Repr

-- What lies at an offset of a metadata block, read as an array's record and as a single value.
structure Field (α : Type) where
  array : MetaArrayRec α
  value : α

-- A rank's metadata of a step, with the control of its format.
structure MetadataBlock (α : Type) where
  control  : ControlInfo
  bitField : List Nat
  field    : Int → Field α

-- `shapes` are the arrays that the Shapes of the variable's records point to, in the order in which
-- they were installed; GlobalDims and LastJoinedShape point to one of them.
structure VarRec extends BP5.VarRec where
  joinedDimen     : Option Nat
  globalDims      : Option Nat
  lastJoinedShape : Option Nat
  shapes          : List Dims
  lastTSAdded     : Option Nat
  absStepFromRel  : List Nat
  deriving DecidableEq, Repr

-- What a reader is constructed with.
structure Modes where
  randomAccessMode     : Bool
  flattenSteps         : Bool
  writerIsRowMajor     : Bool
  readerIsRowMajor     : Bool
  sourceIsLittleEndian : Bool
  readerIsLittleEndian : Bool
  deriving DecidableEq, Repr

-- `controlArray` is m_ControlArray and MetadataBaseArray: what is installed of each rank in each
-- step, in random access. `metadataBaseAddrs` is what is installed of the step at hand otherwise.
-- `derivedInputs` are the names of the variables that a derived variable is computed from.
structure Deserializer (α : Type) extends Modes where
  writerCohortSizes        : List Nat
  currentWriterCohortSize  : Nat
  curTimestep              : Nat
  controlArray             : List (List (Option (MetadataBlock α)))
  metadataBaseAddrs        : List (Option (MetadataBlock α))
  varRecs                  : List VarRec
  derivedInputs            : Nat → List (List Byte)

variable {α : Type}

-- `v.resize(n)`, where it makes the vector longer
def resizeTo (zero : α) (v : List α) (n : Nat) : List α :=
  v ++ .replicate (n - v.length) zero

def bitfieldTest (bitField : List Nat) (bit : Nat) : Bool :=
  match bitField[bit / 64]? with
  | some element => element.testBit (bit % 64)
  | none         => false

-- The variable's field, unless it is not in the format or was not written.
def MetadataBlock.record (block : MetadataBlock α) (varNum : Nat) : Option (Field α) :=
  match block.control.metaFieldOffset[varNum]?, block.control.varIndex[varNum]? with
  | some offset, some index =>
    if offset ≠ 0 ∧ bitfieldTest block.bitField index then some (block.field offset) else none
  | _, _ => none

def setupForStep (d : Deserializer α) (step writerCount : Nat) : Deserializer α :=
  let d := { d with curTimestep := step }
  let d := if d.randomAccessMode then
      let sizes := resizeTo 0 d.writerCohortSizes (step + 1)
      { d with writerCohortSizes := sizes.set step writerCount }
    else
      d
  -- A variable that is not in VarByKey has no record yet, and nothing to reset.
  let varRecs := d.varRecs.map fun v =>
    if v.origShapeID = .joinedArray then { v with joinedDimen := none, lastJoinedShape := none }
    else v
  { d with varRecs, currentWriterCohortSize := writerCount }

def writerCohortSize (d : Deserializer α) (step : Nat) : Nat :=
  if d.randomAccessMode then
    d.writerCohortSizes.getD step (d.writerCohortSizes.getLastD 0)
  else
    d.currentWriterCohortSize

def reverseDimensions (dimensions : List Nat) (count times : Nat) : List Nat :=
  (List.range times).flatMap (fun j => ((dimensions.drop (j * count)).take count).reverse) ++
    dimensions.drop (times * count)

-- The last dimension whose entry of the Shape is the mark.
def findJoinedDimen (r : MetaArrayRec α) : Option Nat :=
  ((List.range r.dims).filter fun i => (r.shape.getD [])[i]? = some Core.joinedDim.toNat).getLast?

-- The first loop over the fields of a block.
def noteJoinedDimen (block : MetadataBlock α) (varRecs : List VarRec)
    (control : ControlStruct × Nat) : List VarRec :=
  if bitfieldTest block.bitField control.snd ∧ control.fst.origShapeID = .joinedArray then
    varRecs.modify control.fst.varNum fun v =>
      if v.joinedDimen = none then
        { v with joinedDimen := findJoinedDimen (block.field control.fst.fieldOffset).array }
      else
        v
  else
    varRecs

-- The Shape that adds up the blocks of the step: the one that GlobalDims points to, which starts
-- at 0 with the first of them.
def startJoinedShape (v : VarRec) : VarRec :=
  match v.lastJoinedShape, v.globalDims, v.joinedDimen with
  | none, some shape, some dimen =>
    { v with lastJoinedShape := some shape, shapes := v.shapes.modify shape (·.set dimen 0) }
  | _, _, _ => v

-- A block of a joined array: its place, and the variable with what has been added up.
def joinBlock (r : MetaArrayRec α) (s : VarRec × List Nat) (b : Nat) : VarRec × List Nat :=
  let v := startJoinedShape s.fst
  match v.lastJoinedShape, v.joinedDimen with
  | some shape, some dimen =>
    let previousJoinedOffset := ((v.shapes[shape]?).getD [])[dimen]?.getD 0
    let joined := (previousJoinedOffset + r.count[b * r.dims + dimen]?.getD 0) % 2 ^ 64
    ({ v with shapes := v.shapes.modify shape (·.set dimen joined) },
      s.snd ++ (List.range r.dims).map fun i => if i = dimen then previousJoinedOffset else 0)
  | _, _ => (v, s.snd ++ .replicate r.dims 0)

def metaBlockCount (r : MetaArrayRec α) : Nat :=
  if r.dims ≠ 0 then r.dbCount / r.dims else 1

-- The record in the reader's order of the dimensions.
def toReaderOrder (d : Deserializer α) (origShapeID : ShapeID) (r : MetaArrayRec α) :
    MetaArrayRec α :=
  if 1 < r.dims ∧ d.writerIsRowMajor ≠ d.readerIsRowMajor then
    { r with
      count := reverseDimensions r.count r.dims (metaBlockCount r)
      shape :=
        if origShapeID = .globalArray ∨ origShapeID = .joinedArray then
          r.shape.map fun shape => reverseDimensions shape r.dims 1
        else r.shape
      offsets :=
        if origShapeID = .globalArray then
          r.offsets.map fun offsets => reverseDimensions offsets r.dims (metaBlockCount r)
        else r.offsets }
  else
    r

def chooseGlobalDims (writerRank : Nat) (r : MetaArrayRec α) (v : VarRec) : VarRec :=
  { v with
    shapes     := v.shapes ++ r.shape.toList
    globalDims := if writerRank = 0 ∨ v.globalDims = none then r.shape.map fun _ => v.shapes.length
      else v.globalDims }

def installArray (d : Deserializer α) (writerRank : Nat) (origShapeID : ShapeID)
    (r : MetaArrayRec α) (v : VarRec) : MetaArrayRec α × VarRec :=
  let r := toReaderOrder d origShapeID r
  let v := chooseGlobalDims writerRank r v
  if origShapeID = .joinedArray then
    let (v, offsets) := (List.range (metaBlockCount r)).foldl (joinBlock r) (v, [])
    ({ r with offsets := some offsets }, { v with dimCount := r.dims })
  else
    (r, { v with dimCount := r.dims })

-- Where the variable is found: the step, in random access, or its offset in the rank's block.
def noteStep (d : Deserializer α) (writerRank step : Nat) (fieldOffset : Int) (v : VarRec) :
    VarRec :=
  if d.randomAccessMode then
    if v.absStepFromRel.getLast? = some step then v
    else { v with absStepFromRel := v.absStepFromRel ++ [step] }
  else
    let offsets := resizeTo 0 v.perWriterMetaFieldOffset (writerCohortSize d step)
    { v with perWriterMetaFieldOffset := offsets.set writerRank (toSize fieldOffset) }

def noteField (d : Deserializer α) (writerRank step : Nat) (fieldOffset : Int) (v : VarRec) :
    VarRec :=
  { noteStep d writerRank step fieldOffset v with
    lastTSAdded := some (if d.flattenSteps then 0 else step) }

-- What the second loop over the fields of a block has changed: the variables, and the block.
abbrev FieldState (α : Type) := List VarRec × MetadataBlock α

def installField (d : Deserializer α) (writerRank step : Nat) (s : FieldState α)
    (control : ControlStruct × Nat) : FieldState α :=
  let (c, i) := control
  if bitfieldTest s.snd.bitField i then
    let noted := noteField d writerRank step c.fieldOffset
    let field := s.snd.field c.fieldOffset
    if c.origShapeID.IsArray then
      let install := installArray d writerRank c.origShapeID field.array
      -- the record depends on what has been added up for the variable
      let array := match s.fst[c.varNum]? with
        | some v => (install (noted v)).fst
        | none   => field.array
      (s.fst.modify c.varNum fun v => (install (noted v)).snd,
        { s.snd with field := Function.update s.snd.field c.fieldOffset { field with array } })
    else
      (s.fst.modify c.varNum noted, s.snd)
  else
    s

def installMetadataBuffer (d : Deserializer α) (block : MetadataBlock α) (writerRank step : Nat) :
    Deserializer α :=
  let controls := block.control.controls.zipIdx
  let varRecs := controls.foldl (noteJoinedDimen block) d.varRecs
  let (varRecs, block) := controls.foldl (installField d writerRank step) (varRecs, block)
  if d.randomAccessMode then
    let rows := resizeTo [] d.controlArray (step + 1)
    let sized (row : List (Option (MetadataBlock α))) :=
      if row.isEmpty then .replicate (writerCohortSize d step) none else row
    { d with
      varRecs
      controlArray := rows.modify step fun row => (sized row).set writerRank block }
  else
    { d with
      varRecs
      metadataBaseAddrs :=
        (resizeTo none d.metadataBaseAddrs (writerCohortSize d step)).set writerRank block }

def installMetadataForTimestep (d : Deserializer α) (blocks : List (MetadataBlock α)) (step : Nat) :
    Deserializer α :=
  blocks.zipIdx.foldl (fun d b => installMetadataBuffer d b.fst b.snd step)
    (setupForStep d step blocks.length)

-- A file as the reader finds it: what the ranks wrote in each step, and the variables that the
-- controls speak of, which have a record each from the time their first control is built.
structure Written (α : Type) where
  steps         : List (List (MetadataBlock α))
  varRecs       : List VarRec
  derivedInputs : Nat → List (List Byte)

-- All steps that the file has when it is opened.
def install (m : Modes) (f : Written α) : Deserializer α :=
  f.steps.zipIdx.foldl (fun d s => installMetadataForTimestep d s.fst s.snd)
    { m with
      writerCohortSizes       := []
      currentWriterCohortSize := 0
      curTimestep             := 0
      controlArray            := []
      metadataBaseAddrs       := []
      varRecs                 := f.varRecs
      derivedInputs           := f.derivedInputs }

-- An entry that has not been installed is not there to be read.
def getMetadataBase (d : Deserializer α) (varNum step writerRank : Nat) :
    Outcome (Option (Field α)) :=
  if d.randomAccessMode then
    match (d.controlArray.getD step [])[writerRank]? with
    | none       => .ok none
    | some block => do return (← block.orUndefined).record varNum
  else do
    let v : VarRec ← d.varRecs[varNum]?.orUndefined
    let offset ← v.perWriterMetaFieldOffset[writerRank]?.orUndefined
    if offset = 0 then
      pure none
    else do
      let block ← (← d.metadataBaseAddrs[writerRank]?.orUndefined).orUndefined
      pure (some (block.field offset))

end BP5.Reader
