import Adios2.Format.BP5.MetaFields

-- How BP5Deserializer reads the variables out of the field names of a metadata format.

namespace BP5

open Bytes CString

-- What the reader is given by the format library: the native copy of a field list, and the format
-- that an ID stands for.
structure FFSContext where
  localize     : List FMField → List FMField
  formatFromID : List Byte → Option FMFormat

structure StructFieldDefinition where
  name         : List Byte
  offset       : Nat
  type         : DataType
  elementCount : Nat
  deriving DecidableEq, Repr

structure StructDefinition where
  name       : List Byte
  structSize : Nat
  definition : List StructFieldDefinition
  deriving DecidableEq, Repr

structure VarRec where
  varNum                   : Nat
  varName                  : List Byte
  dimCount                 : Nat
  derived                  : Bool
  -- the bytes that were written to the string
  exprStr                  : Option (List Byte)
  origShapeID              : ShapeID
  structDef                : Option StructDefinition
  operator                 : Option (List Byte)
  type                     : Int
  elementSize              : Int
  minMaxOffset             : Option Nat
  perWriterMetaFieldOffset : List Nat
  deriving DecidableEq, Repr

-- The type of an array and the element size of a known array are not set.
structure ControlStruct where
  fieldOffset : Int
  varNum      : Nat
  origShapeID : ShapeID
  type        : Option Int
  elementSize : Option Int
  deriving DecidableEq, Repr

structure ControlInfo where
  format          : FMFormat
  controls        : List ControlStruct
  metaFieldOffset : List Int
  varIndex        : List Nat
  deriving DecidableEq, Repr

-- `varRecs` are the entries of VarByName, in the order of their numbers.
structure Deserializer where
  randomAccessMode        : Bool
  currentWriterCohortSize : Nat
  varRecs                 : List VarRec
  controlBlocks           : List ControlInfo
  deriving DecidableEq, Repr

def toSize (n : Int) : Nat :=
  (n % 2 ^ 64).toNat

def nameIndicatesArray (name : List Byte) : Outcome Bool := do
  let c ← charAt name 2
  pure (c = 71 || c = 76 || c = 74)

def translateFFSType2ADIOS (type : List Byte) (size : Int) : DataType :=
  if type = ascii "integer" then
    if size = 1 then .int8
    else if size = 2 then .int16
    else if size = 4 then .int32
    else if size = 8 then .int64
    else .none
  else if type = ascii "unsigned integer" then
    if size = 1 then .uint8
    else if size = 2 then .uint16
    else if size = 4 then .uint32
    else if size = 8 then .uint64
    else .none
  else if type = ascii "double" ∨ type = ascii "float" then
    if size = sizeofFloat then .float
    else if sizeofLongDouble ≠ sizeofDouble ∧ size = sizeofLongDouble then .longDouble
    else .double
  else if type = ascii "complex4" then .floatComplex
  else if type = ascii "complex8" then .doubleComplex
  else if type = ascii "string" then .string
  else .none

-- Operator and MinMax, for a type that should start with "MetaArray".
def breakdownFieldType (fieldType : List Byte) : Outcome (Bool × Bool) := do
  if (← charAt fieldType 0) ≠ 77 then
    .error (.thrown "" "" "" "BP5 unable to parse metadata, likely old version")
  else
    let fieldType ← advance fieldType 9
    let operator := (← charAt fieldType 0) = 79
    let fieldType ← if operator then advance fieldType 2 else pure fieldType
    let minMax := (← charAt fieldType 0) = 77
    pure (operator, minMax)

-- The operators and the MinMax mark behind a '+' in a name of the first format. `plus` is a position
-- in the name; a loop that comes back to a position does not end.
def v1Suffixes (name : List Byte) : Nat → Option Nat → Bool → Bool → Outcome (Bool × Bool)
  | 0, _, _, _ => .error .outOfFuel
  | _ + 1, none, operator, minMax => .ok (operator, minMax)
  | fuel + 1, some plus, operator, minMax => do
    if (← charAt name plus) ≠ 43 then
      pure (operator, minMax)
    else
      match ← sscanfInt (name.drop (plus + 1)) with
      | some (len, _) =>
        let opStart ← (strchr (name.drop plus) 79).orUndefined
        let next : Int := name.length - opStart.length + 1 + len
        if 0 ≤ next ∧ next ≤ name.length then
          v1Suffixes name fuel (some next.toNat) true minMax
        else
          .error .undefined
      | none =>
        if (ascii "+MM").isPrefixOf (name.drop plus) then
          v1Suffixes name fuel (some (plus + 3)) operator true
        else
          v1Suffixes name fuel (some plus) operator minMax

structure ArrayName where
  baseName     : List Byte
  type         : Int
  elementSize  : Int
  operator     : Bool
  minMax       : Bool
  structFormat : Option FMFormat

def breakdownV1ArrayName (name : List Byte) (operator : Bool) : Outcome ArrayName := do
  let rest ← advance name 4
  let first ← (strchr rest 95).orUndefined
  let second ← (strchr (← advance first 1) 95).orUndefined
  let nameStart ← advance second 1
  let (elementSize, tail) ← (← sscanfInt rest).orUndefined
  let (type, _) ← (← sscanfInt (← if (← charAt tail 0) = 95 then advance tail 1
    else .error .undefined)).orUndefined
  let plus := (strchr name 43).map fun s => name.length - s.length
  let (operator, minMax) ← v1Suffixes name (name.length + 2) plus operator false
  let last ← (strrchr nameStart 95).orUndefined
  pure { baseName := nameStart.take last, type, elementSize, operator, minMax, structFormat := none }

-- The bytes of a struct ID, up to the '_' behind it. `room` is what is left of the buffer.
def structIDBytes : Nat → List Byte → Outcome (List Byte × List Byte)
  | _, []          => .error .undefined
  | room, c :: p   =>
    if c = 95 then
      .ok ([], p)
    else
      match room, p with
      | room + 1, d :: rest => do
        let byt ← sscanfHexByte (c :: d :: rest)
        let (bytes, p) ← structIDBytes room rest
        pure (UInt8.ofNat byt :: bytes, p)
      | _, _ => .error .undefined

def breakdownArrayName (ffs : FFSContext) (name : List Byte) :
    Outcome (List Byte × Int × Int × Option FMFormat) := do
  let (n, p) := strtol name
  let p ← advance p 1 -- skip '_'
  let (type, p) := strtol p
  let p ← advance p 1 -- skip '_'
  if toInt type = DataType.struct.toNat then
    let (id, p) ← structIDBytes 100 p
    pure (p, toInt type, toInt n, ffs.formatFromID id)
  else
    pure (p, toInt type, toInt n, none)

-- -1 for a character that is not of the alphabet
def charToNum (c : Byte) : Int :=
  if c = 43 then 62
  else if c = 47 then 63
  else if 48 ≤ c ∧ c ≤ 57 then c.toNat + 4
  else if c = 61 then 0
  else if 65 ≤ c ∧ c ≤ 90 then c.toNat - 65
  else if 97 ≤ c ∧ c ≤ 122 then c.toNat - 71
  else -1

-- The result and the bytes that were written to the output. Where the string ends within a group,
-- the NUL is taken for one of its characters, and is not of the alphabet.
def base64Decode : List Byte → Int × List Byte
  | [] => (0, [])
  | c1 :: c2 :: c3 :: c4 :: input =>
    if charToNum c1 = -1 ∨ charToNum c2 = -1 ∨ (c3 ≠ 61 ∧ charToNum c3 = -1) ∨
        (c4 ≠ 61 ∧ charToNum c4 = -1) then
      (-1, [])
    else
      let n1 := (charToNum c1).toNat
      let n2 := (charToNum c2).toNat
      let n3 := (charToNum c3).toNat
      let n4 := (charToNum c4).toNat
      let b1 := UInt8.ofNat ((n1 <<< 2) ||| (n2 >>> 4))
      let b2 := UInt8.ofNat (((n2 <<< 4) &&& 0xf0) ||| (n3 >>> 2))
      let b3 := UInt8.ofNat (((n3 <<< 6) &&& 0xc0) ||| n4)
      if c3 = 61 then
        (1, [b1])
      else if c4 = 61 then
        (2, [b1, b2])
      else
        let (len, output) := base64Decode input
        (if len = -1 then -1 else len + 3, b1 :: b2 :: b3 :: output)
  | _ => (-1, [])

def lookupVarByName (d : Deserializer) (name : List Byte) : Option VarRec :=
  d.varRecs.find? (·.varName = name)

def createVarRec (d : Deserializer) (name : List Byte) (origShapeID : ShapeID) (type : Int) :
    VarRec where
  varNum                   := d.varRecs.length
  varName                  := name
  dimCount                 := 0
  derived                  := false
  exprStr                  := none
  origShapeID              := origShapeID
  structDef                := none
  operator                 := none
  type                     := type
  elementSize              := 0
  minMaxOffset             := none
  perWriterMetaFieldOffset :=
    if d.randomAccessMode then [] else .replicate d.currentWriterCohortSize 0

def updateVarRec (d : Deserializer) (varNum : Nat) (f : VarRec → VarRec) : Deserializer :=
  { d with varRecs := d.varRecs.modify varNum f }

def StructDefinition.addField (d : StructDefinition) (name : List Byte) (offset : Nat)
    (type : DataType) (elementCount : Nat) : Outcome StructDefinition :=
  let thrown (message : String) : Outcome StructDefinition :=
    .error (.thrown "core" "VariableStruct::StructDefinition" "AddField" message)
  if type = .none ∨ type = .struct then
    thrown "invalid data type"
  else if d.structSize < (offset + getDataTypeSize type * elementCount) % 2 ^ 64 then
    thrown "exceeded struct size"
  else
    .ok { d with definition := d.definition ++ [{ name, offset, type, elementCount }] }

def structDefinition (structFormat : FMFormat) (elementSize : Int) : Outcome StructDefinition :=
  structFormat.fieldList.foldlM
    (fun d f =>
      match strchr f.type 91 with
      | none => d.addField f.name (toSize f.offset) (translateFFSType2ADIOS f.type f.size) 1
      | some ind => do
        let elementType := f.type.take (f.type.length - ind.length)
        let count := (strtol (← advance ind 1)).fst
        d.addField f.name (toSize f.offset) (translateFFSType2ADIOS elementType f.size)
          (toSize count))
    { name := structFormat.name, structSize := toSize elementSize, definition := [] }

def shapeIDOf (c : Byte) : ShapeID :=
  if c = 103 then .globalValue
  else if c = 71 then .globalArray
  else if c = 74 then .joinedArray
  else if c = 108 then .localValue
  else if c = 76 then .localArray
  else .unknown

-- HeaderSkip, Derived and ExprStr of a field name
def nameHeader (fieldName : List Byte) : Outcome (Int × Bool × Option (List Byte)) := do
  let c ← charAt fieldName 3
  if c = 95 then
    pure (4, false, none)
  else if c = 45 then
    let header ← advance fieldName 4
    match ← sscanfInt header with
    | some (encLen, rest) =>
      let numberLen := header.length - rest.length
      let dashed ← (strchr header 45).orUndefined
      let (_, exprStr) := base64Decode (← advance dashed 1)
      if (exprStr.length : Int) ≤ encLen + 1 then
        pure (6 + numberLen + encLen, true, some exprStr)
      else
        .error .undefined
    | none => pure (0, true, none)
  else
    pure (0, false, none)

-- Offset of MinMax in a MetaArrayRec[Operator]MM.
def minMaxOffsetof (operator : Bool) : Nat :=
  if operator then 64 else 56

-- What a loop over the fields keeps: the reader and the controls so far.
structure ControlState where
  deserializer : Deserializer
  info         : ControlInfo

-- `fields[i]`, or the fifth field from there, is an array. The number of fields that belong to it.
def buildArrayControl (ffs : FFSContext) (field : FMField) (rest : List FMField)
    (origShapeID : ShapeID) (headerSkip : Int) (derived : Bool) (exprStr : Option (List Byte))
    (d : Deserializer) : Outcome (Deserializer × ControlStruct × Nat) := do
  let v1Fields := (← charAt field.type 0) ≠ 77
  let name ←
    if v1Fields then do
      let nameField ← rest[3]?.orUndefined
      breakdownV1ArrayName nameField.name false
    else do
      let (operator, minMax) ← breakdownFieldType field.type
      let (baseName, type, elementSize, structFormat) ←
        breakdownArrayName ffs (← advance field.name headerSkip)
      pure { baseName, type, elementSize, operator, minMax, structFormat : ArrayName }
  let (d, varNum, elementSize) ←
    match lookupVarByName d name.baseName with
    | some known => pure (d, known.varNum, none)
    | none => do
      let structDef ← name.structFormat.mapM fun f => structDefinition f name.elementSize
      let new := { createVarRec d name.baseName origShapeID name.type with
        elementSize := name.elementSize, derived, exprStr, structDef
        operator := if name.operator then some (ascii "null") else none }
      pure ({ d with varRecs := d.varRecs ++ [new] }, new.varNum, some name.elementSize)
  let d := if name.minMax then
    updateVarRec d varNum fun r => { r with minMaxOffset := some (minMaxOffsetof name.operator) }
    else d
  let metaRecFields := 7 + (if name.operator then 1 else 0) + (if name.minMax then 1 else 0)
  pure (d, { fieldOffset := field.offset, varNum, origShapeID, type := none, elementSize },
    if v1Fields then metaRecFields else 1)

def buildSimpleControl (field : FMField) (origShapeID : ShapeID) (d : Deserializer) :
    Outcome (Deserializer × ControlStruct × Nat) := do
  let fieldName ← advance field.name 4
  let (d, varNum, type) :=
    match lookupVarByName d fieldName with
    | some known => (d, known.varNum, none)
    | none =>
      let type : Int := (translateFFSType2ADIOS field.type field.size).toNat
      let new := createVarRec d fieldName origShapeID type
      ({ d with varRecs := d.varRecs ++ [new] }, new.varNum, some type)
  let d := updateVarRec d varNum fun r => { r with elementSize := field.size }
  pure (d, { fieldOffset := field.offset, varNum, origShapeID, type
             elementSize := some field.size }, 1)

-- `v[i] = a` of a vector that grows to hold it
def setAt {α} (zero : α) (v : List α) (i : Nat) (a : α) : List α :=
  (v ++ .replicate (i + 1 - v.length) zero).set i a

def buildControlField (ffs : FFSContext) (field : FMField) (rest : List FMField)
    (s : ControlState) : Outcome (ControlState × Nat) := do
  let origShapeID := shapeIDOf (← charAt field.name 2)
  let (headerSkip, derived, exprStr) ← nameHeader field.name
  let (d, control, fields) ←
    if ← nameIndicatesArray field.name then
      buildArrayControl ffs field rest origShapeID headerSkip derived exprStr s.deserializer
    else
      buildSimpleControl field origShapeID s.deserializer
  let info := { s.info with
    controls        := s.info.controls ++ [control]
    metaFieldOffset := setAt 0 s.info.metaFieldOffset control.varNum control.fieldOffset
    varIndex        := setAt 0 s.info.varIndex control.varNum s.info.controls.length }
  pure ({ deserializer := d, info }, fields)

-- `skip` fields belong to the array in front of them.
def buildControlFields (ffs : FFSContext) :
    List FMField → Nat → ControlState → Outcome ControlState
  | [], 0, s                  => .ok s
  | [], _ + 1, _              => .error .undefined
  | _ :: rest, skip + 1, s    => buildControlFields ffs rest skip s
  | field :: rest, 0, s       => do
    let (s, fields) ← buildControlField ffs field rest s
    buildControlFields ffs rest (fields - 1) s

-- There has to be a field behind the bit field; the end of the list is not looked for.
def skipBitField : List FMField → Outcome (List FMField)
  | []            => .error .undefined
  | field :: rest =>
    if (ascii "BitField").isPrefixOf field.name then skipBitField rest else .ok (field :: rest)

def skipDataBlockSize (fields : List FMField) : List FMField :=
  fields.dropWhile fun field => (ascii "DataBloc").isPrefixOf field.name

def buildControl (ffs : FFSContext) (format : FMFormat) (d : Deserializer) :
    Outcome (ControlInfo × Deserializer) := do
  let fields ← skipBitField (ffs.localize format.fieldList)
  let s ← buildControlFields ffs (skipDataBlockSize fields) 0
    { deserializer := d
      info := { format, controls := [], metaFieldOffset := [], varIndex := [] } }
  pure (s.info, { s.deserializer with controlBlocks := s.info :: s.deserializer.controlBlocks })

end BP5
