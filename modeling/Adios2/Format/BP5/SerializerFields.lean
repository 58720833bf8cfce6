import Adios2.Format.BP5.MetaFields

-- The metadata format of a writer: how BP5Serializer adds a variable to it.

namespace BP5

open Bytes CString

-- A string without a NUL in front of its end.
structure CStr where
  chars : List Byte
  noNul : 0 ∉ chars

inductive DerivedVarType
  | statsOnly
  | expressionString
  | storeData
  deriving DecidableEq, Repr

structure VariableDerived where
  derivedType : DerivedVarType
  exprString  : CStr

-- What the serializer reads of a variable at its first Put. For a struct, `serverID` is the ID that
-- the format library gives to the format of its fields.
structure VariableBase where
  name        : CStr
  shapeID     : ShapeID
  type        : DataType
  elemSize    : Nat
  dimCount    : Nat
  operations  : List CStr
  serverID    : List Byte
  derived     : Option VariableDerived

structure WriterRec where
  name         : CStr
  fieldID      : Nat
  shape        : ShapeID
  dimCount     : Nat
  type         : DataType
  operatorType : Option CStr
  metaOffset   : Int
  minMaxOffset : Option Nat

structure FFSWriterMarshalBase where
  recCount   : Nat
  metaFields : List FMField
  recNameMap : List WriterRec

def namePrefix : ShapeID → List Byte
  | .unknown     => ascii "BPU"
  | .globalValue => ascii "BPg"
  | .globalArray => ascii "BPG"
  | .joinedArray => ascii "BPJ"
  | .localValue  => ascii "BPl"
  | .localArray  => ascii "BPL"

def underscore : Byte := 95
def dash : Byte := 45
def equalsSign : Byte := 61

def buildVarName (baseName : List Byte) (shape : ShapeID) (type : Int) (elementSize : Int) :
    Outcome (List Byte) :=
  let len := baseName.length + 2 + (namePrefix shape).length + 16
  if elementSize = 0 then
    inBuffer len (namePrefix shape ++ underscore :: baseName)
  else
    inBuffer len (snprintf len (namePrefix shape ++ underscore :: signedDecimal elementSize ++
      underscore :: signedDecimal type ++ [underscore]) ++ baseName)

def numToChar (n : Nat) : Byte :=
  (ascii "ABCDEFGHIJKLMNOPQRSTUVWXYZabcdefghijklmnopqrstuvwxyz0123456789+/").getD n 0

def base64Chars : List Byte → List Byte
  | [] => []
  | [c1] =>
    [numToChar (c1.toNat >>> 2), numToChar ((c1.toNat &&& 0x3) <<< 4), equalsSign, equalsSign]
  | [c1, c2] =>
    [numToChar (c1.toNat >>> 2),
      numToChar (((c1.toNat &&& 0x3) <<< 4) ||| ((c2.toNat &&& 0xf0) >>> 4)),
      numToChar ((c2.toNat &&& 0xf) <<< 2), equalsSign]
  | c1 :: c2 :: c3 :: rest =>
    numToChar (c1.toNat >>> 2) ::
      numToChar (((c1.toNat &&& 0x3) <<< 4) ||| ((c2.toNat &&& 0xf0) >>> 4)) ::
      numToChar (((c2.toNat &&& 0xf) <<< 2) ||| ((c3.toNat &&& 0xc0) >>> 6)) ::
      numToChar (c3.toNat &&& 0x3f) :: base64Chars rest

-- The first `len` bytes of the buffer, where `len` is an `unsigned int`, and so is `len * 4`.
def base64Encode (buffer : List Byte) (len : Nat) : Outcome (List Byte) :=
  let maxlen := len * 4 % 2 ^ 32 / 3 + 4
  inBuffer maxlen (base64Chars (buffer.take len))

def buildLongName (baseName : List Byte) (shape : ShapeID) (type : Int) (elementSize : Nat)
    (structID : Option (List Byte)) (exprStr : Option (List Byte)) : Outcome (List Byte) := do
  let structIDLen := (structID.map List.length).getD 0
  let (exprLen, expressionInsert) ←
    match exprStr with
    | some expr => do
      let exprEnc ← base64Encode (expr ++ [0]) ((expr.length + 1) % 2 ^ 32)
      let exprLen := exprEnc.length
      pure (exprLen, snprintf (exprLen + 16) (dash :: decimal exprLen ++ dash :: exprEnc ++ [dash]))
    | none => pure (0, [underscore])
  let len := baseName.length + 3 + exprLen + (namePrefix shape).length + structIDLen + 16
  let ret := snprintf len (namePrefix shape ++ expressionInsert ++
    signedDecimal ((elementSize : Int).bmod (2 ^ 64)) ++ underscore :: signedDecimal type ++
    (match structID with
      | some id => underscore :: id
      | none    => []))
  inBuffer len (ret ++ underscore :: baseName)

def translateADIOS2Type2FFS : DataType → Option (List Byte)
  | .none | .struct                            => none
  | .int8 | .int16 | .int32 | .int64 | .char   => some (ascii "integer")
  | .uint8 | .uint16 | .uint32 | .uint64       => some (ascii "unsigned integer")
  | .float | .double | .longDouble             => some (ascii "float")
  | .floatComplex                              => some (ascii "complex4")
  | .doubleComplex                             => some (ascii "complex8")
  | .string                                    => some (ascii "string")

def addSimpleField (fields : List FMField) (name type : List Byte) (elementSize : Int) :
    Outcome (List FMField) :=
  match fields.getLast? with
  | none => .ok (fields ++ [{ name, type, size := elementSize, offset := 0 }])
  | some prior =>
    -- a field with dimensions is really a pointer
    let priorFieldSize : Int :=
      if (strchr prior.type 91).isSome then sizeofPointer else prior.size
    if elementSize = 0 then
      .error .undefined
    else
      let offset := (prior.offset + priorFieldSize + elementSize - 1).tdiv elementSize * elementSize
      .ok (fields ++ [{ name, type, size := elementSize, offset }])

-- `strdup` of the NULL that stands for a type without a translation is not defined.
def addField (fields : List FMField) (name : List Byte) (type : DataType) (elementSize : Int) :
    Outcome (List FMField) := do
  let transType ← (translateADIOS2Type2FFS type).orUndefined
  addSimpleField fields name transType elementSize

def FFSWriterMarshalBase.init : Outcome FFSWriterMarshalBase := do
  let fields ← addSimpleField [] (ascii "BitFieldCount") (ascii "integer") 8
  let fields ← addSimpleField fields (ascii "BitField") (ascii "integer[BitFieldCount]") 8
  let fields ← addSimpleField fields (ascii "DataBlockSize") (ascii "integer") 8
  pure { recCount := 0, metaFields := fields, recNameMap := [] }

def textStructID (serverID : List Byte) : List Byte :=
  serverID.flatMap hexByte

def minMaxSuffix (elemSize : Nat) : List Byte :=
  match elemSize with
  | 1  => ascii "MM1"
  | 2  => ascii "MM2"
  | 4  => ascii "MM4"
  | 8  => ascii "MM8"
  | 16 => ascii "MM16"
  | _  => []

-- What the reader has to know of the expression: nothing where the data is stored anyway.
def exprString (v : VariableBase) : Option CStr :=
  match v.derived with
  | some d => if d.derivedType = .storeData then none else some d.exprString
  | none   => none

def neverMinMax (v : VariableBase) : Bool :=
  match v.derived with
  | some d => d.derivedType = .expressionString
  | none   => false

-- The base fields of a _MetaArrayRec: seven words of eight bytes.
def sizeofMetaArrayRec : Nat := 56

def createWriterRec (statsLevel : Nat) (info : FFSWriterMarshalBase) (v : VariableBase) :
    Outcome FFSWriterMarshalBase := do
  let elemSize := if v.type = .string then sizeofPointer else v.elemSize
  let textID := if v.type = .struct then some (textStructID v.serverID) else none
  if v.dimCount = 0 then
    -- simple field, size and type in full field spec
    let sstName ← buildVarName v.name.chars v.shapeID 0 0
    let fields ← addField info.metaFields sstName v.type (toInt elemSize)
    pure {
      recCount   := info.recCount + 1
      metaFields := fields
      recNameMap := info.recNameMap ++ [{
        name := v.name, fieldID := info.recCount, shape := v.shapeID, dimCount := 0, type := v.type
        operatorType := none, metaOffset := (fields.getLast?.map (·.offset)).getD 0
        minMaxOffset := none }] }
  else
    let operatorType := v.operations.head?
    let longName ← buildLongName v.name.chars v.shapeID v.type.toNat elemSize textID
      ((exprString v).map (·.chars))
    let arrayTypeName := if v.operations = [] then ascii "MetaArray" else ascii "MetaArrayOp"
    let fieldSize :=
      if v.operations = [] then sizeofMetaArrayRec else sizeofMetaArrayRec + sizeofPointer
    let minMax := 0 < statsLevel ∧ neverMinMax v = false
    let fields ←
      if minMax then
        addSimpleField info.metaFields longName (arrayTypeName ++ minMaxSuffix elemSize)
          (fieldSize + sizeofPointer : Nat)
      else
        addSimpleField info.metaFields longName arrayTypeName fieldSize
    pure {
      recCount   := info.recCount + 1
      metaFields := fields
      recNameMap := info.recNameMap ++ [{
        name := v.name, fieldID := info.recCount, shape := v.shapeID, dimCount := v.dimCount
        type := v.type, operatorType
        metaOffset := (fields.getLast?.map (·.offset)).getD 0
        minMaxOffset := if minMax then some fieldSize else none }] }

-- The variables of a step, in the order of their first Put.
def createWriterRecs (statsLevel : Nat) (vars : List VariableBase) :
    Outcome FFSWriterMarshalBase := do
  let info ← FFSWriterMarshalBase.init
  vars.foldlM (createWriterRec statsLevel) info

end BP5
