import Adios2.Format.BP5.DeserializerControl

-- The definition of variables and attributes in an IO: the checks of `VariableBase` on the
-- dimensions of a variable, and the maps of an IO.

namespace Core

open Bytes BP5

abbrev Dims := List UInt64

def joinedDim : UInt64 := 2 ^ 64 - 2
def localValueDim : UInt64 := 2 ^ 64 - 3

-- A name in the text of an exception.
def text (name : List Byte) : String :=
  String.ofList <| name.map fun b => Char.ofNat b.toNat

section VariableBase

-- `VariableBase::CheckDimensionsCommon`
def checkDimensionsCommon (shapeID : ShapeID) (shape start count : Dims) (hint : String) :
    Outcome Unit :=
  let thrown (message : String) : Outcome Unit :=
    .error <| .thrown "Core" "VariableBase" "CheckDimensionsCommon" message
  if shapeID ≠ .localValue ∧
      (localValueDim ∈ shape ∨ localValueDim ∈ start ∨ localValueDim ∈ count) then
    thrown <| "LocalValueDim parameter is only allowed as \x7bLocalValueDim\x7d in Shape " ++
      "dimensions " ++ hint
  else if shape.count joinedDim > 1 ∨ joinedDim ∈ start ∨ joinedDim ∈ count then
    thrown <| "JoinedDim is only allowed once in Shape and cannot appear in start/count, " ++ hint
  else
    .ok ()

-- The first dimension in which count or start is larger than the shape.
def largerThanShape : Nat → Dims → Dims → Dims → Option String
  | i, s :: shape, o :: start, n :: count =>
    if n > s then
      some s!"count[{i}] = {n.toNat} > shape[{i}], = {s.toNat}"
    else if o > s then
      some s!"start[{i}] = {o.toNat} > shape[{i}], = {s.toNat}"
    else
      largerThanShape (i + 1) shape start count
  | _, _, _, _ => none

-- `VariableBase::InitShapeType`, for dimensions that are not constant.
def initShapeType (name : List Byte) (type : DataType) (shape start count : Dims) :
    Outcome ShapeID := do
  let thrown {α} (message : String) : Outcome α :=
    .error <| .thrown "Core" "VariableBase" "InitShapeType" message
  if type = .string then
    if shape = [] then
      if start ≠ [] ∨ count ≠ [] then
        thrown <| "GlobalValue string variable " ++ text name ++ " can't have Start and Count " ++
          "dimensions, string variables are always defined as a GlobalValue or LocalValue, " ++
          " in call to DefineVariable"
    else if shape ≠ [localValueDim] then
      thrown <| "LocalValue string variable " ++ text name ++ " Shape must be equal to " ++
        "\x7bLocalValueDim\x7d, string variables are always defined as a GlobalValue or " ++
        "LocalValue,  in call to DefineVariable"
  let (shapeID, start, count) ←
    if shape ≠ [] then
      if shape.count joinedDim = 1 then
        if start.any (· ≠ 0) then
          thrown <| "The Start array must be empty or full-zero when defining a Joined Array in " ++
            "call to DefineVariable " ++ text name
        else
          pure (ShapeID.joinedArray, start, count)
      else if start = [] ∧ count = [] then
        if shape = [localValueDim] then pure (.localValue, [0], [1])
        else pure (.globalArray, start, count)
      else if shape.length = start.length ∧ shape.length = count.length then
        match largerThanShape 0 shape start count with
        | some message => thrown <| message ++ " in DefineVariable " ++ text name
        | none         => pure (.globalArray, start, count)
      else
        thrown <| "the combination of shape, start and count arguments is inconsistent, in call " ++
          "to DefineVariable " ++ text name
    else if start = [] then
      pure (if count = [] then .globalValue else .localArray, start, count)
    else
      thrown <| "if the shape is empty, start must be empty as well, in call to DefineVariable " ++
        text name
  checkDimensionsCommon shapeID shape start count <|
    ", in call to DefineVariable(\"" ++ text name ++ "\",..."
  pure shapeID

end VariableBase

-- The value of an attribute, by the bytes of its elements.
inductive AttributeValue
  | single (value : List Byte)
  | array (values : List (List Byte))
  deriving DecidableEq, Repr

structure Attribute where
  name  : List Byte
  type  : DataType
  value : AttributeValue
  deriving DecidableEq, Repr

-- What is used of an IO: its variables with their types, and its attributes.
structure Io where
  name       : String
  rowMajor   : Bool
  vars       : List (List Byte × DataType) := []
  attributes : List Attribute              := []

namespace Io

-- `InquireVariable`, as to whether there is such a variable.
def inquireVariable (io : Io) (name : List Byte) (type : DataType) : Bool :=
  io.vars.lookup name = some type

def defineVariable (io : Io) (activity : String) (name : List Byte) (type : DataType)
    (shape start count : Dims) : Outcome Io :=
  if (io.vars.lookup name).isSome then
    .error <| .thrown "Core" "IO" activity <|
      "variable " ++ text name ++ " already defined in IO " ++ io.name
  else do
    let _ ← initShapeType name type shape start count
    pure { io with vars := io.vars ++ [(name, type)] }

def findAttribute (io : Io) (name : List Byte) : Option Attribute :=
  io.attributes.find? (·.name = name)

-- `DefineAttribute`, where there is none of that name.
def defineAttribute (io : Io) (a : Attribute) : Io :=
  { io with attributes := io.attributes ++ [a] }

end Io

end Core
