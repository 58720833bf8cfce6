import Adios2.Core.Io

-- The names of an IO: the definitions of variables, of derived variables and of variables that a
-- reader derives, the operations that wait for a variable, and what is removed again. What parses and
-- compiles expressions, and what makes operators, are parameters.

namespace IoDefinitions

open Bytes BP5 Core

abbrev Name := List Byte

abbrev Params := List (List Byte × List Byte)

structure Extents where
  start : Dims
  count : Dims
  shape : Dims
  deriving DecidableEq, Repr

-- `derived`: `ParseToExprNode`, `VariableNameList`, and everything from `ResolveTreeTypes` to
-- `GetDims`, which says of what type and extents the result is.
structure Expressions (E : Type) where
  parseToExprNode  : List Byte → Outcome E
  variableNameList : E → List Name
  compile          : E → List (Name × DataType) → List (Name × Extents) → Outcome (DataType × Extents)

-- `MakeOperator`, where it does not throw, and the type of an operator.
structure Operators (O : Type) where
  makeOperator    : List Byte → Params → Option O
  isDataTypeValid : O → DataType → Bool
  typeString      : O → String

inductive DerivedVarType
  | statsOnly
  | expressionString
  | storeData
  deriving DecidableEq, Repr

structure Variable (O : Type) where
  type         : DataType
  extents      : Extents
  shapeID      : ShapeID
  constantDims : Bool
  operations   : List O

structure VariableDerived (O : Type) where
  toVariable : Variable O
  expression : List Byte
  varType    : DerivedVarType
  nameToType : List (Name × DataType)

structure ReaderDerivedVariable (E O : Type) where
  expression : List Byte
  exprTree   : E
  resolved   : Option (VariableDerived O)

abbrev Map (α : Type) := Name → Option α

def Map.empty {α : Type} : Map α := fun _ => none

def Map.emplace {α : Type} (m : Map α) (name : Name) (a : α) : Map α :=
  fun n => if n = name then some a else m n

def Map.erase {α : Type} (m : Map α) (name : Name) : Map α :=
  fun n => if n = name then none else m n

structure IoMaps (E O : Type) where
  name              : String
  vars              : Map (Variable O)
  varsDerived       : Map (VariableDerived O)
  readerDerivedVars : Map (ReaderDerivedVariable E O)
  varOpsPlaceholder : Map (List (List Byte × Params))

variable {E O : Type}

def IoMaps.declared (name : String) : IoMaps E O := ⟨name, .empty, .empty, .empty, .empty⟩

-- How a call ends. An exception does not leave a function that is declared not to throw: it ends the
-- program.
inductive Completion
  | returned
  | thrown (e : Fault)
  | terminated
  deriving DecidableEq, Repr

def thrownBy {α : Type} (activity message : String) : Outcome α :=
  .error (.thrown "Core" "IO" activity message)

-- The constructor of `VariableBase`, with `InitShapeType` for constant dimensions as well.
def construct (name : Name) (type : DataType) (extents : Extents) (constantDims : Bool) :
    Outcome (Variable O) :=
  let ⟨start, count, shape⟩ := extents
  if constantDims ∧ type ≠ .string ∧ shape ≠ [] ∧ shape.count joinedDim ≠ 1 ∧ start = [] ∧
      count = [] ∧ shape ≠ [localValueDim] then
    .error (.thrown "Core" "VariableBase" "InitShapeType"
      ("isConstantShape (true) argument is invalid with empty start and count arguments in call to " ++
        "DefineVariable " ++ text name))
  else do
    let shapeID ← initShapeType name type shape start count
    let extents := if shapeID = .localValue then ⟨[0], [1], shape⟩ else extents
    pure ⟨type, extents, shapeID, constantDims, []⟩

-- `VariableBase::AddOperation`. An operator for another type is not added.
def addOperation (ops : Operators O) (v : Variable O) (operation : List Byte × Params) :
    Option (Variable O) := do
  let op ← ops.makeOperator operation.1 operation.2
  if ops.isDataTypeValid op v.type then
    let kept := match v.operations with
      | first :: _ => if ops.typeString first = "null" then [] else v.operations
      | []         => []
    some { v with operations := kept ++ [op] }
  else
    some v

-- The operations that have been waiting for the variable.
def addOperations (ops : Operators O) (v : Variable O) (operations : List (List Byte × Params)) :
    Option (Variable O) :=
  operations.foldlM (addOperation ops) v

-- `DefineVariable<T>` and `DefineStructVariable`, whose bodies are the same.
def define (ops : Operators O) (io : IoMaps E O) (activity : String) (name : Name) (type : DataType)
    (extents : Extents) (constantDims : Bool) : Completion × IoMaps E O :=
  if (io.vars name).isSome then
    (.thrown (.thrown "Core" "IO" activity
      ("variable " ++ text name ++ " already defined in IO " ++ io.name)), io)
  else
    match construct name type extents constantDims with
    | .error e => (.thrown e, io)
    | .ok v    =>
      let io' := { io with vars := io.vars.emplace name v }
      match io.varOpsPlaceholder name with
      | none            => (.returned, io')
      | some operations =>
        match addOperations ops v operations with
        | none   => (.terminated, io')
        | some v => (.returned, { io with vars := io.vars.emplace name v })

def defineVariable (ops : Operators O) (io : IoMaps E O) (name : Name) (type : DataType)
    (extents : Extents) (constantDims : Bool) : Completion × IoMaps E O :=
  define ops io "DefineVariable" name type extents constantDims

def defineStructVariable (ops : Operators O) (io : IoMaps E O) (name : Name) (extents : Extents)
    (constantDims : Bool) : Completion × IoMaps E O :=
  define ops io "DefineStructVariable" name .struct extents constantDims

def checkDerivedName (io : IoMaps E O) (name : Name) : Outcome Unit :=
  if (io.varsDerived name).isSome then
    thrownBy "DefineDerivedVariable"
      ("derived variable " ++ text name ++ " already defined in IO " ++ io.name)
  else if (io.vars name).isSome then
    thrownBy "DefineDerivedVariable" ("derived variable " ++ text name ++
      " trying to use an already defined variable name in IO " ++ io.name)
  else if (io.readerDerivedVars name).isSome then
    thrownBy "DefineDerivedVariable" ("derived variable " ++ text name ++
      " collides with a reader-derived variable in IO " ++ io.name)
  else
    .ok ()

def inputOf (io : IoMaps E O) (name varName : Name) : Outcome (Name × Variable O) :=
  match io.vars varName with
  | none   => thrownBy "DefineDerivedVariable" ("using undefine variable " ++ text varName ++
      " in defining the derived variable " ++ text name)
  | some v => .ok (varName, v)

-- What `DefineDerivedVariable` does before the variable is in its map.
def makeDerived (ex : Expressions E) (io : IoMaps E O) (name : Name) (expression : List Byte)
    (varType : DerivedVarType) : Outcome (VariableDerived O) := do
  checkDerivedName io name
  let exprTree ← ex.parseToExprNode expression
  let inputs ← (ex.variableNameList exprTree).mapM (inputOf io name)
  let nameToType := inputs.map fun input => (input.1, input.2.type)
  let nameToDims := inputs.map fun input => (input.1, input.2.extents)
  let (type, extents) ← ex.compile exprTree nameToType nameToDims
  let v ← construct name type extents false
  pure ⟨v, expression, varType, nameToType⟩

def defineDerivedVariable (ex : Expressions E) (ops : Operators O) (io : IoMaps E O) (name : Name)
    (expression : List Byte) (varType : DerivedVarType) : Completion × IoMaps E O :=
  match makeDerived ex io name expression varType with
  | .error e => (.thrown e, io)
  | .ok d    =>
    let io' := { io with varsDerived := io.varsDerived.emplace name d }
    match io.varOpsPlaceholder name with
    | none            => (.returned, io')
    | some operations =>
      if varType ≠ .storeData then
        (.thrown (.thrown "Core" "IO" "DefineDerivedVariable"
          ("Operators for derived variables can only be applied  for DerivedVarType::StoreData " ++
            "types.")), io')
      else
        match addOperations ops d.toVariable operations with
        | none   => (.terminated, io')
        | some v =>
          (.returned,
           { io with varsDerived := io.varsDerived.emplace name { d with toVariable := v } })

def defineReaderDerivedVariable (ex : Expressions E) (io : IoMaps E O) (name : Name)
    (expression : List Byte) : Completion × IoMaps E O :=
  if (io.readerDerivedVars name).isSome ∨ (io.varsDerived name).isSome ∨
      (io.vars name).isSome then
    (.thrown (.thrown "Core" "IO" "DefineReaderDerivedVariable"
      ("variable " ++ text name ++ " already defined in IO " ++ io.name)), io)
  else
    match ex.parseToExprNode expression with
    | .error e     => (.thrown e, io)
    | .ok exprTree =>
      (.returned, { io with
        readerDerivedVars := io.readerDerivedVars.emplace name ⟨expression, exprTree, none⟩ })

def readerDerivedFailed {α : Type} (name : Name) (message : String) : Outcome α :=
  thrownBy "ResolveReaderDerivedVariable" ("reader derived variable " ++ text name ++ message)

-- The inputs in the file, as long as they are there.
def fileInputs (io : IoMaps E O) (name : Name) : List Name → Outcome (Option (List (Name × Variable O)))
  | []                => .ok (some [])
  | varName :: others =>
    match io.vars varName with
    | none   => .ok none
    | some v =>
      if v.shapeID = .localArray then
        readerDerivedFailed name (" input " ++ text varName ++
          " is a local array; reader-side derived variables require global arrays")
      else do
        let rest ← fileInputs io name others
        pure (rest.map ((varName, v) :: ·))

def checkCongruent (name : Name) (inputs : List (Name × Variable O)) : Outcome Unit :=
  match inputs with
  | []         => .ok ()
  | first :: _ =>
    match inputs.find? (·.2.extents.shape ≠ first.2.extents.shape) with
    | none       => .ok ()
    | some input => readerDerivedFailed name (" requires congruent inputs, but " ++ text input.1 ++
        " and " ++ text first.1 ++ " have different shapes")

-- What `ResolveReaderDerivedVariable` makes of a variable that is not resolved. Without all of its
-- inputs it stays so.
def resolve (ex : Expressions E) (io : IoMaps E O) (name : Name) (rec : ReaderDerivedVariable E O) :
    Outcome (Option (VariableDerived O)) :=
  if (io.vars name).isSome then
    readerDerivedFailed name " collides with a variable of the same name in the opened file"
  else if ex.variableNameList rec.exprTree = [] then
    readerDerivedFailed name " must reference at least one file variable"
  else do
    match ← fileInputs io name (ex.variableNameList rec.exprTree) with
    | none        => pure none
    | some inputs =>
      checkCongruent name inputs
      let nameToType := inputs.map fun input => (input.1, input.2.type)
      let nameToDims := inputs.map fun input => (input.1, input.2.extents)
      let (type, extents) ← ex.compile rec.exprTree nameToType nameToDims
      let v ← construct name type extents false
      pure (some ⟨v, rec.expression, .statsOnly, nameToType⟩)

def resolveReaderDerivedVariable (ex : Expressions E) (io : IoMaps E O) (name : Name) :
    Completion × IoMaps E O :=
  match io.readerDerivedVars name with
  | none     => (.returned, io)
  | some rec =>
    if rec.resolved.isSome then
      (.returned, io)
    else
      match resolve ex io name rec with
      | .error e   => (.thrown e, io)
      | .ok none   => (.returned, io)
      | .ok (some d) =>
        (.returned, { io with readerDerivedVars :=
          io.readerDerivedVars.emplace name { rec with resolved := some d } })

def resetReaderDerivedResolutions (io : IoMaps E O) : IoMaps E O :=
  { io with readerDerivedVars := fun n =>
      (io.readerDerivedVars n).map fun rec => { rec with resolved := none } }

-- `AddOperation` by name, for a variable that is defined later.
def addOperationFor (io : IoMaps E O) (name : Name) (operatorType : List Byte) (parameters : Params) :
    IoMaps E O :=
  let operations := (io.varOpsPlaceholder name).getD [] ++ [(operatorType, parameters)]
  { io with varOpsPlaceholder := io.varOpsPlaceholder.emplace name operations }

inductive Call
  | defineVariable (name : Name) (type : DataType) (extents : Extents) (constantDims : Bool)
  | defineStructVariable (name : Name) (extents : Extents) (constantDims : Bool)
  | defineDerivedVariable (name : Name) (expression : List Byte) (varType : DerivedVarType)
  | defineReaderDerivedVariable (name : Name) (expression : List Byte)
  | resolveReaderDerivedVariable (name : Name)
  | resetReaderDerivedResolutions
  | addOperation (name : Name) (operatorType : List Byte) (parameters : Params)
  | removeVariable (name : Name)
  | removeDerivedVariable (name : Name)
  | removeAllVariables

def step (ex : Expressions E) (ops : Operators O) (io : IoMaps E O) : Call → Completion × IoMaps E O
  | .defineVariable name type extents constantDims =>
    defineVariable ops io name type extents constantDims
  | .defineStructVariable name extents constantDims =>
    defineStructVariable ops io name extents constantDims
  | .defineDerivedVariable name expression varType =>
    defineDerivedVariable ex ops io name expression varType
  | .defineReaderDerivedVariable name expression =>
    defineReaderDerivedVariable ex io name expression
  | .resolveReaderDerivedVariable name => resolveReaderDerivedVariable ex io name
  | .resetReaderDerivedResolutions => (.returned, resetReaderDerivedResolutions io)
  | .addOperation name operatorType parameters =>
    (.returned, addOperationFor io name operatorType parameters)
  | .removeVariable name => (.returned, { io with vars := io.vars.erase name })
  | .removeDerivedVariable name =>
    (.returned, { io with varsDerived := io.varsDerived.erase name })
  | .removeAllVariables => (.returned, { io with vars := .empty })

end IoDefinitions
