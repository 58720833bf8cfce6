import Adios2.Helper.Box
import Adios2.Format.BP5.MetaFields

-- Derived expressions: the tree of an expression becomes a stream of instructions on numbered
-- buffers, which is simplified and given places for its intermediate results. What the floating
-- types compute is a parameter.

namespace Derived

open BP5 Helper

inductive ExpressionOperator
  | index
  | add
  | subtract
  | negate
  | mult
  | div
  | sqrt
  | pow
  | sin
  | cos
  | tan
  | asin
  | acos
  | atan
  | magn
  | cross
  | curl
  | promote
  deriving DecidableEq, Repr

-- The tree with the types that `ResolveTreeTypes` has put on its nodes.
inductive ExprNode
  | var (varName : String) (type : DataType)
  | const (text : String) (type : DataType)
  | op (op : ExpressionOperator) (children : List ExprNode) (type : DataType)

def ExprNode.type : ExprNode → DataType
  | .var _ type | .const _ type | .op _ _ type => type

-- The type `double` of constants.
class Double (D : Type) where
  zero    : D
  -- what `>>` reads of a text
  ofText  : String → D
  intText : String → Int
  toText  : D → String
  ofInt   : Int → D
  toInt   : D → Int
  isTwo   : D → Bool
  add     : D → D → D
  sub     : D → D → D
  mul     : D → D → D
  div     : D → D → D
  pow     : D → D → D
  neg     : D → D
  sqrt    : D → D
  sin     : D → D
  cos     : D → D
  tan     : D → D
  asin    : D → D
  acos    : D → D
  atan    : D → D

structure TypedConstant (D : Type) where
  stringVal : String   := ""
  doubleVal : D
  intVal    : Int      := 0
  type      : DataType := .none
  resolved  : Bool     := false

inductive SelectionRule
  | identity
  | expandHalo
  | reshape
  deriving DecidableEq, Repr

structure ExprInstruction where
  op         : ExpressionOperator
  inputBufs  : List Nat
  outputBuf  : Nat
  outputType : DataType
  selRule    : SelectionRule := .identity
  haloSize   : Nat           := 0
  deriving DecidableEq, Repr

structure BufferDescriptor (D : Type) where
  isInput      : Bool     := false
  isConstant   : Bool     := false
  varName      : String   := ""
  constVal     : TypedConstant D
  firstUse     : Nat      := 0
  lastUse      : Nat      := 0
  physicalSlot : Nat      := 0
  type         : DataType := .none

structure ExprCodeStream (D : Type) where
  instructions  : List ExprInstruction      := []
  buffers       : List (BufferDescriptor D) := []
  outputBufID   : Nat                       := 0
  numTempSlots  : Nat                       := 0
  outputType    : DataType                  := .none
  inputVarNames : List String               := []

def IsIntegerType : DataType → Prop
  | .int8 | .int16 | .int32 | .int64 | .uint8 | .uint16 | .uint32 | .uint64 => True
  | _ => False

instance : DecidablePred IsIntegerType := fun t => by
  cases t <;> unfold IsIntegerType <;> infer_instance

variable {D : Type} [Double D]

section GenerateCode

-- `IsMixedTypeHandledInline`
def MixedTypeHandledInline (outType lhsType rhsType : DataType) : Prop :=
  lhsType = rhsType ∨
    (outType = .double ∧ (lhsType = .float ∨ rhsType = .float ∨ lhsType = .int32 ∨
      rhsType = .int32 ∨ lhsType = .int64 ∨ rhsType = .int64)) ∨
    (outType = .float ∧ (lhsType = .int32 ∨ rhsType = .int32))

instance (outType lhsType rhsType : DataType) :
    Decidable (MixedTypeHandledInline outType lhsType rhsType) := by
  unfold MixedTypeHandledInline
  infer_instance

def noConstant : TypedConstant D := { doubleVal := Double.zero }

-- `GenerateCodeContext`
structure Context (D : Type) where
  buffers       : List (BufferDescriptor D) := []
  instructions  : List ExprInstruction      := []
  varBufMap     : List (String × Nat)       := []
  inputVarNames : List String               := []

namespace Context

variable (ctx : Context D)

def addBuffer (buf : BufferDescriptor D) : Nat × Context D :=
  (ctx.buffers.length, { ctx with buffers := ctx.buffers ++ [buf] })

def addVar (varName : String) (type : DataType) : Nat × Context D :=
  match ctx.varBufMap.lookup varName with
  | some bufID => (bufID, ctx)
  | none       =>
    let (bufID, ctx) :=
      ctx.addBuffer { isInput := true, varName, type, constVal := noConstant }
    (bufID, { ctx with
      varBufMap := (varName, bufID) :: ctx.varBufMap
      inputVarNames :=
        if varName ∈ ctx.inputVarNames then ctx.inputVarNames else ctx.inputVarNames ++ [varName] })

def addConst (text : String) (type : DataType) : Nat × Context D :=
  ctx.addBuffer { isConstant := true, type, constVal := { noConstant with stringVal := text } }

-- An operand is used by an instruction.
def use (instrIdx : Nat) (buf : BufferDescriptor D) : BufferDescriptor D :=
  { buf with
    firstUse :=
      if buf.firstUse = 0 ∧ buf.lastUse = 0 ∧ instrIdx > 0 then instrIdx else buf.firstUse
    lastUse := instrIdx }

def emitPromote (childBuf : Nat) (type : DataType) : Nat × Context D :=
  let promoteIdx := ctx.instructions.length
  let promoteBufID := ctx.buffers.length
  let buffers := ctx.buffers.modify childBuf ({ · with lastUse := promoteIdx })
  (promoteBufID, { ctx with
    buffers := buffers ++
      [{ type, firstUse := promoteIdx, lastUse := promoteIdx, constVal := noConstant }]
    instructions := ctx.instructions ++ [{
      op := .promote
      inputBufs := [childBuf]
      outputBuf := promoteBufID
      outputType := type
    }] })

def emit (op : ExpressionOperator) (inputBufs : List Nat) (type : DataType) : Nat × Context D :=
  let instrIdx := ctx.instructions.length
  let outBufID := ctx.buffers.length
  let buffers := inputBufs.foldl (fun bufs bufID => bufs.modify bufID (use instrIdx)) ctx.buffers
  (outBufID, { ctx with
    buffers := buffers ++
      [{ type, firstUse := instrIdx, lastUse := instrIdx, constVal := noConstant }]
    instructions := ctx.instructions ++ [{ op, inputBufs, outputBuf := outBufID, outputType := type }]
  })

end Context

-- Whether an operand is to be promoted to the type of the node.
def NeedsPromote (nodeType childType : DataType) (arity : Nat) : Prop :=
  childType ≠ .none ∧ childType ≠ nodeType ∧
    (arity = 2 → ¬MixedTypeHandledInline nodeType childType nodeType)

instance (nodeType childType : DataType) (arity : Nat) :
    Decidable (NeedsPromote nodeType childType arity) := by
  unfold NeedsPromote
  infer_instance

mutual

def generateCodeNode : ExprNode → Context D → Nat × Context D
  | .var varName type, ctx     => ctx.addVar varName type
  | .const text type, ctx      => ctx.addConst text type
  | .op op children type, ctx  =>
    let (inputBufs, ctx) := generateChildren type children.length children ctx
    ctx.emit op inputBufs type

def generateChildren (type : DataType) (arity : Nat) :
    List ExprNode → Context D → List Nat × Context D
  | [], ctx                => ([], ctx)
  | child :: children, ctx =>
    let (childBuf, ctx) := generateCodeNode child ctx
    let (childBuf, ctx) :=
      if NeedsPromote type child.type arity then ctx.emitPromote childBuf type else (childBuf, ctx)
    let (inputBufs, ctx) := generateChildren type arity children ctx
    (childBuf :: inputBufs, ctx)

end

def generateCode (root : ExprNode) : ExprCodeStream D :=
  let (outputBufID, ctx) := generateCodeNode root {}
  { instructions  := ctx.instructions
    buffers       := ctx.buffers
    outputBufID
    outputType    := root.type
    inputVarNames := ctx.inputVarNames }

end GenerateCode

section Constants

-- The result of integers, which `int64_t` has to hold.
def int64 (n : Int) : Outcome Int :=
  if -2 ^ 63 ≤ n ∧ n < 2 ^ 63 then pure n else .error .undefined

def intBinOp : ExpressionOperator → Int → Int → Outcome Int
  | .add, a, b      => int64 (a + b)
  | .subtract, a, b => int64 (a - b)
  | .mult, a, b     => int64 (a * b)
  | .div, a, b      => if b ≠ 0 then int64 (a.tdiv b) else pure 0
  | _, a, _         => pure a

def doubleBinOp : ExpressionOperator → D → D → D
  | .add, a, b      => Double.add a b
  | .subtract, a, b => Double.sub a b
  | .mult, a, b     => Double.mul a b
  | .div, a, b      => Double.div a b
  | .pow, a, b      => Double.pow a b
  | _, a, _         => a

def doubleUnaryOp : ExpressionOperator → D → D
  | .negate, a => Double.neg a
  | .sqrt, a   => Double.sqrt a
  | .sin, a    => Double.sin a
  | .cos, a    => Double.cos a
  | .tan, a    => Double.tan a
  | .asin, a   => Double.asin a
  | .acos, a   => Double.acos a
  | .atan, a   => Double.atan a
  | _, a       => a

def TypedConstant.toDouble (c : TypedConstant D) : D :=
  if IsIntegerType c.type then Double.ofInt c.intVal else c.doubleVal

def evalConstBinOp (op : ExpressionOperator) (lhs rhs : TypedConstant D) (outType : DataType) :
    Outcome (TypedConstant D) :=
  if IsIntegerType outType then do
    let r ← intBinOp op lhs.intVal rhs.intVal
    pure {
      stringVal := Double.toText (Double.ofInt r : D)
      doubleVal := Double.ofInt r
      intVal    := r
      type      := outType
      resolved  := true
    }
  else
    let r := doubleBinOp op lhs.toDouble rhs.toDouble
    pure {
      stringVal := Double.toText r
      doubleVal := r
      intVal    := Double.toInt r
      type      := outType
      resolved  := true
    }

def evalConstUnaryOp (op : ExpressionOperator) (operand : TypedConstant D) (outType : DataType) :
    Outcome (TypedConstant D) :=
  if IsIntegerType outType ∧ op = .negate then do
    let r ← int64 (-operand.intVal)
    pure {
      stringVal := Double.toText (Double.ofInt r : D)
      doubleVal := Double.ofInt r
      intVal    := r
      type      := outType
      resolved  := true
    }
  else
    let r := doubleUnaryOp op operand.toDouble
    pure {
      stringVal := Double.toText r
      doubleVal := r
      intVal    := Double.toInt r
      type      := outType
      resolved  := true
    }

-- An operator on constants. Without operands the first one is read all the same.
def evalConst (op : ExpressionOperator) (outType : DataType) :
    List (TypedConstant D) → Outcome (TypedConstant D)
  | []       => .error .undefined
  | [c]      => evalConstUnaryOp op c outType
  | c :: cs  => cs.foldlM (fun result c => evalConstBinOp op result c outType) c

end Constants

section SemanticsPass

def selectionRuleForOp : ExpressionOperator → SelectionRule
  | .curl          => .expandHalo
  | .cross | .magn => .reshape
  | _              => .identity

-- The text of a constant becomes a number of its type.
def resolveConstant (buf : BufferDescriptor D) : BufferDescriptor D :=
  if buf.isConstant ∧ ¬buf.constVal.resolved then
    { buf with constVal :=
        if IsIntegerType buf.type then
          { buf.constVal with
            type := buf.type, intVal := Double.intText D buf.constVal.stringVal, resolved := true }
        else
          { buf.constVal with
            type := buf.type, doubleVal := Double.ofText buf.constVal.stringVal, resolved := true } }
  else
    buf

def selectRule (instr : ExprInstruction) : ExprInstruction :=
  let selRule :=
    if instr.op = .add ∧ instr.inputBufs.length = 1 then
      .reshape
    else
      selectionRuleForOp instr.op
  { instr with selRule, haloSize := if selRule = .expandHalo then 1 else instr.haloSize }

-- Whether an instruction is `x^2`, with the operand if it is.
def isSquare (buffers : List (BufferDescriptor D)) (instr : ExprInstruction) : Option Nat :=
  match instr.op, instr.inputBufs with
  | .pow, [base, exponent] =>
    match buffers[exponent]? with
    | some buf =>
      if buf.isConstant ∧ buf.constVal.resolved ∧ Double.isTwo buf.constVal.doubleVal then
        some base
      else
        none
    | none     => none
  | _, _ => none

-- The type of a buffer.
def typeOf (buffers : List (BufferDescriptor D)) (bufID : Nat) : DataType :=
  (buffers[bufID]?).elim .none (·.type)

-- Strength reduction: `x^2` becomes `x*x`.
def reduceStrength (buffers : List (BufferDescriptor D)) (instr : ExprInstruction) :
    List (BufferDescriptor D) × ExprInstruction :=
  match isSquare buffers instr with
  | some base =>
    let type := typeOf buffers base
    (buffers.modify instr.outputBuf ({ · with type }),
      { instr with op := .mult, inputBufs := [base, base], outputType := type })
  | none      => (buffers, instr)

-- An instruction on its way through the pass: what it is then, unless it is folded, and the buffers.
def semanticsInstruction (buffers : List (BufferDescriptor D)) (instr : ExprInstruction) :
    Outcome (List (BufferDescriptor D) × List ExprInstruction) := do
  let buffers := instr.inputBufs.foldl (fun bufs bufID => bufs.modify bufID resolveConstant) buffers
  let (buffers, instr) := reduceStrength buffers (selectRule instr)
  let operands ← instr.inputBufs.mapM fun bufID => (buffers[bufID]?).orUndefined
  if operands.all (·.isConstant) then do
    let result ← evalConst instr.op instr.outputType (operands.map (·.constVal))
    pure (buffers.modify instr.outputBuf
      ({ · with isConstant := true, constVal := result, type := instr.outputType }), [])
  else
    pure (buffers, [instr])

def semanticsLoop (buffers : List (BufferDescriptor D)) :
    List ExprInstruction → Outcome (List (BufferDescriptor D) × List ExprInstruction)
  | []              => pure (buffers, [])
  | instr :: instrs => do
    let (buffers, here) ← semanticsInstruction buffers instr
    let (buffers, others) ← semanticsLoop buffers instrs
    pure (buffers, here ++ others)

-- The uses of buffers by the instruction with number `j`.
def updateUses (buffers : List (BufferDescriptor D)) (instr : ExprInstruction) (j : Nat) :
    List (BufferDescriptor D) :=
  let buffers := instr.inputBufs.foldl (fun bufs bufID => bufs.modify bufID fun buf =>
    { buf with firstUse := if buf.firstUse > j then j else buf.firstUse, lastUse := j }) buffers
  buffers.modify instr.outputBuf ({ · with firstUse := j, lastUse := j })

def useRanges (buffers : List (BufferDescriptor D)) (instrs : List ExprInstruction) :
    List (BufferDescriptor D) :=
  instrs.zipIdx.foldl (fun bufs (instr, j) => updateUses bufs instr j) buffers

def Referenced (instrs : List ExprInstruction) (outputBufID bufID : Nat) : Prop :=
  bufID = outputBufID ∨ ∃ instr ∈ instrs, bufID ∈ instr.inputBufs ∨ bufID = instr.outputBuf

instance (instrs : List ExprInstruction) (outputBufID bufID : Nat) :
    Decidable (Referenced instrs outputBufID bufID) := by
  unfold Referenced
  infer_instance

-- Buffers that nothing refers to are no constants any more.
def eliminateDead (buffers : List (BufferDescriptor D)) (instrs : List ExprInstruction)
    (outputBufID : Nat) : List (BufferDescriptor D) :=
  buffers.mapIdx fun i buf =>
    if ¬Referenced instrs outputBufID i ∧ ¬buf.isInput then { buf with isConstant := false } else buf

def semanticsPass (cs : ExprCodeStream D) : Outcome (ExprCodeStream D) := do
  let (buffers, instructions) ← semanticsLoop cs.buffers cs.instructions
  let buffers := eliminateDead (useRanges buffers instructions) instructions cs.outputBufID
  pure { cs with
    instructions
    buffers
    outputType := typeOf buffers cs.outputBufID }

end SemanticsPass

section PlanBuffers

-- The places that were made so far, and which of them are free.
structure Slots where
  slotFree     : List Bool := []
  numPoolSlots : Nat       := 0

namespace Slots

variable (s : Slots)

-- The first free slot that is none of these, or a new one.
def allocSlot (inputSlots : List Nat) : Nat × Slots :=
  match (List.range s.slotFree.length).find? fun i =>
      s.slotFree[i]? = some true ∧ i ∉ inputSlots with
  | some slot => (slot, { s with slotFree := s.slotFree.set slot false })
  | none      =>
    (s.numPoolSlots,
      { slotFree := s.slotFree ++ [false], numPoolSlots := s.numPoolSlots + 1 })

def release (slot : Nat) : Slots :=
  { s with slotFree := s.slotFree.set slot true }

end Slots

def planConstants : List (BufferDescriptor D) → Slots → List (BufferDescriptor D) × Slots
  | [], s          => ([], s)
  | buf :: bufs, s =>
    if buf.isConstant then
      let (physicalSlot, s) := s.allocSlot []
      let (bufs, s) := planConstants bufs s
      ({ buf with physicalSlot } :: bufs, s)
    else
      let (bufs, s) := planConstants bufs s
      (buf :: bufs, s)

-- The operands of an instruction that are intermediate results.
def tempInputs (buffers : List (BufferDescriptor D)) (instr : ExprInstruction) :
    List (BufferDescriptor D) :=
  instr.inputBufs.filterMap fun bufID =>
    match buffers[bufID]? with
    | some buf => if ¬buf.isInput ∧ ¬buf.isConstant then some buf else none
    | none     => none

def planInstruction (buffers : List (BufferDescriptor D)) (s : Slots) (instr : ExprInstruction)
    (instrIdx : Nat) : List (BufferDescriptor D) × Slots :=
  match buffers[instr.outputBuf]? with
  | none         => (buffers, s)
  | some outDesc =>
    if outDesc.isInput ∨ outDesc.isConstant then
      (buffers, s)
    else
      let inputs := tempInputs buffers instr
      let s := inputs.foldl
        (fun s buf => if buf.lastUse = instrIdx then s.release buf.physicalSlot else s) s
      let (slot, s) := s.allocSlot (inputs.map (·.physicalSlot))
      (buffers.modify instr.outputBuf ({ · with physicalSlot := slot }), s)

def planLoop : List ExprInstruction → Nat → List (BufferDescriptor D) → Slots →
    List (BufferDescriptor D) × Slots
  | [], _, buffers, s                     => (buffers, s)
  | instr :: instrs, instrIdx, buffers, s =>
    let (buffers, s) := planInstruction buffers s instr instrIdx
    planLoop instrs (instrIdx + 1) buffers s

def planBuffers (cs : ExprCodeStream D) : ExprCodeStream D :=
  let (buffers, s) := planConstants cs.buffers {}
  let (buffers, s) := planLoop cs.instructions 0 buffers s
  { cs with buffers, numTempSlots := s.numPoolSlots }

end PlanBuffers

end Derived
