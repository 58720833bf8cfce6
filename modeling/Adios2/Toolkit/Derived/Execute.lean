import Adios2.Toolkit.Derived.ExprCodeStream

-- The extents of the results of a stream, and its execution. Intermediate results are written to the
-- slots of a pool, which grow. What an operator computes is a parameter.

namespace Derived

open BP5 Helper

variable {D V : Type} [Double D]

section Dimensions

-- Start, count and shape.
structure Extent where
  start : Dims
  count : Dims
  shape : Dims
  deriving DecidableEq, Repr

namespace Extent

def empty : Extent := { start := [], count := [], shape := [] }

-- An array of a length is made for all but the last of the numbers.
def dropLast? (dims : Dims) : Outcome Dims :=
  if dims = [] then .error (.logicError "cannot create std::vector larger than max_size()")
  else pure dims.dropLast

def dropLast (e : Extent) : Outcome Extent := do
  let start ← dropLast? e.start
  let count ← dropLast? e.count
  let shape ← dropLast? e.shape
  pure { start, count, shape }

def concat (e : Extent) (start count shape : Nat) : Extent where
  start := e.start ++ [start]
  count := e.count ++ [count]
  shape := e.shape ++ [shape]

end Extent

def invalidDims {α : Type} (activity : String) : Outcome α :=
  .error <| .thrown "Derived" "Function" activity "Invalid variable dimensions"

def noOperands {α : Type} (activity : String) : Outcome α :=
  .error <| .thrown "Derived" "Function" activity "Geting dims for expression without operands"

def sameDimsFunc : List Extent → Outcome Extent
  | []              => noOperands "SameDimsFunc"
  | first :: others =>
    if ∀ e ∈ others, e = first then pure first else invalidDims "SameDimsFunc"

def sameDimsWithAgrFunc : List Extent → Outcome Extent
  | []    => noOperands "SameDimsAgrFunc"
  | [e]   => e.dropLast
  | input => sameDimsFunc input

def cross3DDimsFunc : List Extent → Outcome Extent
  | []              => noOperands "Cross3DDims"
  | first :: others =>
    if ∀ e ∈ others, e = first then pure (first.concat 0 3 3) else invalidDims "Cross3DDimsFunc"

def curlDimsFunc : List Extent → Outcome Extent
  | []              => noOperands "CurlDims"
  | [e]             => do
    let e ← e.dropLast
    pure (e.concat 0 3 3)
  | first :: others =>
    if ∀ e ∈ others, e = first then pure (first.concat 0 3 3) else invalidDims "CurlDimsFunc"

-- The function for the extents of an operator that `OpFunctions` has.
def dimsFct : ExpressionOperator → Option (List Extent → Outcome Extent)
  | .add | .magn     => some sameDimsWithAgrFunc
  | .cross           => some cross3DDimsFunc
  | .curl            => some curlDimsFunc
  | .index | .promote => none
  | _                => some sameDimsFunc

-- The extents of the first input variable that has any.
def refDims (buffers : List (BufferDescriptor D)) (nameToDims : String → Option Extent) : Extent :=
  (buffers.findSome? fun buf => if buf.isInput then nameToDims buf.varName else none).getD .empty

def initialDims (buffers : List (BufferDescriptor D)) (nameToDims : String → Option Extent) :
    List Extent :=
  buffers.map fun buf =>
    if buf.isInput then
      (nameToDims buf.varName).getD .empty
    else if buf.isConstant then
      refDims buffers nameToDims
    else
      .empty

def instructionDims (bufDims : List Extent) (instr : ExprInstruction) : Outcome Extent := do
  let inputDims ← instr.inputBufs.mapM fun bufID => (bufDims[bufID]?).orUndefined
  if instr.op = .promote then
    (inputDims[0]?).orUndefined
  else do
    let f ← (dimsFct instr.op).orUndefined
    f inputDims

def dimsLoop (bufDims : List Extent) : List ExprInstruction → Outcome (List Extent)
  | []              => pure bufDims
  | instr :: instrs => do
    let dims ← instructionDims bufDims instr
    dimsLoop (bufDims.set instr.outputBuf dims) instrs

def getDims (cs : ExprCodeStream D) (nameToDims : String → Option Extent) : Outcome Extent := do
  let bufDims ← dimsLoop (initialDims cs.buffers nameToDims) cs.instructions
  (bufDims[cs.outputBufID]?).orUndefined

end Dimensions

section Data

-- The elements of a block, with its extents. A scalar has one element, for all places.
structure Block (V : Type) where
  values   : List V
  start    : Dims
  count    : Dims
  type     : DataType
  isScalar : Bool := false

-- What the operators and the trimming of a result compute, and how a constant becomes an element.
structure Kernels (D V : Type) where
  compute : ExpressionOperator → List (Block V) → DataType → Nat → Outcome (List V)
  ndCopy  : Block V → Dims → Dims → Outcome (List V)
  scalar  : TypedConstant D → DataType → V

def mul64 (a b : Nat) : Nat := a * b % 2 ^ 64

def sizeOf (count : Dims) : Nat := count.foldl mul64 1

-- The types that `ElementSize` knows, which are not complex.
def elementSize : DataType → Nat
  | .floatComplex | .doubleComplex => 0
  | type                           => getDataTypeSize type

-- Memory of the process: the bytes of a piece that was allocated, and the elements written to it.
structure Piece (V : Type) where
  bytes  : Nat
  values : List V := []

-- The address 0 is the null pointer.
structure Heap (V : Type) where
  pieces : Nat → Option (Piece V) := fun _ => none
  next   : Nat                    := 1

namespace Heap

variable (h : Heap V)

def malloc (bytes : Nat) : Nat × Heap V :=
  (h.next, { pieces := Function.update h.pieces h.next (some { bytes }), next := h.next + 1 })

def free (p : Nat) : Heap V :=
  { h with pieces := Function.update h.pieces p none }

-- As many elements of a type as are written have to fit in. A type without a size has none.
def store (p : Nat) (type : DataType) (values : List V) : Outcome (Heap V) :=
  if values = [] then
    pure h
  else match h.pieces p with
    | none       => .error .undefined
    | some piece =>
      if getDataTypeSize type ≠ 0 ∧ values.length * getDataTypeSize type ≤ piece.bytes then
        pure { h with pieces := Function.update h.pieces p (some { piece with values }) }
      else
        .error .undefined

def load (p n : Nat) : Outcome (List V) :=
  if n = 0 then
    pure []
  else match h.pieces p with
    | none       => .error .undefined
    | some piece => if n ≤ piece.values.length then pure (piece.values.take n) else .error .undefined

end Heap

-- Where data is: with the caller, in the buffer of a constant, or in the heap.
inductive Pointer (V : Type)
  | caller (values : List V)
  | constant (value : V)
  | heap (p : Nat)

structure DerivedData (V : Type) where
  data     : Pointer V
  start    : Dims
  count    : Dims
  type     : DataType
  isScalar : Bool := false

structure BufferSlot where
  ptr      : Nat := 0
  capacity : Nat := 0
  deriving DecidableEq, Repr

-- The memory of a run of `Execute`.
structure Memory (V : Type) where
  heap : Heap V
  pool : List BufferSlot := []

end Data

section Execute

variable (k : Kernels D V)

def poolAlloc (m : Memory V) (slot bytes : Nat) : Nat × Memory V :=
  let pool := m.pool ++ List.replicate (slot + 1 - m.pool.length) {}
  let s := pool.getD slot {}
  if s.capacity < bytes then
    let (ptr, heap) := (m.heap.free s.ptr).malloc bytes
    (ptr, { heap, pool := pool.set slot { ptr, capacity := bytes } })
  else
    (s.ptr, { m with pool })

-- The extents of a result. The operators on single elements take those of the first operand that is
-- no scalar, the others have them computed.
def outputDims (instr : ExprInstruction) (inputs : List (Dims × Dims × Bool)) :
    Outcome (Dims × Dims) :=
  let first := ((inputs.find? fun i => ¬i.2.2).map fun i => (i.1, i.2.1)).getD ([], [])
  match instr.selRule with
  | .identity             => pure first
  | .expandHalo | .reshape => do
    let f ← (dimsFct instr.op).orUndefined
    let e ← f <| inputs.map fun (start, count, isScalar) =>
      if isScalar then { start := first.1, count := first.2, shape := first.2 }
      else { start, count, shape := count }
    pure (e.start, e.count)

def unknownOperator {α : Type} : Outcome α :=
  .error <| .thrown "Derived" "ExprCodeStream" "Execute" "Unknown operator"

-- What an instruction writes. `PROMOTE` is no operator of the table, but has a function of its own.
def computeInstruction (instr : ExprInstruction) (operands : List (Block V)) (outSize : Nat) :
    Outcome (List V) :=
  if instr.op = .promote ∨ (dimsFct instr.op).isSome then
    k.compute instr.op operands instr.outputType outSize
  else
    unknownOperator

-- The elements behind a pointer. Those of the caller and of constants are not written to.
def readData (heap : Heap V) (d : DerivedData V) : Outcome (Block V) := do
  let values ← match d.data with
    | .caller values  => pure values
    | .constant value => pure [value]
    | .heap p         => heap.load p (sizeOf d.count)
  pure { values, start := d.start, count := d.count, type := d.type, isScalar := d.isScalar }

def isAt (p : Nat) (d : DerivedData V) : Bool :=
  match d.data with
  | .heap q => q = p
  | _       => false

-- Where a result goes to: to a slot of the pool, or to memory of its own.
def outputSlot (cs : ExprCodeStream D) (bufID : Nat) : Option Nat :=
  if bufID = cs.outputBufID then none else some ((cs.buffers[bufID]?).elim 0 (·.physicalSlot))

def allocate (m : Memory V) (slot : Option Nat) (bytes : Nat) : Nat × Memory V :=
  match slot with
  | none      =>
    let (ptr, heap) := m.heap.malloc bytes
    (ptr, { m with heap })
  | some slot => poolAlloc m slot bytes

variable (place : Nat → Option Nat)

-- An instruction reads its operands while it writes its result: they have to be apart.
def executeInstruction (m : Memory V) (bufData : List (Option (DerivedData V)))
    (instr : ExprInstruction) : Outcome (Memory V × List (Option (DerivedData V))) := do
  let inputs ← instr.inputBufs.mapM fun bufID => ((bufData[bufID]?).join).orUndefined
  let (start, count) ← outputDims instr (inputs.map fun d => (d.start, d.count, d.isScalar))
  let outSize := sizeOf count
  let outBytes := mul64 outSize (elementSize instr.outputType)
  let (ptr, m) := allocate m (place instr.outputBuf) outBytes
  let operands ← inputs.mapM (readData m.heap)
  let values ← computeInstruction k instr operands outSize
  if values ≠ [] ∧ inputs.any (isAt ptr) then
    .error .undefined
  else do
    let heap ← m.heap.store ptr instr.outputType values
    pure ({ m with heap },
      bufData.set instr.outputBuf (some { data := .heap ptr, start, count, type := instr.outputType }))

def executeLoop (m : Memory V) (bufData : List (Option (DerivedData V))) :
    List ExprInstruction → Outcome (Memory V × List (Option (DerivedData V)))
  | []              => pure (m, bufData)
  | instr :: instrs => do
    let (m, bufData) ← executeInstruction k place m bufData instr
    executeLoop m bufData instrs

-- The data of the inputs and the constants at the begin of a block. Constants of a type without a
-- size have no element.
def initialData (cs : ExprCodeStream D) (nameToData : String → Option (Block V)) :
    List (Option (DerivedData V)) :=
  cs.buffers.map fun buf =>
    if buf.isInput then
      (nameToData buf.varName).map fun b =>
        { data := .caller b.values, start := b.start, count := b.count, type := b.type,
          isScalar := b.isScalar }
    else if buf.isConstant then
      if elementSize buf.type = 0 then
        none
      else
        some { data := .constant (k.scalar buf.constVal buf.type), start := [], count := [],
               type := buf.type, isScalar := true }
    else
      none

-- The result of a block. Only the result of an instruction can be given up for a part of it, and a
-- constant is gone when the result is there.
def finalData (m : Memory V) (final : DerivedData V) (outputStart outputCount : Dims) :
    Outcome (Block V) := do
  let b ← readData m.heap final
  if outputCount ≠ [] ∧ b.count ≠ outputCount then
    match final.data with
    | .heap _ => do
      let values ← k.ndCopy b outputStart outputCount
      pure { values, start := outputStart, count := outputCount, type := b.type }
    | _       => .error .undefined
  else match final.data with
    | .constant _ => .error .undefined
    | _           => pure { b with isScalar := false }

def executeBlock (cs : ExprCodeStream D) (m : Memory V) (nameToData : String → Option (Block V))
    (outputStart outputCount : Dims) : Outcome (Memory V × Block V) := do
  let (m, bufData) ← executeLoop k place m (initialData k cs nameToData) cs.instructions
  let final ← ((bufData[cs.outputBufID]?).join).orUndefined
  let b ← finalData k m final outputStart outputCount
  pure (m, b)

def executeBlocks (cs : ExprCodeStream D) (outputStart outputCount : Dims) :
    List (String → Option (Block V)) → Memory V → Outcome (List (Block V))
  | [], _                 => pure []
  | nameToData :: blks, m => do
    let (m, b) ← executeBlock k place cs m nameToData outputStart outputCount
    let bs ← executeBlocks cs outputStart outputCount blks m
    pure (b :: bs)

-- `Execute`, with the data of each input in each block.
def execute (cs : ExprCodeStream D) (blks : List (String → Option (Block V)))
    (outputStart outputCount : Dims) : Outcome (List (Block V)) :=
  executeBlocks k (outputSlot cs) cs outputStart outputCount blks { heap := {} }

-- The same with memory of its own for the result of each instruction.
def executePrivately (cs : ExprCodeStream D) (blks : List (String → Option (Block V)))
    (outputStart outputCount : Dims) : Outcome (List (Block V)) :=
  executeBlocks k (fun _ => none) cs outputStart outputCount blks { heap := {} }

end Execute

end Derived
