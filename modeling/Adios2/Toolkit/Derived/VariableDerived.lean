import Adios2.Toolkit.Derived.Execute

-- The blocks that are announced for a derived variable, and the extents of a result when a constant
-- takes on the extents of what it is combined with.

namespace Derived

open BP5 Helper

variable {D : Type}

-- An input with its extents in a block, but the shape of the derived variable.
def withShape (shape : Dims) (blk : String → Option Extent) : String → Option Extent :=
  fun name => (blk name).map ({ · with shape })

-- `CreateEmptyData`: the extents of the blocks, without data.
def createEmptyData (cs : ExprCodeStream D) (shape : Dims) (blks : List (String → Option Extent)) :
    Outcome (List (Dims × Dims)) :=
  blks.mapM fun blk => do
    let e ← getDims cs (withShape shape blk)
    pure (e.start, e.count)

section Broadcast

-- Operands that are constants have no extents of their own.
def firstExtent (operands : List (Option Extent)) : Extent :=
  (operands.findSome? id).getD .empty

def broadcast (operands : List (Option Extent)) : List Extent :=
  operands.map (·.getD (firstExtent operands))

def resultDims (instr : ExprInstruction) (inputDims : List Extent) : Outcome Extent :=
  if instr.op = .promote then
    (inputDims[0]?).orUndefined
  else do
    let f ← (dimsFct instr.op).orUndefined
    f inputDims

def operandDims (bufDims : List (Option Extent)) (instr : ExprInstruction) :
    Outcome (List (Option Extent)) :=
  instr.inputBufs.mapM fun bufID => (bufDims[bufID]?).orUndefined

def broadcastDims (bufDims : List (Option Extent)) (instr : ExprInstruction) : Outcome Extent := do
  let operands ← operandDims bufDims instr
  resultDims instr (broadcast operands)

def broadcastLoop (bufDims : List (Option Extent)) :
    List ExprInstruction → Outcome (List (Option Extent))
  | []              => pure bufDims
  | instr :: instrs => do
    let dims ← broadcastDims bufDims instr
    broadcastLoop (bufDims.set instr.outputBuf (some dims)) instrs

def startDims (buffers : List (BufferDescriptor D)) (nameToDims : String → Option Extent) :
    List (Option Extent) :=
  buffers.map fun buf =>
    if buf.isInput then
      some ((nameToDims buf.varName).getD .empty)
    else if buf.isConstant then
      none
    else
      some .empty

-- The operands of each instruction go together, whatever extents the constants need to have for it.
def Compatible (cs : ExprCodeStream D) (nameToDims : String → Option Extent) : Prop :=
  ∃ dims, broadcastLoop (startDims cs.buffers nameToDims) cs.instructions = .ok dims

-- What a constant is combined with has the given extents.
def ConstantsMeet (ref : Extent) : List (Option Extent) → List ExprInstruction → Prop
  | _, []                    => True
  | bufDims, instr :: instrs =>
    (∀ operands, operandDims bufDims instr = .ok operands → none ∈ operands →
      ∀ e, some e ∈ operands → e = ref) ∧
    ∀ dims, broadcastDims bufDims instr = .ok dims →
      ConstantsMeet ref (bufDims.set instr.outputBuf (some dims)) instrs

def ConstantsMeetFirst (cs : ExprCodeStream D) (nameToDims : String → Option Extent) : Prop :=
  ConstantsMeet (refDims cs.buffers nameToDims) (startDims cs.buffers nameToDims) cs.instructions

end Broadcast

end Derived
