import Adios2.Format.BP5.MetaFields
import Adios2.Helper.Box
import Adios2.Helper.Parameters
import Adios2.Lib.Heap

-- Operators, which make other bytes of the data of a block, the frame of the bytes that they make,
-- and the ways in which a serializer and a deserializer call them. The host is little endian.

namespace Operators

open Bytes BP5 Helper

section Buffers

-- `memcpy` to a place in a buffer.
def put (buffer : List Byte) (pos : Nat) (bs : List Byte) : Outcome (List Byte) :=
  if pos + bs.length ≤ buffer.length then .ok (overwrite buffer pos bs) else .error .undefined

-- `PutParameter` of a number with `w` bytes.
def parameter (w n : Nat) : List Byte := encode .little w n

-- `GetParameter`
def getParameter (w : Nat) (buffer : List Byte) (pos : Nat) : Outcome Nat :=
  (readUInt .little w buffer pos).orUndefined

def slice (buffer : List Byte) (pos n : Nat) : Outcome (List Byte) :=
  (readBytes buffer pos n).orUndefined

end Buffers

def getTotalSize (dimensions : Dims) (elementSize : Nat) : Nat :=
  dimensions.foldl (fun n c => n * c % 2 ^ 64) elementSize

-- `sizeIn` of a block.
def blockSize (blockCount : Dims) (type : DataType) : Nat :=
  getTotalSize blockCount (getDataTypeSize type)

-- `ToString` of a type, for the texts of exceptions.
def typeName : DataType → String
  | .none          => ""
  | .char          => "char"
  | .int8          => "int8_t"
  | .int16         => "int16_t"
  | .int32         => "int32_t"
  | .int64         => "int64_t"
  | .uint8         => "uint8_t"
  | .uint16        => "uint16_t"
  | .uint32        => "uint32_t"
  | .uint64        => "uint64_t"
  | .float         => "float"
  | .double        => "double"
  | .longDouble    => "long double"
  | .floatComplex  => "float complex"
  | .doubleComplex => "double complex"
  | .string        => "string"
  | .struct        => "struct"

inductive OperatorType
  | blosc
  | bzip2
  | libpressio
  | mgard
  | png
  | sirius
  | sz
  | zfp
  | mgardPlus
  | bigWhoop
  | mgardComplex
  | sz3
  | refactorMDR
  | refactorProDM
  | caesar
  | callbackSignature1
  | callbackSignature2
  | pluginInterface
  | null
  deriving DecidableEq, Repr

namespace OperatorType

def toCode : OperatorType → Nat
  | blosc              => 0
  | bzip2              => 1
  | libpressio         => 2
  | mgard              => 3
  | png                => 4
  | sirius             => 5
  | sz                 => 6
  | zfp                => 7
  | mgardPlus          => 8
  | bigWhoop           => 9
  | mgardComplex       => 10
  | sz3                => 11
  | refactorMDR        => 41
  | refactorProDM      => 42
  | caesar             => 45
  | callbackSignature1 => 51
  | callbackSignature2 => 52
  | pluginInterface    => 53
  | null               => 127

-- The types that `OperatorTypeToString` has a name for. All other numbers stand for `null`.
def named : List OperatorType :=
  [bigWhoop, blosc, bzip2, libpressio, mgard, mgardPlus, png, sirius, sz, sz3, zfp, mgardComplex,
    refactorMDR, refactorProDM, caesar, pluginInterface]

def ofCode (n : Nat) : OperatorType := (named.find? (·.toCode = n)).getD null

end OperatorType

-- What `Operate` returns, what it leaves in the buffer, and `GetHeaderSize` after it.
structure Applied where
  size       : Nat
  buffer     : List Byte
  headerSize : Nat := 0
  deriving DecidableEq, Repr

-- The same of `InverseOperate`.
structure Inverted where
  size       : Nat
  dataOut    : List Byte
  headerSize : Nat := 0
  deriving DecidableEq, Repr

-- An object of a class that is derived from `Operator`, by the functions that it overrides.
structure Operator where
  typeEnum       : OperatorType
  operate        : Dims → DataType → (dataIn bufferOut : List Byte) → Outcome Applied
  inverseOperate : (bufferIn dataOut : List Byte) → Outcome Inverted

def makeCommonHeader (type : OperatorType) (bufferVersion : Nat) : List Byte :=
  parameter 1 type.toCode ++ parameter 1 bufferVersion ++ parameter 2 0

def getEstimatedSize (elemCount elemSize : Nat) : Nat := (elemCount * elemSize + 128) % 2 ^ 64

-- The branch of `BP5Serializer::Marshal` for a variable with an operator, with the memory that has
-- been allocated for what the operator makes. What is in front of it and behind it is not touched.
def marshal (op : Operator) (count : Dims) (type : DataType) (dataIn bufferOut : List Byte) :
    Outcome (List Byte) := do
  let applied ← op.operate count type dataIn bufferOut
  if applied.size = 0 then
    -- `CopyMemoryWithOpHeader`
    let bytes ← slice dataIn 0 (blockSize count type)
    let buffer ← put applied.buffer applied.headerSize bytes
    slice buffer 0 (applied.headerSize + blockSize count type)
  else
    slice applied.buffer 0 applied.size

-- `core::Decompress`
def decompress (makeOperator : OperatorType → Outcome Operator) (op : Option Operator)
    (bufferIn dataOut : List Byte) : Outcome (Nat × List Byte) := do
  let compressorType ← getParameter 1 bufferIn 0
  let op ← match op.filter (·.typeEnum.toCode = compressorType) with
    | some op => pure op
    | none    => makeOperator (.ofCode compressorType)
  let inverted ← op.inverseOperate bufferIn dataOut
  if inverted.size = 0 then
    let sizeOut := (bufferIn.length + (2 ^ 64 - inverted.headerSize)) % 2 ^ 64
    let bytes ← slice bufferIn inverted.headerSize sizeOut
    let dataOut ← put inverted.dataOut 0 bytes
    pure (sizeOut, dataOut)
  else
    pure (inverted.size, inverted.dataOut)

-- A block of an array with its bytes, which are no more than what fits into any address space.
structure Block where
  count : Dims
  type  : DataType
  data  : List Byte
  size  : data.length = blockSize count type
  lt    : data.length < 2 ^ 62

-- What a block has been stored as is found again, with its size, whatever was in the memory that
-- both sides work in. The reader has no operator of its own or the one of the writer.
structure Restored (makeOperator : OperatorType → Outcome Operator) (op : Operator) (b : Block)
    (stored : List Byte) : Prop where
  length : stored.length ≤ getEstimatedSize b.count.prod (getDataTypeSize b.type)
  data   : ∀ dataOut : List Byte, dataOut.length = b.data.length → ∀ reader ∈ [none, some op],
    decompress makeOperator reader stored dataOut = .ok (b.data.length, b.data)

def Restores (makeOperator : OperatorType → Outcome Operator) (op : Operator) (b : Block) : Prop :=
  ∀ bufferOut : List Byte,
    bufferOut.length = getEstimatedSize b.count.prod (getDataTypeSize b.type) →
    ∃ stored, marshal op b.count b.type b.data bufferOut = .ok stored ∧
      Restored makeOperator op b stored

end Operators
