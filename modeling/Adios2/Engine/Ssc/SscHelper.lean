import Adios2.Lib.Reader
import Adios2.Core.Io

-- The metadata of the SSC engine: what each rank writes of its blocks, attributes and struct
-- definitions, the buffer that is made of all ranks, and how it is taken apart.

namespace BP5

def ShapeID.toNat : ShapeID → Nat
  | .unknown     => 0
  | .globalValue => 1
  | .globalArray => 2
  | .joinedArray => 3
  | .localValue  => 4
  | .localArray  => 5

def ShapeID.ofNumber (n : Nat) : Option ShapeID :=
  [.unknown, .globalValue, .globalArray, .joinedArray, .localValue, .localArray][n]?

def DataType.ofNumber (n : Nat) : Option DataType :=
  [.none, .int8, .int16, .int32, .int64, .uint8, .uint16, .uint32, .uint64, .float, .double,
    .longDouble, .floatComplex, .doubleComplex, .string, .char, .struct][n]?

end BP5

namespace Ssc

open Bytes BP5 Core

-- What is sent of a block. The other members are those of the rank that has the block.
structure BlockInfo where
  name        : List Byte
  structDef   : List Byte
  type        : DataType
  elementSize : UInt64
  shapeId     : ShapeID
  shape       : Dims
  start       : Dims
  count       : Dims
  bufferStart : UInt64
  bufferCount : UInt64
  value       : List Byte
  deriving DecidableEq, Repr

-- The buffer of a rank: its first eight bytes are the position behind what is written, and `written`
-- is what is between.
structure Buffer where
  capacity : Nat
  written  : List Byte := []

namespace Buffer

def pos (b : Buffer) : Nat := 8 + b.written.length

def resize (b : Buffer) (size : Nat) : Buffer :=
  if size > b.capacity then { b with capacity := size * 2 } else b

-- Storing at the position.
def put (b : Buffer) (bs : List Byte) : Outcome Buffer :=
  if b.pos + bs.length ≤ b.capacity then .ok { b with written := b.written ++ bs }
  else .error .undefined

def putByte (b : Buffer) (n : Nat) : Outcome Buffer := b.put [UInt8.ofNat n]

-- Bytes behind their number, which is cast to a byte.
def putCounted (b : Buffer) (bs : List Byte) : Outcome Buffer := do
  let b ← b.putByte bs.length
  b.put bs

end Buffer

section Serialize

variable (e : Endian)

def dimsBytes (dims : Dims) : List Byte := u64s e <| dims.map UInt64.toNat

-- Only a struct has the name of its definition.
def putStructDef (output : Buffer) (b : BlockInfo) : Outcome Buffer :=
  if b.type = .struct then output.putCounted b.structDef else pure output

-- A round of `SerializeVariables`
def serializeVariable (rank : Nat) (output : Buffer) (b : BlockInfo) : Outcome Buffer := do
  let output := output.resize (output.pos + 1024)
  let output ← output.putByte b.shapeId.toNat
  let output ← output.put <| encode e 4 rank
  let output ← output.putCounted b.name
  let output ← output.putByte b.type.toNat
  let output ← putStructDef output b
  let output ← output.put <| u64 e b.elementSize.toNat
  let output ← output.putByte b.shape.length
  let output ← output.put <| dimsBytes e b.shape
  let output ← output.put <| dimsBytes e b.start
  let output ← output.put <| dimsBytes e b.count
  let output ← output.put <| u64 e b.bufferStart.toNat
  let output ← output.put <| u64 e b.bufferCount.toNat
  output.putCounted b.value

-- What is sent of the value of an attribute. `m_DataSingleValue` of an array of strings is empty.
def attributeData (type : DataType) : AttributeValue → List Byte
  | .single value => value
  | .array values => if type = .string then [] else values.flatten

-- A round of `SerializeAttributes`
def serializeAttribute (output : Buffer) (a : Attribute) : Outcome Buffer := do
  let output := output.resize (output.pos + 1024)
  let output ← output.putByte 66
  let output ← output.putByte a.type.toNat
  let output ← output.putCounted a.name
  let output ← output.put <| u64 e (attributeData a.type a.value).length
  output.put <| attributeData a.type a.value

def serializeField (output : Buffer) (f : StructFieldDefinition) : Outcome Buffer := do
  let output ← output.putCounted f.name
  let output ← output.put <| u64 e f.offset
  let output ← output.put <| encode e 4 f.type.toNat
  output.put <| u64 e f.elementCount

def serializeStructDefinition (output : Buffer) (d : StructDefinition) : Outcome Buffer := do
  let output := output.resize (output.pos + 1024)
  let output ← output.putCounted d.name
  let output ← output.put <| u64 e d.structSize
  let output ← output.putByte d.definition.length
  d.definition.foldlM (serializeField e) output

-- The first two bytes are stored before the buffer grows.
def serializeStructDefinitions (definitions : List StructDefinition) (output : Buffer) :
    Outcome Buffer :=
  if definitions = [] then
    pure output
  else do
    let output ← output.putByte 65
    let output ← output.putByte definitions.length
    definitions.foldlM (serializeStructDefinition e) output

-- What a rank has when it gets to `SyncWritePattern`
structure RankMetadata where
  structDefinitions : List StructDefinition
  attributes        : List Attribute
  streamRank        : Nat
  blocks            : List BlockInfo

namespace RankMetadata

-- Rank 0 writes its struct definitions, the last one its attributes.
def writtenDefinitions (r : RankMetadata) (writerRank : Nat) : List StructDefinition :=
  if writerRank = 0 then r.structDefinitions else []

def writtenAttributes (r : RankMetadata) (writerRank writerSize : Nat) : List Attribute :=
  if writerRank = writerSize - 1 then r.attributes else []

end RankMetadata

def serializeRank (capacity writerRank writerSize : Nat) (r : RankMetadata) : Outcome Buffer := do
  let output ← serializeStructDefinitions e (r.writtenDefinitions writerRank) { capacity }
  let output ← (r.writtenAttributes writerRank writerSize).foldlM (serializeAttribute e) output
  r.blocks.foldlM (serializeVariable e r.streamRank) output

-- `AggregateMetadata` with what arrives at all ranks. The sizes have to be of type `int`.
def aggregateMetadata (finalStep locked : Bool) (locals : List Buffer) : Outcome (List Byte) :=
  let globalSize := (locals.map fun b => b.pos - 8).sum
  if (∃ b ∈ locals, b.pos ≥ 2 ^ 31) ∨ globalSize + 10 ≥ 2 ^ 31 then
    .error .undefined
  else
    .ok <| [UInt8.ofNat finalStep.toNat, UInt8.ofNat locked.toNat] ++ u64 e globalSize ++
      locals.flatMap Buffer.written

-- `SyncWritePattern`, with the capacity that the buffers of the ranks begin with.
def syncWritePattern (capacity : Nat) (finalStep locked : Bool) (ranks : List RankMetadata) :
    Outcome (List Byte) := do
  let locals ← ranks.zipIdx.mapM fun (r, writerRank) =>
    serializeRank e capacity writerRank ranks.length r
  aggregateMetadata e finalStep locked locals

-- `ssc::Buffer localBuffer(8)`
def localBufferCapacity : Nat := 8

end Serialize

section Deserialize

variable (e : Endian) (input : List Byte)

namespace Reader

def byte : Reader Nat := fun pos => do
  let n ← readUInt e 1 input pos
  return (n, pos + 1)

def int : Reader Nat := fun pos => do
  let n ← readUInt e 4 input pos
  return (n, pos + 4)

def counted : Reader (List Byte) := do
  let n ← byte e input
  Bytes.Reader.bytes input n

def uint64 : Reader UInt64 := do
  let n ← Bytes.Reader.number e input
  return UInt64.ofNat n

def dims (n : Nat) : Reader Dims := Bytes.Reader.many (uint64 e input) n

-- The numbers that are read are those of enumerators, unless the place in the buffer is lost.
def enumerator {α : Type} (ofNat : Nat → Option α) (r : Reader Nat) : Reader α := do
  let n ← r
  StateT.lift (ofNat n)

end Reader

def readStructDef (type : DataType) : Reader (List Byte) :=
  if type = .struct then Reader.counted e input else pure []

-- The part of `DeserializeVariable` that reads.
def readBlock (shapeId : ShapeID) : Reader BlockInfo := do
  let name ← Reader.counted e input
  let type ← Reader.enumerator DataType.ofNumber (Reader.byte e input)
  let structDef ← readStructDef e input type
  let elementSize ← Reader.uint64 e input
  let shapeSize ← Reader.byte e input
  let shape ← Reader.dims e input shapeSize
  let start ← Reader.dims e input shapeSize
  let count ← Reader.dims e input shapeSize
  let bufferStart ← Reader.uint64 e input
  let bufferCount ← Reader.uint64 e input
  let value ← Reader.counted e input
  return { name, structDef, type, elementSize, shapeId, shape, start, count, bufferStart,
           bufferCount, value }

-- The part that defines the variable in the IO.
def registerVariable (structDefs : List StructDefinition) (io : Io) (b : BlockInfo) :
    Outcome Io :=
  let vStart := if io.rowMajor then b.start else b.start.reverse
  let vShape := if io.rowMajor then b.shape else b.shape.reverse
  if io.inquireVariable b.name b.type then
    pure io
  else if b.type = .struct then
    if b.shapeId = .globalArray then
      if structDefs.any (·.name = b.structDef) then
        io.defineVariable "DefineStructVariable" b.name .struct vShape vStart vShape
      else
        .error <| .thrown "Engine" "SscHelper" "DeserializeVariable" <|
          "struct type " ++ text b.structDef ++ " not defined"
    else
      pure io
  else if b.type = .none then
    .error <| .thrown "Engine" "SscHelper" "DeserializeVariable" "unknown variable data type"
  else
    let define := io.defineVariable "DefineVariable" b.name b.type
    match b.shapeId with
    | .globalValue              => define [] [] []
    | .globalArray              => define vShape vStart vShape
    | .localValue               => define [localValueDim] [] []
    | .localArray               => define [] [] vShape
    | .unknown | .joinedArray   => pure io

-- What is taken from the metadata: the blocks of each rank, and what is defined in the IO.
structure Pattern where
  blocks     : List (List BlockInfo)
  io         : Io
  structDefs : List StructDefinition := []

def unknownAttributeType {α : Type} : Outcome α :=
  .error <| .thrown "Engine" "SscHelper" "DeserializeAttribute" "unknown attribute data type"

-- A value of the size of the type is a single one.
def readAttributeValue (type : DataType) (size pos : Nat) : Outcome AttributeValue :=
  if type = .none ∨ type = .struct then
    unknownAttributeType
  else if type = .string then do
    let (value, _) ← (Bytes.Reader.bytes input size).run pos |>.orUndefined
    pure <| .single value
  else if size = getDataTypeSize type then do
    let (value, _) ← (Bytes.Reader.bytes input size).run pos |>.orUndefined
    pure <| .single value
  else do
    let value := Bytes.Reader.bytes input (getDataTypeSize type)
    let (values, _) ←
      (Bytes.Reader.many value (size / getDataTypeSize type)).run pos |>.orUndefined
    pure <| .array values

-- `DeserializeAttribute`. An attribute that the IO has is skipped.
def deserializeAttribute (io : Io) (pos : Nat) : Outcome (Io × Nat) := do
  let (type, pos) ← (Reader.byte e input).run pos |>.orUndefined
  let (name, pos) ← (Reader.counted e input).run pos |>.orUndefined
  let (size, pos) ← (Bytes.Reader.number e input).run pos |>.orUndefined
  let next := (pos + size) % 2 ^ 64
  if (io.findAttribute name).isSome then
    pure (io, next)
  else
    match DataType.ofNumber type with
    | none      => unknownAttributeType
    | some type => do
      let value ← readAttributeValue input type size pos
      pure (io.defineAttribute { name, type, value }, next)

-- The fields of a definition are added one by one. They are skipped where the definition is known.
def deserializeFields : Nat → Option StructDefinition → Nat →
    Outcome (Option StructDefinition × Nat)
  | 0, d, pos         => .ok (d, pos)
  | items + 1, d, pos => do
    let (itemName, pos) ← (Reader.counted e input).run pos |>.orUndefined
    let (itemOffset, pos) ← (Bytes.Reader.number e input).run pos |>.orUndefined
    let (itemType, pos) ←
      (Reader.enumerator DataType.ofNumber (Reader.int e input)).run pos |>.orUndefined
    let (itemSize, pos) ← (Bytes.Reader.number e input).run pos |>.orUndefined
    let d ← d.mapM fun d => d.addField itemName itemOffset itemType itemSize
    deserializeFields items d pos

def deserializeStructDefinition (structDefs : List StructDefinition) (pos : Nat) :
    Outcome (List StructDefinition × Nat) := do
  let (defName, pos) ← (Reader.counted e input).run pos |>.orUndefined
  let (structSize, pos) ← (Bytes.Reader.number e input).run pos |>.orUndefined
  let (items, pos) ← (Reader.byte e input).run pos |>.orUndefined
  let d : Option StructDefinition :=
    if structDefs.any (·.name = defName) then none
    else some { name := defName, structSize, definition := [] }
  let (d, pos) ← deserializeFields e input items d pos
  pure (structDefs ++ d.toList, pos)

def deserializeStructDefinitions : Nat → List StructDefinition → Nat →
    Outcome (List StructDefinition × Nat)
  | 0, structDefs, pos        => .ok (structDefs, pos)
  | defs + 1, structDefs, pos => do
    let (structDefs, pos) ← deserializeStructDefinition e input structDefs pos
    deserializeStructDefinitions defs structDefs pos

-- A round of `Deserialize`
def deserializeRecord (p : Pattern) (pos : Nat) : Outcome (Pattern × Nat) := do
  let (shapeId, pos) ← (Reader.byte e input).run pos |>.orUndefined
  if shapeId = 65 then
    let (defs, pos) ← (Reader.byte e input).run pos |>.orUndefined
    let (structDefs, pos) ← deserializeStructDefinitions e input defs p.structDefs pos
    pure ({ p with structDefs }, pos)
  else if shapeId = 66 then
    let (io, pos) ← deserializeAttribute e input p.io pos
    pure ({ p with io }, pos)
  else
    let (rank, pos) ← (Reader.int e input).run pos |>.orUndefined
    let shapeId ← (ShapeID.ofNumber shapeId).orUndefined
    let (b, pos) ← (readBlock e input shapeId).run pos |>.orUndefined
    if rank < p.blocks.length then
      let io ← registerVariable p.structDefs p.io b
      pure ({ p with blocks := p.blocks.modify rank (· ++ [b]), io }, pos)
    else
      .error .undefined

def deserializeLoop (blockSize : Nat) : Nat → Pattern → Nat → Outcome Pattern
  | 0, _, _          => .error .outOfFuel
  | fuel + 1, p, pos =>
    if pos < blockSize then do
      let (p, pos) ← deserializeRecord e input p pos
      deserializeLoop blockSize fuel p pos
    else
      .ok p

-- `Deserialize`, with registration. The size of the blocks does not count the header.
def deserialize (fuel : Nat) (p : Pattern) : Outcome Pattern := do
  let p := { p with blocks := p.blocks.map fun _ => [] }
  let (blockSize, pos) ← (Bytes.Reader.number e input).run 2 |>.orUndefined
  deserializeLoop e input blockSize fuel p pos

end Deserialize

end Ssc
