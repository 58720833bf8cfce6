import Adios2.Lib.CString

-- The types that the field names of a metadata format speak of, and the descriptions of fields that
-- the format library hands from writer to reader.

namespace BP5

open Bytes CString

inductive ShapeID
  | unknown
  | globalValue
  | globalArray
  | joinedArray
  | localValue
  | localArray
  deriving DecidableEq, Repr

def ShapeID.IsArray : ShapeID → Prop
  | .globalArray | .joinedArray | .localArray => True
  | .unknown | .globalValue | .localValue     => False

instance : DecidablePred ShapeID.IsArray := fun s => by
  cases s <;> unfold ShapeID.IsArray <;> infer_instance

inductive DataType
  | none
  | int8
  | int16
  | int32
  | int64
  | uint8
  | uint16
  | uint32
  | uint64
  | float
  | double
  | longDouble
  | floatComplex
  | doubleComplex
  | string
  | char
  | struct
  deriving DecidableEq, Repr

namespace DataType

-- The number of an enumerator.
def toNat : DataType → Nat
  | none          => 0
  | int8          => 1
  | int16         => 2
  | int32         => 3
  | int64         => 4
  | uint8         => 5
  | uint16        => 6
  | uint32        => 7
  | uint64        => 8
  | float         => 9
  | double        => 10
  | longDouble    => 11
  | floatComplex  => 12
  | doubleComplex => 13
  | string        => 14
  | char          => 15
  | struct        => 16

theorem toNat_lt (t : DataType) : t.toNat < 17 := by
  cases t <;> decide

end DataType

def sizeofFloat : Nat := 4
def sizeofDouble : Nat := 8
def sizeofLongDouble : Nat := 16
def sizeofPointer : Nat := 8

def getDataTypeSize : DataType → Nat
  | .int8 | .uint8 | .char       => 1
  | .int16 | .uint16             => 2
  | .int32 | .uint32             => 4
  | .int64 | .uint64             => 8
  | .float                       => sizeofFloat
  | .double                      => sizeofDouble
  | .longDouble                  => sizeofLongDouble
  | .floatComplex                => 2 * sizeofFloat
  | .doubleComplex               => 2 * sizeofDouble
  | .none | .string | .struct    => 0

structure FMField where
  name   : List Byte
  type   : List Byte
  size   : Int
  offset : Int
  deriving DecidableEq, Repr

structure FMFormat where
  name      : List Byte
  fieldList : List FMField
  deriving DecidableEq, Repr

-- A field keeps what describes it when a format is copied to the reader's native layout; the offset
-- is up to the layout.
structure FMField.SameDescription (f g : FMField) : Prop where
  name : g.name = f.name
  type : g.type = f.type
  size : g.size = f.size

end BP5
