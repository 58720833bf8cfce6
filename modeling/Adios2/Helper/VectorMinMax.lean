import Mathlib.Order.Lattice
import Mathlib.Data.Int.Order.Basic
import Adios2.Helper.BlockDivision

-- `GetMinMax` of the integer types, for which some have a specialisation with vector instructions,
-- and `GetMinMaxThreads` over it.

namespace Helper

-- The platform decides whether `char` has a sign.
inductive IntegerType
  | char (signed : Bool)
  | int8
  | uint8
  | int16
  | uint16
  | int32
  | uint32
  | int64
  | uint64
  deriving DecidableEq, Repr

namespace IntegerType

def width : IntegerType → Nat
  | char _ | int8 | uint8 => 8
  | int16 | uint16        => 16
  | int32 | uint32        => 32
  | int64 | uint64        => 64

def signed : IntegerType → Bool
  | char signed                     => signed
  | int8 | int16 | int32 | int64    => true
  | uint8 | uint16 | uint32 | uint64 => false

-- `16 / sizeof(CTYPE)`
def lanes (t : IntegerType) : Nat := 16 / (t.width / 8)

end IntegerType

variable {t : IntegerType} {n : Nat}

structure Element (t : IntegerType) where
  bits : BitVec t.width
  deriving DecidableEq, Repr

namespace Element

def value (x : Element t) : ℤ := if t.signed then x.bits.toInt else x.bits.toNat

theorem value_injective : Function.Injective (value (t := t)) := by
  intro x y h
  unfold value at h
  split at h
  case isTrue => exact congrArg mk (BitVec.eq_of_toInt_eq h)
  case isFalse => exact congrArg mk (BitVec.eq_of_toNat_eq (Int.ofNat_inj.mp h))

-- The comparisons of the type
instance : LinearOrder (Element t) := LinearOrder.lift' value value_injective

theorem lt_iff (x y : Element t) : x < y ↔ x.value < y.value := Iff.rfl

end Element

section Registers

-- A register of 128 bits by its lanes. The bitwise instructions do with each lane what they do with
-- all bits.
abbrev Register (t : IntegerType) (n : Nat) := Fin n → Element t

def set1 (x : Element t) : Register t n := fun _ => x

-- A load from `values + i`
def loadu (n : Nat) (values : List (Element t)) (i : Nat) : Outcome (Register t n) :=
  if h : i + n ≤ values.length then
    .ok fun j => values.get ⟨i + j, Nat.lt_of_lt_of_le (Nat.add_lt_add_left j.isLt i) h⟩
  else
    .error .undefined

-- `_mm_and_si128`, `_mm_andnot_si128`, `_mm_or_si128` and `_mm_xor_si128`
def andSi128 (a b : Register t n) : Register t n := fun j => ⟨(a j).bits &&& (b j).bits⟩

def andnotSi128 (a b : Register t n) : Register t n := fun j => ⟨~~~(a j).bits &&& (b j).bits⟩

def orSi128 (a b : Register t n) : Register t n := fun j => ⟨(a j).bits ||| (b j).bits⟩

def xorSi128 (a b : Register t n) : Register t n := fun j => ⟨(a j).bits ^^^ (b j).bits⟩

-- `_mm_cmpgt_epi8`, `_mm_cmpgt_epi16` and `_mm_cmpgt_epi32`, which take the lanes with a sign
def cmpgtEpi (a b : Register t n) : Register t n :=
  fun j => ⟨if (b j).bits.slt (a j).bits then BitVec.allOnes t.width else 0⟩

-- `unsigned_cmpgt_epi8`, `unsigned_cmpgt_epi16` and `unsigned_cmpgt_epi32`
def unsignedCmpgtEpi (a b : Register t n) : Register t n :=
  let bias : Register t n := set1 ⟨BitVec.intMin t.width⟩
  cmpgtEpi (xorSi128 a bias) (xorSi128 b bias)

-- `vminq` and `vmaxq`, and `vminvq` and `vmaxvq` over all lanes
def vminq (a b : Register t n) : Register t n := fun j => min (a j) (b j)

def vmaxq (a b : Register t n) : Register t n := fun j => max (a j) (b j)

def vminvq (a : Register t n) : Outcome (Element t) := (List.ofFn a).min?.orUndefined

def vmaxvq (a : Register t n) : Outcome (Element t) := (List.ofFn a).max?.orUndefined

end Registers

section GetMinMax

variable (count : Nat) (values : List (Element t)) (size : Nat) (bounds : Element t × Element t)

-- The values of `i` in `for (; i < endN; i += COUNT)`
def loopStarts (endN : Nat) : List Nat := (List.range (endN / count)).map (· * count)

-- `GetMinMaxScalar(values, i, size, min, max)`
def scalarTail (i : Nat) : Outcome (Element t × Element t) :=
  if values.length < size then
    .error .undefined
  else
    .ok (getMinMaxScalar ((values.take size).drop i) bounds)

-- A turn of the loop of `ADIOS2_SSE2_MINMAX_INT`
def sse2Turn (cmpgt : Register t n → Register t n → Register t n) :
    Register t n × Register t n → Nat → Outcome (Register t n × Register t n)
  | (vmin, vmax), i => do
    let v ← loadu n values i
    let gt := cmpgt v vmax
    let vmax := orSi128 (andSi128 v gt) (andnotSi128 gt vmax)
    let lt := cmpgt vmin v
    let vmin := orSi128 (andSi128 v lt) (andnotSi128 lt vmin)
    pure (vmin, vmax)

def sse2MinMaxInt (cmpgt : Register t t.lanes → Register t t.lanes → Register t t.lanes) :
    Outcome (Element t × Element t) :=
  if size = 0 then
    .ok bounds
  else do
    let first ← (values[0]?).orUndefined
    let endN := size - size % count
    let (vmin, vmax) ← (loopStarts count endN).foldlM (sse2Turn values cmpgt)
      (set1 first, set1 first)
    match List.ofFn fun j => (vmin j, vmax j) with
    | []               => .error .undefined
    | bounds :: others => scalarTail values size (joinBounds bounds others) (endN / count * count)

-- The registers `vmin`, `vmax`, `vmin2` and `vmax2`, and a turn of `ADIOS2_NEON_MINMAX_INT`
def neonTurn : (Register t n × Register t n) × Register t n × Register t n → Nat →
    Outcome ((Register t n × Register t n) × Register t n × Register t n)
  | ((vmin, vmax), vmin2, vmax2), i => do
    let a ← loadu n values i
    let b ← loadu n values (i + count / 2)
    pure ((vminq vmin a, vmaxq vmax a), vminq vmin2 b, vmaxq vmax2 b)

def neonMinMaxInt : Outcome (Element t × Element t) :=
  if size = 0 then
    .ok bounds
  else do
    let first ← (values[0]?).orUndefined
    let endN := size - size % count
    let start : Register t t.lanes × Register t t.lanes := (set1 first, set1 first)
    let ((vmin, vmax), vmin2, vmax2) ← (loopStarts count endN).foldlM (neonTurn count values)
      (start, start)
    let min ← vminvq (vminq vmin vmin2)
    let max ← vmaxvq (vmaxq vmax vmax2)
    scalarTail values size (min, max) (endN / count * count)

end GetMinMax

inductive Platform
  | aarch64
  | x86_64
  | other
  deriving DecidableEq, Repr

-- `GetMinMax` for a type, of which the first template is the one that is not specialised.
def getMinMaxOn : Platform → (t : IntegerType) → List (Element t) → Nat → Element t × Element t →
    Outcome (Element t × Element t)
  | .aarch64, .int8,   values, size, bounds => neonMinMaxInt 32 values size bounds
  | .aarch64, .uint8,  values, size, bounds => neonMinMaxInt 32 values size bounds
  | .aarch64, .int16,  values, size, bounds => neonMinMaxInt 16 values size bounds
  | .aarch64, .uint16, values, size, bounds => neonMinMaxInt 16 values size bounds
  | .aarch64, .int32,  values, size, bounds => neonMinMaxInt 8 values size bounds
  | .aarch64, .uint32, values, size, bounds => neonMinMaxInt 8 values size bounds
  | .x86_64,  .int8,   values, size, bounds => sse2MinMaxInt 16 values size bounds cmpgtEpi
  | .x86_64,  .uint8,  values, size, bounds => sse2MinMaxInt 16 values size bounds unsignedCmpgtEpi
  | .x86_64,  .int16,  values, size, bounds => sse2MinMaxInt 8 values size bounds cmpgtEpi
  | .x86_64,  .uint16, values, size, bounds => sse2MinMaxInt 8 values size bounds unsignedCmpgtEpi
  | .x86_64,  .int32,  values, size, bounds => sse2MinMaxInt 4 values size bounds cmpgtEpi
  | .x86_64,  .uint32, values, size, bounds => sse2MinMaxInt 4 values size bounds unsignedCmpgtEpi
  | _,        _,       values, size, bounds => getMinMax false values size bounds

-- The threads each write their own bounds, which are zero before.
def getMinMaxThreadsOn (platform : Platform) (t : IntegerType) (values : List (Element t))
    (size : Nat) (bounds : Element t × Element t) (threads : Nat) :
    Outcome (Element t × Element t) :=
  if size = 0 then
    .ok bounds
  else if threads = 1 ∨ size < 1000000 then
    getMinMaxOn platform t values size bounds
  else if threads = 0 then
    .error .undefined
  else do
    let stride := size / threads
    let remainder := size % threads
    let last := stride + remainder
    let parts ← (List.range threads).mapM fun i =>
      getMinMaxOn platform t (values.drop (stride * i)) (if i = threads - 1 then last else stride)
        (⟨0⟩, ⟨0⟩)
    match parts with
    | []         => .error .undefined
    | p :: parts => pure (joinBounds p parts)

end Helper
