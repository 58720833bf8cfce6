import Adios2.Lib.CString

-- Parameters of operators, which are texts, and the numbers that they stand for.

namespace Helper

open Bytes CString

-- A `std::map`, in the order of its keys.
abbrev Params := List (List Byte × List Byte)

def text (s : List Byte) : String :=
  String.ofList (s.map fun b => Char.ofNat b.toNat)

def lowerCase (s : List Byte) : List Byte :=
  s.map fun c => if 65 ≤ c && c ≤ 90 then c + 32 else c

-- `StringTo<T>`, for the numbers that `inRange` holds of.
def stringToNumber (type : String) (inRange : Int → Bool) (input : List Byte) (hint : String) :
    Outcome Int :=
  match ((scanInt input).map Prod.fst).filter inRange with
  | some n => pure n
  | none   =>
    .error (.thrown "Helper" "adiosString" "StringTo"
      ("could not cast " ++ text input ++ " to " ++ type ++ " " ++ hint))

-- `std::stoi`
def stringToInt32 (input : List Byte) (hint : String) : Outcome Int :=
  stringToNumber "int32_t" (fun n => -2 ^ 31 ≤ n && n < 2 ^ 31) input hint

-- `std::stoul` has 64 bits and takes a number with a sign as well.
def stringToUInt32 (input : List Byte) (hint : String) : Outcome Nat := do
  let n ← stringToNumber "uint32_t" (·.natAbs < 2 ^ 64) input hint
  pure (n % 2 ^ 32).toNat

def stringToUInt64 (input : List Byte) (hint : String) : Outcome Nat := do
  let n ← stringToNumber "uint64_t" (·.natAbs < 2 ^ 64) input hint
  pure (n % 2 ^ 64).toNat

-- A parameter that is not there leaves the value as it is.
def setParameterValueInt (key : List Byte) (parameters : Params) (value : Int) (hint : String) :
    Outcome Int :=
  match (parameters.lookup key).or (parameters.lookup (lowerCase key)) with
  | some text => stringToInt32 text hint
  | none      => pure value

end Helper
