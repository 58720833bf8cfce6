import Mathlib.Algebra.Field.Basic
import Adios2.Toolkit.Derived.Execute

-- The operators on vectors, over exact arithmetic in the place of the floating types. An operator
-- reads the elements of its operands and gives those that it writes, one behind the other.

namespace Derived

open Helper

variable {K : Type} [Field K] [DecidableEq K]

-- A number as an `int` has it.
def int32 (n : Int) : Int := n.bmod (2 ^ 32)

-- A number as a `size_t` has it.
def sizeT (n : Int) : Nat := (n % 2 ^ 64).toNat

-- `std::accumulate` from the `int` 1: the product is an `int` after each factor.
def accumulate (count : Dims) : Nat :=
  sizeT (count.foldl (fun (acc : Int) (n : Nat) => int32 (sizeT acc * n % 2 ^ 64)) 1)

def load (data : List K) (i : Nat) : Outcome K := (data[i]?).orUndefined

def noField {α : Type} (activity message : String) : Outcome α :=
  .error <| .thrown "Derived" "Function" activity message

section Aggregated

def aggregateOnLastDim (data : List K) (dataSize nVariables : Nat) (op : K → K → K) :
    Outcome (List K) :=
  (List.range dataSize).mapM fun i =>
    (List.range nVariables).foldlM
      (fun out variable' => return op out (← load data (nVariables * i + variable'))) 0

-- The last dimension has the components.
def aggregated (input : Block K) (op : K → K → K) : Outcome (List K) :=
  match input.count.getLast? with
  | none        => .error .undefined
  | some numVar => aggregateOnLastDim input.values (accumulate input.count.dropLast) numVar op

def addAggregatedFunc (input : Block K) : Outcome (List K) := aggregated input (· + ·)

def magAggregatedFunc (sqrt : K → K) (input : Block K) : Outcome (List K) := do
  let magValues ← aggregated input fun a b => a + b * b
  pure (magValues.map sqrt)

end Aggregated

section Separated

-- An element of an operand, which is the same one everywhere for a scalar.
def operandAt (input : Block K) (i : Nat) : Outcome K :=
  load input.values (if input.isScalar then 0 else i)

-- A scalar on the left is taken before one on the right, of which the elements are read.
def doAdd (lhs rhs : Block K) (n : Nat) : Outcome (List K) :=
  (List.range n).mapM fun i => do
    let l ← operandAt lhs i
    let r ← if lhs.isScalar then load rhs.values i else operandAt rhs i
    pure (l + r)

def addFunc (inputs : List (Block K)) (n : Nat) : Outcome (List K) :=
  match inputs with
  | [input]              => addAggregatedFunc input
  | lhs :: rhs :: others => do
    let out ← doAdd lhs rhs n
    others.foldlM
      (fun out input => doAdd { values := out, start := [], count := [], type := .none } input n) out
  | []                   => .error .undefined

def doMagnitude3 (sqrt : K → K) (a b c : Block K) (n : Nat) : Outcome (List K) :=
  (List.range n).mapM fun i => do
    let a ← load a.values i
    let b ← load b.values i
    let c ← load c.values i
    pure (sqrt (a * a + b * b + c * c))

def doMagnitudeN (sqrt : K → K) (inputs : List (Block K)) (n : Nat) : Outcome (List K) :=
  match inputs with
  | []              => .error .undefined
  | first :: others => (List.range n).mapM fun i => do
    let c ← load first.values i
    let sum ← others.foldlM
      (fun out input => do
        let c ← load input.values i
        pure (out + c * c)) (c * c)
    pure (sqrt sum)

def magnitudeFunc (sqrt : K → K) (inputs : List (Block K)) (n : Nat) : Outcome (List K) :=
  match inputs with
  | [input]   => magAggregatedFunc sqrt input
  | [a, b, c] =>
    if ¬a.isScalar ∧ ¬b.isScalar ∧ ¬c.isScalar then doMagnitude3 sqrt a b c n
    else doMagnitudeN sqrt inputs n
  | _         => doMagnitudeN sqrt inputs n

end Separated

section Cross

def applyCross3D (ax ay az bx by' bz : List K) (dataSize : Nat) : Outcome (List K) := do
  let points ← (List.range dataSize).mapM fun i => do
    let ax ← load ax i
    let ay ← load ay i
    let az ← load az i
    let bx ← load bx i
    let by' ← load by' i
    let bz ← load bz i
    pure [ay * bz - az * by', ax * bz - az * bx, ax * by' - ay * bx]
  pure points.flatten

def cross3DFunc (inputs : List (Block K)) : Outcome (List K) :=
  match inputs with
  | [ax, ay, az, bx, by', bz] =>
    applyCross3D ax.values ay.values az.values bx.values by'.values bz.values (accumulate ax.count)
  | _                         =>
    noField "Cross3DFunc" "Invalid number of arguments passed to Cross3DFunc"

end Cross

section Curl

def returnIndex (dims : Nat × Nat × Nat) (x y z : Nat) : Nat :=
  z + y * dims.2.2 + x * dims.2.2 * dims.2.1

-- Exact arithmetic does not divide by zero.
def divide (a : K) (n : Nat) : Outcome K :=
  if (n : K) = 0 then .error .undefined else pure (a / n)

-- The difference of an input between two points, over a distance.
def quotient (input : Nat → Outcome K) (p q distance : Nat) : Outcome K := do
  let a ← input p
  let b ← input q
  divide (a - b) distance

-- The neighbours of a point in one direction, inside of the array.
def prevOf (i : Nat) : Nat := i - 1

def nextOf (n i : Nat) : Nat := min (n - 1) (i + 1)

def curlAt (input1 input2 input3 : Nat → Outcome K) (dims loops : Nat × Nat × Nat) (i j k : Nat) :
    Outcome (List K) := do
  let (prevI, nextI) := (prevOf i, nextOf loops.1 i)
  let (prevJ, nextJ) := (prevOf j, nextOf loops.2.1 j)
  let (prevK, nextK) := (prevOf k, nextOf loops.2.2 k)
  -- curl[0] = dv3 / dy - dv2 / dz
  let a ← quotient input3 (returnIndex dims i nextJ k) (returnIndex dims i prevJ k) (nextJ - prevJ)
  let b ← quotient input2 (returnIndex dims i j prevK) (returnIndex dims i j nextK) (nextK - prevK)
  -- curl[1] = dv1 / dz - dv3 / dx
  let c ← quotient input1 (returnIndex dims i j nextK) (returnIndex dims i j prevK) (nextK - prevK)
  let d ← quotient input3 (returnIndex dims prevI j k) (returnIndex dims nextI j k) (nextI - prevI)
  -- curl[2] = dv2 / dx - dv1 / dy
  let e ← quotient input2 (returnIndex dims nextI j k) (returnIndex dims prevI j k) (nextI - prevI)
  let f ← quotient input1 (returnIndex dims i prevJ k) (returnIndex dims i nextJ k) (nextJ - prevJ)
  pure [a + b, c + d, e + f]

-- The loops run over the extents as `int`.
def applyCurl (input1 input2 input3 : Nat → Outcome K) (dims : Nat × Nat × Nat) :
    Outcome (List K) := do
  let loops := ((int32 dims.1).toNat, (int32 dims.2.1).toNat, (int32 dims.2.2).toNat)
  let planes ← (List.range loops.1).mapM fun i => do
    let rows ← (List.range loops.2.1).mapM fun j => do
      let points ← (List.range loops.2.2).mapM fun k =>
        curlAt input1 input2 input3 dims loops i j k
      pure points.flatten
    pure rows.flatten
  pure planes.flatten

-- The fourth extent is looked at only if there is another number of them.
def curl3DFunc (inputs : List (Block K)) : Outcome (List K) :=
  match inputs with
  | [input] => do
    let wrong ← if input.count.length ≠ 4 then do
        let n ← (input.count[3]?).orUndefined
        pure (decide (n ≠ 3))
      else pure false
    if wrong then
      noField "Curl3DFunc"
        "Invalid number of aggregated operands or operand dimentions for Curl"
    else match input.count with
      | n₀ :: n₁ :: n₂ :: _ =>
        let n := n₀ * n₁ * n₂
        applyCurl (load input.values) (fun i => load input.values (n + i))
          (fun i => load input.values (2 * n + i)) (n₀, n₁, n₂)
      | _                   => .error .undefined
  | [input1, input2, input3] =>
    match input1.count with
    | [n₀, n₁, n₂] =>
      applyCurl (load input1.values) (load input2.values) (load input3.values) (n₀, n₁, n₂)
    | count        =>
      noField "Curl3DFunc" ("Invalid operand dimensions for Curl, 3 expected, " ++
        toString count.length ++ " provided")
  | _ =>
    noField "Curl3DFunc" ("Invalid number of operands for Curl, 3 expected, " ++
      toString inputs.length ++ " provided")

end Curl

end Derived
