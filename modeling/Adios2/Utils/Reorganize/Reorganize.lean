import Adios2.Format.BP5.MetaFields
import Adios2.Helper.Box
import Adios2.Helper.Parameters
import Adios2.Lib.RowMajor

-- The utility `adios_reorganize`: its decomposition arguments, the part of each variable that a rank
-- reads and writes, and a step as all ranks write it together.

namespace Reorganize

open Bytes CString BP5 Helper

section Integers

-- What does not fit into an `int` is not defined by the language.
def int (n : Int) : Outcome Int :=
  if -2 ^ 31 ≤ n ∧ n < 2 ^ 31 then .ok n else .error .undefined

def mulInt (a b : Int) : Outcome Int := int (a * b)

def divInt (a b : Int) : Outcome Int := if b = 0 then .error .undefined else int (a.tdiv b)

def modInt (a b : Int) : Outcome Int := if b = 0 then .error .undefined else int (a.tmod b)

-- The conversion to `size_t`.
def sizeT (n : Int) : Nat := (n % 2 ^ 64).toNat

end Integers

section Arguments

def invalid {α} (message : String) : Outcome α :=
  .error (.thrown "Utils" "AdiosReorganize" "Reorganize" message)

-- `strtol`, and the checks of `errno` and of what is left behind the number. A `long` that no `int`
-- holds is cut.
def parseDecomp (arg : List Byte) (j : Nat) : Outcome Int :=
  let message := "ERROR: Invalid decomposition number in argument " ++ toString j ++ ": '" ++
    text arg ++ "'\n"
  match scanInt arg with
  | none           => if arg = [] then pure 0 else invalid message
  | some (n, rest) =>
    if -2 ^ 63 ≤ n ∧ n < 2 ^ 63 ∧ rest = [] then pure (n.bmod (2 ^ 32)) else invalid message

-- The constructor, from the number of the ranks and the arguments behind the methods. It gives the
-- values of the decomposition.
def decompValues (size : Nat) (args : List (List Byte)) : Outcome (List Int) := do
  let values ← ((args.take 6).zipIdx 7).mapM fun (arg, j) => parseDecomp arg j
  if 6 < args.length then
    invalid "Up to 6 decomposition arguments are supported"
  else do
    let prod ← values.foldlM mulInt 1
    if prod > size then
      invalid ("ERROR: The product of decomposition numbers " ++ toString prod ++
        " > number of processes " ++ toString size ++ "\n")
    else
      pure values

-- `decomp_values`, where what is not given is 1.
def processes (values : List Int) : List Int := values ++ List.replicate (10 - values.length) 1

end Arguments

-- A variable of the input in a step. Its elements fit into the address space.
structure Variable where
  shapeID     : ShapeID
  shape       : Dims
  count       : Dims
  nBlocks     : Nat
  elementSize : Nat
  sizePos     : 0 < elementSize
  shapeLt     : ∀ s ∈ shape, s < 2 ^ 64
  value       : shapeID = .globalValue → shape = []
  fits        : (if shapeID = .localArray then count else shape).prod * elementSize < 2 ^ 64

-- The number of the elements in each dimension.
def Variable.extent (v : Variable) : Dims := if v.shapeID = .localArray then v.count else v.shape

structure VarInfo where
  v         : Option Variable := none
  start     : Dims := []
  count     : Dims := []
  writesize : Nat  := 0

section Decompose

-- The position of a rank in the dimensions. The last one is not cut off.
def positions (rank : Int) : List Int → Int → Outcome (List Int)
  | [], _           => pure []
  | [_], nps        => do
    let p ← divInt rank nps
    pure [p]
  | n :: n' :: ns, nps => do
    let q ← divInt rank nps
    let p ← modInt q n
    let nps ← mulInt nps n
    let rest ← positions rank (n' :: ns) nps
    pure (p :: rest)

-- The part of a dimension at a position.
def dimension (total : Nat) (n p : Int) : Outcome (Nat × Nat) :=
  if n = 0 then
    .error .undefined
  else do
    let count := total / sizeT n
    let start := count * sizeT p % 2 ^ 64
    let last ← int (n - 1)
    if p = last then
      -- last one in the dimension may need to read more than the rest
      pure (start, (total + (2 ^ 64 - count * sizeT last % 2 ^ 64)) % 2 ^ 64)
    else
      pure (start, count)

def dimensions : Dims → List Int → List Int → Outcome (List (Nat × Nat))
  | total :: shape, n :: ns, p :: pos => do
    let box ← dimension total n p
    let rest ← dimensions shape ns pos
    pure (box :: rest)
  | _, _, _ => pure []

def product (count : Dims) : Nat := count.foldl (fun size c => size * c % 2 ^ 64) 1

-- The branch of `Decompose` for global arrays.
def decomposeArray (rank : Nat) (shape : Dims) (np : List Int) : Outcome (Dims × Dims) :=
  if np.length < shape.length then
    .error .undefined
  else do
    let ns := np.take shape.length
    let pos ← positions rank ns 1
    if ns.getLastD 0 ≤ pos.getLastD 0 then
      -- this process gets nothing to read
      pure (shape.map fun _ => 0, shape.map fun _ => 0)
    else do
      let boxes ← dimensions shape ns pos
      pure (boxes.map (·.1), boxes.map (·.2))

def decompose (rank : Nat) (vi : VarInfo) (np : List Int) : Outcome (Nat × VarInfo) :=
  match vi.v with
  | none   => pure (0, vi)
  | some v =>
    if v.shapeID = .localArray then
      pure <| if rank = 0 then (product v.count, { vi with count := v.count }) else (0, vi)
    else if v.shape = [] then
      pure (if rank = 0 then 1 else 0, vi)
    else do
      let (start, count) ← decomposeArray rank v.shape np
      pure (product count, { vi with start, count })

end Decompose

section Step

def maxReadBufferSize : Nat := 16 * 1024 * 1024 * 1024

def maxWriteBufferSize : Nat := 16 * 1024 * 1024 * 1024

-- `none` where the function returns 1.
def processVariable (rank : Nat) (np : List Int) : Option Variable → Outcome (Option VarInfo)
  | none   => pure (some {})
  | some v =>
    if v.shapeID = .globalArray ∨ v.shapeID = .globalValue
        ∨ (v.shapeID = .localArray ∧ v.nBlocks ≤ 1) then do
      let (sumCount, vi) ← decompose rank { v := some v } np
      pure (some { vi with writesize := sumCount * v.elementSize % 2 ^ 64 })
    else
      pure none

def processVariables (rank : Nat) (np : List Int) :
    List (Option Variable) → Outcome (Option (List VarInfo))
  | []        => pure (some [])
  | v :: vars => do
    let vi ← processVariable rank np v
    match vi with
    | none    => pure none
    | some vi => do
      let rest ← processVariables rank np vars
      pure (rest.map (vi :: ·))

-- Variables that are structs are not supported and are passed over.
def processMetadata (rank : Nat) (np : List Int) (vars : List (Option Variable))
    (attributes : Nat) : Outcome (Option (List VarInfo)) := do
  let varinfo ← processVariables rank np vars
  pure <| varinfo.filter fun varinfo =>
    let writeTotal := varinfo.foldl (fun n vi => (n + vi.writesize) % 2 ^ 64) 0
    let bufsize := (writeTotal + vars.length * 200 + attributes * 32 + 1024) % 2 ^ 64
    bufsize ≤ maxWriteBufferSize && varinfo.all (·.writesize ≤ maxReadBufferSize)

-- The region that `ReadWrite` reads and writes. There is no selection on values and local arrays.
def VarInfo.region (vi : VarInfo) : Set (List Nat) :=
  match vi.v with
  | none   => ∅
  | some v =>
    if vi.writesize = 0 then
      ∅
    else if v.shapeID = .globalArray then
      RowMajor.points vi.start vi.count
    else
      RowMajor.points (v.extent.map fun _ => 0) v.extent

def Variable.elements (v : Variable) : Set (List Nat) :=
  RowMajor.points (v.extent.map fun _ => 0) v.extent

end Step

end Reorganize
