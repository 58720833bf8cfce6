import Adios2.Helper.Box
import Mathlib.Order.Defs.LinearOrder

-- A block of an array in sub-blocks that are contiguous in memory, and the smallest and the largest
-- value of each. Complex numbers, which have functions of their own, are left out.

namespace Helper

inductive BlockDivisionMethod
  | contiguous
  | mesh
  deriving DecidableEq, Repr

-- The numbers in the lists and `nBlocks` have 16 bits.
structure BlockDivisionInfo where
  div               : List Nat
  rem               : List Nat
  reverseDivProduct : List Nat
  subBlockSize      : Nat
  nBlocks           : Nat
  divisionMethod    : BlockDivisionMethod
  deriving DecidableEq, Repr

def getTotalSize (dimensions : Dims) : Nat :=
  dimensions.foldl (fun n c => n * c % 2 ^ 64) 1

-- For each number the product of those behind it, and the product of all.
def reverseDivProducts : List Nat → List Nat × Nat
  | []     => ([], 1)
  | x :: xs =>
    let (products, d) := reverseDivProducts xs
    (d :: products, d * x % 2 ^ 16)

def calculateSubblockInfo (count : Dims) (info : BlockDivisionInfo) :
    Outcome BlockDivisionInfo := do
  let rem ← (List.range count.length).mapM fun j => do
    let c ← (count[j]?).orUndefined
    let div ← (info.div[j]?).orUndefined
    if div = 0 then .error .undefined else pure (c % div % 2 ^ 16)
  pure { info with
    rem
    nBlocks           := info.div.foldl (fun n div => n * div % 2 ^ 16) 1
    reverseDivProduct := (reverseDivProducts info.div).1 }

-- A dimension is split into as many parts as are left to make, or into all of its elements. Once
-- there is nothing left to split, the dimensions stay as they are.
def divLoop : Dims → Nat → Outcome (List Nat)
  | [], _           => pure []
  | dim :: count, n =>
    if 1 < n then
      if n < dim then do
        let div ← divLoop count 1
        pure (n :: div)
      else if dim = 0 then
        .error .undefined
      else do
        let div ← divLoop count (n / dim % 2 ^ 16)
        pure (dim % 2 ^ 16 :: div)
    else
      pure ((dim :: count).map fun _ => 1)

def divideBlock (count : Dims) (subblockSize : Nat) (divisionMethod : BlockDivisionMethod) :
    Outcome BlockDivisionInfo :=
  if divisionMethod ≠ .contiguous then
    .error <| .thrown "Helper" "adiosMath" "DivideBlock"
      "adios2::helper::DivideBlock() only works with Contiguous division method"
  else if subblockSize = 0 then
    .error .undefined
  else do
    let nElems := getTotalSize count
    let nBlocks64 := nElems / subblockSize
    let nBlocks64 := if nElems > nBlocks64 * subblockSize then nBlocks64 + 1 else nBlocks64
    -- This is an artificial limit to avoid metadata explosion.
    let nBlocks64 := if nBlocks64 > 4096 then 4096 else nBlocks64
    let info : BlockDivisionInfo := {
      div               := count.map fun _ => 1
      rem               := count.map fun _ => 0
      reverseDivProduct := count.map fun _ => 1
      subBlockSize      := subblockSize
      nBlocks           := if nBlocks64 % 2 ^ 16 = 0 then 1 else nBlocks64 % 2 ^ 16
      divisionMethod }
    if 1 < info.nBlocks then do
      let div ← divLoop count info.nBlocks
      calculateSubblockInfo count { info with div }
    else
      pure info

def getSubBlock (count : Dims) (info : BlockDivisionInfo) (blockID : Nat) : Outcome Box := do
  let dims ← (List.range count.length).mapM fun j => do
    let c ← (count[j]?).orUndefined
    let div ← (info.div[j]?).orUndefined
    let rem ← (info.rem[j]?).orUndefined
    let product ← (info.reverseDivProduct[j]?).orUndefined
    if product = 0 ∨ div = 0 then
      .error .undefined
    else
      let id := blockID / product % 2 ^ 16
      let id := if 0 < j then id % div else id
      let sbCount := c / div
      let sbStart := sbCount * id % 2 ^ 64
      pure <|
        if id < rem then
          ((sbStart + id) % 2 ^ 64, (sbCount + 1) % 2 ^ 64)
        else
          ((sbStart + rem) % 2 ^ 64, sbCount)
  pure (dims.map (·.1), dims.map (·.2))

section MinMax

variable {α : Type} [LinearOrder α]

def getMinMaxScalar (values : List α) (bounds : α × α) : α × α :=
  values.foldl
    (fun (min, max) v => (if v < min then v else min, if v > max then v else max)) bounds

-- `values` are those from the pointer on. For some types the function is specialised, and leaves the
-- bounds alone where there is no value; the others read the first value in any case.
def getMinMax (specialised : Bool) (values : List α) (size : Nat) (bounds : α × α) :
    Outcome (α × α) :=
  if specialised ∧ size = 0 then
    .ok bounds
  else
    match values with
    | []     => .error .undefined
    | v :: _ =>
      if values.length < size then
        .error .undefined
      else
        .ok (getMinMaxScalar (values.take size) (v, v))

-- The bounds of several parts together.
def joinBounds (bounds : α × α) (parts : List (α × α)) : α × α :=
  parts.foldl
    (fun (bmin, bmax) (vmin, vmax) =>
      (if vmin < bmin then vmin else bmin, if vmax > bmax then vmax else bmax)) bounds

-- The bounds of each thread are `zero` before it runs.
def getMinMaxThreads (zero : α) (specialised : Bool) (values : List α) (size : Nat)
    (bounds : α × α) (threads : Nat) : Outcome (α × α) :=
  if size = 0 then
    .ok bounds
  else if threads = 1 ∨ size < 1000000 then
    getMinMax specialised values size bounds
  else if threads = 0 then
    .error .undefined
  else do
    let stride := size / threads
    let remainder := size % threads
    let last := stride + remainder
    let parts ← (List.range threads).mapM fun t =>
      getMinMax specialised (values.drop (stride * t)) (if t = threads - 1 then last else stride)
        (zero, zero)
    match parts with
    | []          => .error .undefined
    | p :: parts => pure (joinBounds p parts)

-- The position of the sub-block in the values, and the number of those of the block.
def startPosition (start count : Dims) : Nat × Nat :=
  (start.zip count).foldr
    (fun (s, c) (pos, prod) => ((pos + s * prod) % 2 ^ 64, prod * c % 2 ^ 64)) (0, 1)

def subblockMinMax (zero : α) (specialised : Bool) (values : List α) (count : Dims)
    (info : BlockDivisionInfo) (b : Nat) : Outcome (α × α) := do
  let box ← getSubBlock count info b
  let pos := (startPosition box.1 count).1
  let nElemsSub := getTotalSize box.2
  if specialised ∧ nElemsSub = 0 then
    .error .undefined
  else
    getMinMax specialised (values.drop pos) nElemsSub (zero, zero)

-- The bounds of the sub-blocks, and of the block. A span has no values yet.
def getMinMaxSubblocks (zero : α) (specialised : Bool) (values : Option (List α)) (count : Dims)
    (info : BlockDivisionInfo) (bounds : α × α) (threads : Nat) :
    Outcome (List α × (α × α)) :=
  let nElems := getTotalSize count
  match values with
  | none        => .ok (List.replicate (2 * max 1 info.nBlocks) zero, bounds)
  | some values =>
    if info.nBlocks ≤ 1 then do
      let (bmin, bmax) ← getMinMaxThreads zero specialised values nElems bounds threads
      pure ([bmin, bmax], (bmin, bmax))
    else do
      -- Calculate min/max for each block separately
      let parts ← (List.range info.nBlocks).mapM
        (subblockMinMax zero specialised values count info)
      let minMaxs := parts.flatMap fun (vmin, vmax) => [vmin, vmax]
      match parts with
      | []         => pure (minMaxs, bounds)
      | p :: parts => pure (minMaxs, joinBounds p parts)

end MinMax

end Helper
