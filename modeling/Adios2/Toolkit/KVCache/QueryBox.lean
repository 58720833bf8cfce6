import Adios2.Lib.Boxes
import Adios2.Lib.CString

-- Boxes of a request and of what is in the cache, which keeps its boxes as the texts of keys. A
-- number has 64 bits.

namespace KVCache

open Bytes CString Boxes

def add64 (a b : Nat) : Nat := (a + b) % 2 ^ 64

def sub64 (a b : Nat) : Nat := (a + (2 ^ 64 - b)) % 2 ^ 64

def maxDims : Nat := 32

structure QueryBox (n : Nat) where
  start : Fin n → Nat
  count : Fin n → Nat
  deriving DecidableEq

namespace QueryBox

variable {n : Nat} (b : QueryBox n)

def zero : QueryBox n where
  start := fun _ => 0
  count := fun _ => 0

def size : Nat := volume b.count % 2 ^ 64

-- The numbers with `_` between them.
def numbers (values : Fin n → Nat) : List Byte :=
  List.intercalate [95] (List.ofFn fun i => decimal (values i))

def toString : List Byte :=
  ascii "Start_" ++ numbers b.start ++ ascii "|Count_" ++ numbers b.count ++ ascii "|"

-- The ends of a box are those of an array.
def Bounded : Prop := ∀ i, b.start i + b.count i < 2 ^ 64

instance : Decidable b.Bounded := by
  unfold Bounded
  infer_instance

def elements : Set (Fin n → Nat) := points b.start b.count

end QueryBox

section Keys

-- `std::string::find`
def find (pattern : List Byte) : List Byte → Option Nat
  | []     => if pattern = [] then some 0 else none
  | c :: s => if pattern <+: c :: s then some 0 else (find pattern s).map (· + 1)

-- The numbers that stand behind a delimiter, with a place for each in an array of 32.
def extractDimensions (key delimiter : List Byte) : Outcome (List Nat) :=
  match find delimiter key with
  | none     => .error (.logicError "Delimiter not found in key")
  | some pos =>
    match find (ascii "|") (key.drop (pos + delimiter.length)) with
    | none     => .error (.logicError "End delimiter not found in key")
    | some len =>
      (getlines 95 ((key.drop (pos + delimiter.length)).take len)).zipIdx.mapM fun (token, i) => do
        let value ← stoul token
        if i < maxDims then pure value else .error .undefined

-- The number of dimensions that a key seems to have.
def dimCount (key : List Byte) : Outcome Nat := do
  let sp ← (find (ascii "|Start") key).orUndefined
  let cp ← (find (ascii "|Count") key).orUndefined
  let dims := ((key.take cp).drop sp).count 95
  if sp ≤ cp ∧ dims ≤ maxDims then pure dims else .error .undefined

-- The box of a key.
def readBox (key : List Byte) : Outcome (Σ n, QueryBox n) := do
  let n ← dimCount key
  let start ← extractDimensions key (ascii "|Start_")
  let count ← extractDimensions key (ascii "|Count_")
  pure ⟨n, { start := fun i => start.getD i 0, count := fun i => count.getD i 0 }⟩

end Keys

namespace QueryBox

variable {n : Nat} (b box : QueryBox n)

-- Boxes that only touch each other are taken to interact, with an intersection of no elements.
def isInteracted : Option (QueryBox n) :=
  if ∃ i, b.start i > add64 (box.start i) (box.count i) ∨
      box.start i > add64 (b.start i) (b.count i) then
    none
  else
    some {
      start := fun i => max (b.start i) (box.start i)
      count := fun i =>
        sub64 (min (add64 (b.start i) (b.count i)) (add64 (box.start i) (box.count i)))
          (max (b.start i) (box.start i))
    }

-- Boxes of other numbers of dimensions do not interact.
def ofDims (n : Nat) (box : Σ m, QueryBox m) : Option (QueryBox n) :=
  if h : box.1 = n then some (h ▸ box.2) else none

section Cut

-- `maxCutDimBox` and `maxCutDimSize`
structure Cut (n : Nat) where
  size : Nat
  box  : QueryBox n

def Cut.consider (cut : Cut n) (size : Nat) (box : QueryBox n) : Cut n :=
  if size > cut.size then { size, box } else cut

def cutDimSize (bigBox : QueryBox n) (i : Fin n) (cutDimDiff : Nat) : Outcome Nat :=
  if bigBox.count i = 0 then
    .error .undefined
  else
    pure (bigBox.size / bigBox.count i * cutDimDiff % 2 ^ 64)

-- What lies in front of the box in a dimension.
def cutBefore (bigBox : QueryBox n) (cut : Cut n) (i : Fin n) : Outcome (Cut n) :=
  if b.start i ≠ bigBox.start i then do
    let cutDimDiff := sub64 (b.start i) (bigBox.start i)
    let size ← cutDimSize bigBox i cutDimDiff
    pure <| cut.consider size { bigBox with count := Function.update bigBox.count i cutDimDiff }
  else
    pure cut

-- What lies behind the box in a dimension.
def cutAfter (bigBox : QueryBox n) (cut : Cut n) (i : Fin n) : Outcome (Cut n) :=
  if add64 (b.start i) (b.count i) ≠ add64 (bigBox.start i) (bigBox.count i) then do
    let cutDimDiff :=
      sub64 (sub64 (add64 (bigBox.start i) (bigBox.count i)) (b.start i)) (b.count i)
    let size ← cutDimSize bigBox i cutDimDiff
    pure <| cut.consider size {
      start := Function.update bigBox.start i (add64 (b.start i) (b.count i))
      count := Function.update bigBox.count i cutDimDiff
    }
  else
    pure cut

def cutDim (bigBox : QueryBox n) (cut : Cut n) (i : Fin n) : Outcome (Cut n) :=
  if b.start i = bigBox.start i ∧ b.count i = bigBox.count i then
    pure cut
  else do
    let cut ← b.cutBefore bigBox cut i
    b.cutAfter bigBox cut i

def maxCut (bigBox : QueryBox n) : Outcome (Cut n) :=
  (List.finRange n).foldlM (b.cutDim bigBox) { size := 0, box := zero }

-- `bigBoxRemained`
def remained (cut bigBox : QueryBox n) : QueryBox n where
  start := fun i =>
    if cut.start i = bigBox.start i ∧ cut.count i = bigBox.count i then
      bigBox.start i
    else if cut.start i = bigBox.start i then
      add64 (cut.start i) (cut.count i)
    else
      bigBox.start i
  count := fun i =>
    if cut.start i = bigBox.start i ∧ cut.count i = bigBox.count i then
      bigBox.count i
    else if cut.start i = bigBox.start i then
      sub64 (add64 (bigBox.start i) (bigBox.count i)) (add64 (cut.start i) (cut.count i))
    else
      sub64 (cut.start i) (bigBox.start i)

-- `NdCut`, with the boxes that it appends to `regularBoxes`.
def ndCut : Nat → QueryBox n → Outcome (List (QueryBox n))
  | 0, _           => .error .outOfFuel
  | fuel + 1, bigBox =>
    if bigBox.toString = b.toString then
      pure []
    else do
      let cut ← b.maxCut bigBox
      if cut.size > 0 then do
        let regularBoxes ← ndCut fuel (remained cut.box bigBox)
        pure (cut.box :: regularBoxes)
      else
        pure []

end Cut

section Search

-- `maxInteract` and `maxSourceBox`
structure Interaction (n : Nat) where
  interact : QueryBox n := zero
  source   : QueryBox n := zero

-- What the loop over the keys makes of a box.
def considerBox (best : Interaction n) (box : Σ m, QueryBox m) : Interaction n :=
  match ofDims n box with
  | none     => best
  | some box =>
    match b.isInteracted box with
    | none              => best
    | some intersection =>
      if best.interact.size < intersection.size then
        { interact := intersection, source := box }
      else
        best

def maxInteract (keys : List (List Byte)) : Outcome (Interaction n) :=
  keys.foldlM (fun best key => do
    let box ← readBox key
    pure (b.considerBox best box)) {}

variable (keys : List (List Byte)) (maxDepth : Nat)

-- `GetMaxInteractBox`, with what it appends to `regularBoxes` and to `cachedBoxes`. The keys of the
-- set are in any order.
def getMaxInteractBox : Nat → Nat → QueryBox n → Outcome (List (QueryBox n) × List (QueryBox n))
  | 0, _, _                   => .error .outOfFuel
  | fuel + 1, currentDepth, b =>
    if currentDepth > maxDepth then
      pure ([], [])
    else do
      let currentDepth := (currentDepth + 1) % 2 ^ 64
      let best ← b.maxInteract keys
      if best.interact.size = 0 then
        pure ([b], [])
      else if b.size = best.interact.size then
        pure ([], [best.source])
      else do
        let nextBoxes ← best.interact.ndCut (fuel + 1) b
        if currentDepth = maxDepth then
          pure (nextBoxes, [best.source])
        else do
          let boxes ← nextBoxes.mapM (getMaxInteractBox fuel currentDepth)
          pure (boxes.flatMap (·.1), best.source :: boxes.flatMap (·.2))

end Search

end QueryBox

end KVCache
