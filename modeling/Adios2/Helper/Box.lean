import Adios2.Helper.Log

-- Boxes of an array, as two lists of numbers: the start and the count in every dimension, or the
-- start and the end, which is inclusive. A number has 64 bits.

namespace Helper

abbrev Dims := List Nat

abbrev Box := Dims × Dims

def startEndBox (start count : Dims) : Outcome Box := do
  let ends ← (List.range start.length).mapM fun d => do
    let s ← (start[d]?).orUndefined
    let c ← (count[d]?).orUndefined
    pure ((s + c + (2 ^ 64 - 1)) % 2 ^ 64)
  pure (start, ends)

def startCountBox (start ends : Dims) : Outcome Box := do
  let count ← (List.range start.length).mapM fun d => do
    let s ← (start[d]?).orUndefined
    let e ← (ends[d]?).orUndefined
    pure ((e + (2 ^ 64 - s) + 1) % 2 ^ 64)
  pure (start, count)

-- The starts and the ends of two boxes in dimension `d`.
def boundsAt (box₁ box₂ : Box) (d : Nat) : Outcome ((Nat × Nat) × (Nat × Nat)) := do
  let s₁ ← (box₁.1[d]?).orUndefined
  let e₁ ← (box₁.2[d]?).orUndefined
  let s₂ ← (box₂.1[d]?).orUndefined
  let e₂ ← (box₂.2[d]?).orUndefined
  pure ((s₁, e₁), (s₂, e₂))

-- Whether the boxes do not intercept in one of the dimensions from `d` on. The first one decides.
def apart (box₁ box₂ : Box) : List Nat → Outcome Bool
  | []      => pure false
  | d :: ds => do
    let ((s₁, e₁), (s₂, e₂)) ← boundsAt box₁ box₂ d
    if s₂ > e₁ ∨ e₂ < s₁ then pure true else apart box₁ box₂ ds

def intersectionBox (box₁ box₂ : Box) : Outcome Box := do
  let ds := List.range box₁.1.length
  if ← apart box₁ box₂ ds then
    pure ([], [])
  else do
    let bounds ← ds.mapM fun d => do
      let ((s₁, e₁), (s₂, e₂)) ← boundsAt box₁ box₂ d
      pure (if s₁ < s₂ then s₂ else s₁, if e₁ > e₂ then e₂ else e₁)
    pure (bounds.map (·.1), bounds.map (·.2))

def identicalIn (box₁ box₂ : Box) : List Nat → Outcome Bool
  | []      => pure true
  | d :: ds => do
    let ((a₁, b₁), (a₂, b₂)) ← boundsAt box₁ box₂ d
    if a₁ ≠ a₂ ∨ b₁ ≠ b₂ then pure false else identicalIn box₁ box₂ ds

def identicalBoxes (box₁ box₂ : Box) : Outcome Bool :=
  identicalIn box₁ box₂ (List.range box₁.1.length)

-- The starts and the ends in dimension `d` of two boxes that are given with their counts.
def endsAt (start₁ count₁ start₂ count₂ : Dims) (d : Nat) :
    Outcome ((Nat × Nat) × (Nat × Nat)) := do
  let s₁ ← (start₁[d]?).orUndefined
  let c₁ ← (count₁[d]?).orUndefined
  let s₂ ← (start₂[d]?).orUndefined
  let c₂ ← (count₂[d]?).orUndefined
  pure ((s₁, (s₁ + c₁ + (2 ^ 64 - 1)) % 2 ^ 64), (s₂, (s₂ + c₂ + (2 ^ 64 - 1)) % 2 ^ 64))

def apartBy (bounds : Nat → Outcome ((Nat × Nat) × (Nat × Nat))) : List Nat → Outcome Bool
  | []      => pure false
  | d :: ds => do
    let ((s₁, e₁), (s₂, e₂)) ← bounds d
    if s₂ > e₁ ∨ e₂ < s₁ then pure true else apartBy bounds ds

def intersectionStartCount (start₁ count₁ start₂ count₂ : Dims) : Outcome Box := do
  let ds := List.range start₁.length
  let bounds := endsAt start₁ count₁ start₂ count₂
  if ← apartBy bounds ds then
    pure ([], [])
  else do
    let parts ← ds.mapM fun d => do
      let ((s₁, e₁), (s₂, e₂)) ← bounds d
      let intersectionStart := if s₁ < s₂ then s₂ else s₁
      -- end, must be inclusive
      let intersectionEnd := if e₁ > e₂ then e₂ else e₁
      pure (intersectionStart, (intersectionEnd + (2 ^ 64 - intersectionStart) + 1) % 2 ^ 64)
    pure (parts.map (·.1), parts.map (·.2))

-- The number of the elements in the dimensions, unless the boxes differ in one of them.
def sameExtents (blockBox intersectionBox : Box) : List Nat → Nat → Outcome (Option Nat)
  | [], nElements      => pure (some nElements)
  | d :: ds, nElements => do
    let ((bs, be), (is, ie)) ← boundsAt blockBox intersectionBox d
    if bs ≠ is ∨ be ≠ ie then
      pure none
    else
      sameExtents blockBox intersectionBox ds
        (nElements * ((be + (2 ^ 64 - bs) + 1) % 2 ^ 64) % 2 ^ 64)

-- It is a contiguous subarray iff the dimensions are equal everywhere except in the slowest
-- dimension. The result is the start offset, if it is one.
def isIntersectionContiguousSubarray (blockBox intersectionBox : Box) (isRowMajor : Bool) :
    Outcome (Option Nat) := do
  let dimensionsSize := blockBox.1.length
  if dimensionsSize = 0 then
    pure (some 0)
  else
    let (dSlowest, ds) :=
      if isRowMajor then
        (0, List.range' 1 (dimensionsSize - 1))
      else
        (dimensionsSize - 1, List.range (dimensionsSize - 1))
    match ← sameExtents blockBox intersectionBox ds 1 with
    | none           => pure none
    | some nElements => do
      let b ← (blockBox.1[dSlowest]?).orUndefined
      let i ← (intersectionBox.1[dSlowest]?).orUndefined
      pure (some ((i + (2 ^ 64 - b)) % 2 ^ 64 * nElements % 2 ^ 64))

-- The three iterators move on together, as far as the one over the point. What the second one is at
-- gives the count in that dimension.
def linearIndexLoop (count : Nat → Nat → Nat) :
    Dims → Dims → Dims → Nat × Nat → Outcome (Nat × Nat)
  | _, _, [], acc                                           => pure acc
  | s :: start, c :: second, p :: point, (linearIndex, product) =>
    linearIndexLoop count start second point
      ((linearIndex + (p + (2 ^ 64 - s)) % 2 ^ 64 * product) % 2 ^ 64,
        product * count s c % 2 ^ 64)
  | _, _, _ :: _, _                                         => .error .undefined

def linearIndexBy (count : Nat → Nat → Nat) (start second point : Dims) (isRowMajor : Bool) :
    Outcome Nat := do
  let (linearIndex, _) ←
    if isRowMajor then
      linearIndexLoop count start.reverse second.reverse point.reverse (0, 1)
    else
      linearIndexLoop count start second point (0, 1)
  pure linearIndex

def linearIndexWithStartCount (start count point : Dims) (isRowMajor : Bool) : Outcome Nat :=
  linearIndexBy (fun _ c => c) start count point isRowMajor

def linearIndexWithEnd (start ends point : Dims) (isRowMajor : Bool) : Outcome Nat :=
  linearIndexBy (fun s e => (e + (2 ^ 64 - s) + 1) % 2 ^ 64) start ends point isRowMajor

def linearIndex (start count point : Dims) (isRowMajor : Bool) : Outcome Nat :=
  linearIndexWithStartCount start count point isRowMajor

def linearIndexInBox (startEndBox : Box) (point : Dims) (isRowMajor : Bool) : Outcome Nat :=
  linearIndexWithEnd startEndBox.1 startEndBox.2 point isRowMajor

end Helper
