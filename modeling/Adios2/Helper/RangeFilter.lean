import Adios2.Helper.Parameters

-- The filter for ranges of steps, which is made from a text of rules `start:end:steps`.

namespace Helper

open Bytes CString

def maxSizeT : Nat := 2 ^ 64 - 1

-- A rule as it has been read. The end is `maxSizeT` where there is none.
structure Rule where
  start : Nat
  last  : Nat
  steps : Nat
  deriving DecidableEq, Repr

structure RangeFilter where
  selection      : List Bool := []
  unlimitedRules : List (Nat × Nat) := []
  deriving DecidableEq, Repr

namespace RangeFilter

def invalid (message : String) : Outcome Nat :=
  .error (.thrown "Helper" "adiosRangeFilter" "ToSizeT" message)

-- `std::stol` throws what is caught here, for texts without a number and for large ones.
def toSizeT (input : List Byte) : Outcome Nat :=
  match (scanInt input).filter fun (value, _) => -2 ^ 63 ≤ value ∧ value < 2 ^ 63 with
  | none              => invalid ("could not cast string '" ++ text input ++ "' to number ")
  | some (value, rest) =>
    if value < 0 then
      invalid ("Negative number '" ++ text input ++ "' not supported in range selections!")
    else if rest ≠ [] then
      invalid ("could not cast the entire string '" ++ text input ++
        "' to a single integer number. RangeFilter accepts a space-separated list of i:j:k " ++
        "expressions where i,j,k are non-negative integers or the character 'n'")
    else
      pure value.toNat

def parseEnd (n : Nat) (last : List Byte) : Outcome Nat :=
  if last = [] then
    pure n
  else if last = ascii "n" ∨ last = ascii "N" then
    pure maxSizeT
  else
    toSizeT last

def parseSteps (steps : List Byte) : Outcome Nat :=
  if steps = [] then pure 1 else toSizeT steps

def parseRule (item : List Byte) : Outcome Rule := do
  let parts := getlines 58 item
  let start := parts.getD 0 []
  let last := parts.getD 1 []
  -- what stands behind an empty end is not looked at
  let steps := if last = [] then [] else parts.getD 2 []
  let n ← toSizeT start
  let m ← parseEnd n last
  let s ← parseSteps steps
  pure { start := n, last := m, steps := s }

-- `m_Selection.resize` where it is too small.
def grow (selection : List Bool) (size : Nat) : List Bool :=
  if selection.length < size then
    selection ++ List.replicate (size - selection.length) false
  else
    selection

-- The loops that set every `steps`-th element up to `stop`.
def mark (steps stop : Nat) : Nat → Nat → List Bool → Outcome (List Bool)
  | 0, _, _                => .error .outOfFuel
  | fuel + 1, i, selection =>
    if i < stop then
      if i < selection.length then
        mark steps stop fuel ((i + steps) % 2 ^ 64) (selection.set i true)
      else
        .error .undefined
    else
      pure selection

def addRule (fuel : Nat) (filter : RangeFilter) (rule : Rule) : Outcome RangeFilter :=
  if rule.last < maxSizeT then do
    let selection ← mark rule.steps (rule.last + 1) fuel rule.start
      (grow filter.selection (rule.last + 1))
    pure { filter with selection }
  else
    pure {
      selection      := (grow filter.selection (rule.start + 1)).set rule.start true
      unlimitedRules := filter.unlimitedRules ++ [(rule.start, rule.steps)] }

-- The rules are separated by blanks, of which there can be several.
def items (selection : List Byte) : List (List Byte) := (getlines 32 selection).filter (· ≠ [])

def addItem (fuel : Nat) (filter : RangeFilter) (item : List Byte) : Outcome RangeFilter := do
  let rule ← parseRule item
  addRule fuel filter rule

def fillUp (fuel : Nat) (selection : List Bool) (rule : Nat × Nat) : Outcome (List Bool) :=
  mark rule.2 selection.length fuel rule.1 selection

def parseSelection (fuel : Nat) (selection : List Byte) : Outcome RangeFilter := do
  let filter ← (items selection).foldlM (addItem fuel) {}
  let selection ← filter.unlimitedRules.foldlM (fillUp fuel) filter.selection
  pure { filter with selection }

-- The rules without an end, for a step behind the vector.
def consult (n : Nat) : List (Nat × Nat) → Outcome Bool
  | []                      => pure false
  | (start, steps) :: rules =>
    if steps = 0 then
      .error .undefined
    else if (n + (2 ^ 64 - start)) % 2 ^ 64 % steps = 0 then
      pure true
    else
      consult n rules

-- A filter that is not initialized selects everything.
def isSelected (filter : RangeFilter) (n : Nat) : Outcome Bool :=
  if filter.selection.length = 0 ∧ filter.unlimitedRules.length = 0 then
    pure true
  else
    match filter.selection[n]? with
    | some selected => pure selected
    | none          => consult n filter.unlimitedRules

end RangeFilter

end Helper
