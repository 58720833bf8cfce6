import Adios2.Lib.CString

-- The packs of DataMan: the data of all blocks one behind the other, and behind them the text of a
-- JSON object that has the entries of the blocks under the numbers of their steps. The object also has
-- the attributes and the time stamps, which are left out here.

namespace DataMan

open Bytes CString

variable {ε : Type}

-- The entries of the blocks of each step
abbrev Metadata (ε : Type) := List (Nat × List ε)

-- What a text of the JSON library stands for, as far as it is told apart.
inductive Json (ε : Type)
  | metadata (m : Metadata ε)
  | finalStep (n : Int)
  | other

-- `parse` reads a string of C, and gives nothing where it throws.
structure JsonLibrary (ε : Type) where
  dump  : Metadata ε → List Byte
  parse : List Byte → Option (Json ε)

def finalStepText (n : Int) : List Byte :=
  ascii "\x7b\"FinalStep\":" ++ signedDecimal n ++ ascii "\x7d"

-- The library reads what it has written, and an object begins and ends with a brace.
structure JsonLibrary.Lossless (json : JsonLibrary ε) : Prop where
  dump_noNul      : ∀ m, 0 ∉ json.dump m
  parse_dump      : ∀ m, json.parse (json.dump m) = some (.metadata m)
  parse_finalStep : ∀ n, json.parse (finalStepText n) = some (.finalStep n)
  parse_short     : ∀ s n, s.length < 2 → json.parse s ≠ some (.finalStep n)

-- The characters from a pointer up to the terminating NUL.
def cString (bs : List Byte) : Outcome (List Byte) :=
  if 0 ∈ bs then .ok (bs.takeWhile (· ≠ 0)) else .error .undefined

-- `m[k] = f(m[k])`
def upsert {α : Type} (m : List (Nat × α)) (k : Nat) (f : Option α → α) : List (Nat × α) :=
  match m with
  | []          => [(k, f none)]
  | (k', a) :: m => if k' = k then (k, f (some a)) :: m else (k', a) :: upsert m k f

section Writer

structure WriterBuffer (ε : Type) where
  localBuffer  : List Byte  := []
  metadataJson : Metadata ε := []

-- What is put for a block. The entry has the position of the data.
structure Block (ε : Type) where
  data  : List Byte
  entry : Nat → ε

def newWriterBuffer : WriterBuffer ε where
  localBuffer := List.replicate 16 0

def WriterBuffer.putData (s : WriterBuffer ε) (step : Nat) (b : Block ε) : WriterBuffer ε where
  localBuffer  := s.localBuffer ++ b.data
  metadataJson :=
    upsert s.metadataJson step fun entries => entries.getD [] ++ [b.entry s.localBuffer.length]

def serializeJson (json : JsonLibrary ε) (m : Metadata ε) : List Byte := json.dump m ++ [0]

def WriterBuffer.getLocalPack (json : JsonLibrary ε) (e : Endian) (s : WriterBuffer ε) : List Byte :=
  let metapack := serializeJson json s.metadataJson
  u64 e s.localBuffer.length ++ u64 e metapack.length ++ s.localBuffer.drop 16 ++ metapack

end Writer

section Reader

-- `m_DataManVarMap` and `m_DeserializedBlocksForStep`
structure VarMap (ε : Type) where
  dataManVarMap             : List (Nat × Option (List ε)) := []
  deserializedBlocksForStep : Nat → Nat                    := fun _ => 0

def VarMap.put (s : VarMap ε) (step : Nat) (entries : List ε) : VarMap ε where
  dataManVarMap := entries.foldl
    (fun m e => upsert m step fun vars => some ((vars.getD none).getD [] ++ [e])) s.dataManVarMap
  deserializedBlocksForStep :=
    Function.update s.deserializedBlocksForStep step (s.deserializedBlocksForStep step + 1)

def VarMap.jsonToVarMap (s : VarMap ε) (m : Metadata ε) : VarMap ε :=
  m.foldl (fun s (step, entries) => s.put step entries) s

def jsonError {α : Type} : Outcome α := .error (.logicError "nlohmann::json::exception")

def deserializeJson (json : JsonLibrary ε) (start : List Byte) (size : Nat) : Outcome (Json ε) :=
  if size = 0 then
    .error <| .thrown "Toolkit::Format" "dataman::DataManSerializer" "DeserializeJson"
      "received invalid message"
  else do
    let text ← cString start
    match json.parse text with
    | some j => pure j
    | none   => jsonError

def VarMap.putPackThread (json : JsonLibrary ε) (e : Endian) (s : VarMap ε) (data : List Byte) :
    Outcome (VarMap ε) :=
  if data.length = 0 then
    pure s
  else if data.length < 16 then
    .error .undefined
  else do
    let metaPosition := decode e (data.take 8)
    let metaSize := decode e ((data.drop 8).take 8)
    let j ← deserializeJson json (data.drop metaPosition) metaSize
    match j with
    | .metadata m => pure (s.jsonToVarMap m)
    -- no key of another object is a number of a step
    | _           => .error (.logicError "stoull")

-- `Erase` with all previous steps
def VarMap.erase (s : VarMap ε) (step : Nat) : VarMap ε :=
  { s with dataManVarMap := s.dataManVarMap.filter fun (k, _) => step < k }

-- A step that is not in the map has no count.
def VarMap.stepHasMinimumBlocks (s : VarMap ε) (step : Nat) (requireMinimumBlocks : Int) : Bool :=
  s.deserializedBlocksForStep step ≠ 0 && requireMinimumBlocks ≤ s.deserializedBlocksForStep step

-- The step that a round of the loop in `GetEarliestLatestStep` finds.
def VarMap.earliestStep (s : VarMap ε) (requireMinimumBlocks : Int) : Option Nat := do
  let earliest ← (s.dataManVarMap.map Prod.fst).min?
  let latest ← (s.dataManVarMap.map Prod.fst).max?
  (List.range' earliest (latest + 1 - earliest)).find? (s.stepHasMinimumBlocks · requireMinimumBlocks)

-- `m_DataManVarMap[step]`
def VarMap.vars (s : VarMap ε) (step : Nat) : Option (List ε) × VarMap ε :=
  let m := upsert s.dataManVarMap step fun vars => vars.getD none
  (((m.lookup step).getD none), { s with dataManVarMap := m })

end Reader

end DataMan

-- The selection of a step in `GetEarliestLatestStep`: from the smallest step that is held up to the
-- largest one, or the other way round, until a step has enough blocks.

namespace DataMan

variable {ε : Type}

namespace VarMap

-- `Erase` of one step
def eraseStep (s : VarMap ε) (step : Nat) : VarMap ε :=
  { s with dataManVarMap := s.dataManVarMap.filter fun (k, _) => k ≠ step }

-- The steps that are held.
def steps (s : VarMap ε) : List Nat := s.dataManVarMap.map Prod.fst

-- The loop over steps from `step` on. There is no result as long as it has not ended.
def search (s : VarMap ε) (requireMinimumBlocks : Int) (goesOn : Nat → Bool) (next : Nat → Nat) :
    Nat → Nat → Option (Option Nat)
  | 0, _          => none
  | turns + 1, step =>
    if goesOn step then
      if s.stepHasMinimumBlocks step requireMinimumBlocks then some (some step)
      else search s requireMinimumBlocks goesOn next turns (next step)
    else
      some none

-- Both loops count with a `size_t`.
def selectStep (s : VarMap ε) (requireMinimumBlocks : Int) (latest : Bool) (turns : Nat) :
    Option (Option Nat) :=
  match s.steps.min?, s.steps.max? with
  | some earliestStep, some latestStep =>
    if latest then
      s.search requireMinimumBlocks (earliestStep ≤ ·) (fun step => (step + (2 ^ 64 - 1)) % 2 ^ 64)
        turns latestStep
    else
      s.search requireMinimumBlocks (· ≤ latestStep) (fun step => (step + 1) % 2 ^ 64) turns
        earliestStep
  | _, _ => some none

end VarMap

-- What a call is at: it has returned the entries of a step or a null pointer, or waits for more steps.
inductive Returned (ε : Type)
  | vars (currentStep : Nat) (vars : Option (List ε))
  | timedOut
  | waiting
  deriving DecidableEq, Repr

-- A call during which no step comes or goes. `clock` tells for each round whether the time is over at
-- its end; each round has `turns` turns at most.
def VarMap.getEarliestLatestStep (s : VarMap ε) (requireMinimumBlocks : Int) (latest : Bool)
    (turns : Nat) (clock : List Bool) : Option (Returned ε × VarMap ε) :=
  match s.selectStep requireMinimumBlocks latest turns with
  | none                    => none
  | some (some currentStep) =>
    let (vars, s) := s.vars currentStep
    some (.vars currentStep vars, s)
  | some none               =>
    match clock with
    | []             => some (.waiting, s)
    | true :: _      => some (.timedOut, s)
    | false :: clock => s.getEarliestLatestStep requireMinimumBlocks latest turns clock

-- What happens to the maps of a reader.
inductive Operation (ε : Type)
  | jsonToVarMap (m : Metadata ε)
  | erase (step : Nat) (allPreviousSteps : Bool)
  | getEarliestLatestStep (requireMinimumBlocks : Int) (latest : Bool) (turns : Nat)
      (clock : List Bool)
  deriving DecidableEq, Repr

-- The keys of a pack are read as numbers of a `size_t`.
def Operation.Sized : Operation ε → Prop
  | .jsonToVarMap m => ∀ x ∈ m, x.1 < 2 ^ 64
  | _               => True

instance (op : Operation ε) : Decidable op.Sized :=
  match op with
  | .jsonToVarMap m                => inferInstanceAs (Decidable (∀ x ∈ m, x.1 < 2 ^ 64))
  | .erase _ _                     => inferInstanceAs (Decidable True)
  | .getEarliestLatestStep _ _ _ _ => inferInstanceAs (Decidable True)

def VarMap.apply (s : VarMap ε) : Operation ε → VarMap ε
  | .jsonToVarMap m              => s.jsonToVarMap m
  | .erase step allPreviousSteps => if allPreviousSteps then s.erase step else s.eraseStep step
  | .getEarliestLatestStep requireMinimumBlocks latest turns clock =>
    match s.getEarliestLatestStep requireMinimumBlocks latest turns clock with
    | some (_, s) => s
    | none        => s

-- The maps after some operations, and no others before.
def VarMap.after (operations : List (Operation ε)) : VarMap ε :=
  operations.foldl VarMap.apply {}

end DataMan
