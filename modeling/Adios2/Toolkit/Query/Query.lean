import Adios2.Helper.Box

-- Composite queries: the hit lists of the queries that they are made of are combined block by block.
-- What a query over a variable finds is an input.

namespace Query

open Helper

inductive Relation
  | and
  | or
  | not
  deriving DecidableEq, Repr

-- A block that was hit, and what of it. A block without regions was hit as a whole.
structure BlockHit where
  id      : Nat
  regions : List Box
  deriving DecidableEq, Repr

def getIntersection (box₁ box₂ : Box) : Outcome Box := do
  let b₁ ← startEndBox box₁.1 box₁.2
  let b₂ ← startEndBox box₂.1 box₂.2
  let result ← intersectionBox b₁ b₂
  startCountBox result.1 result.2

namespace BlockHit

def IsLocalArrayBlock (hit : BlockHit) : Prop :=
  hit.regions = []

instance : DecidablePred IsLocalArrayBlock := fun _ =>
  inferInstanceAs (Decidable (_ = _))

-- The regions that `b` overlaps are cut down to it, and the others are kept.
def intersectRegions (b : Box) : List Box → Outcome (Bool × List Box)
  | []         => pure (false, [])
  | it :: rest => do
    let curr ← getIntersection it b
    let (overlapped, rest) ← intersectRegions b rest
    -- has intersection
    pure (if curr.1.length ≠ 0 then (true, curr :: rest) else (overlapped, it :: rest))

def applyIntersection (hit tmp : BlockHit) : Outcome (Bool × BlockHit) :=
  if hit.id ≠ tmp.id then
    pure (false, hit)
  -- local array, no subblock info
  else if hit.IsLocalArrayBlock ∨ tmp.IsLocalArrayBlock then
    pure (true, hit)
  else
    tmp.regions.foldlM
      (fun (overlapped, hit) b => do
        let (overlaps, regions) ← intersectRegions b hit.regions
        pure (overlapped || overlaps, { hit with regions }))
      (false, hit)

def applyExtension (hit tmp : BlockHit) : Outcome (Bool × BlockHit) :=
  if hit.id ≠ tmp.id then
    pure (false, hit)
  else do
    let regions ← tmp.regions.foldlM
      (fun regions b => do
        let duplicated ← regions.mapM fun box => identicalBoxes box b
        pure (if true ∈ duplicated then regions else regions ++ [b]))
      hit.regions
    pure (true, { hit with regions })

end BlockHit

-- Whether the hit at index `i` intersects one of the others. The first one that it does is the last
-- one that it is cut down to.
def intersectsAny (i : Nat) : List BlockHit → List BlockHit → Outcome (Bool × List BlockHit)
  | touched, []        => pure (false, touched)
  | touched, b :: curr => do
    let hit ← (touched[i]?).orUndefined
    let (intersects, hit) ← hit.applyIntersection b
    let touched := touched.set i hit
    if intersects then pure (true, touched) else intersectsAny i touched curr

-- The loop of lf_ApplyAND, from index `i` down to one.
def intersectFrom (curr : List BlockHit) : Nat → List BlockHit → Outcome (List BlockHit)
  | 0, touched     => pure touched
  | i + 1, touched => do
    let (intersects, touched) ← intersectsAny (i + 1) touched curr
    intersectFrom curr i (if intersects then touched else touched.eraseIdx i)

def applyAND (touched curr : List BlockHit) : Outcome (List BlockHit) :=
  if curr = [] then pure [] else intersectFrom curr touched.length touched

def applyOR (touched curr : List BlockHit) : Outcome (List BlockHit) :=
  curr.foldlM
    (fun touched b => do
      -- what is extended is a copy
      let extensions ← touched.mapM fun box => box.applyExtension b
      pure (if true ∈ extensions.map (·.1) then touched else touched ++ [b]))
    touched

end Query

open Query in
inductive Query (ν : Type)
  | var (name : ν)
  | composite (relation : Relation) (nodes : List (Query ν))

namespace Query

variable {ν : Type}

def addNode (relation : Relation) (nodes : List (Query ν)) (var : Query ν) :
    Outcome (List (Query ν)) :=
  if relation = .not then
    .error (.thrown "Toolkit" "query::QueryComposite" "AddNode"
      "Currently NOT is not suppprted for composite query")
  else
    pure (nodes ++ [var])

mutual

def blockIndexEvaluate (find : ν → List BlockHit) : Query ν → Outcome (List BlockHit)
  | .var name                 => pure (find name)
  | .composite relation nodes => evaluateNodes find relation 0 [] nodes

def evaluateNodes (find : ν → List BlockHit) (relation : Relation) :
    Nat → List BlockHit → List (Query ν) → Outcome (List BlockHit)
  | _, touched, []                  => pure touched
  | counter, touched, node :: nodes => do
    let counter := counter + 1
    let curr ← blockIndexEvaluate find node
    if counter = 1 then
      evaluateNodes find relation counter curr nodes
    else if curr = [] then
      if relation = .and then
        pure []
      else
        evaluateNodes find relation counter touched nodes
    else
      match relation with
      | .and => do
        let touched ← applyAND touched curr
        evaluateNodes find relation counter touched nodes
      | .or  => do
        let touched ← applyOR touched curr
        evaluateNodes find relation counter touched nodes
      | .not => evaluateNodes find relation counter touched nodes

end

end Query
