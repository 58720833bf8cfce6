import Adios2.Lib.Threads
import Adios2.Toolkit.KVCache.QueryBox

-- The pool of open files of the server. A subpool keeps the engines that are open on a file; the
-- pool finds the subpool of a request by a key, and removes subpools that are not in use where
-- there are too many descriptors or too much metadata.

namespace FilePool

open Bytes CString KVCache

section Costs

structure BP5CostEstimate where
  metadataBytes : Nat  := 0
  subfileCount  : Nat  := 0
  isTar         : Bool := false
  deriving DecidableEq, Repr

-- `stat` and `opendir`: the size of a file and the names in a directory.
structure FileSystem where
  stat    : List Byte → Option Nat               := fun _ => none
  opendir : List Byte → Option (List (List Byte)) := fun _ => none

-- `strtoull(s, nullptr, 10)`
def strtoull (s : List Byte) : Nat :=
  match scanInt s with
  | none        => 0
  | some (n, _) => if n.natAbs < 2 ^ 64 then (n % 2 ^ 64).toNat else 2 ^ 64 - 1

def extractTarInfo (engineParams : List Byte) : List Byte :=
  match (getlines 9 engineParams).find? fun entry => entry.take 8 = ascii "TarInfo=" with
  | some entry => entry.drop 8
  | none       => []

-- An entry is `filename,offset,size`.
def BP5CostEstimate.addTarEntry (cost : BP5CostEstimate) (entry : List Byte) : BP5CostEstimate :=
  match find (ascii ",") entry with
  | none        => cost
  | some comma1 =>
    match find (ascii ",") (entry.drop (comma1 + 1)) with
    | none     => cost
    | some len =>
      let path := entry.take comma1
      let name := match strrchr path 47 with
        | some slash => path.drop (slash + 1)
        | none       => path
      if name ∈ [ascii "md.0", ascii "mmd.0", ascii "md.idx"] then
        let size := strtoull (entry.drop (comma1 + 1 + len + 1))
        { cost with metadataBytes := add64 cost.metadataBytes size }
      else if name.take 5 = ascii "data." then
        { cost with subfileCount := add64 cost.subfileCount 1 }
      else
        cost

def parseTarInfoCost (tarinfo : List Byte) : BP5CostEstimate :=
  (getlines 59 tarinfo).foldl BP5CostEstimate.addTarEntry { isTar := true }

def probeBP5Directory (files : FileSystem) (path engineParams : List Byte) : BP5CostEstimate :=
  let tarinfo := extractTarInfo engineParams
  if tarinfo ≠ [] then
    parseTarInfoCost tarinfo
  else
    let metadata := ["/md.0", "/mmd.0", "/md.idx"]
    let sizes := metadata.filterMap fun name => files.stat (path ++ ascii name)
    let names := (files.opendir path).getD []
    { metadataBytes := sizes.foldl add64 0
      subfileCount  := names.countP fun name => name.take 5 = ascii "data." }

end Costs

section SubPools

-- The count of the users has as many values as it needs: every user has an object of its own.
structure SubPool where
  -- the key under which the pool made the subpool, which is not a field of it in the source
  index          : List Byte
  lastUsed       : Nat       := 0
  inUseCount     : Int       := 0
  shareable      : Bool      := false
  modeDetermined : Bool      := false
  list           : List Nat  := []
  busy           : List Bool := []
  metadataBytes  : Nat       := 0
  subfileCount   : Nat       := 0
  isTar          : Bool      := false
  deriving DecidableEq, Repr

-- An engine that is opened gets an address that no other has. `reentrant` tells whether it supports
-- `NewGetContext`, `descriptors` whether `/dev/null` can be opened after a failure.
inductive Opening
  | opened (reentrant : Bool)
  | failed (descriptors : Bool)
  deriving DecidableEq, Repr

namespace SubPool

variable (s : SubPool)

-- The cache of the descriptors of tar files is enabled before the first request.
def estimateFDCost : Nat := if s.isTar then 0 else s.subfileCount

def estimateTotalCost : Nat := add64 s.metadataBytes s.estimateFDCost

-- `none` is a failure to open.
def getFree (address : Nat) (opening : Opening) : Outcome (SubPool × Option Nat) :=
  if s.modeDetermined then
    if s.shareable then do
      let file ← s.list[0]?.orUndefined
      pure ({ s with inUseCount := s.inUseCount + 1 }, some file)
    else
      match s.busy.findIdx? (!·) with
      | some i => do
        let file ← s.list[i]?.orUndefined
        pure ({ s with busy := s.busy.set i true, inUseCount := s.inUseCount + 1 }, some file)
      | none   =>
        match opening with
        | .failed _ => pure (s, none)
        | .opened _ =>
          pure ({ s with
            list       := s.list ++ [address]
            busy       := s.busy ++ [true]
            inUseCount := s.inUseCount + 1 }, some address)
  else
    match opening with
    | .failed _         => pure (s, none)
    | .opened reentrant => do
      let file ← (s.list ++ [address])[0]?.orUndefined
      pure ({ s with
        list           := s.list ++ [address]
        shareable      := reentrant
        modeDetermined := true
        busy           := if reentrant then s.busy else s.busy ++ [true]
        inUseCount     := s.inUseCount + 1 }, some file)

-- `Return`
def giveBack (toFree now : Nat) : SubPool :=
  if s.shareable then
    { s with lastUsed := now, inUseCount := s.inUseCount - 1 }
  else
    match (s.list.take s.busy.length).findIdx? (· = toFree) with
    | some i =>
      { s with lastUsed := now, busy := s.busy.set i false, inUseCount := s.inUseCount - 1 }
    | none   => { s with lastUsed := now }

end SubPool

end SubPools

structure PoolEntry where
  file    : Option Nat := none
  subpool : Option Nat := none
  deriving DecidableEq, Repr

-- A request for a file. Requests that have the same key get the same subpool.
structure Request where
  filename       : List Byte
  rowMajorArrays : Bool      := true
  engineParams   : List Byte := []
  deriving DecidableEq, Repr

def Request.index (r : Request) : List Byte :=
  r.filename ++ [47] ++ decimal r.rowMajorArrays.toNat ++ [124] ++ r.engineParams

-- What is in the map: a key and the place of a subpool among all that have been made.
abbrev MapItem := List Byte × Nat

-- `pool_mutex` is locked while the sections of the pool are at work. The subpools and the objects
-- of the class `PoolEntry` are all that there have been.
structure Pool where
  locked                    : Bool           := false
  fdLimit                   : Nat            := 0
  fdLimitDefault            : Nat            := 0
  metadataBytesLimit        : Nat            := 2 ^ 31
  metadataBytesLimitDefault : Nat            := 2 ^ 31
  totalMetadataBytes        : Nat            := 0
  totalSubfileCount         : Nat            := 0
  map                       : List MapItem   := []
  subpools                  : List SubPool   := []
  addresses                 : Nat            := 0
  entries                   : List PoolEntry := []
  deriving DecidableEq, Repr

-- What a step finds that the pool does not decide: the order in which a walk finds what is in the
-- map, the order in which a sort leaves what has equal weight, and what the system answers.
structure Choice where
  walk          : List MapItem → List MapItem
  walk_perm     : ∀ l, (walk l).Perm l
  sort          : List (MapItem × Int) → List (MapItem × Int)
  sort_perm     : ∀ l, (sort l).Perm l
  sort_pairwise : ∀ l, (sort l).Pairwise (·.2 ≤ ·.2)
  files         : FileSystem := {}
  opening       : Opening    := .opened true
  now           : Nat        := 0

-- `EvictUnderPressure` takes the heaviest subpools first and `EvictLRU` those that have not been
-- used for the longest time.
inductive Eviction
  | pressure (incomingFDCost incomingMetadataBytes : Nat)
  | lru
  deriving DecidableEq, Repr

-- What a thread does under one lock, or without any. A section of the pool gives the lock of the
-- pool up with its last task, and takes and gives up the lock of a subpool in many of its tasks.
inductive Task
  | getFree (r : Request)
  | evictUnderPressure (incomingFDCost incomingMetadataBytes : Nat)
  | collect (ev : Eviction) (todo : List MapItem) (candidates : List (MapItem × Int))
  | evict (ev : Eviction) (left : Nat) (candidates : List MapItem)
  | newSubPool (r : Request) (cost : BP5CostEstimate)
  | use (r : Request) (subpool : Nat) (again : Bool)
  | evictLRU
  | flushUnused
  | flushIdle
  | flushAll
  | flush (now : Option Nat) (todo : List MapItem)
  | unlock
  | construct
  | moveConstruct (source : Nat)
  | moveAssign (source target : Nat)
  | destroy (entry : Nat)
  | setLimits (fdLimit mdLimit : Nat)
  deriving DecidableEq, Repr

namespace Pool

variable (p : Pool)

def fdOver (incomingFDCost : Nat) : Bool :=
  0 < p.fdLimit && p.fdLimit * 9 % 2 ^ 64 / 10 < add64 p.totalSubfileCount incomingFDCost

def mdOver (incomingMetadataBytes : Nat) : Bool :=
  p.metadataBytesLimit < add64 p.totalMetadataBytes incomingMetadataBytes

-- What all four loops do that remove subpools.
def erase (it : MapItem) (s : SubPool) : Pool :=
  { p with
    totalMetadataBytes := sub64 p.totalMetadataBytes s.metadataBytes
    totalSubfileCount  := sub64 p.totalSubfileCount s.estimateFDCost
    map                := p.map.erase it }

def insert (r : Request) (cost : BP5CostEstimate) : Pool :=
  let s : SubPool := {
    index         := r.index
    metadataBytes := cost.metadataBytes
    subfileCount  := cost.subfileCount
    isTar         := cost.isTar }
  { p with
    totalMetadataBytes := add64 p.totalMetadataBytes s.metadataBytes
    totalSubfileCount  := add64 p.totalSubfileCount s.estimateFDCost
    subpools           := p.subpools ++ [s]
    map                :=
      if (p.map.lookup r.index).isSome then p.map else (r.index, p.subpools.length) :: p.map }

def giveBack (entry : PoolEntry) (now : Nat) : Outcome Pool :=
  match entry.file, entry.subpool with
  | some file, some sp => do
    let s ← p.subpools[sp]?.orUndefined
    pure { p with subpools := p.subpools.set sp (s.giveBack file now) }
  | _, _               => pure p

end Pool

namespace Eviction

def weight (s : SubPool) : Eviction → Int
  | .pressure _ _ => -s.estimateTotalCost
  | .lru          => s.lastUsed

-- The subpools that `EvictLRU` takes at most; the pressure knows no such limit.
def toEvict (candidates : Nat) : Eviction → Nat
  | .pressure _ _ => 0
  | .lru          => max (candidates / 10) 1

def goesOn (p : Pool) (left : Nat) : Eviction → Bool
  | .pressure fdCost metadataBytes => p.fdOver fdCost || p.mdOver metadataBytes
  | .lru                           => 0 < left

end Eviction

-- `FlushUnused` removes what has not been used for four hours, `FlushAll` what is not in use.
def SubPool.expired (s : SubPool) : Option Nat → Bool
  | some now => 4 ≤ (now - s.lastUsed) / (3600 * 10 ^ 9)
  | none     => true

namespace Task

def exec (e : Choice) (p : Pool) : Task → Outcome (Pool × List Task)
  | getFree r =>
    match p.map.lookup r.index with
    | some sp => pure (p, [use r sp false])
    | none    =>
      let cost := probeBP5Directory e.files r.filename r.engineParams
      let fdCost := if cost.isTar then 1 else cost.subfileCount
      pure ({ p with locked := true },
        [evictUnderPressure fdCost cost.metadataBytes, newSubPool r cost])
  | evictUnderPressure fdCost metadataBytes =>
    if p.fdOver fdCost || p.mdOver metadataBytes then
      pure (p, [collect (.pressure fdCost metadataBytes) (e.walk p.map) []])
    else
      pure (p, [])
  | collect ev [] candidates =>
    pure (p, [evict ev (ev.toEvict candidates.length) ((e.sort candidates).map Prod.fst)])
  | collect ev (it :: todo) candidates => do
    let s ← p.subpools[it.2]?.orUndefined
    if s.inUseCount = 0 then
      pure (p, [collect ev todo (candidates ++ [(it, ev.weight s)])])
    else
      pure (p, [collect ev todo candidates])
  | evict _ _ [] => pure (p, [])
  | evict ev left (it :: candidates) =>
    if ev.goesOn p left then do
      let s ← p.subpools[it.2]?.orUndefined
      if s.inUseCount = 0 then
        pure (p.erase it s, [evict ev (left - 1) candidates])
      else
        pure (p, [evict ev left candidates])
    else
      pure (p, [])
  | newSubPool r cost =>
    pure ({ p.insert r cost with locked := false }, [use r p.subpools.length false])
  | use r sp again => do
    let s ← p.subpools[sp]?.orUndefined
    let (s, file) ← s.getFree p.addresses e.opening
    match file with
    | some file =>
      pure ({ p with
        subpools  := p.subpools.set sp s
        addresses := p.addresses + 1
        entries   := p.entries ++ [{ file := some file, subpool := some sp }] }, [])
    | none      =>
      -- a second failure leaves the function with the exception
      pure (p, if e.opening = .failed false && !again then [evictLRU, use r sp true] else [])
  | evictLRU => pure ({ p with locked := true }, [collect .lru (e.walk p.map) [], unlock])
  | flushUnused => pure ({ p with locked := true }, [evictUnderPressure 0 0, flushIdle, unlock])
  | flushIdle => pure (p, [flush (some e.now) (e.walk p.map)])
  | flushAll => pure ({ p with locked := true }, [flush none (e.walk p.map), unlock])
  | flush _ [] => pure (p, [])
  | flush now (it :: todo) => do
    let s ← p.subpools[it.2]?.orUndefined
    if s.inUseCount = 0 && s.expired now then
      pure (p.erase it s, [flush now todo])
    else
      pure (p, [flush now todo])
  | unlock => pure ({ p with locked := false }, [])
  | construct => pure ({ p with entries := p.entries ++ [{}] }, [])
  | moveConstruct source => do
    let o ← p.entries[source]?.orUndefined
    pure ({ p with entries := p.entries.set source {} ++ [o] }, [])
  | moveAssign source target => do
    let o ← p.entries[source]?.orUndefined
    let this ← p.entries[target]?.orUndefined
    if source = target then
      pure (p, [])
    else do
      let p ← p.giveBack this e.now
      pure ({ p with entries := (p.entries.set source {}).set target o }, [])
  | destroy entry => do
    let this ← p.entries[entry]?.orUndefined
    let p ← p.giveBack this e.now
    pure ({ p with entries := p.entries.set entry {} }, [])
  | setLimits fdLimit mdLimit =>
    let limit (new default old : Nat) : Nat :=
      if new = 0 then default else if new = 2 ^ 64 - 1 then old else new
    pure ({ p with
      fdLimit            := limit fdLimit p.fdLimitDefault p.fdLimit
      metadataBytesLimit := limit mdLimit p.metadataBytesLimitDefault p.metadataBytesLimit }, [])

-- The tasks that take the lock of the pool.
def locks : Task → Bool
  | getFree _ | evictLRU | flushUnused | flushAll => true
  | _                                             => false

-- What a thread of the server begins with when it has nothing to do.
def begins : Task → Bool
  | getFree _ | flushUnused | flushAll | construct | moveConstruct _ | moveAssign _ _ | destroy _
  | setLimits _ _ => true
  | _             => false

end Task

variable (ι : Type*)

def program : Threads.Program ι Pool Task Choice where
  ready t p     := t.locks → ¬ p.locked
  exec e t p    := t.exec e p
  begins _ _ ts := ∃ t, ts = [t] ∧ t.begins

-- The pool before its first request, with any limits.
def Pool.Started (p : Pool) : Prop :=
  p = { fdLimit                   := p.fdLimit
        fdLimitDefault            := p.fdLimitDefault
        metadataBytesLimit        := p.metadataBytesLimit
        metadataBytesLimitDefault := p.metadataBytesLimitDefault }

end FilePool
