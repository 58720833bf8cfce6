import Adios2.Helper.Partitioner
import Adios2.Engine.BP5.DataPlacement

-- Aggregation by data size: with each step the ranks are dealt out to the subfiles anew, by the
-- size of their first write in that step. A writer also goes on with files that exist.

namespace BP5

open Helper

-- `helper::SetWithinLimit`
def setWithinLimit (value minValue maxValue : Nat) : Nat :=
  let v := if value < minValue then minValue else value
  if v > maxValue then maxValue else v

-- The parameters of a writer, with what it finds out about its ranks.
structure DataSizeParams where
  stripeSize       : Nat
  asyncWrite       : Bool
  numAggregators   : Nat
  numSubFiles      : Nat
  aggregatorRatio  : Nat
  appendAfterSteps : Int
  commSize         : Nat
  numNodes         : Nat
  stripeSize_pos   : 0 < stripeSize
  numNodes_pos     : 0 < numNodes
  numNodes_le      : numNodes ≤ commSize

namespace DataSizeParams

variable (p : DataSizeParams)

-- What `InitParameters` makes of `NumSubFiles`.
def initNumSubFiles : Nat :=
  let numAggregators := setWithinLimit p.numAggregators 0 p.commSize
  let numSubFiles := setWithinLimit p.numSubFiles 0 p.commSize
  let aggregatorRatio := setWithinLimit p.aggregatorRatio 0 p.commSize
  let numAggregators :=
    if numAggregators = 0 then
      if aggregatorRatio > 0 then setWithinLimit (p.commSize / aggregatorRatio) 0 p.commSize
      else if numSubFiles > 0 then setWithinLimit numSubFiles 0 p.commSize
      else numAggregators
    else numAggregators
  setWithinLimit numSubFiles 0 numAggregators

-- The number of partitions in `GetPartitionInfo`. The default is one for each node.
def subStreams : Nat :=
  if p.initNumSubFiles = 0 then p.numNodes else p.initNumSubFiles

-- `WriteData_EveryoneWrites_Async` has no branch for the shared position, and it always sends the
-- token before the write.
def placement : PlacementParams where
  stripeSize        := p.stripeSize
  dataSizeBased     := !p.asyncWrite
  serializedWriters := !p.asyncWrite
  stripeSize_pos    := p.stripeSize_pos

end DataSizeParams

-- A write of all ranks, with the subfile that each of them has written to.
structure PlacedWrite extends DataWrite where
  subStreamIndex : List Nat

-- The writer map in the metadata index.
structure WriterMap where
  writerCount     : Nat := 0
  aggregatorCount : Nat := 0
  subfileCount    : Nat := 0
  writerToFileMap : List Nat := []

-- The records of the metadata index. That of a step tells where the writes of the step went.
inductive IndexEntry
  | writerMap (m : WriterMap)
  | step (writes : List PlacedWrite)

def IndexEntry.isStep : IndexEntry → Bool
  | .writerMap _ => false
  | .step _      => true

def IndexEntry.writes : IndexEntry → List PlacedWrite
  | .writerMap _ => []
  | .step writes => writes

-- What is on disk: the index, if it has a header, and the sizes of the data files.
structure DataFiles where
  index : Option (List IndexEntry) := none
  size  : Nat → Nat                := fun _ => 0

namespace DataFiles

def entries (f : DataFiles) : List IndexEntry := f.index.getD []

def writes (f : DataFiles) : List PlacedWrite := f.entries.flatMap IndexEntry.writes

-- The files grow with what is written behind their end.
def write (f : DataFiles) (w : PlacedWrite) : DataFiles :=
  { f with
    size := fun i =>
      (List.range w.subStreamIndex.length).foldl
        (fun size r =>
          if w.subStreamIndex[r]? = some i ∧ 0 < w.size r then max size (w.start r + w.size r)
          else size)
        (f.size i) }

end DataFiles

section CountSteps

-- The number of data files, over all writer maps.
def nDataFiles : List IndexEntry → Nat
  | []                => 0
  | .writerMap m :: es => max m.subfileCount (nDataFiles es)
  | .step _ :: es      => nDataFiles es

def appendTargetStep (appendAfterSteps : Int) (availableSteps : Nat) : Nat :=
  let targetStep :=
    if appendAfterSteps < 0 then (availableSteps + appendAfterSteps + 1).toNat
    else appendAfterSteps.toNat
  if targetStep > availableSteps then availableSteps else targetStep

-- A write position in a subfile. `none` is `MaxSizeT`.
def lowerDataPos (appendDataPos : List (Option Nat)) (subfile firstDataPos : Nat) :
    Outcome (List (Option Nat)) := do
  match ← appendDataPos[subfile]?.orUndefined with
  | none     => pure <| appendDataPos.set subfile (some firstDataPos)
  | some pos =>
    pure <| if firstDataPos < pos then appendDataPos.set subfile (some firstDataPos)
      else appendDataPos

-- The smallest position of the first write of a step in each subfile, over all writers.
def lowerDataPositions (m : WriterMap) (w : PlacedWrite) (appendDataPos : List (Option Nat)) :
    Outcome (List (Option Nat)) :=
  (List.range m.writerCount).foldlM
    (fun appendDataPos i => do
      lowerDataPos appendDataPos (← m.writerToFileMap[i]?.orUndefined) (w.start i))
    appendDataPos

-- The loop up to the step behind the last one that is kept.
def appendDataPosAt (targetStep : Nat) : Nat → WriterMap → List IndexEntry → List (Option Nat) →
    Outcome (List (Option Nat))
  | _, _, [], appendDataPos                           => .ok appendDataPos
  | currentStep, _, .writerMap m :: es, appendDataPos =>
    appendDataPosAt targetStep currentStep m es appendDataPos
  | currentStep, m, .step writes :: es, appendDataPos =>
    if currentStep = targetStep then do
      lowerDataPositions m (← writes.head?.orUndefined) appendDataPos
    else
      appendDataPosAt targetStep (currentStep + 1) m es appendDataPos

-- The target step with the position of each subfile.
def countStepsInMetadataIndex (p : DataSizeParams) (index : Option (List IndexEntry)) :
    Outcome (Nat × List (Option Nat)) :=
  match index with
  | none    => .ok (0, List.replicate p.subStreams (some 0))
  | some es =>
    let availableSteps := es.countP IndexEntry.isStep
    let targetStep := appendTargetStep p.appendAfterSteps availableSteps
    if targetStep = 0 then
      .ok (0, List.replicate (nDataFiles es) (some 0))
    else if targetStep = availableSteps then
      .ok (targetStep, List.replicate (nDataFiles es) none)
    else do
      let appendDataPos ← appendDataPosAt targetStep 0 {} es (List.replicate (nDataFiles es) none)
      pure (targetStep, appendDataPos)

-- The records before a step. The writer map of the step is in front of them and stays.
def entriesBefore : Nat → List IndexEntry → List IndexEntry
  | _, []                     => []
  | n, .writerMap m :: es     => .writerMap m :: entriesBefore n es
  | 0, .step _ :: _           => []
  | n + 1, .step writes :: es => .step writes :: entriesBefore n es

-- The index is truncated, at 0 also its header is gone.
def truncateIndex (targetStep : Nat) (index : Option (List IndexEntry)) :
    Option (List IndexEntry) :=
  if targetStep = 0 then none else index.map (entriesBefore targetStep)

end CountSteps

-- All ranks of a writer, and the files it writes.
structure DataSizeWriter where
  p                     : DataSizeParams
  append                : Bool
  writerStep            : Nat              := 0
  ranks                 : WriterRanks      := fun _ => {}
  partitions            : List (List Nat)  := []
  subStreamIndex        : List Nat         := []
  aggregatorInitialized : Bool             := false
  stepWrites            : List PlacedWrite := []
  files                 : DataFiles

-- What all ranks do together. Each writes the given number of bytes.
inductive WriterOp
  | performDataWrite (size : Nat → Nat)
  | endStep (size : Nat → Nat)

def WriterOp.size : WriterOp → Nat → Nat
  | .performDataWrite size => size
  | .endStep size          => size

namespace DataSizeWriter

variable (std : SortDescending)

-- The files of a new run are empty, whatever was there.
def openFiles (p : DataSizeParams) (append : Bool) (files : DataFiles) : DataSizeWriter where
  p      := p
  append := append
  files  := if append then files else {}

-- All that is written and counts, in the order in which it was written.
def writes (s : DataSizeWriter) : List PlacedWrite := s.files.writes ++ s.stepWrites

-- The partitions that the ranks get when `size` is the first write of a step.
def getPartitions (s : DataSizeWriter) (size : Nat → Nat) : Outcome (List (List Nat)) := do
  let result ← partitionGreedily std ((List.range s.p.commSize).map size) s.p.subStreams
  pure result.partitions

def initAggregator (s : DataSizeWriter) (size : Nat → Nat) : Outcome DataSizeWriter := do
  let partitions ← s.getPartitions std size
  let subStreamIndex ← ((List.range s.p.commSize).mapM fun rank =>
    Partitioning.findPartition rank 0 partitions).orUndefined
  pure { s with partitions, subStreamIndex }

-- Where the aggregator of a subfile goes on in it. A file that is not truncated is as it is.
def appendPos (s : DataSizeWriter) (appendDataPos : List (Option Nat)) (i : Nat) : Nat :=
  match appendDataPos[i]? with
  | some (some off) => off
  | _               => s.files.size i

-- The aggregators, and rank 0 with the index, truncate and seek.
def truncateAndSeek (s : DataSizeWriter) (targetStep : Nat) (appendDataPos : List (Option Nat)) :
    DataSizeWriter :=
  let isAggregator (r i : Nat) : Bool := (s.partitions.getD i []).head? = some r
  { s with
    writerStep := targetStep
    ranks := fun r =>
      match (List.range s.partitions.length).find? (isAggregator r) with
      | some i => { s.ranks r with dataPos := s.appendPos appendDataPos i }
      | none   => s.ranks r
    files :=
      { index := truncateIndex targetStep s.files.index
        size  := fun i =>
          if i < s.partitions.length then s.appendPos appendDataPos i else s.files.size i } }

-- Each aggregator accesses the vector at the index of its subfile.
def initBPBuffer (s : DataSizeWriter) : Outcome DataSizeWriter :=
  if s.append ∧ s.writerStep = 0 then do
    let (targetStep, appendDataPos) ← countStepsInMetadataIndex s.p s.files.index
    if s.partitions.length > appendDataPos.length then
      .error .undefined
    else
      pure <| s.truncateAndSeek targetStep appendDataPos
  else
    pure s

-- Ranks keep their subfile for a whole step.
def startStep (s : DataSizeWriter) (size : Nat → Nat) : Outcome DataSizeWriter :=
  if s.aggregatorInitialized then
    pure s
  else do
    let s ← s.initAggregator std size
    let s ← s.initBPBuffer
    pure { s with aggregatorInitialized := true }

-- The data go to the files that the ranks have open for their subfile.
def placeWrite (s : DataSizeWriter) (size : Nat → Nat) : DataSizeWriter :=
  let ranks := writeData s.p.placement size 0 s.partitions s.ranks
  let w : PlacedWrite :=
    { size, start := fun r => (ranks r).startDataPos, subStreamIndex := s.subStreamIndex }
  { s with ranks, stepWrites := s.stepWrites ++ [w], files := s.files.write w }

-- The records of the step, which get into the index at the latest when the files are closed, and
-- the positions for the next step.
def finishStep (s : DataSizeWriter) : DataSizeWriter :=
  let writerMap : WriterMap :=
    { writerCount     := s.p.commSize
      aggregatorCount := s.p.subStreams
      subfileCount    := s.p.subStreams
      writerToFileMap := s.subStreamIndex }
  { s with
    ranks                 := shareDataPos s.partitions s.ranks
    files                 := { s.files with
      index := some <| s.files.entries ++ [.writerMap writerMap, .step s.stepWrites] }
    stepWrites            := []
    writerStep            := s.writerStep + 1
    aggregatorInitialized := false }

def step (s : DataSizeWriter) : WriterOp → Outcome DataSizeWriter
  | .performDataWrite size => do
    let s ← s.startStep std size
    pure <| s.placeWrite size
  | .endStep size          => do
    let s ← s.startStep std size
    pure <| (s.placeWrite size).finishStep

def run (s : DataSizeWriter) (ops : List WriterOp) : Outcome DataSizeWriter :=
  ops.foldlM (step std) s

end DataSizeWriter

end BP5
