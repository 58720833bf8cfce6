import Adios2.Helper.Log

-- The partitioning of the ranks by the size of their data: `PartitionRanks` with the greedy
-- strategy, and `FindPartition`.

namespace Helper

-- `std::sort` of the values with their ranks, the largest first. It leaves open in which order
-- equal values come.
structure SortDescending where
  sort   : List (Nat × Nat) → List (Nat × Nat)
  perm   : ∀ l, (sort l).Perm l
  sorted : ∀ l, (sort l).Pairwise fun a b => ¬ b.1 > a.1

-- The ranks of each partition, and the sum of their sizes.
structure Partitioning where
  partitions : List (List Nat)
  sizes      : List Nat

-- `std::min_element`: the position of the first element that no other one is smaller than.
def minElement (l : List Nat) : Nat :=
  l.findIdx fun a => l.all (a ≤ ·)

namespace Partitioning

-- A rank without data goes to the shortest partition, any other one to that with the least data.
def addRank (result : Partitioning) (valueAndIndex : Nat × Nat) : Partitioning :=
  let (dataSize, rank) := valueAndIndex
  if dataSize = 0 then
    let smallest := minElement <| result.partitions.map List.length
    { result with
      partitions := result.partitions.set smallest (result.partitions.getD smallest [] ++ [rank]) }
  else
    let smallest := minElement result.sizes
    { partitions := result.partitions.set smallest (result.partitions.getD smallest [] ++ [rank])
      sizes      :=
        result.sizes.set smallest ((result.sizes.getD smallest 0 + dataSize) % 2 ^ 64) }

def empty (numberOfPartitions : Nat) : Partitioning where
  partitions := List.replicate numberOfPartitions []
  sizes      := List.replicate numberOfPartitions 0

-- The index in the result of `FindPartition`: that of the partition which a rank is in. If it were in several, that would be the last one.
def findPartition (rank : Nat) : Nat → List (List Nat) → Option Nat
  | _, []                   => none
  | i, partition :: partitions =>
    (findPartition rank (i + 1) partitions).or (if rank ∈ partition then some i else none)

-- `static_cast<int>`
def toInt (n : Nat) : Int := (n : Int).bmod (2 ^ 32)

structure RankPartition where
  subStreamIndex : Nat
  aggregatorRank : Int
  rankOrder      : Int
  subStreams     : Int
  deriving DecidableEq, Repr

-- `FindPartition` with all that it returns. There is `none` where nothing has been assigned.
def findRankPartition (result : Partitioning) (parentRank : Nat) : Option RankPartition :=
  result.partitions.zipIdx.foldl (fun found (nextPart, i) =>
    if parentRank ∈ nextPart then
      some {
        subStreamIndex := i
        aggregatorRank := toInt (nextPart.getD 0 0)
        rankOrder      := toInt (nextPart.idxOf parentRank)
        subStreams     := toInt result.partitions.length }
    else
      found) none

end Partitioning

-- The values and their sums have 64 bits.
def partitionGreedily (std : SortDescending) (values : List Nat) (numberOfPartitions : Nat) :
    Outcome Partitioning :=
  if numberOfPartitions = 0 then
    .error <| .thrown "Helper" "adiosPartitioner" "PartitionGreedily"
      "numberOfPartitions must be positive"
  else
    .ok <| (std.sort (values.map (· % 2 ^ 64)).zipIdx).foldl Partitioning.addRank <| .empty numberOfPartitions

end Helper
