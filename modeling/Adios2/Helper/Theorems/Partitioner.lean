import Mathlib
import Adios2.Helper.Partitioner

-- The greedy partitioning puts each rank into one partition, and leaves none of them empty if there
-- are enough ranks.

namespace Helper

variable {std : SortDescending}

theorem minElement_lt {l : List Nat} (hl : l ≠ []) : minElement l < l.length := by
  apply List.findIdx_lt_length_of_exists
  have ⟨a, ha, hmin⟩ := l.toFinset.exists_min_image id (by simpa using hl)
  refine ⟨a, by simpa using ha, ?_⟩
  simpa using hmin

theorem minElement_le {l : List Nat} (hl : l ≠ []) {a : Nat} (ha : a ∈ l) :
    l.getD (minElement l) 0 ≤ a := by
  have hlt := minElement_lt hl
  have hall := List.findIdx_getElem (w := hlt)
  rw [List.all_eq_true] at hall
  rw [List.getD_eq_getElem _ _ hlt]
  exact of_decide_eq_true (hall a ha)

theorem flatten_set_append (l : List (List Nat)) {i : Nat} (hi : i < l.length) (rank : Nat) :
    (l.set i (l.getD i [] ++ [rank])).flatten.Perm (rank :: l.flatten) := by
  induction l generalizing i with
  | nil => simp at hi
  | cons a l ih =>
    cases i with
    | zero => simp
    | succ i =>
      have := ih (Nat.lt_of_succ_lt_succ hi)
      simp only [List.set_cons_succ, List.flatten_cons, List.getD_cons_succ]
      exact (this.append_left a).trans List.perm_middle

namespace Partitioning

variable {result : Partitioning} {x : Nat × Nat}

-- The partition that a rank is added to.
def smallest (result : Partitioning) (dataSize : Nat) : Nat :=
  if dataSize = 0 then minElement (result.partitions.map List.length) else minElement result.sizes

theorem addRank_partitions : (result.addRank x).partitions
    = result.partitions.set (result.smallest x.1)
      (result.partitions.getD (result.smallest x.1) [] ++ [x.2]) := by
  simp only [addRank, smallest]
  split <;> rfl

structure Sized (result : Partitioning) (n : Nat) : Prop where
  pos        : 0 < n
  partitions : result.partitions.length = n
  sizes      : result.sizes.length = n

theorem Sized.smallest_lt {n : Nat} (h : result.Sized n) (dataSize : Nat) :
    result.smallest dataSize < n := by
  have hpos := h.pos
  unfold smallest
  split
  case isTrue =>
    have := minElement_lt (l := result.partitions.map List.length) fun hnil => by
      have := congrArg List.length hnil
      simp [h.partitions] at this
      omega
    simpa [h.partitions] using this
  case isFalse =>
    have := minElement_lt (l := result.sizes) fun hnil => by
      have := congrArg List.length hnil
      simp [h.sizes] at this
      omega
    simpa [h.sizes] using this

theorem Sized.addRank {n : Nat} (h : result.Sized n) (x : Nat × Nat) :
    (result.addRank x).Sized n := by
  refine { pos := h.pos, partitions := ?_, sizes := ?_ }
  · rw [addRank_partitions, List.length_set, h.partitions]
  · simp only [Partitioning.addRank]
    split
    · exact h.sizes
    · rw [List.length_set, h.sizes]

theorem sized_empty {n : Nat} (hn : 0 < n) : (empty n).Sized n :=
  ⟨hn, List.length_replicate, List.length_replicate⟩

theorem Sized.foldl {n : Nat} (h : result.Sized n) (l : List (Nat × Nat)) :
    (l.foldl Partitioning.addRank result).Sized n := by
  induction l generalizing result with
  | nil => exact h
  | cons x l ih => exact ih (h.addRank x)

theorem flatten_foldl {n : Nat} (h : result.Sized n) (l : List (Nat × Nat)) :
    (l.foldl Partitioning.addRank result).partitions.flatten.Perm
      (l.map Prod.snd ++ result.partitions.flatten) := by
  induction l generalizing result with
  | nil => exact .refl _
  | cons x l ih =>
    apply (ih (h.addRank x)).trans
    have hlt := h.partitions.symm ▸ h.smallest_lt x.1
    rw [addRank_partitions]
    apply ((flatten_set_append result.partitions hlt x.2).append_left _).trans
    exact List.perm_middle

-- How many partitions are still empty.
def emptyCount (result : Partitioning) : Nat := result.partitions.countP List.isEmpty

-- As long as only ranks with data have been added, those are the partitions without data.
def Loaded (result : Partitioning) : Prop :=
  ∀ i : Nat, result.sizes.getD i 0 = 0 ↔ result.partitions.getD i [] = []

-- While there is an empty partition, it is one of these that gets the next rank.
theorem isEmpty_smallest {n : Nat} (h : result.Sized n) (hload : x.1 ≠ 0 → result.Loaded)
    (hempty : 0 < result.emptyCount) :
    result.partitions.getD (result.smallest x.1) [] = [] := by
  have ⟨a, ha, hnil⟩ := List.countP_pos_iff.mp hempty
  obtain ⟨i, hi, rfl⟩ := List.getElem_of_mem ha
  rw [List.isEmpty_iff] at hnil
  by_cases hx : x.1 = 0
  case pos =>
    have hle := minElement_le (l := result.partitions.map List.length) (a := 0)
      (fun hmap => by simp [List.map_eq_nil_iff.mp hmap] at hi)
      (List.mem_map.mpr ⟨_, ha, by rw [hnil]; rfl⟩)
    have hlt : result.smallest x.1 < result.partitions.length := by
      rw [h.partitions]
      exact h.smallest_lt x.1
    simp only [smallest, hx, if_true] at hlt ⊢
    rw [List.getD_eq_getElem _ _ (by simpa using hlt), List.getElem_map] at hle
    rw [List.getD_eq_getElem _ _ hlt]
    exact List.length_eq_zero_iff.mp (Nat.le_zero.mp hle)
  case neg =>
    have hzero : result.sizes.getD i 0 = 0 := (hload hx i).mpr <| by
      rw [List.getD_eq_getElem _ _ hi, hnil]
    have hi' : i < result.sizes.length := by rw [h.sizes, ← h.partitions]; exact hi
    have hle := minElement_le (l := result.sizes) (a := 0)
      (fun hnil' => by simp [hnil'] at hi') <| by
        rw [List.getD_eq_getElem _ _ hi'] at hzero
        exact hzero ▸ List.getElem_mem hi'
    apply (hload hx _).mp
    simpa only [smallest, hx, if_false] using Nat.le_zero.mp hle

theorem emptyCount_addRank {n : Nat} (h : result.Sized n)
    (hload : 0 < result.emptyCount → x.1 ≠ 0 → result.Loaded) :
    (result.addRank x).emptyCount = result.emptyCount - 1 := by
  have hlt := h.partitions.symm ▸ h.smallest_lt x.1
  have hne : (result.partitions.getD (result.smallest x.1) [] ++ [x.2]).isEmpty = false := by simp
  rw [emptyCount, addRank_partitions, List.countP_set hlt, hne]
  by_cases hempty : 0 < result.emptyCount
  case pos =>
    have hnil := isEmpty_smallest h (hload hempty) hempty
    rw [List.getD_eq_getElem _ _ hlt] at hnil
    simp [hnil, emptyCount]
  case neg =>
    have hzero : result.partitions.countP List.isEmpty = 0 := Nat.le_zero.mp (not_lt.mp hempty)
    rw [emptyCount, hzero]
    simp

theorem Loaded.addRank {n : Nat} (h : result.Sized n) (hload : result.Loaded)
    (hempty : 0 < result.emptyCount) (hx : x.1 ≠ 0) (hlt : x.1 < 2 ^ 64) :
    (result.addRank x).Loaded := by
  intro i
  have hnil := @isEmpty_smallest result x n h (fun _ => hload) hempty
  have hplace := h.smallest_lt x.1
  rw [addRank_partitions]
  simp only [Partitioning.addRank, hx, if_false, smallest] at hplace hnil ⊢
  have hzero := (hload _).mpr hnil
  by_cases hi : minElement result.sizes = i
  case pos =>
    subst hi
    rw [hzero, Nat.zero_add, Nat.mod_eq_of_lt hlt]
    simp only [List.getD_eq_getElem?_getD, List.getElem?_set_self (h.sizes.symm ▸ hplace),
      List.getElem?_set_self (h.partitions.symm ▸ hplace), Option.getD_some]
    simp [hx]
  case neg =>
    simp only [List.getD_eq_getElem?_getD, List.getElem?_set_ne hi]
    have := hload i
    simpa only [List.getD_eq_getElem?_getD] using this

theorem loaded_empty (n : Nat) : (empty n).Loaded := by
  intro i
  simp only [empty, List.getD_eq_getElem?_getD, List.getElem?_replicate]
  split <;> simp

-- The largest come first: once there is a rank without data, there is no other one behind it.
theorem emptyCount_foldl {n : Nat} (h : result.Sized n) {l : List (Nat × Nat)}
    (hl : l.Pairwise fun a b => ¬ b.1 > a.1) (hlt : ∀ x ∈ l, x.1 < 2 ^ 64)
    (hload : 0 < result.emptyCount → result.Loaded ∨ ∀ x ∈ l, x.1 = 0) :
    (l.foldl Partitioning.addRank result).emptyCount = result.emptyCount - l.length := by
  induction l generalizing result with
  | nil => rfl
  | cons x l ih =>
    have ⟨hx, hl⟩ := List.pairwise_cons.mp hl
    have hload' (hempty : 0 < result.emptyCount) (hne : x.1 ≠ 0) : result.Loaded :=
      (hload hempty).resolve_right fun hall => hne (hall x List.mem_cons_self)
    have hcount := emptyCount_addRank h hload'
    have hnext (hempty : 0 < (result.addRank x).emptyCount) :
        (result.addRank x).Loaded ∨ ∀ y ∈ l, y.1 = 0 := by
      by_cases hzero : x.1 = 0
      · exact .inr fun y hy => by
          have := hx y hy
          omega
      · have hpos : 0 < result.emptyCount := by omega
        exact .inl (.addRank h (hload' hpos hzero) hpos hzero (hlt x List.mem_cons_self))
    rw [List.foldl_cons, ih (h.addRank x) hl (fun y hy => hlt y (List.mem_cons_of_mem _ hy)) hnext,
      hcount, List.length_cons]
    omega

theorem le_of_findPartition {partitions : List (List Nat)} {rank n i : Nat}
    (h : findPartition rank n partitions = some i) : n ≤ i := by
  induction partitions generalizing n with
  | nil => contradiction
  | cons partition partitions ih =>
    rw [findPartition, Option.or_eq_some_iff] at h
    rcases h with h | ⟨-, h⟩
    · exact Nat.le_of_succ_le (ih h)
    · split at h
      · cases h
        exact le_rfl
      · contradiction

theorem mem_of_findPartition {partitions : List (List Nat)} {rank n i : Nat}
    (h : findPartition rank n partitions = some i) : rank ∈ partitions.flatten := by
  induction partitions generalizing n with
  | nil => contradiction
  | cons partition partitions ih =>
    rw [findPartition, Option.or_eq_some_iff] at h
    rw [List.flatten_cons, List.mem_append]
    rcases h with h | ⟨-, h⟩
    · exact .inr (ih h)
    · split at h
      case isTrue hmem => exact .inl hmem
      case isFalse => contradiction

-- In a list in which no rank is twice, a rank has one partition.
theorem findPartition_eq_some {partitions : List (List Nat)} (hnodup : partitions.flatten.Nodup)
    {rank n i : Nat} : findPartition rank n partitions = some (n + i) ↔
      ∃ partition, partitions[i]? = some partition ∧ rank ∈ partition := by
  induction partitions generalizing n i with
  | nil => simp [findPartition]
  | cons partition partitions ih =>
    have ⟨_, htail, hdisj⟩ := List.nodup_append.mp hnodup
    rw [findPartition, Option.or_eq_some_iff]
    cases i with
    | zero =>
      constructor
      · rintro (h | ⟨-, h⟩)
        · have := le_of_findPartition h
          omega
        · split at h
          case isTrue hmem => exact ⟨partition, rfl, hmem⟩
          case isFalse => contradiction
      · rintro ⟨_, h, hmem⟩
        cases h
        refine .inr ⟨?_, by simp [hmem]⟩
        cases hfind : findPartition rank (n + 1) partitions with
        | none => rfl
        | some k =>
          exact absurd rfl (hdisj rank hmem rank (mem_of_findPartition hfind))
    | succ i =>
      rw [show n + (i + 1) = n + 1 + i by omega, ih htail]
      simp
      omega

end Partitioning

open Partitioning

-- What the partitions are: every rank is in one of them.
structure Partitions (partitions : List (List Nat)) (commSize n : Nat) : Prop where
  length : partitions.length = n
  perm   : partitions.flatten.Perm (List.range commSize)
  ne     : ∀ partition ∈ partitions, partition ≠ []

theorem Partitions.nodup {partitions : List (List Nat)} {commSize n : Nat}
    (h : Partitions partitions commSize n) : partitions.flatten.Nodup :=
  h.perm.nodup_iff.mpr List.nodup_range

-- What is sorted: the values with their ranks.
def ranked (std : SortDescending) (values : List Nat) : List (Nat × Nat) :=
  std.sort (values.map (· % 2 ^ 64)).zipIdx

theorem ranked_snd (std : SortDescending) (values : List Nat) :
    ((ranked std values).map Prod.snd).Perm (List.range values.length) := by
  apply ((std.perm _).map Prod.snd).trans
  rw [List.zipIdx_map_snd, List.range_eq_range', List.length_map]

theorem lt_of_mem_ranked {values : List Nat} {x : Nat × Nat} (hx : x ∈ ranked std values) :
    x.1 < 2 ^ 64 := by
  have hmem := List.mem_map_of_mem (f := Prod.fst) ((std.perm _).mem_iff.mp hx)
  rw [List.zipIdx_map_fst] at hmem
  have ⟨v, _, hv⟩ := List.mem_map.mp hmem
  rw [← hv]
  exact Nat.mod_lt _ (by decide)

theorem partitionGreedily_eq (std : SortDescending) {values : List Nat} {n : Nat} (hn : 0 < n) :
    partitionGreedily std values n
      = .ok ((ranked std values).foldl Partitioning.addRank (.empty n)) :=
  if_neg hn.ne'

theorem partitions_foldl (std : SortDescending) {values : List Nat} {n : Nat} (hn : 0 < n)
    (hle : n ≤ values.length) :
    Partitions ((ranked std values).foldl addRank (.empty n)).partitions values.length n := by
  have hsized := sized_empty hn
  refine ⟨(hsized.foldl _).partitions, ?_, ?_⟩
  · apply (flatten_foldl hsized _).trans
    have hnil : (empty n).partitions.flatten = [] := by simp [empty]
    rw [hnil, List.append_nil]
    exact ranked_snd std values
  · have hcount := emptyCount_foldl hsized (std.sorted (values.map (· % 2 ^ 64)).zipIdx)
      (fun _ => lt_of_mem_ranked) fun _ => .inl (loaded_empty n)
    have hempty : (empty n).emptyCount = n := by
      simp [emptyCount, empty, List.countP_replicate]
    rw [hempty, (std.perm _).length_eq, List.length_zipIdx, List.length_map,
      Nat.sub_eq_zero_of_le hle] at hcount
    intro partition hmem hnil
    exact absurd (List.countP_eq_zero.mp hcount partition hmem) (by simp [hnil])

theorem partitionGreedily_spec (std : SortDescending) {values : List Nat} {n : Nat} (hn : 0 < n)
    (hle : n ≤ values.length) : ∃ result, partitionGreedily std values n = .ok result ∧
      Partitions result.partitions values.length n :=
  ⟨_, partitionGreedily_eq std hn, partitions_foldl std hn hle⟩

theorem Partitions.findPartition {partitions : List (List Nat)} {commSize n : Nat}
    (h : Partitions partitions commSize n) {rank : Nat} (hr : rank < commSize) :
    ∃ i < n, findPartition rank 0 partitions = some i := by
  have hmem : rank ∈ partitions.flatten := h.perm.mem_iff.mpr (List.mem_range.mpr hr)
  obtain ⟨partition, hpart, hrank⟩ := List.mem_flatten.mp hmem
  obtain ⟨i, hi, rfl⟩ := List.getElem_of_mem hpart
  refine ⟨i, h.length ▸ hi, ?_⟩
  have := (findPartition_eq_some h.nodup (n := 0) (i := i)).mpr
    ⟨_, List.getElem?_eq_getElem hi, hrank⟩
  rwa [Nat.zero_add] at this

-- A sort that keeps the order of equal values.
def stableSort : SortDescending where
  sort   := List.insertionSort fun a b => b.1 ≤ a.1
  perm   := List.perm_insertionSort _
  sorted := by
    have htotal : Std.Total fun a b : Nat × Nat => b.1 ≤ a.1 := ⟨fun a b => Nat.le_total b.1 a.1⟩
    have htrans : IsTrans (Nat × Nat) fun a b => b.1 ≤ a.1 := ⟨fun _ _ _ h h' => h'.trans h⟩
    intro l
    apply (List.pairwise_insertionSort _ l).imp
    exact fun h => not_lt.mpr h

end Helper
