import Adios2.Helper.Theorems.Partitioner

-- What the greedy partitioning records about the partitions, how far their sizes are apart, and
-- where each rank is found.

namespace Helper

namespace Partitioning

-- The sum of the values of the ranks of a partition.
def load (values : List Nat) (partition : List Nat) : Nat :=
  (partition.map (values.getD · 0)).sum

section Load

variable {values partition : List Nat} {rank : Nat}

@[simp]
theorem load_nil (values : List Nat) : load values [] = 0 := rfl

theorem load_concat :
    load values (partition ++ [rank]) = load values partition + values.getD rank 0 := by
  simp [load]

end Load

section AddRank

variable {result : Partitioning} {values : List Nat} {x : Nat × Nat} {l : List (Nat × Nat)} {n : Nat}

-- The sizes are the sums, in 64 bits.
def Weighed (values : List Nat) (result : Partitioning) : Prop :=
  result.sizes = result.partitions.map (load values · % 2 ^ 64)

theorem weighed_empty (values : List Nat) (n : Nat) : (empty n).Weighed values := by
  simp [Weighed, empty]

theorem Weighed.getD (h : result.Weighed values) {i : Nat} (hi : i < result.partitions.length) :
    result.sizes.getD i 0 = load values (result.partitions.getD i []) % 2 ^ 64 := by
  rw [h, List.getD_eq_getElem _ _ (by rwa [List.length_map]), List.getD_eq_getElem _ _ hi,
    List.getElem_map]

theorem Weighed.addRank (h : result.Weighed values) (hsized : result.Sized n)
    (hx : x.1 = values.getD x.2 0) : (result.addRank x).Weighed values := by
  have hlt := hsized.smallest_lt x.1
  rw [← hsized.partitions] at hlt
  have hsize := h.getD hlt
  rw [Weighed, addRank_partitions, List.map_set, load_concat, ← hx, ← h]
  simp only [Partitioning.addRank]
  split
  case isTrue hzero =>
    have hplace : result.smallest x.1 < result.sizes.length := by
      rw [hsized.sizes, ← hsized.partitions]
      exact hlt
    rw [hzero, Nat.add_zero, ← hzero, ← hsize, List.getD_eq_getElem _ _ hplace,
      List.set_getElem_self]
  case isFalse hne =>
    have hplace : result.smallest x.1 = minElement result.sizes := if_neg hne
    rw [hplace] at hsize ⊢
    rw [hsize, Nat.mod_add_mod]

theorem Weighed.foldl (h : result.Weighed values) (hsized : result.Sized n)
    (hl : ∀ x ∈ l, x.1 = values.getD x.2 0) :
    (l.foldl Partitioning.addRank result).Weighed values := by
  induction l generalizing result with
  | nil => exact h
  | cons x l ih =>
    exact ih (h.addRank hsized (hl x List.mem_cons_self)) (hsized.addRank x) fun y hy =>
      hl y (List.mem_cons_of_mem _ hy)

-- No partition loses anything.
theorem exists_load_le (hsized : result.Sized n) {partition : List Nat}
    (hmem : partition ∈ result.partitions) :
    ∃ partition' ∈ (result.addRank x).partitions, load values partition ≤ load values partition' := by
  have hlt := hsized.smallest_lt x.1
  rw [← hsized.partitions] at hlt
  obtain ⟨i, hi, rfl⟩ := List.getElem_of_mem hmem
  rw [addRank_partitions]
  by_cases heq : result.smallest x.1 = i
  case pos =>
    subst heq
    refine ⟨_, List.mem_set hlt _, ?_⟩
    rw [load_concat, List.getD_eq_getElem _ _ hi]
    exact Nat.le_add_right _ _
  case neg =>
    have hmem' : result.partitions[i] ∈ result.partitions.set (result.smallest x.1)
        (result.partitions.getD (result.smallest x.1) [] ++ [x.2]) := by
      apply List.mem_of_getElem? (i := i)
      rw [List.getElem?_set_ne heq, List.getElem?_eq_getElem hi]
    exact ⟨_, hmem', le_rfl⟩

-- No sum is more than a bound above another one.
def Even (bound : Nat) (result : Partitioning) : Prop :=
  ∀ a ∈ result.sizes, ∀ b ∈ result.sizes, a ≤ b + bound

theorem Even.addRank {bound : Nat} (h : result.Even bound) (hweighed : result.Weighed values)
    (hsized : result.Sized n) (hx : x.1 = values.getD x.2 0) (hbound : x.1 ≤ bound)
    (hfits : ∀ partition ∈ (result.addRank x).partitions, load values partition < 2 ^ 64) :
    (result.addRank x).Even bound := by
  by_cases hzero : x.1 = 0
  case pos =>
    have hsame : (result.addRank x).sizes = result.sizes := by
      simp only [Partitioning.addRank, hzero, if_true]
    rwa [Even, hsame]
  case neg =>
    have hne : result.sizes ≠ [] := by
      have := hsized.pos
      rw [← List.length_pos_iff, hsized.sizes]
      exact this
    have hplace : result.smallest x.1 = minElement result.sizes := if_neg hzero
    have hlt : minElement result.sizes < result.partitions.length := by
      rw [hsized.partitions, ← hsized.sizes]
      exact minElement_lt hne
    have hmem : result.sizes.getD (minElement result.sizes) 0 ∈ result.sizes := by
      rw [List.getD_eq_getElem _ _ (minElement_lt hne)]
      exact List.getElem_mem _
    have hsum : (result.sizes.getD (minElement result.sizes) 0 + x.1) % 2 ^ 64
        = result.sizes.getD (minElement result.sizes) 0 + x.1 := by
      apply Nat.mod_eq_of_lt
      have hload := hfits _ (by
        rw [addRank_partitions, hplace]
        exact List.mem_set hlt _)
      rw [load_concat, ← hx] at hload
      rw [hweighed.getD hlt]
      exact (Nat.add_le_add_right (Nat.mod_le _ _) _).trans_lt hload
    have hsizes : (result.addRank x).sizes = result.sizes.set (minElement result.sizes)
        (result.sizes.getD (minElement result.sizes) 0 + x.1) := by
      simp only [Partitioning.addRank, hzero, if_false, hsum]
    intro a ha b hb
    rw [hsizes] at ha hb
    rcases List.mem_or_eq_of_mem_set ha with ha | rfl
    case inl =>
      rcases List.mem_or_eq_of_mem_set hb with hb | rfl
      case inl => exact h a ha b hb
      case inr =>
        have := h a ha _ hmem
        omega
    case inr =>
      rcases List.mem_or_eq_of_mem_set hb with hb | rfl
      case inl =>
        have := minElement_le hne hb
        omega
      case inr => exact Nat.le_add_right _ _

theorem even_foldl {bound : Nat} (hn : 0 < n) (hl : ∀ x ∈ l, x.1 = values.getD x.2 0)
    (hbound : ∀ x ∈ l, x.1 ≤ bound)
    (hfits : ∀ partition ∈ (l.foldl Partitioning.addRank (empty n)).partitions,
      load values partition < 2 ^ 64) :
    (l.foldl Partitioning.addRank (empty n)).Even bound := by
  induction l using List.reverseRecOn with
  | nil =>
    intro a ha b _
    rw [(List.mem_replicate.mp ha).2]
    exact Nat.zero_le _
  | append_singleton l x ih =>
    rw [List.foldl_append, List.foldl_cons, List.foldl_nil] at hfits ⊢
    have hsized := (sized_empty hn).foldl l
    have hl' (y : Nat × Nat) (hy : y ∈ l) := hl y (List.mem_append_left _ hy)
    have hlast : x ∈ l ++ [x] := List.mem_append_right _ List.mem_cons_self
    refine (ih hl' (fun y hy => hbound y (List.mem_append_left _ hy)) ?_).addRank
      ((weighed_empty values n).foldl (sized_empty hn) hl') hsized (hl x hlast) (hbound x hlast) hfits
    intro partition hmem
    have ⟨partition', hmem', hle⟩ := @exists_load_le _ values x n hsized partition hmem
    exact hle.trans_lt (hfits partition' hmem')

end AddRank

section FindPartition

variable {partitions : List (List Nat)} {result : Partitioning} {rank commSize n : Nat}

-- The loop keeps what it has found where there is nothing more.
theorem foldl_keep {α β : Type*} {p : α → Prop} [DecidablePred p] {f : α → β} {found : β}
    {l : List α} (h : ∀ a ∈ l, ¬ p a) :
    l.foldl (fun found a => if p a then f a else found) found = found := by
  induction l with
  | nil => rfl
  | cons a l ih =>
    rw [List.foldl_cons, if_neg (h a List.mem_cons_self)]
    exact ih fun b hb => h b (List.mem_cons_of_mem _ hb)

theorem findRankPartition_eq (hnodup : result.partitions.flatten.Nodup) {i : Nat}
    {nextPart : List Nat} (hpart : result.partitions[i]? = some nextPart) (hrank : rank ∈ nextPart) :
    result.findRankPartition rank = some {
      subStreamIndex := i
      aggregatorRank := toInt (nextPart.getD 0 0)
      rankOrder      := toInt (nextPart.idxOf rank)
      subStreams     := toInt result.partitions.length } := by
  have ⟨hi, hget⟩ := List.getElem?_eq_some_iff.mp hpart
  have hsplit : result.partitions
      = result.partitions.take i ++ nextPart :: result.partitions.drop (i + 1) := by
    rw [← hget, List.cons_getElem_drop_succ, List.take_append_drop]
  have hbehind : ∀ other ∈ (result.partitions.drop (i + 1)).zipIdx (i + 1), ¬ rank ∈ other.1 := by
    intro other hmem hrank'
    have hother : other.1 ∈ result.partitions.drop (i + 1) := List.fst_mem_of_mem_zipIdx hmem
    rw [hsplit, List.flatten_append, List.flatten_cons] at hnodup
    have ⟨_, hdisj, _⟩ := List.nodup_append.mp hnodup
    have ⟨_, _, hdisj⟩ := List.nodup_append.mp hdisj
    exact hdisj rank hrank rank (List.mem_flatten_of_mem hother hrank') rfl
  have hlen : (result.partitions.take i).length = i := List.length_take_of_le hi.le
  rw [findRankPartition]
  generalize result.partitions.length = subStreams
  rw [hsplit, List.zipIdx_append, List.foldl_append, List.zipIdx_cons, List.foldl_cons, hlen,
    Nat.zero_add]
  dsimp only
  rw [if_pos hrank]
  exact foldl_keep hbehind

theorem toInt_of_lt (h : n < 2 ^ 31) : toInt n = n :=
  Int.bmod_eq_of_le (by omega) (by omega)

end FindPartition

end Partitioning

open Partitioning

-- Each rank is found at its place.
structure Finds (result : Partitioning) (commSize : Nat) : Prop where
  find      : ∀ rank < commSize, ∃ found nextPart, ∃ rankOrder : Nat,
    result.findRankPartition rank = some found ∧
    result.partitions[found.subStreamIndex]? = some nextPart ∧
    found.rankOrder = rankOrder ∧ nextPart[rankOrder]? = some rank ∧
    nextPart[0]?.map (Nat.cast : Nat → Int) = some found.aggregatorRank
  injective : ∀ rank < commSize, ∀ rank' < commSize, ∀ found found',
    result.findRankPartition rank = some found → result.findRankPartition rank' = some found' →
    found.subStreamIndex = found'.subStreamIndex → found.rankOrder = found'.rankOrder → rank = rank'
  positions : ∀ (i : Nat) nextPart, result.partitions[i]? = some nextPart →
    ∀ rankOrder < nextPart.length, ∃ rank < commSize, ∃ found,
      result.findRankPartition rank = some found ∧
      found.subStreamIndex = i ∧ found.rankOrder = rankOrder

section Finds

variable {result : Partitioning} {commSize n : Nat}

theorem Partitions.rank_lt (h : Partitions result.partitions commSize n) {nextPart : List Nat}
    (hpart : nextPart ∈ result.partitions) {rank : Nat} (hrank : rank ∈ nextPart) :
    rank < commSize :=
  List.mem_range.mp (h.perm.mem_iff.mp (List.mem_flatten_of_mem hpart hrank))

theorem Partitions.length_le (h : Partitions result.partitions commSize n) {nextPart : List Nat}
    (hpart : nextPart ∈ result.partitions) : nextPart.length ≤ commSize := by
  have hsub := (List.sublist_flatten_of_mem hpart).length_le
  rwa [h.perm.length_eq, List.length_range] at hsub

-- The numbers of ranks are an `int`.
theorem Partitions.finds (h : Partitions result.partitions commSize n) (hint : commSize < 2 ^ 31) :
    Finds result commSize := by
  have hfind (rank : Nat) (hrank : rank < commSize) : ∃ (i : Nat) (nextPart : List Nat),
      result.partitions[i]? = some nextPart ∧ rank ∈ nextPart ∧
      result.findRankPartition rank = some {
        subStreamIndex := i
        aggregatorRank := (nextPart.getD 0 0 : Nat)
        rankOrder      := (nextPart.idxOf rank : Nat)
        subStreams     := toInt result.partitions.length } := by
    have hmem : rank ∈ result.partitions.flatten := h.perm.mem_iff.mpr (List.mem_range.mpr hrank)
    have ⟨nextPart, hpart, hrank⟩ := List.mem_flatten.mp hmem
    have ⟨i, hi⟩ := List.mem_iff_getElem?.mp hpart
    have hlen := h.length_le hpart
    have hidx := List.idxOf_lt_length_of_mem hrank
    have hhead : nextPart.getD 0 0 < commSize := by
      rw [List.getD_eq_getElem _ _ (by omega)]
      exact h.rank_lt hpart (List.getElem_mem _)
    refine ⟨i, nextPart, hi, hrank, ?_⟩
    rw [findRankPartition_eq h.nodup hi hrank, toInt_of_lt (by omega), toInt_of_lt (by omega)]
  constructor
  case find =>
    intro rank hrank
    have ⟨i, nextPart, hpart, hmem, heq⟩ := hfind rank hrank
    have hidx := List.idxOf_lt_length_of_mem hmem
    refine ⟨_, nextPart, _, heq, hpart, rfl, List.getElem?_idxOf hmem, ?_⟩
    have hpos : 0 < nextPart.length := by omega
    rw [List.getElem?_eq_getElem hpos, List.getD_eq_getElem _ _ hpos, Option.map_some]
  case injective =>
    intro rank hrank rank' hrank' found found' hfound hfound' hindex horder
    have ⟨i, nextPart, hpart, hmem, heq⟩ := hfind rank hrank
    have ⟨i', nextPart', hpart', hmem', heq'⟩ := hfind rank' hrank'
    cases heq.symm.trans hfound
    cases heq'.symm.trans hfound'
    dsimp only at hindex horder
    subst hindex
    cases hpart.symm.trans hpart'
    have := Int.ofNat.inj horder
    exact (List.idxOf_inj hmem).mp this
  case positions =>
    intro i nextPart hpart rankOrder hlt
    have hmem := List.mem_of_getElem? hpart
    have hrank := List.getElem_mem hlt
    have ⟨i', nextPart', hpart', hrank', heq⟩ := hfind _ (h.rank_lt hmem hrank)
    have hsame : Partitioning.findPartition nextPart[rankOrder] 0 result.partitions = some (0 + i) :=
      (findPartition_eq_some h.nodup).mpr ⟨_, hpart, hrank⟩
    have hsame' : Partitioning.findPartition nextPart[rankOrder] 0 result.partitions = some (0 + i') :=
      (findPartition_eq_some h.nodup).mpr ⟨_, hpart', hrank'⟩
    have hindex : i' = i := by
      have := Option.some.inj (hsame'.symm.trans hsame)
      omega
    subst hindex
    cases hpart.symm.trans hpart'
    refine ⟨_, h.rank_lt hmem hrank, _, heq, rfl, ?_⟩
    have hnodup : nextPart.Nodup := (List.nodup_flatten.mp h.nodup).1 _ hmem
    exact congrArg Int.ofNat (hnodup.idxOf_getElem _ hlt)

end Finds

-- The strategy as a whole.
structure GreedyPartitioning (values : List Nat) (n : Nat) (result : Partitioning) : Prop where
  partitions : Partitions result.partitions values.length n
  sizes      : result.sizes = result.partitions.map (load values · % 2 ^ 64)
  balanced   : (∀ partition ∈ result.partitions, load values partition < 2 ^ 64) →
    ∀ a ∈ result.sizes, ∀ b ∈ result.sizes, ∃ value ∈ values, a ≤ b + value
  finds      : values.length < 2 ^ 31 → Finds result values.length

-- There are as many ranks as partitions at least, and the values have 64 bits.
theorem greedyPartitioning (std : SortDescending) {values : List Nat} {n : Nat} (hn : 1 ≤ n)
    (hle : n ≤ values.length) (hvalues : ∀ value ∈ values, value < 2 ^ 64) :
    ∃ result, partitionGreedily std values n = .ok result ∧ GreedyPartitioning values n result := by
  have hparts := partitions_foldl std hn hle
  have hvalue (x : Nat × Nat) (hx : x ∈ ranked std values) : x.1 = values.getD x.2 0 := by
    have hmem := List.mem_zipIdx_iff_getElem?.mp ((std.perm _).mem_iff.mp hx)
    have ⟨value, hget, heq⟩ := Option.map_eq_some_iff.mp ((List.getElem?_map ..).symm.trans hmem)
    rw [← heq, List.getD_eq_getElem?_getD, hget, Option.getD_some]
    exact Nat.mod_eq_of_lt (hvalues value (List.mem_of_getElem? hget))
  refine ⟨_, partitionGreedily_eq std hn, hparts,
    (weighed_empty values n).foldl (sized_empty hn) hvalue, fun hfits a ha b hb => ?_, hparts.finds⟩
  have ⟨largest, hmem, hmax⟩ := values.toFinset.exists_max_image id (by
    rw [List.toFinset_nonempty_iff, ← List.length_pos_iff]
    omega)
  refine ⟨largest, List.mem_toFinset.mp hmem, ?_⟩
  apply even_foldl hn hvalue (fun x hx => ?_) hfits a ha b hb
  have hrank := (ranked_snd std values).mem_iff.mp (List.mem_map_of_mem (f := Prod.snd) hx)
  have hlt := List.mem_range.mp hrank
  rw [hvalue x hx, List.getD_eq_getElem _ _ hlt]
  exact hmax _ (List.mem_toFinset.mpr (List.getElem_mem hlt))

theorem greedyPartitioning_three : ∃ result,
    partitionGreedily stableSort [5, 0, 7] 2 = .ok result ∧
      GreedyPartitioning [5, 0, 7] 2 result :=
  greedyPartitioning stableSort (by decide) (by decide) (by decide)

-- A sum that has more than 64 bits is not what is recorded.
theorem not_greedyPartitioning_overflow : ∃ result,
    partitionGreedily stableSort [2 ^ 63, 2 ^ 63] 1 = .ok result ∧
      result.partitions = [[0, 1]] ∧ result.sizes = [0] ∧
      ¬ result.sizes = result.partitions.map (load [2 ^ 63, 2 ^ 63]) := by
  refine ⟨_, rfl, ?_, ?_, ?_⟩ <;> decide +kernel

end Helper
