import Adios2.Lib.Lists
import Adios2.Format.BP5.Theorems.ContiguousMetadata

-- What comes out of aggregating the metadata of ranks in one level and in two.

namespace BP5

open Bytes FirstOccurrence

variable {e : Endian} {hash : List Byte → Digest}

theorem metaBuffer_eq (m : ContiguousMetadata) : metaBuffer e hash m = some (m.bytes e hash) := by
  rw [metaBuffer, m.copyMetadataToContiguous_eq, Option.bind_eq_bind, Option.bind_some,
    Cursor.fresh_zero_buffer]
  rfl

-- What is found in the buffers of some contributions.
def collected (hash : List Byte → Digest) (ms : List ContiguousMetadata) : Breakout where
  uniqueMetaMetaBlocks := firsts (·.metaMetaID) [] (ms.flatMap (·.newMetaMetaBlocks))
  metadataBlocks       := ms.flatMap (·.metaEncodeBuffers.map padded)
  attributeBlocks      := ms.flatMap (·.sent hash)
  dataSizes            := ms.flatMap (·.dataSizes)
  writerDataPositions  := ms.flatMap (·.writerDataPositions)

theorem foldl_add (ms : List ContiguousMetadata) :
    ms.foldl (Breakout.add hash) {} = collected hash ms := by
  have hfield {γ : Type} {f : Breakout → List γ} {g : ContiguousMetadata → List γ}
      (hempty : f {} = []) (hstep : ∀ b m, f (Breakout.add hash b m) = f b ++ g m) :
      f (ms.foldl (Breakout.add hash) {}) = ms.flatMap g := by
    rw [List.foldl_eq_append_flatMap hstep, hempty, List.nil_append]
  have hunique : (ms.foldl (Breakout.add hash) {}).uniqueMetaMetaBlocks
      = firsts (·.metaMetaID) [] (ms.flatMap (·.newMetaMetaBlocks)) := by
    have hall := Breakout.foldl_addUnique [] (ms.flatMap (·.newMetaMetaBlocks))
    rw [List.nil_append, List.map_nil, List.foldl_flatMap] at hall
    rw [← hall]
    exact (List.foldl_hom Breakout.uniqueMetaMetaBlocks fun _ _ => rfl).symm
  have hmetadata := hfield (f := (·.metadataBlocks)) rfl fun _ _ => rfl
  have hattributes := hfield (f := (·.attributeBlocks)) rfl fun _ _ => rfl
  have hsizes := hfield (f := (·.dataSizes)) rfl fun _ _ => rfl
  have hpositions := hfield (f := (·.writerDataPositions)) rfl fun _ _ => rfl
  rw [collected, ← hunique, ← hmetadata, ← hattributes, ← hsizes, ← hpositions]

theorem aggregateMetadata_eq {ms : List ContiguousMetadata} (hms : ∀ m ∈ ms, m.Fits hash) :
    aggregateMetadata e (ms.map (·.bytes e hash)) = some (collected hash ms) := by
  have hreads := Breakout.reads_ranks (e := e) (b := {}) hms 0 (within_self _)
  rw [aggregateMetadata, List.length_map, ← List.flatMap_def, breakoutContiguousMetadata,
    StateT.run'_eq]
  rw [hreads, foldl_add]
  rfl

-- An attribute block as it is sent.
def TimestepInfo.attribute (t : TimestepInfo) : List Byte :=
  padded (t.attributeEncodeBuffer.getD [])

theorem sent_contiguous (t : TimestepInfo) : t.contiguous.sent hash = [t.attribute] := by
  have hsent : sentAttributes hash [] [t.attributeEncodeBuffer] = [t.attribute] := by
    unfold TimestepInfo.attribute
    cases t.attributeEncodeBuffer with
    | none => rfl
    | some a =>
      cases a with
      | nil => rfl
      | cons _ _ => rfl
  exact hsent

-- What the aggregation of all ranks at once finds.
def oneLevelResult (ts : List TimestepInfo) : Breakout where
  uniqueMetaMetaBlocks := firsts (·.metaMetaID) [] (ts.flatMap (·.newMetaMetaBlocks))
  metadataBlocks       := ts.map (padded ·.metaEncodeBuffer)
  attributeBlocks      := ts.map TimestepInfo.attribute
  dataSizes            := ts.map (·.dataSize)
  writerDataPositions  := ts.map (·.startDataPos)

theorem collected_contiguous (ts : List TimestepInfo) :
    collected hash (ts.map TimestepInfo.contiguous) = oneLevelResult ts := by
  simp only [collected, List.flatMap_map, sent_contiguous, ← List.map_eq_flatMap, oneLevelResult]
  simp only [TimestepInfo.contiguous, List.map_cons, List.map_nil, ← List.map_eq_flatMap]

-- The buffers of all ranks fit into the memory of one.
def FitTogether (hash : List Byte → Digest) (ts : List TimestepInfo) : Prop :=
  (ts.map fun t => t.contiguous.retSize hash).sum < 2 ^ 64

theorem FitTogether.fits {ts : List TimestepInfo} (h : FitTogether hash ts) :
    ∀ m ∈ ts.map TimestepInfo.contiguous, m.Fits hash := by
  intro m hm
  obtain ⟨t, ht, rfl⟩ := List.mem_map.mp hm
  have hmem : t.contiguous.retSize hash ∈ ts.map fun t => t.contiguous.retSize hash :=
    List.mem_map_of_mem ht
  exact {
    retSize_lt   := (List.le_sum_of_mem hmem).trans_lt h
    dataSizes_lt := by simpa [TimestepInfo.contiguous] using t.dataSize_lt
    positions_lt := by simpa [TimestepInfo.contiguous] using t.startDataPos_lt
  }

theorem buffers_eq (ts : List TimestepInfo) :
    ts.mapM (fun t => metaBuffer e hash t.contiguous)
      = some ((ts.map TimestepInfo.contiguous).map (·.bytes e hash)) := by
  rw [List.map_map, List.mapM_eq_some_iff_forall₂, List.forall₂_map_right_iff]
  exact List.forall₂_same.mpr fun t _ => metaBuffer_eq _

theorem oneLevel_eq {ts : List TimestepInfo} (h : FitTogether hash ts) :
    oneLevelAggregationMetadata e hash ts = some (oneLevelResult ts) := by
  rw [oneLevelAggregationMetadata, buffers_eq, Option.bind_eq_bind, Option.bind_some,
    aggregateMetadata_eq h.fits, collected_contiguous]

-- The attribute blocks of a group, of which those come back empty that an earlier rank of the group
-- has sent already.
def withoutRepeats (hash : List Byte → Digest) (as : List (List Byte)) : List (List Byte) :=
  as.mapIdx fun i a => if hash a ∈ ((as.take i).filter (· ≠ [])).map hash then [] else a

theorem sentAttributes_cons (attrSet : List Digest) (a : List Byte)
    (as : List (Option (List Byte))) :
    sentAttributes hash attrSet (some a :: as) =
      if a = [] ∨ hash a ∈ attrSet then
        [] :: sentAttributes hash attrSet as
      else
        padded a :: sentAttributes hash (hash a :: attrSet) as := by
  have hlen : (some a).isSome ∧ 0 < attrLen (some a) ↔ a ≠ [] := by
    simp [attrLen, List.length_pos_iff]
  by_cases ha : a = []
  case pos =>
    rw [if_pos (.inl ha), sentAttributes, needThisAttr, if_neg (hlen.not.mpr (not_not.mpr ha))]
    rfl
  case neg =>
    rw [sentAttributes, needThisAttr, if_pos (hlen.mpr ha)]
    by_cases hseen : hash a ∈ attrSet
    case pos =>
      simp only [Option.getD_some, hseen, ha, or_true, if_true]
      rfl
    case neg =>
      simp only [Option.getD_some, hseen, ha, or_false, if_false]
      rfl

theorem sentAttributes_eq {attrSet : List Digest} {before as : List (List Byte)}
    (hseen : ∀ k, k ∈ attrSet ↔ k ∈ (before.filter (· ≠ [])).map hash)
    (has : ∀ a ∈ as, padded a = a) :
    sentAttributes hash attrSet (as.map some) = as.mapIdx fun i a =>
      if hash a ∈ (((before ++ as).take (before.length + i)).filter (· ≠ [])).map hash
        then [] else a := by
  induction as generalizing attrSet before with
  | nil => rfl
  | cons a as ih =>
    have has' : ∀ a ∈ as, padded a = a := fun a ha => has a (List.mem_cons_of_mem _ ha)
    have hshift (i : Nat) : ((before ++ [a]) ++ as).take ((before ++ [a]).length + i)
        = (before ++ a :: as).take (before.length + (i + 1)) := by
      simp [Nat.add_right_comm, Nat.add_assoc]
    rw [List.map_cons, sentAttributes_cons, List.mapIdx_cons, Nat.add_zero, List.take_left,
      has a List.mem_cons_self]
    simp only [← hshift, ← hseen (hash a)]
    by_cases ha : a = []
    case pos =>
      have hseen' (k : Digest) :
          k ∈ attrSet ↔ k ∈ ((before ++ [a]).filter (· ≠ [])).map hash := by
        simp [hseen, ha]
      rw [if_pos (.inl ha), ih hseen' has', ha, ite_self]
    case neg =>
      by_cases hmem : hash a ∈ attrSet
      case pos =>
        have hseen' (k : Digest) :
            k ∈ attrSet ↔ k ∈ ((before ++ [a]).filter (· ≠ [])).map hash := by
          rw [List.filter_append, List.map_append, List.mem_append, ← hseen]
          simp only [List.filter_cons, ha, ne_eq, not_false_eq_true, decide_true, if_true,
            List.filter_nil, List.map_cons, List.map_nil, List.mem_singleton]
          constructor
          · exact .inl
          · rintro (hk | rfl)
            · exact hk
            · exact hmem
        rw [if_pos (.inr hmem), if_pos hmem, ih hseen' has']
      case neg =>
        have hseen' (k : Digest) :
            k ∈ hash a :: attrSet ↔ k ∈ ((before ++ [a]).filter (· ≠ [])).map hash := by
          rw [List.filter_append, List.map_append, List.mem_append, ← hseen, List.mem_cons, or_comm]
          simp [ha]
        rw [if_neg (by simp [ha, hmem]), if_neg hmem, ih hseen' has']

theorem sent_group {ts : List TimestepInfo} :
    (oneLevelResult ts).contiguous.sent hash
      = withoutRepeats hash (ts.map TimestepInfo.attribute) := by
  have hpadded : ∀ a ∈ ts.map TimestepInfo.attribute, padded a = a := by
    intro a ha
    obtain ⟨t, -, rfl⟩ := List.mem_map.mp ha
    exact padded_padded _
  have hnone (k : Digest) : k ∈ [] ↔ k ∈ (([] : List (List Byte)).filter (· ≠ [])).map hash := by
    simp
  have hsent := sentAttributes_eq hnone hpadded
  simp only [List.nil_append, List.length_nil, Nat.zero_add] at hsent
  exact hsent

-- What a group hands over.
def groupContiguous : List TimestepInfo → ContiguousMetadata
  | [t] => t.contiguous
  | ts  => (oneLevelResult ts).contiguous

theorem groupBuffer_eq {ts : List TimestepInfo} (h : FitTogether hash ts) :
    groupBuffer e hash ts = some ((groupContiguous ts).bytes e hash) := by
  have hmany : (aggregateMetadata e ((ts.map TimestepInfo.contiguous).map (·.bytes e hash))).bind
      (fun b => metaBuffer e hash b.contiguous)
      = some ((oneLevelResult ts).contiguous.bytes e hash) := by
    rw [aggregateMetadata_eq h.fits, Option.bind_some, collected_contiguous, metaBuffer_eq]
  rw [groupBuffer, buffers_eq, Option.bind_eq_bind, Option.bind_some]
  match ts, hmany with
  | [_], _             => rfl
  | [], hmany          => exact hmany
  | _ :: _ :: _, hmany => exact hmany

theorem retSize_sum (m : ContiguousMetadata) : m.retSize hash
    = 40 + (m.newMetaMetaBlocks.map fun n => (n.bytes .little).length).sum
      + (m.metaEncodeBuffers.map fun b => 8 + alignedSize b.length).sum
      + ((m.sent hash).map fun a => 8 + a.length).sum
      + m.dataSizes.length * 8 + m.writerDataPositions.length * 8 := by
  have hnumbers (ns : List Nat) : (ns.map fun n => (u64 .little n).length).sum = ns.length * 8 := by
    simp
  rw [ContiguousMetadata.retSize_eq (e := .little)]
  simp only [ContiguousMetadata.bytes, List.length_append, counted_length, hnumbers]
  simp only [Function.comp_apply, blockBytes, List.length_append, u64_length, padded_length]
  omega

variable (hash) in
theorem withoutRepeats_sum (as : List (List Byte)) :
    ((withoutRepeats hash as).map fun a => 8 + a.length).sum
      ≤ (as.map fun a => 8 + a.length).sum := by
  apply List.Forall₂.sum_le_sum
  rw [withoutRepeats, List.forall₂_iff_get]
  simp only [List.length_map, List.length_mapIdx, List.get_eq_getElem, List.getElem_map,
    List.getElem_mapIdx, true_and]
  intro i _ _
  split
  · exact Nat.add_le_add_left (Nat.zero_le _) 8
  · exact le_rfl

-- A group hands over no more bytes than its ranks have.
theorem retSize_group {ts : List TimestepInfo} (hne : ts ≠ []) :
    (oneLevelResult ts).contiguous.retSize hash
      ≤ (ts.map fun t => t.contiguous.retSize hash).sum := by
  have hmeta : ((firsts (·.metaMetaID) [] (ts.flatMap (·.newMetaMetaBlocks))).map
      fun n => (n.bytes .little).length).sum
      ≤ (ts.map fun t => (t.newMetaMetaBlocks.map fun n => (n.bytes .little).length).sum).sum := by
    apply (List.Sublist.sum_le_sum (firsts_sublist.map _) fun _ _ => Nat.zero_le _).trans_eq
    rw [List.map_flatMap, List.flatMap_def, List.sum_flatten, List.map_map]
    rfl
  have hattr := withoutRepeats_sum hash (ts.map TimestepInfo.attribute)
  have hlen := List.length_pos_iff.mpr hne
  simp only [retSize_sum, sent_contiguous, sent_group]
  simp only [TimestepInfo.contiguous, Breakout.contiguous, oneLevelResult, List.map_map,
    Function.comp_def, List.map_cons, List.map_nil, List.sum_cons, List.sum_nil, Nat.add_zero,
    padded_length, alignedSize_alignedSize, List.length_map, List.length_singleton,
    List.sum_map_add, List.map_const', List.sum_replicate, smul_eq_mul] at hmeta hattr ⊢
  omega

theorem retSize_groupContiguous {ts : List TimestepInfo} (hne : ts ≠ []) :
    (groupContiguous ts).retSize hash ≤ (ts.map fun t => t.contiguous.retSize hash).sum := by
  unfold groupContiguous
  split
  · rw [List.map_singleton, List.sum_singleton]
  · exact retSize_group hne

-- What two levels find.
def twoLevelResult (hash : List Byte → Digest) (groups : List (List TimestepInfo)) : Breakout :=
  { oneLevelResult groups.flatten with
    attributeBlocks := groups.flatMap fun g => withoutRepeats hash (g.map TimestepInfo.attribute)
  }

-- A group on its own is like all ranks.
variable (hash) in
theorem groupContiguous_eq (ts : List TimestepInfo) :
    firsts (·.metaMetaID) [] (groupContiguous ts).newMetaMetaBlocks
      = firsts (·.metaMetaID) [] (ts.flatMap (·.newMetaMetaBlocks)) ∧
    (groupContiguous ts).metaEncodeBuffers.map padded = ts.map (padded ·.metaEncodeBuffer) ∧
    (groupContiguous ts).sent hash = withoutRepeats hash (ts.map TimestepInfo.attribute) ∧
    (groupContiguous ts).dataSizes = ts.map (·.dataSize) ∧
    (groupContiguous ts).writerDataPositions = ts.map (·.startDataPos) := by
  unfold groupContiguous
  split
  case h_1 t =>
    refine ⟨?_, rfl, ?_, rfl, rfl⟩
    · simp [TimestepInfo.contiguous]
    · rw [sent_contiguous]
      simp [withoutRepeats]
  case h_2 =>
    refine ⟨firsts_firsts (by simp), ?_, sent_group, rfl, rfl⟩
    simp [oneLevelResult, Breakout.contiguous, List.map_map, Function.comp_def]

theorem collected_groups (groups : List (List TimestepInfo)) :
    collected hash (groups.map groupContiguous) = twoLevelResult hash groups := by
  have hpart (g : List TimestepInfo) := groupContiguous_eq hash g
  have hunique : firsts (·.metaMetaID) []
      (groups.flatMap fun g => (groupContiguous g).newMetaMetaBlocks)
      = firsts (·.metaMetaID) [] (groups.flatten.flatMap (·.newMetaMetaBlocks)) := by
    rw [← firsts_flatMap_firsts]
    simp only [(hpart _).1]
    rw [firsts_flatMap_firsts, List.flatten_eq_flatMap, List.flatMap_assoc]
    rfl
  have hmap {β : Type} (f : TimestepInfo → β) :
      groups.flatMap (List.map f) = groups.flatten.map f := by
    rw [List.map_flatten, List.flatMap_def]
  simp only [collected, List.flatMap_map, hunique, (hpart _).2, hmap]
  rfl

theorem FitTogether.of_mem {g : List TimestepInfo} {groups : List (List TimestepInfo)}
    (hg : g ∈ groups) (h : FitTogether hash groups.flatten) : FitTogether hash g := by
  have hsub := (List.sublist_flatten_of_mem hg).map fun t => t.contiguous.retSize hash
  exact (hsub.sum_le_sum fun _ _ => Nat.zero_le _).trans_lt h

theorem groups_fit {groups : List (List TimestepInfo)} (hne : ∀ g ∈ groups, g ≠ [])
    (h : FitTogether hash groups.flatten) : ∀ m ∈ groups.map groupContiguous, m.Fits hash := by
  intro m hm
  obtain ⟨g, hg, rfl⟩ := List.mem_map.mp hm
  have hfit := h.of_mem hg
  have hpart := groupContiguous_eq hash g
  exact {
    retSize_lt   := (retSize_groupContiguous (hne g hg)).trans_lt hfit
    dataSizes_lt := by
      rw [hpart.2.2.2.1]
      simpa using fun t _ => t.dataSize_lt
    positions_lt := by
      rw [hpart.2.2.2.2]
      simpa using fun t _ => t.startDataPos_lt
  }

theorem twoLevel_eq {groups : List (List TimestepInfo)} (hne : ∀ g ∈ groups, g ≠ [])
    (h : FitTogether hash groups.flatten) :
    twoLevelAggregationMetadata e hash groups = some (twoLevelResult hash groups) := by
  have hbuffers : groups.mapM (groupBuffer e hash)
      = some ((groups.map groupContiguous).map (·.bytes e hash)) := by
    rw [List.map_map, List.mapM_eq_some_iff_forall₂, List.forall₂_map_right_iff]
    exact List.forall₂_same.mpr fun g hg => groupBuffer_eq (h.of_mem hg)
  rw [twoLevelAggregationMetadata, hbuffers, Option.bind_eq_bind, Option.bind_some,
    aggregateMetadata_eq (groups_fit hne h), collected_groups]

-- The round trip of all ranks in one level and in two. Every buffer is written to its last byte, and
-- a second level makes a difference for attribute blocks only.
theorem contiguousMetadata {groups : List (List TimestepInfo)} (hne : ∀ g ∈ groups, g ≠ [])
    (h : FitTogether hash groups.flatten) :
    (∀ m : ContiguousMetadata, ∃ buffer,
      m.copyMetadataToContiguous e hash = some { buffer, position := m.retSize hash } ∧
      buffer.length = m.retSize hash) ∧
    oneLevelAggregationMetadata e hash groups.flatten = some (oneLevelResult groups.flatten) ∧
    twoLevelAggregationMetadata e hash groups = some {
      oneLevelResult groups.flatten with
      attributeBlocks :=
        groups.flatMap fun g => withoutRepeats hash (g.map TimestepInfo.attribute)
    } := by
  refine ⟨fun m => ⟨m.bytes e hash, ?_, ?_⟩, oneLevel_eq h, twoLevel_eq hne h⟩
  · rw [ContiguousMetadata.copyMetadataToContiguous_eq, ContiguousMetadata.retSize_eq (e := e)]
    simp [Cursor.fresh]
  · exact (ContiguousMetadata.retSize_eq).symm

section OneGroup

-- Two ranks with the same attribute block.
def attributeRank (dataSize : Nat) (hsize : dataSize < 2 ^ 64) : TimestepInfo where
  newMetaMetaBlocks     := []
  metaEncodeBuffer      := [1]
  attributeEncodeBuffer := some [7]
  dataSize              := dataSize
  startDataPos          := 0
  dataSize_lt           := hsize
  startDataPos_lt       := by decide

def attributeRanks : List TimestepInfo :=
  [attributeRank 8 (by decide), attributeRank 16 (by decide)]

theorem attributeRanks_fitTogether : FitTogether id attributeRanks := by
  unfold FitTogether
  decide

theorem contiguousMetadata_attributeRanks :
    (∀ m : ContiguousMetadata, ∃ buffer,
      m.copyMetadataToContiguous .little id = some { buffer, position := m.retSize id } ∧
      buffer.length = m.retSize id) ∧
    oneLevelAggregationMetadata .little id [attributeRanks].flatten
      = some (oneLevelResult [attributeRanks].flatten) ∧
    twoLevelAggregationMetadata .little id [attributeRanks] = some {
      oneLevelResult [attributeRanks].flatten with
      attributeBlocks :=
        [attributeRanks].flatMap fun g => withoutRepeats id (g.map TimestepInfo.attribute)
    } :=
  contiguousMetadata (by decide) attributeRanks_fitTogether

theorem twoLevel_ne_oneLevel :
    twoLevelAggregationMetadata .little id [attributeRanks]
      ≠ oneLevelAggregationMetadata .little id attributeRanks := by
  rw [twoLevel_eq (by decide) attributeRanks_fitTogether, oneLevel_eq attributeRanks_fitTogether]
  decide

end OneGroup

end BP5
