import Adios2.Engine.BP5.Theorems.MetadataIndexDelivery

-- Runs of a writer and a reader of an index file, in terms of the writer's steps.

namespace BP5

open Bytes

variable {e : Endian} {p : ReaderParams} {h : HeaderInfo} {steps : List IndexStep}

-- The size of the index file after these steps.
def indexSize (e : Endian) (h : HeaderInfo) (steps : List IndexStep) : Nat :=
  (steps.flatMap (indexStepBytes e h)).length

-- After looks at a file when it has these sizes, the reader has seen, each once and in order, the
-- steps of the file from the first one on. A step that is not among them is not complete yet in
-- what the last look has found, or the last look has stopped at the limit of the streaming mode.
def Delivers (e : Endian) (h : HeaderInfo) (p : ReaderParams) (steps : List IndexStep)
    (file : List Byte) (sizes : List Nat) : Prop :=
  ∃ r seen, IndexReader.polls p file {} sizes = .ok (r, seen) ∧
    ∃ m ≤ steps.length, seen.flatten = (IndexView.after p (steps.take m)).seen ∧
      ∀ last, sizes.getLast? = some last →
        indexSize e h (steps.take m) ≤ (file.take last).length ∧
        (m = steps.length ∨ (file.take last).length < indexSize e h (steps.take (m + 1)) ∨
          p.openMode = .read ∧ p.maxMetadataSizeInMemory
            ≤ ((seen.getLastD []).map SeenStep.metadataSize).sum)

namespace IndexStep

theorem records_foldl (v : IndexView) (s : IndexStep) :
    s.records.foldl (IndexRecord.addTo p) v = v.next p s := by
  unfold records IndexView.next
  split <;> rfl

theorem records_length (s : IndexStep) : s.records.length = 1 ∨ s.records.length = 2 := by
  unfold records
  split <;> simp

-- Before the last record of a step nothing of it is seen.
theorem records_take_seen (v : IndexView) {s : IndexStep} {k : Nat}
    (hk : k < s.records.length) :
    ((s.records.take k).foldl (IndexRecord.addTo p) v).seen = v.seen := by
  unfold records at *
  by_cases hm : s.writerSubfileMap.isEmpty
  case pos =>
    obtain rfl : k = 0 := by simpa [hm] using hk
    rfl
  case neg =>
    simp only [hm, Bool.false_eq_true, if_false, List.length_append, List.length_singleton] at hk ⊢
    have hk' : k = 0 ∨ k = 1 := by omega
    rcases hk' with rfl | rfl <;> rfl

-- A number of records, as a number of steps.
theorem exists_take_of_records (v : IndexView) {k : Nat}
    (hk : k ≤ (steps.flatMap records).length) :
    ∃ m ≤ steps.length, m ≤ k ∧
      (((steps.flatMap records).take k).foldl (IndexRecord.addTo p) v).seen
        = ((steps.take m).foldl (IndexView.next p) v).seen ∧
      (((steps.take m).flatMap records).flatMap (IndexRecord.bytes e)).length
        ≤ (((steps.flatMap records).take k).flatMap (IndexRecord.bytes e)).length ∧
      (k = (steps.flatMap records).length → m = steps.length) ∧
      (k < (steps.flatMap records).length →
        (((steps.flatMap records).take (k + 1)).flatMap (IndexRecord.bytes e)).length
          ≤ (((steps.take (m + 1)).flatMap records).flatMap (IndexRecord.bytes e)).length) := by
  induction steps generalizing v k with
  | nil => exact ⟨0, by simp⟩
  | cons s steps ih =>
    have hpos : 0 < s.records.length := by
      rcases s.records_length with h | h <;> omega
    rcases Nat.lt_or_ge k s.records.length with hlt | hge
    case inl =>
      refine ⟨0, Nat.zero_le _, Nat.zero_le _, ?_, by simp, ?_, fun _ => ?_⟩
      · rw [List.flatMap_cons, List.take_append_of_le_length hlt.le, records_take_seen v hlt]
        rfl
      · simp
        omega
      · rw [List.flatMap_cons, List.take_append_of_le_length hlt]
        simp only [List.take_succ_cons, List.take_zero, List.flatMap_cons, List.flatMap_nil,
          List.append_nil]
        exact ((List.take_prefix _ _).flatMap _).length_le
    case inr =>
      obtain ⟨i, rfl⟩ := Nat.exists_eq_add_of_le hge
      rw [List.flatMap_cons, List.length_append] at hk
      have ⟨m, hm, hmi, hseen, hle, hall, hnext⟩ := ih (v.next p s) (k := i) (by omega)
      refine ⟨m + 1, by simpa using hm, by omega, ?_, ?_, ?_, ?_⟩
      · rw [List.flatMap_cons, List.take_length_add_append, List.foldl_append, records_foldl, hseen]
        rfl
      · rw [List.flatMap_cons, List.take_length_add_append, List.take_succ_cons, List.flatMap_cons]
        simp only [List.flatMap_append, List.length_append]
        omega
      · simpa using hall
      · rw [List.flatMap_cons, Nat.add_assoc, List.take_length_add_append, List.take_succ_cons,
          List.flatMap_cons]
        simp only [List.flatMap_append, List.length_append]
        omega

theorem Continues.take {n pos : Nat} (hc : Continues n pos steps) (m : Nat) :
    Continues n pos (steps.take m) := by
  induction steps generalizing n pos m with
  | nil => simp [Continues]
  | cons s steps ih =>
    cases m with
    | zero => trivial
    | succ m =>
      have ⟨hs, hpos, hsize, hn, hc⟩ := hc
      exact ⟨hs, hpos, hsize, hn, ih hc m⟩

end IndexStep

open IndexStep in
theorem indexSize_take (hc : Continues 0 0 steps) {m : Nat} (hm : 0 < m) (hne : steps ≠ []) :
    indexSize e h (steps.take m) = indexHeaderSize
      + (((steps.take m).flatMap records).flatMap (IndexRecord.bytes e)).length := by
  have htake : steps.take m ≠ [] := by
    simp only [ne_eq, List.take_eq_nil_iff, hne, or_false]
    omega
  rw [indexSize, (hc.take m).bytes_eq, if_pos ⟨rfl, htake⟩, List.length_append,
    headerBytes_length]

-- The metadata of the steps that are seen is metadata of steps.
theorem seen_size_le (v : IndexView) (steps : List IndexStep) :
    ((steps.foldl (IndexView.next p) v).seen.map SeenStep.metadataSize).sum
      ≤ (v.seen.map SeenStep.metadataSize).sum + (steps.map IndexStep.metaDataSize).sum := by
  induction steps generalizing v with
  | nil => simp
  | cons s steps ih =>
    have hnext : ((v.next p s).seen.map SeenStep.metadataSize).sum
        ≤ (v.seen.map SeenStep.metadataSize).sum + s.metaDataSize := by
      unfold IndexView.next IndexView.addStep
      split <;> split <;> simp [IndexView.addMap, IndexStep.seen]
    have := ih (v.next p s)
    simp only [List.foldl_cons, List.map_cons, List.sum_cons]
    omega

theorem last_size_le (seen : List (List SeenStep)) :
    ((seen.getLastD []).map SeenStep.metadataSize).sum
      ≤ (seen.flatten.map SeenStep.metadataSize).sum := by
  cases hs : seen.getLast? with
  | none =>
    rw [List.getLast?_eq_none_iff] at hs
    simp [hs]
  | some l =>
    have hl : seen.getLastD [] = l := by
      rw [List.getLastD_eq_getLast?, hs]
      rfl
    rw [hl]
    exact ((List.sublist_flatten_of_mem <| List.mem_of_getLast? hs).map _).sum_le_sum
      fun _ _ => Nat.zero_le _

section Runs

variable {file : List Byte} {sizes : List Nat}

theorem delivers_of_visible (hc : IndexStep.Continues 0 0 steps)
    (hsum : (steps.map IndexStep.metaDataSize).sum < 2 ^ 64 - 1)
    (hfile : indexFile e h steps = some file) (hsizes : sizes.Pairwise (· ≤ ·))
    (hvis : ∀ size ∈ sizes, file.take size ≠ [] → headerEnd ≤ (file.take size).length) :
    Delivers e h p steps file sizes := by
  rw [hc.indexFile_eq, Option.some_inj] at hfile
  rw [hc.bytes_eq] at hfile
  have hprefix : file <+: headerBytes e h
      ++ (steps.flatMap IndexStep.records).flatMap (IndexRecord.bytes e) := by
    rw [← hfile]
    split
    case isTrue => exact List.prefix_rfl
    case isFalse hne =>
      have : steps = [] := by simpa using hne
      simp [this]
  have hinit : Polled e p (steps.flatMap IndexStep.records) 0 {} := {
    tracks   := ⟨rfl, rfl, rfl, rfl, by simp [viewOf], le_rfl, by simp [viewOf]⟩
    le       := Nat.zero_le _
    position := .inl ⟨rfl, rfl⟩
  }
  obtain ⟨k, r, seen, hpolls, hk, hseen, hlast⟩ :=
    IndexReader.polls_eq hinit hc.allFollow hprefix hsizes hvis (.inl rfl)
  obtain ⟨m, hm, hmk, hview, hle, hall, hnext⟩ :=
    IndexStep.exists_take_of_records (e := e) (p := p) {} hk
  have hflat : seen.flatten = (IndexView.after p (steps.take m)).seen := by
    rw [IndexView.after, ← hview]
    exact hseen.symm
  refine ⟨r, seen, hpolls, m, hm, hflat, fun last hl => ?_⟩
  obtain ⟨hfit, hstop⟩ := hlast last hl
  constructor
  · rcases Nat.eq_zero_or_pos m with rfl | hm₀
    · exact Nat.zero_le _
    · have hne : steps ≠ [] := by
        rintro rfl
        simp at hm
        omega
      rw [indexSize_take hc hm₀ hne]
      omega
  · rcases hstop with hk' | hmax | hlt
    · exact .inl <| hall hk'
    · right; right
      refine ⟨?_, hmax⟩
      cases hp : p.openMode with
      | read => rfl
      | readRandomAccess =>
        -- A run does not have as much metadata as the limit.
        have h₁ := last_size_le seen
        have h₂ := seen_size_le (p := p) {} (steps.take m)
        have h₃ := ((List.take_sublist m steps).map IndexStep.metaDataSize).sum_le_sum
          fun _ _ => Nat.zero_le _
        rw [hflat, IndexView.after] at h₁
        simp only [ReaderParams.maxMetadataSizeInMemory, hp] at hmax
        simp only [List.map_nil, List.sum_nil, Nat.zero_add] at h₂
        omega
    · rcases Nat.lt_or_eq_of_le hk with hk' | hk'
      · rcases Nat.lt_or_eq_of_le hm with hm' | hm'
        · have hne : steps ≠ [] := by
            rintro rfl
            simp at hm'
          right; left
          rw [indexSize_take hc (m := m + 1) (by omega) hne]
          have := hnext hk'
          omega
        · exact .inl hm'
      · exact .inl <| hall hk'

-- A first look that finds less than the header reads behind the end of what it has found.
theorem not_polls_of_short {r : IndexReader} (hr : r.mdIndexFileAlreadyReadSize = 0)
    (hsizes : sizes.Pairwise (· ≤ ·)) {size : Nat} (hsize : size ∈ sizes)
    (hne : file.take size ≠ []) (hshort : (file.take size).length < headerEnd)
    {res : IndexReader × List (List SeenStep)} : IndexReader.polls p file r sizes ≠ .ok res := by
  induction sizes generalizing r res with
  | nil => contradiction
  | cons first sizes ih =>
    obtain ⟨hle, hsizes⟩ := List.pairwise_cons.mp hsizes
    have hfirst : (file.take first).length ≤ (file.take size).length := by
      have : first ≤ size := by
        rcases List.mem_cons.mp hsize with rfl | hmem
        · exact le_rfl
        · exact hle size hmem
      simp only [List.length_take]
      omega
    intro hpolls
    simp only [IndexReader.polls, Outcome.bind_eq_ok] at hpolls
    obtain ⟨⟨r₁, new⟩, hpoll, ⟨r₂, rest⟩, hrest, -⟩ := hpolls
    by_cases hempty : file.take first = []
    case pos =>
      simp [IndexReader.poll, IndexReader.updateBuffer, hempty] at hpoll
      have hmem : size ∈ sizes := by
        rcases List.mem_cons.mp hsize with rfl | hmem
        · contradiction
        · exact hmem
      exact ih (r := r₁) (by rw [← hpoll.1, hr]) hsizes hmem hrest
    case neg =>
      have hparse : ∃ r₀, r.parseHeader p (file.take first) = .ok r₀ := by
        simp only [IndexReader.poll, IndexReader.updateBuffer, IndexReader.parseMetadataIndex,
          IndexReader.parseStart, hr, List.drop_zero, List.isEmpty_iff, hempty, if_false,
          decide_true, if_true, Outcome.bind_eq_ok] at hpoll
        obtain ⟨_, ⟨_, ⟨r₀, h₀, _⟩, _⟩, _⟩ := hpoll
        exact ⟨r₀, h₀⟩
      obtain ⟨r₀, h₀⟩ := hparse
      have := IndexReader.parseHeader_length_le h₀
      omega

-- Every step is delivered once, unless the first look that finds anything finds a part of the
-- header only. The parser takes the header without a look at the size of its buffer.
theorem metadataIndex_delivered_iff (hc : IndexStep.Continues 0 0 steps)
    (hsum : (steps.map IndexStep.metaDataSize).sum < 2 ^ 64 - 1)
    (hfile : indexFile e h steps = some file) (hsizes : sizes.Pairwise (· ≤ ·)) :
    Delivers e h p steps file sizes ↔
      ∀ size ∈ sizes, file.take size ≠ [] → headerEnd ≤ (file.take size).length := by
  constructor
  · intro ⟨_, _, hpolls, _⟩ size hsize hne
    by_contra hshort
    exact not_polls_of_short rfl hsizes hsize hne (Nat.lt_of_not_le hshort) hpolls
  · exact delivers_of_visible hc hsum hfile hsizes


-- One rank, one aggregator, one step and no flush in it.
def oneHeader : HeaderInfo where
  majorVersion    := [50]
  minorVersion    := 49
  patchVersion    := [48]
  columnMajor     := false
  flattenSteps    := false
  fileUUID        := 7
  majorVersion_ne := by decide
  patchVersion_ne := by decide
  fileUUID_pos    := by decide
  fileUUID_lt     := by decide

def oneStep : IndexStep where
  commSize         := 1
  numAggregators   := 1
  subStreams       := 1
  writerSubfileMap := [0]
  flushPosSizeInfo := []
  writerDataPos    := [0]
  metaDataPos      := 0
  metaDataSize     := 48

def allSteps : ReaderParams where
  openMode           := .readRandomAccess
  ignoreFlattenSteps := false
  isSelected         := fun _ => true

theorem oneStep_continues : IndexStep.Continues 0 0 [oneStep] :=
  ⟨by constructor <;> decide, rfl, by decide, by decide, trivial⟩

theorem metadataIndex_delivered_iff_oneStep :
    Delivers .little oneHeader allSteps [oneStep] (indexStepBytes .little oneHeader oneStep)
      [0, 46, 70, 200] ↔
      ∀ size ∈ [0, 46, 70, 200],
        (indexStepBytes .little oneHeader oneStep).take size ≠ [] →
          headerEnd ≤ ((indexStepBytes .little oneHeader oneStep).take size).length :=
  metadataIndex_delivered_iff oneStep_continues (by decide)
    (by rw [oneStep_continues.indexFile_eq]; simp) (by decide)

-- The first look is at half of the header.
theorem metadataIndex_not_delivered :
    ¬ ∀ sizes : List Nat, sizes.Pairwise (· ≤ ·) →
      Delivers .little oneHeader allSteps [oneStep] (indexStepBytes .little oneHeader oneStep)
        sizes := by
  intro hall
  have ⟨_, _, hpolls, _⟩ := hall [32, 200] (by decide)
  exact not_polls_of_short rfl (by decide) (List.mem_cons_self (a := 32)) (by decide) (by decide)
    hpolls

end Runs

end BP5
