import Mathlib
import Adios2.Helper.Theorems.Partitioner
import Adios2.Engine.BP5.Theorems.AppendPositions
import Adios2.Engine.BP5.Theorems.DataPlacement

-- With aggregation by data size the ranks go on in each subfile behind all that is in it, whichever
-- ranks have written that, if the first rank of each chain knows where that is.

namespace BP5

open Helper Layout

variable {std : SortDescending} {size : Nat → Nat}

theorem setWithinLimit_le (value minValue maxValue : Nat) :
    setWithinLimit value minValue maxValue ≤ maxValue := by
  simp only [setWithinLimit]
  generalize (if value < minValue then minValue else value) = v
  split <;> omega

theorem DataSizeParams.subStreams_spec (p : DataSizeParams) :
    0 < p.subStreams ∧ p.subStreams ≤ p.commSize := by
  have hle : p.initNumSubFiles ≤ p.commSize := by
    apply (setWithinLimit_le _ _ _).trans
    split
    · split
      · exact setWithinLimit_le _ _ _
      · split <;> exact setWithinLimit_le _ _ _
    · exact setWithinLimit_le _ _ _
  unfold subStreams
  split
  · exact ⟨p.numNodes_pos, p.numNodes_le⟩
  case isFalse hne => exact ⟨Nat.pos_of_ne_zero hne, hle⟩

section Place

variable {a pos : Nat} {sizes : List Nat}

theorem alignUp_le_of_mem_place {x : Nat × Nat} (h : x ∈ place a pos sizes) :
    alignUp a pos ≤ x.1 := by
  cases sizes with
  | nil => contradiction
  | cons size sizes =>
    cases h with
    | head => exact le_rfl
    | tail _ h => exact (Nat.le_add_right _ _).trans (le_of_mem_place h).1

theorem exists_place_end (a pos : Nat) (hne : sizes ≠ []) :
    ∃ x ∈ place a pos sizes, x.1 + x.2 = placeEnd a pos sizes := by
  induction sizes generalizing pos with
  | nil => contradiction
  | cons size sizes ih =>
    cases sizes with
    | nil => exact ⟨_, List.mem_cons_self, rfl⟩
    | cons size' sizes =>
      have ⟨x, hx, hend⟩ := @ih (alignUp a pos + size) (List.cons_ne_nil _ _)
      exact ⟨x, List.mem_cons_of_mem _ hx, hend⟩

end Place

-- A write of one chain: its ranges are behind the position of its first rank and do not overlap,
-- and the first rank has got their end.
structure ChainWritten (start : Nat → Nat) (size : Nat → Nat) (chain : List Nat)
    (pos end' : Nat) : Prop where
  behind : ∀ r ∈ chain, pos ≤ start r
  apart  : ∀ r ∈ chain, ∀ r' ∈ chain, r ≠ r' →
    start r + size r ≤ start r' ∨ start r' + size r' ≤ start r
  le_end : ∀ r ∈ chain, start r + size r ≤ end'
  at_end : ∃ r ∈ chain, start r + size r = end'

theorem writeData_chain {p : PlacementParams} {partitions : List (List Nat)} {i first : Nat}
    {chain : List Nat} (h : Partition partitions) (hi : partitions[i]? = some (first :: chain))
    (ws : WriterRanks) :
    ChainWritten (fun r => (writeData p size 0 partitions ws r).startDataPos) size (first :: chain)
      (alignUp p.stripeSize ((ws first).nextPos p i))
      (writeData p size 0 partitions ws first).dataPos ∧
    (writeData p size 0 partitions ws first).nextPos p i
      = (writeData p size 0 partitions ws first).dataPos := by
  have ⟨hranges, hend, hown⟩ := writeData_ranges p size ws h 0 i first hi
  rw [Nat.zero_add] at hranges hend hown
  let start := fun r => (writeData p size 0 partitions ws r).startDataPos
  have hmem : ∀ r ∈ first :: chain, (start r, size r)
      ∈ place p.stripeSize ((ws first).nextPos p i) ((first :: chain).map size) := by
    intro r hr
    rw [← hranges]
    exact List.mem_map_of_mem hr
  let apart (r r' : Nat) : Prop := start r + size r ≤ start r' ∨ start r' + size r' ≤ start r
  have hsymm : Std.Symm apart := ⟨fun _ _ h => h.symm⟩
  have hpair : (first :: chain).Pairwise apart := by
    have := place_pairwise (a := p.stripeSize) ((ws first).nextPos p i) ((first :: chain).map size)
    rw [← hranges] at this
    exact (List.pairwise_map.mp this).imp .inl
  have hne : (first :: chain).map size ≠ [] := List.map_eq_nil_iff.not.mpr (List.cons_ne_nil _ _)
  refine ⟨⟨fun r hr => alignUp_le_of_mem_place (hmem r hr), ?apart, ?le_end, ?at_end⟩, hown⟩
  case apart =>
    intro r hr r' hr' hne
    exact hpair.forall hr hr' hne
  case le_end =>
    intro r hr
    rw [← hown, hend]
    exact (le_of_mem_place (hmem r hr)).2
  case at_end =>
    have ⟨x, hx, hxend⟩ := exists_place_end p.stripeSize
      ((ws first).nextPos p i) hne
    rw [← hranges] at hx
    obtain ⟨r, hr, rfl⟩ := List.mem_map.mp hx
    exact ⟨r, hr, by rw [← hown, hend, ← hxend]⟩

theorem le_foldl_max {p : Nat → Prop} [DecidablePred p] {f : Nat → Nat} (l : List Nat) (n : Nat) :
    n ≤ l.foldl (fun n r => if p r then max n (f r) else n) n ∧
    ∀ r ∈ l, p r → f r ≤ l.foldl (fun n r => if p r then max n (f r) else n) n := by
  induction l generalizing n with
  | nil => exact ⟨le_rfl, fun _ h => nomatch h⟩
  | cons r l ih =>
    have ⟨hle, hmem⟩ := ih (if p r then max n (f r) else n)
    have hn : n ≤ if p r then max n (f r) else n := by split <;> omega
    refine ⟨hn.trans hle, fun r' hr' hp => ?_⟩
    rcases List.mem_cons.mp hr' with rfl | hr'
    · rw [if_pos hp] at hle
      rw [List.foldl_cons, if_pos hp]
      exact (Nat.le_max_right _ _).trans hle
    · exact hmem r' hr' hp

theorem covered_write {f : DataFiles} {writes : List PlacedWrite} {i : Nat}
    (h : Covered i (f.size i) writes) (w : PlacedWrite) :
    Covered i ((f.write w).size i) (writes ++ [w]) := by
  have ⟨hle, hmem⟩ := le_foldl_max (p := fun r => w.subStreamIndex[r]? = some i ∧ 0 < w.size r)
    (f := fun r => w.start r + w.size r) (List.range w.subStreamIndex.length) (f.size i)
  refine covered_append.mpr ⟨h.mono hle, fun w' hw' r hr hpos => ?_⟩
  obtain rfl := List.mem_singleton.mp hw'
  exact hmem r (List.mem_range.mpr (List.getElem?_eq_some_iff.mp hr).1) ⟨hr, hpos⟩

namespace DataSizeWriter

-- What is true of the files at any time.
structure Placed (s : DataSizeWriter) : Prop where
  behind   : s.writes.Pairwise Behind
  apart    : ∀ w ∈ s.writes, w.Apart
  covered  : ∀ i, Covered i (s.files.size i) s.writes
  recorded : Recorded {} s.files.entries

-- All ranks know the end of each subfile: it is the end of a range of the last write, and all that
-- has been written to the subfile is in front of it.
def Agreed (s : DataSizeWriter) : Prop :=
  ∀ i < s.p.subStreams, ∃ pos, (∀ r, (s.ranks r).substreamDataPos i = pos) ∧
    Covered i pos s.writes ∧
    ∃ w ∈ s.writes.getLast?, ∃ r, w.subStreamIndex[r]? = some i ∧ w.start r + w.size r = pos

-- Between two steps.
structure Between (s : DataSizeWriter) : Prop where
  stepWrites : s.stepWrites = []
  fresh      : s.writerStep = 0 →
    (∀ r, s.ranks r = {}) ∧ (s.append = false → s.files = {})
  shared     : 0 < s.writerStep → s.Agreed ∧ ∀ r, (s.ranks r).dataPosShared = true

-- The chains of a step, and the subfiles that their ranks write to.
structure Dealt (s : DataSizeWriter) : Prop where
  partitions : Partitions s.partitions s.p.commSize s.p.subStreams
  length     : s.subStreamIndex.length = s.p.commSize
  index      : ∀ r i : Nat, s.subStreamIndex[r]? = some i ↔
    ∃ chain : List Nat, s.partitions[i]? = some chain ∧ r ∈ chain

-- The first rank of each chain goes on behind what is in the subfile.
def Ready (s : DataSizeWriter) : Prop :=
  ∀ i first chain, s.partitions[i]? = some (first :: chain) →
    Covered i (alignUp s.p.stripeSize ((s.ranks first).nextPos s.p.placement i)) s.writes

-- Within a step.
structure InStep (s : DataSizeWriter) : Prop extends Dealt s where
  stepWrites : ∀ w ∈ s.stepWrites, w.subStreamIndex = s.subStreamIndex
  ready      : s.Ready

structure Inv (s : DataSizeWriter) : Prop extends Placed s where
  between : s.aggregatorInitialized = false → s.Between
  inStep  : s.aggregatorInitialized = true → s.InStep

theorem Dealt.partition {s : DataSizeWriter} (h : s.Dealt) : Partition s.partitions :=
  ⟨h.partitions.nodup, h.partitions.ne⟩

theorem Dealt.chain {s : DataSizeWriter} (h : s.Dealt) {i : Nat} (hi : i < s.p.subStreams) :
    ∃ first chain, s.partitions[i]? = some (first :: chain) := by
  have hlt := h.partitions.length.symm ▸ hi
  have hget := List.getElem?_eq_getElem hlt
  have ⟨first, chain, hcons⟩ :=
    List.exists_cons_of_ne_nil (h.partitions.ne _ (List.getElem_mem hlt))
  exact ⟨first, chain, hcons ▸ hget⟩

-- The subfile of a rank has a chain with that rank.
theorem Dealt.mem_chain {s : DataSizeWriter} (h : s.Dealt) {i r : Nat}
    (hr : s.subStreamIndex[r]? = some i) :
    ∃ first chain, s.partitions[i]? = some (first :: chain) ∧ r ∈ first :: chain := by
  have ⟨chain, hi, hmem⟩ := (h.index r i).mp hr
  have ⟨first, rest, hcons⟩ := List.exists_cons_of_ne_nil (List.ne_nil_of_mem hmem)
  exact ⟨first, rest, hcons ▸ hi, hcons ▸ hmem⟩

variable {s : DataSizeWriter}

theorem placed_iff (hnil : s.stepWrites = []) : s.Placed ↔ s.files.WellPlaced := by
  have hwrites : s.writes = s.files.writes := by rw [writes, hnil, List.append_nil]
  constructor
  · exact fun h => ⟨hwrites ▸ h.behind, hwrites ▸ h.apart, hwrites ▸ h.covered, h.recorded⟩
  · exact fun h => ⟨hwrites ▸ h.behind, hwrites ▸ h.apart, hwrites ▸ h.covered, h.recorded⟩

-- The write that `placeWrite` adds.
def placedWrite (s : DataSizeWriter) (size : Nat → Nat) : PlacedWrite where
  size           := size
  start          := fun r => (writeData s.p.placement size 0 s.partitions s.ranks r).startDataPos
  subStreamIndex := s.subStreamIndex

theorem writes_placeWrite : (s.placeWrite size).writes = s.writes ++ [s.placedWrite size] := by
  simp only [writes, placeWrite, placedWrite, DataFiles.writes, DataFiles.entries, DataFiles.write,
    List.append_assoc]

theorem Dealt.written (h : s.Dealt) (size : Nat → Nat) {i first : Nat} {chain : List Nat}
    (hi : s.partitions[i]? = some (first :: chain)) :
    ChainWritten (s.placedWrite size).start size (first :: chain)
      (alignUp s.p.stripeSize ((s.ranks first).nextPos s.p.placement i))
      ((s.placeWrite size).ranks first).dataPos ∧
    ((s.placeWrite size).ranks first).nextPos s.p.placement i
      = ((s.placeWrite size).ranks first).dataPos :=
  writeData_chain h.partition hi s.ranks

-- What is in a subfile after a write is in front of the position that the first rank has got.
theorem InStep.covered_placeWrite (h : s.InStep) {i first : Nat} {chain : List Nat}
    (hi : s.partitions[i]? = some (first :: chain)) :
    Covered i ((s.placeWrite size).ranks first).dataPos (s.placeWrite size).writes := by
  have ⟨hchain, _⟩ := h.written size hi
  have ⟨r, hr, hend⟩ := hchain.at_end
  rw [writes_placeWrite]
  refine covered_append.mpr ⟨(h.ready i first chain hi).mono ?_, fun w hw r' hr' _ => ?_⟩
  · rw [← hend]
    exact (hchain.behind r hr).trans (Nat.le_add_right _ _)
  · obtain rfl := List.mem_singleton.mp hw
    have ⟨chain', hi', hmem⟩ := (h.index r' i).mp hr'
    rw [hi] at hi'
    cases hi'
    exact hchain.le_end r' hmem

theorem InStep.placeWrite (h : s.InStep) (size : Nat → Nat) : (s.placeWrite size).InStep where
  partitions := h.partitions
  length     := h.length
  index      := h.index
  stepWrites := by
    intro w hw
    rcases List.mem_append.mp hw with hw | hw
    · exact h.stepWrites w hw
    · obtain rfl := List.mem_singleton.mp hw
      rfl
  ready      := by
    intro i first chain hi
    have ⟨_, hown⟩ := h.written size hi
    apply (h.covered_placeWrite hi).mono
    rw [show (s.placeWrite size).p = s.p from rfl, hown]
    exact le_alignUp

theorem Placed.placeWrite (hp : s.Placed) (h : s.InStep) (size : Nat → Nat) : (s.placeWrite size).Placed where
  behind := by
    rw [writes_placeWrite]
    refine List.pairwise_append.mpr ⟨hp.behind, List.pairwise_singleton _ _, ?_⟩
    intro w hw w' hw' i r hr
    obtain rfl := List.mem_singleton.mp hw'
    have ⟨first, chain, hi, hmem⟩ := h.mem_chain hr
    have hready := h.ready i first chain hi
    have hstart := (h.written size hi).1.behind r hmem
    exact (hready.subset (List.cons_subset.mpr ⟨hw, List.nil_subset _⟩)).mono hstart
  apart := by
    rw [writes_placeWrite]
    intro w hw
    rcases List.mem_append.mp hw with hw | hw
    · exact hp.apart w hw
    · obtain rfl := List.mem_singleton.mp hw
      intro i r r' hne hr hr'
      have ⟨first, chain, hi, hmem⟩ := h.mem_chain hr
      have ⟨chain', hi', hmem'⟩ := (h.index r' i).mp hr'
      rw [hi] at hi'
      cases hi'
      exact (h.written size hi).1.apart r hmem r' hmem' hne
  covered := by
    intro i
    rw [writes_placeWrite]
    exact covered_write (hp.covered i) _
  recorded := hp.recorded

theorem writes_finishStep (s : DataSizeWriter) : s.finishStep.writes = s.writes := by
  simp [writes, finishStep, DataFiles.writes, DataFiles.entries, IndexEntry.writes]

theorem Inv.placeWrite (h : s.Inv) (hinit : s.aggregatorInitialized = true) :
    (s.placeWrite size).Inv where
  toPlaced := h.toPlaced.placeWrite (h.inStep hinit) size
  between  := fun hfalse => nomatch hinit.symm.trans hfalse
  inStep   := fun _ => (h.inStep hinit).placeWrite size

-- The ranks share the ends of the subfiles, and the step is recorded with the map that all its
-- writes have followed.
theorem Inv.finishStep (h : s.Inv) (hinit : s.aggregatorInitialized = true) :
    (s.placeWrite size).finishStep.Inv := by
  have hin := h.inStep hinit
  have hplaced := h.toPlaced.placeWrite hin size
  have hnext := hin.placeWrite size
  have hwrites := writes_finishStep (s.placeWrite size)
  have hvalid : ({ writerCount     := s.p.commSize
                   aggregatorCount := s.p.subStreams
                   subfileCount    := s.p.subStreams
                   writerToFileMap := s.subStreamIndex } : WriterMap).Valid := by
    refine ⟨hin.length, fun i hi => ?_⟩
    have ⟨r, hr, hget⟩ := List.getElem_of_mem hi
    have ⟨first, chain, hchain, _⟩ :=
      hin.mem_chain ((List.getElem?_eq_getElem hr).trans (congrArg some hget))
    have := (List.getElem?_eq_some_iff.mp hchain).1
    rwa [hin.partitions.length] at this
  refine { behind := hwrites ▸ hplaced.behind, apart := hwrites ▸ hplaced.apart,
           covered := ?covered, recorded := ?recorded, between := fun _ => ?between,
           inStep := fun hfalse => nomatch hfalse }
  case covered =>
    intro i
    rw [hwrites]
    exact hplaced.covered i
  case recorded =>
    exact hplaced.recorded.append hvalid (List.append_ne_nil_of_right_ne_nil _
      (List.cons_ne_nil _ _)) hnext.stepWrites
  case between =>
    refine ⟨rfl, fun hzero => (nomatch hzero), fun _ => ⟨fun i hi => ?_, fun _ => rfl⟩⟩
    have ⟨first, chain, hchain⟩ := hin.chain hi
    have ⟨r, hr, hend⟩ := (hin.written size hchain).1.at_end
    refine ⟨((s.placeWrite size).ranks first).dataPos, fun r => ?_, ?_, s.placedWrite size, ?_, r,
      (hin.index r i).mpr ⟨_, hchain, hr⟩, hend⟩
    · have : (s.placeWrite size).partitions[i]? = some (first :: chain) := hchain
      simp only [DataSizeWriter.finishStep, shareDataPos, this]
    · rw [hwrites]
      exact hin.covered_placeWrite hchain
    · rw [hwrites, writes_placeWrite, List.getLast?_concat]
      rfl

-- The condition on the state before a step begins. A new step goes on where the ends have been
-- shared. The asynchronous path does not look there, so the first rank of each chain has to be
-- behind the data of the subfile by itself. Files that are appended to have to have as many
-- subfiles as are written.
def KnowsEnds (std : SortDescending) (s : DataSizeWriter) (size : Nat → Nat) : Prop :=
  s.aggregatorInitialized = false →
    (s.writerStep = 0 → s.append = true → ∀ es, s.files.index = some es →
      s.p.subStreams ≤ nDataFiles es) ∧
    (0 < s.writerStep → s.p.asyncWrite = true →
      ∀ partitions, s.getPartitions std size = .ok partitions →
        ∀ i first chain, partitions[i]? = some (first :: chain) →
          Covered i (alignUp s.p.stripeSize (s.ranks first).dataPos) s.writes)

variable (std size) in
theorem initAggregator_spec (s : DataSizeWriter) : ∃ partitions subStreamIndex,
    s.getPartitions std size = .ok partitions ∧
    s.initAggregator std size = .ok { s with partitions, subStreamIndex } ∧
    Dealt { s with partitions, subStreamIndex } := by
  have ⟨hpos, hle⟩ := s.p.subStreams_spec
  have ⟨result, hresult, hparts⟩ := @partitionGreedily_spec std
    ((List.range s.p.commSize).map size) _ hpos (by simpa using hle)
  rw [List.length_map, List.length_range] at hparts
  have hget : s.getPartitions std size = .ok result.partitions := by
    rw [getPartitions, hresult]
    rfl
  let subStreamIndex := (List.range s.p.commSize).map fun rank =>
    (Partitioning.findPartition rank 0 result.partitions).getD 0
  have hmap : (List.range s.p.commSize).mapM (fun rank =>
      Partitioning.findPartition rank 0 result.partitions) = some subStreamIndex := by
    apply List.mapM_range_eq_some (by simp [subStreamIndex])
    intro r i hr
    have hlt : r < s.p.commSize := by
      have := (List.getElem?_eq_some_iff.mp hr).1
      simpa [subStreamIndex] using this
    have ⟨j, _, hj⟩ := hparts.findPartition hlt
    rw [List.getElem?_map, List.getElem?_range hlt, Option.map_some, hj] at hr
    rw [hj]
    exact hr
  refine ⟨result.partitions, subStreamIndex, hget, ?_, hparts, by simp [subStreamIndex], ?_⟩
  · rw [initAggregator, hget, Outcome.ok_bind, hmap, Option.orUndefined_some, Outcome.ok_bind,
      Outcome.pure_eq]
  · intro r i
    have hfind := @Partitioning.findPartition_eq_some _ hparts.nodup r 0 i
    rw [Nat.zero_add] at hfind
    rw [← hfind]
    by_cases hlt : r < s.p.commSize
    case pos =>
      have ⟨j, _, hj⟩ := hparts.findPartition hlt
      simp [subStreamIndex, List.getElem?_range hlt, hj]
    case neg =>
      have hnone : subStreamIndex[r]? = none := List.getElem?_eq_none (by
        simpa [subStreamIndex] using not_lt.mp hlt)
      constructor
      · intro h
        rw [hnone] at h
        contradiction
      · intro h
        have := hparts.perm.mem_iff.mp (Partitioning.mem_of_findPartition h)
        exact absurd (List.mem_range.mp this) hlt

-- A rank that is the first one of a chain has got the position for the subfile.
theorem find_aggregator (h : s.Dealt) {i first : Nat} {chain : List Nat}
    (hi : s.partitions[i]? = some (first :: chain)) :
    (List.range s.partitions.length).find?
      (fun i => decide ((s.partitions.getD i []).head? = some first)) = some i := by
  have hlt := (List.getElem?_eq_some_iff.mp hi).1
  have hself : ∀ j < s.partitions.length, (s.partitions.getD j []).head? = some first → j = i := by
    intro j hj hhead
    have hget := List.getElem?_eq_getElem hj
    have hmem : first ∈ s.partitions[j] := by
      rw [List.getD_eq_getElem _ _ hj] at hhead
      exact List.mem_of_mem_head? hhead
    have h₁ := (h.index first j).mpr ⟨_, hget, hmem⟩
    have h₂ := (h.index first i).mpr ⟨_, hi, List.mem_cons_self⟩
    exact Option.some.inj (h₁.symm.trans h₂)
  cases hfind : (List.range s.partitions.length).find?
      (fun i => decide ((s.partitions.getD i []).head? = some first)) with
  | none =>
    have := List.find?_eq_none.mp hfind i (List.mem_range.mpr hlt)
    rw [List.getD_eq_getElem?_getD, hi] at this
    simp at this
  | some j =>
    have hj := List.mem_range.mp (List.mem_of_find?_eq_some hfind)
    have := List.find?_some hfind
    rw [hself j hj (of_decide_eq_true this)]

-- The files at the begin of a new writer that appends.
theorem initBPBuffer_append (h : s.Placed) (hdealt : s.Dealt) (hnil : s.stepWrites = [])
    (hranks : ∀ r, s.ranks r = {}) (happ : s.append = true) (hstep : s.writerStep = 0)
    (hfiles : ∀ es, s.files.index = some es → s.p.subStreams ≤ nDataFiles es) :
    ∃ s', s.initBPBuffer = .ok s' ∧ s'.Placed ∧ s'.InStep := by
  have hwell := (placed_iff hnil).mp h
  have ⟨targetStep, dataPos, hcount, hlen, hkept⟩ := countSteps_spec hwell hfiles
  have hsub := keptWrites_sublist targetStep s.files
  -- Each aggregator gets a position behind what stays in its subfile.
  have hpos : ∀ i, Covered i (s.appendPos dataPos i) (keptWrites targetStep s.files.index) := by
    intro i
    unfold appendPos
    split
    case h_1 off hoff => exact hkept i off hoff
    case h_2 => exact (hwell.covered i).subset hsub.subset
  have hlen' : ¬ s.partitions.length > dataPos.length := by
    rw [hdealt.partitions.length]
    omega
  have hnew : (s.truncateAndSeek targetStep dataPos).writes
      = keptWrites targetStep s.files.index := by
    rw [writes, truncateAndSeek, hnil, List.append_nil]
    rfl
  refine ⟨s.truncateAndSeek targetStep dataPos, ?eq, ?placed, ?inStep⟩
  case eq =>
    rw [initBPBuffer, if_pos ⟨happ, hstep⟩, hcount, Outcome.ok_bind]
    exact if_neg hlen'
  case placed =>
    refine { behind := ?_, apart := ?_, covered := ?_, recorded := ?_ }
    · rw [hnew]
      exact hwell.behind.sublist hsub
    · rw [hnew]
      exact fun w hw => hwell.apart w (hsub.subset hw)
    · intro i
      rw [hnew]
      simp only [truncateAndSeek]
      split
      · exact hpos i
      · exact (hwell.covered i).subset hsub.subset
    · have := h.recorded
      simp only [DataFiles.entries, truncateAndSeek, truncateIndex] at this ⊢
      split
      · exact trivial
      · cases hindex : s.files.index with
        | none => exact trivial
        | some es =>
          rw [hindex] at this
          exact Recorded.entriesBefore this targetStep
  case inStep =>
    refine { partitions := hdealt.partitions, length := hdealt.length, index := hdealt.index,
             stepWrites := ?_, ready := ?_ }
    · intro w hw
      rw [show (s.truncateAndSeek targetStep dataPos).stepWrites = [] from hnil] at hw
      contradiction
    · intro i first chain hi
      have hfind := find_aggregator hdealt hi
      rw [hnew]
      apply (hpos i).mono
      simp only [truncateAndSeek, WriterRank.nextPos, hfind, hranks, Bool.and_false,
        Bool.false_eq_true, if_false]
      exact le_alignUp

theorem startStep_spec (h : s.Inv) (hends : s.KnowsEnds std size) :
    ∃ s', s.startStep std size = .ok s' ∧ s'.Inv ∧ s'.aggregatorInitialized = true := by
  unfold startStep
  cases hinit : s.aggregatorInitialized with
  | true => exact ⟨s, rfl, h, hinit⟩
  | false =>
    obtain ⟨happend, hasync⟩ := hends hinit
    have hbetween := h.between hinit
    obtain ⟨partitions, subStreamIndex, hparts, heq, hdealt⟩ := s.initAggregator_spec std size
    let s₁ : DataSizeWriter := { s with partitions, subStreamIndex }
    have hplaced : s₁.Placed := ⟨h.behind, h.apart, h.covered, h.recorded⟩
    -- What remains is that the first ranks know where to go on.
    have hdone : ∀ s₂ : DataSizeWriter, s₁.initBPBuffer = .ok s₂ → s₂.Placed → s₂.InStep →
        ∃ s', (if false = true then pure s else do
          let s ← s.initAggregator std size
          let s ← s.initBPBuffer
          pure { s with aggregatorInitialized := true } : Outcome DataSizeWriter) = .ok s' ∧
          s'.Inv ∧ s'.aggregatorInitialized = true := by
      intro s₂ hbuffer hplaced hin
      refine ⟨{ s₂ with aggregatorInitialized := true }, ?_, ?_, rfl⟩
      · rw [if_neg Bool.false_ne_true, heq, Outcome.ok_bind]
        change s₁.initBPBuffer >>= _ = _
        rw [hbuffer]
        rfl
      · exact { behind := hplaced.behind, apart := hplaced.apart, covered := hplaced.covered,
                recorded := hplaced.recorded, between := fun hfalse => (nomatch hfalse),
                inStep := fun _ => { hin with } }
    by_cases hnew : s.append = true ∧ s.writerStep = 0
    case pos =>
      obtain ⟨s₂, hbuffer, hplaced', hin⟩ := initBPBuffer_append (s := s₁) hplaced hdealt
        hbetween.stepWrites (hbetween.fresh hnew.2).1 hnew.1 hnew.2 (happend hnew.2 hnew.1)
      exact hdone s₂ hbuffer hplaced' hin
    case neg =>
      apply hdone s₁ (if_neg hnew) hplaced
      refine { hdealt with stepWrites := ?_, ready := ?_ }
      · intro w hw
        rw [show s₁.stepWrites = [] from hbetween.stepWrites] at hw
        contradiction
      · intro i first chain hi
        change Covered i (alignUp s.p.stripeSize ((s.ranks first).nextPos s.p.placement i)) s.writes
        by_cases hzero : s.writerStep = 0
        case pos =>
          have hfalse : s.append = false := by simpa [hzero] using hnew
          rw [writes, hbetween.stepWrites, (hbetween.fresh hzero).2 hfalse]
          exact covered_nil
        case neg =>
          have hpos := Nat.pos_of_ne_zero hzero
          obtain ⟨hagreed, hshared⟩ := hbetween.shared hpos
          cases has : s.p.asyncWrite with
          | true =>
            have := hasync hpos has partitions hparts i first chain hi
            simpa [WriterRank.nextPos, DataSizeParams.placement, has] using this
          | false =>
            have hlt : i < s.p.subStreams := by
              have := (List.getElem?_eq_some_iff.mp hi).1
              rwa [show s₁.partitions.length = s.p.subStreams from hdealt.partitions.length] at this
            obtain ⟨pos, hall, hcov, _⟩ := hagreed i hlt
            have hnext : (s.ranks first).nextPos s.p.placement i = pos := by
              simp [WriterRank.nextPos, DataSizeParams.placement, has, hshared, hall]
            rw [hnext]
            exact hcov.mono le_alignUp

theorem step_spec (h : s.Inv) {op : WriterOp} (hends : s.KnowsEnds std op.size) :
    ∃ s', s.step std op = .ok s' ∧ s'.Inv := by
  have ⟨s', hstart, hinv, hinit⟩ := startStep_spec h hends
  cases op with
  | performDataWrite size =>
    refine ⟨s'.placeWrite size, ?_, hinv.placeWrite hinit⟩
    rw [step, show s.startStep std size = .ok s' from hstart]
    rfl
  | endStep size =>
    refine ⟨(s'.placeWrite size).finishStep, ?_, hinv.finishStep hinit⟩
    rw [step, show s.startStep std size = .ok s' from hstart]
    rfl

-- The condition at the begin of every step of a run.
def RunKnowsEnds (std : SortDescending) : DataSizeWriter → List WriterOp → Prop
  | _, []        => True
  | s, op :: ops =>
    s.KnowsEnds std op.size ∧ ∀ s', s.step std op = .ok s' → RunKnowsEnds std s' ops

theorem run_spec (h : s.Inv) {ops : List WriterOp} (hends : s.RunKnowsEnds std ops) :
    ∃ s', s.run std ops = .ok s' ∧ s'.Inv := by
  induction ops generalizing s with
  | nil => exact ⟨s, rfl, h⟩
  | cons op ops ih =>
    have ⟨s', hstep, hinv⟩ := step_spec h hends.1
    have ⟨s'', hrun, hinv'⟩ := ih hinv (hends.2 s' hstep)
    refine ⟨s'', ?_, hinv'⟩
    rw [run, List.foldlM_cons, hstep, Outcome.ok_bind]
    exact hrun

theorem inv_openFiles (p : DataSizeParams) (append : Bool) {f : DataFiles} (h : f.WellPlaced) :
    (openFiles p append f).Inv := by
  have hfiles : (openFiles p append f).files.WellPlaced := by
    cases append with
    | true  => exact h
    | false => exact DataFiles.wellPlaced_empty
  refine { (placed_iff rfl).mpr hfiles with
    between := fun _ => ⟨rfl, fun _ => ⟨fun _ => rfl, fun hfalse => ?_⟩,
      fun hlt => absurd hlt (Nat.lt_irrefl 0)⟩
    inStep  := fun hfalse => nomatch hfalse }
  cases append with
  | true  => contradiction
  | false => rfl

theorem startStep_params {s' : DataSizeWriter} (h : s.startStep std size = .ok s') :
    s'.p = s.p ∧ s'.append = s.append ∧ s'.aggregatorInitialized = true := by
  unfold startStep at h
  split at h
  case isTrue hinit =>
    cases h
    exact ⟨rfl, rfl, hinit⟩
  case isFalse =>
    have ⟨partitions, subStreamIndex, _, heq, _⟩ := s.initAggregator_spec std size
    rw [heq, Outcome.ok_bind] at h
    obtain ⟨s₁, h₁, h⟩ := Outcome.bind_eq_ok.mp h
    cases h
    unfold initBPBuffer at h₁
    split at h₁
    case isTrue =>
      obtain ⟨⟨_, _⟩, _, h₁⟩ := Outcome.bind_eq_ok.mp h₁
      simp only at h₁
      split at h₁
      · contradiction
      · cases h₁
        exact ⟨rfl, rfl, rfl⟩
    case isFalse =>
      cases h₁
      exact ⟨rfl, rfl, rfl⟩

-- Without `AsyncWrite` the first ranks always know the ends.
theorem runKnowsEnds_of_sync (hsync : s.p.asyncWrite = false)
    (hfiles : s.aggregatorInitialized = false → s.writerStep = 0 → s.append = true →
      ∀ es, s.files.index = some es → s.p.subStreams ≤ nDataFiles es) (ops : List WriterOp) :
    s.RunKnowsEnds std ops := by
  induction ops generalizing s with
  | nil => exact trivial
  | cons op ops ih =>
    refine ⟨fun hinit => ⟨hfiles hinit, fun _ hasync => ?_⟩, fun s' hstep => ?_⟩
    · rw [hsync] at hasync
      contradiction
    · cases op with
      | performDataWrite size =>
        have ⟨s₁, hstart, hs'⟩ := Outcome.bind_eq_ok.mp hstep
        have ⟨hp, _, hinit⟩ := startStep_params hstart
        cases hs'
        exact ih (hp ▸ hsync) fun hfalse => nomatch hinit.symm.trans hfalse
      | endStep size =>
        have ⟨s₁, hstart, hs'⟩ := Outcome.bind_eq_ok.mp hstep
        have ⟨hp, _, _⟩ := startStep_params hstart
        cases hs'
        exact ih (hp ▸ hsync) fun _ hzero => nomatch hzero

end DataSizeWriter

-- Existing files, or none.
structure ExistingFiles extends DataFiles where
  wellPlaced : toDataFiles.WellPlaced

def ExistingFiles.none : ExistingFiles where
  wellPlaced := DataFiles.wellPlaced_empty

-- What is to be true in every state of a run, of the steps that were kept and those of the run.
structure KeepsPositions (s : DataSizeWriter) : Prop where
  behind   : s.writes.Pairwise Behind
  apart    : ∀ w ∈ s.writes, w.Apart
  agreed   : s.aggregatorInitialized = false → 0 < s.writerStep → s.Agreed
  recorded : Recorded {} s.files.entries
  open'    : ∀ w ∈ s.stepWrites, w.subStreamIndex = s.subStreamIndex

-- Two ranks with a subfile each. In the second step they change places.
def twoSubfiles (asyncWrite : Bool) : DataSizeParams where
  stripeSize       := 4096
  asyncWrite       := asyncWrite
  numAggregators   := 2
  numSubFiles      := 2
  aggregatorRatio  := 0
  appendAfterSteps := 2 ^ 31 - 1
  commSize         := 2
  numNodes         := 1
  stripeSize_pos   := by decide
  numNodes_pos     := by decide
  numNodes_le      := by decide

def changingPlaces : List WriterOp :=
  [.endStep fun r => if r = 0 then 5000 else 3000, .endStep fun r => if r = 0 then 3000 else 5000]

end BP5
