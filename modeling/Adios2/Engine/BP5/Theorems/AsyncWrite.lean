import Adios2.Engine.BP5.AsyncWrite

-- The writes of a run of the writing thread, whatever it sees of the main thread.

namespace BP5.AsyncWrite

open Bytes

variable {info : AsyncWriteInfo} {dataVec : List (List Byte)} {maxSize : Nat}
variable {s s' : AsyncWriteState} {o : Observation} {os : List Observation}

def written (writes : List IssuedWrite) : List Byte :=
  writes.flatMap fun w => w.bufs.flatten

-- The position is given with the first write, if there is one to seek to, and with no other.
def Sequential (first : Option Nat) : List IssuedWrite → Prop
  | []      => True
  | w :: ws => w.start = first ∧ ∀ w ∈ ws, w.start = none

theorem Sequential.concat {first : Option Nat} {writes : List IssuedWrite}
    (h : Sequential first writes) {w : IssuedWrite}
    (hw : w.start = if writes = [] then first else none) : Sequential first (writes ++ [w]) := by
  cases writes with
  | nil => exact ⟨hw, fun _ hmem => absurd hmem List.not_mem_nil⟩
  | cons w₀ ws =>
    refine ⟨h.left, fun w' hmem => ?_⟩
    rcases List.mem_append.mp hmem with hmem | hmem
    · exact h.right w' hmem
    · rw [List.mem_singleton.mp hmem, hw, if_neg (List.cons_ne_nil _ _)]

theorem perform_continued (writes : List IssuedWrite) (h : ∀ w ∈ writes, w.start = none)
    (f : Posix.File) : writes.foldl IssuedWrite.perform f = f.write (written writes) := by
  induction writes generalizing f with
  | nil => rfl
  | cons w ws ih =>
    have ⟨hw, hws⟩ := List.forall_mem_cons.mp h
    rw [List.foldl_cons, ih hws, IssuedWrite.perform, hw, Posix.File.write_append]
    rfl

-- All of the writes have the effect of one.
theorem Sequential.perform {first : Option Nat} {writes : List IssuedWrite}
    (h : Sequential first writes) {f : Posix.File} {start : Nat}
    (hstart : first = some start ∨ first = none ∧ f.position = start) :
    (writes.foldl IssuedWrite.perform f).content =
      ({ f with position := start }.write (written writes)).content := by
  cases writes with
  | nil => rfl
  | cons w ws =>
    have hfirst : w.perform f = { f with position := start }.write w.bufs.flatten := by
      rw [IssuedWrite.perform, h.left]
      rcases hstart with rfl | ⟨rfl, rfl⟩ <;> rfl
    rw [List.foldl_cons, hfirst, perform_continued ws h.right, Posix.File.write_append]
    rfl

-- Where the loop stands in the data.
def AsyncWriteState.done (dataVec : List (List Byte)) (s : AsyncWriteState) : List Byte :=
  (dataVec.take s.block).flatten ++ (dataVec.getD s.block []).take s.tempOffset

-- What holds at each round. While a block is expected, the loop does not get behind the last.
structure AsyncWriteState.Sound (info : AsyncWriteInfo) (dataVec : List (List Byte))
    (seekOnFirstWrite : Bool) (s : AsyncWriteState) : Prop where
  written    : written s.writes = if s.left then dataVec.flatten else s.done dataVec
  wrote      : s.left = false → s.wrote = (s.done dataVec).length
  offset     : s.tempOffset ≤ (dataVec.getD s.block []).length
  first      : s.left = false → s.firstWrite = true → s.writes = []
  seek       : s.writes = [] → s.firstWrite = seekOnFirstWrite
  sequential : Sequential (if seekOnFirstWrite then some info.startPos else none) s.writes
  expected   : info.expectedComputationBlocks ≠ [] →
    s.compBlockIdx < info.expectedComputationBlocks.length

variable {seek : Bool}

theorem AsyncWriteState.sound_start (info : AsyncWriteInfo) (dataVec : List (List Byte))
    (seek : Bool) : Sound info dataVec seek { firstWrite := seek } where
  written    := by simp [AsyncWrite.written, done]
  wrote      := fun _ => by simp [done]
  offset     := Nat.zero_le _
  first      := fun _ _ => rfl
  seek       := fun _ => rfl
  sequential := trivial
  expected   := List.length_pos_iff.mpr

theorem AsyncWriteState.Sound.wrote_eq_zero (h : s.Sound info dataVec seek) (hleft : s.left = false)
    (hnil : s.writes = []) : s.wrote = 0 := by
  have hdone := h.written
  rw [hnil, hleft, if_neg Bool.false_ne_true] at hdone
  rw [h.wrote hleft, ← hdone]
  rfl

-- Where the next write goes.
theorem AsyncWriteState.Sound.start (h : s.Sound info dataVec seek) (hleft : s.left = false)
    {start : Option Nat}
    (hstart : start = if s.firstWrite then some (info.startPos + s.wrote) else none) :
    start = if s.writes = [] then (if seek then some info.startPos else none) else none := by
  rw [hstart]
  by_cases hnil : s.writes = []
  · rw [if_pos hnil, h.seek hnil, h.wrote_eq_zero hleft hnil, Nat.add_zero]
  · have hfirst : s.firstWrite = false := by
      by_contra hne
      exact hnil (h.first hleft (Bool.eq_true_of_not_eq_false hne))
    rw [if_neg hnil, hfirst]
    rfl

theorem flatten_split {block : Nat} (hblock : block < dataVec.length) :
    dataVec.flatten = (dataVec.take block).flatten ++ dataVec[block] ++
      (dataVec.drop (block + 1)).flatten := by
  conv_lhs => rw [← List.take_append_drop block dataVec, List.drop_eq_getElem_cons hblock]
  rw [List.flatten_append, List.flatten_cons, List.append_assoc]

theorem AsyncWriteState.Sound.writeRest (h : s.Sound info dataVec seek)
    (hrun : s.Running dataVec) : (writeRest info dataVec s).Sound info dataVec seek where
  written    := by
    have hdone := h.written
    rw [hrun.left, if_neg Bool.false_ne_true] at hdone
    rw [AsyncWrite.writeRest, if_pos rfl, AsyncWrite.written, List.flatMap_append, List.flatMap_singleton]
    change AsyncWrite.written s.writes ++ _ = _
    rw [hdone, done, List.drop_eq_getElem_cons hrun.right, flatten_split hrun.right,
      List.getD_eq_getElem _ _ hrun.right, List.flatten_cons, List.append_assoc, ← List.append_assoc
        (List.take _ _), List.take_append_drop, List.append_assoc]
  wrote      := fun hleft => Bool.noConfusion hleft
  offset     := h.offset
  first      := fun hleft => Bool.noConfusion hleft
  seek       := fun hnil => absurd hnil (by simp [AsyncWrite.writeRest])
  sequential := h.sequential.concat (h.start hrun.left rfl)
  expected   := h.expected

theorem writeBatch_done (hrun : s.Running dataVec)
    (hoffset : s.tempOffset ≤ (dataVec.getD s.block []).length) :
    (writeBatch info dataVec maxSize s).done dataVec =
      s.done dataVec ++ (((dataVec.getD s.block []).drop s.tempOffset).take
        (min ((dataVec.getD s.block []).length - s.tempOffset) maxSize)) := by
  have hblock : (dataVec.take (s.block + 1)).flatten =
      (dataVec.take s.block).flatten ++ dataVec.getD s.block [] := by
    rw [List.take_succ_eq_append_getElem hrun.right, List.flatten_append, List.flatten_singleton,
      List.getD_eq_getElem _ _ hrun.right]
  unfold writeBatch AsyncWriteState.done
  dsimp only
  generalize hiov : dataVec.getD s.block [] = iov at *
  by_cases hwithin : min (iov.length - s.tempOffset) maxSize + s.tempOffset < iov.length
  · rw [if_pos hwithin, if_pos hwithin, hiov, List.append_assoc, ← List.take_add]
  · have hn : min (iov.length - s.tempOffset) maxSize = iov.length - s.tempOffset := by omega
    have hrest : (iov.drop s.tempOffset).take (iov.length - s.tempOffset) =
        iov.drop s.tempOffset := List.take_of_length_le (by rw [List.length_drop])
    rw [if_neg hwithin, if_neg hwithin, hblock, List.take_zero, List.append_nil, hn,
      List.append_assoc, hrest, List.take_append_drop]

theorem AsyncWriteState.Sound.writeBatch (h : s.Sound info dataVec seek)
    (hrun : s.Running dataVec) : (writeBatch info dataVec maxSize s).Sound info dataVec seek where
  written    := by
    have hdone := h.written
    rw [hrun.left, if_neg Bool.false_ne_true] at hdone
    have hleft : (AsyncWrite.writeBatch info dataVec maxSize s).left = false := hrun.left
    rw [hleft, if_neg Bool.false_ne_true, writeBatch_done hrun h.offset, ← hdone, AsyncWrite.writeBatch,
      AsyncWrite.written, AsyncWrite.written, List.flatMap_append, List.flatMap_singleton, List.flatten_singleton]
  wrote      := fun _ => by
    rw [writeBatch_done hrun h.offset, List.length_append, ← h.wrote hrun.left, List.length_take,
      List.length_drop, AsyncWrite.writeBatch]
    dsimp only
    omega
  offset     := by
    unfold AsyncWrite.writeBatch
    dsimp only
    split
    · omega
    · exact Nat.zero_le _
  first      := fun _ hfirst => Bool.noConfusion hfirst
  seek       := fun hnil => absurd hnil (by simp [AsyncWrite.writeBatch])
  sequential := by
    have hstart : (if s.firstWrite = true then some info.startPos else none) =
        if s.firstWrite then some (info.startPos + s.wrote) else none := by
      split
      case isTrue hfirst => rw [h.wrote_eq_zero hrun.left (h.first hrun.left hfirst), Nat.add_zero]
      case isFalse => rfl
    exact h.sequential.concat (h.start hrun.left hstart)
  expected   := h.expected

-- The main thread is in a computation block behind all that are expected, and the loop looks for it.
def Observation.Outruns (o : Observation) (info : AsyncWriteInfo) : Prop :=
  o.flagRush = false ∧ o.inComputationBlock = true ∧ info.expectedComputationBlocks ≠ [] ∧
    ∀ blockID ∈ info.expectedComputationBlocks, blockID < o.currentComputationBlockID

theorem isInComputationBlock_undefined (hout : o.Outruns info) {compBlockIdx : Nat}
    (hidx : compBlockIdx < info.expectedComputationBlocks.length) :
    isInComputationBlock info o compBlockIdx = .error .undefined := by
  have ⟨_, hcomp, _, hbehind⟩ := hout
  have hall : (info.expectedComputationBlocks.drop compBlockIdx).takeWhile
      (· < o.currentComputationBlockID) = info.expectedComputationBlocks.drop compBlockIdx :=
    List.takeWhile_eq_self_iff.mpr fun blockID hmem =>
      decide_eq_true (hbehind blockID (List.mem_of_mem_drop hmem))
  unfold isInComputationBlock
  dsimp only
  rw [if_neg (Nat.not_le_of_lt hidx), if_pos hcomp, hall, List.length_drop,
    List.getElem?_eq_none (by omega)]
  rfl

theorem isInComputationBlock_ok
    (hsorted : info.expectedComputationBlocks.Pairwise (· < ·)) (hin : ¬ o.Outruns info)
    (hrush : o.flagRush = false) {compBlockIdx : Nat}
    (hidx : info.expectedComputationBlocks ≠ [] →
      compBlockIdx < info.expectedComputationBlocks.length) :
    ∃ compStatus compBlockIdx', isInComputationBlock info o compBlockIdx =
      .ok (compStatus, compBlockIdx') ∧ (info.expectedComputationBlocks ≠ [] →
        compBlockIdx' < info.expectedComputationBlocks.length) := by
  unfold isInComputationBlock
  dsimp only
  split
  case isTrue => exact ⟨_, _, rfl, hidx⟩
  case isFalse hlt =>
    split
    case isFalse => exact ⟨_, _, rfl, hidx⟩
    case isTrue hcomp =>
      generalize hrest : info.expectedComputationBlocks.drop compBlockIdx = rest
      have hlen : rest.length = info.expectedComputationBlocks.length - compBlockIdx := by
        rw [← hrest, List.length_drop]
      -- one of the blocks from here on is not behind the current one
      have hahead : ¬ ∀ blockID ∈ rest, blockID < o.currentComputationBlockID := by
        intro hbehind
        refine hin ⟨hrush, hcomp, fun hnil => hlt (by rw [hnil]; exact Nat.zero_le _), ?_⟩
        intro blockID hmem
        have hsplit := List.take_append_drop compBlockIdx info.expectedComputationBlocks
        rw [hrest] at hsplit
        rw [← hsplit] at hmem hsorted
        rcases List.mem_append.mp hmem with htake | hdrop
        · obtain ⟨next, hnext⟩ := List.exists_mem_of_length_pos (by omega : 0 < rest.length)
          exact ((List.pairwise_append.mp hsorted).right.right blockID htake next hnext).trans
            (hbehind next hnext)
        · exact hbehind blockID hdrop
      have hshort : (rest.takeWhile (· < o.currentComputationBlockID)).length < rest.length := by
        refine lt_of_le_of_ne (List.takeWhile_prefix _).length_le fun heq => hahead ?_
        have hself := (List.takeWhile_prefix _).eq_of_length heq
        intro blockID hmem
        exact of_decide_eq_true (List.takeWhile_eq_self_iff.mp hself blockID hmem)
      have hnew : compBlockIdx + (rest.takeWhile (· < o.currentComputationBlockID)).length <
          info.expectedComputationBlocks.length := by omega
      rw [List.getElem?_eq_getElem hnew, Option.orUndefined_some, Outcome.ok_bind]
      split
      · exact ⟨_, _, rfl, fun _ => hnew⟩
      · exact ⟨_, _, rfl, fun _ => hnew⟩

theorem AsyncWriteState.Sound.moved (h : s.Sound info dataVec seek) {compBlockIdx : Nat}
    (hidx : info.expectedComputationBlocks ≠ [] →
      compBlockIdx < info.expectedComputationBlocks.length) :
    Sound info dataVec seek { s with compBlockIdx } :=
  { h with expected := hidx }

theorem asyncWriteIteration_ok (hsorted : info.expectedComputationBlocks.Pairwise (· < ·))
    (h : s.Sound info dataVec seek) (hrun : s.Running dataVec) (hin : ¬ o.Outruns info) :
    ∃ s', asyncWriteIteration info dataVec maxSize o s = .ok s' ∧ s'.Sound info dataVec seek := by
  unfold asyncWriteIteration
  split
  case isTrue => exact ⟨_, rfl, h.writeRest hrun⟩
  case isFalse hrush =>
    obtain ⟨compStatus, compBlockIdx, hstatus, hidx⟩ :=
      isInComputationBlock_ok hsorted hin (Bool.eq_false_iff.mpr hrush) h.expected
    have hmoved := h.moved hidx
    rw [hstatus, Outcome.ok_bind]
    dsimp only
    cases compStatus with
    | inComp => exact ⟨_, rfl, hmoved.writeBatch hrun⟩
    | notInCompExpectMore => exact ⟨_, rfl, hmoved⟩
    | noMoreComp => exact ⟨_, rfl, hmoved.writeRest hrun⟩

theorem asyncWriteIteration_undefined (h : s.Sound info dataVec seek) (hout : o.Outruns info) :
    asyncWriteIteration info dataVec maxSize o s = .error .undefined := by
  have hrush : ¬ o.flagRush = true := by simp [hout.left]
  rw [asyncWriteIteration, if_neg hrush,
    isInComputationBlock_undefined hout (h.expected hout.right.right.left)]
  rfl

-- The loop.

theorem writeLoop_concat (os : List Observation) (o : Observation) (s : AsyncWriteState) :
    writeLoop info dataVec maxSize (os ++ [o]) s = (do
      let s ← writeLoop info dataVec maxSize os s
      if s.Running dataVec then asyncWriteIteration info dataVec maxSize o s else .ok s) := by
  induction os generalizing s with
  | nil =>
    rw [List.nil_append, writeLoop, writeLoop, Outcome.ok_bind]
    split
    · exact bind_pure _
    · rfl
  | cons o' os ih =>
    rw [List.cons_append, writeLoop, writeLoop]
    split
    case isTrue =>
      rw [bind_assoc]
      exact congrArg _ (funext ih)
    case isFalse hstop =>
      rw [Outcome.ok_bind, if_neg hstop]

theorem writeLoop_sound (hsorted : info.expectedComputationBlocks.Pairwise (· < ·))
    (h : s.Sound info dataVec seek)
    (hin : ∀ pre o post s', os = pre ++ o :: post → writeLoop info dataVec maxSize pre s = .ok s' →
      s'.Running dataVec → ¬ o.Outruns info) :
    ∃ s', writeLoop info dataVec maxSize os s = .ok s' ∧ s'.Sound info dataVec seek := by
  induction os using List.reverseRecOn with
  | nil => exact ⟨s, rfl, h⟩
  | append_singleton os o ih =>
    obtain ⟨s', hs', hsound⟩ := ih fun pre o' post s' hos =>
      hin pre o' (post ++ [o]) s' (by rw [hos, List.append_assoc]; rfl)
    rw [writeLoop_concat, hs', Outcome.ok_bind]
    split
    case isTrue hrun =>
      exact asyncWriteIteration_ok hsorted hsound hrun (hin os o [] s' rfl hs' hrun)
    case isFalse => exact ⟨s', rfl, hsound⟩

theorem sound_of_writeLoop (hsorted : info.expectedComputationBlocks.Pairwise (· < ·))
    (h : s.Sound info dataVec seek) (hok : writeLoop info dataVec maxSize os s = .ok s') :
    s'.Sound info dataVec seek := by
  induction os generalizing s with
  | nil =>
    cases hok
    exact h
  | cons o os ih =>
    rw [writeLoop] at hok
    split at hok
    case isTrue hrun =>
      obtain ⟨s₁, hs₁, hok⟩ := Outcome.bind_eq_ok.mp hok
      refine ih ?_ hok
      by_cases hout : o.Outruns info
      · rw [asyncWriteIteration_undefined h hout] at hs₁
        cases hs₁
      · obtain ⟨s₂, hs₂, hsound⟩ := asyncWriteIteration_ok hsorted h hrun hout
        cases hs₂.symm.trans hs₁
        exact hsound
    case isFalse =>
      cases hok
      exact h

theorem writeLoop_append_error {pre : List Observation} (post : List Observation) {fault : Fault}
    (h : writeLoop info dataVec maxSize pre s = .error fault) :
    writeLoop info dataVec maxSize (pre ++ post) s = .error fault := by
  induction pre generalizing s with
  | nil => cases h
  | cons o os ih =>
    rw [List.cons_append]
    rw [writeLoop] at h ⊢
    split at h
    case isTrue hrun =>
      rw [if_pos hrun]
      cases hiter : asyncWriteIteration info dataVec maxSize o s with
      | error fault' =>
        rw [hiter] at h
        exact h
      | ok s' =>
        rw [hiter, Outcome.ok_bind] at h
        exact ih h
    case isFalse => cases h

-- The data is in the file from the start position on, as far as the run has come, and all of it when
-- the run is over.
def AsyncWriteState.Placed (info : AsyncWriteInfo) (dataVec : List (List Byte)) (seek : Bool)
    (s : AsyncWriteState) : Prop :=
  written s.writes <+: dataVec.flatten ∧
    (¬ s.Running dataVec → written s.writes = dataVec.flatten) ∧
    ∀ f : Posix.File, (seek = false → f.position = info.startPos) →
      (s.writes.foldl IssuedWrite.perform f).content =
        ({ f with position := info.startPos }.write (written s.writes)).content

theorem AsyncWriteState.done_of_length_le (hend : dataVec.length ≤ s.block) :
    s.done dataVec = dataVec.flatten := by
  rw [done, List.take_of_length_le hend, List.getD_eq_default _ _ hend, List.take_nil,
    List.append_nil]

theorem AsyncWriteState.done_prefix (s : AsyncWriteState) : s.done dataVec <+: dataVec.flatten := by
  by_cases hblock : s.block < dataVec.length
  · rw [flatten_split hblock, done, List.getD_eq_getElem _ _ hblock, List.append_assoc]
    refine List.prefix_append_right_inj _ |>.mpr ?_
    exact (List.take_prefix _ _).trans (List.prefix_append _ _)
  · rw [done_of_length_le (Nat.le_of_not_lt hblock)]

theorem AsyncWriteState.Sound.placed (h : s.Sound info dataVec seek) : s.Placed info dataVec seek := by
  refine ⟨?_, fun hstop => ?_, fun f hf => ?_⟩
  · rw [h.written]
    split
    case isTrue => exact List.prefix_rfl
    case isFalse => exact s.done_prefix
  · rw [h.written]
    split
    case isTrue => rfl
    case isFalse hleft =>
      have hend : dataVec.length ≤ s.block :=
        Nat.le_of_not_lt fun hlt => hstop ⟨Bool.eq_false_iff.mpr hleft, hlt⟩
      exact done_of_length_le hend
  · refine h.sequential.perform ?_
    cases seek with
    | true => exact .inl rfl
    | false => exact .inr ⟨rfl, hf rfl⟩

-- Whatever the data, its place and what the thread sees: the writes place the data, and the list of
-- the expected blocks is not left, exactly if no look while data is left to write finds the main
-- thread in a computation block behind the last expected one, without a rush.
theorem asyncWriteOwnData_placed (info : AsyncWriteInfo)
    (hsorted : info.expectedComputationBlocks.Pairwise (· < ·)) (dataVec : List (List Byte))
    (totalsize : Nat) (seekOnFirstWrite : Bool) (os : List Observation) :
    (∃ s, asyncWriteOwnData info dataVec totalsize seekOnFirstWrite os = .ok s ∧
        s.Placed info dataVec seekOnFirstWrite) ↔
      ∀ pre o post s, os = pre ++ o :: post →
        asyncWriteOwnData info dataVec totalsize seekOnFirstWrite pre = .ok s →
          s.Running dataVec → ¬ o.Outruns info := by
  have hstart := AsyncWriteState.sound_start info dataVec seekOnFirstWrite
  unfold asyncWriteOwnData
  generalize max (1024 * 1024) (totalsize / 100) = maxSize
  constructor
  · rintro ⟨s, hs, -⟩ pre o post s' rfl hpre hrun hout
    have hsound := sound_of_writeLoop hsorted hstart hpre
    have herror : writeLoop info dataVec maxSize (pre ++ [o])
        { firstWrite := seekOnFirstWrite } = .error .undefined := by
      rw [writeLoop_concat, hpre, Outcome.ok_bind, if_pos hrun]
      exact asyncWriteIteration_undefined hsound hout
    have hall := writeLoop_append_error post herror
    rw [List.append_assoc, List.singleton_append, hs] at hall
    cases hall
  · intro hin
    have ⟨s, hs, hsound⟩ := writeLoop_sound hsorted hstart hin
    exact ⟨s, hs, hsound.placed⟩

theorem asyncWriteOwnData_placed_quiet :
    ∃ s, asyncWriteOwnData ⟨16, [0]⟩ [[1, 2], [3]] 3 true
      [⟨false, false, 0⟩, ⟨false, true, 0⟩, ⟨true, false, 1⟩] = .ok s ∧
      s.Placed ⟨16, [0]⟩ [[1, 2], [3]] true := by
  refine (asyncWriteOwnData_placed ⟨16, [0]⟩ (List.pairwise_singleton _ _) _ 3 true _).mpr ?_
  rintro pre o post s hos - - ⟨hrush, -, -, hbehind⟩
  have hid : o.currentComputationBlockID = 0 ∨ o.flagRush = true := by
    have hmem : o ∈ pre ++ o :: post := List.mem_append_right _ List.mem_cons_self
    rw [← hos] at hmem
    fin_cases hmem <;> simp
  rcases hid with hid | hid
  · have hlt := hbehind 0 (List.mem_singleton.mpr rfl)
    rw [hid] at hlt
    exact Nat.lt_irrefl 0 hlt
  · rw [hid] at hrush
    cases hrush

-- A second computation block, when the last step has recorded one.
theorem not_asyncWriteOwnData_placed_secondBlock :
    ¬ ∃ s, asyncWriteOwnData ⟨0, [0]⟩ [[1]] 1 true [⟨false, true, 1⟩] = .ok s ∧
      s.Placed ⟨0, [0]⟩ [[1]] true := by
  rintro ⟨s, hs, -⟩
  cases hs

end BP5.AsyncWrite
