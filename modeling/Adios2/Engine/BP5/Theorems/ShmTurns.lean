import Adios2.Engine.BP5.TwoLevelShm
import Adios2.Toolkit.Transport.Theorems.VectoredWrites
import Adios2.Engine.BP5.Theorems.ShmBuffers

-- What the calls of the aggregator write to its file.

namespace BP5

open Bytes FilePOSIX Posix

variable {name : String} {s : System}

-- A call that has written `bs`, or that has thrown.
inductive Written (f : File) (bs : List Byte) : Outcome System → Prop
  | ok {s' : System} (file : s'.file = f.write bs) : Written f bs (.ok s')
  | thrown {component source activity message : String} :
    Written f bs (.error (.thrown component source activity message))

-- A call that has returned or thrown, whatever it has written.
def Returned (o : Outcome System) : Prop :=
  (∃ s', o = .ok s') ∨ ∃ component source activity message,
    o = .error (.thrown component source activity message)

theorem Written.returned {f : File} {bs : List Byte} {o : Outcome System} (h : Written f bs o) :
    Returned o := by
  cases h with
  | @ok s' _ => exact .inl ⟨s', rfl⟩
  | @thrown c so a m => exact .inr ⟨c, so, a, m, rfl⟩

theorem write_written {bs : List Byte} : Written s.file bs (write name s bs none) := by
  have h : Wrote s bs (write name s bs none) := write_wrote
  generalize write name s bs none = o at h ⊢
  cases h with
  | ok file => exact .ok file
  | thrown => exact .thrown

theorem seek_file {activity : String} {s' : System} {start : Nat}
    (h : seek activity name s start = .ok s') :
    s'.file = { s.file with position := start } ∧ s'.writevs = s.writevs := by
  unfold seek System.lseek at h
  split at h
  · rename_i hseek
    cases h
    split at hseek
    · cases hseek
    · split at hseek <;> cases hseek
      exact ⟨rfl, rfl⟩
  · cases h

theorem seek_returned (name : String) (activity : String) (s : System) (start : Nat) :
    (∃ s', seek activity name s start = .ok s') ∨ ∃ component source activity' message,
      seek activity name s start = .error (.thrown component source activity' message) := by
  unfold seek
  split
  · exact .inl ⟨_, rfl⟩
  · exact .inr ⟨_, _, _, _, rfl⟩

theorem seekFile_file {s' : System} {start : Nat} (hstart : start ≠ 2 ^ 64 - 1)
    (h : seekFile name s start = .ok s') :
    s'.file = { s.file with position := start } ∧ s'.writevs = s.writevs := by
  unfold seekFile System.lseek at h
  rw [if_pos hstart] at h
  split at h
  · rename_i hseek
    cases h
    split at hseek
    · cases hseek
    · split at hseek <;> cases hseek
      exact ⟨rfl, rfl⟩
  · cases h

theorem seekFile_returned {start : Nat} :
    Returned (seekFile name s start) := by
  unfold seekFile
  split <;> split
  · exact .inl ⟨_, rfl⟩
  · exact .inr ⟨_, _, _, _, rfl⟩
  · exact .inl ⟨_, rfl⟩
  · exact .inr ⟨_, _, _, _, rfl⟩

theorem writeV_returned (iov : List (List Byte)) (start : Option Nat) :
    Returned (writeV name s iov start) := by
  have hbatches (s : System) : Returned ((batches iov).foldlM (writeVBatch name) s) := by
    have h : WroteV s (batches iov).flatten _ _ ((batches iov).foldlM (writeVBatch name) s) :=
      writeVBatches_wroteV
    generalize (batches iov).foldlM (writeVBatch name) s = o at h ⊢
    cases h with
    | once => exact .inl ⟨_, rfl⟩
    | again => exact .inl ⟨_, rfl⟩
    | thrown => exact .inr ⟨_, _, _, _, rfl⟩
  unfold writeV
  cases start with
  | none => exact hbatches s
  | some start =>
    dsimp only
    rcases seek_returned name "WriteV" s start with ⟨s', hs⟩ | ⟨c, so, a, m, hs⟩
    · rw [hs, Outcome.ok_bind]
      exact hbatches s'
    · rw [hs]
      exact .inr ⟨_, _, _, _, rfl⟩

-- Where no call of `writev` is cut short.
theorem writeV_written {iov : List (List Byte)}
    (h : ∀ s', writeV name s iov none = .ok s' → NeverCut (batches iov) s.writevs) :
    Written s.file iov.flatten (writeV name s iov none) := by
  have hwrote : WroteV s (batches iov).flatten _ (NeverCut (batches iov) s.writevs)
      ((batches iov).foldlM (writeVBatch name) s) := writeVBatches_wroteV
  have heq : writeV name s iov none = (batches iov).foldlM (writeVBatch name) s := rfl
  rw [batches_flatten] at hwrote
  rw [heq] at h ⊢
  generalize (batches iov).foldlM (writeVBatch name) s = o at h hwrote ⊢
  cases hwrote with
  | once _ file => exact .ok file
  | @again s' _ hcut _ _ _ => exact absurd (h s' rfl) hcut
  | thrown => exact .thrown

theorem writeV_written_at {iov : List (List Byte)} {start : Nat}
    (h : ∀ s', writeV name s iov (some start) = .ok s' → NeverCut (batches iov) s.writevs) :
    Written { s.file with position := start } iov.flatten (writeV name s iov (some start)) := by
  cases hseek : seek "WriteV" name s start with
  | error f =>
    have heq : writeV name s iov (some start) = .error f := by
      rw [writeV]
      dsimp only
      rw [hseek]
      rfl
    rcases seek_returned name "WriteV" s start with ⟨s', hs⟩ | ⟨c, so, a, m, hs⟩
    · rw [hseek] at hs
      cases hs
    · rw [hseek] at hs
      cases hs
      rw [heq]
      exact .thrown
  | ok s₁ =>
    obtain ⟨hfile, hwritevs⟩ := seek_file hseek
    have heq : writeV name s iov (some start) = writeV name s₁ iov none := by
      rw [writeV, writeV]
      dsimp only
      rw [hseek]
    rw [heq, ← hwritevs] at h
    rw [heq, ← hfile]
    exact writeV_written h

-- What is handed to `writev` when the rest is written at once.
def rushed (maxSize : Nat) : List Schedule → List (List Byte) → Nat → Option (List (List Byte))
  | _, [], _                                => none
  | [], _ :: _, _                           => none
  | .sleep :: e, blocks, tempOffset         => rushed maxSize e blocks tempOffset
  | .rush :: _, block :: blocks, tempOffset => some (block.drop tempOffset :: blocks)
  | .batch :: e, block :: blocks, tempOffset =>
    let n := min (block.length - tempOffset) maxSize
    if n + tempOffset < block.length then
      rushed maxSize e (block :: blocks) (tempOffset + n)
    else
      rushed maxSize e blocks 0

-- All that is left is written, in whatever steps.
theorem asyncWriteOwnData_written {maxSize : Nat} {e : List Schedule} {blocks : List (List Byte)}
    {tempOffset : Nat} {s' : System} (hoff : tempOffset ≤ (blocks.headD []).length)
    (huncut : ∀ iov ∈ rushed maxSize e blocks tempOffset, NeverCut (batches iov) s.writevs)
    (h : asyncWriteOwnData name maxSize e blocks tempOffset s = .ok s') :
    s'.file = s.file.write (blocks.flatten.drop tempOffset) := by
  induction e generalizing blocks tempOffset s with
  | nil =>
    cases blocks with
    | nil =>
      cases h
      simp
    | cons block blocks => cases h
  | cons turn e ih =>
    cases blocks with
    | nil =>
      cases h
      simp
    | cons block blocks =>
      have hoff : tempOffset ≤ block.length := hoff
      have hflatten : (block :: blocks).flatten.drop tempOffset =
          block.drop tempOffset ++ blocks.flatten := by
        rw [List.flatten_cons, List.drop_append_of_le_length hoff]
      cases turn with
      | sleep => exact ih hoff huncut h
      | rush =>
        have hwritten := writeV_written fun s' (_ : writeV name s _ none = .ok s') => huncut _ rfl
        rw [asyncWriteOwnData] at h
        rw [h] at hwritten
        cases hwritten with
        | ok file => rw [file, hflatten, List.flatten_cons]
      | batch =>
        rw [asyncWriteOwnData] at h
        rw [rushed] at huncut
        generalize hn : min (block.length - tempOffset) maxSize = n at h huncut
        obtain ⟨s₁, hs₁, h⟩ := Outcome.bind_eq_ok.mp h
        have hwrote : Wrote s ((block.drop tempOffset).take n)
          (write name s ((block.drop tempOffset).take n) none) := write_wrote
        rw [hs₁] at hwrote
        cases hwrote with
        | ok file writevs =>
          rw [← writevs] at huncut
          split at h
          case isTrue hlt =>
            rw [if_pos hlt] at huncut
            have hoff' : tempOffset + n ≤ ((block :: blocks).headD []).length := by
              rw [List.headD_cons]
              omega
            rw [ih hoff' huncut h, file, File.write_append, hflatten, List.flatten_cons,
              List.drop_append_of_le_length (by omega), ← List.append_assoc, ← List.drop_drop,
              List.take_append_drop]
          case isFalse hge =>
            rw [if_neg hge] at huncut
            have htake : (block.drop tempOffset).take n = block.drop tempOffset :=
              List.take_of_length_le (by rw [List.length_drop]; omega)
            rw [ih (Nat.zero_le _) huncut h, file, File.write_append, htake, hflatten,
              List.drop_zero]

theorem asyncWriteOwnData_returned {maxSize tempOffset : Nat} {e : List Schedule}
    {blocks : List (List Byte)} :
    Returned (asyncWriteOwnData name maxSize e blocks tempOffset s) ∨
      asyncWriteOwnData name maxSize e blocks tempOffset s = .error .outOfFuel := by
  induction e generalizing blocks tempOffset s with
  | nil =>
    cases blocks with
    | nil => exact .inl (.inl ⟨s, rfl⟩)
    | cons block blocks => exact .inr rfl
  | cons turn e ih =>
    cases blocks with
    | nil => exact .inl (.inl ⟨s, rfl⟩)
    | cons block blocks =>
      cases turn with
      | sleep => exact ih
      | rush => exact .inl (writeV_returned _ _)
      | batch =>
        rw [asyncWriteOwnData]
        generalize min (block.length - tempOffset) maxSize = n
        have hwritten : Written s.file ((block.drop tempOffset).take n)
          (write name s ((block.drop tempOffset).take n) none) := write_written
        rcases hwritten.returned with ⟨s', hs'⟩ | ⟨component, source, activity, message, hthrown⟩
        · rw [hs', Outcome.ok_bind]
          split
          · exact ih
          · exact ih
        · rw [hthrown]
          exact .inl (.inr ⟨_, _, _, _, rfl⟩)

-- Written at once, it comes to an end.
theorem asyncWriteOwnData_rush {maxSize tempOffset : Nat} {blocks : List (List Byte)} :
    Returned (asyncWriteOwnData name maxSize [.rush] blocks tempOffset s) := by
  cases blocks with
  | nil => exact .inl ⟨s, rfl⟩
  | cons block blocks => exact writeV_returned _ _

end BP5

-- Where the ranks of a group are in a write: the token is with one rank after the other, in one round
-- or, with asynchronous writing, in two, and the aggregator goes through its own tasks.

namespace BP5

open Bytes FilePOSIX MPIShmChain Posix Threads

namespace ShmGroup

variable (g : ShmGroup)

-- Where the data of a rank is to start.
def offset (r : Nat) : Nat :=
  g.dataPos + ((List.range r).map g.dataSize).sum

-- What a rank hands over.
def fills (r : Nat) : List (List Byte) :=
  if r = 0 then [] else fillsFrom g.shmSize.blockSize (g.dataVec r) 0

-- What all ranks hand over.
def pieces : List (List Byte) :=
  (List.range g.size).flatMap g.fills

-- The rounds of the token in front of the one in which data is sent.
def rounds : Nat :=
  if g.asyncWrite then 1 else 0

def dataPart : Part :=
  if g.asyncWrite then .thread else .main

-- The number of times that the token is sent before a rank can send its data.
def lastTurn (r : Nat) : Nat :=
  g.rounds * g.size + r

-- What is handed over when the token has been sent `turn` times.
def pending (turn : Nat) : List (List Byte) :=
  ((List.range g.size).drop (turn - g.rounds * g.size)).flatMap g.fills

-- The tasks of a rank that does not have the token.
def waiting (r turn : Nat) : List ShmTask :=
  if r < g.size then
    (if turn ≤ r then g.round r .main else []) ++
      (if g.asyncWrite ∧ turn ≤ g.size + r then g.round r .thread else [])
  else
    []

def launchTasks : List ShmTask :=
  if g.asyncWrite then [.recvToken 0 .main, .sendToken 0 .thread] else []

def lastTasks : List ShmTask :=
  if g.asyncWrite then [.recvToken 0 .thread] else []

variable {g}

theorem size_pos : 0 < g.size :=
  List.length_pos_iff.mpr g.data_ne

theorem offset_succ (r : Nat) : g.offset (r + 1) = g.offset r + g.dataSize r := by
  simp [offset, List.range_succ, Nat.add_assoc]

theorem pending_zero : g.pending 0 = g.pieces := by
  rw [pending, Nat.zero_sub, List.drop_zero, pieces]

theorem pending_lastTurn {r : Nat} (hr : r < g.size) :
    g.pending (g.lastTurn r) = g.fills r ++ g.pending (g.lastTurn r + 1) := by
  have hlen : r < (List.range g.size).length := by simpa using hr
  have h₀ : g.lastTurn r - g.rounds * g.size = r := Nat.add_sub_cancel_left _ _
  have h₁ : g.lastTurn r + 1 - g.rounds * g.size = r + 1 := by
    rw [lastTurn, Nat.add_assoc, Nat.add_sub_cancel_left]
  rw [pending, pending, h₀, h₁, List.drop_eq_getElem_cons hlen, List.flatMap_cons,
    List.getElem_range]

theorem pending_of_lt {turn : Nat} (h : turn < g.rounds * g.size) :
    g.pending (turn + 1) = g.pending turn := by
  rw [pending, pending, Nat.sub_eq_zero_of_le h.le, Nat.sub_eq_zero_of_le h]

theorem pending_of_le {turn : Nat} (h : (g.rounds + 1) * g.size ≤ turn) : g.pending turn = [] := by
  rw [Nat.succ_mul] at h
  rw [pending, List.drop_of_length_le (by simp; omega), List.flatMap_nil]

theorem turn_eq {turn r : Nat} (hle : turn ≤ (g.rounds + 1) * g.size) (hr : 0 < r)
    (hturn : turn % g.size = r) :
    turn = g.lastTurn r ∨ g.asyncWrite = true ∧ turn = r := by
  have hdiv := Nat.div_add_mod' turn g.size
  have hlt := Nat.mod_lt turn (size_pos (g := g))
  rw [hturn] at hdiv hlt
  generalize turn / g.size = q at hdiv
  have hq : q ≤ g.rounds := by
    by_contra hgt
    have := Nat.mul_le_mul_right g.size (show g.rounds + 1 ≤ q by omega)
    omega
  unfold lastTurn
  rcases hq.lt_or_eq with hlt | heq
  · right
    unfold rounds at hlt
    split at hlt
    case isTrue hasync =>
      have hzero : q = 0 := by omega
      rw [hzero, Nat.zero_mul, Nat.zero_add] at hdiv
      exact ⟨hasync, hdiv.symm⟩
    case isFalse => omega
  · left
    rw [← heq, hdiv]

theorem waiting_succ {turn r : Nat} (h : turn % g.size ≠ r) :
    g.waiting r (turn + 1) = g.waiting r turn := by
  unfold waiting
  split
  case isFalse => rfl
  case isTrue hr =>
    have h₁ : turn ≠ r := fun heq => h (by rw [heq, Nat.mod_eq_of_lt hr])
    have h₂ : turn ≠ g.size + r := fun heq => h (by rw [heq, Nat.add_mod_left, Nat.mod_eq_of_lt hr])
    simp only [show turn + 1 ≤ r ↔ turn ≤ r by omega,
      show turn + 1 ≤ g.size + r ↔ turn ≤ g.size + r by omega]

theorem waiting_lastTurn {r : Nat} (hr : r < g.size) :
    g.waiting r (g.lastTurn r) =
      [.recvToken r g.dataPart, .sendData r 0 0, .sendToken r g.dataPart] := by
  have hpos := size_pos (g := g)
  unfold waiting lastTurn rounds dataPart round
  cases hasync : g.asyncWrite
  case false => simp [hr]
  case true => simp [hr, show ¬ g.size ≤ 0 by omega]

theorem waiting_lastTurn_succ {r : Nat} : g.waiting r (g.lastTurn r + 1) = [] := by
  unfold waiting lastTurn rounds
  cases hasync : g.asyncWrite <;> simp

theorem waiting_of_le {r turn : Nat} (h : (g.rounds + 1) * g.size ≤ turn) :
    g.waiting r turn = [] := by
  unfold rounds at h
  unfold waiting
  split
  case isFalse => rfl
  case isTrue hr =>
    cases hasync : g.asyncWrite
    case false =>
      rw [hasync, if_neg (by simp), Nat.zero_add, Nat.one_mul] at h
      simp [show ¬ turn ≤ r by omega]
    case true =>
      rw [hasync, if_pos rfl] at h
      simp [show ¬ turn ≤ r by omega, show ¬ turn ≤ g.size + r by omega]

theorem waiting_first {r : Nat} (hr : r < g.size) (hasync : g.asyncWrite = true) :
    g.waiting r r = [.recvToken r .main, .sendToken r .main] ++ g.round r .thread := by
  unfold waiting
  simp [hr, hasync, round]

theorem waiting_first_succ {r : Nat} (hr : r < g.size) (hasync : g.asyncWrite = true) :
    g.waiting r (r + 1) = g.round r .thread := by
  have hpos := size_pos (g := g)
  unfold waiting
  simp [hr, hasync]
  omega

end ShmGroup

variable {g : ShmGroup} {f₀ : File} {s s' : ShmState} {turn r : Nat} {tasks : List ShmTask}
  {left : List (List Byte)} {p : ProducerPhase} {k : ConsumerPhase}

-- Where the writing thread of a rank, or the rank, has its data start.
def ShmState.position (s : ShmState) (g : ShmGroup) (r : Nat) : Nat :=
  if g.asyncWrite then s.startPos r else s.startDataPos r

-- The task of a rank that is sending its data, with what it still has to hand over.
inductive Producing (g : ShmGroup) (r released : Nat) :
    ShmTask → ProducerPhase → List (List Byte) → Prop
  | sendData {block tempOffset : Nat}
      (h : Copyable g.shmSize.blockSize ((g.dataVec r).drop block) tempOffset) :
      Producing g r released (.sendData r block tempOffset) .idle
        (fillsFrom g.shmSize.blockSize ((g.dataVec r).drop block) tempOffset)
  | choose {block tempOffset : Nat} (lt : block < (g.dataVec r).length)
      (h : Copyable g.shmSize.blockSize ((g.dataVec r).drop block) tempOffset) :
      Producing g r released (.chooseProducer r block tempOffset) .room
        (fillsFrom g.shmSize.blockSize ((g.dataVec r).drop block) tempOffset)
  | lock {block tempOffset : Nat} (lt : block < (g.dataVec r).length)
      (h : Copyable g.shmSize.blockSize ((g.dataVec r).drop block) tempOffset) :
      Producing g r released (.lockProducer r (bufferOf released) block tempOffset) .chosen
        (fillsFrom g.shmSize.blockSize ((g.dataVec r).drop block) tempOffset)
  | fill {block tempOffset : Nat} (lt : block < (g.dataVec r).length)
      (h : Copyable g.shmSize.blockSize ((g.dataVec r).drop block) tempOffset) :
      Producing g r released (.fill r (bufferOf released) block tempOffset) .filling
        (fillsFrom g.shmSize.blockSize ((g.dataVec r).drop block) tempOffset)
  | count {block tempOffset : Nat} {bs : List Byte}
      (h : Copyable g.shmSize.blockSize ((g.dataVec r).drop block) tempOffset) :
      Producing g r released (.countProducer r block tempOffset) .filled
        (bs :: fillsFrom g.shmSize.blockSize ((g.dataVec r).drop block) tempOffset)
  | unlock {block tempOffset : Nat} (pos : 0 < released)
      (h : Copyable g.shmSize.blockSize ((g.dataVec r).drop block) tempOffset) :
      Producing g r released (.unlockProducer r block tempOffset) .counted
        (fillsFrom g.shmSize.blockSize ((g.dataVec r).drop block) tempOffset)

-- The tasks of the rank that has the token.
inductive Turn (g : ShmGroup) (s : ShmState) (turn r : Nat) :
    List ShmTask → ProducerPhase → List (List Byte) → Prop
  -- the aggregator has it, or nobody is left that needs it
  | aggregator {tasks : List ShmTask} (h : r = 0) : Turn g s turn r tasks .idle (g.pending turn)
  | joining (pos : 0 < r) (async : g.asyncWrite = true) (first : turn = r) :
      Turn g s turn r ([.recvToken r .main, .sendToken r .main] ++ g.round r .thread) .idle
        (g.pending turn)
  | joined (pos : 0 < r) (async : g.asyncWrite = true) (first : turn = r)
      (position : s.startDataPos r = g.offset r) :
      Turn g s turn r (.sendToken r .main :: g.round r .thread) .idle (g.pending turn)
  | receiving (pos : 0 < r) (last : turn = g.lastTurn r) :
      Turn g s turn r [.recvToken r g.dataPart, .sendData r 0 0, .sendToken r g.dataPart] .idle
        (g.pending turn)
  | producing {t : ShmTask} {p : ProducerPhase} {left : List (List Byte)}
      (pos : 0 < r) (last : turn = g.lastTurn r) (position : s.position g r = g.offset r)
      (h : Producing g r s.released.length t p left) :
      Turn g s turn r [t, .sendToken r g.dataPart] p (left ++ g.pending (turn + 1))
  | sending (pos : 0 < r) (last : turn = g.lastTurn r)
      (position : s.position g r = g.offset r) :
      Turn g s turn r [.sendToken r g.dataPart] .idle (g.pending (turn + 1))

namespace Turn

theorem of_waiting (hle : turn ≤ (g.rounds + 1) * g.size) (hr : turn % g.size = r) :
    Turn g s turn r (g.waiting r turn) .idle (g.pending turn) := by
  rcases Nat.eq_zero_or_pos r with hzero | hpos
  · exact .aggregator hzero
  have hlt : r < g.size := hr ▸ Nat.mod_lt _ ShmGroup.size_pos
  rcases ShmGroup.turn_eq hle hpos hr with hlast | ⟨hasync, hfirst⟩
  · rw [hlast, ShmGroup.waiting_lastTurn hlt]
    exact .receiving hpos rfl
  · rw [hfirst, ShmGroup.waiting_first hlt hasync]
    exact .joining hpos hasync rfl

theorem congr (h : Turn g s turn r tasks p left) (hstart : s'.startDataPos r = s.startDataPos r)
    (hpos : 0 < r → s'.startPos r = s.startPos r) (hreleased : s'.released = s.released) :
    Turn g s' turn r tasks p left := by
  have hposition (hr : 0 < r) : s'.position g r = s.position g r := by
    unfold ShmState.position
    rw [hstart, hpos hr]
  cases h with
  | aggregator h => exact .aggregator h
  | joining pos async first => exact .joining pos async first
  | joined pos async first position => exact .joined pos async first (hstart.trans position)
  | receiving pos last => exact .receiving pos last
  | producing pos last position h =>
    exact .producing pos last ((hposition pos).trans position) (hreleased ▸ h)
  | sending pos last position => exact .sending pos last ((hposition pos).trans position)

end Turn

-- The task of the aggregator while it writes what the others hand over.
inductive Consuming (g : ShmGroup) (consumed : List (List Byte)) : ShmTask → ConsumerPhase → Prop
  | others : Consuming g consumed (.writeOthersData consumed.flatten.length) .idle
  | choose : Consuming g consumed (.chooseConsumer consumed.flatten.length) .full
  | lock : Consuming g consumed (.lockConsumer (bufferOf consumed.length) consumed.flatten.length)
      .chosen
  | write : Consuming g consumed (.writeBuffer (bufferOf consumed.length) consumed.flatten.length)
      .taking
  | count (ne : consumed ≠ []) :
      Consuming g consumed (.countConsumer consumed.flatten.length) .taken
  | unlock (ne : consumed ≠ []) :
      Consuming g consumed (.unlockConsumer consumed.flatten.length) .counted

-- The aggregator has not come to its file yet.
structure ShmState.Untouched (f₀ : File) (s : ShmState) : Prop where
  file     : s.file.file = f₀
  eptr     : s.eptr = none
  consumed : s.consumed = []

-- The file holds its own data, and behind it what it has taken so far.
structure ShmState.Wrote (g : ShmGroup) (f₀ : File) (s : ShmState) : Prop where
  file  : s.eptr = none → s.file.file =
    (startingAt f₀ (some g.dataPos)).write ((g.dataVec 0).flatten ++ s.consumed.flatten)
  async : g.asyncWrite = true → s.eptr = none

-- The tasks of the aggregator.
inductive AggregatorAt (g : ShmGroup) (f₀ : File) (s : ShmState) (turn : Nat) :
    List ShmTask → ConsumerPhase → Prop
  | first (h : turn = 0) (file : s.Untouched f₀) (pos : g.asyncWrite = false → s.dataPos = g.dataPos) :
      AggregatorAt g f₀ s turn
        (.sendToken 0 .main :: (g.launchTasks ++ .writeMyOwnData :: .writeOthersData 0 :: g.lastTasks))
        .idle
  | launching (async : g.asyncWrite = true) (pos : 0 < turn) (le : turn ≤ g.size)
      (file : s.Untouched f₀) :
      AggregatorAt g f₀ s turn [.recvToken 0 .main, .sendToken 0 .thread, .writeMyOwnData,
        .writeOthersData 0, .recvToken 0 .thread] .idle
  | launched (async : g.asyncWrite = true) (eq : turn = g.size) (file : s.Untouched f₀)
      (pos : s.startPos 0 = g.dataPos) :
      AggregatorAt g f₀ s turn [.sendToken 0 .thread, .writeMyOwnData, .writeOthersData 0,
        .recvToken 0 .thread] .idle
  | own (lt : g.rounds * g.size < turn) (file : s.Untouched f₀)
      (pos : g.asyncWrite = false → s.dataPos = g.dataPos)
      (posAsync : g.asyncWrite = true → s.startPos 0 = g.dataPos) :
      AggregatorAt g f₀ s turn (.writeMyOwnData :: .writeOthersData 0 :: g.lastTasks) .idle
  | consuming {t : ShmTask} {k : ConsumerPhase} (lt : g.rounds * g.size < turn)
      (h : Consuming g s.consumed t k) (wrote : s.Wrote g f₀) :
      AggregatorAt g f₀ s turn (t :: g.lastTasks) k
  | waiting (async : g.asyncWrite = true) (lt : g.rounds * g.size < turn)
      (drained : g.myTotalSize - g.dataSize 0 ≤ s.consumed.flatten.length) (wrote : s.Wrote g f₀) :
      AggregatorAt g f₀ s turn [.recvToken 0 .thread] .idle
  | done (lt : g.rounds * g.size < turn)
      (drained : g.myTotalSize - g.dataSize 0 ≤ s.consumed.flatten.length) (wrote : s.Wrote g f₀) :
      AggregatorAt g f₀ s turn [] .idle

namespace AggregatorAt

theorem congr (h : AggregatorAt g f₀ s turn tasks k) (hfile : s'.file = s.file)
    (heptr : s'.eptr = s.eptr) (hconsumed : s'.consumed = s.consumed)
    (hstartPos : s'.startPos 0 = s.startPos 0) (hdataPos : s'.dataPos = s.dataPos) :
    AggregatorAt g f₀ s' turn tasks k := by
  have huntouched (h : s.Untouched f₀) : s'.Untouched f₀ :=
    ⟨hfile ▸ h.file, heptr ▸ h.eptr, hconsumed ▸ h.consumed⟩
  have hwrote (h : s.Wrote g f₀) : s'.Wrote g f₀ :=
    ⟨by rw [hfile, heptr, hconsumed]; exact h.file, heptr ▸ h.async⟩
  cases h with
  | first h file pos => exact .first h (huntouched file) (hdataPos ▸ pos)
  | launching async pos le file => exact .launching async pos le (huntouched file)
  | launched async eq file pos =>
    exact .launched async eq (huntouched file) (hstartPos.trans pos)
  | own lt file pos posAsync =>
    exact .own lt (huntouched file) (hdataPos ▸ pos) (hstartPos ▸ posAsync)
  | consuming lt h wrote => exact .consuming lt (hconsumed ▸ h) (hwrote wrote)
  | waiting async lt drained wrote => exact .waiting async lt (hconsumed ▸ drained) (hwrote wrote)
  | done lt drained wrote => exact .done lt (hconsumed ▸ drained) (hwrote wrote)

-- Another rank sends the token on.
theorem next (h : AggregatorAt g f₀ s turn tasks k) (hpos : turn % g.size ≠ 0) :
    AggregatorAt g f₀ s (turn + 1) tasks k := by
  have hne (m : Nat) : turn ≠ m * g.size := fun heq => hpos (by rw [heq, Nat.mul_mod_left])
  cases h with
  | first h => exact absurd (h ▸ (Nat.zero_mul g.size).symm) (hne 0)
  | launching async pos le file =>
    have := hne 1
    exact .launching async (by omega) (by omega) file
  | launched async eq => exact absurd (eq.trans (Nat.one_mul _).symm) (hne 1)
  | own lt file pos posAsync => exact .own (by omega) file pos posAsync
  | consuming lt h wrote => exact .consuming (by omega) h wrote
  | waiting async lt drained wrote => exact .waiting async (by omega) drained wrote
  | done lt drained wrote => exact .done (by omega) drained wrote

end AggregatorAt

end BP5
