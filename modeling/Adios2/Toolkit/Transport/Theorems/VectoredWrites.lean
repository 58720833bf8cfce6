import Adios2.Toolkit.Transport.FilePOSIX
import Adios2.Lib.Lists

-- What a vector of buffers leaves in the file, for all replies of the operating system.

namespace FilePOSIX

open Bytes Posix

variable {name : String} {s s' : System}

-- A call that has written `bs`, or has thrown.
inductive Wrote (s : System) (bs : List Byte) : Outcome System → Prop
  | ok {s' : System} (file : s'.file = s.file.write bs) (writevs : s'.writevs = s.writevs) :
    Wrote s bs (.ok s')
  | thrown {component source activity message : String} :
    Wrote s bs (.error (.thrown component source activity message))

namespace Wrote

theorem nil : Wrote s [] (.ok s) :=
  .ok (File.write_nil _).symm rfl

theorem bind {xs ys : List Byte} {o : Outcome System} {f : System → Outcome System}
    (h : Wrote s xs o) (h' : ∀ s, Wrote s ys (f s)) : Wrote s (xs ++ ys) (o >>= f) := by
  cases h with
  | thrown => exact .thrown
  | @ok s₁ file writevs =>
    rw [Outcome.ok_bind]
    cases hf : f s₁ with
    | error e =>
      have := h' s₁
      rw [hf] at this
      cases this
      exact .thrown
    | ok s₂ =>
      have := h' s₁
      rw [hf] at this
      cases this with
      | ok file' writevs' =>
        refine .ok ?_ (writevs'.trans writevs)
        rw [file', file, File.write_append]

theorem foldlM {α : Type} {l : List α} {f : System → α → Outcome System} {g : α → List Byte}
    (h : ∀ s a, Wrote s (g a) (f s a)) (s : System) : Wrote s (l.flatMap g) (l.foldlM f s) := by
  induction l generalizing s with
  | nil => exact .nil
  | cons a l ih =>
    rw [List.foldlM_cons, List.flatMap_cons]
    exact (h s a).bind ih

end Wrote

-- The loop has a turn for every reply that is still to come.
theorem lfWrite_wrote {fuel : Nat} {buffer : List Byte} (hfuel : s.writes.length + 2 ≤ fuel) :
    Wrote s buffer (lfWrite name fuel s buffer) := by
  induction fuel generalizing s buffer with
  | zero => omega
  | succ fuel ih =>
    unfold lfWrite
    split
    case isTrue h =>
      rw [h]
      exact .nil
    case isFalse h =>
      -- what is accepted, and what is left
      have hstep (n : Nat) (rest : List Reply) (hrest : rest.length + 2 ≤ fuel) :
          Wrote s buffer (lfWrite name fuel
            { s with file := s.file.write (buffer.take n), writes := rest } (buffer.drop n)) := by
        have hrest : Wrote { s with file := s.file.write (buffer.take n), writes := rest }
            (buffer.drop n) (lfWrite name fuel
              { s with file := s.file.write (buffer.take n), writes := rest } (buffer.drop n)) :=
          ih hrest
        generalize lfWrite name fuel _ _ = o at hrest ⊢
        cases hrest with
        | ok file writevs =>
          refine .ok ?_ writevs
          rw [file, File.write_append, List.take_append_drop]
        | thrown => exact .thrown
      cases hw : s.writes with
      | nil =>
        have hwrite : s.write buffer =
            (.ok buffer.length, { s with file := s.file.write buffer, writes := [] }) := by
          simp [System.write, hw, System.reply]
        rw [hwrite]
        dsimp only
        rw [List.drop_length]
        obtain ⟨k, rfl⟩ : ∃ k, fuel = k + 1 := ⟨fuel - 1, by omega⟩
        exact .ok rfl rfl
      | cons r rest =>
        rw [hw, List.length_cons] at hfuel
        cases r with
        | ok n =>
          have hwrite : s.write buffer = (.ok (min n buffer.length),
              { s with file := s.file.write (buffer.take (min n buffer.length)), writes := rest }) := by
            simp [System.write, hw, System.reply]
          rw [hwrite]
          exact hstep _ rest (by omega)
        | error e =>
          have hwrite : s.write buffer = (.error e, { s with writes := rest }) := by
            simp [System.write, hw, System.reply]
          rw [hwrite]
          cases e with
          | other msg => exact .thrown
          | interrupted =>
            have := hstep 0 rest (by omega)
            rwa [List.take_zero, File.write_nil, List.drop_zero] at this

theorem writeBuffer_wrote {buffer : List Byte} : Wrote s buffer (writeBuffer name s buffer) :=
  lfWrite_wrote le_rfl

-- From the current position on, however long the buffer is.
theorem write_wrote {buffer : List Byte} : Wrote s buffer (write name s buffer none) := by
  unfold write
  split
  case isTrue h =>
    rw [h.left]
    exact .nil
  case isFalse =>
    dsimp only
    rw [Outcome.ok_bind]
    split
    case isFalse => exact writeBuffer_wrote
    case isTrue =>
      have hparts := List.flatMap_range_take_drop defaultMaxFileBatchSize buffer
        (buffer.length / defaultMaxFileBatchSize)
      have hbatches := Wrote.foldlM
        (l := List.range (buffer.length / defaultMaxFileBatchSize))
        (g := fun b => (buffer.drop (defaultMaxFileBatchSize * b)).take defaultMaxFileBatchSize)
        (f := fun s b => writeBuffer name s
          ((buffer.drop (defaultMaxFileBatchSize * b)).take defaultMaxFileBatchSize))
        (fun _ _ => writeBuffer_wrote) s
      have hremainder (s : System) : Wrote s
          (buffer.drop (defaultMaxFileBatchSize * (buffer.length / defaultMaxFileBatchSize)))
          (writeBuffer name s (buffer.drop
            (defaultMaxFileBatchSize * (buffer.length / defaultMaxFileBatchSize)))) :=
        writeBuffer_wrote
      have := hbatches.bind hremainder
      rwa [hparts, List.take_append_drop] at this

theorem flatten_take_append_drop (iov : List (List Byte)) (c : Nat) :
    iov.flatten = (iov.take c).flatten ++ (iov.drop c).flatten := by
  rw [← List.flatten_append, List.take_append_drop]

-- The buffer that the writing ended in, or in front of.
structure EndsIn (iov : List (List Byte)) (written c pos : Nat) (buffer : List Byte) : Prop where
  found  : iov[c]? = some buffer
  inside : pos = 0 ∨ pos < buffer.length
  front  : (iov.take c).flatten.length + pos = written
  first  : ∀ k < c, (iov.take k).flatten.length < written

theorem writingEnded_endsIn {iov : List (List Byte)} {written c n : Nat} (hn : n ≤ written)
    (hlt : written < n + iov.flatten.length) : ∃ c' pos buffer,
      writingEnded written c n iov = .ok (c + c', pos) ∧ EndsIn iov (written - n) c' pos buffer := by
  induction iov generalizing c n with
  | nil =>
    rw [List.flatten_nil, List.length_nil] at hlt
    omega
  | cons b iov ih =>
    unfold writingEnded
    by_cases hlast : n < written
    case neg =>
      refine ⟨0, 0, b, if_neg hlast, rfl, .inl rfl, ?_, by simp⟩
      simp only [List.take_zero, List.flatten_nil, List.length_nil]
      omega
    case pos =>
      rw [if_pos hlast]
      by_cases hall : n + b.length ≤ written
      case neg =>
        refine ⟨0, written - n, b, if_neg hall, rfl, .inr (by omega), ?_, by simp⟩
        simp
      case pos =>
        rw [if_pos hall]
        rw [List.flatten_cons, List.length_append] at hlt
        have ⟨c', pos, buffer, hended, h⟩ := ih (c := c + 1) hall (by omega)
        have hfront := h.front
        refine ⟨c' + 1, pos, buffer, by rw [hended, Nat.add_right_comm, Nat.add_assoc],
          by rw [List.getElem?_cons_succ, h.found], h.inside, ?_, fun k hk => ?_⟩
        · rw [List.take_succ_cons, List.flatten_cons, List.length_append]
          omega
        · cases k with
          | zero =>
            simp only [List.take_zero, List.flatten_nil, List.length_nil]
            omega
          | succ k =>
            have := h.first k (by omega)
            rw [List.take_succ_cons, List.flatten_cons, List.length_append]
            omega

namespace EndsIn

variable {iov : List (List Byte)} {written c pos : Nat} {buffer : List Byte}

theorem le (h : EndsIn iov written c pos buffer) : pos ≤ buffer.length := by
  have := h.inside
  omega

theorem flatten_drop (h : EndsIn iov written c pos buffer) :
    (iov.drop c).flatten = buffer ++ (iov.drop (c + 1)).flatten := by
  have ⟨hc, hb⟩ := List.getElem?_eq_some_iff.mp h.found
  rw [List.drop_eq_getElem_cons hc, List.flatten_cons, hb]

-- What has been written so far.
theorem take_flatten (h : EndsIn iov written c pos buffer) :
    iov.flatten.take written = (iov.take c).flatten ++ buffer.take pos := by
  rw [flatten_take_append_drop iov c, ← h.front, List.take_length_add_append, h.flatten_drop,
    List.take_append_of_le_length h.le]

-- The buffer is empty where an empty buffer stands behind what has been written.
theorem eq_nil_iff (h : EndsIn iov written c pos buffer) :
    buffer = [] ↔ ∃ k, iov[k]? = some [] ∧ (iov.take k).flatten.length = written := by
  have hfront := h.front
  have hle := h.le
  constructor
  · rintro rfl
    rw [List.length_nil] at hle
    exact ⟨c, h.found, by omega⟩
  · rintro ⟨k, hk, hlen⟩
    rcases Nat.lt_trichotomy k c with hlt | rfl | hgt
    · exact absurd hlen (h.first k hlt).ne
    · exact Option.some.inj (h.found.symm.trans hk)
    · -- the buffers up to there hold no more than was written
      have htake : (iov.take k).flatten.length =
          (iov.take c).flatten.length + ((iov.drop c).take (k - c)).flatten.length := by
        rw [← List.length_append, ← List.flatten_append, ← List.take_add]
        congr 3
        omega
      have ⟨j, hj⟩ : ∃ j, k - c = j + 1 := ⟨k - c - 1, by omega⟩
      have ⟨hc, hb⟩ := List.getElem?_eq_some_iff.mp h.found
      rw [hj, List.drop_eq_getElem_cons hc, List.take_succ_cons, List.flatten_cons, hb,
        List.length_append] at htake
      rw [← List.length_eq_zero_iff]
      have := h.inside
      omega

end EndsIn

-- How much a reply accepts.
def accepted : Reply → Nat
  | .ok n    => n
  | .error _ => 0

-- A call of `writev` accepts everything, or it stops in front of an empty buffer.
def StopsAtEmpty (iov : List (List Byte)) (replies : List Reply) : Prop :=
  ∀ r ∈ replies.head?, iov.flatten.length ≤ accepted r ∨
    ∃ k, iov[k]? = some [] ∧ (iov.take k).flatten.length = accepted r

-- A call that has written the buffers, some of them again where the condition does not hold, or that
-- has thrown.
inductive WroteV (s : System) (iov : List (List Byte)) (replies : List Reply) (once : Prop) :
    Outcome System → Prop
  | once {s' : System} (h : once) (file : s'.file = s.file.write iov.flatten)
    (writevs : s'.writevs = replies) : WroteV s iov replies once (.ok s')
  | again {s' : System} {bs : List Byte} (h : ¬ once) (file : s'.file = s.file.write bs)
    (longer : iov.flatten.length < bs.length) (writevs : s'.writevs = replies) :
    WroteV s iov replies once (.ok s')
  | thrown {component source activity message : String} :
    WroteV s iov replies once (.error (.thrown component source activity message))

theorem Wrote.wroteV {iov : List (List Byte)} {o : Outcome System} (h : Wrote s iov.flatten o) :
    WroteV s iov s.writevs True o := by
  cases h with
  | ok file writevs => exact .once trivial file writevs
  | thrown => exact .thrown

theorem WroteV.of_iff {iov : List (List Byte)} {replies : List Reply} {once once' : Prop}
    {o : Outcome System} (h : WroteV s iov replies once o) (hiff : once ↔ once') :
    WroteV s iov replies once' o :=
  propext hiff ▸ h

theorem WroteV.append {iov iov' : List (List Byte)} {replies replies' : List Reply}
    {once once' : Prop} {o : Outcome System} {f : System → Outcome System}
    (h : WroteV s iov replies once o)
    (h' : ∀ s', s'.writevs = replies → WroteV s' iov' replies' once' (f s')) :
    WroteV s (iov ++ iov') replies' (once ∧ once') (o >>= f) := by
  have hfile {s₁ s₂ : System} {xs ys : List Byte} (h₁ : s₁.file = s.file.write xs)
      (h₂ : s₂.file = s₁.file.write ys) : s₂.file = s.file.write (xs ++ ys) := by
    rw [h₂, h₁, File.write_append]
  cases h with
  | thrown => exact .thrown
  | once hone file writevs =>
    have hrest := h' _ writevs
    rw [Outcome.ok_bind]
    generalize f _ = o at hrest
    cases hrest with
    | thrown => exact .thrown
    | once hone' file' writevs' =>
      refine .once ⟨hone, hone'⟩ ?_ writevs'
      rw [List.flatten_append]
      exact hfile file file'
    | again hnot file' longer writevs' =>
      refine .again (fun h => hnot h.right) (hfile file file') ?_ writevs'
      simp only [List.flatten_append, List.length_append]
      omega
  | again hnot file longer writevs =>
    have hrest := h' _ writevs
    rw [Outcome.ok_bind]
    generalize f _ = o at hrest
    cases hrest with
    | thrown => exact .thrown
    | once hone' file' writevs' =>
      refine .again (fun h => hnot h.left) (hfile file file') ?_ writevs'
      simp only [List.flatten_append, List.length_append]
      omega
    | again hnot' file' longer' writevs' =>
      refine .again (fun h => hnot h.left) (hfile file file') ?_ writevs'
      simp only [List.flatten_append, List.length_append]
      omega

theorem writeEach_wrote {iov : List (List Byte)} :
    Wrote s iov.flatten (iov.foldlM (fun s buffer => write name s buffer none) s) := by
  have := Wrote.foldlM (l := iov) (g := id) (f := fun s buffer => write name s buffer none)
    (fun _ _ => write_wrote) s
  rwa [List.flatMap_id] at this

-- The buffer that the writing ended in is written once more.
theorem lfWriteV_rest (name : String) {s₁ : System} {iov : List (List Byte)} (written : Nat)
    (hfile : s₁.file = s.file.write (iov.flatten.take written)) :
    WroteV s iov s₁.writevs (iov.flatten.length ≤ written ∨
      ∃ k, iov[k]? = some [] ∧ (iov.take k).flatten.length = written)
    (if written < (iov.map (·.length)).sum then do
      let (c, pos) ← writingEnded written 0 0 iov
      let buffer ← (iov[c]?).orUndefined
      let s ← write name s₁ (buffer.drop pos) none
      (iov.drop c).foldlM (fun s buffer => write name s buffer none) s
    else
      pure s₁) := by
  rw [← List.length_flatten]
  split
  case isFalse hle =>
    refine .once (.inl (not_lt.mp hle)) ?_ rfl
    rw [hfile, List.take_of_length_le (not_lt.mp hle)]
  case isTrue hlt =>
    have hlt : written < 0 + iov.flatten.length := by rwa [Nat.zero_add]
    have ⟨c, pos, buffer, hended, h⟩ := writingEnded_endsIn (c := 0) (Nat.zero_le written) hlt
    rw [hended, Outcome.ok_bind]
    dsimp only
    rw [Nat.zero_add, h.found, Option.orUndefined_some, Outcome.ok_bind]
    rw [Nat.sub_zero] at h
    -- what is written behind the call
    have hrest : Wrote s₁ (buffer.drop pos) (write name s₁ (buffer.drop pos) none) := write_wrote
    have heach (s : System) : Wrote s (iov.drop c).flatten
        ((iov.drop c).foldlM (fun s buffer => write name s buffer none) s) := writeEach_wrote
    have hwrote := hrest.bind heach
    generalize (write name s₁ (buffer.drop pos) none >>= _) = o at hwrote ⊢
    cases hwrote with
    | thrown => exact .thrown
    | @ok s₂ file writevs =>
      have hbytes : s₂.file = s.file.write ((iov.take c).flatten ++ buffer ++ (iov.drop c).flatten) := by
        rw [file, hfile, h.take_flatten, File.write_append, List.append_assoc,
          ← List.append_assoc (buffer.take pos), List.take_append_drop, List.append_assoc]
      by_cases hnil : buffer = []
      case pos =>
        refine .once (.inr (h.eq_nil_iff.mp hnil)) ?_ writevs
        rw [hbytes, hnil, List.append_nil, ← flatten_take_append_drop]
      case neg =>
        refine .again ?_ hbytes ?_ writevs
        · rintro (hle | hempty)
          · omega
          · exact hnil (h.eq_nil_iff.mpr hempty)
        · have := List.length_pos_iff.mpr hnil
          rw [flatten_take_append_drop iov c]
          simp only [List.length_append]
          omega

theorem lfWriteV_wroteV {iov : List (List Byte)} :
    WroteV s iov s.writevs.tail (StopsAtEmpty iov s.writevs) (lfWriteV name s iov) := by
  unfold lfWriteV StopsAtEmpty
  dsimp only
  cases hw : s.writevs with
  | nil =>
    have hwritev : s.writev iov = (.ok iov.flatten.length,
        { s with file := s.file.write iov.flatten, writevs := [] }) := by
      rw [System.writev, hw, System.reply]
      dsimp only
      rw [List.take_length]
    rw [hwritev]
    have hfile : ({ s with file := s.file.write iov.flatten, writevs := [] } : System).file =
        s.file.write (iov.flatten.take iov.flatten.length) := by rw [List.take_length]
    have := lfWriteV_rest name iov.flatten.length hfile
    simpa using this
  | cons r rest =>
    cases r with
    | ok n =>
      have hwritev : s.writev iov = (.ok (min n iov.flatten.length), { s with
          file    := s.file.write (iov.flatten.take (min n iov.flatten.length))
          writevs := rest }) := by
        simp [System.writev, hw, System.reply]
      rw [hwritev]
      have hfile : ({ s with
          file    := s.file.write (iov.flatten.take (min n iov.flatten.length))
          writevs := rest } : System).file =
            s.file.write (iov.flatten.take (min n iov.flatten.length)) := rfl
      have := lfWriteV_rest name (min n iov.flatten.length) hfile
      simp only [List.head?_cons, Option.mem_def, Option.some.injEq, forall_eq', accepted,
        List.tail_cons]
      rcases Nat.lt_or_ge n iov.flatten.length with hlt | hge
      · rwa [Nat.min_eq_left hlt.le] at this ⊢
      · rw [Nat.min_eq_right hge] at this ⊢
        exact this.of_iff ⟨fun _ => .inl hge, fun _ => .inl le_rfl⟩
    | error e =>
      have hwritev : s.writev iov = (.error e, { s with writevs := rest }) := by
        simp [System.writev, hw, System.reply]
      rw [hwritev]
      cases e with
      | other msg => exact .thrown
      | interrupted =>
        have hfile : ({ s with writevs := rest } : System).file =
            s.file.write (iov.flatten.take 0) := by rw [List.take_zero, File.write_nil]
        have := lfWriteV_rest name 0 hfile
        simpa [accepted] using this

-- The replies that are left behind a batch.
def repliesBehind (iov : List (List Byte)) (replies : List Reply) : List Reply :=
  if writevMaxBytes < iov.flatten.length then replies else replies.tail

-- No call of `writev` for the batches is cut short in front of, or in, a buffer that is not empty.
def NeverCut : List (List (List Byte)) → List Reply → Prop
  | [], _                => True
  | iov :: rest, replies =>
    (iov.flatten.length ≤ writevMaxBytes → StopsAtEmpty iov replies) ∧
    NeverCut rest (repliesBehind iov replies)

theorem writeVBatch_wroteV {iov : List (List Byte)} :
    WroteV s iov (repliesBehind iov s.writevs)
      (iov.flatten.length ≤ writevMaxBytes → StopsAtEmpty iov s.writevs)
      (writeVBatch name s iov) := by
  unfold writeVBatch repliesBehind
  rw [← List.length_flatten]
  split
  case isTrue hlt => exact writeEach_wrote.wroteV.of_iff ⟨fun _ hle => absurd hlt hle.not_gt, fun _ => trivial⟩
  case isFalse hle => exact lfWriteV_wroteV.of_iff ⟨fun h _ => h, fun h => h (not_lt.mp hle)⟩

theorem writeVBatches_wroteV {iovs : List (List (List Byte))} :
    WroteV s iovs.flatten (iovs.foldl (fun replies iov => repliesBehind iov replies) s.writevs)
      (NeverCut iovs s.writevs) (iovs.foldlM (writeVBatch name) s) := by
  induction iovs generalizing s with
  | nil => exact .once trivial (File.write_nil _).symm rfl
  | cons iov iovs ih =>
    rw [List.foldlM_cons, List.flatten_cons, List.foldl_cons]
    refine writeVBatch_wroteV.append fun s' hs' => ?_
    rw [← hs']
    exact ih

theorem batches_flatten (iov : List (List Byte)) : (batches iov).flatten = iov := by
  rw [batches, ← List.flatMap_def, List.flatMap_range_take_drop]
  exact List.take_of_length_le (by omega)

-- The file at the start position, or at its current one.
def startingAt (f : File) (start : Option Nat) : File :=
  { f with position := start.getD f.position }

-- Either an exception is thrown, or the file holds the buffers one behind the other from the start
-- position on, each byte once, and its position is behind them.
def WritesOnce (name : String) (s : System) (iov : List (List Byte)) (start : Option Nat) : Prop :=
  match writeV name s iov start with
  | .ok s'               => s'.file = (startingAt s.file start).write iov.flatten
  | .error (.thrown ..)  => True
  | .error _             => False

theorem writeV_writesOnce_iff (name : String) (s : System) (iov : List (List Byte))
    (start : Option Nat) :
    WritesOnce name s iov start ↔
      ∀ s', writeV name s iov start = .ok s' → NeverCut (batches iov) s.writevs := by
  unfold WritesOnce
  -- the call from where the position is set
  suffices hset : ∀ s₁ : System, s₁.file = startingAt s.file start → s₁.writevs = s.writevs →
      writeV name s iov start = (batches iov).foldlM (writeVBatch name) s₁ →
      ((match writeV name s iov start with
        | .ok s'              => s'.file = (startingAt s.file start).write iov.flatten
        | .error (.thrown ..) => True
        | .error _            => False) ↔
      ∀ s', writeV name s iov start = .ok s' → NeverCut (batches iov) s.writevs) by
    cases start with
    | none => exact hset s rfl rfl rfl
    | some start =>
      cases hseek : s.lseek start with
      | error message =>
        simp only [writeV, seek, hseek, Outcome.error_bind, true_iff]
        simp
      | ok s₁ =>
        refine hset s₁ ?_ ?_ (by simp only [writeV, seek, hseek, Outcome.ok_bind])
        all_goals
          unfold System.lseek at hseek
          split at hseek
          · cases hseek
          · split at hseek <;> cases hseek
            rfl
  intro s₁ hfile hreplies heq
  rw [heq]
  have hwrote : WroteV s₁ (batches iov).flatten
      ((batches iov).foldl (fun replies iov => repliesBehind iov replies) s₁.writevs)
      (NeverCut (batches iov) s₁.writevs) ((batches iov).foldlM (writeVBatch name) s₁) :=
    writeVBatches_wroteV
  rw [batches_flatten, hreplies] at hwrote
  generalize (batches iov).foldlM (writeVBatch name) s₁ = o at hwrote ⊢
  cases hwrote with
  | thrown => simp
  | once h file writevs => simp [file, hfile, h]
  | again h file longer writevs =>
    refine iff_of_false (fun heq => ?_) fun h' => h (h' _ rfl)
    -- the position is too far
    have := congrArg File.position heq
    rw [file, hfile, File.write_position, File.write_position] at this
    omega

-- The operating system accepts one byte at first.
def acceptingOne : System where
  file      := { content := [], position := 0 }
  writes    := []
  writevs   := [.ok 1]
  seekError := none

-- The second buffer is written twice then.
theorem writeV_twice :
    (writeV "data.0" acceptingOne [[1], [2]] none).map (·.file) =
      .ok { content := [1, 2, 2], position := 3 } ∧
    ¬ WritesOnce "data.0" acceptingOne [[1], [2]] none := by
  have hfile : (writeV "data.0" acceptingOne [[1], [2]] none).map (·.file) =
      .ok { content := [1, 2, 2], position := 3 } := by decide +kernel
  refine ⟨hfile, fun h => ?_⟩
  unfold WritesOnce at h
  generalize writeV "data.0" acceptingOne [[1], [2]] none = o at hfile h
  cases o with
  | error e => cases hfile
  | ok s' =>
    have hfile : s'.file = { content := [1, 2, 2], position := 3 } := Except.ok.inj hfile
    have h : s'.file = (startingAt acceptingOne.file none).write [1, 2] := h
    rw [hfile] at h
    exact absurd h (by decide)

end FilePOSIX
