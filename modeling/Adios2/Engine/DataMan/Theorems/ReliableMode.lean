import Adios2.Engine.DataMan.Theorems.Deliveries

-- The reliable mode delivers every step to one reader, and the writer closes then.

namespace DataMan

open Bytes CString Threads

variable {ε : Type} {n : Nat}

section Statement

variable (json : JsonLibrary ε) (p : Parameters n) (steps : List (List (Block ε)))

-- The steps as a reader sees them
def presentation : List (Int × List ε) := (contents p steps).map fun (k, vars) => ((k : Int), vars)

-- The numbers of readers, steps and combined steps with which a stream is delivered.
structure Regular : Prop where
  oneReader : n = 1
  steps_ne  : steps ≠ []
  blocks    : ∀ blocks ∈ steps, blocks ≠ []
  combining : 0 < p.combiningSteps
  full      : p.combiningSteps ∣ steps.length

-- Every step is presented at most once and in order, all of them in front of the end of the stream.
-- The writer does not stop to reply before each reader has all messages, of which the last can be on
-- its way, and what a reader takes for the number of the final step is that.
structure Delivered (c : Configuration (Thread n) (State ε n) (Task ε n)) : Prop where
  presented   : ∀ i, (c.state.readers i).presented <+: presentation p steps
  endOfStream : ∀ i, (c.state.readers i).endOfStream = true →
    (c.state.readers i).presented = presentation p steps
  stops       : c.state.writer.replyThreadActive = false → ∀ i,
    (c.state.readers i).received ++ (c.state.readers i).reply.toList = messages json p steps
  finalStep   : ∀ i, (c.state.readers i).finalStep = 2 ^ 63 - 1 ∨
    (c.state.readers i).finalStep = steps.length - 1 ∧
      (c.state.readers i).received = messages json p steps

structure Finished (c : Configuration (Thread n) (State ε n) (Task ε n)) : Prop where
  presented   : ∀ i, (c.state.readers i).presented = presentation p steps
  endOfStream : ∀ i, (c.state.readers i).endOfStream = true
  closed      : c.state.writer.isClosed = true

-- All runs deliver, no run goes on for ever, and where none of the threads can go on all is done. Only
-- one of the messages is taken for the number of the final step.
structure Reliable (C : Configuration (Thread n) (State ε n) (Task ε n) →
    Event (Thread n) (Task ε n) Bool → Prop) : Prop where
  delivered : ∀ c, Reaches (program json p) C (opened steps) c → Delivered json p steps c
  finished  : ∀ c, Reaches (program json p) C (opened steps) c →
    (∀ ev c', C c ev → ¬ Step (program json p) c ev c') → Finished p steps c
  ends      : ∀ run : Nat → Configuration (Thread n) (State ε n) (Task ε n), run 0 = opened steps →
    ¬ ∀ k, ∃ ev, C (run k) ev ∧ Step (program json p) (run k) ev (run (k + 1))
  packs     : ∀ b ∈ messages json p steps, ∀ k, finalStepIn json b = .ok (some k) →
    b = endSignal (steps.length - 1)

end Statement

section Work

variable {json : JsonLibrary ε} {p : Parameters 1} {cfg cfg' : Configuration (Thread 1) (State ε 1) (Task ε 1)}

-- What is left to do makes less with every task. A task that puts something into the queue weighs more
-- than what it puts there.
def Task.work (active : Bool) : Task ε 1 → Nat
  | .beginStep | .putData _ | .stopReplying | .joinReplyThread => 1
  | .endStep | .closePack | .closeFinalStep => 20
  | .waitReplies        => 2
  | .checkReplying      => if active then 3 else 1
  | .receiveRequest     => 2
  | .popBufferQueue _   => 1
  | .sendReply _ _      => 6
  | .countReply         => 4
  | .sendRequest _      => 3
  | .receiveReply _     => 2
  | .putPack _ _        => 9
  | .putPackThread _ _  => 1
  | .readerBeginStep _  => 2
  | .getEarliestStep _  => 1
  | .readerEndStep _    => 3

def workOf (active : Bool) (ts : List (Task ε 1)) : Nat := (ts.map (Task.work active)).sum

def State.work (messages steps : Nat) (s : State ε 1) : Nat :=
  10 * s.writer.bufferQueue.length + 10 * (messages - (s.readers 0).received.length) +
    10 * (steps - (s.readers 0).presented.length) + 3 * (s.readers 0).putPackThread.toList.length

def work (messages steps : Nat) (c : Configuration (Thread 1) (State ε 1) (Task ε 1)) : Nat :=
  let active := c.state.writer.replyThreadActive
  workOf active (c.threads .writer) + workOf active (c.threads .reply) +
    workOf active (c.threads (.reader 0)) + workOf active (c.threads (.request 0)) +
    workOf active (c.threads (.putPack 0)) + (if c.threads (.putPack 0) = [] then 2 else 0) +
    c.state.work messages steps

@[simp]
theorem workOf_cons (active : Bool) (t : Task ε 1) (ts : List (Task ε 1)) :
    workOf active (t :: ts) = t.work active + workOf active ts := by
  simp [workOf]

@[simp]
theorem workOf_nil (active : Bool) : workOf active ([] : List (Task ε 1)) = 0 := rfl

@[simp]
theorem workOf_append (active : Bool) (ts ts' : List (Task ε 1)) :
    workOf active (ts ++ ts') = workOf active ts + workOf active ts' := by
  simp [workOf]

theorem workOf_mono {active active' : Bool} (h : active' = true → active = true)
    (ts : List (Task ε 1)) : workOf active' ts ≤ workOf active ts := by
  induction ts with
  | nil => exact le_rfl
  | cons t ts ih =>
    have ht : t.work active' ≤ t.work active := by
      cases t <;> simp only [Task.work, le_refl]
      cases active <;> cases active' <;> simp_all
    simp only [workOf_cons]
    omega

variable {t : Task ε 1} {ts : List (Task ε 1)} {s s' : State ε 1} {timedOut : Bool} {m k : Nat}

-- The reply thread is stopped once at most.
theorem exec_active (h : t.exec json p timedOut s = .ok (s', ts))
    (hactive : s'.writer.replyThreadActive = true) : s.writer.replyThreadActive = true := by
  cases t with
  | beginStep | putData | closeFinalStep | joinReplyThread | countReply | sendReply | sendRequest
  | waitReplies | readerEndStep =>
    cases h
    exact hactive
  | stopReplying =>
    cases h
    exact nomatch hactive
  | endStep =>
    cases h
    simp only [WriterState.endStep] at hactive
    split at hactive <;> exact hactive
  | closePack =>
    cases h
    simp only [WriterState.closePack] at hactive
    split at hactive <;> exact hactive
  | checkReplying | readerBeginStep =>
    simp only [Task.exec] at h
    split at h <;> cases h <;> exact hactive
  | receiveRequest =>
    simp only [Task.exec] at h
    split at h
    · split at h <;> cases h <;> exact hactive
    · cases h
      exact hactive
  | popBufferQueue =>
    simp only [Task.exec] at h
    split at h <;> cases h <;> exact hactive
  | receiveReply =>
    simp only [Task.exec] at h
    split at h
    · cases h
      exact hactive
    · split at h
      · cases h
        exact hactive
      · obtain ⟨found, -, h⟩ := Outcome.bind_eq_ok.mp h
        split at h <;> cases h <;> exact hactive
  | putPack =>
    simp only [Task.exec] at h
    split at h
    · cases h
      exact hactive
    · obtain ⟨r, -, h⟩ := Outcome.bind_eq_ok.mp h
      cases h
      exact hactive
  | putPackThread =>
    obtain ⟨r, -, h⟩ := Outcome.bind_eq_ok.mp h
    cases h
    exact hactive
  | getEarliestStep =>
    simp only [Task.exec] at h
    split at h
    · cases h
      exact hactive
    · split at h <;> cases h <;> exact hactive

theorem putPackThread'_eq {r r' : ReaderState ε} {e : Endian} {b : List Byte}
    (h : r.putPackThread' json e b = .ok r') : ∃ serializer, r' = { r with serializer } := by
  obtain ⟨serializer, -, h⟩ := Outcome.bind_eq_ok.mp h
  cases h
  exact ⟨serializer, rfl⟩

-- Apart from the thread of `PutPack`, which begins with a pack that is still to be unpacked.
theorem exec_work (hready : t.Ready s) (hexec : t.exec json p timedOut s = .ok (s', ts))
    (hreceive : (s.readers 0).reply ≠ none → (s.readers 0).received.length < m)
    (hpresent : (s.readers 0).presented.length < k ∨ t ≠ .getEarliestStep 0)
    (hput : ∀ b, t ≠ .putPackThread 0 b) :
    workOf s'.writer.replyThreadActive ts + s'.work m k <
      t.work s.writer.replyThreadActive + s.work m k := by
  cases t with
  | beginStep | putData | closeFinalStep | stopReplying | joinReplyThread =>
    cases hexec
    simp [State.work, Task.work, WriterState.beginStep, WriterState.putData,
      WriterState.closeFinalStep, WriterState.pushBufferQueue]
    try omega
  | countReply =>
    cases hexec
    simp only [State.work, Task.work, WriterState.countReply, workOf_cons, workOf_nil]
    split <;> omega
  | endStep =>
    cases hexec
    simp only [WriterState.endStep]
    split
    · simp [State.work, Task.work, WriterState.pushBufferQueue]
      omega
    · simp [State.work, Task.work]
  | closePack =>
    cases hexec
    simp only [WriterState.closePack]
    split
    · simp [State.work, Task.work, WriterState.pushBufferQueue]
      omega
    · simp [State.work, Task.work]
  | waitReplies =>
    cases hexec
    simp only [Task.work]
    split <;> simp [Task.work]
  | checkReplying =>
    simp only [Task.exec] at hexec
    split at hexec
    case isTrue hactive =>
      cases hexec
      simp [Task.work, hactive]
    case isFalse hactive =>
      cases hexec
      simp [Task.work, State.work, hactive]
  | receiveRequest =>
    simp only [Task.exec] at hexec
    have hcheck (hactive : s.writer.replyThreadActive = false) :
        workOf s.writer.replyThreadActive [(.checkReplying : Task ε 1)] + s.work m k <
          (Task.receiveRequest : Task ε 1).work s.writer.replyThreadActive + s.work m k := by
      simp [Task.work, hactive]
    split at hexec
    · split at hexec
      case isTrue h =>
        cases hexec
        exact hcheck h.2
      case isFalse =>
        cases hexec
        simp [Task.work, State.work]
    · rename_i hnil
      cases hexec
      exact hcheck (hready.resolve_left fun h => h hnil)
  | popBufferQueue i =>
    simp only [Task.exec] at hexec
    split at hexec
    · rename_i buffer queue hqueue
      cases hexec
      simp only [State.work, hqueue, Task.work, List.length_cons]
      split
      · simp [Task.work]
        omega
      · simp only [workOf_cons, workOf_nil, Task.work]
        split <;> omega
    · rename_i hnil
      exact absurd hnil hready
  | sendReply i b =>
    obtain rfl := Subsingleton.elim i 0
    cases hexec
    simp [State.work, State.modifyReader, Task.work]
  | sendRequest i =>
    cases hexec
    simp [State.work, Task.work]
  | receiveReply i =>
    obtain rfl := Subsingleton.elim i 0
    have hlt := hreceive hready
    simp only [Task.exec] at hexec
    split at hexec
    · rename_i hnone
      exact absurd hnone hready
    · split at hexec
      · cases hexec
        simp [State.work, State.modifyReader, Task.work]
        omega
      · obtain ⟨found, -, hexec⟩ := Outcome.bind_eq_ok.mp hexec
        split at hexec <;> cases hexec <;>
          simp [State.work, State.modifyReader, Task.work] <;> omega
  | putPack i b =>
    obtain rfl := Subsingleton.elim i 0
    have hnone : (s.readers 0).putPackThread = none := hready
    simp only [Task.exec] at hexec
    split at hexec
    · cases hexec
      simp [State.work, State.modifyReader, Task.work, hnone]
      omega
    · obtain ⟨r, hr, hexec⟩ := Outcome.bind_eq_ok.mp hexec
      obtain ⟨serializer, rfl⟩ := putPackThread'_eq hr
      cases hexec
      simp [State.work, State.modifyReader, Task.work]
  | putPackThread i b =>
    obtain rfl := Subsingleton.elim i 0
    exact absurd rfl (hput b)
  | readerBeginStep i =>
    obtain rfl := Subsingleton.elim i 0
    simp only [Task.exec] at hexec
    split at hexec <;> cases hexec <;> simp [State.work, State.modifyReader, Task.work]
  | getEarliestStep i =>
    obtain rfl := Subsingleton.elim i 0
    have hlt := hpresent.resolve_right fun h => h rfl
    simp only [Task.exec] at hexec
    split at hexec
    · rename_i hnone
      exact absurd hnone hready
    · split at hexec
      · cases hexec
        simp [State.work, State.modifyReader, Task.work]
        omega
      · cases hexec
        simp [State.work, State.modifyReader, Task.work]
  | readerEndStep i =>
    obtain rfl := Subsingleton.elim i 0
    cases hexec
    simp [State.work, State.modifyReader, Task.work, ReaderState.endStep]

variable {steps : List (List (Block ε))} {c : Nat} {packs : List (List Byte)}

-- The tasks that only the thread of `PutPack` and the application of a reader have.
def Task.IsReaders (t : Task ε 1) : Prop :=
  t = .getEarliestStep 0 ∨ ∃ b, t = .putPackThread 0 b

theorem Writing.not_readers {w : WriterState ε} {rest : List (Task ε 1)}
    (h : Writing steps w (t :: rest)) : ¬ t.IsReaders := by
  generalize htasks : t :: rest = tasks at h
  cases h with
  | @puts ts' hlocal _ _ =>
    cases ts' with
    | nil =>
      cases htasks
      simp [Task.IsReaders]
    | cons t' ts' =>
      cases htasks
      obtain rfl | ⟨b, rfl⟩ | rfl | rfl | rfl := hlocal t List.mem_cons_self <;>
        simp [Task.IsReaders]
  | replied | stopped =>
    cases htasks
    simp [Task.IsReaders]
  | closed => cases htasks

theorem Inv.not_readers (h : Inv json p steps c packs (view cfg)) {i : Thread 1}
    {rest : List (Task ε 1)} (hthread : cfg.threads i = t :: rest)
    (hi : i = .writer ∨ i = .reply ∨ i = .request 0) : ¬ t.IsReaders := by
  have hturn := h.replying.turn
  obtain rfl | rfl | rfl := hi
  · have hwriting := h.sending.writing
    rw [show (view cfg).atWriter = t :: rest from hthread] at hwriting
    exact hwriting.not_readers
  · rw [show (view cfg).atReply = t :: rest from hthread] at hturn
    obtain ⟨-, hlisten | ⟨rfl, -⟩ | ⟨b, rfl, -⟩⟩ := hturn.reply_cases
    · simp only [Listening, List.cons.injEq, and_true, List.cons_ne_nil, or_false] at hlisten
      obtain rfl | rfl | rfl := hlisten <;> simp [Task.IsReaders]
    · simp [Task.IsReaders]
    · simp [Task.IsReaders]
  · rw [show (view cfg).atRequest = t :: rest from hthread] at hturn
    obtain ⟨-, ⟨rfl, -⟩ | ⟨b, rfl, -⟩ | ⟨rfl, -⟩⟩ := hturn.request_cases <;> simp [Task.IsReaders]

theorem work_step (hs : Setting json p steps c packs) (h : Inv json p steps c packs (view cfg))
    {ev : Event (Thread 1) (Task ε 1) Bool} (hstep : Step (program json p) cfg ev cfg') :
    work (packs.length + 1) steps.length cfg' < work (packs.length + 1) steps.length cfg := by
  have ⟨unpacked, hle, hu, hp⟩ := h.unpacking
  have hreceive (hreply : (cfg.state.readers 0).reply ≠ none) :
      (cfg.state.readers 0).received.length < packs.length + 1 := by
    have htaken := h.taken_le hs
    obtain ⟨b, hb⟩ := Option.ne_none_iff_exists'.mp hreply
    simp only [View.taken, view_reader, hb, Option.toList, List.length_append,
      List.length_singleton] at htaken
    omega
  cases hstep with
  | @run i timedOut t rest ts s hthread hready hexec =>
    have hmono (ts : List (Task ε 1)) := workOf_mono (exec_active hexec) ts
    have hwriter := hmono (cfg.threads .writer)
    have hreply := hmono (cfg.threads .reply)
    have hreader := hmono (cfg.threads (.reader 0))
    have hrequest := hmono (cfg.threads (.request 0))
    have hputPack := hmono (cfg.threads (.putPack 0))
    have hrest := hmono rest
    have hexecWork (hi : i = .writer ∨ i = .reply ∨ i = .request 0) :=
      have hnot := h.not_readers hthread hi
      exec_work (k := steps.length) hready hexec hreceive (.inr fun h => hnot (.inl h))
        fun b h => hnot (.inr ⟨b, h⟩)
    cases i with
    | writer =>
      have := hexecWork (.inl rfl)
      simp only [work, hthread, Function.update_self, workOf_append, workOf_cons,
        ne_eq, reduceCtorEq, not_false_eq_true, Function.update_of_ne]
      omega
    | reply =>
      have := hexecWork (.inr (.inl rfl))
      simp only [work, hthread, Function.update_self, workOf_append, workOf_cons,
        ne_eq, reduceCtorEq, not_false_eq_true, Function.update_of_ne]
      omega
    | request i =>
      obtain rfl := Subsingleton.elim i 0
      have := hexecWork (.inr (.inr rfl))
      simp only [work, hthread, Function.update_self, workOf_append, workOf_cons,
        ne_eq, reduceCtorEq, not_false_eq_true, Function.update_of_ne]
      omega
    | reader i =>
      obtain rfl := Subsingleton.elim i 0
      have hreading := hp.reading
      rw [show (view cfg).atReader = t :: rest from hthread] at hreading
      have := exec_work (m := packs.length + 1) (k := steps.length) hready hexec hreceive (by
        obtain heq | ⟨-, hlt⟩ | ⟨heq, -⟩ | ⟨heq, -⟩ := hreading
        · exact .inr fun h => by simp [h] at heq
        · exact .inl hlt
        · exact .inr fun h => by simp [h] at heq
        · cases heq) (by
        intro b h
        simp [h] at hreading)
      simp only [work, hthread, Function.update_self, workOf_append, workOf_cons,
        ne_eq, reduceCtorEq, not_false_eq_true, Function.update_of_ne]
      omega
    | putPack i =>
      obtain rfl := Subsingleton.elim i 0
      have hput := hu.thread
      rw [show (view cfg).atPutPack = t :: rest from hthread] at hput
      obtain hnil | ⟨b, htask, hb⟩ := hput
      · contradiction
      obtain ⟨rfl, rfl⟩ := List.cons.inj htask
      obtain ⟨r, hr, hexec⟩ := Outcome.bind_eq_ok.mp hexec
      obtain ⟨serializer, rfl⟩ := putPackThread'_eq hr
      cases hexec
      simp only [view_reader] at hb
      simp only [work, hthread, Function.update_self, List.append_nil, workOf_cons, workOf_nil,
        ne_eq, reduceCtorEq, not_false_eq_true, Function.update_of_ne, State.work,
        State.modifyReader, Option.toList, hb, Task.work, List.length_singleton, List.length_nil,
        if_true, List.cons_ne_nil, if_false]
      omega
  | @start i ts hidle hbegins =>
    cases i with
    | writer | reply | reader | request => exact hbegins.elim
    | putPack i =>
      obtain rfl := Subsingleton.elim i 0
      obtain ⟨b, hb, rfl⟩ := hbegins
      simp only [work, hidle, Function.update_self, workOf_cons, workOf_nil, Task.work,
        ne_eq, reduceCtorEq, not_false_eq_true, Function.update_of_ne, if_true, List.cons_ne_nil,
        if_false]
      omega

end Work

section Delivered

variable {json : JsonLibrary ε} {p : Parameters 1} {steps : List (List (Block ε))} {c : Nat}
variable {packs : List (List Byte)} {cfg : Configuration (Thread 1) (State ε 1) (Task ε 1)}
variable {v : View ε}

theorem Setting.finalStepIn_last (hs : Setting json p steps c packs) :
    finalStepIn json (endSignal (steps.length - 1)) = .ok (some ((steps.length : Int) - 1)) := by
  have hsteps := List.length_pos_iff.mpr hs.steps_ne
  have hlt := hs.steps_lt
  have hlast : ((steps.length - 1 : Nat) : Int) = steps.length - 1 := by omega
  exact hlast ▸ finalStepIn_endSignal hs.lossless (by omega)

theorem Setting.messages_length (hs : Setting json p steps c packs) :
    (messages json p steps).length = packs.length + 1 := by
  rw [hs.sent, List.length_append, List.length_singleton]

-- Where as much has been taken as there are messages, nothing is left.
theorem Inv.taken_all (hs : Setting json p steps c packs) (h : Inv json p steps c packs v)
    (hall : packs.length + 1 ≤ (v.reader.received ++ v.reader.reply.toList).length) :
    v.reader.received ++ v.reader.reply.toList = messages json p steps ∧ popped v.atReply = [] ∧
      v.writer.bufferQueue = [] ∧ sends json p v.atWriter v.writer.currentStep
        v.writer.combinedSteps v.writer.serializer = [] := by
  have horder := h.sending.order
  have hlength := congrArg List.length horder
  rw [hs.messages_length] at hlength
  simp only [View.taken, List.length_append] at hlength hall
  have hpopped : popped v.atReply = [] := List.length_eq_zero_iff.mp (by omega)
  have hqueue : v.writer.bufferQueue = [] := List.length_eq_zero_iff.mp (by omega)
  have hsends : sends json p v.atWriter v.writer.currentStep v.writer.combinedSteps
      v.writer.serializer = [] := List.length_eq_zero_iff.mp (by omega)
  rw [View.taken, hpopped, hqueue, hsends] at horder
  exact ⟨by simpa using horder, hpopped, hqueue, hsends⟩

theorem Inv.received_all (hs : Setting json p steps c packs) (h : Inv json p steps c packs v)
    (hrequest : v.atRequest = []) :
    v.reader.received.length = packs.length + 1 ∧ v.reader.received = messages json p steps := by
  have ⟨unpacked, hle, hu, hp⟩ := h.unpacking
  have hlength := hu.final.mp hrequest
  obtain ⟨hall, -⟩ := h.taken_all hs (by simp only [List.length_append]; omega)
  have hreply := congrArg List.length hall
  rw [List.length_append, hs.messages_length, hlength] at hreply
  have hnil : v.reader.reply.toList = [] := List.length_eq_zero_iff.mp (by omega)
  rw [hnil, List.append_nil] at hall
  exact ⟨hlength, hall⟩

theorem Inv.stopped (hs : Setting json p steps c packs) (h : Inv json p steps c packs v)
    (hactive : v.writer.replyThreadActive = false) :
    v.reader.received ++ v.reader.reply.toList = messages json p steps := by
  have hsent : steps.length + 1 ≤ v.writer.sentSteps := by
    generalize hts : v.atWriter = ts
    have hwriting := h.sending.writing
    rw [hts] at hwriting
    cases hwriting with
    | puts _ ha _ | replied _ ha _ => simp [hactive] at ha
    | stopped hsent _ _ | closed hsent _ _ => exact hsent
  have hcounted := h.replying.counted
  have hlt : packs.length < v.reader.received.length + v.reader.reply.toList.length := by
    by_contra hge
    have := Nat.mul_le_mul_left c (not_lt.mp hge)
    have := hs.count
    omega
  exact (h.taken_all hs (by simpa using hlt)).1

theorem Presenting.presented_all {unpacked : Nat} (h : Presenting p steps c v unpacked)
    (hall : v.reader.presented.length = steps.length) :
    v.reader.presented = presentation p steps := by
  rw [h.presented, List.take_of_length_le (by rw [hall, contents, contentsFrom_length]), presentation]

theorem Inv.delivered (hs : Setting json p steps c packs) (h : Inv json p steps c packs (view cfg)) :
    Delivered json p steps cfg := by
  have ⟨unpacked, hle, hu, hp⟩ := h.unpacking
  have hpresented := hp.presented
  simp only [view_reader] at hpresented
  constructor
  case presented =>
    intro i
    obtain rfl := Subsingleton.elim i 0
    rw [hpresented, presentation, List.map_take]
    exact List.take_prefix _ _
  case endOfStream =>
    intro i hend
    obtain rfl := Subsingleton.elim i 0
    have hreading := hp.reading
    rw [hp.ended.mp hend] at hreading
    exact hp.presented_all (by simpa using hreading)
  case stops =>
    intro hactive i
    obtain rfl := Subsingleton.elim i 0
    exact h.stopped hs hactive
  case finalStep =>
    intro i
    obtain rfl := Subsingleton.elim i 0
    have hfinal := hu.finalStep
    split at hfinal
    case isTrue hrequest => exact .inr ⟨hfinal, (h.received_all hs hrequest).2⟩
    case isFalse => exact .inl hfinal

end Delivered

section Finished

variable {json : JsonLibrary ε} {p : Parameters 1} {steps : List (List (Block ε))} {c : Nat}
variable {packs : List (List Byte)} {cfg : Configuration (Thread 1) (State ε 1) (Task ε 1)}

-- None of the threads can go on.
def Stuck (json : JsonLibrary ε) (p : Parameters 1) (steps : List (List (Block ε)))
    (cfg : Configuration (Thread 1) (State ε 1) (Task ε 1)) : Prop :=
  ∀ ev cfg', Awaits steps cfg ev → ¬ Step (program json p) cfg ev cfg'

theorem Stuck.not_run (h : Stuck json p steps cfg) {i : Thread 1} {t : Task ε 1}
    {rest : List (Task ε 1)} (hthread : cfg.threads i = t :: rest)
    (hawaits : Awaits steps cfg (.run i false)) (hready : t.Ready cfg.state)
    (hexec : ∃ r, t.exec json p false cfg.state = .ok r) : False :=
  have ⟨_, hexec⟩ := hexec
  h _ _ hawaits (.run hthread hready hexec)

theorem Stuck.putPack (hs : Setting json p steps c packs) (hstuck : Stuck json p steps cfg)
    (h : Inv json p steps c packs (view cfg)) : (cfg.state.readers 0).putPackThread = none := by
  have ⟨unpacked, hle, hu, hp⟩ := h.unpacking
  by_contra hne
  obtain ⟨b, hb⟩ := Option.ne_none_iff_exists'.mp hne
  obtain hnil | ⟨b', htask, hb'⟩ := hu.thread
  · exact hstuck (.start (.putPack 0) [.putPackThread 0 b]) _ trivial (.start hnil ⟨b, hb, rfl⟩)
  · obtain ⟨hlt, hnext, -⟩ := hu.next (b := b') (l := held (view cfg).atRequest) (by rw [hb']; rfl)
    obtain ⟨serializer, hunpack, -⟩ := hp.unpack hs hlt
    rw [← hnext] at hunpack
    simp only [view_reader] at hunpack
    exact hstuck.not_run htask trivial trivial
      ⟨_, by simp only [Task.exec, ReaderState.putPackThread', hunpack]; rfl⟩

-- A writer that cannot go on waits for replies or for the end of the reply thread, or has closed.
theorem Stuck.writer (hstuck : Stuck json p steps cfg) (h : Inv json p steps c packs (view cfg)) :
    (cfg.threads .writer = [.waitReplies, .joinReplyThread] ∧
      ¬ (.waitReplies : Task ε 1).Ready cfg.state) ∨
    (cfg.threads .writer = [.joinReplyThread] ∧ cfg.state.writer.replyThreadActive = false ∧
      cfg.state.writer.replyThreadEnded = false) ∨
    cfg.threads .writer = [] ∧ cfg.state.writer.isClosed = true := by
  have hwriting := h.sending.writing
  generalize hts : (view cfg).atWriter = ts at hwriting
  change cfg.threads .writer = ts at hts
  cases hwriting with
  | @puts ts' hlocal hactive hclosed =>
    cases ts' with
    | nil => exact .inl ⟨hts, fun hready => hstuck.not_run hts trivial hready ⟨_, rfl⟩⟩
    | cons t ts' =>
      obtain rfl | ⟨b, rfl⟩ | rfl | rfl | rfl := hlocal t List.mem_cons_self
      all_goals exact (hstuck.not_run hts trivial trivial ⟨_, rfl⟩).elim
  | replied => exact (hstuck.not_run hts trivial trivial ⟨_, rfl⟩).elim
  | stopped _ hactive _ =>
    refine .inr (.inl ⟨hts, hactive, ?_⟩)
    exact Bool.eq_false_iff.mpr fun hended => hstuck.not_run hts trivial hended ⟨_, rfl⟩
  | closed _ _ hclosed => exact .inr (.inr ⟨hts, hclosed⟩)

-- Then it has put all messages into the queue.
theorem Stuck.sends (hstuck : Stuck json p steps cfg) (h : Inv json p steps c packs (view cfg)) :
    DataMan.sends json p (view cfg).atWriter (view cfg).writer.currentStep
      (view cfg).writer.combinedSteps (view cfg).writer.serializer = [] := by
  have hwriting := h.sending.writing
  generalize hts : (view cfg).atWriter = ts at hwriting ⊢
  change cfg.threads .writer = ts at hts
  cases hwriting with
  | @puts ts' hlocal hactive hclosed =>
    cases ts' with
    | nil => rfl
    | cons t ts' =>
      have hhead := hlocal t List.mem_cons_self
      obtain ⟨heq, -⟩ | ⟨heq, -⟩ | ⟨heq, -⟩ := hstuck.writer h
      · rw [hts] at heq
        obtain ⟨rfl, -⟩ := List.cons.inj heq
        simp [Task.IsLocal] at hhead
      · rw [hts] at heq
        obtain ⟨rfl, -⟩ := List.cons.inj heq
        simp [Task.IsLocal] at hhead
      · exact nomatch hts.symm.trans heq
  | replied | stopped | closed => rfl

-- A reply thread that cannot go on waits for a request, has ended, or waits for a buffer.
theorem Stuck.reply (hstuck : Stuck json p steps cfg) (h : Inv json p steps c packs (view cfg)) :
    (view cfg).atReply = [.receiveRequest] ∧ cfg.state.requests = [] ∧
      cfg.state.writer.replyThreadActive = true ∨
    (view cfg).atReply = [] ∨ (view cfg).atReply = [.popBufferQueue 0] := by
  have hturn := h.replying.turn
  generalize hts : (view cfg).atReply = ts at hturn
  change cfg.threads .reply = ts at hts
  cases ts with
  | nil => exact .inr (.inl rfl)
  | cons t rest =>
    obtain ⟨rfl, hlisten | ⟨rfl, -⟩ | ⟨b, rfl, -⟩⟩ := hturn.reply_cases
    · simp only [Listening, List.cons.injEq, and_true, List.cons_ne_nil, or_false] at hlisten
      obtain rfl | rfl | rfl := hlisten
      · exact (hstuck.not_run hts trivial trivial ⟨_, rfl⟩).elim
      · refine (hstuck.not_run hts trivial trivial ?_).elim
        simp only [Task.exec]
        split <;> exact ⟨_, rfl⟩
      · have hnot : ¬ (cfg.state.requests ≠ [] ∨ cfg.state.writer.replyThreadActive = false) := by
          refine fun hready => hstuck.not_run hts trivial hready ?_
          simp only [Task.exec]
          split
          · split <;> exact ⟨_, rfl⟩
          · exact ⟨_, rfl⟩
        simp only [not_or, not_not, Bool.not_eq_false] at hnot
        exact .inl ⟨rfl, hnot⟩
    · exact .inr (.inr rfl)
    · exact (hstuck.not_run hts trivial trivial ⟨_, rfl⟩).elim

theorem Stuck.request (hs : Setting json p steps c packs) (hstuck : Stuck json p steps cfg)
    (h : Inv json p steps c packs (view cfg)) : (view cfg).atRequest = [] := by
  obtain ⟨unpacked, hle, hu, hp⟩ := h.unpacking
  have hnone := hstuck.putPack hs h
  have hturn := h.replying.turn
  generalize hts : (view cfg).atRequest = ts at hturn
  change cfg.threads (.request 0) = ts at hts
  cases ts with
  | nil => rfl
  | cons t rest =>
    obtain ⟨rfl, ⟨rfl, -⟩ | ⟨b, rfl, -⟩ | ⟨rfl, hreplied⟩⟩ := hturn.request_cases
    · exact (hstuck.not_run hts trivial trivial ⟨_, rfl⟩).elim
    · obtain ⟨hlt, hnext, -⟩ := hu.next (b := b) (l := []) (by
        rw [view_reader, hnone, show (view cfg).atRequest = _ from hts]
        rfl)
      obtain ⟨serializer, hunpack, -⟩ := hp.unpack hs hlt
      rw [← hnext] at hunpack
      simp only [view_reader] at hunpack
      refine (hstuck.not_run hts trivial hnone ?_).elim
      simp only [Task.exec, ReaderState.putPackThread', hunpack]
      split <;> exact ⟨_, rfl⟩
    · have hnotAll : (view cfg).reader.received.length ≠ packs.length + 1 := fun hall => by
        have := hu.final.mpr hall
        cases this.symm.trans hts
      obtain hreply | ⟨b, hreply, hrt, -⟩ := hreplied
      · -- no reply is on its way, and the reply thread waits although a request is under way
        exfalso
        obtain ⟨hrt, hrequests, -⟩ | hrt | hrt := hstuck.reply h
        · rw [hrt, hreply, view_requests, hrequests] at hturn
          cases hturn with
          | idle _ hqt => simp at hqt
        · have hall := h.stopped hs (h.replying.active hrt)
          rw [hreply, Option.toList, List.append_nil] at hall
          exact hnotAll (by rw [hall, hs.messages_length])
        · have hqueue : (view cfg).writer.bufferQueue = [] := by
            by_contra hne
            refine hstuck.not_run hrt trivial hne ?_
            simp only [Task.exec]
            split <;> exact ⟨_, rfl⟩
          have horder := h.sending.order
          rw [View.taken, hrt, hreply, hqueue, hstuck.sends h] at horder
          have hlength := congrArg List.length horder
          rw [hs.messages_length] at hlength
          exact hnotAll (by simpa [popped] using hlength)
      · obtain ⟨found, hfound⟩ : ∃ found, finalStepIn json b = .ok found := by
          obtain ⟨hlt, rfl⟩ | ⟨-, rfl⟩ := h.next_message hs hrt hreply
          · obtain ⟨_, hpack⟩ := hs.exists_isPack hlt
            exact ⟨_, hpack.finalStepIn hs.lossless⟩
          · exact ⟨_, hs.finalStepIn_last⟩
        simp only [view_reader] at hreply
        have hready : (Task.receiveReply 0).Ready cfg.state := by
          simp [Task.Ready, hreply]
        refine (hstuck.not_run hts trivial hready ?_).elim
        simp only [Task.exec, hreply, hfound, Outcome.ok_bind]
        split
        · exact ⟨_, rfl⟩
        · split <;> exact ⟨_, rfl⟩

-- Where none of the threads can go on, the reader has had all steps and the writer has closed.
theorem Stuck.finished (hs : Setting json p steps c packs) (hstuck : Stuck json p steps cfg)
    (h : Inv json p steps c packs (view cfg)) : Finished p steps cfg := by
  obtain ⟨unpacked, hle, hu, hp⟩ := h.unpacking
  have hrequest := hstuck.request hs h
  have hnone := hstuck.putPack hs h
  obtain ⟨hlength, hall⟩ := h.received_all hs hrequest
  have hunpacked : unpacked = packs.length := by
    have := hu.received
    simp only [hrequest, view_reader, hnone, held, Option.toList, List.append_nil, List.length_nil,
      if_true] at this hlength
    omega
  subst hunpacked
  have hfinal := hu.finalStep
  rw [if_pos hrequest] at hfinal
  have hentered : (entered p steps c packs.length).length = steps.length := by
    rw [hs.entered_all, contents, contentsFrom_length]
  have hsteps := List.length_pos_iff.mpr hs.steps_ne
  have hlt := hs.steps_lt
  have hreader : cfg.threads (.reader 0) = [] ∧
      (cfg.state.readers 0).presented.length = steps.length := by
    obtain hts | ⟨hts, hpresented⟩ | ⟨hts, -⟩ | ⟨hts, hpresented⟩ := hp.reading
    · have hawaits : Awaits steps cfg (.run (.reader 0) false) := by
        simp only [view_reader] at hfinal
        simp only [Awaits, show cfg.threads (.reader 0) = _ from hts, hfinal]
        omega
      refine (hstuck.not_run hts hawaits trivial ?_).elim
      simp only [Task.exec]
      split <;> exact ⟨_, rfl⟩
    · have hhas := hp.has
      rw [hts] at hhas
      simp only [view_reader, inStep, Nat.sub_zero] at hhas hpresented
      have hnumbered := hs.numbered_entered packs.length
      have hearliest := hhas.earliestStep hnumbered (by omega)
      have hawaits : Awaits steps cfg (.run (.reader 0) false) := by
        simp only [Awaits, show cfg.threads (.reader 0) = _ from hts]
      refine (hstuck.not_run hts hawaits (by simp [Task.Ready, hearliest]) ?_).elim
      simp only [Task.exec, hearliest]
      split <;> exact ⟨_, rfl⟩
    · have hawaits : Awaits steps cfg (.run (.reader 0) false) := by
        simp only [Awaits, show cfg.threads (.reader 0) = _ from hts]
      exact (hstuck.not_run hts hawaits trivial ⟨_, rfl⟩).elim
    · exact ⟨hts, hpresented⟩
  constructor
  case presented =>
    intro i
    obtain rfl := Subsingleton.elim i 0
    exact hp.presented_all hreader.2
  case endOfStream =>
    intro i
    obtain rfl := Subsingleton.elim i 0
    exact hp.ended.mpr hreader.1
  case closed =>
    have hreply : (view cfg).reader.reply.toList = [] := by
      obtain ⟨htaken, -⟩ := h.taken_all hs (by simp only [List.length_append]; omega)
      rw [hall] at htaken
      exact List.append_right_eq_self.mp htaken
    have hcount := hs.count
    have hpositive := hs.positive
    have hcounted := h.replying.counted
    rw [hlength, hreply, List.length_nil, Nat.add_zero, Nat.mul_succ, hcount] at hcounted
    have hrt : (view cfg).atReply = [.receiveRequest] ∧ cfg.state.writer.replyThreadActive = true ∨
        (view cfg).atReply = [] := by
      obtain ⟨hrt, -, hactive⟩ | hrt | hrt := hstuck.reply h
      · exact .inl ⟨hrt, hactive⟩
      · exact .inr hrt
      · have hturn := h.replying.turn
        rw [hrt, hrequest] at hturn
        obtain ⟨-, hlisten | ⟨-, hqt, -⟩ | ⟨b, hsend, -⟩⟩ := hturn.reply_cases
        · simp [Listening] at hlisten
        · cases hqt
        · cases hsend
    obtain ⟨hts, hnot⟩ | ⟨-, hactive, hended⟩ | ⟨-, hclosed⟩ := hstuck.writer h
    · have hbegun := h.sending.begun
      rw [show (view cfg).atWriter = _ from hts] at hbegun
      have huncounted : uncounted (view cfg).atReply = 0 := by
        obtain ⟨hrt, -⟩ | hrt := hrt <;> rw [hrt] <;> rfl
      rw [huncounted, Nat.mul_zero, Nat.add_zero] at hcounted
      simp only [view_writer, List.countP_cons, List.countP_nil, Task.isBeginStep] at hbegun hcounted
      refine absurd (fun _ => ?_) hnot
      simp only [Bool.false_eq_true, if_false] at hbegun
      omega
    · obtain ⟨-, hactive'⟩ | hrt := hrt
      · cases hactive.symm.trans hactive'
      · cases hended.symm.trans (h.replying.ended.mpr hrt)
    · exact hclosed

end Finished

-- Where the messages of the writer have the sizes that their types can hold.
theorem reliableMode {json : JsonLibrary ε} (hjson : json.Lossless) {p : Parameters n}
    {steps : List (List (Block ε))} (hsteps : steps.length + 1 < 2 ^ 63)
    (hlengths : ∀ b ∈ messages json p steps, b.length < 2 ^ 64) (hregular : Regular p steps) :
    Reliable json p steps (Awaits steps) := by
  obtain rfl := hregular.oneReader
  obtain ⟨c, hc⟩ := Int.eq_ofNat_of_zero_le hregular.combining.le
  have hpositive : 0 < c := by
    have := hregular.combining
    omega
  have hdvd : c ∣ steps.length := by
    have := hregular.full
    rw [hc] at this
    exact_mod_cast this
  obtain ⟨packs, hpacks, hmessages⟩ := messages_eq json hc hpositive hregular.blocks hdvd
  have hbatches : c * (List.batches c [] (contents p steps)).length = steps.length := by
    rw [List.batches_length (by simpa using hpositive), contents, contentsFrom_length]
    · simp
    · simpa [contents] using hdvd
  have hs : Setting json p steps c packs := {
    lossless  := hjson
    combining := hc
    positive  := hpositive
    steps_ne  := hregular.steps_ne
    steps_lt  := hsteps
    nonempty  := contentsFrom_ne_nil hregular.blocks
    lengths   := fun b hb => hlengths b (hmessages ▸ List.mem_append_left _ hb)
    count     := hpacks.length_eq ▸ hbatches
    arePacks  := hpacks
    sent      := hmessages }
  constructor
  case delivered => exact fun cfg hrun => (inv_reaches hs hrun).delivered hs
  case finished => exact fun cfg hrun hstuck => Stuck.finished hs hstuck (inv_reaches hs hrun)
  case ends =>
    intro run hstart
    exact not_run_forever (I := fun cfg => Inv json p steps c packs (view cfg))
      (w := work (packs.length + 1) steps.length)
      (fun h hawaits hstep => ⟨h.step hs hawaits hstep, work_step hs h hstep⟩)
      (hstart ▸ inv_opened)
  case packs =>
    intro b hb k hk
    rw [hmessages, List.mem_append, List.mem_singleton] at hb
    obtain hb | hb := hb
    · obtain ⟨i, hi, rfl⟩ := List.mem_iff_getElem.mp hb
      obtain ⟨_, hpack⟩ := hs.exists_isPack hi
      cases (hpack.finalStepIn hjson).symm.trans hk
    · exact hb

section Examples

def oneBlock : Metadata Unit := [(0, [()])]

def oneBlockText : List Byte :=
  ascii "\x7b\"0\":\x7b\"0\":[\x7b\"+\":[1],\"-\":[1],\"C\":[],\"I\":1," ++
    ascii "\"N\":\"x\",\"O\":[],\"P\":16,\"S\":[],\"Y\":\"uint8_t\"\x7d]\x7d\x7d"

def finalStepFront : List Byte := ascii "\x7b\"FinalStep\":"

def signedValue : List Byte → Int
  | 45 :: ds => -digitsValue ds
  | ds       => digitsValue ds

-- A library that has the texts of the messages below. The others are counts in place of texts.
def sampleJson : JsonLibrary Unit where
  dump m  := if m = oneBlock then oneBlockText else List.replicate (Encodable.encode m) 120
  parse s :=
    if s = oneBlockText then
      some (.metadata oneBlock)
    else if s.take 13 = finalStepFront then
      some (.finalStep (signedValue (s.drop 13).dropLast))
    else
      (Encodable.decode s.length).map .metadata

theorem signedValue_signedDecimal (n : Int) : signedValue (signedDecimal n) = n := by
  unfold signedDecimal
  split
  case isTrue h =>
    have hdigits := decimal_digits n.toNat
    have hvalue : signedValue (decimal n.toNat) = digitsValue (decimal n.toNat) := by
      unfold signedValue
      split
      case h_1 ds heq =>
        have := hdigits 45 (heq ▸ List.mem_cons_self)
        simp [isDigit] at this
      case h_2 => rfl
    rw [hvalue, digitsValue_decimal]
    omega
  case isFalse h =>
    rw [signedValue, digitsValue_decimal]
    omega

theorem finalStepText_take (n : Int) : (finalStepText n).take 13 = finalStepFront := by
  rw [finalStepText, List.append_assoc]
  exact List.take_left' (by decide)

theorem finalStepText_drop (n : Int) : ((finalStepText n).drop 13).dropLast = signedDecimal n := by
  rw [finalStepText, List.append_assoc, List.drop_left' (by decide)]
  exact List.dropLast_concat

theorem sampleJson_lossless : sampleJson.Lossless where
  dump_noNul m := by
    simp only [sampleJson]
    split
    · decide
    · simp
  parse_dump m := by
    simp only [sampleJson]
    by_cases hm : m = oneBlock
    · simp [hm]
    · have hbrace : (123 : Byte) ∉ List.replicate (Encodable.encode m) 120 := fun h =>
        absurd (List.eq_of_mem_replicate h) (by decide)
      have hne : List.replicate (Encodable.encode m) 120 ≠ oneBlockText := fun h =>
        hbrace (h ▸ by decide)
      have hfront : (List.replicate (Encodable.encode m) (120 : Byte)).take 13 ≠ finalStepFront :=
        fun h => hbrace (List.mem_of_mem_take (i := 13) (by rw [h]; decide))
      rw [if_neg hm, if_neg hne, if_neg hfront, List.length_replicate, Encodable.encodek]
      rfl
  parse_finalStep n := by
    have hne : finalStepText n ≠ oneBlockText := fun h => by
      have := congrArg (List.take 13) h
      rw [finalStepText_take] at this
      exact absurd this (by decide)
    simp only [sampleJson]
    rw [if_neg hne, if_pos (finalStepText_take n), finalStepText_drop, signedValue_signedDecimal]
  parse_short s n h := by
    have hne : s ≠ oneBlockText := fun heq => by
      rw [heq] at h
      exact absurd h (by decide)
    have hfront : s.take 13 ≠ finalStepFront := fun heq => by
      have := congrArg List.length heq
      rw [List.length_take, show finalStepFront.length = 13 by decide] at this
      omega
    simp only [sampleJson]
    rw [if_neg hne, if_neg hfront]
    simp

def oneStep : List (List (Block Unit)) := [[{ data := [1], entry := fun _ => () }]]

def combining (combiningSteps : Int) : Parameters 1 where
  combiningSteps
  threading _ := true
  endian      := .little

-- A step is sent in a pack of its own.
theorem reliable_oneStep : Reliable sampleJson (combining 1) oneStep (Awaits oneStep) :=
  reliableMode sampleJson_lossless (by decide) (by decide +kernel) {
    oneReader := rfl
    steps_ne  := by decide
    blocks    := by decide
    combining := by decide
    full      := by decide }

-- A pack that is not full counts for two steps, so that the writer stops before the number of the final
-- step is asked for.
theorem not_reliable_partialPack : ¬ ∀ json : JsonLibrary Unit, json.Lossless →
    ∀ n (p : Parameters n) steps, steps.length + 1 < 2 ^ 63 →
      (∀ b ∈ messages json p steps, b.length < 2 ^ 64) →
        Reliable json p steps fun _ _ => True := by
  intro h
  have hreliable := h sampleJson sampleJson_lossless 1 (combining 2) oneStep (by decide)
    (by decide +kernel)
  have h₁ := (Reaches.refl (P := program sampleJson (combining 2)) (C := fun _ _ => True)
    (c := opened oneStep)).tail trivial (.run (i := .writer) (e := false) rfl (by exact trivial) rfl)
  have h₂ := h₁.tail trivial (.run (i := .writer) (e := false) rfl (by exact trivial) rfl)
  have h₃ := h₂.tail trivial (.run (i := .writer) (e := false) rfl (by exact trivial) rfl)
  have h₄ := h₃.tail trivial (.run (i := .writer) (e := false) rfl (by exact trivial) rfl)
  have h₅ := h₄.tail trivial (.run (i := .writer) (e := false) rfl (by exact trivial) rfl)
  have h₆ := h₅.tail trivial (.run (i := .request 0) (e := false) rfl (by exact trivial) rfl)
  have h₇ := h₆.tail trivial (.run (i := .reply) (e := false) rfl (by exact trivial) rfl)
  have h₈ := h₇.tail trivial (.run (i := .reply) (e := false) rfl
    (by exact .inl (List.cons_ne_nil _ _)) rfl)
  have h₉ := h₈.tail trivial (.run (i := .reply) (e := false) rfl
    (by exact List.cons_ne_nil _ _) rfl)
  have h₁₀ := h₉.tail trivial (.run (i := .reply) (e := false) rfl (by exact trivial) rfl)
  have h₁₁ := h₁₀.tail trivial (.run (i := .reply) (e := false) rfl (by exact trivial) rfl)
  have h₁₂ := h₁₁.tail trivial (.run (i := .writer) (e := false) rfl
    (by exact fun _ => by decide) rfl)
  have h₁₃ := h₁₂.tail trivial (.run (i := .writer) (e := false) rfl (by exact trivial) rfl)
  have hstops := (hreliable.delivered _ h₁₃).stops rfl 0
  exact absurd (congrArg List.length hstops) (by decide +kernel)

end Examples

end DataMan
