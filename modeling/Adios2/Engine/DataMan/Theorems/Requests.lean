import Adios2.Engine.DataMan.Theorems.Messages

-- What holds in all runs with one reader that the numbers of steps and of combined steps suit: which
-- messages are where, whose turn it is, and what the reader has of the packs. The tasks of the writer
-- and of its reply thread keep it.

namespace DataMan

open Bytes CString Threads

variable {ε : Type} {n : Nat}

def program (json : JsonLibrary ε) (p : Parameters n) :
    Program (Thread n) (State ε n) (Task ε n) Bool where
  ready t s          := t.Ready s
  exec timedOut t s  := t.exec json p timedOut s
  begins i s ts      :=
    match i with
    | .putPack i => ∃ buffer, (s.readers i).putPackThread = some buffer ∧ ts = [.putPackThread i buffer]
    | _          => False

-- After the handshake
def opened (steps : List (List (Block ε))) : Configuration (Thread n) (State ε n) (Task ε n) where
  state   := { writer := {}, readers := fun _ => {} }
  threads
    | .writer    => writerTasks steps
    | .reply     => [.checkReplying]
    | .reader i  => [.readerBeginStep i]
    | .request i => [.sendRequest i]
    | .putPack _ => []

-- A reader that has had the last step begins the next one when it has the number of the final step.
def Awaits (steps : List (List (Block ε))) (c : Configuration (Thread n) (State ε n) (Task ε n)) :
    Event (Thread n) (Task ε n) Bool → Prop
  | .run (.reader i) _ =>
    match c.threads (.reader i) with
    | .readerBeginStep _ :: _ => (c.state.readers i).currentStep = steps.length - 1 →
      (c.state.readers i).finalStep ≠ 2 ^ 63 - 1
    | _                       => True
  | _ => True

-- The numbers that the messages of a writer depend on, where the packs are full.
structure Setting (json : JsonLibrary ε) (p : Parameters 1) (steps : List (List (Block ε))) (c : Nat)
    (packs : List (List Byte)) : Prop where
  lossless  : json.Lossless
  combining : p.combiningSteps = c
  positive  : 0 < c
  steps_ne  : steps ≠ []
  steps_lt  : steps.length + 1 < 2 ^ 63
  nonempty  : ∀ x ∈ contents p steps, x.2 ≠ []
  lengths   : ∀ b ∈ packs, b.length < 2 ^ 64
  count     : c * packs.length = steps.length
  arePacks  : List.Forall₂ (IsPack json p.endian) packs (List.batches c [] (contents p steps))
  sent      : messages json p steps = packs ++ [endSignal (steps.length - 1)]

-- The state of the writer and the reader, and the tasks of their threads.
structure View (ε : Type) where
  writer    : WriterState ε
  reader    : ReaderState ε
  requests  : List (Fin 1)
  atWriter  : List (Task ε 1)
  atReply   : List (Task ε 1)
  atReader  : List (Task ε 1)
  atRequest : List (Task ε 1)
  atPutPack : List (Task ε 1)

def view (c : Configuration (Thread 1) (State ε 1) (Task ε 1)) : View ε where
  writer    := c.state.writer
  reader    := c.state.readers 0
  requests  := c.state.requests
  atWriter  := c.threads .writer
  atReply   := c.threads .reply
  atReader  := c.threads (.reader 0)
  atRequest := c.threads (.request 0)
  atPutPack := c.threads (.putPack 0)

section View

variable (cfg : Configuration (Thread 1) (State ε 1) (Task ε 1))

@[simp]
theorem view_writer : (view cfg).writer = cfg.state.writer := rfl

@[simp]
theorem view_reader : (view cfg).reader = cfg.state.readers 0 := rfl

@[simp]
theorem view_requests : (view cfg).requests = cfg.state.requests := rfl

end View

section Invariant

variable (json : JsonLibrary ε) (p : Parameters 1) (steps : List (List (Block ε))) (c : Nat)
variable (packs : List (List Byte))

-- A buffer that the reply thread has taken from the queue.
def popped : List (Task ε 1) → List (List Byte)
  | [.sendReply _ buffer] => [buffer]
  | _                     => []

def View.taken (v : View ε) : List (List Byte) :=
  v.reader.received ++ (popped v.atReply ++ v.reader.reply.toList)

def Task.isBeginStep : Task ε n → Bool
  | .beginStep => true
  | _          => false

-- The tasks that only the application of the writer and the queue know of.
def Task.IsLocal (t : Task ε n) : Prop :=
  t = .beginStep ∨ (∃ b, t = .putData b) ∨ t = .endStep ∨ t = .closePack ∨ t = .closeFinalStep

-- How far the writer has come, and when it goes on.
inductive Writing : WriterState ε → List (Task ε 1) → Prop
  | puts {w : WriterState ε} {ts : List (Task ε 1)} (tasks : ∀ t ∈ ts, t.IsLocal)
      (active : w.replyThreadActive = true) (closed : w.isClosed = false) :
      Writing w (ts ++ [.waitReplies, .joinReplyThread])
  | replied {w : WriterState ε} (sent : steps.length + 1 ≤ w.sentSteps)
      (active : w.replyThreadActive = true) (closed : w.isClosed = false) :
      Writing w [.stopReplying, .joinReplyThread]
  | stopped {w : WriterState ε} (sent : steps.length + 1 ≤ w.sentSteps)
      (active : w.replyThreadActive = false) (closed : w.isClosed = false) :
      Writing w [.joinReplyThread]
  | closed {w : WriterState ε} (sent : steps.length + 1 ≤ w.sentSteps)
      (active : w.replyThreadActive = false) (closed : w.isClosed = true) : Writing w []

structure Sending (v : View ε) : Prop where
  order   : v.taken ++ (v.writer.bufferQueue ++
    sends json p v.atWriter v.writer.currentStep v.writer.combinedSteps v.writer.serializer) =
      messages json p steps
  begun   : v.writer.currentStep + v.atWriter.countP Task.isBeginStep = steps.length - 1
  writing : Writing steps v.writer v.atWriter

-- The reply thread is between two requests.
def Listening (ts : List (Task ε 1)) : Prop :=
  ts = [.countReply] ∨ ts = [.checkReplying] ∨ ts = [.receiveRequest] ∨ ts = []

-- Whose turn it is: the tasks of the reply thread and of the request thread, the requests that have
-- not been received, and the reply on its way.
inductive Turn : List (Task ε 1) → List (Task ε 1) → List (Fin 1) → Option (List Byte) → Prop
  | idle {rt qt : List (Task ε 1)} (listening : Listening rt)
      (request : qt = [.sendRequest 0] ∨ (∃ b, qt = [.putPack 0 b]) ∨ qt = []) : Turn rt qt [] none
  | requested {rt : List (Task ε 1)} (listening : Listening rt) :
      Turn rt [.receiveReply 0] [0] none
  | popping : Turn [.popBufferQueue 0] [.receiveReply 0] [] none
  | sending {b : List Byte} : Turn [.sendReply 0 b] [.receiveReply 0] [] none
  | replied {rt : List (Task ε 1)} {b : List Byte} (listening : Listening rt) :
      Turn rt [.receiveReply 0] [] (some b)

-- A reply that has not been counted yet.
def uncounted : List (Task ε 1) → Nat
  | [.countReply] => 1
  | _             => 0

structure Replying (v : View ε) : Prop where
  turn    : Turn v.atReply v.atRequest v.requests v.reader.reply
  ended   : v.writer.replyThreadEnded = true ↔ v.atReply = []
  active  : v.atReply = [] → v.writer.replyThreadActive = false
  counted : v.writer.sentSteps + c * uncounted v.atReply =
    c * (v.reader.received.length + v.reader.reply.toList.length)

-- A pack that the request thread has received and not given away.
def held : List (Task ε 1) → List (List Byte)
  | [.putPack _ buffer] => [buffer]
  | _                   => []

-- The packs that have been received, of which the first are unpacked.
structure Unpacking (v : View ε) (unpacked : Nat) : Prop where
  received : v.reader.received.length = unpacked + (v.reader.putPackThread.toList ++
    held v.atRequest).length + if v.atRequest = [] then 1 else 0
  pending  : v.reader.putPackThread.toList ++ held v.atRequest <+: packs.drop unpacked
  final    : v.atRequest = [] ↔ v.reader.received.length = packs.length + 1
  thread   : v.atPutPack = [] ∨
    ∃ b, v.atPutPack = [.putPackThread 0 b] ∧ v.reader.putPackThread = some b
  finalStep : v.reader.finalStep =
    if v.atRequest = [] then (steps.length : Int) - 1 else 2 ^ 63 - 1

def entered (unpacked : Nat) : Metadata ε :=
  ((List.batches c [] (contents p steps)).take unpacked).flatten

-- A step that has been begun and not ended
def inStep : List (Task ε 1) → Nat
  | [.readerEndStep _] => 1
  | _                  => 0

-- The steps that have been presented, and what is left of those that have been unpacked.
structure Presenting (v : View ε) (unpacked : Nat) : Prop where
  has       : v.reader.serializer.Has (entered p steps c unpacked)
    (v.reader.presented.length - inStep v.atReader)
  presented : v.reader.presented =
    ((contents p steps).take v.reader.presented.length).map fun (k, vars) => ((k : Int), vars)
  unpacked  : v.reader.presented.length ≤ (entered p steps c unpacked).length
  current   : v.reader.currentStep = v.reader.presented.length - 1
  reading   : v.atReader = [.readerBeginStep 0] ∨
    v.atReader = [.getEarliestStep 0] ∧ v.reader.presented.length < steps.length ∨
    v.atReader = [.readerEndStep 0] ∧ 0 < v.reader.presented.length ∨
    v.atReader = [] ∧ v.reader.presented.length = steps.length
  ended     : v.reader.endOfStream = true ↔ v.atReader = []

structure Inv (v : View ε) : Prop where
  sending    : Sending json p steps v
  replying   : Replying c v
  unpacking  : ∃ unpacked, unpacked ≤ packs.length ∧ Unpacking steps packs v unpacked ∧
    Presenting p steps c v unpacked

end Invariant

section Opened

variable {json : JsonLibrary ε} {p : Parameters 1} {steps : List (List (Block ε))} {c : Nat}
variable {packs : List (List Byte)}

theorem countP_isBeginStep (steps : List (List (Block ε))) :
    (writerTasks steps : List (Task ε n)).countP Task.isBeginStep = steps.length := by
  induction steps with
  | nil => rfl
  | cons blocks steps ih =>
    simp only [writerTasks, List.countP_append] at ih ⊢
    have hputs : (blocks.map .putData : List (Task ε n)).countP Task.isBeginStep = 0 := by
      simp [List.countP_eq_zero, Task.isBeginStep]
    simp only [List.flatMap_cons, stepTasks, List.countP_append, List.countP_cons, hputs,
      List.cons_append, List.countP_nil, Task.isBeginStep, List.length_cons]
    simp only [reduceIte, Bool.false_eq_true]
    omega

theorem writing_opened : Writing steps ({} : WriterState ε) (writerTasks steps) := by
  have htasks : (writerTasks steps : List (Task ε 1)) =
      (steps.flatMap stepTasks ++ [.closePack, .closeFinalStep]) ++
        [.waitReplies, .joinReplyThread] := by
    simp [writerTasks, closeTasks]
  rw [htasks]
  refine .puts (fun t ht => ?_) rfl rfl
  simp only [List.mem_append, List.mem_flatMap, stepTasks, List.cons_append, List.mem_cons,
    List.mem_map, List.not_mem_nil, or_false] at ht
  unfold Task.IsLocal
  grind

theorem inv_opened :
    Inv json p steps c packs (view (opened steps)) where
  sending  := {
    order   := rfl
    begun   := by
      have := countP_isBeginStep (n := 1) steps
      simp only [view, opened] at this ⊢
      omega
    writing := writing_opened }
  replying := {
    turn    := .idle (.inr (.inl rfl)) (.inl rfl)
    ended   := by simp [view, opened]
    active  := by simp [view, opened]
    counted := by simp [view, opened, uncounted] }
  unpacking := ⟨0, Nat.zero_le _, {
      received  := by simp [view, opened, held]
      pending   := by simp [view, opened, held]
      final     := by simp [view, opened]
      thread    := .inl rfl
      finalStep := by simp [view, opened] }, {
      has       := by simpa [view, opened, entered] using VarMap.Has.nil
      presented := by simp [view, opened]
      unpacked  := by simp [view, opened]
      current   := by simp [view, opened]
      reading   := .inl rfl
      ended     := by simp [view, opened] }⟩

end Opened

section Writer

variable {json : JsonLibrary ε} {p : Parameters 1} {steps : List (List (Block ε))} {c : Nat}
variable {packs : List (List Byte)} {v : View ε}

-- A task of the application of the writer, where nothing changes that the other threads look at apart
-- from the queue.
theorem Inv.withWriter (h : Inv json p steps c packs v) {w : WriterState ε} {ts : List (Task ε 1)}
    (hsending : Sending json p steps { v with writer := w, atWriter := ts })
    (hsent : w.sentSteps = v.writer.sentSteps)
    (hended : w.replyThreadEnded = v.writer.replyThreadEnded)
    (hactive : w.replyThreadActive = true → v.writer.replyThreadActive = true) :
    Inv json p steps c packs { v with writer := w, atWriter := ts } where
  sending  := hsending
  replying := {
    turn    := h.replying.turn
    ended   := by simpa only [hended] using h.replying.ended
    active  := fun hreply => by
      have := h.replying.active hreply
      grind
    counted := by simpa only [hsent] using h.replying.counted }
  unpacking := by
    have ⟨unpacked, hle, hu, hp⟩ := h.unpacking
    exact ⟨unpacked, hle, { hu with }, { hp with }⟩

theorem Sending.putTask (h : Sending json p steps v) {t : Task ε 1} {ts : List (Task ε 1)}
    (hthread : v.atWriter = t :: (ts ++ [.waitReplies, .joinReplyThread]))
    (hlocal : ∀ t' ∈ t :: ts, t'.IsLocal) (hactive : v.writer.replyThreadActive = true)
    (hclosed : v.writer.isClosed = false) {w : WriterState ε}
    (hwactive : w.replyThreadActive = v.writer.replyThreadActive)
    (hwclosed : w.isClosed = v.writer.isClosed)
    (hsends : w.bufferQueue ++ sends json p (ts ++ [.waitReplies, .joinReplyThread]) w.currentStep
      w.combinedSteps w.serializer = v.writer.bufferQueue ++
      sends json p (t :: (ts ++ [.waitReplies, .joinReplyThread])) v.writer.currentStep
        v.writer.combinedSteps v.writer.serializer)
    (hbegun : w.currentStep = v.writer.currentStep + [t].countP Task.isBeginStep) :
    Sending json p steps { v with writer := w, atWriter := ts ++ [.waitReplies, .joinReplyThread] } where
  order   := by
    have horder := h.order
    rw [hthread, ← hsends] at horder
    exact horder
  begun   := by
    have hsteps := h.begun
    rw [hthread, ← List.singleton_append, List.countP_append] at hsteps
    push_cast at hsteps
    simp only [hbegun]
    omega
  writing := .puts (fun t' ht' => hlocal t' (List.mem_cons_of_mem _ ht')) (hwactive.trans hactive)
    (hwclosed.trans hclosed)

-- The tasks that put buffers into the queue change nothing but it and the number of combined steps.

theorem endStep_eq (json : JsonLibrary ε) (p : Parameters 1) (w : WriterState ε) (ts : List (Task ε 1)) : ∃ combinedSteps bufferQueue,
    w.endStep json p = { w with combinedSteps, bufferQueue } ∧
    bufferQueue ++ sends json p ts w.currentStep combinedSteps w.serializer =
      w.bufferQueue ++ sends json p (.endStep :: ts) w.currentStep w.combinedSteps w.serializer := by
  rw [WriterState.endStep, sends]
  split
  · exact ⟨_, _, rfl, by simp⟩
  · exact ⟨_, _, rfl, rfl⟩

theorem closePack_eq (json : JsonLibrary ε) (p : Parameters 1) (w : WriterState ε) (ts : List (Task ε 1)) : ∃ bufferQueue,
    w.closePack json p = { w with bufferQueue } ∧
    bufferQueue ++ sends json p ts w.currentStep w.combinedSteps w.serializer =
      w.bufferQueue ++ sends json p (.closePack :: ts) w.currentStep w.combinedSteps w.serializer := by
  rw [WriterState.closePack, sends]
  split
  · exact ⟨_, rfl, by simp⟩
  · exact ⟨_, rfl, rfl⟩

theorem view_update_writer (cfg : Configuration (Thread 1) (State ε 1) (Task ε 1)) (w : WriterState ε)
    (ts : List (Task ε 1)) :
    view { state := { cfg.state with writer := w },
           threads := Function.update cfg.threads .writer ts } =
      { view cfg with writer := w, atWriter := ts } := by
  simp [view]

theorem inv_writer {cfg : Configuration (Thread 1) (State ε 1) (Task ε 1)}
    (h : Inv json p steps c packs (view cfg)) {timedOut : Bool} {t : Task ε 1}
    {rest ts : List (Task ε 1)} {s : State ε 1} (hthread : cfg.threads .writer = t :: rest)
    (hready : t.Ready cfg.state) (hexec : t.exec json p timedOut cfg.state = .ok (s, ts)) :
    Inv json p steps c packs
      (view { state := s, threads := Function.update cfg.threads .writer (ts ++ rest) }) := by
  have hview : (view cfg).atWriter = t :: rest := hthread
  have hsending := h.sending
  have hwriting := hsending.writing
  have horder := hsending.order
  have hbegun := hsending.begun
  rw [hview] at hwriting horder hbegun
  generalize htasks : t :: rest = tasks at hwriting
  cases hwriting with
  | @puts ts' hlocal hactive hclosed =>
    cases ts' with
    | nil =>
      obtain ⟨rfl, rfl⟩ := List.cons.inj htasks
      have hwait : (cfg.state.writer.currentStep + 2).toNat ≤ cfg.state.writer.sentSteps :=
        hready hactive
      have hstep : cfg.state.writer.currentStep = steps.length - 1 := by
        simpa [Task.isBeginStep, view] using hbegun
      simp only [Task.exec, show cfg.state.writer.replyThreadActive = true from hactive] at hexec
      cases hexec
      rw [view_update_writer cfg cfg.state.writer]
      refine h.withWriter ⟨horder, hbegun, .replied ?_ hactive hclosed⟩ rfl rfl id
      simp only
      omega
    | cons t' ts' =>
      obtain ⟨rfl, rfl⟩ := List.cons.inj htasks
      have hput {w : WriterState ε} := hsending.putTask (w := w) hview hlocal hactive hclosed
      obtain rfl | ⟨b, rfl⟩ | rfl | rfl | rfl := hlocal t List.mem_cons_self
      · cases hexec
        rw [view_update_writer]
        exact h.withWriter (hput rfl rfl rfl rfl) rfl rfl id
      · cases hexec
        rw [view_update_writer]
        exact h.withWriter (hput rfl rfl rfl (by simp [WriterState.putData, Task.isBeginStep, view]))
          rfl rfl id
      · have ⟨_, _, heq, hqueue⟩ := endStep_eq json p cfg.state.writer
          (ts' ++ [.waitReplies, .joinReplyThread])
        simp only [Task.exec, heq] at hexec
        cases hexec
        rw [view_update_writer]
        exact h.withWriter (hput rfl rfl hqueue (by simp [Task.isBeginStep, view])) rfl rfl id
      · have ⟨_, heq, hqueue⟩ := closePack_eq json p cfg.state.writer
          (ts' ++ [.waitReplies, .joinReplyThread])
        simp only [Task.exec, heq] at hexec
        cases hexec
        rw [view_update_writer]
        exact h.withWriter (hput rfl rfl hqueue (by simp [Task.isBeginStep, view])) rfl rfl id
      · cases hexec
        rw [view_update_writer]
        exact h.withWriter (hput rfl rfl (by simp [WriterState.closeFinalStep,
          WriterState.pushBufferQueue, sends, view]) (by simp [WriterState.closeFinalStep,
          WriterState.pushBufferQueue, Task.isBeginStep, view])) rfl rfl id
  | replied hsent hactive hclosed =>
    obtain ⟨rfl, rfl⟩ := List.cons.inj htasks
    cases hexec
    rw [view_update_writer]
    exact h.withWriter ⟨horder, hbegun, .stopped hsent rfl hclosed⟩ rfl rfl (by simp)
  | stopped hsent hactive hclosed =>
    obtain ⟨rfl, rfl⟩ := List.cons.inj htasks
    cases hexec
    rw [view_update_writer]
    exact h.withWriter ⟨horder, hbegun, .closed hsent hactive rfl⟩ rfl rfl id
  | closed => cases htasks

end Writer

section Reply

variable {json : JsonLibrary ε} {p : Parameters 1} {steps : List (List (Block ε))} {c : Nat}
variable {packs : List (List Byte)} {v : View ε}

theorem Writing.mono {w w' : WriterState ε} {ts : List (Task ε 1)} (h : Writing steps w ts)
    (hsent : w.sentSteps ≤ w'.sentSteps) (hactive : w'.replyThreadActive = w.replyThreadActive)
    (hclosed : w'.isClosed = w.isClosed) : Writing steps w' ts := by
  cases h with
  | puts hlocal ha hc => exact .puts hlocal (hactive.trans ha) (hclosed.trans hc)
  | replied hs ha hc => exact .replied (hs.trans hsent) (hactive.trans ha) (hclosed.trans hc)
  | stopped hs ha hc => exact .stopped (hs.trans hsent) (hactive.trans ha) (hclosed.trans hc)
  | closed hs ha hc => exact .closed (hs.trans hsent) (hactive.trans ha) (hclosed.trans hc)

-- A task of the reply thread, which moves the first message at most.
theorem Inv.withReply (h : Inv json p steps c packs v) {bufferQueue : List (List Byte)}
    {sentSteps : Nat} {replyThreadEnded : Bool} {reply : Option (List Byte)}
    {requests : List (Fin 1)} {ts : List (Task ε 1)}
    (horder : popped ts ++ reply.toList ++ bufferQueue =
      popped v.atReply ++ v.reader.reply.toList ++ v.writer.bufferQueue)
    (hsent : v.writer.sentSteps ≤ sentSteps)
    (hreplying : Replying c { v with
      writer   := { v.writer with bufferQueue, sentSteps, replyThreadEnded }
      reader   := { v.reader with reply }
      requests
      atReply  := ts }) :
    Inv json p steps c packs { v with
      writer   := { v.writer with bufferQueue, sentSteps, replyThreadEnded }
      reader   := { v.reader with reply }
      requests
      atReply  := ts } where
  sending  := {
    order   := by
      have hmessages := h.sending.order
      simp only [View.taken, List.append_assoc] at hmessages horder ⊢
      rw [← List.append_assoc reply.toList, ← List.append_assoc (popped ts), horder]
      simpa using hmessages
    begun   := h.sending.begun
    writing := h.sending.writing.mono hsent rfl rfl }
  replying := hreplying
  unpacking := by
    have ⟨unpacked, hle, hu, hp⟩ := h.unpacking
    exact ⟨unpacked, hle, { hu with }, { hp with }⟩

theorem view_update_reply (cfg : Configuration (Thread 1) (State ε 1) (Task ε 1)) (s : State ε 1)
    (ts : List (Task ε 1)) :
    view { state := s, threads := Function.update cfg.threads .reply ts } =
      { view cfg with
        writer := s.writer, reader := s.readers 0, requests := s.requests, atReply := ts } := by
  simp [view]

-- No more messages have been taken than there are.
theorem Inv.taken_le (hs : Setting json p steps c packs) (h : Inv json p steps c packs v) :
    v.taken.length ≤ packs.length + 1 := by
  have hlength := congrArg List.length (h.sending.order.trans hs.sent)
  simp only [List.length_append, List.length_singleton] at hlength
  omega

theorem Setting.batches_length (hs : Setting json p steps c packs) :
    (List.batches c [] (contents p steps)).length = packs.length :=
  hs.arePacks.length_eq.symm

theorem Setting.isPack (hs : Setting json p steps c packs) {k : Nat} (hk : k < packs.length)
    (hk' : k < (List.batches c [] (contents p steps)).length) :
    IsPack json p.endian packs[k] (List.batches c [] (contents p steps))[k] :=
  hs.arePacks.get hk hk'

theorem Setting.exists_isPack (hs : Setting json p steps c packs) {k : Nat} (hk : k < packs.length) :
    ∃ m, IsPack json p.endian packs[k] m :=
  ⟨_, hs.isPack hk (hs.batches_length ▸ hk)⟩

theorem Setting.message_ne_nil (hs : Setting json p steps c packs) {b : List Byte}
    (hb : b ∈ messages json p steps) : b ≠ [] := by
  rw [hs.sent, List.mem_append, List.mem_singleton] at hb
  obtain hb | rfl := hb
  · obtain ⟨k, hk, rfl⟩ := List.mem_iff_getElem.mp hb
    have ⟨_, hpack⟩ := hs.exists_isPack hk
    exact hpack.ne_nil
  · exact endSignal_ne_nil _

theorem Inv.countReply (hs : Setting json p steps c packs) (h : Inv json p steps c packs v)
    (hreply : v.atReply = [.countReply]) :
    ((v.writer.sentSteps + p.combiningSteps) % 2 ^ 64).toNat = v.writer.sentSteps + c := by
  have htaken := h.taken_le hs
  have hcounted := h.replying.counted
  have hcount := hs.count
  have hlt := hs.steps_lt
  have hpositive := hs.positive
  have hne := List.length_pos_iff.mpr hs.steps_ne
  simp only [View.taken, hreply, popped, List.nil_append, List.length_append] at htaken
  simp only [hreply, uncounted, Nat.mul_one] at hcounted
  have hle := Nat.mul_le_mul_left c htaken
  have hc : c ≤ steps.length := Nat.le_of_dvd hne ⟨_, hcount.symm⟩
  rw [Nat.mul_succ] at hle
  rw [hs.combining]
  omega

theorem Turn.listen {rt rt' qt : List (Task ε 1)} {requests : List (Fin 1)}
    {reply : Option (List Byte)} (h : Turn rt qt requests reply) (hrt : Listening rt)
    (hrt' : Listening rt') : Turn rt' qt requests reply := by
  cases h with
  | idle _ hqt => exact .idle hrt' hqt
  | requested _ => exact .requested hrt'
  | replied _ => exact .replied hrt'
  | popping | sending => simp [Listening] at hrt

theorem Turn.reply_cases {t : Task ε 1} {rest qt : List (Task ε 1)} {requests : List (Fin 1)}
    {reply : Option (List Byte)} (h : Turn (t :: rest) qt requests reply) : rest = [] ∧
    (Listening [t] ∨ t = .popBufferQueue 0 ∧ qt = [.receiveReply 0] ∧ requests = [] ∧ reply = none ∨
      ∃ b, t = .sendReply 0 b ∧ qt = [.receiveReply 0] ∧ requests = [] ∧ reply = none) := by
  cases h with
  | popping => simp
  | sending => simp
  | idle hrt _ | requested hrt | replied hrt =>
    have hrest : rest = [] := by
      obtain heq | heq | heq | heq := hrt <;> cases heq <;> rfl
    subst hrest
    exact ⟨rfl, .inl hrt⟩

theorem popped_of_listening {ts : List (Task ε 1)} (h : Listening ts) : popped ts = [] := by
  obtain rfl | rfl | rfl | rfl := h <;> rfl

-- Between two requests, when nothing is moved.
theorem Inv.listen (h : Inv json p steps c packs v) {sentSteps : Nat} {replyThreadEnded : Bool}
    {ts : List (Task ε 1)} (hrt : Listening v.atReply) (hts : Listening ts)
    (hended : replyThreadEnded = true ↔ ts = [])
    (hactive : ts = [] → v.writer.replyThreadActive = false) (hsent : v.writer.sentSteps ≤ sentSteps)
    (hcounted : sentSteps + c * uncounted ts = v.writer.sentSteps + c * uncounted v.atReply) :
    Inv json p steps c packs { v with
      writer  := { v.writer with sentSteps, replyThreadEnded }
      atReply := ts } :=
  h.withReply (by rw [popped_of_listening hrt, popped_of_listening hts]) hsent {
    turn    := h.replying.turn.listen hrt hts
    ended   := hended
    active  := hactive
    counted := hcounted.trans h.replying.counted }

theorem inv_reply (hs : Setting json p steps c packs)
    {cfg : Configuration (Thread 1) (State ε 1) (Task ε 1)}
    (h : Inv json p steps c packs (view cfg)) {timedOut : Bool} {t : Task ε 1}
    {rest ts : List (Task ε 1)} {s : State ε 1} (hthread : cfg.threads .reply = t :: rest)
    (hready : t.Ready cfg.state) (hexec : t.exec json p timedOut cfg.state = .ok (s, ts)) :
    Inv json p steps c packs
      (view { state := s, threads := Function.update cfg.threads .reply (ts ++ rest) }) := by
  have hview : (view cfg).atReply = t :: rest := hthread
  have hreplying := h.replying
  have hturn := hreplying.turn
  have hended : cfg.state.writer.replyThreadEnded = false := by
    have := hreplying.ended
    rw [hview] at this
    exact Bool.eq_false_iff.mpr fun h => nomatch this.mp h
  rw [hview] at hturn
  obtain ⟨rfl, hcases⟩ := hturn.reply_cases
  rw [view_update_reply, List.append_nil]
  obtain hlisten | ⟨rfl, hqt, hrequests, hreply⟩ | ⟨b, rfl, hqt, hrequests, hreply⟩ := hcases
  · have hrt : Listening (view cfg).atReply := hview ▸ hlisten
    obtain heq | heq | heq | heq := hlisten
    · obtain ⟨rfl, -⟩ := List.cons.inj heq
      have hcount := h.countReply hs hview
      cases hexec
      exact h.listen hrt (.inr (.inl rfl)) (by simpa using hended) (by simp)
        (by simp only [view] at hcount ⊢; omega)
        (by
          simp only [hview, uncounted]
          simp only [view] at hcount ⊢
          omega)
    · obtain ⟨rfl, -⟩ := List.cons.inj heq
      simp only [Task.exec] at hexec
      split at hexec
      case isTrue =>
        cases hexec
        exact h.listen hrt (.inr (.inr (.inl rfl))) (by simpa using hended) (by simp) le_rfl
          (by rw [hview]; rfl)
      case isFalse hactive =>
        cases hexec
        exact h.listen hrt (.inr (.inr (.inr rfl))) (by simp)
          (fun _ => Bool.eq_false_iff.mpr hactive) le_rfl
          (by rw [hview]; rfl)
    · obtain ⟨rfl, -⟩ := List.cons.inj heq
      have hcheck : Inv json p steps c packs { view cfg with atReply := [.checkReplying] } :=
        h.listen hrt (.inr (.inl rfl)) (by simpa using hended) (by simp) le_rfl
          (by rw [hview]; rfl)
      simp only [Task.exec] at hexec
      split at hexec
      case h_2 =>
        cases hexec
        exact hcheck
      case h_1 i requests hreq =>
        split at hexec
        case isTrue =>
          cases hexec
          exact hcheck
        case isFalse =>
          cases hexec
          have hreq' : (view cfg).requests = i :: requests := hreq
          rw [hreq'] at hturn
          generalize hreply : (view cfg).reader.reply = reply at hturn
          generalize hqt : (view cfg).atRequest = qt at hturn
          cases hturn
          refine h.withReply (by rw [hview]; rfl) le_rfl {
            turn    := ?_
            ended   := by simpa using hended
            active  := by simp
            counted := ?_ }
          · simp only [view_reader] at hreply
            simp only [hqt, hreply]
            exact .popping
          · simpa [hview, uncounted] using hreplying.counted
    · cases heq
  · simp only [Task.exec] at hexec
    split at hexec
    case h_2 hqueue => exact absurd hqueue hready
    case h_1 b queue hqueue =>
      have hne : b.length > 0 := by
        have hmem : b ∈ messages json p steps := by
          rw [← h.sending.order, List.mem_append, List.mem_append, view_writer, hqueue]
          exact .inr (.inl List.mem_cons_self)
        exact List.length_pos_iff.mpr (hs.message_ne_nil hmem)
      rw [if_pos hne] at hexec
      cases hexec
      simp only [view_reader] at hreply
      simp only [view_requests] at hrequests
      refine h.withReply ?_ le_rfl {
        turn    := ?_
        ended   := by simpa using hended
        active  := by simp
        counted := ?_ }
      · simp [hview, hreply, popped, hqueue]
      · simp only [hqt, hreply, hrequests]
        exact .sending
      · simpa [hview, uncounted] using hreplying.counted
  · cases hexec
    simp only [view_reader] at hreply
    simp only [view_requests] at hrequests
    refine h.withReply ?_ le_rfl {
      turn    := ?_
      ended   := by simpa using hended
      active  := by simp
      counted := ?_ }
    · simp [hview, hreply, popped]
    · simp only [hqt, State.modifyReader, hrequests]
      exact .replied (.inl rfl)
    · have := hreplying.counted
      simp only [hview, uncounted, hreply, view_reader, view_writer, Option.toList, List.length_nil,
        List.length_singleton, mul_zero, add_zero, mul_one] at this ⊢
      rw [this]
      ring

end Reply

end DataMan
