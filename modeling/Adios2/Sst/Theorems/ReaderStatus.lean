import Adios2.Sst.Theorems.Operations

-- The status of a reader only moves forward, as long as nobody sets it back: neither rank 0's list,
-- nor a late activation.

namespace Sst

open Threads

-- The status does not go back, and nothing is added to the sent list of a reader that is gone.
structure ReaderInfo.Forward (i i' : ReaderInfo) : Prop where
  stage : i.readerStatus.stage ≤ i'.readerStatus.stage
  sent  : i.Gone → i'.sentTimestepList.Sublist i.sentTimestepList

namespace ReaderInfo.Forward

theorem refl (i : ReaderInfo) : i.Forward i where
  stage  := le_rfl
  sent _ := .refl _

theorem trans {i₁ i₂ i₃ : ReaderInfo} (h : i₁.Forward i₂) (h' : i₂.Forward i₃) : i₁.Forward i₃ where
  stage   := h.stage.trans h'.stage
  sent hg := by
    have hg' : i₂.Gone := by
      have := h.stage
      have := i₂.readerStatus.stage_le
      unfold Gone at hg ⊢
      omega
    exact (h'.sent hg').trans (h.sent hg)

-- A change that does not touch the sent list.
theorem of_stage {i i' : ReaderInfo} (h : i.readerStatus.stage ≤ i'.readerStatus.stage)
    (hs : i'.sentTimestepList = i.sentTimestepList) : i.Forward i' where
  stage  := h
  sent _ := hs ▸ .refl _

end ReaderInfo.Forward

abbrev Stream.Forward (s s' : Stream) : Prop :=
  s.Related ReaderInfo.Forward s'

namespace Stream.Forward

variable {s s' s'' : Stream}

theorem of_eq (h : s'.readers = s.readers) : s.Forward s' :=
  Related.of_eq .refl h

theorem trans (h : s.Forward s') (h' : s'.Forward s'') : s.Forward s'' :=
  Related.trans .trans h h'

theorem modify {r : Nat} {f : ReaderInfo → ReaderInfo}
    (hf : ∀ i, s.readers[r]? = some i → i.Forward (f i)) : s.Forward (s.modifyReader r f) :=
  Related.modify .refl hf

end Stream.Forward

-- A connection that is lost is not one to a reader that is opening.
def Task.FindsOpen (s : Stream) : Task → Prop
  | .connClose r => ∀ i ∈ s.readers[r]?, i.readerStatus ≠ .opening
  | _            => True

variable {s s' : Stream} {env : Environment} {ts : List Task}

theorem Operation.forward {task : Task} {forward : Prop} (h : Operation task forward s s')
    (hf : forward) : s.Forward s' := by
  cases h with
  | beside h => exact .of_eq h.readers
  | insert | entries => exact .of_eq rfl
  | maintain => exact .of_eq (queueMaintenance_readers s)
  | reader h => exact .modify fun i _ => .of_stage ((h i).status ▸ le_rfl) (h i).sent
  | status h => exact .modify fun i hi => .of_stage (h hf i hi) rfl
  | join => exact Stream.Related.append .refl rfl
  | deref r t =>
    have hderef := Stream.Forward.modify (s := s) (r := r) (f := fun i =>
      { i with sentTimestepList := i.sentTimestepList.erase t }) fun i _ =>
        ⟨le_rfl, fun _ => List.erase_sublist⟩
    exact hderef
  | deliver r t formats _ _ established =>
    have ⟨j, hj, hst⟩ := established
    have hdeliver := Stream.Forward.modify (s := s) (r := r) (f := fun i => { i with
      lastSentTimestep := t
      sentTimestepList := i.sentTimestepList ++ [t]
      formatSentCount  := i.formatSentCount + formats }) fun i hi => ⟨le_rfl, fun hg => by
        rw [hj] at hi
        cases hi
        rw [ReaderInfo.Gone, hst] at hg
        cases hg⟩
    exact hdeliver

theorem Operations.forward {task : Task} {forward : Prop} (h : Operations task forward s s')
    (hf : forward) : s.Forward s' := by
  induction h with
  | refl => exact .of_eq rfl
  | tail _ op ih => exact ih.trans (op.forward hf)

theorem execTask_forward {task : Task} (h : execTask env task s = .ok (s', ts))
    (hc : task.SetsForward env s) : s.Forward s' :=
  (execTask_operations h).forward hc

-- Conversely, a task that does not meet the condition sets the status back, or leaves it at opening.

theorem derefAllFrom_readerStatus (s : Stream) (reader : ReaderInfo) (r k : Nat)
    (list : Option Int) :
    (derefAllFrom s reader r list).1.readers[k]?.map (·.readerStatus) =
      s.readers[k]?.map (·.readerStatus) := by
  unfold derefAllFrom
  split
  case h_1 => rfl
  case h_2 t _ =>
    rw [derefSentTimestep, Stream.modifyReader_readers, subRefTimestep_readers,
      List.getElem?_modify]
    cases s.readers[k]? with
    | none => rfl
    | some i => by_cases hk : r = k <;> simp [hk]

theorem peerFailCloseWSReader_readerStatus {r : Nat} {st : StreamStatus} {i : ReaderInfo}
    (h : peerFailCloseWSReader s r st = .ok (s', ts)) (hi : s.readers[r]? = some i)
    (hs : s.status = .established) (hne : i.readerStatus ≠ st) :
    s'.readers[r]?.map (·.readerStatus) = some st := by
  unfold peerFailCloseWSReader at h
  rw [Stream.reader_eq_ok.mpr hi, Outcome.ok_bind, if_neg (by tauto)] at h
  have hset : (s.modifyReader r fun i => { i with readerStatus := st }).readers[r]?.map
      (·.readerStatus) = some st := by
    simp [hi]
  split at h
  case isTrue =>
    obtain rfl : _ = s' := congrArg Prod.fst (Except.ok.inj h)
    exact (derefAllFrom_readerStatus _ _ _ _ _).trans hset
  case isFalse =>
    cases h
    rw [queueMaintenance_readers, hset]

theorem Stream.Forward.stage_le (h : s.Forward s') {r : Nat} {i : ReaderInfo} {st : StreamStatus}
    (hi : s.readers[r]? = some i) (hst : s'.readers[r]?.map (·.readerStatus) = some st) :
    i.readerStatus.stage ≤ st.stage := by
  have ⟨i', hi', hf⟩ := h r i hi
  rw [hi', Option.map_some, Option.some_inj] at hst
  exact hst ▸ hf.stage

-- What is expected of a task: no status goes back, and a reader whose connection is lost while it
-- is opening is not opening behind that.
structure Task.KeepsStatus (task : Task) (s s' : Stream) : Prop where
  forward : s.Forward s'
  lost    : ∀ {r : Nat} {i i' : ReaderInfo}, task = .connClose r → s.readers[r]? = some i →
    i.readerStatus = .opening → s'.readers[r]? = some i' → i'.readerStatus ≠ .opening

theorem execTask_keepsStatus {task : Task} (h : execTask env task s = .ok (s', ts)) :
    task.KeepsStatus s s' ↔ task.SetsForward env s ∧ task.FindsOpen s := by
  constructor
  case mpr =>
    refine fun hc => ⟨execTask_forward h hc.left, ?_⟩
    rintro r i i' rfl hi ho _
    exact absurd ho (hc.right i hi)
  case mp =>
    intro hk
    cases task with
    | processReaderStatusList r list =>
      cases list with
      | nil => exact ⟨trivial, trivial⟩
      | cons st list =>
        refine ⟨fun hs i hi => ?_, trivial⟩
        obtain ⟨reader, hreader, h⟩ := Outcome.bind_eq_ok.mp h
        rw [Stream.reader_eq_ok, hi] at hreader
        cases hreader
        split at h
        case isTrue heq => exact heq ▸ le_rfl
        case isFalse hne =>
          obtain ⟨⟨s₁, ts₁⟩, h₁, h⟩ := Outcome.bind_eq_ok.mp h
          cases h
          exact hk.forward.stage_le hi (peerFailCloseWSReader_readerStatus h₁ hi hs hne)
    | readerActivate r =>
      obtain ⟨reader, _, h⟩ := Outcome.bind_eq_ok.mp h
      cases h
      refine ⟨fun i hi => hk.forward.stage_le hi ?_, trivial⟩
      simp [show s.readers[r]? = some i from hi]
    | adoptReaderStatus r =>
      obtain ⟨reader, _, h⟩ := Outcome.bind_eq_ok.mp h
      cases h
      refine ⟨fun i hi => hk.forward.stage_le hi ?_, trivial⟩
      simp [show s.readers[r]? = some i from hi]
    | connClose r =>
      refine ⟨trivial, fun i hi ho => ?_⟩
      suffices hi' : s'.readers[r]? = some i from hk.lost rfl hi ho hi' ho
      obtain ⟨reader, hreader, h⟩ := Outcome.bind_eq_ok.mp h
      rw [Stream.reader_eq_ok, hi] at hreader
      cases hreader
      split at h
      case isTrue =>
        cases h
        exact hi
      case isFalse =>
        rw [ho] at h
        cases h
        rw [queueMaintenance_readers]
        exact hi
    | _ => exact ⟨trivial, trivial⟩

-- The conditions on a run: no step sets the status of a reader back, and no connection is lost while
-- the reader is opening.

def Writer.SetsForward (c : Writer) : Event Thread Task Environment → Prop
  | .run i env => ∀ task ∈ (c.threads i).head?, task.SetsForward env c.state
  | .start _ _ => True

def Writer.FindsOpen (c : Writer) : Event Thread Task Environment → Prop
  | .run i _   => ∀ task ∈ (c.threads i).head?, task.FindsOpen c.state
  | .start _ _ => True

def Writer.KeepsOrder (c : Writer) (ev : Event Thread Task Environment) : Prop :=
  c.SetsForward ev ∧ c.FindsOpen ev

def Writer.KeepsStatus (c : Writer) (ev : Event Thread Task Environment) (c' : Writer) : Prop :=
  match ev with
  | .run i _   => ∀ task ∈ (c.threads i).head?, task.KeepsStatus c.state c'.state
  | .start _ _ => c.state.Forward c'.state

theorem Writer.step_keepsStatus {c c' : Writer} {ev : Event Thread Task Environment}
    (h : Step writer c ev c') : c.KeepsStatus ev c' ↔ c.KeepsOrder ev := by
  cases h with
  | run thread ready exec =>
    have := execTask_keepsStatus exec
    simp only [KeepsStatus, KeepsOrder, SetsForward, FindsOpen, thread, List.head?_cons,
      Option.mem_def, Option.some.injEq, forall_eq', this]
  | start idle begins => exact ⟨fun _ => ⟨trivial, trivial⟩, fun _ => .of_eq rfl⟩

theorem Writer.KeepsStatus.forward {c c' : Writer} {ev : Event Thread Task Environment}
    (h : Step writer c ev c') (hk : c.KeepsStatus ev c') : c.state.Forward c'.state := by
  cases h with
  | run thread ready exec => exact (hk _ (by rw [thread]; rfl)).forward
  | start idle begins => exact hk

-- In a run that meets the condition the status of every reader only moves forward, and nothing is
-- put on the sent list of one that is gone. A step keeps to this, and to what is expected of a lost
-- connection, exactly if it meets the condition.
theorem readerStatus_forward {c c' : Writer} (h : Reaches writer Writer.KeepsOrder c c') :
    c.state.Forward c'.state ∧
      ∀ (ev : Event Thread Task Environment) (c'' : Writer), Step writer c' ev c'' →
        (c'.KeepsStatus ev c'' ↔ c'.KeepsOrder ev) := by
  refine ⟨?_, fun ev c'' => Writer.step_keepsStatus⟩
  refine (h.relation (R := fun c c' : Writer => c.state.Forward c'.state) (I := fun _ => True)
    trivial (fun c => .of_eq rfl) .trans fun _ hc hstep => ⟨trivial, ?_⟩).left
  exact Writer.KeepsStatus.forward hstep ((Writer.step_keepsStatus hstep).mpr hc)

instance (env : Environment) (s : Stream) (task : Task) : Decidable (task.SetsForward env s) := by
  unfold Task.SetsForward
  split <;> infer_instance

instance (c : Writer) (ev : Event Thread Task Environment) : Decidable (c.SetsForward ev) := by
  unfold Writer.SetsForward
  split <;> infer_instance

instance (s : Stream) (task : Task) : Decidable (task.FindsOpen s) := by
  unfold Task.FindsOpen
  split <;> infer_instance

instance (c : Writer) (ev : Event Thread Task Environment) : Decidable (c.FindsOpen ev) := by
  unfold Writer.FindsOpen
  split <;> infer_instance

instance (c : Writer) (ev : Event Thread Task Environment) : Decidable (c.KeepsOrder ev) :=
  inferInstanceAs (Decidable (_ ∧ _))

-- A writer that has one reader.
def Writer.established : Writer :=
  (writer.follow Writer.KeepsOrder (Writer.opening .simple) establishment).get (by decide +kernel)

-- The reader fails while a timestep is sent to it, and is closed later.
theorem readerStatus_forward_failing : ∃ c : Writer,
    c.state.readers.map (·.readerStatus) = [.peerClosed] ∧
    Writer.established.state.Forward c.state ∧
      ∀ (ev : Event Thread Task Environment) (c' : Writer), Step writer c ev c' →
        (c.KeepsStatus ev c' ↔ c.KeepsOrder ev) := by
  have ⟨c, hreach, hc⟩ := Reaches.exists_of_follow (P := writer) (C := Writer.KeepsOrder)
    (c := Writer.established) (decision 0 ++ List.replicate 5 mainRuns ++
      received (.connClose 0) ++ List.replicate 3 (.run .network .calm) ++
      received (.closeWSRStream 0))
    (fun c => c.state.readers.map (·.readerStatus) = [.peerClosed]) (by decide +kernel)
  exact ⟨c, of_decide_eq_true hc, readerStatus_forward hreach⟩

-- The connection of the reader is lost behind the decision about a timestep.
def Writer.failed : Writer :=
  (writer.follow (fun _ _ => True) (Writer.opening .simple)
    (establishment ++ decision 0 ++ received (.connClose 0))).get (by decide +kernel)

-- The connection of the reader is lost while the writer waits for it.
def Writer.lost : Writer :=
  (writer.follow (fun _ _ => True) (Writer.opening .simple)
    (registration ++ [.start .network [.connClose 0]])).get (by decide +kernel)

-- A reader that has failed is set to established again, and one that is opening when its connection
-- is lost goes on opening.
theorem readerStatus_not_forward :
    (Reaches writer (fun _ _ => True) (Writer.opening .simple) Writer.failed ∧
      Writer.failed.state.readers.map (·.readerStatus) = [.peerFailed] ∧
      ∃ c : Writer, Reaches writer (fun _ _ => True) Writer.failed c ∧
        c.state.readers.map (·.readerStatus) = [.established]) ∧
    Reaches writer (fun _ _ => True) (Writer.opening .simple) Writer.lost ∧
      Writer.lost.state.readers.map (·.readerStatus) = [.opening] ∧
      ∃ c : Writer, Step writer Writer.lost (.run .network .calm) c ∧
        c.state.readers.map (·.readerStatus) = [.opening] := by
  refine ⟨⟨?_, ?_, ?_⟩, ?_, ?_, ?_⟩
  · exact .of_follow (Option.some_get _).symm
  · decide +kernel
  · have ⟨c, hreach, hc⟩ := Reaches.exists_of_follow (P := writer) (C := fun _ _ => True)
      (c := Writer.failed) [mainRuns]
      (fun c => c.state.readers.map (·.readerStatus) = [.established]) (by decide +kernel)
    exact ⟨c, hreach, of_decide_eq_true hc⟩
  · exact .of_follow (Option.some_get _).symm
  · decide +kernel
  · have ⟨c, hnext, hc⟩ := (Option.any_eq_true _ _).mp
      (show (writer.next (fun _ _ => True) Writer.lost (.run .network .calm)).any
        (fun c => c.state.readers.map (·.readerStatus) = [.opening]) = true by decide +kernel)
    exact ⟨c, (Program.step_of_next hnext).right, of_decide_eq_true hc⟩

end Sst
