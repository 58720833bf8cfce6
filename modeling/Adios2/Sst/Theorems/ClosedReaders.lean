import Adios2.Sst.Theorems.ReaderStatus

-- Readers that have failed or are closed, as long as no status is set back. What a reader is given up
-- with is done for such readers only, and the others are connected.

namespace Sst

open Threads

variable {s s' : Stream} {env : Environment} {ts : List Task}

-- Reader `r` has failed or is closed.
def Stream.GoneAt (s : Stream) (r : Nat) : Prop :=
  ∃ i, s.readers[r]? = some i ∧ i.Gone

theorem Stream.Forward.goneAt (h : s.Forward s') {r : Nat} (hg : s.GoneAt r) : s'.GoneAt r := by
  have ⟨i, hi, hg⟩ := hg
  have ⟨i', hi', hf⟩ := h r i hi
  refine ⟨i', hi', ?_⟩
  have := hf.stage
  have := i'.readerStatus.stage_le
  unfold ReaderInfo.Gone at hg ⊢
  omega

-- The reader that a task gives up.
def Task.ends : Task → Option Nat
  | .derefAllSentTimesteps r _ | .peerFailCloseRest r _ => some r
  | _ => none

-- Only readers that are gone are given up.
def Stream.EndsGone (s : Stream) (ts : List Task) : Prop :=
  ∀ a ∈ ts, ∀ r ∈ a.ends, s.GoneAt r

theorem Stream.EndsGone.of_none (h : ∀ a ∈ ts, a.ends = none) : s.EndsGone ts := by
  intro a ha r hr
  rw [h a ha] at hr
  cases hr

theorem Stream.EndsGone.append {ts' : List Task} (h : s.EndsGone ts) (h' : s.EndsGone ts') :
    s.EndsGone (ts ++ ts') :=
  List.forall_mem_append.mpr ⟨h, h'⟩

theorem derefAllFrom_ends {reader : ReaderInfo} {r : Nat} {list : Option Int} :
    ∀ a ∈ (derefAllFrom s reader r list).2, a.ends = some r := by
  unfold derefAllFrom
  split <;> simp [Task.ends]

theorem peerFailCloseWSReader_ends {r : Nat} {st : StreamStatus}
    (h : peerFailCloseWSReader s r st = .ok (s', ts)) : s'.EndsGone ts := by
  have hall := h
  unfold peerFailCloseWSReader at h
  obtain ⟨reader, hreader, h⟩ := Outcome.bind_eq_ok.mp h
  split at h
  case isTrue =>
    cases h
    simp [Stream.EndsGone]
  case isFalse hne =>
    have ⟨hs, hst⟩ := not_or.mp hne
    have hstatus := peerFailCloseWSReader_readerStatus hall (Stream.reader_eq_ok.mp hreader)
      (not_not.mp hs) hst
    have ⟨i', hi', hi'st⟩ := Option.map_eq_some_iff.mp hstatus
    split at h
    case isTrue hgone =>
      obtain rfl : _ = ts := congrArg Prod.snd (Except.ok.inj h)
      have hr : s'.GoneAt r := by
        refine ⟨i', hi', ?_⟩
        unfold ReaderInfo.Gone
        rw [hi'st]
        rcases hgone with rfl | rfl | rfl <;> rfl
      refine .append (fun a ha k hk => ?_) ?_
      · rw [derefAllFrom_ends a ha] at hk
        cases hk
        exact hr
      · simpa [Stream.EndsGone, Task.ends] using hr
    case isFalse =>
      cases h
      simp [Stream.EndsGone]

theorem peerFailCloseThen_ends {r : Nat} {st : StreamStatus} {rest : List Task}
    (h : peerFailCloseThen s r st rest = .ok (s', ts)) (hrest : ∀ a ∈ rest, a.ends = none) :
    s'.EndsGone ts := by
  obtain ⟨⟨s₁, ts₁⟩, h₁, h⟩ := Outcome.bind_eq_ok.mp h
  cases h
  exact (peerFailCloseWSReader_ends h₁).append (.of_none hrest)

-- Tasks that can give up a reader.
def Task.Closes : Task → Prop
  | .derefAllSentTimesteps _ _ | .cmWrite _ _ _ | .connClose _ | .readerClose _
  | .closeWSRStream _ | .processReaderStatusList _ _ => True
  | _ => False

theorem provideTasks_ends {t : Int} {info : ReturnMetadataInfo} :
    ∀ a ∈ provideTasks s t info, a.ends = none := by
  unfold provideTasks
  cases s.stepDistributionMode <;> split <;> split <;> simp [Task.ends]

theorem participateInReaderOpen_ends {rest failed : List Task}
    (h : participateInReaderOpen env s rest failed = .ok (s', ts))
    (hrest : ∀ a ∈ rest, a.ends = none) (hfailed : ∀ a ∈ failed, a.ends = none) :
    ∀ a ∈ ts, a.ends = none := by
  unfold participateInReaderOpen at h
  split at h
  case isTrue => cases h
  case isFalse =>
    dsimp only at h
    split at h
    case isTrue =>
      cases h
      have hwait (c : Prop) [Decidable c] (r : Nat) :
          (if c then Task.waitForReader r else .adoptReaderStatus r).ends = none := by
        split <;> rfl
      exact List.forall_mem_cons.mpr ⟨hwait _ _, hrest⟩
    case isFalse =>
      cases h
      exact hfailed

theorem sendTimestepEntryToSingleReader_ends {t : Int} {r : Nat}
    (h : sendTimestepEntryToSingleReader s t r = .ok (s', ts)) : ∀ a ∈ ts, a.ends = none := by
  have ⟨i, _, h⟩ := sendTimestepEntryToSingleReader_eq_ok h
  obtain ⟨_, _, rfl⟩ | ⟨_, _, _, rfl⟩ := h <;> simp [Task.ends]

theorem execTask_ends_eq_none {task : Task} (h : execTask env task s = .ok (s', ts))
    (hc : ¬ task.Closes) : ∀ a ∈ ts, a.ends = none := by
  cases task
  all_goals first | exact absurd trivial hc | skip
  case rendezvous count =>
    cases count with
    | zero =>
      cases h
      simp
    | succ count => exact participateInReaderOpen_ends h (by simp [Task.ends]) (by simp [Task.ends])
  case acceptReaders count =>
    cases count with
    | zero =>
      cases h
      simp
    | succ count => exact participateInReaderOpen_ends h (by simp [Task.ends]) (by simp)
  case decideTimestep | waitForRoom | returnedTimestep =>
    dsimp only [execTask] at h
    try split at h
    all_goals
      obtain rfl : _ = ts := congrArg Prod.snd (Except.ok.inj h)
      first
      | exact provideTasks_ends
      | simp [Task.ends]
  case sendToReaders | sendRoundRobin | sendOnDemand | sendQueued | readerRequestStep =>
    dsimp only [execTask] at h
    repeat' first
      | split at h
      | obtain ⟨⟨_, _⟩, hsend, h⟩ := Outcome.bind_eq_ok.mp h
      | obtain ⟨_, _, h⟩ := Outcome.bind_eq_ok.mp h
    all_goals
      cases h <;> first
      | (refine List.forall_mem_append.mpr ⟨sendTimestepEntryToSingleReader_ends hsend, ?_⟩
         simp [Task.ends])
      | simp
  all_goals
    dsimp only [execTask] at h
    repeat' first
      | split at h
      | obtain ⟨_, _, h⟩ := Outcome.bind_eq_ok.mp h
    all_goals cases h <;> simp [sendCloseMsgs, Task.ends]

theorem execTask_ends {task : Task} (h : execTask env task s = .ok (s', ts))
    (hf : task.SetsForward env s) (hg : ∀ r ∈ task.ends, s.GoneAt r) : s'.EndsGone ts := by
  by_cases hc : task.Closes
  case neg => exact .of_none (execTask_ends_eq_none h hc)
  have hforward := execTask_forward h hf
  cases task with
  | derefAllSentTimesteps r list =>
    obtain ⟨reader, hreader, h⟩ := Outcome.bind_eq_ok.mp h
    split at h
    case isTrue =>
      obtain rfl : _ = ts := congrArg Prod.snd (Except.ok.inj h)
      intro a ha k hk
      rw [derefAllFrom_ends a ha] at hk
      cases hk
      exact hforward.goneAt (hg r rfl)
    case isFalse => cases h
  | cmWrite r peer msg =>
    dsimp only [execTask] at h
    split at h
    case isFalse => cases h
    case isTrue =>
      split at h
      case isTrue =>
        cases h
        exact .of_none (by simp [Task.ends])
      case isFalse => exact peerFailCloseThen_ends h (by simp [Task.ends])
  | connClose r =>
    obtain ⟨reader, _, h⟩ := Outcome.bind_eq_ok.mp h
    split at h
    · cases h
      exact .of_none (by simp)
    · split at h
      · exact peerFailCloseThen_ends h (by simp [Task.ends])
      all_goals
        cases h
        exact .of_none (by simp)
  | readerClose r =>
    dsimp only [execTask] at h
    split at h
    case isTrue => exact peerFailCloseWSReader_ends h
    case isFalse =>
      cases h
      exact .of_none (by simp)
  | closeWSRStream r => exact peerFailCloseWSReader_ends h
  | processReaderStatusList r l =>
    cases l with
    | nil =>
      cases h
      exact .of_none (by simp)
    | cons st l =>
      obtain ⟨reader, _, h⟩ := Outcome.bind_eq_ok.mp h
      split at h
      case isTrue =>
        cases h
        exact .of_none (by simp [Task.ends])
      case isFalse => exact peerFailCloseThen_ends h (by simp [Task.ends])
  | _ => exact absurd hc id

def Writer.EndsGone (c : Writer) : Prop :=
  ∀ i, c.state.EndsGone (c.threads i)

theorem Writer.EndsGone.opening (p : Parameters) : (Writer.opening p).EndsGone := by
  intro i
  cases i <;> exact .of_none (by simp [Writer.opening, Task.ends])

theorem Writer.EndsGone.step {c c' : Writer} {ev : Event Thread Task Environment}
    (h : Step writer c ev c') (hc : c.EndsGone) (hf : c.SetsForward ev) : c'.EndsGone := by
  intro k
  cases h with
  | @start i ts idle hbegins =>
    by_cases hk : k = i
    case neg => simpa [hk] using hc k
    case pos =>
      have hbegins : Begins i c.state ts := hbegins
      simp only [hk, Function.update_self]
      unfold Begins at hbegins
      split at hbegins <;> first | contradiction | exact .of_none (by simp [Task.ends])
  | @run i env task rest ts s' thread ready exec =>
    have exec : execTask env task c.state = .ok (s', ts) := exec
    have hf := hf task (by rw [thread]; rfl)
    have hforward := execTask_forward exec hf
    have hkeep (l : List Task) (h : c.state.EndsGone l) : s'.EndsGone l :=
      fun a ha r hr => hforward.goneAt (h a ha r hr)
    have hi := hc i
    rw [thread] at hi
    by_cases hk : k = i
    case neg => simpa [hk] using hkeep _ (hc k)
    case pos =>
      simp only [hk, Function.update_self]
      refine .append (execTask_ends exec hf (hi task List.mem_cons_self)) (hkeep rest ?_)
      exact fun a ha => hi a (List.mem_cons_of_mem _ ha)

-- A reader that is not gone is connected.
def Stream.Connected (s : Stream) : Prop :=
  ∀ i ∈ s.readers, i.Gone ∨ i.connected = true

theorem Operation.connected {task : Task} {forward : Prop} (h : Operation task forward s s')
    (hf : forward) (hs : s.Connected) (hg : ∀ r ∈ task.ends, s.GoneAt r) : s'.Connected := by
  have hmodify {r : Nat} {f : ReaderInfo → ReaderInfo}
      (hr : ∀ i, s.readers[r]? = some i → (f i).Gone ∨ (f i).connected = true) :
      (s.modifyReader r f).Connected := by
    intro i hi
    have ⟨k, hk⟩ := List.mem_iff_getElem?.mp hi
    rw [Stream.modifyReader_readers, List.getElem?_modify] at hk
    have ⟨j, hj, hji⟩ := Option.map_eq_some_iff.mp hk
    split at hji
    case isTrue heq => exact hji ▸ hr j (heq ▸ hj)
    case isFalse => exact hji ▸ hs j (List.mem_of_getElem? hj)
  have hgone {i i' : ReaderInfo} (hi : i.Gone) (h : i.readerStatus.stage ≤ i'.readerStatus.stage) :
      i'.Gone := by
    have := i'.readerStatus.stage_le
    unfold ReaderInfo.Gone at hi ⊢
    omega
  cases h with
  | beside h => exact fun i hi => hs i (h.readers ▸ hi)
  | insert | entries => exact hs
  | maintain =>
    intro i hi
    rw [queueMaintenance_readers] at hi
    exact hs i hi
  | @reader r f h =>
    refine hmodify fun i hi => ?_
    by_cases hends : ∃ st, task = .peerFailCloseRest r st
    case pos =>
      obtain ⟨st, rfl⟩ := hends
      have ⟨j, hj, hjg⟩ := hg r rfl
      rw [hi] at hj
      cases hj
      exact .inl (hgone hjg ((h i).status ▸ le_rfl))
    case neg =>
      rw [(h i).connected (not_exists.mp hends)]
      exact (hs i (List.mem_of_getElem? hi)).imp_left fun hi => hgone hi ((h i).status ▸ le_rfl)
  | status h =>
    exact hmodify fun i hi => (hs i (List.mem_of_getElem? hi)).imp_left fun hg => hgone hg (h hf i hi)
  | join _ _ connected =>
    exact List.forall_mem_append.mpr ⟨hs, List.forall_mem_singleton.mpr (.inr connected)⟩
  | deref r t =>
    exact hmodify fun i hi => hs i (List.mem_of_getElem? hi)
  | deliver r t => exact hmodify fun i hi => hs i (List.mem_of_getElem? hi)

theorem Operations.connected {task : Task} {forward : Prop} (h : Operations task forward s s')
    (hf : forward) (hs : s.Connected) (hg : ∀ r ∈ task.ends, s.GoneAt r) : s'.Connected := by
  induction h with
  | refl => exact hs
  | tail hops op ih => exact op.connected hf ih fun r hr => (Operations.forward hops hf).goneAt (hg r hr)

end Sst
