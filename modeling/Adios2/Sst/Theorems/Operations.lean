import Adios2.Sst.Theorems.Maintenance
import Adios2.Lib.Lists

-- A task is a sequence of few operations on the stream.

namespace Sst

open Threads Relation

-- How far a reader has come.
def StreamStatus.stage : StreamStatus → Nat
  | .notOpen     => 0
  | .opening     => 1
  | .established => 2
  | .peerClosed | .peerFailed | .closed | .destroyed => 3

theorem StreamStatus.stage_le (st : StreamStatus) : st.stage ≤ 3 := by
  cases st <;> decide

-- A reader that has failed or is closed.
def ReaderInfo.Gone (i : ReaderInfo) : Prop :=
  i.readerStatus.stage = 3

-- The timesteps that stand on the sent list of a reader.
def Stream.sentTo (s : Stream) (r : Nat) : List Int :=
  (s.readers[r]?.map (·.sentTimestepList)).getD []

namespace Task

-- A task that sets the status of a reader does not set it back.
def SetsForward (env : Environment) (s : Stream) : Task → Prop
  | .processReaderStatusList r (st :: _) => s.status = .established →
    ∀ i ∈ s.readers[r]?, i.readerStatus.stage ≤ st.stage
  | .readerActivate r    => ∀ i ∈ s.readers[r]?, i.readerStatus.stage ≤ StreamStatus.established.stage
  | .adoptReaderStatus r => ∀ i ∈ s.readers[r]?, i.readerStatus.stage ≤ env.readerStatus.stage
  | _                    => True

-- Tasks that put a timestep on a sent list.
def Delivers : Task → Prop
  | .sendToReaders _ _ | .sendRoundRobin _ | .sendOnDemand _ | .sendQueued _ _
  | .readerRequestStep _ => True
  | _ => False

-- Tasks that have to do with the distribution of steps.
def Distributes : Task → Prop
  | .sendRoundRobin _ | .nextRoundRobin _ | .sendOnDemand _ | .readerRequestStep _
  | .closeMessagesSent | .writerClose | .writerCloseDrain => True
  | _ => False

-- Tasks that change the reference counts of timesteps otherwise than with a sent list.
def Counts : Task → Prop
  | .discardTimestep _ | .providedTimestep _ | .processReleaseList _ | .replayReleases => True
  | _ => False

-- Tasks that replay releases.
def Replays : Task → Prop
  | .processReleaseList _ | .replayReleases => True
  | _ => False

-- Tasks that let timesteps expire otherwise than by maintenance.
def Expires : Task → Prop
  | .discardTimestep _ | .writerCloseRest => True
  | _ => False

theorem Replays.counts {task : Task} (h : task.Replays) : task.Counts := by
  cases task <;> trivial

end Task

-- A stream that has put timestep `t` on the sent list of reader `r`.
def Stream.deliver (s : Stream) (r : Nat) (t : Int) (formats : Nat) : Stream :=
  let s := s.modifyEntry t fun e => { e with
    referenceCount    := e.referenceCount + 1
    metaDataSendCount := e.metaDataSendCount + 1 }
  let s := s.modifyReader r fun i => { i with
    lastSentTimestep := t
    sentTimestepList := i.sentTimestepList ++ [t]
    formatSentCount  := i.formatSentCount + formats }
  { s with deliveries := s.deliveries ++ [(r, t)] }

theorem sendTimestepEntryToSingleReader_eq_ok {s s' : Stream} {ts : List Task} {t : Int} {r : Nat}
    (h : sendTimestepEntryToSingleReader s t r = .ok (s', ts)) :
    ∃ i, s.readers[r]? = some i ∧
      (i.readerStatus ≠ .established ∧ s' = s ∧ ts = [] ∨
        i.readerStatus = .established ∧ t ∈ s.timesteps ∧
        s' = s.deliver r t (s.previousFormats.drop i.formatSentCount).length ∧
        ts = [.sendEntryMsg r t (s.previousFormats.drop i.formatSentCount)]) := by
  obtain ⟨i, hi, h⟩ := Outcome.bind_eq_ok.mp h
  refine ⟨i, Stream.reader_eq_ok.mp hi, ?_⟩
  split at h
  case isTrue hst =>
    obtain ⟨e, he, h⟩ := Outcome.bind_eq_ok.mp h
    cases h
    refine .inr ⟨hst, Stream.findEntry_isSome.mp ?_, rfl, rfl⟩
    rw [Option.orUndefined_eq_ok.mp he]
    rfl
  case isFalse hst =>
    cases h
    exact .inl ⟨hst, rfl, rfl⟩

-- A change that leaves the queue and the readers alone.
structure Stream.Beside (task : Task) (s s' : Stream) : Prop where
  queue      : s'.queuedTimesteps = s.queuedTimesteps
  readers    : s'.readers = s.readers
  rank       : s'.rank = s.rank
  pattern    : s'.cpCommPattern = s.cpCommPattern
  mode       : s'.stepDistributionMode = s.stepDistributionMode
  timestep   : s'.writerTimestep = s.writerTimestep
  provided   : s'.lastProvidedTimestep = s.lastProvidedTimestep
  deliveries : s'.deliveries = s.deliveries
  discarded  : s.discarded ⊆ s'.discarded
  status     : s.status = .established → s'.status = .established
  written    : s.written ⊆ s'.written
  writes     : (∀ r peer msg, task ≠ .cmWrite r peer msg) → s'.written = s.written
  demanded   : ¬ task.Delivers → s'.lastDemandTimestep = s.lastDemandTimestep
  requested  : (∀ r, task ≠ .readerRequestStep r) →
    s'.stepRequestQueue.Sublist s.stepRequestQueue ∧ s'.requests = s.requests
  demand     : ¬ task.Distributes → s'.stepRequestQueue = s.stepRequestQueue ∧
    s'.nextRRDistribution = s.nextRRDistribution ∧ s'.closeTimestepCount = s.closeTimestepCount ∧
    s'.closeMessagesSent = s.closeMessagesSent

theorem Stream.Beside.refl (task : Task) (s : Stream) : s.Beside task s where
  queue       := rfl
  readers     := rfl
  rank        := rfl
  pattern     := rfl
  mode        := rfl
  timestep    := rfl
  provided    := rfl
  deliveries  := rfl
  discarded   := List.Subset.refl _
  status      := id
  written     := List.Subset.refl _
  writes _    := rfl
  demanded _  := rfl
  requested _ := ⟨.refl _, rfl⟩
  demand _    := ⟨rfl, rfl, rfl, rfl⟩

-- A change of reader `r` that leaves its status and its sent list alone.
structure ReaderInfo.Beside (task : Task) (r : Nat) (i i' : ReaderInfo) : Prop where
  status    : i'.readerStatus = i.readerStatus
  sent      : i'.sentTimestepList = i.sentTimestepList
  peers     : i'.peers = i.peers
  connected : (∀ st, task ≠ .peerFailCloseRest r st) → i'.connected = i.connected
  released  : ¬ task.Replays → i'.lastReleasedTimestep = i.lastReleasedTimestep ∨
    task = .releaseTimestep r i'.lastReleasedTimestep

theorem ReaderInfo.Beside.refl (task : Task) (r : Nat) (i : ReaderInfo) :
    ReaderInfo.Beside task r i i where
  status       := rfl
  sent         := rfl
  peers        := rfl
  connected _  := rfl
  released _   := .inl rfl

-- The operations of a task. A status is not set back where `forward` holds.
inductive Operation (task : Task) (forward : Prop) : Stream → Stream → Prop
  | beside {s s' : Stream} (h : s.Beside task s') : Operation task forward s s'
  | insert {s : Stream} {e : TimestepEntry} (h : task = .queueTimestep e.timestep)
      (registered : e.dpRegistered = true) :
      Operation task forward s { s with
        writerTimestep       := e.timestep
        lastProvidedTimestep := e.timestep
        queuedTimesteps      := e :: s.queuedTimesteps }
  | entries {s : Stream} {f : TimestepEntry → TimestepEntry}
      (timestep : ∀ e, (f e).timestep = e.timestep)
      (registered : ∀ e, (f e).dpRegistered = e.dpRegistered)
      (progress : (∀ t, task ≠ .providedTimestep t) → ∀ e, (f e).inProgressFlag = e.inProgressFlag)
      (counts : ¬ task.Counts → ∀ e, (f e).referenceCount = e.referenceCount)
      (flags : ¬ task.Expires → ∀ e, (f e).expired = e.expired ∧
        (f e).preciousTimestep = e.preciousTimestep)
      (metadata : ∀ e, task ≠ .discardTimestep e.timestep → e.hasMetadata = true →
        (f e).hasMetadata = true) :
      Operation task forward s { s with queuedTimesteps := s.queuedTimesteps.map f }
  | maintain {s : Stream} : Operation task forward s (queueMaintenance s)
  | reader {s : Stream} {r : Nat} {f : ReaderInfo → ReaderInfo}
      (h : ∀ i, ReaderInfo.Beside task r i (f i)) : Operation task forward s (s.modifyReader r f)
  | status {s : Stream} {r : Nat} {st : StreamStatus}
      (h : forward → ∀ i ∈ s.readers[r]?, i.readerStatus.stage ≤ st.stage) :
      Operation task forward s (s.modifyReader r fun i => { i with readerStatus := st })
  | join {s : Stream} {i : ReaderInfo} (opening : i.readerStatus = .opening)
      (sent : i.sentTimestepList = []) (connected : i.connected = true)
      (released : i.lastReleasedTimestep = -1) :
      Operation task forward s { s with readers := s.readers ++ [i] }
  | deref {s : Stream} (r : Nat) (t : Int) (sent : t ∈ s.sentTo r)
      (why : task = .releaseTimestep r t ∨ (∃ list, task = .derefAllSentTimesteps r list) ∨
        ∃ i, s.readers[r]? = some i ∧ i.Gone) :
      Operation task forward s (derefSentTimestep s r t)
  | deliver {s : Stream} (r : Nat) (t : Int) (formats : Nat) (delivers : task.Delivers)
      (queued : t ∈ s.timesteps)
      (established : ∃ i, s.readers[r]? = some i ∧ i.readerStatus = .established) :
      Operation task forward s (s.deliver r t formats)

-- What a section under the lock does.
abbrev Operations (task : Task) (forward : Prop) : Stream → Stream → Prop :=
  ReflTransGen (Operation task forward)

namespace Operations

variable {s s' : Stream} {env : Environment} {task : Task} {forward : Prop} {ts : List Task}

theorem one (h : Operation task forward s s') : Operations task forward s s' :=
  .single h

theorem trans {s₁ s₂ s₃ : Stream} (h : Operations task forward s₁ s₂)
    (h' : Operations task forward s₂ s₃) : Operations task forward s₁ s₃ :=
  ReflTransGen.trans h h'

theorem beside (h : s.Beside task s') : Operations task forward s s' :=
  one (.beside h)

theorem maintain (h : Operations task forward s s') :
    Operations task forward s (queueMaintenance s') :=
  .tail h .maintain

theorem send {t : Int} {r : Nat} (hd : task.Delivers)
    (h : sendTimestepEntryToSingleReader s t r = .ok (s', ts)) : Operations task forward s s' := by
  have ⟨i, hi, h⟩ := sendTimestepEntryToSingleReader_eq_ok h
  obtain ⟨_, rfl, _⟩ | ⟨hst, hqueued, rfl, _⟩ := h
  · exact .refl
  · exact one (.deliver r t _ hd hqueued ⟨i, hi, hst⟩)

theorem modifyEntry (t : Int) {f : TimestepEntry → TimestepEntry}
    (timestep : ∀ e, (f e).timestep = e.timestep)
    (registered : ∀ e, (f e).dpRegistered = e.dpRegistered)
    (progress : (∀ t, task ≠ .providedTimestep t) → ∀ e, (f e).inProgressFlag = e.inProgressFlag)
    (counts : ¬ task.Counts → ∀ e, (f e).referenceCount = e.referenceCount)
    (flags : ¬ task.Expires → ∀ e, (f e).expired = e.expired ∧
      (f e).preciousTimestep = e.preciousTimestep)
    (metadata : task ≠ .discardTimestep t → ∀ e, e.hasMetadata = true →
      (f e).hasMetadata = true) :
    Operations task forward s (s.modifyEntry t f) := by
  refine one (.entries (fun e => ?_) (fun e => ?_) (fun hn e => ?_) (fun hn e => ?_)
    (fun hn e => ?_) fun e hn => ?_)
  all_goals split
  · exact timestep e
  · rfl
  · exact registered e
  · rfl
  · exact progress hn e
  · rfl
  · exact counts hn e
  · rfl
  · exact flags hn e
  · exact ⟨rfl, rfl⟩
  case isTrue het => exact metadata (het ▸ hn) e
  · exact id

theorem modifyReader (r : Nat) {f : ReaderInfo → ReaderInfo}
    (h : ∀ i, ReaderInfo.Beside task r i (f i)) :
    Operations task forward s (s.modifyReader r f) :=
  one (.reader h)

theorem distributeDecision (s : Stream) (t : Int) (discard arriving : Bool)
    (xmitFormats : List FormatID) :
    Operations task forward s (distributeDecision s t discard arriving xmitFormats).1 := by
  unfold Sst.distributeDecision
  refine trans (beside ?_) (modifyEntry t ?_ ?_ ?_ ?_ ?_ ?_)
  · exact { Stream.Beside.refl _ s with discarded := List.subset_ite_append }
  · exact fun _ => rfl
  · exact fun _ => rfl
  · exact fun _ _ => rfl
  · exact fun _ _ => rfl
  · exact fun _ _ => ⟨rfl, rfl⟩
  · exact fun _ _ _ => rfl

theorem derefAllFrom {reader : ReaderInfo} {r : Nat} {list : Option Int}
    (hsent : ∀ t ∈ reader.sentTimestepList, t ∈ s.sentTo r)
    (why : (∃ list, task = .derefAllSentTimesteps r list) ∨
      ∃ i, s.readers[r]? = some i ∧ i.Gone) :
    Operations task forward s (derefAllFrom s reader r list).1 := by
  unfold Sst.derefAllFrom
  split
  case h_1 => exact .refl
  case h_2 t ht =>
    refine .single (.deref _ t (hsent t ?_) (.inr why))
    have ⟨_, _, ht⟩ := Option.bind_eq_some_iff.mp ht
    have ⟨e, he, het⟩ := Option.map_eq_some_iff.mp ht
    have := List.find?_some he
    exact het ▸ of_decide_eq_true this

theorem peerFailCloseWSReader {r : Nat} {st : StreamStatus}
    (h : peerFailCloseWSReader s r st = .ok (s', ts))
    (hst : forward → s.status = .established → ∀ i ∈ s.readers[r]?, i.readerStatus.stage ≤ st.stage) :
    Operations task forward s s' := by
  unfold Sst.peerFailCloseWSReader at h
  obtain ⟨reader, hreader, h⟩ := Outcome.bind_eq_ok.mp h
  rw [Stream.reader_eq_ok] at hreader
  split at h
  case isTrue =>
    cases h
    exact .refl
  case isFalse hne =>
    have hset : Operation task forward s _ := .status (r := r) fun hf => hst hf (by tauto)
    split at h
    case isTrue hgone =>
      obtain rfl : _ = s' := congrArg Prod.fst (Except.ok.inj h)
      refine (one hset).trans (derefAllFrom (fun t ht => ?_) (.inr ?_))
      · simp [Stream.sentTo, hreader, ht]
      · refine ⟨{ reader with readerStatus := st }, by simp [hreader], ?_⟩
        rcases hgone with rfl | rfl | rfl <;> rfl
    case isFalse =>
      cases h
      exact maintain (one hset)

theorem peerFailCloseThen {r : Nat} {st : StreamStatus} {rest : List Task}
    (h : peerFailCloseThen s r st rest = .ok (s', ts))
    (hst : forward → s.status = .established → ∀ i ∈ s.readers[r]?, i.readerStatus.stage ≤ st.stage) :
    Operations task forward s s' := by
  obtain ⟨⟨s₁, ts₁⟩, h₁, h⟩ := Outcome.bind_eq_ok.mp h
  cases h
  exact peerFailCloseWSReader h₁ hst

theorem participateInReaderOpen {rest failed : List Task}
    (h : participateInReaderOpen env s rest failed = .ok (s', ts)) :
    Operations task forward s s' := by
  unfold Sst.participateInReaderOpen at h
  split at h
  case isTrue => cases h
  case isFalse =>
    dsimp only at h
    have hreg : s.Beside task { s with readerRegisterQueue := s.readerRegisterQueue - 1 } :=
      { Stream.Beside.refl task s with }
    split at h
    case isTrue =>
      cases h
      exact (beside hreg).trans (one (.join rfl rfl rfl rfl))
    case isFalse =>
      cases h
      exact beside hreg

theorem processReleases {list : List (Nat × Int)} (hc : task.Replays)
    (h : processReleases s list = .ok s') : Operations task forward s s' := by
  unfold Sst.processReleases at h
  induction list generalizing s with
  | nil =>
    cases h
    exact .refl
  | cons rt list ih =>
    rw [List.foldlM_cons] at h
    obtain ⟨s₁, h₁, h⟩ := Outcome.bind_eq_ok.mp h
    refine trans ?_ (ih h)
    dsimp only at h₁
    split at h₁
    case isTrue =>
      obtain ⟨_, _, h₁⟩ := Outcome.bind_eq_ok.mp h₁
      cases h₁
      refine (modifyReader rt.1 fun i => ?_).trans
        (modifyEntry rt.2 (fun _ => by rfl) (fun _ => by rfl) (fun _ _ => by rfl)
          (fun hn => absurd (Task.Replays.counts hc) hn) (fun _ _ => ⟨by rfl, by rfl⟩) fun _ _ => id)
      exact { ReaderInfo.Beside.refl task rt.1 i with released := fun hn => absurd hc hn }
    case isFalse =>
      cases h₁
      exact .refl

end Operations

variable {s s' : Stream} {env : Environment} {ts : List Task}

theorem firstRequest_sublist {requests rest : List Nat} {request : Option Nat}
    (h : firstRequest s requests = .ok (request, rest)) : rest.Sublist requests := by
  induction requests with
  | nil =>
    cases h
    exact .refl _
  | cons r requests ih =>
    obtain ⟨reader, _, h⟩ := Outcome.bind_eq_ok.mp h
    split at h
    case isTrue =>
      cases h
      exact List.sublist_cons_self r _
    case isFalse => exact (ih h).cons r

theorem execTask_operations {task : Task} (h : execTask env task s = .ok (s', ts)) :
    Operations task (task.SetsForward env s) s s' := by
  cases task with
  | derefAllSentTimesteps r list =>
    obtain ⟨reader, hreader, h⟩ := Outcome.bind_eq_ok.mp h
    rw [Stream.reader_eq_ok] at hreader
    split at h
    case isTrue =>
      obtain rfl : _ = s' := congrArg Prod.fst (Except.ok.inj h)
      exact .derefAllFrom (fun t ht => by simp [Stream.sentTo, hreader, ht]) (.inl ⟨list, rfl⟩)
    case isFalse => cases h
  | peerFailCloseRest r st =>
    cases h
    refine .maintain (.trans (.modifyReader r (f := fun i => { i with
      oldestUnreleasedTimestep := i.lastSentTimestep + 1
      connected                := false }) fun i =>
        { ReaderInfo.Beside.refl (.peerFailCloseRest r st) r i with
          connected := fun hn => absurd rfl (hn st) }) (.beside ?_))
    split
    case isTrue => exact { Stream.Beside.refl _ _ with }
    case isFalse => exact .refl _ _
  | sendEntryMsg r t formats =>
    obtain ⟨reader, _, h⟩ := Outcome.bind_eq_ok.mp h
    split at h
    case isTrue =>
      obtain ⟨e, _, h⟩ := Outcome.bind_eq_ok.mp h
      cases h
      exact .refl
    case isFalse =>
      cases h
      exact .refl
  | sendOneToWSRCohort r peer msg =>
    obtain ⟨reader, _, h⟩ := Outcome.bind_eq_ok.mp h
    split at h
    · split at h <;> cases h <;> exact .refl
    · cases h
      exact .refl
  | cmWrite r peer msg =>
    dsimp only [execTask] at h
    split at h
    case isFalse => cases h
    case isTrue =>
      split at h
      case isTrue =>
        cases h
        exact .beside { Stream.Beside.refl (.cmWrite r peer msg) s with
          written := List.subset_append_left _ _
          writes  := fun hn => absurd rfl (hn r peer msg) }
      case isFalse => exact .peerFailCloseThen h fun _ _ i _ => i.readerStatus.stage_le
  | sendOneToEachReaderRank r msg =>
    dsimp only [execTask] at h
    split at h
    · cases h
      exact .refl
    · split at h <;> cases h <;> exact .refl
  | closeMessagesSent =>
    cases h
    exact .beside { Stream.Beside.refl .closeMessagesSent s with
      demand := fun hn => absurd trivial hn }
  | connClose r =>
    obtain ⟨reader, _, h⟩ := Outcome.bind_eq_ok.mp h
    split at h
    · cases h
      exact .refl
    · split at h
      · exact .peerFailCloseThen h fun _ _ i _ => i.readerStatus.stage_le
      all_goals
        cases h
        first
        | exact .refl
        | exact .one .maintain
  | readerClose r =>
    dsimp only [execTask] at h
    split at h
    case isTrue => exact .peerFailCloseWSReader h fun _ _ i _ => i.readerStatus.stage_le
    case isFalse =>
      cases h
      exact .refl
  | closeWSRStream r =>
    refine .trans (.beside ?_) (.peerFailCloseWSReader h fun _ _ i _ => i.readerStatus.stage_le)
    exact { Stream.Beside.refl _ _ with }
  | readerRegister =>
    cases h
    exact .beside { Stream.Beside.refl _ _ with }
  | readerActivate r =>
    obtain ⟨reader, _, h⟩ := Outcome.bind_eq_ok.mp h
    cases h
    exact .one (.status id)
  | adoptReaderStatus r =>
    obtain ⟨reader, _, h⟩ := Outcome.bind_eq_ok.mp h
    cases h
    exact .one (.status id)
  | readerRequestStep r =>
    dsimp only [execTask] at h
    split at h
    case isTrue => cases h
    case isFalse =>
      split at h
      · cases h
        exact .refl
      · obtain ⟨reader, _, h⟩ := Outcome.bind_eq_ok.mp h
        split at h
        · split at h
          · obtain ⟨⟨s₁, ts₁⟩, h₁, h⟩ := Outcome.bind_eq_ok.mp h
            cases h
            refine .trans (.beside ?_) (.send trivial h₁)
            exact { Stream.Beside.refl (.readerRequestStep r) s with
              demanded  := fun hn => absurd trivial hn
              requested := fun hn => absurd rfl (hn r)
              demand    := fun hn => absurd trivial hn }
          · cases h
            exact .beside { Stream.Beside.refl (.readerRequestStep r) s with
              requested := fun hn => absurd rfl (hn r)
              demand    := fun hn => absurd trivial hn }
        · cases h
          exact .beside { Stream.Beside.refl (.readerRequestStep r) s with
            requested := fun hn => absurd rfl (hn r)
            demand    := fun hn => absurd trivial hn }
  | releaseTimestep r t =>
    dsimp only [execTask] at h
    split at h
    case isTrue =>
      cases h
      exact .refl
    case isFalse =>
      obtain ⟨reader, hreader, h⟩ := Outcome.bind_eq_ok.mp h
      rw [Stream.reader_eq_ok] at hreader
      cases h
      have hset : Operations (.releaseTimestep r t) True s
          (s.modifyReader r fun i => { i with lastReleasedTimestep := t }) :=
        .modifyReader r fun i => { ReaderInfo.Beside.refl (.releaseTimestep r t) r i with
          released := fun _ => .inr rfl }
      have hlist : Operations (.releaseTimestep r t) True s
          (if s.rank = 0 ∧ s.cpCommPattern = .min then
            { s.modifyReader r fun i => { i with lastReleasedTimestep := t } with
              releaseList := s.releaseList ++ [(r, t)] }
          else s.modifyReader r fun i => { i with lastReleasedTimestep := t }) := by
        refine hset.trans (.beside ?_)
        split
        case isTrue => exact { Stream.Beside.refl _ _ with }
        case isFalse => exact .refl _ _
      split
      case isTrue hsent =>
        refine hlist.trans (.one (.deref r t ?_ (.inl rfl)))
        split <;> simpa [Stream.sentTo, hreader] using hsent
      case isFalse => exact hlist
  | releaseTimestepRest r t =>
    cases h
    exact .trans (.one .maintain)
      (.modifyReader r fun i => by exact { ReaderInfo.Beside.refl _ r i with })
  | queueMaintenance =>
    cases h
    exact .one .maintain
  | queueTimestep t =>
    cases h
    exact .one (.insert rfl rfl)
  | decideTimestep t =>
    dsimp only [execTask] at h
    split at h
    · obtain rfl : _ = s' := congrArg Prod.fst (Except.ok.inj h)
      exact .trans (.maintain (.one .maintain)) (.distributeDecision _ _ _ _ _)
    · cases h
      exact .one .maintain
  | waitForRoom t arriving =>
    obtain rfl : _ = s' := congrArg Prod.fst (Except.ok.inj h)
    exact .distributeDecision _ _ _ _ _
  | returnedTimestep t =>
    cases h
    refine .trans (.beside ?_) (.modifyEntry t (fun _ => rfl) (fun _ => rfl)
      (fun _ _ => rfl) (fun _ _ => rfl) (fun _ _ => ⟨rfl, rfl⟩) fun _ _ _ => rfl)
    exact { Stream.Beside.refl _ s with discarded := List.subset_ite_append }
  | processReaderStatusList r list =>
    cases list with
    | nil =>
      cases h
      exact .refl
    | cons status list =>
      obtain ⟨reader, _, h⟩ := Outcome.bind_eq_ok.mp h
      split at h
      case isTrue =>
        cases h
        exact .refl
      case isFalse => exact .peerFailCloseThen h id
  | processReleaseList list =>
    obtain ⟨s₁, h₁, h⟩ := Outcome.bind_eq_ok.mp h
    cases h
    exact .maintain (.processReleases trivial h₁)
  | discardTimestep t =>
    cases h
    exact .maintain (.modifyEntry t (fun _ => rfl) (fun _ => rfl) (fun _ _ => rfl)
      (fun hn => absurd trivial hn) (fun hn => absurd trivial hn) fun hn => absurd rfl hn)
  | sendToReaders t r =>
    dsimp only [execTask] at h
    split at h
    case isTrue =>
      obtain ⟨⟨s₁, ts₁⟩, h₁, h⟩ := Outcome.bind_eq_ok.mp h
      cases h
      exact .send trivial h₁
    case isFalse =>
      cases h
      exact .refl
  | sendRoundRobin t =>
    dsimp only [execTask] at h
    split at h
    case isTrue =>
      cases h
      exact .refl
    case isFalse =>
      obtain ⟨⟨s₁, ts₁⟩, h₁, h⟩ := Outcome.bind_eq_ok.mp h
      cases h
      refine .trans (.beside ?_) (.send trivial h₁)
      exact { Stream.Beside.refl (.sendRoundRobin t) s with demand := fun hn => absurd trivial hn }
  | nextRoundRobin t =>
    cases h
    exact .beside { Stream.Beside.refl (.nextRoundRobin t) s with
      demand := fun hn => absurd trivial hn }
  | sendOnDemand t =>
    dsimp only [execTask] at h
    split at h
    case isTrue =>
      cases h
      exact .beside { Stream.Beside.refl _ _ with }
    case isFalse =>
      obtain ⟨⟨request, requests⟩, hreq, h⟩ := Outcome.bind_eq_ok.mp h
      cases request with
      | none =>
        cases h
        exact .beside { Stream.Beside.refl (.sendOnDemand t) s with
          requested := fun _ => ⟨firstRequest_sublist hreq, rfl⟩
          demand    := fun hn => absurd trivial hn }
      | some r =>
        obtain ⟨⟨s₁, ts₁⟩, h₁, h⟩ := Outcome.bind_eq_ok.mp h
        cases h
        refine .trans (.beside ?_) (.send trivial h₁)
        exact { Stream.Beside.refl (.sendOnDemand t) s with
          demanded  := fun hn => absurd trivial hn
          requested := fun _ => ⟨firstRequest_sublist hreq, rfl⟩
          demand    := fun hn => absurd trivial hn }
  | providedTimestep t =>
    cases h
    have hc : (Task.providedTimestep t).Counts := trivial
    have hheld : s.Beside (.providedTimestep t) { s with held := false } :=
      { Stream.Beside.refl _ s with }
    refine .maintain (.trans (.beside hheld)
      (.trans (.modifyEntry t ?_ ?_ ?_ ?_ ?_ ?_) (.modifyEntry t ?_ ?_ ?_ ?_ ?_ ?_)))
    all_goals first
    | exact fun _ => rfl
    | exact fun hn => absurd rfl (hn t)
    | exact fun hn => absurd hc hn
    | exact fun _ _ => ⟨rfl, rfl⟩
    | exact fun _ _ => id
  | rendezvous count =>
    cases count with
    | zero =>
      cases h
      exact .beside { Stream.Beside.refl _ s with status := fun _ => rfl }
    | succ count => exact .participateInReaderOpen h
  | acceptReaders count =>
    cases count with
    | zero =>
      cases h
      exact .refl
    | succ count => exact .participateInReaderOpen h
  | waitForReader r =>
    obtain ⟨reader, _, h⟩ := Outcome.bind_eq_ok.mp h
    split at h
    case isTrue =>
      cases h
      exact .modifyReader r fun i => by exact { ReaderInfo.Beside.refl _ r i with }
    case isFalse => cases h
  | sendQueued r t =>
    obtain ⟨reader, _, h⟩ := Outcome.bind_eq_ok.mp h
    split at h
    case isTrue =>
      split at h
      · cases h
        exact .refl
      · obtain ⟨⟨s₁, ts₁⟩, h₁, h⟩ := Outcome.bind_eq_ok.mp h
        cases h
        exact .send trivial h₁
    case isFalse =>
      cases h
      exact .refl
  | sentQueued r t =>
    obtain ⟨e, _, h⟩ := Outcome.bind_eq_ok.mp h
    cases h
    exact .refl
  | writerClose =>
    cases h
    exact .beside { Stream.Beside.refl .writerClose s with demand := fun hn => absurd trivial hn }
  | writerCloseRest =>
    cases h
    refine .maintain (.trans (.one (.entries (f := fun e =>
      if e.preciousTimestep then { e with preciousTimestep := false, expired := true } else e)
      (fun e => ?_) (fun e => ?_) (fun _ e => ?_) (fun _ e => ?_) (fun hn => absurd trivial hn)
      fun e _ => ?_))
      (.beside { Stream.Beside.refl _ (untagPreciousTimesteps s) with }))
    all_goals split <;> first | rfl | exact id
  | writerCloseDrain =>
    dsimp only [execTask] at h
    split at h
    case isTrue =>
      cases h
      exact .beside { Stream.Beside.refl .writerCloseDrain s with
        requested := fun _ => ⟨List.nil_sublist _, rfl⟩
        demand    := fun hn => absurd trivial hn }
    case isFalse =>
      cases h
      exact .refl
  | waitForRelease =>
    dsimp only [execTask] at h
    split at h
    all_goals
      cases h
      exact .beside { Stream.Beside.refl _ _ with }
  | replayReleases =>
    dsimp only [execTask] at h
    split at h
    case isTrue =>
      cases h
      exact .refl
    case isFalse =>
      split at h
      · cases h
        exact .refl
      · obtain ⟨s₁, h₁, h⟩ := Outcome.bind_eq_ok.mp h
        cases h
        exact .maintain (.processReleases trivial h₁)
  | requestedStepSent | demandedStepSent | streamDestroy =>
    cases h
    exact .refl

end Sst
