import Adios2.Sst.Theorems.TaskOrder
import Adios2.Sst.Theorems.ClosedReaders

-- How the metadata of a delivered timestep reaches the connections of a reader.

namespace Sst

open Threads

-- What only grows, and what stays.
structure Stream.Later (s s' : Stream) : Prop where
  deliveries : s.deliveries ⊆ s'.deliveries
  discarded  : s.discarded ⊆ s'.discarded
  written    : s.written ⊆ s'.written
  status     : s.status = .established → s'.status = .established
  rank       : s'.rank = s.rank
  pattern    : s'.cpCommPattern = s.cpCommPattern
  mode       : s'.stepDistributionMode = s.stepDistributionMode
  peers      : s.Related (fun i i' => i'.peers = i.peers) s'

namespace Stream.Later

variable {s s' s'' : Stream}

theorem refl (s : Stream) : s.Later s where
  deliveries := List.Subset.refl _
  discarded  := List.Subset.refl _
  written    := List.Subset.refl _
  status     := id
  rank       := rfl
  pattern    := rfl
  mode       := rfl
  peers      := .of_eq (fun _ => rfl) rfl

theorem trans (h : s.Later s') (h' : s'.Later s'') : s.Later s'' where
  deliveries := List.Subset.trans h.deliveries h'.deliveries
  discarded  := List.Subset.trans h.discarded h'.discarded
  written    := List.Subset.trans h.written h'.written
  status     := h'.status ∘ h.status
  rank       := h'.rank.trans h.rank
  pattern    := h'.pattern.trans h.pattern
  mode       := h'.mode.trans h.mode
  peers      := Stream.Related.trans (fun h h' => h'.trans h) h.peers h'.peers

end Stream.Later

variable {s s' : Stream} {env : Environment} {ts : List Task}

theorem Operation.later {task : Task} {forward : Prop} (h : Operation task forward s s') :
    s.Later s' := by
  have hmodify (r : Nat) (f : ReaderInfo → ReaderInfo) (hf : ∀ i, (f i).peers = i.peers) :
      s.Related (fun i i' => i'.peers = i.peers) (s.modifyReader r f) :=
    .modify (fun _ => by rfl) fun i _ => hf i
  cases h with
  | beside h =>
    exact {
      deliveries := h.deliveries ▸ List.Subset.refl _
      discarded  := h.discarded
      written    := h.written
      status     := h.status
      rank       := h.rank
      pattern    := h.pattern
      mode       := h.mode
      peers      := .of_eq (fun _ => rfl) h.readers }
  | insert | entries => exact { Stream.Later.refl s with }
  | maintain =>
    rw [queueMaintenance_eq]
    exact { Stream.Later.refl s with }
  | reader h => exact { Stream.Later.refl s with peers := hmodify _ _ fun i => (h i).peers }
  | @status r st =>
    have hpeers := hmodify r (fun i => { i with readerStatus := st }) fun _ => rfl
    exact { Stream.Later.refl s with peers := hpeers }
  | join =>
    exact { Stream.Later.refl s with peers := Stream.Related.append (fun _ => rfl) rfl }
  | deref r t =>
    have hpeers := hmodify r (fun i =>
      { i with sentTimestepList := i.sentTimestepList.erase t }) fun _ => rfl
    exact { Stream.Later.refl s with peers := hpeers }
  | deliver r t formats =>
    have hpeers := hmodify r (fun i => { i with
      lastSentTimestep := t
      sentTimestepList := i.sentTimestepList ++ [t]
      formatSentCount  := i.formatSentCount + formats }) fun _ => rfl
    exact { Stream.Later.refl s with
      deliveries := List.subset_append_left s.deliveries [(r, t)]
      peers      := hpeers }

theorem Operations.later {task : Task} {forward : Prop} (h : Operations task forward s s') :
    s.Later s' := by
  induction h with
  | refl => exact .refl s
  | tail _ op ih => exact ih.trans op.later

-- What a task that delivers timesteps does.

-- Tasks that neither carry a message nor provide or decide about a timestep.
def Task.Quiet : Task → Prop
  | .sendEntryMsg _ _ _ | .sendOneToWSRCohort _ _ _ | .cmWrite _ _ _ | .sendOneToEachReaderRank _ _
  | .queueTimestep _ | .decideTimestep _ | .waitForRoom _ _ | .returnedTimestep _ | .discardTimestep _ => False
  | _ => True

-- Tasks that such tasks come from, other than those that deliver timesteps.
def Task.Speaks : Task → Prop
  | .sendEntryMsg _ _ _ | .sendOneToWSRCohort _ _ _ | .cmWrite _ _ _ | .sendOneToEachReaderRank _ _
  | .queueTimestep _ | .decideTimestep _ | .waitForRoom _ _ | .returnedTimestep _
  | .requestedStepSent | .demandedStepSent | .writerClose => True
  | _ => False

-- Nothing is delivered, or one timestep to one reader, which is established.
inductive Delivery (task : Task) (s s' : Stream) (ts : List Task) : Prop
  | none (beside : s.Beside task s') (quiet : ∀ a ∈ ts, a.Quiet)
  | one {s₁ : Stream} {r : Nat} {t : Int} {i : ReaderInfo} {rest : List Task}
      (beside : s.Beside task s₁) (reader : s.readers[r]? = some i)
      (established : i.readerStatus = .established) (queued : t ∈ s.timesteps)
      (delivers : s' = s₁.deliver r t (s₁.previousFormats.drop i.formatSentCount).length)
      (sends : ts = .sendEntryMsg r t (s₁.previousFormats.drop i.formatSentCount) :: rest)
      (quiet : ∀ a ∈ rest, a.Quiet)

theorem Delivery.of_send {task : Task} {s₁ : Stream} {r : Nat} {t : Int} {rest : List Task}
    (h : sendTimestepEntryToSingleReader s₁ t r = .ok (s', ts)) (hb : s.Beside task s₁)
    (hq : ∀ a ∈ rest, a.Quiet) : Delivery task s s' (ts ++ rest) := by
  have ⟨i, hi, h⟩ := sendTimestepEntryToSingleReader_eq_ok h
  obtain ⟨_, rfl, rfl⟩ | ⟨hst, hqueued, rfl, rfl⟩ := h
  · exact .none hb hq
  · have hts : s₁.timesteps = s.timesteps := congrArg (List.map _) hb.queue
    exact .one hb (hb.readers ▸ hi) hst (hts ▸ hqueued) rfl rfl hq

theorem execTask_delivery {task : Task} (h : execTask env task s = .ok (s', ts))
    (hd : task.Delivers) : Delivery task s s' ts := by
  cases task with
  | sendToReaders t r =>
    dsimp only [execTask] at h
    split at h
    case isTrue =>
      obtain ⟨⟨s₁, ts₁⟩, h₁, h⟩ := Outcome.bind_eq_ok.mp h
      cases h
      exact .of_send h₁ (.refl _ s) (by simp [Task.Quiet])
    case isFalse =>
      cases h
      exact .none (.refl _ s) (by simp)
  | sendRoundRobin t =>
    dsimp only [execTask] at h
    split at h
    case isTrue =>
      cases h
      exact .none (.refl _ s) (by simp)
    case isFalse =>
      obtain ⟨⟨s₁, ts₁⟩, h₁, h⟩ := Outcome.bind_eq_ok.mp h
      cases h
      refine .of_send h₁ ?_ (by simp [Task.Quiet])
      exact { Stream.Beside.refl (.sendRoundRobin t) s with demand := fun hn => absurd trivial hn }
  | sendOnDemand t =>
    dsimp only [execTask] at h
    split at h
    case isTrue =>
      cases h
      exact .none { Stream.Beside.refl (.sendOnDemand t) s with } (by simp)
    case isFalse =>
      obtain ⟨⟨request, requests⟩, hreq, h⟩ := Outcome.bind_eq_ok.mp h
      cases request with
      | none =>
        cases h
        refine .none ?_ (by simp)
        exact { Stream.Beside.refl (.sendOnDemand t) s with
          requested := fun _ => ⟨firstRequest_sublist hreq, rfl⟩
          demand    := fun hn => absurd trivial hn }
      | some r =>
        obtain ⟨⟨s₁, ts₁⟩, h₁, h⟩ := Outcome.bind_eq_ok.mp h
        cases h
        refine .of_send h₁ ?_ (by simp [Task.Quiet])
        exact { Stream.Beside.refl (.sendOnDemand t) s with
          demanded  := fun hn => absurd trivial hn
          requested := fun _ => ⟨firstRequest_sublist hreq, rfl⟩
          demand    := fun hn => absurd trivial hn }
  | sendQueued r t =>
    obtain ⟨reader, _, h⟩ := Outcome.bind_eq_ok.mp h
    split at h
    case isTrue =>
      split at h
      · cases h
        exact .none (.refl _ s) (by simp)
      · obtain ⟨⟨s₁, ts₁⟩, h₁, h⟩ := Outcome.bind_eq_ok.mp h
        cases h
        exact .of_send h₁ (.refl _ s) (by simp [Task.Quiet])
    case isFalse =>
      cases h
      exact .none (.refl _ s) (by simp)
  | readerRequestStep r =>
    dsimp only [execTask] at h
    split at h
    case isTrue => cases h
    case isFalse =>
      split at h
      · cases h
        exact .none (.refl _ s) (by simp)
      · obtain ⟨reader, _, h⟩ := Outcome.bind_eq_ok.mp h
        have hqueue : s.Beside (.readerRequestStep r) { s with
            requests         := s.requests ++ [r]
            stepRequestQueue := s.stepRequestQueue ++ [r] } :=
          { Stream.Beside.refl (.readerRequestStep r) s with
            requested := fun hn => absurd rfl (hn r)
            demand    := fun hn => absurd trivial hn }
        split at h
        case isFalse =>
          cases h
          exact .none hqueue (by simp)
        case isTrue =>
          split at h
          case h_2 =>
            cases h
            exact .none hqueue (by simp)
          case h_1 e he =>
            obtain ⟨⟨s₁, ts₁⟩, h₁, h⟩ := Outcome.bind_eq_ok.mp h
            cases h
            refine .of_send h₁ ?_ (by simp [Task.Quiet])
            exact { Stream.Beside.refl (.readerRequestStep r) s with
              demanded  := fun hn => absurd trivial hn
              requested := fun hn => absurd rfl (hn r)
              demand    := fun hn => absurd trivial hn }
  | _ => exact absurd hd id

theorem derefAllFrom_quiet {reader : ReaderInfo} {r : Nat} {list : Option Int} :
    ∀ a ∈ (derefAllFrom s reader r list).2, a.Quiet := by
  unfold derefAllFrom
  split <;> simp [Task.Quiet]

theorem peerFailCloseThen_quiet {r : Nat} {st : StreamStatus} {rest : List Task}
    (h : peerFailCloseThen s r st rest = .ok (s', ts)) :
    ∃ ts₁, ts = ts₁ ++ rest ∧ ∀ a ∈ ts₁, a.Quiet := by
  obtain ⟨⟨s₁, ts₁⟩, h₁, h⟩ := Outcome.bind_eq_ok.mp h
  cases h
  refine ⟨ts₁, rfl, ?_⟩
  unfold peerFailCloseWSReader at h₁
  obtain ⟨reader, _, h₁⟩ := Outcome.bind_eq_ok.mp h₁
  split at h₁
  case isTrue =>
    cases h₁
    simp
  case isFalse =>
    split at h₁
    case isTrue =>
      obtain rfl : _ = ts₁ := congrArg Prod.snd (Except.ok.inj h₁)
      exact List.forall_mem_append.mpr ⟨derefAllFrom_quiet, by simp [Task.Quiet]⟩
    case isFalse =>
      cases h₁
      simp

theorem peerFailCloseWSReader_quiet {r : Nat} {st : StreamStatus}
    (h : peerFailCloseWSReader s r st = .ok (s', ts)) : ∀ a ∈ ts, a.Quiet := by
  have hthen : peerFailCloseThen s r st [] = .ok (s', ts) := by
    rw [peerFailCloseThen, h, Outcome.ok_bind]
    simp
  have ⟨ts₁, hts, hq⟩ := peerFailCloseThen_quiet hthen
  rw [hts, List.append_nil]
  exact hq

theorem participateInReaderOpen_quiet {rest failed : List Task}
    (h : participateInReaderOpen env s rest failed = .ok (s', ts)) (hrest : ∀ a ∈ rest, a.Quiet)
    (hfailed : ∀ a ∈ failed, a.Quiet) : ∀ a ∈ ts, a.Quiet := by
  unfold participateInReaderOpen at h
  split at h
  case isTrue => cases h
  case isFalse =>
    dsimp only at h
    split at h
    case isTrue =>
      cases h
      have hwait (c : Prop) [Decidable c] (r : Nat) :
          Task.Quiet (if c then .waitForReader r else .adoptReaderStatus r) := by
        split <;> trivial
      exact List.forall_mem_cons.mpr ⟨hwait _ _, hrest⟩
    case isFalse =>
      cases h
      exact hfailed

theorem execTask_quiet {task : Task} (h : execTask env task s = .ok (s', ts))
    (hd : ¬ task.Delivers) (hs : ¬ task.Speaks) : ∀ a ∈ ts, a.Quiet := by
  cases task
  all_goals first | exact absurd trivial hd | exact absurd trivial hs | skip
  case derefAllSentTimesteps r list =>
    obtain ⟨reader, _, h⟩ := Outcome.bind_eq_ok.mp h
    split at h
    case isTrue =>
      obtain rfl : _ = ts := congrArg Prod.snd (Except.ok.inj h)
      exact derefAllFrom_quiet
    case isFalse => cases h
  case connClose r =>
    obtain ⟨reader, _, h⟩ := Outcome.bind_eq_ok.mp h
    split at h
    · cases h
      simp
    · split at h
      · have ⟨ts₁, hts, hq⟩ := peerFailCloseThen_quiet h
        exact hts ▸ List.forall_mem_append.mpr ⟨hq, by simp [Task.Quiet]⟩
      all_goals
        cases h
        simp
  case readerClose r =>
    dsimp only [execTask] at h
    split at h
    case isTrue => exact peerFailCloseWSReader_quiet h
    case isFalse =>
      cases h
      simp
  case closeWSRStream r => exact peerFailCloseWSReader_quiet h
  case processReaderStatusList r list =>
    cases list with
    | nil =>
      cases h
      simp
    | cons status list =>
      obtain ⟨reader, _, h⟩ := Outcome.bind_eq_ok.mp h
      split at h
      case isTrue =>
        cases h
        simp [Task.Quiet]
      case isFalse =>
        have ⟨ts₁, hts, hq⟩ := peerFailCloseThen_quiet h
        exact hts ▸ List.forall_mem_append.mpr ⟨hq, by simp [Task.Quiet]⟩
  case rendezvous count =>
    cases count with
    | zero =>
      cases h
      simp
    | succ count => exact participateInReaderOpen_quiet h (by simp [Task.Quiet]) (by simp [Task.Quiet])
  case acceptReaders count =>
    cases count with
    | zero =>
      cases h
      simp
    | succ count => exact participateInReaderOpen_quiet h (by simp [Task.Quiet]) (by simp)
  all_goals
    dsimp only [execTask] at h
    repeat' first
      | split at h
      | obtain ⟨_, _, h⟩ := Outcome.bind_eq_ok.mp h
    all_goals cases h <;> simp [Task.Quiet]

-- A message says that there is no metadata only where the timestep was discarded.
def Message.Sound (s : Stream) : Message → Prop
  | .deliverTimestepMetadata t false _ => t ∈ s.discarded
  | _                                  => True

-- Messages that are meant for all readers.
def Message.Notifies : Message → Prop
  | .deliverTimestepMetadata _ true _ => False
  | _                                 => True

-- What a task that is still to run tells about the past.
def Task.Carries (s : Stream) : Task → Prop
  | .queueTimestep _       => s.status = .established
  | .sendEntryMsg r t _    => (r, t) ∈ s.deliveries
  | .discardTimestep t     => t ∈ s.discarded
  | .sendOneToWSRCohort _ _ msg | .cmWrite _ _ msg => msg.Sound s
  | .sendOneToEachReaderRank _ msg => msg.Sound s ∧ msg.Notifies
  | _                      => True

theorem Message.Sound.later {msg : Message} (h : msg.Sound s) (hl : s.Later s') : msg.Sound s' := by
  unfold Message.Sound at h ⊢
  split <;> first | exact hl.discarded h | trivial

theorem Task.Carries.later {task : Task} (h : task.Carries s) (hl : s.Later s') :
    task.Carries s' := by
  cases task
  case queueTimestep => exact hl.status h
  case sendEntryMsg => exact hl.deliveries h
  case discardTimestep => exact hl.discarded h
  case sendOneToWSRCohort | cmWrite => exact Message.Sound.later h hl
  case sendOneToEachReaderRank => exact ⟨Message.Sound.later h.left hl, h.right⟩
  all_goals trivial

theorem Task.Quiet.carries {task : Task} (h : task.Quiet) : task.Carries s := by
  cases task <;> trivial

-- The timestep that a task still has to decide about.
def Task.decides : Task → Option Int
  | .decideTimestep t | .waitForRoom t _ | .returnedTimestep t => some t
  | _ => none

-- The entries have their metadata, unless they were discarded or nothing is decided about them yet.
def Stream.Informed (s : Stream) (deciding : List Int) : Prop :=
  ∀ e ∈ s.queuedTimesteps, e.hasMetadata = true ∨ e.timestep ∈ s.discarded ∨ e.timestep ∈ deciding

namespace Stream.Informed

variable {deciding : List Int}

theorem mono {deciding' : List Int} (h : s.Informed deciding) (hd : deciding ⊆ deciding') :
    s.Informed deciding' :=
  fun e he => (h e he).imp_right fun h => h.imp_right fun hmem => hd hmem

theorem map {f : TimestepEntry → TimestepEntry} (h : s.Informed deciding)
    (timestep : ∀ e, (f e).timestep = e.timestep)
    (metadata : ∀ e, e.timestep ∉ s.discarded → e.hasMetadata = true → (f e).hasMetadata = true) :
    Informed { s with queuedTimesteps := s.queuedTimesteps.map f } deciding := by
  intro e' he'
  have ⟨e, he, hee⟩ := List.mem_map.mp he'
  rw [← hee, timestep e]
  by_cases hd : e.timestep ∈ s.discarded
  case pos => exact .inr (.inl hd)
  case neg => exact (h e he).imp_left (metadata e hd)

end Stream.Informed

theorem Stream.Informed.maintain {deciding : List Int} (h : s.Informed deciding) :
    (queueMaintenance s).Informed deciding := by
  intro e' he'
  have ⟨e, he, haged, _⟩ := exists_of_mem_queueMaintenance he'
  rw [haged.metadata, haged.timestep, queueMaintenance_eq]
  exact h e he

theorem Operation.informed {task : Task} {forward : Prop} {deciding : List Int}
    (h : Operation task forward s s') (hs : s.Informed deciding)
    (hq : ∀ t, task = .queueTimestep t → t ∈ deciding)
    (hd : ∀ t, task = .discardTimestep t → t ∈ s.discarded) : s'.Informed deciding := by
  cases h with
  | beside h =>
    exact fun e he => (hs e (h.queue ▸ he)).imp_right fun he => he.imp_left fun he => h.discarded he
  | insert h => exact List.forall_mem_cons.mpr ⟨.inr (.inr (hq _ h)), hs⟩
  | @entries f timestep _ _ _ _ metadata =>
    exact hs.map timestep fun e he => metadata e fun htask => he (hd _ htask)
  | maintain => exact hs.maintain
  | reader | status | join => exact hs
  | deref | deliver =>
    refine hs.map (fun e => ?_) fun e _ hm => ?_
    · split <;> rfl
    · split <;> exact hm

theorem Operations.informed {task : Task} {forward : Prop} {deciding : List Int}
    (h : Operations task forward s s') (hs : s.Informed deciding)
    (hq : ∀ t, task = .queueTimestep t → t ∈ deciding)
    (hd : ∀ t, task = .discardTimestep t → t ∈ s.discarded) : s'.Informed deciding := by
  induction h with
  | refl => exact hs
  | tail hops op ih => exact op.informed ih hq fun t ht => (Operations.later hops).discarded (hd t ht)

-- Behind the decision the metadata are there.
theorem Stream.Informed.decide {deciding : List Int} {t : Int} (h : s.Informed (t :: deciding)) :
    (s.modifyEntry t fun e => { e with hasMetadata := true }).Informed deciding := by
  intro e' he'
  have ⟨e, he, hee⟩ := List.mem_map.mp he'
  rw [← hee]
  by_cases het : e.timestep = t
  case pos => exact .inl (by rw [if_pos het])
  case neg =>
    rw [if_neg het]
    exact (h e he).imp_right fun h => h.imp_right fun hmem => (List.mem_cons.mp hmem).resolve_left het

theorem distributeDecision_informed {deciding : List Int} {t : Int} {discard arriving : Bool}
    {xmitFormats : List FormatID} (h : s.Informed (t :: deciding)) :
    (distributeDecision s t discard arriving xmitFormats).1.Informed deciding := by
  refine Stream.Informed.decide fun e he => ?_
  exact (h e he).imp_right fun h => h.imp_left fun hd => List.subset_ite_append hd

theorem execTask_informed {task : Task} {deciding : List Int}
    (h : execTask env task s = .ok (s', ts)) (hs : s.Informed (task.decides.toList ++ deciding))
    (hc : task.Carries s) : s'.Informed (ts.filterMap Task.decides ++ deciding) := by
  have hops := execTask_operations h
  have hdiscard (t : Int) (ht : task = .discardTimestep t) : t ∈ s.discarded := by
    subst ht
    exact hc
  cases task with
  | queueTimestep t =>
    refine hops.informed (hs.mono ?_) (fun t' ht => ?_) (by simp)
    · exact List.subset_append_right _ _
    · cases ht
      cases h
      refine List.mem_append_left _ ?_
      split <;> simp [Task.decides]
  | decideTimestep t =>
    dsimp only [execTask] at h
    have hm : (queueMaintenance s).Informed (t :: deciding) := hs.maintain
    split at h
    · obtain rfl : _ = s' := congrArg Prod.fst (Except.ok.inj h)
      exact (distributeDecision_informed hm.maintain).mono (List.subset_append_right _ _)
    · cases h
      exact hm
  | waitForRoom t arriving =>
    obtain rfl : _ = s' := congrArg Prod.fst (Except.ok.inj h)
    exact (distributeDecision_informed hs).mono (List.subset_append_right _ _)
  | returnedTimestep t =>
    cases h
    refine (?_ : Stream.Informed _ deciding).mono (List.subset_append_right _ _)
    refine Stream.Informed.decide fun e he => ?_
    exact (hs e he).imp_right fun h => h.imp_left fun hd => List.subset_ite_append hd
  | _ =>
    refine hops.informed (hs.mono ?_) (by simp) hdiscard
    exact List.subset_append_right _ _

theorem provideTasks_carries {s₁ : Stream} {t : Int} {info : ReturnMetadataInfo}
    (h : info.discardThisTimestep = true → t ∈ s.discarded) :
    ∀ a ∈ provideTasks s₁ t info, a.Carries s := by
  unfold provideTasks
  refine List.forall_mem_append.mpr ⟨List.forall_mem_cons.mpr ⟨trivial, ?_⟩, by simp [Task.Carries]⟩
  refine List.forall_mem_append.mpr ⟨?_, ?_⟩
  · split <;> simp [Task.Carries]
  · split
    case isTrue hd => simp [Task.Carries, Message.Sound, Message.Notifies, h hd]
    case isFalse => cases s₁.stepDistributionMode <;> simp [Task.Carries]

-- What follows a task carries messages that are sound. Nothing is delivered before it is decided about.
theorem execTask_carries {task : Task} {deciding : List Int}
    (h : execTask env task s = .ok (s', ts)) (hs : s.Informed deciding)
    (hd : ∀ d ∈ s.deliveries, d.2 ∉ deciding) (hc : task.Carries s) : ∀ a ∈ ts, a.Carries s' := by
  by_cases hdel : task.Delivers
  case pos =>
    cases execTask_delivery h hdel with
    | none _ quiet => exact fun a ha => (quiet a ha).carries
    | @one s₁ r t i rest beside reader established queued delivers sends quiet =>
      subst delivers sends
      refine List.forall_mem_cons.mpr ⟨?_, fun a ha => (quiet a ha).carries⟩
      exact List.mem_append_right _ (List.mem_singleton_self _)
  case neg =>
    by_cases hsp : task.Speaks
    case neg => exact fun a ha => (execTask_quiet h hdel hsp a ha).carries
    case pos =>
      have hl := (execTask_operations h).later
      cases task with
      | sendEntryMsg r t formats =>
        obtain ⟨reader, _, h⟩ := Outcome.bind_eq_ok.mp h
        split at h
        case isTrue =>
          obtain ⟨e, he, h⟩ := Outcome.bind_eq_ok.mp h
          cases h
          rw [Option.orUndefined_eq_ok, Stream.findEntry] at he
          have het : e.timestep = t := by simpa using List.find?_some he
          refine List.forall_mem_singleton.mpr ?_
          cases hm : e.hasMetadata with
          | true => trivial
          | false =>
            have hinf := hs e (List.mem_of_find?_eq_some he)
            rw [hm, het] at hinf
            exact (hinf.resolve_left (by simp)).resolve_right (hd _ hc)
        case isFalse =>
          cases h
          simp
      | sendOneToWSRCohort r peer msg =>
        obtain ⟨reader, _, h⟩ := Outcome.bind_eq_ok.mp h
        have hc : msg.Sound s := hc
        split at h
        · split at h <;> cases h <;> simpa [Task.Carries] using hc
        · cases h
          simp
      | cmWrite r peer msg =>
        have hc : msg.Sound s' := Message.Sound.later hc hl
        dsimp only [execTask] at h
        split at h
        case isFalse => cases h
        case isTrue =>
          split at h
          case isTrue =>
            cases h
            simpa [Task.Carries] using hc
          case isFalse =>
            obtain ⟨ts₁, hts, hq⟩ := peerFailCloseThen_quiet h
            rw [hts]
            refine List.forall_mem_append.mpr ⟨fun a ha => (hq a ha).carries, ?_⟩
            simpa [Task.Carries] using hc
      | sendOneToEachReaderRank r msg =>
        have hc : msg.Sound s ∧ msg.Notifies := hc
        dsimp only [execTask] at h
        split at h
        · cases h
          simp
        · split at h <;> cases h <;> simp [Task.Carries, hc]
      | queueTimestep t =>
        cases h
        split <;> simp [Task.Carries]
      | decideTimestep t =>
        dsimp only [execTask] at h
        split at h
        · obtain rfl : _ = ts := congrArg Prod.snd (Except.ok.inj h)
          obtain rfl : _ = s' := congrArg Prod.fst (Except.ok.inj h)
          refine provideTasks_carries fun hdis => ?_
          simp only at hdis
          simp [distributeDecision, Stream.modifyEntry, hdis]
        · cases h
          simp [Task.Carries]
      | waitForRoom t arriving =>
        obtain rfl : _ = ts := congrArg Prod.snd (Except.ok.inj h)
        exact provideTasks_carries fun hdis => absurd hdis (by simp)
      | returnedTimestep t =>
        cases h
        refine provideTasks_carries fun hdis => ?_
        simp [Stream.modifyEntry, hdis]
      | requestedStepSent | demandedStepSent =>
        cases h
        split <;> simp [sendCloseMsgs, Task.Carries, Message.Sound, Message.Notifies]
      | writerClose =>
        cases h
        split <;> simp [sendCloseMsgs, Task.Carries, Message.Sound, Message.Notifies]
      | _ => exact absurd hsp id

theorem Task.decides_eq_none {task : Task} (h : ¬ task.Reliant) : task.decides = none := by
  cases task <;> first | rfl | exact absurd trivial h

theorem Operations.written {task : Task} {forward : Prop} (h : Operations task forward s s')
    (hw : ∀ r peer msg, task ≠ .cmWrite r peer msg) : s'.written = s.written := by
  induction h with
  | refl => rfl
  | tail _ op ih =>
    cases op with
    | beside h => exact (h.writes hw).trans ih
    | maintain =>
      rw [queueMaintenance_eq]
      exact ih
    | _ => exact ih

theorem cmWrite_eq_ok {r peer : Nat} {msg : Message}
    (h : execTask env (.cmWrite r peer msg) s = .ok (s', ts)) :
    s' = { s with written := s.written ++ [{ reader := r, peer, msg }] } ∧
      ts = [.sendOneToWSRCohort r (peer + 1) msg] ∨
    peerFailCloseThen s r .peerFailed [.sendOneToWSRCohort r (peer + 1) msg] = .ok (s', ts) ∧
      s'.written = s.written := by
  dsimp only [execTask] at h
  split at h
  case isFalse => cases h
  case isTrue =>
    split at h
    case isTrue =>
      cases h
      exact .inl ⟨rfl, rfl⟩
    case isFalse =>
      have hops : Operations .queueMaintenance False s s' := .peerFailCloseThen h fun hf => hf.elim
      exact .inr ⟨h, hops.written (by simp)⟩

theorem execTask_written {task : Task} (h : execTask env task s = .ok (s', ts))
    (hc : task.Carries s) : ∀ w ∈ s'.written, w ∈ s.written ∨ w.msg.Sound s := by
  by_cases hw : ∃ r peer msg, task = .cmWrite r peer msg
  case neg =>
    have hsame := (execTask_operations h).written fun r peer msg ht => hw ⟨r, peer, msg, ht⟩
    exact fun w hmem => .inl (hsame ▸ hmem)
  case pos =>
    obtain ⟨r, peer, msg, rfl⟩ := hw
    obtain ⟨rfl, _⟩ | ⟨_, hsame⟩ := cmWrite_eq_ok h
    · exact List.forall_mem_append.mpr ⟨fun w hw => .inl hw, List.forall_mem_singleton.mpr (.inr hc)⟩
    · exact fun w hmem => .inl (hsame ▸ hmem)

-- The messages that go out, and those that are still to, are sound.
structure Writer.Sound (c : Writer) : Prop where
  ordered  : c.Ordered
  informed : c.state.Informed ((c.threads .main).filterMap Task.decides)
  carries  : ∀ i, ∀ a ∈ c.threads i, a.Carries c.state
  written  : ∀ w ∈ c.state.written, w.msg.Sound c.state

namespace Writer.Sound

theorem opening (p : Parameters) : (Writer.opening p).Sound where
  ordered  := .opening p
  informed := by simp [Stream.Informed, Writer.opening, Stream.new]
  carries i := by cases i <;> simp [Writer.opening, Task.Carries]
  written  := by simp [Writer.opening, Stream.new]

theorem undecided {c : Writer} (hc : c.Sound) :
    ∀ d ∈ c.state.deliveries, d.2 ∉ (c.threads .main).filterMap Task.decides := by
  intro d hd hmem
  have ⟨a, ha, had⟩ := List.mem_filterMap.mp hmem
  have hr := hc.ordered.relies .main a ha
  have hfresh : c.state.Fresh d.2 := by
    cases a
    case decideTimestep | waitForRoom | returnedTimestep => exact Option.some.inj had ▸ hr
    all_goals cases had
  exact lt_irrefl _ (hfresh.unsent d hd)

theorem step {c c' : Writer} {ev : Event Thread Task Environment} (h : Step writer c ev c')
    (hc : c.Sound) : c'.Sound := by
  have hordered := hc.ordered.step h
  cases h with
  | @start i ts idle hbegins =>
    have hbegins : Begins i c.state ts := hbegins
    have hts : (∀ a ∈ ts, a.Carries c.state) ∧ ts.filterMap Task.decides = [] := by
      unfold Begins at hbegins
      split at hbegins <;> first | contradiction | exact ⟨by simp_all [Task.Carries], rfl⟩
    constructor
    case ordered => exact hordered
    case informed =>
      have hinf := hc.informed
      cases i with
      | network => simpa using hinf
      | main =>
        rw [idle] at hinf
        simpa [hts.right] using hinf
    case carries =>
      intro k
      by_cases hk : k = i
      case pos => simpa [hk] using hts.left
      case neg => simpa [hk] using hc.carries k
    case written => exact hc.written
  | @run i env task rest ts s' thread ready exec =>
    have exec : execTask env task c.state = .ok (s', ts) := exec
    have hl := (execTask_operations exec).later
    have hi := thread ▸ hc.carries i
    have htask : task.Carries c.state := hi task List.mem_cons_self
    have hts := execTask_carries exec hc.informed hc.undecided htask
    constructor
    case ordered => exact hordered
    case informed =>
      have hinf := hc.informed
      cases i with
      | main =>
        have hdecides : (c.threads .main).filterMap Task.decides =
            task.decides.toList ++ rest.filterMap Task.decides := by
          rw [thread, List.filterMap_cons]
          cases task.decides <;> rfl
        rw [hdecides] at hinf
        simpa using execTask_informed exec hinf htask
      | network =>
        have hnet := hc.ordered.network task (thread ▸ List.mem_cons_self)
        have hnone := Task.decides_eq_none hnet.left
        have := execTask_informed exec (by rwa [hnone]) htask
        simp only [Function.update_of_ne (show Thread.main ≠ .network by decide)]
        refine this.mono (List.append_subset.mpr ⟨fun t ht => ?_, List.Subset.refl _⟩)
        obtain ⟨a, ha, hat⟩ := List.mem_filterMap.mp ht
        have hnew := hordered.network a (by simp [ha])
        rw [Task.decides_eq_none hnew.left] at hat
        cases hat
    case carries =>
      intro k
      by_cases hk : k = i
      case pos =>
        simp only [hk, Function.update_self]
        refine List.forall_mem_append.mpr ⟨hts, fun a ha => ?_⟩
        exact (hi a (List.mem_cons_of_mem _ ha)).later hl
      case neg =>
        simp only [Function.update_of_ne hk]
        exact fun a ha => (hc.carries k a ha).later hl
    case written =>
      intro w hw
      have := (execTask_written exec htask w hw).elim (hc.written w) id
      exact this.later hl

end Writer.Sound

end Sst
