import Adios2.Sst.Theorems.Deliveries

-- The tasks of the two threads leave each other what they rely on, so that timesteps are delivered in
-- order in all runs.

namespace Sst

open Threads

-- What follows a task: everything it relies on is there, and nothing is relied on behind a task that
-- disturbs others.

def Task.Passive (task : Task) : Prop :=
  ¬ task.Disturbs ∧ ¬ task.Reliant

theorem Task.Passive.relies {task : Task} {s : Stream} (h : task.Passive) : task.Relies s := by
  have ⟨hd, hr⟩ := h
  cases task <;> first | trivial | exact absurd trivial hd | exact absurd trivial hr

structure Follows (s : Stream) (ts : List Task) : Prop where
  relies   : ∀ a ∈ ts, a.Relies s
  arranged : ts.Pairwise fun a b => a.Disturbs → ¬ b.Reliant

namespace Follows

variable {s : Stream} {ts ts' : List Task}

theorem nil : Follows s [] := ⟨by simp, .nil⟩

theorem single {a : Task} (h : a.Relies s) : Follows s [a] := ⟨by simpa using h, List.pairwise_singleton ..⟩

theorem passive (h : ∀ a ∈ ts, a.Passive) : Follows s ts where
  relies a ha := (h a ha).relies
  arranged    := List.pairwise_of_forall_mem_list fun _ _ b hb _ => (h b hb).right

theorem cons {a : Task} (ha : a.Passive) (h : Follows s ts) : Follows s (a :: ts) where
  relies   := List.forall_mem_cons.mpr ⟨ha.relies, h.relies⟩
  arranged := List.pairwise_cons.mpr ⟨fun _ _ hd => absurd hd ha.left, h.arranged⟩

theorem append (h : ∀ a ∈ ts, a.Passive) (h' : Follows s ts') : Follows s (ts ++ ts') := by
  induction ts with
  | nil => exact h'
  | cons a ts ih =>
    have ⟨ha, h⟩ := List.forall_mem_cons.mp h
    exact cons ha (ih h)

end Follows

variable {s s' : Stream} {env : Environment} {ts : List Task}

theorem derefAllFrom_passive {s : Stream} {reader : ReaderInfo} {r : Nat} {list : Option Int} :
    ∀ a ∈ (derefAllFrom s reader r list).2, a.Passive := by
  unfold derefAllFrom
  split <;> simp [Task.Passive, Task.Disturbs, Task.Reliant]

theorem peerFailCloseWSReader_passive {r : Nat} {st : StreamStatus}
    (h : peerFailCloseWSReader s r st = .ok (s', ts)) : ∀ a ∈ ts, a.Passive := by
  unfold peerFailCloseWSReader at h
  obtain ⟨reader, _, h⟩ := Outcome.bind_eq_ok.mp h
  split at h
  case isTrue =>
    cases h
    simp
  case isFalse =>
    split at h
    case isTrue =>
      obtain rfl : _ = ts := congrArg Prod.snd (Except.ok.inj h)
      refine List.forall_mem_append.mpr ⟨derefAllFrom_passive, ?_⟩
      simp [Task.Passive, Task.Disturbs, Task.Reliant]
    case isFalse =>
      cases h
      simp

theorem peerFailCloseThen_passive {r : Nat} {st : StreamStatus} {rest : List Task}
    (h : peerFailCloseThen s r st rest = .ok (s', ts)) (hrest : ∀ a ∈ rest, a.Passive) :
    ∀ a ∈ ts, a.Passive := by
  obtain ⟨⟨s₁, ts₁⟩, h₁, h⟩ := Outcome.bind_eq_ok.mp h
  cases h
  exact List.forall_mem_append.mpr ⟨peerFailCloseWSReader_passive h₁, hrest⟩

theorem sendCloseMsgs_passive : ∀ a ∈ sendCloseMsgs s, a.Passive := by
  simp [sendCloseMsgs, Task.Passive, Task.Disturbs, Task.Reliant]

theorem execTask_passive {task : Task} (h : execTask env task s = .ok (s', ts))
    (hd : ¬ task.Disturbs) : ∀ a ∈ ts, a.Passive := by
  cases task
  all_goals first | exact absurd trivial hd | skip
  case derefAllSentTimesteps r list =>
    obtain ⟨reader, _, h⟩ := Outcome.bind_eq_ok.mp h
    split at h
    case isTrue =>
      obtain rfl : _ = ts := congrArg Prod.snd (Except.ok.inj h)
      exact derefAllFrom_passive
    case isFalse => cases h
  case cmWrite r peer msg =>
    dsimp only [execTask] at h
    split at h
    case isFalse => cases h
    case isTrue =>
      split at h
      case isTrue =>
        cases h
        simp [Task.Passive, Task.Disturbs, Task.Reliant]
      case isFalse =>
        refine peerFailCloseThen_passive h ?_
        simp [Task.Passive, Task.Disturbs, Task.Reliant]
  case connClose r =>
    obtain ⟨reader, _, h⟩ := Outcome.bind_eq_ok.mp h
    split at h
    · cases h
      simp
    · split at h
      · refine peerFailCloseThen_passive h ?_
        simp [Task.Passive, Task.Disturbs, Task.Reliant]
      all_goals
        cases h
        simp
  case readerClose r =>
    dsimp only [execTask] at h
    split at h
    case isTrue => exact peerFailCloseWSReader_passive h
    case isFalse =>
      cases h
      simp
  case closeWSRStream r => exact peerFailCloseWSReader_passive h
  case processReaderStatusList r list =>
    cases list with
    | nil =>
      cases h
      simp
    | cons status list =>
      obtain ⟨reader, _, h⟩ := Outcome.bind_eq_ok.mp h
      split at h
      case isTrue =>
        cases h
        simp [Task.Passive, Task.Disturbs, Task.Reliant]
      case isFalse =>
        refine peerFailCloseThen_passive h ?_
        simp [Task.Passive, Task.Disturbs, Task.Reliant]
  case requestedStepSent | demandedStepSent =>
    cases h
    split
    case isTrue => exact sendCloseMsgs_passive
    case isFalse => simp
  case writerClose =>
    cases h
    refine List.forall_mem_append.mpr ⟨?_, by simp [Task.Passive, Task.Disturbs, Task.Reliant]⟩
    split
    case isTrue => exact sendCloseMsgs_passive
    case isFalse => simp
  case sendEntryMsg | sendOneToWSRCohort | sendOneToEachReaderRank | readerActivate
      | adoptReaderStatus | releaseTimestep | processReleaseList | writerCloseDrain
      | waitForRelease | replayReleases =>
    -- what follows stands in the definition, behind lookups and case distinctions
    dsimp only [execTask] at h
    repeat' first
      | split at h
      | obtain ⟨_, _, h⟩ := Outcome.bind_eq_ok.mp h
    all_goals
      cases h
      try simp [Task.Passive, Task.Disturbs, Task.Reliant]
  all_goals
    cases h
    simp [Task.Passive, Task.Disturbs, Task.Reliant]

-- Whether a timestep can be sent to a reader that was not there when it was provided.
def TimestepEntry.Available (e : TimestepEntry) : Prop :=
  (e.expired && !e.preciousTimestep) = false

-- `t'` is the first timestep from `t` on that is in the queue and available.
structure Stream.Next (s : Stream) (t t' : Int) : Prop where
  le        : t ≤ t'
  available : ∃ e, s.findEntry t' = some e ∧ e.Available
  first     : ∀ x e, t ≤ x → x < t' → s.findEntry x = some e → ¬ e.Available

theorem nextQueued_eq_some {n : Nat} {t t' : Int} (h : nextQueued s n t = some t') :
    s.Next t t' := by
  induction n generalizing t with
  | zero => cases h
  | succ n ih =>
    have hskip (hx : ∀ e, s.findEntry t = some e → ¬ e.Available)
        (h : nextQueued s n (t + 1) = some t') : s.Next t t' := by
      have hnext := ih h
      refine ⟨(lt_add_one t).le.trans hnext.le, hnext.available, fun x e hxt hx' hxe => ?_⟩
      by_cases heq : x = t
      case pos => exact hx e (heq ▸ hxe)
      case neg => exact hnext.first x e (by omega) hx' hxe
    unfold nextQueued at h
    split at h
    case h_1 e he =>
      split at h
      case isTrue hexp =>
        refine hskip (fun e' he' => ?_) h
        rw [he] at he'
        cases he'
        simp [TimestepEntry.Available, hexp]
      case isFalse hexp =>
        cases h
        exact ⟨le_rfl, ⟨e, he, by simpa [TimestepEntry.Available] using hexp⟩,
          fun x e h₁ h₂ => absurd h₂ (not_lt.mpr h₁)⟩
    case h_2 hnone =>
      refine hskip (fun e he => ?_) h
      rw [hnone] at he
      cases he

theorem provideTasks_follows {s₁ : Stream} {t : Int} {info : ReturnMetadataInfo} (h : s.Fresh t)
    (hm : s₁.stepDistributionMode = s.stepDistributionMode) :
    Follows s (provideTasks s₁ t info) := by
  unfold provideTasks
  rw [List.cons_append, List.cons_append, List.append_assoc]
  refine .cons ?_ (.append ?_ ?_)
  · simp [Task.Passive, Task.Disturbs, Task.Reliant]
  · split <;> simp [Task.Passive, Task.Disturbs, Task.Reliant]
  · split
    case isTrue =>
      constructor
      case relies => simpa [Task.Relies] using h
      case arranged => simp [Task.Disturbs, Task.Reliant]
    case isFalse =>
      constructor
      case relies =>
        refine List.forall_mem_cons.mpr ⟨?_, by simp [Task.Relies]⟩
        rw [hm]
        split
        case h_1 hmode => exact ⟨hmode, fun d hd _ => h.unsent d hd⟩
        case h_2 hmode => exact ⟨hmode, h⟩
        case h_3 hmode => exact ⟨by simp [hmode], fun _ => h⟩
      case arranged =>
        simp [Task.Reliant]

theorem sendTimestepEntryToSingleReader_ordered {t : Int} {r : Nat}
    (h : sendTimestepEntryToSingleReader s t r = .ok (s', ts)) (hs : s.Ordered)
    (hto : ∀ d ∈ s.deliveries, d.1 = r → d.2 < t)
    (honce : s.stepDistributionMode ≠ .allToAll → ∀ d ∈ s.deliveries, d.2 < t)
    (hdemand : s.stepDistributionMode = .onDemand → t ≤ s.lastDemandTimestep) :
    s'.Ordered ∧ (∀ a ∈ ts, a.Passive) ∧ s'.stepDistributionMode = s.stepDistributionMode ∧
      ∀ d ∈ s'.deliveries, d ∈ s.deliveries ∨ d = (r, t) := by
  have ⟨i, hi, h⟩ := sendTimestepEntryToSingleReader_eq_ok h
  obtain ⟨_, rfl, rfl⟩ | ⟨_, hqueued, rfl, rfl⟩ := h
  · exact ⟨hs, by simp, rfl, fun d hd => .inl hd⟩
  · have hr := (List.getElem?_eq_some_iff.mp hi).1
    refine ⟨hs.deliver hqueued hr hto honce hdemand, ?_, rfl, fun d hd => ?_⟩
    · simp [Task.Passive, Task.Disturbs, Task.Reliant]
    · have hd : d ∈ s.deliveries ++ [(r, t)] := hd
      simpa using hd

theorem relies_ite_waitForReader {c : Prop} [Decidable c] {r : Nat}
    (h : ∀ d ∈ s.deliveries, d.1 ≠ r) :
    Task.Relies s (if c then .waitForReader r else .adoptReaderStatus r) := by
  split
  case isTrue => exact fun _ => h
  case isFalse => trivial

theorem participateInReaderOpen_follows {rest failed : List Task}
    (h : participateInReaderOpen env s rest failed = .ok (s', ts)) (hs : s.Ordered)
    (hrest : Follows s' rest) (hreliant : ∀ a ∈ rest, ¬ a.Reliant) (hfailed : Follows s' failed) :
    Follows s' ts := by
  unfold participateInReaderOpen at h
  split at h
  case isTrue => cases h
  case isFalse =>
    dsimp only at h
    split at h
    case isTrue =>
      cases h
      constructor
      case relies =>
        exact List.forall_mem_cons.mpr
          ⟨relies_ite_waitForReader fun d hd => (hs.known d hd).ne, hrest.relies⟩
      case arranged =>
        exact List.pairwise_cons.mpr ⟨fun b hb _ => hreliant b hb, hrest.arranged⟩
    case isFalse =>
      cases h
      exact hfailed

theorem execTask_follows {task : Task} (h : execTask env task s = .ok (s', ts)) (hs : s.Ordered)
    (hr : task.Relies s) : s'.Ordered ∧ Follows s' ts := by
  have hops := execTask_operations h
  by_cases hd : task.Disturbs
  case neg =>
    have hdel : ¬ task.Delivers := fun hdel => by
      cases task <;> first | exact hd trivial | exact hdel
    refine ⟨hops.ordered hs hdel fun t ht => ?_, .passive (execTask_passive h hd)⟩
    exact hd (ht ▸ trivial)
  cases task with
  | queueTimestep t =>
    cases h
    refine ⟨hs.insert hr, .single ?_⟩
    have hfresh : Stream.Fresh { s with
        writerTimestep       := t
        lastProvidedTimestep := t
        queuedTimesteps      := ⟨t, 0, 1, true, false, s.firstTimestepPrecious && t = 0, true,
          false⟩ :: s.queuedTimesteps } t := by
      constructor
      case current => rfl
      case unsent => exact fun d hd => (hs.past d hd).trans_lt hr
      case progress =>
        refine List.forall_mem_cons.mpr ⟨fun _ => rfl, fun e he het => ?_⟩
        have := hs.queued e.timestep (Stream.mem_timesteps.mpr ⟨e, he, rfl⟩)
        exact absurd (het ▸ hr) (not_lt.mpr this)
      case demand => exact fun _ => hs.demand.trans_lt hr
    split <;> exact hfresh
  | decideTimestep t =>
    have hfresh := (hops.undisturbed id (by simp) (by simp)).fresh hr
    refine ⟨hops.ordered hs id (by simp), ?_⟩
    dsimp only [execTask] at h
    split at h
    · obtain rfl : _ = ts := congrArg Prod.snd (Except.ok.inj h)
      obtain rfl : _ = s' := congrArg Prod.fst (Except.ok.inj h)
      exact provideTasks_follows hfresh rfl
    · cases h
      exact .single hfresh
  | waitForRoom t arriving =>
    have hfresh := (hops.undisturbed id (by simp) (by simp)).fresh hr
    refine ⟨hops.ordered hs id (by simp), ?_⟩
    obtain rfl : _ = ts := congrArg Prod.snd (Except.ok.inj h)
    obtain rfl : _ = s' := congrArg Prod.fst (Except.ok.inj h)
    exact provideTasks_follows hfresh rfl
  | returnedTimestep t =>
    have hfresh := (hops.undisturbed id (by simp) (by simp)).fresh hr
    refine ⟨hops.ordered hs id (by simp), ?_⟩
    cases h
    exact provideTasks_follows hfresh rfl
  | providedTimestep t =>
    refine ⟨hops.ordered hs id (by simp), ?_⟩
    cases h
    exact .nil
  | nextRoundRobin t =>
    refine ⟨hops.ordered hs id (by simp), ?_⟩
    cases h
    refine .single ⟨?_, fun hm => ?_⟩
    · have hm : s.stepDistributionMode = .roundRobin := hr
      simp [hm]
    · have hm' : s.stepDistributionMode = .roundRobin := hr
      rw [hm'] at hm
      cases hm
  | sentQueued r t =>
    refine ⟨hops.ordered hs id (by simp), ?_⟩
    obtain ⟨e, _, h⟩ := Outcome.bind_eq_ok.mp h
    cases h
    exact .single ⟨hr.1, fun d hd hdr => Int.lt_add_one_of_le (hr.2 d hd hdr)⟩
  | waitForReader r =>
    refine ⟨hops.ordered hs id (by simp), ?_⟩
    obtain ⟨reader, _, h⟩ := Outcome.bind_eq_ok.mp h
    split at h
    case isTrue =>
      cases h
      split
      case isTrue hm => exact .single ⟨hm, fun d hd hdr => absurd hdr (hr hm d hd)⟩
      case isFalse => exact .nil
    case isFalse => cases h
  | rendezvous count =>
    refine ⟨hops.ordered hs id (by simp), ?_⟩
    cases count with
    | zero =>
      cases h
      exact .nil
    | succ count =>
      exact participateInReaderOpen_follows h hs (.single trivial) (by simp [Task.Reliant])
        (.single trivial)
  | acceptReaders count =>
    refine ⟨hops.ordered hs id (by simp), ?_⟩
    cases count with
    | zero =>
      cases h
      exact .nil
    | succ count =>
      exact participateInReaderOpen_follows h hs (.single trivial) (by simp [Task.Reliant]) .nil
  | sendQueued r t =>
    have ⟨hm, hto⟩ : s.stepDistributionMode = .allToAll ∧ ∀ d ∈ s.deliveries, d.1 = r → d.2 < t := hr
    obtain ⟨reader, _, h⟩ := Outcome.bind_eq_ok.mp h
    split at h
    case isFalse =>
      cases h
      exact ⟨hs, .nil⟩
    case isTrue =>
      split at h
      case h_1 =>
        cases h
        exact ⟨hs, .nil⟩
      case h_2 t' hnext =>
        have hle := (nextQueued_eq_some hnext).le
        obtain ⟨⟨s₁, ts₁⟩, h₁, h⟩ := Outcome.bind_eq_ok.mp h
        cases h
        have ⟨hord, hpass, hmode, hnew⟩ := sendTimestepEntryToSingleReader_ordered h₁ hs
          (fun d hd hdr => (hto d hd hdr).trans_le hle) (by simp [hm]) (by simp [hm])
        refine ⟨hord, .append hpass (.single ⟨hmode.trans hm, fun d hd hdr => ?_⟩)⟩
        rcases hnew d hd with hd | rfl
        · exact ((hto d hd hdr).trans_le hle).le
        · exact le_rfl
  | sendToReaders t r =>
    have ⟨hm, hto⟩ : s.stepDistributionMode = .allToAll ∧ ∀ d ∈ s.deliveries, r ≤ d.1 → d.2 < t := hr
    dsimp only [execTask] at h
    split at h
    case isFalse =>
      cases h
      exact ⟨hs, .nil⟩
    case isTrue =>
      obtain ⟨⟨s₁, ts₁⟩, h₁, h⟩ := Outcome.bind_eq_ok.mp h
      cases h
      have ⟨hord, hpass, hmode, hnew⟩ := sendTimestepEntryToSingleReader_ordered h₁ hs
        (fun d hd hdr => hto d hd hdr.ge) (by simp [hm]) (by simp [hm])
      refine ⟨hord, .append hpass (.single ⟨hmode.trans hm, fun d hd hdr => ?_⟩)⟩
      rcases hnew d hd with hd | rfl
      · exact hto d hd (Nat.le_of_succ_le hdr)
      · exact absurd hdr (Nat.not_succ_le_self r)
  | sendRoundRobin t =>
    have ⟨hm, hfresh⟩ : s.stepDistributionMode = .roundRobin ∧ s.Fresh t := hr
    dsimp only [execTask] at h
    split at h
    case isTrue =>
      cases h
      exact ⟨hs, .nil⟩
    case isFalse =>
      obtain ⟨⟨s₁, ts₁⟩, h₁, h⟩ := Outcome.bind_eq_ok.mp h
      cases h
      have ⟨hord, hpass, hmode, _⟩ := sendTimestepEntryToSingleReader_ordered h₁ { hs with }
        (fun d hd _ => hfresh.unsent d hd) (fun _ => hfresh.unsent) (by simp [hm])
      exact ⟨hord, .append hpass (.single (hmode.trans hm))⟩
  | sendOnDemand t =>
    have ⟨hm, hfresh⟩ : s.stepDistributionMode ≠ .allToAll ∧
      (s.stepDistributionMode = .onDemand → s.Fresh t) := hr
    dsimp only [execTask] at h
    split at h
    case isTrue =>
      cases h
      exact ⟨{ hs with }, .nil⟩
    case isFalse =>
      obtain ⟨⟨request, requests⟩, hreq, h⟩ := Outcome.bind_eq_ok.mp h
      have hsub := firstRequest_sublist hreq
      cases request with
      | none =>
        cases h
        refine ⟨{ hs with requests := fun hmode => ?_ }, .nil⟩
        exact List.sublist_nil.mp (hs.requests hmode ▸ hsub)
      | some r =>
        obtain ⟨⟨s₁, ts₁⟩, h₁, h⟩ := Outcome.bind_eq_ok.mp h
        cases h
        -- there are no requests where the distribution is not on demand
        have hmode : s.stepDistributionMode = .onDemand := by
          by_contra hn
          rw [hs.requests hn] at hreq
          cases hreq
        have hfresh := hfresh hmode
        have ⟨hord, hpass, hmode, _⟩ := sendTimestepEntryToSingleReader_ordered h₁
          { hs with
            demanded := fun _ d hd => (hfresh.unsent d hd).le
            demand   := hfresh.current.ge
            requests := fun hn => absurd hmode hn }
          (fun d hd _ => hfresh.unsent d hd) (fun _ => hfresh.unsent) (fun _ => le_rfl)
        exact ⟨hord, .append hpass (.single trivial)⟩
  | readerRequestStep r =>
    have hm : s.stepDistributionMode = .onDemand := hr
    dsimp only [execTask] at h
    split at h
    case isTrue => cases h
    case isFalse =>
      split at h
      · cases h
        exact ⟨hs, .nil⟩
      · obtain ⟨reader, _, h⟩ := Outcome.bind_eq_ok.mp h
        have hqueue : Stream.Ordered { s with
            requests         := s.requests ++ [r]
            stepRequestQueue := s.stepRequestQueue ++ [r] } :=
          { hs with requests := fun hn => absurd hm hn }
        split at h
        case isFalse =>
          cases h
          exact ⟨hqueue, .nil⟩
        case isTrue =>
          split at h
          case h_2 =>
            cases h
            exact ⟨hqueue, .nil⟩
          case h_1 e he =>
            have hmem := List.mem_of_find?_eq_some he
            have hnext : e.timestep = s.lastDemandTimestep + 1 := by
              have := List.find?_some he
              simp only [Bool.and_eq_true, decide_eq_true_eq] at this
              exact this.1.1
            have hle := hs.queued _ (Stream.mem_timesteps.mpr ⟨e, hmem, rfl⟩)
            have hlt (d : Nat × Int) (hd : d ∈ s.deliveries) : d.2 < e.timestep := by
              have := hs.demanded hm d hd
              omega
            obtain ⟨⟨s₁, ts₁⟩, h₁, h⟩ := Outcome.bind_eq_ok.mp h
            cases h
            have ⟨hord, hpass, hmode, _⟩ := sendTimestepEntryToSingleReader_ordered h₁
              { hs with
                demanded := fun _ d hd => (hlt d hd).le
                demand   := hle
                requests := fun hn => absurd hm hn }
              (fun d hd _ => hlt d hd) (fun _ => hlt) (fun _ => le_rfl)
            exact ⟨hord, .append hpass (.single trivial)⟩
  | _ => exact absurd hd id

theorem Operations.mode {task : Task} {forward : Prop} (h : Operations task forward s s') :
    s'.stepDistributionMode = s.stepDistributionMode := by
  induction h with
  | refl => rfl
  | tail _ op ih =>
    cases op with
    | beside h => exact h.mode.trans ih
    | maintain =>
      rw [queueMaintenance_eq]
      exact ih
    | _ => exact ih

theorem Task.Relies.of_mode {task : Task} (h : task.Relies s) (hr : ¬ task.Reliant)
    (hm : s'.stepDistributionMode = s.stepDistributionMode) : task.Relies s' := by
  cases task
  case nextRoundRobin | readerRequestStep => exact hm.trans h
  all_goals first | trivial | exact absurd trivial hr

-- A step that is requested is one that has been provided.
theorem readerRequestStep_relies {r : Nat} (h : execTask env (.readerRequestStep r) s = .ok (s', ts))
    (hs : s.Ordered) (hm : s.stepDistributionMode = .onDemand) {task : Task}
    (hr : task.Relies s) : task.Relies s' := by
  suffices hfresh : s'.writerTimestep = s.writerTimestep ∧ ∀ t, s.Fresh t → s'.Fresh t by
    have hm' := (execTask_operations h).mode
    cases task
    case queueTimestep t => exact hfresh.left.trans_lt hr
    case decideTimestep | waitForRoom | returnedTimestep | discardTimestep => exact hfresh.right _ hr
    case sendRoundRobin => exact ⟨hm'.trans hr.1, hfresh.right _ hr.2⟩
    case sendOnDemand => exact ⟨hm' ▸ hr.1, fun _ => hfresh.right _ (hr.2 hm)⟩
    case waitForReader =>
      intro hall
      rw [hm', hm] at hall
      cases hall
    case sendToReaders | sendQueued | sentQueued =>
      have hall := hr.1
      rw [hm] at hall
      cases hall
    case nextRoundRobin | readerRequestStep => exact hm'.trans hr
    all_goals trivial
  dsimp only [execTask] at h
  split at h
  case isTrue => cases h
  case isFalse =>
    split at h
    · cases h
      exact ⟨rfl, fun t hf => hf⟩
    · obtain ⟨reader, _, h⟩ := Outcome.bind_eq_ok.mp h
      split at h
      case isFalse =>
        cases h
        exact ⟨rfl, fun t hf => { hf with }⟩
      case isTrue =>
        split at h
        case h_2 =>
          cases h
          exact ⟨rfl, fun t hf => { hf with }⟩
        case h_1 e he =>
          have hmem := List.mem_of_find?_eq_some he
          have hfind := List.find?_some he
          simp only [Bool.and_eq_true, decide_eq_true_eq, Bool.not_eq_true'] at hfind
          have hlt {t : Int} (hf : s.Fresh t) : e.timestep < t := by
            have hle := hs.queued _ (Stream.mem_timesteps.mpr ⟨e, hmem, rfl⟩)
            rw [hf.current] at hle
            refine hle.lt_of_ne fun ht => ?_
            rw [hf.progress e hmem ht] at hfind
            cases hfind.1.2
          obtain ⟨⟨s₁, ts₁⟩, h₁, h⟩ := Outcome.bind_eq_ok.mp h
          cases h
          have ⟨i, hi, h₁⟩ := sendTimestepEntryToSingleReader_eq_ok h₁
          obtain ⟨_, rfl, rfl⟩ | ⟨_, _, rfl, rfl⟩ := h₁
          · exact ⟨rfl, fun t hf => { hf with demand := fun _ => hlt hf }⟩
          · refine ⟨rfl, fun t hf => ⟨hf.current, fun d hd => ?_, ?_, fun _ => hlt hf⟩⟩
            · have hd : d ∈ s.deliveries ++ [(r, e.timestep)] := hd
              rcases List.mem_append.mp hd with hd | hd
              · exact hf.unsent d hd
              · exact List.mem_singleton.mp hd ▸ hlt hf
            · intro e' he' het
              have ⟨e₀, he₀, hee⟩ := List.mem_map.mp he'
              rw [← hee] at het ⊢
              by_cases hx : e₀.timestep = e.timestep
              case pos =>
                rw [if_pos hx] at het ⊢
                exact hf.progress e₀ he₀ het
              case neg =>
                rw [if_neg hx] at het ⊢
                exact hf.progress e₀ he₀ het

theorem sendTimestepEntryToSingleReader_passive {t : Int} {r : Nat}
    (h : sendTimestepEntryToSingleReader s t r = .ok (s', ts)) : ∀ a ∈ ts, a.Passive := by
  have ⟨i, _, h⟩ := sendTimestepEntryToSingleReader_eq_ok h
  obtain ⟨_, _, rfl⟩ | ⟨_, _, _, rfl⟩ := h <;> simp [Task.Passive, Task.Disturbs, Task.Reliant]

theorem readerRequestStep_passive {r : Nat}
    (h : execTask env (.readerRequestStep r) s = .ok (s', ts)) : ∀ a ∈ ts, a.Passive := by
  dsimp only [execTask] at h
  split at h
  case isTrue => cases h
  case isFalse =>
    split at h
    · cases h
      simp
    · obtain ⟨reader, _, h⟩ := Outcome.bind_eq_ok.mp h
      split at h
      case isFalse =>
        cases h
        simp
      case isTrue =>
        split at h
        case h_2 =>
          cases h
          simp
        case h_1 =>
          obtain ⟨⟨s₁, ts₁⟩, h₁, h⟩ := Outcome.bind_eq_ok.mp h
          cases h
          refine List.forall_mem_append.mpr ⟨sendTimestepEntryToSingleReader_passive h₁, ?_⟩
          simp [Task.Passive, Task.Disturbs, Task.Reliant]

-- What a task does to what another one relies on.
theorem execTask_relies {a b : Task} (h : execTask env a s = .ok (s', ts)) (hs : s.Ordered)
    (ha : a.Relies s) (hb : b.Relies s)
    (hab : a.Disturbs → ¬ b.Reliant ∨ ∃ r, a = .readerRequestStep r) : b.Relies s' := by
  have hops := execTask_operations h
  by_cases hd : a.Disturbs
  case pos =>
    obtain hr | ⟨r, rfl⟩ := hab hd
    · exact hb.of_mode hr hops.mode
    · exact readerRequestStep_relies h hs ha hb
  case neg =>
    have hdel : ¬ a.Delivers := fun hdel => by
      cases a <;> first | exact hd trivial | exact hdel
    refine (hops.undisturbed hdel ?_ ?_).relies hb
    · exact fun t ht => hd (ht ▸ trivial)
    · exact fun t ht => hd (ht ▸ trivial)

-- What holds in all runs: the order of the timesteps, and what the tasks of the threads rely on.
structure Writer.Ordered (c : Writer) : Prop where
  state    : c.state.Ordered
  relies   : ∀ i, ∀ a ∈ c.threads i, a.Relies c.state
  arranged : ∀ i, (c.threads i).Pairwise fun a b => a.Disturbs → ¬ b.Reliant
  network  : ∀ a ∈ c.threads .network, ¬ a.Reliant ∧ (a.Disturbs → ∃ r, a = .readerRequestStep r)

namespace Writer.Ordered

theorem opening (p : Parameters) : (Writer.opening p).Ordered where
  state      := .new p
  relies i   := by cases i <;> simp [Writer.opening, Task.Relies]
  arranged i := by cases i <;> simp [Writer.opening]
  network    := by simp [Writer.opening]

theorem begins {i : Thread} {s : Stream} {ts : List Task} (h : Begins i s ts) :
    Follows s ts ∧
      (i = .network → ∀ a ∈ ts, ¬ a.Reliant ∧ (a.Disturbs → ∃ r, a = .readerRequestStep r)) := by
  unfold Begins at h
  split at h
  case h_1 => exact ⟨.single h.2.2, by simp⟩
  case h_8 => exact ⟨.single h.2.1, by simp [Task.Reliant]⟩
  case h_10 => cases h
  all_goals exact ⟨.single trivial, by simp [Task.Reliant, Task.Disturbs]⟩

theorem step {c c' : Writer} {ev : Event Thread Task Environment} (h : Step writer c ev c')
    (hc : c.Ordered) : c'.Ordered := by
  cases h with
  | @start i ts idle hbegins =>
    have ⟨hfollows, hnetwork⟩ := begins hbegins
    constructor
    case state => exact hc.state
    case relies =>
      intro k
      by_cases hk : k = i
      case pos => simpa [hk] using hfollows.relies
      case neg => simpa [hk] using hc.relies k
    case arranged =>
      intro k
      by_cases hk : k = i
      case pos => simpa [hk] using hfollows.arranged
      case neg => simpa [hk] using hc.arranged k
    case network =>
      by_cases hk : .network = i
      case pos => simpa [← hk] using hnetwork hk.symm
      case neg => simpa [hk] using hc.network
  | @run i env task rest ts s' thread ready exec =>
    have exec : execTask env task c.state = .ok (s', ts) := exec
    have htask : task.Relies c.state := hc.relies i task (thread ▸ List.mem_cons_self)
    have hrest := List.pairwise_cons.mp (thread ▸ hc.arranged i)
    have ⟨hordered, hfollows⟩ := execTask_follows exec hc.state htask
    constructor
    case state => exact hordered
    case relies =>
      intro k
      by_cases hk : k = i
      case pos =>
        simp only [hk, Function.update_self]
        refine List.forall_mem_append.mpr ⟨hfollows.relies, fun b hb => ?_⟩
        have hb' := hc.relies i b (thread ▸ List.mem_cons_of_mem _ hb)
        exact execTask_relies exec hc.state htask hb' fun hd => .inl (hrest.left b hb hd)
      case neg =>
        simp only [Function.update_of_ne hk]
        refine fun b hb => execTask_relies exec hc.state htask (hc.relies k b hb) fun hd => ?_
        -- one of the two is the network thread
        cases k with
        | network => exact .inl (hc.network b hb).left
        | main =>
          obtain rfl : .network = i := by
            cases i with
            | main => exact absurd rfl hk
            | network => rfl
          exact .inr ((hc.network task (thread ▸ List.mem_cons_self)).right hd)
    case arranged =>
      intro k
      by_cases hk : k = i
      case pos =>
        simp only [hk, Function.update_self]
        refine List.pairwise_append.mpr ⟨hfollows.arranged, hrest.right, fun a ha b hb hd => ?_⟩
        refine hrest.left b hb ?_
        by_contra hn
        exact (execTask_passive exec hn a ha).left hd
      case neg => simpa [hk] using hc.arranged k
    case network =>
      by_cases hk : .network = i
      case pos =>
        subst hk
        simp only [Function.update_self]
        refine List.forall_mem_append.mpr ⟨fun a ha => ?_, fun b hb => ?_⟩
        · have hpassive : a.Passive := by
            by_cases hd : task.Disturbs
            case pos =>
              obtain ⟨r, rfl⟩ := (hc.network task (thread ▸ List.mem_cons_self)).right hd
              exact readerRequestStep_passive exec a ha
            case neg => exact execTask_passive exec hd a ha
          exact ⟨hpassive.right, fun hd => absurd hd hpassive.left⟩
        · exact hc.network b (thread ▸ List.mem_cons_of_mem _ hb)
      case neg => simpa [hk] using hc.network

theorem reaches {C : Writer → Event Thread Task Environment → Prop} {c c' : Writer}
    (h : Reaches writer C c c') (hc : c.Ordered) : c'.Ordered :=
  h.invariant hc fun hc _ hstep => step hstep hc

end Writer.Ordered

end Sst
