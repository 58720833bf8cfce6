import Adios2.Sst.Theorems.TaskOrder
import Adios2.Lib.Lists

-- The reference counts of the timesteps in the queue.

namespace Sst

open Threads

-- The timestep that is held for the application until it has been provided.
def Task.provides : Task → Option Int
  | .decideTimestep t | .waitForRoom t _ | .returnedTimestep t | .discardTimestep t
  | .providedTimestep t => some t
  | _ => none

-- How often a timestep stands on sent lists.
def Stream.holders (s : Stream) (t : Int) : Nat :=
  (s.readers.map (·.sentTimestepList.count t)).sum

-- A timestep is held once while it is being provided, and once for each time that it stands on a sent
-- list.
structure Stream.References (s : Stream) (provided : List Int) : Prop where
  count  : ∀ e ∈ s.queuedTimesteps,
    e.referenceCount = provided.count e.timestep + s.holders e.timestep
  queued : ∀ t ∈ provided, t ∈ s.timesteps
  nodup  : provided.Nodup

namespace Stream

variable {s s' : Stream} {r : Nat} {t : Int} {provided : List Int}

theorem holders_modifyReader {i : ReaderInfo} (f : ReaderInfo → ReaderInfo)
    (hi : s.readers[r]? = some i) :
    (s.modifyReader r f).holders t + i.sentTimestepList.count t =
      s.holders t + (f i).sentTimestepList.count t := by
  have ⟨hr, hi⟩ := List.getElem?_eq_some_iff.mp hi
  have := List.sum_map_modify (fun i => i.sentTimestepList.count t) f hr
  rwa [hi] at this

theorem holders_modifyReader_of_sent (f : ReaderInfo → ReaderInfo)
    (hf : ∀ i, (f i).sentTimestepList = i.sentTimestepList) :
    (s.modifyReader r f).holders t = s.holders t := by
  rw [holders, modifyReader_readers, List.map_modify_of_eq fun i => by rw [hf]]
  rfl

theorem holders_derefSentTimestep {x : Int} (ht : t ∈ s.sentTo r) :
    (derefSentTimestep s r t).holders x + (if x = t then 1 else 0) = s.holders x := by
  have ⟨i, hi, hmem⟩ : ∃ i, s.readers[r]? = some i ∧ t ∈ i.sentTimestepList := by
    unfold sentTo at ht
    cases hi : s.readers[r]? with
    | none => simp [hi] at ht
    | some i => exact ⟨i, rfl, by simpa [hi] using ht⟩
  have := holders_modifyReader (s := subRefTimestep s t) (t := x) (fun i =>
    { i with sentTimestepList := i.sentTimestepList.erase t }) hi
  have hpos := List.count_pos_iff.mpr hmem
  rw [List.count_erase] at this
  have hs : (subRefTimestep s t).holders x = s.holders x := rfl
  rw [hs] at this
  unfold derefSentTimestep
  by_cases hx : x = t
  case pos =>
    subst hx
    simp only [BEq.rfl, if_true] at this ⊢
    omega
  case neg =>
    have hne : (t == x) = false := by simpa using Ne.symm hx
    simp only [hne, hx, if_false, Bool.false_eq_true] at this ⊢
    omega

theorem holders_deliver (t : Int) (formats : Nat) (x : Int) (hr : ∃ i, s.readers[r]? = some i) :
    (s.deliver r t formats).holders x = s.holders x + (if x = t then 1 else 0) := by
  have ⟨i, hi⟩ := hr
  have := holders_modifyReader (s := s.modifyEntry t fun e => { e with
    referenceCount    := e.referenceCount + 1
    metaDataSendCount := e.metaDataSendCount + 1 }) (t := x) (fun i => { i with
      lastSentTimestep := t
      sentTimestepList := i.sentTimestepList ++ [t]
      formatSentCount  := i.formatSentCount + formats }) hi
  have hdeliver : (s.deliver r t formats).holders x + i.sentTimestepList.count x =
      s.holders x + (i.sentTimestepList ++ [t]).count x := this
  rw [List.count_append, List.count_singleton] at hdeliver
  by_cases hx : x = t
  case pos =>
    subst hx
    simp only [BEq.rfl, if_true] at hdeliver ⊢
    omega
  case neg =>
    have hne : (t == x) = false := by simpa using Ne.symm hx
    simp only [hne, hx, if_false, Bool.false_eq_true] at hdeliver ⊢
    omega

namespace References

variable {s s' : Stream} {r : Nat} {t : Int} {provided : List Int}

theorem pos (h : s.References provided) {e : TimestepEntry} (he : e ∈ s.queuedTimesteps)
    (ht : e.timestep ∈ provided ∨ 0 < s.holders e.timestep) : 0 < e.referenceCount := by
  have := h.count e he
  rcases ht with ht | ht
  · have := List.count_pos_iff.mpr ht
    omega
  · omega

-- The readers do not matter but for their sent lists.
theorem of_readers (h : s.References provided) (hq : s'.queuedTimesteps = s.queuedTimesteps)
    (hr : ∀ x, s'.holders x = s.holders x) : s'.References provided where
  count e he := by
    rw [hr]
    exact h.count e (hq ▸ he)
  queued x hx := by
    rw [Stream.timesteps, hq]
    exact h.queued x hx
  nodup := h.nodup

-- Nobody holds a timestep that maintenance removes.
theorem mem_queueMaintenance (h : s.References provided) (hq : t ∈ s.timesteps)
    (ht : t ∈ provided ∨ 0 < s.holders t) : t ∈ (queueMaintenance s).timesteps := by
  have ⟨e, he, het⟩ := Stream.mem_timesteps.mp hq
  obtain ⟨e', he', haged, _⟩ | ⟨hzero, _⟩ := Sst.mem_queueMaintenance he
  · exact Stream.mem_timesteps.mpr ⟨e', he', haged.timestep.trans het⟩
  · have := h.pos he (het ▸ ht)
    omega

theorem maintain (h : s.References provided) : (queueMaintenance s).References provided where
  count e' he' := by
    have ⟨e, he, haged, _⟩ := exists_of_mem_queueMaintenance he'
    rw [haged.count, haged.timestep, h.count e he]
    unfold Stream.holders
    rw [queueMaintenance_readers]
  queued x hx := h.mem_queueMaintenance (h.queued x hx) (.inl hx)
  nodup := h.nodup

theorem deref (h : s.References provided) (ht : t ∈ s.sentTo r) :
    (derefSentTimestep s r t).References provided where
  count e' he' := by
    have ⟨e, he, hee⟩ := List.mem_map.mp he'
    have hcount := h.count e he
    have hhold := holders_derefSentTimestep (x := e.timestep) ht
    rw [← hee]
    split
    case isTrue heq =>
      simp only [heq, if_true] at hcount hhold ⊢
      omega
    case isFalse hne =>
      simp only [hne, if_false] at hhold
      omega
  queued x hx := by
    have hts : (derefSentTimestep s r t).timesteps = s.timesteps :=
      Stream.timesteps_modifyEntry _ fun _ => rfl
    exact hts ▸ h.queued x hx
  nodup := h.nodup

theorem deliver {formats : Nat} (h : s.References provided) (hr : ∃ i, s.readers[r]? = some i) :
    (s.deliver r t formats).References provided where
  count e' he' := by
    have ⟨e, he, hee⟩ := List.mem_map.mp he'
    have hcount := h.count e he
    have hhold := holders_deliver t formats e.timestep hr
    rw [← hee]
    split
    case isTrue heq =>
      simp only [heq, if_true] at hcount hhold ⊢
      omega
    case isFalse hne =>
      simp only [hne, if_false] at hhold
      omega
  queued x hx := by
    have hts : (s.deliver r t formats).timesteps = s.timesteps :=
      Stream.timesteps_modifyEntry _ fun _ => rfl
    exact hts ▸ h.queued x hx
  nodup := h.nodup

end References

end Stream

theorem Operation.references {s s' : Stream} {task : Task} {forward : Prop} {provided : List Int}
    (h : Operation task forward s s') (hs : s.References provided) (hc : ¬ task.Counts)
    (hq : ∀ t, task ≠ .queueTimestep t) : s'.References provided := by
  cases h with
  | beside h => exact hs.of_readers h.queue fun x => by rw [Stream.holders, h.readers]; rfl
  | insert h => exact absurd h (hq _)
  | @entries f timestep _ progress counts =>
    have hts : (s.queuedTimesteps.map f).map (·.timestep) = s.timesteps := by
      rw [List.map_map]
      exact List.map_congr_left fun e _ => timestep e
    refine ⟨fun e' he' => ?_, fun x hx => ?_, hs.nodup⟩
    · have ⟨e, he, hee⟩ := List.mem_map.mp he'
      rw [← hee, counts hc e, timestep e]
      exact hs.count e he
    · have hx := hs.queued x hx
      rw [← hts] at hx
      exact hx
  | maintain => exact hs.maintain
  | reader h =>
    exact hs.of_readers rfl fun x => Stream.holders_modifyReader_of_sent _ fun i => (h i).sent
  | status h => exact hs.of_readers rfl fun x => Stream.holders_modifyReader_of_sent _ fun _ => rfl
  | join opening sent => exact hs.of_readers rfl fun x => by simp [Stream.holders, sent]
  | deref r t sent why => exact hs.deref sent
  | deliver r t formats _ queued established =>
    exact hs.deliver ⟨_, established.choose_spec.left⟩

theorem Operations.references {s s' : Stream} {task : Task} {forward : Prop} {provided : List Int}
    (h : Operations task forward s s') (hs : s.References provided) (hc : ¬ task.Counts)
    (hq : ∀ t, task ≠ .queueTimestep t) : s'.References provided := by
  induction h with
  | refl => exact hs
  | tail _ op ih => exact op.references ih hc hq

theorem Task.Passive.provides {task : Task} (h : task.Passive)
    (hd : ∀ t, task ≠ .discardTimestep t) : task.provides = none := by
  have ⟨hdis, _⟩ := h
  cases task <;> first | rfl | exact absurd trivial hdis | exact absurd rfl (hd _)

variable {s s' : Stream} {env : Environment} {ts : List Task}

theorem filterMap_provides_of_passive (h : ∀ a ∈ ts, a.Passive) : ts.filterMap Task.provides = [] := by
  refine List.filterMap_eq_nil_iff.mpr fun a ha => (h a ha).provides ?_
  rintro t rfl
  exact (h _ ha).right trivial

theorem filterMap_provides_provideTasks {t : Int} {info : ReturnMetadataInfo} :
    (provideTasks s t info).filterMap Task.provides = [t] := by
  unfold provideTasks
  simp only [List.filterMap_cons, List.filterMap_append, Task.provides]
  have hrel : (if s.cpCommPattern = .min ∧ s.rank ≠ 0 then
      [Task.processReleaseList info.releaseList] else []).filterMap Task.provides = [] := by
    split <;> rfl
  rw [hrel]
  split
  case isTrue => rfl
  case isFalse => cases s.stepDistributionMode <;> rfl

theorem participateInReaderOpen_provides {rest failed : List Task}
    (h : participateInReaderOpen env s rest failed = .ok (s', ts))
    (hrest : rest.filterMap Task.provides = []) (hfailed : failed.filterMap Task.provides = []) :
    ts.filterMap Task.provides = [] := by
  unfold participateInReaderOpen at h
  split at h
  case isTrue => cases h
  case isFalse =>
    dsimp only at h
    split at h
    case isTrue =>
      cases h
      rw [List.filterMap_cons, hrest]
      have hwait (c : Prop) [Decidable c] (r : Nat) :
          (if c then Task.waitForReader r else .adoptReaderStatus r).provides = none := by
        split <;> rfl
      rw [hwait]
    case isFalse =>
      cases h
      exact hfailed

-- Every task hands on what is held for the application.
theorem execTask_provides {task : Task} (h : execTask env task s = .ok (s', ts))
    (hq : ∀ t, task ≠ .queueTimestep t) (hc : ¬ task.Counts) :
    ts.filterMap Task.provides = task.provides.toList := by
  by_cases hd : task.Disturbs
  case neg =>
    rw [filterMap_provides_of_passive (execTask_passive h hd)]
    cases task <;> first | rfl | exact absurd trivial hd | exact absurd trivial hc
  cases task with
  | queueTimestep t => exact absurd rfl (hq t)
  | decideTimestep t =>
    dsimp only [execTask] at h
    split at h
    · obtain rfl : _ = ts := congrArg Prod.snd (Except.ok.inj h)
      exact filterMap_provides_provideTasks
    · cases h
      rfl
  | waitForRoom t arriving =>
    obtain rfl : _ = ts := congrArg Prod.snd (Except.ok.inj h)
    exact filterMap_provides_provideTasks
  | returnedTimestep t =>
    cases h
    exact filterMap_provides_provideTasks
  | providedTimestep t => exact absurd trivial hc
  | nextRoundRobin t =>
    cases h
    rfl
  | sentQueued r t =>
    obtain ⟨e, _, h⟩ := Outcome.bind_eq_ok.mp h
    cases h
    rfl
  | waitForReader r =>
    obtain ⟨reader, _, h⟩ := Outcome.bind_eq_ok.mp h
    split at h
    case isTrue =>
      cases h
      split <;> rfl
    case isFalse => cases h
  | rendezvous count =>
    cases count with
    | zero =>
      cases h
      rfl
    | succ count => exact participateInReaderOpen_provides h rfl rfl
  | acceptReaders count =>
    cases count with
    | zero =>
      cases h
      rfl
    | succ count => exact participateInReaderOpen_provides h rfl rfl
  | sendQueued r t =>
    obtain ⟨reader, _, h⟩ := Outcome.bind_eq_ok.mp h
    split at h
    case isTrue =>
      split at h
      · cases h
        rfl
      · obtain ⟨⟨s₁, ts₁⟩, h₁, h⟩ := Outcome.bind_eq_ok.mp h
        cases h
        rw [List.filterMap_append,
          filterMap_provides_of_passive (sendTimestepEntryToSingleReader_passive h₁)]
        rfl
    case isFalse =>
      cases h
      rfl
  | sendToReaders t r =>
    dsimp only [execTask] at h
    split at h
    case isTrue =>
      obtain ⟨⟨s₁, ts₁⟩, h₁, h⟩ := Outcome.bind_eq_ok.mp h
      cases h
      rw [List.filterMap_append,
        filterMap_provides_of_passive (sendTimestepEntryToSingleReader_passive h₁)]
      rfl
    case isFalse =>
      cases h
      rfl
  | sendRoundRobin t =>
    dsimp only [execTask] at h
    split at h
    case isTrue =>
      cases h
      rfl
    case isFalse =>
      obtain ⟨⟨s₁, ts₁⟩, h₁, h⟩ := Outcome.bind_eq_ok.mp h
      cases h
      rw [List.filterMap_append,
        filterMap_provides_of_passive (sendTimestepEntryToSingleReader_passive h₁)]
      rfl
  | sendOnDemand t =>
    dsimp only [execTask] at h
    split at h
    case isTrue =>
      cases h
      rfl
    case isFalse =>
      obtain ⟨⟨request, requests⟩, _, h⟩ := Outcome.bind_eq_ok.mp h
      cases request with
      | none =>
        cases h
        rfl
      | some r =>
        obtain ⟨⟨s₁, ts₁⟩, h₁, h⟩ := Outcome.bind_eq_ok.mp h
        cases h
        rw [List.filterMap_append,
          filterMap_provides_of_passive (sendTimestepEntryToSingleReader_passive h₁)]
        rfl
  | readerRequestStep r => exact filterMap_provides_of_passive (readerRequestStep_passive h)
  | _ => exact absurd hd id

theorem processReleases_queue {list : List (Nat × Int)} (h : processReleases s list = .ok s') :
    s'.queuedTimesteps = s.queuedTimesteps.map fun e =>
      if e.timestep ∈ list.map (·.2) then { e with referenceCount := 0 } else e := by
  unfold processReleases at h
  induction list generalizing s with
  | nil =>
    cases h
    simp
  | cons rt list ih =>
    rw [List.foldlM_cons] at h
    obtain ⟨s₁, h₁, h⟩ := Outcome.bind_eq_ok.mp h
    have hone : s₁.queuedTimesteps = s.queuedTimesteps.map fun e =>
        if e.timestep = rt.2 then { e with referenceCount := 0 } else e := by
      dsimp only at h₁
      split at h₁
      case isTrue =>
        obtain ⟨_, _, h₁⟩ := Outcome.bind_eq_ok.mp h₁
        cases h₁
        rfl
      case isFalse hnone =>
        cases h₁
        refine ((List.map_congr_left fun e he => ?_).trans (List.map_id' _)).symm
        refine if_neg fun het => hnone (Stream.findEntry_isSome.mpr ?_)
        exact Stream.mem_timesteps.mpr ⟨e, he, het⟩
    rw [ih h, hone, List.map_map]
    refine List.map_congr_left fun e _ => ?_
    rw [Function.comp_apply, List.map_cons]
    by_cases he : e.timestep = rt.2
    case pos =>
      rw [if_pos he, if_pos (List.mem_cons.mpr (.inl he))]
      split <;> rfl
    case neg =>
      rw [if_neg he]
      simp only [List.mem_cons, he, false_or]

theorem processReleases_sent {list : List (Nat × Int)} (h : processReleases s list = .ok s') :
    s'.readers.map (·.sentTimestepList) = s.readers.map (·.sentTimestepList) := by
  unfold processReleases at h
  induction list generalizing s with
  | nil =>
    cases h
    rfl
  | cons rt list ih =>
    rw [List.foldlM_cons] at h
    obtain ⟨s₁, h₁, h⟩ := Outcome.bind_eq_ok.mp h
    rw [ih h]
    dsimp only at h₁
    split at h₁
    case isTrue =>
      obtain ⟨_, _, h₁⟩ := Outcome.bind_eq_ok.mp h₁
      cases h₁
      rw [Stream.modifyEntry_readers, Stream.modifyReader_readers]
      exact List.map_modify_of_eq (fun i => by rfl) _ _
    case isFalse =>
      cases h₁
      rfl

-- Reader `r` has released timestep `t` or a later one, or does so in a list of releases.
def Stream.PassedBy (s : Stream) (list : List (Nat × Int)) (t : Int) (r : Nat) (i : ReaderInfo) :
    Prop :=
  t ≤ i.lastReleasedTimestep ∨ ∃ rt ∈ list, rt.1 = r ∧ rt.2 ∈ s.timesteps ∧ t ≤ rt.2

def Stream.Passed (s : Stream) (list : List (Nat × Int)) (t : Int) : Prop :=
  ∀ r < s.readers.length, ∀ i ∈ s.readers[r]?,
    i.readerStatus = .established → s.PassedBy list t r i

instance (s : Stream) (list : List (Nat × Int)) (t : Int) (r : Nat) (i : ReaderInfo) :
    Decidable (s.PassedBy list t r i) :=
  inferInstanceAs (Decidable (_ ∨ _))

instance (s : Stream) (list : List (Nat × Int)) (t : Int) : Decidable (s.Passed list t) :=
  inferInstanceAs (Decidable (∀ r < s.readers.length, ∀ i ∈ s.readers[r]?,
    i.readerStatus = .established → s.PassedBy list t r i))

-- Maintenance is possible, and it removes an entry once it is released: it expires, where it has not,
-- as nobody waits for it any more and there is no room for it in the reserve.
def Stream.Discharges (s : Stream) (list : List (Nat × Int)) (e : TimestepEntry) : Prop :=
  s.Maintains ∧ e.preciousTimestep = false ∧ (e.expired = true ∨ s.Passed list e.timestep ∧
    s.reserveQueueLimit <
      (s.queuedTimesteps.countP fun f =>
        f.preciousTimestep && (f.timestep ∈ list.map (·.2) || f.referenceCount = 0)) +
      (s.queuedTimesteps.countP fun f => e.timestep ≤ f.timestep ∧ s.Passed list f.timestep))

instance (s : Stream) (list : List (Nat × Int)) (e : TimestepEntry) :
    Decidable (s.Discharges list e) :=
  inferInstanceAs (Decidable (_ ∧ _ ∧ (_ ∨ _ ∧ _)))

-- A release that is replayed for a timestep that is held finds that every reader that was sent it
-- releases it, and that nothing else keeps it in the queue.
def Stream.ReplaysSoundly (s : Stream) (provided : List Int) (list : List (Nat × Int)) : Prop :=
  ∀ rt ∈ list, ∀ e ∈ s.queuedTimesteps, e.timestep = rt.2 → e.referenceCount ≠ 0 →
    rt.2 ∉ provided ∧ (∀ r < s.readers.length, rt.2 ∈ s.sentTo r → (r, rt.2) ∈ list) ∧
    s.Discharges list e

instance (s : Stream) (provided : List Int) (list : List (Nat × Int)) :
    Decidable (s.ReplaysSoundly provided list) :=
  inferInstanceAs (Decidable (∀ rt ∈ list, ∀ e ∈ s.queuedTimesteps, e.timestep = rt.2 →
    e.referenceCount ≠ 0 → _ ∧ (∀ r < s.readers.length, rt.2 ∈ s.sentTo r → (r, rt.2) ∈ list) ∧
      s.Discharges list e))

-- What replayed releases leave of the state.
structure Stream.Replayed (s s' : Stream) (list : List (Nat × Int)) : Prop where
  status  : s'.status = s.status
  reserve : s'.reserveQueueLimit = s.reserveQueueLimit
  readers : ∀ (r : Nat) (i' : ReaderInfo), s'.readers[r]? = some i' → ∃ i, s.readers[r]? = some i ∧
    i'.readerStatus = i.readerStatus ∧ ∀ t, s.PassedBy list t r i → t ≤ i'.lastReleasedTimestep

theorem processReleases_replayed {list : List (Nat × Int)} (h : processReleases s list = .ok s') :
    s.Replayed s' list := by
  unfold processReleases at h
  induction list generalizing s with
  | nil =>
    cases h
    refine ⟨rfl, rfl, fun r i hi => ⟨i, hi, rfl, fun t ht => ht.resolve_right ?_⟩⟩
    simp
  | cons rt list ih =>
    rw [List.foldlM_cons] at h
    obtain ⟨s₁, h₁, h⟩ := Outcome.bind_eq_ok.mp h
    have hs := ih h
    dsimp only at h₁
    split at h₁
    case isTrue hqueued =>
      obtain ⟨_, _, h₁⟩ := Outcome.bind_eq_ok.mp h₁
      cases h₁
      refine ⟨hs.status, hs.reserve, fun r i' hi' => ?_⟩
      have ⟨i₁, hi₁, hst, hpassed⟩ := hs.readers r i' hi'
      rw [Stream.modifyEntry_readers, Stream.modifyReader_readers, List.getElem?_modify] at hi₁
      have ⟨i, hi, hii⟩ := Option.map_eq_some_iff.mp hi₁
      have hts : Stream.timesteps ((s.modifyReader rt.1 fun i => { i with
          lastReleasedTimestep := max i.lastReleasedTimestep rt.2 }).modifyEntry rt.2 fun e =>
            { e with referenceCount := 0 }) = s.timesteps :=
        Stream.timesteps_modifyEntry _ fun _ => by rfl
      refine ⟨i, hi, ?_, fun t ht => hpassed t ?_⟩
      · rw [hst, ← hii]
        split <;> rfl
      · unfold Stream.PassedBy at ht ⊢
        rw [hts]
        rcases ht with ht | ⟨rt', hmem, hr, hq, ht⟩
        case inl =>
          refine .inl (ht.trans ?_)
          rw [← hii]
          split
          · exact le_max_left _ _
          · exact le_rfl
        case inr =>
          rcases List.mem_cons.mp hmem with rfl | hmem
          case inl =>
            refine .inl (ht.trans ?_)
            rw [← hii, if_pos hr]
            exact le_max_right _ _
          case inr => exact .inr ⟨rt', hmem, hr, hq, ht⟩
    case isFalse hqueued =>
      cases h₁
      refine ⟨hs.status, hs.reserve, fun r i' hi' => ?_⟩
      have ⟨i, hi, hst, hpassed⟩ := hs.readers r i' hi'
      refine ⟨i, hi, hst, fun t ht => hpassed t (ht.imp_right ?_)⟩
      rintro ⟨rt', hmem, hr, hq, ht⟩
      rcases List.mem_cons.mp hmem with rfl | hmem
      case inl => exact absurd (Stream.findEntry_isSome.mpr hq) hqueued
      case inr => exact ⟨rt', hmem, hr, hq, ht⟩

theorem Stream.Replayed.released {list : List (Nat × Int)} (h : s.Replayed s' list) {t : Int}
    (ht : s.Passed list t) : Released (smallestLastReleasedTimestep s') t := by
  rw [released_smallestLastReleasedTimestep]
  intro i' hi' hst
  have ⟨r, hr⟩ := List.mem_iff_getElem?.mp hi'
  have ⟨i, hi, hst', hpassed⟩ := h.readers r i' hr
  have hlt := (List.getElem?_eq_some_iff.mp hi).1
  exact hpassed t (ht r hlt i hi (hst'.symm.trans hst))

-- An entry that is discharged does not survive the maintenance behind the releases.
theorem Stream.Discharges.not_mem {list : List (Nat × Int)} {e : TimestepEntry}
    (h : s.Discharges list e) (hs : s.timesteps.Pairwise (· > ·)) (he : e ∈ s.queuedTimesteps)
    (hlist : e.timestep ∈ list.map (·.2)) (hrel : processReleases s list = .ok s') :
    e.timestep ∉ (queueMaintenance s').timesteps := by
  obtain ⟨hm, hprecious, hexp⟩ := h
  have hrep := processReleases_replayed hrel
  have hqueue := processReleases_queue hrel
  have hts : s'.timesteps = s.timesteps := by
    rw [Stream.timesteps, hqueue, List.map_map]
    refine List.map_congr_left fun f _ => ?_
    rw [Function.comp_apply]
    split <;> rfl
  have hm' : s'.Maintains := by
    refine ⟨hrep.status.trans hm.left, fun i' hi' => ?_⟩
    obtain ⟨r, hr⟩ := List.mem_iff_getElem?.mp hi'
    obtain ⟨i, hi, hst, _⟩ := hrep.readers r i' hr
    exact hst ▸ hm.right i (List.mem_of_getElem? hi)
  refine not_mem_queueMaintenance hm' (hts ▸ hs) fun e' he' het' => ?_
  -- there is one entry for the timestep
  have heq : e' = { e with referenceCount := 0 } := by
    rw [hqueue] at he'
    obtain ⟨f, hf, hfe⟩ := List.mem_map.mp he'
    have hft : f.timestep = e.timestep := by
      rw [← het', ← hfe]
      split <;> rfl
    have := List.inj_on_of_nodup_map (hs.imp fun hlt => ne_of_gt hlt) hf he hft
    rw [← hfe, if_pos (hft ▸ hlist), this]
  subst heq
  refine ⟨hprecious, rfl, hexp.imp_right fun hout => ⟨hrep.released hout.left, ?_⟩⟩
  have hreserve := hout.right
  have hprec : s'.queuedTimesteps.countP (fun f => f.preciousTimestep && f.referenceCount = 0) =
      s.queuedTimesteps.countP fun f =>
        f.preciousTimestep && (f.timestep ∈ list.map (·.2) || f.referenceCount = 0) := by
    rw [hqueue, List.countP_map]
    refine List.countP_congr fun f _ => ?_
    rw [Function.comp_apply]
    split <;> simp_all
  have hcount : (s.queuedTimesteps.countP fun f =>
        e.timestep ≤ f.timestep ∧ s.Passed list f.timestep) ≤
      s'.queuedTimesteps.countP fun f =>
        e.timestep ≤ f.timestep ∧ Released (smallestLastReleasedTimestep s') f.timestep := by
    rw [hqueue, List.countP_map]
    refine List.countP_mono_left fun f _ hf => ?_
    rw [decide_eq_true_eq] at hf
    have : (if f.timestep ∈ list.map (·.2) then { f with referenceCount := 0 }
        else f).timestep = f.timestep := by
      split <;> rfl
    rw [Function.comp_apply, this, decide_eq_true_eq]
    exact hf.imp_right hrep.released
  rw [Stream.reserve, hprec, hrep.reserve]
  omega

namespace Stream.References

variable {r : Nat} {t : Int} {provided : List Int}

theorem holders_eq_zero (hs : s.Ordered) (hd : ∀ d ∈ s.deliveries, d.2 ≠ t) : s.holders t = 0 := by
  refine List.sum_eq_zero fun n hn => ?_
  have ⟨i, hi, hin⟩ := List.mem_map.mp hn
  have ⟨k, hk⟩ := List.mem_iff_getElem?.mp hi
  rw [← hin, List.count_eq_zero]
  intro ht
  have hsent : t ∈ s.sentTo k := by simpa [Stream.sentTo, hk] using ht
  exact hd _ (Stream.mem_deliveriesTo.mp ((hs.sent k).subset hsent)) rfl

theorem insert (h : s.References provided) (hs : s.Ordered) {e : TimestepEntry}
    (he : s.writerTimestep < e.timestep) (hone : e.referenceCount = 1) :
    References { s with
      writerTimestep       := e.timestep
      lastProvidedTimestep := e.timestep
      queuedTimesteps      := e :: s.queuedTimesteps } (e.timestep :: provided) := by
  have hnew : e.timestep ∉ s.timesteps := fun hmem => (hs.queued _ hmem).not_gt he
  have hprovided : e.timestep ∉ provided := fun hmem => hnew (h.queued _ hmem)
  have hzero : s.holders e.timestep = 0 :=
    holders_eq_zero hs fun d hd => ((hs.past d hd).trans_lt he).ne
  constructor
  case count =>
    refine List.forall_mem_cons.mpr ⟨?_, fun e' he' => ?_⟩
    · rw [hone, List.count_cons_self, List.count_eq_zero.mpr hprovided]
      exact congrArg (fun n : Nat => (1 : Int) + n) hzero.symm
    · have hne : e.timestep ≠ e'.timestep := fun heq =>
        hnew (Stream.mem_timesteps.mpr ⟨e', he', heq.symm⟩)
      rw [List.count_cons_of_ne hne]
      exact h.count e' he'
  case queued =>
    refine List.forall_mem_cons.mpr ⟨List.mem_cons_self, fun x hx => ?_⟩
    exact List.mem_cons_of_mem _ (h.queued x hx)
  case nodup => exact List.nodup_cons.mpr ⟨hprovided, h.nodup⟩

-- What was held for the application is given up.
theorem giveUp (h : s.References (t :: provided)) {q : List TimestepEntry}
    {f : TimestepEntry → TimestepEntry} (hq : q = s.queuedTimesteps.map f)
    (timestep : ∀ e, (f e).timestep = e.timestep)
    (count : ∀ e ∈ s.queuedTimesteps, (f e).referenceCount =
      if e.timestep = t then e.referenceCount - 1 else e.referenceCount) :
    References { s with queuedTimesteps := q } provided := by
  have ⟨hnot, hnodup⟩ := List.nodup_cons.mp h.nodup
  have hts : q.map (·.timestep) = s.timesteps := by
    rw [hq, List.map_map]
    exact List.map_congr_left fun e _ => timestep e
  constructor
  case count =>
    intro e' he'
    have he' : e' ∈ q := he'
    rw [hq] at he'
    have ⟨e, he, hee⟩ := List.mem_map.mp he'
    have hcount := h.count e he
    rw [← hee, count e he, timestep e]
    by_cases ht : e.timestep = t
    case pos =>
      rw [if_pos ht, hcount, ht, List.count_cons_self]
      have : s.holders t = Stream.holders { s with queuedTimesteps := q } t := rfl
      omega
    case neg =>
      rw [if_neg ht, hcount, List.count_cons_of_ne (Ne.symm ht)]
      rfl
  case queued =>
    intro x hx
    have hx := h.queued x (List.mem_cons_of_mem _ hx)
    rw [← hts] at hx
    exact hx
  case nodup => exact hnodup

theorem discard (h : s.References (t :: provided)) (hs : s.Ordered) (hfresh : s.Fresh t) :
    (s.modifyEntry t fun e => { e with
      expired := true, referenceCount := 0, hasMetadata := false }).References
      provided := by
  have hzero := holders_eq_zero hs fun d hd => (hfresh.unsent d hd).ne
  have hnot : t ∉ provided := (List.nodup_cons.mp h.nodup).left
  refine h.giveUp rfl (fun e => ?_) fun e he => ?_
  · split <;> rfl
  · split
    case isTrue ht =>
      -- nobody but the application holds it
      have := h.count e he
      rw [ht, hzero, List.count_cons_self, List.count_eq_zero.mpr hnot] at this
      change (0 : Int) = e.referenceCount - 1
      omega
    case isFalse => rfl

theorem provide (h : s.References (t :: provided)) :
    (subRefTimestep (s.modifyEntry t fun e => { e with inProgressFlag := false }) t).References
      provided := by
  have hq := List.map_map (l := s.queuedTimesteps)
    (f := fun e => if e.timestep = t then { e with inProgressFlag := false } else e)
    (g := fun e : TimestepEntry =>
      if e.timestep = t then { e with referenceCount := e.referenceCount - 1 } else e)
  refine h.giveUp hq (fun e => ?_) fun e he => ?_
  · by_cases ht : e.timestep = t <;> simp [ht]
  · by_cases ht : e.timestep = t <;> simp [ht]

-- A timestep that is held and that no release is replayed for stays in the queue.
theorem mem_replay {list : List (Nat × Int)} (h : s.References provided)
    (hrel : processReleases s list = .ok s') (hq : t ∈ s.timesteps)
    (ht : t ∈ provided ∨ 0 < s.holders t)
    (hnot : ∀ rt ∈ list, rt.2 = t →
      (∀ e ∈ s.queuedTimesteps, e.timestep = t → e.referenceCount ≠ 0) → False) :
    t ∈ (queueMaintenance s').timesteps := by
  have ⟨e, he, het⟩ := Stream.mem_timesteps.mp hq
  have hpos := h.pos he (het ▸ ht)
  have hkeep : e.timestep ∉ list.map (·.2) := by
    intro hmem
    have ⟨rt, hrt, hrte⟩ := List.mem_map.mp hmem
    exact hnot rt hrt (hrte.trans het) fun e' he' het' => (h.pos he' (het' ▸ ht)).ne'
  have he₁ : e ∈ s'.queuedTimesteps := by
    rw [processReleases_queue hrel]
    exact List.mem_map.mpr ⟨e, he, if_neg hkeep⟩
  obtain ⟨e', he', haged, _⟩ | ⟨hzero, _⟩ := Sst.mem_queueMaintenance he₁
  · exact Stream.mem_timesteps.mpr ⟨e', he', haged.timestep.trans het⟩
  · omega

theorem replay {list : List (Nat × Int)} (h : s.References provided) (hs : s.Ordered)
    (hsound : s.ReplaysSoundly provided list) (hrel : processReleases s list = .ok s') :
    (queueMaintenance s').References provided := by
  have hqueue := processReleases_queue hrel
  have hholders (x : Int) : (queueMaintenance s').holders x = s.holders x := by
    have := congrArg (fun l : List (List Int) => (l.map (·.count x)).sum) (processReleases_sent hrel)
    simp only [List.map_map] at this
    unfold Stream.holders
    rw [queueMaintenance_readers]
    exact this
  constructor
  case count =>
    intro e' he'
    have ⟨e₁, he₁, haged, _⟩ := exists_of_mem_queueMaintenance he'
    rw [hqueue] at he₁
    have ⟨e, he, hee⟩ := List.mem_map.mp he₁
    have ht : e'.timestep = e.timestep := by
      rw [haged.timestep, ← hee]
      split <;> rfl
    rw [hholders, haged.count, ht, ← h.count e he, ← hee]
    split
    case isFalse => rfl
    case isTrue hmem =>
      -- it would have gone, if it had been held
      have ⟨rt, hrt, hrte⟩ := List.mem_map.mp hmem
      by_contra hne
      have hdis := (hsound rt hrt e he hrte.symm (Ne.symm hne)).2.2
      refine hdis.not_mem hs.queue he hmem hrel ?_
      exact Stream.mem_timesteps.mpr ⟨e', he', ht⟩
  case queued =>
    refine fun x hx => h.mem_replay hrel (h.queued x hx) (.inl hx) fun rt hrt hx' hne => ?_
    have ⟨e, he, hex⟩ := Stream.mem_timesteps.mp (h.queued x hx)
    exact (hsound rt hrt e he (hex.trans hx'.symm) (hne e he hex)).1 (hx' ▸ hx)
  case nodup => exact h.nodup

end Stream.References

def Task.ReplaysSoundly (env : Environment) (s : Stream) (provided : List Int) : Task → Prop
  | .processReleaseList list => s.ReplaysSoundly provided list
  | .replayReleases          =>
    env.closeReplayEnds = false → s.ReplaysSoundly provided env.returned.releaseList
  | _                        => True

theorem execTask_references {task : Task} {others : List Int}
    (h : execTask env task s = .ok (s', ts)) (hs : s.Ordered) (hr : task.Relies s)
    (href : s.References (task.provides.toList ++ others))
    (hsound : task.ReplaysSoundly env s (task.provides.toList ++ others)) :
    s'.References (ts.filterMap Task.provides ++ others) := by
  cases task with
  | queueTimestep t =>
    cases h
    refine cast (congrArg _ ?_) (href.insert hs hr rfl)
    split <;> rfl
  | discardTimestep t =>
    cases h
    exact (href.discard hs hr).maintain
  | providedTimestep t =>
    cases h
    have href : Stream.References { s with held := false } (t :: others) := { href with }
    exact href.provide.maintain
  | processReleaseList list =>
    obtain ⟨s₁, h₁, h⟩ := Outcome.bind_eq_ok.mp h
    cases h
    exact href.replay hs hsound h₁
  | replayReleases =>
    dsimp only [execTask] at h
    split at h
    case isTrue =>
      cases h
      exact href
    case isFalse hends =>
      split at h
      · cases h
        exact href
      · obtain ⟨s₁, h₁, h⟩ := Outcome.bind_eq_ok.mp h
        cases h
        exact href.replay hs (hsound (by simpa using hends)) h₁
  | _ =>
    rw [execTask_provides h (by simp) id]
    exact (execTask_operations h).references href id (by simp)

end Sst
