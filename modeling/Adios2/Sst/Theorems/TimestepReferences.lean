import Adios2.Sst.Theorems.References
import Adios2.Sst.Theorems.ClosedReaders

-- The reference count of a timestep in all runs, and how long the timestep stays in the queue.

namespace Sst

open Threads

variable {s s' : Stream} {env : Environment} {ts : List Task}

-- The timestep that the application's thread is providing.
def Writer.provided (c : Writer) : List Int :=
  (c.threads .main).filterMap Task.provides

-- No step takes a timestep from under somebody who holds it, by replaying a release.
def Writer.ReplaysSoundly (c : Writer) : Event Thread Task Environment → Prop
  | .run i env => ∀ task ∈ (c.threads i).head?, task.ReplaysSoundly env c.state c.provided
  | .start _ _ => True

-- The data of the timesteps in the queue are there.
def Stream.Registered (s : Stream) : Prop :=
  ∀ e ∈ s.queuedTimesteps, e.dpRegistered = true

theorem Stream.Registered.map (h : s.Registered) {f : TimestepEntry → TimestepEntry}
    (hf : ∀ e, (f e).dpRegistered = e.dpRegistered) :
    Registered { s with queuedTimesteps := s.queuedTimesteps.map f } := by
  intro e' he'
  have ⟨e, he, hee⟩ := List.mem_map.mp he'
  exact hee ▸ (hf e).trans (h e he)

theorem Operation.registered {task : Task} {forward : Prop} (h : Operation task forward s s')
    (hs : s.Registered) : s'.Registered := by
  cases h with
  | beside h => exact fun e he => hs e (h.queue ▸ he)
  | insert _ registered => exact List.forall_mem_cons.mpr ⟨registered, hs⟩
  | entries _ registered => exact hs.map registered
  | maintain => exact registered_queueMaintenance hs
  | reader | status | join => exact hs
  | deref | deliver =>
    refine Stream.Registered.map hs fun e => ?_
    split <;> rfl

theorem Operations.registered {task : Task} {forward : Prop} (h : Operations task forward s s')
    (hs : s.Registered) : s'.Registered := by
  induction h with
  | refl => exact hs
  | tail _ op ih => exact op.registered ih

structure Writer.Counted (c : Writer) : Prop where
  ordered    : c.Ordered
  references : c.state.References c.provided
  registered : c.state.Registered

theorem Task.provides_eq_none {task : Task} (hr : ¬ task.Reliant)
    (hd : task.Disturbs → ∃ r, task = .readerRequestStep r) : task.provides = none := by
  cases task
  case providedTimestep t =>
    have ⟨r, hr⟩ := hd trivial
    cases hr
  all_goals first | rfl | exact absurd trivial hr

theorem Writer.Ordered.provided_eq {c : Writer} (hc : c.Ordered) {i : Thread} {task : Task}
    {rest : List Task} (thread : c.threads i = task :: rest) :
    ∃ others, c.provided = task.provides.toList ++ others := by
  cases i with
  | main =>
    refine ⟨rest.filterMap Task.provides, ?_⟩
    rw [Writer.provided, thread, List.filterMap_cons]
    cases task.provides <;> rfl
  | network =>
    have hnet := hc.network task (thread ▸ List.mem_cons_self)
    exact ⟨c.provided, by rw [Task.provides_eq_none hnet.left hnet.right]; rfl⟩

namespace Writer.Counted

theorem opening (p : Parameters) : (Writer.opening p).Counted where
  ordered    := .opening p
  references := by
    have hnil : (Writer.opening p).provided = [] := rfl
    rw [hnil]
    exact ⟨by simp [Writer.opening, Stream.new], by simp, .nil⟩
  registered := by simp [Stream.Registered, Writer.opening, Stream.new]

theorem step {c c' : Writer} {ev : Event Thread Task Environment} (h : Step writer c ev c')
    (hc : c.Counted) (hsound : c.ReplaysSoundly ev) : c'.Counted := by
  refine ⟨hc.ordered.step h, ?_, ?registered⟩
  case registered =>
    cases h with
    | start => exact hc.registered
    | run thread ready exec => exact (execTask_operations exec).registered hc.registered
  have href := hc.references
  cases h with
  | @start i ts idle hbegins =>
    cases i with
    | network => simpa [Writer.provided] using href
    | main =>
      have hnil : ts.filterMap Task.provides = [] := by
        have hbegins : Begins .main c.state ts := hbegins
        unfold Begins at hbegins
        split at hbegins <;> first | rfl | contradiction
      rw [Writer.provided, idle] at href
      simpa [Writer.provided, hnil] using href
  | @run i env task rest ts s' thread ready exec =>
    have exec : execTask env task c.state = .ok (s', ts) := exec
    have htask : task.Relies c.state := hc.ordered.relies i task (thread ▸ List.mem_cons_self)
    have hreplay := hsound task (by rw [thread]; rfl)
    cases i with
    | main =>
      have hprovided : c.provided = task.provides.toList ++ rest.filterMap Task.provides := by
        rw [Writer.provided, thread, List.filterMap_cons]
        cases task.provides <;> rfl
      rw [hprovided] at href hreplay
      have := execTask_references exec hc.ordered.state htask href hreplay
      simpa [Writer.provided] using this
    | network =>
      have hnet := hc.ordered.network task (thread ▸ List.mem_cons_self)
      have hnone := Task.provides_eq_none hnet.left hnet.right
      have href : c.state.References (task.provides.toList ++ c.provided) := by rwa [hnone]
      have hreplay : task.ReplaysSoundly env c.state (task.provides.toList ++ c.provided) := by
        rwa [hnone]
      have := execTask_references exec hc.ordered.state htask href hreplay
      have hnil : ts.filterMap Task.provides = [] := by
        by_cases hd : task.Disturbs
        case pos =>
          obtain ⟨r, rfl⟩ := hnet.right hd
          exact filterMap_provides_of_passive (readerRequestStep_passive exec)
        case neg => exact filterMap_provides_of_passive (execTask_passive exec hd)
      rw [hnil] at this
      simpa [Writer.provided] using this

end Writer.Counted

-- No timestep stands on a sent list twice.
theorem Stream.Ordered.holders_eq_countP (h : s.Ordered) (t : Int) :
    s.holders t = s.readers.countP (t ∈ ·.sentTimestepList) := by
  have hnodup : ∀ i ∈ s.readers, i.sentTimestepList.Nodup := by
    intro i hi
    obtain ⟨k, hk⟩ := List.mem_iff_getElem?.mp hi
    have hsent : s.sentTo k = i.sentTimestepList := by simp [Stream.sentTo, hk]
    exact hsent ▸ ((h.ascending k).imp fun hlt => ne_of_lt hlt).sublist (h.sent k)
  unfold Stream.holders
  generalize s.readers = readers at hnodup
  induction readers with
  | nil => rfl
  | cons i readers ih =>
    obtain ⟨hi, hrest⟩ := List.forall_mem_cons.mp hnodup
    rw [List.map_cons, List.sum_cons, List.countP_cons, ih hrest, hi.count]
    simp only [decide_eq_true_eq]
    omega

theorem Writer.Counted.count {c : Writer} (h : c.Counted) {e : TimestepEntry}
    (he : e ∈ c.state.queuedTimesteps) :
    e.referenceCount = (if e.timestep ∈ c.provided then 1 else 0) +
      c.state.readers.countP (e.timestep ∈ ·.sentTimestepList) := by
  rw [h.references.count e he, h.ordered.state.holders_eq_countP, h.references.nodup.count]
  split <;> rfl

-- Tasks that have the queue maintained before they are done.
def Task.Maintains (env : Environment) (s : Stream) : Task → Prop
  | .peerFailCloseRest _ _ | .releaseTimestepRest _ _ | .queueMaintenance | .decideTimestep _
  | .processReleaseList _ | .discardTimestep _ | .providedTimestep _ | .writerCloseRest => True
  | .connClose r => s.status ≠ .destroyed ∧ ∀ i ∈ s.readers[r]?, i.readerStatus = .opening ∨
    i.readerStatus = .peerClosed ∨ i.readerStatus = .closed
  | .processReaderStatusList r (st :: _) => s.status = .established ∧
    (∀ i ∈ s.readers[r]?, i.readerStatus ≠ st) ∧ st ≠ .peerClosed ∧ st ≠ .closed ∧ st ≠ .peerFailed
  | .replayReleases => env.closeReplayEnds = false ∧ env.returned.releaseList ≠ []
  | _ => False

theorem queueMaintenance_maintains : (queueMaintenance s).Maintains ↔ s.Maintains := by
  unfold Stream.Maintains
  rw [queueMaintenance_status, queueMaintenance_readers]

-- Behind maintenance that is not abandoned.
def Stream.Maintained (s : Stream) : Prop :=
  s.Maintains → ∀ e ∈ s.queuedTimesteps, ¬ e.Removable

theorem queueMaintenance_maintained (s : Stream) : (queueMaintenance s).Maintained :=
  fun hm _ he => not_removable_of_mem_queueMaintenance (queueMaintenance_maintains.mp hm) he

theorem Stream.Maintained.modifyReader (h : s.Maintained) {r : Nat} {f : ReaderInfo → ReaderInfo}
    (hf : ∀ i, (f i).readerStatus = i.readerStatus) : (s.modifyReader r f).Maintained := by
  refine fun hm => h ⟨hm.left, fun i hi => ?_⟩
  have hstatus := List.map_modify_of_eq hf s.readers r
  have : i.readerStatus ∈ (s.modifyReader r f).readers.map (·.readerStatus) := by
    rw [Stream.modifyReader_readers, hstatus]
    exact List.mem_map_of_mem hi
  have ⟨i', hi', heq⟩ := List.mem_map.mp this
  exact heq ▸ hm.right i' hi'

theorem distributeDecision_maintained (h : s.Maintained) {t : Int} {discard arriving : Bool}
    {xmitFormats : List FormatID} :
    (distributeDecision s t discard arriving xmitFormats).1.Maintained := by
  intro hm e' he' hr
  have ⟨e, he, hee⟩ := List.mem_map.mp he'
  refine h hm e he ?_
  rw [← hee] at hr
  split at hr <;> exact hr

theorem execTask_maintained {task : Task} (h : execTask env task s = .ok (s', ts))
    (hm : task.Maintains env s) : s'.Maintained := by
  cases task
  all_goals first | exact hm.elim | skip
  case releaseTimestepRest r t =>
    cases h
    exact (queueMaintenance_maintained s).modifyReader fun _ => rfl
  case decideTimestep t =>
    dsimp only [execTask] at h
    split at h
    · obtain rfl : _ = s' := congrArg Prod.fst (Except.ok.inj h)
      exact distributeDecision_maintained (queueMaintenance_maintained _)
    · cases h
      exact queueMaintenance_maintained s
  case processReleaseList list =>
    obtain ⟨s₁, _, h⟩ := Outcome.bind_eq_ok.mp h
    cases h
    exact queueMaintenance_maintained s₁
  case replayReleases =>
    dsimp only [execTask] at h
    rw [if_neg (by simp [hm.left]), if_neg hm.right] at h
    obtain ⟨s₁, _, h⟩ := Outcome.bind_eq_ok.mp h
    cases h
    exact queueMaintenance_maintained s₁
  case connClose r =>
    obtain ⟨reader, hreader, h⟩ := Outcome.bind_eq_ok.mp h
    have hstatus := hm.right reader (Stream.reader_eq_ok.mp hreader)
    rw [if_neg hm.left] at h
    rcases hstatus with hst | hst | hst
    all_goals
      rw [hst] at h
      cases h
      exact queueMaintenance_maintained s
  case processReaderStatusList r list =>
    cases list with
    | nil => exact hm.elim
    | cons st list =>
      have ⟨hs, hne, h₁, h₂, h₃⟩ := hm
      obtain ⟨reader, hreader, h⟩ := Outcome.bind_eq_ok.mp h
      have hne := hne reader (Stream.reader_eq_ok.mp hreader)
      rw [if_neg hne] at h
      obtain ⟨⟨s₁, ts₁⟩, hclose, h⟩ := Outcome.bind_eq_ok.mp h
      cases h
      unfold peerFailCloseWSReader at hclose
      rw [hreader, Outcome.ok_bind, if_neg (by tauto)] at hclose
      dsimp only at hclose
      rw [if_neg (by tauto)] at hclose
      cases hclose
      exact queueMaintenance_maintained _
  all_goals
    cases h
    exact queueMaintenance_maintained _

-- Timestep `t` stands on the sent list of reader `r`, and is in the queue.
def Stream.Keeps (s : Stream) (r : Nat) (t : Int) : Prop :=
  t ∈ s.sentTo r ∧ t ∈ s.timesteps

theorem Stream.holders_pos {r : Nat} {t : Int} (h : t ∈ s.sentTo r) : 0 < s.holders t := by
  have ⟨i, hi, ht⟩ : ∃ i ∈ s.readers, t ∈ i.sentTimestepList := by
    unfold Stream.sentTo at h
    cases hr : s.readers[r]? with
    | none => simp [hr] at h
    | some i => exact ⟨i, List.mem_of_getElem? hr, by simpa [hr] using h⟩
  refine (List.count_pos_iff.mpr ht).trans_le (List.le_sum_of_mem ?_)
  exact List.mem_map.mpr ⟨i, hi, rfl⟩

theorem Stream.sentTo_congr (h : s'.readers.map (·.sentTimestepList) =
    s.readers.map (·.sentTimestepList)) (r : Nat) : s'.sentTo r = s.sentTo r := by
  have := congrArg (fun l : List (List Int) => (l[r]?).getD []) h
  simpa [Stream.sentTo] using this

theorem Operation.keeps {task : Task} {forward : Prop} {provided : List Int} {r : Nat} {t : Int}
    (h : Operation task forward s s') (hs : s.References provided) (hk : s.Keeps r t)
    (hrel : task ≠ .releaseTimestep r t) (hd : ∀ list, task ≠ .derefAllSentTimesteps r list) :
    s'.Keeps r t ∨ s.GoneAt r := by
  obtain ⟨hsent, hqueue⟩ := hk
  cases h with
  | beside h =>
    refine .inl ⟨?_, ?_⟩
    · rwa [Stream.sentTo, h.readers]
    · rwa [Stream.timesteps, h.queue]
  | insert => exact .inl ⟨hsent, List.mem_cons_of_mem _ hqueue⟩
  | @entries f timestep =>
    have hts : (s.queuedTimesteps.map f).map (·.timestep) = s.timesteps := by
      rw [List.map_map]
      exact List.map_congr_left fun e _ => timestep e
    rw [← hts] at hqueue
    exact .inl ⟨hsent, hqueue⟩
  | maintain =>
    refine .inl ⟨?_, hs.mem_queueMaintenance hqueue (.inr (Stream.holders_pos hsent))⟩
    rwa [Stream.sentTo, queueMaintenance_readers]
  | reader h =>
    refine .inl ⟨?_, hqueue⟩
    rwa [Stream.sentTo_congr (List.map_modify_of_eq (fun i => (h i).sent) _ _)]
  | status =>
    refine .inl ⟨?_, hqueue⟩
    rwa [Stream.sentTo_congr (List.map_modify_of_eq (fun i => by rfl) _ _)]
  | join opening sent =>
    refine .inl ⟨?_, hqueue⟩
    unfold Stream.sentTo at hsent ⊢
    cases hr : s.readers[r]? with
    | none => simp [hr] at hsent
    | some i =>
      rw [List.getElem?_append_left (List.getElem?_eq_some_iff.mp hr).1]
      exact hsent
  | deref r' t' sent why =>
    by_cases heq : r' = r ∧ t' = t
    case pos =>
      obtain ⟨rfl, rfl⟩ := heq
      rcases why with why | ⟨list, why⟩ | hgone
      · exact absurd why hrel
      · exact absurd why (hd list)
      · exact .inr hgone
    case neg =>
      have hts : (derefSentTimestep s r' t').timesteps = s.timesteps :=
        Stream.timesteps_modifyEntry _ fun _ => rfl
      refine .inl ⟨?_, hts ▸ hqueue⟩
      rw [Stream.sentTo_derefSentTimestep]
      split
      case isTrue hr =>
        have hne : t ≠ t' := fun ht => heq ⟨hr, ht.symm⟩
        rw [hr]
        exact (List.mem_erase_of_ne hne).mpr hsent
      case isFalse => exact hsent
  | deliver r' t' formats _ _ established =>
    obtain ⟨i, hi, _⟩ := established
    have hts : (s.deliver r' t' formats).timesteps = s.timesteps :=
      Stream.timesteps_modifyEntry _ fun _ => rfl
    refine .inl ⟨?_, hts ▸ hqueue⟩
    rw [Stream.sentTo_deliver (List.getElem?_eq_some_iff.mp hi).1]
    split
    case isTrue hr => exact List.mem_append_left _ (hr ▸ hsent)
    case isFalse => exact hsent

theorem Operations.keeps {task : Task} {forward : Prop} {provided : List Int} {r : Nat} {t : Int}
    (h : Operations task forward s s') (hs : s.References provided) (hk : s.Keeps r t)
    (hrel : task ≠ .releaseTimestep r t) (hd : ∀ list, task ≠ .derefAllSentTimesteps r list)
    (hf : forward) (hc : ¬ task.Counts) (hq : ∀ t, task ≠ .queueTimestep t) :
    s'.Keeps r t ∨ s'.GoneAt r := by
  induction h with
  | refl => exact .inl hk
  | tail hops op ih =>
    rcases ih with hkeep | hgone
    · have href := Operations.references hops hs hc hq
      exact (op.keeps href hkeep hrel hd).imp_right (op.forward hf).goneAt
    · exact .inr ((op.forward hf).goneAt hgone)

-- A release of timestep `t` by reader `r`, as it arrives or as it is replayed.
def Task.Releases (env : Environment) (r : Nat) (t : Int) : Task → Prop
  | .releaseTimestep r' t'   => r' = r ∧ t' = t
  | .processReleaseList list => (r, t) ∈ list
  | .replayReleases          => (r, t) ∈ env.returned.releaseList
  | _                        => False

theorem processReleases_keeps {list : List (Nat × Int)} {provided : List Int} {r : Nat} {t : Int}
    (h : processReleases s list = .ok s') (hs : s.References provided) (hk : s.Keeps r t)
    (hsound : s.ReplaysSoundly provided list) (hrel : (r, t) ∉ list) :
    (queueMaintenance s').Keeps r t := by
  obtain ⟨hsent, hqueue⟩ := hk
  constructor
  · rw [Stream.sentTo, queueMaintenance_readers]
    have := Stream.sentTo_congr (processReleases_sent h) r
    unfold Stream.sentTo at this hsent
    rwa [this]
  · have hpos := Stream.holders_pos hsent
    refine hs.mem_replay h hqueue (.inr hpos) fun rt hrt hrte hne => hrel ?_
    obtain ⟨e, he, het⟩ := Stream.mem_timesteps.mp hqueue
    have hlt : r < s.readers.length := by
      by_contra hge
      rw [Stream.sentTo, List.getElem?_eq_none (not_lt.mp hge)] at hsent
      simp at hsent
    have := (hsound rt hrt e he (het.trans hrte.symm) (hne e he het)).2.1 r hlt (hrte ▸ hsent)
    rwa [hrte] at this

theorem execTask_keeps {task : Task} {others : List Int} {r : Nat} {t : Int}
    (h : execTask env task s = .ok (s', ts)) (hs : s.Ordered) (hr : task.Relies s)
    (href : s.References (task.provides.toList ++ others)) (hk : s.Keeps r t)
    (hsound : task.ReplaysSoundly env s (task.provides.toList ++ others))
    (hf : task.SetsForward env s) (hrel : ¬ task.Releases env r t)
    (hd : ∀ list, task = .derefAllSentTimesteps r list → s.GoneAt r) :
    s'.Keeps r t ∨ s'.GoneAt r := by
  have ⟨hsent, hqueue⟩ := hk
  have hops := execTask_operations h
  by_cases hg : s.GoneAt r
  case pos => exact .inr ((hops.forward hf).goneAt hg)
  have hd (list : Option Int) : task ≠ .derefAllSentTimesteps r list := fun heq => hg (hd list heq)
  cases task with
  | queueTimestep t' =>
    cases h
    exact .inl ⟨hsent, List.mem_cons_of_mem _ hqueue⟩
  | discardTimestep t' =>
    cases h
    refine .inl ⟨?_, (href.discard hs hr).mem_queueMaintenance ?_ (.inr (Stream.holders_pos hsent))⟩
    · rwa [Stream.sentTo, queueMaintenance_readers]
    · rwa [Stream.timesteps_modifyEntry _ fun _ => by rfl]
  | providedTimestep t' =>
    cases h
    have href : Stream.References { s with held := false } (t' :: others) := { href with }
    refine .inl ⟨?_, href.provide.mem_queueMaintenance ?_ (.inr (Stream.holders_pos hsent))⟩
    · rwa [Stream.sentTo, queueMaintenance_readers]
    · rwa [subRefTimestep, Stream.timesteps_modifyEntry _ fun _ => by rfl,
        Stream.timesteps_modifyEntry _ fun _ => by rfl]
  | processReleaseList list =>
    obtain ⟨s₁, h₁, h⟩ := Outcome.bind_eq_ok.mp h
    cases h
    exact .inl (processReleases_keeps h₁ href hk hsound hrel)
  | replayReleases =>
    dsimp only [execTask] at h
    split at h
    case isTrue =>
      cases h
      exact .inl hk
    case isFalse hends =>
      split at h
      · cases h
        exact .inl hk
      · obtain ⟨s₁, h₁, h⟩ := Outcome.bind_eq_ok.mp h
        cases h
        exact .inl (processReleases_keeps h₁ href hk (hsound (by simpa using hends)) hrel)
  | releaseTimestep r' t' =>
    refine hops.keeps href hk (fun heq => hrel ?_) hd hf id (by simp)
    cases heq
    exact ⟨rfl, rfl⟩
  | _ => exact hops.keeps href hk (by simp) hd hf id (by simp)

-- The conditions on a run: no release is replayed for a timestep that somebody else holds, or that
-- stays in the queue, and no status is set back.
def Writer.KeepsReferences (c : Writer) (ev : Event Thread Task Environment) : Prop :=
  c.ReplaysSoundly ev ∧ c.SetsForward ev

def Writer.Releases (c : Writer) (r : Nat) (t : Int) : Event Thread Task Environment → Prop
  | .run i env => ∃ task ∈ (c.threads i).head?, task.Releases env r t
  | .start _ _ => False

-- What holds in all runs that meet the conditions.
structure Writer.Accounted (c : Writer) : Prop where
  counted : c.Counted
  ends    : c.EndsGone

theorem Writer.Accounted.opening (p : Parameters) : (Writer.opening p).Accounted where
  counted := .opening p
  ends    := .opening p

theorem Writer.Accounted.step {c c' : Writer} {ev : Event Thread Task Environment}
    (h : Step writer c ev c') (hc : c.Accounted) (hcond : c.KeepsReferences ev) : c'.Accounted where
  counted := hc.counted.step h hcond.left
  ends    := hc.ends.step h hcond.right

-- A timestep that was sent to a reader stays in the queue until the reader releases it or is gone.
theorem Writer.Accounted.keeps {c c' : Writer} {ev : Event Thread Task Environment} {r : Nat}
    {t : Int} (h : Step writer c ev c') (hc : c.Accounted) (hcond : c.KeepsReferences ev)
    (hrel : ¬ c.Releases r t ev) (hk : c.state.Keeps r t ∨ c.state.GoneAt r) :
    c'.state.Keeps r t ∨ c'.state.GoneAt r := by
  cases h with
  | start => exact hk
  | @run i env task rest ts s' thread ready exec =>
    have exec : execTask env task c.state = .ok (s', ts) := exec
    have htask : task ∈ (c.threads i).head? := by rw [thread]; rfl
    have hf := hcond.right task htask
    rcases hk with hk | hgone
    case inr => exact .inr ((execTask_forward exec hf).goneAt hgone)
    case inl =>
      have hrelies := hc.counted.ordered.relies i task (thread ▸ List.mem_cons_self)
      have hordered := hc.counted.ordered.state
      have href := hc.counted.references
      have hsound := hcond.left task htask
      have hrel : ¬ task.Releases env r t := fun hr => hrel ⟨task, htask, hr⟩
      have hd (list : Option Int) (heq : task = .derefAllSentTimesteps r list) :
          c.state.GoneAt r := hc.ends i task (thread ▸ List.mem_cons_self) r (heq ▸ rfl)
      have ⟨others, hothers⟩ := hc.counted.ordered.provided_eq thread
      rw [hothers] at href hsound
      exact execTask_keeps exec hordered hrelies href hk hsound hf hrel hd

-- What is expected of the references to timesteps. The reference count of a timestep is the number of
-- those that hold it, and its data are there as long as it is in the queue; a timestep that was sent to
-- a reader is in the queue as long as the reader is open and has not released it; and maintenance
-- leaves nothing behind that has expired, is not precious and is held by nobody.
structure Writer.CountsReferences (c : Writer) : Prop where
  count   : ∀ e ∈ c.state.queuedTimesteps,
    e.referenceCount = (if e.timestep ∈ c.provided then 1 else 0) +
      c.state.readers.countP (e.timestep ∈ ·.sentTimestepList) ∧
    0 ≤ e.referenceCount ∧ e.dpRegistered = true
  kept    : ∀ (c' : Writer) (r : Nat) (t : Int) (i i' : ReaderInfo),
    Reaches writer (fun (c : Writer) ev => c.KeepsReferences ev ∧ ¬ c.Releases r t ev) c c' →
    c.state.readers[r]? = some i → t ∈ i.sentTimestepList → t ∈ c.state.timesteps →
    c'.state.readers[r]? = some i' → i'.readerStatus = .established → t ∈ c'.state.timesteps
  removed : ∀ (c' : Writer) (i : Thread) (env : Environment) (task : Task),
    Step writer c (.run i env) c' → c.KeepsReferences (.run i env) →
    task ∈ (c.threads i).head? → task.Maintains env c.state → c'.state.Maintains →
    ∀ e ∈ c'.state.queuedTimesteps, e.expired = true → e.preciousTimestep = false →
      e.timestep ∈ c'.provided ∨ ∃ i ∈ c'.state.readers, e.timestep ∈ i.sentTimestepList

instance (env : Environment) (s : Stream) (provided : List Int) (task : Task) :
    Decidable (task.ReplaysSoundly env s provided) := by
  unfold Task.ReplaysSoundly
  split <;> infer_instance

instance (c : Writer) : ∀ ev, Decidable (c.ReplaysSoundly ev)
  | .run i env => inferInstanceAs (Decidable
    (∀ task ∈ (c.threads i).head?, task.ReplaysSoundly env c.state c.provided))
  | .start _ _ => .isTrue trivial

instance (env : Environment) (r : Nat) (t : Int) (task : Task) :
    Decidable (task.Releases env r t) := by
  unfold Task.Releases
  split <;> infer_instance

instance (c : Writer) (r : Nat) (t : Int) : ∀ ev, Decidable (c.Releases r t ev)
  | .run i env => inferInstanceAs (Decidable (∃ task ∈ (c.threads i).head?, task.Releases env r t))
  | .start _ _ => .isFalse not_false

instance (c : Writer) (ev : Event Thread Task Environment) : Decidable (c.KeepsReferences ev) :=
  inferInstanceAs (Decidable (_ ∧ _))

-- A rank that is not the first, with two readers, for which the first timestep is precious.
def Parameters.precious : Parameters where
  rank                  := 1
  cpCommPattern         := .min
  stepDistributionMode  := .allToAll
  queueFullPolicy       := .block
  queueLimit            := 0
  firstTimestepPrecious := true
  reserveQueueLimit     := 0
  rendezvousReaderCount := 2

-- Rank 0 tells the status of the readers and what they have released.
def Environment.returning (status : List StreamStatus) (releases : List (Nat × Int)) :
    Environment :=
  { Environment.calm with returned := ⟨false, 0, status, releases, []⟩ }

def provision (t : Int) (releases : List (Nat × Int)) : List (Event Thread Task Environment) :=
  .start .main [.queueTimestep t] ::
    List.replicate 15 (.run .main (.returning [.established, .established] releases))

-- The first of the two readers has released timestep 0.
def Writer.replayed : Writer :=
  (writer.follow (fun _ _ => True) (Writer.opening .precious)
    (List.replicate 5 mainRuns ++ provision 0 [] ++ provision 1 [(0, 0)])).get (by decide +kernel)

end Sst
