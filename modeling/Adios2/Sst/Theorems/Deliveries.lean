import Adios2.Sst.Theorems.Operations

-- The order in which timesteps are delivered to the readers.

namespace Sst

open Threads

def Stream.deliveriesTo (s : Stream) (r : Nat) : List Int :=
  (s.deliveries.filter (·.1 = r)).map (·.2)

-- Timestep `t` is being provided, and nobody has been sent it.
structure Stream.Fresh (s : Stream) (t : Int) : Prop where
  current  : s.writerTimestep = t
  unsent   : ∀ d ∈ s.deliveries, d.2 < t
  progress : ∀ e ∈ s.queuedTimesteps, e.timestep = t → e.inProgressFlag = true
  demand   : s.stepDistributionMode = .onDemand → s.lastDemandTimestep < t

namespace Task

-- What a task that is still to run relies on.
def Relies (s : Stream) : Task → Prop
  | .queueTimestep t        => s.writerTimestep < t
  | .decideTimestep t | .waitForRoom t _ | .returnedTimestep t | .discardTimestep t => s.Fresh t
  | .sendToReaders t r      =>
    s.stepDistributionMode = .allToAll ∧ ∀ d ∈ s.deliveries, r ≤ d.1 → d.2 < t
  | .sendRoundRobin t       => s.stepDistributionMode = .roundRobin ∧ s.Fresh t
  | .nextRoundRobin _       => s.stepDistributionMode = .roundRobin
  | .sendOnDemand t         => s.stepDistributionMode ≠ .allToAll ∧
    (s.stepDistributionMode = .onDemand → s.Fresh t)
  | .waitForReader r        => s.stepDistributionMode = .allToAll → ∀ d ∈ s.deliveries, d.1 ≠ r
  | .sendQueued r t         =>
    s.stepDistributionMode = .allToAll ∧ ∀ d ∈ s.deliveries, d.1 = r → d.2 < t
  | .sentQueued r t         =>
    s.stepDistributionMode = .allToAll ∧ ∀ d ∈ s.deliveries, d.1 = r → d.2 ≤ t
  | .readerRequestStep _    => s.stepDistributionMode = .onDemand
  | _                       => True

-- Tasks that rely on more than the parameters of the stream.
def Reliant : Task → Prop
  | .queueTimestep _ | .decideTimestep _ | .waitForRoom _ _ | .returnedTimestep _
  | .discardTimestep _ | .sendToReaders _ _ | .sendRoundRobin _ | .sendOnDemand _
  | .waitForReader _ | .sendQueued _ _ | .sentQueued _ _ => True
  | _ => False

-- Tasks that other tasks of the thread cannot rely on anything behind.
def Disturbs : Task → Prop
  | .queueTimestep _ | .decideTimestep _ | .waitForRoom _ _ | .returnedTimestep _
  | .sendToReaders _ _ | .sendRoundRobin _ | .nextRoundRobin _ | .sendOnDemand _
  | .providedTimestep _ | .rendezvous _ | .acceptReaders _ | .waitForReader _ | .sendQueued _ _
  | .sentQueued _ _ | .readerRequestStep _ => True
  | _ => False

end Task

-- What the tasks that do not disturb others leave alone.
structure Stream.Undisturbed (s s' : Stream) : Prop where
  mode       : s'.stepDistributionMode = s.stepDistributionMode
  timestep   : s'.writerTimestep = s.writerTimestep
  deliveries : s'.deliveries = s.deliveries
  demand     : s'.lastDemandTimestep = s.lastDemandTimestep
  progress   : ∀ e' ∈ s'.queuedTimesteps, ∃ e ∈ s.queuedTimesteps,
    e'.timestep = e.timestep ∧ e'.inProgressFlag = e.inProgressFlag

namespace Stream.Undisturbed

variable {s s' s'' : Stream}

theorem refl (s : Stream) : s.Undisturbed s where
  mode       := rfl
  timestep   := rfl
  deliveries := rfl
  demand     := rfl
  progress e he := ⟨e, he, rfl, rfl⟩

theorem trans (h : s.Undisturbed s') (h' : s'.Undisturbed s'') : s.Undisturbed s'' where
  mode       := h'.mode.trans h.mode
  timestep   := h'.timestep.trans h.timestep
  deliveries := h'.deliveries.trans h.deliveries
  demand     := h'.demand.trans h.demand
  progress e'' he'' := by
    have ⟨e', he', ht', hp'⟩ := h'.progress e'' he''
    have ⟨e, he, ht, hp⟩ := h.progress e' he'
    exact ⟨e, he, ht'.trans ht, hp'.trans hp⟩

theorem fresh (h : s.Undisturbed s') {t : Int} (hf : s.Fresh t) : s'.Fresh t where
  current  := h.timestep.trans hf.current
  unsent   := by
    rw [h.deliveries]
    exact hf.unsent
  progress e' he' ht := by
    have ⟨e, he, hte, hpe⟩ := h.progress e' he'
    rw [hpe]
    exact hf.progress e he (hte.symm.trans ht)
  demand hm := by
    rw [h.demand]
    exact hf.demand (h.mode ▸ hm)

theorem relies (h : s.Undisturbed s') {task : Task} (hr : task.Relies s) : task.Relies s' := by
  cases task
  case queueTimestep t => exact h.timestep.trans_lt hr
  case decideTimestep | waitForRoom | returnedTimestep | discardTimestep => exact h.fresh hr
  case sendToReaders => exact ⟨h.mode.trans hr.1, h.deliveries ▸ hr.2⟩
  case sendRoundRobin => exact ⟨h.mode.trans hr.1, h.fresh hr.2⟩
  case nextRoundRobin => exact h.mode.trans hr
  case sendOnDemand => exact ⟨h.mode.symm ▸ hr.1, fun hm => h.fresh (hr.2 (h.mode ▸ hm))⟩
  case waitForReader => exact fun hm => h.deliveries ▸ hr (h.mode ▸ hm)
  case sendQueued => exact ⟨h.mode.trans hr.1, h.deliveries ▸ hr.2⟩
  case sentQueued => exact ⟨h.mode.trans hr.1, h.deliveries ▸ hr.2⟩
  case readerRequestStep => exact h.mode.trans hr
  all_goals trivial

end Stream.Undisturbed

theorem Operation.undisturbed {s s' : Stream} {task : Task} {forward : Prop}
    (h : Operation task forward s s') (hd : ¬ task.Delivers) (hq : ∀ t, task ≠ .queueTimestep t)
    (hp : ∀ t, task ≠ .providedTimestep t) : s.Undisturbed s' := by
  cases h with
  | beside h =>
    exact ⟨h.mode, h.timestep, h.deliveries, h.demanded hd,
      fun e he => ⟨e, h.queue ▸ he, rfl, rfl⟩⟩
  | insert h => exact absurd h (hq _)
  | entries timestep registered progress counts =>
    refine ⟨rfl, rfl, rfl, rfl, fun e' he' => ?_⟩
    have ⟨e, he, hee⟩ := List.mem_map.mp he'
    exact ⟨e, he, hee ▸ timestep e, hee ▸ progress hp e⟩
  | maintain =>
    rw [queueMaintenance_eq]
    refine ⟨rfl, rfl, rfl, rfl, fun e' he' => ?_⟩
    have ⟨e, he, haged, _⟩ := exists_of_mem_queueMaintenance he'
    exact ⟨e, he, haged.timestep, haged.progress⟩
  | reader | status | join => exact ⟨rfl, rfl, rfl, rfl, fun e he => ⟨e, he, rfl, rfl⟩⟩
  | deref r t =>
    refine ⟨rfl, rfl, rfl, rfl, fun e' he' => ?_⟩
    have ⟨e, he, hee⟩ := List.mem_map.mp he'
    refine ⟨e, he, ?_⟩
    rw [← hee]
    split <;> exact ⟨rfl, rfl⟩
  | deliver _ _ _ hdel => exact absurd hdel hd

theorem Operations.undisturbed {s s' : Stream} {task : Task} {forward : Prop}
    (h : Operations task forward s s') (hd : ¬ task.Delivers) (hq : ∀ t, task ≠ .queueTimestep t)
    (hp : ∀ t, task ≠ .providedTimestep t) : s.Undisturbed s' := by
  induction h with
  | refl => exact .refl s
  | tail _ op ih => exact ih.trans (op.undisturbed hd hq hp)

-- The timesteps stand in the queue in their order, and they are delivered in their order.
structure Stream.Ordered (s : Stream) : Prop where
  queue     : s.timesteps.Pairwise (· > ·)
  queued    : ∀ t ∈ s.timesteps, t ≤ s.writerTimestep
  past      : ∀ d ∈ s.deliveries, d.2 ≤ s.writerTimestep
  known     : ∀ d ∈ s.deliveries, d.1 < s.readers.length
  ascending : ∀ r, (s.deliveriesTo r).Pairwise (· < ·)
  sent      : ∀ r, (s.sentTo r).Sublist (s.deliveriesTo r)
  once      : s.stepDistributionMode ≠ .allToAll → (s.deliveries.map (·.2)).Pairwise (· < ·)
  demanded  : s.stepDistributionMode = .onDemand → ∀ d ∈ s.deliveries, d.2 ≤ s.lastDemandTimestep
  demand    : s.lastDemandTimestep ≤ s.writerTimestep
  requests  : s.stepDistributionMode ≠ .onDemand → s.stepRequestQueue = []

namespace Stream

variable {s s' : Stream} {r k : Nat} {t : Int}

theorem sentTo_modifyReader (f : ReaderInfo → ReaderInfo) :
    (s.modifyReader r f).sentTo k =
      if r = k then (s.readers[r]?.map fun i => (f i).sentTimestepList).getD [] else s.sentTo k := by
  rw [sentTo, modifyReader_readers, List.getElem?_modify]
  by_cases hk : r = k
  case pos =>
    subst hk
    cases hr : s.readers[r]? <;> simp
  case neg => simp [hk, sentTo]

theorem sentTo_derefSentTimestep :
    (derefSentTimestep s r t).sentTo k =
      if r = k then (s.sentTo r).erase t else s.sentTo k := by
  rw [derefSentTimestep, sentTo_modifyReader]
  cases hr : s.readers[r]? <;> simp [sentTo, hr]

theorem sentTo_deliver {formats : Nat} (hr : r < s.readers.length) :
    (s.deliver r t formats).sentTo k =
      if r = k then s.sentTo r ++ [t] else s.sentTo k := by
  have := sentTo_modifyReader (s := s.modifyEntry t fun e => { e with
    referenceCount    := e.referenceCount + 1
    metaDataSendCount := e.metaDataSendCount + 1 }) (r := r) (k := k) fun i => { i with
      lastSentTimestep := t
      sentTimestepList := i.sentTimestepList ++ [t]
      formatSentCount  := i.formatSentCount + formats }
  refine Eq.trans this ?_
  simp [sentTo, List.getElem?_eq_getElem hr]

theorem deliveriesTo_deliver {formats : Nat} :
    (s.deliver r t formats).deliveriesTo k =
      if r = k then s.deliveriesTo r ++ [t] else s.deliveriesTo k := by
  have hds : (s.deliver r t formats).deliveries = s.deliveries ++ [(r, t)] := rfl
  rw [deliveriesTo, hds]
  by_cases hk : r = k <;> simp [deliveriesTo, hk]

theorem timesteps_modifyEntry (f : TimestepEntry → TimestepEntry)
    (hf : ∀ e, (f e).timestep = e.timestep) : (s.modifyEntry t f).timesteps = s.timesteps := by
  rw [timesteps, modifyEntry, List.map_map]
  refine List.map_congr_left fun e _ => ?_
  simp only [Function.comp_apply]
  split
  case isTrue => exact hf e
  case isFalse => rfl

theorem mem_deliveriesTo : t ∈ s.deliveriesTo r ↔ (r, t) ∈ s.deliveries := by
  simp [deliveriesTo]

theorem Ordered.deliver {formats : Nat} (h : s.Ordered) (hq : t ∈ s.timesteps)
    (hr : r < s.readers.length) (hto : ∀ d ∈ s.deliveries, d.1 = r → d.2 < t)
    (honce : s.stepDistributionMode ≠ .allToAll → ∀ d ∈ s.deliveries, d.2 < t)
    (hdemand : s.stepDistributionMode = .onDemand → t ≤ s.lastDemandTimestep) :
    (s.deliver r t formats).Ordered := by
  have hts : (s.deliver r t formats).timesteps = s.timesteps :=
    timesteps_modifyEntry _ fun _ => rfl
  have hds : (s.deliver r t formats).deliveries = s.deliveries ++ [(r, t)] := rfl
  constructor
  case queue => exact hts ▸ h.queue
  case queued => exact hts ▸ h.queued
  case past =>
    rw [hds, List.forall_mem_append, List.forall_mem_singleton]
    exact ⟨h.past, h.queued t hq⟩
  case known =>
    have hlen : (s.deliver r t formats).readers.length = s.readers.length := List.length_modify ..
    rw [hds, List.forall_mem_append, List.forall_mem_singleton, hlen]
    exact ⟨h.known, hr⟩
  case ascending =>
    intro k
    rw [deliveriesTo_deliver]
    split
    case isTrue =>
      refine List.pairwise_append.mpr ⟨h.ascending r, List.pairwise_singleton .., ?_⟩
      intro x hx y hy
      rw [List.mem_singleton.mp hy]
      exact hto _ (mem_deliveriesTo.mp hx) rfl
    case isFalse => exact h.ascending k
  case sent =>
    intro k
    rw [deliveriesTo_deliver, sentTo_deliver hr]
    split
    case isTrue => exact (h.sent r).append_right _
    case isFalse => exact h.sent k
  case once =>
    intro hm
    rw [hds, List.map_append]
    refine List.pairwise_append.mpr ⟨h.once hm, List.pairwise_singleton .., ?_⟩
    intro x hx y hy
    have ⟨d, hd, hdx⟩ := List.mem_map.mp hx
    rw [List.mem_singleton.mp hy, ← hdx]
    exact honce hm d hd
  case demanded =>
    intro hm
    rw [hds, List.forall_mem_append, List.forall_mem_singleton]
    exact ⟨h.demanded hm, hdemand hm⟩
  case demand => exact h.demand
  case requests => exact h.requests

theorem Ordered.insert (h : s.Ordered) {e : TimestepEntry} (he : s.writerTimestep < e.timestep) :
    Ordered { s with
      writerTimestep       := e.timestep
      lastProvidedTimestep := e.timestep
      queuedTimesteps      := e :: s.queuedTimesteps } :=
  { h with
    queue  := List.pairwise_cons.mpr ⟨fun t ht => (h.queued t ht).trans_lt he, h.queue⟩
    queued := List.forall_mem_cons.mpr ⟨le_rfl, fun t ht => (h.queued t ht).trans he.le⟩
    past   := fun d hd => (h.past d hd).trans he.le
    demand := h.demand.trans he.le }

theorem Ordered.of_timesteps (h : s.Ordered) {q : List TimestepEntry}
    (hq : (q.map (·.timestep)).Sublist s.timesteps) : Ordered { s with queuedTimesteps := q } :=
  { h with
    queue  := h.queue.sublist hq
    queued := fun t ht => h.queued t (hq.subset ht) }

theorem Ordered.of_sent (h : s.Ordered) {readers : List ReaderInfo}
    (hlen : s.readers.length ≤ readers.length)
    (hsent : ∀ r, (Stream.sentTo { s with readers := readers } r).Sublist (s.sentTo r)) :
    Ordered { s with readers := readers } :=
  { h with
    known := fun d hd => (h.known d hd).trans_le hlen
    sent  := fun r => (hsent r).trans (h.sent r) }

theorem Ordered.new (p : Parameters) : (Stream.new p).Ordered where
  queue       := .nil
  queued      := by simp [timesteps, Stream.new]
  past        := by simp [Stream.new]
  known       := by simp [Stream.new]
  ascending r := .nil
  sent r      := .refl _
  once _      := .nil
  demanded _  := by simp [Stream.new]
  demand      := le_rfl
  requests _  := rfl

end Stream

theorem Operation.ordered {s s' : Stream} {task : Task} {forward : Prop}
    (h : Operation task forward s s') (hs : s.Ordered) (hd : ¬ task.Delivers)
    (hq : ∀ t, task ≠ .queueTimestep t) : s'.Ordered := by
  cases h with
  | beside h =>
    have hreq := (h.requested fun r hr => hd (hr ▸ trivial)).left
    have hts : s'.timesteps = s.timesteps := congrArg (List.map _) h.queue
    constructor
    case queue => exact hts ▸ hs.queue
    case queued => exact hts ▸ h.timestep ▸ hs.queued
    case past => exact h.deliveries ▸ h.timestep ▸ hs.past
    case known => exact h.deliveries ▸ h.readers ▸ hs.known
    case ascending =>
      intro r
      rw [Stream.deliveriesTo, h.deliveries]
      exact hs.ascending r
    case sent =>
      intro r
      rw [Stream.deliveriesTo, h.deliveries, Stream.sentTo, h.readers]
      exact hs.sent r
    case once => exact h.mode ▸ h.deliveries ▸ hs.once
    case demanded => exact h.mode ▸ h.deliveries ▸ h.demanded hd ▸ hs.demanded
    case demand => exact h.demanded hd ▸ h.timestep ▸ hs.demand
    case requests => exact fun hm => List.sublist_nil.mp (hs.requests (h.mode ▸ hm) ▸ hreq)
  | insert h => exact absurd h (hq _)
  | @entries f timestep registered progress counts =>
    have hts : (s.queuedTimesteps.map f).map (·.timestep) = s.timesteps := by
      rw [List.map_map]
      exact List.map_congr_left fun e _ => timestep e
    exact hs.of_timesteps (hts ▸ .refl _)
  | maintain =>
    rw [queueMaintenance_eq]
    exact hs.of_timesteps queueMaintenance_timesteps_sublist
  | @reader r f h =>
    refine hs.of_sent (List.length_modify ..).ge fun k => ?_
    have hk : (s.modifyReader r f).sentTo k = s.sentTo k := by
      rw [Stream.sentTo_modifyReader]
      simp only [(h _).sent]
      split
      case isTrue hk => rw [← hk, Stream.sentTo]
      case isFalse => rfl
    exact hk ▸ .refl _
  | @status r st h =>
    refine hs.of_sent (List.length_modify ..).ge fun k => ?_
    have hk : (s.modifyReader r fun i => { i with readerStatus := st }).sentTo k = s.sentTo k := by
      rw [Stream.sentTo_modifyReader]
      split
      case isTrue hk => rw [← hk, Stream.sentTo]
      case isFalse => rfl
    exact hk ▸ .refl _
  | @join i opening sent _ _ =>
    refine hs.of_sent (by simp) fun k => ?_
    rw [Stream.sentTo, Stream.sentTo, List.getElem?_append]
    split
    case isTrue => exact .refl _
    case isFalse hk =>
      rw [List.getElem?_eq_none (not_lt.mp hk)]
      cases k - s.readers.length <;> simp [sent]
  | deref r t =>
    have hts : (derefSentTimestep s r t).timesteps = s.timesteps :=
      Stream.timesteps_modifyEntry _ fun _ => rfl
    have hsent (k : Nat) : ((derefSentTimestep s r t).sentTo k).Sublist (s.sentTo k) := by
      rw [Stream.sentTo_derefSentTimestep]
      split
      case isTrue hk => exact hk ▸ List.erase_sublist
      case isFalse => exact .refl _
    exact (hs.of_timesteps (hts.symm ▸ .refl _)).of_sent (List.length_modify ..).ge hsent
  | deliver _ _ _ hdel => exact absurd hdel hd

theorem Operations.ordered {s s' : Stream} {task : Task} {forward : Prop}
    (h : Operations task forward s s') (hs : s.Ordered) (hd : ¬ task.Delivers)
    (hq : ∀ t, task ≠ .queueTimestep t) : s'.Ordered := by
  induction h with
  | refl => exact hs
  | tail _ op ih => exact op.ordered ih hd hq

end Sst
