import Adios2.Sst.Theorems.Messages

-- Every timestep that is put on the sent list of a reader goes out on all of the reader's connections,
-- as long as the reader is established, and on none of them twice.

namespace Sst

open Threads

variable {s s' : Stream} {env : Environment} {ts : List Task}

def Stream.EstablishedAt (s : Stream) (r : Nat) : Prop :=
  ∃ i, s.readers[r]? = some i ∧ i.readerStatus = .established

-- A task that will write the metadata of timestep `t` to a connection of reader `r`.
def Task.Pends (r peer : Nat) (t : Int) : Task → Prop
  | .sendEntryMsg r' t' _ => r' = r ∧ t' = t
  | .sendOneToWSRCohort r' p (.deliverTimestepMetadata t' _ _)
  | .cmWrite r' p (.deliverTimestepMetadata t' _ _) => r' = r ∧ t' = t ∧ p ≤ peer
  | _ => False

def Stream.Wrote (s : Stream) (r peer : Nat) (t : Int) : Prop :=
  ∃ (hasMetadata : Bool) (formats : List FormatID),
    ⟨r, peer, .deliverTimestepMetadata t hasMetadata formats⟩ ∈ s.written

-- A message that is pending is written, or it is still pending, or its reader is gone.
theorem execTask_pends {task : Task} {r peer : Nat} {t : Int} {i : ReaderInfo}
    (h : execTask env task s = .ok (s', ts)) (hp : task.Pends r peer t)
    (hi : s.readers[r]? = some i) (hst : i.readerStatus = .established) (hpeer : peer < i.peers)
    (hconnected : i.connected = true) (hstream : s.status = .established) :
    s'.Wrote r peer t ∨ (∃ a ∈ ts, a.Pends r peer t) ∨ ¬ s'.EstablishedAt r := by
  cases task
  case sendEntryMsg r' t' formats =>
    obtain ⟨rfl, rfl⟩ := hp
    obtain ⟨reader, hreader, h⟩ := Outcome.bind_eq_ok.mp h
    rw [Stream.reader_eq_ok, hi] at hreader
    cases hreader
    rw [if_pos hst] at h
    obtain ⟨e, _, h⟩ := Outcome.bind_eq_ok.mp h
    cases h
    exact .inr (.inl ⟨_, List.mem_singleton_self _, rfl, rfl, Nat.zero_le _⟩)
  case sendOneToWSRCohort r' p msg =>
    cases msg with
    | writerClose => exact hp.elim
    | deliverTimestepMetadata t' b f =>
      obtain ⟨rfl, rfl, hle⟩ := hp
      obtain ⟨reader, hreader, h⟩ := Outcome.bind_eq_ok.mp h
      rw [Stream.reader_eq_ok, hi] at hreader
      cases hreader
      rw [if_pos (hle.trans_lt hpeer), if_pos hconnected] at h
      cases h
      exact .inr (.inl ⟨_, List.mem_singleton_self _, rfl, rfl, hle⟩)
  case cmWrite r' p msg =>
    cases msg with
    | writerClose => exact hp.elim
    | deliverTimestepMetadata t' b f =>
      obtain ⟨rfl, rfl, hle⟩ := hp
      obtain ⟨rfl, rfl⟩ | ⟨hfail, _⟩ := cmWrite_eq_ok h
      · by_cases hpp : p = peer
        case pos =>
          subst hpp
          exact .inl ⟨b, f, List.mem_append_right _ (List.mem_singleton_self _)⟩
        case neg =>
          exact .inr (.inl ⟨_, List.mem_singleton_self _, rfl, rfl, by omega⟩)
      · -- the reader is taken for failed
        obtain ⟨⟨s₁, ts₁⟩, h₁, hfail⟩ := Outcome.bind_eq_ok.mp hfail
        cases hfail
        have hfailed := peerFailCloseWSReader_readerStatus h₁ hi hstream (by simp [hst])
        refine .inr (.inr fun ⟨i', hi', hst'⟩ => ?_)
        rw [hi', Option.map_some, hst'] at hfailed
        cases hfailed
  all_goals exact hp.elim

theorem Operations.deliveries {task : Task} {forward : Prop} (h : Operations task forward s s')
    (hd : ¬ task.Delivers) : s'.deliveries = s.deliveries := by
  induction h with
  | refl => rfl
  | tail _ op ih =>
    cases op with
    | beside h => exact h.deliveries.trans ih
    | maintain =>
      rw [queueMaintenance_eq]
      exact ih
    | deliver _ _ _ hdel => exact absurd hdel hd
    | _ => exact ih

-- A timestep that is delivered is one in the queue, and its metadata are sent to a reader that is
-- established.
theorem execTask_deliveries {task : Task} (h : execTask env task s = .ok (s', ts)) :
    s'.deliveries = s.deliveries ∨
    ∃ r t, s'.deliveries = s.deliveries ++ [(r, t)] ∧ s.EstablishedAt r ∧ t ∈ s.timesteps ∧
      ∃ a ∈ ts, ∀ peer, a.Pends r peer t := by
  by_cases hd : task.Delivers
  case neg => exact .inl ((execTask_operations h).deliveries hd)
  case pos =>
    cases execTask_delivery h hd with
    | none beside => exact .inl beside.deliveries
    | @one s₁ r t i rest beside reader established queued delivers sends =>
      subst delivers sends
      refine .inr ⟨r, t, ?_, ⟨i, reader, established⟩, queued, _, List.mem_cons_self,
        fun peer => ⟨rfl, rfl⟩⟩
      rw [← beside.deliveries]
      rfl

theorem Operations.timesteps_subset {task : Task} {forward : Prop}
    (h : Operations task forward s s') (hq : ∀ t, task ≠ .queueTimestep t) :
    s'.timesteps ⊆ s.timesteps := by
  have hmap {s : Stream} {f : TimestepEntry → TimestepEntry}
      (hf : ∀ e, (f e).timestep = e.timestep) :
      (s.queuedTimesteps.map f).map (·.timestep) = s.timesteps := by
    rw [List.map_map]
    exact List.map_congr_left fun e _ => hf e
  induction h with
  | refl => exact List.Subset.refl _
  | tail _ op ih =>
    refine List.Subset.trans ?_ ih
    cases op with
    | beside h => exact fun t ht => by rwa [Stream.timesteps, h.queue] at ht
    | insert h => exact absurd h (hq _)
    | entries timestep => exact fun t ht => hmap timestep ▸ ht
    | maintain => exact queueMaintenance_timesteps_sublist.subset
    | reader | status | join => exact List.Subset.refl _
    | deref | deliver =>
      refine fun t ht => hmap (fun e => ?_) ▸ ht
      split <;> rfl

-- What holds as long as no status is set back.
structure Writer.Transmits (c : Writer) : Prop where
  sound     : c.Sound
  ends      : c.EndsGone
  connected : c.state.Connected
  opened    : c.state.timesteps ≠ [] ∨ c.state.deliveries ≠ [] → c.state.status = .established
  reached   : ∀ d ∈ c.state.deliveries, ∀ i ∈ c.state.readers[d.1]?, 2 ≤ i.readerStatus.stage
  sent      : ∀ (r : Nat) (t : Int) (i : ReaderInfo), (r, t) ∈ c.state.deliveries →
    c.state.readers[r]? = some i → i.readerStatus = .established → ∀ peer < i.peers,
      c.state.Wrote r peer t ∨ ∃ k, ∃ a ∈ c.threads k, a.Pends r peer t

namespace Writer.Transmits

theorem opening (p : Parameters) : (Writer.opening p).Transmits where
  sound     := .opening p
  ends      := .opening p
  connected := by simp [Stream.Connected, Writer.opening, Stream.new]
  opened    := by simp [Writer.opening, Stream.new, Stream.timesteps]
  reached   := by simp [Writer.opening, Stream.new]
  sent      := by simp [Writer.opening, Stream.new]

theorem step {c c' : Writer} {ev : Event Thread Task Environment} (h : Step writer c ev c')
    (hc : c.Transmits) (hf : c.SetsForward ev) : c'.Transmits := by
  have hsound := hc.sound.step h
  have hends := hc.ends.step h hf
  cases h with
  | @start i ts idle hbegins =>
    refine { hc with sound := hsound, ends := hends, sent := fun r t j hd hj hst peer hp => ?_ }
    refine (hc.sent r t j hd hj hst peer hp).imp_right fun ⟨k, a, ha, hpends⟩ => ⟨k, a, ?_, hpends⟩
    by_cases hk : k = i
    case pos =>
      rw [hk, idle] at ha
      cases ha
    case neg => simpa [hk] using ha
  | @run k env task rest ts s' thread ready exec =>
    have exec : execTask env task c.state = .ok (s', ts) := exec
    have hops := execTask_operations exec
    have hl := hops.later
    have hf := hf task (by rw [thread]; rfl)
    have hforward := hops.forward hf
    have hgone := hc.ends k task (thread ▸ List.mem_cons_self)
    have hcarries := hc.sound.carries k task (thread ▸ List.mem_cons_self)
    have hnew := execTask_deliveries exec
    constructor
    case sound => exact hsound
    case ends => exact hends
    case connected => exact hops.connected hf hc.connected hgone
    case opened =>
      intro hne
      apply hl.status
      by_cases hq : ∃ t, task = .queueTimestep t
      case pos =>
        obtain ⟨t, rfl⟩ := hq
        exact hcarries
      case neg =>
        have hsub := hops.timesteps_subset (not_exists.mp hq)
        rcases hne with hne | hne
        · have ⟨t, ht⟩ := List.exists_mem_of_ne_nil _ hne
          exact hc.opened (.inl (List.ne_nil_of_mem (hsub ht)))
        · obtain heq | ⟨r, t, _, _, hqueued, _⟩ := hnew
          · exact hc.opened (.inr (heq ▸ hne))
          · exact hc.opened (.inl (List.ne_nil_of_mem hqueued))
    case reached =>
      intro d hd i' hi'
      have hold : ∃ i, c.state.readers[d.1]? = some i ∧ 2 ≤ i.readerStatus.stage := by
        have hpast (hd : d ∈ c.state.deliveries) :
            ∃ i, c.state.readers[d.1]? = some i ∧ 2 ≤ i.readerStatus.stage := by
          have hlt := hc.sound.ordered.state.known d hd
          exact ⟨_, List.getElem?_eq_getElem hlt, hc.reached d hd _ (List.getElem?_eq_getElem hlt)⟩
        obtain heq | ⟨r, t, heq, ⟨i, hi, hst⟩, _⟩ := hnew
        · exact hpast (heq ▸ hd)
        · rw [heq] at hd
          rcases List.mem_append.mp hd with hd | hd
          · exact hpast hd
          · rw [List.mem_singleton.mp hd]
            exact ⟨i, hi, by rw [hst]; decide⟩
      have ⟨i, hi, hle⟩ := hold
      have ⟨j, hj, hij⟩ := hforward d.1 i hi
      rw [hi'] at hj
      cases hj
      exact hle.trans hij.stage
    case sent =>
      intro r t i' hd hi' hst' peer hpeer
      have hpend {a : Task} (ha : a ∈ ts) (hp : a.Pends r peer t) :
          ∃ l, ∃ a ∈ Function.update c.threads k (ts ++ rest) l, a.Pends r peer t :=
        ⟨k, a, by simp [ha], hp⟩
      have hpast (hd : (r, t) ∈ c.state.deliveries) : s'.Wrote r peer t ∨
          ∃ l, ∃ a ∈ Function.update c.threads k (ts ++ rest) l, a.Pends r peer t := by
        -- the reader was established in front of the task
        have hlt := hc.sound.ordered.state.known _ hd
        have hi := List.getElem?_eq_getElem hlt
        set i := c.state.readers[r]
        have hreached := hc.reached _ hd i hi
        have ⟨j, hj, hij⟩ := hforward r i hi
        rw [hi'] at hj
        cases hj
        have hst : i.readerStatus = .established := by
          have := hij.stage
          rw [hst'] at this
          cases hs : i.readerStatus <;> simp_all [StreamStatus.stage]
        have hpeers : peer < i.peers := by
          have ⟨j, hj, hij⟩ := hl.peers r i hi
          rw [hi'] at hj
          cases hj
          exact hij ▸ hpeer
        have hconnected : i.connected = true := by
          refine (hc.connected i (List.getElem_mem hlt)).resolve_left fun hg => ?_
          rw [ReaderInfo.Gone, hst] at hg
          cases hg
        have hstatus := hc.opened (.inr (List.ne_nil_of_mem hd))
        obtain ⟨b, f, hw⟩ | ⟨l, a, ha, hp⟩ := hc.sent r t i hd hi hst peer hpeers
        · exact .inl ⟨b, f, hl.written hw⟩
        · by_cases hl : l = k
          case neg => exact .inr ⟨l, a, by simpa [hl] using ha, hp⟩
          case pos =>
            subst hl
            rw [thread] at ha
            rcases List.mem_cons.mp ha with rfl | ha
            · have := execTask_pends exec hp hi hst hpeers hconnected hstatus
              obtain hw | ⟨a, ha, hp⟩ | hnot := this
              · exact .inl hw
              · exact .inr (hpend ha hp)
              · exact absurd ⟨i', hi', hst'⟩ hnot
            · exact .inr ⟨l, a, by simp [ha], hp⟩
      obtain heq | ⟨r₁, t₁, heq, _, _, a, ha, hp⟩ := hnew
      · exact hpast (heq ▸ hd)
      · rw [heq] at hd
        rcases List.mem_append.mp hd with hd | hd
        · exact hpast hd
        · cases List.mem_singleton.mp hd
          exact .inr (hpend ha (hp peer))

end Writer.Transmits

-- Nothing goes out twice.

def Message.IsMetadata (t : Int) : Message → Bool
  | .deliverTimestepMetadata t' true _ => t' = t
  | _                                  => false

-- How often the metadata of timestep `t` went out to connection `peer` of reader `r`.
def Stream.copies (s : Stream) (r peer : Nat) (t : Int) : Nat :=
  s.written.countP fun w => w.reader = r ∧ w.peer = peer ∧ w.msg.IsMetadata t

-- How often a task will still write them.
def Task.copies (r peer : Nat) (t : Int) : Task → Nat
  | .sendEntryMsg r' t' _ => if r' = r ∧ t' = t then 1 else 0
  | .sendOneToWSRCohort r' p msg | .cmWrite r' p msg =>
    if r' = r ∧ p ≤ peer ∧ msg.IsMetadata t then 1 else 0
  | _ => 0

def copiesOf (r peer : Nat) (t : Int) (ts : List Task) : Nat :=
  (ts.map (·.copies r peer t)).sum

theorem copiesOf_append {r peer : Nat} {t : Int} (ts ts' : List Task) :
    copiesOf r peer t (ts ++ ts') = copiesOf r peer t ts + copiesOf r peer t ts' := by
  simp [copiesOf]

theorem copiesOf_eq_zero (r peer : Nat) (t : Int) (h : ∀ a ∈ ts, a.Quiet) :
    copiesOf r peer t ts = 0 := by
  refine List.sum_eq_zero fun n hn => ?_
  have ⟨a, ha, han⟩ := List.mem_map.mp hn
  have hq := h a ha
  cases a <;> first | exact han.symm | exact absurd hq id

theorem Message.Notifies.isMetadata {msg : Message} (h : msg.Notifies) (t : Int) :
    msg.IsMetadata t = false := by
  unfold Message.IsMetadata
  split
  · exact h.elim
  · rfl

theorem provideTasks_copies {r peer : Nat} {t t' : Int} {info : ReturnMetadataInfo} :
    copiesOf r peer t (provideTasks s t' info) = 0 := by
  unfold provideTasks
  cases s.stepDistributionMode <;> split <;> split <;>
    simp [copiesOf, Task.copies]

theorem sendCloseMsgs_copies {r peer : Nat} {t : Int} :
    copiesOf r peer t (sendCloseMsgs s) = 0 := by
  simp [copiesOf, sendCloseMsgs, Task.copies]

-- The tasks that hand on a message write it at most once.
theorem execTask_copies_of_speaks {task : Task} (r peer : Nat) (t : Int)
    (h : execTask env task s = .ok (s', ts)) (hc : task.Carries s) (hs : task.Speaks) :
    s'.copies r peer t + copiesOf r peer t ts ≤ s.copies r peer t + task.copies r peer t := by
  have hops := execTask_operations h
  have hsame (hw : ∀ r peer msg, task ≠ .cmWrite r peer msg) :
      s'.copies r peer t = s.copies r peer t := by
    rw [Stream.copies, hops.written hw, Stream.copies]
  cases task with
  | sendEntryMsg r' t' formats =>
    rw [hsame (by simp)]
    obtain ⟨reader, _, h⟩ := Outcome.bind_eq_ok.mp h
    split at h
    case isTrue =>
      obtain ⟨e, _, h⟩ := Outcome.bind_eq_ok.mp h
      cases h
      cases e.hasMetadata <;> simp [copiesOf, Task.copies, Message.IsMetadata]
    case isFalse =>
      cases h
      simp [copiesOf]
  | sendOneToWSRCohort r' p msg =>
    rw [hsame (by simp)]
    obtain ⟨reader, _, h⟩ := Outcome.bind_eq_ok.mp h
    split at h
    · split at h
      · cases h
        simp [copiesOf, Task.copies]
      · cases h
        cases hm : msg.IsMetadata t <;>
          simp only [copiesOf, Task.copies, hm, List.map_cons, List.map_nil, List.sum_cons,
            List.sum_nil, and_true, and_false, if_false, reduceCtorEq]
        · omega
        · split <;> split <;> omega
    · cases h
      simp [copiesOf]
  | cmWrite r' p msg =>
    obtain ⟨rfl, rfl⟩ | ⟨hfail, hw⟩ := cmWrite_eq_ok h
    · cases hm : msg.IsMetadata t <;>
        simp only [Stream.copies, List.countP_append, List.countP_singleton, copiesOf, Task.copies, hm,
          List.map_cons, List.map_nil, List.sum_cons, List.sum_nil, decide_eq_true_eq, and_true,
          and_false, if_false, reduceCtorEq]
      · omega
      · split <;> split <;> split <;> omega
    · have ⟨ts₁, hts, hq⟩ := peerFailCloseThen_quiet hfail
      rw [Stream.copies, hw, Stream.copies, hts, copiesOf_append, copiesOf_eq_zero r peer t hq]
      cases hm : msg.IsMetadata t <;>
        simp only [copiesOf, Task.copies, hm, List.map_cons, List.map_nil, List.sum_cons,
          List.sum_nil, and_true, and_false, if_false, reduceCtorEq]
      · omega
      · split <;> split <;> omega
  | sendOneToEachReaderRank r' msg =>
    rw [hsame (by simp)]
    have hm := Message.Notifies.isMetadata hc.right t
    dsimp only [execTask] at h
    split at h
    · cases h
      simp [copiesOf]
    · split at h <;> cases h <;> simp [copiesOf, Task.copies, hm]
  | queueTimestep t' =>
    rw [hsame (by simp)]
    cases h
    split <;> simp [copiesOf, Task.copies]
  | decideTimestep t' =>
    rw [hsame (by simp)]
    dsimp only [execTask] at h
    split at h
    · obtain rfl : _ = ts := congrArg Prod.snd (Except.ok.inj h)
      rw [distributeDecision, provideTasks_copies]
      exact Nat.le_refl _
    · cases h
      simp [copiesOf, Task.copies]
  | waitForRoom t' arriving =>
    rw [hsame (by simp)]
    obtain rfl : _ = ts := congrArg Prod.snd (Except.ok.inj h)
    rw [distributeDecision, provideTasks_copies]
    exact Nat.le_refl _
  | returnedTimestep t' =>
    rw [hsame (by simp)]
    cases h
    rw [provideTasks_copies]
    exact Nat.le_refl _
  | requestedStepSent | demandedStepSent =>
    rw [hsame (by simp)]
    cases h
    split
    · rw [sendCloseMsgs_copies]
      exact Nat.le_refl _
    · exact Nat.le_refl _
  | writerClose =>
    rw [hsame (by simp)]
    cases h
    rw [copiesOf_append]
    split
    · rw [sendCloseMsgs_copies]
      exact Nat.le_refl _
    · exact Nat.le_refl _
  | _ => exact absurd hs id

theorem execTask_copies {task : Task} (r peer : Nat) (t : Int)
    (h : execTask env task s = .ok (s', ts)) (hc : task.Carries s) :
    s'.copies r peer t + copiesOf r peer t ts + s.deliveries.count (r, t) ≤
      s.copies r peer t + task.copies r peer t + s'.deliveries.count (r, t) := by
  have hops := execTask_operations h
  have hsame (hw : ∀ r peer msg, task ≠ .cmWrite r peer msg) :
      s'.copies r peer t = s.copies r peer t := by
    rw [Stream.copies, hops.written hw, Stream.copies]
  by_cases hdel : task.Delivers
  case pos =>
    have hw := hsame fun r peer msg ht => by simp [ht, Task.Delivers] at hdel
    cases execTask_delivery h hdel with
    | none beside quiet =>
      rw [hw, copiesOf_eq_zero r peer t quiet, beside.deliveries]
      omega
    | @one s₁ r₁ t₁ i rest beside _ _ _ delivers sends quiet =>
      have hdeliveries : s'.deliveries = s.deliveries ++ [(r₁, t₁)] := by
        rw [← beside.deliveries, delivers]
        rfl
      rw [hw, hdeliveries, List.count_append, List.count_singleton, sends, copiesOf, List.map_cons,
        List.sum_cons]
      have := copiesOf_eq_zero r peer t quiet
      unfold copiesOf at this
      rw [this]
      by_cases heq : (r₁, t₁) = (r, t)
      case pos =>
        cases heq
        simp only [Task.copies, and_self, if_true, beq_self_eq_true]
        omega
      case neg =>
        have hne : ¬ (r₁ = r ∧ t₁ = t) := fun ⟨hr, ht⟩ => heq (by rw [hr, ht])
        simp only [Task.copies, if_neg hne]
        omega
  case neg =>
    rw [hops.deliveries hdel]
    by_cases hsp : task.Speaks
    case neg =>
      have hw := hsame fun r peer msg ht => hsp (by rw [ht]; trivial)
      rw [hw, copiesOf_eq_zero r peer t (execTask_quiet h hdel hsp)]
      omega
    case pos =>
      have := execTask_copies_of_speaks r peer t h hc hsp
      omega

-- No more is written, and will be, than is delivered.
def Writer.Limited (c : Writer) : Prop :=
  ∀ r peer t, c.state.copies r peer t + copiesOf r peer t (c.threads .main) +
    copiesOf r peer t (c.threads .network) ≤ c.state.deliveries.count (r, t)

theorem Writer.Limited.opening (p : Parameters) : (Writer.opening p).Limited := by
  intro r peer t
  simp [Writer.opening, Stream.new, Stream.copies, copiesOf, Task.copies]

theorem Writer.Limited.step {c c' : Writer} {ev : Event Thread Task Environment}
    (h : Step writer c ev c') (hc : c.Limited) (hs : c.Sound) : c'.Limited := by
  intro r peer t
  have hc := hc r peer t
  cases h with
  | @start i ts idle hbegins =>
    have hbegins : Begins i c.state ts := hbegins
    have hts : copiesOf r peer t ts = 0 := by
      unfold Begins at hbegins
      split at hbegins <;> first | contradiction | simp [copiesOf, Task.copies]
    cases i with
    | main =>
      have hmain : Function.update c.threads .main ts .network = c.threads .network := by simp
      simp only [Function.update_self, hmain, hts]
      omega
    | network =>
      have hnet : Function.update c.threads .network ts .main = c.threads .main := by simp
      simp only [Function.update_self, hnet, hts]
      omega
  | @run i env task rest ts s' thread ready exec =>
    have exec : execTask env task c.state = .ok (s', ts) := exec
    have htask := execTask_copies r peer t exec
      (hs.carries i task (thread ▸ List.mem_cons_self))
    have hcons : copiesOf r peer t (task :: rest) =
        task.copies r peer t + copiesOf r peer t rest := by
      simp [copiesOf]
    cases i with
    | main =>
      have hmain : Function.update c.threads .main (ts ++ rest) .network = c.threads .network := by
        simp
      rw [thread, hcons] at hc
      simp only [Function.update_self, hmain, copiesOf_append]
      omega
    | network =>
      have hnet : Function.update c.threads .network (ts ++ rest) .main = c.threads .main := by
        simp
      rw [thread, hcons] at hc
      simp only [Function.update_self, hnet, copiesOf_append]
      omega

-- Every timestep is delivered to a reader once.
theorem Stream.Ordered.count_le_one (h : s.Ordered) (r : Nat) (t : Int) :
    s.deliveries.count (r, t) ≤ 1 := by
  have hnodup : (s.deliveriesTo r).Nodup := (h.ascending r).imp fun hlt => ne_of_lt hlt
  have hle := List.nodup_iff_count_le_one.mp hnodup t
  refine le_trans ?_ hle
  rw [Stream.deliveriesTo, List.count, List.count, List.countP_map, List.countP_filter]
  refine List.countP_mono_left fun d _ hd => ?_
  obtain rfl : d = (r, t) := by simpa using hd
  simp

end Sst
