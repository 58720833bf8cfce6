import Adios2.Sst.Writer

-- What the operations of a writer do to its list of readers.

namespace Sst

open Threads

namespace Stream

variable {s s' : Stream}

theorem reader_eq_ok {r : Nat} {i : ReaderInfo} : s.reader r = .ok i ↔ s.readers[r]? = some i := by
  simp [reader]

@[simp]
theorem modifyEntry_readers (t : Int) (f : TimestepEntry → TimestepEntry) :
    (s.modifyEntry t f).readers = s.readers := rfl

@[simp]
theorem modifyReader_readers (r : Nat) (f : ReaderInfo → ReaderInfo) :
    (s.modifyReader r f).readers = s.readers.modify r f := rfl

@[simp]
theorem modifyReader_queuedTimesteps (r : Nat) (f : ReaderInfo → ReaderInfo) :
    (s.modifyReader r f).queuedTimesteps = s.queuedTimesteps := rfl

@[simp]
theorem modifyReader_status (r : Nat) (f : ReaderInfo → ReaderInfo) :
    (s.modifyReader r f).status = s.status := rfl

@[simp]
theorem modifyEntry_status (t : Int) (f : TimestepEntry → TimestepEntry) :
    (s.modifyEntry t f).status = s.status := rfl

end Stream

@[simp]
theorem queueMaintenance_readers (s : Stream) : (queueMaintenance s).readers = s.readers := by
  unfold queueMaintenance
  split <;> rfl

@[simp]
theorem queueMaintenance_status (s : Stream) : (queueMaintenance s).status = s.status := by
  unfold queueMaintenance
  split <;> rfl

@[simp]
theorem subRefTimestep_readers (s : Stream) (t : Int) : (subRefTimestep s t).readers = s.readers :=
  rfl

@[simp]
theorem untagPreciousTimesteps_readers (s : Stream) :
    (untagPreciousTimesteps s).readers = s.readers := rfl

-- A relation between the readers of two states of a stream, reader by reader. There may be more
-- readers in the second.
def Stream.Related (R : ReaderInfo → ReaderInfo → Prop) (s s' : Stream) : Prop :=
  ∀ (r : Nat) (i : ReaderInfo), s.readers[r]? = some i → ∃ i', s'.readers[r]? = some i' ∧ R i i'

namespace Stream.Related

variable {R : ReaderInfo → ReaderInfo → Prop} {s s' s'' : Stream}

theorem of_eq (hr : ∀ i, R i i) (h : s'.readers = s.readers) : s.Related R s' :=
  fun r i hi => ⟨i, by rw [h, hi], hr i⟩

theorem trans (ht : ∀ {i₁ i₂ i₃}, R i₁ i₂ → R i₂ i₃ → R i₁ i₃) (h : s.Related R s')
    (h' : s'.Related R s'') : s.Related R s'' := by
  intro r i hi
  have ⟨i₁, hi₁, hr₁⟩ := h r i hi
  have ⟨i₂, hi₂, hr₂⟩ := h' r i₁ hi₁
  exact ⟨i₂, hi₂, ht hr₁ hr₂⟩

theorem of_eq_left (h : s.readers = s'.readers) (h' : s'.Related R s'') : s.Related R s'' :=
  fun r i hi => h' r i (h ▸ hi)

theorem of_eq_right (h : s''.readers = s'.readers) (h' : s.Related R s') : s.Related R s'' := by
  intro r i hi
  have ⟨i', hi', hr⟩ := h' r i hi
  exact ⟨i', by rw [h, hi'], hr⟩

theorem modify (hr : ∀ i, R i i) {r : Nat} {f : ReaderInfo → ReaderInfo}
    (hf : ∀ i, s.readers[r]? = some i → R i (f i)) : s.Related R (s.modifyReader r f) := by
  intro k i hi
  rw [modifyReader_readers, List.getElem?_modify, hi]
  by_cases hk : r = k
  case pos => exact ⟨f i, by simp [hk], hf i (hk ▸ hi)⟩
  case neg => exact ⟨i, by simp [hk], hr i⟩

theorem append (hr : ∀ i, R i i) {added : List ReaderInfo}
    (h : s'.readers = s.readers ++ added) : s.Related R s' := by
  intro r i hi
  have hlt := (List.getElem?_eq_some_iff.mp hi).1
  exact ⟨i, by rw [h, List.getElem?_append_left hlt, hi], hr i⟩

end Stream.Related

-- Runs of a writer with one rank. Nothing that it writes is lost.
def Environment.calm : Environment where
  writeSucceeds   := true
  returned        := ⟨false, 0, [], [], []⟩
  openSucceeds    := true
  peers           := 1
  othersStart     := 0
  readerStatus    := .established
  closeReplayEnds := true

def Parameters.simple : Parameters where
  rank                  := 0
  cpCommPattern         := .peer
  stepDistributionMode  := .allToAll
  queueFullPolicy       := .block
  queueLimit            := 0
  firstTimestepPrecious := false
  reserveQueueLimit     := 0
  rendezvousReaderCount := 1

abbrev mainRuns : Event Thread Task Environment := .run .main .calm

-- An event on the network and what the network thread first does about it.
def received (task : Task) : List (Event Thread Task Environment) :=
  [.start .network [task], .run .network .calm]

-- A reader registers, and the writer waits for it.
def registration : List (Event Thread Task Environment) :=
  received .readerRegister ++ [mainRuns]

-- The reader activates itself, and the stream is established.
def establishment : List (Event Thread Task Environment) :=
  registration ++ received (.readerActivate 0) ++ [mainRuns, mainRuns, mainRuns]

-- Timestep `t` is provided, up to where it is known what the status of the readers is to be.
def decision (t : Int) : List (Event Thread Task Environment) :=
  [.start .main [.queueTimestep t], mainRuns, mainRuns, mainRuns]

end Sst

-- What queue maintenance does to the timesteps in the queue.

namespace Sst

-- The timesteps in the queue.
def Stream.timesteps (s : Stream) : List Int :=
  s.queuedTimesteps.map (·.timestep)

theorem Stream.mem_timesteps {s : Stream} {t : Int} :
    t ∈ s.timesteps ↔ ∃ e ∈ s.queuedTimesteps, e.timestep = t := by
  simp [timesteps]

theorem Stream.findEntry_isSome {s : Stream} {t : Int} :
    (s.findEntry t).isSome ↔ t ∈ s.timesteps := by
  simp [findEntry, mem_timesteps]

-- An entry in front of maintenance and the same behind it.
structure TimestepEntry.Aged (e e' : TimestepEntry) : Prop where
  timestep   : e'.timestep = e.timestep
  count      : e'.referenceCount = e.referenceCount
  progress   : e'.inProgressFlag = e.inProgressFlag
  precious   : e'.preciousTimestep = e.preciousTimestep
  metadata   : e'.hasMetadata = e.hasMetadata
  expired    : e.expired = true → e'.expired = true
  -- its data are given up with the entry
  registered : e.dpRegistered = true → e'.dpRegistered = true ∨ e'.Removable

theorem TimestepEntry.Aged.refl (e : TimestepEntry) : e.Aged e where
  timestep     := rfl
  count        := rfl
  progress     := rfl
  precious     := rfl
  metadata     := rfl
  expired h    := h
  registered h := .inl h

-- Only a timestep that all established readers have released expires.
theorem expireTimesteps_forall₂ (smallest : Option Int) (reserve : Int)
    (q : List TimestepEntry) :
    List.Forall₂ (fun e e' => e.Aged e' ∧ (e'.expired = true → e.expired = true ∨
      ∀ t ∈ smallest, e.timestep ≤ t)) q (expireTimesteps smallest reserve q) := by
  induction q generalizing reserve with
  | nil => exact .nil
  | cons e q ih =>
    unfold expireTimesteps
    split
    case isTrue h =>
      refine .cons ⟨?_, fun _ => .inr h⟩ (ih _)
      split
      case isTrue =>
        refine ⟨rfl, rfl, rfl, rfl, rfl, fun _ => rfl, fun hreg => ?_⟩
        simp only [hreg, TimestepEntry.Removable]
        cases e.preciousTimestep <;> simp [em']
      case isFalse => exact .refl e
    case isFalse => exact .cons ⟨.refl e, .inl⟩ (ih _)

-- All established readers have released timestep `t`, where `smallest` is what they have released.
abbrev Released (smallest : Option Int) (t : Int) : Prop :=
  ∀ t' ∈ smallest, t ≤ t'

-- A released timestep expires where those from it on do not fit into the reserve.
theorem expired_of_mem_expireTimesteps {smallest : Option Int} {reserve : Int}
    {q : List TimestepEntry} {e' : TimestepEntry} (hq : (q.map (·.timestep)).Pairwise (· > ·))
    (he' : e' ∈ expireTimesteps smallest reserve q) (hrel : Released smallest e'.timestep)
    (hreserve : reserve < q.countP fun f =>
      e'.timestep ≤ f.timestep ∧ Released smallest f.timestep) : e'.expired = true := by
  induction q generalizing reserve with
  | nil => cases he'
  | cons e q ih =>
    have ⟨hgt, hq⟩ := List.pairwise_cons.mp hq
    rw [List.countP_cons] at hreserve
    unfold expireTimesteps at he'
    split at he'
    case isTrue h =>
      rcases List.mem_cons.mp he' with rfl | he'
      case inl =>
        split
        case isTrue => rfl
        case isFalse hroom =>
          -- the entries behind it are older
          rw [if_neg hroom, List.countP_eq_zero.mpr] at hreserve
          · simp only [le_refl, true_and, decide_eq_true_eq] at hreserve
            split at hreserve <;> omega
          · intro f hf
            have hlt : f.timestep < e.timestep := hgt f.timestep (List.mem_map_of_mem hf)
            simp [hlt.not_ge]
      case inr =>
        refine ih hq he' ?_
        split at hreserve <;> omega
    case isFalse h =>
      rcases List.mem_cons.mp he' with rfl | he'
      case inl => exact absurd hrel h
      case inr =>
        refine ih hq he' ?_
        rwa [if_neg (by simp [h])] at hreserve

variable {s : Stream}

theorem released_smallestLastReleasedTimestep {t : Int} :
    Released (smallestLastReleasedTimestep s) t ↔
      ∀ i ∈ s.readers, i.readerStatus = .established → t ≤ i.lastReleasedTimestep := by
  unfold Released smallestLastReleasedTimestep
  cases hmin : ((s.readers.filter (·.readerStatus = .established)).map
      (·.lastReleasedTimestep)).min? with
  | none =>
    rw [List.min?_eq_none_iff, List.map_eq_nil_iff, List.filter_eq_nil_iff] at hmin
    simp only [decide_eq_true_eq] at hmin
    exact ⟨fun _ i hi hst => absurd hst (hmin i hi), fun _ t' ht' => by cases ht'⟩
  | some smallest =>
    simp only [Option.mem_def, Option.some.injEq, forall_eq']
    rw [List.le_min?_iff hmin]
    simp only [List.mem_map, List.mem_filter, decide_eq_true_eq]
    exact ⟨fun h i hi hst => h _ ⟨i, ⟨hi, hst⟩, rfl⟩, fun h _ ⟨i, ⟨hi, hst⟩, heq⟩ => heq ▸ h i hi hst⟩

-- What is left of the reserve for timesteps that are not precious.
def Stream.reserve (s : Stream) : Int :=
  s.reserveQueueLimit - s.queuedTimesteps.countP fun e => e.preciousTimestep && e.referenceCount = 0

theorem queueMaintenance_of_not (h : ¬ s.Maintains) : queueMaintenance s = s :=
  if_neg h

theorem queueMaintenance_queue (h : s.Maintains) :
    (queueMaintenance s).queuedTimesteps =
      (expireTimesteps (smallestLastReleasedTimestep s) s.reserve s.queuedTimesteps).filter
        fun e => ¬ e.Removable := by
  rw [queueMaintenance, if_pos h]
  rfl

-- Nothing but the queue changes.
theorem queueMaintenance_eq (s : Stream) :
    queueMaintenance s = { s with queuedTimesteps := (queueMaintenance s).queuedTimesteps } := by
  unfold queueMaintenance
  split <;> rfl

-- What is left was there before.
theorem exists_of_mem_queueMaintenance {e' : TimestepEntry}
    (h : e' ∈ (queueMaintenance s).queuedTimesteps) :
    ∃ e ∈ s.queuedTimesteps, e.Aged e' ∧ (e'.expired = true → e.expired = true ∨
      ∀ t ∈ smallestLastReleasedTimestep s, e.timestep ≤ t) := by
  by_cases hm : s.Maintains
  case pos =>
    have hq := queueMaintenance_queue hm
    rw [hq] at h
    have ⟨i, hi, hei⟩ := List.mem_iff_getElem.mp (List.mem_of_mem_filter h)
    have hall := expireTimesteps_forall₂ (smallestLastReleasedTimestep s) s.reserve s.queuedTimesteps
    have hi' : i < s.queuedTimesteps.length := hall.length_eq ▸ hi
    exact ⟨_, List.getElem_mem hi', hei ▸ hall.get hi' hi⟩
  case neg =>
    rw [queueMaintenance_of_not hm] at h
    exact ⟨e', h, .refl e', .inl⟩

-- What was there is left, unless nobody holds it and it has expired.
theorem mem_queueMaintenance {e : TimestepEntry} (h : e ∈ s.queuedTimesteps) :
    (∃ e' ∈ (queueMaintenance s).queuedTimesteps, e.Aged e' ∧
      (e'.expired = true → e.expired = true ∨
        ∀ t ∈ smallestLastReleasedTimestep s, e.timestep ≤ t)) ∨
    e.referenceCount = 0 ∧ e.preciousTimestep = false ∧
      (e.expired = true ∨ ∀ t ∈ smallestLastReleasedTimestep s, e.timestep ≤ t) := by
  by_cases hm : s.Maintains
  case pos =>
    have hq := queueMaintenance_queue hm
    have ⟨i, hi, hei⟩ := List.mem_iff_getElem.mp h
    have hall := expireTimesteps_forall₂ (smallestLastReleasedTimestep s) s.reserve s.queuedTimesteps
    have hi' := hall.length_eq ▸ hi
    have ⟨haged, hexp⟩ := hall.get hi hi'
    have hmem := List.getElem_mem hi'
    simp only [List.get_eq_getElem] at haged hexp
    rw [hei] at haged hexp
    set e' := (expireTimesteps (smallestLastReleasedTimestep s) s.reserve s.queuedTimesteps)[i]
    rw [hq]
    by_cases hr : e'.Removable
    case pos =>
      exact .inr ⟨haged.count ▸ hr.2.2, haged.precious ▸ hr.2.1, hexp hr.1⟩
    case neg =>
      exact .inl ⟨e', List.mem_filter.mpr ⟨hmem, by simpa using hr⟩, haged, hexp⟩
  case neg =>
    rw [queueMaintenance_of_not hm]
    exact .inl ⟨e, h, .refl e, .inl⟩

theorem queueMaintenance_timesteps_sublist :
    (queueMaintenance s).timesteps.Sublist s.timesteps := by
  by_cases hm : s.Maintains
  case pos =>
    have hq := queueMaintenance_queue hm
    have hall := expireTimesteps_forall₂ (smallestLastReleasedTimestep s) s.reserve s.queuedTimesteps
    have heq : (expireTimesteps (smallestLastReleasedTimestep s) s.reserve s.queuedTimesteps).map
        (·.timestep) = s.timesteps := by
      rw [← List.forall₂_eq_eq_eq, List.forall₂_map_left_iff, Stream.timesteps,
        List.forall₂_map_right_iff]
      exact hall.flip.imp fun _ _ h => h.1.timestep
    rw [Stream.timesteps, hq, ← heq]
    exact List.filter_sublist.map _
  case neg =>
    rw [queueMaintenance_of_not hm]

-- A timestep that has expired, is not precious and is held by nobody does not survive maintenance.
theorem not_removable_of_mem_queueMaintenance {e : TimestepEntry} (hm : s.Maintains)
    (h : e ∈ (queueMaintenance s).queuedTimesteps) : ¬ e.Removable := by
  have hq := queueMaintenance_queue hm
  rw [hq] at h
  simpa using (List.mem_filter.mp h).right

-- Nor does one that nobody holds, where it expires now.
theorem not_mem_queueMaintenance {t : Int} (hm : s.Maintains)
    (hq : s.timesteps.Pairwise (· > ·))
    (h : ∀ e ∈ s.queuedTimesteps, e.timestep = t →
      e.preciousTimestep = false ∧ e.referenceCount = 0 ∧ (e.expired = true ∨
        Released (smallestLastReleasedTimestep s) t ∧
          s.reserve < s.queuedTimesteps.countP fun f =>
            t ≤ f.timestep ∧ Released (smallestLastReleasedTimestep s) f.timestep)) :
    t ∉ (queueMaintenance s).timesteps := by
  intro hmem
  have ⟨e', he', het'⟩ := Stream.mem_timesteps.mp hmem
  have ⟨e, he, haged, _⟩ := exists_of_mem_queueMaintenance he'
  have ⟨hprecious, hcount, hexp⟩ := h e he (haged.timestep.symm.trans het')
  refine not_removable_of_mem_queueMaintenance hm he'
    ⟨?_, haged.precious.trans hprecious, haged.count.trans hcount⟩
  rcases hexp with hexp | ⟨hrel, hreserve⟩
  · exact haged.expired hexp
  · rw [queueMaintenance_queue hm] at he'
    subst het'
    exact expired_of_mem_expireTimesteps hq (List.mem_of_mem_filter he') hrel hreserve

-- The data of what is left are there.
theorem registered_queueMaintenance (h : ∀ e ∈ s.queuedTimesteps, e.dpRegistered = true) :
    ∀ e ∈ (queueMaintenance s).queuedTimesteps, e.dpRegistered = true := by
  intro e' he'
  have ⟨e, he, haged, _⟩ := exists_of_mem_queueMaintenance he'
  by_cases hm : s.Maintains
  case pos =>
    exact (haged.registered (h e he)).resolve_right (not_removable_of_mem_queueMaintenance hm he')
  case neg =>
    rw [queueMaintenance_of_not hm] at he'
    exact h e' he'

end Sst
