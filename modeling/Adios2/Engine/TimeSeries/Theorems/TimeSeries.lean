import Adios2.Engine.TimeSeries.Theorems.SteppedSeries

-- A time series is the concatenation of its files, as far as the reader passes on what it is asked.

namespace TimeSeries

open BP5 Helper TimeSeriesReader Threads

variable {storage : TimeSeriesEntry → File} {answersAt : TimeSeriesEntry → Nat → Answers}

-- The reader of a series at any moment of a run: it has presented the steps of the files one after
-- the other, and between `BeginStep` and `EndStep` the variables are those of the last of them.
structure Presented (storage : TimeSeriesEntry → File) (w : World) : Prop where
  steps    : w.presented <+: seriesSteps storage (listed w.document)
  current  : w.reader.currentStep = w.presented.length - 1
  all      : .endOfStream ∈ w.returned →
    closed w.document = true ∧ w.presented = seriesSteps storage (listed w.document)
  requests : w.reader.betweenStepPairs = true →
    (∀ tse ∈ w.opened.head?, 0 < (storage tse).steps) → ∃ tse k,
      w.presented.getLast? = some (tse, k) ∧
      w.reader.io = (ownVars ((storage tse).varsAt k)).map defineVariable ∧
      ∀ fv ∈ ownVars ((storage tse).varsAt k), ∀ q : StepRequest,
        (∀ a, MetNow a w.reader (defineVariable fv) k q) ↔ q.Possible w.reader fv

section Presented

variable {w : World}

theorem prefix_seriesSteps {tses tses' : List TimeSeriesEntry} (h : tses <+: tses') :
    seriesSteps storage tses <+: seriesSteps storage tses' := by
  obtain ⟨rest, rfl⟩ := h
  rw [seriesSteps_append]
  exact List.prefix_append _ _

namespace Stepping

theorem opened_prefix (hs : Stepping storage w) : w.opened <+: listed w.document := by
  by_cases hended : w.reader.timeSeriesList.ended = true
  case pos =>
    have ⟨_, h⟩ := (listRead_of_ended hended).mp hs.list
    exact ⟨_, h⟩
  case neg =>
    have ⟨h, _, _⟩ := (listRead_of_not_ended hended).mp hs.list
    rw [h]
    exact List.nil_prefix

theorem presented_prefix (hs : Stepping storage w) :
    w.presented <+: seriesSteps storage (listed w.document) := by
  refine .trans ?_ (prefix_seriesSteps hs.opened_prefix)
  cases hs.position with
  | between _ presented _ => exact presented ▸ List.prefix_rfl
  | inside done e _ opened file begun presented _ =>
    rw [presented, opened, seriesSteps_append, seriesSteps_singleton, ← file]
    refine List.prefix_append_right_inj _ |>.mpr (List.IsPrefix.map _ ?_)
    refine ⟨List.range' e.begun (e.file.steps - e.begun), ?_⟩
    have happ := List.range'_append_1 (s := 0) (m := e.begun) (n := e.file.steps - e.begun)
    rw [Nat.zero_add, Nat.add_sub_cancel' begun] at happ
    rw [List.range_eq_range', List.range_eq_range', happ]

theorem presented_all (hs : Stepping storage w) (h : .endOfStream ∈ w.returned) :
    closed w.document = true ∧ w.presented = seriesSteps storage (listed w.document) := by
  have ⟨hengines, hended, hentries⟩ := hs.returned h
  have ⟨hclosed, hlist⟩ := (listRead_of_ended hended).mp hs.list
  rw [hentries, List.append_nil] at hlist
  refine ⟨hclosed, ?_⟩
  cases hs.position with
  | between _ presented _ => exact hlist ▸ presented
  | inside _ _ engines _ _ _ _ _ => exact absurd (hengines.symm.trans engines) (by simp)

-- The number that a file starts at is that of the steps in front of it.
theorem nextStart_eq {done : List TimeSeriesEntry}
    (hfirst : ∀ tse ∈ done.head?, 0 < (storage tse).steps) :
    nextStart storage done = (seriesSteps storage done).length := by
  cases done with
  | nil => rfl
  | cons tse done =>
    have hpos := hfirst tse rfl
    have hlen : (seriesSteps storage (tse :: done)).length =
        (storage tse).steps + (seriesSteps storage done).length := by
      simp [seriesSteps]
    rw [nextStart, if_neg (by simp)]
    omega

theorem presented (hw : WellFormedSteps storage) (hs : Stepping storage w) :
    Presented storage w where
  steps    := hs.presented_prefix
  current  := hs.current
  all      := hs.presented_all
  requests := by
    intro hb hfirst
    have ⟨e, he, hbegun, hat⟩ := hs.step hb
    have ⟨done, opened, file, begun, presented, start⟩ := hs.inside_of_engines he
    have hhead : ∀ tse ∈ done.head?, 0 < (storage tse).steps := by
      intro tse htse
      refine hfirst tse ?_
      cases done with
      | nil => simp at htse
      | cons _ _ => simpa [opened] using htse
    rw [nextStart_eq hhead] at start
    have ⟨k, hk⟩ := Nat.exists_eq_add_one_of_ne_zero hbegun.ne'
    rw [hk, Nat.add_sub_cancel] at hat
    have hcur : w.reader.currentStep = w.reader.startStepInCurrentFile + k := by
      rw [hs.current, presented, start, hk]
      simp
    have hlt : w.reader.currentStep < 2 ^ 64 := hs.bounded.trans (by decide)
    refine ⟨e.entry, k, ?_, file ▸ hat.io, ?_⟩
    · rw [presented, hk, List.range_succ]
      simp
    · intro fv hfv q
      rw [← file] at hfv
      have hstart : fv.stepsStart < 2 ^ 64 :=
        hw.start e.entry k fv (file ▸ (List.mem_filter.mp hfv).left)
      exact hat.metNow_iff (hs.nodup_step hw he k) hfv hstart hcur hlt q

end Stepping

end Presented

section Turns

theorem incInt_ok {n : Nat} (h : n + 1 < 2 ^ 31) : incInt n = .ok (n + 1) := by
  rw [incInt, if_pos h]
  rfl

theorem pollEngine_ok {r : TimeSeriesReader} {e : Engine} (hmode : r.openMode = .read)
    (he : r.engines = [e]) (hnodup : ((e.file.varsAt e.begun).map (·.name)).Nodup)
    (hlt : r.currentStep + 1 < 2 ^ 31) (status : StepStatus) :
    ∃ p, r.pollEngine e status = .ok p := by
  cases status with
  | notReady | otherError => exact ⟨_, rfl⟩
  | endOfStream =>
    rw [pollEngine, incInt_ok hlt]
    exact ⟨_, rfl⟩
  | ok =>
    obtain ⟨step, hstep⟩ : ∃ step, r.nextStep = .ok step := by
      rw [nextStep]
      split
      case isTrue => exact ⟨r.currentStep, rfl⟩
      case isFalse => exact ⟨r.currentStep + 1, incInt_ok hlt⟩
    obtain ⟨r', hr', _⟩ := processIO_atStep (e.file.varsAt e.begun)
      (r := { r with
        firstStep := false
        currentStep := step
        betweenStepPairs := true
        engines := [{ e with begun := e.begun + 1 }]
        io := []
        varInternalInfo := [] }) hmode rfl rfl rfl hnodup
    refine ⟨(r', some .ok), ?_⟩
    rw [pollEngine, hstep, Outcome.ok_bind, he]
    exact Outcome.bind_eq_ok.mpr ⟨r', hr', rfl⟩

-- A turn of `BeginStep` returns as long as there are numbers for the steps.
theorem Stepping.turn_ok {w : World} (hw : WellFormedSteps storage) (hs : Stepping storage w)
    (hlt : w.reader.currentStep + 1 < 2 ^ 31) (polls : Polls) :
    ∃ p, w.turn storage polls = .ok p := by
  have ⟨p, hp⟩ : ∃ p, w.reader.beginStepTurn storage w.document polls = .ok p := by
    cases hs.position with
    | inside done e engines _ file _ _ _ =>
      rw [beginStepTurn, engines]
      exact pollEngine_ok hs.mode engines (hs.nodup_step hw engines _) hlt _
    | between engines _ _ =>
      rw [beginStepTurn, engines]
      dsimp only
      split
      case h_1 => exact ⟨_, rfl⟩
      case h_2 tse _ _ =>
        refine pollEngine_ok ?_ ?_ (hw.named tse 0) ?_ _
        · exact hs.mode
        · simp [openFile]
        · exact hlt
  rw [World.turn, hp]
  exact ⟨_, rfl⟩

end Turns

-- A variable that each of the files of a small series has in its one step.
def small (type : DataType) : FileVariable where
  name    := "x"
  type    := type
  shapeID := .globalArray
  shape   := [2]
  start   := [0]
  count   := [2]

def smallFile (type : DataType) : File where
  steps  := 1
  vars   := [small type]
  varsAt := fun _ => [small type]

def smallDocument : List YamlNode := [.scalar "first.bp", .scalar "second.bp", .scalar "end"]

theorem small_named : Named smallDocument := by
  intro node hnode
  simp only [smallDocument, List.mem_cons, List.not_mem_nil, or_false] at hnode
  rcases hnode with rfl | rfl | rfl <;> exact ⟨_, rfl⟩

theorem small_wellFormed (type : DataType) :
    WellFormed ((listed smallDocument).map fun _ => smallFile type) where
  named   := by cases type <;> decide
  occurs  := by cases type <;> decide
  bounded := fun name => by
    by_cases hname : name = "x"
    case pos =>
      subst hname
      cases type <;> decide
    case neg =>
      have hlisted : (listed smallDocument).map (fun _ => smallFile type) =
          [smallFile type, smallFile type] := rfl
      have hname : ¬"x" = name := fun h => hname h.symm
      rw [hlisted]
      simp [holders, occurrences, Concatenation.places, engineCurrentStep, smallFile, small, hname]

def smallSeries (type : DataType) : Series where
  storage    := fun _ => smallFile type
  document   := smallDocument
  named      := small_named
  wellFormed := small_wellFormed type

theorem eq_small_of_mem_holders {type : DataType} {name : String} {h : Holder}
    (hh : h ∈ holders (smallSeries type).files name) : h.2 = small type := by
  have ⟨f, hf, hv⟩ := exists_of_mem_holders hh
  have hf : f ∈ (listed smallDocument).map fun _ => smallFile type := List.mem_of_getElem? hf
  obtain ⟨_, _, rfl⟩ := List.mem_map.mp hf
  exact List.mem_singleton.mp (List.mem_filter.mp (List.mem_of_find?_eq_some hv)).left

theorem small_wellFormedSteps (type : DataType) : WellFormedSteps fun _ => smallFile type where
  named := fun _ _ => by simp [smallFile]
  start := fun _ _ => by simp [smallFile, small]

-- Both elements of both steps.
def wholeSelection : Selection where
  start := [0]
  count := [2]

def bothSteps : StepSelection where
  start    := 0
  count    := 2
  start_lt := Bytes.zero_lt_two_pow_64
  count_lt := by decide
  pos      := by decide

end TimeSeries
