import Adios2.Engine.TimeSeries.Theorems.SeriesRequests

-- A series that is read step by step: its files one after the other, and of each file its steps.

namespace TimeSeries

open BP5 Helper TimeSeriesReader

variable {storage : TimeSeriesEntry → File} {answersAt : TimeSeriesEntry → Nat → Answers}

-- The steps of files, one after the other.
def seriesSteps (storage : TimeSeriesEntry → File) (tses : List TimeSeriesEntry) :
    List (TimeSeriesEntry × Nat) :=
  tses.flatMap fun tse => (List.range (storage tse).steps).map (tse, ·)

@[simp]
theorem seriesSteps_nil : seriesSteps storage [] = [] := rfl

@[simp]
theorem seriesSteps_append (tses tses' : List TimeSeriesEntry) :
    seriesSteps storage (tses ++ tses') =
      seriesSteps storage tses ++ seriesSteps storage tses' := by
  simp [seriesSteps]

@[simp]
theorem seriesSteps_singleton (tse : TimeSeriesEntry) :
    seriesSteps storage [tse] = (List.range (storage tse).steps).map (tse, ·) := by
  simp [seriesSteps]

-- The variables of a file's step have each their own name, and begin with a number of a step.
structure WellFormedSteps (storage : TimeSeriesEntry → File) : Prop where
  named : ∀ tse k, (((storage tse).varsAt k).map (·.name)).Nodup
  start : ∀ tse k, ∀ v ∈ (storage tse).varsAt k, v.stepsStart < 2 ^ 64

section Variables

variable {r : TimeSeriesReader} {vs : List FileVariable}

-- The one part of a variable.
def stepPart (start : Nat) (v : FileVariable) : VarInternalInfoSingle where
  originalVar := v
  ioIdx       := 0
  engineIdx   := 0
  startStep   := start
  endStep     := sub64 (v.stepsCount + start) 1
  stepCount   := v.stepsCount

def stepInfo (start : Nat) (v : FileVariable) : VarInternalInfo where
  name     := v.name
  nEngines := 1
  info     := [stepPart start v]

-- Variables with names of their own are all new.
theorem foldlM_duplicateVariable (hmode : r.openMode = .read) (hnodup : (vs.map (·.name)).Nodup)
    (hnew : ∀ v ∈ vs, ∀ i ∈ r.varInternalInfo, i.name ≠ v.name) :
    vs.foldlM (fun r v => r.duplicateVariable v 0 0) r = .ok { r with
      io := r.io ++ vs.map defineVariable
      varInternalInfo := r.varInternalInfo ++ vs.map (stepInfo r.startStepInCurrentFile) } := by
  induction vs generalizing r with
  | nil => simp
  | cons v vs ih =>
    rw [List.map_cons, List.nodup_cons] at hnodup
    have hnone : r.findInfo v.name = none := by
      rw [findInfo, List.find?_eq_none]
      intro i hi
      simpa using hnew v List.mem_cons_self i hi
    have hdup : r.duplicateVariable v 0 0 = .ok { r with
        io := r.io ++ [defineVariable v]
        varInternalInfo := r.varInternalInfo ++ [stepInfo r.startStepInCurrentFile v] } := by
      rw [duplicateVariable, hnone]
      simp only [hmode]
      rfl
    rw [List.foldlM_cons, hdup, Outcome.ok_bind]
    refine (ih ?mode hnodup.right ?new).trans ?eq
    case mode => exact hmode
    case eq => simp
    case new =>
      intro w hw i hi
      rcases List.mem_append.mp hi with hi | hi
      case inl => exact hnew w (List.mem_cons_of_mem _ hw) i hi
      case inr =>
        rw [List.mem_singleton.mp hi]
        exact fun (heq : v.name = w.name) => hnodup.left (heq ▸ List.mem_map_of_mem hw)

-- The variables of a step that the reader makes its own.
def ownVars (vs : List FileVariable) : List FileVariable := vs.filter fun v => HasReader v

-- The reader at a step with these variables.
structure AtStep (r : TimeSeriesReader) (vs : List FileVariable) : Prop where
  mode    : r.openMode = .read
  engines : r.engines.length = 1
  info    : r.varInternalInfo = (ownVars vs).map (stepInfo r.startStepInCurrentFile)
  io      : r.io = (ownVars vs).map defineVariable
  own     : ∀ v ∈ ownVars vs, OwnSelections r v.name [(0, v)]

theorem find?_of_mem (hnodup : (vs.map (·.name)).Nodup) {v : FileVariable} (hv : v ∈ vs) :
    vs.find? (·.name = v.name) = some v := by
  cases hf : vs.find? (·.name = v.name) with
  | none => simpa using List.find?_eq_none.mp hf v hv
  | some w =>
    have hname : w.name = v.name := by simpa using List.find?_some hf
    rw [List.inj_on_of_nodup_map hnodup (List.mem_of_find?_eq_some hf) hv hname]

-- The selections that the variables have at the begin of a step.
def withSelections (r : TimeSeriesReader) (vs : List FileVariable) : TimeSeriesReader :=
  { r with
    selections := fun io name =>
      if io = 0 then
        match vs.find? (·.name = name) with
        | some v => { start := v.start, count := v.count }
        | none   => r.selections io name
      else
        r.selections io name }

variable (vs) in
-- `ProcessIO` at a step gives the reader the variables of the step.
theorem processIO_atStep (hmode : r.openMode = .read) (hengines : r.engines.length = 1)
    (hio : r.io = []) (hinfo : r.varInternalInfo = []) (hnodup : (vs.map (·.name)).Nodup) :
    ∃ r', TimeSeriesReader.processIO r vs = .ok r' ∧ AtStep r' vs ∧
      ∃ io infos sel, r' = { r with io, varInternalInfo := infos, selections := sel } := by
  have hown : ((ownVars vs).map (·.name)).Nodup := hnodup.sublist (List.filter_sublist.map _)
  have hfold := foldlM_duplicateVariable (show (withSelections r vs).openMode = .read from hmode)
    hown (by simp [withSelections, hinfo])
  refine ⟨_, by rw [ processIO, hengines]; exact hfold, ?_, _, _, _, rfl⟩
  refine ⟨hmode, hengines, by simp [withSelections, hinfo], by simp [withSelections, hio], ?_⟩
  intro v hv
  have hfind := find?_of_mem hnodup (List.mem_filter.mp hv).left
  constructor <;> intro h hh <;> rw [List.mem_singleton.mp hh] <;>
    simp [withSelections, hfind]

end Variables

section Runs

-- Where the next file starts after these. When there was no step yet, it starts behind the first one.
def nextStart (storage : TimeSeriesEntry → File) (done : List TimeSeriesEntry) : Nat :=
  if done = [] then 0 else max (seriesSteps storage done).length 1

-- The list as far as the reader has it: all of it, or nothing.
def ListRead (w : World) : Prop :=
  if w.reader.timeSeriesList.ended then
    closed w.document = true ∧ w.opened ++ w.reader.timeSeriesList.entries = listed w.document
  else
    w.opened = [] ∧ w.reader.timeSeriesList.entries = [] ∧
      w.reader.timeSeriesList.lastUsedEntry = -1

-- The files that are done, and the one that is open.
inductive Position (storage : TimeSeriesEntry → File) (w : World) : Prop
  | between (engines : w.reader.engines = [])
      (presented : w.presented = seriesSteps storage w.opened)
      (start : w.reader.startStepInCurrentFile = nextStart storage w.opened)
  | inside (done : List TimeSeriesEntry) (e : Engine) (engines : w.reader.engines = [e])
      (opened : w.opened = done ++ [e.entry]) (file : e.file = storage e.entry)
      (begun : e.begun ≤ e.file.steps)
      (presented : w.presented =
        seriesSteps storage done ++ (List.range e.begun).map (e.entry, ·))
      (start : w.reader.startStepInCurrentFile = nextStart storage done)

structure Stepping (storage : TimeSeriesEntry → File) (w : World) : Prop where
  named    : Named w.document
  mode     : w.reader.openMode = .read
  list     : ListRead w
  position : Position storage w
  first    : w.reader.firstStep = true ↔ w.presented = []
  current  : w.reader.currentStep = w.presented.length - 1
  bounded  : w.reader.currentStep < 2 ^ 31
  returned : .endOfStream ∈ w.returned →
    w.reader.engines = [] ∧ w.reader.timeSeriesList.ended = true ∧
      w.reader.timeSeriesList.entries = []
  step     : w.reader.betweenStepPairs = true →
    ∃ e, w.reader.engines = [e] ∧ 0 < e.begun ∧ AtStep w.reader (e.file.varsAt (e.begun - 1))

theorem listRead_of_ended {w : World} (h : w.reader.timeSeriesList.ended = true) :
    ListRead w ↔ closed w.document = true ∧
      w.opened ++ w.reader.timeSeriesList.entries = listed w.document := by
  rw [ListRead, if_pos h]

theorem listRead_of_not_ended {w : World} (h : ¬w.reader.timeSeriesList.ended = true) :
    ListRead w ↔ w.opened = [] ∧ w.reader.timeSeriesList.entries = [] ∧
      w.reader.timeSeriesList.lastUsedEntry = -1 := by
  rw [ListRead, if_neg h]

-- The list of a reader that has not read any of it is empty or has come to its end.
def Whole (w : World) : Prop :=
  w.reader.engines = [] → w.reader.timeSeriesList.ended = false →
    listed w.document = [] ∨ closed w.document = true

namespace Stepping

variable {w w' : World}

-- The world after an engine was asked for a step.
def afterPoll (w : World) (r : TimeSeriesReader) (returned : Option StepStatus) : World :=
  { w with
    reader := r
    returned := w.returned ++ returned.toList
    presented := w.presented ++
      if returned = some .ok then r.engines.map fun e => (e.entry, e.begun - 1) else [] }

theorem incInt_eq_ok {n m : Nat} (h : incInt n = .ok m) : m = n + 1 ∧ m < 2 ^ 31 := by
  rw [incInt] at h
  split at h
  case isTrue hlt => exact Except.ok.inj h ▸ ⟨rfl, hlt⟩
  case isFalse => exact absurd h (by simp)

theorem inside_of_engines (hs : Stepping storage w) {e : Engine}
    (he : w.reader.engines = [e]) :
    ∃ done, w.opened = done ++ [e.entry] ∧ e.file = storage e.entry ∧ e.begun ≤ e.file.steps ∧
      w.presented = seriesSteps storage done ++ (List.range e.begun).map (e.entry, ·) ∧
      w.reader.startStepInCurrentFile = nextStart storage done := by
  cases hs.position with
  | between engines _ _ => exact absurd (he.symm.trans engines) (by simp)
  | inside done e' engines opened file begun presented start =>
    have heq : e = e' := by simpa [he] using engines
    subst heq
    exact ⟨done, opened, file, begun, presented, start⟩

theorem not_endOfStream (hs : Stepping storage w) {e : Engine} (he : w.reader.engines = [e]) :
    .endOfStream ∉ w.returned := by
  intro h
  exact absurd (he.symm.trans (hs.returned h).left) (by simp)

-- A file that has no step for now leaves all as it is.
theorem poll_notReady (hs : Stepping storage w) {e : Engine} (he : w.reader.engines = [e])
    (hb : w.reader.betweenStepPairs = false) :
    Stepping storage (afterPoll w w.reader (some .notReady)) := by
  have hp : (afterPoll w w.reader (some .notReady)).presented = w.presented := by
    simp [afterPoll]
  have ⟨done, opened, file, begun, presented, start⟩ := hs.inside_of_engines he
  refine ⟨hs.named, hs.mode, hs.list, ?_, by rw [hp]; exact hs.first, by rw [hp]; exact hs.current,
    hs.bounded, ?_, ?_⟩
  · exact .inside done e he opened file begun (hp.trans presented) start
  · intro h
    have : .endOfStream ∈ w.returned := by simpa [afterPoll] using h
    exact absurd this (hs.not_endOfStream he)
  · exact fun h => absurd (hb.symm.trans h) (by simp)

-- A file that has no more steps is done.
theorem poll_endOfStream (hs : Stepping storage w) {e : Engine} (he : w.reader.engines = [e])
    (hb : w.reader.betweenStepPairs = false) (hall : e.begun = e.file.steps)
    {r' : TimeSeriesReader} {returned : Option StepStatus}
    (hok : w.reader.pollEngine e .endOfStream = .ok (r', returned)) :
    Stepping storage (afterPoll w r' returned) ∧ returned = none ∧
      r'.betweenStepPairs = false := by
  obtain ⟨start', hstart, hok⟩ := Outcome.bind_eq_ok.mp hok
  have ⟨hstart, _⟩ := incInt_eq_ok hstart
  have ⟨hr, hret⟩ := Prod.mk.inj (Except.ok.inj hok)
  subst hret
  subst hr
  have ⟨done, opened, file, begun, presented, start⟩ := hs.inside_of_engines he
  have hseries : w.presented = seriesSteps storage w.opened := by
    rw [opened, seriesSteps_append, seriesSteps_singleton, presented, hall, file]
  refine ⟨⟨hs.named, hs.mode, hs.list, .between rfl ?presented ?start, ?first, ?current, hs.bounded,
    ?returned, ?step⟩, rfl, hb⟩
  case presented => simpa [afterPoll] using hseries
  case start =>
    have hne : w.opened ≠ [] := by simp [opened]
    have hcur := hs.current
    simp only [afterPoll, nextStart, hne, if_false, hstart, ← hseries]
    omega
  case first => simpa [afterPoll] using hs.first
  case current => simpa [afterPoll] using hs.current
  case returned =>
    intro h
    have : .endOfStream ∈ w.returned := by simpa [afterPoll] using h
    exact absurd this (hs.not_endOfStream he)
  case step => exact fun h => absurd (hb.symm.trans h) (by simp)

theorem nextStep_eq (hs : Stepping storage w) {step : Nat} (h : w.reader.nextStep = .ok step) :
    step = w.presented.length ∧ step < 2 ^ 31 := by
  have hcur := hs.current
  have hbounded := hs.bounded
  rw [nextStep] at h
  split at h
  case isTrue hfirst =>
    have hp := hs.first.mp hfirst
    have hstep := Except.ok.inj h
    rw [hp] at hcur ⊢
    exact ⟨hstep.symm.trans hcur, hstep ▸ hbounded⟩
  case isFalse hfirst =>
    have hne : w.presented ≠ [] := fun hp => hfirst (hs.first.mpr hp)
    have := List.length_pos_iff.mpr hne
    have ⟨hstep, hlt⟩ := incInt_eq_ok h
    exact ⟨by omega, hlt⟩

-- A step of a file is presented.
theorem poll_ok (hw : WellFormedSteps storage) (hs : Stepping storage w) {e : Engine}
    (he : w.reader.engines = [e]) (hlt : e.begun < e.file.steps)
    {r' : TimeSeriesReader} {returned : Option StepStatus}
    (hok : w.reader.pollEngine e .ok = .ok (r', returned)) :
    Stepping storage (afterPoll w r' returned) ∧ returned = some .ok := by
  obtain ⟨step, hstep, hok⟩ := Outcome.bind_eq_ok.mp hok
  obtain ⟨r₁, hr₁, hok⟩ := Outcome.bind_eq_ok.mp hok
  have ⟨hr, hret⟩ := Prod.mk.inj (Except.ok.inj hok)
  subst hret
  subst hr
  have ⟨hstep, hlt'⟩ := hs.nextStep_eq hstep
  have ⟨done, opened, file, begun, presented, start⟩ := hs.inside_of_engines he
  have hnodup := hw.named e.entry e.begun
  rw [← file] at hnodup
  rw [he] at hr₁
  obtain ⟨r', hr', hat, io, infos, sel, heq⟩ := processIO_atStep (e.file.varsAt e.begun)
    (r := { w.reader with
      firstStep := false
      currentStep := step
      betweenStepPairs := true
      engines := [{ e with begun := e.begun + 1 }]
      io := []
      varInternalInfo := [] }) hs.mode rfl rfl rfl hnodup
  have hr : r₁ = r' := Except.ok.inj (hr₁.symm.trans hr')
  subst hr
  have hpresented : (afterPoll w r₁ (some .ok)).presented =
      w.presented ++ [(e.entry, e.begun)] := by
    simp [afterPoll, heq]
  refine ⟨⟨hs.named, by rw [afterPoll, heq]; exact hs.mode, ?list, ?position, ?first, ?current,
    ?bounded, ?returned, ?step⟩, rfl⟩
  case list =>
    have hlist := hs.list
    simp only [ListRead, afterPoll, heq] at hlist ⊢
    exact hlist
  case position =>
    refine .inside done { e with begun := e.begun + 1 } (by rw [afterPoll, heq]) opened file hlt
      ?_ (by rw [afterPoll, heq]; exact start)
    rw [hpresented, presented, List.range_succ]
    simp
  case first => simp [afterPoll, heq]
  case current => simp [afterPoll, heq, hstep]
  case bounded => simpa [afterPoll, heq] using hlt'
  case returned =>
    intro h
    have : .endOfStream ∈ w.returned := by simpa [afterPoll] using h
    exact absurd this (hs.not_endOfStream he)
  case step =>
    intro _
    exact ⟨{ e with begun := e.begun + 1 }, by rw [afterPoll, heq], Nat.succ_pos _, hat⟩

-- What is asked of an engine keeps the invariant.
theorem poll (hw : WellFormedSteps storage) (hs : Stepping storage w) {e : Engine}
    (he : w.reader.engines = [e]) (hb : w.reader.betweenStepPairs = false) {status : StepStatus}
    (hadmits : e.Admits status) {r' : TimeSeriesReader} {returned : Option StepStatus}
    (hok : w.reader.pollEngine e status = .ok (r', returned)) :
    Stepping storage (afterPoll w r' returned) ∧
      (returned = none → r'.betweenStepPairs = false) := by
  cases status with
  | ok =>
    have ⟨h, hret⟩ := hs.poll_ok hw he hadmits hok
    exact ⟨h, fun hnone => absurd (hret.symm.trans hnone) (by simp)⟩
  | endOfStream =>
    have ⟨h, _, hb'⟩ := hs.poll_endOfStream he hb hadmits hok
    exact ⟨h, fun _ => hb'⟩
  | notReady | otherError =>
    have ⟨hr, hret⟩ := Prod.mk.inj (Except.ok.inj hok)
    subst hr
    subst hret
    exact ⟨hs.poll_notReady he hb, fun hnone => absurd hnone (by simp)⟩

-- The list after the reader has looked for files: all of it, or still nothing.
theorem checkForFiles (hs : Stepping storage w) (hwhole : Whole w) (he : w.reader.engines = []) :
    ListRead { w with reader := { w.reader with
      timeSeriesList := (checkForFiles w.document w.reader.timeSeriesList).1 } } := by
  have hlist := hs.list
  cases hended : w.reader.timeSeriesList.ended with
  | true =>
    have hcheck : (TimeSeries.checkForFiles w.document w.reader.timeSeriesList).1 =
        w.reader.timeSeriesList := by simp [TimeSeries.checkForFiles, hended]
    rw [hcheck]
    exact hlist
  | false =>
    have hw := hwhole he hended
    simp only [ListRead, hended, Bool.false_eq_true, if_false] at hlist
    obtain ⟨hopened, hentries, hlast⟩ := hlist
    rw [checkForFiles_eq hs.named (by rw [hlast]; decide) hended, hentries, List.nil_append]
    simp only [ListRead]
    cases hclosed : closed w.document with
    | true  => simp [hopened]
    | false =>
      have hnil : listed w.document = [] := by simpa [hclosed] using hw
      simp [hopened, hnil, hlast]

-- The world in which the next file of the list is open.
def opening (storage : TimeSeriesEntry → File) (w : World) (tsl : TimeSeriesList)
    (tse : TimeSeriesEntry) (entries : List TimeSeriesEntry) : World :=
  { w with
    reader := ({ w.reader with timeSeriesList := tsl } : TimeSeriesReader).openFile (storage tse) tse
      entries
    opened := w.opened ++ [tse] }

theorem opening_stepping (hs : Stepping storage w) (he : w.reader.engines = [])
    (hb : w.reader.betweenStepPairs = false) {tsl : TimeSeriesList} {tse : TimeSeriesEntry}
    {rest : List TimeSeriesEntry}
    (hlist : ListRead { w with reader := { w.reader with timeSeriesList := tsl } })
    (hentries : tsl.entries = tse :: rest)
    (hreturned : .endOfStream ∉ w.returned) :
    Stepping storage (opening storage w tsl tse rest) := by
  have hposition : w.presented = seriesSteps storage w.opened ∧
      w.reader.startStepInCurrentFile = nextStart storage w.opened := by
    cases hs.position with
    | between _ presented start => exact ⟨presented, start⟩
    | inside done e engines _ _ _ _ _ => exact absurd (he.symm.trans engines) (by simp)
  refine ⟨hs.named, hs.mode, ?list, ?position, hs.first, hs.current, hs.bounded,
    fun h => absurd h hreturned, fun h => absurd (hb.symm.trans h) (by simp)⟩
  case list =>
    by_cases hended : tsl.ended = true
    case pos =>
      have ⟨hclosed, happ⟩ := (listRead_of_ended hended).mp hlist
      have happ : w.opened ++ tsl.entries = listed w.document := happ
      refine (listRead_of_ended hended).mpr ⟨hclosed, ?_⟩
      show w.opened ++ [tse] ++ rest = listed w.document
      rw [← happ, hentries, List.append_assoc]
      rfl
    case neg =>
      have ⟨_, hnil, _⟩ := (listRead_of_not_ended hended).mp hlist
      exact absurd (hentries.symm.trans hnil) (by simp)
  case position =>
    refine .inside w.opened { entry := tse, file := storage tse } (by simp [opening, openFile, he])
      rfl rfl (Nat.zero_le _) ?_ hposition.right
    simpa [opening] using hposition.left

-- A turn of `BeginStep`.
theorem turn (hw : WellFormedSteps storage) (hs : Stepping storage w) (hwhole : Whole w)
    (hb : w.reader.betweenStepPairs = false) {polls : Polls} {ts : List Task}
    (hok : w.turn storage polls = .ok (w', ts)) :
    Stepping storage w' ∧ (ts = [] ∨ ts = [.turn] ∧ w'.reader.betweenStepPairs = false) := by
  obtain ⟨⟨r', returned⟩, hturn, hok⟩ := Outcome.bind_eq_ok.mp hok
  obtain ⟨hw', hts⟩ := Prod.mk.inj (Except.ok.inj hok)
  have hres : ∀ {w₁ : World}, w' = afterPoll w₁ r' returned →
      Stepping storage (afterPoll w₁ r' returned) ∧
        (returned = none → r'.betweenStepPairs = false) →
      Stepping storage w' ∧ (ts = [] ∨ ts = [.turn] ∧ w'.reader.betweenStepPairs = false) := by
    rintro w₁ rfl ⟨h, hnone⟩
    refine ⟨h, ?_⟩
    rw [← hts]
    by_cases hret : returned = none
    · exact .inr ⟨if_pos hret, hnone hret⟩
    · exact .inl (if_neg hret)
  cases hs.position with
  | inside done e engines _ _ _ _ _ =>
    rw [beginStepTurn, engines] at hturn
    refine hres ?_ (hs.poll hw engines hb (polls.property e) hturn)
    rw [← hw']
    simp [afterPoll, World.nextFile, engines]
  | between engines presented start =>
    have hlist := hs.checkForFiles hwhole engines
    have hnext : w.nextFile =
        (TimeSeries.checkForFiles w.document w.reader.timeSeriesList).1.entries.take 1 := by
      rw [World.nextFile, engines]
    have hkeep : w.reader.timeSeriesList.ended = true →
        (TimeSeries.checkForFiles w.document w.reader.timeSeriesList).1 =
          w.reader.timeSeriesList := fun h => by simp [TimeSeries.checkForFiles, h]
    rw [beginStepTurn] at hturn
    split at hturn
    case h_1 e es heq => exact absurd (heq.symm.trans engines) (by simp)
    case h_2 =>
      simp only at hturn
      generalize (TimeSeries.checkForFiles w.document w.reader.timeSeriesList).1 = tsl at *
      cases hentries : tsl.entries with
      | nil =>
        simp only [hentries] at hturn
        obtain ⟨hr, hret⟩ := Prod.mk.inj (Except.ok.inj hturn)
        subst hr
        subst hret
        rw [hnext, hentries] at hw'
        refine ⟨⟨?named, ?mode, ?list, ?position, ?first, ?current, ?bounded, ?returned, ?step⟩,
          .inl ?done⟩
        case named => rw [← hw']; exact hs.named
        case mode => rw [← hw']; exact hs.mode
        case list => rw [← hw']; simpa [ListRead] using hlist
        case position =>
          rw [← hw']
          refine .between engines ?_ ?_
          · split <;> simpa [engines] using presented
          · simpa using start
        case first => rw [← hw']; simpa [engines] using hs.first
        case current => rw [← hw']; simpa [engines] using hs.current
        case bounded => rw [← hw']; exact hs.bounded
        case returned =>
          rw [← hw']
          intro h
          refine ⟨engines, ?_, hentries⟩
          by_contra hended
          rcases List.mem_append.mp h with h | h
          case inl =>
            have hold := (hs.returned h).right.left
            exact hended (by simpa [hkeep hold] using hold)
          case inr => simp [hended] at h
        case step => rw [← hw']; exact fun h => absurd (hb.symm.trans h) (by simp)
        case done => rw [← hts]; simp
      | cons tse rest =>
        simp only [hentries] at hturn
        have hreturned : .endOfStream ∉ w.returned := by
          intro h
          obtain ⟨_, hended, hnil⟩ := hs.returned h
          rw [hkeep hended, hnil] at hentries
          exact absurd hentries (by simp)
        have hopen := hs.opening_stepping engines hb hlist hentries hreturned
        have hinit : (opening storage w tsl tse rest).reader.engines =
            [{ entry := tse, file := storage tse }] := by simp [opening, openFile, engines]
        refine hres ?_ (hopen.poll hw hinit hb (polls.property _) hturn)
        rw [← hw', hnext, hentries]
        rfl

end Stepping

end Runs

section Gets

variable {r : TimeSeriesReader} {vs : List FileVariable} {answers : Nat → Answers} {v : Variable}
  {s : Selection} {steps : StepSelection}

namespace AtStep

theorem findInfo (h : AtStep r vs) (name : String) :
    r.findInfo name =
      ((ownVars vs).find? (·.name = name)).map (stepInfo r.startStepInCurrentFile) := by
  rw [TimeSeriesReader.findInfo, h.info, List.find?_map]
  rfl

theorem findInfo_eq_some (h : AtStep r vs) {name : String} {vii : VarInternalInfo}
    (hvii : r.findInfo name = some vii) :
    ∃ fv ∈ ownVars vs, fv.name = name ∧ vii = stepInfo r.startStepInCurrentFile fv := by
  rw [h.findInfo, Option.map_eq_some_iff] at hvii
  obtain ⟨fv, hfv, rfl⟩ := hvii
  exact ⟨fv, List.mem_of_find?_eq_some hfv, by simpa using List.find?_some hfv, rfl⟩

-- The loop has one turn, and reads the step at which the file is.
theorem getParts (h : AtStep r vs) (fv : FileVariable) {n stepFrom remaining : Nat}
    (hlt : stepFrom < 2 ^ 64) (name : String) :
    getParts answers name s stepFrom n 0 [stepPart r.startStepInCurrentFile fv] 0 stepFrom remaining
        r =
      (readSteps answers name (innerSelection r name s (0, fv)) [(0, fv.stepsStart)] 0 >>=
        fun here => .ok (TimeSeries.withSelection r name s (0, fv), here)) := by
  have hplace : sub64 stepFrom stepFrom = 0 := by
    simp only [sub64]
    omega
  have hengine : r.answersOf answers 0 = .ok (answers 0) := by
    simp [TimeSeriesReader.answersOf, h.engines]
  have hsteps : ∀ a b, partSteps r.openMode fv a b = .ok [fv.stepsStart] := by
    intro a b
    simp only [partSteps, h.mode]
    rfl
  rw [TimeSeriesReader.getParts, if_pos (Nat.le_refl 0)]
  simp only [stepPart, hplace, hengine, hsteps, Outcome.ok_bind, Nat.zero_mul, List.map_cons,
    List.map_nil]
  cases hread : readSteps answers name (forwardSelection fv (r.selections 0 name) s)
      [(0, fv.stepsStart)] 0 with
  | error f => simp [innerSelection, hread]
  | ok here =>
    simp only [innerSelection, hread, Outcome.ok_bind]
    rw [getParts_end _ (Nat.zero_lt_succ 0)]
    simp [TimeSeries.withSelection, innerSelection]

theorem getCommon_eq (h : AtStep r vs) {fv : FileVariable} (hfv : fv ∈ ownVars vs)
    (hnodup : (vs.map (·.name)).Nodup) (hname : fv.name = v.name) (htype : v.type ≠ .string) :
    r.getCommon answers v s steps =
      (getTotalSize <$> r.count answers v s steps.start) >>= fun _ =>
        readSteps answers v.name (innerSelection r v.name s (0, fv)) [(0, fv.stepsStart)] 0 >>=
          fun here => .ok (TimeSeries.withSelection r v.name s (0, fv), here) := by
  have hown : ((ownVars vs).map (·.name)).Nodup := hnodup.sublist (List.filter_sublist.map _)
  have hinfo : r.findInfo v.name = some (stepInfo r.startStepInCurrentFile fv) := by
    rw [h.findInfo, ← hname, find?_of_mem hown hfv]
    rfl
  have hfind : ∀ vii step, findStep r.openMode vii step = 0 := by
    intro vii step
    simp [findStep, h.mode]
  simp only [getCommon, htype, if_false, hinfo, Option.orUndefined_some, Outcome.ok_bind, hfind,
    List.drop_zero, stepInfo]
  congr 1
  funext n
  exact h.getParts fv steps.start_lt v.name

theorem withSelection (h : AtStep r vs) (hnodup : (vs.map (·.name)).Nodup) {fv : FileVariable}
    (hfv : fv ∈ ownVars vs) : AtStep (TimeSeries.withSelection r fv.name s (0, fv)) vs where
  mode    := h.mode
  engines := h.engines
  info    := h.info
  io      := h.io
  own     := fun w hw => by
    have ho := h.own w hw
    have hown : ((ownVars vs).map (·.name)).Nodup :=
      hnodup.sublist (List.filter_sublist.map _)
    by_cases heq : w.name = fv.name
    case neg =>
      have hsel : (TimeSeries.withSelection r fv.name s (0, fv)).selections 0 w.name =
          r.selections 0 w.name := by
        simp [TimeSeries.withSelection, Function.update_of_ne heq]
      constructor <;> intro g hg <;> have hg := List.mem_singleton.mp hg <;> subst hg <;> rw [hsel]
      · exact ho.box _ (List.mem_singleton_self _)
      · exact ho.memoryStart _ (List.mem_singleton_self _)
      · exact ho.memoryCount _ (List.mem_singleton_self _)
      · exact ho.single _ (List.mem_singleton_self _)
    case pos =>
      have hw : w = fv := List.inj_on_of_nodup_map hown hw hfv heq
      subst hw
      have hsel : (TimeSeries.withSelection r w.name s (0, w)).selections 0 w.name =
          innerSelection r w.name s (0, w) := by simp [TimeSeries.withSelection]
      have hbox := ho.box _ (List.mem_singleton_self _)
      have hms := ho.memoryStart _ (List.mem_singleton_self _)
      have hmc := ho.memoryCount _ (List.mem_singleton_self _)
      have hsingle := ho.single _ (List.mem_singleton_self _)
      constructor <;> intro g hg <;> have hg := List.mem_singleton.mp hg <;> subst hg <;>
        rw [hsel] <;> simp only [innerSelection, forwardSelection, hbox]
      · split <;> simp [hbox]
      · split <;> simp [hms]
      · split <;> simp [hmc]
      · exact fun hv => by simp [hv, hsingle hv]

-- A Get leaves the reader at the step, and all but the selections as they were.
theorem getCommon (h : AtStep r vs) (hnodup : (vs.map (·.name)).Nodup)
    {p : TimeSeriesReader × List Write} (hok : r.getCommon answers v s steps = .ok p) :
    AtStep p.1 vs ∧ ∃ sel, p.1 = { r with selections := sel } := by
  by_cases htype : v.type = .string
  case pos =>
    rw [TimeSeriesReader.getCommon, if_pos htype] at hok
    have hp : (r, []) = p := Except.ok.inj hok
    rw [← hp]
    exact ⟨h, r.selections, rfl⟩
  case neg =>
    have hok' := hok
    rw [TimeSeriesReader.getCommon, if_neg htype] at hok'
    obtain ⟨vii, hvii, _⟩ := Outcome.bind_eq_ok.mp hok'
    obtain ⟨fv, hfv, hname, _⟩ := h.findInfo_eq_some (Option.orUndefined_eq_ok.mp hvii)
    rw [h.getCommon_eq hfv hnodup hname htype] at hok
    obtain ⟨_, _, hok⟩ := Outcome.bind_eq_ok.mp hok
    obtain ⟨_, _, hok⟩ := Outcome.bind_eq_ok.mp hok
    rw [← Except.ok.inj hok, ← hname]
    exact ⟨h.withSelection hnodup hfv, _, rfl⟩

end AtStep

end Gets

end TimeSeries
