import Adios2.Engine.TimeSeries.Theorems.Stepping

-- Requests on the variables of the step that a series is at.

namespace TimeSeries

open BP5 Helper TimeSeriesReader

-- What can be asked of a variable between `BeginStep` and `EndStep`.
inductive StepRequest
  | minBlocksInfo (step : UInt64)
  | varShape (step : UInt64)
  | variableMinMax (step : UInt64)
  | blocksInfo (step : UInt64)
  | get (s : Selection) (steps : StepSelection)

-- An inquiry on the current step gets the answer of the file, and one on another step nothing.
def AnsweredNow {β : Type} (r : TimeSeriesReader) (step : Nat) (answer nothing : β)
    (x : Outcome β) : Prop :=
  if askedStep r.currentStep step = r.currentStep then x = .ok answer else
    x = .ok nothing ∨ Refused x

-- A request on a variable does what it should, where the file is at its step `k`.
def MetNow (a : Answers) (r : TimeSeriesReader) (v : Variable) (k : Nat) : StepRequest → Prop
  | .minBlocksInfo step =>
    AnsweredNow r step.toNat
      ((a.minBlocksInfo v.name k).map fun mv => { mv with step := step.toNat }) none
      (r.minBlocksInfo (fun _ => a) v.name v.stepsStart step.toNat)
  | .varShape step =>
    AnsweredNow r step.toNat (a.varShape v.name k) none
      (r.varShape (fun _ => a) v.name v.stepsStart step.toNat)
  | .variableMinMax step =>
    AnsweredNow r step.toNat (a.variableMinMax v.name k) none
      (r.variableMinMax (fun _ => a) v.name v.stepsStart step.toNat)
  | .blocksInfo step =>
    AnsweredNow r step.toNat (a.blocksInfo v.name k) []
      (r.blocksInfo (fun _ => a) v.name v.stepsStart step.toNat)
  | .get s steps =>
    (r.getCommon (fun _ => a) v s steps).map Prod.snd =
      readSteps (fun _ => a) v.name s [(0, v.stepsStart)] 0

-- What a Get of a step can pass on to the file.
structure SelectableNow (v : FileVariable) (s : Selection) : Prop where
  type        : v.type ≠ .string
  box         : s.selectionType = .boundingBox
  memoryStart : s.memoryStart = []
  memoryCount : s.memoryCount = []
  single      : v.singleValue = true → v.start = s.start ∧ v.count = s.count

-- What can be asked: the current step, as a number or through the first step of the variable.
def StepRequest.Possible (r : TimeSeriesReader) (v : FileVariable) : StepRequest → Prop
  | .minBlocksInfo step | .varShape step | .variableMinMax step | .blocksInfo step =>
    askedStep v.stepsStart step.toNat = r.currentStep
  | .get s _ => SelectableNow v s

variable {r : TimeSeriesReader} {vs : List FileVariable} {fv : FileVariable} {step : Nat} {k : Nat}

namespace AtStep

-- The inquiries ask the file for a step that is counted from where the file starts.
theorem locate (h : AtStep r vs) (fv : FileVariable) (stepsStart step : Nat) :
    r.locate (stepInfo r.startStepInCurrentFile fv) stepsStart step =
      .ok (some (stepPart r.startStepInCurrentFile fv,
        sub64 (askedStep stepsStart step) r.startStepInCurrentFile)) := by
  simp only [TimeSeriesReader.locate, findStep, h.mode, stepInfo, askedStep]
  rfl

theorem inquire {α : Type} (h : AtStep r vs) (hnodup : (vs.map (·.name)).Nodup)
    (hfv : fv ∈ ownVars vs) (a : Answers) (ask : Answers → Nat → Option α) (stepsStart step : Nat) :
    r.inquire (fun _ => a) ask fv.name stepsStart step =
      .ok (ask a (sub64 (askedStep stepsStart step) r.startStepInCurrentFile)) := by
  have hown : ((ownVars vs).map (·.name)).Nodup := hnodup.sublist (List.filter_sublist.map _)
  have hinfo : r.findInfo fv.name = some (stepInfo r.startStepInCurrentFile fv) := by
    rw [h.findInfo, find?_of_mem hown hfv]
    rfl
  rw [TimeSeriesReader.inquire, hinfo]
  simp [h.locate, TimeSeriesReader.answersOf, h.engines, stepPart]

theorem blocksInfo (h : AtStep r vs) (hnodup : (vs.map (·.name)).Nodup)
    (hfv : fv ∈ ownVars vs) (a : Answers) (stepsStart step : Nat) :
    r.blocksInfo (fun _ => a) fv.name stepsStart step =
      .ok (a.blocksInfo fv.name
        (sub64 (askedStep stepsStart step) r.startStepInCurrentFile)) := by
  have hown : ((ownVars vs).map (·.name)).Nodup := hnodup.sublist (List.filter_sublist.map _)
  have hinfo : r.findInfo fv.name = some (stepInfo r.startStepInCurrentFile fv) := by
    rw [h.findInfo, find?_of_mem hown hfv]
    rfl
  rw [TimeSeriesReader.blocksInfo, hinfo]
  simp [h.locate, TimeSeriesReader.answersOf, h.engines, stepPart]

end AtStep

-- The step of the file is where the series is, counted from where the file starts.
theorem sub64_start {asked start current : Nat} (hasked : asked < 2 ^ 64)
    (hcur : current = start + k) (hlt : current < 2 ^ 64) :
    sub64 asked start = k ↔ asked = current := by
  simp only [sub64]
  omega

-- An inquiry that a file answers at any step is met just for the current one.
theorem answeredNow_iff {β : Type} {nothing : β} {stepsStart step n : Nat}
    {x : Answers → Outcome β} (ask : Answers → Nat → β) (hx : ∀ a, x a = .ok (ask a n))
    (hn : n = k ↔ askedStep stepsStart step = r.currentStep)
    (hdiff : n ≠ k → ∃ a, ask a n ≠ ask a k) (hnothing : ∃ a, ask a n ≠ nothing) :
    (∀ a, AnsweredNow r step (ask a k) nothing (x a)) ↔
      askedStep stepsStart step = r.currentStep := by
  constructor
  case mp =>
    intro h
    by_contra hne
    by_cases hnow : askedStep r.currentStep step = r.currentStep
    case pos =>
      have ⟨a, ha⟩ := hdiff fun heq => hne (hn.mp heq)
      have hans := h a
      rw [AnsweredNow, if_pos hnow, hx] at hans
      exact ha (Except.ok.inj hans)
    case neg =>
      have ⟨a, ha⟩ := hnothing
      have hans := h a
      rw [AnsweredNow, if_neg hnow, hx] at hans
      rcases hans with hans | ⟨_, _, _, _, hans⟩
      case inl => exact ha (Except.ok.inj hans)
      case inr => exact absurd hans (by simp)
  case mpr =>
    intro heq a
    have hnow : askedStep r.currentStep step = r.currentStep := by
      by_cases hstep : step = engineCurrentStep
      · simp [askedStep, hstep]
      · simpa [askedStep, hstep] using heq
    rw [AnsweredNow, if_pos hnow, hx, hn.mpr heq]

-- A file that has nothing to say at one step, and something at the others.
def silentAt (k : Nat) : Answers where
  minBlocksInfo  := fun _ m =>
    if m = k then none else some { step := 0, wasLocalValue := false, blocksInfo := [] }
  varShape       := fun _ m => if m = k then none else some []
  variableMinMax := fun _ m => if m = k then none else some { min := [], max := [] }
  blocksInfo     := fun _ m => if m = k then [] else [{ start := [], count := [], value := [] }]
  blockCount     := fun _ _ _ => .ok []
  read           := fun _ _ _ => .ok []

namespace AtStep

variable (h : AtStep r vs) (hnodup : (vs.map (·.name)).Nodup) (hfv : fv ∈ ownVars vs)
include h hnodup hfv

-- A Get of the step passes its selection on, or does not fetch what it selects.
theorem get_iff (s : Selection) (steps : StepSelection) :
    (∀ a, MetNow a r (defineVariable fv) k (.get s steps)) ↔ SelectableNow fv s := by
  have ho := h.own fv hfv
  have hregion := ho.region_eq_iff (v := defineVariable fv) (s := s)
    (List.mem_singleton_self (0, fv))
  constructor
  case mp =>
    intro hmet
    have htype : (defineVariable fv).type ≠ .string := by
      intro htype
      have hx := hmet (faulty s 0)
      simp only [MetNow] at hx
      rw [show (fun _ => faulty s 0) = faulty s from rfl, readSteps_faulty (by simp),
        TimeSeriesReader.getCommon, if_pos htype] at hx
      exact absurd hx (by simp [Except.map])
    obtain ⟨ws, hws⟩ := readSteps_onlyTo fv.name s [(0, fv.stepsStart)] 0
    have hx := hmet (onlyTo s 0)
    simp only [MetNow] at hx
    rw [show (fun _ => onlyTo s 0) = onlyTo s from rfl,
      show (defineVariable fv).name = fv.name from rfl,
      show (defineVariable fv).stepsStart = fv.stepsStart from rfl, hws] at hx
    obtain ⟨p, hp⟩ : ∃ p, r.getCommon (onlyTo s) (defineVariable fv) s steps = .ok p := by
      cases hg : r.getCommon (onlyTo s) (defineVariable fv) s steps with
      | error f => simp [hg, Except.map] at hx
      | ok p => exact ⟨p, rfl⟩
    rw [h.getCommon_eq (v := defineVariable fv) hfv hnodup rfl htype] at hp
    obtain ⟨_, _, hp⟩ := Outcome.bind_eq_ok.mp hp
    obtain ⟨_, hread, _⟩ := Outcome.bind_eq_ok.mp hp
    obtain ⟨hbox, hms, hmc, hsingle⟩ := hregion.mp (region_of_readSteps (by simp) hread)
    exact ⟨htype, hbox, hms, hmc, hsingle⟩
  case mpr =>
    rintro ⟨htype, hbox, hms, hmc, hsingle⟩ a
    have hr := hregion.mpr ⟨hbox, hms, hmc, hsingle⟩
    have hcount : r.count (fun _ => a) (defineVariable fv) s steps.start = .ok s.count := by
      simp [TimeSeriesReader.count, hbox]
    simp only [MetNow]
    rw [h.getCommon_eq (v := defineVariable fv) hfv hnodup rfl htype, hcount, readSteps_congr hr,
      show (defineVariable fv).stepsStart = fv.stepsStart from rfl]
    cases readSteps (fun _ => a) (defineVariable fv).name s [(0, fv.stepsStart)] 0 with
    | error f => rfl
    | ok here => rfl

-- At a step of the series the reader answers what is possible, and nothing else.
theorem metNow_iff (hstart : fv.stepsStart < 2 ^ 64)
    (hcur : r.currentStep = r.startStepInCurrentFile + k) (hlt : r.currentStep < 2 ^ 64)
    (q : StepRequest) : (∀ a, MetNow a r (defineVariable fv) k q) ↔ q.Possible r fv := by
  have hasked : ∀ step : UInt64, askedStep fv.stepsStart step.toNat < 2 ^ 64 := by
    intro step
    have := step.toNat_lt
    rw [askedStep]
    split <;> omega
  have hn := fun step : UInt64 => sub64_start (hasked step) hcur hlt
  have hinquire := fun {α : Type} (a : Answers) (ask : Answers → Nat → Option α) (step : Nat) =>
    h.inquire hnodup hfv a ask fv.stepsStart step
  cases q with
  | minBlocksInfo step =>
    refine answeredNow_iff (fun a n => (a.minBlocksInfo fv.name n).map fun mv =>
      { mv with step := step.toNat }) (fun a => ?_) (hn step) (fun hne => ⟨silentAt k, ?_⟩)
      ⟨talking 0, ?_⟩
    · rw [minBlocksInfo, show (defineVariable fv).name = fv.name from rfl,
        show (defineVariable fv).stepsStart = fv.stepsStart from rfl, hinquire]
      rfl
    · simp [silentAt, hne]
    · simp [talking]
  | varShape step =>
    refine answeredNow_iff (fun a n => a.varShape fv.name n) (fun a => hinquire a _ _)
      (hn step) (fun hne => ⟨silentAt k, ?_⟩) ⟨talking 0, ?_⟩
    · simp [silentAt, hne]
    · simp [talking]
  | variableMinMax step =>
    refine answeredNow_iff (fun a n => a.variableMinMax fv.name n) (fun a => hinquire a _ _)
      (hn step) (fun hne => ⟨silentAt k, ?_⟩) ⟨talking 0, ?_⟩
    · simp [silentAt, hne]
    · simp [talking]
  | blocksInfo step =>
    refine answeredNow_iff (fun a n => a.blocksInfo fv.name n)
      (fun a => h.blocksInfo hnodup hfv a _ _) (hn step) (fun hne => ⟨silentAt k, ?_⟩)
      ⟨talking 0, ?_⟩
    · simp [silentAt, hne]
    · simp [talking]
  | get s steps => exact h.get_iff hnodup hfv s steps

end AtStep

end TimeSeries

-- Runs in which a series is read step by step while its list grows.

namespace TimeSeries

open BP5 Helper TimeSeriesReader Threads

variable {storage : TimeSeriesEntry → File} {answersAt : TimeSeriesEntry → Nat → Answers}

abbrev Run := Configuration Party World Task

-- What the user is at: nothing, a turn outside of a step, or something inside of one.
def UserAt (w : World) (ts : List Task) : Prop :=
  ∀ t ∈ ts, t = .turn ∧ w.reader.betweenStepPairs = false ∧ ts = [.turn] ∨
    (t = .endStep ∨ ∃ v s steps, t = .get v s steps) ∧ w.reader.betweenStepPairs = true ∧ ts = [t]

-- What the writer is at: nothing, or one more file or the end of a list that is not closed yet.
def WriterAt (w : World) (ts : List Task) : Prop :=
  ∀ t ∈ ts, ∃ node tse, ts = [.append node] ∧ node.entry = .ok tse ∧ closed w.document = false

structure Running (storage : TimeSeriesEntry → File) (c : Run) : Prop where
  stepping : Stepping storage c.state
  user     : UserAt c.state (c.threads .user)
  writer   : WriterAt c.state (c.threads .writer)

-- When the reader looks at the list for the first time, the list is empty or closed.
def LooksWhole (c : Run) : Event Party Task Polls → Prop
  | .run .user _ => c.threads .user = [.turn] → Whole c.state
  | _            => True

-- A series that was opened to be read step by step.
def openedForRead (document : List YamlNode) (r : TimeSeriesReader) : Run where
  state   := { document, reader := r }
  threads := fun _ => []

section Start

variable {document : List YamlNode} {r : TimeSeriesReader}

theorem listRead_openedForRead (hnamed : Named document)
    (hwhole : listed document = [] ∨ closed document = true)
    (h : initTransports storage document .read = .ok r) :
    ListRead (openedForRead document r).state := by
  have hr : { openMode := .read, timeSeriesList := (checkForFiles document {}).1 } = r :=
    Except.ok.inj h
  rw [checkForFiles_eq hnamed (by decide) rfl] at hr
  subst hr
  cases hclosed : closed document with
  | true  => simp [ListRead, openedForRead, hclosed]
  | false =>
    have hnil : listed document = [] := by simpa [hclosed] using hwhole
    simp [ListRead, openedForRead, hnil]

theorem stepping_openedForRead (hnamed : Named document)
    (hwhole : listed document = [] ∨ closed document = true)
    (h : initTransports storage document .read = .ok r) :
    Stepping storage (openedForRead document r).state := by
  have hlist := listRead_openedForRead hnamed hwhole h
  have hr : { openMode := .read, timeSeriesList := (checkForFiles document {}).1 } = r :=
    Except.ok.inj h
  subst hr
  exact {
    named    := hnamed
    mode     := rfl
    list     := hlist
    position := .between rfl rfl rfl
    first    := by simp [openedForRead]
    current  := rfl
    bounded  := by simp [openedForRead]
    returned := fun h => absurd h (by simp [openedForRead])
    step     := fun h => absurd h (by simp [openedForRead])
  }

end Start

namespace Stepping

variable {w w' : World}

-- The list only grows as long as the reader has nothing of it.
theorem append (hs : Stepping storage w) {node : YamlNode} {tse : TimeSeriesEntry}
    (hnode : node.entry = .ok tse) (hclosed : closed w.document = false) :
    Stepping storage { w with document := w.document ++ [node] } := by
  have hended : ¬w.reader.timeSeriesList.ended = true := by
    intro hended
    have ⟨h, _⟩ := (listRead_of_ended hended).mp hs.list
    exact absurd (hclosed.symm.trans h) (by simp)
  refine ⟨?named, hs.mode, ?list, ?position, hs.first, hs.current, hs.bounded,
    hs.returned, hs.step⟩
  case named =>
    intro n hn
    rcases List.mem_append.mp hn with hn | hn
    case inl => exact hs.named n hn
    case inr => exact ⟨tse, List.mem_singleton.mp hn ▸ hnode⟩
  case list =>
    have hlist := (listRead_of_not_ended hended).mp hs.list
    refine (listRead_of_not_ended ?_).mpr hlist
    exact hended
  case position =>
    cases hs.position with
    | between engines presented start => exact .between engines presented start
    | inside done e engines opened file begun presented start =>
      exact .inside done e engines opened file begun presented start

theorem endStep (hs : Stepping storage w) :
    Stepping storage { w with reader := w.reader.endStep } where
  named    := hs.named
  mode     := hs.mode
  list     := hs.list
  position := by
    cases hs.position with
    | between engines presented start => exact .between engines presented start
    | inside done e engines opened file begun presented start =>
      exact .inside done e engines opened file begun presented start
  first    := hs.first
  current  := hs.current
  bounded  := hs.bounded
  returned := hs.returned
  step     := fun h => absurd h (by simp [TimeSeriesReader.endStep])

-- The variables of the step have each their own name.
theorem nodup_step (hw : WellFormedSteps storage) (hs : Stepping storage w) {e : Engine}
    (he : w.reader.engines = [e]) (k : Nat) : ((e.file.varsAt k).map (·.name)).Nodup := by
  have ⟨_, _, file, _⟩ := hs.inside_of_engines he
  exact file ▸ hw.named e.entry k

theorem get (hw : WellFormedSteps storage) (hs : Stepping storage w)
    (hb : w.reader.betweenStepPairs = true) {answers : Nat → Answers} {v : Variable}
    {s : Selection} {steps : StepSelection} {p : TimeSeriesReader × List Write}
    (hok : w.reader.getCommon answers v s steps = .ok p) :
    Stepping storage { w with reader := p.1 } ∧ p.1.betweenStepPairs = true := by
  have ⟨e, he, hbegun, hat⟩ := hs.step hb
  have ⟨hat', sel, heq⟩ := hat.getCommon (hs.nodup_step hw he _) hok
  rw [heq] at hat' ⊢
  refine ⟨⟨hs.named, hs.mode, hs.list, ?position, hs.first, hs.current, hs.bounded, hs.returned,
    fun _ => ⟨e, he, hbegun, hat'⟩⟩, hb⟩
  case position =>
    cases hs.position with
    | between engines presented start => exact .between engines presented start
    | inside done e engines opened file begun presented start =>
      exact .inside done e engines opened file begun presented start

end Stepping

namespace Running

variable {c c' : Run} {ev : Event Party Task Polls}

theorem of_user {w : World} {ts : List Task} (hc : Running storage c)
    (hs : Stepping storage w) (hdoc : w.document = c.state.document) (hts : UserAt w ts) :
    Running storage { state := w, threads := Function.update c.threads .user ts } where
  stepping := hs
  user     := by simpa using hts
  writer   := by
    intro t ht
    have ht : t ∈ c.threads .writer := by simpa using ht
    have ⟨node, tse, hthread, hnode, hclosed⟩ := hc.writer t ht
    exact ⟨node, tse, by simpa using hthread, hnode, hdoc ▸ hclosed⟩

theorem step (hw : WellFormedSteps storage) (hc : Running storage c) (hev : LooksWhole c ev)
    (hstep : Step (program storage answersAt) c ev c') : Running storage c' := by
  cases hstep with
  | start idle begins =>
    rename_i i ts
    cases i with
    | user =>
      refine hc.of_user hc.stepping rfl ?_
      intro t ht
      simp only [program] at begins
      split at begins
      case isTrue hb =>
        rcases begins with rfl | ⟨v, s, steps, rfl⟩ <;> have ht := List.mem_singleton.mp ht <;>
          subst ht
        · exact .inr ⟨.inl rfl, hb, rfl⟩
        · exact .inr ⟨.inr ⟨v, s, steps, rfl⟩, hb, rfl⟩
      case isFalse hb =>
        subst begins
        exact .inl ⟨List.mem_singleton.mp ht, by simpa using hb, rfl⟩
    | writer =>
      have ⟨hclosed, node, tse, hnode, hts⟩ := begins
      subst hts
      refine ⟨hc.stepping, by simpa using hc.user, ?_⟩
      intro t _
      exact ⟨node, tse, by simp, hnode, hclosed⟩
  | run thread ready exec =>
    rename_i i polls t rest ts w
    have ht : t ∈ c.threads i := thread ▸ List.mem_cons_self
    cases i with
    | user =>
      rcases hc.user t ht with ⟨rfl, hb, hthread⟩ | ⟨hkind, hb, hthread⟩
      case inl =>
        have hrest : rest = [] := (List.cons.inj (thread.symm.trans hthread)).right
        have ⟨hs, hts⟩ := hc.stepping.turn hw (hev hthread) hb exec
        have hdoc : w.document = c.state.document := by
          obtain ⟨_, _, hok⟩ := Outcome.bind_eq_ok.mp exec
          exact (Prod.mk.inj (Except.ok.inj hok)).left ▸ rfl
        refine hc.of_user hs hdoc ?_
        rw [hrest, List.append_nil]
        intro t ht
        rcases hts with rfl | ⟨rfl, hb⟩
        case inl => exact absurd ht List.not_mem_nil
        case inr => exact .inl ⟨List.mem_singleton.mp ht, hb, rfl⟩
      case inr =>
        have hrest : rest = [] := (List.cons.inj (thread.symm.trans hthread)).right
        rcases hkind with rfl | ⟨v, s, steps, rfl⟩
        case inl =>
          have ⟨hw', hts⟩ := Prod.mk.inj (Except.ok.inj exec)
          subst hw'
          subst hts
          refine hc.of_user hc.stepping.endStep rfl ?_
          intro t ht
          exact absurd ht (by simp [hrest])
        case inr =>
          obtain ⟨p, hget, hok⟩ := Outcome.bind_eq_ok.mp exec
          have ⟨hw', hts⟩ := Prod.mk.inj (Except.ok.inj hok)
          subst hw'
          subst hts
          have ⟨hs, _⟩ := hc.stepping.get hw hb hget
          refine hc.of_user hs rfl ?_
          intro t ht
          exact absurd ht (by simp [hrest])
    | writer =>
      have ⟨node, tse, hthread, hnode, hclosed⟩ := hc.writer t ht
      have ⟨ht, hrest⟩ := List.cons.inj (thread.symm.trans hthread)
      subst ht
      have ⟨hw', hts⟩ := Prod.mk.inj (Except.ok.inj exec)
      subst hw'
      subst hts
      refine ⟨hc.stepping.append hnode hclosed, by simpa [UserAt] using hc.user, ?_⟩
      intro t ht
      exact absurd ht (by simp [hrest])

end Running

end TimeSeries
