import Adios2.Engine.BP5.Theorems.StreamingReader

-- Runs of a streaming reader: what an application gets from `BeginStep` while the files grow.

namespace BP5

open Bytes IndexStep StreamReader

namespace StreamReader

variable {e : Endian} {h : HeaderInfo} {p : StreamParams} {steps : List WriterStep}
  {files : StreamFiles} {r r₁ r' : StreamReader} {look : Look}

theorem headerFlag_eq (hw : WriterRun e p steps) (hfiles : writerFiles e h steps = some files)
    {l : IndexLook} (hlen : indexHeaderSize ≤ (l.content files).length) :
    (l.content files)[activeFlagPosition]? = some (if l.active then 1 else 0) := by
  have hne : files.mdIndex ≠ [] := by
    intro hnil
    rw [IndexLook.content, List.length_take, IndexLook.file_length, hnil] at hlen
    simp [indexHeaderSize] at hlen
  have hlt : activeFlagPosition < l.size := by
    rw [IndexLook.content, List.length_take] at hlen
    simp only [indexHeaderSize, activeFlagPosition] at *
    omega
  rw [IndexLook.content, List.getElem?_take_of_lt hlt]
  exact file_flag hw hfiles hne

-- What changes from one call of `UpdateBuffer` or `CheckWriterActive` to the next while the reader
-- waits for a step.
structure Moved (e : Endian) (p : StreamParams) (steps : List WriterStep) (r r' : StreamReader) :
    Prop where
  reading          : Reading e p steps r'
  le               : r.index.stepsCount ≤ r'.index.stepsCount
  ready            : ∀ {i s}, r.index.stepsCount ≤ i → i < r'.index.stepsCount →
    steps[i]? = some s → StepReady e p r' i s
  installed        : r.installedMetaMeta <+: r'.installedMetaMeta
  currentStep      : r'.currentStep = r.currentStep
  firstStep        : r'.firstStep = r.firstStep
  betweenStepPairs : r'.betweenStepPairs = r.betweenStepPairs

namespace Moved

theorem refl (hr : Reading e p steps r) : Moved e p steps r r where
  reading          := hr
  le               := le_rfl
  ready            := by omega
  installed        := List.prefix_rfl
  currentStep      := rfl
  firstStep        := rfl
  betweenStepPairs := rfl

theorem trans (h₁ : Moved e p steps r r₁) (h₂ : Moved e p steps r₁ r')
    (heq : r₁.index.stepsCount = r.index.stepsCount) : Moved e p steps r r' where
  reading          := h₂.reading
  le               := heq ▸ h₂.le
  ready            := heq ▸ h₂.ready
  installed        := h₁.installed.trans h₂.installed
  currentStep      := h₂.currentStep.trans h₁.currentStep
  firstStep        := h₂.firstStep.trans h₁.firstStep
  betweenStepPairs := h₂.betweenStepPairs.trans h₁.betweenStepPairs

end Moved

theorem Updated.moved (hu : Updated e h p steps files look r r') : Moved e p steps r r' :=
  { hu with le := hu.stepsCount ▸ Nat.le_add_right _ _ }

-- What the reader takes from a look at the flag alone.
def flagShows (files : StreamFiles) (l : IndexLook) : Bool :=
  (l.content files).length < indexHeaderSize || l.active

theorem checkWriterActive_run (hw : WriterRun e p steps)
    (hfiles : writerFiles e h steps = some files) (hr : Reading e p steps r) (l : IndexLook) :
    ∃ r', (checkWriterActive files l).run r = .ok r'.index.writerIsActive r' ∧
      Moved e p steps r r' ∧ r'.index.stepsCount = r.index.stepsCount ∧
      (r'.index.writerIsActive = false → r.index.writerIsActive = false ∨ l.active = false) := by
  cases hactive : r.index.writerIsActive with
  | false =>
    refine ⟨r, ?_, .refl hr, rfl, fun _ => .inl rfl⟩
    simp [checkWriterActive, hactive]
  | true =>
    have hopen : r.mdIndexFile = true := by
      by_contra hclosed
      have := hr.closed (by simpa using hclosed)
      simp [hactive] at this
    have hflag : ((l.content files).length < indexHeaderSize
        || (l.content files)[activeFlagPosition]? == some 1) = flagShows files l := by
      unfold flagShows
      by_cases hlen : (l.content files).length < indexHeaderSize
      · simp [hlen]
      · rw [headerFlag_eq hw hfiles (by omega)]
        cases l.active <;> rfl
    have ⟨k, hk⟩ := hr.polled
    refine ⟨{ r with index.writerIsActive := flagShows files l }, ?_, ?_, rfl, ?_⟩
    · simp only [checkWriterActive, EStateM.run_bind, EStateM.run_get, hactive, hopen, if_true,
        hflag]
      rfl
    · exact {
        Moved.refl (r := { r with index.writerIsActive := flagShows files l }) {
          hr with
          polled  := ⟨k, ⟨{ hk.tracks with }, hk.le, hk.position⟩⟩
          formats := { hr.formats with }
          closed  := by simp [hopen]
        } with
      }
    · intro hinactive
      right
      simp only [flagShows, Bool.or_eq_false_iff] at hinactive
      exact hinactive.right

-- The calls of `UpdateBuffer` in these rounds go well, each from the state that it is made in.
def RoundsSteady (e : Endian) (h : HeaderInfo) (p : StreamParams) (steps : List WriterStep)
    (files : StreamFiles) : StreamReader → List Round → Prop
  | _, []              => True
  | r, round :: rounds =>
    LookSteady e h p steps files r round.look ∧
      ∀ r₁, (updateBuffer p files round.look).run r = .ok () r₁ →
        r₁.index.stepsCount = r.index.stepsCount →
        ∀ active r₂, (checkWriterActive files round.flag).run r₁ = .ok active r₂ →
          if active then
            RoundsSteady e h p steps files r₂ rounds
          else
            LookSteady e h p steps files r₂ round.again

-- A look that shows that the writer has finished.
def showsFinished (round : Round) : Bool :=
  !round.look.active || !round.flag.active || !round.again.active

-- A call that finds nothing has not been shown any complete step.
theorem completeSteps_le_of_newCount (hr : Reading e p steps r)
    (hnew : newCount e h p steps files r look = 0) :
    completeSteps e h (indexSteps steps) (firstSize files look) ≤ r.index.stepsCount := by
  by_cases hopen : r.mdIndexFile = true
  case neg =>
    have ⟨hall, _⟩ := hr.closed (by simpa using hopen)
    have hmap : (indexSteps steps).length = steps.length := List.length_map _
    rw [hall, ← hmap]
    exact completeSteps_le e h (indexSteps steps) _
  case pos =>
    have hsize : firstSize files look ≤ visibleSize files r look := by
      rw [visibleSize, if_pos hopen]
      split
      · exact le_settle
      · exact le_rfl
    apply (completeSteps_mono hsize).trans
    by_contra hlt
    have hdrop : ((indexSteps steps).take (completeSteps e h (indexSteps steps)
        (visibleSize files r look))).drop r.index.stepsCount ≠ [] := by
      have := completeSteps_le e h (indexSteps steps) (visibleSize files r look)
      rw [ne_eq, List.drop_eq_nil_iff, List.length_take]
      omega
    rw [newCount, List.length_eq_zero_iff, foundSteps] at hnew
    cases hl : ((indexSteps steps).take (completeSteps e h (indexSteps steps)
        (visibleSize files r look))).drop r.index.stepsCount with
    | nil => contradiction
    | cons s rest =>
      have hlimit : p.reader.maxMetadataSizeInMemory ≠ 0 :=
        Nat.succ_ne_zero 16777215
      rw [hl, withinLimit, if_neg hlimit] at hnew
      cases hnew

-- What the loop of `CheckForNewSteps` leaves.
structure Waited (e : Endian) (h : HeaderInfo) (p : StreamParams) (steps : List WriterStep)
    (files : StreamFiles) (rounds : List Round) (r r' : StreamReader) : Prop where
  moved    : Moved e p steps r r'
  -- Without new steps:
  finished : r'.index.stepsCount = r.index.stepsCount → r'.index.writerIsActive = false →
    r.index.stepsCount = steps.length
  missing  : r'.index.stepsCount = r.index.stepsCount → ∀ round, rounds.head? = some round →
    completeSteps e h (indexSteps steps) (firstSize files round.look) ≤ r.index.stepsCount
  active   : r'.index.writerIsActive = false → r.index.writerIsActive = false ∨
    ∃ round ∈ rounds, showsFinished round = true

theorem activeAfter_eq_false (hactive : activeAfter files r look = false) :
    r.index.writerIsActive = false ∨ look.active = false := by
  unfold activeAfter at hactive
  split at hactive
  · exact .inr hactive
  · exact .inl hactive

-- Without new steps, a call that goes well knows of a writer that is done only at the end.
theorem LookSteady.finished_of_zero (hlook : LookSteady e h p steps files r look)
    (hactive : activeAfter files r look = false)
    (hnew : newCount e h p steps files r look = 0) : r.index.stepsCount = steps.length := by
  rcases hlook.finished hactive with hend | ⟨hpos, _⟩ <;> omega

theorem pollRounds_steady (hw : WriterRun e p steps)
    (hfiles : writerFiles e h steps = some files)
    (hflat : (h.flattenSteps && !p.ignoreFlattenSteps) = false) (hr : Reading e p steps r)
    {rounds : List Round} (hactive : rounds = [] → r.index.writerIsActive = true)
    (hrounds : RoundsSteady e h p steps files r rounds) :
    ∃ r', (pollRounds p files r.index.stepsCount rounds).run r = .ok () r' ∧
      Waited e h p steps files rounds r r' := by
  induction rounds generalizing r with
  | nil =>
    refine ⟨r, rfl, .refl hr, ?_, by simp, fun h₀ => .inl h₀⟩
    intro _ h₀
    rw [hactive rfl] at h₀
    contradiction
  | cons round rounds ih =>
    have ⟨hlook, hnext⟩ := hrounds
    have ⟨r₁, hrun₁, hu₁⟩ := updateBuffer_steady hw hfiles hflat hr hlook
    have hcount₁ := hu₁.stepsCount
    by_cases hnew : r.index.stepsCount < r₁.index.stepsCount
    case pos =>
      refine ⟨r₁, ?_, hu₁.moved, by omega, by omega, ?_⟩
      · simp only [pollRounds, EStateM.run_bind, hrun₁, EStateM.run_get, hnew, if_true]
        rfl
      · intro h₀
        rw [hu₁.active] at h₀
        refine (activeAfter_eq_false h₀).imp_right fun hl => ⟨round, List.mem_cons_self, ?_⟩
        simp [showsFinished, hl]
    case neg =>
      have heq : r₁.index.stepsCount = r.index.stepsCount := by omega
      have hzero : newCount e h p steps files r round.look = 0 := by omega
      have hmissing := completeSteps_le_of_newCount hr hzero
      have ⟨r₂, hrun₂, hm₂, heq₂, hfalse₂⟩ :=
        checkWriterActive_run hw hfiles hu₁.reading round.flag
      have hrest := hnext r₁ hrun₁ heq _ r₂ hrun₂
      have hm₁ := hu₁.moved.trans hm₂ heq
      have hshows₂ (h₀ : r₂.index.writerIsActive = false) : r.index.writerIsActive = false ∨
          showsFinished round = true := by
        rcases hfalse₂ h₀ with h₁ | hl
        · rw [hu₁.active] at h₁
          refine (activeAfter_eq_false h₁).imp_right fun hl => ?_
          simp [showsFinished, hl]
        · exact .inr (by simp [showsFinished, hl])
      cases hactive₂ : r₂.index.writerIsActive with
      | true =>
        rw [hactive₂, if_pos rfl] at hrest
        have ⟨r', hrun', hw'⟩ := ih hm₂.reading (fun _ => hactive₂) hrest
        refine ⟨r', ?_, hm₁.trans hw'.moved (heq₂.trans heq), ?_, ?_, ?_⟩
        · simp only [pollRounds, EStateM.run_bind, hrun₁, EStateM.run_get, hnew, if_false, hrun₂,
            hactive₂, if_true]
          rw [heq₂, heq] at hrun'
          exact hrun'
        · intro hsame h₀
          rw [← heq, ← heq₂]
          exact hw'.finished (by omega) h₀
        · rintro _ _ ⟨⟩
          exact hmissing
        · intro h₀
          rcases hw'.active h₀ with h₁ | ⟨round', hround', hs⟩
          · rw [hactive₂] at h₁
            contradiction
          · exact .inr ⟨round', List.mem_cons_of_mem _ hround', hs⟩
      | false =>
        rw [hactive₂, if_neg (by decide)] at hrest
        have ⟨r', hrun', hu'⟩ := updateBuffer_steady hw hfiles hflat hm₂.reading hrest
        have hcount' := hu'.stepsCount
        refine ⟨r', ?_, hm₁.trans hu'.moved (heq₂.trans heq), ?_, ?_, ?_⟩
        · simp only [pollRounds, EStateM.run_bind, hrun₁, EStateM.run_get, hnew, if_false, hrun₂,
            hactive₂, Bool.false_eq_true]
          exact hrun'
        · intro hsame h₀
          rw [hu'.active] at h₀
          have := hrest.finished_of_zero h₀ (by omega)
          omega
        · rintro _ _ ⟨⟩
          exact hmissing
        · intro h₀
          rw [hu'.active] at h₀
          rcases activeAfter_eq_false h₀ with h₁ | hl
          · exact (hshows₂ h₁).imp_right fun hs => ⟨round, List.mem_cons_self, hs⟩
          · refine .inr ⟨round, List.mem_cons_self, ?_⟩
            simp [showsFinished, hl]

theorem installMetadataForTimestep_run (hw : WriterRun e p steps) {step : Nat} {s : WriterStep}
    (hs : s ∈ steps) (he : r.index.minifooter.endian = e) (hready : StepReady e p r step s) :
    (installMetadataForTimestep p step).run r = .ok (s.presented step) r := by
  have ⟨entry, hentry, hmetadata⟩ := hready.metadata
  have ⟨j, map, hj, hmap, hcount⟩ := hready.writerMap
  have hlt : (s.metadata e).length < 2 ^ 64 := by
    have hmem : (s.metadata e).length ∈ metadataSizes e steps :=
      List.mem_map_of_mem (List.mem_map_of_mem hs)
    exact Nat.lt_of_le_of_lt (List.le_sum_of_mem hmem) hw.total
  have hinstalls := installMetadataForTimestep_eq (hw.metaData s hs) (hw.attributes s hs)
    hmetadata hlt
  simp only [installMetadataForTimestep, EStateM.run_bind, EStateM.run_get, hentry, hj, hmap,
    hcount, he, hinstalls, Option.bind_eq_bind, Option.bind_some, Option.pure_def]
  rw [if_pos (List.all_eq_true.mpr hready.formats)]
  rfl

-- A reader that has presented a number of steps. The others that it knows are ready.
structure Between (e : Endian) (p : StreamParams) (steps : List WriterStep) (n : Nat)
    (r : StreamReader) : Prop where
  reading : Reading e p steps r
  le      : n ≤ r.index.stepsCount
  ready   : ∀ {i s}, n ≤ i → i < r.index.stepsCount → steps[i]? = some s → StepReady e p r i s
  current : if r.firstStep then n = 0 ∧ r.currentStep = 0 else r.currentStep + 1 = n
  idle    : r.betweenStepPairs = false

theorem Between.needsSteps {n : Nat} (hr : Between e p steps n r) :
    r.needsSteps = true ↔ r.index.stepsCount = n := by
  have hcurrent := hr.current
  have hle := hr.le
  unfold StreamReader.needsSteps
  cases hfirst : r.firstStep with
  | true =>
    rw [hfirst, if_pos rfl] at hcurrent
    rw [if_pos rfl, decide_eq_true_iff, hcurrent.left]
  | false =>
    rw [hfirst, if_neg (by decide)] at hcurrent
    rw [if_neg (by decide), decide_eq_true_iff]
    omega

-- The step after those that were presented is presented.
theorem Between.present (hw : WriterRun e p steps) {n : Nat} (hr : Between e p steps n r)
    (hlt : n < r.index.stepsCount) : ∃ s, steps[n]? = some s ∧
    (installMetadataForTimestep p r.nextStep.currentStep).run r.nextStep
      = .ok (s.presented n) r.nextStep ∧
    Between e p steps (n + 1) { r.nextStep with betweenStepPairs := false } := by
  have ⟨k, hk⟩ := hr.reading.polled
  have hle := (hk.knownSteps p.reader_selectsAll hw.continues).le
  rw [indexSteps, List.length_map] at hle
  have hs : steps[n]? = some steps[n] := List.getElem?_eq_getElem (by omega)
  have hcurrent : r.nextStep.currentStep = n := by
    have hcurrent := hr.current
    unfold nextStep
    cases hfirst : r.firstStep with
    | true =>
      rw [hfirst, if_pos rfl] at hcurrent
      rw [if_pos rfl, hcurrent.left, hcurrent.right]
    | false =>
      rw [hfirst, if_neg (by decide)] at hcurrent
      rw [if_neg (by decide), hcurrent]
  have he := polled_endian hk (Nat.zero_lt_of_lt hlt)
  have hready := hr.ready le_rfl hlt hs
  refine ⟨_, hs, ?_, ?_⟩
  · rw [hcurrent]
    exact installMetadataForTimestep_run hw (List.getElem_mem _) he { hready with }
  · exact {
      reading := { hr.reading with formats := { hr.reading.formats with } }
      le      := hlt
      ready   := fun hle' hlt' hs' => { hr.ready (Nat.le_of_succ_le hle') hlt' hs' with }
      current := by simpa [nextStep] using hcurrent
      idle    := rfl
    }

-- The writer is known to have finished, or one of these rounds shows it.
def finishedIn (rounds : Rounds) : Bool :=
  (rounds.first :: rounds.later).any showsFinished

-- An answer to an application that has got `n` steps, and the number that it has got then.
def Answers (e : Endian) (h : HeaderInfo) (steps : List WriterStep) (files : StreamFiles)
    (rounds : Rounds) (finished : Bool) (n n' : Nat) : Begun → Prop
  | .ok presented => n' = n + 1 ∧ ∃ s, steps[n]? = some s ∧ presented = s.presented n
  | .notReady     => n' = n ∧
    completeSteps e h (indexSteps steps) (firstSize files rounds.first.look) ≤ n
  | .endOfStream  => n' = n ∧ n = steps.length ∧ (finished || finishedIn rounds) = true

theorem takeStep_steady (hw : WriterRun e p steps)
    (hfiles : writerFiles e h steps = some files)
    (hflat : (h.flattenSteps && !p.ignoreFlattenSteps) = false) {n : Nat}
    (hr : Between e p steps n r) {rounds : Rounds} {finished : Bool}
    (hfinished : r.index.writerIsActive = false → finished = true)
    (hrounds : r.needsSteps = true →
      RoundsSteady e h p steps files r (rounds.first :: rounds.later)) :
    ∃ begun n' r', (takeStep p files rounds).run r = .ok begun r' ∧
      Answers e h steps files rounds finished n n' begun ∧ Between e p steps n' r' ∧
      (r'.index.writerIsActive = false → (finished || finishedIn rounds) = true) := by
  by_cases hneeds : r.needsSteps = true
  case neg =>
    have hlt : n < r.index.stepsCount := by
      have := hr.le
      have := mt hr.needsSteps.mpr hneeds
      omega
    have ⟨s, hs, hrun, hr'⟩ := hr.present hw hlt
    refine ⟨.ok (s.presented n), n + 1, _, ?_, ⟨rfl, s, hs, rfl⟩, hr', ?_⟩
    · simp only [takeStep, beginStep, EStateM.run_bind, EStateM.run_get, hr.idle,
        Bool.false_eq_true, if_false, hneeds, EStateM.run_pure, EStateM.run_modify, hrun]
      rfl
    · intro h₀
      rw [hfinished h₀]
      rfl
  case pos =>
    have hcount := hr.needsSteps.mp hneeds
    have ⟨r₁, hrun₁, hw₁⟩ := pollRounds_steady hw hfiles hflat hr.reading (by simp)
      (hrounds hneeds)
    have hactive (h₀ : r₁.index.writerIsActive = false) :
        (finished || finishedIn rounds) = true := by
      rcases hw₁.active h₀ with h₁ | ⟨round, hround, hs⟩
      · rw [hfinished h₁]
        rfl
      · rw [Bool.or_eq_true]
        exact .inr (List.any_eq_true.mpr ⟨round, hround, hs⟩)
    have hr₁ : Between e p steps n r₁ := {
      reading := hw₁.moved.reading
      le      := hcount ▸ hw₁.moved.le
      ready   := hcount ▸ hw₁.moved.ready
      current := by
        rw [hw₁.moved.firstStep, hw₁.moved.currentStep]
        exact hr.current
      idle    := hw₁.moved.betweenStepPairs.trans hr.idle
    }
    have hwait : (checkForNewSteps p files rounds).run r = .ok
        (if r.index.stepsCount < r₁.index.stepsCount then .ok
          else if r₁.index.writerIsActive then .notReady else .endOfStream) r₁ := by
      simp only [checkForNewSteps, EStateM.run_bind, EStateM.run_get, hrun₁]
      split_ifs <;> rfl
    by_cases hnew : r.index.stepsCount < r₁.index.stepsCount
    case pos =>
      rw [if_pos hnew] at hwait
      have ⟨s, hs, hrun, hr'⟩ := hr₁.present hw (hcount ▸ hnew)
      refine ⟨.ok (s.presented n), n + 1, _, ?_, ⟨rfl, s, hs, rfl⟩, hr', hactive⟩
      simp only [takeStep, beginStep, EStateM.run_bind, EStateM.run_get, hr.idle,
        Bool.false_eq_true, if_false, hneeds, if_true, hwait, EStateM.run_modify, hrun]
      rfl
    case neg =>
      rw [if_neg hnew] at hwait
      have hsame : r₁.index.stepsCount = r.index.stepsCount := by
        have := hw₁.moved.le
        omega
      cases hwriter : r₁.index.writerIsActive with
      | true =>
        rw [hwriter, if_pos rfl] at hwait
        refine ⟨.notReady, n, r₁, ?_, ⟨rfl, ?_⟩, hr₁, hactive⟩
        · simp only [takeStep, beginStep, EStateM.run_bind, EStateM.run_get, hr.idle,
            Bool.false_eq_true, if_false, hneeds, if_true, hwait]
          rfl
        · rw [← hcount]
          exact hw₁.missing hsame _ rfl
      | false =>
        rw [hwriter, if_neg (by decide)] at hwait
        refine ⟨.endOfStream, n, r₁, ?_, ⟨rfl, ?_, hactive hwriter⟩, hr₁, hactive⟩
        · simp only [takeStep, beginStep, EStateM.run_bind, EStateM.run_get, hr.idle,
            Bool.false_eq_true, if_false, hneeds, if_true, hwait]
          rfl
        · rw [← hcount]
          exact hw₁.finished hsame hwriter

-- The calls of an application go well.
def AttemptsSteady (e : Endian) (h : HeaderInfo) (p : StreamParams) (steps : List WriterStep)
    (files : StreamFiles) : StreamReader → List Rounds → Prop
  | _, []                 => True
  | r, rounds :: attempts =>
    (r.needsSteps = true → RoundsSteady e h p steps files r (rounds.first :: rounds.later)) ∧
      ∀ begun r', (takeStep p files rounds).run r = .ok begun r' →
        AttemptsSteady e h p steps files r' attempts

-- The exception that `md.0` lags behind, thrown with a reason.
def Lags (files : StreamFiles) (rounds : Rounds) (fault : Fault) : Prop :=
  (∃ message, fault = .thrown "Engine" "BP5Reader" "UpdateBuffer" message) ∧
    ∃ round ∈ rounds.first :: rounds.later, ∃ look ∈ [round.look, round.again],
      ∀ size ∈ look.mdSize :: look.mdSizes, size < files.md.length

-- The answers to an application that has got `n` steps: the steps of the writer, each once and in
-- order, and between them answers that take nothing away from the next call.
def Sound (e : Endian) (h : HeaderInfo) (steps : List WriterStep) (files : StreamFiles) :
    Nat → Bool → List Rounds → List (Except Fault Begun) → Prop
  | _, _, [], []                                                  => True
  | n, finished, rounds :: attempts, .ok begun :: answers         =>
    ∃ n', Answers e h steps files rounds finished n n' begun ∧
      Sound e h steps files n' (finished || finishedIn rounds) attempts answers
  | n, finished, rounds :: attempts, .error fault :: answers      =>
    Lags files rounds fault ∧
      Sound e h steps files n (finished || finishedIn rounds) attempts answers
  | _, _, _, _                                                    => False

theorem takeSteps_steady (hw : WriterRun e p steps)
    (hfiles : writerFiles e h steps = some files)
    (hflat : (h.flattenSteps && !p.ignoreFlattenSteps) = false) {n : Nat}
    (hr : Between e p steps n r) {attempts : List Rounds} {finished : Bool}
    (hfinished : r.index.writerIsActive = false → finished = true)
    (hattempts : AttemptsSteady e h p steps files r attempts) :
    Sound e h steps files n finished attempts (takeSteps p files attempts r).1 ∧
      (takeSteps p files attempts r).2.installedMetaMeta <+: formats steps := by
  induction attempts generalizing n r finished with
  | nil => exact ⟨trivial, hr.reading.formats.installed⟩
  | cons rounds attempts ih =>
    have ⟨hrounds, hnext⟩ := hattempts
    have ⟨begun, n', r', hrun, hanswer, hr', hfinished'⟩ :=
      takeStep_steady hw hfiles hflat hr hfinished hrounds
    have ⟨hsound, hinstalled⟩ := ih hr' hfinished' (hnext begun r' hrun)
    rw [takeSteps, hrun]
    exact ⟨⟨n', hanswer, hsound⟩, hinstalled⟩

-- A streaming reader that opens the files at one time, and then takes steps.
def Streams (e : Endian) (h : HeaderInfo) (p : StreamParams) (steps : List WriterStep)
    (files : StreamFiles) (look : Look) (attempts : List Rounds) : Prop :=
  ∃ r, (init p files look).run {} = .ok () r ∧
    Sound e h steps files 0 (!look.active) attempts (takeSteps p files attempts r).1 ∧
    (takeSteps p files attempts r).2.installedMetaMeta <+: formats steps

theorem reading_init : Reading e p steps {} where
  polled  := ⟨0, ⟨rfl, rfl, rfl, rfl, by simp [viewOf], le_rfl, by simp [viewOf]⟩, Nat.zero_le _,
    .inl ⟨rfl, rfl⟩⟩
  formats := ⟨List.nil_prefix, rfl, rfl, rfl⟩
  flatten := rfl
  closed  := by simp
  mdFile  := by simp

-- A reader for which every call of `UpdateBuffer` goes well presents the steps of the writer.
theorem streamingReader (hw : WriterRun e p steps)
    (hfiles : writerFiles e h steps = some files)
    (hflat : (h.flattenSteps && !p.ignoreFlattenSteps) = false) {attempts : List Rounds}
    (hinit : LookSteady e h p steps files {} look)
    (hattempts : ∀ r, (init p files look).run {} = .ok () r →
      AttemptsSteady e h p steps files r attempts) :
    Streams e h p steps files look attempts := by
  have ⟨r, hrun, hu⟩ := updateBuffer_steady hw hfiles hflat reading_init hinit
  have hr : Between e p steps 0 r := {
    reading := hu.reading
    le      := Nat.zero_le _
    ready   := hu.ready
    current := by
      rw [hu.firstStep, hu.currentStep]
      exact ⟨rfl, rfl⟩
    idle    := hu.betweenStepPairs
  }
  refine ⟨r, hrun, takeSteps_steady hw hfiles hflat hr ?_ (hattempts r hrun)⟩
  intro h₀
  rw [hu.active] at h₀
  rcases activeAfter_eq_false h₀ with h₁ | hl
  · contradiction
  · rw [hl]
    rfl

-- One step of one rank. The reader opens the file when there is only a header.
def oneFormat : MetaMetaInfoBlock where
  metaMetaInfo := [1, 2]
  metaMetaID   := [9]

def oneWriterStep : WriterStep where
  metaMetaBlocks  := [oneFormat]
  metaDataBlocks  := [List.replicate 24 7]
  attributeBlocks := [[]]
  index           := oneStep

def oneFiles : StreamFiles where
  mdIndex  := indexStepBytes .little oneHeader oneStep
  md       := metadataRecord .little [List.replicate 24 7] [[]]
  metaMeta := writeMetaMetadata .little [oneFormat]

def oneParams : StreamParams where
  name               := "one.bp"
  timeoutSeconds     := "0.000000"
  ignoreFlattenSteps := false
  formatID           := fun _ => [9]

-- A look at the files while they have these sizes.
def lookAt (mdIndex md metaMeta : Nat) : Look where
  size         := mdIndex
  active       := true
  retries      := []
  mdSize       := md
  mdSizes      := []
  metaMetaSize := metaMeta

def roundsAt (mdIndex md metaMeta : Nat) : Rounds where
  first := {
    look  := lookAt mdIndex md metaMeta
    flag  := (lookAt mdIndex md metaMeta).toIndexLook
    again := lookAt mdIndex md metaMeta
  }
  later := []

def stateAfter (c : Call Unit) (r : StreamReader) : StreamReader :=
  match c.run r with
  | .ok _ r'    => r'
  | .error _ r' => r'

theorem stateAfter_eq {c : Call Unit} {r r' : StreamReader} (h : c.run r = .ok () r') :
    stateAfter c r = r' := by
  rw [stateAfter, h]

theorem oneFiles_eq : writerFiles .little oneHeader [oneWriterStep] = some oneFiles := by
  have hindex := oneStep_continues.indexFile_eq (e := .little) (h := oneHeader)
  simp only [writerFiles, indexSteps, List.map_cons, List.map_nil, oneWriterStep, hindex]
  rfl

theorem oneRun : WriterRun .little oneParams [oneWriterStep] where
  continues  := oneStep_continues
  metaData   := by decide
  attributes := by decide
  size       := by decide
  total      := by decide
  formats_lt := by decide
  known      := by
    intro i s hs
    cases i with
    | zero =>
      cases hs
      decide
    | succ i => simp at hs

def laggingAnswers : List (Except Fault Begun) :=
  (takeSteps oneParams oneFiles [roundsAt 200 0 19, roundsAt 200 48 19]
    (stateAfter (init oneParams oneFiles (lookAt 64 0 0)) {})).1

theorem header_steady : LookSteady .little oneHeader oneParams [oneWriterStep] oneFiles {}
    (lookAt 64 0 0) where
  grows    := fun _ => .inl (Nat.zero_le _)
  header   := by decide +kernel
  finished := fun hactive => absurd hactive (by decide +kernel)
  metadata := by
    have hnone : newCount .little oneHeader oneParams [oneWriterStep] oneFiles {} (lookAt 64 0 0)
        = 0 := by decide +kernel
    omega
  metaMeta := by
    have hnone : newCount .little oneHeader oneParams [oneWriterStep] oneFiles {} (lookAt 64 0 0)
        = 0 := by decide +kernel
    omega

theorem streamingReader_oneStep :
    Streams .little oneHeader oneParams [oneWriterStep] oneFiles (lookAt 64 0 0)
      [roundsAt 200 48 19] := by
  apply streamingReader oneRun oneFiles_eq rfl header_steady
  intro r hrun
  rw [← stateAfter_eq hrun]
  refine ⟨fun _ => ⟨?_, ?_⟩, fun _ _ _ => trivial⟩
  · exact {
      grows    := fun _ => .inl (by decide +kernel)
      header   := by decide +kernel
      finished := fun hactive => absurd hactive (by decide +kernel)
      metadata := fun _ => ⟨48, List.mem_cons_self, by decide +kernel⟩
      metaMeta := fun _ => ⟨[oneFormat], List.prefix_rfl, by decide +kernel, by decide +kernel⟩
    }
  · intro r₁ hrun₁ hsame
    rw [← stateAfter_eq hrun₁] at hsame
    exact absurd hsame (by decide +kernel)

-- `md.0` lags behind `md.idx` at the first look, and everything is there at the second.
theorem not_streams_of_lag : ¬ ∀ attempts,
    Streams .little oneHeader oneParams [oneWriterStep] oneFiles (lookAt 64 0 0) attempts := by
  intro hall
  have ⟨r, hrun, hsound, _⟩ := hall [roundsAt 200 0 19, roundsAt 200 48 19]
  rw [← stateAfter_eq hrun] at hsound
  have hsecond : laggingAnswers[1]? = some (.error .undefined) := by decide +kernel
  change Sound _ _ _ _ _ _ _ laggingAnswers at hsound
  rcases hanswers : laggingAnswers with _ | ⟨first, _ | ⟨second, rest⟩⟩
  case nil => simp [hanswers] at hsecond
  case cons.nil => simp [hanswers] at hsecond
  case cons.cons =>
    rw [hanswers] at hsound hsecond
    obtain rfl : second = .error .undefined := by simpa using hsecond
    -- The second answer is no exception about `md.0`.
    cases first with
    | ok begun =>
      have ⟨_, _, ⟨⟨_, hlags⟩, _⟩, _⟩ := hsound
      cases hlags
    | error fault =>
      have ⟨_, ⟨⟨_, hlags⟩, _⟩, _⟩ := hsound
      cases hlags

end StreamReader

end BP5
