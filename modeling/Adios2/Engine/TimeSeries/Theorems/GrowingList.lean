import Adios2.Engine.TimeSeries.Theorems.TimeSeries

-- A series that is read step by step while its list is written: which files are opened, which steps
-- are presented, and what `BeginStep` returns.

namespace TimeSeries

open BP5 Helper TimeSeriesReader

variable {storage : TimeSeriesEntry → File} {w w' : World}

section Parsing

variable {document nodes : List YamlNode} {tsl : TimeSeriesList}

theorem listed_cons {node : YamlNode} {tse : TimeSeriesEntry} (h : node.entry = .ok tse)
    (nodes : List YamlNode) :
    listed (node :: nodes) = if tse.localpath = "end" then [] else tse :: listed nodes := by
  simp only [listed, entries_cons h, List.takeWhile_cons]
  by_cases hend : tse.localpath = "end"
  · simp [hend]
  · simp [hend]

theorem closed_cons {node : YamlNode} {tse : TimeSeriesEntry} (h : node.entry = .ok tse)
    (nodes : List YamlNode) : closed (node :: nodes) = (tse.localpath = "end" || closed nodes) := by
  simp [closed, entries_cons h]

-- As many entries are passed over as the number of used ones tells.
theorem parseTimeSeriesFile_drop (hd : Named document) {nEntry : Int} {n : Nat}
    (hn : tsl.lastUsedEntry = nEntry + n) (hle : n ≤ (listed document).length) :
    parseTimeSeriesFile tsl nEntry document =
      ({ tsl with
        entries := tsl.entries ++ (listed document).drop n
        ended := tsl.ended || closed document }, .ok ()) := by
  induction n generalizing document nEntry with
  | zero => exact parseTimeSeriesFile_eq hd (by omega)
  | succ n ih =>
    cases document with
    | nil => simp [listed, entries] at hle
    | cons node nodes =>
      obtain ⟨tse, htse⟩ := hd node List.mem_cons_self
      have hend : tse.localpath ≠ "end" := by
        intro hend
        rw [listed_cons htse, if_pos hend] at hle
        simp at hle
      rw [listed_cons htse, if_neg hend, List.length_cons] at hle
      rw [parseTimeSeriesFile, if_pos (by omega), ih hd.tail (by omega) (by omega),
        listed_cons htse, if_neg hend, closed_cons htse]
      simp [hend]

theorem entries_append : entries (document ++ nodes) = entries document ++ entries nodes := by
  simp [entries]

-- What is appended behind the end of a list has no effect.
theorem listed_append : listed (document ++ nodes) =
    if closed document then listed document else listed document ++ listed nodes := by
  by_cases hclosed : closed document = true
  case pos =>
    rw [if_pos hclosed, listed, entries_append, List.takeWhile_append, if_neg]
    · rfl
    intro hlen
    have hall := List.takeWhile_eq_self_iff.mp
      ((List.takeWhile_prefix _).eq_of_length hlen)
    obtain ⟨tse, hmem, htse⟩ := List.any_eq_true.mp hclosed
    exact absurd htse (by simpa using hall tse hmem)
  case neg =>
    have hall : (entries document).takeWhile (·.localpath ≠ "end") = entries document := by
      rw [List.takeWhile_eq_self_iff]
      intro tse hmem
      by_contra hne
      exact hclosed (List.any_eq_true.mpr ⟨tse, hmem, by simpa using hne⟩)
    rw [if_neg hclosed, listed, entries_append, List.takeWhile_append, if_pos (by rw [hall]),
      listed, hall]
    rfl

theorem closed_append : closed (document ++ nodes) = (closed document || closed nodes) := by
  rw [closed, entries_append, List.any_append]
  rfl

theorem listed_prefix_append : listed document <+: listed (document ++ nodes) := by
  rw [listed_append]
  split
  case isTrue => exact List.prefix_rfl
  case isFalse => exact List.prefix_append _ _

end Parsing

section Look

-- The reader looks at a list that has not ended only as long as it has taken no entry of it.
def FirstLook (w : World) : Prop :=
  w.reader.engines = [] → w.reader.timeSeriesList.ended = false →
    w.opened = [] ∧ w.reader.timeSeriesList.entries = []

-- The list after a look at it
def look (w : World) : TimeSeriesList :=
  (checkForFiles w.document w.reader.timeSeriesList).1

-- The files whose steps were all presented, and the one that is open.
inductive Place (storage : TimeSeriesEntry → File) (w : World) : Prop
  | between (engines : w.reader.engines = []) (presented : w.presented = seriesSteps storage w.opened)
  | inside (done : List TimeSeriesEntry) (e : Engine) (engines : w.reader.engines = [e])
      (opened : w.opened = done ++ [e.entry]) (file : e.file = storage e.entry)
      (begun : e.begun ≤ e.file.steps)
      (presented : w.presented =
        seriesSteps storage done ++ (List.range e.begun).map (e.entry, ·))

structure Following (storage : TimeSeriesEntry → File) (w : World) : Prop where
  named : Named w.document
  mode  : w.reader.openMode = .read
  taken : w.opened ++ w.reader.timeSeriesList.entries <+: listed w.document
  used  : w.reader.timeSeriesList.lastUsedEntry = (w.opened.length : Int) - 1
  ended : w.reader.timeSeriesList.ended = true → closed w.document = true ∧
    w.opened ++ w.reader.timeSeriesList.entries = listed w.document
  place : Place storage w

namespace Following

theorem look_of_ended (h : w.reader.timeSeriesList.ended = true) :
    look w = w.reader.timeSeriesList := by
  rw [look, checkForFiles, if_pos h]

-- The first look gives the whole list.
theorem look_first (hf : Following storage w) (hfirst : FirstLook w)
    (he : w.reader.engines = []) : w.opened ++ (look w).entries = listed w.document ∧
      (look w).ended = closed w.document ∧
      (look w).lastUsedEntry = w.reader.timeSeriesList.lastUsedEntry := by
  cases hended : w.reader.timeSeriesList.ended with
  | true =>
    have ⟨hclosed, hall⟩ := hf.ended hended
    rw [look_of_ended hended]
    exact ⟨hall, hended.trans hclosed.symm, rfl⟩
  | false =>
    have ⟨hopened, hentries⟩ := hfirst he hended
    have hused := hf.used
    rw [hopened] at hused
    rw [look, checkForFiles_eq hf.named (by rw [hused]; decide) hended, hopened, hentries]
    exact ⟨rfl, rfl, rfl⟩

-- A later one gives some entry once more.
theorem look_again (hf : Following storage w) (h : ¬FirstLook w) :
    (listed w.document).length < (w.opened ++ (look w).entries).length := by
  have ⟨hended, htaken⟩ : w.reader.timeSeriesList.ended = false ∧
      ¬(w.opened = [] ∧ w.reader.timeSeriesList.entries = []) := by
    by_contra hne
    refine h fun _ hended => ?_
    by_contra htaken
    exact hne ⟨hended, htaken⟩
  have hle := hf.taken.length_le
  rw [List.length_append] at hle
  have hused := hf.used
  have hlook : (look w).entries = w.reader.timeSeriesList.entries ++
      (listed w.document).drop (w.opened.length - 1) := by
    cases hopened : w.opened with
    | nil =>
      rw [hopened] at hused
      rw [look, checkForFiles_eq hf.named (by rw [hused]; decide) hended]
      rfl
    | cons tse tses =>
      rw [hopened, List.length_cons] at hused hle
      have hdrop := parseTimeSeriesFile_drop hf.named
        (show w.reader.timeSeriesList.lastUsedEntry = 0 + (tses.length : Int) by omega) (by omega)
      rw [look, checkForFiles, if_neg (by rw [hended]; exact Bool.false_ne_true), hdrop]
      rfl
  have hpos : 0 < w.opened.length ∨ 0 < w.reader.timeSeriesList.entries.length := by
    by_contra hne
    exact htaken ⟨List.length_eq_zero_iff.mp (by omega), List.length_eq_zero_iff.mp (by omega)⟩
  rw [hlook, List.length_append, List.length_append, List.length_drop]
  omega

end Following

end Look

section Turns

open Stepping

variable {e : Engine} {r : TimeSeriesReader} {returned : Option StepStatus}

-- What the loop makes of what an engine returns.
def passedOn : StepStatus → Option StepStatus
  | .ok                     => some .ok
  | .endOfStream            => none
  | .notReady | .otherError => some .notReady

namespace Following

theorem inside_of_engines (hf : Following storage w) (he : w.reader.engines = [e]) :
    ∃ done, w.opened = done ++ [e.entry] ∧ e.file = storage e.entry ∧ e.begun ≤ e.file.steps ∧
      w.presented = seriesSteps storage done ++ (List.range e.begun).map (e.entry, ·) := by
  cases hf.place with
  | between engines _ => exact absurd (he.symm.trans engines) (by simp)
  | inside done e' engines opened file begun presented =>
    have heq : e = e' := by simpa [he] using engines
    subst heq
    exact ⟨done, opened, file, begun, presented⟩

-- The list is as it was.
theorem of_reader (hf : Following storage w) (hmode : r.openMode = w.reader.openMode)
    (hlist : r.timeSeriesList = w.reader.timeSeriesList)
    (hplace : Place storage (afterPoll w r returned)) : Following storage (afterPoll w r returned) where
  named := hf.named
  mode  := hmode.trans hf.mode
  taken := by
    rw [afterPoll, hlist]
    exact hf.taken
  used  := by
    rw [afterPoll, hlist]
    exact hf.used
  ended := by
    rw [afterPoll, hlist]
    exact hf.ended
  place := hplace

theorem poll (hw : WellFormedSteps storage) (hf : Following storage w)
    (he : w.reader.engines = [e]) {status : StepStatus} (hadmits : e.Admits status)
    (hok : w.reader.pollEngine e status = .ok (r, returned)) :
    Following storage (afterPoll w r returned) ∧ returned = passedOn status := by
  obtain ⟨done, opened, file, begun, presented⟩ := hf.inside_of_engines he
  cases status with
  | notReady | otherError =>
    obtain ⟨hr, hret⟩ := Prod.mk.inj (Except.ok.inj hok)
    subst hr hret
    refine ⟨hf.of_reader rfl rfl (.inside done e he opened file begun ?_), rfl⟩
    simpa [afterPoll] using presented
  | endOfStream =>
    obtain ⟨start, _, hok⟩ := Outcome.bind_eq_ok.mp hok
    obtain ⟨hr, hret⟩ := Prod.mk.inj (Except.ok.inj hok)
    subst hr hret
    refine ⟨hf.of_reader rfl rfl (.between rfl ?_), rfl⟩
    have hall : e.begun = e.file.steps := hadmits
    simp [afterPoll, opened, presented, hall, file]
  | ok =>
    obtain ⟨step, hstep, hok⟩ := Outcome.bind_eq_ok.mp hok
    obtain ⟨r₁, hr₁, hok⟩ := Outcome.bind_eq_ok.mp hok
    obtain ⟨hr, hret⟩ := Prod.mk.inj (Except.ok.inj hok)
    subst hr hret
    have hnodup := hw.named e.entry e.begun
    rw [← file] at hnodup
    rw [he] at hr₁
    have hlt : e.begun < e.file.steps := hadmits
    obtain ⟨r', hr', _, io, infos, sel, heq⟩ := processIO_atStep (e.file.varsAt e.begun)
      (r := { w.reader with
        firstStep := false
        currentStep := step
        betweenStepPairs := true
        engines := [{ e with begun := e.begun + 1 }]
        io := []
        varInternalInfo := [] }) hf.mode rfl rfl rfl hnodup
    have hr : r₁ = r' := Except.ok.inj (hr₁.symm.trans hr')
    subst hr
    refine ⟨hf.of_reader (by rw [heq]) (by rw [heq]) ?_, rfl⟩
    refine .inside done { e with begun := e.begun + 1 } (by rw [afterPoll, heq]) opened file hlt ?_
    simp [afterPoll, heq, presented, List.range_succ]

-- The next file is opened.
theorem opening (hf : Following storage w) (hfirst : FirstLook w) (he : w.reader.engines = [])
    {tse : TimeSeriesEntry} {rest : List TimeSeriesEntry} (hentries : (look w).entries = tse :: rest) :
    Following storage (Stepping.opening storage w (look w) tse rest) := by
  have ⟨hlist, hended, hused⟩ := hf.look_first hfirst he
  have happend : w.opened ++ [tse] ++ rest = listed w.document := by
    rw [← hlist, hentries, List.append_assoc]
    rfl
  refine ⟨hf.named, hf.mode, ?taken, ?used, ?ended, ?place⟩
  case taken => exact happend ▸ List.prefix_rfl
  case used =>
    have hlast := hf.used
    simp only [Stepping.opening, openFile, hused, List.length_append, List.length_singleton]
    omega
  case ended => exact fun h => ⟨hended.symm.trans h, happend⟩
  case place =>
    have hpresented : w.presented = seriesSteps storage w.opened := by
      cases hf.place with
      | between _ presented => exact presented
      | inside done e engines _ _ _ _ => exact absurd (he.symm.trans engines) (by simp)
    refine .inside w.opened { entry := tse, file := storage tse }
      (by simp [Stepping.opening, openFile, he]) rfl rfl (Nat.zero_le _) ?_
    simpa [Stepping.opening] using hpresented

end Following

-- The engine that a turn asks for a step: the one that is open, or that of the next file.
inductive Polled (storage : TimeSeriesEntry → File) (w : World) : Engine → Prop
  | opened {e : Engine} (engines : w.reader.engines = [e]) : Polled storage w e
  | next {tse : TimeSeriesEntry} (engines : w.reader.engines = [])
      (listed : (listed w.document)[w.opened.length]? = some tse) :
      Polled storage w { entry := tse, file := storage tse }

-- All files of the list were read to their ends.
structure AllRead (w : World) : Prop where
  engines : w.reader.engines = []
  opened  : w.opened = listed w.document

theorem Polled.not_allRead (h : Polled storage w e) : ¬AllRead w := by
  intro hall
  cases h with
  | opened engines => exact absurd (engines.symm.trans hall.engines) (by simp)
  | next _ htse =>
    rw [hall.opened, List.getElem?_eq_none le_rfl] at htse
    cases htse

-- What a turn returns, if the loop does not go on.
structure Returns (storage : TimeSeriesEntry → File) (w : World) (polls : Polls)
    (returned : Option StepStatus) : Prop where
  endOfStream : returned = some .endOfStream ↔ AllRead w ∧ closed w.document = true
  notReady    : returned = some .notReady ↔ AllRead w ∧ closed w.document = false ∨
    ∃ e, Polled storage w e ∧ (polls.val e = .notReady ∨ polls.val e = .otherError)
  ok          : returned = some .ok ↔ ∃ e, Polled storage w e ∧ polls.val e = .ok

theorem Polled.unique {e' : Engine} (h : Polled storage w e) (h' : Polled storage w e') :
    e = e' := by
  cases h with
  | opened engines =>
    cases h' with
    | opened engines' => simpa [engines] using engines'
    | next engines' _ => exact absurd (engines.symm.trans engines') (by simp)
  | next engines htse =>
    cases h' with
    | opened engines' => exact absurd (engines'.symm.trans engines) (by simp)
    | next _ htse' => rw [Option.some.inj (htse.symm.trans htse')]

theorem Polled.returns (h : Polled storage w e) (polls : Polls) :
    Returns storage w polls (passedOn (polls.val e)) := by
  constructor
  case endOfStream =>
    constructor
    · intro heq
      cases hstatus : polls.val e <;> rw [hstatus] at heq <;> cases heq
    · exact fun ⟨hall, _⟩ => absurd hall h.not_allRead
  case notReady =>
    constructor
    · intro heq
      refine .inr ⟨e, h, ?_⟩
      cases hstatus : polls.val e with
      | notReady => exact .inl rfl
      | otherError => exact .inr rfl
      | ok | endOfStream =>
        rw [hstatus] at heq
        cases heq
    · rintro (⟨hall, _⟩ | ⟨e', h', hstatus⟩)
      · exact absurd hall h.not_allRead
      · rw [h.unique h']
        rcases hstatus with hstatus | hstatus <;> rw [hstatus] <;> rfl
  case ok =>
    constructor
    · intro heq
      refine ⟨e, h, ?_⟩
      cases hstatus : polls.val e with
      | ok => rfl
      | notReady | otherError | endOfStream =>
        rw [hstatus] at heq
        cases heq
    · rintro ⟨e', h', hstatus⟩
      rw [h.unique h', hstatus]
      rfl

theorem AllRead.returns (h : AllRead w) (polls : Polls) :
    Returns storage w polls (some (if closed w.document then .endOfStream else .notReady)) := by
  constructor
  case endOfStream => simp [h]
  case notReady =>
    have hnone : ¬∃ e, Polled storage w e ∧
        (polls.val e = .notReady ∨ polls.val e = .otherError) :=
      fun ⟨_, hpolled, _⟩ => hpolled.not_allRead h
    simp [h, hnone]
  case ok =>
    have hnone : ¬∃ e, Polled storage w e ∧ polls.val e = .ok :=
      fun ⟨_, hpolled, _⟩ => hpolled.not_allRead h
    simp only [hnone, iff_false]
    split <;> simp

namespace Following

-- A turn of `BeginStep` goes on where the one before has stopped.
theorem turn (hw : WellFormedSteps storage) (hf : Following storage w) (hfirst : FirstLook w)
    {polls : Polls} {ts : List Task} (hok : w.turn storage polls = .ok (w', ts)) :
    Following storage w' ∧ ∃ returned : Option StepStatus,
      w'.returned = w.returned ++ returned.toList ∧ Returns storage w polls returned := by
  obtain ⟨⟨r, returned⟩, hturn, hok⟩ := Outcome.bind_eq_ok.mp hok
  obtain ⟨hw', _⟩ := Prod.mk.inj (Except.ok.inj hok)
  rw [beginStepTurn] at hturn
  cases hf.place with
  | inside done e engines _ _ _ _ =>
    rw [engines] at hturn
    obtain ⟨hnext, hret⟩ := hf.poll hw engines (polls.property e) hturn
    have heq : w' = afterPoll w r returned := by
      rw [← hw', World.nextFile, engines, List.append_nil]
      rfl
    refine ⟨heq ▸ hnext, returned, by rw [heq, afterPoll], ?_⟩
    rw [hret]
    exact (Polled.opened engines).returns polls
  | between engines presented =>
    obtain ⟨hlist, hended, hused⟩ := hf.look_first hfirst engines
    have hnext : w.nextFile = (look w).entries.take 1 := by
      rw [World.nextFile, engines]
      rfl
    split at hturn
    case h_1 e es heq => exact absurd (heq.symm.trans engines) (by simp)
    dsimp only at hturn
    cases hentries : (look w).entries with
    | nil =>
      have hentries' : (checkForFiles w.document w.reader.timeSeriesList).1.entries = [] := hentries
      rw [hentries'] at hturn
      dsimp only at hturn
      obtain ⟨hr, hret⟩ := Prod.mk.inj (Except.ok.inj hturn)
      subst hr
      rw [hentries, List.append_nil] at hlist
      have hall : AllRead w := ⟨engines, hlist⟩
      have hended' : (checkForFiles w.document w.reader.timeSeriesList).1.ended =
        closed w.document := hended
      rw [hended'] at hret
      subst hret
      have hpresented : w'.presented = w.presented := by
        rw [← hw']
        show w.presented ++ (if _ then List.map _ w.reader.engines else []) = w.presented
        rw [engines, List.map_nil, ite_self, List.append_nil]
      refine ⟨⟨?named, ?mode, ?taken, ?used, ?ended, ?place⟩, _, by rw [← hw'],
        hall.returns polls⟩
      case named => rw [← hw']; exact hf.named
      case mode => rw [← hw']; exact hf.mode
      case taken =>
        rw [← hw', hnext, hentries, List.take_nil, List.append_nil]
        show w.opened ++ (look w).entries <+: _
        rw [hentries, List.append_nil, hlist]
      case used =>
        rw [← hw', hnext, hentries, List.take_nil, List.append_nil]
        exact hused.trans hf.used
      case ended =>
        rw [← hw', hnext, hentries, List.take_nil, List.append_nil]
        refine fun h => ⟨hended'.symm.trans h, ?_⟩
        show w.opened ++ (look w).entries = _
        rw [hentries, List.append_nil, hlist]
      case place =>
        refine .between (by rw [← hw']; exact engines) ?_
        rw [hpresented, presented, ← hw', hnext, hentries, List.take_nil, List.append_nil]
    | cons tse rest =>
      have hentries' : (checkForFiles w.document w.reader.timeSeriesList).1.entries =
        tse :: rest := hentries
      rw [hentries'] at hturn
      dsimp only at hturn
      have hopen := hf.opening hfirst engines hentries
      have hinit : (Stepping.opening storage w (look w) tse rest).reader.engines =
          [{ entry := tse, file := storage tse }] := by simp [Stepping.opening, openFile, engines]
      obtain ⟨hdone, hret⟩ := hopen.poll hw hinit (polls.property _) hturn
      have heq : w' = afterPoll (Stepping.opening storage w (look w) tse rest) r returned := by
        rw [← hw', hnext, hentries]
        rfl
      refine ⟨heq ▸ hdone, returned, by rw [heq, afterPoll]; rfl, ?_⟩
      rw [hret]
      refine (Polled.next engines ?_).returns polls
      rw [← hlist, hentries, List.getElem?_append_right le_rfl, Nat.sub_self]
      rfl

theorem turn_ok (hw : WellFormedSteps storage) (hf : Following storage w)
    (hlt : w.reader.currentStep + 1 < 2 ^ 31) (polls : Polls) :
    ∃ p, w.turn storage polls = .ok p := by
  have ⟨p, hp⟩ : ∃ p, w.reader.beginStepTurn storage w.document polls = .ok p := by
    cases hf.place with
    | inside done e engines _ file _ _ =>
      rw [beginStepTurn, engines]
      exact pollEngine_ok hf.mode engines (file ▸ hw.named e.entry e.begun) hlt _
    | between engines _ =>
      rw [beginStepTurn, engines]
      dsimp only
      split
      case h_1 => exact ⟨_, rfl⟩
      case h_2 tse _ _ =>
        refine pollEngine_ok ?_ ?_ (hw.named tse 0) ?_ _
        · exact hf.mode
        · simp [openFile]
        · exact hlt
  rw [World.turn, hp]
  exact ⟨_, rfl⟩

end Following

end Turns

section Runs

-- What can be reached when a turn is only made where `allowed` holds. The list grows by any entries
-- at any time.
inductive Reached (storage : TimeSeriesEntry → File) (allowed : World → Prop) : World → Prop
  | init {document : List YamlNode} {r : TimeSeriesReader} (named : Named document)
      (init : initTransports storage document .read = .ok r) :
      Reached storage allowed { document, reader := r }
  | append {w : World} {nodes : List YamlNode} (before : Reached storage allowed w)
      (named : Named nodes) : Reached storage allowed { w with document := w.document ++ nodes }
  | turn {w w' : World} (polls : Polls) {ts : List Task} (before : Reached storage allowed w)
      (outside : w.reader.betweenStepPairs = false) (permitted : allowed w)
      (turn : w.turn storage polls = .ok (w', ts)) : Reached storage allowed w'
  | endStep {w : World} (before : Reached storage allowed w) :
      Reached storage allowed { w with reader := w.reader.endStep }

namespace Following

theorem init {document : List YamlNode} {r : TimeSeriesReader} (hnamed : Named document)
    (h : initTransports storage document .read = .ok r) :
    Following storage { document, reader := r } := by
  have hr : { openMode := .read, timeSeriesList := (checkForFiles document {}).1 } = r :=
    Except.ok.inj h
  rw [checkForFiles_eq hnamed (by decide) rfl] at hr
  subst hr
  exact ⟨hnamed, rfl, List.prefix_rfl, rfl, fun hended => ⟨hended, rfl⟩, .between rfl rfl⟩

theorem append {nodes : List YamlNode} (hf : Following storage w) (hnodes : Named nodes) :
    Following storage { w with document := w.document ++ nodes } where
  named := by
    intro node hnode
    rcases List.mem_append.mp hnode with h | h
    · exact hf.named node h
    · exact hnodes node h
  mode  := hf.mode
  taken := hf.taken.trans listed_prefix_append
  used  := hf.used
  ended := by
    intro hended
    have ⟨hclosed, hall⟩ := hf.ended hended
    refine ⟨by rw [closed_append, hclosed, Bool.true_or], ?_⟩
    rw [listed_append, if_pos hclosed]
    exact hall
  place := by
    cases hf.place with
    | between engines presented => exact .between engines presented
    | inside done e engines opened file begun presented =>
      exact .inside done e engines opened file begun presented

theorem endStep (hf : Following storage w) :
    Following storage { w with reader := w.reader.endStep } where
  named := hf.named
  mode  := hf.mode
  taken := hf.taken
  used  := hf.used
  ended := hf.ended
  place := by
    cases hf.place with
    | between engines presented => exact .between engines presented
    | inside done e engines opened file begun presented =>
      exact .inside done e engines opened file begun presented

theorem of_reached (hw : WellFormedSteps storage) (h : Reached storage FirstLook w) :
    Following storage w := by
  induction h with
  | init named init => exact .init named init
  | append _ named ih => exact ih.append named
  | turn _ _ _ permitted turn ih => exact (ih.turn hw permitted turn).1
  | endStep _ ih => exact ih.endStep

end Following

-- Each file of the list is opened once, in order, and its steps are presented once.
structure InOrder (storage : TimeSeriesEntry → File) (w : World) : Prop where
  opened : w.opened <+: listed w.document
  place  : Place storage w

-- In every run in which the reader looks at a list that has not ended only as long as it found it
-- empty, the files and their steps come in order, and a turn returns what it is to return; a look that
-- is not the first one gives a file again.
theorem growingSeries (hw : WellFormedSteps storage) (h : Reached storage FirstLook w) :
    InOrder storage w ∧
    (FirstLook w → ∀ (polls : Polls) (w' : World) (ts : List Task),
      w.turn storage polls = .ok (w', ts) → InOrder storage w' ∧
        ∃ returned : Option StepStatus, w'.returned = w.returned ++ returned.toList ∧
          Returns storage w polls returned) ∧
    (w.reader.currentStep + 1 < 2 ^ 31 → ∀ polls, ∃ p, w.turn storage polls = .ok p) ∧
    (¬FirstLook w → (listed w.document).length < (w.opened ++ (look w).entries).length) := by
  have hf := Following.of_reached hw h
  have inOrder {w : World} (hf : Following storage w) : InOrder storage w :=
    ⟨(List.prefix_append _ _).trans hf.taken, hf.place⟩
  refine ⟨inOrder hf, fun hfirst polls w' ts hturn => ?_, hf.turn_ok hw, hf.look_again⟩
  have ⟨hf', hreturns⟩ := hf.turn hw hfirst hturn
  exact ⟨inOrder hf', hreturns⟩

-- An engine that has each step at once.
def prompt : Polls where
  val e      := if e.begun < e.file.steps then .ok else if e.begun = e.file.steps then .endOfStream
    else .notReady
  property e := by
    dsimp only
    split
    case isTrue hlt => exact hlt
    case isFalse =>
      split
      case isTrue heq => exact heq
      case isFalse => trivial

-- The list is empty at first, and then has a file and its end.
theorem growingSeries_whole :
    ∃ w, Reached (fun _ => smallFile .double) FirstLook w ∧
      w.returned = [.notReady, .ok, .endOfStream] ∧ w.presented = [({ localpath := "first.bp" }, 0)] ∧
      InOrder (fun _ => smallFile .double) w := by
  have hnamed : Named [] := fun _ hnode => absurd hnode List.not_mem_nil
  have hnodes : Named [.scalar "first.bp", .scalar "end"] := by
    intro node hnode
    simp only [List.mem_cons, List.not_mem_nil, or_false] at hnode
    rcases hnode with rfl | rfl <;> exact ⟨_, rfl⟩
  have first : Reached (fun _ => smallFile .double) FirstLook _ := .init hnamed rfl
  have second := first.turn prompt rfl (fun _ _ => ⟨rfl, rfl⟩) rfl
  have third := (second.append hnodes).turn prompt rfl (fun _ _ => ⟨rfl, rfl⟩) rfl
  have fourth := third.endStep.turn prompt rfl (fun h => by cases h) rfl
  have fifth := fourth.turn prompt rfl (fun _ h => by cases h) rfl
  exact ⟨_, fifth, rfl, rfl, (growingSeries (small_wellFormedSteps .double) fifth).1⟩

-- A file that is listed before the list has its end is opened twice.
theorem opened_twice :
    ∃ w, Reached (fun _ => smallFile .double) (fun _ => True) w ∧
      listed w.document = [{ localpath := "first.bp" }] ∧
      w.presented = [({ localpath := "first.bp" }, 0), ({ localpath := "first.bp" }, 0)] ∧
      ¬InOrder (fun _ => smallFile .double) w := by
  have hnamed : Named [.scalar "first.bp"] := by
    intro node hnode
    rw [List.mem_singleton.mp hnode]
    exact ⟨_, rfl⟩
  have first : Reached (fun _ => smallFile .double) (fun _ => True) _ := .init hnamed rfl
  have second := first.turn prompt rfl trivial rfl
  have third := second.endStep.turn prompt rfl trivial rfl
  have fourth := third.turn prompt rfl trivial rfl
  refine ⟨_, fourth, rfl, rfl, fun h => ?_⟩
  exact absurd h.opened.length_le (by decide)

end Runs

end TimeSeries
