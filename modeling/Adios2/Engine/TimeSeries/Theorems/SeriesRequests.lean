import Adios2.Engine.TimeSeries.Theorems.SeriesGets

-- Requests on the variables of a series in random access, after any other Gets.

namespace TimeSeries

open BP5 Helper Concatenation TimeSeriesReader

-- The reader of these files, whatever it was asked before.
structure Serving (r : TimeSeriesReader) (files : List File) : Prop where
  mode    : r.openMode = .readRandomAccess
  info    : ∀ name, r.findInfo name = infoOf name (holders files name)
  io      : ∀ name type,
    r.io.find? (fun w => w.name = name ∧ w.type = type) = variableOf type (holders files name)
  engines : r.engines.length = files.length
  steps   : r.stepsCount = (files.map File.steps).sum
  own     : ∀ name, OwnSelections r name (holders files name)

section Serves

variable {r : TimeSeriesReader} {files : List File} {name : String} {answers : Nat → Answers}

theorem exists_of_mem_holders {h : Holder} (hh : h ∈ holders files name) :
    ∃ f, files[h.1]? = some f ∧ f.own.find? (·.name = name) = some h.2 := by
  simp only [holders, List.mem_flatMap, Option.mem_toList, Option.map_eq_some_iff] at hh
  obtain ⟨⟨f, i⟩, hf, v, hv, rfl⟩ := hh
  have hi : files[i]? = some f := by
    have h := List.mem_zipIdx_iff_getElem?.mp hf
    simpa using h
  exact ⟨f, hi, hv⟩

-- A variable that the reader makes its own is the one of its name.
theorem find?_vars {f : File} (hnodup : (f.vars.map (·.name)).Nodup) {v : FileVariable}
    (hv : f.own.find? (·.name = name) = some v) : f.vars.find? (·.name = name) = some v := by
  have hmem := List.mem_of_find?_eq_some hv
  have hname : v.name = name := by simpa using List.find?_some hv
  have hmem' : v ∈ f.vars := (List.mem_filter.mp hmem).left
  cases hf : f.vars.find? (·.name = name) with
  | none => exact absurd hname (by simpa using List.find?_eq_none.mp hf v hmem')
  | some w =>
    have hw : w.name = name := by simpa using List.find?_some hf
    rw [List.inj_on_of_nodup_map hnodup (List.mem_of_find?_eq_some hf) hmem' (hw.trans hname.symm)]

theorem Opened.serving (ho : Opened r files) (hw : WellFormed files) : Serving r files where
  mode    := ho.mode
  info    := ho.presents.info
  io      := ho.presents.io
  engines := ho.engines
  steps   := ho.steps
  own     := fun name => by
    have hsel : ∀ h ∈ holders files name,
        r.selections h.1 name = { start := h.2.start, count := h.2.count } := by
      intro h hh
      have ⟨f, hf, hv⟩ := exists_of_mem_holders hh
      exact ho.selections h.1 f hf name h.2
        (find?_vars (hw.named f (List.mem_of_getElem? hf)) hv)
    constructor <;> intro h hh <;> rw [hsel h hh]
    exact fun _ => ⟨rfl, rfl⟩

namespace Serving

theorem holds (hs : Serving r files) (hw : WellFormed files) (hne : holders files name ≠ []) :
    Holds r name (holders files name) where
  mode    := hs.mode
  info    := by
    rw [hs.info]
    cases hH : holders files name with
    | nil      => exact absurd hH hne
    | cons _ _ => rfl
  engines := fun h hh => by
    rw [hs.engines]
    exact mem_holders_lt hh
  nodup   := nodup_holders files name
  pos     := fun _ hh => pos_of_mem_holders hw hh
  bounded := hw.bounded name

-- A file has one variable of a name.
theorem eq_of_fst_eq {g h : Holder} (hg : g ∈ holders files name) (hh : h ∈ holders files name)
    (heq : g.1 = h.1) : g = h :=
  List.inj_on_of_nodup_map (nodup_holders files name) hg hh heq

theorem withSelection (hs : Serving r files) {s : Selection} {g : Holder}
    (hg : g ∈ holders files name) : Serving (withSelection r name s g) files where
  mode    := hs.mode
  info    := hs.info
  io      := hs.io
  engines := hs.engines
  steps   := hs.steps
  own     := fun name' => by
    have ho := hs.own name'
    by_cases hname : name' = name
    case neg =>
      have hsel : ∀ i, (TimeSeries.withSelection r name s g).selections i name' =
          r.selections i name' := by
        intro i
        by_cases hi : i = g.1
        · subst hi
          simp [TimeSeries.withSelection, Function.update_of_ne hname]
        · simp [TimeSeries.withSelection, Function.update_of_ne hi]
      constructor <;> intro h hh <;> rw [hsel]
      · exact ho.box h hh
      · exact ho.memoryStart h hh
      · exact ho.memoryCount h hh
      · exact ho.single h hh
    case pos =>
      subst hname
      have hsel : ∀ h ∈ holders files name',
          (TimeSeries.withSelection r name' s g).selections h.1 name' =
            if h = g then innerSelection r name' s g else r.selections h.1 name' := by
        intro h hh
        by_cases hi : h = g
        · simp [TimeSeries.withSelection, hi]
        · have : h.1 ≠ g.1 := fun heq => hi (eq_of_fst_eq hh hg heq)
          simp [TimeSeries.withSelection, hi, Function.update_of_ne this]
      have hbox := ho.box g hg
      constructor <;> intro h hh <;> rw [hsel h hh] <;> by_cases hi : h = g <;>
        simp only [hi, if_true, if_false, innerSelection, forwardSelection, hbox]
      · split <;> simp [hbox]
      · exact ho.box h hh
      · split <;> simp [ho.memoryStart g hg]
      · exact ho.memoryStart h hh
      · split <;> simp [ho.memoryCount g hg]
      · exact ho.memoryCount h hh
      · exact fun hv => by simp [hv, ho.single g hg hv]
      · exact ho.single h hh

theorem getParts {s : Selection} {stepsStart n e k stepFrom remaining : Nat}
    {parts : List VarInternalInfoSingle} {p : TimeSeriesReader × List Write}
    (hparts : ∀ viis ∈ parts, ∃ h ∈ holders files name, viis.ioIdx = h.1 ∧ viis.originalVar = h.2)
    (hs : Serving r files)
    (hok : getParts answers name s stepsStart n e parts k stepFrom remaining r = .ok p) :
    Serving p.1 files := by
  induction parts generalizing r k stepFrom remaining p with
  | nil =>
    rw [TimeSeriesReader.getParts] at hok
    split at hok
    case isTrue => exact absurd hok (by simp)
    case isFalse => exact (Except.ok.inj hok) ▸ hs
  | cons viis parts ih =>
    obtain ⟨h, hh, hio, hvar⟩ := hparts viis List.mem_cons_self
    rw [TimeSeriesReader.getParts] at hok
    split at hok
    case isFalse => exact (Except.ok.inj hok) ▸ hs
    case isTrue =>
      obtain ⟨_, _, hok⟩ := Outcome.bind_eq_ok.mp hok
      obtain ⟨_, _, hok⟩ := Outcome.bind_eq_ok.mp hok
      obtain ⟨_, _, hok⟩ := Outcome.bind_eq_ok.mp hok
      obtain ⟨q, hq, hok⟩ := Outcome.bind_eq_ok.mp hok
      rw [hio, hvar] at hq
      have hp : p.1 = q.1 := by rw [← Except.ok.inj hok]
      rw [hp]
      exact ih (fun w hw => hparts w (List.mem_cons_of_mem _ hw)) (hs.withSelection hh) hq

theorem partsOf_holders {hs : List Holder} {viis : VarInternalInfoSingle} (h : viis ∈ partsOf hs) :
    ∃ g ∈ hs, viis.ioIdx = g.1 ∧ viis.originalVar = g.2 := by
  have ⟨i, hi⟩ := List.getElem?_of_mem h
  have ⟨g, hg⟩ : ∃ g, hs[i]? = some g := by
    have := (List.getElem?_eq_some_iff.mp hi).choose
    rw [Presents.length_partsOf] at this
    exact ⟨_, List.getElem?_eq_getElem this⟩
  rw [getElem?_partsOf hg] at hi
  have hp := Option.some.inj hi
  exact ⟨g, List.mem_of_getElem? hg, by rw [← hp]; rfl, by rw [← hp]; rfl⟩

-- A Get leaves a reader that serves the same files.
theorem getCommon (hs : Serving r files) {v : Variable} {s : Selection} {steps : StepSelection}
    {p : TimeSeriesReader × List Write} (hok : r.getCommon answers v s steps = .ok p) :
    Serving p.1 files := by
  rw [TimeSeriesReader.getCommon] at hok
  split at hok
  case isTrue => exact (Except.ok.inj hok) ▸ hs
  case isFalse =>
    obtain ⟨vii, hvii, hok⟩ := Outcome.bind_eq_ok.mp hok
    obtain ⟨n, _, hok⟩ := Outcome.bind_eq_ok.mp hok
    rw [Option.orUndefined_eq_ok, hs.info] at hvii
    refine getParts (fun viis h => ?_) hs hok
    cases hH : holders files v.name with
    | nil => simp [hH, infoOf] at hvii
    | cons g gs =>
      rw [hH, infoOf] at hvii
      have hinfo : vii.info = partsOf (g :: gs) := by rw [← Option.some.inj hvii]
      rw [hinfo] at h
      exact partsOf_holders (List.mem_of_mem_drop h)

end Serving

-- Any number of Gets that were served.
inductive Gets (answers : Nat → Answers) : TimeSeriesReader → TimeSeriesReader → Prop
  | refl {r : TimeSeriesReader} : Gets answers r r
  | tail {r r' : TimeSeriesReader} {v : Variable} {s : Selection} {steps : StepSelection}
      {p : TimeSeriesReader × List Write} (gets : Gets answers r r')
      (get : r'.getCommon answers v s steps = .ok p) : Gets answers r p.1

theorem Gets.serving {r' : TimeSeriesReader} (h : Gets answers r r') (hs : Serving r files) :
    Serving r' files := by
  induction h with
  | refl => exact hs
  | tail _ get ih => exact ih.getCommon get

end Serves

-- The files that a list names.
structure Series where
  storage    : TimeSeriesEntry → File
  document   : List YamlNode
  named      : Named document
  wellFormed : WellFormed ((listed document).map storage)

namespace Series

variable (series : Series)

def files : List File := (listed series.document).map series.storage

-- The variable of a reader, which is inquired by its name.
def Inquired (r : TimeSeriesReader) (name : String) (v : Variable) : Prop :=
  r.io.find? (fun w => w.name = name ∧ w.type = v.type) = some v

-- A request on a variable of a series that is open for random access, after any Gets.
def Answers (name : String) (q : Request) : Prop :=
  ∃ r, initTransports series.storage series.document .readRandomAccess = .ok r ∧
    r.stepsCount = (series.files.map File.steps).sum ∧
    (∃ v, Inquired r name v) ∧
    ∀ answers r', Gets answers r r' → ∀ v, Inquired r' name v →
      Met answers r' v (occurrences (holders series.files name)) q

end Series

-- What can be asked of a series: a step that it has, and what a Get can pass on.
def Request.Possible (hs : List Holder) : Request → Prop
  | .minBlocksInfo stepsStart step | .varShape stepsStart step | .variableMinMax stepsStart step
  | .blocksInfo stepsStart step => askedStep stepsStart step < (occurrences hs).length
  | .get s steps => Selectable hs s steps

section Requests

variable {r : TimeSeriesReader} {files : List File} {name : String} {v : Variable}

-- The variable of the reader is that of the first file.
theorem Serving.inquired_iff (hs : Serving r files) (hne : holders files name ≠ []) :
    (∃ v, Series.Inquired r name v) ∧
      ∀ v, Series.Inquired r name v →
        v.name = name ∧ ∀ g ∈ (holders files name).head?, g.2.type = v.type := by
  have ⟨g, gs, hcons⟩ := List.exists_cons_of_ne_nil hne
  constructor
  case left =>
    refine ⟨{ defineVariable g.2 with
      availableStepsCount := (places Holder.stepsCount (g :: gs)).length }, ?_⟩
    rw [Series.Inquired, hs.io, hcons]
    simp [variableOf, defineVariable]
  case right =>
    intro v hv
    have hname := List.find?_some hv
    rw [Series.Inquired, hs.io, hcons, variableOf] at hv
    refine ⟨by simp only [decide_eq_true_eq] at hname; exact hname.left, ?_⟩
    intro g' hg'
    rw [hcons, List.head?_cons] at hg'
    rw [← Option.some.inj hg']
    by_contra hne
    simp [hne] at hv

theorem met_of_possible (hs : Serving r files) (hw : WellFormed files)
    (hne : holders files v.name ≠ []) (hv : ∀ h ∈ holders files v.name, h.2.type = v.type)
    (answers : Nat → TimeSeries.Answers) {q : Request}
    (hq : q.Possible (holders files v.name)) :
    Met answers r v (occurrences (holders files v.name)) q := by
  have hr := hs.holds hw hne
  cases q with
  | minBlocksInfo stepsStart step =>
    obtain ⟨p, hp, h⟩ := hr.inquire_of_lt answers (·.minBlocksInfo v.name) hq
    refine answered_of_eq hp ?_
    rw [minBlocksInfo, h]
    rfl
  | varShape stepsStart step =>
    obtain ⟨p, hp, h⟩ := hr.inquire_of_lt answers (·.varShape v.name) hq
    exact answered_of_eq hp h
  | variableMinMax stepsStart step =>
    obtain ⟨p, hp, h⟩ := hr.inquire_of_lt answers (·.variableMinMax v.name) hq
    exact answered_of_eq hp h
  | blocksInfo stepsStart step =>
    obtain ⟨p, hp, h⟩ := hr.blocksInfo_of_lt answers hq
    exact answered_of_eq hp h
  | get s steps => exact hq.fetched hr (hs.own v.name) hv answers

-- Files that have an answer to every question.
def talking : Nat → TimeSeries.Answers := fun _ => {
  minBlocksInfo := fun _ _ => some { step := 0, wasLocalValue := false, blocksInfo := [] }
  varShape := fun _ _ => some []
  variableMinMax := fun _ _ => some { min := [], max := [] }
  blocksInfo := fun _ _ => [{ start := [], count := [], value := [] }]
  blockCount := fun _ _ _ => .ok []
  read := fun _ _ _ => .ok []
}

theorem possible_of_met (hs : Serving r files) (hw : WellFormed files)
    (hne : holders files v.name ≠ []) (hv : ∀ h ∈ holders files v.name, h.2.type = v.type)
    {q : Request}
    (h : ∀ answers, Met answers r v (occurrences (holders files v.name)) q) :
    q.Possible (holders files v.name) := by
  have hr := hs.holds hw hne
  cases q with
  | minBlocksInfo stepsStart step =>
    by_contra hlt
    have hge := Nat.le_of_not_lt hlt
    refine not_answered hge ?_ (h talking)
    rcases hr.inquire_of_ge talking (·.minBlocksInfo v.name) hne hge with hx | ⟨i, n, hx⟩
    case inl => exact .inl (by rw [minBlocksInfo, hx]; rfl)
    case inr =>
      exact .inr ⟨some { step, wasLocalValue := false, blocksInfo := [] }, by simp,
        by rw [minBlocksInfo, hx]; rfl⟩
  | varShape stepsStart step =>
    by_contra hlt
    have hge := Nat.le_of_not_lt hlt
    refine not_answered hge ?_ (h talking)
    rcases hr.inquire_of_ge talking (·.varShape v.name) hne hge with hx | ⟨i, n, hx⟩
    case inl => exact .inl hx
    case inr => exact .inr ⟨_, by simp [talking], hx⟩
  | variableMinMax stepsStart step =>
    by_contra hlt
    have hge := Nat.le_of_not_lt hlt
    refine not_answered hge ?_ (h talking)
    rcases hr.inquire_of_ge talking (·.variableMinMax v.name) hne hge with hx | ⟨i, n, hx⟩
    case inl => exact .inl hx
    case inr => exact .inr ⟨_, by simp [talking], hx⟩
  | blocksInfo stepsStart step =>
    by_contra hlt
    have hge := Nat.le_of_not_lt hlt
    refine not_answered hge ?_ (h talking)
    rcases hr.blocksInfo_of_ge talking hne hge with hx | ⟨i, n, hx⟩
    case inl => exact .inl hx
    case inr => exact .inr ⟨_, by simp [talking], hx⟩
  | get s steps => exact selectable_of_fetched hr (hs.own v.name) hne hv h

-- A series answers what is possible, if its files are consistent, and nothing else.
theorem Series.answers_iff (series : Series) {name : String} (q : Request)
    (hne : holders series.files name ≠ []) :
    series.Answers name q ↔
      Consistent series.files ∧ q.Possible (holders series.files name) := by
  have ⟨hopen, hopened⟩ := initTransports_spec series.named series.wellFormed
  have htypes : ∀ {r' : TimeSeriesReader} {v : Variable}, Serving r' series.files →
      Consistent series.files → Series.Inquired r' name v →
      v.name = name ∧ ∀ h ∈ holders series.files name, h.2.type = v.type := by
    intro r' v hs hc hv
    have ⟨hname, htype⟩ := (hs.inquired_iff hne).right v hv
    refine ⟨hname, fun h hh => ?_⟩
    have ⟨g, gs, hcons⟩ := List.exists_cons_of_ne_nil hne
    have hg := htype g (by simp [hcons])
    exact (hc name h hh g (by simp [hcons])).type.trans hg
  constructor
  case mp =>
    rintro ⟨r, hr, _, ⟨v, hv⟩, hmet⟩
    have ho := hopened r hr
    have hs := ho.serving series.wellFormed
    have ⟨hname, htype⟩ := htypes hs ho.consistent hv
    subst hname
    exact ⟨ho.consistent, possible_of_met hs series.wellFormed hne htype
      fun answers => hmet answers r .refl v hv⟩
  case mpr =>
    rintro ⟨hc, hq⟩
    have ⟨r, hr⟩ := hopen hc
    have hs := (hopened r hr).serving series.wellFormed
    refine ⟨r, hr, hs.steps, (hs.inquired_iff hne).left, ?_⟩
    intro answers r' hgets v hv
    have hs' := hgets.serving hs
    have ⟨hname, htype⟩ := htypes hs' hc hv
    subst hname
    exact met_of_possible hs' series.wellFormed hne htype answers hq

end Requests

end TimeSeries
