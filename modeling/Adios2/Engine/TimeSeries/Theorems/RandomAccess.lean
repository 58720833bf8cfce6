import Adios2.Engine.TimeSeries.Theorems.OpenedSeries

-- What the reader answers in random access: for a step of the series, what the file answers that has
-- the step.

namespace TimeSeries

open BP5 Helper Concatenation TimeSeriesReader

section Parts

variable {hs : List Holder} {step k : Nat} {h : Holder}

-- The number of steps in front of holder `k`.
def startOf (hs : List Holder) (k : Nat) : Nat := (places Holder.stepsCount (hs.take k)).length

theorem getElem?_partsOf (hk : hs[k]? = some h) :
    (partsOf hs)[k]? = some (partOf (h, startOf hs k)) := by
  rw [partsOf, List.getElem?_map, getElem?_starts, hk]
  simp [startOf]

theorem findIdx?_partsOf (hpos : ∀ h ∈ hs, 0 < Holder.stepsCount h) (m : Nat) :
    ((partsOf hs).findIdx? fun i => i.startStep ≤ m ∧ i.endStep ≥ m) =
      (starts Holder.stepsCount 0 hs).findIdx? (Covers Holder.stepsCount m) := by
  rw [partsOf, List.findIdx?_map]
  refine List.findIdx?_congr fun p hp => ?_
  have hp : p.1 ∈ hs := by
    obtain ⟨i, hi⟩ := List.getElem?_of_mem hp
    rw [getElem?_starts] at hi
    obtain ⟨a, ha, rfl⟩ := Option.map_eq_some_iff.mp hi
    exact List.mem_of_getElem? ha
  have := hpos p.1 hp
  refine decide_eq_decide.mpr (and_congr_right fun h₁ => ?_)
  simp only [partOf] at h₁ ⊢
  omega

theorem getElem?_occurrences (hk : hs[k]? = some h) (hle : startOf hs k ≤ step)
    (hlt : step < startOf hs k + h.stepsCount) :
    (occurrences hs)[step]? = some (h.1, step - startOf hs k) := by
  have hdrop := drop_places hk
    (show step - startOf hs k ≤ Holder.stepsCount h by omega)
  rw [show (places Holder.stepsCount (hs.take k)).length + (step - startOf hs k) = step by
    rw [startOf] at hle ⊢
    omega] at hdrop
  have hhead : (places Holder.stepsCount hs)[step]? = some (h, step - startOf hs k) := by
    rw [← List.head?_drop, hdrop]
    have : 0 < h.stepsCount - (step - startOf hs k) := by omega
    obtain ⟨n, hn⟩ := Nat.exists_eq_succ_of_ne_zero (Nat.pos_iff_ne_zero.mp this)
    rw [hn, List.range'_succ]
    rfl
  rw [occurrences, List.getElem?_map, hhead]
  rfl

-- A step of the series is found in the part that has it.
theorem findStep_of_lt (hpos : ∀ h ∈ hs, 0 < Holder.stepsCount h)
    (hlen : (occurrences hs).length < engineCurrentStep) (hstep : step < (occurrences hs).length)
    (name : String) (n : Nat) :
    ∃ k h, hs[k]? = some h ∧
      findStep .readRandomAccess { name, nEngines := n, info := partsOf hs } step = k ∧
      startOf hs k ≤ step ∧ step < startOf hs k + h.stepsCount := by
  have hlt : step < (places Holder.stepsCount hs).length := by rwa [← length_occurrences]
  have ⟨k, h, hk, hfind, hle, hlt⟩ := exists_findIdx? hlt 0
  refine ⟨k, h, hk, ?_, hle, hlt⟩
  have hne : step ≠ engineCurrentStep := by omega
  rw [Nat.zero_add] at hfind
  simp only [findStep, hne, if_false, findIdx?_partsOf hpos, hfind, Option.getD_some]

theorem findStep_engineCurrentStep (vii : VarInternalInfo) :
    findStep .readRandomAccess vii engineCurrentStep = findStep .readRandomAccess vii 0 := by
  simp [findStep, engineCurrentStep]

theorem findStep_of_ge (hpos : ∀ h ∈ hs, 0 < Holder.stepsCount h)
    (hstep : (occurrences hs).length ≤ step) (hne : step ≠ engineCurrentStep) (name : String)
    (n : Nat) :
    findStep .readRandomAccess { name, nEngines := n, info := partsOf hs } step = maxSize := by
  have hle : (places Holder.stepsCount hs).length ≤ step := by rwa [← length_occurrences]
  have hfind := findIdx?_eq_none hle 0
  rw [Nat.zero_add] at hfind
  simp only [findStep, hne, if_false, findIdx?_partsOf hpos, hfind, Option.getD_none]

end Parts

section Inquiries

-- The step that an inquiry is about.
def askedStep (stepsStart step : Nat) : Nat := if step = engineCurrentStep then stepsStart else step

def Refused {α : Type} (x : Outcome α) : Prop := ∃ c s a m, x = .error (.thrown c s a m)

-- An inquiry on a step of the series gets the answer of the file that has the step, and one on
-- another step gets nothing, or an exception.
def Answered {β : Type} (occ : List (Nat × Nat)) (asked : Nat) (answer : Nat × Nat → β)
    (nothing : β) (x : Outcome β) : Prop :=
  match occ[asked]? with
  | some p => x = .ok (answer p)
  | none   => x = .ok nothing ∨ Refused x

variable {r : TimeSeriesReader} {files : List File} {name : String} {stepsStart step : Nat}

-- A variable of the series, with all that its inquiries need to know of the reader.
structure Holds (r : TimeSeriesReader) (name : String) (hs : List Holder) : Prop where
  mode    : r.openMode = .readRandomAccess
  info    : r.findInfo name = some { name, nEngines := hs.length, info := partsOf hs }
  engines : ∀ h ∈ hs, h.1 < r.engines.length
  nodup   : (hs.map (·.1)).Nodup
  pos     : ∀ h ∈ hs, 0 < Holder.stepsCount h
  bounded : (occurrences hs).length < engineCurrentStep

theorem Opened.holds (ho : Opened r files) (hw : WellFormed files)
    (hne : holders files name ≠ []) : Holds r name (holders files name) where
  mode    := ho.mode
  info    := by
    rw [ho.presents.info]
    cases hH : holders files name with
    | nil      => exact absurd hH hne
    | cons _ _ => rfl
  engines := fun h hh => by
    rw [ho.engines]
    exact mem_holders_lt hh
  nodup   := nodup_holders files name
  pos     := fun _ hh => pos_of_mem_holders hw hh
  bounded := hw.bounded name

namespace Holds

variable {hs : List Holder}

theorem length_le (hr : Holds r name hs) : hs.length ≤ (occurrences hs).length := by
  have hpos := hr.pos
  clear hr
  rw [length_occurrences]
  induction hs with
  | nil => simp
  | cons h hs ih =>
    have h₁ := hpos h List.mem_cons_self
    have h₂ := ih fun g hg => hpos g (List.mem_cons_of_mem _ hg)
    rw [length_places_cons, List.length_cons]
    omega

-- The number for the current step is taken for the first one.
theorem findStep_engineCurrentStep (hr : Holds r name hs) (hne : hs ≠ []) :
    findStep .readRandomAccess { name, nEngines := hs.length, info := partsOf hs }
      engineCurrentStep = 0 := by
  have hz : 0 < (occurrences hs).length :=
    Nat.lt_of_lt_of_le (List.length_pos_iff.mpr hne) hr.length_le
  have ⟨k, g', hk, hfind, hle, hlt⟩ := findStep_of_lt hr.pos hr.bounded hz name hs.length
  rw [TimeSeries.findStep_engineCurrentStep, hfind]
  cases k with
  | zero => rfl
  | succ k =>
    have ⟨g, rest, hcons⟩ := List.exists_cons_of_ne_nil hne
    have := hr.pos g (by simp [hcons])
    simp only [startOf, hcons, List.take_succ_cons, length_places_cons] at hle
    omega

-- A step of the series is found, with its number in the engine.
theorem locate_of_lt (hr : Holds r name hs)
    (h : askedStep stepsStart step < (occurrences hs).length) :
    ∃ k g, hs[k]? = some g ∧
      (occurrences hs)[askedStep stepsStart step]? =
        some (g.1, askedStep stepsStart step - startOf hs k) ∧
      r.locate { name, nEngines := hs.length, info := partsOf hs } stepsStart step =
        .ok (some (partOf (g, startOf hs k), askedStep stepsStart step - startOf hs k)) := by
  have ⟨k, g, hk, hfind, hle, hlt⟩ := findStep_of_lt hr.pos hr.bounded h name hs.length
  refine ⟨k, g, hk, getElem?_occurrences hk hle hlt, ?_⟩
  have hklt : k < (partsOf hs).length := by
    rw [Presents.length_partsOf]
    exact (List.getElem?_eq_some_iff.mp hk).choose
  have hb := hr.bounded
  rw [engineCurrentStep] at hb
  simp only [locate, hr.mode]
  rw [← askedStep, hfind]
  simp only [getElem?_partsOf hk, Option.orUndefined_some, Outcome.ok_bind, hklt, if_true, partOf,
    Outcome.pure_eq, sub64]
  congr 3
  omega

-- Behind the series the list of parts is read where it has ended, but for one step.
theorem locate_of_ge (hr : Holds r name hs) (hne : hs ≠ [])
    (h : (occurrences hs).length ≤ askedStep stepsStart step) :
    r.locate { name, nEngines := hs.length, info := partsOf hs } stepsStart step =
        .error .undefined ∨
      ∃ p n, p.engineIdx < r.engines.length ∧
        r.locate { name, nEngines := hs.length, info := partsOf hs } stepsStart step =
          .ok (some (p, n)) := by
  by_cases hlast : askedStep stepsStart step = engineCurrentStep
  case neg =>
    left
    have hnone : (partsOf hs)[maxSize]? = none := by
      rw [List.getElem?_eq_none_iff, Presents.length_partsOf, maxSize]
      have h₁ := hr.length_le
      have h₂ := hr.bounded
      rw [engineCurrentStep] at h₂
      omega
    simp only [locate, hr.mode]
    rw [← askedStep, findStep_of_ge hr.pos h hlast name hs.length, hnone]
    rfl
  case pos =>
    right
    obtain ⟨g, rest, hcons⟩ := List.exists_cons_of_ne_nil hne
    have hg : hs[0]? = some g := by rw [hcons]; rfl
    have hfind := hr.findStep_engineCurrentStep hne
    refine ⟨partOf (g, startOf hs 0), sub64 engineCurrentStep (startOf hs 0),
      hr.engines g (by simp [hcons]), ?_⟩
    simp only [locate, hr.mode]
    rw [← askedStep, hlast, hfind]
    simp only [getElem?_partsOf hg, Option.orUndefined_some, Outcome.ok_bind,
      Presents.length_partsOf, List.length_pos_iff.mpr hne, if_true]
    rfl

theorem answersOf (hr : Holds r name hs) (answers : Nat → Answers) {g : Holder} (hg : g ∈ hs) :
    r.answersOf answers g.1 = .ok (answers g.1) := by
  simp [TimeSeriesReader.answersOf, hr.engines g hg]

theorem inquire_of_lt {α : Type} (hr : Holds r name hs) (answers : Nat → Answers)
    (ask : Answers → Nat → Option α)
    (h : askedStep stepsStart step < (occurrences hs).length) :
    ∃ p, (occurrences hs)[askedStep stepsStart step]? = some p ∧
      r.inquire answers ask name stepsStart step = .ok (ask (answers p.1) p.2) := by
  have ⟨k, g, hk, hocc, hloc⟩ := hr.locate_of_lt h
  refine ⟨_, hocc, ?_⟩
  have ha := hr.answersOf answers (List.mem_of_getElem? hk)
  simp only [inquire, hr.info, hloc, Outcome.ok_bind]
  rw [show (partOf (g, startOf hs k)).engineIdx = g.1 from rfl, ha]
  rfl

theorem inquire_of_ge {α : Type} (hr : Holds r name hs) (answers : Nat → Answers)
    (ask : Answers → Nat → Option α) (hne : hs ≠ [])
    (h : (occurrences hs).length ≤ askedStep stepsStart step) :
    r.inquire answers ask name stepsStart step = .error .undefined ∨
      ∃ i n, r.inquire answers ask name stepsStart step = .ok (ask (answers i) n) := by
  rcases hr.locate_of_ge hne h with hloc | ⟨p, n, hp, hloc⟩
  case inl =>
    left
    simp only [inquire, hr.info, hloc, Outcome.error_bind]
  case inr =>
    right
    refine ⟨p.engineIdx, n, ?_⟩
    simp [inquire, hr.info, hloc, TimeSeriesReader.answersOf, hp]

theorem blocksInfo_of_lt (hr : Holds r name hs) (answers : Nat → Answers)
    (h : askedStep stepsStart step < (occurrences hs).length) :
    ∃ p, (occurrences hs)[askedStep stepsStart step]? = some p ∧
      r.blocksInfo answers name stepsStart step = .ok ((answers p.1).blocksInfo name p.2) := by
  have ⟨k, g, hk, hocc, hloc⟩ := hr.locate_of_lt h
  refine ⟨_, hocc, ?_⟩
  have ha := hr.answersOf answers (List.mem_of_getElem? hk)
  simp only [blocksInfo, hr.info, Option.orUndefined_some, hloc, Outcome.ok_bind]
  rw [show (partOf (g, startOf hs k)).engineIdx = g.1 from rfl, ha]
  rfl

theorem blocksInfo_of_ge (hr : Holds r name hs) (answers : Nat → Answers) (hne : hs ≠ [])
    (h : (occurrences hs).length ≤ askedStep stepsStart step) :
    r.blocksInfo answers name stepsStart step = .error .undefined ∨
      ∃ i n, r.blocksInfo answers name stepsStart step =
        .ok ((answers i).blocksInfo name n) := by
  rcases hr.locate_of_ge hne h with hloc | ⟨p, n, hp, hloc⟩
  case inl =>
    left
    simp only [blocksInfo, hr.info, Option.orUndefined_some, hloc, Outcome.ok_bind,
      Outcome.error_bind]
  case inr =>
    right
    refine ⟨p.engineIdx, n, ?_⟩
    simp [blocksInfo, hr.info, hloc, TimeSeriesReader.answersOf, hp]

end Holds

-- What leaves the defined behaviour, or answers, is no refusal.
theorem not_answered {β : Type} {occ : List (Nat × Nat)} {asked : Nat} {answer : Nat × Nat → β}
    {nothing : β} {x : Outcome β} (h : occ.length ≤ asked)
    (hx : x = .error .undefined ∨ ∃ b, b ≠ nothing ∧ x = .ok b) :
    ¬Answered occ asked answer nothing x := by
  rw [Answered, List.getElem?_eq_none h]
  rintro (hok | ⟨c, s, a, m, herr⟩)
  case inl =>
    rcases hx with hx | ⟨b, hb, hx⟩
    case inl => exact absurd (hx.symm.trans hok) (by simp)
    case inr => exact hb (Except.ok.inj (hx.symm.trans hok))
  case inr =>
    rcases hx with hx | ⟨b, _, hx⟩
    case inl => exact absurd (hx.symm.trans herr) (by simp)
    case inr => exact absurd (hx.symm.trans herr) (by simp)

theorem answered_of_eq {β : Type} {occ : List (Nat × Nat)} {asked : Nat} {answer : Nat × Nat → β}
    {nothing : β} {x : Outcome β} {p : Nat × Nat} (hp : occ[asked]? = some p)
    (hx : x = .ok (answer p)) : Answered occ asked answer nothing x := by
  rw [Answered, hp]
  exact hx

end Inquiries

section Requests

-- What can be asked of a variable.
inductive Request
  | minBlocksInfo (stepsStart step : Nat)
  | varShape (stepsStart step : Nat)
  | variableMinMax (stepsStart step : Nat)
  | blocksInfo (stepsStart step : Nat)
  | get (s : Selection) (steps : StepSelection)

-- A Get gives what the same selection gives of the files that have the steps, one after the other.
def Fetched (answers : Nat → Answers) (occ : List (Nat × Nat)) (name : String) (s : Selection)
    (steps : StepSelection) (x : Outcome (TimeSeriesReader × List Write)) : Prop :=
  if steps.start + steps.count ≤ occ.length then
    x.map Prod.snd = readSteps answers name s ((occ.drop steps.start).take steps.count) 0
  else
    Refused x

-- A request on a variable with these steps does what it should.
def Met (answers : Nat → Answers) (r : TimeSeriesReader) (v : Variable) (occ : List (Nat × Nat)) :
    Request → Prop
  | .minBlocksInfo stepsStart step =>
    Answered occ (askedStep stepsStart step)
      (fun p => ((answers p.1).minBlocksInfo v.name p.2).map fun mv => { mv with step }) none
      (r.minBlocksInfo answers v.name stepsStart step)
  | .varShape stepsStart step =>
    Answered occ (askedStep stepsStart step) (fun p => (answers p.1).varShape v.name p.2) none
      (r.varShape answers v.name stepsStart step)
  | .variableMinMax stepsStart step =>
    Answered occ (askedStep stepsStart step) (fun p => (answers p.1).variableMinMax v.name p.2) none
      (r.variableMinMax answers v.name stepsStart step)
  | .blocksInfo stepsStart step =>
    Answered occ (askedStep stepsStart step) (fun p => (answers p.1).blocksInfo v.name p.2) []
      (r.blocksInfo answers v.name stepsStart step)
  | .get s steps => Fetched answers occ v.name s steps (r.getCommon answers v s steps)

end Requests

end TimeSeries
