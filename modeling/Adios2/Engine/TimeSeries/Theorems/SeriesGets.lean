import Adios2.Engine.TimeSeries.Theorems.RandomAccess

-- A Get of several steps goes through the files that have them, and gets from each the steps that
-- it has of the selection.

namespace TimeSeries

open BP5 Helper Concatenation TimeSeriesReader

section Reads

variable {answers : Nat → Answers} {name : String}

theorem selectionSize_congr {a : Answers} {s s' : Selection} (h : s.region = s'.region)
    (name : String) (step : Nat) : a.selectionSize name s step = a.selectionSize name s' step := by
  have harea : s.region.area = s'.region.area := by rw [h]
  simp only [Selection.region] at harea
  simp only [Answers.selectionSize]
  cases hs : s.selectionType <;> cases hs' : s'.selectionType <;> simp_all

-- What is read depends on what the selection amounts to.
theorem readSteps_congr {s s' : Selection} (h : s.region = s'.region) (steps : List (Nat × Nat))
    (place : Nat) : readSteps answers name s steps place = readSteps answers name s' steps place := by
  induction steps generalizing place with
  | nil => rfl
  | cons p steps ih => simp only [readSteps, h, selectionSize_congr h, ih]

-- Steps of a box have one size.
theorem readSteps_append {s : Selection} (hbox : s.selectionType = .boundingBox)
    (steps steps' : List (Nat × Nat)) (place : Nat) :
    readSteps answers name s (steps ++ steps') place =
      (readSteps answers name s steps place >>= fun here =>
        readSteps answers name s steps' (place + steps.length * getTotalSize s.count) >>=
          fun others => .ok (here ++ others)) := by
  induction steps generalizing place with
  | nil => cases h : readSteps answers name s steps' place <;> simp [readSteps, h]
  | cons p steps ih =>
    have hplace : place + getTotalSize s.count + steps.length * getTotalSize s.count =
        place + (p :: steps).length * getTotalSize s.count := by
      rw [List.length_cons, Nat.succ_mul]
      omega
    simp only [List.cons_append, readSteps, ih, Answers.selectionSize, hbox, Outcome.pure_eq,
      Outcome.ok_bind, hplace]
    cases (answers p.1).read name s.region p.2 with
    | error f => rfl
    | ok here =>
      cases readSteps answers name s steps (place + getTotalSize s.count) with
      | error f => rfl
      | ok others =>
        cases readSteps answers name s steps'
            (place + (p :: steps).length * getTotalSize s.count) with
        | error f => rfl
        | ok rest => simp

end Reads

section Order

variable {hs : List Holder} {k j : Nat} {g : Holder}

theorem startOf_succ (hk : hs[k]? = some g) :
    startOf hs (k + 1) = startOf hs k + g.stepsCount := by
  rw [startOf, startOf, List.take_add_one, hk, places_append, List.length_append]
  simp

variable (hs) in
theorem startOf_mono (h : k ≤ j) : startOf hs k ≤ startOf hs j := by
  have : hs.take k <+: hs.take j := List.take_prefix_take_left h
  obtain ⟨rest, hrest⟩ := this
  rw [startOf, startOf, ← hrest, places_append, List.length_append]
  exact Nat.le_add_right _ _

variable (hs) in
theorem startOf_le_length (k : Nat) : startOf hs k ≤ (occurrences hs).length := by
  have h := congrArg (fun l => (places Holder.stepsCount l).length) (List.take_append_drop k hs)
  simp only [places_append, List.length_append] at h
  rw [startOf, length_occurrences]
  omega

-- The parts that a range of steps meets are those from the part of its first step to the part of its
-- last one.
theorem meets_iff {e start last : Nat} {h g' : Holder} (hk : hs[k]? = some g) (hj : hs[j]? = some h)
    (he : hs[e]? = some g') (hk₁ : startOf hs k ≤ start)
    (hk₂ : start < startOf hs k + g.stepsCount) (he₁ : startOf hs e ≤ last)
    (he₂ : last < startOf hs e + g'.stepsCount) :
    startOf hs j ≤ last ∧ start < startOf hs j + h.stepsCount ↔ k ≤ j ∧ j ≤ e := by
  rw [← startOf_succ hk] at hk₂
  rw [← startOf_succ he] at he₂
  rw [← startOf_succ hj]
  constructor
  case mp =>
    rintro ⟨h₁, h₂⟩
    constructor
    case left =>
      by_contra hlt
      have := startOf_mono hs (show j + 1 ≤ k by omega)
      omega
    case right =>
      by_contra hlt
      have := startOf_mono hs (show e + 1 ≤ j by omega)
      omega
  case mpr =>
    rintro ⟨h₁, h₂⟩
    have := startOf_mono hs (show k + 1 ≤ j + 1 by omega)
    have := startOf_mono hs h₂
    omega

-- The steps from one of a part on: the rest of the part and those of the parts behind it.
theorem take_drop_occurrences {step c : Nat} (hk : hs[k]? = some g) (hle : startOf hs k ≤ step)
    (hlt : step + c ≤ startOf hs k + g.stepsCount) :
    ((occurrences hs).drop step).take c =
      (List.range' (step - startOf hs k) c).map (g.1, ·) := by
  have hdrop := drop_places hk (show step - startOf hs k ≤ Holder.stepsCount g by omega)
  rw [show (places Holder.stepsCount (hs.take k)).length + (step - startOf hs k) = step by
    rw [startOf] at hle ⊢
    omega] at hdrop
  rw [occurrences, ← List.map_drop, hdrop, ← List.map_take, List.take_append_of_le_length
    (by simp; omega), ← List.map_take, List.take_range'_of_length_ge (by omega), List.map_map]
  rfl

theorem partsOf_drop_cons (hk : hs[k]? = some g) :
    (partsOf hs).drop k = partOf (g, startOf hs k) :: (partsOf hs).drop (k + 1) := by
  have h := getElem?_partsOf hk
  have hlt := (List.getElem?_eq_some_iff.mp h).choose
  rw [List.drop_eq_getElem_cons hlt, (List.getElem?_eq_some_iff.mp h).choose_spec]

end Order

section Loop

variable {r : TimeSeriesReader} {name : String} {hs : List Holder} {answers : Nat → Answers}
  {s : Selection} {k e stepsStart stepFrom remaining n : Nat} {g : Holder}

-- What the variable of a holder has as its selection in a Get.
def innerSelection (r : TimeSeriesReader) (name : String) (s : Selection) (h : Holder) :
    Selection :=
  forwardSelection h.2 (r.selections h.1 name) s

def withSelection (r : TimeSeriesReader) (name : String) (s : Selection) (h : Holder) :
    TimeSeriesReader :=
  { r with
    selections := Function.update r.selections h.1
      (Function.update (r.selections h.1) name (innerSelection r name s h)) }

theorem Holds.withSelection (hr : Holds r name hs) (h : Holder) :
    Holds (withSelection r name s h) name hs :=
  ⟨hr.mode, hr.info, hr.engines, hr.nodup, hr.pos, hr.bounded⟩

-- The selection of the variable of another file stays as it is.
theorem innerSelection_withSelection {h : Holder} (hne : h.1 ≠ g.1) :
    innerSelection (withSelection r name s g) name s h = innerSelection r name s h := by
  simp [innerSelection, withSelection, Function.update_of_ne hne]

-- One turn of the loop: it reads the steps that the part has from `stepFrom` on.
theorem getParts_turn (hr : Holds r name hs) (hk : hs[k]? = some g)
    (hle : startOf hs k ≤ stepFrom) (hlt : stepFrom < startOf hs k + g.stepsCount)
    (hrem : 0 < remaining) (hrlt : remaining < 2 ^ 64) (hke : k ≤ e)
    (hst : stepsStart ≤ stepFrom) :
    getParts answers name s stepsStart n e ((partsOf hs).drop k) k stepFrom remaining r =
      (readSteps answers name (innerSelection r name s g)
          (((occurrences hs).drop stepFrom).take
            (min remaining (startOf hs k + g.stepsCount - stepFrom)))
          ((stepFrom - stepsStart) * n) >>= fun here =>
        getParts answers name s stepsStart n e ((partsOf hs).drop (k + 1)) (k + 1)
            (stepFrom + min remaining (startOf hs k + g.stepsCount - stepFrom))
            (remaining - min remaining (startOf hs k + g.stepsCount - stepFrom))
            (withSelection r name s g) >>= fun p =>
          .ok (p.1, here ++ p.2)) := by
  have hb := hr.bounded
  have hend := startOf_le_length hs (k + 1)
  rw [startOf_succ hk] at hend
  rw [engineCurrentStep] at hb
  have hsub : sub64 stepFrom (startOf hs k) = stepFrom - startOf hs k := by
    simp only [sub64]
    omega
  have hcount : engineStepCount g.stepsCount remaining (stepFrom - startOf hs k) =
      min remaining (startOf hs k + g.stepsCount - stepFrom) := by
    have hsub' : sub64 g.stepsCount (stepFrom - startOf hs k) =
        startOf hs k + g.stepsCount - stepFrom := by
      simp only [sub64]
      omega
    simp only [engineStepCount, hsub']
    split <;> split <;> omega
  have hplace : sub64 stepFrom stepsStart = stepFrom - stepsStart := by
    simp only [sub64]
    omega
  rw [partsOf_drop_cons hk, getParts, if_pos hke]
  simp only [partOf, hr.answersOf answers (List.mem_of_getElem? hk), Outcome.ok_bind, hsub, hcount,
    hplace]
  generalize hc : min remaining (startOf hs k + g.stepsCount - stepFrom) = c
  have hnext : (stepFrom + c) % 2 ^ 64 = stepFrom + c := by omega
  have hrest : sub64 remaining c = remaining - c := by
    simp only [sub64]
    omega
  have hsteps : partSteps r.openMode g.2 (stepFrom - startOf hs k) c =
      .ok (List.range' (stepFrom - startOf hs k) c) := by
    simp only [partSteps, hr.mode, if_neg (show ¬c = 0 by omega), Outcome.pure_eq]
  simp only [take_drop_occurrences hk hle (show stepFrom + c ≤ _ by omega), hnext, hrest, hsteps,
    Outcome.ok_bind, Outcome.pure_eq, withSelection, innerSelection]

-- Behind the last part there are no more turns.
theorem getParts_end (parts : List VarInternalInfoSingle) (hlt : e < k) :
    getParts answers name s stepsStart n e parts k stepFrom remaining r = .ok (r, []) := by
  cases parts <;> simp [getParts, Nat.not_le_of_lt hlt]

-- The steps that are left at part `k`, of which the last one is in part `e`.
structure Remaining (hs : List Holder) (k e stepFrom remaining : Nat) : Prop where
  le       : k ≤ e
  from_le  : startOf hs k ≤ stepFrom
  pos      : 0 < remaining
  last_le  : startOf hs e ≤ stepFrom + remaining - 1
  last_lt  : stepFrom + remaining - 1 < startOf hs (e + 1)
  from_lt  : stepFrom < startOf hs (k + 1)
  inside   : e < hs.length

namespace Remaining

theorem getElem? (h : Remaining hs k e stepFrom remaining) : ∃ g, hs[k]? = some g :=
  ⟨_, List.getElem?_eq_getElem (Nat.lt_of_le_of_lt h.le h.inside)⟩

theorem le_length (h : Remaining hs k e stepFrom remaining) :
    stepFrom + remaining ≤ (occurrences hs).length := by
  have h₁ := startOf_le_length hs (e + 1)
  have h₂ := h.last_lt
  omega

-- In the last part all that is left is read, and in another one the rest of the part.
theorem last (h : Remaining hs k k stepFrom remaining) (hk : hs[k]? = some g) :
    min remaining (startOf hs k + g.stepsCount - stepFrom) = remaining := by
  have h₁ := h.last_lt
  rw [startOf_succ hk] at h₁
  have h₂ := h.pos
  omega

theorem next (h : Remaining hs k e stepFrom remaining) (hr : Holds r name hs)
    (hk : hs[k]? = some g) (hlt : k < e) :
    min remaining (startOf hs k + g.stepsCount - stepFrom) < remaining ∧
      Remaining hs (k + 1) e
        (stepFrom + min remaining (startOf hs k + g.stepsCount - stepFrom))
        (remaining - min remaining (startOf hs k + g.stepsCount - stepFrom)) := by
  have hnext := startOf_succ hk
  have hmono := startOf_mono hs (show k + 1 ≤ e from hlt)
  have h₁ := h.last_le
  have h₂ := h.from_lt
  have h₃ := h.last_lt
  have ⟨g', hk'⟩ : ∃ g', hs[k + 1]? = some g' :=
    ⟨_, List.getElem?_eq_getElem (Nat.lt_of_le_of_lt hlt h.inside)⟩
  have hpos := hr.pos g' (List.mem_of_getElem? hk')
  have hnext' := startOf_succ hk'
  have hc : min remaining (startOf hs k + g.stepsCount - stepFrom) =
      startOf hs (k + 1) - stepFrom := by omega
  rw [hc]
  refine ⟨by omega, hlt, by omega, by omega, by omega, by omega, by omega, h.inside⟩

end Remaining

-- The parts from `k` to `e` have selections that amount to the one of the Get.
def Forwarded (r : TimeSeriesReader) (name : String) (s : Selection) (hs : List Holder) (k e : Nat) :
    Prop :=
  ∀ j h, k ≤ j → j ≤ e → hs[j]? = some h → (innerSelection r name s h).region = s.region

theorem fst_ne_of_ne (hr : Holds r name hs) {j : Nat} {h : Holder} (hk : hs[k]? = some g)
    (hj : hs[j]? = some h) (hne : k ≠ j) : h.1 ≠ g.1 := by
  intro heq
  have hlt : k < (hs.map (·.1)).length := by
    rw [List.length_map]
    exact (List.getElem?_eq_some_iff.mp hk).choose
  refine hne ((List.getElem?_inj hlt hr.nodup).mp ?_)
  rw [List.getElem?_map, List.getElem?_map, hk, hj]
  simp [heq]

theorem Forwarded.next (hr : Holds r name hs) (hk : hs[k]? = some g)
    (hf : Forwarded r name s hs k e) : Forwarded (withSelection r name s g) name s hs (k + 1) e := by
  intro j h hkj hje hj
  rw [innerSelection_withSelection (fst_ne_of_ne hr hk hj (by omega))]
  exact hf j h (by omega) hje hj

variable (answers) in
-- Where the selection is passed on, the parts give together what it selects of the series.
theorem getParts_eq (hr : Holds r name hs) (hbox : s.selectionType = .boundingBox)
    (h : Remaining hs k e stepFrom remaining) (hrlt : remaining < 2 ^ 64)
    (hst : stepsStart ≤ stepFrom) (hf : Forwarded r name s hs k e) :
    (getParts answers name s stepsStart (getTotalSize s.count) e ((partsOf hs).drop k) k stepFrom
        remaining r).map Prod.snd =
      readSteps answers name s (((occurrences hs).drop stepFrom).take remaining)
        ((stepFrom - stepsStart) * getTotalSize s.count) := by
  induction hd : e - k generalizing k stepFrom remaining r with
  | zero =>
    have hke : k = e := Nat.le_antisymm h.le (Nat.le_of_sub_eq_zero hd)
    subst hke
    have ⟨g, hk⟩ := h.getElem?
    have hlt := h.from_lt
    rw [startOf_succ hk] at hlt
    rw [getParts_turn hr hk h.from_le hlt h.pos hrlt h.le hst, h.last hk,
      readSteps_congr (hf k g (Nat.le_refl k) h.le hk)]
    cases readSteps answers name s (((occurrences hs).drop stepFrom).take remaining)
        ((stepFrom - stepsStart) * getTotalSize s.count) with
    | error f => rfl
    | ok here =>
      rw [Outcome.ok_bind, getParts_end _ (Nat.lt_succ_self _), Outcome.ok_bind]
      simp [Except.map]
  | succ d ih =>
    have ⟨g, hk⟩ := h.getElem?
    have hlt := h.from_lt
    have hlen := h.le_length
    rw [startOf_succ hk] at hlt
    have ⟨hc, hnext⟩ := h.next hr hk (by omega)
    have ih := ih (hr.withSelection g) hnext (by omega) (by omega) (hf.next hr hk) (by omega)
    rw [getParts_turn hr hk h.from_le hlt h.pos hrlt h.le hst,
      readSteps_congr (hf k g (Nat.le_refl k) h.le hk)]
    generalize min remaining (startOf hs k + g.stepsCount - stepFrom) = c at *
    have hplace : (stepFrom - stepsStart) * getTotalSize s.count + c * getTotalSize s.count =
        (stepFrom + c - stepsStart) * getTotalSize s.count := by
      rw [← Nat.add_mul]
      congr 1
      omega
    have htake : ((occurrences hs).drop stepFrom).take remaining =
        ((occurrences hs).drop stepFrom).take c ++
          ((occurrences hs).drop (stepFrom + c)).take (remaining - c) := by
      rw [← List.drop_drop, ← List.take_add]
      congr 1
      omega
    have hclen : (((occurrences hs).drop stepFrom).take c).length = c := by
      rw [List.length_take, List.length_drop]
      omega
    rw [htake, readSteps_append hbox, hclen, hplace, ← ih]
    cases readSteps answers name s (((occurrences hs).drop stepFrom).take c)
        ((stepFrom - stepsStart) * getTotalSize s.count) with
    | error f => rfl
    | ok here =>
      cases getParts answers name s stepsStart (getTotalSize s.count) e ((partsOf hs).drop (k + 1))
          (k + 1) (stepFrom + c) (remaining - c) (withSelection r name s g) with
      | error f => rfl
      | ok p => rfl

-- Files that have the block that is selected, and give it only for this selection or not at all.
def reading (s : Selection) (read : Region → Outcome (List Write)) : Nat → Answers := fun _ => {
  minBlocksInfo := fun _ _ => some {
    step := 0
    wasLocalValue := false
    blocksInfo := List.replicate (s.blockID + 1) []
  }
  varShape := fun _ _ => none
  variableMinMax := fun _ _ => none
  blocksInfo := fun _ _ => []
  blockCount := fun _ _ _ => .ok []
  read := fun _ region _ => read region
}

def onlyTo (s : Selection) : Nat → Answers :=
  reading s fun region => if region = s.region then .ok [] else .error (.thrown "" "" "" "")

def faulty (s : Selection) : Nat → Answers := reading s fun _ => .error .undefined

theorem readSteps_onlyTo (name : String) (s : Selection) (steps : List (Nat × Nat)) (place : Nat) :
    ∃ ws, readSteps (onlyTo s) name s steps place = .ok ws := by
  induction steps generalizing place with
  | nil => exact ⟨[], rfl⟩
  | cons p steps ih =>
    have ⟨size, hsize⟩ : ∃ size, (onlyTo s p.1).selectionSize name s p.2 = .ok size := by
      cases hs : s.selectionType with
      | boundingBox => exact ⟨_, by rw [Answers.selectionSize, hs]; rfl⟩
      | writeBlock  => exact ⟨_, by rw [Answers.selectionSize, hs]; rfl⟩
    have ⟨ws, hws⟩ := ih (place + size)
    have hread : (onlyTo s p.1).read name s.region p.2 = .ok [] := by simp [onlyTo, reading]
    exact ⟨ws, by simp [readSteps, hread, hsize, hws]⟩

theorem readSteps_faulty {s' : Selection} {steps : List (Nat × Nat)} (hne : steps ≠ [])
    (place : Nat) : readSteps (faulty s) name s' steps place = .error .undefined := by
  obtain ⟨p, steps, rfl⟩ := List.exists_cons_of_ne_nil hne
  rfl

theorem region_of_readSteps {s' : Selection} {steps : List (Nat × Nat)} (hne : steps ≠ [])
    {place : Nat} {ws : List Write} (h : readSteps (onlyTo s) name s' steps place = .ok ws) :
    s'.region = s.region := by
  obtain ⟨p, steps, rfl⟩ := List.exists_cons_of_ne_nil hne
  by_contra hregion
  simp [readSteps, onlyTo, reading, hregion] at h

theorem region_of_getParts {p : TimeSeriesReader × List Write} (hr : Holds r name hs)
    (h : Remaining hs k e stepFrom remaining) (hrlt : remaining < 2 ^ 64)
    (hst : stepsStart ≤ stepFrom)
    (hok : getParts (onlyTo s) name s stepsStart n e ((partsOf hs).drop k) k stepFrom remaining r =
      .ok p) (hk : hs[k]? = some g) : (innerSelection r name s g).region = s.region := by
  have hlt := h.from_lt
  rw [startOf_succ hk] at hlt
  rw [getParts_turn hr hk h.from_le hlt h.pos hrlt h.le hst] at hok
  obtain ⟨_, hread, _⟩ := Outcome.bind_eq_ok.mp hok
  refine region_of_readSteps (List.ne_nil_of_length_pos ?_) hread
  have h₁ := h.pos
  have h₂ := h.le_length
  rw [List.length_take, List.length_drop]
  omega

-- What such files give has come through the parts with the selection of the Get.
theorem forwarded_of_getParts (hr : Holds r name hs) (h : Remaining hs k e stepFrom remaining)
    (hrlt : remaining < 2 ^ 64) (hst : stepsStart ≤ stepFrom)
    {p : TimeSeriesReader × List Write}
    (hok : getParts (onlyTo s) name s stepsStart n e ((partsOf hs).drop k) k stepFrom remaining r =
      .ok p) : Forwarded r name s hs k e := by
  induction hd : e - k generalizing k stepFrom remaining r p with
  | zero =>
    have hke : k = e := Nat.le_antisymm h.le (Nat.le_of_sub_eq_zero hd)
    subst hke
    intro j g hkj hjk hk
    have hjk : j = k := by omega
    subst hjk
    exact region_of_getParts hr h hrlt hst hok hk
  | succ d ih =>
    intro j h' hkj hje hj
    rcases Nat.eq_or_lt_of_le hkj with rfl | hkj
    case inl => exact region_of_getParts hr h hrlt hst hok hj
    case inr =>
      have ⟨g, hk⟩ := h.getElem?
      have hlt := h.from_lt
      rw [startOf_succ hk] at hlt
      rw [getParts_turn hr hk h.from_le hlt h.pos hrlt h.le hst] at hok
      obtain ⟨_, _, hok⟩ := Outcome.bind_eq_ok.mp hok
      obtain ⟨_, hok, _⟩ := Outcome.bind_eq_ok.mp hok
      have ⟨hc, hnext⟩ := h.next hr hk (by omega)
      have hf := ih (hr.withSelection g) hnext (by omega) (by omega) hok (by omega)
      rw [← hf j h' hkj hje hj, innerSelection_withSelection (fst_ne_of_ne hr hk hj (by omega))]
end Loop

section Gets

variable {r : TimeSeriesReader} {v : Variable} {hs : List Holder} {s : Selection}
  {steps : StepSelection}

-- The selections that the files have by themselves, or from earlier Gets.
structure OwnSelections (r : TimeSeriesReader) (name : String) (hs : List Holder) : Prop where
  box         : ∀ h ∈ hs, (r.selections h.1 name).selectionType = .boundingBox
  memoryStart : ∀ h ∈ hs, (r.selections h.1 name).memoryStart = []
  memoryCount : ∀ h ∈ hs, (r.selections h.1 name).memoryCount = []
  single      : ∀ h ∈ hs, h.2.singleValue = true →
    (r.selections h.1 name).start = h.2.start ∧ (r.selections h.1 name).count = h.2.count

-- What a Get can pass on to the files: a box, without a place in the memory, and for a single value
-- only the one that the file has itself.
structure Selectable (hs : List Holder) (s : Selection) (steps : StepSelection) : Prop where
  type        : ∀ h ∈ hs, h.2.type ≠ .string
  box         : s.selectionType = .boundingBox
  memoryStart : s.memoryStart = []
  memoryCount : s.memoryCount = []
  inside      : steps.start + steps.count ≤ (occurrences hs).length
  single      : ∀ k h, hs[k]? = some h → startOf hs k < steps.start + steps.count →
    steps.start < startOf hs k + h.stepsCount → h.2.singleValue = true →
    h.2.start = s.start ∧ h.2.count = s.count

-- A selection is passed on if it is a box of this kind.
theorem OwnSelections.region_eq_iff (ho : OwnSelections r v.name hs) {h : Holder} (hh : h ∈ hs) :
    (innerSelection r v.name s h).region = s.region ↔
      s.selectionType = .boundingBox ∧ s.memoryStart = [] ∧ s.memoryCount = [] ∧
        (h.2.singleValue = true → h.2.start = s.start ∧ h.2.count = s.count) := by
  have hbox := ho.box h hh
  have hms := ho.memoryStart h hh
  have hmc := ho.memoryCount h hh
  have hsingle := ho.single h hh
  simp only [innerSelection, forwardSelection, hbox]
  by_cases hv : h.2.singleValue = true
  case pos =>
    have ⟨h₁, h₂⟩ := hsingle hv
    cases hs : s.selectionType with
    | boundingBox =>
      simp [hv, Selection.region, hbox, hms, hmc, hs, h₁, h₂, eq_comm]
      tauto
    | writeBlock => simp [hv, Selection.region, hbox, hs]
  case neg =>
    cases hs : s.selectionType <;>
      simp [hv, Selection.region, hms, hmc, hs, eq_comm]

-- The parts of the first step and of the last one.
theorem exists_remaining (hr : Holds r v.name hs)
    (hin : steps.start + steps.count ≤ (occurrences hs).length) :
    ∃ k e, findStep r.openMode { name := v.name, nEngines := hs.length, info := partsOf hs }
        steps.start = k ∧
      findStep r.openMode { name := v.name, nEngines := hs.length, info := partsOf hs }
        ((steps.start + steps.count - 1) % 2 ^ 64) = e ∧
      Remaining hs k e steps.start steps.count := by
  have hpos := steps.pos
  have hb := hr.bounded
  rw [engineCurrentStep] at hb
  have hstart : steps.start < (occurrences hs).length := by omega
  have hlast : steps.start + steps.count - 1 < (occurrences hs).length := by omega
  obtain ⟨k, g, hk, hfind, hle, hlt⟩ := findStep_of_lt hr.pos hr.bounded hstart v.name hs.length
  obtain ⟨e, g', he, hfind', hle', hlt'⟩ :=
    findStep_of_lt hr.pos hr.bounded hlast v.name hs.length
  refine ⟨k, e, by rw [hr.mode, hfind], ?_, ?_⟩
  · rw [hr.mode, Nat.mod_eq_of_lt (by omega), hfind']
  · have h₁ := startOf_succ hk
    have h₂ := startOf_succ he
    refine ⟨?_, hle, hpos, hle', by omega, by omega, (List.getElem?_eq_some_iff.mp he).choose⟩
    by_contra hgt
    have := startOf_mono hs (show e + 1 ≤ k by omega)
    omega

-- A Get within the series, from its parts.
theorem getCommon_eq (hr : Holds r v.name hs) (answers : Nat → Answers) (htype : v.type ≠ .string) :
    r.getCommon answers v s steps =
      (getTotalSize <$> r.count answers v s steps.start) >>= fun n =>
        getParts answers v.name s steps.start n
          (findStep r.openMode { name := v.name, nEngines := hs.length, info := partsOf hs }
            ((steps.start + steps.count - 1) % 2 ^ 64))
          ((partsOf hs).drop
            (findStep r.openMode { name := v.name, nEngines := hs.length, info := partsOf hs }
              steps.start))
          (findStep r.openMode { name := v.name, nEngines := hs.length, info := partsOf hs }
            steps.start)
          steps.start steps.count r := by
  simp only [getCommon, htype, if_false, hr.info, Option.orUndefined_some, Outcome.ok_bind]

theorem Selectable.fetched (hsel : Selectable hs s steps) (hr : Holds r v.name hs)
    (ho : OwnSelections r v.name hs) (htype : ∀ h ∈ hs, h.2.type = v.type)
    (answers : Nat → Answers) :
    Fetched answers (occurrences hs) v.name s steps (r.getCommon answers v s steps) := by
  have ⟨k, e, hk, he, hrem⟩ := exists_remaining hr hsel.inside
  have hcount : r.count answers v s steps.start = .ok s.count := by
    simp [TimeSeriesReader.count, hsel.box]
  have ⟨g, hg⟩ := hrem.getElem?
  have ⟨g', hg'⟩ : ∃ g', hs[e]? = some g' := ⟨_, List.getElem?_eq_getElem hrem.inside⟩
  have hg_mem := List.mem_of_getElem? hg
  have hstring : v.type ≠ .string := fun h => hsel.type g hg_mem ((htype g hg_mem).trans h)
  have h₁ := hrem.from_lt
  have h₂ := hrem.last_lt
  rw [startOf_succ hg] at h₁
  rw [startOf_succ hg'] at h₂
  have hf : Forwarded r v.name s hs k e := by
    intro j h hkj hje hj
    have hmeets := (meets_iff hg hj hg' hrem.from_le h₁ hrem.last_le h₂).mpr ⟨hkj, hje⟩
    have hpos := steps.pos
    refine (ho.region_eq_iff (List.mem_of_getElem? hj)).mpr
      ⟨hsel.box, hsel.memoryStart, hsel.memoryCount, ?_⟩
    exact hsel.single j h hj (by omega) hmeets.right
  have h := getParts_eq answers hr hsel.box hrem steps.count_lt (Nat.le_refl steps.start) hf
  rw [Nat.sub_self, Nat.zero_mul] at h
  rw [Fetched, if_pos hsel.inside, getCommon_eq hr answers hstring, hcount, hk, he]
  exact h

-- The size of the selection is known of files that have the block.
theorem count_reading (hr : Holds r v.name hs) (hne : hs ≠ [])
    (read : Region → Outcome (List Write)) :
    (∃ d, r.count (reading s read) v s steps.start = .ok d) ∨
      (occurrences hs).length ≤ steps.start ∧
        r.count (reading s read) v s steps.start = .error .undefined := by
  cases hbox : s.selectionType with
  | boundingBox => exact .inl ⟨s.count, by simp [TimeSeriesReader.count, hbox]⟩
  | writeBlock =>
    have hblock : (List.replicate (s.blockID + 1) ([] : Dims))[s.blockID]? = some [] := by
      simp
    have hok : ∀ i n, r.inquire (reading s read) (·.minBlocksInfo v.name) v.name steps.start
        steps.start = .ok ((reading s read i).minBlocksInfo v.name n) →
        ∃ d, r.count (reading s read) v s steps.start = .ok d := by
      intro i n h
      refine ⟨[], ?_⟩
      simp only [TimeSeriesReader.count, hbox, TimeSeriesReader.minBlocksInfo, h, Outcome.ok_bind,
        reading, Option.map_some, Outcome.pure_eq, hblock]
      simp
    have hasked : askedStep steps.start steps.start = steps.start := by simp [askedStep]
    rcases Nat.lt_or_ge steps.start (occurrences hs).length with hlt | hge
    case inl =>
      have hlt : askedStep steps.start steps.start < (occurrences hs).length := by rwa [hasked]
      obtain ⟨p, _, hp⟩ := hr.inquire_of_lt (reading s read) (·.minBlocksInfo v.name) hlt
      exact .inl (hok p.1 p.2 hp)
    case inr =>
      have hle : (occurrences hs).length ≤ askedStep steps.start steps.start := by rwa [hasked]
      rcases hr.inquire_of_ge (reading s read) (·.minBlocksInfo v.name) hne hle with h | ⟨i, n, h⟩
      case inl =>
        right
        refine ⟨hge, ?_⟩
        simp only [TimeSeriesReader.count, hbox, TimeSeriesReader.minBlocksInfo, h,
          Outcome.error_bind]
      case inr => exact .inl (hok i n h)

-- A Get that begins at the number for the current step does not leave out the first part.
theorem engineStepCount_ne_zero (hr : Holds r v.name hs) {k : Nat} {g : Holder}
    (hg : hs[k]? = some g) (hzero : startOf hs k = 0) (hstart : steps.start = engineCurrentStep) :
    engineStepCount g.stepsCount steps.count (sub64 steps.start (startOf hs k)) ≠ 0 := by
  have hpos := steps.pos
  have hg' := hr.pos g (List.mem_of_getElem? hg)
  have hb := hr.bounded
  have hend := startOf_le_length hs (k + 1)
  rw [startOf_succ hg] at hend
  rw [engineCurrentStep] at hb hstart
  have hsub : sub64 g.stepsCount (sub64 steps.start (startOf hs k)) = g.stepsCount + 1 := by
    simp only [sub64, hzero, hstart]
    omega
  simp only [engineStepCount, hsub]
  split <;> split <;> omega

-- Behind the series no Get is refused: the loop does not run, or it leaves the defined behaviour.
theorem getParts_faulty (hr : Holds r v.name hs) (hne : hs ≠ []) (n e : Nat) {k : Nat}
    (hk : findStep .readRandomAccess
      { name := v.name, nEngines := hs.length, info := partsOf hs } steps.start = k) :
    getParts (faulty s) v.name s steps.start n e ((partsOf hs).drop k) k steps.start steps.count r =
        .error .undefined ∨
      getParts (faulty s) v.name s steps.start n e ((partsOf hs).drop k) k steps.start steps.count
        r = .ok (r, []) := by
  rcases Nat.lt_or_ge e k with hek | hke
  case inl => exact .inr (getParts_end _ hek)
  case inr =>
    left
    have hpos := steps.pos
    rcases Nat.lt_or_ge steps.start (occurrences hs).length with hlt | hge
    case inl =>
      obtain ⟨k', g, hk', hfind, hle, hlt'⟩ := findStep_of_lt hr.pos hr.bounded hlt v.name hs.length
      have hkk : k' = k := hfind.symm.trans hk
      subst hkk
      rw [getParts_turn hr hk' hle hlt' hpos steps.count_lt hke (Nat.le_refl _), readSteps_faulty]
      · rfl
      · refine List.ne_nil_of_length_pos ?_
        rw [List.length_take, List.length_drop]
        omega
    case inr =>
      by_cases hlast : steps.start = engineCurrentStep
      case neg =>
        have hnil : (partsOf hs).drop k = [] := by
          rw [List.drop_eq_nil_iff, Presents.length_partsOf, ← hk,
            findStep_of_ge hr.pos hge hlast, maxSize]
          have h₁ := hr.length_le
          have h₂ := hr.bounded
          rw [engineCurrentStep] at h₂
          omega
        rw [hnil, getParts, if_pos hke]
      case pos =>
        have hk₀ : 0 = k := by rwa [hlast, hr.findStep_engineCurrentStep hne] at hk
        have hzero : startOf hs k = 0 := by rw [← hk₀]; rfl
        obtain ⟨g, hg⟩ : ∃ g, hs[k]? = some g :=
          ⟨_, List.getElem?_eq_getElem (by rw [← hk₀]; exact List.length_pos_iff.mpr hne)⟩
        have hcount := engineStepCount_ne_zero hr hg hzero hlast
        have hsteps : partSteps r.openMode g.2 (sub64 steps.start (startOf hs k))
            (engineStepCount g.stepsCount steps.count (sub64 steps.start (startOf hs k))) =
            .ok (List.range' (sub64 steps.start (startOf hs k))
              (engineStepCount g.stepsCount steps.count (sub64 steps.start (startOf hs k)))) := by
          simp only [partSteps, hr.mode, if_neg hcount, Outcome.pure_eq]
        rw [partsOf_drop_cons hg, getParts, if_pos hke]
        simp only [partOf, hr.answersOf (faulty s) (List.mem_of_getElem? hg), Outcome.ok_bind,
          hsteps]
        rw [readSteps_faulty]
        · rfl
        · refine List.ne_nil_of_length_pos ?_
          rw [List.length_map, List.length_range']
          exact Nat.pos_of_ne_zero hcount

theorem not_refused_of_outside (hr : Holds r v.name hs) (hne : hs ≠ []) (htype : v.type ≠ .string) :
    ¬Refused (r.getCommon (faulty s) v s steps) := by
  rintro ⟨c, s', a, m, h⟩
  rw [getCommon_eq hr _ htype, hr.mode] at h
  rcases count_reading (v := v) hr hne (fun _ => .error .undefined) with ⟨d, hd⟩ | ⟨_, hd⟩
  case inl =>
    rw [faulty, hd] at h
    rcases getParts_faulty hr hne (getTotalSize d) _ rfl with hp | hp
    case inl => exact absurd (hp.symm.trans h) (by simp)
    case inr => exact absurd (hp.symm.trans h) (by simp)
  case inr =>
    rw [faulty, hd] at h
    simp at h

theorem selectable_of_fetched (hr : Holds r v.name hs) (ho : OwnSelections r v.name hs)
    (hne : hs ≠ []) (hv : ∀ h ∈ hs, h.2.type = v.type)
    (h : ∀ answers, Fetched answers (occurrences hs) v.name s steps (r.getCommon answers v s steps)) :
    Selectable hs s steps := by
  have hpos := steps.pos
  by_cases hin : steps.start + steps.count ≤ (occurrences hs).length
  case neg =>
    have hrefused := h (faulty s)
    rw [Fetched, if_neg hin] at hrefused
    by_cases htype : v.type = .string
    case pos =>
      obtain ⟨c, s', a, m, hx⟩ := hrefused
      simp [getCommon, htype] at hx
    case neg => exact absurd hrefused (not_refused_of_outside hr hne htype)
  case pos =>
    have hsteps : ((occurrences hs).drop steps.start).take steps.count ≠ [] := by
      refine List.ne_nil_of_length_pos ?_
      rw [List.length_take, List.length_drop]
      omega
    have htype : v.type ≠ .string := by
      intro htype
      have hx := h (faulty s)
      rw [Fetched, if_pos hin, readSteps_faulty hsteps] at hx
      simp [getCommon, htype, Except.map] at hx
    have hx := h (onlyTo s)
    have ⟨ws, hws⟩ := readSteps_onlyTo v.name s
      (((occurrences hs).drop steps.start).take steps.count) 0
    rw [Fetched, if_pos hin, hws] at hx
    have ⟨k, e, hk, he, hrem⟩ := exists_remaining hr hin
    have ⟨p, hp⟩ : ∃ p, r.getCommon (onlyTo s) v s steps = .ok p := by
      cases hg : r.getCommon (onlyTo s) v s steps with
      | error f => simp [hg, Except.map] at hx
      | ok p => exact ⟨p, rfl⟩
    rw [getCommon_eq hr _ htype, hk, he] at hp
    obtain ⟨n, _, hp⟩ := Outcome.bind_eq_ok.mp hp
    have hf := forwarded_of_getParts hr hrem steps.count_lt (Nat.le_refl steps.start) hp
    have ⟨g, hg⟩ := hrem.getElem?
    have ⟨g', hg'⟩ : ∃ g', hs[e]? = some g' := ⟨_, List.getElem?_eq_getElem hrem.inside⟩
    have h₁ := hrem.from_lt
    have h₂ := hrem.last_lt
    rw [startOf_succ hg] at h₁
    rw [startOf_succ hg'] at h₂
    have ⟨hbox, hms, hmc, _⟩ :=
      (ho.region_eq_iff (List.mem_of_getElem? hg)).mp (hf k g (Nat.le_refl k) hrem.le hg)
    refine ⟨fun h hh heq => htype ((hv h hh).symm.trans heq), hbox, hms, hmc, hin, ?_⟩
    intro j h hj hlt₁ hlt₂
    have ⟨hkj, hje⟩ := (meets_iff hg hj hg' hrem.from_le h₁ hrem.last_le h₂).mp ⟨by omega, hlt₂⟩
    exact ((ho.region_eq_iff (List.mem_of_getElem? hj)).mp (hf j h hkj hje hj)).right.right.right

end Gets

end TimeSeries
