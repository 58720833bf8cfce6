import Adios2.Lib.Lists
import Adios2.Engine.TimeSeries.TimeSeriesReader
import Adios2.Lib.Concatenation

-- What the reader knows of a series that was opened for random access: for each variable the files
-- that have it, one behind the other.

namespace TimeSeries

open BP5 Helper Concatenation

-- A file among those of the series, as a variable of it is found there.
abbrev Holder := Nat × FileVariable

-- The files with a variable of that name, in their order.
def holders (files : List File) (name : String) : List Holder :=
  files.zipIdx.flatMap fun (f, i) =>
    (((f.vars.filter fun v => TimeSeriesReader.HasReader v).find? (·.name = name)).map (i, ·)).toList

def Holder.stepsCount (h : Holder) : Nat := h.2.stepsCount

@[simp]
theorem Holder.stepsCount_mk (i : Nat) (v : FileVariable) :
    Holder.stepsCount (i, v) = v.stepsCount := rfl

-- The steps of a variable over the whole series, each as a file and a step of the variable in it.
def occurrences (hs : List Holder) : List (Nat × Nat) :=
  (places Holder.stepsCount hs).map fun p => (p.1.1, p.2)

-- What the reader asks of a variable that is in several files.
structure Compatible (v w : FileVariable) : Prop where
  type    : v.type = w.type
  shapeID : v.shapeID = w.shapeID
  dims    : v.shape.length = w.shape.length

instance (v w : FileVariable) : Decidable (Compatible v w) :=
  decidable_of_iff (v.type = w.type ∧ v.shapeID = w.shapeID ∧ v.shape.length = w.shape.length)
    ⟨fun ⟨h₁, h₂, h₃⟩ => ⟨h₁, h₂, h₃⟩, fun h => ⟨h.type, h.shapeID, h.dims⟩⟩

def partOf (p : Holder × Nat) : VarInternalInfoSingle where
  originalVar := p.1.2
  ioIdx       := p.1.1
  engineIdx   := p.1.1
  startStep   := p.2
  endStep     := p.2 + p.1.stepsCount - 1
  stepCount   := p.1.stepsCount

def partsOf (hs : List Holder) : List VarInternalInfoSingle :=
  (starts Holder.stepsCount 0 hs).map partOf

def infoOf (name : String) : List Holder → Option VarInternalInfo
  | []      => none
  | h :: hs => some {
      name
      nEngines := (h :: hs).length
      info := partsOf (h :: hs)
    }

def variableOf (type : DataType) : List Holder → Option Variable
  | []      => none
  | h :: hs =>
    if h.2.type = type then
      some { TimeSeriesReader.defineVariable h.2 with
        availableStepsCount := (places Holder.stepsCount (h :: hs)).length }
    else
      none

-- The reader has the variables that these holders have.
structure Presents (r : TimeSeriesReader) (H : String → List Holder) : Prop where
  named      : ∀ name, ∀ h ∈ H name, h.2.name = name
  info       : ∀ name, r.findInfo name = infoOf name (H name)
  io         : ∀ name type,
    r.io.find? (fun w => w.name = name ∧ w.type = type) = variableOf type (H name)
  compatible : ∀ name, ∀ h ∈ H name, ∀ g ∈ (H name).head?, Compatible g.2 h.2

-- Items found by what a change keeps are found as before.
namespace Presents

open TimeSeriesReader

variable {r : TimeSeriesReader} {H : String → List Holder}

theorem length_partsOf (hs : List Holder) : (partsOf hs).length = hs.length := by
  simp [partsOf]

theorem partsOf_concat (hs : List Holder) (h : Holder) :
    partsOf (hs ++ [h]) =
      partsOf hs ++ [partOf (h, (places Holder.stepsCount hs).length)] := by
  simp [partsOf, starts_append]

-- The last part ends in front of the next step.
theorem endStep_getLast? (hs : List Holder) (hne : hs ≠ [])
    (hpos : ∀ h ∈ hs, 0 < Holder.stepsCount h) :
    ∃ p, (partsOf hs).getLast? = some p ∧
      p.endStep + 1 = (places Holder.stepsCount hs).length := by
  rcases List.eq_nil_or_concat hs with rfl | ⟨init, h, rfl⟩
  case inl => exact absurd rfl hne
  case inr =>
    rw [List.concat_eq_append] at hpos ⊢
    have hh : 0 < Holder.stepsCount h := hpos h (by simp)
    refine ⟨partOf (h, (places Holder.stepsCount init).length), ?_, ?_⟩
    · rw [partsOf_concat, List.getLast?_concat]
    · simp [partOf]
      omega

-- A new variable.
theorem duplicateVariable_new {v : FileVariable} {idx : Nat} (hp : Presents r H)
    (hmode : r.openMode = .readRandomAccess) (hH : H v.name = []) (hpos : 0 < v.stepsCount)
    (hlt : v.stepsCount < 2 ^ 64) :
    ∃ r', r.duplicateVariable v idx idx = .ok r' ∧
      Presents r' (Function.update H v.name [(idx, v)]) ∧
      ∃ io infos, r' = { r with io, varInternalInfo := infos } := by
  have hnone : r.findInfo v.name = none := by rw [hp.info, hH]; rfl
  have hsub : sub64 v.stepsCount 1 = v.stepsCount - 1 := by
    simp only [sub64]
    omega
  refine ⟨_, by simp only [duplicateVariable, hnone, hmode]; rfl, ?_, _, _, rfl⟩
  constructor
  case named =>
    intro name h hh
    rcases eq_or_ne name v.name with rfl | hne
    case inl =>
      rw [Function.update_self] at hh
      exact (List.mem_singleton.mp hh) ▸ rfl
    case inr =>
      rw [Function.update_of_ne hne] at hh
      exact hp.named name h hh
  case info =>
    intro name
    have h := hp.info name
    rcases eq_or_ne name v.name with rfl | hne
    case inl =>
      rw [findInfo] at hnone
      simp [findInfo, List.find?_append, hnone, infoOf, partsOf, partOf, hsub]
    case inr =>
      rw [findInfo] at h
      simp [findInfo, List.find?_append, h, Function.update_of_ne hne, Ne.symm hne]
  case io =>
    intro name type
    have h := hp.io name type
    rcases eq_or_ne name v.name with rfl | hne
    case inl =>
      rw [hH] at h
      simp only [List.find?_append, h]
      by_cases htype : v.type = type <;> simp [variableOf, defineVariable, htype]
    case inr =>
      simp only [List.find?_append, h]
      simp [Function.update_of_ne hne, defineVariable, Ne.symm hne]
  case compatible =>
    intro name h hh g hg
    rcases eq_or_ne name v.name with rfl | hne
    case inl =>
      simp only [Function.update_self, List.mem_singleton, List.head?_cons, Option.mem_def,
        Option.some.injEq] at hh hg
      subst hh hg
      exact ⟨rfl, rfl, rfl⟩
    case inr =>
      rw [Function.update_of_ne hne] at hh hg
      exact hp.compatible name h hh g hg

-- A variable that earlier files have.
theorem duplicateVariable_old {v : FileVariable} {idx : Nat} {g : Holder} {hs : List Holder}
    (hp : Presents r H) (hH : H v.name = g :: hs) (hidx : (H v.name).length ≤ idx)
    (hcomp : Compatible g.2 v) (hpos : 0 < v.stepsCount)
    (hpos' : ∀ h ∈ H v.name, 0 < Holder.stepsCount h)
    (hlt : (places Holder.stepsCount (H v.name)).length + v.stepsCount < 2 ^ 64) :
    ∃ r', r.duplicateVariable v idx idx = .ok r' ∧
      Presents r' (Function.update H v.name (H v.name ++ [(idx, v)])) ∧
      ∃ io infos, r' = { r with io, varInternalInfo := infos } := by
  have hinfo : r.findInfo v.name = some {
      name := v.name
      nEngines := (H v.name).length
      info := partsOf (H v.name) } := by
    rw [hp.info, hH]
    rfl
  have hio := hp.io v.name v.type
  rw [hH] at hio
  simp only [variableOf, hcomp.type, if_true] at hio
  have ⟨last, hlast, hend⟩ := endStep_getLast? (H v.name) (by simp [hH]) hpos'
  have hne : ¬idx = (H v.name).length - 1 := by
    have : 0 < (H v.name).length := by simp [hH]
    omega
  have hpart : partOf ((idx, v), (places Holder.stepsCount (H v.name)).length) = {
      originalVar := v
      ioIdx := idx
      engineIdx := idx
      startStep := (last.endStep + 1) % 2 ^ 64
      endStep := sub64 (v.stepsCount + (last.endStep + 1) % 2 ^ 64) 1
      stepCount := v.stepsCount } := by
    rw [hend, Nat.mod_eq_of_lt (by omega)]
    simp only [partOf, Holder.stepsCount_mk, sub64, VarInternalInfoSingle.mk.injEq, true_and,
      and_true]
    omega
  have hdup : r.duplicateVariable v idx idx = .ok { r with
      io := r.io.map fun w =>
        if w.name = v.name then
          { w with availableStepsCount := w.availableStepsCount + v.stepsCount }
        else
          w
      varInternalInfo := r.varInternalInfo.map fun i =>
        if i.name = v.name then
          {
            name := v.name
            nEngines := (H v.name).length + 1
            info := partsOf (H v.name ++ [(idx, v)])
          }
        else
          i } := by
    rw [duplicateVariable, hinfo]
    simp only [hio, Option.orUndefined_some, Outcome.ok_bind, hcomp.shapeID, hcomp.dims,
      defineVariable, ne_eq, not_true_eq_false, if_false, hlast, hne, partsOf_concat, hpart]
    rfl
  refine ⟨_, hdup, ?_, _, _, rfl⟩
  constructor
  case named =>
    intro name h hh
    rcases eq_or_ne name v.name with rfl | hne
    case inl =>
      rw [Function.update_self] at hh
      rcases List.mem_append.mp hh with hold | hnew
      case inl => exact hp.named _ h hold
      case inr => exact (List.mem_singleton.mp hnew) ▸ rfl
    case inr =>
      rw [Function.update_of_ne hne] at hh
      exact hp.named name h hh
  case info =>
    intro name
    have h := hp.info name
    rw [findInfo] at h hinfo
    simp only [findInfo]
    rw [List.find?_map_of_eq (fun i => by split <;> simp [*])]
    rcases eq_or_ne name v.name with rfl | hne
    case inl =>
      rw [hinfo, Function.update_self, hH]
      simp [infoOf]
    case inr =>
      rw [h, Function.update_of_ne hne]
      cases hc : H name <;> simp [infoOf, hne]
  case io =>
    intro name type
    have h := hp.io name type
    simp only
    rw [List.find?_map_of_eq (fun w => by split <;> simp), h]
    rcases eq_or_ne name v.name with rfl | hne
    case inl =>
      rw [Function.update_self, hH]
      by_cases htype : g.2.type = type
      · simp [variableOf, defineVariable, htype, hp.named v.name g (by simp [hH])]
        omega
      · simp [variableOf, htype]
    case inr =>
      rw [Function.update_of_ne hne]
      cases hc : H name with
      | nil          => rfl
      | cons h' rest =>
        have hname : h'.2.name = name := hp.named name h' (by simp [hc])
        by_cases htype : h'.2.type = type <;>
          simp [variableOf, htype, defineVariable, hname, hne]
  case compatible =>
    intro name h hh g' hg
    rcases eq_or_ne name v.name with rfl | hne
    case inl =>
      rw [Function.update_self] at hh hg
      have hg' : g' = g := by simpa [hH, eq_comm] using hg
      subst hg'
      rcases List.mem_append.mp hh with hold | hnew
      case inl => exact hp.compatible _ h hold g' (by simp [hH])
      case inr => exact (List.mem_singleton.mp hnew) ▸ hcomp
    case inr =>
      rw [Function.update_of_ne hne] at hh hg
      exact hp.compatible name h hh g' hg

theorem not_duplicateVariable {v : FileVariable} {idx : Nat} {g : Holder} {hs : List Holder}
    (hp : Presents r H) (hH : H v.name = g :: hs) (hcomp : ¬Compatible g.2 v)
    (r' : TimeSeriesReader) : r.duplicateVariable v idx idx ≠ .ok r' := by
  intro h
  have hinfo := hp.info v.name
  have hio := hp.io v.name v.type
  rw [hH] at hinfo hio
  simp only [duplicateVariable, hinfo, infoOf, hio, variableOf] at h
  by_cases htype : g.2.type = v.type
  case neg => simp [htype] at h
  case pos =>
    simp only [htype, if_true, Option.orUndefined_some, Outcome.ok_bind, defineVariable] at h
    by_cases hshape : g.2.shapeID = v.shapeID
    case neg => simp [hshape, thrown] at h
    case pos =>
      by_cases hdims : g.2.shape.length = v.shape.length
      case neg => simp [hshape, hdims, thrown] at h
      case pos => exact hcomp ⟨htype, hshape, hdims⟩

-- What a variable of file `idx` adds, and when it can be added.
structure Room (H : String → List Holder) (v : FileVariable) (idx : Nat) : Prop where
  idx     : (H v.name).length ≤ idx
  pos     : 0 < v.stepsCount
  pos'    : ∀ h ∈ H v.name, 0 < Holder.stepsCount h
  bounded : (places Holder.stepsCount (H v.name)).length + v.stepsCount < 2 ^ 64

def addHolder (H : String → List Holder) (idx : Nat) (v : FileVariable) : String → List Holder :=
  Function.update H v.name (H v.name ++ [(idx, v)])

theorem duplicateVariable_compatible {v : FileVariable} {idx : Nat} (hp : Presents r H)
    (hmode : r.openMode = .readRandomAccess) (hroom : Room H v idx)
    (hcomp : ∀ g ∈ (H v.name).head?, Compatible g.2 v) :
    ∃ r', r.duplicateVariable v idx idx = .ok r' ∧ Presents r' (addHolder H idx v) ∧
      ∃ io infos, r' = { r with io, varInternalInfo := infos } := by
  cases hH : H v.name with
  | nil =>
    have h := hroom.bounded
    simp only [hH, places_nil, List.length_nil] at h
    rw [addHolder, hH]
    exact duplicateVariable_new hp hmode hH hroom.pos (by omega)
  | cons g hs =>
    exact duplicateVariable_old hp hH hroom.idx (hcomp g (by simp [hH])) hroom.pos hroom.pos'
      hroom.bounded

theorem compatible_of_duplicateVariable {v : FileVariable} {idx : Nat} {r' : TimeSeriesReader}
    (hp : Presents r H) (h : r.duplicateVariable v idx idx = .ok r') :
    ∀ g ∈ (H v.name).head?, Compatible g.2 v := by
  intro g hg
  cases hH : H v.name with
  | nil => simp [hH] at hg
  | cons g' hs =>
    have hg' : g' = g := by simpa [hH] using hg
    subst hg'
    by_contra hcomp
    exact not_duplicateVariable hp hH hcomp r' h

theorem addHolder_of_ne {v w : FileVariable} {idx : Nat} (hne : w.name ≠ v.name) :
    addHolder H idx v w.name = H w.name :=
  Function.update_of_ne hne _ _

theorem Room.addHolder {v w : FileVariable} {idx : Nat} (h : Room H w idx)
    (hne : w.name ≠ v.name) : Room (addHolder H idx v) w idx where
  idx     := by rw [addHolder_of_ne hne]; exact h.idx
  pos     := h.pos
  pos'    := by rw [addHolder_of_ne hne]; exact h.pos'
  bounded := by rw [addHolder_of_ne hne]; exact h.bounded

-- What the variables of a file add.
theorem foldl_addHolder {vs : List FileVariable} {idx : Nat} (hnodup : (vs.map (·.name)).Nodup)
    (H : String → List Holder) (name : String) :
    vs.foldl (fun H v => addHolder H idx v) H name =
      H name ++ ((vs.find? (·.name = name)).map (idx, ·)).toList := by
  induction vs generalizing H with
  | nil => simp
  | cons v vs ih =>
    rw [List.map_cons, List.nodup_cons] at hnodup
    rw [List.foldl_cons, ih hnodup.right]
    rcases eq_or_ne v.name name with rfl | hne
    case inl =>
      have hnone : vs.find? (·.name = v.name) = none := by
        rw [List.find?_eq_none]
        intro w hw
        simp only [decide_eq_true_eq]
        exact fun heq => hnodup.left (heq ▸ List.mem_map_of_mem hw)
      simp [addHolder, hnone]
    case inr =>
      simp [addHolder, Function.update_of_ne hne.symm, hne]

theorem foldlM_compatible {vs : List FileVariable} {idx : Nat} (hp : Presents r H)
    (hmode : r.openMode = .readRandomAccess) (hnodup : (vs.map (·.name)).Nodup)
    (hroom : ∀ v ∈ vs, Room H v idx)
    (hcomp : ∀ v ∈ vs, ∀ g ∈ (H v.name).head?, Compatible g.2 v) :
    ∃ r', vs.foldlM (fun r v => r.duplicateVariable v idx idx) r = .ok r' ∧
      Presents r' (vs.foldl (fun H v => addHolder H idx v) H) ∧
      ∃ io infos, r' = { r with io, varInternalInfo := infos } := by
  induction vs generalizing r H with
  | nil => exact ⟨r, rfl, hp, _, _, rfl⟩
  | cons v vs ih =>
    rw [List.map_cons, List.nodup_cons] at hnodup
    have hne : ∀ w ∈ vs, w.name ≠ v.name := fun w hw heq =>
      hnodup.left (heq ▸ List.mem_map_of_mem hw)
    have ⟨r₁, hr₁, hp₁, io₁, infos₁, heq₁⟩ :=
      duplicateVariable_compatible hp hmode (hroom v List.mem_cons_self)
        (hcomp v List.mem_cons_self)
    have ⟨r₂, hr₂, hp₂, io₂, infos₂, heq₂⟩ := ih hp₁ (by rw [heq₁]; exact hmode) hnodup.right
      (fun w hw => (hroom w (List.mem_cons_of_mem _ hw)).addHolder (hne w hw))
      (fun w hw => by
        rw [addHolder_of_ne (hne w hw)]
        exact hcomp w (List.mem_cons_of_mem _ hw))
    refine ⟨r₂, ?_, hp₂, io₂, infos₂, by rw [heq₂, heq₁]⟩
    rw [List.foldlM_cons, hr₁, Outcome.ok_bind, hr₂]

theorem compatible_of_foldlM {vs : List FileVariable} {idx : Nat} {r' : TimeSeriesReader}
    (hp : Presents r H) (hmode : r.openMode = .readRandomAccess)
    (hnodup : (vs.map (·.name)).Nodup) (hroom : ∀ v ∈ vs, Room H v idx)
    (h : vs.foldlM (fun r v => r.duplicateVariable v idx idx) r = .ok r') :
    ∀ v ∈ vs, ∀ g ∈ (H v.name).head?, Compatible g.2 v := by
  induction vs generalizing r H with
  | nil => simp
  | cons v vs ih =>
    rw [List.map_cons, List.nodup_cons] at hnodup
    have hne : ∀ w ∈ vs, w.name ≠ v.name := fun w hw heq =>
      hnodup.left (heq ▸ List.mem_map_of_mem hw)
    obtain ⟨r₁, hr₁, h⟩ := Outcome.bind_eq_ok.mp ((List.foldlM_cons ..).symm.trans h)
    have hv := compatible_of_duplicateVariable hp hr₁
    have ⟨r₂, hr₂, hp₂, _, _, heq₂⟩ :=
      duplicateVariable_compatible hp hmode (hroom v List.mem_cons_self) hv
    have hr : r₁ = r₂ := Except.ok.inj (hr₁.symm.trans hr₂)
    subst hr
    intro w hw
    rcases List.mem_cons.mp hw with rfl | hw
    case inl => exact hv
    case inr =>
      have h := ih hp₂ (by rw [heq₂]; exact hmode) hnodup.right
        (fun w hw => (hroom w (List.mem_cons_of_mem _ hw)).addHolder (hne w hw)) h w hw
      rwa [addHolder_of_ne (hne w hw)] at h

end Presents

section Series

open TimeSeriesReader Presents

-- The files of a series as they are taken to be. A variable that a file has is in one of its steps,
-- and the number of steps is no more than a number of a step can be.
structure WellFormed (files : List File) : Prop where
  named   : ∀ f ∈ files, (f.vars.map (·.name)).Nodup
  occurs  : ∀ f ∈ files, ∀ v ∈ f.vars, 0 < v.stepsCount
  bounded : ∀ name, (occurrences (holders files name)).length < engineCurrentStep

-- Files in which what has one name is of one type and of one shape.
def Consistent (files : List File) : Prop :=
  ∀ name, ∀ g ∈ holders files name, ∀ h ∈ holders files name, Compatible g.2 h.2

-- The variables of a file that the reader makes its own.
def File.own (f : File) : List FileVariable := f.vars.filter fun v => HasReader v

theorem holders_concat (files : List File) (f : File) (name : String) :
    holders (files ++ [f]) name =
      holders files name ++ ((f.own.find? (·.name = name)).map (files.length, ·)).toList := by
  simp [holders, List.zipIdx_append, File.own]

theorem holders_append (files files' : List File) (name : String) :
    ∃ rest, holders (files ++ files') name = holders files name ++ rest := by
  rw [holders, List.zipIdx_append, List.flatMap_append]
  exact ⟨_, rfl⟩

theorem mem_holders_lt {files : List File} {name : String} {h : Holder}
    (hh : h ∈ holders files name) : h.1 < files.length := by
  simp only [holders, List.mem_flatMap, Option.mem_toList, Option.map_eq_some_iff] at hh
  obtain ⟨⟨f, i⟩, hf, v, _, rfl⟩ := hh
  exact List.snd_lt_of_mem_zipIdx hf |>.trans_le (by simp)

theorem length_holders_le (files : List File) (name : String) :
    (holders files name).length ≤ files.length := by
  induction files using List.reverseRecOn with
  | nil => simp [holders]
  | append_singleton files f ih =>
    rw [holders_concat, List.length_append, List.length_append, List.length_singleton]
    have : ((f.own.find? (·.name = name)).map (files.length, ·)).toList.length ≤ 1 := by
      cases f.own.find? (·.name = name) <;> simp
    omega

theorem length_occurrences (hs : List Holder) :
    (occurrences hs).length = (places Holder.stepsCount hs).length := by
  simp [occurrences]

-- A file in front of others does not have more than the whole.
theorem WellFormed.of_append {files files' : List File} (h : WellFormed (files ++ files')) :
    WellFormed files where
  named f hf   := h.named f (List.mem_append_left _ hf)
  occurs f hf  := h.occurs f (List.mem_append_left _ hf)
  bounded name := by
    have ⟨rest, heq⟩ := holders_append files files' name
    refine Nat.lt_of_le_of_lt ?_ (h.bounded name)
    simp [heq, length_occurrences]

theorem own_named {f : File} (h : (f.vars.map (·.name)).Nodup) : (f.own.map (·.name)).Nodup :=
  h.sublist (List.filter_sublist.map _)

theorem find?_own {f : File} (h : (f.vars.map (·.name)).Nodup) {v : FileVariable}
    (hv : v ∈ f.own) : f.own.find? (·.name = v.name) = some v := by
  have hnodup := own_named h
  cases hf : f.own.find? (·.name = v.name) with
  | none => simpa using List.find?_eq_none.mp hf v hv
  | some w =>
    have hname : w.name = v.name := by simpa using List.find?_some hf
    rw [List.inj_on_of_nodup_map hnodup (List.mem_of_find?_eq_some hf) hv hname]

theorem pos_of_mem_holders {files : List File} (h : WellFormed files) {name : String} {g : Holder}
    (hg : g ∈ holders files name) : 0 < Holder.stepsCount g := by
  simp only [holders, List.mem_flatMap, Option.mem_toList, Option.map_eq_some_iff] at hg
  obtain ⟨⟨f, i⟩, hf, v, hv, rfl⟩ := hg
  have hmem := List.mem_filter.mp (List.mem_of_find?_eq_some hv)
  exact h.occurs f (List.fst_mem_of_mem_zipIdx hf) v hmem.left

-- The reader after it has opened these files.
structure Opened (r : TimeSeriesReader) (files : List File) : Prop where
  mode       : r.openMode = .readRandomAccess
  presents   : Presents r (holders files)
  engines    : r.engines.length = files.length
  steps      : r.stepsCount = (files.map File.steps).sum
  selections : ∀ i f, files[i]? = some f → ∀ name v, f.vars.find? (·.name = name) = some v →
    r.selections i name = { start := v.start, count := v.count }

theorem room_of_wellFormed {files : List File} {f : File} (h : WellFormed (files ++ [f]))
    {v : FileVariable} (hv : v ∈ f.own) : Room (holders files) v files.length where
  idx     := length_holders_le files v.name
  pos     := h.occurs f (by simp) v (List.mem_filter.mp hv).left
  pos'    := fun _ hg => pos_of_mem_holders h.of_append hg
  bounded := by
    have hb := h.bounded v.name
    rw [holders_concat, find?_own (h.named f (by simp)) hv, length_occurrences,
      engineCurrentStep] at hb
    simp at hb
    omega

-- A file comes once among those that have a variable.
theorem nodup_holders (files : List File) (name : String) :
    ((holders files name).map (·.1)).Nodup := by
  induction files using List.reverseRecOn with
  | nil => simp [holders]
  | append_singleton files f ih =>
    rw [holders_concat, List.map_append]
    cases f.own.find? (·.name = name) with
    | none => simpa using ih
    | some v =>
      simp only [Option.map_some, Option.toList_some, List.map_cons, List.map_nil]
      rw [List.nodup_append]
      refine ⟨ih, by simp, ?_⟩
      intro i hi j hj heq
      have hj : j = files.length := by simpa using hj
      have ⟨h, hh, hi⟩ := List.mem_map.mp hi
      have := mem_holders_lt hh
      omega

section Opening

variable {r : TimeSeriesReader} {files : List File} {storage : TimeSeriesEntry → File}
  {tse : TimeSeriesEntry}

-- A variable of a file is added to where the files before it are.
theorem foldl_own {f : File} (hnodup : (f.vars.map (·.name)).Nodup) :
    f.own.foldl (fun H v => addHolder H files.length v) (holders files) =
      holders (files ++ [f]) := by
  funext name
  rw [foldl_addHolder (own_named hnodup), holders_concat]

-- The reader with one more engine, before it has seen the variables of the file.
def withEngine (r : TimeSeriesReader) (tse : TimeSeriesEntry) (f : File) (idx : Nat) :
    TimeSeriesReader :=
  { r with
    stepsCount := r.stepsCount + f.steps
    engines := r.engines ++ [{ entry := tse, file := f }]
    selections := fun i name =>
      if i = idx then
        match f.vars.find? (·.name = name) with
        | some v => { start := v.start, count := v.count }
        | none   => r.selections i name
      else
        r.selections i name }

theorem Opened.initFile_eq (ho : Opened r files) :
    r.initFile storage tse true =
      (storage tse).own.foldlM (fun r v => r.duplicateVariable v files.length files.length)
        (withEngine r tse (storage tse) files.length) := by
  have hlen : (r.engines ++ [({ entry := tse, file := storage tse } : Engine)]).length - 1 =
      files.length := by simp [ho.engines]
  simp only [TimeSeriesReader.initFile, processIO, if_true, hlen]
  rfl

theorem Opened.withEngine (ho : Opened r files) (tse : TimeSeriesEntry) (f : File) :
    Presents (withEngine r tse f files.length) (holders files) :=
  have hp := ho.presents
  ⟨hp.named, hp.info, hp.io, hp.compatible⟩

theorem Opened.withEngine_selections (ho : Opened r files) (tse : TimeSeriesEntry) (f : File) :
    ∀ i g, (files ++ [f])[i]? = some g → ∀ name v, g.vars.find? (·.name = name) = some v →
      (TimeSeries.withEngine r tse f files.length).selections i name =
        { start := v.start, count := v.count } := by
  intro i g hi name v hv
  simp only [TimeSeries.withEngine]
  rcases Nat.lt_trichotomy i files.length with h | rfl | h
  case inl =>
    rw [List.getElem?_append_left h] at hi
    simp [Nat.ne_of_lt h, ho.selections i g hi name v hv]
  case inr.inl =>
    have hfg : f = g := by simpa using hi
    subst hfg
    simp [hv]
  case inr.inr =>
    rw [List.getElem?_eq_none (by simpa using h)] at hi
    exact absurd hi (by simp)

-- Another file can be opened where its variables fit to those of the files before it.
theorem Opened.initFile (ho : Opened r files) (hw : WellFormed (files ++ [storage tse]))
    (hcomp : ∀ v ∈ (storage tse).own, ∀ g ∈ (holders files v.name).head?, Compatible g.2 v) :
    ∃ r', r.initFile storage tse true = .ok r' ∧ Opened r' (files ++ [storage tse]) := by
  have hnodup := hw.named (storage tse) (by simp)
  have ⟨r', hr', hp', _, _, heq⟩ := foldlM_compatible (ho.withEngine tse (storage tse)) ho.mode
    (own_named hnodup) (fun v hv => room_of_wellFormed hw hv) hcomp
  rw [foldl_own hnodup] at hp'
  refine ⟨r', ho.initFile_eq.trans hr', ?mode, hp', ?engines, ?steps, ?selections⟩
  case mode => rw [heq]; exact ho.mode
  case engines => rw [heq]; simp [TimeSeries.withEngine, ho.engines]
  case steps => rw [heq]; simp [TimeSeries.withEngine, ho.steps]
  case selections => rw [heq]; exact ho.withEngine_selections tse (storage tse)

theorem Opened.compatible_of_initFile (ho : Opened r files)
    (hw : WellFormed (files ++ [storage tse])) {r' : TimeSeriesReader}
    (h : r.initFile storage tse true = .ok r') :
    ∀ v ∈ (storage tse).own, ∀ g ∈ (holders files v.name).head?, Compatible g.2 v :=
  compatible_of_foldlM (ho.withEngine tse (storage tse)) ho.mode
    (own_named (hw.named (storage tse) (by simp))) (fun v hv => room_of_wellFormed hw hv)
    (ho.initFile_eq.symm.trans h)

-- A series that is opened has consistent files.
theorem Opened.consistent (ho : Opened r files) : Consistent files := by
  intro name g hg h hh
  cases hH : holders files name with
  | nil => simp [hH] at hg
  | cons g₀ hs =>
    have hg₀ : g₀ ∈ (holders files name).head? := by simp [hH]
    have hcg := ho.presents.compatible name g hg g₀ hg₀
    have hch := ho.presents.compatible name h hh g₀ hg₀
    exact ⟨hcg.type.symm.trans hch.type, hcg.shapeID.symm.trans hch.shapeID,
      hcg.dims.symm.trans hch.dims⟩

theorem Consistent.of_append {files' : List File} (h : Consistent (files ++ files')) :
    Consistent files := by
  intro name g hg k hk
  have ⟨_, heq⟩ := holders_append files files' name
  exact h name g (by simp [heq, hg]) k (by simp [heq, hk])

theorem mem_holders_concat {f : File} (hnodup : (f.vars.map (·.name)).Nodup) {v : FileVariable}
    (hv : v ∈ f.own) : (files.length, v) ∈ holders (files ++ [f]) v.name := by
  simp [holders_concat, find?_own hnodup hv]

variable (storage) in
-- Files can be opened one after the other just where they are consistent.
theorem Opened.foldlM_initFile (ho : Opened r files) (tses : List TimeSeriesEntry)
    (hw : WellFormed (files ++ tses.map storage)) :
    (Consistent (files ++ tses.map storage) →
      ∃ r', tses.foldlM (fun r tse => r.initFile storage tse true) r = .ok r') ∧
    ∀ r', tses.foldlM (fun r tse => r.initFile storage tse true) r = .ok r' →
      Opened r' (files ++ tses.map storage) := by
  induction tses generalizing r files with
  | nil =>
    refine ⟨fun _ => ⟨r, rfl⟩, fun r' h => ?_⟩
    have hr : r = r' := Except.ok.inj h
    simpa [← hr] using ho
  | cons tse tses ih =>
    have happ : files ++ (tse :: tses).map storage =
        (files ++ [storage tse]) ++ tses.map storage := by simp
    rw [happ] at hw ⊢
    constructor
    case left =>
      intro hc
      have hcomp : ∀ v ∈ (storage tse).own, ∀ g ∈ (holders files v.name).head?,
          Compatible g.2 v := by
        intro v hv g hg
        have ⟨_, heq⟩ := holders_append files [storage tse] v.name
        exact hc.of_append v.name g (by simp [heq, List.mem_of_mem_head? hg]) _
          (mem_holders_concat (hw.of_append.named _ (by simp)) hv)
      have ⟨r₁, hr₁, ho₁⟩ := ho.initFile hw.of_append hcomp
      have ⟨r', hr'⟩ := (ih ho₁ hw).left hc
      exact ⟨r', by rw [List.foldlM_cons, hr₁, Outcome.ok_bind, hr']⟩
    case right =>
      intro r' h
      obtain ⟨r₁, hr₁, h⟩ := Outcome.bind_eq_ok.mp ((List.foldlM_cons ..).symm.trans h)
      have ⟨r₂, hr₂, ho₂⟩ := ho.initFile hw.of_append
        (ho.compatible_of_initFile hw.of_append hr₁)
      have hr : r₁ = r₂ := Except.ok.inj (hr₁.symm.trans hr₂)
      subst hr
      exact (ih ho₂ hw).right r' h

end Opening

end Series

section Lists

theorem Named.tail {node : YamlNode} {nodes : List YamlNode} (h : Named (node :: nodes)) :
    Named nodes :=
  fun n hn => h n (List.mem_cons_of_mem _ hn)

theorem entries_cons {node : YamlNode} {tse : TimeSeriesEntry} (h : node.entry = .ok tse)
    (nodes : List YamlNode) : entries (node :: nodes) = tse :: entries nodes := by
  simp [entries, h, Except.toOption]

-- The list is read from its begin, whatever was read of it before.
theorem parseTimeSeriesFile_eq {document : List YamlNode} (hd : Named document)
    {tsl : TimeSeriesList} {nEntry : Int} (hle : tsl.lastUsedEntry ≤ nEntry) :
    parseTimeSeriesFile tsl nEntry document =
      ({ tsl with
        entries := tsl.entries ++ listed document
        ended := tsl.ended || closed document }, .ok ()) := by
  induction document generalizing tsl nEntry with
  | nil => simp [parseTimeSeriesFile, listed, closed, entries]
  | cons node nodes ih =>
    have ⟨tse, htse⟩ := hd node List.mem_cons_self
    rw [parseTimeSeriesFile, if_neg (by omega), htse]
    simp only [listed, closed, entries_cons htse]
    by_cases hend : tse.localpath = "end"
    case pos => simp [hend]
    case neg =>
      rw [if_neg hend, ih hd.tail (by simp only; omega)]
      simp [hend, listed, closed]

theorem checkForFiles_eq {document : List YamlNode} (hd : Named document) {tsl : TimeSeriesList}
    (hle : tsl.lastUsedEntry ≤ 0) (hended : tsl.ended = false) :
    checkForFiles document tsl =
      ({ tsl with
        entries := tsl.entries ++ listed document
        ended := closed document }, true) := by
  simp [checkForFiles, hended, parseTimeSeriesFile_eq hd hle]

theorem initTransports_readRandomAccess {document : List YamlNode} (hd : Named document)
    (storage : TimeSeriesEntry → File) :
    initTransports storage document .readRandomAccess =
      ((listed document).foldlM
        (fun (r : TimeSeriesReader) tse => r.initFile storage tse true)
        ({
          openMode := .readRandomAccess
          timeSeriesList := { entries := listed document, ended := closed document }
        } : TimeSeriesReader)) >>= fun r =>
      .ok { r with
        timeSeriesList := {
          lastUsedEntry := -1 + (listed document).length
          ended := true
          entries := []
        }
      } := by
  rw [initTransports, checkForFiles_eq hd (by decide) rfl]
  simp

end Lists

section Opening

variable {storage : TimeSeriesEntry → File} {document : List YamlNode}

theorem opened_nil (tsl : TimeSeriesList) :
    Opened { openMode := .readRandomAccess, timeSeriesList := tsl } [] where
  mode       := rfl
  presents   := {
    named      := by simp [holders]
    info       := fun _ => rfl
    io         := fun _ _ => rfl
    compatible := by simp [holders]
  }
  engines    := rfl
  steps      := rfl
  selections := by simp

-- A series can be opened just where its files are consistent, and then it has all of them.
theorem initTransports_spec (hd : Named document)
    (hw : WellFormed ((listed document).map storage)) :
    (Consistent ((listed document).map storage) →
      ∃ r, initTransports storage document .readRandomAccess = .ok r) ∧
    ∀ r, initTransports storage document .readRandomAccess = .ok r →
      Opened r ((listed document).map storage) := by
  have hspec := (opened_nil { entries := listed document, ended := closed document })
    |>.foldlM_initFile storage (listed document) (by simpa using hw)
  rw [List.nil_append] at hspec
  rw [initTransports_readRandomAccess hd]
  constructor
  case left =>
    intro hc
    have ⟨r, hr⟩ := hspec.left hc
    exact ⟨_, by rw [hr, Outcome.ok_bind]⟩
  case right =>
    intro r h
    obtain ⟨r₁, hr₁, h⟩ := Outcome.bind_eq_ok.mp h
    have ho := hspec.right r₁ hr₁
    have hr : _ = r := Except.ok.inj h
    have hp := ho.presents
    rw [← hr]
    exact ⟨ho.mode, ⟨hp.named, hp.info, hp.io, hp.compatible⟩, ho.engines, ho.steps,
      ho.selections⟩

end Opening

end TimeSeries
