import Adios2.Format.BP5.Theorems.FieldControl

-- Whatever variables a writer has, the reader's records say of them what the writer's variables are.

namespace BP5

open Bytes CString

-- A control and its record are of the variable.
def ControlsVariable (ffs : FFSContext) (d : Deserializer) (v : VariableBase)
    (c : ControlStruct) : Prop :=
  c.origShapeID = v.shapeID ∧ ∃ r, d.varRecs[c.varNum]? = some r ∧ Describes ffs v r

-- Records stand where they stood and say what they said.
def Deserializer.Keeps (d d' : Deserializer) : Prop :=
  ∀ (i : Nat) (r : VarRec), d.varRecs[i]? = some r → ∃ r', d'.varRecs[i]? = some r' ∧ r.Similar r'

variable {ffs : FFSContext} {statsLevel : Nat}

theorem VarRec.Similar.trans {r₁ r₂ r₃ : VarRec} (h : r₁.Similar r₂) (h' : r₂.Similar r₃) :
    r₁.Similar r₃ :=
  ⟨h'.1.trans h.1, h'.2.trans h.2, h'.3.trans h.3, h'.4.trans h.4, h'.5.trans h.5, h'.6.trans h.6,
    h'.7.trans h.7, h'.8.trans h.8, h'.9.trans h.9⟩

theorem Deserializer.Keeps.trans {d₁ d₂ d₃ : Deserializer} (h : d₁.Keeps d₂) (h' : d₂.Keeps d₃) :
    d₁.Keeps d₃ := by
  intro i r hi
  have ⟨r₂, hi₂, hs₂⟩ := h i r hi
  have ⟨r₃, hi₃, hs₃⟩ := h' i r₂ hi₂
  exact ⟨r₃, hi₃, hs₂.trans hs₃⟩

-- What the loop over the fields of some variables gets to.
structure FieldsEntered (ffs : FFSContext) (vars : List VariableBase) (s s' : ControlState)
    (controls : List ControlStruct) : Prop where
  info     : s'.info.controls = s.info.controls ++ controls
  format   : s'.info.format = s.info.format
  controls : List.Forall₂ (ControlsVariable ffs s'.deserializer) vars controls
  numbered : s'.deserializer.Numbered
  keeps    : s.deserializer.Keeps s'.deserializer
  agrees   : ∀ w, s.deserializer.Agrees ffs w →
    (w.name.chars ∈ vars.map (·.name.chars) → w ∈ vars) → s'.deserializer.Agrees ffs w

theorem buildControlFields_eq {vars : List VariableBase} {fields : List FMField}
    (hvars : ∀ v ∈ vars, v.Encodable) (hstruct : ∀ v ∈ vars, HasStructDefinition ffs v)
    (hnames : (vars.map (·.name.chars)).Nodup)
    (hfields : List.Forall₂ (IsFieldOf statsLevel) vars fields) {s : ControlState}
    (hd : s.deserializer.Numbered) (ha : ∀ v ∈ vars, s.deserializer.Agrees ffs v) :
    ∃ s' controls, buildControlFields ffs fields 0 s = .ok s' ∧
      FieldsEntered ffs vars s s' controls := by
  induction hfields generalizing s with
  | nil =>
    refine ⟨s, [], rfl, by simp, rfl, .nil, hd, fun i r hi => ⟨r, hi, .rfl⟩, fun w hw _ => hw⟩
  | @cons v f vars fields hf hfields ih =>
    rw [List.map_cons, List.nodup_cons] at hnames
    have ⟨hne, hnodup⟩ := hnames
    have hv := List.mem_cons_self (a := v) (l := vars)
    have ⟨s₁, c, hfield, hcontrols₁, hformat₁, horig, he⟩ :=
      buildControlField_eq (hvars v hv) hf (hstruct v hv) hd (ha v hv) fields
    have hother (w : VariableBase) (hw : w ∈ vars) : w.name.chars ≠ v.name.chars := fun e =>
      hne (e ▸ List.mem_map_of_mem hw)
    have hkeeps₁ : s.deserializer.Keeps s₁.deserializer := fun i r hi => he.kept hi
    have ⟨s₂, controls, hrest, h₂⟩ := ih (fun w hw => hvars w (.tail _ hw))
      (fun w hw => hstruct w (.tail _ hw)) hnodup (he.numbered hd)
      fun w hw => he.agrees (ha w (.tail _ hw)) (hother w hw)
    refine ⟨s₂, c :: controls, ?_, ?_, h₂.format.trans hformat₁, ?_, h₂.numbered,
      hkeeps₁.trans h₂.keeps, ?_⟩
    case refine_1 =>
      rw [buildControlFields, hfield]
      exact hrest
    case refine_2 => rw [h₂.info, hcontrols₁, List.append_assoc, List.singleton_append]
    case refine_3 =>
      have ⟨r, hr, hdesc⟩ := he.describes
      have ⟨r₂, hr₂, hs₂⟩ := h₂.keeps c.varNum r hr
      exact .cons ⟨horig, r₂, hr₂, hdesc.similar hs₂⟩ h₂.controls
    case refine_4 =>
      intro w hw hmem
      apply h₂.agrees w
      case a =>
        by_cases hn : w.name.chars = v.name.chars
        case pos =>
          have hwv : w = v ∨ w ∈ vars := List.mem_cons.mp (hmem (by simp [hn]))
          cases hwv with
          | inl e => exact e ▸ he.agrees_self (e ▸ hw)
          | inr hin => exact absurd hn (hother w hin)
        case neg => exact he.agrees hw hn
      case a =>
        intro hin
        cases List.mem_cons.mp (hmem (List.mem_cons_of_mem _ hin)) with
        | inl e => exact absurd (e ▸ hin) hne
        | inr hw => exact hw

theorem skipDataBlockSize_eq {fields : List FMField}
    (h : ∀ f ∈ fields, ∃ shape rest, f.name = namePrefix shape ++ rest) :
    skipDataBlockSize fields = fields := by
  cases fields with
  | nil => rfl
  | cons f fields =>
    have ⟨shape, rest, hname⟩ := h f List.mem_cons_self
    apply List.dropWhile_cons_of_neg
    rw [hname]
    cases shape <;> simp [namePrefix, ascii]

-- The fields that every format starts with are not taken for variables.
theorem skip_base {b₁ b₂ b₃ : FMField} {fields : List FMField}
    (h₁ : b₁.name = ascii "BitFieldCount") (h₂ : b₂.name = ascii "BitField")
    (h₃ : b₃.name = ascii "DataBlockSize")
    (hfields : ∀ f ∈ fields, ∃ shape rest, f.name = namePrefix shape ++ rest) :
    skipBitField (b₁ :: b₂ :: b₃ :: fields) = .ok (b₃ :: fields) ∧
      skipDataBlockSize (b₃ :: fields) = fields := by
  constructor
  case left =>
    simp only [skipBitField, h₁, h₂, h₃]
    rfl
  case right =>
    rw [skipDataBlockSize, List.dropWhile_cons_of_pos (by rw [h₃]; decide)]
    exact skipDataBlockSize_eq hfields

theorem fieldName_prefix (v : VariableBase) : ∃ shape rest, fieldName v = namePrefix shape ++ rest := by
  unfold fieldName
  split
  case isTrue => exact ⟨_, _, rfl⟩
  case isFalse => exact ⟨_, _, rfl⟩

theorem init_eq : ∃ b₁ b₂ b₃ : FMField,
    FFSWriterMarshalBase.init =
      .ok { recCount := 0, metaFields := [b₁, b₂, b₃], recNameMap := [] } ∧
    b₁.name = ascii "BitFieldCount" ∧ b₂.name = ascii "BitField" ∧
    b₃.name = ascii "DataBlockSize" :=
  ⟨_, _, _, rfl, rfl, rfl, rfl⟩

theorem isFieldOf_localized {vars : List VariableBase} {fields native : List FMField}
    (hfields : List.Forall₂ (IsFieldOf statsLevel) vars fields)
    (hnative : List.Forall₂ FMField.SameDescription fields native) :
    List.Forall₂ (IsFieldOf statsLevel) vars native := by
  induction hfields generalizing native with
  | nil =>
    cases hnative
    exact .nil
  | cons hf _ ih =>
    cases hnative with
    | cons hg hrest => exact .cons (hf.sameDescription hg) (ih hrest)

theorem fieldNames_startWith {vars : List VariableBase} {fields : List FMField}
    (h : List.Forall₂ (IsFieldOf statsLevel) vars fields) :
    ∀ f ∈ fields, ∃ shape rest, f.name = namePrefix shape ++ rest := by
  induction h with
  | nil => simp
  | @cons v _ _ _ hf _ ih => exact List.forall_mem_cons.mpr ⟨hf.name ▸ fieldName_prefix v, ih⟩

theorem lookup_of_agrees {d : Deserializer} {v : VariableBase} {c : ControlStruct}
    (h : ControlsVariable ffs d v c) (ha : d.Agrees ffs v) :
    ∃ r, lookupVarByName d v.name.chars = some r ∧ Describes ffs v r := by
  have ⟨_, r, hr, hdesc⟩ := h
  cases hl : lookupVarByName d v.name.chars with
  | none => exact absurd hdesc.varName (lookupVarByName_none hl r (List.mem_of_getElem? hr))
  | some known =>
    have ⟨hmem, hname⟩ := lookupVarByName_known hl
    exact ⟨known, rfl, ha known hmem hname⟩

-- The records the reader makes of the fields say of every variable what it is, whatever the reader
-- knew before, as long as that is not wrong already.
theorem fieldNames_roundTrip (ffs : FFSContext)
    (hffs : ∀ fields, List.Forall₂ FMField.SameDescription fields (ffs.localize fields))
    (statsLevel : Nat) (vars : List VariableBase) (hvars : ∀ v ∈ vars, v.Encodable)
    (hstruct : ∀ v ∈ vars, HasStructDefinition ffs v) (hnames : (vars.map (·.name.chars)).Nodup)
    (formatName : List Byte) (d : Deserializer) (hd : d.Numbered)
    (ha : ∀ v ∈ vars, d.Agrees ffs v) :
    ∃ info control d', createWriterRecs statsLevel vars = .ok info ∧
      buildControl ffs { name := formatName, fieldList := info.metaFields } d = .ok (control, d') ∧
      List.Forall₂ (ControlsVariable ffs d') vars control.controls ∧ d'.Numbered ∧
      ∀ v ∈ vars, ∃ r, lookupVarByName d' v.name.chars = some r ∧ Describes ffs v r := by
  have ⟨b₁, b₂, b₃, hinit, hb₁, hb₂, hb₃⟩ := init_eq
  have ⟨info, fields, hrecs, hmeta, hall⟩ := createWriterRecs_eq statsLevel hvars
    { recCount := 0, metaFields := [b₁, b₂, b₃], recNameMap := [] }
  -- the native copies of the fields
  have hlocal := hffs info.metaFields
  rw [hmeta] at hlocal
  generalize hl : ffs.localize ([b₁, b₂, b₃] ++ fields) = native at hlocal
  cases hlocal with | @cons _ c₁ _ _ hc₁ hlocal =>
  cases hlocal with | @cons _ c₂ _ _ hc₂ hlocal =>
  cases hlocal with | @cons _ c₃ _ native hc₃ hlocal =>
  have hnative := isFieldOf_localized hall hlocal
  have ⟨hskip, hskipped⟩ := skip_base (hc₁.name.trans hb₁) (hc₂.name.trans hb₂)
    (hc₃.name.trans hb₃) (fieldNames_startWith hnative)
  have ⟨s, controls, hrun, h⟩ := buildControlFields_eq (s := {
    deserializer := d
    info := { format := { name := formatName, fieldList := info.metaFields }, controls := []
              metaFieldOffset := [], varIndex := [] } }) hvars hstruct hnames hnative hd ha
  have hcontrols : s.info.controls = controls := h.info.trans (List.nil_append _)
  have hagrees : ∀ v ∈ vars, s.deserializer.Agrees ffs v := fun v hv =>
    h.agrees v (ha v hv) fun _ => hv
  refine ⟨info, s.info, { s.deserializer with
    controlBlocks := s.info :: s.deserializer.controlBlocks }, ?_, ?_, ?_, h.numbered, ?_⟩
  case refine_1 =>
    rw [createWriterRecs, hinit]
    exact hrecs
  case refine_2 =>
    simp only [buildControl, hmeta, hl, hskip, Outcome.ok_bind, hskipped]
    rw [hmeta] at hrun
    rw [hrun]
    rfl
  case refine_3 => exact hcontrols ▸ h.controls
  case refine_4 =>
    intro v hv
    obtain ⟨i, hi, hvi⟩ := List.getElem_of_mem hv
    have hc := h.controls.get hi (h.controls.length_eq ▸ hi)
    rw [List.get_eq_getElem, hvi] at hc
    exact lookup_of_agrees hc (hagrees v hv)

def Deserializer.fresh : Deserializer where
  randomAccessMode        := true
  currentWriterCohortSize := 0
  varRecs                 := []
  controlBlocks           := []

namespace Samples

-- A single value, a derived array and an array of structs.
def count : VariableBase where
  name       := ⟨ascii "n_-+1", by decide⟩
  shapeID    := .globalValue
  type       := .int32
  elemSize   := 4
  dimCount   := 0
  operations := []
  serverID   := []
  derived    := none

def magnitude : VariableBase where
  name       := ⟨ascii "mag", by decide⟩
  shapeID    := .localArray
  type       := .double
  elemSize   := 8
  dimCount   := 2
  operations := [⟨ascii "blosc", by decide⟩]
  serverID   := []
  derived    := some { derivedType := .statsOnly, exprString := ⟨ascii "x-_y", by decide⟩ }

def particles : VariableBase where
  name       := ⟨ascii "particles", by decide⟩
  shapeID    := .globalArray
  type       := .struct
  elemSize   := 8
  dimCount   := 1
  operations := []
  serverID   := [0, 95, 255]
  derived    := none

def particleFormat : FMFormat where
  name      := ascii "particle"
  fieldList := [{ name := ascii "id", type := ascii "integer[2]", size := 4, offset := 0 }]

def nativeContext : FFSContext where
  localize     := id
  formatFromID := fun id => if id = [0, 95, 255] then some particleFormat else none

def letter : VariableBase where
  name       := ⟨ascii "c", by decide⟩
  shapeID    := .globalValue
  type       := .char
  elemSize   := 1
  dimCount   := 0
  operations := []
  serverID   := []
  derived    := none

end Samples

open Samples in
theorem fieldNames_roundTrip_samples :
    ∃ info control d', createWriterRecs 1 [count, magnitude, particles] = .ok info ∧
      buildControl nativeContext { name := ascii "MetaData", fieldList := info.metaFields } .fresh =
        .ok (control, d') ∧
      List.Forall₂ (ControlsVariable nativeContext d') [count, magnitude, particles] control.controls ∧
      d'.Numbered ∧ ∀ v ∈ [count, magnitude, particles],
        ∃ r, lookupVarByName d' v.name.chars = some r ∧ Describes nativeContext v r := by
  apply fieldNames_roundTrip nativeContext _ 1
  case hvars =>
    simp only [List.forall_mem_cons, List.not_mem_nil, false_implies, implies_true, and_true]
    exact ⟨⟨by decide, by decide, by decide, by decide, fun h => absurd rfl h⟩,
      ⟨by decide, by decide, by decide, by decide, fun _ => ⟨by decide, by decide⟩⟩,
      ⟨by decide, by decide, by decide, by decide, fun _ => trivial⟩⟩
  case hstruct =>
    simp only [List.forall_mem_cons, List.not_mem_nil, false_implies, implies_true, and_true]
    exact ⟨fun h => absurd h (by decide), fun h => absurd h (by decide),
      fun _ => ⟨particleFormat, _, rfl, rfl⟩⟩
  case hnames => decide
  case hd => exact fun _ _ h => by cases h
  case ha => exact fun _ _ _ h => by cases h
  intro fields
  induction fields with
  | nil => exact .nil
  | cons f _ ih => exact .cons ⟨rfl, rfl, rfl⟩ ih

-- Which operator an array has is not in its field, and a single character comes back as a number of
-- one byte.
open Samples in
theorem fieldNames_lose_operator_and_char :
    ∃ info control d' m c, createWriterRecs 1 [magnitude, letter] = .ok info ∧
      buildControl nativeContext { name := ascii "MetaData", fieldList := info.metaFields } .fresh =
        .ok (control, d') ∧
      lookupVarByName d' magnitude.name.chars = some m ∧
      m.operator ≠ magnitude.operations.head?.map (·.chars) ∧
      lookupVarByName d' letter.name.chars = some c ∧ c.type ≠ letter.type.toNat := by
  refine ⟨_, _, _, _, _, rfl, rfl, rfl, ?_, rfl, ?_⟩ <;> decide

end BP5
