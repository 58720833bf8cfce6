import Adios2.Format.BP5.Theorems.FieldNames

-- BuildControl enters a record for every variable of a format, from the variable's field alone.

namespace BP5

open Bytes CString

-- What a record of the reader says of a variable. Of an operator it says that there is one: which
-- one it is stands in front of the data.
structure Describes (ffs : FFSContext) (v : VariableBase) (r : VarRec) : Prop where
  varName     : r.varName = v.name.chars
  origShapeID : r.origShapeID = v.shapeID
  type        : r.type = v.type.toNat
  elementSize : r.elementSize = v.storedElemSize
  operator    : r.operator =
    if v.dimCount ≠ 0 ∧ v.operations ≠ [] then some (ascii "null") else none
  structDef   : (if v.type = .struct then ffs.formatFromID v.serverID else none).mapM
    (structDefinition · v.storedElemSize) = .ok r.structDef
  derived     : r.derived = decide (v.dimCount ≠ 0 ∧ (exprString v).isSome)
  exprStr     : r.exprStr = if v.dimCount = 0 then none else v.exprText.map (· ++ [0])

-- The format library knows the format of a struct variable, and its fields make a definition.
def HasStructDefinition (ffs : FFSContext) (v : VariableBase) : Prop :=
  v.type = .struct → ∃ format structDef, ffs.formatFromID v.serverID = some format ∧
    structDefinition format v.storedElemSize = .ok structDef

-- The number of a record is its place.
def Deserializer.Numbered (d : Deserializer) : Prop :=
  ∀ (i : Nat) (r : VarRec), d.varRecs[i]? = some r → r.varNum = i

-- All that the reader knows by the name of a variable describes it.
def Deserializer.Agrees (ffs : FFSContext) (d : Deserializer) (v : VariableBase) : Prop :=
  ∀ r ∈ d.varRecs, r.varName = v.name.chars → Describes ffs v r

-- Records that tell apart nothing but where the MinMax data is.
structure VarRec.Similar (r r' : VarRec) : Prop where
  varNum      : r'.varNum = r.varNum
  varName     : r'.varName = r.varName
  origShapeID : r'.origShapeID = r.origShapeID
  type        : r'.type = r.type
  elementSize : r'.elementSize = r.elementSize
  operator    : r'.operator = r.operator
  structDef   : r'.structDef = r.structDef
  derived     : r'.derived = r.derived
  exprStr     : r'.exprStr = r.exprStr

theorem VarRec.Similar.rfl {r : VarRec} : r.Similar r :=
  ⟨Eq.refl _, Eq.refl _, Eq.refl _, Eq.refl _, Eq.refl _, Eq.refl _, Eq.refl _, Eq.refl _,
    Eq.refl _⟩

theorem Describes.similar {ffs : FFSContext} {v : VariableBase} {r r' : VarRec}
    (h : Describes ffs v r) (hs : r.Similar r') : Describes ffs v r' where
  varName     := hs.varName.trans h.varName
  origShapeID := hs.origShapeID.trans h.origShapeID
  type        := hs.type.trans h.type
  elementSize := hs.elementSize.trans h.elementSize
  operator    := hs.operator.trans h.operator
  structDef   := hs.structDef ▸ h.structDef
  derived     := hs.derived.trans h.derived
  exprStr     := hs.exprStr.trans h.exprStr

-- What one field does to the records: the variable is known, and its record stays what it says, or
-- it gets a record.
inductive Entered (ffs : FFSContext) (v : VariableBase) (d d' : Deserializer) (n : Nat) : Prop
  | known (r : VarRec) (g : VarRec → VarRec) (hr : d.varRecs[n]? = some r)
      (hd : Describes ffs v r) (hs : r.Similar (g r)) (e : d' = updateVarRec d n g)
  | new (r : VarRec) (hd : Describes ffs v r) (hn : r.varNum = n) (hl : n = d.varRecs.length)
      (e : d' = { d with varRecs := d.varRecs ++ [r] })

namespace Entered

variable {ffs : FFSContext} {v : VariableBase} {d d' : Deserializer} {n : Nat}

-- The record of the variable.
theorem describes (h : Entered ffs v d d' n) : ∃ r, d'.varRecs[n]? = some r ∧ Describes ffs v r := by
  cases h with
  | known r g hr hd hs e =>
    refine ⟨g r, ?_, hd.similar hs⟩
    simp [e, updateVarRec, hr]
  | new r hd hn hl e =>
    refine ⟨r, ?_, hd⟩
    rw [e, hl]
    exact List.getElem?_concat_length

theorem modify_similar {r : VarRec} {g : VarRec → VarRec} (hr : d.varRecs[n]? = some r)
    (hs : r.Similar (g r)) (i : Nat) :
    (∀ r₁, d.varRecs[i]? = some r₁ → ∃ r₂, (d.varRecs.modify n g)[i]? = some r₂ ∧ r₁.Similar r₂) ∧
    ∀ r₂, (d.varRecs.modify n g)[i]? = some r₂ → ∃ r₁, d.varRecs[i]? = some r₁ ∧ r₁.Similar r₂ := by
  rw [List.getElem?_modify]
  by_cases hi : n = i
  case pos =>
    subst hi
    simp only [hr, if_true, Option.map_eq_map, Option.map_some, Option.some.injEq]
    exact ⟨fun r₁ e => ⟨g r, rfl, e ▸ hs⟩, fun r₂ e => ⟨r, rfl, e ▸ hs⟩⟩
  case neg =>
    simp only [if_neg hi, Option.map_eq_map, Option.map_id']
    exact ⟨fun r₁ e => ⟨r₁, e, .rfl⟩, fun r₂ e => ⟨r₂, e, .rfl⟩⟩

-- A record that stands keeps its place and what it says.
theorem kept (h : Entered ffs v d d' n) {i : Nat} {r₁ : VarRec} (hi : d.varRecs[i]? = some r₁) :
    ∃ r₂, d'.varRecs[i]? = some r₂ ∧ r₁.Similar r₂ := by
  cases h with
  | known r g hr hd hs e => exact e ▸ (modify_similar hr hs i).left r₁ hi
  | new r hd hn hl e =>
    refine ⟨r₁, ?_, .rfl⟩
    have hlt := (List.getElem?_eq_some_iff.mp hi).1
    rw [e, List.getElem?_append_left hlt, hi]

-- A record is an earlier one, or it is of the variable.
theorem origin (h : Entered ffs v d d' n) {i : Nat} {r₂ : VarRec} (hi : d'.varRecs[i]? = some r₂) :
    (∃ r₁, d.varRecs[i]? = some r₁ ∧ r₁.Similar r₂) ∨ (Describes ffs v r₂ ∧ r₂.varNum = i) := by
  cases h with
  | known r g hr hd hs e =>
    subst e
    exact .inl ((modify_similar hr hs i).right r₂ hi)
  | new r hd hn hl e =>
    rw [e] at hi
    by_cases hlt : i < d.varRecs.length
    case pos =>
      rw [List.getElem?_append_left hlt] at hi
      exact .inl ⟨r₂, hi, .rfl⟩
    case neg =>
      rw [List.getElem?_append_right (by omega), List.getElem?_singleton] at hi
      split at hi
      case isTrue h0 =>
        cases hi
        exact .inr ⟨hd, by omega⟩
      case isFalse => cases hi

theorem numbered (h : Entered ffs v d d' n) (hd : d.Numbered) : d'.Numbered := by
  intro i r₂ hi
  cases h.origin hi with
  | inl h₁ =>
    obtain ⟨r₁, hr₁, hs⟩ := h₁
    exact hs.varNum.trans (hd i r₁ hr₁)
  | inr h₂ => exact h₂.right

theorem agrees (h : Entered ffs v d d' n) {w : VariableBase} (hw : d.Agrees ffs w)
    (hne : w.name.chars ≠ v.name.chars) : d'.Agrees ffs w := by
  intro r₂ hr₂ hname
  obtain ⟨i, hi⟩ := List.mem_iff_getElem?.mp hr₂
  cases h.origin hi with
  | inl h₁ =>
    obtain ⟨r₁, hr₁, hs⟩ := h₁
    exact (hw r₁ (List.mem_of_getElem? hr₁) (hs.varName.symm.trans hname)).similar hs
  | inr h₂ => exact absurd (hname.symm.trans h₂.left.varName) hne

theorem agrees_self (h : Entered ffs v d d' n) (hv : d.Agrees ffs v) : d'.Agrees ffs v := by
  intro r₂ hr₂ hname
  obtain ⟨i, hi⟩ := List.mem_iff_getElem?.mp hr₂
  cases h.origin hi with
  | inl h₁ =>
    obtain ⟨r₁, hr₁, hs⟩ := h₁
    exact (hv r₁ (List.mem_of_getElem? hr₁) (hs.varName.symm.trans hname)).similar hs
  | inr h₂ => exact h₂.left

end Entered

theorem charAt_fieldType (statsLevel : Nat) {v : VariableBase} (h : v.dimCount ≠ 0) :
    charAt (fieldType statsLevel v) 0 = .ok 77 := by
  have harray (suffix : List Byte) : charAt (arrayTypeName v ++ suffix) 0 = .ok 77 := by
    unfold arrayTypeName
    split <;> rfl
  rw [fieldType, if_neg h]
  split
  case isTrue => exact harray _
  case isFalse => exact List.append_nil (arrayTypeName v) ▸ harray []

theorem advance_longName (baseName : List Byte) (shape : ShapeID) (type : DataType)
    (elementSize : Nat) (structID exprStr : Option (List Byte)) :
    advance (longName baseName shape type elementSize structID exprStr)
        (namePrefix shape ++ expressionInsert exprStr).length =
      .ok (decimal elementSize ++ underscore :: (decimal type.toNat ++
        (structIDPart structID ++ underscore :: baseName))) := by
  rw [longName, ← List.append_assoc (namePrefix shape)]
  exact advance_append rfl _

theorem lookupVarByName_known {d : Deserializer} {name : List Byte} {r : VarRec}
    (h : lookupVarByName d name = some r) : r ∈ d.varRecs ∧ r.varName = name :=
  ⟨List.mem_of_find?_eq_some h, by simpa using List.find?_some h⟩

theorem lookupVarByName_none {d : Deserializer} {name : List Byte}
    (h : lookupVarByName d name = none) : ∀ r ∈ d.varRecs, r.varName ≠ name := by
  simpa [lookupVarByName] using h

theorem Deserializer.Numbered.getElem? {d : Deserializer} (hd : d.Numbered) {r : VarRec}
    (h : r ∈ d.varRecs) : d.varRecs[r.varNum]? = some r := by
  obtain ⟨i, hi⟩ := List.mem_iff_getElem?.mp h
  exact hd i r hi ▸ hi

theorem updateVarRec_append {d : Deserializer} (r : VarRec) (g : VarRec → VarRec) :
    updateVarRec { d with varRecs := d.varRecs ++ [r] } d.varRecs.length g =
      { d with varRecs := d.varRecs ++ [g r] } := by
  have hmodify (l : List VarRec) : (l ++ [r]).modify l.length g = l ++ [g r] := by
    induction l with
    | nil => rfl
    | cons a l ih => simpa using ih
  simp only [updateVarRec, hmodify]

theorem updateVarRec_id (d : Deserializer) (n : Nat) : updateVarRec d n id = d := by
  simp [updateVarRec]

section

variable {ffs : FFSContext} {v : VariableBase} {f : FMField} {d : Deserializer} {statsLevel : Nat}

theorem buildArrayControl_eq (h : v.Encodable) (hv : v.dimCount ≠ 0) (hf : IsFieldOf statsLevel v f)
    (hs : HasStructDefinition ffs v) (hd : d.Numbered) (ha : d.Agrees ffs v) (rest : List FMField) :
    ∃ d' c, buildArrayControl ffs f rest v.shapeID
        (namePrefix v.shapeID ++ expressionInsert v.exprText).length v.exprText.isSome
        (v.exprText.map (· ++ [0])) d = .ok (d', c, 1) ∧
      c.origShapeID = v.shapeID ∧ Entered ffs v d d' c.varNum := by
  have hname : f.name = longName v.name.chars v.shapeID v.type v.storedElemSize v.structID
      v.exprText := hf.name.trans (if_neg hv)
  have ⟨minMax, hfield⟩ := breakdownFieldType_eq statsLevel hv
  have ⟨structDef, hdef⟩ : ∃ structDef,
      (if v.type = .struct then ffs.formatFromID v.serverID else none).mapM
        (structDefinition · v.storedElemSize) = .ok structDef := by
    split
    case isTrue ht =>
      have ⟨format, structDef, hformat, hdef⟩ := hs ht
      exact ⟨some structDef, by simp [hformat, hdef]⟩
    case isFalse => exact ⟨none, rfl⟩
  unfold buildArrayControl
  rw [hf.type, hname, charAt_fieldType statsLevel hv]
  simp only [Outcome.ok_bind, ne_eq, not_true_eq_false, if_false, hfield, advance_longName,
    breakdownArrayName_eq ffs h, Outcome.pure_eq]
  cases hl : lookupVarByName d v.name.chars with
  | some known =>
    have ⟨hmem, hknown⟩ := lookupVarByName_known hl
    have hdesc := ha known hmem hknown
    have hplace := hd.getElem? hmem
    refine ⟨_, _, rfl, rfl, ?_⟩
    cases minMax
    case false => exact .known known id hplace hdesc .rfl (updateVarRec_id d _).symm
    case true => exact .known known _ hplace hdesc ⟨rfl, rfl, rfl, rfl, rfl, rfl, rfl, rfl, rfl⟩ rfl
  | none =>
    simp only [hdef, Outcome.ok_bind]
    refine ⟨_, _, rfl, rfl, ?_⟩
    have hderived : v.exprText.isSome = decide (v.dimCount ≠ 0 ∧ (exprString v).isSome) := by
      simp [VariableBase.exprText, hv]
    cases minMax
    case false =>
      refine .new _ ?_ ?_ rfl (if_neg (by decide))
      case refine_1 =>
        refine ⟨rfl, rfl, rfl, rfl, ?_, hdef, hderived, (if_neg hv).symm⟩
        simp [hv]
      case refine_2 => rfl
    case true =>
      refine .new _ ?_ ?_ rfl (updateVarRec_append _ _)
      case refine_1 =>
        refine ⟨rfl, rfl, rfl, rfl, ?_, hdef, hderived, (if_neg hv).symm⟩
        simp [hv]
      case refine_2 => rfl

-- The format library's type and size tell the types of single values apart.
theorem translateFFSType2ADIOS_eq (h : v.Encodable) (hv : v.dimCount = 0) :
    translateFFSType2ADIOS (fieldType statsLevel v) v.storedElemSize = v.type := by
  have ⟨hnone, hstruct, hchar, hsize⟩ := h.simple hv
  rw [fieldType, if_pos hv]
  unfold VariableBase.storedElemSize
  cases ht : v.type <;> simp_all <;> rfl

theorem buildSimpleControl_eq (h : v.Encodable) (hv : v.dimCount = 0) (hf : IsFieldOf statsLevel v f)
    (hd : d.Numbered) (ha : d.Agrees ffs v) :
    ∃ d' c, buildSimpleControl f v.shapeID d = .ok (d', c, 1) ∧ c.origShapeID = v.shapeID ∧
      Entered ffs v d d' c.varNum := by
  have hname : f.name = (namePrefix v.shapeID ++ [underscore]) ++ v.name.chars := by
    rw [hf.name, fieldName, if_pos hv, List.append_assoc, List.singleton_append]
  have hlength : ((namePrefix v.shapeID ++ [underscore]).length : Int) = 4 := by
    rw [List.length_append, namePrefix_length]
    rfl
  have hstruct : v.type ≠ .struct := (h.simple hv).right.left
  unfold buildSimpleControl
  rw [hname, advance_append hlength, Outcome.ok_bind, hf.type, hf.size hv,
    translateFFSType2ADIOS_eq h hv]
  cases hl : lookupVarByName d v.name.chars with
  | some known =>
    obtain ⟨hmem, hknown⟩ := lookupVarByName_known hl
    have hdesc := ha known hmem hknown
    refine ⟨_, _, rfl, rfl, .known known _ (hd.getElem? hmem) hdesc ?_ rfl⟩
    exact ⟨rfl, rfl, rfl, rfl, hdesc.elementSize.symm, rfl, rfl, rfl, rfl⟩
  | none =>
    refine ⟨_, _, rfl, rfl, .new _ ?_ ?_ rfl (updateVarRec_append _ _)⟩
    case refine_1 =>
      refine ⟨rfl, rfl, rfl, rfl, ?_, ?_, ?_, (if_pos hv).symm⟩
      case refine_1 => exact (if_neg fun e => e.left hv).symm
      case refine_2 => simp [hstruct, createVarRec]
      case refine_3 => simp [hv, createVarRec]
    case refine_2 => rfl

theorem buildControlField_eq (h : v.Encodable) (hf : IsFieldOf statsLevel v f)
    (hs : HasStructDefinition ffs v) {s : ControlState} (hd : s.deserializer.Numbered)
    (ha : s.deserializer.Agrees ffs v) (rest : List FMField) :
    ∃ s' c, buildControlField ffs f rest s = .ok (s', 1) ∧
      s'.info.controls = s.info.controls ++ [c] ∧ s'.info.format = s.info.format ∧
      c.origShapeID = v.shapeID ∧ Entered ffs v s.deserializer s'.deserializer c.varNum := by
  by_cases hv : v.dimCount = 0
  case pos =>
    have hname : f.name = namePrefix v.shapeID ++ underscore :: v.name.chars :=
      hf.name.trans (if_pos hv)
    have hshape : decide v.shapeID.IsArray = false :=
      decide_eq_false fun e => h.shape.mp e hv
    have ⟨d', c, hc, horig, he⟩ := buildSimpleControl_eq h hv hf hd ha
    unfold buildControlField
    rw [hname, charAt_shape, Outcome.ok_bind, shapeIDOf_shapeChar, nameHeader_underscore,
      Outcome.ok_bind]
    simp only [nameIndicatesArray_eq, hshape, Outcome.ok_bind, hc, Outcome.pure_eq]
    exact ⟨_, c, rfl, rfl, rfl, horig, he⟩
  case neg =>
    have hname : f.name = longName v.name.chars v.shapeID v.type v.storedElemSize v.structID
        v.exprText := hf.name.trans (if_neg hv)
    have hshape : decide v.shapeID.IsArray = true := decide_eq_true (h.shape.mpr hv)
    have ⟨d', c, hc, horig, he⟩ := buildArrayControl_eq h hv hf hs hd ha rest
    have hheader := nameHeader_longName v.name.chars v.shapeID v.structID (h.fits hv)
    unfold buildControlField
    rw [hname, hheader, longName, charAt_shape, Outcome.ok_bind, shapeIDOf_shapeChar,
      Outcome.ok_bind]
    simp only [nameIndicatesArray_eq, hshape, Outcome.ok_bind, hc, Outcome.pure_eq, if_true]
    exact ⟨_, c, rfl, rfl, rfl, horig, he⟩

end

end BP5
