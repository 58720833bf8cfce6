import Adios2.Format.BP5.Theorems.Base64

-- The field that the serializer adds for a variable, and what the parts of the deserializer's parser
-- read out of it.

namespace BP5

open Bytes CString

-- The text between the prefix and the element size.
def expressionInsert : Option (List Byte) → List Byte
  | some expr =>
    dash :: decimal (base64Chars (expr ++ [0])).length ++ dash :: base64Chars (expr ++ [0]) ++ [dash]
  | none => [underscore]

def structIDPart : Option (List Byte) → List Byte
  | some id => underscore :: id
  | none    => []

def longName (baseName : List Byte) (shape : ShapeID) (type : DataType) (elementSize : Nat)
    (structID exprStr : Option (List Byte)) : List Byte :=
  namePrefix shape ++ (expressionInsert exprStr ++ (decimal elementSize ++ underscore ::
    (decimal type.toNat ++ (structIDPart structID ++ underscore :: baseName))))

def digitCount (n : Nat) : Nat :=
  (decimal n).length

-- What the buffers of BuildLongName have room for besides the name, the expression and the ID.
def NumbersFit (type : DataType) (elementSize : Nat) : Option (List Byte) → Prop
  | some expr =>
    expr.length + 1 < 2 ^ 30 ∧
      digitCount (base64Chars (expr ++ [0])).length + digitCount elementSize +
        digitCount type.toNat ≤ 12
  | none => True

theorem namePrefix_length (shape : ShapeID) : (namePrefix shape).length = 3 := by
  cases shape <;> decide

theorem digitCount_type (type : DataType) : digitCount type.toNat ≤ 2 :=
  decimal_length_le (by omega) (by have := type.toNat_lt; omega)

theorem digitCount_int {n : Nat} (h : n < 2 ^ 31) : digitCount n ≤ 10 :=
  decimal_length_le (by omega) (by omega)

theorem signedDecimal_natCast (n : Nat) : signedDecimal n = decimal n := by
  simp [signedDecimal]

theorem base64Encode_eq {expr : List Byte} (h : expr.length + 1 < 2 ^ 30) :
    base64Encode (expr ++ [0]) ((expr.length + 1) % 2 ^ 32) = .ok (base64Chars (expr ++ [0])) := by
  rw [Nat.mod_eq_of_lt (by omega), base64Encode, List.take_of_length_le (by simp)]
  apply inBuffer_of_lt
  rw [base64Chars_length, Nat.mod_eq_of_lt (by omega), List.length_append, List.length_singleton]
  omega

theorem buildVarName_eq (baseName : List Byte) (shape : ShapeID) :
    buildVarName baseName shape 0 0 = .ok (namePrefix shape ++ underscore :: baseName) := by
  rw [buildVarName, if_pos rfl]
  apply inBuffer_of_lt
  simp only [List.length_append, List.length_cons]
  omega

theorem buildLongName_eq (baseName : List Byte) (shape : ShapeID) {type : DataType}
    {elementSize : Nat} (structID : Option (List Byte)) {exprStr : Option (List Byte)} (hsize : elementSize < 2 ^ 31)
    (hfit : NumbersFit type elementSize exprStr) :
    buildLongName baseName shape type.toNat elementSize structID exprStr =
      .ok (longName baseName shape type elementSize structID exprStr) := by
  have hfront := namePrefix_length shape
  have htype := digitCount_type type
  have helem := digitCount_int hsize
  have hbmod : (elementSize : Int).bmod (2 ^ 64) = elementSize :=
    Int.bmod_eq_of_le (by omega) (by omega)
  have hidLen : (structIDPart structID).length ≤ (structID.map List.length).getD 0 + 1 := by
    cases structID <;> simp [structIDPart]
  unfold digitCount at htype helem
  cases exprStr with
  | none =>
    simp only [buildLongName, hbmod, signedDecimal_natCast, Outcome.pure_eq, Outcome.ok_bind]
    change inBuffer _ (snprintf _ (_ ++ structIDPart structID) ++ _) = _
    rw [snprintf_of_lt, inBuffer_of_lt]
    · simp [longName, expressionInsert, List.append_assoc]
    all_goals
      simp only [List.length_append, List.length_cons, List.length_nil, hfront]
      omega
  | some expr =>
    obtain ⟨hlen, hdigits⟩ := hfit
    unfold digitCount at hdigits
    have hinsert : snprintf ((base64Chars (expr ++ [0])).length + 16)
        (expressionInsert (some expr)) = expressionInsert (some expr) := by
      apply snprintf_of_lt
      simp only [expressionInsert, List.length_append, List.length_cons, List.length_nil]
      omega
    unfold expressionInsert at hinsert
    simp only [buildLongName, base64Encode_eq hlen, hbmod, signedDecimal_natCast, Outcome.pure_eq,
      Outcome.ok_bind, hinsert]
    change inBuffer _ (snprintf _ (_ ++ structIDPart structID) ++ _) = _
    rw [snprintf_of_lt, inBuffer_of_lt]
    · simp [longName, expressionInsert, List.append_assoc]
    all_goals
      simp only [List.length_append, List.length_cons, List.length_nil, hfront]
      omega

-- The element size that a record is made with.
def VariableBase.storedElemSize (v : VariableBase) : Nat :=
  if v.type = .string then sizeofPointer else v.elemSize

def VariableBase.structID (v : VariableBase) : Option (List Byte) :=
  if v.type = .struct then some (textStructID v.serverID) else none

def VariableBase.exprText (v : VariableBase) : Option (List Byte) :=
  (exprString v).map (·.chars)

-- A variable whose field the reader can take apart. A single value is of a type that the format
-- library can tell from the others, an element size is an `int` for the reader, the longest ID is
-- the reader's buffer, and the numbers in the name of an array are not too long.
structure VariableBase.Encodable (v : VariableBase) : Prop where
  shape    : v.shapeID.IsArray ↔ v.dimCount ≠ 0
  simple   : v.dimCount = 0 → v.type ≠ .none ∧ v.type ≠ .struct ∧ v.type ≠ .char ∧
    (v.type ≠ .string → v.elemSize = getDataTypeSize v.type)
  elemSize : v.elemSize < 2 ^ 31
  serverID : v.type = .struct → v.serverID.length ≤ 100
  fits     : v.dimCount ≠ 0 → NumbersFit v.type v.storedElemSize v.exprText

def fieldName (v : VariableBase) : List Byte :=
  if v.dimCount = 0 then
    namePrefix v.shapeID ++ underscore :: v.name.chars
  else
    longName v.name.chars v.shapeID v.type v.storedElemSize v.structID v.exprText

def hasMinMax (statsLevel : Nat) (v : VariableBase) : Prop :=
  0 < statsLevel ∧ neverMinMax v = false

instance (statsLevel : Nat) (v : VariableBase) : Decidable (hasMinMax statsLevel v) :=
  inferInstanceAs (Decidable (_ ∧ _))

def arrayTypeName (v : VariableBase) : List Byte :=
  if v.operations = [] then ascii "MetaArray" else ascii "MetaArrayOp"

def fieldType (statsLevel : Nat) (v : VariableBase) : List Byte :=
  if v.dimCount = 0 then
    (translateADIOS2Type2FFS v.type).getD []
  else if hasMinMax statsLevel v then
    arrayTypeName v ++ minMaxSuffix v.storedElemSize
  else
    arrayTypeName v

structure IsFieldOf (statsLevel : Nat) (v : VariableBase) (f : FMField) : Prop where
  name : f.name = fieldName v
  type : f.type = fieldType statsLevel v
  size : v.dimCount = 0 → f.size = v.storedElemSize

theorem IsFieldOf.sameDescription {statsLevel : Nat} {v : VariableBase} {f g : FMField}
    (h : IsFieldOf statsLevel v f) (hg : f.SameDescription g) : IsFieldOf statsLevel v g where
  name   := hg.name.trans h.name
  type   := hg.type.trans h.type
  size e := hg.size.trans (h.size e)

theorem storedElemSize_lt {v : VariableBase} (h : v.Encodable) : v.storedElemSize < 2 ^ 31 := by
  unfold VariableBase.storedElemSize
  split
  case isTrue => decide
  case isFalse => exact h.elemSize

theorem addSimpleField_eq (fields : List FMField) (name type : List Byte) {elementSize : Int}
    (h : elementSize ≠ 0) :
    ∃ offset, addSimpleField fields name type elementSize =
      .ok (fields ++ [{ name, type, size := elementSize, offset }]) := by
  unfold addSimpleField
  split
  case h_1 => exact ⟨0, rfl⟩
  case h_2 prior _ =>
    rw [if_neg h]
    exact ⟨_, rfl⟩

theorem storedElemSize_ne_zero {v : VariableBase} (h : v.Encodable) (hd : v.dimCount = 0) :
    v.storedElemSize ≠ 0 := by
  have ⟨hnone, hstruct, _, hsize⟩ := h.simple hd
  unfold VariableBase.storedElemSize
  split
  case isTrue => decide
  case isFalse hs =>
    rw [hsize hs]
    cases ht : v.type <;> simp_all [getDataTypeSize, sizeofFloat, sizeofDouble, sizeofLongDouble]

theorem translateADIOS2Type2FFS_isSome {t : DataType} (hn : t ≠ .none) (hs : t ≠ .struct) :
    ∃ type, translateADIOS2Type2FFS t = some type := by
  cases t <;> simp_all [translateADIOS2Type2FFS]

-- One field is added for a variable.
theorem createWriterRec_eq (statsLevel : Nat) (info : FFSWriterMarshalBase) {v : VariableBase}
    (h : v.Encodable) :
    ∃ info' f, createWriterRec statsLevel info v = .ok info' ∧
      info'.metaFields = info.metaFields ++ [f] ∧ IsFieldOf statsLevel v f := by
  by_cases hd : v.dimCount = 0
  case pos =>
    have ⟨hnone, hstruct, _, _⟩ := h.simple hd
    have ⟨type, htype⟩ := translateADIOS2Type2FFS_isSome hnone hstruct
    have hsize : toInt v.storedElemSize = v.storedElemSize := toInt_of_lt (storedElemSize_lt h)
    have hne : (v.storedElemSize : Int) ≠ 0 := by
      exact_mod_cast storedElemSize_ne_zero h hd
    have ⟨offset, hadd⟩ := addSimpleField_eq info.metaFields
      (namePrefix v.shapeID ++ underscore :: v.name.chars) type hne
    have hfield : addField info.metaFields (namePrefix v.shapeID ++ underscore :: v.name.chars)
        v.type (toInt v.storedElemSize) = .ok (info.metaFields ++
          [{ name := namePrefix v.shapeID ++ underscore :: v.name.chars, type
             size := v.storedElemSize, offset }]) := by
      rw [addField, htype, Option.orUndefined_some, Outcome.ok_bind, hsize, hadd]
    unfold VariableBase.storedElemSize at hfield
    simp only [createWriterRec, if_pos hd, buildVarName_eq, Outcome.ok_bind, hfield,
      Outcome.pure_eq]
    refine ⟨_, _, rfl, rfl, ?_, ?_, fun _ => rfl⟩
    case refine_1 => rw [fieldName, if_pos hd]
    case refine_2 => rw [fieldType, if_pos hd, htype, Option.getD_some]
  case neg =>
    have hlong := buildLongName_eq v.name.chars v.shapeID v.structID (storedElemSize_lt h) (h.fits hd)
    have hname : fieldName v = longName v.name.chars v.shapeID v.type v.storedElemSize v.structID
        v.exprText := if_neg hd
    rw [← hname] at hlong
    have hsize : ((if v.operations = [] then sizeofMetaArrayRec
        else sizeofMetaArrayRec + sizeofPointer : Nat) : Int) ≠ 0 := by
      split <;> decide
    have hsizeMM : ((if v.operations = [] then sizeofMetaArrayRec
        else sizeofMetaArrayRec + sizeofPointer) + sizeofPointer : Nat) ≠ (0 : Int) := by
      split <;> decide
    have ⟨offset, hadd⟩ := addSimpleField_eq info.metaFields (fieldName v) (arrayTypeName v) hsize
    have ⟨offsetMM, haddMM⟩ := addSimpleField_eq info.metaFields (fieldName v)
      (arrayTypeName v ++ minMaxSuffix v.storedElemSize) hsizeMM
    unfold VariableBase.storedElemSize VariableBase.structID VariableBase.exprText at hlong
    unfold arrayTypeName at hadd haddMM
    unfold VariableBase.storedElemSize at haddMM
    by_cases hmm : hasMinMax statsLevel v
    case pos =>
      simp only [createWriterRec, if_neg hd, hlong, Outcome.ok_bind, hmm.right, hmm.left,
        and_self, if_true, haddMM, Outcome.pure_eq]
      refine ⟨_, _, rfl, rfl, rfl, ?_, fun e => absurd e hd⟩
      rw [fieldType, if_neg hd, if_pos hmm]
      rfl
    case neg =>
      have hmm' : ¬ (0 < statsLevel ∧ neverMinMax v = false) := hmm
      simp only [createWriterRec, if_neg hd, hlong, Outcome.ok_bind, if_neg hmm', hadd,
        Outcome.pure_eq]
      refine ⟨_, _, rfl, rfl, rfl, ?_, fun e => absurd e hd⟩
      rw [fieldType, if_neg hd, if_neg hmm]
      rfl

-- The fields of a step: those every format starts with, and one for each variable.
theorem createWriterRecs_eq (statsLevel : Nat) {vars : List VariableBase}
    (h : ∀ v ∈ vars, v.Encodable) (info : FFSWriterMarshalBase) :
    ∃ info' fields, vars.foldlM (createWriterRec statsLevel) info = .ok info' ∧
      info'.metaFields = info.metaFields ++ fields ∧
      List.Forall₂ (IsFieldOf statsLevel) vars fields := by
  induction vars generalizing info with
  | nil => exact ⟨info, [], rfl, by simp, .nil⟩
  | cons v vars ih =>
    have ⟨info₁, f, hrec, hfields₁, hf⟩ :=
      createWriterRec_eq statsLevel info (h v List.mem_cons_self)
    have ⟨info₂, fields, hrecs, hfields₂, hall⟩ := ih (fun w hw => h w (.tail _ hw)) info₁
    refine ⟨info₂, f :: fields, ?_, ?_, .cons hf hall⟩
    case refine_1 => rw [List.foldlM_cons, hrec, Outcome.ok_bind, hrecs]
    case refine_2 => rw [hfields₂, hfields₁, List.append_assoc, List.singleton_append]

def shapeChar : ShapeID → Byte
  | .unknown     => 85
  | .globalValue => 103
  | .globalArray => 71
  | .joinedArray => 74
  | .localValue  => 108
  | .localArray  => 76

theorem namePrefix_eq (s : ShapeID) : namePrefix s = [66, 80, shapeChar s] := by
  cases s <;> decide

theorem shapeIDOf_shapeChar (s : ShapeID) : shapeIDOf (shapeChar s) = s := by
  cases s <;> decide

theorem charAt_shape (s : ShapeID) (rest : List Byte) :
    charAt (namePrefix s ++ rest) 2 = .ok (shapeChar s) := by
  simp [namePrefix_eq, charAt]

theorem nameIndicatesArray_eq (s : ShapeID) (rest : List Byte) :
    nameIndicatesArray (namePrefix s ++ rest) = .ok (decide s.IsArray) := by
  rw [nameIndicatesArray, charAt_shape, Outcome.ok_bind, Outcome.pure_eq]
  cases s <;> rfl

theorem charAt_header (s : ShapeID) (c : Byte) (rest : List Byte) :
    charAt (namePrefix s ++ c :: rest) 3 = .ok c :=
  namePrefix_length s ▸ charAt_append_cons (namePrefix s) c rest

theorem nameHeader_underscore (s : ShapeID) (rest : List Byte) :
    nameHeader (namePrefix s ++ underscore :: rest) = .ok (4, false, none) := by
  rw [nameHeader, charAt_header]
  rfl

theorem digitCount_expr_lt {type : DataType} {elementSize : Nat} {expr : List Byte}
    (h : NumbersFit type elementSize (some expr)) :
    (base64Chars (expr ++ [0])).length < 2 ^ 31 := by
  have ⟨hlen, _⟩ := h
  rw [base64Chars_length, List.length_append, List.length_singleton]
  omega

theorem nameHeader_expression (s : ShapeID) {expr : List Byte} (rest : List Byte)
    (h : (base64Chars (expr ++ [0])).length < 2 ^ 31) :
    nameHeader (namePrefix s ++ (expressionInsert (some expr) ++ rest)) =
      .ok ((namePrefix s ++ expressionInsert (some expr)).length, true, some (expr ++ [0])) := by
  have hname : namePrefix s ++ (expressionInsert (some expr) ++ rest) =
      (namePrefix s ++ [dash]) ++ (decimal (base64Chars (expr ++ [0])).length ++
        dash :: (base64Chars (expr ++ [0]) ++ dash :: rest)) := by
    simp [expressionInsert, List.append_assoc]
  have hfront : (namePrefix s ++ [dash]).length = 4 := by
    rw [List.length_append, namePrefix_length]
    rfl
  have hchar : charAt (namePrefix s ++ (expressionInsert (some expr) ++ rest)) 3 = .ok dash := by
    simp [charAt_header, expressionInsert, List.append_assoc]
  have hheader := advance_append (n := 4) (by rw [hfront]; rfl)
    (decimal (base64Chars (expr ++ [0])).length ++ dash :: (base64Chars (expr ++ [0]) ++ dash :: rest))
  rw [← hname] at hheader
  have hends : EndsNumber (dash :: (base64Chars (expr ++ [0]) ++ dash :: rest)) := by
    simp [EndsNumber, dash, isDigit]
  have hnodash : dash ∉ decimal (base64Chars (expr ++ [0])).length := fun hm =>
    (isDigit_ne (decimal_digits _ _ hm)).right.left rfl
  have hdecode : (base64Decode (base64Chars (expr ++ [0]) ++ dash :: rest)).2 = expr ++ [0] :=
    base64Decode_base64Chars (expr ++ [0]) rest
  have hskip : advance (dash :: (base64Chars (expr ++ [0]) ++ dash :: rest)) 1 =
      .ok (base64Chars (expr ++ [0]) ++ dash :: rest) := advance_append (a := [dash]) rfl _
  have hroom : ((expr ++ [0]).length : Int) ≤ (base64Chars (expr ++ [0])).length + 1 := by
    rw [base64Chars_length]
    omega
  have hskipped : 6 + ((decimal (base64Chars (expr ++ [0])).length).length : Int) +
      (base64Chars (expr ++ [0])).length = (namePrefix s ++ expressionInsert (some expr)).length := by
    simp only [expressionInsert, List.length_append, List.length_cons, List.length_nil,
      namePrefix_length]
    omega
  rw [nameHeader, hchar, Outcome.ok_bind, if_neg (by decide), if_pos (by decide), hheader,
    Outcome.ok_bind, sscanfInt_decimal h hends, Outcome.ok_bind]
  simp only [show (45 : Byte) = dash from rfl, strchr_append_cons hnodash, Option.orUndefined_some,
    Outcome.ok_bind, hskip, hdecode, if_pos hroom, Outcome.pure_eq, ← hskipped]
  simp

-- HeaderSkip is where the element size stands, for every name of an array.
theorem nameHeader_longName (baseName : List Byte) (shape : ShapeID) {type : DataType}
    {elementSize : Nat} (structID : Option (List Byte)) {exprStr : Option (List Byte)}
    (hfit : NumbersFit type elementSize exprStr) :
    nameHeader (longName baseName shape type elementSize structID exprStr) =
      .ok ((namePrefix shape ++ expressionInsert exprStr).length, exprStr.isSome,
        exprStr.map (· ++ [0])) := by
  cases exprStr with
  | none =>
    have hlength : (namePrefix shape ++ expressionInsert none).length = 4 := by
      rw [List.length_append, namePrefix_length]
      rfl
    rw [longName, hlength]
    exact nameHeader_underscore shape _
  | some expr => exact nameHeader_expression shape _ (digitCount_expr_lt hfit)

theorem structIDBytes_textStructID (baseName : List Byte) {serverID : List Byte} {room : Nat}
    (h : serverID.length ≤ room) :
    structIDBytes room (textStructID serverID ++ underscore :: baseName) =
      .ok (serverID, baseName) := by
  induction serverID generalizing room with
  | nil =>
    change structIDBytes room (underscore :: baseName) = _
    unfold structIDBytes
    exact if_pos rfl
  | cons b serverID ih =>
    rw [List.length_cons] at h
    obtain ⟨room, rfl⟩ : ∃ n, room = n + 1 := ⟨room - 1, by omega⟩
    have hne : hexDigit (b.toNat / 16) ≠ 95 :=
      hexDigit_ne_underscore _ (by have := b.toNat_lt; omega)
    have hscan := sscanfHexByte_hexByte b (textStructID serverID ++ underscore :: baseName)
    have htext : textStructID (b :: serverID) ++ underscore :: baseName =
        hexDigit (b.toNat / 16) :: hexDigit (b.toNat % 16) ::
          (textStructID serverID ++ underscore :: baseName) := rfl
    rw [htext, structIDBytes, if_neg hne]
    simp only [hexByte, List.cons_append, List.nil_append] at hscan
    simp only [hscan, ih (show serverID.length ≤ room by omega), Outcome.ok_bind, Outcome.pure_eq,
      UInt8.ofNat_toNat]

theorem endsNumber_underscore (s : List Byte) : EndsNumber (underscore :: s) := by
  simp [EndsNumber, underscore, isDigit]

-- The part of the name behind the header.
theorem breakdownArrayName_eq (ffs : FFSContext) {v : VariableBase} (h : v.Encodable) :
    breakdownArrayName ffs (decimal v.storedElemSize ++ underscore :: (decimal v.type.toNat ++
        (structIDPart v.structID ++ underscore :: v.name.chars))) =
      .ok (v.name.chars, v.type.toNat, v.storedElemSize,
        if v.type = .struct then ffs.formatFromID v.serverID else none) := by
  have hsize := storedElemSize_lt h
  have htype : v.type.toNat < 2 ^ 31 := by
    have := v.type.toNat_lt
    omega
  have hstruct : (toInt v.type.toNat = DataType.struct.toNat) ↔ v.type = .struct := by
    rw [toInt_of_lt htype]
    cases v.type <;> decide
  have hid : ∃ tail, structIDPart v.structID ++ underscore :: v.name.chars = underscore :: tail ∧
      (v.type = .struct → tail = textStructID v.serverID ++ underscore :: v.name.chars) ∧
      (v.type ≠ .struct → tail = v.name.chars) := by
    unfold VariableBase.structID
    split
    case isTrue ht => exact ⟨_, rfl, fun _ => rfl, fun e => absurd ht e⟩
    case isFalse ht => exact ⟨_, rfl, fun e => absurd e ht, fun _ => rfl⟩
  obtain ⟨tail, htail, hs, hn⟩ := hid
  have hskip (s : List Byte) : advance (underscore :: s) 1 = .ok s :=
    advance_append (a := [underscore]) rfl s
  rw [htail, breakdownArrayName, strtol_decimal (by omega) (endsNumber_underscore _)]
  dsimp only
  rw [hskip, Outcome.ok_bind, strtol_decimal (by omega) (endsNumber_underscore _)]
  dsimp only
  rw [hskip, Outcome.ok_bind, toInt_of_lt htype, toInt_of_lt hsize]
  rw [toInt_of_lt htype] at hstruct
  by_cases ht : v.type = .struct
  case pos =>
    rw [if_pos (hstruct.mpr ht), if_pos ht, hs ht,
      structIDBytes_textStructID v.name.chars (h.serverID ht), Outcome.ok_bind, Outcome.pure_eq]
  case neg =>
    rw [if_neg (mt hstruct.mp ht), if_neg ht, hn ht, Outcome.pure_eq]

-- The type of the field of an array says whether there is an operator.
theorem breakdownFieldType_eq (statsLevel : Nat) {v : VariableBase} (h : v.dimCount ≠ 0) :
    ∃ minMax, breakdownFieldType (fieldType statsLevel v) =
      .ok (decide (v.operations ≠ []), minMax) := by
  have hsuffix (n : Nat) : minMaxSuffix n ∈ [ascii "MM1", ascii "MM2", ascii "MM4", ascii "MM8",
      ascii "MM16", []] := by
    unfold minMaxSuffix
    split <;> simp
  have hcases : ∀ suffix ∈ [ascii "MM1", ascii "MM2", ascii "MM4", ascii "MM8", ascii "MM16", []],
      (∃ minMax, breakdownFieldType (ascii "MetaArray" ++ suffix) = .ok (false, minMax)) ∧
      ∃ minMax, breakdownFieldType (ascii "MetaArrayOp" ++ suffix) = .ok (true, minMax) := by
    simp only [List.forall_mem_cons]
    exact ⟨⟨⟨_, rfl⟩, _, rfl⟩, ⟨⟨_, rfl⟩, _, rfl⟩, ⟨⟨_, rfl⟩, _, rfl⟩, ⟨⟨_, rfl⟩, _, rfl⟩,
      ⟨⟨_, rfl⟩, _, rfl⟩, ⟨⟨_, rfl⟩, _, rfl⟩, by simp⟩
  have htype : ∃ suffix ∈ [ascii "MM1", ascii "MM2", ascii "MM4", ascii "MM8", ascii "MM16", []],
      fieldType statsLevel v = arrayTypeName v ++ suffix := by
    rw [fieldType, if_neg h]
    split
    case isTrue => exact ⟨_, hsuffix _, rfl⟩
    case isFalse => exact ⟨[], by simp, by simp⟩
  obtain ⟨suffix, hmem, htype⟩ := htype
  have ⟨hplain, hop⟩ := hcases suffix hmem
  rw [htype, arrayTypeName]
  by_cases ho : v.operations = []
  case pos => simpa [ho] using hplain
  case neg => simpa [ho] using hop

end BP5
