import Adios2.Format.BP5.InstalledMetadata

-- What installation does to a metadata block and to one variable.

namespace BP5

-- Each field of the format has its place and its variable.
structure ControlInfo.Consistent (info : ControlInfo) : Prop where
  indexed    : ∀ (i : Nat) (control : ControlStruct), info.controls[i]? = some control →
    info.metaFieldOffset[control.varNum]? = some control.fieldOffset ∧
      info.varIndex[control.varNum]? = some i ∧ control.fieldOffset ≠ 0
  controlled : ∀ (varNum : Nat) (offset : Int), info.metaFieldOffset[varNum]? = some offset →
    offset ≠ 0 → ∃ (i : Nat) (control : ControlStruct),
      info.controls[i]? = some control ∧ control.varNum = varNum
  distinct   : ∀ (i j : Nat) (control control' : ControlStruct),
    info.controls[i]? = some control → info.controls[j]? = some control' →
      control.fieldOffset = control'.fieldOffset → i = j

namespace Reader

open Bytes Helper

variable {α : Type} {d : Deserializer α} {writerRank step varNum : Nat}

-- What installation leaves as it was written: all but the Shape, the counts and the offsets.
def MetaArrayRec.stored (r : MetaArrayRec α) : MetaArrayRec α :=
  { r with shape := none, count := [], offsets := none }

def Field.stored (f : Field α) : Field α :=
  { f with array := f.array.stored }

structure MetadataBlock.Same (b b' : MetadataBlock α) : Prop where
  control  : b'.control = b.control
  bitField : b'.bitField = b.bitField
  field    : ∀ offset, (b'.field offset).stored = (b.field offset).stored

theorem MetadataBlock.Same.refl (b : MetadataBlock α) : b.Same b :=
  ⟨rfl, rfl, fun _ => rfl⟩

theorem MetadataBlock.Same.trans {b b' b'' : MetadataBlock α} (h : b.Same b') (h' : b'.Same b'') :
    b.Same b'' :=
  ⟨h'.control.trans h.control, h'.bitField.trans h.bitField,
    fun offset => (h'.field offset).trans (h.field offset)⟩

theorem MetadataBlock.Same.record {b b' : MetadataBlock α} (h : b.Same b') (varNum : Nat) :
    (b'.record varNum).map Field.stored = (b.record varNum).map Field.stored := by
  simp only [MetadataBlock.record, h.control, h.bitField]
  split
  case h_1 offset index _ _ =>
    split
    · rw [Option.map_some, Option.map_some, h.field]
    · rfl
  case h_2 => rfl

theorem toReaderOrder_stored (origShapeID : ShapeID) (r : MetaArrayRec α) :
    (toReaderOrder d origShapeID r).stored = r.stored := by
  unfold toReaderOrder
  split <;> rfl

theorem installArray_stored (origShapeID : ShapeID) (r : MetaArrayRec α) (v : VarRec) :
    (installArray d writerRank origShapeID r v).fst.stored = r.stored := by
  unfold installArray
  dsimp only
  split
  · exact toReaderOrder_stored origShapeID r
  · exact toReaderOrder_stored origShapeID r

theorem installField_same (d : Deserializer α) (writerRank step : Nat) (s : FieldState α)
    (control : ControlStruct × Nat) :
    s.snd.Same (installField d writerRank step s control).snd := by
  unfold installField
  dsimp only
  split
  case isFalse => exact .refl _
  case isTrue =>
    split
    case isFalse => exact .refl _
    case isTrue =>
      refine ⟨rfl, rfl, fun offset => ?_⟩
      dsimp only
      by_cases ho : offset = control.fst.fieldOffset
      · subst ho
        rw [Function.update_self]
        split
        · simp only [Field.stored, installArray_stored]
        · rfl
      · rw [Function.update_of_ne ho]

theorem installFields_same (d : Deserializer α) (writerRank step : Nat)
    (l : List (ControlStruct × Nat)) (s : FieldState α) :
    s.snd.Same (l.foldl (installField d writerRank step) s).snd := by
  induction l generalizing s with
  | nil => exact .refl _
  | cons control l ih => exact (installField_same d writerRank step s control).trans (ih _)

-- The fields of the other variables.

theorem noteJoinedDimen_of_ne {block : MetadataBlock α} {varRecs : List VarRec}
    {control : ControlStruct × Nat}
    (h : control.fst.varNum = varNum → bitfieldTest block.bitField control.snd = false) :
    (noteJoinedDimen block varRecs control)[varNum]? = varRecs[varNum]? := by
  unfold noteJoinedDimen
  split
  case isFalse => rfl
  case isTrue hbit =>
    refine List.getElem?_modify_ne _ _ fun he => ?_
    rw [h he] at hbit
    exact Bool.noConfusion hbit.left

theorem noteJoinedDimens_of_ne {block : MetadataBlock α} (l : List (ControlStruct × Nat))
    (varRecs : List VarRec)
    (h : ∀ control ∈ l, control.fst.varNum = varNum →
      bitfieldTest block.bitField control.snd = false) :
    (l.foldl (noteJoinedDimen block) varRecs)[varNum]? = varRecs[varNum]? := by
  induction l generalizing varRecs with
  | nil => rfl
  | cons control l ih =>
    have ⟨hhead, htail⟩ := List.forall_mem_cons.mp h
    rw [List.foldl_cons, ih _ htail, noteJoinedDimen_of_ne hhead]

theorem installField_of_ne {s : FieldState α} {control : ControlStruct × Nat}
    (h : control.fst.varNum = varNum → bitfieldTest s.snd.bitField control.snd = false) :
    (installField d writerRank step s control).fst[varNum]? = s.fst[varNum]? := by
  unfold installField
  dsimp only
  split
  case isFalse => rfl
  case isTrue hbit =>
    have hne : control.fst.varNum ≠ varNum := fun he => by
      rw [h he] at hbit
      exact Bool.noConfusion hbit
    split
    · exact List.getElem?_modify_ne _ _ hne
    · exact List.getElem?_modify_ne _ _ hne

theorem installField_field_of_ne {s : FieldState α} {control : ControlStruct × Nat} {offset : Int}
    (h : offset ≠ control.fst.fieldOffset) :
    (installField d writerRank step s control).snd.field offset = s.snd.field offset := by
  unfold installField
  dsimp only
  split
  · split
    · exact Function.update_of_ne h _ _
    · rfl
  · rfl

theorem installFields_of_ne (d : Deserializer α) (writerRank step : Nat)
    (l : List (ControlStruct × Nat)) (s : FieldState α)
    (h : ∀ control ∈ l, control.fst.varNum = varNum →
      bitfieldTest s.snd.bitField control.snd = false) :
    (l.foldl (installField d writerRank step) s).fst[varNum]? = s.fst[varNum]? := by
  induction l generalizing s with
  | nil => rfl
  | cons control l ih =>
    have ⟨hhead, htail⟩ := List.forall_mem_cons.mp h
    have hbit := (installField_same d writerRank step s control).bitField
    rw [List.foldl_cons, ih _ (hbit ▸ htail), installField_of_ne hhead]

theorem installFields_field_of_ne (d : Deserializer α) (writerRank step : Nat)
    (l : List (ControlStruct × Nat)) (s : FieldState α) {offset : Int}
    (h : ∀ control ∈ l, offset ≠ control.fst.fieldOffset) :
    (l.foldl (installField d writerRank step) s).snd.field offset = s.snd.field offset := by
  induction l generalizing s with
  | nil => rfl
  | cons control l ih =>
    have ⟨hhead, htail⟩ := List.forall_mem_cons.mp h
    rw [List.foldl_cons, ih _ htail, installField_field_of_ne hhead]

-- What a block does to the variable whose field it has.

theorem exists_control_split {info : ControlInfo} (hc : info.Consistent) {o : Int}
    (hm : info.metaFieldOffset[varNum]? = some o) (ho : o ≠ 0) :
    ∃ l₁ control i l₂, info.controls.zipIdx = l₁ ++ (control, i) :: l₂ ∧
      control.varNum = varNum ∧ control.fieldOffset = o ∧ info.varIndex[varNum]? = some i ∧
      ∀ x ∈ l₁ ++ l₂, x.fst.varNum ≠ varNum ∧ x.fst.fieldOffset ≠ o := by
  obtain ⟨i, control, hi, hvar⟩ := hc.controlled varNum o hm ho
  have ⟨hoffset, hindex, _⟩ := hc.indexed i control hi
  rw [hvar] at hoffset hindex
  have ho' : control.fieldOffset = o := Option.some.inj (hoffset.symm.trans hm)
  have hmem : (control, i) ∈ info.controls.zipIdx := List.mk_mem_zipIdx_iff_getElem?.mpr hi
  obtain ⟨l₁, l₂, hl⟩ := List.append_of_mem hmem
  refine ⟨l₁, control, i, l₂, hl, hvar, ho', hindex, fun x hx => ?_⟩
  have hxmem : x ∈ info.controls.zipIdx := by
    rw [hl]
    rcases List.mem_append.mp hx with h | h
    · exact List.mem_append_left _ h
    · exact List.mem_append_right _ (List.mem_cons_of_mem _ h)
  have hxi : info.controls[x.snd]? = some x.fst := List.mk_mem_zipIdx_iff_getElem?.mp hxmem
  have hne : x.snd ≠ i := by
    have hnodup : (info.controls.zipIdx.map Prod.snd).Nodup := by
      rw [List.zipIdx_map_snd]
      exact List.nodup_range'
    rw [hl, List.map_append, List.map_cons] at hnodup
    have hnot := (List.nodup_middle.mp hnodup).notMem
    intro he
    rw [← List.map_append] at hnot
    exact hnot (List.mem_map.mpr ⟨x, hx, he⟩)
  have hx' := hc.indexed x.snd x.fst hxi
  refine ⟨fun he => hne ?_, fun he => hne ?_⟩
  · rw [he, hindex] at hx'
    exact (Option.some.inj hx'.right.left).symm
  · exact hc.distinct x.snd i x.fst control hxi hi (he.trans ho'.symm)

theorem MetadataBlock.record_eq_none {block : MetadataBlock α} (hc : block.control.Consistent)
    (h : block.record varNum = none) :
    ∀ control ∈ block.control.controls.zipIdx, control.fst.varNum = varNum →
      bitfieldTest block.bitField control.snd = false := by
  intro control hmem hvar
  have ⟨hoffset, hindex, hne⟩ :=
    hc.indexed control.snd control.fst (List.mk_mem_zipIdx_iff_getElem?.mp hmem)
  rw [hvar] at hoffset hindex
  rw [MetadataBlock.record, hoffset, hindex] at h
  by_contra hbit
  simp [hne, hbit] at h

theorem MetadataBlock.record_eq_some {block : MetadataBlock α} (hc : block.control.Consistent)
    {field : Field α} (h : block.record varNum = some field) :
    ∃ l₁ control i l₂, block.control.controls.zipIdx = l₁ ++ (control, i) :: l₂ ∧
      control.varNum = varNum ∧ block.field control.fieldOffset = field ∧
      bitfieldTest block.bitField i = true ∧
      ∀ x ∈ l₁ ++ l₂, x.fst.varNum ≠ varNum ∧ x.fst.fieldOffset ≠ control.fieldOffset := by
  unfold MetadataBlock.record at h
  split at h
  case h_2 => cases h
  case h_1 offset index hoffset hindex =>
    split at h
    case isFalse => cases h
    case isTrue hwritten =>
      obtain ⟨l₁, control, i, l₂, hl, hvar, ho, hi, hrest⟩ :=
        exists_control_split hc hoffset hwritten.left
      refine ⟨l₁, control, i, l₂, hl, hvar, ?_, ?_, ho ▸ hrest⟩
      · rw [ho]
        exact Option.some.inj h
      · rw [← Option.some.inj (hindex.symm.trans hi)]
        exact hwritten.right

-- The loops, for the variable that a control is of.

def VarRec.dimenNoted (control : ControlStruct) (field : Field α) (v : VarRec) : VarRec :=
  if control.origShapeID = .joinedArray ∧ v.joinedDimen = none then
    { v with joinedDimen := findJoinedDimen field.array }
  else v

def VarRec.seen (d : Deserializer α) (writerRank step : Nat) (control : ControlStruct)
    (field : Field α) (v : VarRec) : VarRec :=
  let v := noteField d writerRank step control.fieldOffset (v.dimenNoted control field)
  if control.origShapeID.IsArray then
    (installArray d writerRank control.origShapeID field.array v).snd
  else v

theorem installMetadataBuffer_varRecs (d : Deserializer α) (block : MetadataBlock α)
    (writerRank step : Nat) :
    (installMetadataBuffer d block writerRank step).varRecs =
      (block.control.controls.zipIdx.foldl (installField d writerRank step)
        (block.control.controls.zipIdx.foldl (noteJoinedDimen block) d.varRecs, block)).fst := by
  unfold installMetadataBuffer
  dsimp only
  split <;> rfl

theorem installMetadataBuffer_of_none {block : MetadataBlock α}
    (hc : block.control.Consistent) (h : block.record varNum = none) :
    (installMetadataBuffer d block writerRank step).varRecs[varNum]? = d.varRecs[varNum]? := by
  have hbits := MetadataBlock.record_eq_none hc h
  rw [installMetadataBuffer_varRecs, installFields_of_ne _ _ _ _ _ hbits,
    noteJoinedDimens_of_ne _ _ hbits]

theorem installMetadataBuffer_of_some (d : Deserializer α) (writerRank step : Nat)
    {block : MetadataBlock α} (hc : block.control.Consistent) {field : Field α}
    (h : block.record varNum = some field) :
    ∃ control ∈ block.control.controls, control.varNum = varNum ∧
      (installMetadataBuffer d block writerRank step).varRecs[varNum]? =
        (d.varRecs[varNum]?).map (VarRec.seen d writerRank step control field) := by
  obtain ⟨l₁, control, i, l₂, hl, hvar, hfield, hbit, hrest⟩ :=
    MetadataBlock.record_eq_some hc h
  have hne : ∀ x ∈ l₁ ++ l₂, x.fst.varNum = varNum → bitfieldTest block.bitField x.snd = false :=
    fun x hx he => absurd he (hrest x hx).left
  have hmem : (control, i) ∈ block.control.controls.zipIdx := by
    rw [hl]
    exact List.mem_append_right _ List.mem_cons_self
  refine ⟨control, List.fst_mem_of_mem_zipIdx hmem, hvar, ?_⟩
  rw [installMetadataBuffer_varRecs, hl]
  -- what the loops have done in front of the variable's own control
  have hnoted : (((l₁ ++ (control, i) :: l₂).foldl (noteJoinedDimen block) d.varRecs))[varNum]? =
      (d.varRecs[varNum]?).map (VarRec.dimenNoted control field) := by
    rw [List.foldl_append, List.foldl_cons,
      noteJoinedDimens_of_ne l₂ _ fun x hx => hne x (List.mem_append_right _ hx)]
    have hfront := noteJoinedDimens_of_ne l₁ d.varRecs fun x hx => hne x (List.mem_append_left _ hx)
    unfold noteJoinedDimen VarRec.dimenNoted
    by_cases hjoined : control.origShapeID = .joinedArray
    · simp only [hbit, hjoined, and_self, if_true, true_and, hvar, hfield]
      rw [List.getElem?_modify_eq, ← hfront]
      rfl
    · simp only [hjoined, and_false, if_false, false_and]
      rw [← hfront, Option.map_id']
      rfl
  generalize (l₁ ++ (control, i) :: l₂).foldl (noteJoinedDimen block) d.varRecs = varRecs at hnoted
  rw [List.foldl_append, List.foldl_cons]
  have hsame := installFields_same d writerRank step l₁ (varRecs, block)
  have hfront := installFields_of_ne d writerRank step l₁ (varRecs, block)
    fun x hx => hne x (List.mem_append_left _ hx)
  have hfieldFront := installFields_field_of_ne d writerRank step l₁ (varRecs, block)
    fun x hx => (hrest x (List.mem_append_left _ hx)).right.symm
  generalize l₁.foldl (installField d writerRank step) (varRecs, block) = s at *
  have hbit' : bitfieldTest s.snd.bitField i = true := hsame.bitField ▸ hbit
  rw [installFields_of_ne d writerRank step l₂]
  · unfold installField
    dsimp only
    rw [if_pos hbit', hfieldFront]
    split
    case isTrue harray =>
      dsimp only
      rw [hvar, List.getElem?_modify_eq, hfront, hnoted, Option.map_eq_map,
        Option.map_map]
      refine congrArg (Option.map · _) (funext fun v => ?_)
      simp only [VarRec.seen, Function.comp_apply, harray, if_true, hfield]
    case isFalse harray =>
      rw [hvar, List.getElem?_modify_eq, hfront, hnoted, Option.map_eq_map,
        Option.map_map]
      refine congrArg (Option.map · _) (funext fun v => ?_)
      simp only [VarRec.seen, Function.comp_apply, harray, if_false]
  · intro x hx he
    exact absurd he (hrest x (List.mem_append_right _ hx)).left

end Reader

end BP5
