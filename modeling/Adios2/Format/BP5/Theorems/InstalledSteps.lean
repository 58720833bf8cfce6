import Adios2.Format.BP5.Theorems.InstalledMetadata

-- What has been installed of a file after all of its steps.

namespace BP5.Reader

open Bytes Helper

variable {α : Type} {m : Modes} {f : Written α} {d : Deserializer α} {varNum : Nat}
variable {pre : List (List (MetadataBlock α))} {blocks done : List (MetadataBlock α)}

namespace Written

def cohort (f : Written α) (step : Nat) : Nat :=
  (f.steps.getD step []).length

def record (f : Written α) (varNum step writerRank : Nat) : Option (Field α) :=
  ((f.steps.getD step [])[writerRank]?).bind (·.record varNum)

end Written

def writesIn (blocks : List (MetadataBlock α)) (varNum : Nat) : Bool :=
  blocks.any fun block => (block.record varNum).isSome

def writtenIn (steps : List (List (MetadataBlock α))) (varNum : Nat) : List Nat :=
  (List.range steps.length).filter fun step => writesIn (steps.getD step []) varNum

-- The steps in which some rank wrote the variable.
def Written.writtenSteps (f : Written α) (varNum : Nat) : List Nat :=
  writtenIn f.steps varNum

-- The reader before the first step.
def construct (m : Modes) (f : Written α) : Deserializer α :=
  { m with
    writerCohortSizes       := []
    currentWriterCohortSize := 0
    curTimestep             := 0
    controlArray            := []
    metadataBaseAddrs       := []
    varRecs                 := f.varRecs
    derivedInputs           := f.derivedInputs }

-- `before` is kept from step to step, and `during` from rank to rank of a step.
theorem install_induction {before : List (List (MetadataBlock α)) → Deserializer α → Prop}
    {during : List (List (MetadataBlock α)) → List (MetadataBlock α) → List (MetadataBlock α) →
      Deserializer α → Prop}
    (hinit : before [] (construct m f))
    (hsetup : ∀ pre blocks d, blocks ∈ f.steps → before pre d →
      during pre blocks [] (setupForStep d pre.length blocks.length))
    (hblock : ∀ pre blocks done block rest d, blocks ∈ f.steps → blocks = done ++ block :: rest →
      during pre blocks done d →
        during pre blocks (done ++ [block]) (installMetadataBuffer d block done.length pre.length))
    (hfinish : ∀ pre blocks d, blocks ∈ f.steps → during pre blocks blocks d →
      before (pre ++ [blocks]) d) :
    before f.steps (install m f) := by
  have hranks : ∀ pre blocks, blocks ∈ f.steps → ∀ rest done d, blocks = done ++ rest →
      during pre blocks done d → during pre blocks blocks
        ((rest.zipIdx done.length).foldl
          (fun d b => installMetadataBuffer d b.fst b.snd pre.length) d) := by
    intro pre blocks hmem rest
    induction rest with
    | nil =>
      intro done d hdone h
      rw [List.append_nil] at hdone
      exact hdone ▸ h
    | cons block rest ih =>
      intro done d hdone h
      have hnext := ih (done ++ [block]) _ (by rw [hdone, List.append_assoc]; rfl)
        (hblock pre blocks done block rest d hmem hdone h)
      rw [List.length_append] at hnext
      exact hnext
  have hsteps : ∀ rest pre d, f.steps = pre ++ rest → before pre d → before f.steps
      ((rest.zipIdx pre.length).foldl
        (fun d s => installMetadataForTimestep d s.fst s.snd) d) := by
    intro rest
    induction rest with
    | nil =>
      intro pre d hpre h
      rw [List.append_nil] at hpre
      exact hpre ▸ h
    | cons blocks rest ih =>
      intro pre d hpre h
      have hmem : blocks ∈ f.steps := by
        rw [hpre]
        exact List.mem_append_right _ List.mem_cons_self
      have hstep := hranks pre blocks hmem blocks [] _ rfl (hsetup pre blocks d hmem h)
      have hnext := ih (pre ++ [blocks]) _ (by rw [hpre, List.append_assoc]; rfl)
        (hfinish pre blocks _ hmem hstep)
      rw [List.length_append] at hnext
      exact hnext
  exact hsteps f.steps [] (construct m f) rfl hinit

-- Setting up a step and installing a block, field by field of the reader.

@[simp]
theorem setupForStep_toModes (d : Deserializer α) (step writerCount : Nat) :
    (setupForStep d step writerCount).toModes = d.toModes := by
  unfold setupForStep
  dsimp only
  split <;> rfl

@[simp]
theorem setupForStep_controlArray (d : Deserializer α) (step writerCount : Nat) :
    (setupForStep d step writerCount).controlArray = d.controlArray := by
  unfold setupForStep
  dsimp only
  split <;> rfl

theorem setupForStep_writerCohortSizes {step writerCount : Nat}
    (hr : d.randomAccessMode = true) (hlen : d.writerCohortSizes.length = step) :
    (setupForStep d step writerCount).writerCohortSizes =
      d.writerCohortSizes ++ [writerCount] := by
  unfold setupForStep
  dsimp only
  rw [if_pos hr]
  dsimp only
  rw [resizeTo, hlen, Nat.add_sub_cancel_left, List.replicate_one, ← hlen,
    List.set_append_right _ _ (Nat.le_refl _), Nat.sub_self]
  rfl

@[simp]
theorem installMetadataBuffer_toModes (d : Deserializer α) (block : MetadataBlock α)
    (writerRank step : Nat) :
    (installMetadataBuffer d block writerRank step).toModes = d.toModes := by
  unfold installMetadataBuffer
  dsimp only
  split <;> rfl

@[simp]
theorem installMetadataBuffer_writerCohortSizes (d : Deserializer α) (block : MetadataBlock α)
    (writerRank step : Nat) :
    (installMetadataBuffer d block writerRank step).writerCohortSizes = d.writerCohortSizes := by
  unfold installMetadataBuffer
  dsimp only
  split <;> rfl

theorem installMetadataBuffer_controlArray (block : MetadataBlock α) (writerRank step : Nat)
    (hr : d.randomAccessMode = true) :
    ∃ b', block.Same b' ∧ (installMetadataBuffer d block writerRank step).controlArray =
      (resizeTo [] d.controlArray (step + 1)).modify step fun row =>
        (if row.isEmpty then .replicate (writerCohortSize d step) none else row).set writerRank
          (some b') := by
  refine ⟨_, installFields_same d writerRank step block.control.controls.zipIdx
    (block.control.controls.zipIdx.foldl (noteJoinedDimen block) d.varRecs, block), ?_⟩
  unfold installMetadataBuffer
  dsimp only
  rw [if_pos hr]

-- The rows of the control array.

def Holds (o : Option (MetadataBlock α)) (block : MetadataBlock α) : Prop :=
  ∃ b', o = some b' ∧ block.Same b'

theorem modify_concat {β : Type} (l : List β) (x : β) (g : β → β) :
    (l ++ [x]).modify l.length g = l ++ [g x] := by
  induction l with
  | nil => rfl
  | cons a l ih => simpa using ih

structure InstalledSteps (m : Modes) (pre : List (List (MetadataBlock α)))
    (d : Deserializer α) : Prop where
  modes   : d.toModes = m
  cohorts : d.writerCohortSizes = pre.map List.length
  rows    : List.Forall₂ (List.Forall₂ Holds) d.controlArray pre

-- The row of the step at hand is made with its first block.
structure InstallingStep (m : Modes) (pre : List (List (MetadataBlock α)))
    (blocks done : List (MetadataBlock α)) (d : Deserializer α) : Prop where
  modes   : d.toModes = m
  cohorts : d.writerCohortSizes = (pre ++ [blocks]).map List.length
  rows    : ∃ rows row, List.Forall₂ (List.Forall₂ Holds) rows pre ∧ List.Forall₂ Holds row done ∧
    d.controlArray = rows ++ if done = [] then [] else
      [row ++ .replicate (blocks.length - done.length) none]

theorem InstallingStep.writerCohortSize (h : InstallingStep m pre blocks done d)
    (hm : m.randomAccessMode = true) : writerCohortSize d pre.length = blocks.length := by
  have hr : d.randomAccessMode = true := by rw [h.modes, hm]
  have hlast : (pre.map List.length).length < (d.writerCohortSizes).length := by
    rw [h.cohorts]
    simp
  rw [Reader.writerCohortSize, if_pos hr, h.cohorts, List.getD_eq_getElem?_getD, List.map_append,
    List.getElem?_append_right (by simp)]
  simp

theorem InstallingStep.block {block : MetadataBlock α} {rest : List (MetadataBlock α)}
    (h : InstallingStep m pre blocks done d) (hm : m.randomAccessMode = true)
    (hblocks : blocks = done ++ block :: rest) :
    InstallingStep m pre blocks (done ++ [block])
      (installMetadataBuffer d block done.length pre.length) := by
  have hr : d.randomAccessMode = true := by rw [h.modes, hm]
  obtain ⟨rows, row, hrows, hrow, hd⟩ := h.rows
  obtain ⟨b', hb', harray⟩ :=
    installMetadataBuffer_controlArray block done.length pre.length hr
  have hlen : blocks.length - done.length = rest.length + 1 := by
    rw [hblocks, List.length_append, List.length_cons]
    omega
  have hlen' : blocks.length - (done ++ [block]).length = rest.length := by
    rw [hblocks]
    simp
    omega
  refine ⟨by rw [installMetadataBuffer_toModes, h.modes],
    by rw [installMetadataBuffer_writerCohortSizes, h.cohorts], rows, row ++ [some b'], hrows,
    List.rel_append hrow (.cons ⟨b', rfl, hb'⟩ .nil), ?_⟩
  rw [harray, if_neg (by simp), hlen', h.writerCohortSize hm, hd]
  have hsize : rows.length = pre.length := hrows.length_eq
  have hset : row.length = done.length := hrow.length_eq
  by_cases hdone : done = []
  · subst hdone
    cases hrow
    rw [if_pos rfl, List.append_nil, resizeTo, hsize, Nat.add_sub_cancel_left, List.replicate_one,
      ← hsize, modify_concat, hblocks]
    simp [List.replicate_succ]
  · rw [if_neg hdone, resizeTo, List.length_append, hsize, List.length_singleton, Nat.sub_self,
      List.replicate_zero, List.append_nil, ← hsize, modify_concat, hlen, List.replicate_succ]
    have hrow : row ≠ [] := fun he =>
      hdone (List.eq_nil_of_length_eq_zero (by rw [← hset, he]; rfl))
    rw [if_neg (by simp [hrow]), ← hset, List.set_append_right _ _ (Nat.le_refl _), Nat.sub_self]
    simp

theorem InstalledSteps.setup (h : InstalledSteps m pre d) (hm : m.randomAccessMode = true)
    (blocks : List (MetadataBlock α)) :
    InstallingStep m pre blocks [] (setupForStep d pre.length blocks.length) where
  modes   := by rw [setupForStep_toModes, h.modes]
  cohorts := by
    have hr : d.randomAccessMode = true := by rw [h.modes, hm]
    rw [setupForStep_writerCohortSizes hr (by rw [h.cohorts, List.length_map]), h.cohorts,
      List.map_append]
    rfl
  rows    := ⟨d.controlArray, [], h.rows, .nil, by simp⟩

theorem InstallingStep.finish (h : InstallingStep m pre blocks blocks d) (hblocks : blocks ≠ []) :
    InstalledSteps m (pre ++ [blocks]) d where
  modes   := h.modes
  cohorts := h.cohorts
  rows    := by
    obtain ⟨rows, row, hrows, hrow, hd⟩ := h.rows
    rw [hd, if_neg hblocks, Nat.sub_self, List.replicate_zero, List.append_nil]
    exact List.rel_append hrows (.cons hrow .nil)

-- There is a location for each block of a record, and for what is compressed a size.
structure MetaArrayRec.WellFormed (r : MetaArrayRec α) (v : VarRec) : Prop where
  locations : r.dataBlockLocation.length = r.blockCount
  sizes     : v.operator ≠ none → r.dataBlockSize.length = r.blockCount

-- A file as writers leave it: each step has a writer, and the formats are their own.
structure Written.WellFormed (f : Written α) : Prop where
  writers    : ∀ blocks ∈ f.steps, blocks ≠ []
  arrays     : ∀ (varNum step writerRank : Nat) (v : VarRec) (field : Field α),
    f.varRecs[varNum]? = some v → v.origShapeID.IsArray →
      f.record varNum step writerRank = some field → field.array.WellFormed v
  consistent : ∀ blocks ∈ f.steps, ∀ block ∈ blocks, block.control.Consistent
  unseen     : ∀ v ∈ f.varRecs, v.absStepFromRel = []

theorem installedSteps (hf : f.WellFormed) (hm : m.randomAccessMode = true) :
    InstalledSteps m f.steps (install m f) :=
  install_induction ⟨rfl, rfl, .nil⟩
    (fun _ blocks _ _ h => h.setup hm blocks)
    (fun _ _ _ _ _ _ _ hblocks h => h.block hm hblocks)
    (fun _ blocks _ hmem h => h.finish (hf.writers blocks hmem))

section

variable (hf : f.WellFormed) (hm : m.randomAccessMode = true)
include hf hm

theorem install_length_controlArray : (install m f).controlArray.length = f.steps.length :=
  (installedSteps hf hm).rows.length_eq

theorem install_writerCohortSize {step : Nat} (hstep : step < f.steps.length) :
    writerCohortSize (install m f) step = f.cohort step := by
  have h := installedSteps hf hm
  have hr : (install m f).randomAccessMode = true := by rw [h.modes, hm]
  rw [writerCohortSize, if_pos hr, h.cohorts, Written.cohort, List.getD_eq_getElem?_getD,
    List.getElem?_map, List.getD_eq_getElem?_getD, List.getElem?_eq_getElem hstep]
  rfl

theorem install_getMetadataBase (varNum step writerRank : Nat) :
    ∃ o, getMetadataBase (install m f) varNum step writerRank = .ok o ∧
      o.map Field.stored = (f.record varNum step writerRank).map Field.stored := by
  have h := installedSteps hf hm
  have hr : (install m f).randomAccessMode = true := by rw [h.modes, hm]
  have hrows := h.rows
  rw [List.forall₂_iff_get] at hrows
  rw [getMetadataBase, if_pos hr, Written.record, List.getD_eq_getElem?_getD,
    List.getD_eq_getElem?_getD]
  by_cases hstep : step < f.steps.length
  · have hstep' := hrows.left ▸ hstep
    have hrow := hrows.right step hstep' hstep
    rw [List.get_eq_getElem, List.get_eq_getElem] at hrow
    rw [List.getElem?_eq_getElem hstep, List.getElem?_eq_getElem hstep', Option.getD_some,
      Option.getD_some]
    rw [List.forall₂_iff_get] at hrow
    by_cases hrank : writerRank < f.steps[step].length
    · have hrank' := hrow.left ▸ hrank
      obtain ⟨b', ho, hsame⟩ := hrow.right writerRank hrank' hrank
      rw [List.get_eq_getElem] at ho
      rw [List.getElem?_eq_getElem hrank, List.getElem?_eq_getElem hrank', ho]
      exact ⟨b'.record varNum, rfl, hsame.record varNum⟩
    · rw [List.getElem?_eq_none (Nat.le_of_not_lt hrank),
        List.getElem?_eq_none (Nat.le_trans (Nat.le_of_eq hrow.left) (Nat.le_of_not_lt hrank))]
      exact ⟨none, rfl, rfl⟩
  · rw [List.getElem?_eq_none (Nat.le_of_not_lt hstep),
      List.getElem?_eq_none (Nat.le_trans (Nat.le_of_eq hrows.left) (Nat.le_of_not_lt hstep))]
    exact ⟨none, rfl, rfl⟩

end

-- What installation keeps of a variable.

def VarRec.static (v : VarRec) : BP5.VarRec :=
  { v.toVarRec with dimCount := 0 }

theorem VarRec.of_static {v v' : VarRec} (h : v.static = v'.static) :
    v.origShapeID = v'.origShapeID ∧ v.operator = v'.operator ∧ v.derived = v'.derived := by
  have hshape := congrArg BP5.VarRec.origShapeID h
  have hoperator := congrArg BP5.VarRec.operator h
  have hderived := congrArg BP5.VarRec.derived h
  exact ⟨hshape, hoperator, hderived⟩

-- Neither the steps nor what describes the variable is touched by what a joined array adds up.
structure VarRec.Kept (v v' : VarRec) : Prop where
  static : v'.static = v.static
  steps  : v'.absStepFromRel = v.absStepFromRel

theorem VarRec.Kept.refl (v : VarRec) : v.Kept v :=
  ⟨rfl, rfl⟩

theorem VarRec.Kept.trans {v v' v'' : VarRec} (h : v.Kept v') (h' : v'.Kept v'') : v.Kept v'' :=
  ⟨h'.static.trans h.static, h'.steps.trans h.steps⟩

theorem startJoinedShape_kept (v : VarRec) : v.Kept (startJoinedShape v) := by
  unfold startJoinedShape
  split
  · exact ⟨rfl, rfl⟩
  · exact .refl v

theorem joinBlock_kept (r : MetaArrayRec α) (s : VarRec × List Nat) (b : Nat) :
    s.fst.Kept (joinBlock r s b).fst := by
  refine (startJoinedShape_kept s.fst).trans ?_
  unfold joinBlock
  dsimp only
  split
  · exact ⟨rfl, rfl⟩
  · exact .refl _

theorem joinBlocks_kept (r : MetaArrayRec α) (l : List Nat) (s : VarRec × List Nat) :
    s.fst.Kept (l.foldl (joinBlock r) s).fst := by
  induction l generalizing s with
  | nil => exact .refl _
  | cons b l ih => exact (joinBlock_kept r s b).trans (ih _)

theorem installArray_kept (d : Deserializer α) (writerRank : Nat) (origShapeID : ShapeID)
    (r : MetaArrayRec α) (v : VarRec) :
    v.Kept (installArray d writerRank origShapeID r v).snd := by
  unfold installArray
  dsimp only
  split
  · have hchosen : v.Kept (chooseGlobalDims writerRank (toReaderOrder d origShapeID r) v) :=
      ⟨rfl, rfl⟩
    have hjoined := hchosen.trans (joinBlocks_kept (toReaderOrder d origShapeID r)
      (List.range (metaBlockCount (toReaderOrder d origShapeID r))) (_, []))
    exact ⟨hjoined.static, hjoined.steps⟩
  · exact ⟨rfl, rfl⟩

theorem noteField_static (hr : d.randomAccessMode = true) (writerRank step : Nat) (offset : Int)
    (v : VarRec) : (noteField d writerRank step offset v).static = v.static := by
  rw [noteField, noteStep, if_pos hr]
  split <;> rfl

theorem noteField_absStepFromRel (hr : d.randomAccessMode = true) (writerRank step : Nat)
    (offset : Int) (v : VarRec) :
    (noteField d writerRank step offset v).absStepFromRel =
      if v.absStepFromRel.getLast? = some step then v.absStepFromRel
      else v.absStepFromRel ++ [step] := by
  rw [noteField, noteStep, if_pos hr]
  dsimp only
  split <;> rfl

theorem dimenNoted_kept (control : ControlStruct) (field : Field α) (v : VarRec) :
    v.Kept (v.dimenNoted control field) := by
  unfold VarRec.dimenNoted
  split
  · exact ⟨rfl, rfl⟩
  · exact .refl v

theorem seen_kept (d : Deserializer α) (writerRank step : Nat) (control : ControlStruct)
    (field : Field α) (v : VarRec) :
    (noteField d writerRank step control.fieldOffset (v.dimenNoted control field)).Kept
      (v.seen d writerRank step control field) := by
  unfold VarRec.seen
  dsimp only
  split
  · exact installArray_kept d writerRank control.origShapeID field.array _
  · exact .refl _

theorem seen_static (hr : d.randomAccessMode = true) (writerRank step : Nat)
    (control : ControlStruct) (field : Field α) (v : VarRec) :
    (v.seen d writerRank step control field).static = v.static := by
  rw [(seen_kept d writerRank step control field v).static, noteField_static hr,
    (dimenNoted_kept control field v).static]

theorem seen_absStepFromRel (hr : d.randomAccessMode = true) (writerRank step : Nat)
    (control : ControlStruct) (field : Field α) (v : VarRec) :
    (v.seen d writerRank step control field).absStepFromRel =
      if v.absStepFromRel.getLast? = some step then v.absStepFromRel
      else v.absStepFromRel ++ [step] := by
  rw [(seen_kept d writerRank step control field v).steps, noteField_absStepFromRel hr,
    (dimenNoted_kept control field v).steps]

-- The steps of a variable.

theorem writtenIn_append (pre : List (List (MetadataBlock α))) (blocks : List (MetadataBlock α))
    (varNum : Nat) :
    writtenIn (pre ++ [blocks]) varNum =
      writtenIn pre varNum ++ if writesIn blocks varNum then [pre.length] else [] := by
  rw [writtenIn, List.length_append, List.length_singleton, List.range_succ, List.filter_append]
  congr 1
  · refine List.filter_congr fun step hstep => ?_
    rw [List.getD_append _ _ _ _ (List.mem_range.mp hstep)]
  · rw [List.filter_singleton, List.getD_append_right _ _ _ _ (Nat.le_refl _), Nat.sub_self,
      Bool.cond_eq_ite]
    rfl

theorem lt_of_mem_writtenIn {step : Nat} (h : step ∈ writtenIn pre varNum) : step < pre.length :=
  List.mem_range.mp (List.mem_filter.mp h).left

-- A variable that the file began with, after the steps of which it knows.
def Follows (f : Written α) (varNum : Nat) (steps : List Nat) (d : Deserializer α) : Prop :=
  (d.varRecs[varNum]?).map (fun v => (v.static, v.absStepFromRel)) =
    (f.varRecs[varNum]?).map fun v => (v.static, steps)

theorem Follows.setup {steps : List Nat} (h : Follows f varNum steps d) (step writerCount : Nat) :
    Follows f varNum steps (setupForStep d step writerCount) := by
  have hreset : (setupForStep d step writerCount).varRecs = d.varRecs.map fun v =>
      if v.origShapeID = .joinedArray then { v with joinedDimen := none, lastJoinedShape := none }
      else v := by
    unfold setupForStep
    dsimp only
    split <;> rfl
  rw [Follows, hreset, List.getElem?_map, Option.map_map, ← h]
  refine congrArg (Option.map · _) (funext fun v => ?_)
  rw [Function.comp_apply]
  split <;> rfl

theorem Follows.block {block : MetadataBlock α} (hc : block.control.Consistent)
    (hr : d.randomAccessMode = true) (writerRank : Nat)
    (h : Follows f varNum (writtenIn (pre ++ [done]) varNum) d) :
    Follows f varNum (writtenIn (pre ++ [done ++ [block]]) varNum)
      (installMetadataBuffer d block writerRank pre.length) := by
  have hany : writesIn (done ++ [block]) varNum =
      (writesIn done varNum || (block.record varNum).isSome) := by
    simp [writesIn]
  rw [writtenIn_append] at h
  rw [writtenIn_append, hany]
  cases hrec : block.record varNum with
  | none =>
    rw [Option.isSome_none, Bool.or_false, Follows, installMetadataBuffer_of_none hc hrec]
    exact h
  | some field =>
    obtain ⟨control, -, -, hnew⟩ :=
      installMetadataBuffer_of_some d writerRank pre.length hc hrec
    rw [Option.isSome_some, Bool.or_true, if_pos rfl, Follows, hnew, Option.map_map]
    cases hv : d.varRecs[varNum]? with
    | none =>
      rw [Follows, hv] at h
      cases hv₀ : f.varRecs[varNum]? with
      | none => rfl
      | some v₀ =>
        rw [hv₀] at h
        cases h
    | some v =>
      rw [Follows, hv] at h
      cases hv₀ : f.varRecs[varNum]? with
      | none =>
        rw [hv₀] at h
        cases h
      | some v₀ =>
        rw [hv₀] at h
        have ⟨hstatic, hsteps⟩ := Prod.mk.inj (Option.some.inj h)
        rw [Option.map_some, Option.map_some, Function.comp_apply, seen_static hr,
          seen_absStepFromRel hr, hstatic, hsteps]
        by_cases hdone : writesIn done varNum = true
        · rw [if_pos hdone, if_pos (by simp)]
        · rw [if_neg hdone, List.append_nil, if_neg]
          intro hlast
          exact Nat.lt_irrefl _ (lt_of_mem_writtenIn (List.mem_of_getLast? hlast))

theorem install_follows (hf : f.WellFormed) (hm : m.randomAccessMode = true) (varNum : Nat) :
    Follows f varNum (f.writtenSteps varNum) (install m f) := by
  refine (@install_induction α m f
    (fun pre d => d.toModes = m ∧ Follows f varNum (writtenIn pre varNum) d)
    (fun pre _ done d =>
      d.toModes = m ∧ Follows f varNum (writtenIn (pre ++ [done]) varNum) d)
    ⟨rfl, ?_⟩ ?_ ?_ (fun _ _ _ _ h => h)).right
  · rw [Follows, construct]
    cases hv : f.varRecs[varNum]? with
    | none => rfl
    | some v =>
      have hv' := hf.unseen v (List.mem_of_getElem? hv)
      rw [Option.map_some, Option.map_some, hv']
      rfl
  · intro pre blocks d _ ⟨hd, h⟩
    refine ⟨by rw [setupForStep_toModes, hd], Follows.setup ?_ _ _⟩
    rw [writtenIn_append, if_neg (by simp [writesIn]), List.append_nil]
    exact h
  · intro pre blocks done block rest d hmem hblocks ⟨hd, h⟩
    refine ⟨by rw [installMetadataBuffer_toModes, hd], h.block ?_ (by rw [hd, hm]) _⟩
    refine hf.consistent blocks hmem block ?_
    rw [hblocks]
    exact List.mem_append_right _ List.mem_cons_self

-- The variable has its steps, and is described as it was.
theorem install_varRec (hf : f.WellFormed) (hm : m.randomAccessMode = true) {v₀ : VarRec}
    (hv : f.varRecs[varNum]? = some v₀) :
    ∃ v, (install m f).varRecs[varNum]? = some v ∧ v.static = v₀.static ∧
      v.absStepFromRel = f.writtenSteps varNum := by
  have h := install_follows hf hm varNum
  rw [Follows, hv, Option.map_some] at h
  obtain ⟨v, hv', heq⟩ := Option.map_eq_some_iff.mp h
  have ⟨hstatic, hsteps⟩ := Prod.mk.inj heq
  exact ⟨v, hv', hstatic, hsteps⟩

end BP5.Reader
