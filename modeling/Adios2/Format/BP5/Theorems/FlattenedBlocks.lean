import Adios2.Format.BP5.Theorems.InstalledSteps
import Adios2.Format.BP5.Theorems.BlockReads

-- Files with one variable, in formats with one field.

namespace BP5.Reader

open CString Helper

variable {α : Type}

def singleControl (origShapeID : ShapeID) : ControlInfo where
  format          := { name := ascii "BP5", fieldList := [] }
  controls        := [{ fieldOffset := 24, varNum := 0, origShapeID, type := none
                        elementSize := none }]
  metaFieldOffset := [24]
  varIndex        := [0]

theorem singleControl_consistent (origShapeID : ShapeID) :
    (singleControl origShapeID).Consistent where
  indexed    := by
    rintro (_ | i) control h
    · cases h
      exact ⟨rfl, rfl, Int.ofNat_ne_zero.mpr (by decide)⟩
    · cases h
  controlled := by
    rintro (_ | varNum) offset h -
    · exact ⟨0, _, rfl, rfl⟩
    · cases h
  distinct   := by
    rintro (_ | i) (_ | j) control control' h h' -
    · rfl
    · cases h'
    · cases h
    · cases h

-- A rank's block of a step, with the variable's record if it was written.
def singleBlock (origShapeID : ShapeID) (zero : α) (r : Option (MetaArrayRec α)) :
    MetadataBlock α where
  control  := singleControl origShapeID
  bitField := [if r.isSome then 1 else 0]
  field    := fun _ => {
    array := r.getD { dims := 0, blockCount := 0, dbCount := 0, shape := none, count := []
                      offsets := none, dataBlockLocation := [], dataBlockSize := [], minMax := [] }
    value := zero }

def singleVarRec (origShapeID : ShapeID) (type : DataType) (minMaxOffset : Option Nat) :
    VarRec where
  varNum                   := 0
  varName                  := ascii "v"
  dimCount                 := 0
  derived                  := false
  exprStr                  := none
  origShapeID              := origShapeID
  structDef                := none
  operator                 := none
  type                     := type.toNat
  elementSize              := getDataTypeSize type
  minMaxOffset             := minMaxOffset
  perWriterMetaFieldOffset := []
  joinedDimen              := none
  globalDims               := none
  lastJoinedShape          := none
  shapes                   := []
  lastTSAdded              := none
  absStepFromRel           := []

def singleFile (v : VarRec) (zero : α) (steps : List (List (Option (MetaArrayRec α)))) :
    Written α where
  steps         := steps.map (·.map (singleBlock v.origShapeID zero))
  varRecs       := [v]
  derivedInputs := fun _ => []

theorem record_singleBlock {origShapeID : ShapeID} {zero : α} {r : Option (MetaArrayRec α)}
    {varNum : Nat} {field : Field α}
    (h : (singleBlock origShapeID zero r).record varNum = some field) :
    varNum = 0 ∧ r = some field.array := by
  cases varNum with
  | succ varNum => cases h
  | zero =>
    cases r with
    | none => simp [MetadataBlock.record, singleBlock, singleControl, bitfieldTest] at h
    | some r =>
      have hfield : field = { array := r, value := zero } := by
        simpa [MetadataBlock.record, singleBlock, singleControl, bitfieldTest] using h.symm
      exact ⟨rfl, by rw [hfield]⟩

theorem singleFile_wellFormed {origShapeID : ShapeID} {type : DataType} {minMaxOffset : Option Nat}
    {zero : α} {steps : List (List (Option (MetaArrayRec α)))}
    (hsteps : ∀ ranks ∈ steps, ranks ≠ [])
    (harrays : ∀ ranks ∈ steps, ∀ r, some r ∈ ranks →
      r.WellFormed (singleVarRec origShapeID type minMaxOffset)) :
    (singleFile (singleVarRec origShapeID type minMaxOffset) zero steps).WellFormed where
  writers    := by
    intro blocks hmem
    obtain ⟨ranks, hranks, rfl⟩ := List.mem_map.mp hmem
    simpa using hsteps ranks hranks
  arrays     := by
    intro varNum step writerRank v field hv _ hrec
    obtain ⟨block, hblock, hrec⟩ := Option.bind_eq_some_iff.mp hrec
    have hmem := List.mem_of_getElem? hblock
    rw [singleFile, List.getD_eq_getElem?_getD, List.getElem?_map] at hmem
    cases hranks : steps[step]? with
    | none =>
      rw [hranks] at hmem
      cases hmem
    | some ranks =>
      rw [hranks] at hmem
      obtain ⟨r, hr, rfl⟩ := List.mem_map.mp hmem
      have ⟨hzero, hfield⟩ := record_singleBlock hrec
      subst hzero
      cases hv
      exact harrays ranks (List.mem_of_getElem? hranks) field.array (hfield ▸ hr)
  consistent := by
    intro blocks hmem block hblock
    obtain ⟨ranks, -, rfl⟩ := List.mem_map.mp hmem
    obtain ⟨r, -, rfl⟩ := List.mem_map.mp hblock
    exact singleControl_consistent origShapeID
  unseen     := by
    intro v hv
    rw [List.mem_singleton.mp hv]
    rfl

end BP5.Reader

-- A Get of a block of a file whose steps are flattened.

namespace BP5.Reader

open Bytes Helper

variable {α : Type} {m : Modes} {f : Written α} {d : Deserializer α} {varNum : Nat}
variable {var : Variable} {selection : Selection} {b : Nat}

-- The selection is of block b of the only step, or of a region in it where the block is an array of
-- its own.
structure Selection.IsBlock (selection : Selection) (var : Variable) (b : Nat) : Prop where
  blockID : selection.blockID = some b
  whole   : selection.selType ≠ .boundingBox ∨ var.shapeID = .localArray
  start   : selection.stepStart = 0
  count   : selection.stepCount = 1

theorem arrayRequest_block (h : selection.IsBlock var b) (data absStep relStep : Nat) :
    ∃ req, arrayRequest var data absStep relStep selection = some req ∧
      req.varNum = var.varNum ∧ req.requestType = .local ∧ req.step = absStep ∧
      req.blockID = b := by
  have hblock := h.blockID
  unfold arrayRequest
  rcases h.whole with hwhole | hlocal
  · cases hsel : selection.selType with
    | boundingBox => exact absurd hsel hwhole
    | writeBlock => simp [hblock]
    | all => simp [hblock]
  · cases hsel : selection.selType with
    | boundingBox => simp [hblock, hlocal]
    | writeBlock => simp [hblock]
    | all => simp [hblock]

-- What is left alone by installation.

theorem install_toModes : (install m f).toModes = m :=
  @install_induction α m f (fun _ d => d.toModes = m) (fun _ _ _ d => d.toModes = m)
    rfl (fun _ _ _ _ h => (setupForStep_toModes _ _ _).trans h)
    (fun _ _ _ _ _ _ _ _ h => (installMetadataBuffer_toModes _ _ _ _).trans h)
    (fun _ _ _ _ h => h)

theorem setupForStep_derivedInputs (d : Deserializer α) (step writerCount : Nat) :
    (setupForStep d step writerCount).derivedInputs = d.derivedInputs := by
  unfold setupForStep
  dsimp only
  split <;> rfl

theorem installMetadataBuffer_derivedInputs (d : Deserializer α) (block : MetadataBlock α)
    (writerRank step : Nat) :
    (installMetadataBuffer d block writerRank step).derivedInputs = d.derivedInputs := by
  unfold installMetadataBuffer
  dsimp only
  split <;> rfl

theorem install_derivedInputs : (install m f).derivedInputs = f.derivedInputs :=
  @install_induction α m f (fun _ d => d.derivedInputs = f.derivedInputs)
    (fun _ _ _ d => d.derivedInputs = f.derivedInputs)
    rfl (fun _ _ _ _ h => (setupForStep_derivedInputs _ _ _).trans h)
    (fun _ _ _ _ _ _ _ _ h => (installMetadataBuffer_derivedInputs _ _ _ _).trans h)
    (fun _ _ _ _ h => h)

-- Without random access nothing gets into the control array.
theorem install_controlArray_streaming (hm : m.randomAccessMode = false) :
    (install m f).controlArray = [] := by
  have hinstall : (install m f).toModes = m ∧ (install m f).controlArray = [] := by
    refine @install_induction α m f (fun _ d => d.toModes = m ∧ d.controlArray = [])
      (fun _ _ _ d => d.toModes = m ∧ d.controlArray = []) ⟨rfl, rfl⟩
      (fun _ _ _ _ h => ?_) (fun _ _ _ _ _ d _ _ h => ?_) (fun _ _ _ _ h => h)
    · rw [setupForStep_toModes, setupForStep_controlArray]
      exact h
    · rw [installMetadataBuffer_toModes]
      refine ⟨h.left, ?_⟩
      have hr : d.randomAccessMode = false := by rw [h.left, hm]
      unfold installMetadataBuffer
      dsimp only
      rw [if_neg (by simp [hr])]
      exact h.right
  exact hinstall.right

-- The steps in which the variable was written are those that it has blocks of, or none.

theorem isSome_record_of_mem_stepBlocks {step writerRank k : Nat}
    (h : (writerRank, k) ∈ f.stepBlocks varNum step) :
    writerRank < f.cohort step ∧ (f.record varNum step writerRank).isSome = true := by
  rw [Written.stepBlocks, Written.rankBlocks, List.mem_flatMap] at h
  obtain ⟨rank, hrank, hmem⟩ := h
  obtain ⟨k', hk', heq⟩ := List.mem_map.mp hmem
  cases heq
  refine ⟨List.mem_range.mp hrank, ?_⟩
  rw [Written.blockCount] at hk'
  cases hrec : f.record varNum step writerRank with
  | some field => rfl
  | none =>
    rw [hrec] at hk'
    exact absurd (List.mem_range.mp hk') (Nat.not_lt_zero _)

theorem writesIn_iff {step : Nat} :
    writesIn (f.steps.getD step []) varNum = true ↔
      ∃ writerRank < f.cohort step, (f.record varNum step writerRank).isSome = true := by
  rw [writesIn, List.any_eq_true]
  constructor
  · rintro ⟨block, hmem, hrec⟩
    obtain ⟨writerRank, hrank, hblock⟩ := List.mem_iff_getElem.mp hmem
    refine ⟨writerRank, hrank, ?_⟩
    rw [Written.record, List.getElem?_eq_getElem hrank, hblock]
    exact hrec
  · rintro ⟨writerRank, hrank, hrec⟩
    rw [Written.record, List.getElem?_eq_getElem hrank] at hrec
    exact ⟨_, List.getElem_mem hrank, hrec⟩

theorem mem_writtenSteps_of_block {step writerRank k : Nat}
    (h : (f.blocks varNum)[b]? = some (step, writerRank, k)) : step ∈ f.writtenSteps varNum := by
  obtain ⟨pre, hsteps, -, hblock⟩ := Written.blocks_getElem? h
  have hmem : step ∈ List.range f.steps.length := by
    rw [hsteps]
    exact List.mem_append_right _ List.mem_cons_self
  have ⟨hrank, hrec⟩ := isSome_record_of_mem_stepBlocks (List.mem_of_getElem? hblock)
  exact List.mem_filter.mpr ⟨hmem, writesIn_iff.mpr ⟨writerRank, hrank, hrec⟩⟩

section

variable {v v₀ : VarRec} {step : Nat}

theorem anyWrote_eq (h : Reads f d varNum v) (writerRanks : List Nat) :
    anyWrote d varNum step writerRanks =
      .ok (writerRanks.any fun writerRank => (f.record varNum step writerRank).isSome) := by
  induction writerRanks with
  | nil => rfl
  | cons writerRank writerRanks ih =>
    rcases h.record step writerRank with ⟨hrec, hbase⟩ | ⟨field, field', hrec, hbase, -⟩
    · rw [anyWrote, hbase, Outcome.ok_bind, List.any_cons, hrec, Option.isSome_none, Bool.false_or]
      exact ih
    · rw [anyWrote, hbase, Outcome.ok_bind, List.any_cons, hrec, Option.isSome_some, Bool.true_or]
      rfl

variable (hf : f.WellFormed) (hm : m.randomAccessMode = true)
include hf hm

theorem install_reads (hv₀ : f.varRecs[varNum]? = some v₀) (harray : v₀.origShapeID.IsArray)
    (hstatic : v.static = v₀.static) : Reads f (install m f) varNum v where
  metadata := install_getMetadataBase hf hm varNum
  cohorts  := fun _ => install_writerCohortSize hf hm
  arrays   := fun step writerRank field hrec => by
    have hwf := hf.arrays varNum step writerRank v₀ field hv₀ harray hrec
    have hop := (VarRec.of_static hstatic).right.left
    exact ⟨hwf.locations, fun h => hwf.sizes (hop ▸ h)⟩

-- One request is queued, for the first step in which the variable was written.
theorem queueGet_block (hv₀ : f.varRecs[var.varNum]? = some v₀) (harray : v₀.origShapeID.IsArray)
    (hsel : selection.IsBlock var b) (hfirst : (f.writtenSteps var.varNum).head? = some step)
    (data : Nat) :
    ∃ req, queueGet (install m f) [] var data selection = .ok [req] ∧ req.varNum = var.varNum ∧
      req.requestType = .local ∧ req.step = step ∧ req.blockID = b := by
  obtain ⟨v, hv, hstatic, hsteps⟩ := install_varRec hf hm hv₀
  have hreads := install_reads hf hm hv₀ harray hstatic
  have hshape := (VarRec.of_static hstatic).left
  have hmem : step ∈ f.writtenSteps var.varNum := List.mem_of_head? hfirst
  have ⟨hlt, hwrites⟩ := List.mem_filter.mp hmem
  have hzero : (f.writtenSteps var.varNum)[0]? = some step := by
    rw [← List.head?_eq_getElem?, hfirst]
  have hr : (install m f).randomAccessMode = true := by rw [install_toModes, hm]
  obtain ⟨req, hreq, hnum, htype, hstep, hblock⟩ := arrayRequest_block hsel data step 0
  refine ⟨req, ?_, hnum, htype, hstep, hblock⟩
  have hany : anyWrote (install m f) var.varNum step
      (List.range (writerCohortSize (install m f) step)) = .ok true := by
    rw [anyWrote_eq hreads, install_writerCohortSize hf hm (List.mem_range.mp hlt)]
    obtain ⟨writerRank, hrank, hrec⟩ := writesIn_iff.mp hwrites
    exact congrArg _ (List.any_eq_true.mpr ⟨writerRank, List.mem_range.mpr hrank, hrec⟩)
  have hne : ¬ (v.origShapeID = .globalValue ∨ v.origShapeID = .localValue) := by
    rw [hshape]
    rintro (h | h) <;> rw [h] at harray <;> exact harray
  have hlen : ¬ v.absStepFromRel.length < selection.stepStart + selection.stepCount := by
    rw [hsteps, hsel.start, hsel.count]
    have := List.length_pos_of_mem hmem
    omega
  rw [queueGet, if_pos hr, hv, Option.orUndefined_some, Outcome.ok_bind, if_neg hlen, hsel.start,
    hsel.count, List.range'_one, queueGetSteps, hsteps, hzero, Option.orUndefined_some,
    Outcome.ok_bind, hany, Outcome.ok_bind, if_pos rfl, queueGetSingle, hv, Option.orUndefined_some,
    Outcome.ok_bind, if_neg hne, hreq]
  rfl

end

-- The requests that have been queued.

theorem generateReadRequests_singleton
    (globalRequests : BP5ArrayRequest → Nat → ReadRequests → Outcome ReadRequests)
    (req : BP5ArrayRequest) (doAllocTempBuffers : Bool) :
    generateReadRequests d globalRequests [req] doAllocTempBuffers =
      generateReadRequest d globalRequests doAllocTempBuffers { requests := [], maxReadSize := 0 }
        (req, 0) := by
  rw [generateReadRequests, List.zipIdx_singleton, List.foldlM_cons]
  exact bind_pure _

-- Without random access the loop over the steps is empty.
theorem performGet_streaming (hm : m.randomAccessMode = false) (hflat : m.flattenSteps = true)
    (hsel : selection.IsBlock var b) {data : Nat} {doAllocTempBuffers : Bool} {ret : ReadRequests}
    {globalRequests : BP5ArrayRequest → Nat → ReadRequests → Outcome ReadRequests}
    (hok : performGet (install m f) globalRequests var data selection doAllocTempBuffers =
      .ok ret) :
    ret.requests = [] := by
  have hr : (install m f).randomAccessMode = false := by rw [install_toModes, hm]
  have hflat' : (install m f).flattenSteps = true := by rw [install_toModes, hflat]
  obtain ⟨pending, hpending, hret⟩ := Outcome.bind_eq_ok.mp hok
  rw [queueGet, if_neg (by simp [hr]), queueGetSingle] at hpending
  obtain ⟨v, hv, hpending⟩ := Outcome.bind_eq_ok.mp hpending
  split at hpending
  case isTrue =>
    cases hpending
    cases hret
    rfl
  case isFalse =>
    obtain ⟨req, hreq, -, htype, -⟩ := arrayRequest_block hsel data (install m f).curTimestep
      (install m f).curTimestep
    rw [hreq] at hpending
    cases hpending
    rw [List.nil_append, Option.toList_some, generateReadRequests_singleton,
      generateReadRequest] at hret
    obtain ⟨v', -, hret⟩ := Outcome.bind_eq_ok.mp hret
    dsimp only at hret
    rw [htype, hflat', if_pos rfl, install_controlArray_streaming hm] at hret
    dsimp only [List.length_nil, List.range_zero, stepsLoop, Outcome.ok_bind] at hret
    split at hret
    · cases hret
      rfl
    · cases hret

-- What a derived variable has yet to be computed from, when its blocks are asked for.
def Written.unreadInputs (f : Written α) (varNum : Nat) : List (List Byte) :=
  match f.varRecs[varNum]? with
  | some v => if v.derived then f.derivedInputs varNum else []
  | none   => []

-- A Get of block b gives one request, for the block that is number b of all steps, exactly if the
-- block is of the first step in which the variable was written, has data, and has no more blocks of
-- later steps behind it than blocks of its own rank in front of it.
theorem flattened_block_request {v₀ : VarRec} (hf : f.WellFormed) (hflat : m.flattenSteps = true)
    (hv₀ : f.varRecs[var.varNum]? = some v₀) (harray : v₀.origShapeID.IsArray)
    (hsel : selection.IsBlock var b) (hb : b < (f.blocks var.varNum).length) (data : Nat)
    (doAllocTempBuffers : Bool)
    (globalRequests : BP5ArrayRequest → Nat → ReadRequests → Outcome ReadRequests) :
    (∃ ret rr, performGet (install m f) globalRequests var data selection doAllocTempBuffers =
        .ok ret ∧ ret.requests = [rr] ∧
        (f.blocks var.varNum)[b]? = some (rr.timestep, rr.writerRank, rr.blockID)) ↔
      m.randomAccessMode = true ∧ f.unreadInputs var.varNum = [] ∧
        ∃ step writerRank k, (f.blocks var.varNum)[b]? = some (step, writerRank, k) ∧
          (f.writtenSteps var.varNum).head? = some step ∧
          f.location var.varNum (step, writerRank, k) ≠ some (2 ^ 64 - 1) ∧
          (f.blocksOf var.varNum (f.stepsAfter step)).length ≤ k := by
  by_cases hm : m.randomAccessMode = true
  case neg =>
    constructor
    · rintro ⟨ret, rr, hok, hone, -⟩
      have hnone := performGet_streaming (Bool.eq_false_iff.mpr hm) hflat hsel hok
      rw [hone] at hnone
      cases hnone
    · rintro ⟨hm', -⟩
      exact absurd hm' hm
  case pos =>
    obtain ⟨⟨step, writerRank, k⟩, hblock⟩ : ∃ block, (f.blocks var.varNum)[b]? = some block :=
      ⟨_, List.getElem?_eq_getElem hb⟩
    obtain ⟨first, hfirst⟩ : ∃ first, (f.writtenSteps var.varNum).head? = some first :=
      ⟨_, List.head?_eq_some_head (List.ne_nil_of_mem (mem_writtenSteps_of_block hblock))⟩
    obtain ⟨req, hqueue, hnum, htype, hstep, hblockID⟩ :=
      queueGet_block hf hm hv₀ harray hsel hfirst data
    obtain ⟨v, hv, hstatic, -⟩ := install_varRec hf hm hv₀
    have hreads : Reads f (install m f) req.varNum v :=
      hnum ▸ install_reads hf hm hv₀ harray hstatic
    have hloop := stepsLoop_block hreads 0 doAllocTempBuffers
      (by rw [hnum, hblockID]; exact hblock)
    have hinputs : (if v.derived then (install m f).derivedInputs var.varNum else []) =
        f.unreadInputs var.varNum := by
      rw [Written.unreadInputs, hv₀, install_derivedInputs, (VarRec.of_static hstatic).right.right]
    rw [hnum] at hloop
    have hflat' : (install m f).flattenSteps = true := by rw [install_toModes, hflat]
    rw [performGet, hqueue, Outcome.ok_bind, generateReadRequests_singleton, generateReadRequest]
    dsimp only
    rw [hnum, hv, Option.orUndefined_some, Outcome.ok_bind, htype, hflat', if_pos rfl,
      install_length_controlArray hf hm, hinputs, hblock, hfirst]
    dsimp only
    constructor
    · rintro ⟨ret, rr, hok, hone, hnames⟩
      obtain ⟨ret', hret', hok⟩ := Outcome.bind_eq_ok.mp hok
      split at hok
      case h_2 => cases hok
      case h_1 hnil =>
        cases hok
        refine ⟨hm, hnil, step, writerRank, k, rfl, ?_⟩
        have ⟨hstep', hloc, hlater⟩ :=
          hloop.mp ⟨ret, rr, hret', hone, (Option.some.inj hnames).symm⟩
        exact ⟨by rw [← hstep, hstep'], hloc, hlater⟩
    · rintro ⟨-, hnil, step', writerRank', k', heq, hfirst', hloc, hlater⟩
      cases heq
      have ⟨ret, rr, hret, hone, hnames⟩ := hloop.mpr
        ⟨by rw [hstep, Option.some.inj hfirst'], hloc, hlater⟩
      refine ⟨ret, rr, ?_, hone, by rw [hnames]⟩
      rw [hret, Outcome.ok_bind, hnil]
      rfl

-- A local array of bytes, of which one rank writes two blocks in each step.

def twoBlocks : MetaArrayRec Nat where
  dims              := 1
  blockCount        := 2
  dbCount           := 2
  shape             := none
  count             := [3, 5]
  offsets           := none
  dataBlockLocation := [0, 8]
  dataBlockSize     := []
  minMax            := []

def byteSteps (steps : Nat) : Written Nat :=
  singleFile (singleVarRec .localArray .uint8 none) 0 (.replicate steps [some twoBlocks])

theorem byteSteps_wellFormed (steps : Nat) : (byteSteps steps).WellFormed := by
  refine singleFile_wellFormed (fun ranks hranks => ?_) fun ranks hranks r hr => ?_
  · rw [List.eq_of_mem_replicate hranks]
    exact List.cons_ne_nil _ _
  · rw [List.eq_of_mem_replicate hranks, List.mem_singleton] at hr
    cases hr
    exact ⟨rfl, fun h => absurd rfl h⟩

def flatModes : Modes where
  randomAccessMode     := true
  flattenSteps         := true
  writerIsRowMajor     := true
  readerIsRowMajor     := true
  sourceIsLittleEndian := true
  readerIsLittleEndian := true

def byteArray : Variable where
  varNum      := 0
  name        := "v"
  shapeID     := .localArray
  shape       := []
  count       := [3]
  elementSize := 1
  onHost      := true

def blockSelection (b : Nat) : Selection where
  selType   := .all
  blockID   := some b
  start     := []
  count     := []
  stepStart := 0
  stepCount := 1

theorem flattened_block_request_oneStep :
    ∃ ret rr, performGet (install flatModes (byteSteps 1)) (fun _ _ ret => .ok ret) byteArray 0
      (blockSelection 1) true = .ok ret ∧ ret.requests = [rr] ∧
      ((byteSteps 1).blocks byteArray.varNum)[1]? =
        some (rr.timestep, rr.writerRank, rr.blockID) :=
  have hvar : (byteSteps 1).varRecs[byteArray.varNum]? =
      some (singleVarRec .localArray .uint8 none) := rfl
  (flattened_block_request (byteSteps_wellFormed 1) rfl hvar trivial ⟨rfl, .inr rfl, rfl, rfl⟩
    (by decide) 0 true _).mpr ⟨rfl, rfl, 0, 0, 1, rfl, rfl, by decide, by decide⟩

-- The first block of the second step is asked of the first.
theorem not_flattened_block_request_secondStep :
    ¬ ∃ ret rr, performGet (install flatModes (byteSteps 2)) (fun _ _ ret => .ok ret) byteArray 0
      (blockSelection 2) true = .ok ret ∧ ret.requests = [rr] ∧
      ((byteSteps 2).blocks byteArray.varNum)[2]? =
        some (rr.timestep, rr.writerRank, rr.blockID) := by
  rintro ⟨ret, rr, hok, hone, hnames⟩
  cases hok
  cases hone
  exact absurd hnames (by decide)

end BP5.Reader
