import Adios2.Format.BP5.BlockReads
import Adios2.Format.BP5.Theorems.InstalledSteps

-- Which blocks a Get of a block reads, when the steps of the file are flattened.

namespace BP5.Reader

open Bytes Helper

variable {α : Type} {m : Modes} {f : Written α} {d : Deserializer α} {varNum : Nat}

namespace Written

def blockCount (f : Written α) (varNum step writerRank : Nat) : Nat :=
  match f.record varNum step writerRank with
  | some field => field.array.blockCount
  | none       => 0

-- The blocks of some ranks: rank, and number within the rank.
def rankBlocks (f : Written α) (varNum step : Nat) (writerRanks : List Nat) : List (Nat × Nat) :=
  writerRanks.flatMap fun writerRank =>
    (List.range (f.blockCount varNum step writerRank)).map (writerRank, ·)

def stepBlocks (f : Written α) (varNum step : Nat) : List (Nat × Nat) :=
  f.rankBlocks varNum step (List.range (f.cohort step))

-- The blocks of some steps, in the order of steps, ranks and blocks.
def blocksOf (f : Written α) (varNum : Nat) (steps : List Nat) : List (Nat × Nat × Nat) :=
  steps.flatMap fun step => (f.stepBlocks varNum step).map (step, ·)

def blocks (f : Written α) (varNum : Nat) : List (Nat × Nat × Nat) :=
  f.blocksOf varNum (List.range f.steps.length)

-- Where the data of a block lies.
def location (f : Written α) (varNum : Nat) (block : Nat × Nat × Nat) : Option Nat :=
  (f.record varNum block.fst block.snd.fst).bind (·.array.dataBlockLocation[block.snd.snd]?)

def stepsAfter (f : Written α) (step : Nat) : List Nat :=
  (List.range f.steps.length).drop (step + 1)

theorem rankBlocks_cons (f : Written α) (varNum step writerRank : Nat) (writerRanks : List Nat) :
    f.rankBlocks varNum step (writerRank :: writerRanks) =
      (List.range (f.blockCount varNum step writerRank)).map (writerRank, ·) ++
        f.rankBlocks varNum step writerRanks :=
  List.flatMap_cons

theorem blocksOf_cons (f : Written α) (varNum step : Nat) (steps : List Nat) :
    f.blocksOf varNum (step :: steps) =
      (f.stepBlocks varNum step).map (step, ·) ++ f.blocksOf varNum steps :=
  List.flatMap_cons

theorem length_blocksOf_cons (f : Written α) (varNum step : Nat) (steps : List Nat) :
    (f.blocksOf varNum (step :: steps)).length =
      (f.stepBlocks varNum step).length + (f.blocksOf varNum steps).length := by
  rw [blocksOf_cons, List.length_append, List.length_map]

end Written

-- What the loops read of a file.
structure Reads (f : Written α) (d : Deserializer α) (varNum : Nat) (v : VarRec) : Prop where
  metadata : ∀ step writerRank, ∃ o, getMetadataBase d varNum step writerRank = .ok o ∧
    o.map Field.stored = (f.record varNum step writerRank).map Field.stored
  cohorts  : ∀ step, step < f.steps.length → writerCohortSize d step = f.cohort step
  arrays   : ∀ step writerRank field, f.record varNum step writerRank = some field →
    field.array.WellFormed v

variable {v : VarRec} {req : BP5ArrayRequest} {reqIndex step nodeFirstBlock : Nat}
variable {doAllocTempBuffers : Bool} {ret : ReadRequests}

theorem Reads.record (h : Reads f d varNum v) (step writerRank : Nat) :
    (f.record varNum step writerRank = none ∧
        getMetadataBase d varNum step writerRank = .ok none) ∨
      ∃ field field' : Field α, f.record varNum step writerRank = some field ∧
        getMetadataBase d varNum step writerRank = .ok (some field') ∧
        field'.array.blockCount = field.array.blockCount ∧
        field'.array.dataBlockLocation = field.array.dataBlockLocation ∧
        field'.array.dataBlockSize = field.array.dataBlockSize := by
  have ⟨o, ho, hstored⟩ := h.metadata step writerRank
  cases hrec : f.record varNum step writerRank with
  | none =>
    rw [hrec, Option.map_none, Option.map_eq_none_iff] at hstored
    exact .inl ⟨rfl, hstored ▸ ho⟩
  | some field =>
    rw [hrec, Option.map_some] at hstored
    obtain ⟨field', rfl, heq⟩ := Option.map_eq_some_iff.mp hstored
    refine .inr ⟨field, field', rfl, ho, ?_⟩
    have harray : field'.array.stored = field.array.stored := congrArg Field.array heq
    have hcount := congrArg MetaArrayRec.blockCount harray
    have hlocation := congrArg MetaArrayRec.dataBlockLocation harray
    have hsize := congrArg MetaArrayRec.dataBlockSize harray
    exact ⟨hcount, hlocation, hsize⟩

-- Where the request for a block leads: nowhere, if there is no data, and else to the block.
theorem blockRequest_ok (d : Deserializer α) (req : BP5ArrayRequest) (reqIndex : Nat)
    (doAllocTempBuffers : Bool) (writerRank : Nat) {r : MetaArrayRec α} {k location : Nat}
    (hlocation : r.dataBlockLocation[k]? = some location) (hne : location ≠ 2 ^ 64 - 1)
    (hsize : v.operator ≠ none → k < r.dataBlockSize.length) :
    ∃ rr, blockRequest d v req reqIndex doAllocTempBuffers writerRank r k = .ok rr ∧
      (rr.timestep, rr.writerRank, rr.blockID) = (req.step, writerRank, k) := by
  rw [blockRequest, hlocation, Option.orUndefined_some, Outcome.ok_bind, if_neg hne]
  dsimp only
  cases hop : v.operator with
  | none =>
    rw [if_neg (by simp)]
    exact ⟨_, rfl, rfl⟩
  | some op =>
    have hk : k < r.dataBlockSize.length := hsize (by rw [hop]; exact Option.some_ne_none op)
    rw [if_pos Option.isSome_some, List.getElem?_eq_getElem hk]
    exact ⟨_, rfl, rfl⟩

theorem blockRequest_missing {r : MetaArrayRec α} {writerRank k : Nat}
    (hlocation : r.dataBlockLocation[k]? = some (2 ^ 64 - 1)) :
    blockRequest d v req reqIndex doAllocTempBuffers writerRank r k =
      .error (.thrown "" "" "" "No data exists for this variable") := by
  rw [blockRequest, hlocation, Option.orUndefined_some, Outcome.ok_bind, if_pos rfl]

-- The ranks of a step.

theorem ranksLoop_of_le (h : Reads f d req.varNum v) (writerRanks : List Nat)
    (hn : nodeFirstBlock ≤ req.blockID)
    (hle : (f.rankBlocks req.varNum step writerRanks).length ≤ req.blockID - nodeFirstBlock) :
    ranksLoop d v req reqIndex doAllocTempBuffers step writerRanks nodeFirstBlock ret =
      .ok (nodeFirstBlock + (f.rankBlocks req.varNum step writerRanks).length, ret) := by
  induction writerRanks generalizing nodeFirstBlock with
  | nil => rfl
  | cons writerRank writerRanks ih =>
    rw [Written.rankBlocks_cons, List.length_append, List.length_map, List.length_range] at hle ⊢
    rcases h.record step writerRank with ⟨hrec, hbase⟩ | ⟨field, field', hrec, hbase, hcount, -⟩
    · have hzero : f.blockCount req.varNum step writerRank = 0 := by rw [Written.blockCount, hrec]
      rw [hzero, Nat.zero_add] at hle ⊢
      rw [ranksLoop, hbase]
      exact ih hn hle
    · have hbc : f.blockCount req.varNum step writerRank = field'.array.blockCount := by
        rw [Written.blockCount, hrec, hcount]
      rw [hbc] at hle ⊢
      rw [ranksLoop, hbase, Outcome.ok_bind]
      dsimp only
      by_cases hzero : field'.array.blockCount = 0
      · rw [if_pos hzero, hzero, Nat.zero_add]
        exact ih hn (by omega)
      · rw [if_neg hzero, if_neg (by omega), ih (by omega) (by omega), Nat.add_assoc]

theorem ranksLoop_of_getElem? (h : Reads f d req.varNum v) (reqIndex : Nat)
    (doAllocTempBuffers : Bool) (ret : ReadRequests) (writerRanks : List Nat)
    (hn : nodeFirstBlock ≤ req.blockID) {writerRank k : Nat}
    (hk : (f.rankBlocks req.varNum step writerRanks)[req.blockID - nodeFirstBlock]? =
      some (writerRank, k)) :
    ∃ field field' : Field α, f.record req.varNum step writerRank = some field ∧
      k < field.array.blockCount ∧
      field'.array.dataBlockLocation = field.array.dataBlockLocation ∧
      field'.array.dataBlockSize = field.array.dataBlockSize ∧ k ≤ req.blockID ∧
      ranksLoop d v req reqIndex doAllocTempBuffers step writerRanks nodeFirstBlock ret =
        (do
          let rr ← blockRequest d v req reqIndex doAllocTempBuffers writerRank field'.array k
          pure (req.blockID - k, ret.add rr)) := by
  induction writerRanks generalizing nodeFirstBlock with
  | nil => simp [Written.rankBlocks] at hk
  | cons rank writerRanks ih =>
    rw [Written.rankBlocks_cons] at hk
    rcases h.record step rank with ⟨hrec, hbase⟩ | ⟨field, field', hrec, hbase, hcount, hstored⟩
    · have hzero : f.blockCount req.varNum step rank = 0 := by rw [Written.blockCount, hrec]
      rw [hzero, List.range_zero, List.map_nil, List.nil_append] at hk
      rw [ranksLoop, hbase]
      exact ih hn hk
    · have hbc : f.blockCount req.varNum step rank = field'.array.blockCount := by
        rw [Written.blockCount, hrec, hcount]
      rw [hbc] at hk
      by_cases hhere : req.blockID - nodeFirstBlock < field'.array.blockCount
      · rw [List.getElem?_append_left (by simpa using hhere), List.getElem?_map,
          List.getElem?_range hhere, Option.map_some] at hk
        have ⟨hrank, hblock⟩ := Prod.mk.inj (Option.some.inj hk)
        subst hrank
        subst hblock
        refine ⟨field, field', hrec, hcount ▸ hhere, hstored.left, hstored.right, Nat.sub_le _ _,
          ?_⟩
        rw [ranksLoop, hbase, Outcome.ok_bind]
        dsimp only
        rw [if_neg (by omega), if_pos (by omega), Nat.sub_sub_self hn]
      · rw [List.getElem?_append_right (by simpa using Nat.le_of_not_lt hhere), List.length_map,
          List.length_range] at hk
        rw [ranksLoop, hbase, Outcome.ok_bind]
        dsimp only
        by_cases hzero : field'.array.blockCount = 0
        · rw [if_pos hzero]
          rw [hzero, Nat.sub_zero] at hk
          exact ih hn hk
        · rw [if_neg hzero, if_neg (by omega)]
          refine ih (by omega) ?_
          rw [← hk]
          congr 1
          omega

-- The steps of the file.

theorem stepsLoop_of_le (h : Reads f d req.varNum v) (steps : List Nat)
    (hsteps : ∀ step ∈ steps, step < f.steps.length) (hn : nodeFirstBlock ≤ req.blockID)
    (hle : (f.blocksOf req.varNum steps).length ≤ req.blockID - nodeFirstBlock) :
    stepsLoop d v req reqIndex doAllocTempBuffers steps nodeFirstBlock ret = .ok ret := by
  induction steps generalizing nodeFirstBlock with
  | nil => rfl
  | cons step steps ih =>
    have ⟨hstep, hsteps⟩ := List.forall_mem_cons.mp hsteps
    rw [Written.length_blocksOf_cons] at hle
    rw [stepsLoop, h.cohorts step hstep, ranksLoop_of_le h _ hn (by
      rw [Written.stepBlocks] at hle
      omega), Outcome.ok_bind]
    exact ih hsteps (by rw [Written.stepBlocks] at hle; omega) (by
      rw [Written.stepBlocks] at hle
      omega)

theorem ranksLoop_cases (h : Reads f d req.varNum v) (reqIndex : Nat)
    (doAllocTempBuffers : Bool) (ret : ReadRequests) (hstep : step < f.steps.length)
    (hn : nodeFirstBlock ≤ req.blockID) :
    ((f.stepBlocks req.varNum step).length ≤ req.blockID - nodeFirstBlock ∧
      ranksLoop d v req reqIndex doAllocTempBuffers step (List.range (writerCohortSize d step))
        nodeFirstBlock ret =
          .ok (nodeFirstBlock + (f.stepBlocks req.varNum step).length, ret)) ∨
      ∃ writerRank k, (f.stepBlocks req.varNum step)[req.blockID - nodeFirstBlock]? =
        some (writerRank, k) := by
  by_cases hle : (f.stepBlocks req.varNum step).length ≤ req.blockID - nodeFirstBlock
  · rw [h.cohorts step hstep]
    exact .inl ⟨hle, ranksLoop_of_le h _ hn hle⟩
  · exact .inr ⟨_, _, List.getElem?_eq_getElem (Nat.lt_of_not_le hle)⟩

theorem stepsLoop_prefix (h : Reads f d req.varNum v) (steps : List Nat)
    (hsteps : ∀ step ∈ steps, step < f.steps.length) (hn : nodeFirstBlock ≤ req.blockID)
    {ret' : ReadRequests}
    (hok : stepsLoop d v req reqIndex doAllocTempBuffers steps nodeFirstBlock ret = .ok ret') :
    ret.requests <+: ret'.requests ∧
      (req.blockID - nodeFirstBlock < (f.blocksOf req.varNum steps).length →
        ret.requests.length < ret'.requests.length) := by
  induction steps generalizing nodeFirstBlock ret with
  | nil =>
    cases hok
    exact ⟨List.prefix_rfl, fun hlt => absurd hlt (Nat.not_lt_zero _)⟩
  | cons step steps ih =>
    have ⟨hstep, hsteps⟩ := List.forall_mem_cons.mp hsteps
    rw [Written.length_blocksOf_cons]
    rw [stepsLoop] at hok
    rcases ranksLoop_cases h reqIndex doAllocTempBuffers ret hstep hn with
      ⟨hle, hmiss⟩ | ⟨writerRank, k, hk⟩
    · rw [hmiss, Outcome.ok_bind] at hok
      have ⟨hinitial, hlt⟩ := ih hsteps (by omega) hok
      exact ⟨hinitial, fun hb => hlt (by omega)⟩
    · rw [h.cohorts step hstep] at hok
      obtain ⟨-, field', -, -, -, -, hkb, hhit⟩ :=
        ranksLoop_of_getElem? h reqIndex doAllocTempBuffers ret _ hn hk
      rw [hhit] at hok
      obtain ⟨s, hs, hok⟩ := Outcome.bind_eq_ok.mp hok
      obtain ⟨rr, -, hs⟩ := Outcome.bind_eq_ok.mp hs
      cases hs
      have hinitial := (ih hsteps (Nat.sub_le _ _) hok).left
      rw [ReadRequests.add] at hinitial
      refine ⟨(List.prefix_append _ _).trans hinitial, fun _ => ?_⟩
      have hlen := hinitial.length_le
      rw [List.length_append, List.length_singleton] at hlen
      omega

theorem stepsLoop_append (h : Reads f d req.varNum v) (pre steps : List Nat)
    (hpre : ∀ step ∈ pre, step < f.steps.length) (hn : nodeFirstBlock ≤ req.blockID)
    (hle : (f.blocksOf req.varNum pre).length ≤ req.blockID - nodeFirstBlock) :
    stepsLoop d v req reqIndex doAllocTempBuffers (pre ++ steps) nodeFirstBlock ret =
      stepsLoop d v req reqIndex doAllocTempBuffers steps
        (nodeFirstBlock + (f.blocksOf req.varNum pre).length) ret := by
  induction pre generalizing nodeFirstBlock with
  | nil => rfl
  | cons step pre ih =>
    have ⟨hstep, hpre⟩ := List.forall_mem_cons.mp hpre
    rw [Written.length_blocksOf_cons] at hle ⊢
    rw [List.cons_append, stepsLoop, h.cohorts step hstep, ranksLoop_of_le h _ hn (by
      rw [Written.stepBlocks] at hle
      omega), Outcome.ok_bind]
    rw [Written.stepBlocks] at hle ⊢
    dsimp only
    rw [ih hpre (by omega) (by omega), Nat.add_assoc]

theorem Written.blocksOf_getElem? {steps : List Nat} {b step writerRank k : Nat}
    (hb : (f.blocksOf varNum steps)[b]? = some (step, writerRank, k)) :
    ∃ pre post, steps = pre ++ step :: post ∧ (f.blocksOf varNum pre).length ≤ b ∧
      (f.stepBlocks varNum step)[b - (f.blocksOf varNum pre).length]? = some (writerRank, k) := by
  induction steps generalizing b with
  | nil => simp [Written.blocksOf] at hb
  | cons first steps ih =>
    rw [Written.blocksOf_cons] at hb
    by_cases hhere : b < (f.stepBlocks varNum first).length
    · rw [List.getElem?_append_left (by simpa using hhere), List.getElem?_map] at hb
      obtain ⟨⟨writerRank', k'⟩, hblock, heq⟩ := Option.map_eq_some_iff.mp hb
      cases heq
      exact ⟨[], steps, rfl, Nat.zero_le _, hblock⟩
    · rw [List.getElem?_append_right (by simpa using Nat.le_of_not_lt hhere), List.length_map] at hb
      obtain ⟨pre, post, hsteps, hle, hblock⟩ := ih hb
      refine ⟨first :: pre, post, by rw [hsteps]; rfl, ?_, ?_⟩
      · rw [Written.length_blocksOf_cons]
        omega
      · rw [Written.length_blocksOf_cons, Nat.sub_add_eq]
        exact hblock

theorem Written.blocks_getElem? {b step writerRank k : Nat}
    (hb : (f.blocks varNum)[b]? = some (step, writerRank, k)) :
    ∃ pre, List.range f.steps.length = pre ++ step :: f.stepsAfter step ∧
      (f.blocksOf varNum pre).length ≤ b ∧
      (f.stepBlocks varNum step)[b - (f.blocksOf varNum pre).length]? = some (writerRank, k) := by
  obtain ⟨pre, post, hsteps, hle, hblock⟩ := Written.blocksOf_getElem? hb
  have hlen : pre.length < f.steps.length := by
    have := congrArg List.length hsteps
    rw [List.length_range, List.length_append, List.length_cons] at this
    omega
  have hat : (List.range f.steps.length)[pre.length]? = some step := by
    rw [hsteps, List.getElem?_append_right (Nat.le_refl _), Nat.sub_self]
    rfl
  rw [List.getElem?_range hlen] at hat
  refine ⟨pre, ?_, hle, hblock⟩
  have hpost : f.stepsAfter step = post := by
    rw [Written.stepsAfter, hsteps, ← Option.some.inj hat]
    simp
  rw [hpost, hsteps]

-- What a flattened file gives for a block.
theorem stepsLoop_block (h : Reads f d req.varNum v) (reqIndex : Nat)
    (doAllocTempBuffers : Bool) {step writerRank k : Nat}
    (hb : (f.blocks req.varNum)[req.blockID]? = some (step, writerRank, k)) :
    (∃ ret rr, stepsLoop d v req reqIndex doAllocTempBuffers (List.range f.steps.length) 0
        { requests := [], maxReadSize := 0 } = .ok ret ∧ ret.requests = [rr] ∧
        (rr.timestep, rr.writerRank, rr.blockID) = (step, writerRank, k)) ↔
      req.step = step ∧ f.location req.varNum (step, writerRank, k) ≠ some (2 ^ 64 - 1) ∧
        (f.blocksOf req.varNum (f.stepsAfter step)).length ≤ k := by
  obtain ⟨pre, hsteps, hle, hblock⟩ := Written.blocks_getElem? hb
  have hmem : ∀ s ∈ pre ++ step :: f.stepsAfter step, s < f.steps.length := fun s hs =>
    List.mem_range.mp (hsteps ▸ hs)
  have hpre : ∀ s ∈ pre, s < f.steps.length := fun s hs => hmem s (List.mem_append_left _ hs)
  have ⟨hstep, hpost⟩ := List.forall_mem_cons.mp fun s hs => hmem s (List.mem_append_right _ hs)
  obtain ⟨field, field', hrec, hk, hlocation, hsize, hkb, hhit⟩ :=
    ranksLoop_of_getElem? h reqIndex doAllocTempBuffers { requests := [], maxReadSize := 0 } _ hle
      hblock
  have hwf := h.arrays step writerRank field hrec
  have hloc : f.location req.varNum (step, writerRank, k) = field.array.dataBlockLocation[k]? := by
    rw [Written.location, hrec]
    rfl
  have hk' : k < field.array.dataBlockLocation.length := hwf.locations ▸ hk
  rw [hsteps, stepsLoop_append h pre _ hpre (Nat.zero_le _) (by simpa using hle), Nat.zero_add,
    stepsLoop, h.cohorts step hstep, hhit, hloc, List.getElem?_eq_getElem hk']
  by_cases hne : field.array.dataBlockLocation[k] = 2 ^ 64 - 1
  · rw [blockRequest_missing (by rw [hlocation, List.getElem?_eq_getElem hk', hne])]
    constructor
    · rintro ⟨ret, rr, hret, -⟩
      cases hret
    · rintro ⟨-, hloc, -⟩
      exact absurd (congrArg some hne) hloc
  · have hlocation' : field'.array.dataBlockLocation[k]? =
        some field.array.dataBlockLocation[k] := by
      rw [hlocation, List.getElem?_eq_getElem hk']
    have hsize' : v.operator ≠ none → k < field'.array.dataBlockSize.length := fun hop => by
      rw [hsize, hwf.sizes hop]
      exact hk
    obtain ⟨rr, hrr, hnames⟩ :=
      blockRequest_ok d req reqIndex doAllocTempBuffers writerRank hlocation' hne hsize'
    rw [hrr, Outcome.ok_bind]
    have hadd : (ReadRequests.add { requests := [], maxReadSize := 0 } rr).requests = [rr] := rfl
    generalize ReadRequests.add { requests := [], maxReadSize := 0 } rr = ret at hadd
    constructor
    · rintro ⟨ret', rr', hret', hone, hnames'⟩
      have ⟨hinitial, hlt⟩ := stepsLoop_prefix h _ hpost (Nat.sub_le _ _) hret'
      rw [hone, hadd, Nat.sub_sub_self hkb] at hlt
      rw [hone, hadd] at hinitial
      have hsame : rr = rr' := (List.cons_prefix_cons.mp hinitial).left
      rw [← hsame, hnames] at hnames'
      refine ⟨(Prod.mk.inj hnames').left, fun he => hne (Option.some.inj he), ?_⟩
      exact Nat.le_of_not_lt fun hmore => Nat.lt_irrefl _ (hlt hmore)
    · rintro ⟨hstep', -, hlater⟩
      refine ⟨ret, rr, ?_, hadd, by rw [hnames, hstep']⟩
      exact stepsLoop_of_le h _ hpost (Nat.sub_le _ _) (by rw [Nat.sub_sub_self hkb]; exact hlater)

end BP5.Reader
