import Mathlib
import Adios2.Engine.Ssc.SscHelper
import Adios2.Engine.Ssc.Theorems.MetadataLoop

-- The variables that are defined from the blocks. A variable is defined from the first block of its
-- name, and each further block of that name has to be of its type.

namespace Ssc

open Bytes BP5 Core

-- The blocks from which a variable is defined.
def BlockInfo.Defines (b : BlockInfo) : Prop :=
  if b.type = .struct then b.shapeId = .globalArray
  else b.shapeId ≠ .unknown ∧ b.shapeId ≠ .joinedArray

instance (b : BlockInfo) : Decidable b.Defines := by
  unfold BlockInfo.Defines
  infer_instance

-- The shape, start and count of the definition.
def definedDims (rowMajor : Bool) (b : BlockInfo) : Dims × Dims × Dims :=
  let vStart := if rowMajor then b.start else b.start.reverse
  let vShape := if rowMajor then b.shape else b.shape.reverse
  match b.shapeId with
  | .globalArray => (vShape, vStart, vShape)
  | .localValue  => ([localValueDim], [], [])
  | .localArray  => ([], [], vShape)
  | _            => ([], [], [])

def Definable (structDefs : List StructDefinition) (rowMajor : Bool) (b : BlockInfo) : Prop :=
  (b.type = .struct → ∃ d ∈ structDefs, d.name = b.structDef) ∧
  ∃ shapeId, initShapeType b.name b.type (definedDims rowMajor b).1 (definedDims rowMajor b).2.1
    (definedDims rowMajor b).2.2 = .ok shapeId

-- The variables that are there after the blocks, the first of a name being the one that counts.
def definedVars (vars : List (List Byte × DataType)) (blocks : List BlockInfo) :
    List (List Byte × DataType) :=
  vars ++ (blocks.filter fun b => decide b.Defines).map fun b => (b.name, b.type)

def Registers (structDefs : List StructDefinition) (rowMajor : Bool)
    (vars : List (List Byte × DataType)) (blocks : List BlockInfo) : Prop :=
  ∀ before b after, blocks = before ++ b :: after → b.Defines →
    (definedVars vars before).lookup b.name = some b.type ∨
    (definedVars vars before).lookup b.name = none ∧ Definable structDefs rowMajor b

section

variable {structDefs : List StructDefinition} {rowMajor : Bool}
  {vars vars' : List (List Byte × DataType)} {b : BlockInfo} {io io' : Io}

theorem defineVariable_ok {activity : String} {name : List Byte} {type : DataType}
    {shape start count : Dims} :
    io.defineVariable activity name type shape start count = .ok io' ↔
      io.vars.lookup name = none ∧
      (∃ shapeId, initShapeType name type shape start count = .ok shapeId) ∧
      io' = { io with vars := io.vars ++ [(name, type)] } := by
  unfold Io.defineVariable
  cases io.vars.lookup name with
  | some => simp
  | none =>
    simp only [Option.isSome_none, Bool.false_eq_true, if_false, Outcome.bind_eq_ok, true_and,
      Outcome.pure_eq, Except.ok.injEq]
    constructor
    · rintro ⟨s, hs, rfl⟩
      exact ⟨⟨s, hs⟩, rfl⟩
    · rintro ⟨⟨s, hs⟩, rfl⟩
      exact ⟨s, hs, rfl⟩

-- What a block does to the variables.
theorem registerVariable_ok (hb : b.type ≠ .none) : registerVariable structDefs io b = .ok io' ↔
    if b.Defines ∧ io.vars.lookup b.name ≠ some b.type then
      io.vars.lookup b.name = none ∧ Definable structDefs io.rowMajor b ∧
        io' = { io with vars := io.vars ++ [(b.name, b.type)] }
    else
      io' = io := by
  have hpure : (pure io : Outcome Io) = .ok io' ↔ io' = io := by
    simp [eq_comm]
  unfold registerVariable
  by_cases hsome : io.inquireVariable b.name b.type
  case pos =>
    have hlookup : io.vars.lookup b.name = some b.type := by
      simpa [Io.inquireVariable] using hsome
    simp only [hsome, if_true, hlookup, ne_eq, not_true_eq_false, and_false, if_false]
    exact hpure
  case neg =>
    have hlookup : io.vars.lookup b.name ≠ some b.type := by
      simpa [Io.inquireVariable] using hsome
    simp only [hsome, Bool.false_eq_true, if_false, ne_eq, hlookup, not_false_eq_true, and_true]
    by_cases hstruct : b.type = .struct
    case pos =>
      simp only [hstruct, if_true, BlockInfo.Defines]
      by_cases hglobal : b.shapeId = .globalArray
      case pos =>
        simp only [hglobal, if_true, Definable, definedDims, hstruct, true_implies]
        by_cases hdef : ∃ d ∈ structDefs, d.name = b.structDef
        case pos =>
          have hany : structDefs.any (fun d => d.name = b.structDef) = true := by simpa using hdef
          simp only [hany, if_true, defineVariable_ok, hdef, true_and]
        case neg =>
          have hany : structDefs.any (fun d => d.name = b.structDef) = false := by
            simpa using hdef
          simp [hany, hdef]
      case neg =>
        simp only [hglobal, if_false]
        exact hpure
    case neg =>
      simp only [hstruct, if_false, hb, BlockInfo.Defines, Definable, definedDims, false_implies,
        true_and]
      cases b.shapeId with
      | unknown | joinedArray => simpa using hpure
      | globalValue | globalArray | localValue | localArray => simp [defineVariable_ok]

-- Only what is found in the variables counts.
theorem lookup_definedVars_congr (h : ∀ name, vars.lookup name = vars'.lookup name)
    (blocks : List BlockInfo) (name : List Byte) :
    (definedVars vars blocks).lookup name = (definedVars vars' blocks).lookup name := by
  simp only [definedVars, List.lookup_append, h]

theorem definedVars_cons (b : BlockInfo) (blocks : List BlockInfo) :
    definedVars vars (b :: blocks)
      = definedVars (if b.Defines then vars ++ [(b.name, b.type)] else vars) blocks := by
  unfold definedVars
  by_cases h : b.Defines <;> simp [h]

theorem registers_cons {blocks : List BlockInfo} :
    Registers structDefs rowMajor vars (b :: blocks) ↔
      (b.Defines → vars.lookup b.name = some b.type ∨
        vars.lookup b.name = none ∧ Definable structDefs rowMajor b) ∧
      Registers structDefs rowMajor (if b.Defines then vars ++ [(b.name, b.type)] else vars)
        blocks := by
  constructor
  · intro h
    refine ⟨by simpa [definedVars] using h [] b blocks rfl, fun before b' after heq hb' => ?_⟩
    have := h (b :: before) b' after (by rw [heq, List.cons_append]) hb'
    rwa [definedVars_cons] at this
  · rintro ⟨hb, h⟩ before b' after heq hb'
    cases before with
    | nil =>
      obtain ⟨rfl, -⟩ := List.cons.inj heq
      simpa [definedVars] using hb hb'
    | cons b₀ before =>
      obtain ⟨rfl, htail⟩ := List.cons.inj heq
      rw [definedVars_cons]
      exact h before b' after htail hb'

theorem registers_congr (h : ∀ name, vars.lookup name = vars'.lookup name)
    {blocks : List BlockInfo} : Registers structDefs rowMajor vars blocks ↔
      Registers structDefs rowMajor vars' blocks := by
  simp only [Registers, lookup_definedVars_congr h]

-- A variable that is there is not defined again.
theorem registers_defined (h : vars.lookup b.name = some b.type) {blocks : List BlockInfo} :
    Registers structDefs rowMajor (vars ++ [(b.name, b.type)]) blocks ↔
      Registers structDefs rowMajor vars blocks := by
  refine registers_congr fun name => ?_
  rw [List.lookup_append]
  by_cases hname : name = b.name
  case pos => rw [hname, h, Option.some_or]
  case neg => simp [List.lookup, beq_false_of_ne hname]

end

end Ssc

-- The loop of `Deserialize` as a fold over the records, and what the fold leaves in the pattern.

namespace Ssc

open Bytes BP5 Core

variable {e : Endian} {input : List Byte}

section Parts

def definitionsOf (rs : List Record) : List StructDefinition :=
  rs.flatMap fun
    | .structDefinitions ds => ds
    | _                     => []

def attributesOf (rs : List Record) : List Attribute :=
  rs.filterMap fun
    | .attr a => some a
    | _       => none

def blocksOf (rs : List Record) : List BlockInfo :=
  rs.filterMap fun
    | .block _ b => some b
    | _          => none

def blocksOfRank (rank : Nat) (rs : List Record) : List BlockInfo :=
  rs.filterMap fun
    | .block rank' b => if rank' = rank then some b else none
    | _              => none

theorem definitionsOf_cons (r : Record) (rs : List Record) :
    definitionsOf (r :: rs) = definitionsOf [r] ++ definitionsOf rs := by
  simp [definitionsOf]

theorem attributesOf_cons (r : Record) (rs : List Record) :
    attributesOf (r :: rs) = attributesOf [r] ++ attributesOf rs := by
  rw [attributesOf, ← List.singleton_append, List.filterMap_append]
  rfl

theorem blocksOfRank_cons (rank : Nat) (r : Record) (rs : List Record) :
    blocksOfRank rank (r :: rs) = blocksOfRank rank [r] ++ blocksOfRank rank rs := by
  rw [blocksOfRank, ← List.singleton_append, List.filterMap_append]
  rfl

end Parts

-- What records add to the pattern.
structure Adds (p : Pattern) (rs : List Record) (p' : Pattern) : Prop where
  blocks     : ∀ rank, p'.blocks[rank]? = p.blocks[rank]?.map (· ++ blocksOfRank rank rs)
  attributes : p'.io.attributes = p.io.attributes ++ attributesOf rs
  structDefs : p'.structDefs = p.structDefs ++ definitionsOf rs

theorem Adds.nil (p : Pattern) : Adds p [] p where
  blocks _   := by simp [blocksOfRank]
  attributes := (List.append_nil _).symm
  structDefs := (List.append_nil _).symm

theorem Adds.append {p p' p'' : Pattern} {rs rs' : List Record} (h : Adds p rs p')
    (h' : Adds p' rs' p'') : Adds p (rs ++ rs') p'' where
  blocks rank := by
    rw [h'.blocks, h.blocks, Option.map_map]
    simp [blocksOfRank, Function.comp_def]
  attributes  := by
    rw [h'.attributes, h.attributes, List.append_assoc, attributesOf, attributesOf, attributesOf,
      List.filterMap_append]
  structDefs  := by
    rw [h'.structDefs, h.structDefs, List.append_assoc, definitionsOf, definitionsOf, definitionsOf,
      List.flatMap_append]

theorem Adds.rest {p p₁ p' : Pattern} {r : Record} {rs : List Record} (h : Adds p (r :: rs) p')
    (h₁ : Adds p [r] p₁) : Adds p₁ rs p' where
  blocks rank := by
    rw [h.blocks, h₁.blocks, Option.map_map, blocksOfRank_cons]
    simp [Function.comp_def]
  attributes  := by
    rw [h.attributes, h₁.attributes, List.append_assoc, ← attributesOf_cons]
  structDefs  := by
    rw [h.structDefs, h₁.structDefs, List.append_assoc, ← definitionsOf_cons]

theorem Adds.length_blocks {p p' : Pattern} {rs : List Record} (h : Adds p rs p') :
    p'.blocks.length = p.blocks.length := by
  have hnone : ∀ rank, p'.blocks.length ≤ rank ↔ p.blocks.length ≤ rank := by
    intro rank
    rw [← List.getElem?_eq_none_iff, ← List.getElem?_eq_none_iff, h.blocks, Option.map_eq_none_iff]
  have h₁ := hnone p.blocks.length
  have h₂ := hnone p'.blocks.length
  omega

theorem applyRecord_adds {p p' : Pattern} {r : Record} (h : applyRecord p r = .ok p') :
    Adds p [r] p' := by
  cases r with
  | structDefinitions ds =>
    cases h
    exact ⟨fun _ => by simp [blocksOfRank], by simp [attributesOf], by simp [definitionsOf]⟩
  | attr a =>
    cases h
    exact ⟨fun _ => by simp [blocksOfRank], by simp [attributesOf, Io.defineAttribute],
      by simp [definitionsOf]⟩
  | block rank b =>
    obtain ⟨io, hio, h⟩ := Outcome.bind_eq_ok.mp h
    cases h
    refine ⟨fun rank' => ?_, by simp [attributesOf, registerVariable_attributes hio],
      by simp [definitionsOf]⟩
    rw [List.getElem?_modify]
    by_cases heq : rank = rank' <;> simp [heq, blocksOfRank]

theorem applyRecords_adds {p p' : Pattern} {rs : List Record}
    (h : rs.foldlM applyRecord p = .ok p') : Adds p rs p' := by
  induction rs generalizing p with
  | nil =>
    cases h
    exact .nil _
  | cons r rs ih =>
    rw [List.foldlM_cons] at h
    obtain ⟨p₁, h₁, h⟩ := Outcome.bind_eq_ok.mp h
    exact (applyRecord_adds h₁).append (ih h)

-- Behind the struct definitions, the records can be applied if the variables can be defined.
theorem applyRecords_ok_iff {rs : List Record} (hvalid : ∀ r ∈ rs, ValidRecord r)
    (hdefs : definitionsOf rs = []) {p : Pattern} : (∃ p', rs.foldlM applyRecord p = .ok p') ↔
      Registers p.structDefs p.io.rowMajor p.io.vars (blocksOf rs) := by
  induction rs generalizing p with
  | nil => simp [blocksOf, Registers]
  | cons r rs ih =>
    have ih := ih fun r hr => hvalid r (List.mem_cons_of_mem _ hr)
    have hr := hvalid r List.mem_cons_self
    rw [List.foldlM_cons]
    cases r with
    | structDefinitions ds =>
      have : ds = [] := by
        simp only [definitionsOf, List.flatMap_cons, List.append_eq_nil_iff] at hdefs
        exact hdefs.1
      exact absurd this hr.1
    | attr a => exact ih hdefs
    | block rank b =>
      have hblocks : blocksOf (.block rank b :: rs) = b :: blocksOf rs := rfl
      have ih := fun p : Pattern => ih hdefs (p := p)
      have hreg := fun io' =>
        @registerVariable_ok p.structDefs _ p.io io' hr.2.1
      rw [hblocks, registers_cons]
      simp only [applyRecord, bind_assoc, Outcome.pure_eq, Outcome.ok_bind]
      by_cases hc : b.Defines ∧ p.io.vars.lookup b.name ≠ some b.type
      case pos =>
        simp only [if_pos hc] at hreg
        simp only [hc.1, true_implies, if_true, hc.2, false_or]
        constructor
        · rintro ⟨p', h⟩
          obtain ⟨io', hio, h⟩ := Outcome.bind_eq_ok.mp h
          obtain ⟨hnone, hdef, rfl⟩ := (hreg io').mp hio
          exact ⟨⟨hnone, hdef⟩, (ih _).mp ⟨p', h⟩⟩
        · rintro ⟨⟨hnone, hdef⟩, hrest⟩
          let io := { p.io with vars := p.io.vars ++ [(b.name, b.type)] }
          obtain ⟨p', h⟩ := (ih { p with blocks := p.blocks.modify rank (· ++ [b]), io }).mpr hrest
          exact ⟨p', Outcome.bind_eq_ok.mpr ⟨_, (hreg _).mpr ⟨hnone, hdef, rfl⟩, h⟩⟩
      case neg =>
        simp only [if_neg hc] at hreg
        have hsame : registerVariable p.structDefs p.io b = .ok p.io := (hreg p.io).mpr rfl
        rw [hsame, Outcome.ok_bind, ih]
        by_cases hb : b.Defines
        case pos =>
          have hlookup : p.io.vars.lookup b.name = some b.type := by
            by_contra hne
            exact hc ⟨hb, hne⟩
          simp [hb, hlookup, registers_defined hlookup]
        case neg => simp [hb]

-- Nothing that the records define is there, and the ranks are.
structure Fresh (p : Pattern) (rs : List Record) : Prop where
  definitions : ((p.structDefs ++ definitionsOf rs).map (·.name)).Nodup
  attributes  : ((attributesOf rs).map (·.name)).Nodup
  others      : ∀ a ∈ p.io.attributes, ∀ a' ∈ attributesOf rs, a.name ≠ a'.name
  ranks       : ∀ rank b, .block rank b ∈ rs → rank < p.blocks.length

theorem Fresh.new {p : Pattern} {r : Record} {rs : List Record} (h : Fresh p (r :: rs)) :
    New p r := by
  cases r with
  | structDefinitions ds =>
    have := h.definitions
    rw [definitionsOf, List.flatMap_cons, ← List.append_assoc, List.map_append] at this
    exact this.of_append_left
  | attr a          => exact fun a' ha' => h.others a' ha' a List.mem_cons_self
  | block rank b    => exact h.ranks rank b List.mem_cons_self

theorem Fresh.rest {p p' : Pattern} {r : Record} {rs : List Record} (h : Fresh p (r :: rs))
    (hp : applyRecord p r = .ok p') : Fresh p' rs := by
  have hadds := applyRecord_adds hp
  have hnodup := h.attributes
  rw [attributesOf_cons, List.map_append] at hnodup
  refine ⟨?_, hnodup.of_append_right, ?_, ?_⟩
  · rw [hadds.structDefs, List.append_assoc, ← definitionsOf_cons]
    exact h.definitions
  · intro a ha a' ha'
    rw [hadds.attributes] at ha
    cases List.mem_append.mp ha with
    | inl ha =>
      have : a' ∈ attributesOf (r :: rs) := by
        rw [attributesOf_cons]
        exact List.mem_append_right _ ha'
      exact h.others a ha a' this
    | inr ha =>
      exact fun heq => (List.disjoint_of_nodup_append hnodup) (List.mem_map_of_mem ha)
        (heq ▸ List.mem_map_of_mem ha')
  · intro rank b hb
    rw [hadds.length_blocks]
    exact h.ranks rank b (List.mem_cons_of_mem _ hb)

-- The position of the next record is in front of the end that the loop looks for, for the last record
-- too, since each record is longer than the header.
theorem deserializeLoop_cons {blockSize fuel pos : Nat} {p : Pattern} {r : Record}
    {rs : List Record} (hvalid : ValidRecord r)
    (hend : pos + ((r :: rs).flatMap (Record.bytes e)).length = blockSize + 10) :
    deserializeLoop e input blockSize (fuel + 1) p pos = (do
      let (p, pos) ← deserializeRecord e input p pos
      deserializeLoop e input blockSize fuel p pos) := by
  have hlen := Record.length_bytes (e := e) hvalid
  rw [List.flatMap_cons, List.length_append] at hend
  rw [deserializeLoop, if_pos (by omega)]

theorem deserializeLoop_nil {blockSize fuel pos : Nat} {p : Pattern} (h : blockSize ≤ pos) :
    deserializeLoop e input blockSize (fuel + 1) p pos = .ok p := by
  rw [deserializeLoop, if_neg (by omega)]

theorem deserializeLoop_eq {blockSize fuel pos : Nat} {p : Pattern} {rs : List Record}
    (hvalid : ∀ r ∈ rs, ValidRecord r) (hsized : ∀ r ∈ rs, SizedRecord r) (hfresh : Fresh p rs)
    (hlen : input.length < 2 ^ 64) (h : Within input pos (rs.flatMap (Record.bytes e)))
    (hend : pos + (rs.flatMap (Record.bytes e)).length = blockSize + 10)
    (hfuel : rs.length < fuel) :
    deserializeLoop e input blockSize fuel p pos = rs.foldlM applyRecord p := by
  induction rs generalizing fuel pos p with
  | nil =>
    obtain ⟨fuel, rfl⟩ := Nat.exists_eq_add_one_of_ne_zero (Nat.ne_of_gt hfuel)
    exact deserializeLoop_nil (by simp at hend; omega)
  | cons r rs ih =>
    obtain ⟨fuel, rfl⟩ := Nat.exists_eq_add_one_of_ne_zero (Nat.ne_of_gt (Nat.zero_lt_of_lt hfuel))
    have hr := hvalid r List.mem_cons_self
    have ⟨hbytes, hrest⟩ := h.append
    rw [deserializeLoop_cons hr hend,
      deserializeRecord_eq hr (hsized r List.mem_cons_self) hfresh.new hlen hbytes,
      List.foldlM_cons]
    cases hp : applyRecord p r with
    | error => rfl
    | ok p' =>
      rw [List.flatMap_cons, List.length_append] at hend
      exact ih (fun r hr => hvalid r (List.mem_cons_of_mem _ hr))
        (fun r hr => hsized r (List.mem_cons_of_mem _ hr)) (hfresh.rest hp) hrest (by omega)
        (by simpa using hfuel)

theorem sized_of_deserializeRecord {pos pos₁ : Nat} {p p₁ p' : Pattern} {r : Record}
    {rs : List Record} (hvalid : ValidRecord r) (hdefs : definitionsOf [r] = []) (hnew : New p r)
    (hlen : input.length < 2 ^ 64) (h : Within input pos (r.bytes e))
    (hrec : deserializeRecord e input p pos = .ok (p₁, pos₁)) (hkeeps : Keeps p p')
    (hkeeps₁ : Keeps p₁ p') (hadds : Adds p (r :: rs) p') : SizedRecord r := by
  cases r with
  | structDefinitions ds =>
    have : ds = [] := by simpa [definitionsOf] using hdefs
    exact absurd this hvalid.1
  | attr a =>
    have ⟨as, has, hlt⟩ := hkeeps.attributes
    rw [hadds.attributes] at has
    obtain rfl := List.append_cancel_left has
    have hname := hlt a List.mem_cons_self
    have hbytes := h
    rw [Record.bytes_attr] at hbytes
    have heq := deserializeAttribute_eq hvalid hname (findAttribute_eq_none hnew) hbytes.append.2
      hlen
    simp only [List.length_singleton] at heq
    rw [deserializeRecord_attr h, heq] at hrec
    obtain ⟨rfl, -⟩ := Prod.mk.inj (Except.ok.inj hrec)
    have ⟨as', has', _⟩ := hkeeps₁.attributes
    rw [hadds.attributes] at has'
    have hcons := List.append_cancel_left (has'.trans (List.append_assoc _ _ _))
    have hvalue := congrArg Attribute.value (List.cons.inj hcons).1
    exact ⟨hname, (receivedValue_eq_iff a).mp hvalue.symm⟩
  | block rank b =>
    have hbytes := h
    rw [Record.bytes_block] at hbytes
    have hbody := hbytes.append.2.append.2
    simp only [List.length_singleton, encode_length] at hbody
    rw [deserializeRecord_block hvalid.1 h] at hrec
    obtain ⟨⟨b', pos'⟩, hread, hrec⟩ := Outcome.bind_eq_ok.mp hrec
    have hread := Option.orUndefined_eq_ok.mp hread
    simp only [show rank < p.blocks.length from hnew, if_true] at hrec
    obtain ⟨io, _, hrec⟩ := Outcome.bind_eq_ok.mp hrec
    obtain ⟨rfl, -⟩ := Prod.mk.inj (Except.ok.inj hrec)
    obtain ⟨bs₀, hget⟩ : ∃ bs₀, p.blocks[rank]? = some bs₀ := ⟨_, List.getElem?_eq_getElem hnew⟩
    have ⟨bs, hbs⟩ := hkeeps₁.blocks rank (bs₀ ++ [b']) (by
      rw [List.getElem?_modify, hget]
      simp)
    rw [hadds.blocks, hget, Option.map_some] at hbs
    have hcons := List.append_cancel_left ((Option.some.inj hbs).trans (List.append_assoc _ _ _))
    have hfirst : blocksOfRank rank (.block rank b :: rs) = b :: blocksOfRank rank rs := by
      simp [blocksOfRank]
    rw [hfirst] at hcons
    obtain rfl := (List.cons.inj hcons).1
    exact (readsIff_block hvalid.2.2 _ hbody).2 pos' hread

-- If the loop leaves in the pattern just what the records say, it has read each of them as it is: what
-- it takes from a record stays.
theorem sized_of_deserializeLoop {blockSize fuel pos : Nat} {p p' : Pattern} {rs : List Record}
    (hvalid : ∀ r ∈ rs, ValidRecord r) (hdefs : definitionsOf rs = []) (hfresh : Fresh p rs)
    (hlen : input.length < 2 ^ 64) (h : Within input pos (rs.flatMap (Record.bytes e)))
    (hend : pos + (rs.flatMap (Record.bytes e)).length = blockSize + 10)
    (hloop : deserializeLoop e input blockSize fuel p pos = .ok p') (hadds : Adds p rs p') :
    ∀ r ∈ rs, SizedRecord r := by
  induction rs generalizing fuel pos p with
  | nil => simp
  | cons r rs ih =>
    cases fuel with
    | zero => contradiction
    | succ fuel =>
      have hkeeps := deserializeLoop_keeps hloop
      have hr := hvalid r List.mem_cons_self
      have ⟨hbytes, hrest⟩ := h.append
      rw [deserializeLoop_cons hr hend] at hloop
      obtain ⟨⟨p₁, pos₁⟩, hrec, hloop⟩ := Outcome.bind_eq_ok.mp hloop
      have hkeeps₁ := deserializeLoop_keeps hloop
      have hnone : definitionsOf [r] = [] ∧ definitionsOf rs = [] := by
        rwa [← List.append_eq_nil_iff, ← definitionsOf_cons]
      have hsized : SizedRecord r :=
        sized_of_deserializeRecord hr hnone.1 hfresh.new hlen hbytes hrec hkeeps hkeeps₁ hadds
      rw [deserializeRecord_eq hr hsized hfresh.new hlen hbytes] at hrec
      cases hp : applyRecord p r with
      | error => simp [hp, Except.map] at hrec
      | ok p₂ =>
        rw [hp] at hrec
        obtain ⟨rfl, rfl⟩ := Prod.mk.inj (Except.ok.inj hrec)
        rw [List.flatMap_cons, List.length_append] at hend
        have := ih (fun r hr => hvalid r (List.mem_cons_of_mem _ hr)) hnone.2 (hfresh.rest hp) hrest
          (by omega) hloop (hadds.rest (applyRecord_adds hp))
        exact List.forall_mem_cons.mpr ⟨hsized, this⟩

end Ssc
