import Mathlib
import Adios2.Engine.Ssc.Theorems.MetadataRecords

-- The loop of `Deserialize` over the records of all ranks. Where the records are read exactly it
-- does what the records say, and only there: what has been taken from a record is never undone.

namespace Ssc

open Bytes BP5 Core Bytes.Reader

variable {e : Endian} {input : List Byte}

-- What the engine can have in a record.
def ValidRecord : Record → Prop
  | .structDefinitions ds => ds ≠ [] ∧ ∀ d ∈ ds, ValidDefinition d
  | .attr a               => ValidAttribute a
  | .block rank b         =>
    rank < 2 ^ 31 ∧ b.type ≠ .none ∧ (b.type ≠ .struct → b.structDef = [])

-- The records that are read back as they are.
def SizedRecord : Record → Prop
  | .structDefinitions ds => ds.length < 256 ∧ ∀ d ∈ ds, SizedDefinition d
  | .attr a               => ExactAttribute a
  | .block _ b            => b.Sized

-- What a record does to the pattern.
def applyRecord (p : Pattern) : Record → Outcome Pattern
  | .structDefinitions ds => .ok { p with structDefs := p.structDefs ++ ds }
  | .attr a               => .ok { p with io := p.io.defineAttribute a }
  | .block rank b         => do
    let io ← registerVariable p.structDefs p.io b
    pure { p with blocks := p.blocks.modify rank (· ++ [b]), io }

theorem Record.bytes_block (rank : Nat) (b : BlockInfo) : (Record.block rank b).bytes e
    = [UInt8.ofNat b.shapeId.toNat] ++ (encode e 4 rank ++ blockBody e b) := by
  simp [Record.bytes, Record.pieces]

theorem Record.bytes_attr (a : Attribute) :
    (Record.attr a).bytes e = [UInt8.ofNat 66] ++ attributeBody e a := by
  simp [Record.bytes, Record.pieces]

theorem Record.bytes_structDefinitions (ds : List StructDefinition) :
    (Record.structDefinitions ds).bytes e
      = [UInt8.ofNat 65] ++ ([UInt8.ofNat ds.length] ++ ds.flatMap (definitionBytes e)) := by
  simp [Record.bytes, Record.pieces, List.flatMap_map]

-- A record is longer than the header that the loop does not count.
theorem Record.length_bytes {r : Record} (h : ValidRecord r) : 10 < (r.bytes e).length := by
  cases r with
  | structDefinitions ds =>
    have ⟨d, rest, hds⟩ := List.exists_cons_of_ne_nil h.1
    rw [bytes_structDefinitions, hds]
    simp [definitionBytes]
    omega
  | attr a =>
    rw [bytes_attr]
    simp [attributeBody]
    omega
  | block rank b =>
    rw [bytes_block]
    simp [blockBody]
    omega

section Record

variable {p : Pattern} {pos : Nat}

theorem deserializeRecord_block {rank : Nat} {b : BlockInfo} (hrank : rank < 2 ^ 31)
    (h : Within input pos ((Record.block rank b).bytes e)) :
    deserializeRecord e input p pos = (do
      let (b', pos') ← ((readBlock e input b.shapeId).run (pos + 1 + 4)).orUndefined
      if rank < p.blocks.length then
        let io ← registerVariable p.structDefs p.io b'
        pure ({ p with blocks := p.blocks.modify rank (· ++ [b']), io }, pos')
      else
        .error .undefined) := by
  rw [Record.bytes_block] at h
  have ⟨hshape, hrest⟩ := h.append
  have ⟨hint, _⟩ := hrest.append
  have hlt := shapeID_toNat_lt b.shapeId
  have h₁ := reads_byte (e := e) (hlt.trans (show 6 < 256 by decide)) _ hshape
  have h₂ := reads_int (hrank.trans (by decide)) _ hint
  simp only [List.length_singleton, encode_length] at h₁ h₂
  rw [deserializeRecord, h₁, Option.orUndefined_some, Outcome.ok_bind]
  simp only [show b.shapeId.toNat ≠ 65 by omega, show b.shapeId.toNat ≠ 66 by omega, if_false]
  rw [h₂, Option.orUndefined_some, Outcome.ok_bind]
  simp only [shapeID_ofNumber, Option.orUndefined_some, Outcome.ok_bind]

theorem deserializeRecord_attr {a : Attribute}
    (h : Within input pos ((Record.attr a).bytes e)) :
    deserializeRecord e input p pos = (do
      let (io, pos') ← deserializeAttribute e input p.io (pos + 1)
      pure ({ p with io }, pos')) := by
  rw [Record.bytes_attr] at h
  have h₁ := reads_byte (e := e) (show 66 < 256 by decide) _ h.append.1
  rw [deserializeRecord, h₁, Option.orUndefined_some, Outcome.ok_bind]
  simp only [List.length_singleton]
  rfl

theorem deserializeRecord_structDefinitions {ds : List StructDefinition} (hlen : ds.length < 256)
    (h : Within input pos ((Record.structDefinitions ds).bytes e)) :
    deserializeRecord e input p pos = (do
      let (structDefs, pos') ←
        deserializeStructDefinitions e input ds.length p.structDefs (pos + 1 + 1)
      pure ({ p with structDefs }, pos')) := by
  rw [Record.bytes_structDefinitions] at h
  have ⟨hfirst, hrest⟩ := h.append
  have h₁ := reads_byte (e := e) (show 65 < 256 by decide) _ hfirst
  have h₂ := reads_byte (e := e) hlen _ hrest.append.1
  simp only [List.length_singleton] at h₁ h₂
  rw [deserializeRecord, h₁, Option.orUndefined_some, Outcome.ok_bind]
  simp only [if_true]
  rw [h₂, Option.orUndefined_some, Outcome.ok_bind]

-- The records that can come next: what they define is not defined yet.
def New (p : Pattern) : Record → Prop
  | .structDefinitions ds => ((p.structDefs ++ ds).map (·.name)).Nodup
  | .attr a               => ∀ a' ∈ p.io.attributes, a'.name ≠ a.name
  | .block rank _         => rank < p.blocks.length

theorem findAttribute_eq_none {io : Io} {name : List Byte}
    (h : ∀ a ∈ io.attributes, a.name ≠ name) : io.findAttribute name = none := by
  simpa [Io.findAttribute] using h

-- A record that is read back as it is.
theorem deserializeRecord_eq {r : Record} (hvalid : ValidRecord r) (hsized : SizedRecord r)
    (hnew : New p r) (hlen : input.length < 2 ^ 64) (h : Within input pos (r.bytes e)) :
    deserializeRecord e input p pos
      = (applyRecord p r).map fun p' => (p', pos + (r.bytes e).length) := by
  cases r with
  | structDefinitions ds =>
    have ⟨hcount, hsized⟩ := hsized
    have hbytes := h
    rw [Record.bytes_structDefinitions] at hbytes
    have hds := hbytes.append.2.append.2
    have heq := deserializeStructDefinitions_eq hvalid.2 hsized hnew hds
    simp only [List.length_singleton] at heq
    rw [deserializeRecord_structDefinitions hcount h, heq, Record.bytes_structDefinitions]
    simp [applyRecord, Except.map, Nat.add_assoc]
    omega
  | attr a =>
    have hbytes := h
    rw [Record.bytes_attr] at hbytes
    have heq := deserializeAttribute_eq hvalid hsized.name
      (findAttribute_eq_none hnew) hbytes.append.2 hlen
    rw [(receivedValue_eq_iff a).mpr hsized.value] at heq
    simp only [List.length_singleton] at heq
    rw [deserializeRecord_attr h, heq, Record.bytes_attr]
    simp [applyRecord, Except.map, Nat.add_assoc]
    omega
  | block rank b =>
    have hbytes := h
    rw [Record.bytes_block] at hbytes
    have hbody := hbytes.append.2.append.2
    have hread := (readsIff_block hvalid.2.2 _ hbody).1 hsized
    simp only [List.length_singleton, encode_length] at hread
    rw [deserializeRecord_block hvalid.1 h, hread, Option.orUndefined_some, Outcome.ok_bind,
      Record.bytes_block]
    simp only [show rank < p.blocks.length from hnew, if_true, applyRecord]
    cases registerVariable p.structDefs p.io b with
    | error => rfl
    | ok io =>
      simp [Except.map, Nat.add_assoc]
      omega

end Record

section Keeps

-- What the loop takes from the input is added to what is there.
structure Keeps (p p' : Pattern) : Prop where
  blocks     : ∀ (i : Nat) (bs : List BlockInfo), p.blocks[i]? = some bs →
    ∃ bs', p'.blocks[i]? = some (bs ++ bs')
  attributes : ∃ as, p'.io.attributes = p.io.attributes ++ as ∧ ∀ a ∈ as, a.name.length < 256

theorem Keeps.refl (p : Pattern) : Keeps p p where
  blocks     := fun _ bs h => ⟨[], by rw [h, List.append_nil]⟩
  attributes := ⟨[], (List.append_nil _).symm, fun _ h => nomatch h⟩

theorem Keeps.trans {p p' p'' : Pattern} (h : Keeps p p') (h' : Keeps p' p'') : Keeps p p'' where
  blocks := by
    intro i bs hi
    have ⟨bs', hi'⟩ := h.blocks i bs hi
    have ⟨bs'', hi''⟩ := h'.blocks i _ hi'
    exact ⟨bs' ++ bs'', by rw [hi'', List.append_assoc]⟩
  attributes := by
    have ⟨as, has, hlt⟩ := h.attributes
    have ⟨as', has', hlt'⟩ := h'.attributes
    refine ⟨as ++ as', by rw [has', has, List.append_assoc], fun a ha => ?_⟩
    exact (List.mem_append.mp ha).elim (hlt a) (hlt' a)

theorem defineVariable_attributes {io io' : Io} {activity : String} {name : List Byte}
    {type : DataType} {shape start count : Dims}
    (h : io.defineVariable activity name type shape start count = .ok io') :
    io'.attributes = io.attributes := by
  unfold Io.defineVariable at h
  split at h
  · contradiction
  · obtain ⟨_, _, h⟩ := Outcome.bind_eq_ok.mp h
    cases h
    rfl

theorem registerVariable_attributes {structDefs : List StructDefinition} {io io' : Io}
    {b : BlockInfo} (h : registerVariable structDefs io b = .ok io') :
    io'.attributes = io.attributes := by
  have hpure : ∀ {io''}, (pure io : Outcome Io) = .ok io'' → io''.attributes = io.attributes :=
    fun h => by cases h; rfl
  unfold registerVariable at h
  simp only at h
  split at h
  case isTrue => exact hpure h
  case isFalse =>
    split at h
    case isTrue =>
      split at h
      case isTrue =>
        split at h
        · exact defineVariable_attributes h
        · contradiction
      case isFalse => exact hpure h
    case isFalse =>
      split at h
      case isTrue => contradiction
      case isFalse =>
        split at h
        all_goals first | exact defineVariable_attributes h | exact hpure h

theorem keeps_block (p : Pattern) (rank : Nat) (b : BlockInfo) {io : Io}
    (hio : io.attributes = p.io.attributes) :
    Keeps p { p with blocks := p.blocks.modify rank (· ++ [b]), io } where
  blocks := by
    intro i bs hi
    simp only [List.getElem?_modify, hi]
    split
    · exact ⟨[b], rfl⟩
    · exact ⟨[], by rw [List.append_nil]; rfl⟩
  attributes := ⟨[], by rw [hio, List.append_nil], fun _ h => nomatch h⟩

theorem deserializeRecord_keeps {p p' : Pattern} {pos pos' : Nat}
    (h : deserializeRecord e input p pos = .ok (p', pos')) : Keeps p p' := by
  obtain ⟨⟨shapeId, pos₁⟩, _, h⟩ := Outcome.bind_eq_ok.mp h
  simp only at h
  split at h
  case isTrue =>
    obtain ⟨⟨defs, pos₂⟩, _, h⟩ := Outcome.bind_eq_ok.mp h
    obtain ⟨⟨structDefs, pos₃⟩, _, h⟩ := Outcome.bind_eq_ok.mp h
    obtain ⟨rfl, -⟩ := Prod.mk.inj (Except.ok.inj h)
    exact ⟨(Keeps.refl p).blocks, (Keeps.refl p).attributes⟩
  case isFalse =>
    split at h
    case isTrue =>
      obtain ⟨⟨io, pos₂⟩, hattr, h⟩ := Outcome.bind_eq_ok.mp h
      obtain ⟨rfl, -⟩ := Prod.mk.inj (Except.ok.inj h)
      exact { blocks := (Keeps.refl p).blocks, attributes := deserializeAttribute_attributes hattr }
    case isFalse =>
      obtain ⟨⟨rank, pos₂⟩, _, h⟩ := Outcome.bind_eq_ok.mp h
      obtain ⟨shape, _, h⟩ := Outcome.bind_eq_ok.mp h
      obtain ⟨⟨b, pos₃⟩, _, h⟩ := Outcome.bind_eq_ok.mp h
      simp only at h
      split at h
      · obtain ⟨io, hio, h⟩ := Outcome.bind_eq_ok.mp h
        obtain ⟨rfl, -⟩ := Prod.mk.inj (Except.ok.inj h)
        exact keeps_block p rank b (registerVariable_attributes hio)
      · contradiction

theorem deserializeLoop_keeps {blockSize fuel : Nat} {p p' : Pattern} {pos : Nat}
    (h : deserializeLoop e input blockSize fuel p pos = .ok p') : Keeps p p' := by
  induction fuel generalizing p pos with
  | zero => contradiction
  | succ fuel ih =>
    unfold deserializeLoop at h
    split at h
    case isTrue =>
      obtain ⟨⟨p₁, pos₁⟩, hrec, h⟩ := Outcome.bind_eq_ok.mp h
      exact (deserializeRecord_keeps hrec).trans (ih h)
    case isFalse =>
      cases h
      exact .refl _

end Keeps

end Ssc
