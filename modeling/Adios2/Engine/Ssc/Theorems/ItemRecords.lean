import Mathlib
import Adios2.Engine.Ssc.SscHelper

-- The record of a block is read back as that block just when its lengths fit in the bytes that are
-- sent for them.

namespace Ssc

open Bytes BP5 Core Bytes.Reader

variable {e : Endian} {input : List Byte}

section Numbers

theorem shapeID_ofNumber (s : ShapeID) : ShapeID.ofNumber s.toNat = some s := by
  cases s <;> rfl

theorem dataType_ofNumber (t : DataType) : DataType.ofNumber t.toNat = some t := by
  cases t <;> rfl

theorem shapeID_toNat_lt (s : ShapeID) : s.toNat < 6 := by
  cases s <;> decide

theorem dataType_toNat_lt (t : DataType) : t.toNat < 17 := by
  cases t <;> decide

end Numbers

section Fields

theorem byte_run {pos n : Nat} (h : Within input pos [UInt8.ofNat n]) :
    (Reader.byte e input).run pos = some (n % 256, pos + 1) := by
  simp [Reader.byte, StateT.run, readUInt_byte h.holds]

theorem reads_byte {n : Nat} (hn : n < 256) : Reads input (Reader.byte e input) [UInt8.ofNat n] n :=
  fun _ h => by rw [byte_run h, Nat.mod_eq_of_lt hn]; rfl

theorem byte_lt : Gives (Reader.byte e input) (· < 256) := by
  intro pos n pos' h
  have ⟨n', hread, hpair⟩ := Option.bind_eq_some_iff.mp h
  cases hpair
  obtain ⟨bs, hbs, rfl⟩ := Option.map_eq_some_iff.mp hread
  have hbytes : (Bytes.Reader.bytes input 1).run pos = some (bs, pos + 1) := by
    simp [Bytes.Reader.bytes, StateT.run, hbs]
  have hlen := gives_bytes 1 pos bs (pos + 1) hbytes
  have hlt : decode e bs < 256 ^ bs.length := by
    cases e
    · exact decodeLE_lt bs
    · simpa [decode] using decodeLE_lt bs.reverse
  rwa [hlen] at hlt

theorem reads_int {n : Nat} (hn : n < 2 ^ 32) : Reads input (Reader.int e input) (encode e 4 n) n := by
  intro pos h
  have := readUInt_of_holds h.holds (by decide) (show n < 256 ^ 4 by omega)
  simp [Reader.int, StateT.run, this]

theorem reads_uint64 (n : UInt64) :
    Reads input (Reader.uint64 e input) (u64 e n.toNat) n := by
  have hnumber : Reads input (Bytes.Reader.number e input) (u64 e n.toNat) n.toNat :=
    reads_number n.toNat_lt
  have h := hnumber.bind_pure (f := UInt64.ofNat)
  rwa [UInt64.ofNat_toNat] at h

-- Bytes behind their number as a byte.
def countedBytes (bs : List Byte) : List Byte := UInt8.ofNat bs.length :: bs

@[simp]
theorem countedBytes_length (bs : List Byte) : (countedBytes bs).length = bs.length + 1 := rfl

theorem gives_counted : Gives (Reader.counted e input) fun bs => bs.length < 256 :=
  byte_lt.bind fun n hn pos bs pos' h => by rwa [gives_bytes n pos bs pos' h]

theorem reads_counted {bs : List Byte} (h : bs.length < 256) :
    Reads input (Reader.counted e input) (countedBytes bs) bs :=
  (reads_byte h).bind (reads_bytes bs)

theorem readsIff_counted (bs : List Byte) :
    ReadsIff input (Reader.counted e input) (countedBytes bs) bs (bs.length < 256) :=
  fun pos h => ⟨fun hlt => reads_counted hlt pos h, fun pos' hrun => gives_counted pos bs pos' hrun⟩

theorem reads_dims (dims : Dims) :
    Reads input (Reader.dims e input dims.length) (dimsBytes e dims) dims := by
  have h : Reads input (many (Reader.uint64 e input) dims.length)
      (dims.flatMap fun n : UInt64 => u64 e n.toNat) (dims.map id) :=
    reads_many fun n _ => reads_uint64 n
  rwa [List.map_id, show dims.flatMap (fun n : UInt64 => u64 e n.toNat) = dimsBytes e dims by
    rw [dimsBytes, u64s, List.flatMap_map]] at h

theorem gives_dims (n : Nat) : Gives (Reader.dims e input n) fun dims => dims.length = n :=
  gives_many n

theorem readsIff_dims (dims : Dims) (n : Nat) :
    ReadsIff input (Reader.dims e input n) (dimsBytes e dims) dims (dims.length = n) :=
  fun pos h => ⟨fun hn => hn ▸ reads_dims dims pos h,
    fun pos' hrun => gives_dims n pos dims pos' hrun⟩

theorem reads_enumerator {α : Type} {ofNat : Nat → Option α} {r : Reader Nat} {bs : List Byte}
    {n : Nat} {a : α} (h : Reads input r bs n) (ha : ofNat n = some a) :
    Reads input (Reader.enumerator ofNat r) bs a := by
  intro pos hpos
  simp [Reader.enumerator, StateT.run_bind, h pos hpos, ha]

theorem reads_type (t : DataType) : Reads input
    (Reader.enumerator DataType.ofNumber (Reader.byte e input)) [UInt8.ofNat t.toNat] t :=
  reads_enumerator (reads_byte ((dataType_toNat_lt t).trans (by decide))) (dataType_ofNumber t)

end Fields

-- The lengths that are sent as a byte fit in it, and all dimensions are as many as those of the
-- shape.
structure BlockInfo.Sized (b : BlockInfo) : Prop where
  name      : b.name.length < 256
  structDef : b.type = .struct → b.structDef.length < 256
  shape     : b.shape.length < 256
  start     : b.start.length = b.shape.length
  count     : b.count.length = b.shape.length
  value     : b.value.length < 256

-- The record of a block behind the shape and the rank.
def blockBody (e : Endian) (b : BlockInfo) : List Byte :=
  countedBytes b.name ++ ([UInt8.ofNat b.type.toNat] ++
    ((if b.type = .struct then countedBytes b.structDef else []) ++ (u64 e b.elementSize.toNat ++
      ([UInt8.ofNat b.shape.length] ++ (dimsBytes e b.shape ++ (dimsBytes e b.start ++
        (dimsBytes e b.count ++ (u64 e b.bufferStart.toNat ++ (u64 e b.bufferCount.toNat ++
          countedBytes b.value)))))))))

theorem readsIff_structDef {b : BlockInfo} (h : b.type ≠ .struct → b.structDef = []) :
    ReadsIff input (readStructDef e input b.type)
      (if b.type = .struct then countedBytes b.structDef else []) b.structDef
      (b.type = .struct → b.structDef.length < 256) := by
  by_cases ht : b.type = .struct
  case pos =>
    simp only [readStructDef, ht, if_true, true_implies]
    exact readsIff_counted b.structDef
  case neg =>
    simp only [readStructDef, ht, if_false, false_implies, h ht]
    exact (Reads.pure []).iff

theorem readsIff_value (b : BlockInfo) : ReadsIff input
    (do let value ← Reader.counted e input; pure { b with value }) (countedBytes b.value) b
    (b.value.length < 256) := by
  intro pos h
  constructor
  · intro hlt
    rw [StateT.run_bind, reads_counted hlt pos h]
    rfl
  · intro pos' hrun
    rw [StateT.run_bind] at hrun
    have ⟨(value, pos''), hread, hpair⟩ := Option.bind_eq_some_iff.mp hrun
    have hvalue : value = b.value :=
      congrArg BlockInfo.value (Prod.mk.inj (Option.some.inj hpair)).1
    exact gives_counted pos b.value pos'' (hvalue ▸ hread)

-- The reading of a block.
theorem readsIff_block {b : BlockInfo} (h : b.type ≠ .struct → b.structDef = []) :
    ReadsIff input (readBlock e input b.shapeId) (blockBody e b) b b.Sized := by
  have hiff : (b.name.length < 256 ∧ True ∧ (b.type = .struct → b.structDef.length < 256) ∧ True ∧
      b.shape.length < 256 ∧ True ∧ b.start.length = b.shape.length ∧
      b.count.length = b.shape.length ∧ True ∧ True ∧ b.value.length < 256) ↔ b.Sized :=
    ⟨fun ⟨h₁, _, h₂, _, h₃, _, h₄, h₅, _, _, h₆⟩ => ⟨h₁, h₂, h₃, h₄, h₅, h₆⟩,
      fun ⟨h₁, h₂, h₃, h₄, h₅, h₆⟩ =>
        ⟨h₁, trivial, h₂, trivial, h₃, trivial, h₄, h₅, trivial, trivial, h₆⟩⟩
  have hshape : ReadsIff input (Reader.byte e input) [UInt8.ofNat b.shape.length] b.shape.length
      (b.shape.length < 256) :=
    fun pos hpos => ⟨fun hlt => reads_byte hlt pos hpos,
      fun pos' hrun => byte_lt pos _ pos' hrun⟩
  refine ReadsIff.congr ?_ hiff
  -- Each part shows in the block that comes out.
  apply ReadsIff.bind BlockInfo.name (readsIff_counted b.name)
  case hg => exact fun _ => gives_bind fun _ => gives_bind fun _ => gives_bind fun _ =>
    gives_bind fun _ => gives_bind fun _ => gives_bind fun _ => gives_bind fun _ =>
    gives_bind fun _ => gives_bind fun _ => gives_bind fun _ => gives_pure rfl
  apply ReadsIff.bind BlockInfo.type (reads_type b.type).iff
  case hg => exact fun _ => gives_bind fun _ => gives_bind fun _ => gives_bind fun _ =>
    gives_bind fun _ => gives_bind fun _ => gives_bind fun _ => gives_bind fun _ =>
    gives_bind fun _ => gives_bind fun _ => gives_pure rfl
  apply ReadsIff.bind BlockInfo.structDef (readsIff_structDef h)
  case hg => exact fun _ => gives_bind fun _ => gives_bind fun _ => gives_bind fun _ =>
    gives_bind fun _ => gives_bind fun _ => gives_bind fun _ => gives_bind fun _ =>
    gives_bind fun _ => gives_pure rfl
  apply ReadsIff.bind BlockInfo.elementSize (reads_uint64 b.elementSize).iff
  case hg => exact fun _ => gives_bind fun _ => gives_bind fun _ => gives_bind fun _ =>
    gives_bind fun _ => gives_bind fun _ => gives_bind fun _ => gives_bind fun _ => gives_pure rfl
  apply ReadsIff.bind (fun b : BlockInfo => b.shape.length) hshape
  case hg => exact fun n => (gives_dims n).bind fun _ hn => gives_bind fun _ => gives_bind fun _ =>
    gives_bind fun _ => gives_bind fun _ => gives_bind fun _ => gives_pure hn
  apply ReadsIff.bind BlockInfo.shape (reads_dims b.shape).iff
  case hg => exact fun _ => gives_bind fun _ => gives_bind fun _ => gives_bind fun _ =>
    gives_bind fun _ => gives_bind fun _ => gives_pure rfl
  apply ReadsIff.bind BlockInfo.start (readsIff_dims b.start _)
  case hg => exact fun _ => gives_bind fun _ => gives_bind fun _ => gives_bind fun _ =>
    gives_bind fun _ => gives_pure rfl
  apply ReadsIff.bind BlockInfo.count (readsIff_dims b.count _)
  case hg => exact fun _ => gives_bind fun _ => gives_bind fun _ => gives_bind fun _ =>
    gives_pure rfl
  apply ReadsIff.bind BlockInfo.bufferStart (reads_uint64 b.bufferStart).iff
  case hg => exact fun _ => gives_bind fun _ => gives_bind fun _ => gives_pure rfl
  apply ReadsIff.bind BlockInfo.bufferCount (reads_uint64 b.bufferCount).iff
  case hg => exact fun _ => gives_bind fun _ => gives_pure rfl
  exact readsIff_value b

end Ssc

-- The records of attributes and struct definitions. An attribute record is always taken apart at its
-- end, but the value that is defined can be another one.

namespace Ssc

open Bytes BP5 Core Bytes.Reader

variable {e : Endian} {input : List Byte}

-- An attribute that an IO can have.
structure ValidAttribute (a : Attribute) : Prop where
  type   : a.type ≠ .none ∧ a.type ≠ .struct
  single : ∀ value, a.value = .single value → a.type ≠ .string →
    value.length = getDataTypeSize a.type
  array  : ∀ values, a.value = .array values → a.type ≠ .string →
    ∀ value ∈ values, value.length = getDataTypeSize a.type
  fits   : (attributeData a.type a.value).length < 2 ^ 64

-- The value that is defined from the record of an attribute.
def receivedValue (type : DataType) : AttributeValue → AttributeValue
  | .single value => .single value
  | .array values =>
    if type = .string then .single []
    else if values.length = 1 then .single values.flatten
    else .array values

-- It is the value of the attribute unless that is an array of strings or of one element.
structure ExactAttribute (a : Attribute) : Prop where
  name  : a.name.length < 256
  value : ∀ values, a.value = .array values → a.type ≠ .string ∧ values.length ≠ 1

theorem receivedValue_eq_iff (a : Attribute) : receivedValue a.type a.value = a.value ↔
    ∀ values, a.value = .array values → a.type ≠ .string ∧ values.length ≠ 1 := by
  cases ha : a.value with
  | single value => simp [receivedValue]
  | array values =>
    simp only [receivedValue, AttributeValue.array.injEq, forall_eq']
    by_cases hs : a.type = .string
    · simp [hs]
    · by_cases h1 : values.length = 1 <;> simp [hs, h1]

def attributeBody (e : Endian) (a : Attribute) : List Byte :=
  [UInt8.ofNat a.type.toNat] ++ (countedBytes a.name ++
    (u64 e (attributeData a.type a.value).length ++ attributeData a.type a.value))

theorem getDataTypeSize_pos {t : DataType} (h : t ≠ .none ∧ t ≠ .struct ∧ t ≠ .string) :
    0 < getDataTypeSize t := by
  cases t <;> simp_all [getDataTypeSize, sizeofFloat, sizeofDouble, sizeofLongDouble]

theorem length_flatten_of_length {w : Nat} {values : List (List Byte)}
    (h : ∀ value ∈ values, value.length = w) : values.flatten.length = values.length * w := by
  rw [List.length_flatten, List.eq_replicate_of_mem (a := w) (l := values.map List.length)
    (by simpa using h)]
  simp

theorem reads_values {w : Nat} {values : List (List Byte)} (h : ∀ value ∈ values, value.length = w) :
    Reads input (many (Bytes.Reader.bytes input w) values.length) values.flatten values := by
  have hreads : Reads input (many (Bytes.Reader.bytes input w) values.length) (values.flatMap id)
      (values.map id) :=
    reads_many fun value hv => by
      rw [← h value hv]
      exact reads_bytes value
  rwa [List.map_id, List.flatMap_id] at hreads

theorem readAttributeValue_eq {a : Attribute} (ha : ValidAttribute a) {pos : Nat}
    (h : Within input pos (attributeData a.type a.value)) :
    readAttributeValue input a.type (attributeData a.type a.value).length pos
      = .ok (receivedValue a.type a.value) := by
  have hone := reads_bytes (attributeData a.type a.value) pos h
  have hvalid : ¬ (a.type = .none ∨ a.type = .struct) := not_or.mpr ha.type
  rw [readAttributeValue, if_neg hvalid]
  by_cases hstring : a.type = .string
  case pos =>
    rw [if_pos hstring, hone, Option.orUndefined_some, Outcome.ok_bind]
    cases a.value with
    | single value => rfl
    | array values => simp [receivedValue, attributeData, hstring]
  case neg =>
    have hw := getDataTypeSize_pos ⟨ha.type.1, ha.type.2, hstring⟩
    rw [if_neg hstring]
    cases hv : a.value with
    | single value =>
      rw [hv] at hone
      rw [if_pos (by exact ha.single value hv hstring), hone, Option.orUndefined_some,
        Outcome.ok_bind]
      rfl
    | array values =>
      have hall := ha.array values hv hstring
      have hflat : attributeData a.type (.array values) = values.flatten := if_neg hstring
      have hlen := length_flatten_of_length hall
      rw [hv, hflat] at hone h
      rw [hflat, hlen]
      by_cases h1 : values.length = 1
      case pos =>
        have hsize : values.length * getDataTypeSize a.type = getDataTypeSize a.type := by
          rw [h1, Nat.one_mul]
        rw [if_pos hsize, ← hlen, hone, Option.orUndefined_some, Outcome.ok_bind]
        simp [receivedValue, hstring, h1]
      case neg =>
        have hsize : values.length * getDataTypeSize a.type ≠ getDataTypeSize a.type := fun heq =>
          h1 <| Nat.eq_of_mul_eq_mul_right hw (heq.trans (Nat.one_mul _).symm)
        rw [if_neg hsize, Nat.mul_div_cancel _ hw]
        simp only
        rw [reads_values hall pos h, Option.orUndefined_some, Outcome.ok_bind]
        simp [receivedValue, hstring, h1]

-- The record of an attribute that is not defined yet.
theorem deserializeAttribute_eq {a : Attribute} (ha : ValidAttribute a)
    (hname : a.name.length < 256) {io : Io} (hnew : io.findAttribute a.name = none) {pos : Nat}
    (hpos : Within input pos (attributeBody e a)) (hlen : input.length < 2 ^ 64) :
    deserializeAttribute e input io pos =
      .ok (io.defineAttribute { a with value := receivedValue a.type a.value },
        pos + (attributeBody e a).length) := by
  have ⟨htype, hrest⟩ := hpos.append
  have ⟨hcounted, hrest⟩ := hrest.append
  have ⟨hsize, hdata⟩ := hrest.append
  have htypeLt := (dataType_toNat_lt a.type).trans (show 17 < 256 by decide)
  have h₁ := reads_byte (e := e) htypeLt pos htype
  have h₂ := reads_counted (e := e) hname _ hcounted
  have h₃ := reads_number ha.fits _ hsize
  have h₄ := readAttributeValue_eq ha hdata
  have hle := hpos.le
  rw [deserializeAttribute, h₁, Option.orUndefined_some, Outcome.ok_bind]
  simp only
  rw [h₂, Option.orUndefined_some, Outcome.ok_bind]
  simp only
  rw [h₃, Option.orUndefined_some, Outcome.ok_bind]
  simp only [hnew, Option.isSome_none, Bool.false_eq_true, if_false, dataType_ofNumber, h₄,
    Outcome.ok_bind, Outcome.pure_eq]
  simp only [attributeBody, List.length_append] at hle ⊢
  rw [Nat.mod_eq_of_lt (by omega)]
  simp only [Nat.add_assoc]

-- All names that are defined have been read behind a byte with their length.
theorem deserializeAttribute_attributes {io io' : Io} {pos pos' : Nat}
    (h : deserializeAttribute e input io pos = .ok (io', pos')) :
    ∃ as, io'.attributes = io.attributes ++ as ∧ ∀ a ∈ as, a.name.length < 256 := by
  obtain ⟨⟨type, pos₁⟩, _, h⟩ := Outcome.bind_eq_ok.mp h
  obtain ⟨⟨name, pos₂⟩, hname, h⟩ := Outcome.bind_eq_ok.mp h
  obtain ⟨⟨size, pos₃⟩, _, h⟩ := Outcome.bind_eq_ok.mp h
  simp only at hname h
  split at h
  · cases h
    exact ⟨[], (List.append_nil _).symm, fun _ h => nomatch h⟩
  · split at h
    · contradiction
    · obtain ⟨value, _, h⟩ := Outcome.bind_eq_ok.mp h
      cases h
      refine ⟨_, rfl, fun a ha => ?_⟩
      obtain rfl := List.mem_singleton.mp ha
      exact gives_counted _ _ _ (Option.orUndefined_eq_ok.mp hname)

section StructDefinitions

-- The fields that a struct definition can have, by the checks when they are added.
structure ValidDefinition (d : StructDefinition) : Prop where
  structSize : d.structSize < 2 ^ 64
  field      : ∀ f ∈ d.definition, f.offset < 2 ^ 64 ∧ f.elementCount < 2 ^ 64 ∧
    f.type ≠ .none ∧ f.type ≠ .struct ∧
    (f.offset + getDataTypeSize f.type * f.elementCount) % 2 ^ 64 ≤ d.structSize

-- The lengths that are sent as a byte fit in it.
structure SizedDefinition (d : StructDefinition) : Prop where
  name       : d.name.length < 256
  definition : d.definition.length < 256
  field      : ∀ f ∈ d.definition, f.name.length < 256

def fieldBytes (e : Endian) (f : StructFieldDefinition) : List Byte :=
  countedBytes f.name ++ (u64 e f.offset ++ (encode e 4 f.type.toNat ++ u64 e f.elementCount))

def definitionBytes (e : Endian) (d : StructDefinition) : List Byte :=
  countedBytes d.name ++ (u64 e d.structSize ++ ([UInt8.ofNat d.definition.length] ++
    d.definition.flatMap (fieldBytes e)))

theorem deserializeFields_eq {fields : List StructFieldDefinition} {d : StructDefinition}
    (hvalid : ∀ f ∈ fields, f.offset < 2 ^ 64 ∧ f.elementCount < 2 ^ 64 ∧
      f.type ≠ .none ∧ f.type ≠ .struct ∧
      (f.offset + getDataTypeSize f.type * f.elementCount) % 2 ^ 64 ≤ d.structSize)
    (hname : ∀ f ∈ fields, f.name.length < 256) {pos : Nat}
    (hpos : Within input pos (fields.flatMap (fieldBytes e))) :
    deserializeFields e input fields.length (some d) pos
      = .ok (some { d with definition := d.definition ++ fields },
        pos + (fields.flatMap (fieldBytes e)).length) := by
  induction fields generalizing d pos with
  | nil => simp [deserializeFields]
  | cons f fields ih =>
    have ⟨hf, hrest⟩ := hpos.append
    have ⟨hcounted, hf⟩ := hf.append
    have ⟨hoffset, hf⟩ := hf.append
    have ⟨htype, hcount⟩ := hf.append
    have ⟨hoff, hnum, hnone, hstruct, hsize⟩ := hvalid f List.mem_cons_self
    have htypeLt := (dataType_toNat_lt f.type).trans (show 17 < 2 ^ 32 by decide)
    have h₁ := reads_counted (e := e) (hname f List.mem_cons_self) _ hcounted
    have h₂ := reads_number hoff _ hoffset
    have h₃ := reads_enumerator (reads_int (e := e) htypeLt) (dataType_ofNumber f.type) _ htype
    have h₄ := reads_number hnum _ hcount
    have hadd : d.addField f.name f.offset f.type f.elementCount
        = .ok { d with definition := d.definition ++ [f] } := by
      rw [StructDefinition.addField, if_neg (not_or.mpr ⟨hnone, hstruct⟩), if_neg (by omega)]
    have := ih (d := { d with definition := d.definition ++ [f] })
      (fun f' h' => hvalid f' (List.mem_cons_of_mem _ h'))
      (fun f' h' => hname f' (List.mem_cons_of_mem _ h')) hrest
    rw [List.length_cons, deserializeFields, h₁, Option.orUndefined_some, Outcome.ok_bind]
    simp only
    rw [h₂, Option.orUndefined_some, Outcome.ok_bind]
    simp only
    rw [h₃, Option.orUndefined_some, Outcome.ok_bind]
    simp only
    rw [h₄, Option.orUndefined_some, Outcome.ok_bind]
    simp only [Option.mapM_some, hadd]
    simp only [List.flatMap_cons, fieldBytes, List.length_append, Nat.add_assoc, List.append_assoc]
      at this ⊢
    simpa using this

theorem deserializeStructDefinition_eq {d : StructDefinition} (hvalid : ValidDefinition d)
    (hsized : SizedDefinition d) {structDefs : List StructDefinition}
    (hnew : ∀ d' ∈ structDefs, d'.name ≠ d.name) {pos : Nat}
    (hpos : Within input pos (definitionBytes e d)) :
    deserializeStructDefinition e input structDefs pos
      = .ok (structDefs ++ [d], pos + (definitionBytes e d).length) := by
  have ⟨hcounted, hrest⟩ := hpos.append
  have ⟨hsize, hrest⟩ := hrest.append
  have ⟨hitems, hfields⟩ := hrest.append
  have h₁ := reads_counted (e := e) hsized.name _ hcounted
  have h₂ := reads_number hvalid.structSize _ hsize
  have h₃ := reads_byte (e := e) hsized.definition _ hitems
  have h₄ := deserializeFields_eq (d := { d with definition := [] }) hvalid.field hsized.field
    hfields
  have hany : structDefs.any (fun d' => d'.name = d.name) = false := by
    simpa using hnew
  rw [deserializeStructDefinition, h₁, Option.orUndefined_some, Outcome.ok_bind]
  simp only
  rw [h₂, Option.orUndefined_some, Outcome.ok_bind]
  simp only
  rw [h₃, Option.orUndefined_some, Outcome.ok_bind]
  simp only [hany, Bool.false_eq_true, if_false]
  rw [h₄, Outcome.ok_bind]
  simp [definitionBytes, Nat.add_assoc]
  omega

theorem deserializeStructDefinitions_eq {ds structDefs : List StructDefinition}
    (hvalid : ∀ d ∈ ds, ValidDefinition d) (hsized : ∀ d ∈ ds, SizedDefinition d)
    (hnodup : ((structDefs ++ ds).map (·.name)).Nodup) {pos : Nat}
    (hpos : Within input pos (ds.flatMap (definitionBytes e))) :
    deserializeStructDefinitions e input ds.length structDefs pos
      = .ok (structDefs ++ ds, pos + (ds.flatMap (definitionBytes e)).length) := by
  induction ds generalizing structDefs pos with
  | nil => simp [deserializeStructDefinitions]
  | cons d ds ih =>
    have ⟨hd, hrest⟩ := hpos.append
    have hnew : ∀ d' ∈ structDefs, d'.name ≠ d.name := by
      intro d' hd' heq
      rw [List.map_append, List.map_cons] at hnodup
      have := List.disjoint_of_nodup_append hnodup
      exact this (List.mem_map_of_mem hd') (heq ▸ List.mem_cons_self)
    have hone := deserializeStructDefinition_eq (hvalid d List.mem_cons_self)
      (hsized d List.mem_cons_self) hnew hd
    have := @ih (structDefs ++ [d])
      (fun d' h' => hvalid d' (List.mem_cons_of_mem _ h'))
      (fun d' h' => hsized d' (List.mem_cons_of_mem _ h')) (by simpa using hnodup) _ hrest
    rw [List.length_cons, deserializeStructDefinitions, hone, Outcome.ok_bind]
    simp only
    rw [this]
    simp [Nat.add_assoc]

end StructDefinitions

end Ssc
