import Mathlib
import Adios2.Engine.Ssc.Theorems.RecordEffects

-- What arrives at the ranks of a stream when all writers have synchronized their metadata.

namespace Ssc

open Bytes BP5 Core Bytes.Reader

-- The metadata of all writers, and what a rank has that takes it.
structure Exchange where
  finalStep : Bool
  locked    : Bool
  ranks     : List RankMetadata
  pattern   : Pattern

namespace Exchange

variable (e : Endian) (x : Exchange)

def definitions : List StructDefinition :=
  x.ranks.zipIdx.flatMap fun (r, writerRank) => r.writtenDefinitions writerRank

def attributes : List Attribute :=
  x.ranks.zipIdx.flatMap fun (r, writerRank) => r.writtenAttributes writerRank x.ranks.length

def blocks : List BlockInfo := x.ranks.flatMap (·.blocks)

def records : List Record :=
  x.ranks.zipIdx.flatMap fun (r, writerRank) => r.records writerRank x.ranks.length

-- The pieces that a writer stores, by their sizes.
def pieceSizes (r : RankMetadata) (writerRank : Nat) : List (Bool × Nat) :=
  ((r.records writerRank x.ranks.length).flatMap (Record.pieces e)).map pieceSize

-- What holds of what a stream exchanges. What is defined from the metadata is not defined before, and
-- the keys of the maps are different.
structure Valid : Prop where
  records     : ∀ r ∈ x.records, ValidRecord r
  ranks       : ∀ r ∈ x.ranks, r.streamRank < x.pattern.blocks.length
  streamRanks : (x.ranks.map (·.streamRank)).Nodup
  attributes  : (x.attributes.map (·.name)).Nodup
  others      : ∀ a ∈ x.pattern.io.attributes, ∀ a' ∈ x.attributes, a.name ≠ a'.name
  structDefs  : (x.pattern.structDefs.map (·.name)).Nodup
  definitions : ∀ d ∈ x.pattern.structDefs, ∀ d' ∈ x.definitions, d.name ≠ d'.name

-- Each rank stores within its buffer, the sizes are of type `int`, the lengths and values are those
-- that can be sent, and the variables of all blocks can be defined.
structure Fits (capacity : Nat) : Prop where
  room      : ∀ r writerRank, (r, writerRank) ∈ x.ranks.zipIdx →
    Room capacity 8 (x.pieceSizes e r writerRank)
  size      : (x.records.flatMap (Record.bytes e)).length + 10 < 2 ^ 31
  sized     : ∀ r ∈ x.records, SizedRecord r
  names     : (x.definitions.map (·.name)).Nodup
  registers : Registers (x.pattern.structDefs ++ x.definitions) x.pattern.io.rowMajor
    x.pattern.io.vars x.blocks

-- Each rank's blocks are those that it has, and the attributes and struct definitions that have been
-- written are defined.
structure Exact (p : Pattern) : Prop where
  length     : p.blocks.length = x.pattern.blocks.length
  blocks     : ∀ r ∈ x.ranks, p.blocks[r.streamRank]? = some r.blocks
  others     : ∀ rank < x.pattern.blocks.length, rank ∉ x.ranks.map (·.streamRank) →
    p.blocks[rank]? = some []
  attributes : p.io.attributes = x.pattern.io.attributes ++ x.attributes
  structDefs : p.structDefs = x.pattern.structDefs ++ x.definitions

-- The writers store within their buffers, and the loop of the reader ends with what was written.
def Delivered (capacity : Nat) : Prop :=
  ∃ buffer, syncWritePattern e capacity x.finalStep x.locked x.ranks = .ok buffer ∧
  ∃ p, (∃ rounds, ∀ fuel ≥ rounds, deserialize e buffer fuel x.pattern = .ok p) ∧ x.Exact p

end Exchange

section Serialization

variable {e : Endian} {x : Exchange} {capacity : Nat}

def Exchange.rankBytes (e : Endian) (x : Exchange) : RankMetadata × Nat → List Byte :=
  fun (r, writerRank) => (r.records writerRank x.ranks.length).flatMap (Record.bytes e)

theorem serializeRank_ok_iff {r : RankMetadata} {writerRank : Nat} :
    (∃ output, serializeRank e capacity writerRank x.ranks.length r = .ok output) ↔
      Room capacity 8 (x.pieceSizes e r writerRank) := by
  rw [serializeRank_eq, store_ok_iff]
  rfl

theorem serializeRank_written {r : RankMetadata} {writerRank : Nat} {output : Buffer}
    (h : serializeRank e capacity writerRank x.ranks.length r = .ok output) :
    output.written = x.rankBytes e (r, writerRank) := by
  rw [serializeRank_eq] at h
  rw [store_written h, List.nil_append, Exchange.rankBytes, List.flatMap_assoc]
  rfl

theorem flatMap_rankBytes :
    x.ranks.zipIdx.flatMap (x.rankBytes e) = x.records.flatMap (Record.bytes e) := by
  rw [Exchange.records, List.flatMap_assoc]
  rfl

-- What all ranks get.
def Exchange.buffer (e : Endian) (x : Exchange) : List Byte :=
  [UInt8.ofNat x.finalStep.toNat, UInt8.ofNat x.locked.toNat] ++
    u64 e (x.records.flatMap (Record.bytes e)).length ++ x.records.flatMap (Record.bytes e)

theorem syncWritePattern_ok {buffer : List Byte} :
    syncWritePattern e capacity x.finalStep x.locked x.ranks = .ok buffer ↔
      (∀ r writerRank, (r, writerRank) ∈ x.ranks.zipIdx →
        Room capacity 8 (x.pieceSizes e r writerRank)) ∧
      (x.records.flatMap (Record.bytes e)).length + 10 < 2 ^ 31 ∧ buffer = x.buffer e := by
  -- The buffers of the ranks have what the ranks write.
  have hlocals : ∀ {locals}, List.Forall₂ (fun (a : RankMetadata × Nat) b =>
      serializeRank e capacity a.2 x.ranks.length a.1 = .ok b) x.ranks.zipIdx locals →
      locals.map Buffer.written = x.ranks.zipIdx.map (x.rankBytes e) := by
    intro locals hall
    generalize x.ranks.zipIdx = l at hall
    induction hall with
    | nil => rfl
    | cons hb _ ih => rw [List.map_cons, List.map_cons, ih, serializeRank_written hb]
  have hsize : ∀ locals : List Buffer,
      (locals.map fun b => b.pos - 8).sum = (locals.flatMap Buffer.written).length := by
    intro locals
    rw [List.length_flatMap]
    simp [Buffer.pos]
  have haggregate : ∀ {locals : List Buffer},
      locals.map Buffer.written = x.ranks.zipIdx.map (x.rankBytes e) →
      (aggregateMetadata e x.finalStep x.locked locals = .ok buffer ↔
        (x.records.flatMap (Record.bytes e)).length + 10 < 2 ^ 31 ∧ buffer = x.buffer e) := by
    intro locals heq
    have hflat : locals.flatMap Buffer.written = x.records.flatMap (Record.bytes e) := by
      rw [← flatMap_rankBytes, List.flatMap_def, heq, ← List.flatMap_def]
    have hle : ∀ b ∈ locals, b.pos ≤ 8 + (x.records.flatMap (Record.bytes e)).length := by
      intro b hb
      rw [← hflat, List.length_flatMap]
      have hmem : b.written.length ∈ locals.map fun b => b.written.length := List.mem_map_of_mem hb
      exact Nat.add_le_add_left (List.le_sum_of_mem hmem) 8
    unfold aggregateMetadata
    simp only [hsize, hflat]
    by_cases hlt : (x.records.flatMap (Record.bytes e)).length + 10 < 2 ^ 31
    case pos =>
      have : ¬ ((∃ b ∈ locals, b.pos ≥ 2 ^ 31) ∨
          (x.records.flatMap (Record.bytes e)).length + 10 ≥ 2 ^ 31) := by
        rintro (⟨b, hb, hge⟩ | hge)
        · have := hle b hb
          omega
        · omega
      rw [if_neg this]
      exact ⟨fun h => ⟨hlt, (Except.ok.inj h).symm⟩, fun h => congrArg _ h.2.symm⟩
    case neg =>
      rw [if_pos (.inr (Nat.le_of_not_lt hlt))]
      exact ⟨fun h => (by cases h), fun h => absurd h.1 hlt⟩
  rw [syncWritePattern, Outcome.bind_eq_ok]
  constructor
  · rintro ⟨locals, hmap, h⟩
    have hall := Outcome.mapM_eq_ok_iff.mp hmap
    refine ⟨fun r writerRank hr => serializeRank_ok_iff.mp ?_, (haggregate (hlocals hall)).mp h⟩
    obtain ⟨i, hi, hget⟩ := List.getElem_of_mem hr
    have hout := (List.forall₂_iff_get.mp hall).2 i hi (hall.length_eq ▸ hi)
    simp only [List.get_eq_getElem, hget] at hout
    exact ⟨_, hout⟩
  · rintro ⟨hroom, h⟩
    obtain ⟨locals, hmap⟩ := Outcome.exists_mapM_eq_ok (l := x.ranks.zipIdx)
      (f := fun (r, writerRank) => serializeRank e capacity writerRank x.ranks.length r)
      fun a ha => serializeRank_ok_iff.mpr (hroom a.1 a.2 ha)
    have hall := Outcome.mapM_eq_ok_iff.mp hmap
    exact ⟨locals, hmap, (haggregate (hlocals hall)).mpr h⟩

end Serialization

section Records

variable {x : Exchange}

theorem definitionsOf_append (rs rs' : List Record) :
    definitionsOf (rs ++ rs') = definitionsOf rs ++ definitionsOf rs' :=
  List.flatMap_append

theorem definitionsOf_records (r : RankMetadata) (writerRank writerSize : Nat) :
    definitionsOf (r.records writerRank writerSize) = r.writtenDefinitions writerRank := by
  unfold RankMetadata.records definitionsOf
  by_cases h : r.writtenDefinitions writerRank = [] <;> simp [h, List.flatMap_map]

theorem attributesOf_records (r : RankMetadata) (writerRank writerSize : Nat) :
    attributesOf (r.records writerRank writerSize) = r.writtenAttributes writerRank writerSize := by
  unfold RankMetadata.records attributesOf
  by_cases h : r.writtenDefinitions writerRank = [] <;>
    simp [h, List.filterMap_map]

theorem blocksOf_records (r : RankMetadata) (writerRank writerSize : Nat) :
    blocksOf (r.records writerRank writerSize) = r.blocks := by
  unfold RankMetadata.records blocksOf
  by_cases h : r.writtenDefinitions writerRank = [] <;>
    simp [h, List.filterMap_map]

theorem blocksOfRank_records (rank : Nat) (r : RankMetadata) (writerRank writerSize : Nat) :
    blocksOfRank rank (r.records writerRank writerSize)
      = if r.streamRank = rank then r.blocks else [] := by
  unfold RankMetadata.records blocksOfRank
  by_cases h : r.writtenDefinitions writerRank = [] <;> by_cases hr : r.streamRank = rank <;>
    simp [h, hr, List.filterMap_map]

theorem definitionsOf_exchange : definitionsOf x.records = x.definitions := by
  rw [definitionsOf, Exchange.records, List.flatMap_assoc, Exchange.definitions]
  exact congrArg (List.flatMap · _) (funext fun _ => definitionsOf_records _ _ _)

theorem attributesOf_exchange : attributesOf x.records = x.attributes := by
  rw [attributesOf, Exchange.records, List.filterMap_flatMap, Exchange.attributes]
  exact congrArg (List.flatMap · _) (funext fun _ => attributesOf_records _ _ _)

theorem flatMap_zipIdx {α β : Type} (f : α → List β) (l : List α) (k : Nat) :
    (l.zipIdx k).flatMap (fun a => f a.1) = l.flatMap f := by
  rw [← List.flatMap_map, List.zipIdx_map_fst]

theorem blocksOf_exchange : blocksOf x.records = x.blocks := by
  rw [blocksOf, Exchange.records, List.filterMap_flatMap, Exchange.blocks,
    ← flatMap_zipIdx RankMetadata.blocks x.ranks 0]
  exact congrArg (List.flatMap · _) (funext fun _ => blocksOf_records _ _ _)

theorem blocksOfRank_exchange (rank : Nat) : blocksOfRank rank x.records
    = x.ranks.flatMap fun r => if r.streamRank = rank then r.blocks else [] := by
  rw [blocksOfRank, Exchange.records, List.filterMap_flatMap,
    ← flatMap_zipIdx (fun r => if r.streamRank = rank then r.blocks else []) x.ranks 0]
  exact congrArg (List.flatMap · _) (funext fun _ => blocksOfRank_records _ _ _ _)

theorem flatMap_ite_eq {α β : Type} {key : α → Nat} {f : α → List β} {l : List α}
    (hnodup : (l.map key).Nodup) {a : α} (ha : a ∈ l) :
    (l.flatMap fun a' => if key a' = key a then f a' else []) = f a := by
  induction l with
  | nil => contradiction
  | cons a' l ih =>
    have ⟨hnew, hnodup⟩ := List.nodup_cons.mp hnodup
    have hnone : ∀ {k}, k ∉ l.map key → (l.flatMap fun a' => if key a' = k then f a' else []) = [] := by
      intro k hk
      refine List.flatMap_eq_nil_iff.mpr fun a' ha' => if_neg fun heq => hk ?_
      exact heq ▸ List.mem_map_of_mem ha'
    rw [List.flatMap_cons]
    cases List.mem_cons.mp ha with
    | inl heq => rw [heq, if_pos rfl, hnone hnew, List.append_nil]
    | inr hmem =>
      have hne : key a' ≠ key a := fun heq => hnew (heq ▸ List.mem_map_of_mem hmem)
      rw [if_neg hne, List.nil_append, ih hnodup hmem]

-- The struct definitions are in front of everything else.
theorem records_eq (x : Exchange) : ∃ rest, definitionsOf rest = [] ∧
    x.records = (if x.definitions = [] then [] else [.structDefinitions x.definitions]) ++ rest := by
  unfold Exchange.records Exchange.definitions
  generalize x.ranks.length = n
  cases x.ranks with
  | nil => exact ⟨[], rfl, rfl⟩
  | cons r ranks =>
    have hnone : ∀ a ∈ ranks.zipIdx 1, a.1.writtenDefinitions a.2 = [] := by
      intro a ha
      have := (List.mem_zipIdx (x := a.1) (i := a.2) ha).1
      exact if_neg (by omega)
    have hdefs : ((ranks.zipIdx 1).flatMap fun a => a.1.writtenDefinitions a.2) = [] :=
      List.flatMap_eq_nil_iff.mpr hnone
    refine ⟨(r.writtenAttributes 0 n).map .attr ++ r.blocks.map (.block r.streamRank) ++
      (ranks.zipIdx 1).flatMap fun a => a.1.records a.2 n, ?_, ?_⟩
    · have hrest : definitionsOf ((ranks.zipIdx 1).flatMap fun a => a.1.records a.2 n) = [] := by
        rw [definitionsOf, List.flatMap_assoc]
        exact (congrArg (List.flatMap · _) (funext fun _ => definitionsOf_records _ _ _)).trans hdefs
      rw [definitionsOf_append, hrest]
      simp [definitionsOf, List.flatMap_map]
    · simp only [List.zipIdx_cons, List.flatMap_cons, Nat.zero_add, hdefs, List.append_nil,
        RankMetadata.records, List.append_assoc]

end Records

section Delivery

variable {e : Endian} {x : Exchange} {capacity : Nat}

-- The pattern that the records are taken to.
def Exchange.cleared (x : Exchange) : Pattern :=
  { x.pattern with blocks := x.pattern.blocks.map fun _ => [] }

theorem applyRecords_exchange (h : x.Valid) :
    (∃ p, x.records.foldlM applyRecord x.cleared = .ok p) ↔
      Registers (x.pattern.structDefs ++ x.definitions) x.pattern.io.rowMajor x.pattern.io.vars
        x.blocks := by
  have ⟨rest, hdefs, hrecords⟩ := records_eq x
  have hvalid : ∀ r ∈ rest, ValidRecord r :=
    fun r hr => h.records r (hrecords ▸ List.mem_append_right _ hr)
  have hblocks : blocksOf rest = x.blocks := by
    rw [← blocksOf_exchange, hrecords]
    split <;> simp [blocksOf]
  rw [← hblocks, hrecords]
  split
  case isTrue hnone =>
    rw [List.nil_append, applyRecords_ok_iff hvalid hdefs, hnone, List.append_nil]
    rfl
  case isFalse =>
    exact applyRecords_ok_iff hvalid hdefs
      (p := { x.cleared with structDefs := x.pattern.structDefs ++ x.definitions })

theorem fresh_records (h : x.Valid) (hnames : (x.definitions.map (·.name)).Nodup) :
    Fresh x.cleared x.records where
  definitions := by
    rw [definitionsOf_exchange, List.map_append]
    refine h.structDefs.append hnames fun name hp hd => ?_
    have ⟨d, hd₁, hname⟩ := List.mem_map.mp hp
    have ⟨d', hd₂, hname'⟩ := List.mem_map.mp hd
    exact h.definitions d hd₁ d' hd₂ (hname.trans hname'.symm)
  attributes  := attributesOf_exchange ▸ h.attributes
  others      := attributesOf_exchange ▸ h.others
  ranks       := by
    intro rank b hb
    have ⟨a, ha, hb⟩ := List.mem_flatMap.mp hb
    have : rank = a.1.streamRank := by
      simp only [RankMetadata.records, List.mem_append, List.mem_map] at hb
      obtain hb | ⟨_, _, hb⟩ | ⟨_, _, hb⟩ := hb
      · split at hb <;> simp at hb
      · contradiction
      · injection hb with hb
        exact hb.symm
    rw [this]
    simpa [Exchange.cleared] using h.ranks a.1 (List.fst_mem_of_mem_zipIdx ha)

theorem exact_iff_adds (h : x.Valid) {p : Pattern} : x.Exact p ↔ Adds x.cleared x.records p := by
  have hget : ∀ rank, x.cleared.blocks[rank]? = if rank < x.pattern.blocks.length then some []
      else none := by
    intro rank
    rw [Exchange.cleared, List.getElem?_map]
    by_cases hlt : rank < x.pattern.blocks.length <;> simp [hlt]
  have hmem : ∀ r ∈ x.ranks, blocksOfRank r.streamRank x.records = r.blocks := by
    intro r hr
    rw [blocksOfRank_exchange]
    exact flatMap_ite_eq h.streamRanks hr
  have hother : ∀ rank, rank ∉ x.ranks.map (·.streamRank) → blocksOfRank rank x.records = [] := by
    intro rank hrank
    rw [blocksOfRank_exchange]
    refine List.flatMap_eq_nil_iff.mpr fun r hr => if_neg fun heq => hrank ?_
    exact heq ▸ List.mem_map_of_mem hr
  constructor
  · intro hexact
    refine ⟨fun rank => ?_, by rw [attributesOf_exchange]; exact hexact.attributes,
      by rw [definitionsOf_exchange]; exact hexact.structDefs⟩
    rw [hget]
    by_cases hlt : rank < x.pattern.blocks.length
    case neg =>
      rw [if_neg hlt]
      exact List.getElem?_eq_none (hexact.length ▸ Nat.le_of_not_lt hlt)
    case pos =>
      rw [if_pos hlt, Option.map_some, List.nil_append]
      by_cases hrank : rank ∈ x.ranks.map (·.streamRank)
      case pos =>
        obtain ⟨r, hr, rfl⟩ := List.mem_map.mp hrank
        rw [hexact.blocks r hr, hmem r hr]
      case neg => rw [hexact.others rank hlt hrank, hother rank hrank]
  · intro hadds
    refine ⟨?_, fun r hr => ?_, fun rank hlt hrank => ?_, ?_, ?_⟩
    · rw [hadds.length_blocks, Exchange.cleared, List.length_map]
    · rw [hadds.blocks, hget, if_pos (h.ranks r hr), Option.map_some, List.nil_append, hmem r hr]
    · rw [hadds.blocks, hget, if_pos hlt, Option.map_some, List.nil_append, hother rank hrank]
    · rw [hadds.attributes, attributesOf_exchange]
      rfl
    · rw [hadds.structDefs, definitionsOf_exchange]
      rfl

theorem deserialize_buffer (hsize : (x.records.flatMap (Record.bytes e)).length + 10 < 2 ^ 31)
    (fuel : Nat) : deserialize e (x.buffer e) fuel x.pattern
      = deserializeLoop e (x.buffer e) (x.records.flatMap (Record.bytes e)).length fuel x.cleared
        10 := by
  have hwithin := within_self (x.buffer e)
  rw [Exchange.buffer, List.append_assoc] at hwithin
  have hnumber := hwithin.append.2.append.1
  rw [← List.append_assoc] at hnumber
  have := reads_number (e := e) (n := (x.records.flatMap (Record.bytes e)).length) (by omega) _
    hnumber
  simp only [List.length_cons, List.length_nil, Nat.zero_add, u64_length] at this
  rw [deserialize, Exchange.buffer, this, Option.orUndefined_some, Outcome.ok_bind]
  rfl

theorem within_records : Within (x.buffer e) 10 (x.records.flatMap (Record.bytes e)) := by
  have hwithin := within_self (x.buffer e)
  rw [Exchange.buffer] at hwithin
  have := hwithin.append.2
  simp only [List.length_append, List.length_cons, List.length_nil, Nat.zero_add, u64_length]
    at this
  exact this

theorem buffer_length :
    (x.buffer e).length = (x.records.flatMap (Record.bytes e)).length + 10 := by
  rw [Exchange.buffer, List.length_append, List.length_append, u64_length]
  simp only [List.length_cons, List.length_nil]
  omega

theorem delivered_of_fits (h : x.Valid) (hfits : x.Fits e capacity) : x.Delivered e capacity := by
  have hsize := hfits.size
  have hlen : (x.buffer e).length < 2 ^ 64 := by
    rw [buffer_length]
    omega
  have ⟨p, hp⟩ := (applyRecords_exchange h).mpr hfits.registers
  refine ⟨x.buffer e, syncWritePattern_ok.mpr ⟨hfits.room, hsize, rfl⟩, p,
    ⟨x.records.length + 1, fun fuel hfuel => ?_⟩, (exact_iff_adds h).mpr (applyRecords_adds hp)⟩
  rw [deserialize_buffer hsize, ← hp]
  exact deserializeLoop_eq h.records hfits.sized (fresh_records h hfits.names) hlen within_records
    (Nat.add_comm _ _) hfuel

-- The buffer of a rank begins with room for its first eight bytes, and does not grow before the first
-- two bytes of the struct definitions.
theorem definitions_eq_nil (hroom : ∀ r writerRank, (r, writerRank) ∈ x.ranks.zipIdx →
    Room localBufferCapacity 8 (x.pieceSizes e r writerRank)) : x.definitions = [] := by
  refine List.flatMap_eq_nil_iff.mpr fun (r, writerRank) hr => ?_
  by_contra hne
  have := hroom r writerRank hr
  rw [Exchange.pieceSizes, RankMetadata.records, if_neg hne] at this
  simp [Record.pieces, pieceSize, Room, grownCapacity, localBufferCapacity] at this

theorem fits_of_delivered (h : x.Valid) (hdel : x.Delivered e localBufferCapacity) :
    x.Fits e localBufferCapacity := by
  have ⟨buffer, hbuffer, p, ⟨rounds, hp⟩, hexact⟩ := hdel
  obtain ⟨hroom, hsize, rfl⟩ := syncWritePattern_ok.mp hbuffer
  have hdefs := definitions_eq_nil hroom
  have hnames : (x.definitions.map (·.name)).Nodup := by simp [hdefs]
  have hlen : (x.buffer e).length < 2 ^ 64 := by
    rw [buffer_length]
    omega
  have hloop : ∀ fuel ≥ rounds, deserializeLoop e (x.buffer e)
      (x.records.flatMap (Record.bytes e)).length fuel x.cleared 10 = .ok p :=
    fun fuel hfuel => (deserialize_buffer hsize fuel).symm.trans (hp fuel hfuel)
  have hfresh := fresh_records h hnames
  have hsized := sized_of_deserializeLoop h.records (definitionsOf_exchange.trans hdefs) hfresh hlen
    within_records (Nat.add_comm _ _) (hloop rounds (Nat.le_refl _)) ((exact_iff_adds h).mp hexact)
  refine ⟨hroom, hsize, hsized, hnames, (applyRecords_exchange h).mp ⟨p, ?_⟩⟩
  have hfuel : x.records.length < rounds + (x.records.length + 1) := by omega
  have hend := deserializeLoop_eq h.records hsized hfresh
    hlen within_records (Nat.add_comm _ _) hfuel
  exact hend.symm.trans (hloop _ (Nat.le_add_right _ _))

end Delivery

theorem metadataCodec (e : Endian) (x : Exchange) (h : x.Valid) :
    (∀ capacity, x.Fits e capacity → x.Delivered e capacity) ∧
    (x.Delivered e localBufferCapacity ↔ x.Fits e localBufferCapacity) :=
  ⟨fun _ => delivered_of_fits h, fits_of_delivered h, delivered_of_fits h⟩

-- One rank has two elements of a global array, which the other rank takes.
def oneBlock : Exchange where
  finalStep := false
  locked    := false
  ranks     := [{ structDefinitions := [], attributes := [], streamRank := 0
                  blocks := [{ name := [120], structDef := [], type := .int32, elementSize := 4
                               shapeId := .globalArray, shape := [4], start := [1], count := [2]
                               bufferStart := 0, bufferCount := 8, value := [] }] }]
  pattern   := { blocks := [[], []], io := { name := "reader", rowMajor := true } }

theorem oneBlock_delivered : oneBlock.Delivered .little localBufferCapacity := by
  have hrecords : oneBlock.records = [.block 0 (oneBlock.blocks.head (by decide))] := rfl
  refine (metadataCodec .little oneBlock ?valid).2.mpr ?fits
  case valid =>
    refine ⟨?_, by decide, by decide, by decide, by decide, by decide, by decide⟩
    rw [hrecords]
    simp only [List.forall_mem_singleton, ValidRecord]
    decide
  case fits =>
    refine ⟨?_, by decide, ?_, by decide, ?_⟩
    · intro r writerRank hr
      obtain ⟨rfl, rfl⟩ := Prod.mk.inj (List.mem_singleton.mp hr)
      exact ⟨by decide, trivial⟩
    · rw [hrecords]
      simp only [List.forall_mem_singleton, SizedRecord]
      exact ⟨by decide, by decide, by decide, by decide, by decide, by decide⟩
    · have hdef : Definable [] true (oneBlock.blocks.head (by decide)) :=
        ⟨fun h => absurd h (by decide), .globalArray, by decide +kernel⟩
      refine registers_cons.mpr ⟨fun _ => .inr ⟨rfl, hdef⟩, ?_⟩
      intro before b after h
      simp at h

-- One struct definition is stored behind the end of the buffer.
def oneDefinition : Exchange where
  finalStep := false
  locked    := false
  ranks     := [{ structDefinitions := [{ name := [115], structSize := 4, definition := [] }]
                  attributes := [], streamRank := 0, blocks := [] }]
  pattern   := { blocks := [[], []], io := { name := "reader", rowMajor := true } }

theorem not_delivered_definition : ¬ ∀ (e : Endian) (x : Exchange), x.Valid →
    x.Delivered e localBufferCapacity := by
  intro h
  have hvalid : oneDefinition.Valid := by
    refine ⟨?_, by decide, by decide, by decide, by decide, by decide, by decide⟩
    have : oneDefinition.records = [.structDefinitions oneDefinition.definitions] := rfl
    rw [this]
    simp only [List.forall_mem_singleton, ValidRecord]
    exact ⟨by decide, fun d hd => List.mem_singleton.mp hd ▸ ⟨by decide, fun _ hf => nomatch hf⟩⟩
  have ⟨buffer, hbuffer, _⟩ := h .little oneDefinition hvalid
  exact nomatch (rfl : syncWritePattern .little localBufferCapacity _ _ oneDefinition.ranks =
    .error .undefined).symm.trans hbuffer

end Ssc
