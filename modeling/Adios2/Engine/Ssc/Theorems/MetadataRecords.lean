import Mathlib
import Adios2.Engine.Ssc.Theorems.ItemRecords

-- What the ranks write, as a list of records, and when the buffers have room for it.

namespace Ssc

open Bytes BP5 Core

variable {e : Endian}

inductive Record
  | structDefinitions (ds : List StructDefinition)
  | attr (a : Attribute)
  | block (rank : Nat) (b : BlockInfo)

namespace Record

-- The parts that are written, each with whether the buffer grows before it.
def pieces (e : Endian) : Record → List (Bool × List Byte)
  | .structDefinitions ds =>
    (false, [65, UInt8.ofNat ds.length]) :: ds.map fun d => (true, definitionBytes e d)
  | .attr a               => [(true, 66 :: attributeBody e a)]
  | .block rank b         =>
    [(true, UInt8.ofNat b.shapeId.toNat :: (encode e 4 rank ++ blockBody e b))]

def bytes (e : Endian) (r : Record) : List Byte := (r.pieces e).flatMap Prod.snd

end Record

namespace RankMetadata

def records (r : RankMetadata) (writerRank writerSize : Nat) : List Record :=
  (if r.writtenDefinitions writerRank = [] then []
    else [.structDefinitions (r.writtenDefinitions writerRank)]) ++
  ((r.writtenAttributes writerRank writerSize).map .attr ++
    r.blocks.map (.block r.streamRank))

end RankMetadata

section Store

def storePiece (output : Buffer) (piece : Bool × List Byte) : Outcome Buffer :=
  (if piece.1 then output.resize (output.pos + 1024) else output).put piece.2

def store (output : Buffer) (pieces : List (Bool × List Byte)) : Outcome Buffer :=
  pieces.foldlM storePiece output

theorem Buffer.put_nil (b : Buffer) (h : b.pos ≤ b.capacity) : b.put [] = .ok b := by
  rw [Buffer.put, if_pos (by simpa using h), List.append_nil]

theorem Buffer.put_bind {α : Type} (b : Buffer) (xs ys : List Byte) (f : Buffer → Outcome α) :
    (b.put xs >>= fun b => b.put ys >>= f) = b.put (xs ++ ys) >>= f := by
  unfold Buffer.put
  by_cases hxs : b.pos + xs.length ≤ b.capacity
  case pos =>
    rw [if_pos hxs, Outcome.ok_bind]
    simp only [Buffer.pos, List.length_append, List.append_assoc, Nat.add_assoc]
  case neg =>
    have : ¬ b.pos + (xs ++ ys).length ≤ b.capacity := by
      rw [List.length_append]
      omega
    rw [if_neg hxs, if_neg this]
    rfl

theorem Buffer.put_put (b : Buffer) (xs ys : List Byte) :
    (b.put xs >>= fun b => b.put ys) = b.put (xs ++ ys) := by
  have := b.put_bind xs ys pure
  simpa only [bind_pure] using this

-- Counted bytes are stored at once.
theorem Buffer.putCounted_eq (b : Buffer) (bs : List Byte) :
    b.putCounted bs = b.put (countedBytes bs) :=
  b.put_put [UInt8.ofNat bs.length] bs

theorem putStructDef_eq {output : Buffer} (b : BlockInfo) (h : output.pos ≤ output.capacity) :
    putStructDef output b
      = output.put (if b.type = .struct then countedBytes b.structDef else []) := by
  unfold putStructDef
  split
  · exact output.putCounted_eq _
  · exact (output.put_nil h).symm

theorem Buffer.put_le {b b' : Buffer} {bs : List Byte} (h : b.put bs = .ok b') :
    b'.pos ≤ b'.capacity := by
  unfold Buffer.put at h
  split at h
  case isTrue hle =>
    cases h
    simpa [Buffer.pos, Nat.add_assoc] using hle
  case isFalse => contradiction

theorem serializeVariable_eq (rank : Nat) (output : Buffer) (b : BlockInfo) :
    serializeVariable e rank output b = store output ((Record.block rank b).pieces e) := by
  have hstruct : ∀ (o : Buffer) (xs : List Byte) (f : Buffer → Outcome Buffer),
      (o.put xs >>= fun o => putStructDef o b >>= f)
        = o.put (xs ++ (if b.type = .struct then countedBytes b.structDef else [])) >>= f := by
    intro o xs f
    rw [← Buffer.put_bind]
    cases hput : o.put xs with
    | error => rfl
    | ok o' => rw [Outcome.ok_bind, Outcome.ok_bind, putStructDef_eq b (Buffer.put_le hput)]
  simp only [serializeVariable, Buffer.putByte, Buffer.putCounted_eq, hstruct, Buffer.put_put]
  simp only [store, Record.pieces, List.foldlM_cons, List.foldlM_nil, bind_pure, storePiece,
    if_true, blockBody, List.cons_append, List.nil_append]

theorem serializeAttribute_eq (output : Buffer) (a : Attribute) :
    serializeAttribute e output a = store output ((Record.attr a).pieces e) := by
  simp only [serializeAttribute, Buffer.putByte, Buffer.putCounted_eq, Buffer.put_put]
  simp only [store, Record.pieces, List.foldlM_cons, List.foldlM_nil, bind_pure, storePiece,
    if_true, attributeBody, List.cons_append, List.nil_append]
  rfl

theorem serializeFields_eq (output : Buffer) (bs : List Byte) (fields : List StructFieldDefinition) :
    (output.put bs >>= fun output => fields.foldlM (serializeField e) output)
      = output.put (bs ++ fields.flatMap (fieldBytes e)) := by
  induction fields generalizing bs with
  | nil =>
    rw [List.flatMap_nil, List.append_nil]
    exact bind_pure _
  | cons f fields ih =>
    have hfield : ∀ o : Buffer, serializeField e o f = o.put (fieldBytes e f) := by
      intro o
      simp only [serializeField, Buffer.putCounted_eq, Buffer.put_put, fieldBytes]
    simp only [List.foldlM_cons, hfield, Buffer.put_bind, List.flatMap_cons]
    rw [ih, List.append_assoc]

theorem serializeStructDefinition_eq (output : Buffer) (d : StructDefinition) :
    serializeStructDefinition e output d = storePiece output (true, definitionBytes e d) := by
  simp only [serializeStructDefinition, Buffer.putByte, Buffer.putCounted_eq, serializeFields_eq,
    Buffer.put_put]
  simp only [storePiece, if_true, definitionBytes]

theorem store_append (output : Buffer) (ps qs : List (Bool × List Byte)) :
    store output (ps ++ qs) = store output ps >>= fun output => store output qs := by
  rw [store, List.foldlM_append]
  rfl

-- A loop over records stores their pieces.
theorem foldlM_store {α : Type} {f : Buffer → α → Outcome Buffer}
    {g : α → List (Bool × List Byte)} (h : ∀ output a, f output a = store output (g a))
    (l : List α) (output : Buffer) : l.foldlM f output = store output (l.flatMap g) := by
  induction l generalizing output with
  | nil => rfl
  | cons a l ih =>
    rw [List.foldlM_cons, List.flatMap_cons, store_append, h]
    cases store output (g a) with
    | error => rfl
    | ok output' => exact ih output'

theorem serializeStructDefinitions_eq (output : Buffer) (ds : List StructDefinition) :
    serializeStructDefinitions e ds output
      = store output ((if ds = [] then [] else [Record.structDefinitions ds]).flatMap
        (Record.pieces e)) := by
  unfold serializeStructDefinitions
  split
  case isTrue => rfl
  case isFalse =>
    have hall := foldlM_store (f := serializeStructDefinition e)
      (g := fun d => [(true, definitionBytes e d)]) (fun o d => by
        rw [serializeStructDefinition_eq]
        exact (bind_pure _).symm) ds
    have hmap : ds.flatMap (fun d => [(true, definitionBytes e d)])
        = ds.map fun d => (true, definitionBytes e d) := List.flatMap_pure_eq_map _ ds
    simp only [Buffer.putByte, Buffer.put_bind, hall, hmap]
    simp only [List.flatMap_cons, List.flatMap_nil, List.append_nil, Record.pieces, store,
      List.foldlM_cons, storePiece, Bool.false_eq_true, if_false]
    rfl

theorem serializeRank_eq (capacity writerRank writerSize : Nat) (r : RankMetadata) :
    serializeRank e capacity writerRank writerSize r
      = store { capacity } ((r.records writerRank writerSize).flatMap (Record.pieces e)) := by
  have hattrs := foldlM_store (fun o a => serializeAttribute_eq (e := e) o a)
    (r.writtenAttributes writerRank writerSize)
  have hblocks := foldlM_store (fun o b => serializeVariable_eq (e := e) r.streamRank o b) r.blocks
  rw [serializeRank, RankMetadata.records, List.flatMap_append, List.flatMap_append, store_append,
    serializeStructDefinitions_eq]
  congr 1
  funext o
  rw [store_append, hattrs, List.flatMap_map]
  congr 1
  funext o
  rw [hblocks, List.flatMap_map]

end Store

section Room

-- The capacity for a piece.
def grownCapacity (grows : Bool) (capacity pos : Nat) : Nat :=
  if grows then if pos + 1024 > capacity then (pos + 1024) * 2 else capacity else capacity

-- Each piece ends within what the buffer has been grown to.
def Room : Nat → Nat → List (Bool × Nat) → Prop
  | _, _, []                                => True
  | capacity, pos, (grows, size) :: pieces =>
    pos + size ≤ grownCapacity grows capacity pos ∧
    Room (grownCapacity grows capacity pos) (pos + size) pieces

def pieceSize (piece : Bool × List Byte) : Bool × Nat := (piece.1, piece.2.length)

theorem Buffer.put_ok {b b' : Buffer} {bs : List Byte} : b.put bs = .ok b' ↔
    b.pos + bs.length ≤ b.capacity ∧ b' = { b with written := b.written ++ bs } := by
  unfold Buffer.put
  split
  case isTrue hle => simp [hle, eq_comm]
  case isFalse hle => simp [hle]

theorem Buffer.resize_eq (b : Buffer) (size : Nat) : b.resize size =
    { capacity := if size > b.capacity then size * 2 else b.capacity, written := b.written } := by
  unfold Buffer.resize
  split <;> rfl

theorem storePiece_ok {output output' : Buffer} {grows : Bool} {bs : List Byte} :
    storePiece output (grows, bs) = .ok output' ↔
      output.pos + bs.length ≤ grownCapacity grows output.capacity output.pos ∧
      output' = { capacity := grownCapacity grows output.capacity output.pos
                  written  := output.written ++ bs } := by
  cases grows with
  | false => simp [storePiece, Buffer.put_ok, grownCapacity]
  | true =>
    rw [storePiece, if_pos rfl, Buffer.put_ok, Buffer.resize_eq]
    exact Iff.rfl

theorem store_written {output output' : Buffer} {pieces : List (Bool × List Byte)}
    (h : store output pieces = .ok output') :
    output'.written = output.written ++ pieces.flatMap Prod.snd := by
  induction pieces generalizing output with
  | nil =>
    cases h
    simp
  | cons piece pieces ih =>
    obtain ⟨output₁, h₁, h⟩ := Outcome.bind_eq_ok.mp h
    have ⟨_, heq⟩ := storePiece_ok.mp h₁
    rw [ih h, heq, List.flatMap_cons, List.append_assoc]

theorem store_ok_iff {output : Buffer} {pieces : List (Bool × List Byte)} :
    (∃ output', store output pieces = .ok output') ↔
      Room output.capacity output.pos (pieces.map pieceSize) := by
  induction pieces generalizing output with
  | nil => exact ⟨fun _ => trivial, fun _ => ⟨output, rfl⟩⟩
  | cons piece pieces ih =>
    obtain ⟨grows, bs⟩ := piece
    let output₁ : Buffer :=
      { capacity := grownCapacity grows output.capacity output.pos, written := output.written ++ bs }
    have hpos : output₁.pos = output.pos + bs.length := by
      simp [output₁, Buffer.pos, Nat.add_assoc]
    have ih : (∃ output', store output₁ pieces = .ok output') ↔ _ := ih
    rw [hpos] at ih
    simp only [List.map_cons, pieceSize, Room]
    constructor
    · rintro ⟨output', h⟩
      obtain ⟨output₂, h₁, h⟩ := Outcome.bind_eq_ok.mp h
      obtain ⟨hle, rfl⟩ := storePiece_ok.mp h₁
      exact ⟨hle, ih.mp ⟨output', h⟩⟩
    · rintro ⟨hle, hroom⟩
      have ⟨output', h⟩ := ih.mpr hroom
      exact ⟨output', Outcome.bind_eq_ok.mpr ⟨output₁, storePiece_ok.mpr ⟨hle, rfl⟩, h⟩⟩

end Room

end Ssc
