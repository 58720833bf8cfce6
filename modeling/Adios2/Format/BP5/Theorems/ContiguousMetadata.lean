import Adios2.Lib.FirstOccurrence
import Adios2.Format.BP5.ContiguousMetadata

-- What `CopyMetadataToContiguous` writes, and that it is what it has counted before.

namespace BP5

open Bytes FirstOccurrence

variable {e : Endian} {hash : List Byte → Digest}

-- A block behind its length.
def blockBytes (e : Endian) (block : List Byte) : List Byte :=
  u64 e block.length ++ block

def MetaMetaInfoBlock.bytes (e : Endian) (n : MetaMetaInfoBlock) : List Byte :=
  u64 e n.metaMetaID.length ++
    (u64 e n.metaMetaInfo.length ++ (n.metaMetaID ++ n.metaMetaInfo))

-- What is written of an attribute block.
def sentAttribute (a : Option (List Byte) × Bool) : List Byte :=
  if a.2 then padded (a.1.getD []) else []

def sentAttributes (hash : List Byte → Digest) (attrSet : List Digest)
    (as : List (Option (List Byte))) : List (List Byte) :=
  (as.zip (needThisAttr hash attrSet as)).map sentAttribute

-- Only blocks that are there are needed.
theorem needThisAttr_isSome {attrSet : List Digest} {as : List (Option (List Byte))} :
    ∀ a ∈ as.zip (needThisAttr hash attrSet as), a.2 → a.1.isSome ∧ 0 < attrLen a.1 := by
  induction as generalizing attrSet with
  | nil => simp
  | cons a as ih =>
    intro x hx hneed
    simp only [needThisAttr] at hx
    split at hx
    case isFalse =>
      cases hx with
      | head => contradiction
      | tail _ hx => exact ih x hx hneed
    case isTrue ha =>
      split at hx
      case isTrue =>
        cases hx with
        | head => contradiction
        | tail _ hx => exact ih x hx hneed
      case isFalse =>
        cases hx with
        | head => exact ha
        | tail _ hx => exact ih x hx hneed

@[simp]
theorem needThisAttr_length {attrSet : List Digest} {as : List (Option (List Byte))} :
    (needThisAttr hash attrSet as).length = as.length := by
  induction as generalizing attrSet with
  | nil => rfl
  | cons a as ih =>
    unfold needThisAttr
    split
    · simp only
      split <;> simp [ih]
    · simp [ih]

namespace ContiguousMetadata

variable {m : ContiguousMetadata}

def sent (hash : List Byte → Digest) (m : ContiguousMetadata) : List (List Byte) :=
  sentAttributes hash [] m.attributeEncodeBuffers

@[simp]
theorem sent_length : (m.sent hash).length = m.attributeEncodeBuffers.length := by
  simp [sent, sentAttributes]

def bytes (e : Endian) (hash : List Byte → Digest) (m : ContiguousMetadata) : List Byte :=
  counted e (MetaMetaInfoBlock.bytes e) m.newMetaMetaBlocks ++
    (counted e (blockBytes e ∘ padded) m.metaEncodeBuffers ++
    (counted e (blockBytes e) (m.sent hash) ++
    (counted e (u64 e) m.dataSizes ++ counted e (u64 e) m.writerDataPositions)))

theorem putMetaMeta_fresh (n : MetaMetaInfoBlock) (pre : List Byte) (k : Nat) :
    putMetaMeta e (.fresh pre ((n.bytes e).length + k)) n = some (.fresh (pre ++ n.bytes e) k) := by
  have hk : (n.bytes e).length + k
      = 8 + (8 + (n.metaMetaID.length + (n.metaMetaInfo.length + k))) := by
    simp [MetaMetaInfoBlock.bytes]
    omega
  have put8 (n : Nat) := Cursor.put_fresh_of_length (u64_length e n)
  rw [putMetaMeta, hk]
  simp only [put8, Cursor.put_fresh, Option.bind_eq_bind, Option.bind_some,
    MetaMetaInfoBlock.bytes, List.append_assoc]

theorem putBlock_fresh (block pre : List Byte) (k : Nat) :
    putBlock e (.fresh pre ((blockBytes e (padded block)).length + k)) block
      = some (.fresh (pre ++ blockBytes e (padded block)) k) := by
  have hle := le_alignedSize block.length
  have hk : (blockBytes e (padded block)).length + k
      = 8 + (block.length + ((alignedSize block.length - block.length) + k)) := by
    simp only [blockBytes, List.length_append, u64_length, padded_length]
    omega
  have put8 (n : Nat) := Cursor.put_fresh_of_length (u64_length e n)
  rw [putBlock, hk]
  simp only [put8, Cursor.put_fresh, Option.bind_eq_bind, Option.bind_some]
  split
  case isTrue =>
    rw [Cursor.put_fresh_of_length (List.length_replicate)]
    simp only [blockBytes, padded_length, List.append_assoc]
    rfl
  case isFalse h =>
    have heq : block.length = alignedSize block.length := not_not.mp h
    have hpad : padded block = block := by
      rw [padded, ← heq, Nat.sub_self]
      exact List.append_nil _
    rw [blockBytes, hpad, ← heq, Nat.sub_self, Nat.zero_add, List.append_assoc]
    rfl

theorem putAttribute_fresh {a : Option (List Byte) × Bool} (ha : a.2 → a.1.isSome)
    (pre : List Byte) (k : Nat) :
    putAttribute e (.fresh pre ((blockBytes e (sentAttribute a)).length + k)) a
      = some (.fresh (pre ++ blockBytes e (sentAttribute a)) k) := by
  have hempty : blockBytes e [] = u64 e 0 := List.append_nil _
  obtain ⟨a, need⟩ := a
  cases need with
  | false =>
    have hsent : sentAttribute (a, false) = [] := rfl
    rw [hsent, hempty]
    cases a <;> exact Cursor.put_fresh _ _ _
  | true =>
    obtain ⟨a, rfl⟩ := Option.isSome_iff_exists.mp (ha rfl)
    exact putBlock_fresh a pre k

theorem putNumber_fresh (n : Nat) (pre : List Byte) (k : Nat) :
    putNumber e (.fresh pre ((u64 e n).length + k)) n = some (.fresh (pre ++ u64 e n) k) :=
  Cursor.put_fresh pre (u64 e n) k

theorem retSize_eq : m.retSize hash = (m.bytes e hash).length := by
  have hmeta (n : MetaMetaInfoBlock) :
      (n.bytes e).length = 2 * 8 + (n.metaMetaInfo.length + n.metaMetaID.length) := by
    simp only [MetaMetaInfoBlock.bytes, List.length_append, u64_length]
    omega
  have hblock (b : List Byte) : (blockBytes e b).length = 8 + b.length := by
    rw [blockBytes, List.length_append, u64_length]
  have hattr (a : Option (List Byte) × Bool) : (blockBytes e (sentAttribute a)).length
      = 8 + if a.2 then alignedSize (attrLen a.1) else 0 := by
    rw [hblock, sentAttribute, apply_ite List.length, padded_length, List.length_nil]
    rfl
  have hsent : ((m.sent hash).map fun b => (blockBytes e b).length).sum
      = ((m.attributes hash).map fun a => 8 + if a.2 then alignedSize (attrLen a.1) else 0).sum := by
    simp only [sent, sentAttributes, List.map_map, Function.comp_def, hattr]
    rfl
  have hnumbers (ns : List Nat) : (ns.map fun n => (u64 e n).length).sum = ns.length * 8 := by
    simp
  simp only [bytes, List.length_append, counted_length, hsent, hmeta, hnumbers]
  simp only [Function.comp_apply, hblock, padded_length, retSize]
  omega

-- The size that is computed in front is the size of what is written.
theorem copyMetadataToContiguous_eq :
    m.copyMetadataToContiguous e hash = some (.fresh (m.bytes e hash) 0) := by
  have hsent : ((m.attributes hash).flatMap fun a => blockBytes e (sentAttribute a))
      = (m.sent hash).flatMap (blockBytes e) := by
    rw [sent, sentAttributes, List.flatMap_map]
    rfl
  have hmeta := Cursor.foldlM_fresh fun n (_ : n ∈ m.newMetaMetaBlocks) =>
    putMetaMeta_fresh (e := e) n
  have hblocks := Cursor.foldlM_fresh fun b (_ : b ∈ m.metaEncodeBuffers) =>
    putBlock_fresh (e := e) b
  have hattrs := Cursor.foldlM_fresh fun a (ha : a ∈ m.attributes hash) =>
    putAttribute_fresh (e := e) fun h => (needThisAttr_isSome a ha h).1
  have hnumbers (ns : List Nat) := Cursor.foldlM_fresh fun n (_ : n ∈ ns) =>
    putNumber_fresh (e := e) n
  have hzeros : Cursor.zeros (m.retSize hash) = .fresh [] ((m.bytes e hash).length + 0) := by
    rw [retSize_eq (e := e)]
    rfl
  rw [hsent] at hattrs
  simp only [copyMetadataToContiguous, hzeros, bytes, counted, sent_length, List.length_append,
    Nat.add_assoc, putNumber_fresh, Option.bind_eq_bind, Option.bind_some, hmeta,
    Function.comp_def, hblocks, hattrs, hnumbers]
  simp

end ContiguousMetadata

end BP5

-- What `BreakoutContiguousMetadata` finds in buffers of `CopyMetadataToContiguous`.

namespace BP5

open Bytes FirstOccurrence

variable {e : Endian} {hash : List Byte → Digest} {aggregate : List Byte}

-- All numbers in a buffer are 64 bit integers.
structure ContiguousMetadata.Fits (hash : List Byte → Digest) (m : ContiguousMetadata) : Prop where
  retSize_lt   : m.retSize hash < 2 ^ 64
  dataSizes_lt : ∀ n ∈ m.dataSizes, n < 2 ^ 64
  positions_lt : ∀ n ∈ m.writerDataPositions, n < 2 ^ 64

namespace Breakout

open Reader ContiguousMetadata

theorem foldl_addUnique (unique ns : List MetaMetaInfoBlock) :
    ns.foldl addUnique unique
      = unique ++ firsts (·.metaMetaID) (unique.map (·.metaMetaID)) ns := by
  induction ns generalizing unique with
  | nil => exact (List.append_nil _).symm
  | cons n ns ih =>
    rw [List.foldl_cons, ih, addUnique, firsts]
    split
    case isTrue => rfl
    case isFalse =>
      have hseen (k : List Byte) : k ∈ (unique ++ [n]).map (·.metaMetaID)
          ↔ k ∈ n.metaMetaID :: unique.map (·.metaMetaID) := by
        rw [List.map_append, List.mem_append, List.mem_cons, or_comm]
        simp
      rw [firsts_congr hseen, List.append_assoc]
      rfl

theorem reads_metaMetaBlock {n : MetaMetaInfoBlock} (hid : n.metaMetaID.length < 2 ^ 64)
    (hinfo : n.metaMetaInfo.length < 2 ^ 64) :
    Reads aggregate (metaMetaBlock e aggregate) (n.bytes e) n :=
  (reads_number hid).bind <| (reads_number hinfo).bind <|
    (reads_bytes n.metaMetaID).bind (reads_bytes n.metaMetaInfo).bind_pure

theorem reads_block {bs : List Byte} (h : bs.length < 2 ^ 64) :
    Reads aggregate (block e aggregate) (blockBytes e bs) bs :=
  (reads_number h).bind (reads_bytes bs)

def add (hash : List Byte → Digest) (b : Breakout) (m : ContiguousMetadata) : Breakout where
  uniqueMetaMetaBlocks := m.newMetaMetaBlocks.foldl addUnique b.uniqueMetaMetaBlocks
  metadataBlocks       := b.metadataBlocks ++ m.metaEncodeBuffers.map padded
  attributeBlocks      := b.attributeBlocks ++ m.sent hash
  dataSizes            := b.dataSizes ++ m.dataSizes
  writerDataPositions  := b.writerDataPositions ++ m.writerDataPositions

theorem reads_metaMetaBlocks {ns : List MetaMetaInfoBlock}
    (h : (counted e (MetaMetaInfoBlock.bytes e) ns).length < 2 ^ 64) :
    Reads aggregate (Reader.list e aggregate (metaMetaBlock e aggregate))
      (counted e (MetaMetaInfoBlock.bytes e) ns) (ns.map id) := by
  have hlen (n : MetaMetaInfoBlock) :
      (n.bytes e).length = 16 + n.metaMetaID.length + n.metaMetaInfo.length := by
    simp only [MetaMetaInfoBlock.bytes, List.length_append, u64_length]
    omega
  apply reads_list
  · exact (length_le_counted fun n => by rw [hlen]; omega).trans_lt h
  · intro n hn
    have hle := (enc_length_le_counted (e := e) hn).trans_lt h
    rw [hlen] at hle
    exact reads_metaMetaBlock (by omega) (by omega)

theorem reads_blocks {α : Type} {f : α → List Byte} {l : List α}
    (h : (counted e (blockBytes e ∘ f) l).length < 2 ^ 64) :
    Reads aggregate (Reader.list e aggregate (block e aggregate))
      (counted e (blockBytes e ∘ f) l) (l.map f) := by
  have hlen (x : α) : ((blockBytes e ∘ f) x).length = 8 + (f x).length := by
    rw [Function.comp_apply, blockBytes, List.length_append, u64_length]
  apply reads_list
  · exact (length_le_counted fun x => by rw [hlen]; omega).trans_lt h
  · intro x hx
    have hle := (enc_length_le_counted (e := e) hx).trans_lt h
    rw [hlen] at hle
    exact reads_block (by omega)

theorem reads_numbers {ns : List Nat} (h : (counted e (u64 e) ns).length < 2 ^ 64)
    (hns : ∀ n ∈ ns, n < 2 ^ 64) :
    Reads aggregate (Reader.list e aggregate (Reader.number e aggregate)) (counted e (u64 e) ns)
      (ns.map id) := by
  apply reads_list
  · exact (length_le_counted fun n => by rw [u64_length]; omega).trans_lt h
  · exact fun n hn => reads_number (hns n hn)

-- The part of one rank.
theorem reads_rank {b : Breakout} {m : ContiguousMetadata} (hm : m.Fits hash) :
    Reads aggregate (b.rank e aggregate) (m.bytes e hash) (b.add hash m) := by
  have hsize : (m.bytes e hash).length < 2 ^ 64 := by
    rw [← retSize_eq]
    exact hm.retSize_lt
  simp only [ContiguousMetadata.bytes, List.length_append] at hsize
  have hadd : b.add hash m = {
      uniqueMetaMetaBlocks := (m.newMetaMetaBlocks.map id).foldl addUnique b.uniqueMetaMetaBlocks
      metadataBlocks       := b.metadataBlocks ++ m.metaEncodeBuffers.map padded
      attributeBlocks      := b.attributeBlocks ++ (m.sent hash).map id
      dataSizes            := b.dataSizes ++ m.dataSizes.map id
      writerDataPositions  := b.writerDataPositions ++ m.writerDataPositions.map id
    } := by
    simp only [List.map_id]
    rfl
  have hmeta := @reads_metaMetaBlocks e aggregate m.newMetaMetaBlocks (by omega)
  have hmetadata := @reads_blocks e aggregate _ padded m.metaEncodeBuffers (by omega)
  have hattributes := @reads_blocks e aggregate _ id (m.sent hash) (by rw [Function.comp_id]; omega)
  have hsizes := @reads_numbers e aggregate m.dataSizes (by omega) hm.dataSizes_lt
  have hpositions := @reads_numbers e aggregate m.writerDataPositions (by omega) hm.positions_lt
  rw [hadd]
  exact hmeta.bind <| hmetadata.bind <| hattributes.bind <| hsizes.bind hpositions.bind_pure

theorem reads_ranks {b : Breakout} {ms : List ContiguousMetadata} (hms : ∀ m ∈ ms, m.Fits hash) :
    Reads aggregate (ranks e aggregate ms.length b) (ms.flatMap (ContiguousMetadata.bytes e hash))
      (ms.foldl (add hash) b) := by
  induction ms generalizing b with
  | nil => exact .pure b
  | cons m ms ih =>
    exact (reads_rank (hms m List.mem_cons_self)).bind
      (ih fun m hm => hms m (List.mem_cons_of_mem _ hm))

end Breakout

end BP5
