import Adios2.Format.BP5.DynamicAggregation

-- How a contribution of any size is read back: its numbers as big endian ones, and its digests
-- backwards on a little endian host.

namespace BP5

open Bytes Reader

variable {host : Endian}

section Seen

-- A number of eight bytes that are taken the other way round.
def swapped (n : Nat) : Nat :=
  decode .big (encode .little 8 n)

def seenBytes (host : Endian) (bs : List Byte) : List Byte :=
  if host = .little then bs.reverse else bs

def seenNumber : Endian → Nat → Nat
  | .little, n => swapped n
  | .big, n    => n

def seenBlock (host : Endian) (b : Digest × Nat) : Digest × Nat :=
  (seenBytes host b.1, seenNumber host b.2)

-- What is found in the place of a record.
def NodeRecord.seen (host : Endian) (r : NodeRecord) : NodeRecord where
  attrHash           := seenBytes host r.attrHash
  attrSize           := seenNumber host r.attrSize
  mmBlocks           := r.mmBlocks.map (seenBlock host)
  metaEncodeSize     := seenNumber host r.metaEncodeSize
  writerDataPosition := seenNumber host r.writerDataPosition

theorem swapped_lt (n : Nat) : swapped n < 2 ^ 64 := by
  have h := decodeLE_lt (encodeLE 8 n).reverse
  simpa [swapped, decode, encode] using h

theorem swapped_eq_zero {n : Nat} (h : n < 2 ^ 64) : swapped n = 0 ↔ n = 0 := by
  have hback : encodeLE 8 (swapped n) = (encodeLE 8 n).reverse := by
    have hlen : (encodeLE 8 n).reverse.length = 8 := by simp
    have := encodeLE_decodeLE (encodeLE 8 n).reverse
    rwa [hlen] at this
  have hself : decodeLE (encodeLE 8 n) = n := by
    rw [decodeLE_encodeLE, Nat.mod_eq_of_lt (by simpa using h)]
  constructor
  · intro hzero
    rw [hzero] at hback
    have hrev : encodeLE 8 n = (encodeLE 8 0).reverse := by rw [hback, List.reverse_reverse]
    rw [← hself, hrev]
    rfl
  · rintro rfl
    rfl

theorem seenNumber_eq_zero {n : Nat} (h : n < 2 ^ 64) : seenNumber host n = 0 ↔ n = 0 := by
  cases host with
  | little => exact swapped_eq_zero h
  | big    => exact Iff.rfl

theorem seenBytes_injective : (seenBytes host).Injective := by
  cases host with
  | little => exact List.reverse_injective
  | big    => exact fun _ _ h => h

end Seen

section Encode

-- The bytes that a rank sends.
def encodeBlock (host : Endian) (b : MetaMetaInfoBlock) : List Byte :=
  toDigest b.metaMetaID ++ u64 host (alignedSize b.metaMetaInfo.length)

def encodeNode (host : Endian) (c : Contribution) : List Byte :=
  c.attrHash ++ (u64 host c.attrSize ++ (u64 host c.mmBlocks.length ++
    (c.mmBlocks.flatMap (encodeBlock host) ++
      (u64 host c.metaEncodeSize ++ u64 host c.writerDataPosition))))

def Contribution.record (c : Contribution) : NodeRecord where
  attrHash           := c.attrHash
  attrSize           := c.attrSize
  mmBlocks           :=
    c.mmBlocks.map fun b => (toDigest b.metaMetaID, alignedSize b.metaMetaInfo.length)
  metaEncodeSize     := c.metaEncodeSize
  writerDataPosition := c.writerDataPosition

-- No ID is longer than a digest.
def Contribution.Fits (c : Contribution) : Prop :=
  ∀ b ∈ c.mmBlocks, b.metaMetaID.length ≤ digestSize

theorem copyID_eq_ok {b : MetaMetaInfoBlock} {d : Digest} :
    copyID b = .ok d ↔ b.metaMetaID.length ≤ digestSize ∧ d = toDigest b.metaMetaID := by
  rw [copyID]
  split
  case isTrue h => simp [h, eq_comm]
  case isFalse h => simp [h]

theorem toDigest_length {b : MetaMetaInfoBlock} (h : b.metaMetaID.length ≤ digestSize) :
    (toDigest b.metaMetaID).length = digestSize := by
  simp [toDigest, h]

theorem encodeBlock_length {b : MetaMetaInfoBlock} (h : b.metaMetaID.length ≤ digestSize) :
    (encodeBlock host b).length = 8 + digestSize := by
  rw [encodeBlock, List.length_append, toDigest_length h, u64_length]
  omega

theorem encodeBlocks_length {bs : List MetaMetaInfoBlock}
    (h : ∀ b ∈ bs, b.metaMetaID.length ≤ digestSize) :
    (bs.flatMap (encodeBlock host)).length = bs.length * (8 + digestSize) := by
  induction bs with
  | nil => simp
  | cons b bs ih =>
    rw [List.flatMap_cons, List.length_append, encodeBlock_length (h b List.mem_cons_self),
      ih fun b hb => h b (List.mem_cons_of_mem _ hb), List.length_cons, Nat.succ_mul, Nat.add_comm]

theorem encodeNode_length {c : Contribution} (h : c.Fits) :
    (encodeNode host c).length = 48 + c.mmBlocks.length * 24 := by
  simp only [encodeNode, List.length_append, c.attrHash_length, u64_length, encodeBlocks_length h,
    digestSize]
  omega

-- The loop of `BuildNodeContrib` over the blocks.
theorem buildBlocks_eq {bs : List MetaMetaInfoBlock}
    (h : ∀ b ∈ bs, b.metaMetaID.length ≤ digestSize) (pre : List Byte) (k : Nat) :
    bs.foldlM (fun (ret : Cursor) mm => do
      let d ← copyID mm
      let ret ← (ret.put d).orUndefined
      (ret.put (u64 host (alignedSize mm.metaMetaInfo.length))).orUndefined)
        (Cursor.fresh pre (bs.length * (8 + digestSize) + k)) =
      .ok (Cursor.fresh (pre ++ bs.flatMap (encodeBlock host)) k) := by
  induction bs generalizing pre with
  | nil => simp
  | cons b bs ih =>
    have hb := h b List.mem_cons_self
    have hlen : (b :: bs).length * (8 + digestSize) + k =
        digestSize + (8 + (bs.length * (8 + digestSize) + k)) := by
      rw [List.length_cons, Nat.succ_mul]
      omega
    rw [List.foldlM_cons, copyID_eq_ok.mpr ⟨hb, rfl⟩, Outcome.ok_bind, hlen,
      Cursor.put_fresh_of_length (toDigest_length hb), Option.orUndefined_some, Outcome.ok_bind,
      Cursor.put_fresh_of_length (u64_length ..), Option.orUndefined_some, Outcome.ok_bind,
      ih fun b hb => h b (List.mem_cons_of_mem _ hb)]
    simp [encodeBlock]

theorem foldlM_copyID {α : Type} {f : α → Digest → MetaMetaInfoBlock → Outcome α} {a a' : α}
    {bs : List MetaMetaInfoBlock} (h : bs.foldlM (fun a mm => do
      let d ← copyID mm
      f a d mm) a = .ok a') : ∀ b ∈ bs, b.metaMetaID.length ≤ digestSize := by
  induction bs generalizing a with
  | nil => simp
  | cons b bs ih =>
    rw [List.foldlM_cons] at h
    obtain ⟨next, hnext, h⟩ := Outcome.bind_eq_ok.mp h
    obtain ⟨d, hd, _⟩ := Outcome.bind_eq_ok.mp hnext
    exact List.forall_mem_cons.mpr ⟨(copyID_eq_ok.mp hd).left, ih h⟩

theorem buildNodeContrib_eq_ok {c : Contribution} {bs : List Byte} :
    buildNodeContrib host c = .ok bs ↔ c.Fits ∧ bs = encodeNode host c := by
  have hlen : digestSize + 2 * 8 + c.mmBlocks.length * (8 + digestSize) + 8 + 8 =
      digestSize + (8 + (8 + (c.mmBlocks.length * (8 + digestSize) + (8 + (8 + 0))))) := by omega
  simp only [buildNodeContrib, hlen, Cursor.zeros]
  rw [Cursor.put_fresh_of_length c.attrHash_length, Option.orUndefined_some, Outcome.ok_bind,
    Cursor.put_fresh_of_length (u64_length ..), Option.orUndefined_some, Outcome.ok_bind,
    Cursor.put_fresh_of_length (u64_length ..), Option.orUndefined_some, Outcome.ok_bind]
  constructor
  · intro h
    have hfits : c.Fits := by
      obtain ⟨ret, hret, _⟩ := Outcome.bind_eq_ok.mp h
      exact foldlM_copyID hret
    rw [buildBlocks_eq hfits, Outcome.ok_bind, Cursor.put_fresh_of_length (u64_length ..),
      Option.orUndefined_some, Outcome.ok_bind, Cursor.put_fresh_of_length (u64_length ..),
      Option.orUndefined_some, Outcome.ok_bind, Outcome.pure_eq, Cursor.fresh_zero_buffer] at h
    refine ⟨hfits, ?_⟩
    rw [← Except.ok.inj h]
    simp [encodeNode]
  · rintro ⟨hfits, rfl⟩
    rw [buildBlocks_eq hfits, Outcome.ok_bind, Cursor.put_fresh_of_length (u64_length ..),
      Option.orUndefined_some, Outcome.ok_bind, Cursor.put_fresh_of_length (u64_length ..),
      Option.orUndefined_some, Outcome.ok_bind, Outcome.pure_eq, Cursor.fresh_zero_buffer]
    simp [encodeNode]

end Encode

section Read

variable {buf bs : List Byte} {n : Nat}

theorem reads_readArray (h : bs.length = n) :
    Reads buf (readArray host buf n) bs (seenBytes host bs) :=
  h ▸ (reads_bytes bs).bind_pure

theorem reads_readValue (h : n < 2 ^ 64) :
    Reads buf (readValue host buf) (u64 host n) (seenNumber host n) := by
  have harray : Reads buf (readArray host buf 8) (u64 host n) (seenBytes host (u64 host n)) :=
    reads_readArray (u64_length host n)
  have hread := harray.bind_pure (f := decode host)
  have hvalue : decode host (seenBytes host (u64 host n)) = seenNumber host n := by
    cases host with
    | little => simp [seenBytes, seenNumber, swapped, u64, decode, encode]
    | big =>
      have hlt : n < 256 ^ 8 := by simpa using h
      simp [seenBytes, seenNumber, u64, decode_encode_of_lt _ hlt]
  rw [hvalue] at hread
  exact hread

theorem reads_readBlock {b : MetaMetaInfoBlock} (hid : b.metaMetaID.length ≤ digestSize)
    (hinfo : b.metaMetaInfo.length + 7 < 2 ^ 64) :
    Reads buf (readBlock host buf) (encodeBlock host b)
      (seenBlock host (toDigest b.metaMetaID, alignedSize b.metaMetaInfo.length)) := by
  have hsize : alignedSize b.metaMetaInfo.length < 2 ^ 64 := by
    unfold alignedSize
    omega
  exact (reads_readArray (toDigest_length hid)).bind (reads_readValue hsize).bind_pure

-- A record with its number of blocks in front of it is read as a whole.
theorem reads_readNode {c : Contribution} (hfits : c.Fits)
    (hcount : seenNumber host c.mmBlocks.length = c.mmBlocks.length) :
    Reads buf (readNode host buf) (encodeNode host c) (c.record.seen host) := by
  have hblocks : Reads buf (many (readBlock host buf) (seenNumber host c.mmBlocks.length))
      (c.mmBlocks.flatMap (encodeBlock host)) (c.record.seen host).mmBlocks := by
    rw [hcount]
    have hmany : Reads buf (many (readBlock host buf) c.mmBlocks.length) _ _ :=
      reads_many fun b hb => reads_readBlock (hfits b hb) (c.info_lt b hb)
    simpa [Contribution.record, NodeRecord.seen, Function.comp_def] using hmany
  exact (reads_readArray c.attrHash_length).bind <| (reads_readValue c.attrSize_lt).bind <|
    (reads_readValue c.mmBlocks_lt).bind <| hblocks.bind <|
      (reads_readValue c.metaEncodeSize_lt).bind (reads_readValue c.writerDataPosition_lt).bind_pure

theorem moves_readArray : Moves (readArray host buf n) n :=
  (moves_bytes n).bind fun _ => .pure _

theorem moves_readValue : Moves (readValue host buf) 8 :=
  moves_readArray.bind fun _ => .pure _

theorem moves_readBlock : Moves (readBlock host buf) 24 :=
  moves_readArray.bind fun _ => moves_readValue.bind fun _ => .pure _

-- Whatever is read in the place of a contribution has as many blocks as the number of them seems
-- to be.
theorem readNode_count {c : Contribution} {pos pos' : Nat} {r : NodeRecord}
    (hwithin : Within buf pos (encodeNode host c)) (h : (readNode host buf).run pos = some (r, pos')) :
    r.mmBlocks.length = seenNumber host c.mmBlocks.length ∧
      pos' = pos + (48 + r.mmBlocks.length * 24) := by
  have ⟨hhash, hrest⟩ := hwithin.append
  have ⟨hsize, hrest⟩ := hrest.append
  have ⟨hcount, _⟩ := hrest.append
  simp only [readNode] at h
  rw [StateT.run_bind, reads_readArray c.attrHash_length _ hhash, Option.bind_eq_bind,
    Option.bind_some, StateT.run_bind, reads_readValue c.attrSize_lt _ hsize, Option.bind_eq_bind,
    Option.bind_some, StateT.run_bind, reads_readValue c.mmBlocks_lt _ hcount, Option.bind_eq_bind,
    Option.bind_some, StateT.run_bind] at h
  have ⟨(mmBlocks, pos₁), hmany, h⟩ := Option.bind_eq_some_iff.mp h
  have hlen := gives_many _ _ _ _ hmany
  have hpos₁ := moves_many moves_readBlock _ _ _ _ hmany
  have hpos' := (moves_readValue.bind fun _ => moves_readValue.bind fun _ => Moves.pure _) _ _ _ h
  rw [StateT.run_bind] at h
  have ⟨(m, pos₂), _, h⟩ := Option.bind_eq_some_iff.mp h
  rw [StateT.run_bind] at h
  have ⟨(w, pos₃), _, h⟩ := Option.bind_eq_some_iff.mp h
  cases h
  refine ⟨hlen, ?_⟩
  simp only [c.attrHash_length, u64_length, digestSize] at hpos₁ hpos'
  rw [hlen]
  omega

end Read

end BP5
