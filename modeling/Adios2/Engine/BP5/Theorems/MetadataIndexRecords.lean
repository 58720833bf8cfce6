import Adios2.Engine.BP5.MetadataIndex
import Adios2.Lib.Lists

-- The layout of an index file: a header of 64 bytes and records, each with its kind and its length
-- in front.

namespace BP5

open Bytes

-- What the parser can read of a header, followed by the padding.
def headerFields (e : Endian) (h : HeaderInfo) : List Byte :=
  [HeaderInfo.endianness e, 5, .ofNat bp5MinorVersion, 1, if h.columnMajor then 121 else 110,
    if h.flattenSteps then 1 else 0]

def headerTag (h : HeaderInfo) : List Byte :=
  let tag := (h.versionLongTag HeaderInfo.indexTable).take versionTagLength
  tag ++ .replicate (versionTagLength - tag.length) 0

def headerBytes (e : Endian) (h : HeaderInfo) : List Byte :=
  headerTag h ++ h.majorVersion.take 1 ++ [h.minorVersion] ++ h.patchVersion.take 1 ++ [0]
    ++ headerFields e h ++ encode e 4 h.fileUUID ++ .replicate 18 0

theorem headerTag_length (h : HeaderInfo) : (headerTag h).length = versionTagLength := by
  simp only [headerTag, List.length_append, List.length_take, List.length_replicate]
  omega

theorem HeaderInfo.majorVersion_take (h : HeaderInfo) : (h.majorVersion.take 1).length = 1 := by
  have := List.length_pos_iff.mpr h.majorVersion_ne
  rw [List.length_take]
  omega

theorem HeaderInfo.patchVersion_take (h : HeaderInfo) : (h.patchVersion.take 1).length = 1 := by
  have := List.length_pos_iff.mpr h.patchVersion_ne
  rw [List.length_take]
  omega

theorem headerBytes_length (e : Endian) (h : HeaderInfo) :
    (headerBytes e h).length = indexHeaderSize := by
  simp [headerBytes, headerFields, headerTag_length, h.majorVersion_take, h.patchVersion_take,
    versionTagLength, indexHeaderSize]

theorem makeHeader_fresh (e : Endian) (h : HeaderInfo) (k : Nat) :
    makeHeader e h HeaderInfo.indexTable true (.fresh [] (indexHeaderSize + k))
      = some (.fresh (headerBytes e h) k) := by
  let tag := (h.versionLongTag HeaderInfo.indexTable).take versionTagLength
  have ht : tag.length + (versionTagLength - tag.length) = versionTagLength := by
    simp only [tag, List.length_take]
    omega
  have hk : indexHeaderSize + k = tag.length + ((versionTagLength - tag.length)
      + (1 + (1 + (1 + (1 + (1 + (1 + (1 + (1 + (1 + (1 + (4 + (18 + k))))))))))))) := by
    simp only [indexHeaderSize, versionTagLength] at ht ⊢
    omega
  have hm := h.majorVersion_take
  have hp := h.patchVersion_take
  have put1 (b : Byte) (pre : List Byte) (k : Nat) :=
    Cursor.put_fresh_of_length (List.length_singleton (a := b)) pre k
  have hseek₁ (pre : List Byte) (k : Nat) (hpre : pre.length = 35) :
      (Cursor.fresh pre (1 + k)).seek endianFlagPosition = .fresh (pre ++ [0]) k :=
    Cursor.seek_fresh (by simp [hpre, endianFlagPosition]) k
  have hseek₂ (pre : List Byte) (k : Nat) (hpre : pre.length = 46) :
      (Cursor.fresh pre (18 + k)).seek indexHeaderSize = .fresh (pre ++ .replicate 18 0) k :=
    Cursor.seek_fresh (by simp [hpre, indexHeaderSize]) k
  have htag : tag ++ List.replicate (versionTagLength - tag.length) 0 = headerTag h := rfl
  have hl : (headerTag h).length = 32 := headerTag_length h
  simp only [makeHeader, hk, Cursor.put_fresh, Cursor.skip_fresh, Option.bind_eq_bind,
    Option.bind_some, Cursor.put_fresh_of_length hm, Cursor.put_fresh_of_length hp, put1,
    List.nil_append, tag]
  simp only [tag] at htag
  rw [htag, hseek₁ _ _ (by simp [hl, hm, hp])]
  simp only [Option.bind_some, put1, Cursor.put_fresh_of_length (encode_length e 4 h.fileUUID)]
  rw [hseek₂ _ _ (by simp [hl, hm, hp])]
  simp [headerBytes, headerFields]

-- The numbers of a writer in a step record: position and size of each flush and the position of
-- the last write.
def IndexStep.writerNumbers (s : IndexStep) (writer : Nat) : List Nat :=
  s.flushPosSizeInfo.flatMap (fun f => [f.getD (2 * writer) 0, f.getD (2 * writer + 1) 0])
    ++ [s.writerDataPos.getD writer 0]

-- A record is a kind, the length of what follows, and numbers.
def recordBytes (e : Endian) (recordID : Byte) (numbers : List Nat) : List Byte :=
  [recordID] ++ u64 e (numbers.length * 8) ++ u64s e numbers

def IndexStep.writerMapNumbers (s : IndexStep) : List Nat :=
  [s.commSize, s.numAggregators, s.subStreams] ++ s.writerSubfileMap

def IndexStep.stepNumbers (s : IndexStep) : List Nat :=
  [s.metaDataPos, s.metaDataSize, s.flushCount] ++ (List.range s.commSize).flatMap s.writerNumbers

def writerMapRecordBytes (e : Endian) (s : IndexStep) : List Byte :=
  recordBytes e writerMapRecord s.writerMapNumbers

def stepRecordBytes (e : Endian) (s : IndexStep) : List Byte :=
  recordBytes e stepRecord s.stepNumbers

theorem recordBytes_length (e : Endian) (recordID : Byte) (numbers : List Nat) :
    (recordBytes e recordID numbers).length = 9 + numbers.length * 8 := by
  simp only [recordBytes, List.length_append, u64s_length, u64_length, List.length_singleton]
  omega

namespace IndexStep

variable {e : Endian} {s : IndexStep}

@[simp]
theorem writerNumbers_length (s : IndexStep) (writer : Nat) :
    (s.writerNumbers writer).length = 2 * s.flushCount + 1 := by
  simp [writerNumbers, flushCount, List.length_flatMap, Nat.mul_comm]

theorem WellFormed.writerNumbers_lt (hs : s.WellFormed) {writer : Nat} :
    ∀ n ∈ s.writerNumbers writer, n < 2 ^ 64 := by
  have hd {l : List Nat} {i : Nat} (hl : ∀ x ∈ l, x < 2 ^ 64) : l.getD i 0 < 2 ^ 64 := by
    rw [List.getD_eq_getElem?_getD]
    cases h : l[i]? with
    | none => simp
    | some x => exact hl x (List.mem_of_getElem? h)
  intro n hn
  simp only [writerNumbers, List.mem_append, List.mem_flatMap, List.mem_cons,
    List.not_mem_nil, or_false] at hn
  rcases hn with ⟨f, hf, rfl | rfl⟩ | rfl
  · exact hd (hs.flush_lt f hf)
  · exact hd (hs.flush_lt f hf)
  · exact hd hs.dataPos_lt

theorem stepNumbers_length (s : IndexStep) :
    s.stepNumbers.length = 3 + (s.flushCount * 2 + 1) * s.commSize := by
  simp only [stepNumbers, List.length_append, List.length_cons, List.length_nil,
    List.length_flatMap, writerNumbers_length, List.map_const', List.length_range,
    List.sum_replicate, smul_eq_mul]
  ring

theorem WellFormed.writerMapNumbers_length (hs : s.WellFormed) (hm : s.writerSubfileMap ≠ []) :
    s.writerMapNumbers.length = 3 + s.commSize := by
  simp only [writerMapNumbers, List.length_append, List.length_cons, List.length_nil,
    hs.subfileMap_length hm]

theorem stepRecordBytes_length (e : Endian) (s : IndexStep) :
    (stepRecordBytes e s).length = s.stepRecordSize := by
  rw [stepRecordBytes, recordBytes_length, stepNumbers_length, stepRecordSize]
  ring

-- The loops of `WriteMetadataFileIndex`, from the inside out.

theorem putFlush_fresh {writer : Nat} {flush : List Nat} (hf : 2 * writer + 1 < flush.length)
    (pre : List Byte) (k : Nat) :
    putFlush e writer (.fresh pre (16 + k)) flush = some (.fresh (pre ++
      u64s e [flush.getD (2 * writer) 0, flush.getD (2 * writer + 1) 0]) k) := by
  have h₀ : 2 * writer < flush.length := by omega
  have hl : (u64s e [flush[2 * writer], flush[2 * writer + 1]]).length = 16 := by simp
  simp only [putFlush, List.getElem?_eq_getElem h₀, List.getElem?_eq_getElem hf,
    Option.bind_eq_bind, Option.bind_some, Cursor.put_fresh_of_length hl]
  simp [List.getElem?_eq_getElem h₀, List.getElem?_eq_getElem hf]

theorem WellFormed.putWriter_fresh (hs : s.WellFormed) {writer : Nat} (hw : writer < s.commSize)
    (pre : List Byte) (k : Nat) :
    putWriter e s (.fresh pre ((u64s e (s.writerNumbers writer)).length + k)) writer
      = some (.fresh (pre ++ u64s e (s.writerNumbers writer)) k) := by
  let pair (f : List Nat) := u64s e [f.getD (2 * writer) 0, f.getD (2 * writer + 1) 0]
  have hpair : u64s e (s.writerNumbers writer)
      = s.flushPosSizeInfo.flatMap pair ++ u64 e (s.writerDataPos.getD writer 0) := by
    simp [writerNumbers, u64s, pair, List.flatMap_assoc]
  have hflush : ∀ f ∈ s.flushPosSizeInfo, ∀ pre k,
      putFlush e writer (.fresh pre ((pair f).length + k)) f = some (.fresh (pre ++ pair f) k) := by
    intro f hf pre k
    have hl : 2 * writer + 1 < f.length := by
      have := hs.flush_length f hf
      omega
    simpa [pair] using putFlush_fresh hl pre k
  have hd : writer < s.writerDataPos.length := by
    rw [hs.dataPos_length]
    exact hw
  rw [hpair, List.length_append, Nat.add_assoc, putWriter, Cursor.foldlM_fresh hflush]
  simp only [Option.bind_eq_bind, Option.bind_some, List.getElem?_eq_getElem hd,
    List.getD_eq_getElem?_getD, Option.getD_some, Cursor.put_fresh, List.append_assoc]

theorem WellFormed.putStepRecord_fresh (hs : s.WellFormed) (pre : List Byte) (k : Nat) :
    s.putStepRecord e (.fresh pre (s.stepRecordSize + k))
      = some (.fresh (pre ++ stepRecordBytes e s) k) := by
  let data := (List.range s.commSize).flatMap fun w => u64s e (s.writerNumbers w)
  have hdata : u64s e ((List.range s.commSize).flatMap s.writerNumbers) = data := by
    simp [u64s, data, List.flatMap_assoc]
  have hk : s.stepRecordSize + k = 1 + (8 + (8 + (8 + (8 + (data.length + k))))) := by
    rw [← stepRecordBytes_length e s, ← hdata]
    simp only [stepRecordBytes, recordBytes, stepNumbers, u64s_append, List.length_append,
      u64s_length, u64_length, List.length_cons, List.length_nil]
    ring
  have hloop := Cursor.foldlM_fresh (f := putWriter e s) (l := List.range s.commSize)
    (g := fun w => u64s e (s.writerNumbers w))
    fun w hw => hs.putWriter_fresh (List.mem_range.mp hw)
  have put1 (b : Byte) := Cursor.put_fresh_of_length (List.length_singleton (a := b))
  have put8 (n : Nat) := Cursor.put_fresh_of_length (u64_length e n)
  simp only [putStepRecord, hk, put1, put8, Option.bind_eq_bind, Option.bind_some, data, hloop]
  rw [stepRecordBytes, recordBytes, stepNumbers_length]
  simp [stepNumbers, hdata, data]

theorem WellFormed.putWriterMapRecord_fresh (hs : s.WellFormed) (pre : List Byte) (k : Nat) :
    s.putWriterMapRecord e (.fresh pre (s.writerMapRecordSize + k))
      = some (.fresh (pre ++ if s.writerSubfileMap.isEmpty then [] else writerMapRecordBytes e s)
          k) := by
  by_cases hm : s.writerSubfileMap = []
  case pos => simp [putWriterMapRecord, writerMapRecordSize, hm]
  case neg =>
    have hl := hs.subfileMap_length hm
    have hmap : (u64s e s.writerSubfileMap).length = 8 * s.commSize := by simp [hl]
    have hk : s.writerMapRecordSize + k
        = 1 + (8 + (8 + (8 + (8 + (8 * s.commSize + k))))) := by
      simp only [writerMapRecordSize, List.isEmpty_iff, hm, if_false]
      ring
    have put1 (b : Byte) := Cursor.put_fresh_of_length (List.length_singleton (a := b))
    have put8 (n : Nat) := Cursor.put_fresh_of_length (u64_length e n)
    have htake : s.writerSubfileMap.take s.commSize = s.writerSubfileMap :=
      List.take_of_length_le hl.le
    simp only [putWriterMapRecord, List.isEmpty_iff, hm, if_false, hk, hl, le_refl, if_true, put1,
      put8, Option.bind_eq_bind, Option.bind_some, htake, Cursor.put_fresh_of_length hmap]
    rw [writerMapRecordBytes, recordBytes, hs.writerMapNumbers_length hm]
    simp [writerMapNumbers]

end IndexStep

-- What `WriteMetadataFileIndex` appends for a step.
def indexStepBytes (e : Endian) (h : HeaderInfo) (s : IndexStep) : List Byte :=
  (if s.metaDataPos = 0 then headerBytes e h else [])
    ++ (if s.writerSubfileMap.isEmpty then [] else writerMapRecordBytes e s)
    ++ stepRecordBytes e s

-- The size that is computed in front is the size of what is written.
theorem writeMetadataFileIndex_eq (e : Endian) (h : HeaderInfo) {s : IndexStep}
    (hs : s.WellFormed) : writeMetadataFileIndex e h s = some (indexStepBytes e h s) := by
  have hhdr (k : Nat) : s.putHeader e h (.fresh [] (s.headerSize + k))
      = some (.fresh (if s.metaDataPos = 0 then headerBytes e h else []) k) := by
    unfold IndexStep.putHeader IndexStep.headerSize
    split
    case isTrue => exact makeHeader_fresh e h k
    case isFalse => simp
  have hsize : s.stepRecordSize + s.headerSize + s.writerMapRecordSize
      = s.headerSize + (s.writerMapRecordSize + (s.stepRecordSize + 0)) := by
    omega
  simp only [writeMetadataFileIndex, Cursor.zeros, hsize, hhdr, hs.putWriterMapRecord_fresh,
    hs.putStepRecord_fresh, Option.bind_eq_bind, Option.bind_some, Cursor.fresh_zero_buffer]
  rfl

end BP5

-- What the parser makes of a header and of a record, complete or not.

namespace BP5

open Bytes

variable {e : Endian} {p : ReaderParams} {buffer : List Byte}

-- The part of the header up to the file id is all that the parser reads.
def headerEnd := fileUUIDPosition + 4

def headerFront (e : Endian) (h : HeaderInfo) : List Byte :=
  headerTag h ++ h.majorVersion.take 1 ++ [h.minorVersion] ++ h.patchVersion.take 1 ++ [0]
    ++ headerFields e h ++ encode e 4 h.fileUUID

theorem headerFront_length (e : Endian) (h : HeaderInfo) :
    (headerFront e h).length = headerEnd := by
  simp [headerFront, headerFields, headerTag_length, h.majorVersion_take, h.patchVersion_take,
    versionTagLength, headerEnd, fileUUIDPosition]

theorem headerBytes_eq (e : Endian) (h : HeaderInfo) :
    headerBytes e h = headerFront e h ++ .replicate 18 0 := by
  simp [headerBytes, headerFront]

namespace IndexReader

variable {r r' : IndexReader}

-- The members that the header sets.
def withHeader (r : IndexReader) (p : ReaderParams) (e : Endian) (h : HeaderInfo) : IndexReader :=
  { r with
    minifooter       := { versionTag := headerTag h, endian := e, version := 5 }
    writerIsActive   := true
    writerIsRowMajor := !h.columnMajor
    flattenSteps     := h.flattenSteps && !p.ignoreFlattenSteps
    fileUUID         := h.fileUUID
  }

theorem parseHeader_of_holds {h : HeaderInfo} (hb : Holds buffer 0 (headerFront e h)) :
    r.parseHeader p buffer = .ok (r.withHeader p e h) := by
  have hm := h.majorVersion_take
  have hp := h.patchVersion_take
  have ht := headerTag_length h
  simp only [headerFront, holds_append, headerFields, List.length_append, hm, hp, ht,
    versionTagLength, List.length_cons, List.length_nil, Nat.zero_add, Nat.reduceAdd] at hb
  obtain ⟨⟨⟨⟨⟨⟨htag, _⟩, _⟩, _⟩, _⟩, hf⟩, hu⟩ := hb
  have ⟨h₃₆, hf⟩ := holds_cons.mp hf
  have ⟨h₃₇, hf⟩ := holds_cons.mp hf
  have ⟨h₃₈, hf⟩ := holds_cons.mp hf
  have ⟨h₃₉, hf⟩ := holds_cons.mp hf
  have ⟨h₄₀, h₄₁⟩ := holds_cons.mp hf
  have hne : headerTag h ≠ [] := by
    intro hnil
    rw [hnil] at ht
    contradiction
  have htag' := readBytes_of_holds htag hne
  have hu' := readUInt_of_holds hu (by decide) h.fileUUID_lt
  have he : (if (HeaderInfo.endianness e).toNat = 0 then Endian.little else .big) = e := by
    cases e <;> rfl
  rw [ht] at htag'
  simp only [parseHeader, versionTagPosition, endianFlagPosition, bpVersionPosition,
    bpMinorVersionPosition, activeFlagPosition, columnMajorFlagPosition, flattenStepsPosition,
    fileUUIDPosition, htag', readUInt_byte h₃₆, readUInt_byte h₃₇, readUInt_byte h₃₈,
    readUInt_byte h₃₉, readUInt_byte h₄₀, readUInt_byte h₄₁, Option.orUndefined_some,
    Outcome.ok_bind, he, hu', withHeader]
  cases h.columnMajor <;> cases h.flattenSteps <;> rfl

-- Without that part the parser reads behind the end of the buffer.
theorem parseHeader_length_le (h : r.parseHeader p buffer = .ok r') :
    headerEnd ≤ buffer.length := by
  simp only [parseHeader, Outcome.bind_eq_ok, Option.orUndefined_eq_ok] at h
  obtain ⟨_, _, _, _, _, _, h⟩ := h
  split at h
  case isTrue => contradiction
  case isFalse =>
    simp only [Outcome.bind_eq_ok, Option.orUndefined_eq_ok] at h
    obtain ⟨_, _, h⟩ := h
    split at h
    case isTrue => contradiction
    case isFalse =>
      simp only [Outcome.bind_eq_ok, Option.orUndefined_eq_ok] at h
      obtain ⟨_, _, _, _, _, _, _, hu, _⟩ := h
      exact readUInt_length_le hu

end IndexReader

def IndexStep.mapStruct (s : IndexStep) : WriterMapStruct where
  writerCount     := s.commSize
  aggregatorCount := s.numAggregators
  subfileCount    := s.subStreams
  rankToSubfile   := s.writerSubfileMap

namespace ParseState

variable {st : ParseState} {s : IndexStep}

-- The members after a writer map record.
def addWriterMap (st : ParseState) (m : WriterMapStruct) : ParseState :=
  { st with
    position               := st.position + 24 + 8 * m.writerCount
    reader.writerMap       := Function.update st.reader.writerMap st.reader.stepsCount (some m)
    reader.lastMapStep     := st.reader.stepsCount
    reader.lastWriterCount := m.writerCount
  }

-- The members after a step record.
def addStep (p : ReaderParams) (st : ParseState) (s : IndexStep) : ParseState :=
  let st := { st with position := st.position + 24 }
  let st := if st.n = 0 then
      { st with minfoPos := s.metaDataPos, metadataPosTotalSkip := s.metaDataPos }
    else
      st
  let st := if p.isSelected st.reader.absStepsInFile then
      st.selectStep s.metaDataPos s.metaDataSize s.flushCount
    else
      st.skipStep s.metaDataPos s.metaDataSize
  { st with
    position              := st.position + 8 * st.reader.lastWriterCount * (2 * s.flushCount + 1)
    reader.absStepsInFile := st.reader.absStepsInFile + 1
    n                     := st.n + 1
  }

theorem parseWriterMap_eq (hs : s.WellFormed) (hm : s.writerSubfileMap ≠ [])
    (he : st.reader.minifooter.endian = e)
    (hb : Holds buffer st.position (u64s e s.writerMapNumbers)) :
    parseWriterMap buffer st = .ok (st.addWriterMap s.mapStruct) := by
  have hn := hs.commSize_lt
  have ha := hs.numAggregators_lt
  have hc := hs.subStreams_lt
  simp only [IndexStep.writerMapNumbers, List.cons_append, List.nil_append, u64s_cons,
    holds_append, u64_length, Nat.add_assoc, Nat.reduceAdd] at hb
  obtain ⟨h₀, h₁, h₂, h₃⟩ := hb
  have hmap := readUInts_u64s h₃ hs.subfileMap_lt
  rw [hs.subfileMap_length hm] at hmap
  simp only [parseWriterMap, he, readUInt_u64 h₀ (by omega), readUInt_u64 h₁ (by omega),
    readUInt_u64 h₂ (by omega), Option.orUndefined_some, Outcome.ok_bind,
    Nat.mod_eq_of_lt (show s.commSize < 2 ^ 32 by omega), hmap, Nat.mod_eq_of_lt ha,
    Nat.mod_eq_of_lt hc]
  rfl

theorem parseStep_eq (hs : s.WellFormed) (hf : s.flushCount < 2 ^ 64)
    (he : st.reader.minifooter.endian = e)
    (hb : Holds buffer st.position (u64s e s.stepNumbers)) :
    parseStep buffer p st = .ok (st.addStep p s) := by
  simp only [IndexStep.stepNumbers, List.cons_append, List.nil_append, u64s_cons,
    holds_append, u64_length, Nat.add_assoc, Nat.reduceAdd] at hb
  obtain ⟨h₀, h₁, h₂, -⟩ := hb
  simp only [parseStep, he, readUInt_u64 h₀ hs.metaDataPos_lt, readUInt_u64 h₁ hs.metaDataSize_lt,
    readUInt_u64 h₂ hf, Option.orUndefined_some, Outcome.ok_bind]
  rfl

-- A record of which the first nine bytes are there is taken if the rest of it is there as well.
theorem parseRecord_of_holds {recordID : Byte} {numbers : List Nat} {st' : ParseState}
    (hlen : numbers.length * 8 < 2 ^ 64) (he : st.reader.minifooter.endian = e)
    (hb : Holds buffer st.position (recordBytes e recordID numbers))
    (hbody : Holds buffer (st.position + 9) (u64s e numbers) →
      parseBody buffer p recordID.toNat { st with position := st.position + 9 } = .ok st')
    (hpos : st'.position = st.position + 9 + numbers.length * 8) :
    parseRecord buffer p st = .ok (some { st' with nrec := st'.nrec + 1 }) := by
  have hle := hb.length_le (by simp [recordBytes])
  rw [recordBytes_length] at hle
  simp only [recordBytes, holds_append, List.length_append, u64_length,
    List.length_singleton, Nat.reduceAdd] at hb
  obtain ⟨⟨hid, hl⟩, hn⟩ := hb
  have h₁ : ¬ st.position + 9 > buffer.length := by omega
  have h₂ : ¬ st.position + 9 + numbers.length * 8 > buffer.length := by omega
  have h₃ : st'.position - (st.position + 9) = numbers.length * 8 := by omega
  simp only [parseRecord, he, readUInt_byte hid, readUInt_u64 hl hlen, h₁, h₂, h₃, if_false,
    Option.orUndefined_some, Outcome.ok_bind, hbody hn]
  simp

-- A part of a record is left for later.
theorem parseRecord_of_partial {recordID : Byte} {numbers : List Nat}
    (hlen : numbers.length * 8 < 2 ^ 64) (he : st.reader.minifooter.endian = e)
    (hb : buffer.drop st.position <+: recordBytes e recordID numbers)
    (hlt : buffer.length < st.position + (recordBytes e recordID numbers).length) :
    parseRecord buffer p st = .ok none := by
  rw [recordBytes_length] at hlt
  by_cases h₁ : st.position + 9 > buffer.length
  case pos => simp [parseRecord, h₁]
  case neg =>
    have hfront := holds_of_prefix_append hb (by simp; omega)
    simp only [holds_append, List.length_singleton] at hfront
    have ⟨hid, hl⟩ := hfront
    have h₂ : st.position + 9 + numbers.length * 8 > buffer.length := by omega
    simp only [parseRecord, he, readUInt_byte hid, readUInt_u64 hl hlen, h₁, h₂, if_false, if_true,
      Option.orUndefined_some, Outcome.ok_bind]
    rfl

end ParseState

end BP5
