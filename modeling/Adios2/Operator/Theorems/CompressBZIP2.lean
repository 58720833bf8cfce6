import Adios2.Lib.Lists
import Adios2.Operator.CompressBZIP2
import Adios2.Operator.Theorems.Buffers

-- The bytes that the operator makes of a block, and what it finds in them.

namespace Operators.BZIP2

open Bytes BP5 Helper

-- What the library makes of data can be made back into them. It reports when the destination has
-- too little room, and writes no more than what it has room for.
structure Lossless (lib : Library) (s : Settings) (coded : List Byte → List Byte) : Prop where
  compress   : ∀ destLen source, lib.compress s destLen source =
    if (coded source).length ≤ destLen then .ok (coded source) else .error .outbuffFull
  decompress : ∀ destLen source, source.length ≤ destLen →
    lib.decompress destLen (coded source) = .ok source
  room       : ∀ destLen source dest, lib.decompress destLen source = .ok dest →
    dest.length ≤ destLen

theorem checked_ok (bytes : List Byte) (hint : String) : checked (.ok bytes) hint = .ok bytes := rfl

section Container

variable (coded : List Byte → List Byte) (data : List Byte)

def batches : Nat := data.length / defaultMaxFileBatchSize + 1

def sourceLen (b : Nat) : Nat := batchSize data.length (batches data) b

-- A batch with the offset of 32 bits at which it is looked for.
def source (b : Nat) : List Byte :=
  (data.drop (b * defaultMaxFileBatchSize % 2 ^ 32)).take (sourceLen data b)

def codes (b : Nat) : List Byte := (List.range b).flatMap fun k => coded (source data k)

-- Where the batches begin, behind the header and the table.
def start : Nat := 20 + 16 * batches data

def entry (b : Nat) : List Byte :=
  parameter 4 (b * defaultMaxFileBatchSize % 2 ^ 32) ++ parameter 4 (sourceLen data b)
    ++ parameter 4 (start data + (codes coded data b).length)
    ++ parameter 4 (coded (source data b)).length

def entries (b : Nat) : List Byte := (List.range b).flatMap (entry coded data)

def header : List Byte :=
  makeCommonHeader .bzip2 1 ++ parameter 8 data.length ++ parameter 8 (batches data)

def container : List Byte :=
  header data ++ entries coded data (batches data) ++ codes coded data (batches data)

-- No batch becomes longer.
def Shrinks : Prop := ∀ b < batches data, (coded (source data b)).length ≤ sourceLen data b

-- The container is too long for offsets of 32 bits.
def Overflows : Prop := 2 ^ 32 ≤ start data + (codes coded data (batches data)).length

end Container

section Lengths

variable {coded : List Byte → List Byte} {data : List Byte} {b : Nat}

theorem max_eq : defaultMaxFileBatchSize = 2147381248 := rfl

theorem batches_spec (data : List Byte) : (batches data - 1) * defaultMaxFileBatchSize
    + data.length % defaultMaxFileBatchSize = data.length := by
  rw [batches, Nat.add_sub_cancel, Nat.mul_comm]
  exact Nat.div_add_mod _ _

theorem mul_le_of_lt (data : List Byte) (hb : b < batches data) :
    b * defaultMaxFileBatchSize ≤ data.length := by
  have hle : b * defaultMaxFileBatchSize ≤ (batches data - 1) * defaultMaxFileBatchSize :=
    Nat.mul_le_mul_right _ (by omega)
  have := batches_spec data
  omega

-- The batches up to one of them, and all.
theorem mul_add_sourceLen (hb : b < batches data) :
    b * defaultMaxFileBatchSize + sourceLen data b
      = min ((b + 1) * defaultMaxFileBatchSize) data.length := by
  have hspec := batches_spec data
  have hmod : data.length % defaultMaxFileBatchSize < defaultMaxFileBatchSize :=
    Nat.mod_lt _ (by decide)
  rw [sourceLen, batchSize, Nat.succ_mul]
  split
  case isTrue hlast =>
    rw [hlast]
    omega
  case isFalse hlast =>
    have := mul_le_of_lt data (b := b + 1) (by omega)
    rw [Nat.succ_mul] at this
    omega

theorem sourceLen_le : sourceLen data b ≤ defaultMaxFileBatchSize := by
  have hmod : data.length % defaultMaxFileBatchSize < defaultMaxFileBatchSize :=
    Nat.mod_lt _ (by decide)
  rw [sourceLen, batchSize]
  split <;> omega

theorem source_length (hb : b < batches data) : (source data b).length = sourceLen data b := by
  have hlen := mul_add_sourceLen hb
  have hmod := Nat.mod_le (b * defaultMaxFileBatchSize) (2 ^ 32)
  rw [source, List.length_take, List.length_drop]
  omega

theorem codes_succ (b : Nat) :
    codes coded data (b + 1) = codes coded data b ++ coded (source data b) := by
  rw [codes, List.range_succ, List.flatMap_append, List.flatMap_singleton]
  rfl

theorem entries_succ (b : Nat) :
    entries coded data (b + 1) = entries coded data b ++ entry coded data b := by
  rw [entries, List.range_succ, List.flatMap_append, List.flatMap_singleton]
  rfl

theorem codes_length_mono (coded : List Byte → List Byte) (data : List Byte) {b c : Nat} (h : b ≤ c) :
    (codes coded data b).length ≤ (codes coded data c).length := by
  induction h with
  | refl => exact le_rfl
  | step _ ih =>
    rw [codes_succ, List.length_append]
    omega

theorem codes_length_le (h : Shrinks coded data) (hb : b ≤ batches data) :
    (codes coded data b).length ≤ min (b * defaultMaxFileBatchSize) data.length := by
  induction b with
  | zero => simp [codes]
  | succ b ih =>
    have hcode := h b hb
    have hlen := mul_add_sourceLen (show b < batches data from hb)
    have := mul_le_of_lt data hb
    have := ih (by omega)
    rw [codes_succ, List.length_append]
    omega

@[simp]
theorem entry_length (b : Nat) : (entry coded data b).length = 16 := by
  simp [entry]

@[simp]
theorem entries_length (b : Nat) : (entries coded data b).length = 16 * b := by
  induction b with
  | zero => rfl
  | succ b ih =>
    rw [entries_succ, List.length_append, ih, entry_length]
    omega

@[simp]
theorem header_length : (header data).length = 20 := by
  simp [header, makeCommonHeader_length]

theorem start_lt (h : ¬Overflows coded data) (hb : b ≤ batches data) :
    start data + (codes coded data b).length < 2 ^ 32 := by
  have := codes_length_mono coded data hb
  rw [Overflows] at h
  omega

theorem slice_source (hb : b < batches data) : slice data (b * defaultMaxFileBatchSize % 2 ^ 32)
    (sourceLen data b) = .ok (source data b) := by
  have hlen := mul_add_sourceLen hb
  have hmod := Nat.mod_le (b * defaultMaxFileBatchSize) (2 ^ 32)
  exact slice_eq_ok.mpr ⟨by omega, rfl⟩

end Lengths

section Operate

variable {lib : Library} {s : Settings} {coded : List Byte → List Byte} {data table area : List Byte}
  {b k : Nat}

-- What is there when the first batches have been compressed. The memory is what the header and the
-- table are written into, and what is behind.
def form (coded : List Byte → List Byte) (data table area : List Byte) (b : Nat) : Progress where
  buffer          := overwrite table 0 (header data ++ entries coded data b)
    ++ overwrite area 0 (codes coded data b)
  sourceOffset    := min (b * defaultMaxFileBatchSize) data.length % 2 ^ 32
  batchInfoOffset := 20 + 16 * b
  destOffset      := start data + (codes coded data b).length

theorem table_length (coded : List Byte → List Byte) (htable : table.length = start data) (hb : b ≤ batches data) :
    0 + (header data ++ entries coded data b).length ≤ table.length := by
  rw [htable, start, List.length_append, header_length, entries_length]
  omega

theorem put_codes (htable : table.length = start data) (hb : b < batches data)
    (hroom : (codes coded data b).length ≤ area.length) {buffer : List Byte} :
    put (form coded data table area b).buffer (form coded data table area b).destOffset
        (coded (source data b)) = .ok buffer ↔
      (codes coded data (b + 1)).length ≤ area.length ∧
        buffer = overwrite table 0 (header data ++ entries coded data b)
          ++ overwrite area 0 (codes coded data (b + 1)) := by
  have hfront := overwrite_length (table_length coded htable (show b ≤ _ from hb.le))
  have hback : (overwrite area 0 (codes coded data b)).length = area.length :=
    overwrite_length (by omega)
  have hnext (h : (codes coded data b).length + (coded (source data b)).length ≤ area.length) :
      overwrite (overwrite table 0 (header data ++ entries coded data b)
        ++ overwrite area 0 (codes coded data b)) (start data + (codes coded data b).length)
          (coded (source data b))
        = overwrite table 0 (header data ++ entries coded data b)
          ++ overwrite area 0 (codes coded data b ++ coded (source data b)) := by
    rw [← htable, ← hfront, overwrite_back (by omega), ← Nat.zero_add (codes _ _ _).length,
      overwrite_overwrite (by omega)]
  rw [put_eq_ok, codes_succ]
  simp only [form, List.length_append, hfront, hback]
  constructor
  case mp =>
    rintro ⟨hle, rfl⟩
    exact ⟨by omega, hnext (by omega)⟩
  case mpr =>
    rintro ⟨hle, rfl⟩
    exact ⟨by omega, (hnext hle).symm⟩

theorem put_entry (htable : table.length = start data) (hb : b < batches data) (c : List Byte) :
    put (overwrite table 0 (header data ++ entries coded data b) ++ c) (20 + 16 * b)
        (entry coded data b)
      = .ok (overwrite table 0 (header data ++ entries coded data (b + 1)) ++ c) := by
  have hfront := overwrite_length (table_length coded htable (show b ≤ _ from hb.le))
  have hnext := table_length coded htable hb
  have hpos : 0 + (header data ++ entries coded data b).length = 20 + 16 * b := by simp
  rw [entries_succ, ← List.append_assoc, List.length_append] at hnext
  have hle : 20 + 16 * b + (entry coded data b).length ≤
      (overwrite table 0 (header data ++ entries coded data b)).length := by
    rw [hfront, ← hpos]
    omega
  rw [put_of_le (by rw [List.length_append]; omega), overwrite_front hle, ← hpos,
    overwrite_overwrite (by omega), entries_succ, List.append_assoc]

-- One batch. It fails when the code of the batch is longer than the batch.
theorem compressBatch_eq_ok (hlib : Lossless lib s coded) (htable : table.length = start data)
    (hlt : ¬Overflows coded data) (hb : b < batches data)
    (hroom : (codes coded data b).length ≤ area.length) {p : Progress} :
    compressBatch lib s data data.length (batches data) (form coded data table area b) b = .ok p ↔
      (coded (source data b)).length ≤ sourceLen data b ∧
      (codes coded data (b + 1)).length ≤ area.length ∧
      p = form coded data table area (b + 1) := by
  have hle := mul_le_of_lt data hb
  have hlen := mul_add_sourceLen hb
  have hsmall : sourceLen data b % 2 ^ 32 = sourceLen data b := by
    have := @sourceLen_le data b
    have := max_eq
    omega
  have hoffset : (form coded data table area b).sourceOffset
      = b * defaultMaxFileBatchSize % 2 ^ 32 := by
    rw [form, Nat.min_eq_left hle]
  have hlast := start_lt hlt (Nat.le_refl (batches data))
  have hsum := start_lt hlt (show b + 1 ≤ batches data from hb)
  rw [codes_succ, List.length_append] at hsum
  rw [start] at hlast
  have hinfo (c : List Byte) :
      put (overwrite table 0 (header data ++ entries coded data b) ++ c)
        (form coded data table area b).batchInfoOffset
        (parameter 4 (b * defaultMaxFileBatchSize % 2 ^ 32) ++ parameter 4 (sourceLen data b)
          ++ parameter 4 (form coded data table area b).destOffset
          ++ parameter 4 (coded (source data b)).length)
        = .ok (overwrite table 0 (header data ++ entries coded data (b + 1)) ++ c) :=
    put_entry htable hb c
  have hform : form coded data table area (b + 1) = {
      buffer := overwrite table 0 (header data ++ entries coded data (b + 1))
        ++ overwrite area 0 (codes coded data (b + 1))
      sourceOffset := (b * defaultMaxFileBatchSize % 2 ^ 32 + sourceLen data b) % 2 ^ 32
      batchInfoOffset := ((form coded data table area b).batchInfoOffset + 16) % 2 ^ 32
      destOffset := ((form coded data table area b).destOffset
        + (coded (source data b)).length) % 2 ^ 32 } := by
    have hpos : (20 + 16 * b + 16) % 2 ^ 32 = 20 + 16 * (b + 1) := by omega
    have hdest : (start data + (codes coded data b).length + (coded (source data b)).length) % 2 ^ 32
        = start data + (codes coded data (b + 1)).length := by
      rw [codes_succ, List.length_append]
      omega
    simp only [form, hpos, hdest, Nat.mod_add_mod, hlen]
  have hsize : batchSize data.length (batches data) b = sourceLen data b := rfl
  rw [compressBatch]
  simp only [hsize, hsmall, hoffset, slice_source hb, Outcome.ok_bind, hlib.compress]
  split
  case isTrue hfits =>
    simp only [checked, Outcome.ok_bind, Outcome.bind_eq_ok, put_codes htable hb hroom]
    constructor
    case mp =>
      rintro ⟨_, ⟨harea, rfl⟩, buffer, hput, hp⟩
      rw [hinfo] at hput
      cases hput
      cases hp
      exact ⟨hfits, harea, hform.symm⟩
    case mpr =>
      rintro ⟨_, harea, rfl⟩
      exact ⟨_, ⟨harea, rfl⟩, _, hinfo _, congrArg _ hform.symm⟩
  case isFalse hfits =>
    refine ⟨fun h => ?_, fun h => absurd h.1 hfits⟩
    rw [checked, Outcome.error_bind] at h
    nomatch h

-- The first batches.
theorem compressBatches_eq_ok (hlib : Lossless lib s coded) (htable : table.length = start data)
    (hlt : ¬Overflows coded data) (hk : k ≤ batches data) {p : Progress} :
    (List.range k).foldlM (compressBatch lib s data data.length (batches data))
        (form coded data table area 0) = .ok p ↔
      (∀ b < k, (coded (source data b)).length ≤ sourceLen data b) ∧
      (codes coded data k).length ≤ area.length ∧ p = form coded data table area k := by
  induction k generalizing p with
  | zero =>
    have hcodes : codes coded data 0 = [] := rfl
    simp [hcodes, eq_comm]
  | succ k ih =>
    simp only [List.range_succ, List.foldlM_append, List.foldlM_cons, List.foldlM_nil,
      Outcome.bind_eq_ok, ih (by omega)]
    constructor
    case mp =>
      rintro ⟨_, ⟨hfits, harea, rfl⟩, p', hbatch, hp⟩
      cases hp
      have ⟨hfit, hnext, heq⟩ := (compressBatch_eq_ok hlib htable hlt hk harea).mp hbatch
      refine ⟨fun b hb => ?_, hnext, heq⟩
      rcases Nat.lt_succ_iff_lt_or_eq.mp hb with hb | rfl
      · exact hfits b hb
      · exact hfit
    case mpr =>
      rintro ⟨hfits, hnext, rfl⟩
      have harea := (codes_length_mono coded data k.le_succ).trans hnext
      exact ⟨_, ⟨fun b hb => hfits b (by omega), harea, rfl⟩, _,
        (compressBatch_eq_ok hlib htable hlt hk harea).mpr ⟨hfits k (by omega), hnext, rfl⟩, rfl⟩

theorem operate_eq_ok {parameters : Params} {count : Dims} {type : DataType} {a : Applied}
    (hlib : Lossless lib s coded) (hsettings : settings parameters type = .ok s)
    (hsize : data.length = blockSize count type) (htable : table.length = start data)
    (hlt : ¬Overflows coded data) :
    operate lib parameters count type data (table ++ area) = .ok a ↔
      Shrinks coded data ∧ (codes coded data (batches data)).length ≤ area.length ∧
      a = { size   := start data + (codes coded data (batches data)).length
            buffer := (form coded data table area (batches data)).buffer } := by
  have hlast := start_lt hlt (Nat.zero_le _)
  have hheader : (header data).length ≤ table.length := by
    rw [htable, start, header_length]
    omega
  have hfirst : put (table ++ area) 0 (header data)
      = .ok (form coded data table area 0).buffer := by
    have hcodes : codes coded data 0 = [] := rfl
    have hentries : entries coded data 0 = [] := rfl
    rw [put_of_le (by rw [List.length_append]; omega), overwrite_front (by omega), form, hcodes,
      hentries, List.append_nil, overwrite_nil]
  have hform : form coded data table area 0 = {
      buffer          := (form coded data table area 0).buffer
      batchInfoOffset := (header data).length
      destOffset      := ((header data).length + batches data * 16) % 2 ^ 32 } := by
    have hcodes : codes coded data 0 = [] := rfl
    have hdest : (20 + batches data * 16) % 2 ^ 32 = start data := by
      rw [start] at hlast ⊢
      omega
    simp only [form, header_length, hdest, hcodes, Nat.zero_mul, Nat.zero_min, List.length_nil]
    rfl
  have hbatches : data.length / defaultMaxFileBatchSize + 1 = batches data := rfl
  have hhead : makeCommonHeader .bzip2 1 ++ parameter 8 data.length ++ parameter 8 (batches data)
      = header data := rfl
  have hrun (p : Progress) := @compressBatches_eq_ok lib s coded data table area (batches data) hlib
    htable hlt le_rfl p
  rw [hform] at hrun
  rw [operate]
  simp only [← hsize, hbatches, hhead, hfirst, hsettings, Outcome.ok_bind, Outcome.bind_eq_ok, hrun]
  constructor
  case mp =>
    rintro ⟨_, ⟨hfits, harea, rfl⟩, ha⟩
    cases ha
    exact ⟨hfits, harea, rfl⟩
  case mpr =>
    rintro ⟨hfits, harea, rfl⟩
    exact ⟨_, ⟨hfits, harea, rfl⟩, rfl⟩

theorem container_length (coded : List Byte → List Byte) (data : List Byte) :
    (container coded data).length = start data + (codes coded data (batches data)).length := by
  simp only [container, start, List.length_append, header_length, entries_length]

theorem marshal_eq_ok {parameters : Params} {count : Dims} {type : DataType}
    {bufferOut stored : List Byte} (hlib : Lossless lib s coded)
    (hsettings : settings parameters type = .ok s) (hsize : data.length = blockSize count type)
    (hstart : start data ≤ bufferOut.length) (hlt : ¬Overflows coded data) :
    marshal (compressBZIP2 lib parameters) count type data bufferOut = .ok stored ↔
      Shrinks coded data ∧ (container coded data).length ≤ bufferOut.length ∧
      stored = container coded data := by
  have htable : (bufferOut.take (start data)).length = start data := List.length_take_of_le hstart
  have hoperate (a : Applied) := @operate_eq_ok lib s coded data _ (bufferOut.drop (start data))
    parameters count type a hlib hsettings hsize htable hlt
  rw [List.take_append_drop] at hoperate
  have hop : (compressBZIP2 lib parameters).operate = operate lib parameters := rfl
  have hpos : ¬start data + (codes coded data (batches data)).length = 0 := by
    rw [start]
    omega
  have hfinish (harea : (codes coded data (batches data)).length ≤
      (bufferOut.drop (start data)).length) :
      slice (form coded data (bufferOut.take (start data)) (bufferOut.drop (start data))
        (batches data)).buffer 0 (start data + (codes coded data (batches data)).length)
        = .ok (container coded data) := by
    have hfull : (header data ++ entries coded data (batches data)).length
        = (bufferOut.take (start data)).length := by
      rw [htable, start, List.length_append, header_length, entries_length]
    rw [← container_length, form]
    dsimp only
    rw [overwrite_all hfull, overwrite_zero, ← List.append_assoc]
    exact slice_of_within (within_front _ _)
  rw [marshal]
  simp only [hop, Outcome.bind_eq_ok, hoperate, container_length]
  rw [List.length_drop] at hfinish ⊢
  constructor
  case mp =>
    rintro ⟨_, ⟨hfits, harea, rfl⟩, hstored⟩
    rw [if_neg hpos, hfinish harea] at hstored
    cases hstored
    exact ⟨hfits, by omega, rfl⟩
  case mpr =>
    rintro ⟨hfits, hroom, rfl⟩
    refine ⟨_, ⟨hfits, by omega, rfl⟩, ?_⟩
    rw [if_neg hpos, hfinish (by omega)]

end Operate

section InverseOperate

variable {lib : Library} {s : Settings} {coded : List Byte → List Byte} {data : List Byte} {b : Nat}

theorem within_entry (hb : b < batches data) :
    Within (container coded data) (20 + 16 * b) (entry coded data b) := by
  have ⟨rest, hrest⟩ := List.exists_flatMap_range_of_lt (entry coded data) hb
  have hpos : (header data ++ entries coded data b).length = 20 + 16 * b := by simp
  have hwithin := within_middle (header data ++ entries coded data b) (entry coded data b)
    (rest ++ codes coded data (batches data))
  rw [hpos] at hwithin
  have hentries : entries coded data (batches data)
      = entries coded data b ++ (entry coded data b ++ rest) := hrest
  rw [container, hentries]
  simpa only [List.append_assoc] using hwithin

theorem within_codes (hb : b < batches data) : Within (container coded data)
    (start data + (codes coded data b).length) (coded (source data b)) := by
  have ⟨rest, hrest⟩ := List.exists_flatMap_range_of_lt (fun k => coded (source data k)) hb
  have hpos : (header data ++ entries coded data (batches data) ++ codes coded data b).length
      = start data + (codes coded data b).length := by
    rw [List.length_append, List.length_append, header_length, entries_length, start]
  have hwithin := within_middle
    (header data ++ entries coded data (batches data) ++ codes coded data b)
    (coded (source data b)) rest
  rw [hpos] at hwithin
  have hcodes : codes coded data (batches data)
      = codes coded data b ++ (coded (source data b) ++ rest) := hrest
  rw [container, hcodes]
  simpa only [List.append_assoc] using hwithin

theorem fields_of_entry {buffer : List Byte} {pos : Nat}
    (h : Within buffer pos (entry coded data b)) :
    Within buffer pos (parameter 4 (b * defaultMaxFileBatchSize % 2 ^ 32)) ∧
    Within buffer (pos + 8) (parameter 4 (start data + (codes coded data b).length)) ∧
    Within buffer (pos + 12) (parameter 4 (coded (source data b)).length) := by
  have ⟨h, hlen⟩ := h.append
  have ⟨h, hdest⟩ := h.append
  have ⟨hsource, _⟩ := h.append
  simp only [List.length_append, parameter_length, Nat.reduceAdd] at hlen hdest
  exact ⟨hsource, hdest, hlen⟩

-- One batch of what `Operate` has made.
theorem decompressBatch_eq_ok (hlib : Lossless lib s coded) (hlt : ¬Overflows coded data)
    (hb : b < batches data) {r r' : Reading} (hoffset : r.bufferInOffset = 20 + 16 * b) :
    decompressBatch lib (container coded data) data.length (batches data) r b = .ok r' ↔
      b * defaultMaxFileBatchSize % 2 ^ 32 + sourceLen data b ≤ r.dataOut.length ∧
      r' = {
        dataOut := overwrite r.dataOut (b * defaultMaxFileBatchSize % 2 ^ 32) (source data b)
        bufferInOffset := 20 + 16 * (b + 1)
        expectedSizeOut := (r.expectedSizeOut + sourceLen data b) % 2 ^ 64 } := by
  have hsum := start_lt hlt (show b + 1 ≤ batches data from hb)
  rw [codes_succ, List.length_append] at hsum
  have hmod := Nat.mod_lt (b * defaultMaxFileBatchSize) (show 0 < 2 ^ 32 by decide)
  have ⟨hdest, hsource, hlen⟩ := fields_of_entry (@within_entry coded data b hb)
  have hsize : batchSize data.length (batches data) b = sourceLen data b := rfl
  have hsmall : sourceLen data b % 2 ^ 32 = sourceLen data b := by
    have := @sourceLen_le data b
    have := max_eq
    omega
  have hlength := source_length hb
  have hnext : 20 + 16 * b + 16 = 20 + 16 * (b + 1) := by omega
  rw [decompressBatch]
  simp only [hoffset, hnext, hsize, hsmall, getParameter_of_within hdest (by omega),
    getParameter_of_within hsource (by omega), getParameter_of_within hlen (by omega),
    Outcome.ok_bind, slice_of_within (within_codes hb)]
  rw [hlib.decompress _ _ hlength.le, checked_ok, Outcome.ok_bind, Outcome.bind_eq_ok]
  simp only [put_eq_ok]
  rw [← hlength]
  constructor
  case mp =>
    rintro ⟨_, ⟨hle, rfl⟩, hr⟩
    exact ⟨hle, (Except.ok.inj hr).symm⟩
  case mpr =>
    rintro ⟨hle, rfl⟩
    exact ⟨_, ⟨hle, rfl⟩, rfl⟩

-- Up to three batches, what is written one after the other are the data in their order.
theorem overwrite_source (hthree : data.length ≤ 3 * defaultMaxFileBatchSize) {dataOut : List Byte}
    (hout : dataOut.length = data.length) (hb : b < batches data) :
    overwrite (overwrite dataOut 0 (data.take (b * defaultMaxFileBatchSize)))
        (b * defaultMaxFileBatchSize % 2 ^ 32) (source data b)
      = overwrite dataOut 0 (data.take (min ((b + 1) * defaultMaxFileBatchSize) data.length)) := by
  have hle := mul_le_of_lt data hb
  have hlen := mul_add_sourceLen hb
  have hsource := source_length hb
  by_cases hthird : b ≤ 2
  case pos =>
    have hpos : b * defaultMaxFileBatchSize % 2 ^ 32 = b * defaultMaxFileBatchSize :=
      Nat.mod_eq_of_lt (by rw [max_eq]; omega)
    have htake : (data.take (b * defaultMaxFileBatchSize)).length = b * defaultMaxFileBatchSize :=
      List.length_take_of_le hle
    have hnext := @overwrite_overwrite dataOut (data.take (b * defaultMaxFileBatchSize))
      (source data b) 0 (by rw [htake, hsource, hout]; omega)
    rw [htake, Nat.zero_add] at hnext
    rw [hpos, hnext, source, hpos, ← List.take_add, hlen]
  case neg =>
    -- an empty batch behind three full ones
    have hzero : sourceLen data b = 0 := by
      rw [max_eq] at hthree hlen
      omega
    rw [List.length_eq_zero_iff.mp (hsource.trans hzero), overwrite_nil, ← hlen, hzero, Nat.add_zero]

-- The batches in their order, when there are no more than three full ones.
theorem decompressBatches_eq (hlib : Lossless lib s coded) (hlt : ¬Overflows coded data)
    (hthree : data.length ≤ 3 * defaultMaxFileBatchSize) {dataOut : List Byte}
    (hout : dataOut.length = data.length) {k : Nat} (hk : k ≤ batches data) :
    (List.range k).foldlM (decompressBatch lib (container coded data) data.length (batches data))
      { dataOut, bufferInOffset := 20 } = .ok {
        dataOut := overwrite dataOut 0 (data.take (min (k * defaultMaxFileBatchSize) data.length))
        bufferInOffset := 20 + 16 * k
        expectedSizeOut := min (k * defaultMaxFileBatchSize) data.length } := by
  induction k with
  | zero =>
    rw [List.range_zero, List.foldlM_nil, Nat.zero_mul, Nat.zero_min, List.take_zero, overwrite_nil]
    rfl
  | succ k ih =>
    have hle := mul_le_of_lt data hk
    have hlen := mul_add_sourceLen (show k < batches data from hk)
    have hfirst := @overwrite_length dataOut (data.take (k * defaultMaxFileBatchSize)) 0
      (by rw [List.length_take_of_le hle, hout]; omega)
    have hmod := Nat.mod_le (k * defaultMaxFileBatchSize) (2 ^ 32)
    have hstep := (@decompressBatch_eq_ok lib s coded data k hlib hlt hk {
        dataOut := overwrite dataOut 0 (data.take (k * defaultMaxFileBatchSize))
        bufferInOffset := 20 + 16 * k
        expectedSizeOut := k * defaultMaxFileBatchSize } _ rfl).mpr
      ⟨by dsimp only; rw [hfirst, hout]; omega, rfl⟩
    have hsize : (k * defaultMaxFileBatchSize + sourceLen data k) % 2 ^ 64
        = min ((k + 1) * defaultMaxFileBatchSize) data.length := by
      rw [hlen]
      rw [max_eq] at hthree ⊢
      exact Nat.mod_eq_of_lt (by omega)
    dsimp only at hstep
    rw [overwrite_source hthree hout hk, hsize] at hstep
    rw [List.range_succ, List.foldlM_append, ih (by omega), Nat.min_eq_left hle, Outcome.ok_bind,
      List.foldlM_cons, hstep, Outcome.ok_bind, List.foldlM_nil, Outcome.pure_eq]

-- With more batches, the offsets of 32 bits do not get to the end of the data.
theorem source_end_le (hthree : 3 * defaultMaxFileBatchSize < data.length) (hb : b < batches data) :
    b * defaultMaxFileBatchSize % 2 ^ 32 + sourceLen data b ≤ data.length - 1 := by
  have hlen := mul_add_sourceLen hb
  by_cases hthird : b ≤ 2
  case pos =>
    have hsmall : b * defaultMaxFileBatchSize < 2 ^ 32 := by
      rw [max_eq]
      omega
    have hend : (b + 1) * defaultMaxFileBatchSize ≤ 3 * defaultMaxFileBatchSize :=
      Nat.mul_le_mul_right _ (by omega)
    rw [Nat.mod_eq_of_lt hsmall]
    omega
  case neg =>
    have hbegin : 3 * defaultMaxFileBatchSize ≤ b * defaultMaxFileBatchSize :=
      Nat.mul_le_mul_right _ (by omega)
    have hlarge : 2 ^ 32 < 3 * defaultMaxFileBatchSize := by decide
    have hmod := Nat.mod_lt (b * defaultMaxFileBatchSize) (show 0 < 2 ^ 32 by decide)
    omega

theorem decompressBatches_last (hlib : Lossless lib s coded) (hlt : ¬Overflows coded data)
    (hthree : 3 * defaultMaxFileBatchSize < data.length) {dataOut : List Byte} {k : Nat}
    (hk : k ≤ batches data) {r : Reading}
    (hrun : (List.range k).foldlM
      (decompressBatch lib (container coded data) data.length (batches data))
      { dataOut, bufferInOffset := 20 } = .ok r) :
    r.bufferInOffset = 20 + 16 * k ∧
      r.dataOut[data.length - 1]? = dataOut[data.length - 1]? := by
  induction k generalizing r with
  | zero =>
    cases hrun
    exact ⟨rfl, rfl⟩
  | succ k ih =>
    rw [List.range_succ, List.foldlM_append] at hrun
    have ⟨r', hrun, hlast⟩ := Outcome.bind_eq_ok.mp hrun
    have ⟨hoffset, hbyte⟩ := ih (by omega) hrun
    rw [List.foldlM_cons] at hlast
    have ⟨r'', hbatch, hr⟩ := Outcome.bind_eq_ok.mp hlast
    cases hr
    have ⟨hle, heq⟩ := (decompressBatch_eq_ok hlib hlt hk hoffset).mp hbatch
    have hlength := source_length (show k < batches data from hk)
    subst heq
    refine ⟨rfl, ?_⟩
    dsimp only
    rw [overwrite_behind (by rwa [hlength]) (by rw [hlength]; exact source_end_le hthree hk), hbyte]

theorem within_header : Within (container coded data) 0 (header data) := by
  rw [container, List.append_assoc]
  exact within_front _ _

theorem header_fields {buffer : List Byte} (h : Within buffer 0 (header data)) :
    Within buffer 0 (parameter 1 OperatorType.bzip2.toCode) ∧ Within buffer 1 (parameter 1 1) ∧
      Within buffer 4 (parameter 8 data.length) ∧ Within buffer 12 (parameter 8 (batches data)) := by
  have ⟨h, hbatches⟩ := h.append
  have ⟨h, hlen⟩ := h.append
  have ⟨h, _⟩ := h.append
  have ⟨htype, hversion⟩ := h.append
  simp only [List.length_append, parameter_length, makeCommonHeader_length, Nat.reduceAdd]
    at hbatches hlen hversion
  exact ⟨htype, hversion, hlen, hbatches⟩

theorem inverseOperate_eq (coded : List Byte → List Byte) (hdata : data.length < 2 ^ 62)
    (dataOut : List Byte) :
    inverseOperate lib (container coded data) dataOut =
      (List.range (batches data)).foldlM
          (decompressBatch lib (container coded data) data.length (batches data))
          { dataOut, bufferInOffset := 20 } >>= fun r =>
        if r.expectedSizeOut ≠ data.length then
          .error (.thrown "Operator" "CompressBZIP2" "DecompressV1" "corrupted bzip2 buffer")
        else
          .ok { size := data.length, dataOut := r.dataOut } := by
  have ⟨_, hversion, hlen, hbatches⟩ := header_fields (@within_header coded data)
  have hle : batches data ≤ data.length + 1 := Nat.succ_le_succ (Nat.div_le_self _ _)
  rw [inverseOperate, getParameter_of_within hversion (by decide), Outcome.ok_bind, if_pos rfl,
    decompressV1, getParameter_of_within hlen (by omega), Outcome.ok_bind,
    getParameter_of_within hbatches (by omega), Outcome.ok_bind]
  rfl

end InverseOperate

section Restores

variable {lib : Library} {s : Settings} {coded : List Byte → List Byte} {data : List Byte}
  {makeOperator : OperatorType → Outcome Operator} (parameters : Params)
  {parameters' : Params}

-- What is found in the container, by either operator.
theorem decompress_container (hmake : makeOperator .bzip2 = .ok (compressBZIP2 lib parameters'))
    (hdata : data.length < 2 ^ 62) (dataOut : List Byte) {reader : Option Operator}
    (hreader : reader ∈ [none, some (compressBZIP2 lib parameters)]) :
    decompress makeOperator reader (container coded data) dataOut =
      ((List.range (batches data)).foldlM
          (decompressBatch lib (container coded data) data.length (batches data))
          { dataOut, bufferInOffset := 20 } >>= fun r =>
        if r.expectedSizeOut ≠ data.length then
          .error (.thrown "Operator" "CompressBZIP2" "DecompressV1" "corrupted bzip2 buffer")
        else
          .ok { size := data.length, dataOut := r.dataOut }) >>= finish (container coded data) := by
  have ⟨htype, _⟩ := header_fields (@within_header coded data)
  have hcode : OperatorType.bzip2.toCode < 256 ^ 1 := by decide
  have hof : OperatorType.ofCode OperatorType.bzip2.toCode = .bzip2 := by decide
  refine decompress_eq (getParameter_of_within htype hcode) hof hmake (fun o ho => ?_) hreader
  rcases List.mem_pair.mp ho with rfl | rfl
  case inl => exact inverseOperate_eq coded hdata dataOut
  case inr => exact inverseOperate_eq coded hdata dataOut

theorem start_le (data : List Byte) : start data ≤ data.length + 128 := by
  have hle : data.length / defaultMaxFileBatchSize * 16 ≤ data.length :=
    (Nat.mul_le_mul_left _ (by decide)).trans (Nat.div_mul_le_self _ defaultMaxFileBatchSize)
  rw [start, batches]
  omega

-- What the batches up to the last one are of data of at most three full ones.
theorem decompress_three (hlib : Lossless lib s coded) (hlt : ¬Overflows coded data)
    (hmake : makeOperator .bzip2 = .ok (compressBZIP2 lib parameters'))
    (hdata : data.length < 2 ^ 62) (hthree : data.length ≤ 3 * defaultMaxFileBatchSize)
    {dataOut : List Byte} (hout : dataOut.length = data.length) {reader : Option Operator}
    (hreader : reader ∈ [none, some (compressBZIP2 lib parameters)]) :
    decompress makeOperator reader (container coded data) dataOut
      = finish (container coded data) { size := data.length, dataOut := data } := by
  have hall : min (batches data * defaultMaxFileBatchSize) data.length = data.length := by
    have hlt := Nat.lt_mul_div_succ data.length (show 0 < defaultMaxFileBatchSize by decide)
    rw [Nat.mul_comm] at hlt
    exact Nat.min_eq_right hlt.le
  rw [decompress_container parameters hmake hdata dataOut hreader,
    decompressBatches_eq hlib hlt hthree hout le_rfl, Outcome.ok_bind]
  dsimp only
  rw [hall, List.take_length, overwrite_all hout.symm, if_neg (fun h => h rfl), Outcome.ok_bind]

-- As long as the offsets of 32 bits reach over the container, blocks come back that have up to three
-- full batches of which none becomes longer. An empty block does not.
theorem restores_iff {parameters : Params} {b : Block} (hlib : Lossless lib s coded)
    (hsettings : settings parameters b.type = .ok s)
    (hmake : makeOperator .bzip2 = .ok (compressBZIP2 lib parameters'))
    (hlt : ¬Overflows coded b.data) :
    Restores makeOperator (compressBZIP2 lib parameters) b ↔
      0 < b.data.length ∧ b.data.length ≤ 3 * defaultMaxFileBatchSize ∧ Shrinks coded b.data := by
  have hlength := start_lt hlt le_rfl
  rw [← container_length] at hlength
  have hmarshal (bufferOut stored : List Byte) (hroom : bufferOut.length = b.data.length + 128) :=
    @marshal_eq_ok lib s coded b.data parameters b.count b.type bufferOut stored hlib hsettings b.size
      (hroom ▸ start_le b.data) hlt
  constructor
  case mp =>
    intro h
    have hroom : (List.replicate (b.data.length + 128) (0 : Byte)).length = b.data.length + 128 :=
      List.length_replicate
    have ⟨stored, hstored, hrestored⟩ := h _ (hroom.trans b.estimatedSize.symm)
    have ⟨hshrinks, _, heq⟩ := (hmarshal _ _ hroom).mp hstored
    subst heq
    refine ⟨Nat.pos_of_ne_zero fun hzero => ?_, Nat.le_of_not_lt fun hthree => ?_, hshrinks⟩
    case refine_1 =>
      -- a size of zero means that the operator has not been applied
      have hdata := hrestored.data b.data rfl none (by simp)
      rw [decompress_three parameters hlib hlt hmake b.lt (by omega) rfl
        List.mem_cons_self, finish, if_pos hzero] at hdata
      have ⟨_, _, hdata⟩ := Outcome.bind_eq_ok.mp hdata
      have ⟨_, _, hdata⟩ := Outcome.bind_eq_ok.mp hdata
      have hsize := congrArg Prod.fst (Except.ok.inj hdata)
      dsimp only at hsize
      have hstart : 0 < start b.data := by
        rw [start]
        omega
      rw [container_length] at hsize hlength
      omega
    case refine_2 =>
      have hlast : b.data.length - 1 < b.data.length := by omega
      have hdata := hrestored.data (b.data.set (b.data.length - 1) (b.data[b.data.length - 1] + 1))
        List.length_set none List.mem_cons_self
      rw [decompress_container parameters hmake b.lt _ List.mem_cons_self] at hdata
      have ⟨inverted, hinverted, hfinish⟩ := Outcome.bind_eq_ok.mp hdata
      have ⟨r, hrun, hinverted⟩ := Outcome.bind_eq_ok.mp hinverted
      have ⟨_, hbyte⟩ := decompressBatches_last hlib hlt hthree le_rfl hrun
      split at hinverted
      case isTrue => contradiction
      case isFalse =>
        cases hinverted
        rw [finish, if_neg (by exact (Nat.zero_lt_of_lt hlast).ne')] at hfinish
        have hout : r.dataOut = b.data := congrArg Prod.snd (Except.ok.inj hfinish)
        rw [hout, List.getElem?_set_self hlast, List.getElem?_eq_getElem hlast] at hbyte
        have hne : b.data[b.data.length - 1] ≠ b.data[b.data.length - 1] + 1 := by
          simp
        exact hne (Option.some.inj hbyte)
  case mpr =>
    rintro ⟨hpos, hthree, hshrinks⟩ bufferOut hroom
    rw [b.estimatedSize] at hroom
    have hbatches : batches b.data ≤ 4 := by
      have hdiv : b.data.length / defaultMaxFileBatchSize ≤ 3 :=
        Nat.div_le_of_le_mul (by rwa [Nat.mul_comm])
      rw [batches]
      omega
    have hcodes := codes_length_le hshrinks le_rfl
    have hfits : (container coded b.data).length ≤ b.data.length + 128 := by
      rw [container_length, start]
      omega
    refine ⟨_, (hmarshal bufferOut _ hroom).mpr ⟨hshrinks, by rw [hroom]; exact hfits, rfl⟩, ?_, ?_⟩
    case refine_1 => rwa [b.estimatedSize]
    case refine_2 =>
      intro dataOut hout reader hreader
      rw [decompress_three parameters hlib hlt hmake b.lt hthree hout hreader, finish, if_neg (by exact hpos.ne'),
        Outcome.pure_eq]

end Restores

end Operators.BZIP2
