import Adios2.Engine.BP5.Theorems.MetadataIndexRecords

-- Reading an index file while it grows: the steps that the reader has seen after any number of
-- looks at the file are those of a prefix of the writer's steps.

namespace BP5

open Bytes

-- What a reader is to know after a number of steps: how many there were, the writer map in force,
-- and the steps that are selected.
structure IndexView where
  absSteps : Nat := 0
  map      : WriterMapStruct := ⟨0, 0, 0, []⟩
  seen     : List SeenStep := []

def IndexStep.seen (s : IndexStep) (m : WriterMapStruct) : SeenStep where
  metadataPos  := s.metaDataPos
  metadataSize := s.metaDataSize
  flushCount   := s.flushCount
  writerMap    := m
  dataPos      := (List.range s.commSize).map s.writerNumbers

namespace IndexView

def addMap (v : IndexView) (s : IndexStep) : IndexView :=
  { v with map := s.mapStruct }

def addStep (p : ReaderParams) (v : IndexView) (s : IndexStep) : IndexView :=
  { v with
    absSteps := v.absSteps + 1
    seen     := if p.isSelected v.absSteps then v.seen ++ [s.seen v.map] else v.seen
  }

def next (p : ReaderParams) (v : IndexView) (s : IndexStep) : IndexView :=
  (if s.writerSubfileMap.isEmpty then v else v.addMap s).addStep p s

def after (p : ReaderParams) (steps : List IndexStep) : IndexView :=
  steps.foldl (next p) {}

end IndexView

variable {e : Endian} {p : ReaderParams} {buffer : List Byte} {v : IndexView} {s : IndexStep}

-- The members of the reader that survive a call agree with a view.
structure Tracks (v : IndexView) (r : IndexReader) : Prop where
  absSteps       : r.absStepsInFile = v.absSteps
  stepsCount     : r.stepsCount = v.seen.length
  index_length   : r.writerMapIndex.length = v.seen.length
  writerCount    : r.lastWriterCount = v.map.writerCount
  lastMap        : 0 < v.map.writerCount → r.writerMap r.lastMapStep = some v.map
  lastMapStep_le : r.lastMapStep ≤ r.stepsCount
  maps           : ∀ {i x}, v.seen[i]? = some x →
    ∃ j ≤ i, r.writerMapIndex[i]? = some j ∧ r.writerMap j = some x.writerMap

-- The table entry of a step leads to its numbers.
structure EntryHolds (e : Endian) (buffer : List Byte) (t : IndexTableEntry) (x : SeenStep) :
    Prop where
  metadataPos  : t.metadataPos = x.metadataPos
  metadataSize : t.metadataSize = x.metadataSize
  flushCount   : t.flushCount = x.flushCount
  writers      : x.dataPos.length = x.writerMap.writerCount
  numbers      : ∀ l ∈ x.dataPos, l.length = 2 * x.flushCount + 1 ∧ ∀ n ∈ l, n < 2 ^ 64
  holds        : Holds buffer t.dataPosPos (u64s e x.dataPos.flatten)

-- The state of the loop, where `base` steps were known before the call.
structure LoopInv (e : Endian) (buffer : List Byte) (base : Nat) (v : IndexView)
    (st : ParseState) : Prop where
  endian  : st.reader.minifooter.endian = e
  tracks  : Tracks v st.reader
  base_le : base ≤ v.seen.length
  keys    : st.reader.metadataIndexTable.map Prod.fst
    = List.range' base st.reader.metadataIndexTable.length
  entries : List.Forall₂ (EntryHolds e (buffer.take st.position))
    (st.reader.metadataIndexTable.map Prod.snd) (v.seen.drop base)
  size    : st.metadataSizeToRead = ((v.seen.drop base).map SeenStep.metadataSize).sum

namespace LoopInv

variable {base : Nat} {st : ParseState}

theorem advance (h : LoopInv e buffer base v st) {pos : Nat} (hpos : st.position ≤ pos)
    (nrec : Nat) : LoopInv e buffer base v { st with position := pos, nrec := nrec } :=
  { h with
    entries := h.entries.imp fun _ _ he => { he with holds := he.holds.take_mono hpos }
  }

theorem addWriterMap (h : LoopInv e buffer base v st) :
    LoopInv e buffer base (v.addMap s) (st.addWriterMap s.mapStruct) where
  endian := h.endian
  tracks := {
    absSteps       := h.tracks.absSteps
    stepsCount     := h.tracks.stepsCount
    index_length   := h.tracks.index_length
    writerCount    := rfl
    lastMap        := by simp [ParseState.addWriterMap, IndexView.addMap]
    lastMapStep_le := le_rfl
    maps           := by
      intro i x hx
      have hi : i < v.seen.length := (List.getElem?_eq_some_iff.mp hx).1
      have ⟨j, hj, hij, hm⟩ := h.tracks.maps hx
      -- The new map is stored behind the maps of all steps so far.
      have hne : j ≠ st.reader.stepsCount := by
        have := h.tracks.stepsCount
        omega
      exact ⟨j, hj, hij, by simp [ParseState.addWriterMap, hne, hm]⟩
  }
  base_le := h.base_le
  keys    := h.keys
  entries := h.entries.imp fun _ _ he => { he with
    holds := he.holds.take_mono (by simp only [ParseState.addWriterMap]; omega)
  }
  size    := h.size

-- What `addStep` leaves, field by field.

theorem addStep_position (st : ParseState) :
    (st.addStep p s).position
      = st.position + 24 + 8 * st.reader.lastWriterCount * (2 * s.flushCount + 1) := by
  simp only [ParseState.addStep, ParseState.selectStep, ParseState.skipStep,
    ParseState.pushFiltered]
  split <;> split <;> first | rfl | (split <;> rfl)

theorem addStep_selected (st : ParseState) (hp : p.isSelected st.reader.absStepsInFile) :
    ∃ i, (st.addStep p s).reader = { st.reader with
        absStepsInFile     := st.reader.absStepsInFile + 1
        writerMapIndex     := st.reader.writerMapIndex ++ [st.reader.lastMapStep]
        stepsCount         := st.reader.stepsCount + 1
        metadataIndexTable := st.reader.metadataIndexTable ++ [(st.reader.stepsCount, {
          posInMemory  := i
          metadataSize := s.metaDataSize
          flushCount   := s.flushCount
          dataPosPos   := st.position + 24
          metadataPos  := s.metaDataPos
        })]
      } ∧ (st.addStep p s).metadataSizeToRead = st.metadataSizeToRead + s.metaDataSize := by
  by_cases hn : st.n = 0
  · exact ⟨_, by simp [ParseState.addStep, ParseState.selectStep, hp, hn]; rfl⟩
  · exact ⟨_, by simp [ParseState.addStep, ParseState.selectStep, hp, hn]; rfl⟩

theorem addStep_skipped (st : ParseState) (hp : ¬ p.isSelected st.reader.absStepsInFile) :
    ∃ l, (st.addStep p s).reader = { st.reader with
        absStepsInFile       := st.reader.absStepsInFile + 1
        filteredMetadataInfo := l
      } ∧ (st.addStep p s).metadataSizeToRead = st.metadataSizeToRead := by
  refine ⟨(st.addStep p s).reader.filteredMetadataInfo, ?_⟩
  by_cases hn : st.n = 0 <;> by_cases hm : 0 < st.minfoSize <;>
    simp [ParseState.addStep, ParseState.skipStep, ParseState.pushFiltered, hp, hn, hm]

theorem entryHolds_step (hs : s.WellFormed) {t : IndexTableEntry} {m : WriterMapStruct}
    (hm : s.commSize = m.writerCount) (hpos : t.metadataPos = s.metaDataPos)
    (hsize : t.metadataSize = s.metaDataSize) (hflush : t.flushCount = s.flushCount)
    (hb : Holds buffer t.dataPosPos (u64s e ((List.range s.commSize).flatMap s.writerNumbers))) :
    EntryHolds e buffer t (s.seen m) where
  metadataPos  := hpos
  metadataSize := hsize
  flushCount   := hflush
  writers      := by simp [IndexStep.seen, hm]
  numbers      := by
    simp only [IndexStep.seen, List.mem_map, forall_exists_index, and_imp]
    rintro _ w _ rfl
    exact ⟨s.writerNumbers_length w, hs.writerNumbers_lt⟩
  holds        := hb

theorem addStep (h : LoopInv e buffer base v st) (hs : s.WellFormed)
    (hn : s.commSize = v.map.writerCount)
    (hb : Holds (buffer.take (st.addStep p s).position) (st.position + 24)
      (u64s e ((List.range s.commSize).flatMap s.writerNumbers))) :
    LoopInv e buffer base (v.addStep p s) (st.addStep p s) := by
  have habs := h.tracks.absSteps
  have hcount := h.tracks.stepsCount
  have hle : st.position ≤ (st.addStep p s).position := by
    rw [addStep_position]
    omega
  by_cases hp : p.isSelected st.reader.absStepsInFile
  case neg =>
    have ⟨l, hr, hsz⟩ := addStep_skipped (s := s) st hp
    have hv : v.addStep p s = { v with absSteps := v.absSteps + 1 } := by
      rw [habs] at hp
      simp [IndexView.addStep, hp]
    rw [hv]
    exact {
      endian := by
        rw [hr]
        exact h.endian
      tracks := by
        rw [hr]
        exact { h.tracks with absSteps := congrArg (· + 1) habs }
      base_le := h.base_le
      keys    := by simpa only [hr] using h.keys
      entries := by
        rw [hr]
        exact h.entries.imp fun _ _ he => { he with holds := he.holds.take_mono hle }
      size    := hsz.trans h.size
    }
  case pos =>
    have ⟨i, hr, hsz⟩ := addStep_selected (s := s) st hp
    have hv : v.addStep p s
        = { v with absSteps := v.absSteps + 1, seen := v.seen ++ [s.seen v.map] } := by
      rw [habs] at hp
      simp [IndexView.addStep, hp]
    have hmap := h.tracks.lastMap (hn ▸ hs.commSize_pos)
    have hlast := h.tracks.lastMapStep_le
    rw [hv]
    exact {
      endian := by
        rw [hr]
        exact h.endian
      tracks := by
        rw [hr]
        exact { h.tracks with
          absSteps       := congrArg (· + 1) habs
          stepsCount     := by simp [hcount]
          index_length   := by simp [h.tracks.index_length]
          lastMapStep_le := Nat.le_succ_of_le hlast
          maps           := by
            intro i x hx
            rcases Nat.lt_or_ge i v.seen.length with hi | hi
            · rw [List.getElem?_append_left hi] at hx
              rw [List.getElem?_append_left (h.tracks.index_length ▸ hi)]
              exact h.tracks.maps hx
            · rw [List.getElem?_append_right hi] at hx
              have ⟨hi', hx⟩ := List.getElem?_eq_some_iff.mp hx
              have hil : i = st.reader.writerMapIndex.length := by
                rw [h.tracks.index_length]
                simp only [List.length_singleton] at hi'
                omega
              refine ⟨st.reader.lastMapStep, by omega, by simp [hil], ?_⟩
              rw [hmap, ← hx, List.getElem_singleton, IndexStep.seen]
        }
      base_le := by simpa using Nat.le_succ_of_le h.base_le
      keys    := by
        have hlen := congrArg List.length h.keys
        have := h.entries.length_eq
        have hb := h.base_le
        rw [hr, List.map_append, h.keys, List.length_append, List.length_singleton,
          List.range'_concat]
        simp at this
        simp
        omega
      entries := by
        rw [hr, List.map_append, List.drop_append_of_le_length h.base_le]
        refine List.rel_append ?_ ?_
        · exact h.entries.imp fun _ _ he => { he with holds := he.holds.take_mono hle }
        · exact .cons (entryHolds_step hs hn rfl rfl rfl hb) .nil
      size    := by
        rw [hsz, h.size, List.drop_append_of_le_length h.base_le]
        simp [IndexStep.seen]
    }

end LoopInv

-- The writer writes one or two records for a step.
inductive IndexRecord
  | writerMap (s : IndexStep)
  | step (s : IndexStep)

namespace IndexRecord

def bytes (e : Endian) : IndexRecord → List Byte
  | writerMap s => writerMapRecordBytes e s
  | step s      => stepRecordBytes e s

def addTo (p : ReaderParams) (v : IndexView) : IndexRecord → IndexView
  | writerMap s => v.addMap s
  | step s      => v.addStep p s

-- A record can follow when there are `n` writers.
def Follows (n : Nat) : IndexRecord → Prop
  | writerMap s => s.WellFormed ∧ s.writerSubfileMap ≠ []
  | step s      => s.WellFormed ∧ s.commSize = n

def writers (n : Nat) : IndexRecord → Nat
  | writerMap s => s.commSize
  | step _      => n

def AllFollow : Nat → List IndexRecord → Prop
  | _, []      => True
  | n, r :: rs => r.Follows n ∧ AllFollow (r.writers n) rs

theorem bytes_pos (e : Endian) (r : IndexRecord) : 0 < (r.bytes e).length := by
  cases r <;> simp [bytes, writerMapRecordBytes, stepRecordBytes, recordBytes_length]

theorem writers_addTo (v : IndexView) (r : IndexRecord) :
    (r.addTo p v).map.writerCount = r.writers v.map.writerCount := by
  cases r <;> rfl

theorem Follows.bytes_eq {n : Nat} {r : IndexRecord} (h : r.Follows n) :
    ∃ recordID numbers, r.bytes e = recordBytes e recordID numbers ∧
      numbers.length * 8 < 2 ^ 64 := by
  cases r
  case writerMap s =>
    have ⟨hs, hm⟩ := h
    have := hs.commSize_lt
    refine ⟨_, _, rfl, ?_⟩
    rw [hs.writerMapNumbers_length hm]
    omega
  case step s =>
    have ⟨hs, _⟩ := h
    have := hs.recordSize_lt
    refine ⟨_, _, rfl, ?_⟩
    rw [IndexStep.stepRecordSize] at this
    rw [s.stepNumbers_length]
    omega

end IndexRecord

namespace LoopInv

variable {base : Nat} {st : ParseState}

-- A complete record is taken, and what is known afterwards includes it.
theorem parseRecord (h : LoopInv e buffer base v st) {r : IndexRecord}
    (hr : r.Follows v.map.writerCount) (hb : Holds buffer st.position (r.bytes e)) :
    ∃ st', ParseState.parseRecord buffer p st = .ok (some st') ∧
      LoopInv e buffer base (r.addTo p v) st' ∧
      st'.position = st.position + (r.bytes e).length := by
  have he := h.endian
  have h₉ := h.advance (Nat.le_add_right _ 9) st.nrec
  cases r
  case writerMap s =>
    obtain ⟨hs, hm⟩ := hr
    have hlen := hs.writerMapNumbers_length hm
    have hn := hs.commSize_lt
    let st' := ParseState.addWriterMap { st with position := st.position + 9 } s.mapStruct
    have hpos : st'.position = st.position + 9 + s.writerMapNumbers.length * 8 := by
      simp only [st', ParseState.addWriterMap, IndexStep.mapStruct, hlen]
      ring
    refine ⟨_, ParseState.parseRecord_of_holds (by omega) he hb (fun hbody => ?_) hpos, ?_, ?_⟩
    · exact ParseState.parseWriterMap_eq hs hm he hbody
    · exact h₉.addWriterMap.advance le_rfl _
    · simp only [IndexRecord.bytes, writerMapRecordBytes, recordBytes_length, hpos]
      omega
  case step s =>
    obtain ⟨hs, hn⟩ := hr
    have hlen := s.stepNumbers_length
    have hsize := hs.recordSize_lt
    have hflush : s.flushCount < 2 ^ 64 := by
      have := Nat.le_mul_of_pos_right (s.flushCount * 2 + 1) hs.commSize_pos
      rw [IndexStep.stepRecordSize] at hsize
      omega
    let st' := ParseState.addStep p { st with position := st.position + 9 } s
    have hpos : st'.position = st.position + 9 + s.stepNumbers.length * 8 := by
      simp only [st', addStep_position, hlen, h.tracks.writerCount, ← hn]
      ring
    refine ⟨_, ParseState.parseRecord_of_holds ?_ he hb (fun hbody => ?_) hpos, ?_, ?_⟩
    · rw [IndexStep.stepRecordSize] at hsize
      omega
    · exact ParseState.parseStep_eq hs hflush he hbody
    · refine (h₉.addStep hs hn ?_).advance le_rfl _
      have hb' := hb
      simp only [IndexRecord.bytes, stepRecordBytes, recordBytes, IndexStep.stepNumbers,
        u64s_append, holds_append] at hb'
      have hdata : Holds buffer (st.position + 9 + 24)
          (u64s e ((List.range s.commSize).flatMap s.writerNumbers)) := by
        simpa [Nat.add_assoc] using hb'.2.2
      apply hdata.take
      rw [hpos, IndexStep.stepNumbers, u64s_length, List.length_append, List.length_cons,
        List.length_cons, List.length_cons, List.length_nil]
      omega
    · simp only [IndexRecord.bytes, stepRecordBytes, recordBytes_length, hpos]
      omega

-- The loop takes the complete records, or stops early with as much metadata as is allowed.
theorem parseRecords (h : LoopInv e buffer base v st) {rest : List IndexRecord}
    (hr : IndexRecord.AllFollow v.map.writerCount rest) {fuel : Nat}
    (hfuel : buffer.length ≤ st.position + fuel)
    (hb : buffer.drop st.position <+: rest.flatMap (IndexRecord.bytes e)) :
    ∃ k st', k ≤ rest.length ∧ ParseState.parseRecords buffer p fuel st = .ok st' ∧
      LoopInv e buffer base ((rest.take k).foldl (IndexRecord.addTo p) v) st' ∧
      st'.position = st.position + ((rest.take k).flatMap (IndexRecord.bytes e)).length ∧
      st'.position ≤ max buffer.length st.position ∧
      (k = rest.length ∨ p.maxMetadataSizeInMemory ≤ st'.metadataSizeToRead ∨ buffer.length
        < st.position + ((rest.take (k + 1)).flatMap (IndexRecord.bytes e)).length) := by
  induction fuel generalizing st v rest with
  | zero =>
    refine ⟨0, st, Nat.zero_le _, rfl, by simpa using h, by simp, by simp, ?_⟩
    cases rest with
    | nil => simp
    | cons r rest =>
      have := r.bytes_pos e
      simp
      omega
  | succ fuel ih =>
    by_cases hc : st.position < buffer.length ∧ st.metadataSizeToRead < p.maxMetadataSizeInMemory
    case neg =>
      refine ⟨0, st, Nat.zero_le _, by simp [ParseState.parseRecords, hc], by simpa using h,
        by simp, by simp, ?_⟩
      cases rest with
      | nil => simp
      | cons r rest =>
        have := r.bytes_pos e
        simp
        omega
    case pos =>
      cases rest with
      | nil =>
        have := List.prefix_nil.mp hb
        rw [List.drop_eq_nil_iff] at this
        omega
      | cons r rest =>
        rw [List.flatMap_cons] at hb
        have ⟨hf, hr'⟩ := hr
        by_cases hl : st.position + (r.bytes e).length ≤ buffer.length
        case neg =>
          have hpart : ParseState.parseRecord buffer p st = .ok none := by
            have ⟨_, _, hrec, hlen⟩ := hf.bytes_eq (e := e)
            apply ParseState.parseRecord_of_partial hlen h.endian
            · rw [← hrec]
              apply List.prefix_of_prefix_length_le hb (List.prefix_append _ _)
              rw [List.length_drop]
              omega
            · rw [← hrec]
              omega
          refine ⟨0, st, Nat.zero_le _, by simp [ParseState.parseRecords, hc, hpart],
            by simpa using h, by simp, by simp, ?_⟩
          simp
          omega
        case pos =>
          have ⟨st₁, hst₁, h₁, hpos⟩ := h.parseRecord (p := p) hf (holds_of_prefix_append hb hl)
          have hb' := drop_prefix_of_append hb hl
          have hbytes := r.bytes_pos e
          rw [← hpos] at hb'
          rw [← IndexRecord.writers_addTo (p := p)] at hr'
          have ⟨k, st', hk, hst', h', hpos', hle, hstop⟩ := ih h₁ hr' (by omega) hb'
          refine ⟨k + 1, st', Nat.succ_le_succ hk, ?_, h', ?_, ?_, ?_⟩
          · simp [ParseState.parseRecords, hc, hst₁, hst']
          · simp [hpos', hpos, Nat.add_assoc]
          · omega
          · simp only [List.length_cons, List.take_succ_cons, List.flatMap_cons,
              List.length_append]
            omega

end LoopInv

namespace IndexReader

variable {r : IndexReader}

-- What is looked up for a table entry is the step that it was made for.
theorem seenStep_eq (h : Tracks v r) {i : Nat} {x : SeenStep} {t : IndexTableEntry}
    (hx : v.seen[i]? = some x) (ht : EntryHolds r.minifooter.endian r.metadataIndex t x) :
    r.seenStep (i, t) = some x := by
  have ⟨j, _, hij, hm⟩ := h.maps hx
  have hdata : (List.range x.writerMap.writerCount).mapM (r.dataPosOf t) = some x.dataPos := by
    apply List.mapM_range_eq_some ht.writers.symm
    intro w row hw
    have ⟨hlen, hlt⟩ := ht.numbers row (List.mem_of_getElem? hw)
    have hrow := holds_u64s_row (fun r hr => (ht.numbers r hr).1) ht.holds hw
    rw [dataPosOf, ht.flushCount, ← hlen]
    rw [← hlen] at hrow
    exact readUInts_u64s hrow hlt
  simp only [seenStep, hij, hm, Option.bind_eq_bind, Option.bind_some, hdata]
  cases x
  simp only [ht.metadataPos, ht.metadataSize, ht.flushCount]
  rfl

end IndexReader

theorem LoopInv.seen {base : Nat} {st : ParseState} (h : LoopInv e buffer base v st)
    {r : IndexReader} (hr : Tracks v r) (he : r.minifooter.endian = e)
    (htable : r.metadataIndexTable = st.reader.metadataIndexTable)
    (hidx : r.metadataIndex = IndexReader.resize buffer st.position) :
    r.metadataIndexTable.mapM r.seenStep = some (v.seen.drop base) := by
  rw [List.mapM_eq_some_iff_forall₂, htable, List.forall₂_iff_get]
  have hlen := h.entries.length_eq
  rw [List.length_map] at hlen
  refine ⟨hlen, fun j h₁ h₂ => ?_⟩
  have hkey : st.reader.metadataIndexTable[j].1 = base + j := by
    have hk := congrArg (fun l => l[j]?) h.keys
    simpa [h₁, List.getElem?_range'] using hk
  have hentry := h.entries.get (i := j) (by simpa using h₁) h₂
  have hx : v.seen[base + j]? = some ((v.seen.drop base)[j]) := by
    rw [List.getElem_drop, List.getElem?_eq_getElem]
  have hresize : EntryHolds e r.metadataIndex st.reader.metadataIndexTable[j].2
      (v.seen.drop base)[j] := by
    simp only [List.get_eq_getElem, List.getElem_map] at hentry
    exact { hentry with holds := hidx ▸ hentry.holds.append_right _ }
  rw [← he] at hresize
  have := r.seenStep_eq hr hx hresize
  rwa [← hkey] at this

def viewOf (p : ReaderParams) (all : List IndexRecord) (k : Nat) : IndexView :=
  (all.take k).foldl (IndexRecord.addTo p) {}

theorem viewOf_add (all : List IndexRecord) (k j : Nat) :
    viewOf p all (k + j) = ((all.drop k).take j).foldl (IndexRecord.addTo p) (viewOf p all k) := by
  rw [viewOf, viewOf, List.take_add, List.foldl_append]

theorem IndexRecord.seen_prefix (v : IndexView) (rs : List IndexRecord) :
    v.seen <+: (rs.foldl (addTo p) v).seen := by
  induction rs generalizing v with
  | nil => exact List.prefix_rfl
  | cons r rs ih =>
    refine .trans ?_ (ih <| r.addTo p v)
    cases r
    case writerMap => exact List.prefix_rfl
    case step s =>
      simp only [addTo, IndexView.addStep]
      split
      · exact List.prefix_append _ _
      · exact List.prefix_rfl

-- A reader between two calls, of which the calls before have taken `k` records.
structure Polled (e : Endian) (p : ReaderParams) (all : List IndexRecord) (k : Nat)
    (r : IndexReader) : Prop where
  tracks   : Tracks (viewOf p all k) r
  le       : k ≤ all.length
  position : r.mdIndexFileAlreadyReadSize = 0 ∧ k = 0 ∨
    r.minifooter.endian = e ∧ r.mdIndexFileAlreadyReadSize
      = indexHeaderSize + ((all.take k).flatMap (IndexRecord.bytes e)).length

theorem IndexRecord.AllFollow.drop {all : List IndexRecord}
    (h : AllFollow v.map.writerCount all) (k : Nat) :
    AllFollow ((all.take k).foldl (addTo p) v).map.writerCount (all.drop k) := by
  induction k generalizing all v with
  | zero => simpa using h
  | succ k ih =>
    cases all with
    | nil => trivial
    | cons r all =>
      have ⟨_, h⟩ := h
      rw [← writers_addTo (p := p)] at h
      simpa using ih h

namespace IndexReader

variable {r : IndexReader} {rest : List IndexRecord}

-- One call, from the position where the records begin.
theorem parseRecords_seen (h : Tracks v r) (he : r.minifooter.endian = e)
    (hr : IndexRecord.AllFollow v.map.writerCount rest) {pos : Nat}
    (hb : buffer.drop pos <+: rest.flatMap (IndexRecord.bytes e)) :
    ∃ k st, k ≤ rest.length ∧ ParseState.parseRecords buffer p buffer.length {
        reader   := { r with metadataIndexTable := [], filteredMetadataInfo := [] }
        position := pos
      } = .ok st ∧
      LoopInv e buffer v.seen.length ((rest.take k).foldl (IndexRecord.addTo p) v) st ∧
      st.position = pos + ((rest.take k).flatMap (IndexRecord.bytes e)).length ∧
      st.position ≤ max buffer.length pos ∧
      (k = rest.length ∨ p.maxMetadataSizeInMemory ≤ st.metadataSizeToRead ∨ buffer.length
        < pos + ((rest.take (k + 1)).flatMap (IndexRecord.bytes e)).length) := by
  have hinv : LoopInv e buffer v.seen.length v {
        reader   := { r with metadataIndexTable := [], filteredMetadataInfo := [] }
        position := pos
      } := {
    endian  := he
    tracks  := { h with }
    base_le := le_rfl
    keys    := rfl
    entries := by simp
    size    := by simp
  }
  exact hinv.parseRecords hr (Nat.le_add_left _ _) hb

theorem poll_of_updateBuffer {v' : IndexView} {st : ParseState} {visible : List Byte}
    {r' : IndexReader} (hv : Tracks v r) (hinv : LoopInv e buffer v.seen.length v' st)
    {l : List (Nat × Nat)} {n : Nat} (hr' : r' = { st.reader with
      filteredMetadataInfo := l
      metadataIndex := resize buffer st.position
      mdIndexFileAlreadyReadSize := n
    }) (hu : r.updateBuffer p visible = .ok r') :
    r.poll p visible = .ok (r', v'.seen.drop v.seen.length) := by
  have ht : Tracks v' r' := by
    rw [hr']
    exact { hinv.tracks with }
  have hseen := hinv.seen ht (hr' ▸ hinv.endian) (hr' ▸ rfl) (hr' ▸ rfl)
  simp only [poll, hu, Outcome.ok_bind, hseen, Option.orUndefined_some, hv.stepsCount,
    ht.stepsCount]
  split
  case isTrue => rfl
  case isFalse h =>
    rw [List.drop_eq_nil_of_le (by omega)]
    rfl

theorem pushFiltered_reader (st : ParseState) :
    ∃ l, st.pushFiltered.reader = { st.reader with filteredMetadataInfo := l } := by
  unfold ParseState.pushFiltered
  split
  · exact ⟨_, rfl⟩
  · exact ⟨_, rfl⟩

variable {h : HeaderInfo} {all : List IndexRecord} {k : Nat}

-- A look that finds new bytes, with `r₀` the reader once the header is out of the way.
theorem poll_of_start {r₀ : IndexReader} {visible : List Byte} {pos : Nat}
    (hv : Tracks (viewOf p all k) r) (hv₀ : Tracks (viewOf p all k) r₀)
    (he : r₀.minifooter.endian = e) (hall : IndexRecord.AllFollow 0 all)
    (hne : visible.drop r.mdIndexFileAlreadyReadSize ≠ [])
    (hstart : r.parseStart p (visible.drop r.mdIndexFileAlreadyReadSize)
      (r.mdIndexFileAlreadyReadSize = 0) = .ok r₀)
    (hpos : (if r.mdIndexFileAlreadyReadSize = 0 then indexHeaderSize else 0) = pos)
    (hb : (visible.drop r.mdIndexFileAlreadyReadSize).drop pos
      <+: (all.drop k).flatMap (IndexRecord.bytes e)) :
    ∃ j r' seen, r.poll p visible = .ok (r', seen) ∧ j ≤ (all.drop k).length ∧ Tracks (viewOf p all (k + j)) r' ∧
      r'.minifooter.endian = e ∧
      r'.mdIndexFileAlreadyReadSize = r.mdIndexFileAlreadyReadSize + pos
        + (((all.drop k).take j).flatMap (IndexRecord.bytes e)).length ∧
      (viewOf p all (k + j)).seen = (viewOf p all k).seen ++ seen ∧
      r'.mdIndexFileAlreadyReadSize ≤ max visible.length (r.mdIndexFileAlreadyReadSize + pos) ∧
      (j = (all.drop k).length ∨
        p.maxMetadataSizeInMemory ≤ (seen.map SeenStep.metadataSize).sum ∨ visible.length
          < r.mdIndexFileAlreadyReadSize + pos
            + (((all.drop k).take (j + 1)).flatMap (IndexRecord.bytes e)).length) := by
  have hlt := List.length_pos_iff.mpr hne
  have ⟨j, st, hj, hst, hinv, hstpos, hle, hstop⟩ := parseRecords_seen (p := p) hv₀ he
    (hall.drop (v := {}) k) hb
  have ⟨l, hl⟩ := pushFiltered_reader st
  have hlen : (visible.drop r.mdIndexFileAlreadyReadSize).length
      = visible.length - r.mdIndexFileAlreadyReadSize := List.length_drop
  rw [hlen] at hlt hle hstop
  rw [← viewOf_add] at hinv
  let r' := { st.reader with
    filteredMetadataInfo := l
    metadataIndex := resize (visible.drop r.mdIndexFileAlreadyReadSize) st.position
    mdIndexFileAlreadyReadSize := r.mdIndexFileAlreadyReadSize + st.position
  }
  have hu : r.updateBuffer p visible = .ok r' := by
    have hne' : (visible.drop r.mdIndexFileAlreadyReadSize).isEmpty = false := by
      simpa using hne
    simp only [updateBuffer, hne', parseMetadataIndex, hstart, decide_eq_true_eq, hpos,
      Outcome.ok_bind, hst, hl, Outcome.pure_eq, Bool.false_eq_true, if_false]
    rfl
  have hpoll := poll_of_updateBuffer hv hinv rfl hu
  have hseen := List.prefix_iff_eq_append.mp <|
    IndexRecord.seen_prefix (p := p) (viewOf p all k) ((all.drop k).take j)
  rw [← viewOf_add] at hseen
  refine ⟨j, r', _, hpoll, hj, { hinv.tracks with }, hinv.endian, ?_, hseen.symm, ?_, ?_⟩
  · simp only [r', hstpos]
    omega
  · simp only [r']
    omega
  · rw [← hinv.size]
    omega

-- One look at the file: more complete records are taken, and the steps of these are new. Of the
-- header only the part that the parser reads matters.
theorem poll_of_visible (hr : Polled e p all k r) (hall : IndexRecord.AllFollow 0 all)
    {visible : List Byte}
    (hrecords : visible.drop indexHeaderSize <+: all.flatMap (IndexRecord.bytes e))
    (hheader : r.mdIndexFileAlreadyReadSize = 0 → visible ≠ [] → ∃ r₀,
      r.parseHeader p visible = .ok r₀ ∧ Tracks (viewOf p all k) r₀ ∧ r₀.minifooter.endian = e) :
    ∃ k' r' seen, r.poll p visible = .ok (r', seen) ∧ Polled e p all k' r' ∧
      (viewOf p all k').seen = (viewOf p all k).seen ++ seen ∧ k ≤ k' ∧
      (k < k' → indexHeaderSize + ((all.take k').flatMap (IndexRecord.bytes e)).length
        ≤ visible.length) ∧
      (k' = all.length ∨
        p.maxMetadataSizeInMemory ≤ (seen.map SeenStep.metadataSize).sum ∨ visible.length
          < indexHeaderSize + ((all.take (k' + 1)).flatMap (IndexRecord.bytes e)).length) := by
  have hsize (i : Nat) : ((all.take (k + i)).flatMap (IndexRecord.bytes e)).length
      = ((all.take k).flatMap (IndexRecord.bytes e)).length
        + (((all.drop k).take i).flatMap (IndexRecord.bytes e)).length := by
    rw [List.take_add, List.flatMap_append, List.length_append]
  have hdrop : visible.drop (indexHeaderSize + ((all.take k).flatMap (IndexRecord.bytes e)).length)
      <+: (all.drop k).flatMap (IndexRecord.bytes e) := by
    have hsplit : all.flatMap (IndexRecord.bytes e)
        = (all.take k).flatMap (IndexRecord.bytes e)
          ++ (all.drop k).flatMap (IndexRecord.bytes e) := by
      rw [← List.flatMap_append, List.take_append_drop]
    rw [hsplit] at hrecords
    rw [← List.drop_drop]
    simpa only [List.drop_left] using
      hrecords.drop ((all.take k).flatMap (IndexRecord.bytes e)).length
  by_cases hne : visible.drop r.mdIndexFileAlreadyReadSize = []
  case pos =>
    have hpoll : r.poll p visible = .ok ({ r with metadataIndex := [] }, []) := by
      simp [poll, updateBuffer, hne]
    refine ⟨k, _, [], hpoll, ⟨{ hr.tracks with }, hr.le, hr.position⟩, by simp, le_rfl, by simp, ?_⟩
    have hle : visible.length ≤ r.mdIndexFileAlreadyReadSize := by
      simpa [List.drop_eq_nil_iff] using hne
    rcases hr.position with ⟨h₀, _⟩ | ⟨_, hpos⟩
    · right; right
      simp only [indexHeaderSize]
      omega
    · cases hrest : all.drop k with
      | nil =>
        have := List.drop_eq_nil_iff.mp hrest
        have := hr.le
        omega
      | cons x rest =>
        have := x.bytes_pos e
        have h₁ := hsize 1
        simp only [hrest, List.take_succ_cons, List.take_zero, List.flatMap_cons,
          List.flatMap_nil, List.append_nil] at h₁
        omega
  case neg =>
    have hcase : ∃ r₀ pos, Tracks (viewOf p all k) r₀ ∧ r₀.minifooter.endian = e ∧
        r.parseStart p (visible.drop r.mdIndexFileAlreadyReadSize)
          (r.mdIndexFileAlreadyReadSize = 0) = .ok r₀ ∧
        (if r.mdIndexFileAlreadyReadSize = 0 then indexHeaderSize else 0) = pos ∧
        r.mdIndexFileAlreadyReadSize + pos
          = indexHeaderSize + ((all.take k).flatMap (IndexRecord.bytes e)).length := by
      rcases hr.position with ⟨h₀, rfl⟩ | ⟨he, hpos⟩
      · obtain ⟨r₀, hparse, ht₀, he₀⟩ := hheader h₀ fun hnil => hne (by rw [hnil, List.drop_nil])
        exact ⟨r₀, _, ht₀, he₀, by simpa [parseStart, h₀] using hparse, rfl, by simp [h₀]⟩
      · have hne₀ : r.mdIndexFileAlreadyReadSize ≠ 0 := by
          simp only [indexHeaderSize] at hpos
          omega
        exact ⟨r, 0, hr.tracks, he, by simp [parseStart, hne₀], by simp [hne₀], hpos⟩
    obtain ⟨r₀, pos, ht₀, he₀, hstart, hpos, hsum⟩ := hcase
    have hb : (visible.drop r.mdIndexFileAlreadyReadSize).drop pos
        <+: (all.drop k).flatMap (IndexRecord.bytes e) := by
      rwa [List.drop_drop, hsum]
    obtain ⟨j, r', seen, hpoll, hj, ht, he, hpos', hseen, hle, hstop⟩ :=
      poll_of_start hr.tracks ht₀ he₀ hall hne hstart hpos hb
    rw [hsum, Nat.add_assoc, ← hsize] at hpos'
    refine ⟨k + j, r', seen, hpoll, ⟨ht, ?_, .inr ⟨he, hpos'⟩⟩, hseen, Nat.le_add_right _ _, ?_, ?_⟩
    · have := hr.le
      rw [List.length_drop] at hj
      omega
    · intro hlt
      have hj' := hsize j
      cases hrest : all.drop k with
      | nil =>
        rw [hrest, List.length_nil] at hj
        omega
      | cons x rest =>
        have := x.bytes_pos e
        obtain ⟨i, rfl⟩ : ∃ i, j = i + 1 := ⟨j - 1, by omega⟩
        rw [hrest, List.take_succ_cons, List.flatMap_cons, List.length_append] at hj'
        omega
    · have := hr.le
      have := hsize (j + 1)
      rw [List.length_drop, hsum] at hstop
      rw [Nat.add_assoc k j 1]
      omega

theorem parseHeader_of_prefix {file : List Byte} (ht : Tracks v r)
    (hfile : file <+: headerBytes e h ++ all.flatMap (IndexRecord.bytes e))
    (hlen : headerEnd ≤ file.length) :
    ∃ r₀, r.parseHeader p file = .ok r₀ ∧ Tracks v r₀ ∧ r₀.minifooter.endian = e := by
  have hfront : Holds file 0 (headerFront e h) := by
    have hpre : file.drop 0
        <+: headerFront e h ++ (.replicate 18 0 ++ all.flatMap (IndexRecord.bytes e)) := by
      rwa [List.drop_zero, ← List.append_assoc, ← headerBytes_eq]
    apply holds_of_prefix_append hpre
    rw [headerFront_length]
    omega
  exact ⟨r.withHeader p e h, parseHeader_of_holds hfront, { ht with }, rfl⟩

theorem poll_eq (hr : Polled e p all k r) (hall : IndexRecord.AllFollow 0 all) {file : List Byte}
    (hfile : file <+: headerBytes e h ++ all.flatMap (IndexRecord.bytes e)) {size : Nat}
    (hvis : file.take size ≠ [] → headerEnd ≤ (file.take size).length) :
    ∃ k' r' seen, r.poll p (file.take size) = .ok (r', seen) ∧ Polled e p all k' r' ∧
      (viewOf p all k').seen = (viewOf p all k).seen ++ seen ∧ k ≤ k' ∧
      (k < k' → indexHeaderSize + ((all.take k').flatMap (IndexRecord.bytes e)).length
        ≤ (file.take size).length) ∧
      (k' = all.length ∨
        p.maxMetadataSizeInMemory ≤ (seen.map SeenStep.metadataSize).sum ∨ (file.take size).length
          < indexHeaderSize + ((all.take (k' + 1)).flatMap (IndexRecord.bytes e)).length) := by
  have hvisible := (List.take_prefix size file).trans hfile
  apply poll_of_visible hr hall
  · rw [← headerBytes_length e h]
    simpa only [List.drop_left] using hvisible.drop (headerBytes e h).length
  · intro _ hne
    exact parseHeader_of_prefix hr.tracks hvisible (hvis hne)

end IndexReader

namespace IndexReader

variable {r : IndexReader} {h : HeaderInfo} {all : List IndexRecord} {k : Nat} {file : List Byte}

theorem polls_cons {r₁ r' : IndexReader} {size : Nat} {sizes : List Nat} {new : List SeenStep}
    {seen : List (List SeenStep)} (h₁ : r.poll p (file.take size) = .ok (r₁, new))
    (h₂ : polls p file r₁ sizes = .ok (r', seen)) :
    polls p file r (size :: sizes) = .ok (r', new :: seen) := by
  rw [polls, h₁, Outcome.ok_bind]
  simp only [h₂, Outcome.ok_bind, Outcome.pure_eq]

-- A whole run, from what one look does.
theorem polls_eq (hr : Polled e p all k r) (hall : IndexRecord.AllFollow 0 all)
    (hfile : file <+: headerBytes e h ++ all.flatMap (IndexRecord.bytes e)) {sizes : List Nat}
    (hsizes : sizes.Pairwise (· ≤ ·))
    (hvis : ∀ size ∈ sizes, file.take size ≠ [] → headerEnd ≤ (file.take size).length)
    (hfit : k = 0 ∨ ∀ size ∈ sizes, indexHeaderSize
      + ((all.take k).flatMap (IndexRecord.bytes e)).length ≤ (file.take size).length) :
    ∃ k' r' seen, polls p file r sizes = .ok (r', seen) ∧ k' ≤ all.length ∧
      (viewOf p all k').seen = (viewOf p all k).seen ++ seen.flatten ∧
      ∀ last, sizes.getLast? = some last →
        (k' = 0 ∨ indexHeaderSize + ((all.take k').flatMap (IndexRecord.bytes e)).length
          ≤ (file.take last).length) ∧
        (k' = all.length ∨
          p.maxMetadataSizeInMemory ≤ ((seen.getLastD []).map SeenStep.metadataSize).sum ∨
          (file.take last).length < indexHeaderSize
            + ((all.take (k' + 1)).flatMap (IndexRecord.bytes e)).length) := by
  induction sizes generalizing k r with
  | nil => exact ⟨k, r, [], rfl, hr.le, by simp, by simp⟩
  | cons size sizes ih =>
    have ⟨hle, hsizes⟩ := List.pairwise_cons.mp hsizes
    have ⟨k₁, r₁, new, hpoll, hr₁, hseen₁, hk₁, hfit₁, hstop₁⟩ :=
      poll_eq (p := p) hr hall hfile <| hvis size List.mem_cons_self
    have hmono {size'} (h : size ≤ size') : (file.take size).length ≤ (file.take size').length := by
      simp only [List.length_take]
      omega
    have hfit' : k₁ = 0 ∨ indexHeaderSize
        + ((all.take k₁).flatMap (IndexRecord.bytes e)).length ≤ (file.take size).length := by
      rcases Nat.lt_or_eq_of_le hk₁ with hlt | rfl
      · exact .inr <| hfit₁ hlt
      · exact hfit.imp_right (· size List.mem_cons_self)
    cases sizes with
    | nil =>
      refine ⟨k₁, r₁, [new], polls_cons hpoll rfl, hr₁.le, by simp [hseen₁], ?_⟩
      rintro _ ⟨⟩
      exact ⟨hfit', hstop₁⟩
    | cons size' sizes =>
      have ⟨k', r', seen, hpolls, hk', hseen', hlast⟩ := ih hr₁ hsizes
        (fun size' h' => hvis size' <| List.mem_cons_of_mem _ h')
        (hfit'.imp_right fun h size' hs' => h.trans <| hmono <| hle size' hs')
      refine ⟨k', r', new :: seen, polls_cons hpoll hpolls, hk', ?_, ?_⟩
      · simp [hseen', hseen₁]
      · intro last hl
        have hne : seen ≠ [] := by
          rintro rfl
          simp only [polls, Outcome.bind_eq_ok, Outcome.pure_eq] at hpolls
          obtain ⟨_, _, _, _, h⟩ := hpolls
          cases h
        have hlast' := hlast last (by simpa using hl)
        cases seen with
        | nil => contradiction
        | cons s seen => exact hlast'

end IndexReader

namespace IndexStep

def records (s : IndexStep) : List IndexRecord :=
  (if s.writerSubfileMap.isEmpty then [] else [.writerMap s]) ++ [.step s]

-- The steps of a run of the writer, from a step with `n` ranks on and with the metadata behind
-- `pos` bytes of it. A step without a map has the ranks of the step before.
def Continues : Nat → Nat → List IndexStep → Prop
  | _, _, []          => True
  | n, pos, s :: rest =>
    s.WellFormed ∧ s.metaDataPos = pos ∧ 0 < s.metaDataSize ∧
      (s.writerSubfileMap = [] → s.commSize = n) ∧
      Continues s.commSize (pos + s.metaDataSize) rest

theorem Continues.allFollow {n pos : Nat} {steps : List IndexStep} (h : Continues n pos steps) :
    IndexRecord.AllFollow n (steps.flatMap records) := by
  induction steps generalizing n pos with
  | nil => trivial
  | cons s steps ih =>
    have ⟨hs, _, _, hn, h⟩ := h
    rw [List.flatMap_cons, records]
    split
    case isTrue hm => exact ⟨⟨hs, hn <| List.isEmpty_iff.mp hm⟩, hn (List.isEmpty_iff.mp hm) ▸ ih h⟩
    case isFalse hm => exact ⟨⟨hs, mt List.isEmpty_iff.mpr hm⟩, ⟨hs, rfl⟩, ih h⟩

theorem Continues.indexFile_eq {h : HeaderInfo} {n pos : Nat} {steps : List IndexStep}
    (hc : Continues n pos steps) :
    indexFile e h steps = some (steps.flatMap (indexStepBytes e h)) := by
  have hparts : steps.mapM (writeMetadataFileIndex e h)
      = some (steps.map (indexStepBytes e h)) := by
    induction steps generalizing n pos with
    | nil => rfl
    | cons s steps ih =>
      have ⟨hs, _, _, _, hc⟩ := hc
      simp [List.mapM_cons, writeMetadataFileIndex_eq e h hs, ih hc]
  simp [indexFile, hparts, List.flatMap_def]

-- Only the first step of a file has the header in front.
theorem Continues.bytes_eq {h : HeaderInfo} {n pos : Nat} {steps : List IndexStep}
    (hc : Continues n pos steps) :
    steps.flatMap (indexStepBytes e h)
      = (if pos = 0 ∧ steps ≠ [] then headerBytes e h else [])
        ++ (steps.flatMap records).flatMap (IndexRecord.bytes e) := by
  induction steps generalizing n pos with
  | nil => simp
  | cons s steps ih =>
    have ⟨_, hpos, hsize, _, hc⟩ := hc
    have hne : pos + s.metaDataSize ≠ 0 := by omega
    rw [List.flatMap_cons, ih hc, List.flatMap_cons, List.flatMap_append]
    simp only [indexStepBytes, hpos, hne, false_and, if_false, List.nil_append, records]
    by_cases hp : pos = 0 <;> by_cases hm : s.writerSubfileMap.isEmpty <;>
      simp [hp, hm, IndexRecord.bytes]

end IndexStep

end BP5
