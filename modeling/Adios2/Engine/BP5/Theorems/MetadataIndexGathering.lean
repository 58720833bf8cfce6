import Adios2.Engine.BP5.Theorems.MetadataIndexDelivery

-- What a call of `ParseMetadataIndex` notes for the metadata file when all steps are selected: the
-- piece that is to be read, and where the metadata of each step is going to be in memory.

namespace BP5

open Bytes

variable {p : ReaderParams} {buffer visible : List Byte} {r r' : IndexReader}

def ReaderParams.SelectsAll (p : ReaderParams) : Prop :=
  ∀ step, p.isSelected step

def IndexReader.entries (r : IndexReader) : List IndexTableEntry :=
  r.metadataIndexTable.map Prod.snd

def entrySizes (entries : List IndexTableEntry) : List Nat :=
  entries.map IndexTableEntry.metadataSize

@[simp]
theorem entrySizes_append (ts us : List IndexTableEntry) :
    entrySizes (ts ++ us) = entrySizes ts ++ entrySizes us :=
  List.map_append

-- The members that only a header sets.
structure SameHeader (r r' : IndexReader) : Prop where
  minifooter       : r'.minifooter = r.minifooter
  writerIsActive   : r'.writerIsActive = r.writerIsActive
  writerIsRowMajor : r'.writerIsRowMajor = r.writerIsRowMajor
  flattenSteps     : r'.flattenSteps = r.flattenSteps

-- The state of the loop, where `base` steps were known before the call.
structure Gathers (p : ReaderParams) (r : IndexReader) (base : Nat) (st : ParseState) : Prop where
  header    : SameHeader r st.reader
  count     : st.n = st.reader.metadataIndexTable.length
  keys      : st.reader.metadataIndexTable.map Prod.fst = List.range' base st.n
  steps     : st.reader.stepsCount = base + st.n
  filtered  : st.reader.filteredMetadataInfo = []
  minfoPos  : ∀ t, st.reader.entries.head? = some t → st.minfoPos = t.metadataPos
  skip      : 0 < st.n → st.metadataPosTotalSkip = st.minfoPos
  minfoSize : st.minfoSize = (entrySizes st.reader.entries).sum % 2 ^ 64
  toRead    : st.metadataSizeToRead = (entrySizes st.reader.entries).sum
  inMemory  : ∀ t ∈ st.reader.entries, t.posInMemory = subU64 t.metadataPos st.minfoPos
  limit     : ∀ ts t, st.reader.entries = ts ++ [t] →
    (entrySizes ts).sum < p.maxMetadataSizeInMemory

namespace Gathers

variable {base : Nat} {st st' : ParseState}

theorem parseWriterMap (h : Gathers p r base st) (hst : st.parseWriterMap buffer = .ok st') :
    Gathers p r base st' := by
  simp only [ParseState.parseWriterMap, Outcome.bind_eq_ok, Outcome.pure_eq, Except.ok.injEq]
    at hst
  obtain ⟨_, _, _, _, _, _, _, _, rfl⟩ := hst
  exact { h with header := { h.header with } }

-- The entry of a new step.
theorem selectStep (h : Gathers p r base st)
    (hlimit : st.metadataSizeToRead < p.maxMetadataSizeInMemory) (pos size flushCount : Nat)
    (hskip : st.metadataPosTotalSkip = st.minfoPos) (hfirst : st.n = 0 → st.minfoPos = pos) :
    Gathers p r base { st.selectStep pos size flushCount with n := st.n + 1 } where
  header    := { h.header with }
  count     := by simp [ParseState.selectStep, h.count]
  keys      := by
    rw [ParseState.selectStep, List.map_append, h.keys, List.range'_concat, h.steps]
    simp
  steps     := by simp [ParseState.selectStep, h.steps, Nat.add_assoc]
  filtered  := h.filtered
  minfoPos  := by
    intro t ht
    simp only [ParseState.selectStep, IndexReader.entries, List.map_append] at ht ⊢
    cases hentries : st.reader.metadataIndexTable with
    | nil =>
      simp only [hentries, List.map_nil, List.nil_append, List.map_cons, List.head?_cons,
        Option.some.injEq] at ht
      have hn := h.count
      rw [hentries] at hn
      rw [hfirst hn, ← ht]
    | cons x xs =>
      apply h.minfoPos
      simpa [IndexReader.entries, hentries] using ht
  skip      := fun _ => hskip
  minfoSize := by
    simp [ParseState.selectStep, addU64, IndexReader.entries, entrySizes, h.minfoSize]
  toRead    := by
    simp [ParseState.selectStep, IndexReader.entries, entrySizes, h.toRead]
  inMemory  := by
    intro t ht
    simp only [ParseState.selectStep, IndexReader.entries, List.map_append, List.mem_append] at ht
    rcases ht with ht | ht
    · exact h.inMemory t ht
    · simp only [List.map_cons, List.map_nil, List.mem_singleton] at ht
      rw [ht]
      exact congrArg (subU64 pos) hskip
  limit     := by
    intro ts t ht
    simp only [ParseState.selectStep, IndexReader.entries, List.map_append, List.map_cons,
      List.map_nil] at ht
    obtain ⟨hts, _⟩ := List.append_inj' ht rfl
    have htoRead := h.toRead
    rw [IndexReader.entries, hts] at htoRead
    rwa [← htoRead]

theorem first (h : Gathers p r base st) (hn : st.n = 0) (pos : Nat) :
    Gathers p r base { st with minfoPos := pos, metadataPosTotalSkip := pos } := by
  have hempty : st.reader.entries = [] := by
    have hcount := h.count
    rw [hn] at hcount
    simpa [IndexReader.entries] using List.eq_nil_of_length_eq_zero hcount.symm
  exact { h with
    minfoPos := by simp [hempty]
    skip     := fun _ => rfl
    inMemory := by simp [hempty]
  }

theorem parseStep (h : Gathers p r base st) (hp : p.SelectsAll)
    (hlimit : st.metadataSizeToRead < p.maxMetadataSizeInMemory)
    (hst : st.parseStep buffer p = .ok st') : Gathers p r base st' := by
  simp only [ParseState.parseStep, Outcome.bind_eq_ok, Outcome.pure_eq, Except.ok.injEq,
    hp _, if_true] at hst
  obtain ⟨pos, _, size, _, flushCount, _, rfl⟩ := hst
  have h : Gathers p r base { st with position := st.position + 24 } := { h with }
  by_cases hn : st.n = 0
  case pos =>
    have h₀ := (h.first hn pos).selectStep hlimit pos size flushCount rfl fun _ => rfl
    simp only [if_pos hn]
    exact { h₀ with header := { h₀.header with } }
  case neg =>
    have h₁ := h.selectStep hlimit pos size flushCount
      (h.skip (Nat.pos_of_ne_zero hn)) fun h₀ => absurd h₀ hn
    simp only [if_neg hn]
    exact { h₁ with header := { h₁.header with } }

theorem parseRecord (h : Gathers p r base st) (hp : p.SelectsAll)
    (hlimit : st.metadataSizeToRead < p.maxMetadataSizeInMemory)
    (hst : st.parseRecord buffer p = .ok (some st')) : Gathers p r base st' := by
  have h₉ : Gathers p r base { st with position := st.position + 9 } := { h with }
  unfold ParseState.parseRecord at hst
  split at hst
  case isTrue => cases hst
  case isFalse =>
    simp only [Outcome.bind_eq_ok] at hst
    obtain ⟨recordID, _, _, _, hst⟩ := hst
    split at hst
    case isTrue => cases hst
    case isFalse =>
      simp only [Outcome.bind_eq_ok] at hst
      obtain ⟨st₁, hbody, hst⟩ := hst
      have h₁ : Gathers p r base st₁ := by
        unfold ParseState.parseBody at hbody
        split_ifs at hbody
        · exact h₉.parseWriterMap hbody
        · exact h₉.parseStep hp hlimit hbody
        · cases hbody
          exact h₉
      split_ifs at hst
      cases hst
      exact { h₁ with }

theorem parseRecords (h : Gathers p r base st) (hp : p.SelectsAll) {fuel : Nat}
    (hst : st.parseRecords buffer p fuel = .ok st') : Gathers p r base st' := by
  induction fuel generalizing st with
  | zero =>
    cases hst
    exact h
  | succ fuel ih =>
    unfold ParseState.parseRecords at hst
    split at hst
    case isTrue hc =>
      rw [Outcome.bind_eq_ok] at hst
      obtain ⟨next, hnext, hst⟩ := hst
      cases next with
      | none =>
        cases hst
        exact h
      | some st₁ => exact ih (h.parseRecord hp hc.right hnext) hst
    case isFalse =>
      cases hst
      exact h

end Gathers

-- The reader after a call that has found new bytes.
structure Gathered (p : ReaderParams) (base : Nat) (r : IndexReader) : Prop where
  keys     : r.metadataIndexTable.map Prod.fst
    = List.range' base r.metadataIndexTable.length
  steps    : r.stepsCount = base + r.metadataIndexTable.length
  pieces   : ∀ t, r.entries.head? = some t → 0 < (entrySizes r.entries).sum →
    (entrySizes r.entries).sum < 2 ^ 64 →
    r.filteredMetadataInfo = [(t.metadataPos, (entrySizes r.entries).sum)]
  inMemory : ∀ first, r.entries.head? = some first → ∀ t ∈ r.entries,
    t.posInMemory = subU64 t.metadataPos first.metadataPos
  limit    : ∀ ts t, r.entries = ts ++ [t] → (entrySizes ts).sum < p.maxMetadataSizeInMemory

theorem Gathers.gathered {base : Nat} {st : ParseState} (h : Gathers p r base st)
    {index : List Byte} {size : Nat} (hr' : r' = { st.pushFiltered.reader with
      metadataIndex              := index
      mdIndexFileAlreadyReadSize := size
    }) : Gathered p base r' ∧ SameHeader r r' := by
  have hkeys := h.keys
  rw [h.count] at hkeys
  have hsteps := h.steps
  rw [h.count] at hsteps
  have htable : st.pushFiltered.reader.metadataIndexTable = st.reader.metadataIndexTable := by
    unfold ParseState.pushFiltered
    split <;> rfl
  have hcount : st.pushFiltered.reader.stepsCount = st.reader.stepsCount := by
    unfold ParseState.pushFiltered
    split <;> rfl
  have hheader : SameHeader r st.pushFiltered.reader := by
    unfold ParseState.pushFiltered
    split
    · exact { h.header with }
    · exact h.header
  have hentries : r'.entries = st.reader.entries := by
    rw [hr', IndexReader.entries, IndexReader.entries, ← htable]
  refine ⟨⟨?_, ?_, ?_, ?_, ?_⟩, hr' ▸ { hheader with }⟩
  · simpa only [hr', htable] using hkeys
  · simpa only [hr', htable, hcount] using hsteps
  · intro t ht hpos hlt
    rw [hentries] at *
    have hsize := h.minfoSize
    rw [Nat.mod_eq_of_lt hlt] at hsize
    rw [hr', ParseState.pushFiltered, if_pos (hsize ▸ hpos), ← hsize, ← h.minfoPos t ht, h.filtered]
    rfl
  · intro first hfirst t ht
    rw [hentries] at *
    rw [← h.minfoPos first hfirst]
    exact h.inMemory t ht
  · rw [hentries]
    exact h.limit

namespace IndexReader

theorem updateBuffer_gathered (hp : p.SelectsAll) (hu : r.updateBuffer p visible = .ok r')
    (hne : visible.drop r.mdIndexFileAlreadyReadSize ≠ []) :
    ∃ r₀, r.parseStart p (visible.drop r.mdIndexFileAlreadyReadSize)
        (r.mdIndexFileAlreadyReadSize = 0) = .ok r₀ ∧
      Gathered p r₀.stepsCount r' ∧ SameHeader r₀ r' := by
  have hne' : (visible.drop r.mdIndexFileAlreadyReadSize).isEmpty = false := by
    simpa using hne
  simp only [updateBuffer, hne', parseMetadataIndex, Outcome.bind_eq_ok, Outcome.pure_eq,
    Except.ok.injEq, Bool.false_eq_true, if_false] at hu
  obtain ⟨_, ⟨r₀, hstart, st, hst, rfl⟩, rfl⟩ := hu
  have hinit : Gathers p r₀ r₀.stepsCount {
      reader   := { r₀ with metadataIndexTable := [], filteredMetadataInfo := [] }
      position := if decide (r.mdIndexFileAlreadyReadSize = 0) then indexHeaderSize else 0
    } := {
    header    := ⟨rfl, rfl, rfl, rfl⟩
    count     := rfl
    keys      := rfl
    steps     := rfl
    filtered  := rfl
    minfoPos  := by simp [entries]
    skip      := by simp
    minfoSize := rfl
    toRead    := rfl
    inMemory  := by simp [entries]
    limit     := by simp [entries]
  }
  exact ⟨r₀, hstart, (hinit.parseRecords hp hst).gathered rfl⟩

end IndexReader

end BP5
