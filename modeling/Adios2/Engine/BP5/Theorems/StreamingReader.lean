import Adios2.Engine.BP5.StreamingReader
import Adios2.Engine.BP5.Theorems.MetadataFile
import Adios2.Engine.BP5.Theorems.StreamingIndex
import Adios2.Format.BP5.Theorems.ContiguousMetadata

-- One call of `UpdateBuffer` on the files of a run of the writer.

namespace BP5

open Bytes IndexStep StreamReader

-- What the writer appends in a step: to `mmd.0`, then to `md.0`, and then to `md.idx`.
structure WriterStep where
  metaMetaBlocks  : List MetaMetaInfoBlock
  metaDataBlocks  : List (List Byte)
  attributeBlocks : List (List Byte)
  index           : IndexStep

namespace WriterStep

def metadata (e : Endian) (s : WriterStep) : List Byte :=
  metadataRecord e s.metaDataBlocks s.attributeBlocks

def presented (s : WriterStep) (step : Nat) : Presented where
  step
  writerCount := s.index.commSize
  installs    := {
    metadata   := s.metaDataBlocks
    attributes := s.attributeBlocks.filter fun a => !a.isEmpty
  }

end WriterStep

def indexSteps (steps : List WriterStep) : List IndexStep :=
  steps.map WriterStep.index

def formats (steps : List WriterStep) : List MetaMetaInfoBlock :=
  steps.flatMap WriterStep.metaMetaBlocks

def metadataSizes (e : Endian) (steps : List WriterStep) : List Nat :=
  sizes (steps.map (WriterStep.metadata e))

def writerFiles (e : Endian) (h : HeaderInfo) (steps : List WriterStep) : Option StreamFiles := do
  let mdIndex ← indexFile e h (indexSteps steps)
  return {
    mdIndex
    md       := steps.flatMap (WriterStep.metadata e)
    metaMeta := writeMetaMetadata e (formats steps)
  }

-- The writer has a block of each kind for every rank, it knows the size of its metadata, and it has
-- written the formats of the blocks before.
structure WriterRun (e : Endian) (p : StreamParams) (steps : List WriterStep) : Prop where
  continues  : Continues 0 0 (indexSteps steps)
  metaData   : ∀ s ∈ steps, s.metaDataBlocks.length = s.index.commSize
  attributes : ∀ s ∈ steps, s.attributeBlocks.length = s.index.commSize
  size       : ∀ s ∈ steps, s.index.metaDataSize
    = (writeMetadata e s.metaDataBlocks s.attributeBlocks).2
  total      : (metadataSizes e steps).sum < 2 ^ 64
  formats_lt : ∀ f ∈ formats steps, f.metaMetaID.length < 2 ^ 64 ∧ f.metaMetaInfo.length < 2 ^ 64
  known      : ∀ {i s}, steps[i]? = some s → ∀ b ∈ s.metaDataBlocks,
    hasFormat p (formats (steps.take (i + 1))) b

variable {e : Endian} {h : HeaderInfo} {p : StreamParams} {steps : List WriterStep}
  {files : StreamFiles}

theorem writeMetadata_size {blocks attributes : List (List Byte)}
    (hlen : blocks.length = attributes.length) :
    (writeMetadata e blocks attributes).2 = (metadataRecord e blocks attributes).length := by
  rw [metadataRecord_length, writeMetadata, sizes_sum, sizes_sum, sizes_length, hlen]

theorem WriterRun.sizes (hw : WriterRun e p steps) {l : List WriterStep} (hl : l ⊆ steps) :
    (indexSteps l).map IndexStep.metaDataSize = metadataSizes e l := by
  rw [indexSteps, metadataSizes, BP5.sizes, List.map_map, List.map_map]
  apply List.map_congr_left
  intro s hs
  have hlen := (hw.metaData s (hl hs)).trans (hw.attributes s (hl hs)).symm
  rw [Function.comp_apply, hw.size s (hl hs), writeMetadata_size hlen]
  rfl

theorem StreamParams.reader_selectsAll (p : StreamParams) : p.reader.SelectsAll :=
  fun _ => rfl

-- A part of a list of blocks, as a part of the blocks one behind the other.
theorem drop_take_flatten (l : List (List Byte)) (n m : Nat) :
    (l.flatten.drop (sizes (l.take n)).sum).take (sizes ((l.drop n).take m)).sum
      = ((l.drop n).take m).flatten := by
  have hsplit : l.flatten
      = (l.take n).flatten ++ (((l.drop n).take m).flatten ++ ((l.drop n).drop m).flatten) := by
    rw [← List.flatten_append, ← List.flatten_append, List.take_append_drop,
      List.take_append_drop]
  rw [hsplit, List.drop_left' sizes_sum.symm, List.take_left' sizes_sum.symm]

theorem within_flatten {l : List (List Byte)} {i : Nat} {block : List Byte}
    (hi : l[i]? = some block) : Within l.flatten (sizes (l.take i)).sum block := by
  have ⟨hlt, hget⟩ := List.getElem?_eq_some_iff.mp hi
  have hsplit : l.flatten = (l.take i).flatten ++ (block ++ (l.drop (i + 1)).flatten) := by
    rw [← List.flatten_cons, ← List.flatten_append, ← hget, List.getElem_cons_drop,
      List.take_append_drop]
  rw [hsplit, sizes_sum]
  refine ⟨by simp, ?_⟩
  rw [Holds, List.drop_left]
  exact List.prefix_append _ _

-- The files have nothing in them in a run without steps.
theorem mdIndex_eq (hw : WriterRun e p steps) (hfiles : writerFiles e h steps = some files) :
    files.mdIndex = (indexSteps steps).flatMap (indexStepBytes e h) := by
  have hindex := hw.continues.indexFile_eq (e := e) (h := h)
  simp only [writerFiles, hindex, Option.bind_eq_bind, Option.bind_some, Option.pure_def,
    Option.some.injEq] at hfiles
  rw [← hfiles]

theorem md_eq (hw : WriterRun e p steps) (hfiles : writerFiles e h steps = some files) :
    files.md = (steps.map (WriterStep.metadata e)).flatten := by
  have hindex := hw.continues.indexFile_eq (e := e) (h := h)
  simp only [writerFiles, hindex, Option.bind_eq_bind, Option.bind_some, Option.pure_def,
    Option.some.injEq] at hfiles
  rw [← hfiles, ← List.flatMap_def]

theorem metaMeta_eq (hw : WriterRun e p steps) (hfiles : writerFiles e h steps = some files) :
    files.metaMeta = writeMetaMetadata e (formats steps) := by
  have hindex := hw.continues.indexFile_eq (e := e) (h := h)
  simp only [writerFiles, hindex, Option.bind_eq_bind, Option.bind_some, Option.pure_def,
    Option.some.injEq] at hfiles
  rw [← hfiles]

def indexRecords (steps : List WriterStep) : List IndexRecord :=
  (indexSteps steps).flatMap IndexStep.records

theorem mdIndex_of_ne (hw : WriterRun e p steps) (hfiles : writerFiles e h steps = some files)
    (hne : files.mdIndex ≠ []) :
    files.mdIndex = headerBytes e h ++ (indexRecords steps).flatMap (IndexRecord.bytes e) := by
  rw [mdIndex_eq hw hfiles] at *
  rw [hw.continues.bytes_eq, if_pos]
  · rfl
  · refine ⟨rfl, fun hnil => hne ?_⟩
    rw [hnil]
    rfl

-- What can be seen of the index, with the flag of the writer as it is at the time.
section Content

variable {l : IndexLook}

theorem IndexLook.file_length : (l.file files).length = files.mdIndex.length := by
  unfold IndexLook.file
  split
  · rfl
  · exact List.length_set

theorem content_records (hw : WriterRun e p steps) (hfiles : writerFiles e h steps = some files)
    (size : Nat) : ((l.file files).take size).drop indexHeaderSize
      <+: (indexRecords steps).flatMap (IndexRecord.bytes e) := by
  have hdrop : (l.file files).drop indexHeaderSize = files.mdIndex.drop indexHeaderSize := by
    unfold IndexLook.file
    split
    · rfl
    · exact List.drop_set_of_lt (by decide)
  apply ((List.take_prefix size (l.file files)).drop indexHeaderSize).trans
  rw [hdrop]
  by_cases hne : files.mdIndex = []
  case pos => simp [hne]
  case neg =>
    rw [mdIndex_of_ne hw hfiles hne, ← headerBytes_length e h, List.drop_left]

theorem headerBytes_flag : (headerBytes e h)[activeFlagPosition]? = some 1 := by
  have hlen : (headerTag h ++ h.majorVersion.take 1 ++ [h.minorVersion] ++ h.patchVersion.take 1
      ++ [0]).length = endianFlagPosition := by
    simp [headerTag_length, h.majorVersion_take, h.patchVersion_take, versionTagLength,
      endianFlagPosition]
  rw [headerBytes, List.append_assoc, List.append_assoc,
    List.getElem?_append_right (by rw [hlen]; decide), hlen]
  rfl

theorem file_flag (hw : WriterRun e p steps) (hfiles : writerFiles e h steps = some files)
    (hne : files.mdIndex ≠ []) :
    (l.file files)[activeFlagPosition]? = some (if l.active then 1 else 0) := by
  have hlen : activeFlagPosition < files.mdIndex.length := by
    rw [mdIndex_of_ne hw hfiles hne, List.length_append, headerBytes_length]
    simp only [activeFlagPosition, indexHeaderSize]
    omega
  unfold IndexLook.file
  split
  case isTrue =>
    have hlen' : activeFlagPosition < (headerBytes e h).length := by
      rw [headerBytes_length]
      decide
    rw [mdIndex_of_ne hw hfiles hne, List.getElem?_append_left hlen']
    exact headerBytes_flag
  case isFalse => rw [List.getElem?_set_self hlen]

theorem content_header (hw : WriterRun e p steps) (hfiles : writerFiles e h steps = some files)
    {r : IndexReader} {v : IndexView} (ht : Tracks v r) {size : Nat}
    (hlen : headerEnd ≤ ((l.file files).take size).length) :
    ∃ r₀, r.parseHeader p.reader ((l.file files).take size) = .ok r₀ ∧ Tracks v r₀ ∧
      r₀.minifooter.endian = e ∧ r₀.writerIsActive = l.active ∧
      r₀.flattenSteps = (h.flattenSteps && !p.ignoreFlattenSteps) := by
  have hne : files.mdIndex ≠ [] := by
    intro hnil
    rw [List.length_take, IndexLook.file_length, hnil] at hlen
    simp [headerEnd] at hlen
  have hlen' : headerEnd ≤ (files.mdIndex.take size).length := by
    rwa [List.length_take, ← IndexLook.file_length (l := l), ← List.length_take]
  have hfront : Holds (files.mdIndex.take size) 0 (headerFront e h) := by
    have hpre : (files.mdIndex.take size).drop 0 <+: headerFront e h
        ++ (.replicate 18 0 ++ (indexRecords steps).flatMap (IndexRecord.bytes e)) := by
      rw [List.drop_zero, ← List.append_assoc, ← headerBytes_eq, ← mdIndex_of_ne hw hfiles hne]
      exact List.take_prefix _ _
    apply holds_of_prefix_append hpre
    rw [headerFront_length]
    omega
  have hparse := IndexReader.parseHeader_of_holds (r := r) (p := p.reader) hfront
  unfold IndexLook.file
  split
  case isTrue hactive => exact ⟨_, hparse, { ht with }, rfl, hactive.symm, rfl⟩
  case isFalse hactive =>
    rw [List.take_set]
    refine ⟨_, IndexReader.parseHeader_set hparse, { ht with }, rfl, ?_, rfl⟩
    simpa using hactive

end Content

namespace StreamReader

variable {r r' : StreamReader} {look : Look}

-- The size of the index file when a call asks for it first, and how much of it the call reads.
def firstSize (files : StreamFiles) (look : Look) : Nat :=
  min look.size (look.file files).length

def visibleSize (files : StreamFiles) (r : StreamReader) (look : Look) : Nat :=
  if r.mdIndexFile then
    if firstSize files look ≠ r.index.mdIndexFileAlreadyReadSize
        ∧ r.writerDone (look.file files) (firstSize files look) then
      settle (firstSize files look)
        ((look.retries.take 20).map fun n => min n (look.file files).length)
    else
      firstSize files look
  else
    0

theorem le_settle {size : Nat} {retries : List Nat} : size ≤ settle size retries := by
  induction retries generalizing size with
  | nil => exact le_rfl
  | cons next retries ih =>
    rw [settle]
    split
    case isTrue hlt => exact hlt.le.trans ih
    case isFalse => exact le_rfl

theorem settle_le {size n : Nat} {retries : List Nat} (hsize : size ≤ n)
    (hretries : ∀ m ∈ retries, m ≤ n) : settle size retries ≤ n := by
  induction retries generalizing size with
  | nil => exact hsize
  | cons next retries ih =>
    rw [settle]
    split
    case isTrue =>
      exact ih (hretries next List.mem_cons_self) fun m hm =>
        hretries m (List.mem_cons_of_mem _ hm)
    case isFalse => exact hsize

theorem visibleSize_le : visibleSize files r look ≤ (look.file files).length := by
  unfold visibleSize
  split_ifs
  · apply settle_le (Nat.min_le_right _ _)
    intro m hm
    obtain ⟨n, _, rfl⟩ := List.mem_map.mp hm
    exact Nat.min_le_right _ _
  · exact Nat.min_le_right _ _
  · exact Nat.zero_le _

def visible (files : StreamFiles) (r : StreamReader) (look : Look) : List Byte :=
  (look.file files).take (visibleSize files r look)

@[simp]
theorem visible_length (files : StreamFiles) (r : StreamReader) (look : Look) : (visible files r look).length = visibleSize files r look := by
  rw [visible, List.length_take, Nat.min_eq_left visibleSize_le]

-- The number of steps that a call finds.
def newCount (e : Endian) (h : HeaderInfo) (p : StreamParams) (steps : List WriterStep)
    (files : StreamFiles) (r : StreamReader) (look : Look) : Nat :=
  (foundSteps e h p.reader (indexSteps steps) r.index.stepsCount
    (visibleSize files r look)).length

-- What the reader takes for the flag of the writer after a call.
def activeAfter (files : StreamFiles) (r : StreamReader) (look : Look) : Bool :=
  if r.index.mdIndexFileAlreadyReadSize = 0 ∧ visibleSize files r look ≠ 0 then
    look.active
  else
    r.index.writerIsActive

-- A call that goes well. `md.idx` has not become smaller when it is asked for again, and its first
-- part has a header. With a writer that is done it shows all steps, or there is more to find in it
-- than this call can take. `md.0` catches up with the steps that are found. `mmd.0` ends with a
-- record, and if it is still read it has the formats of these steps.
structure LookSteady (e : Endian) (h : HeaderInfo) (p : StreamParams) (steps : List WriterStep)
    (files : StreamFiles) (r : StreamReader) (look : Look) : Prop where
  grows    : r.mdIndexFile → r.index.mdIndexFileAlreadyReadSize ≤ firstSize files look ∨
    visibleSize files r look = firstSize files look
  header   : r.index.mdIndexFileAlreadyReadSize = 0 → visibleSize files r look ≠ 0 →
    headerEnd ≤ visibleSize files r look
  finished : activeAfter files r look = false →
    r.index.stepsCount + newCount e h p steps files r look = steps.length ∨
    0 < newCount e h p steps files r look ∧
      (Cut e (indexSteps steps) (visibleSize files r look) ∨
        r.index.stepsCount + newCount e h p steps files r look
          < completeSteps e h (indexSteps steps) (visibleSize files r look))
  metadata : 0 < newCount e h p steps files r look → ∃ size ∈ look.mdSize :: look.mdSizes,
    (metadataSizes e (steps.take
      (r.index.stepsCount + newCount e h p steps files r look))).sum ≤ size
  metaMeta : 0 < newCount e h p steps files r look → ∃ shown, shown <+: formats steps ∧
    (if r.metaMetadataFile then
      min look.metaMetaSize files.metaMeta.length = (writeMetaMetadata e shown).length
    else
      shown = []) ∧
    ∀ s ∈ (steps.drop r.index.stepsCount).take (newCount e h p steps files r look),
      ∀ b ∈ s.metaDataBlocks, hasFormat p (r.installedMetaMeta ++ shown) b

theorem readIndex_run (files : StreamFiles) (hgrows : r.mdIndexFile →
      r.index.mdIndexFileAlreadyReadSize ≤ firstSize files look ∨
        visibleSize files r look = firstSize files look) :
    (readIndex files look).run r = .ok (visible files r look) r := by
  rw [readIndex, EStateM.run_bind, EStateM.run_get]
  dsimp only
  unfold visible
  by_cases hopen : r.mdIndexFile = true
  case neg => simp [visibleSize, hopen]
  case pos =>
    rw [if_pos hopen]
    by_cases hdone : firstSize files look ≠ r.index.mdIndexFileAlreadyReadSize
        ∧ r.writerDone (look.file files) (firstSize files look)
    case neg =>
      have hsize : visibleSize files r look = firstSize files look := by
        rw [visibleSize, if_pos hopen, if_neg hdone]
      rw [hsize]
      unfold firstSize at hdone
      rw [if_neg hdone]
      rfl
    case pos =>
      have hsize : visibleSize files r look = settle (firstSize files look)
          ((look.retries.take 20).map fun n => min n (look.file files).length) := by
        rw [visibleSize, if_pos hopen, if_pos hdone]
      have hgrows := hgrows hopen
      rw [hsize] at hgrows ⊢
      unfold firstSize at hdone hgrows ⊢
      rw [if_pos hdone, if_neg (by omega)]
      rfl

theorem le_actualFileSize {expected size n : Nat} {sizes : List Nat} (hn : n ∈ size :: sizes)
    (hle : expected ≤ n) : expected ≤ actualFileSize expected size sizes := by
  induction sizes generalizing size with
  | nil =>
    rw [List.mem_singleton] at hn
    rwa [actualFileSize, ← hn]
  | cons next sizes ih =>
    rw [actualFileSize]
    split
    case isTrue hsize => exact hsize
    case isFalse hsize =>
      rcases List.mem_cons.mp hn with rfl | hn
      · contradiction
      · exact ih hn

theorem readMetadata_run {pos size newIdxSize : Nat}
    (hpieces : r.index.filteredMetadataInfo = [(pos, size)]) (hfile : r.mdFile = true)
    (hlt : pos + size < 2 ^ 64) (hmd : pos + size ≤ files.md.length) {n : Nat}
    (hn : n ∈ look.mdSize :: look.mdSizes) (hle : pos + size ≤ n) :
    (readMetadata p files look newIdxSize).run r
      = .ok () { r with metadata := (files.md.drop pos).take size } := by
  have hexpected : addU64 pos size = pos + size := Nat.mod_eq_of_lt hlt
  have hactual : pos + size ≤ actualFileSize (pos + size) (min look.mdSize files.md.length)
      (look.mdSizes.map fun n => min n files.md.length) := by
    apply le_actualFileSize (n := min n files.md.length)
    · rw [← List.map_cons (f := fun n => min n files.md.length)]
      exact List.mem_map_of_mem hn
    · omega
  have hread : readBytes (files.md.take (actualFileSize (pos + size)
      (min look.mdSize files.md.length) (look.mdSizes.map fun n => min n files.md.length))) pos size
        = some ((files.md.drop pos).take size) := by
    rw [readBytes, if_pos, List.drop_take, List.take_take, Nat.min_eq_left (by omega)]
    rw [List.length_take]
    omega
  simp [readMetadata, hpieces, hfile, hexpected, hactual, readPiece, hread]

end StreamReader

theorem writeMetaMetadata_eq (e : Endian) (blocks : List MetaMetaInfoBlock) :
    writeMetaMetadata e blocks = blocks.flatMap (MetaMetaInfoBlock.bytes e) := by
  simp only [writeMetaMetadata, List.append_assoc]
  rfl

theorem writeMetaMetadata_append (e : Endian) (xs ys : List MetaMetaInfoBlock) :
    writeMetaMetadata e (xs ++ ys) = writeMetaMetadata e xs ++ writeMetaMetadata e ys :=
  List.flatMap_append

theorem writeMetaMetadata_pos {blocks : List MetaMetaInfoBlock} (hne : blocks ≠ []) :
    0 < (writeMetaMetadata e blocks).length := by
  cases blocks with
  | nil => contradiction
  | cons b blocks =>
    simp only [writeMetaMetadata, List.flatMap_cons, List.length_append, u64_length]
    omega

namespace StreamReader

variable {r r' : StreamReader} {look : Look}

-- Whole records up to the end of the buffer are all installed.
theorem installMetaMetaData_eq {blocks : List MetaMetaInfoBlock} {buffer : List Byte}
    {pos fuel : Nat} (hlt : ∀ f ∈ blocks, f.metaMetaID.length < 2 ^ 64
      ∧ f.metaMetaInfo.length < 2 ^ 64)
    (hb : Within buffer pos (writeMetaMetadata e blocks))
    (hend : pos + (writeMetaMetadata e blocks).length = buffer.length)
    (hfuel : buffer.length ≤ pos + fuel) :
    installMetaMetaData e buffer fuel pos = some (blocks, buffer.length) := by
  induction blocks generalizing pos fuel with
  | nil =>
    have hpos : pos = buffer.length := by simpa [writeMetaMetadata] using hend
    cases fuel with
    | zero => rw [installMetaMetaData, hpos]
    | succ fuel => rw [installMetaMetaData, if_neg (by omega), hpos]
  | cons f blocks ih =>
    have hpos := writeMetaMetadata_pos (e := e) (List.cons_ne_nil f [])
    rw [← List.singleton_append, writeMetaMetadata_append] at hb hend
    have ⟨hf, hrest⟩ := hb.append
    rw [List.length_append] at hend
    have hrun : (Breakout.metaMetaBlock e buffer).run pos
        = some (f, pos + (writeMetaMetadata e [f]).length) := by
      have ⟨hid, hinfo⟩ := hlt f List.mem_cons_self
      have hreads : Bytes.Reader.Reads buffer (Breakout.metaMetaBlock e buffer) (f.bytes e) f :=
        Breakout.reads_metaMetaBlock hid hinfo
      rw [writeMetaMetadata_eq, List.flatMap_cons, List.flatMap_nil, List.append_nil] at hf ⊢
      exact hreads pos hf
    obtain ⟨fuel, rfl⟩ : ∃ k, fuel = k + 1 := ⟨fuel - 1, by omega⟩
    rw [installMetaMetaData, if_pos (by omega), hrun, Option.bind_eq_bind, Option.bind_some]
    dsimp only
    rw [ih (fun g hg => hlt g (List.mem_cons_of_mem _ hg)) hrest (by omega) (by omega)]
    rfl

-- Of `mmd.0` all records that were read are installed.
structure FormatsRead (e : Endian) (steps : List WriterStep) (r : StreamReader) : Prop where
  installed : r.installedMetaMeta <+: formats steps
  read      : r.metaMetaDataFileAlreadyReadSize
    = (writeMetaMetadata e r.installedMetaMeta).length
  processed : r.metaMetaDataFileAlreadyProcessedSize = r.metaMetaDataFileAlreadyReadSize
  buffer    : r.metaMetadata.length = r.metaMetaDataFileAlreadyReadSize

@[simp]
theorem bufferReset_length (buffer : List Byte) : (bufferReset buffer).length = buffer.length :=
  List.length_mapIdx

theorem resize_length (buffer : List Byte) (n : Nat) : (IndexReader.resize buffer n).length = n := by
  rw [IndexReader.resize, List.length_append, List.length_take, List.length_replicate]
  omega

-- The loop at the end of a buffer has nothing to do.
theorem installMetaMetaData_end {buffer : List Byte} {fuel : Nat} :
    installMetaMetaData e buffer fuel buffer.length = some ([], buffer.length) := by
  cases fuel with
  | zero => rfl
  | succ fuel => rw [installMetaMetaData, if_neg (Nat.lt_irrefl _)]

-- The records that are new in `mmd.0` are read and installed.
theorem readMetaMetadata_run (look : Look) (hw : WriterRun e p steps)
    (hfiles : writerFiles e h steps = some files) (hr : FormatsRead e steps r)
    {shown : List MetaMetaInfoBlock} (hshown : shown <+: formats steps)
    (hsize : if r.metaMetadataFile then
      min look.metaMetaSize files.metaMeta.length = (writeMetaMetadata e shown).length
      else shown = []) :
    ∃ buffer size new, (readMetaMetadata files look).run r = .ok () { r with
        metaMetadata := buffer
        metaMetaDataFileAlreadyReadSize := size
      } ∧ installMetaMetaData e buffer buffer.length r.metaMetaDataFileAlreadyProcessedSize
        = some (new, size) ∧
      FormatsRead e steps { r with
        installedMetaMeta := r.installedMetaMeta ++ new
        metaMetadata := buffer
        metaMetaDataFileAlreadyReadSize := size
        metaMetaDataFileAlreadyProcessedSize := size
      } ∧ ∀ f ∈ shown, f ∈ r.installedMetaMeta ++ new := by
  have hor := List.prefix_or_prefix_of_prefix hr.installed hshown
  have hrun : (readMetaMetadata files look).run r = .ok () _ := EStateM.run_modify _ _
  rw [hrun]
  by_cases hnew : r.metaMetadataFile = true
      ∧ r.metaMetaDataFileAlreadyReadSize < min look.metaMetaSize files.metaMeta.length
  case neg =>
    have hinstalled : shown <+: r.installedMetaMeta := by
      split at hsize
      case isTrue hopen =>
        rcases hor with ⟨new, rfl⟩ | hle
        · have hnil : new = [] := by
            by_contra hne
            have hpos := writeMetaMetadata_pos (e := e) hne
            rw [writeMetaMetadata_append, List.length_append, ← hr.read] at hsize
            exact hnew ⟨hopen, by omega⟩
          rw [hnil, List.append_nil]
        · exact hle
      case isFalse =>
        rw [hsize]
        exact List.nil_prefix
    rw [if_neg hnew]
    refine ⟨r.metaMetadata, _, [], rfl, ?_, ?_, ?_⟩
    · rw [hr.processed, ← hr.buffer]
      exact installMetaMetaData_end
    · rw [List.append_nil]
      exact ⟨hr.installed, hr.read, rfl, hr.buffer⟩
    · rw [List.append_nil]
      exact fun f hf => hinstalled.subset hf
  case pos =>
    have ⟨hopen, hlt⟩ := hnew
    rw [if_pos hopen] at hsize
    rw [hsize, hr.read] at hlt
    have ⟨new, hshown'⟩ : r.installedMetaMeta <+: shown := by
      rcases hor with hle | ⟨rest, hrest⟩
      · exact hle
      · rw [← hrest, writeMetaMetadata_append, List.length_append] at hlt
        omega
    subst hshown'
    have hpre : writeMetaMetadata e (r.installedMetaMeta ++ new) <+: files.metaMeta := by
      rw [metaMeta_eq hw hfiles, writeMetaMetadata_eq, writeMetaMetadata_eq]
      exact hshown.flatMap _
    have htail : (files.metaMeta.take (writeMetaMetadata e (r.installedMetaMeta ++ new)).length).drop
        r.metaMetaDataFileAlreadyReadSize = writeMetaMetadata e new := by
      rw [← List.prefix_iff_eq_take.mp hpre, writeMetaMetadata_append, hr.read, List.drop_left]
    have hfront : ((IndexReader.resize r.metaMetadata
        (writeMetaMetadata e (r.installedMetaMeta ++ new)).length).take
          r.metaMetaDataFileAlreadyReadSize).length = r.metaMetaDataFileAlreadyReadSize := by
      rw [List.length_take, resize_length, hr.read]
      omega
    rw [if_pos ⟨hopen, by rwa [hsize, hr.read]⟩, hsize, htail]
    have hsum : (writeMetaMetadata e (r.installedMetaMeta ++ new)).length
        = r.metaMetaDataFileAlreadyReadSize + (writeMetaMetadata e new).length := by
      rw [writeMetaMetadata_append, List.length_append, hr.read]
    refine ⟨_, _, new, rfl, ?_, ?_, fun f hf => hf⟩
    · generalize ((IndexReader.resize r.metaMetadata
        (writeMetaMetadata e (r.installedMetaMeta ++ new)).length).take
          r.metaMetaDataFileAlreadyReadSize) = front at hfront ⊢
      rw [hr.processed, hsum, ← hfront, ← List.length_append]
      apply installMetaMetaData_eq
      · exact fun f hf => hw.formats_lt f <| hshown.subset <| List.mem_append_right _ hf
      · refine ⟨(List.length_append).ge, ?_⟩
        rw [Holds, List.drop_left]
      · exact List.length_append.symm
      · exact Nat.le_add_left _ _
    · refine ⟨hshown, rfl, rfl, ?_⟩
      rw [List.length_append, hfront, hsum]

-- The new metadata and the new formats come into memory.
theorem installNewSteps_run (look : Look) (newIdxSize : Nat) (hw : WriterRun e p steps)
    (hfiles : writerFiles e h steps = some files) (hr : FormatsRead e steps r)
    (hflat : r.index.flattenSteps = false) (he : r.index.minifooter.endian = e)
    {pos size : Nat} (hpieces : r.index.filteredMetadataInfo = [(pos, size)])
    (hfile : r.mdFile = true) (hlt : pos + size < 2 ^ 64) (hmd : pos + size ≤ files.md.length)
    {n : Nat} (hn : n ∈ look.mdSize :: look.mdSizes) (hle : pos + size ≤ n)
    {shown : List MetaMetaInfoBlock} (hshown : shown <+: formats steps)
    (hsize : if r.metaMetadataFile then
      min look.metaMetaSize files.metaMeta.length = (writeMetaMetadata e shown).length
      else shown = []) :
    ∃ buffer read new, (installNewSteps p files look newIdxSize).run r = .ok () { r with
        metadata := (files.md.drop pos).take size
        metaMetadata := buffer
        metaMetaDataFileAlreadyReadSize := read
        metaMetaDataFileAlreadyProcessedSize := read
        installedMetaMeta := r.installedMetaMeta ++ new
      } ∧ FormatsRead e steps { r with
        metadata := (files.md.drop pos).take size
        metaMetadata := buffer
        metaMetaDataFileAlreadyReadSize := read
        metaMetaDataFileAlreadyProcessedSize := read
        installedMetaMeta := r.installedMetaMeta ++ new
      } ∧ ∀ f ∈ shown, f ∈ r.installedMetaMeta ++ new := by
  let r₁ := { r with
    metadata     := bufferReset r.metadata
    metaMetadata := bufferReset r.metaMetadata
  }
  have hread : (readMetadata p files look newIdxSize).run r₁ = _ :=
    readMetadata_run hpieces hfile hlt hmd hn hle
  let r₂ := { r₁ with metadata := (files.md.drop pos).take size }
  have hr₂ : FormatsRead e steps r₂ := { hr with
    buffer := (bufferReset_length _).trans hr.buffer
  }
  have ⟨buffer, read, new, hmm, hinstall, hr', hnew⟩ :=
    readMetaMetadata_run look hw hfiles hr₂ hshown hsize
  refine ⟨buffer, read, new, ?_, { hr' with }, hnew⟩
  simp only [installNewSteps, EStateM.run_bind, EStateM.run_modify, EStateM.run_get]
  rw [hread]
  dsimp only
  rw [hmm]
  dsimp only
  have hinstall' : installMetaMetaData r.index.minifooter.endian buffer buffer.length
      r.metaMetaDataFileAlreadyProcessedSize = some (new, read) := he ▸ hinstall
  simp only [r₂, r₁, hinstall']
  simp [hflat]

-- A step that can be presented without another look at the files.
structure StepReady (e : Endian) (p : StreamParams) (r : StreamReader) (step : Nat)
    (s : WriterStep) : Prop where
  metadata  : ∃ entry, r.index.metadataIndexTable.lookup step = some entry ∧
    Within r.metadata entry.posInMemory (s.metadata e)
  writerMap : ∃ j m, r.index.writerMapIndex[step]? = some j ∧ r.index.writerMap j = some m ∧
    m.writerCount = s.index.commSize
  formats   : ∀ b ∈ s.metaDataBlocks, hasFormat p r.installedMetaMeta b

-- A reader between two calls. The index is closed when nothing more is to come.
structure Reading (e : Endian) (p : StreamParams) (steps : List WriterStep) (r : StreamReader) :
    Prop where
  polled  : ∃ k, Polled e p.reader (indexRecords steps) k r.index
  formats : FormatsRead e steps r
  flatten : r.index.flattenSteps = false
  closed  : r.mdIndexFile = false →
    r.index.stepsCount = steps.length ∧ r.index.writerIsActive = false
  mdFile  : r.mdIndexFile = true → r.mdFile = true

-- What a call that goes well leaves.
structure Updated (e : Endian) (h : HeaderInfo) (p : StreamParams) (steps : List WriterStep)
    (files : StreamFiles) (look : Look) (r r' : StreamReader) : Prop where
  reading          : Reading e p steps r'
  stepsCount       : r'.index.stepsCount
    = r.index.stepsCount + newCount e h p steps files r look
  ready            : ∀ {i s}, r.index.stepsCount ≤ i → i < r'.index.stepsCount →
    steps[i]? = some s → StepReady e p r' i s
  active           : r'.index.writerIsActive = activeAfter files r look
  installed        : r.installedMetaMeta <+: r'.installedMetaMeta
  currentStep      : r'.currentStep = r.currentStep
  firstStep        : r'.firstStep = r.firstStep
  betweenStepPairs : r'.betweenStepPairs = r.betweenStepPairs

theorem polled_endian {all : List IndexRecord} {k : Nat} {q : ReaderParams}
    {i : IndexReader} (hi : Polled e q all k i) (hpos : 0 < i.stepsCount) :
    i.minifooter.endian = e := by
  rcases hi.position with ⟨_, rfl⟩ | ⟨he, _⟩
  · have hcount := hi.tracks.stepsCount
    rw [viewOf, List.take_zero] at hcount
    exact absurd hcount (by simp; omega)
  · exact he

-- The steps that a call finds.
theorem found_eq : foundSteps e h p.reader (indexSteps steps) r.index.stepsCount
      (visibleSize files r look)
    = indexSteps ((steps.drop r.index.stepsCount).take (newCount e h p steps files r look)) := by
  have hpre := foundSteps_prefix_drop e h p.reader (indexSteps steps) r.index.stepsCount
    (visibleSize files r look)
  rw [List.prefix_iff_eq_take] at hpre
  rw [hpre, indexSteps, indexSteps, List.map_take, List.map_drop]
  rfl

theorem newCount_le (e : Endian) (h : HeaderInfo) (p : StreamParams) (steps : List WriterStep)
    (files : StreamFiles) (r : StreamReader) (look : Look) : newCount e h p steps files r look ≤ steps.length - r.index.stepsCount := by
  have hle := (foundSteps_prefix_drop e h p.reader (indexSteps steps) r.index.stepsCount
    (visibleSize files r look)).length_le
  rwa [List.length_drop, indexSteps, List.length_map] at hle

-- The metadata of new steps is where their entries say that it is.
theorem stepReady_of_update (hw : WriterRun e p steps)
    {new : List WriterStep} {n m : Nat} (hnew : new = (steps.drop n).take m)
    {i : IndexReader} (hi : i.stepsCount = n)
    (hu : IndexUpdate e p.reader (indexSteps steps) i r.index (indexSteps new))
    (hmetadata : r.metadata = (new.map (WriterStep.metadata e)).flatten)
    (hformats : ∀ s ∈ new, ∀ b ∈ s.metaDataBlocks, hasFormat p r.installedMetaMeta b)
    {step : Nat} {s : WriterStep} (hstep : n ≤ step) (hs : new[step - n]? = some s) :
    StepReady e p r step s := by
  have hindex : (indexSteps new)[step - n]? = some s.index := by
    rw [indexSteps, List.getElem?_map, hs]
    rfl
  have ⟨entry, j, map, hentry, hpos, hj, hmap, hcount⟩ := hu.entries hindex
  have hsub : new.take (step - n) ⊆ steps := by
    rw [hnew]
    exact fun x hx => List.mem_of_mem_drop (List.mem_of_mem_take (List.mem_of_mem_take hx))
  have hsizes : ((indexSteps new).take (step - n)).map IndexStep.metaDataSize
      = sizes ((new.map (WriterStep.metadata e)).take (step - n)) := by
    rw [indexSteps, ← List.map_take, ← List.map_take]
    exact hw.sizes hsub
  have hstep' : n + (step - n) = step := by omega
  rw [hi, hstep'] at hentry hj
  refine ⟨⟨entry, hentry, ?_⟩, ⟨j, map, hj, hmap, hcount⟩,
    hformats s (List.mem_of_getElem? hs)⟩
  rw [hpos, hsizes, hmetadata]
  apply within_flatten
  rw [List.getElem?_map, hs]
  rfl

theorem updateBuffer_mono {q : ReaderParams} {i i' : IndexReader} {file : List Byte}
    (hu : i.updateBuffer q file = .ok i') :
    i.mdIndexFileAlreadyReadSize ≤ i'.mdIndexFileAlreadyReadSize := by
  unfold IndexReader.updateBuffer at hu
  dsimp only at hu
  split at hu
  case isTrue =>
    cases hu
    exact le_rfl
  case isFalse =>
    simp only [Outcome.bind_eq_ok, Outcome.pure_eq, Except.ok.injEq] at hu
    obtain ⟨_, _, rfl⟩ := hu
    exact Nat.le_add_right _ _

-- The index part of a call.
theorem indexUpdate (hw : WriterRun e p steps) (hfiles : writerFiles e h steps = some files)
    (hflat : (h.flattenSteps && !p.ignoreFlattenSteps) = false) (hr : Reading e p steps r)
    (hlook : LookSteady e h p steps files r look) :
    ∃ i, r.index.updateBuffer p.reader (visible files r look) = .ok i ∧
      IndexUpdate e p.reader (indexSteps steps) r.index i (indexSteps
        ((steps.drop r.index.stepsCount).take (newCount e h p steps files r look))) ∧
      i.writerIsActive = activeAfter files r look ∧ i.flattenSteps = false ∧
      (0 < newCount e h p steps files r look →
        Cut e (indexSteps steps) (visibleSize files r look) ∨
          i.stepsCount < completeSteps e h (indexSteps steps) (visibleSize files r look) →
        i.mdIndexFileAlreadyReadSize < visibleSize files r look) := by
  have ⟨k, hk⟩ := hr.polled
  have hne : visible files r look ≠ [] ↔ visibleSize files r look ≠ 0 := by
    rw [← visible_length files r look, ne_eq, ne_eq, List.length_eq_zero_iff]
  have htotal : ((indexSteps steps).map IndexStep.metaDataSize).sum < 2 ^ 64 := by
    rw [hw.sizes (List.Subset.refl _)]
    exact hw.total
  have hheader (h₀ : r.index.mdIndexFileAlreadyReadSize = 0) (hvisible : visible files r look ≠ []) :
      headerEnd ≤ (visible files r look).length := by
    rw [visible_length]
    exact hlook.header h₀ (hne.mp hvisible)
  have ⟨i, i₀, hu, hupdate, hsame, hstart, hmore⟩ := updateBuffer_found (h := h)
    (visible files r look) p.reader_selectsAll hw.continues htotal hk
    (content_records hw hfiles _) fun h₀ hvisible => by
      have ⟨i₀, hparse, ht, he, _⟩ := content_header hw hfiles hk.tracks (hheader h₀ hvisible)
      exact ⟨i₀, hparse, ht, he⟩
  have hflags : i₀.writerIsActive = activeAfter files r look ∧ i₀.flattenSteps = false := by
    unfold activeAfter
    split at hstart
    case isTrue hnew =>
      have ⟨i₁, hparse, _, _, hactive, hflatten⟩ :=
        content_header hw hfiles hk.tracks (hheader hnew.left hnew.right)
      rw [visible, hparse] at hstart
      cases hstart
      rw [if_pos ⟨hnew.left, hne.mp hnew.right⟩]
      exact ⟨hactive, hflatten.trans hflat⟩
    case isFalse hold =>
      rw [if_neg fun hnew => hold ⟨hnew.left, hne.mpr hnew.right⟩, hstart]
      exact ⟨rfl, hr.flatten⟩
  rw [visible_length] at hupdate hmore
  refine ⟨i, hu, ?_, hsame.writerIsActive.trans hflags.left, hsame.flattenSteps.trans hflags.right,
    ?_⟩
  · rw [← found_eq]
    exact hupdate
  · intro hpos
    exact hmore (List.length_pos_iff.mp hpos)

theorem metadataSizes_take_add {n m : Nat} :
    (metadataSizes e (steps.take (n + m))).sum
      = (metadataSizes e (steps.take n)).sum + (metadataSizes e ((steps.drop n).take m)).sum := by
  rw [List.take_add, metadataSizes, metadataSizes, metadataSizes, List.map_append, sizes, sizes,
    sizes, List.map_append, List.sum_append]

-- The part of a call between the index and the end: new steps become ready.
theorem newSteps_run (newIdxSize : Nat) (hw : WriterRun e p steps) (hfiles : writerFiles e h steps = some files)
    (hr : Reading e p steps r) (hlook : LookSteady e h p steps files r look) {i : IndexReader}
    {n m : Nat} (hn : r.index.stepsCount = n)
    (hm : newCount e h p steps files r look = m) {new : List WriterStep}
    (hnew : new = (steps.drop n).take m)
    (hu : IndexUpdate e p.reader (indexSteps steps) r.index i (indexSteps new))
    (hflat : i.flattenSteps = false) (hopen : 0 < m → r.mdIndexFile = true) :
    ∃ md buffer read all, (if r.index.stepsCount < i.stepsCount then
        installNewSteps p files look newIdxSize else pure ()).run { r with index := i }
        = .ok () { r with
          index := i
          metadata := md
          metaMetadata := buffer
          metaMetaDataFileAlreadyReadSize := read
          metaMetaDataFileAlreadyProcessedSize := read
          installedMetaMeta := all
        } ∧ FormatsRead e steps { r with
          metaMetadata := buffer
          metaMetaDataFileAlreadyReadSize := read
          metaMetaDataFileAlreadyProcessedSize := read
          installedMetaMeta := all
        } ∧ r.installedMetaMeta <+: all ∧
      md = (if m = 0 then r.metadata else (new.map (WriterStep.metadata e)).flatten) ∧
      ∀ s ∈ new, ∀ b ∈ s.metaDataBlocks, hasFormat p all b := by
  have hlen : (indexSteps new).length = m := by
    rw [hnew, indexSteps, List.length_map, List.length_take, List.length_drop]
    have := newCount_le e h p steps files r look
    omega
  have hcount := hu.stepsCount
  rw [hlen] at hcount
  rcases Nat.eq_zero_or_pos m with h₀ | hpos
  case inl =>
    refine ⟨r.metadata, r.metaMetadata, r.metaMetaDataFileAlreadyReadSize, r.installedMetaMeta,
      ?_, { hr.formats with processed := rfl }, List.prefix_rfl, (if_pos h₀).symm, ?_⟩
    · rw [if_neg (by omega), EStateM.run_pure, hr.formats.processed]
    · simp [hnew, h₀]
  case inr =>
    have ⟨size, hsize, hle⟩ := hlook.metadata (hm ▸ hpos)
    have ⟨shown, hshown, hmetaMeta, hformats⟩ := hlook.metaMeta (hm ▸ hpos)
    rw [hn, hm] at hle hformats
    rw [metadataSizes_take_add, ← hnew] at hle
    have hsub : new ⊆ steps := by
      rw [hnew]
      exact fun x hx => List.mem_of_mem_drop (List.mem_of_mem_take hx)
    have hnew_length : new.length = m := by rwa [indexSteps, List.length_map] at hlen
    obtain ⟨s, hs⟩ : ∃ s, new[0]? = some s := ⟨new[0], List.getElem?_eq_getElem (by omega)⟩
    have hs' : steps[n]? = some s := by
      rwa [hnew, List.getElem?_take_of_lt hpos, List.getElem?_drop, Nat.add_zero] at hs
    have hsPos : s.index.metaDataPos = (metadataSizes e (steps.take n)).sum := by
      have hmap : (indexSteps steps)[n]? = some s.index := by
        rw [indexSteps, List.getElem?_map, hs']
        rfl
      rw [hw.continues.metaDataPos hmap, Nat.zero_add, ← hw.sizes fun x hx => List.mem_of_mem_take hx,
        indexSteps, indexSteps]
      simp only [List.map_take]
    have hpieces := hu.pieces s.index (by
      rw [List.head?_eq_getElem?, indexSteps, List.getElem?_map, hs]
      rfl)
    rw [hsPos, hw.sizes hsub] at hpieces
    have htotal : (metadataSizes e (steps.take n)).sum + (metadataSizes e new).sum
        ≤ (metadataSizes e steps).sum := by
      rw [hnew, ← metadataSizes_take_add]
      exact (((List.take_sublist _ _).map _).map _).sum_le_sum fun _ _ => Nat.zero_le _
    have hmd_length : files.md.length = (metadataSizes e steps).sum := by
      rw [md_eq hw hfiles, metadataSizes, sizes_sum]
    have hlt := hw.total
    have ⟨k, hk⟩ := hu.known
    have hcountPos : 0 < i.stepsCount := by omega
    have ⟨buffer, read, more, hrun, hformats', hall⟩ := installNewSteps_run look newIdxSize
      hw hfiles (r := { r with index := i })
      { hr.formats with } hflat (polled_endian hk hcountPos) hpieces (hr.mdFile (hopen hpos))
      (by omega) (by omega) hsize hle hshown hmetaMeta
    refine ⟨(files.md.drop (metadataSizes e (steps.take n)).sum).take (metadataSizes e new).sum,
      buffer, read, r.installedMetaMeta ++ more, ?_, { hformats' with },
      List.prefix_append _ _, ?_, ?_⟩
    · rw [if_pos (by omega)]
      exact hrun
    · rw [if_neg (by omega), md_eq hw hfiles, hnew, List.map_take, List.map_drop,
        ← drop_take_flatten, metadataSizes, metadataSizes, List.map_take, List.map_take,
        List.map_drop]
    · intro s hs b hb
      have hhas := hformats s (hnew ▸ hs) b hb
      rw [hasFormat, List.any_eq_true] at hhas ⊢
      obtain ⟨f, hf, hid⟩ := hhas
      refine ⟨f, ?_, hid⟩
      rcases List.mem_append.mp hf with hf | hf
      · exact List.mem_append_left _ hf
      · exact hall f hf

-- What is closed at the end of a call.
def closed (r : StreamReader) (allParsed : Bool) : StreamReader :=
  if r.index.writerIsActive then
    r
  else
    let mdIndexFile := r.mdIndexFile && !allParsed
    { r with metaMetadataFile := false, mdIndexFile, mdFile := r.mdFile && mdIndexFile }

section Closed

variable {allParsed : Bool}

@[simp]
theorem closed_index : (r.closed allParsed).index = r.index := by
  unfold closed
  split <;> rfl

@[simp]
theorem closed_metadata : (r.closed allParsed).metadata = r.metadata := by
  unfold closed
  split <;> rfl

@[simp]
theorem closed_installedMetaMeta : (r.closed allParsed).installedMetaMeta = r.installedMetaMeta := by
  unfold closed
  split <;> rfl

@[simp]
theorem closed_currentStep : (r.closed allParsed).currentStep = r.currentStep := by
  unfold closed
  split <;> rfl

@[simp]
theorem closed_firstStep : (r.closed allParsed).firstStep = r.firstStep := by
  unfold closed
  split <;> rfl

@[simp]
theorem closed_betweenStepPairs : (r.closed allParsed).betweenStepPairs = r.betweenStepPairs := by
  unfold closed
  split <;> rfl

theorem FormatsRead.closed (hr : FormatsRead e steps r) :
    FormatsRead e steps (r.closed allParsed) := by
  unfold StreamReader.closed
  split
  · exact hr
  · exact { hr with }

theorem closed_mdFile (hr : r.mdIndexFile = true → r.mdFile = true)
    (hopen : (r.closed allParsed).mdIndexFile = true) : (r.closed allParsed).mdFile = true := by
  unfold closed at *
  split at hopen
  case isTrue hactive =>
    rw [if_pos hactive]
    exact hr hopen
  case isFalse hactive =>
    rw [if_neg hactive]
    simp only [Bool.and_eq_true] at *
    exact ⟨hr hopen.left, hopen⟩

theorem of_closed_mdIndexFile (hclosed : (r.closed allParsed).mdIndexFile = false) :
    r.mdIndexFile = false ∨ r.index.writerIsActive = false ∧ allParsed = true := by
  unfold closed at hclosed
  split at hclosed
  case isTrue => exact .inl hclosed
  case isFalse hactive =>
    cases hopen : r.mdIndexFile with
    | false => exact .inl rfl
    | true => exact .inr ⟨by simpa using hactive, by simpa [hopen] using hclosed⟩

end Closed

-- The step lemma of the reader.
theorem updateBuffer_steady (hw : WriterRun e p steps)
    (hfiles : writerFiles e h steps = some files)
    (hflat : (h.flattenSteps && !p.ignoreFlattenSteps) = false) (hr : Reading e p steps r)
    (hlook : LookSteady e h p steps files r look) :
    ∃ r', (updateBuffer p files look).run r = .ok () r' ∧
      Updated e h p steps files look r r' := by
  have hread := readIndex_run files hlook.grows
  have ⟨i, hu, hupdate, hactive, hflatten, hmore⟩ := indexUpdate hw hfiles hflat hr hlook
  have hmono := updateBuffer_mono hu
  have ⟨k, hk⟩ := hupdate.known
  have hcount_le := (hk.knownSteps p.reader_selectsAll hw.continues).le
  rw [indexSteps, List.length_map] at hcount_le
  have hlen : (indexSteps ((steps.drop r.index.stepsCount).take
      (newCount e h p steps files r look))).length = newCount e h p steps files r look := by
    have := newCount_le e h p steps files r look
    rw [indexSteps, List.length_map, List.length_take, List.length_drop]
    omega
  have hcount := hupdate.stepsCount
  rw [hlen] at hcount
  have hopen : 0 < newCount e h p steps files r look → r.mdIndexFile = true := by
    intro hpos
    by_contra hclosed
    have := hr.closed (by simpa using hclosed)
    omega
  let newIdxSize := (visible files r look).length - r.index.mdIndexFileAlreadyReadSize
  let parsedIdxSize := i.mdIndexFileAlreadyReadSize - r.index.mdIndexFileAlreadyReadSize
  have ⟨md, buffer, read, all, hrun, hformats, hpre, hmd, hhas⟩ :=
    newSteps_run newIdxSize hw hfiles hr hlook rfl rfl rfl hupdate hflatten hopen
  let r₂ := { r with
    index := i
    metadata := md
    metaMetadata := buffer
    metaMetaDataFileAlreadyReadSize := read
    metaMetaDataFileAlreadyProcessedSize := read
    installedMetaMeta := all
  }
  refine ⟨r₂.closed (newIdxSize ≤ parsedIdxSize), ?_, ?_⟩
  · simp only [updateBuffer, EStateM.run_bind, hread, EStateM.run_get, Outcome.call, hu,
      EStateM.run_pure, EStateM.run_set]
    split
    case isTrue hnew =>
      rw [if_pos hnew] at hrun
      rw [EStateM.run_bind, hrun]
      rfl
    case isFalse hnew =>
      rw [if_neg hnew, EStateM.run_pure] at hrun
      injection hrun with _ hstate
      rw [hstate]
      rfl
  · have hformats₂ : FormatsRead e steps r₂ := { hformats with }
    refine ⟨⟨⟨k, ?_⟩, hformats₂.closed, ?_, ?_, closed_mdFile hr.mdFile⟩, ?_, ?_, ?_, ?_, ?_, ?_, ?_⟩
    · rwa [closed_index]
    · rwa [closed_index]
    · intro hclosed
      rw [closed_index]
      rcases of_closed_mdIndexFile hclosed with hclosed | ⟨hinactive, hall⟩
      · have ⟨hall, hinactive⟩ := hr.closed hclosed
        refine ⟨?_, hactive.trans ?_⟩
        · change i.stepsCount = steps.length
          omega
        rw [activeAfter, if_neg]
        · exact hinactive
        · rintro ⟨_, hne⟩
          exact hne (by rw [visibleSize, hclosed]; rfl)
      · refine ⟨?_, hinactive⟩
        rcases hlook.finished (hactive ▸ hinactive) with hend | ⟨hpos, hmore'⟩
        · exact hcount.trans hend
        · have := hmore hpos (hcount ▸ hmore')
          have hparsed : newIdxSize ≤ parsedIdxSize := by simpa using hall
          simp only [newIdxSize, parsedIdxSize, visible_length] at hparsed
          omega
    · rw [closed_index]
      exact hcount
    · intro step s hle hlt hs
      rw [closed_index] at hlt
      change step < i.stepsCount at hlt
      have hpos : 0 < newCount e h p steps files r look := by omega
      have hready : StepReady e p r₂ step s := by
        apply stepReady_of_update hw rfl rfl hupdate
        · rw [if_neg (by omega)] at hmd
          exact hmd
        · exact hhas
        · exact hle
        · rw [List.getElem?_take_of_lt (by omega), List.getElem?_drop,
            Nat.add_sub_cancel' hle]
          exact hs
      exact ⟨by simpa using hready.metadata, by simpa using hready.writerMap,
        by simpa using hready.formats⟩
    · rw [closed_index]
      exact hactive
    · rw [closed_installedMetaMeta]
      exact hpre
    · rw [closed_currentStep]
    · rw [closed_firstStep]
    · rw [closed_betweenStepPairs]

end StreamReader

end BP5
