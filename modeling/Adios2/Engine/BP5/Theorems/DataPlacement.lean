import Adios2.Lib.Layout
import Adios2.Engine.BP5.DataPlacement
import Adios2.Engine.BP5.Theorems.MetadataIndexRuns

-- The data of all ranks of a chain is laid out in the file one behind the other, over all writes
-- of all steps, and a reader finds it there.

namespace BP5

open Layout

variable {p : PlacementParams} {size : Nat → Nat} {ws : WriterRanks} {chain : List Nat}

theorem paddingToAlignOffset_eq {a : Nat} (ha : 0 < a) (x : Nat) :
    paddingToAlignOffset x a = padding a x := by
  have hlt := Nat.mod_lt x ha
  by_cases h : a - x % a = a
  · simp [paddingToAlignOffset, padding, h]
  · change (if a - x % a = a then 0 else a - x % a) = _
    rw [if_neg h, padding, Nat.mod_eq_of_lt (show a - x % a < a by omega)]

-- The position from which the first rank of a chain goes on.
def WriterRank.nextPos (p : PlacementParams) (i : Nat) (w : WriterRank) : Nat :=
  if p.dataSizeBased && w.dataPosShared then w.substreamDataPos i else w.dataPos

theorem startWrite_none_dataPos (i : Nat) (w : WriterRank) :
    (w.startWrite p i none).dataPos = w.nextPos p i := by
  simp only [WriterRank.startWrite, WriterRank.nextPos]
  split <;> rfl

-- The ranges that the ranks of a chain have got in a write.
def chainRanges (chain : List Nat) (size start : Nat → Nat) : List (Nat × Nat) :=
  chain.map fun r => (start r, size r)

-- One rank: it starts at the aligned position that it has been told and passes on its end.
theorem placeData_eq (w : WriterRank) (n : Nat) :
    (w.placeData p n).startDataPos = alignUp p.stripeSize w.dataPos ∧
    (w.placeData p n).dataPos = alignUp p.stripeSize w.dataPos + n ∧
    (w.placeData p n).nextWriterPos p n = alignUp p.stripeSize w.dataPos + n := by
  simp [WriterRank.placeData, WriterRank.nextWriterPos, alignUp,
    paddingToAlignOffset_eq p.stripeSize_pos]

theorem passToken_of_notMem {i : Nat} {token : Option Nat} {r : Nat} (hr : r ∉ chain) :
    passToken p i size token chain ws r = ws r := by
  induction chain generalizing token ws with
  | nil => rfl
  | cons r' chain ih =>
    have ⟨hne, hr⟩ := List.ne_and_not_mem_of_not_mem_cons hr
    rw [passToken, ih hr, Function.update_of_ne hne]

variable (p size ws) in
-- The chain as one layout behind the position of its first rank.
theorem passToken_ranges (hchain : chain.Nodup) (i pos : Nat) (token : Option Nat)
    (hpos : ∀ r ∈ chain.head?, ((ws r).startWrite p i token).dataPos = pos) :
    chainRanges chain size (fun r => (passToken p i size token chain ws r).startDataPos)
      = place p.stripeSize pos (chain.map size) ∧
    ∀ r ∈ chain.getLast?, (passToken p i size token chain ws r).dataPos
      = placeEnd p.stripeSize pos (chain.map size) := by
  induction chain generalizing pos token ws with
  | nil => simp [chainRanges, place]
  | cons r chain ih =>
    obtain ⟨hr, hchain⟩ := List.nodup_cons.mp hchain
    have hw := hpos r rfl
    let w := ((ws r).startWrite p i token).placeData p (size r)
    obtain ⟨hstart, hend, hnext⟩ := placeData_eq (p := p) ((ws r).startWrite p i token) (size r)
    rw [hw] at hstart hend hnext
    have hself : passToken p i size token (r :: chain) ws r = w := by
      rw [passToken, passToken_of_notMem hr, Function.update_self]
    obtain ⟨hranges, hlast⟩ := ih (Function.update ws r w) hchain
      (alignUp p.stripeSize pos + size r) (some (w.nextWriterPos p (size r))) fun _ _ => hnext
    constructor
    · have := hranges
      simp only [chainRanges, List.map_cons, place] at this ⊢
      rw [hself, ← this, passToken]
      simp only [w, hstart]
    · cases hc : chain with
      | nil => simpa [passToken, placeEnd] using hend
      | cons r' rest =>
        intro l hl
        rw [hc] at hlast
        rw [passToken, List.map_cons, placeEnd]
        exact hlast l (by simpa using hl)

theorem writeChain_of_notMem {i r : Nat} (hr : r ∉ chain) :
    writeDataEveryoneWrites p i size chain ws r = ws r := by
  unfold writeDataEveryoneWrites
  split
  case h_1 first second rest =>
    have hne := List.ne_of_not_mem_cons hr
    simp only
    rw [Function.update_of_ne hne, passToken_of_notMem hr]
  case h_2 => exact passToken_of_notMem hr

-- A write of a chain is a layout behind the position of its first rank, and that rank gets the end.
variable (p size ws) in
theorem writeChain_ranges (i : Nat) {first : Nat} (hchain : (first :: chain).Nodup) :
    chainRanges (first :: chain) size
        (fun r => (writeDataEveryoneWrites p i size (first :: chain) ws r).startDataPos)
      = place p.stripeSize ((ws first).nextPos p i) ((first :: chain).map size) ∧
    (writeDataEveryoneWrites p i size (first :: chain) ws first).nextPos p i
      = placeEnd p.stripeSize ((ws first).nextPos p i) ((first :: chain).map size) ∧
    (writeDataEveryoneWrites p i size (first :: chain) ws first).nextPos p i
      = (writeDataEveryoneWrites p i size (first :: chain) ws first).dataPos := by
  have ⟨hranges, hlast⟩ := passToken_ranges p size ws hchain i ((ws first).nextPos p i) none
    fun r hr => by cases hr; exact startWrite_none_dataPos i _
  have ⟨hfirst, _⟩ := List.nodup_cons.mp hchain
  have hself : passToken p i size none (first :: chain) ws first
      = ((ws first).startWrite p i none).placeData p (size first) := by
    rw [passToken, passToken_of_notMem hfirst, Function.update_self]
  -- The first rank does not go back to the shared position in this step.
  have hshared : (p.dataSizeBased
      && (((ws first).startWrite p i none).placeData p (size first)).dataPosShared) = false := by
    simp only [WriterRank.placeData, WriterRank.startWrite]
    split <;> simp_all
  cases chain with
  | nil =>
    have := hlast first rfl
    simp only [writeDataEveryoneWrites, WriterRank.nextPos, hself, hshared] at this ⊢
    exact ⟨hranges, this, rfl⟩
  | cons second rest =>
    have hlast := hlast ((second :: rest).getLast (List.cons_ne_nil _ _)) <| by
      rw [Option.mem_def, List.getLast?_cons_cons,
        List.getLast?_eq_some_getLast (List.cons_ne_nil _ _)]
    refine ⟨?_, ?_, ?_⟩
    · rw [← hranges]
      simp only [writeDataEveryoneWrites, chainRanges]
      apply List.map_congr_left
      intro r _
      by_cases hr : r = first
      · rw [hr, Function.update_self]
      · rw [Function.update_of_ne hr]
    · simp only [writeDataEveryoneWrites, Function.update_self, WriterRank.nextPos, hself, hshared,
        Bool.false_eq_true, if_false]
      exact hlast
    · simp only [writeDataEveryoneWrites, Function.update_self, WriterRank.nextPos, hself, hshared,
        Bool.false_eq_true, if_false]

-- Where the chain with index `i` goes on.
def chainPos (p : PlacementParams) (chains : List (List Nat)) (ws : WriterRanks) (i : Nat) : Nat :=
  match chains[i]? with
  | some (first :: _) => (ws first).nextPos p i
  | _                 => 0

-- The chains of a step: no rank is in two of them, and none is empty.
structure Partition (chains : List (List Nat)) : Prop where
  nodup : chains.flatten.Nodup
  ne    : ∀ chain ∈ chains, chain ≠ []

theorem Partition.tail {chains : List (List Nat)} (h : Partition (chain :: chains)) :
    Partition chains where
  nodup := (List.nodup_append.mp h.nodup).2.1
  ne    := fun c hc => h.ne c <| List.mem_cons_of_mem _ hc

theorem writeData_of_notMem {chains : List (List Nat)} {i r : Nat} (hr : r ∉ chains.flatten) :
    writeData p size i chains ws r = ws r := by
  induction chains generalizing i ws with
  | nil => rfl
  | cons chain chains ih =>
    rw [List.flatten_cons, List.mem_append, not_or] at hr
    rw [writeData, ih hr.2, writeChain_of_notMem hr.1]

variable (p size ws) in
-- The chains do not get into each other's way.
theorem writeData_ranges {chains : List (List Nat)} (h : Partition chains) (n i first : Nat)
    (hi : chains[i]? = some (first :: chain)) :
    chainRanges (first :: chain) size (fun r => (writeData p size n chains ws r).startDataPos)
      = place p.stripeSize ((ws first).nextPos p (n + i)) ((first :: chain).map size) ∧
    (writeData p size n chains ws first).nextPos p (n + i)
      = placeEnd p.stripeSize ((ws first).nextPos p (n + i)) ((first :: chain).map size) ∧
    (writeData p size n chains ws first).nextPos p (n + i)
      = (writeData p size n chains ws first).dataPos := by
  induction chains generalizing n i ws with
  | nil => simp at hi
  | cons c chains ih =>
    have ⟨hc, htail, hdisj⟩ := List.nodup_append.mp h.nodup
    cases i with
    | zero =>
      cases hi
      have hframe : ∀ r ∈ first :: chain, writeData p size n ((first :: chain) :: chains) ws r
          = writeDataEveryoneWrites p n size (first :: chain) ws r := by
        intro r hr
        exact writeData_of_notMem fun hr' => hdisj r hr r hr' rfl
      have ⟨hranges, hend⟩ := writeChain_ranges p size ws n hc
      rw [Nat.add_zero, hframe first List.mem_cons_self]
      refine ⟨?_, hend⟩
      rw [← hranges]
      exact List.map_congr_left fun r hr => by simp only [hframe r hr]
    | succ i =>
      have hmem : ∀ r ∈ first :: chain, r ∈ chains.flatten := fun r hr =>
        List.mem_flatten_of_mem (List.mem_of_getElem? hi) hr
      have hfirst := hmem first List.mem_cons_self
      have := ih (writeDataEveryoneWrites p n size c ws) h.tail (n + 1) i hi
      rw [writeChain_of_notMem fun hr => hdisj first hr first hfirst rfl] at this
      rw [writeData, ← Nat.add_assoc, Nat.add_right_comm]
      exact this

-- The ranges of a file in a sequence of writes.
def writeRanges (chain : List Nat) (writes : List DataWrite) : List (Nat × Nat) :=
  writes.flatMap fun w => chainRanges chain w.size w.start

theorem writeAll_ranges {chains : List (List Nat)} (h : Partition chains) (i first : Nat)
    (hi : chains[i]? = some (first :: chain)) (sizes : List (Nat → Nat)) (ws : WriterRanks) :
    ∃ ns, writeRanges (first :: chain) (writeAll p chains sizes ws).2
        = place p.stripeSize ((ws first).nextPos p i) ns ∧
      ((writeAll p chains sizes ws).1 first).nextPos p i
        = placeEnd p.stripeSize ((ws first).nextPos p i) ns ∧
      (sizes ≠ [] → ((writeAll p chains sizes ws).1 first).nextPos p i
        = ((writeAll p chains sizes ws).1 first).dataPos) := by
  induction sizes generalizing ws with
  | nil => exact ⟨[], rfl, rfl, by simp⟩
  | cons size sizes ih =>
    have ⟨hranges, hend, hown⟩ := writeData_ranges p size ws h 0 i first hi
    rw [Nat.zero_add] at hranges hend hown
    have ⟨ns, hns, hns', hown'⟩ := ih (writeData p size 0 chains ws)
    refine ⟨(first :: chain).map size ++ ns, ?_, ?_, fun _ => ?_⟩
    · rw [place_append, ← hend, ← hns, ← hranges]
      rfl
    · rw [placeEnd_append, ← hend, ← hns']
      rfl
    · cases sizes with
      | nil => exact hown
      | cons => exact hown' (List.cons_ne_nil _ _)

-- The runs of a writer. Only with aggregation by data size the chains can differ from step to
-- step, but not their number.
structure ValidRun (p : PlacementParams) (chains : List (List Nat)) (ds : List StepData) :
    Prop where
  partition : ∀ d ∈ ds, Partition d.chains
  length    : ∀ d ∈ ds, d.chains.length = chains.length
  fixed     : p.dataSizeBased = false → ∀ d ∈ ds, d.chains = chains

-- All ranges of the data file with index `i` in a run.
def fileRanges (p : PlacementParams) (i : Nat) (ds : List StepData) (ws : WriterRanks) :
    List (Nat × Nat) :=
  (ds.zip (writeSteps p ds ws)).flatMap fun d => writeRanges (d.1.chains.getD i []) d.2

-- The next step goes on where the file ends, whichever ranks are in the chain.
def Ready (p : PlacementParams) (i pos : Nat) (chains : List (List Nat)) (ws : WriterRanks) :
    Prop :=
  ∀ first chain, chains[i]? = some (first :: chain) → (ws first).nextPos p i = pos

theorem writeStep_ranges {d : StepData} (h : Partition d.chains) {i pos : Nat}
    (hi : i < d.chains.length) (hpos : Ready p i pos d.chains ws) (chains : List (List Nat))
    (hfixed : p.dataSizeBased = false → chains = d.chains) :
    ∃ ns, writeRanges (d.chains.getD i []) (writeStep p d ws).2 = place p.stripeSize pos ns ∧
      Ready p i (placeEnd p.stripeSize pos ns) chains (writeStep p d ws).1 := by
  cases hc : d.chains[i] with
  | nil => exact absurd hc <| h.ne _ (List.getElem_mem hi)
  | cons first chain =>
    have hi' : d.chains[i]? = some (first :: chain) := by rw [List.getElem?_eq_getElem hi, hc]
    have ⟨ns, hns, hend, hown⟩ := writeAll_ranges (p := p) h i first hi' (d.flushes ++ [d.last]) ws
    rw [hpos first chain hi'] at hns hend
    refine ⟨ns, ?_, ?_⟩
    · rw [← hns, List.getD_eq_getElem?_getD, hi']
      rfl
    · intro first' chain' hchain'
      unfold writeStep
      cases hd : p.dataSizeBased with
      | false =>
        rw [hfixed hd, hi'] at hchain'
        cases hchain'
        simpa using hend
      | true =>
        -- Every rank knows what the first rank of the chain knows.
        have hown := hown (by simp)
        simp only [WriterRank.nextPos, shareDataPos, hd, hi', Bool.and_self, if_true]
        rw [← hown, hend]

theorem fileRanges_of_ready {chains : List (List Nat)} {ds : List StepData}
    (h : ValidRun p chains ds) {i pos : Nat} (hi : i < chains.length)
    (hpos : ∀ d ∈ ds.head?, Ready p i pos d.chains ws) :
    ∃ ns, fileRanges p i ds ws = place p.stripeSize pos ns := by
  induction ds generalizing ws pos with
  | nil => exact ⟨[], rfl⟩
  | cons d ds ih =>
    have hd := h.partition d List.mem_cons_self
    have hlen := h.length d List.mem_cons_self
    have htail : ValidRun p chains ds := {
      partition := fun d' h' => h.partition d' <| List.mem_cons_of_mem _ h'
      length    := fun d' h' => h.length d' <| List.mem_cons_of_mem _ h'
      fixed     := fun hf d' h' => h.fixed hf d' <| List.mem_cons_of_mem _ h'
    }
    have hstep := writeStep_ranges hd (hlen ▸ hi) (hpos d rfl)
    have hranges : fileRanges p i (d :: ds) ws
        = writeRanges (d.chains.getD i []) (writeStep p d ws).2
          ++ fileRanges p i ds (writeStep p d ws).1 := rfl
    cases ds with
    | nil =>
      have ⟨ns, hns, _⟩ := hstep d.chains fun _ => rfl
      refine ⟨ns, ?_⟩
      rw [hranges, hns]
      exact List.append_nil _
    | cons d' ds =>
      have ⟨ns, hns, hready⟩ := hstep d'.chains fun hf => by
        rw [h.fixed hf d List.mem_cons_self, htail.fixed hf d' List.mem_cons_self]
      have hready' : ∀ d'' ∈ (d' :: ds).head?, Ready p i (placeEnd p.stripeSize pos ns) d''.chains
          (writeStep p d ws).1 := fun _ h' => by cases h'; exact hready
      have ⟨ns', hns'⟩ := ih htail hready'
      refine ⟨ns ++ ns', ?_⟩
      rw [hranges, hns, hns', place_append]

-- Whatever is written to a file later is behind what is written earlier.
theorem fileRanges_pairwise {chains : List (List Nat)} {ds : List StepData}
    (h : ValidRun p chains ds) (ws : WriterRanks) (i : Nat) :
    (fileRanges p i ds ws).Pairwise Before := by
  by_cases hi : i < chains.length
  case pos =>
    let pos := match ds with
      | []     => 0
      | d :: _ => match d.chains[i]? with
        | some (first :: _) => (ws first).nextPos p i
        | _                 => 0
    have hpos : ∀ d ∈ ds.head?, Ready p i pos d.chains ws := by
      intro d hd first chain hfirst
      cases ds with
      | nil => contradiction
      | cons d' ds =>
        cases hd
        simp [pos, hfirst]
    have ⟨ns, hns⟩ := fileRanges_of_ready h hi hpos
    rw [hns]
    exact place_pairwise _ _
  case neg =>
    have hnil : fileRanges p i ds ws = [] := by
      simp only [fileRanges, List.flatMap_eq_nil_iff]
      intro x hx
      have hlen := h.length x.1 (List.of_mem_zip hx).1
      have : x.1.chains.getD i [] = [] := by
        rw [List.getD_eq_getElem?_getD, List.getElem?_eq_none (by omega)]
        rfl
      rw [this]
      simp [writeRanges, chainRanges]
    rw [hnil]
    exact .nil

section Read

open Bytes

variable {e : Endian} {r : IndexReader}

theorem DataWrite.flushPosSize_getD (w : DataWrite) {n rank : Nat} (h : rank < n) :
    (w.flushPosSize n).getD (2 * rank) 0 = w.start rank ∧
    (w.flushPosSize n).getD (2 * rank + 1) 0 = w.size rank := by
  have ⟨h₁, h₂⟩ := List.getElem?_flatMap_pair w.start w.size (List.range n) rank
  simp [flushPosSize, List.getD_eq_getElem?_getD, h₁, h₂, List.getElem?_range h]

-- The numbers of a writer in the record of a step are the places and sizes of its writes.
theorem Records.writerNumbers_eq {s : IndexStep} {writes : List DataWrite} (h : Records s writes)
    {rank : Nat} (hr : rank < s.commSize) {w : DataWrite} (hw : writes.getLast? = some w) :
    s.writerNumbers rank
      = writes.dropLast.flatMap (fun w => [w.start rank, w.size rank]) ++ [w.start rank] := by
  have hlast : s.writerDataPos.getD rank 0 = w.start rank := by
    rw [h.last w hw, List.getD_eq_getElem?_getD]
    simp [DataWrite.dataPos, List.getElem?_range hr]
  rw [IndexStep.writerNumbers, hlast, h.flushes, List.flatMap_map]
  congr 2
  funext w
  obtain ⟨h₁, h₂⟩ := w.flushPosSize_getD hr
  rw [h₁, h₂]

namespace IndexReader

theorem readAt_eq {base offset : Nat} (h : base + offset < 2 ^ 64) :
    readAt base offset = .ok (base + offset) := by
  have : ¬ (offset > 2 ^ 64 - 1 ∨ base > 2 ^ 64 - 1 - offset) := by omega
  rw [readAt, if_neg this]

theorem readUInts_succ {w n pos : Nat} {buffer : List Byte} {x : Nat} {xs : List Nat} :
    readUInts e w buffer pos (n + 1) = some (x :: xs) ↔
      readUInt e w buffer pos = some x ∧ readUInts e w buffer (pos + w) n = some xs := by
  simp [readUInts, Option.bind_eq_some_iff]

-- The walk stops at the write that has the byte.
theorem readFlushes_eq {writes : List DataWrite} {last w : DataWrite} {rank pos i : Nat} (sum : Nat)
    (hn : readUInts r.minifooter.endian 8 r.metadataIndex pos (2 * writes.length + 1)
      = some (writes.flatMap (fun w => [w.start rank, w.size rank]) ++ [last.start rank]))
    {f : Nat} (hf : (writes ++ [last])[f]? = some w) (hi : i < w.size rank)
    (hfit : w.start rank + i < 2 ^ 64) :
    r.readFlushes (sum + ((((writes ++ [last]).take f).map (·.size rank)).sum + i)) writes.length
      pos sum = .ok (w.start rank + i) := by
  induction writes generalizing pos sum f with
  | nil =>
    obtain rfl : f = 0 := by
      have := (List.getElem?_eq_some_iff.mp hf).1
      simp at this
      omega
    cases hf
    have ⟨hpos, _⟩ := readUInts_succ.mp hn
    simp [readFlushes, hpos, readAt_eq hfit]
  | cons w' writes ih =>
    have ⟨hpos, hn⟩ := readUInts_succ.mp hn
    have ⟨hsize, hn⟩ := readUInts_succ.mp hn
    rw [List.length_cons, readFlushes, hpos, hsize]
    simp only [Option.orUndefined_some, Outcome.ok_bind]
    cases f with
    | zero =>
      cases hf
      have hlt : sum + ((((w :: writes ++ [last]).take 0).map (·.size rank)).sum + i)
          < sum + w.size rank := by
        simpa using hi
      rw [if_pos hlt]
      simpa using readAt_eq hfit
    | succ f =>
      have hsum : sum + ((((w' :: writes ++ [last]).take (f + 1)).map (·.size rank)).sum + i)
          = sum + w'.size rank + ((((writes ++ [last]).take f).map (·.size rank)).sum + i) := by
        simp
        omega
      rw [hsum, if_neg (by omega)]
      exact ih _ hn hf

-- What `seenStep` finds is what `ReadData` walks over.
theorem dataPosOf_of_seenStep {step : Nat} {t : IndexTableEntry} {s : IndexStep}
    {m : WriterMapStruct} (h : r.seenStep (step, t) = some (s.seen m))
    {rank : Nat} (hr : rank < s.commSize) :
    r.dataPosOf t rank = some (s.writerNumbers rank) ∧ t.flushCount = s.flushCount := by
  simp only [seenStep, Option.bind_eq_bind, Option.bind_eq_some_iff, pure, Option.some.injEq] at h
  obtain ⟨_, _, m', _, dataPos, hdata, h⟩ := h
  have hm : m' = m := congrArg SeenStep.writerMap h
  have hflush : t.flushCount = s.flushCount := congrArg SeenStep.flushCount h
  have hdataPos : dataPos = (List.range s.commSize).map s.writerNumbers :=
    congrArg SeenStep.dataPos h
  have hlen : m'.writerCount = s.commSize := by
    have := (List.mapM_eq_some_iff_forall₂.mp hdata).length_eq
    simpa [hdataPos] using this
  refine ⟨?_, hflush⟩
  rw [List.getElem?_of_mapM_range hdata (hlen ▸ hr), hdataPos]
  simp [List.getElem?_range hr]

theorem readData_eq {writes : List DataWrite} {s : IndexStep} (hs : Records s writes)
    {m : WriterMapStruct} {step : Nat} {t : IndexTableEntry}
    (ht : r.metadataIndexTable.lookup step = some t)
    (hseen : r.seenStep (step, t) = some (s.seen m)) {rank : Nat} (hr : rank < s.commSize)
    {f i : Nat} {w : DataWrite} (hf : writes[f]? = some w) (hi : i < w.size rank)
    (hfit : w.start rank + i < 2 ^ 64) :
    r.readData rank step (((writes.take f).map (·.size rank)).sum + i)
      = .ok (w.start rank + i) := by
  have hne : writes ≠ [] := by
    rintro rfl
    simp at hf
  have hlast : writes.getLast? = some (writes.getLast hne) := List.getLast?_eq_some_getLast hne
  have hsplit := List.dropLast_append_getLast hne
  have ⟨hdata, hflush⟩ := dataPosOf_of_seenStep hseen hr
  have hcount : t.flushCount = writes.dropLast.length := by
    rw [hflush, IndexStep.flushCount, hs.flushes, List.length_map]
  rw [dataPosOf, hs.writerNumbers_eq hr hlast, hcount] at hdata
  rw [← hsplit] at hf
  have := readFlushes_eq 0 hdata hf hi hfit
  rw [hsplit, Nat.zero_add, ← hcount] at this
  simpa [readData, ht] using this

end IndexReader

end Read

-- Two ranks share a file, and there is one flush in the step.
def stripes : PlacementParams where
  stripeSize        := 4
  dataSizeBased     := false
  serializedWriters := false
  stripeSize_pos    := by decide

def twoRanks : StepData where
  chains  := [[0, 1]]
  flushes := [fun r => if r = 0 then 3 else 2]
  last    := fun r => if r = 0 then 1 else 2

def twoRanksStep : IndexStep where
  commSize         := 2
  numAggregators   := 1
  subStreams       := 1
  writerSubfileMap := [0, 0]
  flushPosSizeInfo := [[0, 3, 4, 2]]
  writerDataPos    := [8, 12]
  metaDataPos      := 0
  metaDataSize     := 48

def twoRanksReader : IndexReader where
  writerMap          := fun _ => some twoRanksStep.mapStruct
  writerMapIndex     := [0]
  metadataIndexTable := [(0, ⟨0, 48, 1, 0, 0⟩)]
  metadataIndex      := Bytes.u64s .little [0, 3, 8, 4, 2, 12]

end BP5
