import Mathlib
import Adios2.Engine.BP5.DataSizeAggregation

-- What a writer that appends finds in the metadata index: positions in the subfiles that are behind
-- everything that stays in them.

theorem Outcome.exists_foldlM_eq_ok {α β} {f : β → α → Outcome β} {p : β → Prop} {l : List α} {b : β}
    (hb : p b) (h : ∀ b, ∀ a ∈ l, p b → ∃ b', f b a = .ok b' ∧ p b') :
    ∃ b', l.foldlM f b = .ok b' ∧ p b' := by
  induction l generalizing b with
  | nil => exact ⟨b, rfl, hb⟩
  | cons a l ih =>
    have ⟨b', hb', hp⟩ := h b a List.mem_cons_self hb
    have ⟨b'', hb'', hp'⟩ := ih hp fun b a ha => h b a (List.mem_cons_of_mem _ ha)
    exact ⟨b'', by rw [List.foldlM_cons, hb', Outcome.ok_bind, hb''], hp'⟩

namespace BP5

-- The bytes that have been written to subfile `i` are in front of `pos`.
def Covered (i pos : Nat) (writes : List PlacedWrite) : Prop :=
  ∀ w ∈ writes, ∀ r, w.subStreamIndex[r]? = some i → 0 < w.size r → w.start r + w.size r ≤ pos

-- In each subfile, all ranges of the one write are behind the bytes of the other.
def Behind (w w' : PlacedWrite) : Prop :=
  ∀ i r, w'.subStreamIndex[r]? = some i → Covered i (w'.start r) [w]

-- The bytes that the ranks write at once to a subfile are not the same.
def PlacedWrite.Apart (w : PlacedWrite) : Prop :=
  ∀ i r r', r ≠ r' → w.subStreamIndex[r]? = some i → w.subStreamIndex[r']? = some i →
    w.start r + w.size r ≤ w.start r' ∨ w.start r' + w.size r' ≤ w.start r

structure WriterMap.Valid (m : WriterMap) : Prop where
  length : m.writerToFileMap.length = m.writerCount
  lt     : ∀ i ∈ m.writerToFileMap, i < m.subfileCount

-- All data of a step, with its flushes, is where the last writer map in front of the step says.
def Recorded : WriterMap → List IndexEntry → Prop
  | _, []                   => True
  | _, .writerMap m :: es   => m.Valid ∧ Recorded m es
  | m, .step writes :: es   =>
    writes ≠ [] ∧ (∀ w ∈ writes, w.subStreamIndex = m.writerToFileMap) ∧ Recorded m es

section Covered

variable {i pos pos' : Nat} {writes writes' : List PlacedWrite} {w : PlacedWrite}

theorem covered_nil : Covered i pos [] :=
  fun _ h => nomatch h

theorem Covered.mono (h : Covered i pos writes) (hle : pos ≤ pos') : Covered i pos' writes :=
  fun w hw r hr hpos => (h w hw r hr hpos).trans hle

theorem Covered.subset (h : Covered i pos writes) (hsub : writes' ⊆ writes) :
    Covered i pos writes' :=
  fun w hw => h w (hsub hw)

theorem covered_append :
    Covered i pos (writes ++ writes') ↔ Covered i pos writes ∧ Covered i pos writes' := by
  simp only [Covered, List.mem_append]
  constructor
  · exact fun h => ⟨fun w hw => h w (.inl hw), fun w hw => h w (.inr hw)⟩
  · rintro ⟨h, h'⟩ w (hw | hw)
    · exact h w hw
    · exact h' w hw

theorem covered_of_behind (h : ∀ w' ∈ writes, Behind w' w) {r : Nat}
    (hr : w.subStreamIndex[r]? = some i) : Covered i (w.start r) writes :=
  fun w' hw' => h w' hw' i r hr w' List.mem_cons_self

end Covered

section Recorded

variable {m m' : WriterMap} {es : List IndexEntry}

theorem Recorded.entriesBefore (h : Recorded m es) (n : Nat) : Recorded m (entriesBefore n es) := by
  induction es generalizing m n with
  | nil => exact trivial
  | cons e es ih =>
    cases e with
    | writerMap m' => exact ⟨h.1, ih h.2 n⟩
    | step writes =>
      cases n with
      | zero => exact trivial
      | succ n => exact ⟨h.1, h.2.1, ih h.2.2 n⟩

theorem Recorded.append (h : Recorded m es) (hm : m'.Valid) {writes : List PlacedWrite}
    (hne : writes ≠ []) (hmap : ∀ w ∈ writes, w.subStreamIndex = m'.writerToFileMap) :
    Recorded m (es ++ [.writerMap m', .step writes]) := by
  induction es generalizing m with
  | nil => exact ⟨hm, hne, hmap, trivial⟩
  | cons e es ih =>
    cases e with
    | writerMap m'' => exact ⟨h.1, ih h.2⟩
    | step writes' => exact ⟨h.1, h.2.1, ih h.2.2⟩

end Recorded

theorem entriesBefore_sublist (n : Nat) (es : List IndexEntry) :
    ((entriesBefore n es).flatMap IndexEntry.writes).Sublist (es.flatMap IndexEntry.writes) := by
  induction es generalizing n with
  | nil => exact .slnil
  | cons e es ih =>
    cases e with
    | writerMap m => exact ih n
    | step writes =>
      cases n with
      | zero => exact List.nil_sublist _
      | succ n => exact (ih n).append_left writes

-- The positions that have been found for the subfiles are those of `p`.
def Found (p : Nat → Nat → Prop) (n : Nat) (appendDataPos : List (Option Nat)) : Prop :=
  appendDataPos.length = n ∧ ∀ i pos : Nat, appendDataPos[i]? = some (some pos) → p i pos

variable {p : Nat → Nat → Prop} {n : Nat} {dataPos : List (Option Nat)}

theorem Found.lowerDataPos (h : Found p n dataPos) {subfile firstDataPos : Nat} (hlt : subfile < n)
    (hp : p subfile firstDataPos) :
    ∃ dataPos', lowerDataPos dataPos subfile firstDataPos = .ok dataPos' ∧ Found p n dataPos' := by
  have ⟨hlen, hfound⟩ := h
  have hset : Found p n (dataPos.set subfile (some firstDataPos)) := by
    refine ⟨by rw [List.length_set, hlen], fun i pos hi => ?_⟩
    by_cases heq : subfile = i
    case pos =>
      subst heq
      rw [List.getElem?_set_self (hlen ▸ hlt)] at hi
      cases hi
      exact hp
    case neg =>
      rw [List.getElem?_set_ne heq] at hi
      exact hfound i pos hi
  have hget : dataPos[subfile]? = some dataPos[subfile] := List.getElem?_eq_getElem (hlen ▸ hlt)
  rw [BP5.lowerDataPos, hget]
  cases dataPos[subfile] with
  | none => exact ⟨_, rfl, hset⟩
  | some pos =>
    refine ⟨_, rfl, ?_⟩
    split
    · exact hset
    · exact h

theorem Found.lowerDataPositions (h : Found p n dataPos) {m : WriterMap} (hm : m.Valid)
    (hn : m.subfileCount ≤ n) {w : PlacedWrite} (hw : w.subStreamIndex = m.writerToFileMap)
    (hp : ∀ i r, w.subStreamIndex[r]? = some i → p i (w.start r)) :
    ∃ dataPos', lowerDataPositions m w dataPos = .ok dataPos' ∧ Found p n dataPos' := by
  apply Outcome.exists_foldlM_eq_ok h
  intro dataPos r hr h
  have hlt : r < m.writerToFileMap.length := hm.length ▸ List.mem_range.mp hr
  have hget : m.writerToFileMap[r]? = some m.writerToFileMap[r] := List.getElem?_eq_getElem hlt
  have hsub := hm.lt _ (List.getElem_mem hlt)
  have hpos := hp _ r (by rw [hw]; exact hget)
  have ⟨dataPos', hdata, hfound⟩ := h.lowerDataPos (hsub.trans_le hn) hpos
  refine ⟨dataPos', ?_, hfound⟩
  rw [hget, Option.orUndefined_some, Outcome.ok_bind, hdata]

-- The loop over the records. The position of a subfile is the start of a range of the target step,
-- and everything in front of that step lies before it.
theorem appendDataPosAt_spec {targetStep currentStep : Nat} {m : WriterMap} {es : List IndexEntry}
    (hrec : Recorded m es) (hm : m.Valid) (hcount : m.subfileCount ≤ n)
    (hfiles : nDataFiles es ≤ n) (hle : currentStep ≤ targetStep)
    (hbehind : (es.flatMap IndexEntry.writes).Pairwise Behind) :
    ∃ dataPos, appendDataPosAt targetStep currentStep m es (List.replicate n none) = .ok dataPos ∧
      Found (fun i pos => ∃ w ∈ es.flatMap IndexEntry.writes, ∃ r, w.subStreamIndex[r]? = some i ∧
        w.start r = pos ∧
        ∀ w' ∈ (entriesBefore (targetStep - currentStep) es).flatMap IndexEntry.writes, Behind w' w)
        n dataPos := by
  have hnone : ∀ p, Found p n (List.replicate n none) := by
    refine fun p => ⟨List.length_replicate, fun i pos hi => ?_⟩
    rw [List.getElem?_replicate] at hi
    split at hi <;> cases hi
  induction es generalizing m currentStep with
  | nil => exact ⟨_, rfl, hnone _⟩
  | cons e es ih =>
    cases e with
    | writerMap m' =>
      exact ih hrec.2 hrec.1 ((Nat.le_max_left _ _).trans hfiles)
        ((Nat.le_max_right _ _).trans hfiles) hle hbehind
    | step writes =>
      have ⟨hne, hmap, hrec⟩ := hrec
      have ⟨_, htail, hcross⟩ := List.pairwise_append.mp hbehind
      rw [appendDataPosAt]
      by_cases heq : currentStep = targetStep
      case pos =>
        have ⟨w, ws, hws⟩ := List.exists_cons_of_ne_nil hne
        subst hws
        rw [if_pos heq]
        apply (hnone _).lowerDataPositions hm hcount (hmap w List.mem_cons_self)
        intro i r hr
        refine ⟨w, List.mem_append_left _ List.mem_cons_self, r, hr, rfl, ?_⟩
        rw [heq, Nat.sub_self]
        exact fun w' hw' => nomatch hw'
      case neg =>
        have hlt : currentStep + 1 ≤ targetStep := by omega
        have ⟨dataPos, hdata, hlen, hfound⟩ := ih hrec hm hcount hfiles hlt htail
        rw [if_neg heq]
        refine ⟨dataPos, hdata, hlen, fun i pos hi => ?_⟩
        obtain ⟨w, hw, r, hr, hpos, hbefore⟩ := hfound i pos hi
        refine ⟨w, List.mem_append_right _ hw, r, hr, hpos, fun w' hw' => ?_⟩
        rw [show targetStep - currentStep = targetStep - (currentStep + 1) + 1 by omega] at hw'
        rcases List.mem_append.mp hw' with hw' | hw'
        · exact hcross w' hw' w hw
        · exact hbefore w' hw'

-- The writes that stay when a file is appended to.
def keptWrites (targetStep : Nat) (index : Option (List IndexEntry)) : List PlacedWrite :=
  ((truncateIndex targetStep index).getD []).flatMap IndexEntry.writes

theorem keptWrites_sublist (targetStep : Nat) (f : DataFiles) :
    (keptWrites targetStep f.index).Sublist f.writes := by
  unfold keptWrites truncateIndex
  split
  case isTrue => exact List.nil_sublist _
  case isFalse =>
    rw [DataFiles.writes, DataFiles.entries]
    cases f.index with
    | none => exact .slnil
    | some es => exact entriesBefore_sublist targetStep es

-- What the files of earlier writers look like.
structure DataFiles.WellPlaced (f : DataFiles) : Prop where
  behind   : f.writes.Pairwise Behind
  apart    : ∀ w ∈ f.writes, w.Apart
  covered  : ∀ i, Covered i (f.size i) f.writes
  recorded : Recorded {} f.entries

theorem DataFiles.wellPlaced_empty : ({} : DataFiles).WellPlaced where
  behind   := .nil
  apart    := fun _ h => nomatch h
  covered  := fun _ => covered_nil
  recorded := trivial

theorem countSteps_spec {q : DataSizeParams} {f : DataFiles} (h : f.WellPlaced)
    (hfiles : ∀ es, f.index = some es → q.subStreams ≤ nDataFiles es) :
    ∃ targetStep dataPos, countStepsInMetadataIndex q f.index = .ok (targetStep, dataPos) ∧
      q.subStreams ≤ dataPos.length ∧ ∀ i pos : Nat, dataPos[i]? = some (some pos) →
        Covered i pos (keptWrites targetStep f.index) := by
  unfold countStepsInMetadataIndex
  cases hindex : f.index with
  | none =>
    refine ⟨0, _, rfl, List.length_replicate.ge, fun i pos _ => ?_⟩
    exact covered_nil
  | some es =>
    have hle := hfiles es hindex
    simp only
    split
    case isTrue => exact ⟨0, _, rfl, by simpa using hle, fun i pos _ => covered_nil⟩
    case isFalse hzero =>
      split
      case isTrue =>
        refine ⟨_, _, rfl, by simpa using hle, fun i pos hi => ?_⟩
        rw [List.getElem?_replicate] at hi
        split at hi <;> cases hi
      case isFalse =>
        have hwrites : f.writes = es.flatMap IndexEntry.writes := by
          rw [DataFiles.writes, DataFiles.entries, hindex]
          rfl
        have hrec : Recorded {} es := by
          have := h.recorded
          rwa [DataFiles.entries, hindex] at this
        have hvalid : ({} : WriterMap).Valid := ⟨rfl, fun _ h => nomatch h⟩
        let targetStep := appendTargetStep q.appendAfterSteps (es.countP IndexEntry.isStep)
        have ⟨dataPos, hdata, hlen, hfound⟩ := appendDataPosAt_spec hrec hvalid (Nat.zero_le _)
          le_rfl (Nat.zero_le targetStep) (hwrites ▸ h.behind)
        rw [hdata]
        refine ⟨_, _, rfl, hlen ▸ hle, fun i pos hi => ?_⟩
        obtain ⟨w, _, r, hr, rfl, hbefore⟩ := hfound i pos hi
        apply covered_of_behind (fun w' hw' => hbefore w' ?_) hr
        rwa [keptWrites, truncateIndex, if_neg hzero] at hw'

end BP5
