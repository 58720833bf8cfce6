import Adios2.Engine.BP5.Theorems.MetadataIndexGathering
import Adios2.Engine.BP5.Theorems.MetadataIndexRuns

-- What a call of `UpdateBuffer` finds in the index file of a run when all steps are selected, in
-- terms of the steps of the writer.

namespace BP5

open Bytes

theorem readBytes_set {pos n i : Nat} {buf : List Byte} {b : Byte} (h : i < pos ∨ pos + n ≤ i) :
    readBytes (buf.set i b) pos n = readBytes buf pos n := by
  unfold readBytes
  rw [List.length_set, List.drop_set]
  by_cases hi : i < pos
  · rw [if_pos hi]
  · rw [if_neg hi, List.take_set_of_le (by omega)]

theorem readUInt_set {e : Endian} {w pos i : Nat} {buf : List Byte} {b : Byte}
    (h : i < pos ∨ pos + w ≤ i) : readUInt e w (buf.set i b) pos = readUInt e w buf pos := by
  rw [readUInt, readBytes_set h, readUInt]

theorem holds_set {i : Nat} {buf : List Byte} {b : Byte} (hi : i < buf.length) :
    Holds (buf.set i b) i [b] := by
  have hi' : i < (buf.set i b).length := by
    rwa [List.length_set]
  rw [Holds, List.drop_eq_getElem_cons hi', List.getElem_set_self hi']
  exact List.prefix_append [b] _

-- A header in which the flag of the writer is cleared.
theorem IndexReader.parseHeader_set {p : ReaderParams} {r r₀ : IndexReader} {buffer : List Byte}
    (h : r.parseHeader p buffer = .ok r₀) :
    r.parseHeader p (buffer.set activeFlagPosition 0) = .ok { r₀ with writerIsActive := false } := by
  have hlen := parseHeader_length_le h
  have hflag (e : Endian) : readUInt e 1 (buffer.set activeFlagPosition 0) activeFlagPosition
      = some 0 := by
    have hi : activeFlagPosition < buffer.length := by
      simp only [headerEnd, fileUUIDPosition, activeFlagPosition] at *
      omega
    exact readUInt_byte (holds_set hi)
  simp only [parseHeader, Outcome.bind_eq_ok, Option.orUndefined_eq_ok] at h
  obtain ⟨versionTag, htag, endianness, hendian, version, hversion, h⟩ := h
  split at h
  case isTrue => contradiction
  case isFalse hv =>
    simp only [Outcome.bind_eq_ok, Option.orUndefined_eq_ok] at h
    obtain ⟨minor, hminor, h⟩ := h
    split at h
    case isTrue => contradiction
    case isFalse hm =>
      simp only [Outcome.bind_eq_ok, Option.orUndefined_eq_ok, Outcome.pure_eq,
        Except.ok.injEq] at h
      obtain ⟨active, _, major, hmajor, flatten, hflatten, uuid, huuid, rfl⟩ := h
      have htag' := htag
      rw [← readBytes_set (b := 0) (i := activeFlagPosition) (.inr (by decide))] at htag'
      rw [← readUInt_set (b := 0) (i := activeFlagPosition) (.inr (by decide))] at hendian
      rw [← readUInt_set (b := 0) (i := activeFlagPosition) (.inr (by decide))] at hversion
      rw [← readUInt_set (b := 0) (i := activeFlagPosition) (.inr (by decide))] at hminor
      rw [← readUInt_set (b := 0) (i := activeFlagPosition) (.inl (by decide))] at hmajor
      rw [← readUInt_set (b := 0) (i := activeFlagPosition) (.inl (by decide))] at hflatten
      rw [← readUInt_set (b := 0) (i := activeFlagPosition) (.inl (by decide))] at huuid
      simp only [parseHeader, htag', hendian, hversion, hv, hminor, hm, hflag, hmajor, hflatten,
        huuid, Option.orUndefined_some, Outcome.ok_bind, if_false, Outcome.pure_eq]
      rfl

variable {e : Endian} {h : HeaderInfo} {p : ReaderParams} {steps : List IndexStep}

-- The steps up to the one with which a limit on the size of their metadata is reached.
def withinLimit : Nat → List IndexStep → List IndexStep
  | _, []             => []
  | limit, s :: steps => if limit = 0 then [] else s :: withinLimit (limit - s.metaDataSize) steps

theorem withinLimit_eq_take {limit m : Nat} (hm : m ≤ steps.length)
    (hbefore : 0 < m → ((steps.take (m - 1)).map IndexStep.metaDataSize).sum < limit)
    (hstop : m = steps.length ∨ limit ≤ ((steps.take m).map IndexStep.metaDataSize).sum) :
    withinLimit limit steps = steps.take m := by
  induction steps generalizing limit m with
  | nil => simp [withinLimit]
  | cons s steps ih =>
    cases m with
    | zero =>
      have hlimit : limit = 0 := by simpa using hstop
      simp [withinLimit, hlimit]
    | succ m =>
      have hlt := hbefore (Nat.succ_pos m)
      rw [Nat.add_sub_cancel] at hlt
      have hne : limit ≠ 0 := by omega
      rw [withinLimit, if_neg hne, List.take_succ_cons, ih]
      · simpa using hm
      · intro hpos
        obtain ⟨i, rfl⟩ : ∃ i, m = i + 1 := ⟨m - 1, by omega⟩
        rw [List.take_succ_cons, List.map_cons, List.sum_cons] at hlt
        rw [Nat.add_sub_cancel]
        omega
      · rw [List.take_succ_cons, List.map_cons, List.sum_cons, List.length_cons] at hstop
        omega

theorem withinLimit_prefix_steps (limit : Nat) (steps : List IndexStep) :
    withinLimit limit steps <+: steps := by
  induction steps generalizing limit with
  | nil => exact List.nil_prefix
  | cons s steps ih =>
    rw [withinLimit]
    split
    · exact List.nil_prefix
    · exact List.cons_prefix_cons.mpr ⟨rfl, ih _⟩

-- The number of steps that are complete in this much of the index file.
def completeSteps (e : Endian) (h : HeaderInfo) (steps : List IndexStep) (size : Nat) : Nat :=
  Nat.findGreatest (fun m => indexSize e h (steps.take m) ≤ size) steps.length

-- What a call finds in this much of the index file.
def foundSteps (e : Endian) (h : HeaderInfo) (p : ReaderParams) (steps : List IndexStep)
    (known size : Nat) : List IndexStep :=
  withinLimit p.maxMetadataSizeInMemory ((steps.take (completeSteps e h steps size)).drop known)

theorem foundSteps_prefix_drop (e : Endian) (h : HeaderInfo) (p : ReaderParams)
    (steps : List IndexStep) (known size : Nat) :
    foundSteps e h p steps known size <+: steps.drop known :=
  (withinLimit_prefix_steps _ _).trans ((List.take_prefix _ steps).drop known)

theorem completeSteps_le (e : Endian) (h : HeaderInfo) (steps : List IndexStep) (size : Nat) : completeSteps e h steps size ≤ steps.length :=
  Nat.findGreatest_le _

theorem le_completeSteps {m size : Nat} (hm : m ≤ steps.length)
    (hsize : indexSize e h (steps.take m) ≤ size) : m ≤ completeSteps e h steps size :=
  Nat.le_findGreatest hm hsize

theorem indexSize_completeSteps (e : Endian) (h : HeaderInfo) (steps : List IndexStep)
    (size : Nat) :
    indexSize e h (steps.take (completeSteps e h steps size)) ≤ size := by
  apply Nat.findGreatest_spec (P := fun m => indexSize e h (steps.take m) ≤ size) (Nat.zero_le _)
  simp [indexSize]

theorem completeSteps_mono {m n : Nat} (hmn : m ≤ n) :
    completeSteps e h steps m ≤ completeSteps e h steps n :=
  le_completeSteps (completeSteps_le e h steps m)
    ((indexSize_completeSteps e h steps m).trans hmn)

-- What is seen of a step is its own.
structure Depicts (x : SeenStep) (s : IndexStep) : Prop where
  metadataPos  : x.metadataPos = s.metaDataPos
  metadataSize : x.metadataSize = s.metaDataSize
  writerCount  : x.writerMap.writerCount = s.commSize

theorem seen_depicts (hp : p.SelectsAll) {v : IndexView} {n pos : Nat}
    (hc : IndexStep.Continues n pos steps) (hv : v.map.writerCount = n) :
    ∃ new, (steps.foldl (IndexView.next p) v).seen = v.seen ++ new ∧
      List.Forall₂ Depicts new steps := by
  induction steps generalizing v n pos with
  | nil => exact ⟨[], by simp, .nil⟩
  | cons s steps ih =>
    obtain ⟨_, _, _, hn, hc⟩ := hc
    have hmap : (v.next p s).map.writerCount = s.commSize := by
      unfold IndexView.next
      split
      case isTrue hm =>
        rw [hn (List.isEmpty_iff.mp hm)]
        exact hv
      case isFalse => rfl
    have hseen : (v.next p s).seen = v.seen ++ [s.seen (v.next p s).map] := by
      unfold IndexView.next IndexView.addStep
      split <;> simp [hp _, IndexView.addMap]
    obtain ⟨new, hnew, hdepicts⟩ := ih hc hmap
    refine ⟨s.seen (v.next p s).map :: new, ?_, .cons ⟨rfl, rfl, hmap⟩ hdepicts⟩
    rw [List.foldl_cons, hnew, hseen, List.append_assoc]
    rfl

theorem after_depicts (hp : p.SelectsAll) (hc : IndexStep.Continues 0 0 steps) (m : Nat) :
    List.Forall₂ Depicts (IndexView.after p (steps.take m)).seen (steps.take m) := by
  have ⟨new, hnew, hdepicts⟩ := seen_depicts hp (hc.take m) (v := {}) rfl
  rw [IndexView.after, hnew]
  exact hdepicts

theorem Depicts.sizes {seen : List SeenStep} (hseen : List.Forall₂ Depicts seen steps) :
    seen.map SeenStep.metadataSize = steps.map IndexStep.metaDataSize := by
  induction hseen with
  | nil => rfl
  | cons hx _ ih => rw [List.map_cons, List.map_cons, hx.metadataSize, ih]

section Known

open IndexStep

variable {r r' : IndexReader} {k k' : Nat} {visible : List Byte}

-- What a number of records is in steps.
structure KnownSteps (e : Endian) (p : ReaderParams) (steps : List IndexStep) (k known : Nat) :
    Prop where
  le    : known ≤ steps.length
  seen  : (viewOf p (steps.flatMap records) k).seen = (IndexView.after p (steps.take known)).seen
  bytes : (((steps.take known).flatMap records).flatMap (IndexRecord.bytes e)).length
    ≤ (((steps.flatMap records).take k).flatMap (IndexRecord.bytes e)).length
  all   : k = (steps.flatMap records).length → known = steps.length
  next  : k < (steps.flatMap records).length →
    (((steps.flatMap records).take (k + 1)).flatMap (IndexRecord.bytes e)).length
      ≤ (((steps.take (known + 1)).flatMap records).flatMap (IndexRecord.bytes e)).length

theorem Polled.knownSteps (hp : p.SelectsAll) (hc : Continues 0 0 steps)
    (hr : Polled e p (steps.flatMap records) k r) : KnownSteps e p steps k r.stepsCount := by
  have ⟨m, hm, _, hseen, hbytes, hall, hnext⟩ := exists_take_of_records (e := e) (p := p) {} hr.le
  have hlen := (after_depicts hp hc m).length_eq
  rw [IndexView.after, ← hseen, List.length_take, Nat.min_eq_left hm] at hlen
  have hcount := hr.tracks.stepsCount
  rw [viewOf, hlen] at hcount
  rw [hcount]
  exact ⟨hm, hseen, hbytes, hall, hnext⟩

-- The steps that are new are those that are found.
theorem foundSteps_eq (hp : p.SelectsAll) (hc : Continues 0 0 steps) {known known' : Nat}
    (hk : KnownSteps e p steps k known) (hk' : KnownSteps e p steps k' known')
    {new : List SeenStep} (hnew : (viewOf p (steps.flatMap records) k').seen
      = (viewOf p (steps.flatMap records) k).seen ++ new) (hle : k ≤ k')
    (hle' : k' ≤ (steps.flatMap records).length)
    (hfit : k < k' → indexHeaderSize
      + (((steps.flatMap records).take k').flatMap (IndexRecord.bytes e)).length ≤ visible.length)
    (hstop : k' = (steps.flatMap records).length ∨
      p.maxMetadataSizeInMemory ≤ (new.map SeenStep.metadataSize).sum ∨ visible.length
        < indexHeaderSize
          + (((steps.flatMap records).take (k' + 1)).flatMap (IndexRecord.bytes e)).length)
    (hbefore : ∀ xs x, new = xs ++ [x] →
      (xs.map SeenStep.metadataSize).sum < p.maxMetadataSizeInMemory) :
    known' = known + new.length ∧
      foundSteps e h p steps known visible.length = (steps.drop known).take new.length ∧
      List.Forall₂ Depicts new ((steps.drop known).take new.length) := by
  have hd := after_depicts hp hc known
  have hd' := after_depicts hp hc known'
  rw [← hk'.seen, hnew, hk.seen] at hd'
  have hlen := hd.length_eq
  have hlen' := hd'.length_eq
  rw [List.length_take, Nat.min_eq_left hk.le] at hlen
  rw [List.length_append, hlen, List.length_take, Nat.min_eq_left hk'.le] at hlen'
  subst hlen'
  have hnewSteps : List.Forall₂ Depicts new ((steps.drop known).take new.length) := by
    have hdrop := List.forall₂_drop known hd'
    rwa [List.drop_left' hlen, List.drop_take, Nat.add_sub_cancel_left] at hdrop
  have hsizes := Depicts.sizes hnewSteps
  have hcomplete : new.length = 0 ∨ known + new.length ≤ completeSteps e h steps visible.length := by
    rcases Nat.eq_zero_or_pos new.length with h₀ | hpos
    · exact .inl h₀
    · right
      have hne : steps ≠ [] := by
        rintro rfl
        have := hk'.le
        rw [List.length_nil] at this
        omega
      have hlt : k < k' := by
        rcases Nat.lt_or_eq_of_le hle with hlt | rfl
        · exact hlt
        · have := congrArg List.length hnew
          rw [List.length_append] at this
          omega
      apply le_completeSteps hk'.le
      rw [indexSize_take hc (by omega) hne]
      have := hk'.bytes
      have := hfit hlt
      omega
  have htake {i : Nat} (hi : i ≤ new.length) :
      ((steps.take (completeSteps e h steps visible.length)).drop known).take i
        = (steps.drop known).take i := by
    rw [List.drop_take, List.take_take]
    congr 1
    omega
  refine ⟨rfl, ?_, hnewSteps⟩
  rw [← htake le_rfl]
  have hc_le := completeSteps_le e h steps visible.length
  apply withinLimit_eq_take
  · rw [List.length_drop, List.length_take, Nat.min_eq_left hc_le]
    omega
  · intro hpos
    have hne : new ≠ [] := List.length_pos_iff.mp hpos
    have hlast := hbefore new.dropLast (new.getLast hne) (List.dropLast_append_getLast hne).symm
    have hinit := Depicts.sizes (List.forall₂_take (new.length - 1) hnewSteps)
    rw [List.take_take, Nat.min_eq_left (Nat.sub_le _ _)] at hinit
    rwa [htake (Nat.sub_le _ _), ← hinit, ← List.dropLast_eq_take]
  · rw [htake le_rfl, ← hsizes, List.length_drop, List.length_take, Nat.min_eq_left hc_le]
    rcases hstop with hall | hlimit | hlt
    · have := hk'.all hall
      omega
    · exact .inr hlimit
    · left
      by_contra hne
      have hm : known + new.length + 1 ≤ completeSteps e h steps visible.length := by omega
      have hne : steps ≠ [] := by
        rintro rfl
        simp at hc_le
        omega
      have hlt' : k' < (steps.flatMap records).length := by
        apply Nat.lt_of_le_of_ne hle'
        intro hall
        have := hk'.all hall
        omega
      have hmono : (((steps.take (known + new.length + 1)).flatMap records).flatMap
          (IndexRecord.bytes e)).length
            ≤ (((steps.take (completeSteps e h steps visible.length)).flatMap records).flatMap
              (IndexRecord.bytes e)).length :=
        (((List.take_prefix_take_left hm).flatMap _).flatMap _).length_le
      have hsize := indexSize_completeSteps e h steps visible.length
      rw [indexSize_take hc (by omega) hne] at hsize
      have := hk'.next hlt'
      omega

-- Each step's metadata is behind that of the steps before.
theorem IndexStep.Continues.metaDataPos {n pos i : Nat} {s : IndexStep} (hc : Continues n pos steps)
    (hs : steps[i]? = some s) :
    s.metaDataPos = pos + ((steps.take i).map IndexStep.metaDataSize).sum := by
  induction steps generalizing n pos i with
  | nil => simp at hs
  | cons s' steps ih =>
    have ⟨_, hpos, _, _, hc⟩ := hc
    cases i with
    | zero =>
      cases hs
      simpa using hpos
    | succ i =>
      have := ih hc (by simpa using hs)
      rw [List.take_succ_cons, List.map_cons, List.sum_cons]
      omega

theorem IndexStep.Continues.mem {n pos : Nat} {s : IndexStep} (hc : Continues n pos steps) (hs : s ∈ steps) :
    s.WellFormed ∧ 0 < s.metaDataSize := by
  induction steps generalizing n pos with
  | nil => simp at hs
  | cons s' steps ih =>
    have ⟨hwf, _, hsize, _, hc⟩ := hc
    rcases List.mem_cons.mp hs with rfl | hs
    · exact ⟨hwf, hsize⟩
    · exact ih hc hs

theorem subU64_add {a b : Nat} (hb : b < 2 ^ 64) : subU64 (a + b) a = b := by
  unfold subU64
  omega

theorem lookup_of_keys {α : Type} {table : List (Nat × α)} {base i : Nat} {x : Nat × α}
    (hkeys : table.map Prod.fst = List.range' base table.length) (hx : table[i]? = some x) :
    x.1 = base + i ∧ table.lookup (base + i) = some x.2 := by
  have ⟨hi, hget⟩ := List.getElem?_eq_some_iff.mp hx
  have hkey {j : Nat} (hj : j < table.length) : table[j].1 = base + j := by
    have hk := congrArg (fun l => l[j]?) hkeys
    simpa [hj, List.getElem?_range'] using hk
  refine ⟨hget ▸ hkey hi, ?_⟩
  rw [List.lookup_eq_some_iff]
  refine ⟨table.take i, table.drop (i + 1), ?_, ?_⟩
  · rw [← hkey hi, ← hget]
    simp
  · intro y hy
    have ⟨j, hj, hy⟩ := List.mem_take_iff_getElem.mp hy
    rw [← hy, hkey]
    simp
    omega

-- What a call of `UpdateBuffer` leaves when it has found these steps.
structure IndexUpdate (e : Endian) (p : ReaderParams) (steps : List IndexStep)
    (r r' : IndexReader) (found : List IndexStep) : Prop where
  known      : ∃ k, Polled e p (steps.flatMap records) k r'
  stepsCount : r'.stepsCount = r.stepsCount + found.length
  entries    : ∀ {i s}, found[i]? = some s → ∃ entry j m,
    r'.metadataIndexTable.lookup (r.stepsCount + i) = some entry ∧
      entry.posInMemory = ((found.take i).map IndexStep.metaDataSize).sum ∧
      r'.writerMapIndex[r.stepsCount + i]? = some j ∧ r'.writerMap j = some m ∧
      m.writerCount = s.commSize
  pieces     : ∀ s, found.head? = some s →
    r'.filteredMetadataInfo = [(s.metaDataPos, (found.map IndexStep.metaDataSize).sum)]

theorem poll_inv {seen : List SeenStep} (hpoll : r.poll p visible = .ok (r', seen)) :
    r.updateBuffer p visible = .ok r' ∧
      (r.stepsCount < r'.stepsCount → List.Forall₂ (fun a x => r'.seenStep a = some x)
        r'.metadataIndexTable seen) := by
  simp only [IndexReader.poll, Outcome.bind_eq_ok] at hpoll
  obtain ⟨_, hu, hpoll⟩ := hpoll
  split at hpoll
  case isTrue hlt =>
    simp only [Outcome.bind_eq_ok, Option.orUndefined_eq_ok] at hpoll
    obtain ⟨_, hseen, hpoll⟩ := hpoll
    cases hpoll
    exact ⟨hu, fun _ => List.mapM_eq_some_iff_forall₂.mp hseen⟩
  case isFalse hle =>
    cases hpoll
    exact ⟨hu, fun hlt => absurd hlt hle⟩

-- What is seen of a table entry.
theorem seenStep_inv {a : Nat × IndexTableEntry} {x : SeenStep} (h : r.seenStep a = some x) :
    a.2.metadataPos = x.metadataPos ∧ a.2.metadataSize = x.metadataSize ∧
      ∃ j, r.writerMapIndex[a.1]? = some j ∧ r.writerMap j = some x.writerMap := by
  simp only [IndexReader.seenStep, Option.bind_eq_bind, Option.bind_eq_some_iff] at h
  obtain ⟨j, hj, m, hm, _, _, h⟩ := h
  cases h
  exact ⟨rfl, rfl, j, hj, hm⟩

theorem entrySizes_of_seen {table : List (Nat × IndexTableEntry)} {seen : List SeenStep}
    (h : List.Forall₂ (fun a x => r.seenStep a = some x) table seen) :
    entrySizes (table.map Prod.snd) = seen.map SeenStep.metadataSize := by
  induction h with
  | nil => rfl
  | cons hx _ ih =>
    rw [List.map_cons, List.map_cons, ← ih, ← (seenStep_inv hx).right.left]
    rfl

-- The entries of a call that has found steps.
theorem indexUpdate_of_gathered (hc : Continues 0 0 steps)
    (htotal : (steps.map IndexStep.metaDataSize).sum < 2 ^ 64) {new : List SeenStep}
    {found : List IndexStep} (hfound : found = (steps.drop r.stepsCount).take new.length)
    (hnew : List.Forall₂ Depicts new found) (hcount : r'.stepsCount = r.stepsCount + new.length)
    (hk : ∃ k, Polled e p (steps.flatMap records) k r') (hg : Gathered p r.stepsCount r')
    (hseen : r.stepsCount < r'.stepsCount → List.Forall₂ (fun a x => r'.seenStep a = some x)
      r'.metadataIndexTable new) : IndexUpdate e p steps r r' found := by
  have hlen := hnew.length_eq
  have hsub : found.Sublist steps := by
    rw [hfound]
    exact (List.take_sublist _ _).trans (List.drop_sublist _ _)
  have hsum {l : List IndexStep} (hl : l.Sublist found) :
      (l.map IndexStep.metaDataSize).sum < 2 ^ 64 :=
    Nat.lt_of_le_of_lt (((hl.trans hsub).map _).sum_le_sum fun _ _ => Nat.zero_le _) htotal
  -- A step with what is seen of it and with its entry.
  have hrow {i : Nat} {s : IndexStep} (hs : found[i]? = some s) : ∃ a x,
      r'.metadataIndexTable[i]? = some a ∧ r'.seenStep a = some x ∧ Depicts x s ∧
      steps[r.stepsCount + i]? = some s := by
    obtain ⟨hi, hget⟩ := List.getElem?_eq_some_iff.mp hs
    have hseen := hseen (by omega)
    have hx := hnew.get (i := i) (by omega) hi
    have hlen' := hseen.length_eq
    have ha := hseen.get (i := i) (by omega) (by omega)
    have hsteps : steps[r.stepsCount + i]? = some s := by
      rw [hfound, List.getElem?_take_of_lt (by omega), List.getElem?_drop] at hs
      exact hs
    simp only [List.get_eq_getElem, hget] at hx ha
    exact ⟨_, _, List.getElem?_eq_getElem (by omega), ha, hx, hsteps⟩
  have hsizes : found ≠ [] → entrySizes r'.entries = found.map IndexStep.metaDataSize := by
    intro hne
    have hpos := List.length_pos_iff.mpr hne
    exact (entrySizes_of_seen (hseen (by omega))).trans (Depicts.sizes hnew)
  have hhead {s : IndexStep} (hs : found[0]? = some s) :
      ∃ t, r'.entries.head? = some t ∧ t.metadataPos = s.metaDataPos := by
    obtain ⟨a, x, ha, hx, hd, _⟩ := hrow hs
    refine ⟨a.2, ?_, ?_⟩
    · rw [IndexReader.entries, List.head?_map, List.head?_eq_getElem?, ha]
      rfl
    · rw [(seenStep_inv hx).left, hd.metadataPos]
  refine ⟨hk, by rw [hcount, hlen], ?_, ?_⟩
  · intro i s hs
    obtain ⟨a, x, ha, hx, hd, hsteps⟩ := hrow hs
    obtain ⟨hpos, _, j, hj, hm⟩ := seenStep_inv hx
    obtain ⟨hkey, hlookup⟩ := lookup_of_keys hg.keys ha
    obtain ⟨hi, _⟩ := List.getElem?_eq_some_iff.mp hs
    have hs₀ : found[0]? = some found[0] := List.getElem?_eq_getElem (by omega)
    obtain ⟨t, ht, htpos⟩ := hhead hs₀
    obtain ⟨_, _, _, _, _, hsteps₀⟩ := hrow hs₀
    refine ⟨a.2, j, x.writerMap, hlookup, ?_, hkey ▸ hj, hm, hd.writerCount⟩
    have hbetween : ((steps.take (r.stepsCount + i)).map IndexStep.metaDataSize).sum
        = ((steps.take r.stepsCount).map IndexStep.metaDataSize).sum
          + ((found.take i).map IndexStep.metaDataSize).sum := by
      rw [List.take_add, List.map_append, List.sum_append, hfound, List.take_take,
        Nat.min_eq_left (by omega)]
    have hmem : a.2 ∈ r'.entries := List.mem_map_of_mem (List.mem_of_getElem? ha)
    rw [hg.inMemory t ht a.2 hmem, htpos, hpos, hd.metadataPos, hc.metaDataPos hsteps,
      hc.metaDataPos hsteps₀, hbetween]
    simp only [Nat.zero_add, Nat.add_zero]
    exact subU64_add (hsum (List.take_sublist _ _))
  · intro s hs
    rw [List.head?_eq_getElem?] at hs
    obtain ⟨t, ht, htpos⟩ := hhead hs
    have hne : found ≠ [] := by
      rintro rfl
      simp at hs
    have hmem := hc.mem (hsub.subset (List.mem_of_getElem? hs))
    have hle := List.le_sum_of_mem (List.mem_map_of_mem (f := metaDataSize)
      (List.mem_of_getElem? hs))
    rw [← hsizes hne, ← htpos]
    apply hg.pieces t ht
    · rw [hsizes hne]
      omega
    · rw [hsizes hne]
      exact hsum (List.Sublist.refl _)

-- The end of what is visible is not the end of a record.
def Cut (e : Endian) (steps : List IndexStep) (size : Nat) : Prop :=
  ∀ k, size ≠ indexHeaderSize
    + (((steps.flatMap records).take k).flatMap (IndexRecord.bytes e)).length

-- One call, with what it leaves for later.
theorem updateBuffer_found (visible : List Byte) (hp : p.SelectsAll) (hc : Continues 0 0 steps)
    (htotal : (steps.map IndexStep.metaDataSize).sum < 2 ^ 64)
    (hr : Polled e p (steps.flatMap records) k r)
    (hrecords : visible.drop indexHeaderSize
      <+: (steps.flatMap records).flatMap (IndexRecord.bytes e))
    (hheader : r.mdIndexFileAlreadyReadSize = 0 → visible ≠ [] → ∃ r₀,
      r.parseHeader p visible = .ok r₀ ∧ Tracks (viewOf p (steps.flatMap records) k) r₀ ∧
      r₀.minifooter.endian = e) :
    ∃ r' r₀, r.updateBuffer p visible = .ok r' ∧
      IndexUpdate e p steps r r' (foundSteps e h p steps r.stepsCount visible.length) ∧
      SameHeader r₀ r' ∧
      (if r.mdIndexFileAlreadyReadSize = 0 ∧ visible ≠ [] then r.parseHeader p visible = .ok r₀
        else r₀ = r) ∧
      (foundSteps e h p steps r.stepsCount visible.length ≠ [] →
        Cut e steps visible.length ∨ r'.stepsCount < completeSteps e h steps visible.length →
        r'.mdIndexFileAlreadyReadSize < visible.length) := by
  obtain ⟨k', r', new, hpoll, hr', hnew, hle, hfit, hstop⟩ :=
    IndexReader.poll_of_visible hr hc.allFollow hrecords hheader
  obtain ⟨hu, hseen⟩ := poll_inv hpoll
  have hk := hr.knownSteps hp hc
  have hk' := hr'.knownSteps hp hc
  have hmore (hbefore : ∀ xs x, new = xs ++ [x] →
      (xs.map SeenStep.metadataSize).sum < p.maxMetadataSizeInMemory) :
      r'.stepsCount = r.stepsCount + new.length ∧
      foundSteps e h p steps r.stepsCount visible.length
        = (steps.drop r.stepsCount).take new.length ∧
      List.Forall₂ Depicts new ((steps.drop r.stepsCount).take new.length) :=
    foundSteps_eq hp hc hk hk' hnew hle hr'.le hfit hstop hbefore
  by_cases hne : visible.drop r.mdIndexFileAlreadyReadSize = []
  case pos =>
    have hr₁ : r' = { r with metadataIndex := [] } := by
      simp only [IndexReader.updateBuffer, hne, List.isEmpty_nil, if_true, Outcome.pure_eq,
        Except.ok.injEq] at hu
      exact hu.symm
    have hempty : new = [] := by
      have hcount := congrArg List.length hnew
      rw [List.length_append, ← hr'.tracks.stepsCount, ← hr.tracks.stepsCount, hr₁] at hcount
      exact List.eq_nil_of_length_eq_zero (by simpa using hcount.symm)
    subst hempty
    obtain ⟨hcount, hfound, hdepicts⟩ := hmore (by simp)
    rw [List.length_nil, List.take_zero] at hfound
    rw [hfound]
    refine ⟨r', r, hu, ⟨⟨k', hr'⟩, hcount, by simp, by simp⟩, ?_, ?_, by simp⟩
    · rw [hr₁]
      exact ⟨rfl, rfl, rfl, rfl⟩
    · rw [if_neg]
      rintro ⟨h₀, hvisible⟩
      rw [h₀, List.drop_zero] at hne
      exact hvisible hne
  case neg =>
    obtain ⟨r₀, hstart, hg, hheader'⟩ := IndexReader.updateBuffer_gathered hp hu hne
    have hr₀ : r₀.stepsCount = r.stepsCount ∧
        if r.mdIndexFileAlreadyReadSize = 0 ∧ visible ≠ [] then r.parseHeader p visible = .ok r₀
          else r₀ = r := by
      by_cases h₀ : r.mdIndexFileAlreadyReadSize = 0
      case pos =>
        have hvisible : visible ≠ [] := by
          rintro rfl
          simp at hne
        rw [if_pos ⟨h₀, hvisible⟩]
        obtain ⟨r₁, hparse, ht, _⟩ := hheader h₀ hvisible
        simp only [IndexReader.parseStart, h₀, decide_true, if_true, List.drop_zero] at hstart
        rw [hparse] at hstart
        cases hstart
        exact ⟨ht.stepsCount.trans hr.tracks.stepsCount.symm, hparse⟩
      case neg =>
        rw [if_neg fun hand => h₀ hand.left]
        simp only [IndexReader.parseStart, h₀, decide_false, Bool.false_eq_true, if_false] at hstart
        cases hstart
        exact ⟨rfl, rfl⟩
    rw [hr₀.left] at hg
    obtain ⟨hcount, hfound, hdepicts⟩ := hmore <| by
      rintro xs x rfl
      have hpos : r.stepsCount < r'.stepsCount := by
        have hcount := congrArg List.length hnew
        rw [List.length_append, List.length_append, ← hr'.tracks.stepsCount,
          ← hr.tracks.stepsCount] at hcount
        simp at hcount
        omega
      have hsizes := entrySizes_of_seen (hseen hpos)
      rcases List.eq_nil_or_concat' r'.entries with hnil | ⟨ts, t, hts⟩
      · rw [← IndexReader.entries, hnil] at hsizes
        simp [entrySizes] at hsizes
      · rw [← IndexReader.entries, hts, List.map_append, entrySizes_append] at hsizes
        obtain ⟨hsizes, _⟩ := List.append_inj' hsizes rfl
        rw [← hsizes]
        exact hg.limit ts t hts
    rw [hfound]
    refine ⟨r', r₀, hu, indexUpdate_of_gathered hc htotal rfl hdepicts hcount ⟨k', hr'⟩ hg hseen,
      hheader', hr₀.right, ?_⟩
    intro hne' hcut
    have hpos : 0 < new.length := by
      rcases Nat.eq_zero_or_pos new.length with h₀ | hpos
      · rw [h₀] at hne'
        exact absurd List.take_zero hne'
      · exact hpos
    have hlt : k < k' := by
      rcases Nat.lt_or_eq_of_le hle with hlt | rfl
      · exact hlt
      · have := congrArg List.length hnew
        rw [List.length_append] at this
        omega
    have hposition : r'.mdIndexFileAlreadyReadSize = indexHeaderSize
        + (((steps.flatMap records).take k').flatMap (IndexRecord.bytes e)).length := by
      rcases hr'.position with ⟨_, h₀⟩ | ⟨_, hposition⟩
      · omega
      · exact hposition
    have := hfit hlt
    rcases hcut with hcut | hcomplete
    · have := hcut k'
      omega
    · have hsteps := completeSteps_le e h steps visible.length
      have hne : steps ≠ [] := by
        rintro rfl
        simp at hsteps
        omega
      have hlt' : k' < (steps.flatMap records).length := by
        apply Nat.lt_of_le_of_ne hr'.le
        intro hall
        have := hk'.all hall
        omega
      have hnext := hk'.next hlt'
      have hbytes := (steps.flatMap records)[k'].bytes_pos e
      rw [List.take_succ_eq_append_getElem hlt', List.flatMap_append, List.length_append,
        List.flatMap_cons, List.flatMap_nil, List.append_nil] at hnext
      have hmono : (((steps.take (r'.stepsCount + 1)).flatMap records).flatMap
          (IndexRecord.bytes e)).length
            ≤ (((steps.take (completeSteps e h steps visible.length)).flatMap records).flatMap
              (IndexRecord.bytes e)).length :=
        (((List.take_prefix_take_left hcomplete).flatMap _).flatMap _).length_le
      have hsize := indexSize_completeSteps e h steps visible.length
      rw [indexSize_take hc (by omega) hne] at hsize
      omega

end Known

end BP5
