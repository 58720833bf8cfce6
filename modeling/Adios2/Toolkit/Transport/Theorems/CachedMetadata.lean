import Adios2.Toolkit.Transport.FileAWSSDK.Cache

-- What read sessions on one object are told, when they share a cache file.

open Bytes

namespace FileFStream

theorem batches_sum (size : Nat) : (batches size).sum = size := by
  unfold batches
  split
  case isTrue => simp [Nat.div_add_mod']
  case isFalse => simp

theorem seek_of_lt {s : FStream} {start : Nat} (hs : s.failed = false) (hstart : start < 2 ^ 63) :
    seek s start = s.movedTo start := by
  have hne : start ≠ maxSizeT := by
    unfold maxSizeT
    omega
  rw [seek, if_neg hne, if_neg (by simp [hs]), if_pos hstart]

theorem lfReads_eq {s : FStream} {sizes : List Nat} (hs : s.failed = false)
    (h : s.file.position + sizes.sum ≤ s.file.content.length) :
    lfReads s sizes = (.ok ((s.file.content.drop s.file.position).take sizes.sum),
      s.movedTo (s.file.position + sizes.sum)) := by
  induction sizes generalizing s with
  | nil => simp [lfReads, FStream.movedTo]
  | cons size sizes ih =>
    rw [List.sum_cons] at h
    have hsize : ¬(s.failed = true ∨
        (size ≠ 0 ∧ s.file.content.length < s.file.position + size)) := by
      simp only [hs, Bool.false_eq_true, false_or]
      omega
    have hrest := @ih (s.movedTo (s.file.position + size)) hs (by simpa [Nat.add_assoc] using h)
    simp only [FStream.movedTo_content, FStream.movedTo_position, FStream.movedTo_movedTo,
      Nat.add_assoc] at hrest
    rw [lfReads, lfRead, if_neg hsize]
    dsimp only
    rw [hrest, List.sum_cons, List.take_add, List.drop_drop]

-- A read that ends in front of the end of the file returns the bytes that are there.
theorem read_eq {s : FStream} {size start : Nat} (hs : s.failed = false) (hstart : start < 2 ^ 63)
    (h : start + size ≤ s.file.content.length) :
    read s size start = (.ok ((s.file.content.drop start).take size),
      s.movedTo (start + size)) := by
  have hreads := @lfReads_eq (s.movedTo start) (batches size) hs (by simpa [batches_sum] using h)
  unfold read
  rw [seek_of_lt hs hstart]
  dsimp only
  rw [if_neg (by simp [hs]), hreads]
  simp [batches_sum]

theorem lfWrites_eq {s : FStream} {sizes : List Nat} {bs : List Byte} (hs : s.failed = false)
    (h : sizes.sum = bs.length) : lfWrites s sizes bs = .ok { s with file := s.file.write bs } := by
  induction sizes generalizing s bs with
  | nil =>
    have hbs : bs = [] := List.length_eq_zero_iff.mp h.symm
    rw [hbs, Posix.File.write_nil]
    rfl
  | cons size sizes ih =>
    rw [List.sum_cons] at h
    have hrest : sizes.sum = (bs.drop size).length := by
      rw [List.length_drop]
      omega
    have hwrites := @ih { s with file := s.file.write (bs.take size) } _ hs hrest
    rw [lfWrites, lfWrite, if_neg (by simp [hs]), Outcome.ok_bind, hwrites]
    dsimp only
    rw [Posix.File.write_append, List.take_append_drop]

theorem write_eq {s : FStream} {bs : List Byte} {start : Nat} (hs : s.failed = false)
    (hstart : start < 2 ^ 63) :
    write s bs start = .ok { s with file := (s.movedTo start).file.write bs } := by
  unfold write
  rw [seek_of_lt hs hstart]
  dsimp only
  rw [if_neg (by simp [hs]), @lfWrites_eq (s.movedTo start) _ bs hs (batches_sum _)]
  rfl

end FileFStream
namespace FileAWSSDK

open FileFStream Posix

-- A position that one of the reads, of so many bytes from a start on, is about.
def Covered (done : List (Nat × Nat)) (p : Nat) : Prop :=
  ∃ r ∈ done, r.2 ≤ p ∧ p < r.2 + r.1

-- Where the last of the bytes ends that are read.
def reached (done : List (Nat × Nat)) : Nat :=
  (done.map fun r => if r.1 = 0 then 0 else r.2 + r.1).foldr max 0

theorem reached_concat (done : List (Nat × Nat)) (size start : Nat) :
    reached (done ++ [(size, start)]) =
      max (reached done) (if size = 0 then 0 else start + size) := by
  induction done with
  | nil => simp [reached]
  | cons r done ih =>
    unfold reached at ih ⊢
    rw [List.cons_append, List.map_cons, List.map_cons, List.foldr_cons, List.foldr_cons, ih,
      max_assoc]

theorem covered_concat {done : List (Nat × Nat)} {size start p : Nat} :
    Covered (done ++ [(size, start)]) p ↔ Covered done p ∨ (start ≤ p ∧ p < start + size) := by
  simp [Covered, or_and_right, exists_or]

-- A file that has the bytes of the object where they have been read, and zeros between them.
structure Filled (object : List Byte) (done : List (Nat × Nat)) (content : List Byte) : Prop where
  length : content.length = reached done
  bytes  : ∀ p, Covered done p → content[p]? = object[p]?
  zeros  : ∀ p < content.length, ¬Covered done p → content[p]? = some 0

namespace Filled

variable {object content : List Byte} {done : List (Nat × Nat)}

theorem nil : Filled object [] [] where
  length := rfl
  bytes  := by simp [Covered]
  zeros  := nofun

theorem covered_lt (h : Filled object done content) {p : Nat} (hp : Covered done p) :
    p < content.length := by
  have ⟨r, hr, hstart, hend⟩ := hp
  have hmem : r.2 + r.1 ∈ done.map fun r => if r.1 = 0 then 0 else r.2 + r.1 :=
    List.mem_map.mpr ⟨r, hr, if_neg (by omega)⟩
  have hle := List.le_max_of_le' 0 hmem (Nat.le_refl _)
  rw [h.length]
  unfold reached
  omega

-- Reading no bytes writes none.
theorem write_none (h : Filled object done content) (start : Nat) :
    Filled object (done ++ [(0, start)]) content := by
  have hcovered : ∀ p, Covered (done ++ [(0, start)]) p ↔ Covered done p := by
    intro p
    have hout : ¬(start ≤ p ∧ p < start + 0) := by omega
    rw [covered_concat, or_iff_left hout]
  refine ⟨?length, fun p hp => ?bytes, fun p hlt hp => ?zeros⟩
  case length => rw [reached_concat, h.length, if_pos rfl, Nat.max_zero]
  case bytes  => exact h.bytes p ((hcovered p).mp hp)
  case zeros  => exact h.zeros p hlt fun hc => hp ((hcovered p).mpr hc)

theorem write (h : Filled object done content) {size start : Nat}
    (hin : start + size ≤ object.length) :
    Filled object (done ++ [(size, start)])
      (File.write ⟨content, start⟩ ((object.drop start).take size)).content := by
  have hlen : ((object.drop start).take size).length = size := by
    rw [List.length_take, List.length_drop]
    omega
  by_cases hsize : size = 0
  case pos =>
    rw [hsize, List.take_zero, File.write_nil]
    exact h.write_none start
  case neg =>
    have hne : (object.drop start).take size ≠ [] := by
      intro hnil
      rw [hnil] at hlen
      exact hsize hlen.symm
    have hlength := @File.write_length ⟨content, start⟩ _ hne
    rw [hlen] at hlength
    -- a position in front of what is written, in it, or behind it
    have hfront : ∀ p < start, (File.write ⟨content, start⟩
        ((object.drop start).take size)).content[p]? = some (content[p]?.getD 0) := by
      intro p hp
      rw [File.write_getElem? hne, if_pos hp]
    have hmid : ∀ p, start ≤ p → p < start + size → (File.write ⟨content, start⟩
        ((object.drop start).take size)).content[p]? = object[p]? := by
      intro p hp hp'
      rw [File.write_getElem? hne, if_neg (Nat.not_lt.mpr hp), hlen, if_pos hp',
        List.getElem?_take_of_lt (by dsimp only; omega), List.getElem?_drop,
        Nat.add_sub_cancel' hp]
    have hback : ∀ p, start + size ≤ p → (File.write ⟨content, start⟩
        ((object.drop start).take size)).content[p]? = content[p]? := by
      intro p hp
      rw [File.write_getElem? hne, hlen, if_neg (by dsimp only; omega),
        if_neg (by dsimp only; omega)]
    refine ⟨?length, fun p hp => ?bytes, fun p hlt hp => ?zeros⟩
    case length => rw [hlength, reached_concat, if_neg hsize, h.length]
    case bytes =>
      rw [covered_concat] at hp
      by_cases hcase : start ≤ p ∧ p < start + size
      case pos => exact hmid p hcase.left hcase.right
      case neg =>
        have hp := hp.resolve_right hcase
        have hlt := h.covered_lt hp
        rw [← h.bytes p hp]
        by_cases hlow : p < start
        case pos =>
          rw [hfront p hlow, List.getElem?_eq_getElem hlt]
          rfl
        case neg => exact hback p (by omega)
    case zeros =>
      rw [covered_concat, not_or] at hp
      rw [hlength] at hlt
      by_cases hlow : p < start
      case pos =>
        rw [hfront p hlow]
        by_cases hc : p < content.length
        case pos =>
          rw [h.zeros p hc hp.left]
          rfl
        case neg =>
          rw [List.getElem?_eq_none (by omega)]
          rfl
      case neg =>
        rw [hback p (by omega)]
        exact h.zeros p (by dsimp only at hlt; omega) hp.left

end Filled

variable {s : Settings} {object : CloudObject}

-- A read of `r.1` bytes from position `r.2` on, inside the object, and the bytes that it is for.
def Inside (object : CloudObject) (r : Nat × Nat) : Prop :=
  r.2 < object.content.length ∧ r.2 + r.1 ≤ object.content.length

def asked (object : CloudObject) (r : Nat × Nat) : List Byte :=
  (object.content.drop r.2).take r.1

theorem getObject_asked {size start : Nat} (h : Inside object (size, start)) :
    ∃ body, getObject object.content start (lastByte start size) = .ok body ∧
      body.take size = asked object (size, start) := by
  have hsmall := object.small
  have ⟨hstart, hend⟩ := h
  dsimp only at hstart hend
  unfold getObject
  by_cases hsize : size = 0
  case pos =>
    subst hsize
    have hnil : ∀ body : List Byte, body.take 0 = asked object (0, start) := fun body => by
      rw [List.take_zero, asked, List.take_zero]
    split
    case isTrue => exact ⟨_, rfl, hnil _⟩
    case isFalse =>
      rw [if_neg (Nat.not_le.mpr hstart)]
      exact ⟨_, rfl, hnil _⟩
  case neg =>
    have hlast : lastByte start size = start + size - 1 := by
      unfold lastByte
      omega
    have hcount : start + size - 1 + 1 - start = size := by omega
    rw [hlast, if_neg (by omega), if_neg (Nat.not_le.mpr hstart), hcount]
    refine ⟨_, rfl, ?_⟩
    rw [List.take_take, Nat.min_self]
    rfl

theorem readObject_inside {t : Transport} {size : Nat} (h : Inside object (size, t.seekPos)) :
    readObject t object size = saveToCache t (asked object (size, t.seekPos)) := by
  have ⟨body, hbody, htake⟩ := getObject_asked h
  rw [readObject, hbody, received, htake]

theorem read_inside {t : Transport} {size start : Nat} (ht : t.size = object.content.length)
    (h : Inside object (size, start)) :
    read t object size start =
      match t.cacheFileRead with
      | some stream =>
        ((FileFStream.read stream size start).1,
         { t with seekPos := start
                  cacheFileRead := some (FileFStream.read stream size start).2 })
      | none => readObject { t with seekPos := start } object size := by
  have hsmall := object.small
  have ⟨hstart, hend⟩ := h
  dsimp only at hstart hend
  rw [← ht] at hsmall hstart hend
  have hne : start ≠ maxSizeT := by
    unfold maxSizeT
    omega
  have hmod : (start + size) % 2 ^ 64 = start + size := by omega
  unfold read
  rw [if_neg (by omega)]
  dsimp only
  rw [if_pos hne]
  dsimp only
  rw [hmod]
  refine (if_neg (by omega)).trans ?_
  cases t.cacheFileRead <;> rfl

theorem reads_cons {r : Nat × Nat} {rs : List (Nat × Nat)} {t t' : Transport}
    {bytes : Outcome (List Byte)} (h : read t object r.1 r.2 = (bytes, t')) :
    reads object (r :: rs) t = (bytes :: (reads object rs t').1, (reads object rs t').2) := by
  obtain ⟨size, start⟩ := r
  rw [reads, h]

-- Reads without a cache file.
theorem reads_cloud {rs : List (Nat × Nat)} {t : Transport} (h : ∀ r ∈ rs, Inside object r)
    (hsize : t.size = object.content.length) (hread : t.cacheFileRead = none)
    (hwrite : t.cacheFileWrite = none) :
    (reads object rs t).1 = rs.map (fun r => .ok (asked object r)) ∧
      (reads object rs t).2.cacheFileWrite = none := by
  induction rs generalizing t with
  | nil => exact ⟨rfl, hwrite⟩
  | cons r rs ih =>
    have hin := h r List.mem_cons_self
    have hstep : read t object r.1 r.2 = (.ok (asked object r), { t with seekPos := r.2 }) := by
      obtain ⟨settings, size, seekPos, cacheRead, cacheWrite⟩ := t
      cases hread
      cases hwrite
      rw [read_inside hsize hin]
      dsimp only
      rw [@readObject_inside object ⟨_, _, r.2, none, _⟩ r.1 hin, saveToCache]
    have ih := @ih { t with seekPos := r.2 } (fun r hr => h r (List.mem_cons_of_mem _ hr)) hsize
      hread hwrite
    rw [reads_cons hstep]
    exact ⟨by rw [List.map_cons, ← ih.left], ih.right⟩

-- Reads that fill the cache file.
theorem reads_caching {rs done : List (Nat × Nat)} {t : Transport} {stream : FStream}
    (h : ∀ r ∈ rs, Inside object r) (hsize : t.size = object.content.length)
    (hread : t.cacheFileRead = none) (hwrite : t.cacheFileWrite = some stream)
    (hs : stream.failed = false) (hfilled : Filled object.content done stream.file.content) :
    (reads object rs t).1 = rs.map (fun r => .ok (asked object r)) ∧
      ∃ stream', (reads object rs t).2.cacheFileWrite = some stream' ∧
        Filled object.content (done ++ rs) stream'.file.content := by
  induction rs generalizing done t stream with
  | nil => exact ⟨rfl, stream, hwrite, by rwa [List.append_nil]⟩
  | cons r rs ih =>
    have hin := h r List.mem_cons_self
    have hlt : r.2 < 2 ^ 63 := Nat.lt_trans hin.left object.small
    let stream' : FStream :=
      { stream with file := (stream.movedTo r.2).file.write (asked object r) }
    have hstep : read t object r.1 r.2 =
        (.ok (asked object r), { t with seekPos := r.2, cacheFileWrite := some stream' }) := by
      obtain ⟨settings, size, seekPos, cacheRead, cacheWrite⟩ := t
      cases hread
      cases hwrite
      rw [read_inside hsize hin]
      dsimp only
      rw [@readObject_inside object ⟨_, _, r.2, none, _⟩ r.1 hin, saveToCache]
      dsimp only
      rw [FileFStream.write_eq hs hlt]
    have hnext : Filled object.content (done ++ [r]) stream'.file.content := hfilled.write hin.right
    have ih := @ih (done ++ [r]) { t with seekPos := r.2, cacheFileWrite := some stream' } stream'
      (fun r hr => h r (List.mem_cons_of_mem _ hr)) hsize hread rfl hs hnext
    rw [List.append_assoc, List.singleton_append] at ih
    rw [reads_cons hstep]
    exact ⟨by rw [List.map_cons, ← ih.left], ih.right⟩

-- Reads from a cache file of the object's size.
theorem reads_cached {rs : List (Nat × Nat)} {t : Transport} {stream : FStream}
    (h : ∀ r ∈ rs, Inside object r) (hsize : t.size = object.content.length)
    (hread : t.cacheFileRead = some stream) (hwrite : t.cacheFileWrite = none)
    (hs : stream.failed = false) (hlen : stream.file.content.length = object.content.length) :
    (reads object rs t).1 =
        rs.map (fun r => .ok ((stream.file.content.drop r.2).take r.1)) ∧
      (reads object rs t).2.cacheFileWrite = none := by
  induction rs generalizing t stream with
  | nil => exact ⟨rfl, hwrite⟩
  | cons r rs ih =>
    have hin := h r List.mem_cons_self
    have hlt : r.2 < 2 ^ 63 := Nat.lt_trans hin.left object.small
    have hend : r.2 + r.1 ≤ stream.file.content.length := by
      rw [hlen]
      exact hin.right
    have hstep : read t object r.1 r.2 =
        (.ok ((stream.file.content.drop r.2).take r.1),
         { t with seekPos := r.2, cacheFileRead := some (stream.movedTo (r.2 + r.1)) }) := by
      obtain ⟨settings, size, seekPos, cacheRead, cacheWrite⟩ := t
      cases hread
      cases hwrite
      rw [read_inside hsize hin]
      dsimp only
      rw [FileFStream.read_eq hs hlt hend]
    have ih := @ih { t with seekPos := r.2, cacheFileRead := some (stream.movedTo (r.2 + r.1)) }
      (stream.movedTo (r.2 + r.1)) (fun r hr => h r (List.mem_cons_of_mem _ hr)) hsize rfl hwrite
      hs hlen
    rw [reads_cons hstep]
    exact ⟨by rw [List.map_cons, ← FStream.movedTo_content stream (r.2 + r.1), ← ih.left], ih.right⟩

-- Whether a session takes a cache file of that size for the object. Reading the size of a file fails
-- where its last 32 bits are set.
def Trusts (object : CloudObject) (recheckMetadata : Bool) (size : Nat) : Prop :=
  size % 2 ^ 32 ≠ 2 ^ 32 - 1 ∧ (recheckMetadata = true → size = object.content.length)

section Open

variable {path : String} {recheck : Bool} {disk : Option (List Byte)}

theorem openCacheFile_some {content : List Byte} (hpath : path ≠ "")
    (h : content.length % 2 ^ 32 ≠ 2 ^ 32 - 1) :
    openCacheFile path (some content) =
      .ok (some (⟨path, ⟨content, 0⟩, false⟩, content.length)) := by
  simp only [openCacheFile, FileFStream.openRead, checkName, if_neg hpath, Outcome.pure_eq,
    Outcome.ok_bind, Option.map_some, Option.bind_eq_bind, Option.bind_some]
  rw [getSize, if_neg h]
  rfl

theorem openCacheFile_none (hpath : path ≠ "")
    (h : ∀ content, disk = some content → content.length % 2 ^ 32 = 2 ^ 32 - 1) :
    openCacheFile path disk = .ok none := by
  simp only [openCacheFile, FileFStream.openRead, checkName, if_neg hpath, Outcome.pure_eq,
    Outcome.ok_bind]
  cases disk
  case none => rfl
  case some content =>
    simp only [Option.map_some, Option.bind_eq_bind, Option.bind_some]
    rw [getSize, if_pos (h content rfl)]
    rfl

theorem openCacheFile_empty : ∃ e, openCacheFile "" disk = .error e :=
  ⟨_, rfl⟩

theorem openWrite_eq (hpath : path ≠ "") :
    FileFStream.openWrite path = .ok ⟨path, ⟨[], 0⟩, false⟩ := by
  rw [FileFStream.openWrite, checkName, if_neg hpath]
  rfl

theorem openForReading_uncached (h : (cacheFile s).1 = false) :
    openForReading s recheck object disk =
      .ok ⟨s, object.content.length, 0, none, none⟩ := by
  simp [openForReading, setUpCache, checkCache, h]

theorem openForReading_unnamed (h : cacheFile s = (true, "")) :
    ∃ e, openForReading s recheck object disk = .error e := by
  have ⟨e, he⟩ := @openCacheFile_empty disk
  refine ⟨e, ?_⟩
  cases recheck <;> simp [openForReading, setUpCache, checkCache, h, he]

theorem openForReading_trusted {content : List Byte} (h : cacheFile s = (true, path))
    (hpath : path ≠ "") (ht : Trusts object recheck content.length) :
    openForReading s recheck object (some content) =
      .ok ⟨s, content.length, 0, some ⟨path, ⟨content, 0⟩, false⟩, none⟩ := by
  have hopen := openCacheFile_some hpath ht.left
  cases recheck
  case false => simp [openForReading, setUpCache, h, hopen]
  case true  => simp [openForReading, setUpCache, checkCache, h, hopen, ht.right rfl]

theorem openForReading_untrusted (h : cacheFile s = (true, path)) (hpath : path ≠ "")
    (ht : ∀ content, disk = some content → ¬Trusts object recheck content.length) :
    openForReading s recheck object disk =
      .ok ⟨s, object.content.length, 0, none, some ⟨path, ⟨[], 0⟩, false⟩⟩ := by
  have hwrite := openWrite_eq hpath
  by_cases hbad : ∀ content, disk = some content → content.length % 2 ^ 32 = 2 ^ 32 - 1
  case pos =>
    have hopen := openCacheFile_none hpath hbad
    cases recheck <;> simp [openForReading, setUpCache, checkCache, h, hopen, hwrite]
  case neg =>
    simp only [not_forall] at hbad
    have ⟨content, hdisk, hgood⟩ := hbad
    have hopen := openCacheFile_some hpath hgood
    have hnot := ht content hdisk
    subst hdisk
    cases recheck
    case false => exact (hnot ⟨hgood, nofun⟩).elim
    case true =>
      have hne : content.length ≠ object.content.length := fun heq => hnot ⟨hgood, fun _ => heq⟩
      simp [openForReading, setUpCache, checkCache, h, hopen, hwrite, hne]

end Open

-- What a session is to be told.
def rightAnswers (object : CloudObject) (rs : List (Nat × Nat)) :
    Outcome (Nat × List (Outcome (List Byte))) :=
  .ok (object.content.length, rs.map fun r => .ok (asked object r))

-- Reads from a file that the reads `kept` have filled are right: the file is as long as the object,
-- and each byte has been read, or is zero.
def Served (object : CloudObject) (kept rs : List (Nat × Nat)) : Prop :=
  reached kept = object.content.length ∧
    ∀ r ∈ rs, ∀ p, r.2 ≤ p → p < r.2 + r.1 → Covered kept p ∨ object.content[p]? = some 0

section Session

variable {path : String} {recheck : Bool} {disk : Option (List Byte)} {rs : List (Nat × Nat)}

theorem session_uncached (h : cacheFile s = (false, path)) (hin : ∀ r ∈ rs, Inside object r) :
    session s object ⟨recheck, rs⟩ disk = (rightAnswers object rs, disk) := by
  have hopen : openForReading s recheck object disk =
      .ok ⟨s, object.content.length, 0, none, none⟩ := openForReading_uncached (by rw [h])
  have hreads := @reads_cloud object rs ⟨s, object.content.length, 0, none, none⟩ hin rfl rfl rfl
  unfold session
  dsimp only
  rw [hopen]
  dsimp only
  rw [hreads.left, hreads.right]
  rfl

theorem session_unnamed (h : cacheFile s = (true, "")) :
    ∃ e, session s object ⟨recheck, rs⟩ disk = (.error e, disk) := by
  have ⟨e, he⟩ := @openForReading_unnamed s object recheck disk h
  refine ⟨e, ?_⟩
  unfold session
  dsimp only
  rw [he]

-- A session that reads from the cloud is told the truth, and leaves what it has read.
theorem session_untrusted (h : cacheFile s = (true, path)) (hpath : path ≠ "")
    (ht : ∀ content, disk = some content → ¬Trusts object recheck content.length)
    (hin : ∀ r ∈ rs, Inside object r) :
    ∃ content, session s object ⟨recheck, rs⟩ disk = (rightAnswers object rs, some content) ∧
      Filled object.content rs content := by
  have hopen := openForReading_untrusted h hpath ht
  have ⟨hanswers, stream, hstream, hfilled⟩ := @reads_caching object rs []
    ⟨s, object.content.length, 0, none, some ⟨path, ⟨[], 0⟩, false⟩⟩ _ hin rfl rfl rfl rfl Filled.nil
  refine ⟨stream.file.content, ?_, hfilled⟩
  unfold session
  dsimp only
  rw [hopen]
  dsimp only
  rw [hanswers, hstream]
  rfl

-- Reading from the cache file does not open it to write.
theorem read_keeps {t : Transport} {size start : Nat} (h : t.cacheFileRead.isSome) :
    (read t object size start).2.cacheFileRead.isSome ∧
      (read t object size start).2.cacheFileWrite = t.cacheFileWrite := by
  have ⟨stream, hstream⟩ := Option.isSome_iff_exists.mp h
  obtain ⟨settings, tsize, seekPos, cacheRead, cacheWrite⟩ := t
  cases hstream
  unfold read
  by_cases hstart : start ≠ maxSizeT
  case pos =>
    rw [if_pos hstart]
    split
    case isTrue => exact ⟨rfl, rfl⟩
    case isFalse =>
      dsimp only
      split <;> exact ⟨rfl, rfl⟩
  case neg =>
    rw [if_neg hstart, if_neg fun hle => hstart hle.left]
    dsimp only
    split <;> exact ⟨rfl, rfl⟩

theorem reads_keeps {t : Transport} (h : t.cacheFileRead.isSome) :
    (reads object rs t).2.cacheFileWrite = t.cacheFileWrite := by
  induction rs generalizing t with
  | nil => rfl
  | cons r rs ih =>
    have ⟨hread, hwrite⟩ := @read_keeps object t r.1 r.2 h
    have hstep : read t object r.1 r.2 = ((read t object r.1 r.2).1, (read t object r.1 r.2).2) :=
      Prod.mk.eta.symm
    rw [reads_cons hstep, ih hread, hwrite]

theorem take_drop_inj {xs ys : List Byte} {n k : Nat} :
    (xs.drop n).take k = (ys.drop n).take k ↔ ∀ p, n ≤ p → p < n + k → xs[p]? = ys[p]? := by
  constructor
  case mp =>
    intro h p hp hp'
    have hget := congrArg (·[p - n]?) h
    simp only [List.getElem?_take_of_lt (show p - n < k by omega), List.getElem?_drop,
      Nat.add_sub_cancel' hp] at hget
    exact hget
  case mpr =>
    intro h
    apply List.ext_getElem?
    intro i
    by_cases hi : i < k
    case pos =>
      rw [List.getElem?_take_of_lt hi, List.getElem?_take_of_lt hi, List.getElem?_drop,
        List.getElem?_drop]
      exact h (n + i) (Nat.le_add_right _ _) (by omega)
    case neg =>
      rw [List.getElem?_take, List.getElem?_take, if_neg hi, if_neg hi]

-- Inside a file that has been filled, a byte is right if it has been read, or is zero.
theorem Filled.getElem?_eq_iff {content : List Byte} {kept : List (Nat × Nat)}
    (h : Filled object.content kept content) {p : Nat} (hp : p < content.length) :
    content[p]? = object.content[p]? ↔ Covered kept p ∨ object.content[p]? = some 0 := by
  by_cases hc : Covered kept p
  case pos => exact ⟨fun _ => .inl hc, fun _ => h.bytes p hc⟩
  case neg => rw [h.zeros p hp hc, or_iff_right hc, eq_comm]

-- One that reads from the cache file leaves it as it is.
theorem session_trusted {content : List Byte} {kept : List (Nat × Nat)}
    (h : cacheFile s = (true, path)) (hpath : path ≠ "")
    (ht : Trusts object recheck content.length) (hin : ∀ r ∈ rs, Inside object r)
    (hfilled : Filled object.content kept content) :
    (session s object ⟨recheck, rs⟩ (some content)).2 = some content ∧
      ((session s object ⟨recheck, rs⟩ (some content)).1 = rightAnswers object rs ↔
        Served object kept rs) := by
  have hopen := openForReading_trusted h hpath ht
  let t : Transport := ⟨s, content.length, 0, some ⟨path, ⟨content, 0⟩, false⟩, none⟩
  have hsession : session s object ⟨recheck, rs⟩ (some content) =
      (.ok (content.length, (reads object rs t).1), some content) := by
    have hkeeps := @reads_keeps object rs t rfl
    unfold session
    dsimp only
    rw [hopen]
    dsimp only
    rw [hkeeps]
  rw [hsession]
  refine ⟨rfl, ?_⟩
  dsimp only
  unfold rightAnswers Served
  rw [Except.ok.injEq, Prod.mk.injEq, hfilled.length.symm]
  apply and_congr_right
  intro hlen
  have hreads := @reads_cached object rs t _ hin hlen rfl rfl rfl hlen
  have hbytes : ∀ r ∈ rs, ((content.drop r.2).take r.1 = asked object r ↔
      ∀ p, r.2 ≤ p → p < r.2 + r.1 → Covered kept p ∨ object.content[p]? = some 0) := by
    intro r hr
    have hend := (hin r hr).right
    rw [asked, take_drop_inj]
    refine forall_congr' fun p => forall_congr' fun _ => forall_congr' fun hp => ?_
    exact hfilled.getElem?_eq_iff (by omega)
  rw [hreads.left, List.map_inj_left]
  refine forall_congr' fun r => forall_congr' fun hr => ?_
  rw [Except.ok.injEq]
  exact hbytes r hr

end Session

-- In front of each session, by what reads the cache file has been filled, if it is there: a session
-- that takes it for the object finds there what it reads, and any other one fills it anew.
def Complete (object : CloudObject) : List Session → Option (List (Nat × Nat)) → Prop
  | [], _                   => True
  | next :: rest, none      => Complete object rest (some next.reads)
  | next :: rest, some kept =>
    (Trusts object next.recheckMetadata (reached kept) →
      Served object kept next.reads ∧ Complete object rest (some kept)) ∧
    (¬Trusts object next.recheckMetadata (reached kept) → Complete object rest (some next.reads))

-- The cache file is not there, or has been filled by some reads.
def Keeps (object : CloudObject) : Option (List (Nat × Nat)) → Option (List Byte) → Prop
  | none, disk      => disk = none
  | some kept, disk => ∃ content, disk = some content ∧ Filled object.content kept content

-- Every session is told the size of the object, and by each read the bytes that it is for.
def Transparent (s : Settings) (object : CloudObject) (history : List Session) : Prop :=
  sessions s object history none = history.map fun next => rightAnswers object next.reads

theorem sessions_eq_iff {path : String} (h : cacheFile s = (true, path)) (hpath : path ≠ "")
    {history : List Session} (hin : ∀ next ∈ history, ∀ r ∈ next.reads, Inside object r)
    {kept : Option (List (Nat × Nat))} {disk : Option (List Byte)} (hkeeps : Keeps object kept disk) :
    (sessions s object history disk = history.map fun next => rightAnswers object next.reads) ↔
      Complete object history kept := by
  induction history generalizing kept disk with
  | nil => simp [sessions, Complete]
  | cons next rest ih =>
    have hnext := hin next List.mem_cons_self
    have hrest : ∀ next ∈ rest, ∀ r ∈ next.reads, Inside object r :=
      fun next hmem => hin next (List.mem_cons_of_mem _ hmem)
    -- a session that reads from the cloud
    have huntrusted : (∀ content, disk = some content →
        ¬Trusts object next.recheckMetadata content.length) →
        ((sessions s object (next :: rest) disk =
            (next :: rest).map fun next => rightAnswers object next.reads) ↔
          Complete object rest (some next.reads)) := by
      intro ht
      have ⟨content, hsession, hfilled⟩ := session_untrusted h hpath ht hnext
      rw [sessions, hsession, List.map_cons, List.cons.injEq, and_iff_right rfl]
      exact ih hrest ⟨content, rfl, hfilled⟩
    cases kept
    case none => exact huntrusted (by rw [show disk = none from hkeeps]; nofun)
    case some kept =>
      have ⟨content, hdisk, hfilled⟩ := hkeeps
      subst hdisk
      rw [Complete, ← hfilled.length]
      by_cases ht : Trusts object next.recheckMetadata content.length
      case neg =>
        rw [huntrusted (by rintro _ ⟨⟩; exact ht)]
        exact ⟨fun hc => ⟨fun h => absurd h ht, fun _ => hc⟩, fun hc => hc.right ht⟩
      case pos =>
        have ⟨hdisk, hanswers⟩ := session_trusted h hpath ht hnext hfilled
        rw [sessions, hdisk, List.map_cons, List.cons.injEq, hanswers,
          ih hrest (show Keeps object (some kept) (some content) from ⟨content, rfl, hfilled⟩)]
        exact ⟨fun hc => ⟨fun _ => hc, fun hn => absurd ht hn⟩, fun hc => hc.left ht⟩

theorem transparent_iff (s : Settings) (object : CloudObject) {history : List Session}
    (hin : ∀ next ∈ history, ∀ r ∈ next.reads, Inside object r) :
    Transparent s object history ↔
      ((cacheFile s).1 = true →
        ((cacheFile s).2 = "" → history = []) ∧ Complete object history none) := by
  rcases hfile : cacheFile s with ⟨caching, path⟩
  cases caching
  case false =>
    refine iff_of_true ?_ nofun
    unfold Transparent
    suffices ∀ disk, sessions s object history disk =
        history.map fun next => rightAnswers object next.reads from this none
    induction history with
    | nil => exact fun _ => rfl
    | cons next rest ih =>
      intro disk
      rw [sessions, session_uncached hfile (hin next List.mem_cons_self),
        ih (fun next hmem => hin next (List.mem_cons_of_mem _ hmem))]
      rfl
  case true =>
    rw [imp_iff_right rfl]
    dsimp only
    by_cases hpath : path = ""
    case neg =>
      rw [and_iff_right fun h => absurd h hpath]
      exact sessions_eq_iff hfile hpath hin rfl
    case pos =>
      subst hpath
      rw [imp_iff_right rfl]
      cases history
      case nil => exact iff_of_true rfl ⟨rfl, trivial⟩
      case cons next rest =>
        have ⟨e, he⟩ := @session_unnamed s object next.recheckMetadata none next.reads hfile
        refine iff_of_false ?_ fun h => nomatch h.left
        intro h
        unfold Transparent at h
        rw [sessions, he] at h
        exact nomatch (List.cons.inj h).left

-- Three bytes under the name of a metadata file. A first session reads the last of them, and a second
-- one the first of them.
def indexSettings : Settings := ⟨"bucket/a.bp/md.0", "a.bp/md.0", "/cache", ""⟩

def threeBytes : CloudObject := ⟨[1, 2, 3], by decide⟩

def holeHistory : List Session := [⟨true, [(1, 2)]⟩, ⟨true, [(1, 0)]⟩]

theorem cacheFile_indexSettings : cacheFile indexSettings = (true, "/cache/md.0") := by
  decide

theorem not_transparent_hole :
    (∀ next ∈ holeHistory, ∀ r ∈ next.reads, Inside threeBytes r) ∧
      ¬Transparent indexSettings threeBytes holeHistory := by
  have hin : ∀ next ∈ holeHistory, ∀ r ∈ next.reads, Inside threeBytes r := by
    unfold Inside
    decide
  refine ⟨hin, fun h => ?_⟩
  have hcomplete : Complete threeBytes holeHistory none :=
    (sessions_eq_iff cacheFile_indexSettings (by decide) hin
      (show Keeps threeBytes none none from rfl)).mp h
  have htrusts : Trusts threeBytes true (reached [(1, 2)]) := ⟨by decide, fun _ => rfl⟩
  have ⟨⟨_, hserved⟩, _⟩ := hcomplete.left htrusts
  have hbyte := hserved (1, 0) List.mem_cons_self 0 (Nat.le_refl 0) (by decide)
  revert hbyte
  unfold Covered
  decide

-- A first session reads everything, in two parts, and a second one does not look at the cloud.
theorem transparent_indexSettings :
    Transparent indexSettings threeBytes [⟨true, [(2, 1), (1, 0)]⟩, ⟨false, [(2, 0)]⟩] := by
  have hin : ∀ next ∈ [(⟨true, [(2, 1), (1, 0)]⟩ : Session), ⟨false, [(2, 0)]⟩],
      ∀ r ∈ next.reads, Inside threeBytes r := by
    unfold Inside
    decide
  refine (transparent_iff indexSettings threeBytes hin).mpr fun _ => ⟨?named, ?complete⟩
  case named =>
    rw [cacheFile_indexSettings]
    decide
  case complete =>
    refine ⟨fun _ => ⟨⟨rfl, ?_⟩, trivial⟩, fun _ => trivial⟩
    intro r hr p hp hp'
    rw [List.mem_singleton] at hr
    subst hr
    refine .inl ?_
    unfold Covered
    interval_cases p <;> decide

end FileAWSSDK
