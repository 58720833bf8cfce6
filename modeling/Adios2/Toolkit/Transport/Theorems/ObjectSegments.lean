import Adios2.Toolkit.Transport.FileAWSSDK.Segments
import Adios2.Toolkit.Transport.Theorems.CachedMetadata

-- The numbered objects of a file stay numbered without a gap, and what stands in them, one behind
-- the other, is the file.

namespace FileAWSSDK

open Bytes CString ObjectStore

section Keys

variable {base : Key}

theorem dotted_isPrefix (base : Key) (n : Nat) : dotted base <+: subKey base n :=
  List.prefix_append _ _

theorem subKey_inj {m n : Nat} (h : subKey base m = subKey base n) : m = n := by
  have hdecimal := List.append_cancel_left h
  rw [← digitsValue_decimal m, ← digitsValue_decimal n, hdecimal]

theorem subKey_ne (base : Key) (n : Nat) : subKey base n ≠ base := by
  intro h
  have hlen := congrArg List.length h
  simp only [subKey, dotted, List.length_append, List.length_singleton] at hlen
  omega

theorem segInfo_subKey (n : Nat) (c : List Byte) :
    segInfo (dotted base) (subKey base n, c) = some ⟨subKey base n, n, c.length⟩ := by
  have hdrop : (subKey base n).drop (dotted base).length = decimal n := List.drop_left
  have hall : (decimal n).all isDigit = true := List.all_eq_true.mpr (decimal_digits n)
  unfold segInfo
  dsimp only
  rw [hdrop, if_pos ⟨decimal_ne_nil n, hall⟩, digitsValue_decimal]

theorem strrchr_subKey (base : Key) (n : Nat) : strrchr (subKey base n) dot = some base.length := by
  have hdigits : ∀ c ∈ (decimal n).reverse, decide (c = dot) = false := by
    intro c hc
    have hdigit := decimal_digits n c (List.mem_reverse.mp hc)
    exact decide_eq_false fun heq => absurd (heq ▸ hdigit) (by decide)
  have hfind : (subKey base n).reverse.findIdx? (· = dot) = some (decimal n).length := by
    rw [subKey, dotted, List.append_assoc, List.reverse_append, List.reverse_append,
      List.append_assoc, List.findIdx?_append, List.findIdx?_eq_none_iff.mpr hdigits]
    simp [List.findIdx?_cons]
  rw [strrchr, hfind, Option.map_some, subKey, dotted]
  simp only [List.length_append, List.length_singleton, Option.some.injEq]
  omega

theorem drop_subKey (base : Key) (n : Nat) : (subKey base n).drop (base.length + 1) = decimal n := by
  have hlen : (dotted base).length = base.length + 1 := by simp [dotted]
  rw [← hlen]
  exact List.drop_left

end Keys

-- Objects with the numbers from `k` on.
def numberedFrom (base : Key) : Nat → List (List Byte) → List (Key × List Byte)
  | _, []      => []
  | k, c :: cs => (subKey base k, c) :: numberedFrom base (k + 1) cs

-- What a listing says of them.
def infosFrom (base : Key) : Nat → List (List Byte) → List SegInfo
  | _, []      => []
  | k, c :: cs => ⟨subKey base k, k, c.length⟩ :: infosFrom base (k + 1) cs

section Numbered

variable {base : Key}

theorem numberedFrom_append (k : Nat) (cs ds : List (List Byte)) :
    numberedFrom base k (cs ++ ds) =
      numberedFrom base k cs ++ numberedFrom base (k + cs.length) ds := by
  induction cs generalizing k with
  | nil => rfl
  | cons c cs ih =>
    rw [List.cons_append, numberedFrom, numberedFrom, ih, List.cons_append, List.length_cons]
    congr 3
    omega

theorem mem_numberedFrom {k : Nat} {cs : List (List Byte)} {object : Key × List Byte} :
    object ∈ numberedFrom base k cs ↔
      ∃ i c, cs[i]? = some c ∧ object = (subKey base (k + i), c) := by
  induction cs generalizing k with
  | nil => simp [numberedFrom]
  | cons c cs ih =>
    rw [numberedFrom, List.mem_cons, ih]
    constructor
    case mp =>
      rintro (rfl | ⟨i, d, hd, rfl⟩)
      · exact ⟨0, c, rfl, rfl⟩
      · exact ⟨i + 1, d, hd, by rw [Nat.add_right_comm, Nat.add_assoc]⟩
    case mpr =>
      rintro ⟨i, d, hd, rfl⟩
      cases i
      case zero =>
        cases hd
        exact .inl rfl
      case succ i => exact .inr ⟨i, d, hd, by rw [Nat.add_right_comm, Nat.add_assoc]⟩

theorem filterMap_numberedFrom (k : Nat) (cs : List (List Byte)) :
    (numberedFrom base k cs).filterMap (segInfo (dotted base)) = infosFrom base k cs := by
  induction cs generalizing k with
  | nil => rfl
  | cons c cs ih =>
    rw [numberedFrom, List.filterMap_cons_some (segInfo_subKey k c), ih, infosFrom]

theorem mem_infosFrom {k : Nat} {cs : List (List Byte)} {seg : SegInfo}
    (h : seg ∈ infosFrom base k cs) :
    ∃ i c, cs[i]? = some c ∧ seg = ⟨subKey base (k + i), k + i, c.length⟩ := by
  induction cs generalizing k with
  | nil => exact absurd h List.not_mem_nil
  | cons c cs ih =>
    rcases List.mem_cons.mp h with rfl | h
    case inl => exact ⟨0, c, rfl, rfl⟩
    case inr =>
      have ⟨i, d, hd, hseg⟩ := ih h
      exact ⟨i + 1, d, hd, by rw [hseg, Nat.add_right_comm, Nat.add_assoc]⟩

theorem infosFrom_pairwise (k : Nat) (cs : List (List Byte)) :
    (infosFrom base k cs).Pairwise fun a b => a.segNum ≤ b.segNum := by
  induction cs generalizing k with
  | nil => exact List.Pairwise.nil
  | cons c cs ih =>
    refine List.Pairwise.cons ?_ (ih (k + 1))
    intro seg hseg
    have ⟨i, d, _, hseg⟩ := mem_infosFrom hseg
    rw [hseg]
    dsimp only
    omega

theorem infosFrom_length (k : Nat) (cs : List (List Byte)) :
    (infosFrom base k cs).length = cs.length := by
  induction cs generalizing k with
  | nil => rfl
  | cons c cs ih => rw [infosFrom, List.length_cons, ih, List.length_cons]

theorem infosFrom_sizes (k : Nat) (cs : List (List Byte)) :
    (infosFrom base k cs).map SegInfo.size = cs.map List.length := by
  induction cs generalizing k with
  | nil => rfl
  | cons c cs ih => rw [infosFrom, List.map_cons, ih, List.map_cons]

end Numbered

-- The store has, of a file, exactly the objects with the numbers from zero on.
structure Stored (s : Store) (base : Key) (segs : List (List Byte)) : Prop where
  bare    : s.get base = none
  objects : (s.objects.filter ((dotted base).isPrefixOf ·.1)).Perm (numberedFrom base 0 segs)

namespace Stored

variable {s : Store} {base : Key} {segs : List (List Byte)}

theorem listing (h : Stored s base segs) :
    (s.listing (dotted base)).Perm (numberedFrom base 0 segs) :=
  (s.listing_perm (dotted base)).trans h.objects

-- Sorted by their numbers, they are in the order in which they were numbered.
theorem segments_eq (h : Stored s base segs) : segments s base = infosFrom base 0 segs := by
  have hperm : (segments s base).Perm (infosFrom base 0 segs) := by
    rw [← filterMap_numberedFrom]
    exact (List.perm_insertionSort _ _).trans (h.listing.filterMap _)
  refine hperm.eq_of_pairwise ?_ ?sorted (infosFrom_pairwise 0 segs)
  case sorted =>
    have : Std.Total fun a b : SegInfo => a.segNum ≤ b.segNum := ⟨fun a b => Nat.le_total _ _⟩
    have : IsTrans SegInfo fun a b => a.segNum ≤ b.segNum := ⟨fun a b c => Nat.le_trans⟩
    exact List.pairwise_insertionSort _ _
  intro a b ha hb hab hba
  have ⟨i, c, hc, ha⟩ := mem_infosFrom (hperm.mem_iff.mp ha)
  have ⟨j, d, hd, hb⟩ := mem_infosFrom hb
  subst ha hb
  have hij : i = j := by
    dsimp only at hab hba
    omega
  subst hij
  cases hc.symm.trans hd
  rfl

theorem mem_iff (h : Stored s base segs) {object : Key × List Byte} :
    (object ∈ s.objects ∧ dotted base <+: object.1) ↔
      ∃ i c, segs[i]? = some c ∧ object = (subKey base i, c) := by
  have hmem := h.objects.mem_iff (a := object)
  rw [List.mem_filter, mem_numberedFrom] at hmem
  simpa only [List.isPrefixOf_iff_prefix, Nat.zero_add] using hmem

theorem get_subKey (h : Stored s base segs) (n : Nat) : s.get (subKey base n) = segs[n]? := by
  cases hn : segs[n]?
  case some c =>
    exact Store.get_eq_some_iff.mpr (h.mem_iff.mpr ⟨n, c, hn, rfl⟩).left
  case none =>
    refine Store.get_eq_none_iff.mpr fun object hmem hkey => ?_
    have ⟨i, c, hc, hobject⟩ := h.mem_iff.mp ⟨hmem, hkey ▸ dotted_isPrefix base n⟩
    rw [hobject] at hkey
    rw [subKey_inj hkey, hn] at hc
    exact nomatch hc

-- The number behind the last one is free.
theorem get_next (h : Stored s base segs) {n : Nat} (hn : segs.length ≤ n) :
    s.get (subKey base n) = none := by
  rw [h.get_subKey, List.getElem?_eq_none hn]

theorem put_next (h : Stored s base segs) (bytes : List Byte) :
    Stored (s.put (subKey base segs.length) bytes) base (segs ++ [bytes]) where
  bare := by
    refine Store.get_eq_none_iff.mpr fun object hmem => ?_
    rw [Store.put_objects_of_fresh (h.get_next (Nat.le_refl _)), List.mem_append,
      List.mem_singleton] at hmem
    rcases hmem with hmem | rfl
    · exact Store.get_eq_none_iff.mp h.bare object hmem
    · exact subKey_ne base _
  objects := by
    have hfront : (dotted base).isPrefixOf (subKey base segs.length) = true :=
      List.isPrefixOf_iff_prefix.mpr (dotted_isPrefix base _)
    rw [Store.put_objects_of_fresh (h.get_next (Nat.le_refl _)), List.filter_append,
      List.filter_singleton, hfront, numberedFrom_append, Nat.zero_add]
    exact h.objects.append_right _

end Stored

theorem Stored.nil {s : Store} {base : Key} (hbare : s.get base = none)
    (hnone : ∀ object ∈ s.objects, ¬dotted base <+: object.1) : Stored s base [] where
  bare    := hbare
  objects := by
    have hfilter : s.objects.filter ((dotted base).isPrefixOf ·.1) = [] := by
      refine List.filter_eq_nil_iff.mpr fun object hmem hfront => ?_
      exact hnone object hmem (List.isPrefixOf_iff_prefix.mp hfront)
    rw [hfilter]
    exact List.Perm.refl _

section Open

variable {s : Store} {base : Key}

theorem mem_deleteStaleSubObjects {object : Key × List Byte}
    (h : object ∈ (deleteStaleSubObjects s base).objects) :
    object ∈ s.objects ∧ ¬dotted base <+: object.1 := by
  have ⟨hmem, hkey⟩ := Store.mem_deleteAll.mp h
  exact ⟨hmem, fun hfront => hkey (List.mem_map_of_mem (Store.mem_listing.mpr ⟨hmem, hfront⟩))⟩

theorem mem_deleteOrphanedSubObjects {numSubFiles : Int} {object : Key × List Byte}
    (h : object ∈ (deleteOrphanedSubObjects s base numSubFiles).objects) : object ∈ s.objects := by
  unfold deleteOrphanedSubObjects at h
  split at h
  case h_1 => exact h
  case h_2 => exact (Store.mem_deleteAll.mp h).left

theorem openWrite_stored (threshold : Nat) (numSubFiles : Int) :
    Stored (openWrite s base threshold numSubFiles).2 base [] := by
  have hmem : ∀ object ∈ (openWrite s base threshold numSubFiles).2.objects,
      object ∈ ((deleteStaleSubObjects s base).delete base).objects := by
    intro object hobject
    unfold openWrite at hobject
    dsimp only at hobject
    split at hobject
    case isTrue  => exact mem_deleteOrphanedSubObjects hobject
    case isFalse => exact hobject
  refine Stored.nil ?_ fun object hobject => ?_
  · refine Store.get_eq_none_iff.mpr fun object hobject => ?_
    exact (Store.mem_delete.mp (hmem object hobject)).right
  · have hstale := (Store.mem_delete.mp (hmem object hobject)).left
    exact (mem_deleteStaleSubObjects hstale).right

theorem continueBehind_subKey {w : Writer} {n : Nat} (hn : n < 2 ^ 64) (c : List Byte) :
    continueBehind w (subKey base n, c) = .ok { w with
      nextObjectNumber  := max w.nextObjectNumber (n + 1)
      totalBytesWritten := w.totalBytesWritten + c.length } := by
  have hmax : (if w.nextObjectNumber < n + 1 then n + 1 else w.nextObjectNumber) =
      max w.nextObjectNumber (n + 1) := by
    split <;> omega
  unfold continueBehind
  rw [strrchr_subKey]
  dsimp only
  rw [drop_subKey, stoul_decimal hn, Outcome.ok_bind, Outcome.pure_eq, Outcome.ok_bind, hmax]
  rfl

-- The number that follows those of some objects.
def nextNumber (base : Key) (next : Nat) (objects : List (Key × List Byte)) : Nat :=
  (objects.map fun object => ((segInfo (dotted base) object).map SegInfo.segNum).getD 0 + 1).foldl
    max next

theorem foldlM_continueBehind {objects : List (Key × List Byte)}
    (h : ∀ object ∈ objects, ∃ n c, n < 2 ^ 64 ∧ object = (subKey base n, c)) (w : Writer) :
    objects.foldlM continueBehind w = .ok { w with
      nextObjectNumber  := nextNumber base w.nextObjectNumber objects
      totalBytesWritten := w.totalBytesWritten + (objects.map (·.2.length)).sum } := by
  induction objects generalizing w with
  | nil => rfl
  | cons object objects ih =>
    have ⟨n, c, hn, hobject⟩ := h object List.mem_cons_self
    rw [List.foldlM_cons, hobject, continueBehind_subKey hn, Outcome.ok_bind,
      ih fun object hmem => h object (List.mem_cons_of_mem _ hmem), List.map_cons, List.sum_cons,
      nextNumber, nextNumber, List.map_cons, List.foldl_cons, segInfo_subKey]
    simp only [Option.map_some, Option.getD_some, Nat.add_assoc]

theorem nextNumber_numberedFrom (k : Nat) (cs : List (List Byte)) :
    nextNumber base k (numberedFrom base k cs) = k + cs.length := by
  induction cs generalizing k with
  | nil => rfl
  | cons c cs ih =>
    have hmax : max k (k + 1) = k + 1 := by omega
    have ih := ih (k + 1)
    unfold nextNumber at ih ⊢
    rw [numberedFrom, List.map_cons, List.foldl_cons, segInfo_subKey, Option.map_some,
      Option.getD_some, hmax, ih, List.length_cons]
    omega

theorem sum_numberedFrom (k : Nat) (cs : List (List Byte)) :
    ((numberedFrom base k cs).map (·.2.length)).sum = cs.flatten.length := by
  induction cs generalizing k with
  | nil => rfl
  | cons c cs ih =>
    rw [numberedFrom, List.map_cons, List.sum_cons, ih, List.flatten_cons, List.length_append]

-- An append goes on behind the last object, at the end of the file.
theorem Stored.openAppend_eq {segs : List (List Byte)} (h : Stored s base segs)
    (hcount : segs.length ≤ 2 ^ 64) (threshold : Nat) :
    openAppend s base threshold =
      .ok ⟨base, segs.length, threshold, [], segs.flatten.length⟩ := by
  have hobjects : ∀ object ∈ s.listing (dotted base),
      ∃ n c, n < 2 ^ 64 ∧ object = (subKey base n, c) := by
    intro object hmem
    have ⟨i, c, hc, hobject⟩ := mem_numberedFrom.mp (h.listing.mem_iff.mp hmem)
    have ⟨hi, _⟩ := List.getElem?_eq_some_iff.mp hc
    exact ⟨i, c, by omega, by rw [hobject, Nat.zero_add]⟩
  have hnext : nextNumber base 0 (s.listing (dotted base)) = segs.length := by
    have hperm := h.listing.map fun object =>
      ((segInfo (dotted base) object).map SegInfo.segNum).getD 0 + 1
    have hfold : nextNumber base 0 (s.listing (dotted base)) =
        nextNumber base 0 (numberedFrom base 0 segs) := hperm.foldl_eq 0
    rw [hfold, nextNumber_numberedFrom, Nat.zero_add]
  have hsum : ((s.listing (dotted base)).map (·.2.length)).sum = segs.flatten.length := by
    rw [(h.listing.map _).sum_eq, sum_numberedFrom]
  unfold openAppend
  rw [foldlM_continueBehind hobjects]
  dsimp only
  rw [hnext, hsum, Nat.zero_add]

end Open

-- A transport that writes a file: what is stored, and behind it what waits in the buffer.
structure Writes (s : Store) (w : Writer) (base : Key) (segs : List (List Byte)) : Prop where
  stored : Stored s base segs
  base   : w.baseObjectName = base
  next   : w.nextObjectNumber = segs.length
  total  : w.totalBytesWritten = segs.flatten.length + w.writeBuffer.length

namespace Writes

variable {s : Store} {w : Writer} {base : Key} {segs : List (List Byte)}

theorem flush (h : Writes s w base segs) :
    ∃ segs', Writes (flushWriteBuffer w s).2 (flushWriteBuffer w s).1 base segs' ∧
      segs'.flatten = segs.flatten ++ w.writeBuffer ∧
      (flushWriteBuffer w s).1.writeBuffer = [] ∧
      (flushWriteBuffer w s).1.directUploadThreshold = w.directUploadThreshold := by
  unfold flushWriteBuffer
  split
  case isTrue hnil => exact ⟨segs, h, by rw [hnil, List.append_nil], hnil, rfl⟩
  case isFalse =>
    refine ⟨segs ++ [w.writeBuffer], ⟨?_, h.base, ?_, ?_⟩, by simp, rfl, rfl⟩
    · rw [uploadNext, h.base, h.next]
      exact h.stored.put_next w.writeBuffer
    · rw [uploadNext, List.length_append, List.length_singleton, h.next]
    · rw [uploadNext, h.total]
      simp

-- A write at the end of the file, of so many bytes that they go to an object, or to the buffer.
theorem write (h : Writes s w base segs) (buffer : List Byte) {start : Option Nat}
    (hstart : start = none ∨ start = some w.totalBytesWritten) :
    ∃ w' s' segs', FileAWSSDK.write w s buffer start = .ok (w', s') ∧ Writes s' w' base segs' ∧
      segs'.flatten ++ w'.writeBuffer = segs.flatten ++ w.writeBuffer ++ buffer ∧
      w'.writeBuffer.length = (if w.directUploadThreshold ≤ buffer.length then 0
        else w.writeBuffer.length + buffer.length) ∧
      w'.directUploadThreshold = w.directUploadThreshold := by
  have hposition : ¬(start ≠ none ∧ start ≠ some w.totalBytesWritten) := by
    rw [not_and_or, not_not, not_not]
    exact hstart
  have ⟨segs₁, hflush, hflatten, hnil, hthreshold⟩ := h.flush
  have htotal : (flushWriteBuffer w s).1.totalBytesWritten = w.totalBytesWritten := by
    rw [hflush.total, hflatten, hnil, List.length_append, h.total, List.length_nil, Nat.add_zero]
  unfold FileAWSSDK.write
  rw [if_neg hposition]
  dsimp only
  by_cases hsize : w.directUploadThreshold ≤ buffer.length
  case pos =>
    rw [if_pos hsize, if_pos hsize]
    refine ⟨_, _, segs₁ ++ [buffer], rfl, ⟨?_, hflush.base, ?_, ?_⟩, ?_, ?_, hthreshold⟩
    · rw [uploadNext, hflush.base, hflush.next]
      exact hflush.stored.put_next buffer
    · rw [uploadNext, List.length_append, List.length_singleton, hflush.next]
    · rw [uploadNext]
      dsimp only
      rw [htotal, hnil, h.total, List.flatten_append, hflatten]
      simp [Nat.add_assoc]
    · rw [uploadNext]
      dsimp only
      rw [hnil, List.flatten_append, hflatten]
      simp
    · rw [uploadNext]
      dsimp only
      rw [hnil, List.length_nil]
  case neg =>
    rw [if_neg hsize, if_neg hsize]
    refine ⟨_, _, segs, rfl, ⟨h.stored, h.base, h.next, ?_⟩, ?_, ?_, rfl⟩
    · dsimp only
      rw [h.total, List.length_append, Nat.add_assoc]
    · rw [List.append_assoc]
    · dsimp only
      rw [List.length_append]

-- Anywhere else nothing is written.
theorem write_elsewhere (buffer : List Byte) {p : Nat} (hp : p ≠ w.totalBytesWritten) :
    ∃ e, FileAWSSDK.write w s buffer (some p) = .error e :=
  ⟨_, if_pos ⟨nofun, fun heq => hp (Option.some.inj heq)⟩⟩

end Writes

section Truncate

variable {s : Store} {w : Writer} {base : Key} {segs : List (List Byte)}

theorem map_key_infosFrom (k : Nat) (cs : List (List Byte)) :
    (infosFrom base k cs).map SegInfo.key = (numberedFrom base k cs).map Prod.fst := by
  induction cs generalizing k with
  | nil => rfl
  | cons c cs ih => rw [infosFrom, numberedFrom, List.map_cons, List.map_cons, ih]

-- The objects that are kept are the first ones, up to the one in which the length is reached.
theorem keepUpTo_infosFrom (length cumSize k : Nat) (cs : List (List Byte)) :
    ∃ j ≤ cs.length, keepUpTo length cumSize (infosFrom base k cs) =
        (infosFrom base k (cs.take j), infosFrom base (k + j) (cs.drop j)) ∧
      (j < cs.length → length ≤ cumSize + (cs.take j).flatten.length) ∧
      ∀ i < j, cumSize + (cs.take i).flatten.length < length := by
  induction cs generalizing cumSize k with
  | nil => exact ⟨0, Nat.le_refl 0, rfl, fun h => absurd h (Nat.lt_irrefl 0), nofun⟩
  | cons c cs ih =>
    have ⟨j, hj, hkeep, hreached, hbefore⟩ := ih (cumSize + c.length) (k + 1)
    rw [infosFrom, keepUpTo]
    dsimp only
    rw [hkeep]
    dsimp only
    by_cases hlength : length ≤ cumSize
    case pos =>
      -- behind an object that starts at the length, every other one does
      have hzero : j = 0 := by
        by_contra hne
        have := hbefore 0 (Nat.pos_of_ne_zero hne)
        omega
      subst hzero
      rw [if_pos hlength]
      exact ⟨0, Nat.zero_le _, rfl, fun _ => by omega, nofun⟩
    case neg =>
      rw [if_neg hlength]
      refine ⟨j + 1, Nat.succ_le_succ hj, ?_, fun hlt => ?_, fun i hi => ?_⟩
      · rw [List.take_succ_cons, List.drop_succ_cons, infosFrom, Nat.add_right_comm k 1 j]
        rfl
      · have hreached := hreached (Nat.lt_of_succ_lt_succ hlt)
        rw [List.take_succ_cons, List.flatten_cons, List.length_append]
        omega
      · cases i
        case zero =>
          rw [List.take_zero, List.flatten_nil, List.length_nil]
          omega
        case succ i =>
          have hbefore := hbefore i (Nat.lt_of_succ_lt_succ hi)
          rw [List.take_succ_cons, List.flatten_cons, List.length_append]
          omega

-- Without the objects from a number on.
theorem Stored.deleteFrom (h : Stored s base segs) (j : Nat) (hj : j ≤ segs.length) :
    Stored (s.deleteAll ((numberedFrom base j (segs.drop j)).map Prod.fst)) base (segs.take j) where
  bare := by
    refine Store.get_eq_none_iff.mpr fun object hmem => ?_
    exact Store.get_eq_none_iff.mp h.bare object (Store.mem_deleteAll.mp hmem).left
  objects := by
    have hsplit : numberedFrom base 0 segs =
        numberedFrom base 0 (segs.take j) ++ numberedFrom base j (segs.drop j) := by
      have hlen : (segs.take j).length = j := List.length_take_of_le hj
      have happend := @numberedFrom_append base 0 (segs.take j) (segs.drop j)
      rwa [List.take_append_drop, hlen, Nat.zero_add] at happend
    have hkept : (numberedFrom base 0 segs).filter
        (·.1 ∉ (numberedFrom base j (segs.drop j)).map Prod.fst) =
        numberedFrom base 0 (segs.take j) := by
      rw [hsplit, List.filter_append]
      have hleft : (numberedFrom base 0 (segs.take j)).filter
          (·.1 ∉ (numberedFrom base j (segs.drop j)).map Prod.fst) =
          numberedFrom base 0 (segs.take j) := by
        refine List.filter_eq_self.mpr fun object hmem => decide_eq_true fun hin => ?_
        have ⟨i, c, hc, hobject⟩ := mem_numberedFrom.mp hmem
        have ⟨other, hother, hkey⟩ := List.mem_map.mp hin
        have ⟨i', c', hc', hother⟩ := mem_numberedFrom.mp hother
        subst hobject hother
        have hi := (List.getElem?_eq_some_iff.mp hc).fst
        rw [List.length_take] at hi
        have hnum := subKey_inj hkey
        omega
      have hright : (numberedFrom base j (segs.drop j)).filter
          (·.1 ∉ (numberedFrom base j (segs.drop j)).map Prod.fst) = [] := by
        refine List.filter_eq_nil_iff.mpr fun object hmem hout => ?_
        exact of_decide_eq_true hout (List.mem_map_of_mem hmem)
      rw [hleft, hright, List.append_nil]
    rw [Store.deleteAll_objects, List.filter_comm, ← hkept]
    exact h.objects.filter _

theorem flatten_take_le {i j : Nat} (h : i ≤ j) :
    (segs.take i).flatten.length ≤ (segs.take j).flatten.length := by
  have hprefix : segs.take i <+: segs.take j := List.take_prefix_take_left h
  exact hprefix.flatten.length_le

-- A cut where an object ends leaves the objects in front of it.
theorem Writes.truncate (h : Writes s w base segs) (hbuffer : w.writeBuffer = []) {length : Nat}
    (hcut : length = 0 ∨ ∃ i, length = (segs.take i).flatten.length) :
    ∃ segs', Writes (FileAWSSDK.truncate w s length).2 (FileAWSSDK.truncate w s length).1 base
        segs' ∧
      segs'.flatten = segs.flatten.take length ∧
      (FileAWSSDK.truncate w s length).1.writeBuffer = [] ∧
      (FileAWSSDK.truncate w s length).1.directUploadThreshold = w.directUploadThreshold := by
  unfold FileAWSSDK.truncate
  by_cases hzero : length = 0
  case pos =>
    subst hzero
    rw [if_pos rfl]
    refine ⟨[], ⟨?_, h.base, rfl, ?_⟩, rfl, hbuffer, rfl⟩
    · rw [h.base]
      refine Stored.nil ?_ fun object hmem => (mem_deleteStaleSubObjects hmem).right
      refine Store.get_eq_none_iff.mpr fun object hmem => ?_
      exact Store.get_eq_none_iff.mp h.stored.bare object (mem_deleteStaleSubObjects hmem).left
    · dsimp only
      rw [hbuffer]
      rfl
  case neg =>
    have ⟨i, hi⟩ := hcut.resolve_left hzero
    have ⟨j, hj, hkeep, hreached, hbefore⟩ := @keepUpTo_infosFrom base length 0 0 segs
    simp only [Nat.zero_add] at hkeep hreached hbefore
    have hle : j ≤ i := by
      by_contra hlt
      have := hbefore i (by omega)
      omega
    have hsize : (segs.take j).flatten.length = length := by
      refine Nat.le_antisymm (hi ▸ flatten_take_le hle) ?_
      by_cases hlt : j < segs.length
      case pos => exact hreached hlt
      case neg =>
        have hall : segs.take j = segs := List.take_of_length_le (by omega)
        rw [hall, hi]
        exact ((List.take_prefix i segs).flatten).length_le
    rw [if_neg hzero, h.base, h.stored.segments_eq, hkeep]
    dsimp only
    refine ⟨segs.take j, ⟨?_, rfl, ?_, ?_⟩, ?_, hbuffer, rfl⟩
    · rw [map_key_infosFrom]
      exact h.stored.deleteFrom j hj
    · exact infosFrom_length 0 _
    · dsimp only
      rw [hbuffer, hsize]
      rfl
    · have hsplit : segs.flatten = (segs.take j).flatten ++ (segs.drop j).flatten := by
        rw [← List.flatten_append, List.take_append_drop]
      rw [hsplit, ← hsize, List.take_left]

end Truncate

-- Where the object with an index starts in the file.
def startOf (segs : List (List Byte)) (i : Nat) : Nat := (segs.take i).flatten.length

section Read

variable {s : Store} {base : Key} {segs : List (List Byte)}

theorem startOf_succ {i : Nat} {c : List Byte} (h : segs[i]? = some c) :
    startOf segs (i + 1) = startOf segs i + c.length := by
  unfold startOf
  rw [List.take_add_one, h, Option.toList_some, List.flatten_append, List.length_append,
    List.flatten_singleton]

theorem startOf_length : startOf segs segs.length = segs.flatten.length := by
  rw [startOf, List.take_length]

theorem getElem?_cumulated (offset k i : Nat) (cs : List (List Byte)) :
    (cumulated offset (infosFrom base k cs))[i]? =
      cs[i]?.map fun c => ⟨subKey base (k + i), c.length, offset + startOf cs i⟩ := by
  induction cs generalizing offset k i with
  | nil => rfl
  | cons c cs ih =>
    rw [infosFrom, cumulated]
    cases i
    case zero => rfl
    case succ i =>
      rw [List.getElem?_cons_succ, ih, List.getElem?_cons_succ, startOf, startOf,
        List.take_succ_cons, List.flatten_cons, List.length_append]
      simp only [Nat.add_assoc, Nat.add_comm 1 i]

theorem cumulated_length (offset k : Nat) (cs : List (List Byte)) :
    (cumulated offset (infosFrom base k cs)).length = cs.length := by
  induction cs generalizing offset k with
  | nil => rfl
  | cons c cs ih => rw [infosFrom, cumulated, List.length_cons, ih, List.length_cons]

-- The search ends at the object in which the position is.
theorem findSubObject_eq {readPos fuel lo hi : Nat} (hlt : lo < hi) (hhi : hi ≤ segs.length)
    (hfuel : hi - lo ≤ fuel) (hlo : startOf segs lo ≤ readPos) (hpos : readPos < startOf segs hi) :
    ∃ i c, findSubObject (cumulated 0 (infosFrom base 0 segs)) readPos fuel lo hi = .ok i ∧
      segs[i]? = some c ∧ startOf segs i ≤ readPos ∧ readPos < startOf segs i + c.length := by
  induction fuel generalizing lo hi with
  | zero => omega
  | succ fuel ih =>
    unfold findSubObject
    by_cases hnext : lo + 1 < hi
    case pos =>
      have hmid : (lo + hi) / 2 < segs.length := by omega
      have hsub := @getElem?_cumulated base 0 0 ((lo + hi) / 2) segs
      rw [List.getElem?_eq_getElem hmid, Option.map_some, Nat.zero_add] at hsub
      rw [if_pos hnext]
      dsimp only
      rw [hsub, Option.orUndefined_some, Outcome.ok_bind]
      dsimp only
      by_cases hleft : startOf segs ((lo + hi) / 2) ≤ readPos
      case pos =>
        rw [Nat.zero_add, if_pos hleft]
        exact ih (by omega) hhi (by omega) hleft hpos
      case neg =>
        rw [Nat.zero_add, if_neg hleft]
        exact ih (by omega) (by omega) (by omega) hlo (by omega)
    case neg =>
      have hhi' : hi = lo + 1 := by omega
      have hget : segs[lo]? = some segs[lo] := List.getElem?_eq_getElem (by omega)
      rw [if_neg hnext]
      subst hhi'
      rw [startOf_succ hget] at hpos
      exact ⟨lo, _, rfl, hget, hlo, hpos⟩

theorem fetchSubObject_eq {i offset size : Nat} {c : List Byte} (h : Stored s base segs)
    (hc : segs[i]? = some c) (hoffset : offset < c.length)
    (hend : offset + size ≤ c.length) (hsmall : c.length < 2 ^ 63) :
    fetchSubObject s (subKey base i) offset size = .ok ((c.drop offset).take size) := by
  have ⟨body, hbody, htake⟩ :=
    @getObject_asked ⟨c, hsmall⟩ size offset ⟨hoffset, hend⟩
  have hrange : getRange s (subKey base i) offset size = .ok body := by
    rw [getRange, h.get_subKey, hc]
    exact hbody
  rw [fetchSubObject, fetch, hrange]
  exact congrArg Except.ok htake

-- The file from a position in one of the objects on, up to that object's end.
theorem take_flatten {i pos size : Nat} {c : List Byte} (hc : segs[i]? = some c)
    (hpos : startOf segs i ≤ pos) (hend : pos + size ≤ startOf segs i + c.length) :
    (segs.flatten.drop pos).take size = (c.drop (pos - startOf segs i)).take size := by
  have ⟨hi, hget⟩ := List.getElem?_eq_some_iff.mp hc
  have hsplit : segs.flatten = (segs.take i).flatten ++ (c ++ (segs.drop (i + 1)).flatten) := by
    rw [← List.flatten_cons, ← List.flatten_append, ← hget, ← List.drop_eq_getElem_cons hi,
      List.take_append_drop]
  have hdrop : segs.flatten.drop pos =
      (c ++ (segs.drop (i + 1)).flatten).drop (pos - startOf segs i) := by
    obtain ⟨k, rfl⟩ := Nat.exists_eq_add_of_le hpos
    rw [hsplit, Nat.add_sub_cancel_left, startOf, List.drop_length_add_append]
  rw [hdrop, List.drop_append_of_le_length (by omega), List.take_append_of_le_length]
  rw [List.length_drop]
  omega

theorem readSubObjects_eq (h : Stored s base segs) (hsmall : segs.flatten.length < 2 ^ 63)
    {fuel readPos bytesRemaining : Nat} (hfuel : bytesRemaining < fuel)
    (hend : readPos + bytesRemaining ≤ segs.flatten.length) :
    readSubObjects s (cumulated 0 (infosFrom base 0 segs)) fuel readPos bytesRemaining =
      .ok ((segs.flatten.drop readPos).take bytesRemaining) := by
  induction fuel generalizing readPos bytesRemaining with
  | zero => omega
  | succ fuel ih =>
    unfold readSubObjects
    by_cases hzero : bytesRemaining = 0
    case pos => rw [if_pos hzero, hzero, List.take_zero]
    case neg =>
      have hlen : 0 < segs.length := by
        cases segs
        case nil => simp only [List.flatten_nil, List.length_nil] at hend; omega
        case cons => exact Nat.succ_pos _
      have ⟨i, c, hfind, hc, hlo, hhi⟩ := @findSubObject_eq base segs readPos
        ((cumulated 0 (infosFrom base 0 segs)).length + 1) 0 segs.length hlen (Nat.le_refl _)
        (by rw [cumulated_length]; omega) (Nat.zero_le _) (by rw [startOf_length]; omega)
      have hsub := @getElem?_cumulated base 0 0 i segs
      rw [hc, Option.map_some, Nat.zero_add, Nat.zero_add] at hsub
      have hcsmall : startOf segs i + c.length ≤ segs.flatten.length := by
        rw [← startOf_succ hc, ← startOf_length]
        exact flatten_take_le (List.getElem?_eq_some_iff.mp hc).fst
      have hoffset : unsignedSub readPos (startOf segs i) = readPos - startOf segs i := if_pos hlo
      have havail : unsignedSub c.length (readPos - startOf segs i) =
          c.length - (readPos - startOf segs i) := if_pos (by omega)
      let toRead := min bytesRemaining (c.length - (readPos - startOf segs i))
      have htoRead : 0 < toRead ∧ toRead ≤ bytesRemaining ∧
          readPos + toRead ≤ startOf segs i + c.length := by
        dsimp only [toRead]
        omega
      have hfetch := fetchSubObject_eq h hc (by omega)
        (show readPos - startOf segs i + toRead ≤ c.length by omega) (by omega)
      have hrest := @ih (readPos + toRead) (bytesRemaining - toRead) (by omega) (by omega)
      rw [if_neg hzero, cumulated_length] at *
      rw [hfind, Outcome.ok_bind, hsub, Option.orUndefined_some, Outcome.ok_bind]
      dsimp only
      rw [hoffset, havail, hfetch, Outcome.ok_bind, hrest, Outcome.ok_bind, Outcome.pure_eq,
        ← take_flatten hc hlo htoRead.right.right, ← List.drop_drop, ← List.take_add,
        Nat.add_sub_cancel' htoRead.right.left]

end Read

-- An ordinary file, how many of its last bytes a crash loses, and the threshold of the session that
-- is open.
structure Virtual where
  content : List Byte
  unsaved : Nat
  session : Option Nat

namespace Virtual

def opened (v : Virtual) : Mode → List Byte
  | .write  => []
  | .append => v.content

-- What an event does to it. A crash loses what has been written below the threshold since the last
-- larger write, or the end of a segment.
def next (v : Virtual) : Event → Virtual
  | .open mode threshold _ none          => ⟨v.opened mode, 0, some threshold⟩
  | .open mode threshold _ (some length) => ⟨(v.opened mode).take length, 0, some threshold⟩
  | .write buffer _                      =>
    ⟨v.content ++ buffer,
     if v.session.getD 0 ≤ buffer.length then 0 else v.unsaved + buffer.length, v.session⟩
  | .finalizeSegment                     => ⟨v.content, 0, v.session⟩
  | .close                               => ⟨v.content, 0, none⟩
  | .crash                               => ⟨v.content.take (v.content.length - v.unsaved), 0, none⟩

end Virtual

-- The sizes of the numbered objects, and the file that they are the parts of.
def sizes (s : Store) (base : Key) : List Nat := (segments s base).map SegInfo.size

-- Sessions follow each other, writes are at the end of the file, a file has a size of 63 bits, and a
-- cut is where one of the objects ends.
def Allowed (base : Key) (s : Store) (v : Virtual) : Event → Prop
  | .open mode _ _ truncateTo =>
    v.session = none ∧ (segments s base).length ≤ 2 ^ 64 ∧
      ∀ length, truncateTo = some length →
        length = 0 ∨ (mode = .append ∧ ∃ i, length = ((sizes s base).take i).sum)
  | .write buffer start =>
    v.session ≠ none ∧ (start = none ∨ start = some v.content.length) ∧
      v.content.length + buffer.length < 2 ^ 63
  | .finalizeSegment | .close | .crash => v.session ≠ none

def AllAllowed (base : Key) : System → Virtual → List Event → Prop
  | _, _, []                 => True
  | sys, v, event :: events =>
    Allowed base sys.store v event ∧
      ∀ sys', step base sys event = .ok sys' → AllAllowed base sys' (v.next event) events

-- The store and the transport that is open have the file.
structure Represents (base : Key) (sys : System) (v : Virtual) (segs : List (List Byte)) : Prop where
  stored  : Stored sys.store base segs
  small   : v.content.length < 2 ^ 63
  session : sys.writer.map Writer.directUploadThreshold = v.session
  closed  : sys.writer = none → v.content = segs.flatten
  writing : ∀ w, sys.writer = some w → Writes sys.store w base segs ∧
    v.content = segs.flatten ++ w.writeBuffer ∧ v.unsaved = w.writeBuffer.length

namespace Represents

variable {base : Key} {sys : System} {v : Virtual} {segs : List (List Byte)}

theorem sum_sizes {s : Store} (h : Stored s base segs) (i : Nat) :
    ((sizes s base).take i).sum = (segs.take i).flatten.length := by
  rw [sizes, h.segments_eq, infosFrom_sizes, ← List.map_take, List.length_flatten]

theorem openFor_eq (h : Represents base sys v segs) (hnone : sys.writer = none)
    (hcount : segs.length ≤ 2 ^ 64) (mode : Mode) (threshold : Nat) (numSubFiles : Int) :
    ∃ w s segs', openFor sys.store base threshold numSubFiles mode = .ok (w, s) ∧
      Writes s w base segs' ∧ w.writeBuffer = [] ∧ w.directUploadThreshold = threshold ∧
      segs'.flatten = v.opened mode ∧ (mode = .append → segs' = segs) := by
  cases mode
  case write =>
    have hstored := @openWrite_stored sys.store base threshold numSubFiles
    exact ⟨_, _, [], rfl, ⟨hstored, rfl, rfl, rfl⟩, rfl, rfl, rfl, nofun⟩
  case append =>
    refine ⟨⟨base, segs.length, threshold, [], segs.flatten.length⟩, sys.store, segs, ?_,
      ⟨h.stored, rfl, rfl, rfl⟩, rfl, rfl, (h.closed hnone).symm, fun _ => rfl⟩
    rw [openFor, h.stored.openAppend_eq hcount threshold]
    rfl

theorem step_open (h : Represents base sys v segs) {mode : Mode} {threshold : Nat}
    {numSubFiles : Int} {truncateTo : Option Nat}
    (hallowed : Allowed base sys.store v (.open mode threshold numSubFiles truncateTo)) :
    ∃ sys' segs', step base sys (.open mode threshold numSubFiles truncateTo) = .ok sys' ∧
      Represents base sys' (v.next (.open mode threshold numSubFiles truncateTo)) segs' := by
  have ⟨hsession, hcount, hcut⟩ := hallowed
  have hnone : sys.writer = none := Option.map_eq_none_iff.mp (h.session.trans hsession)
  rw [h.stored.segments_eq, infosFrom_length] at hcount
  have ⟨w, s, segs', hopen, hwrites, hbuffer, hthreshold, hflatten, happend⟩ :=
    h.openFor_eq hnone hcount mode threshold numSubFiles
  have hsmall : (v.opened mode).length < 2 ^ 63 := by
    cases mode
    case write  => exact Nat.two_pow_pos 63
    case append => exact h.small
  cases truncateTo
  case none =>
    refine ⟨⟨s, some w⟩, segs', by rw [step, hopen]; rfl, hwrites.stored, hsmall, ?_, nofun, ?_⟩
    · exact congrArg some hthreshold
    · rintro _ ⟨⟩
      refine ⟨hwrites, ?_, ?_⟩
      · rw [hbuffer, List.append_nil, hflatten]
        rfl
      · rw [hbuffer]
        rfl
  case some length =>
    have hends : length = 0 ∨ ∃ i, length = (segs'.take i).flatten.length := by
      rcases hcut length rfl with hzero | ⟨hmode, i, hi⟩
      case inl => exact .inl hzero
      case inr => exact .inr ⟨i, by rw [happend hmode, hi, sum_sizes h.stored]⟩
    have ⟨segs'', hwrites, hcontent, hbuffer, hthreshold'⟩ := hwrites.truncate hbuffer hends
    refine ⟨⟨(truncate w s length).2, some (truncate w s length).1⟩, segs'',
      by rw [step, hopen]; rfl, hwrites.stored, ?_, ?_, nofun, ?_⟩
    · rw [Virtual.next, List.length_take]
      omega
    · exact congrArg some (hthreshold'.trans hthreshold)
    · rintro _ ⟨⟩
      refine ⟨hwrites, ?_, ?_⟩
      · rw [hbuffer, List.append_nil, hcontent, hflatten]
        rfl
      · rw [hbuffer]
        rfl

-- A transport that has written what waits in its buffer.
theorem of_flush (h : Represents base sys v segs) {w : Writer} (hw : sys.writer = some w) :
    ∃ segs', Writes (flushWriteBuffer w sys.store).2 (flushWriteBuffer w sys.store).1 base segs' ∧
      v.content = segs'.flatten ∧ (flushWriteBuffer w sys.store).1.writeBuffer = [] ∧
      some (flushWriteBuffer w sys.store).1.directUploadThreshold = v.session := by
  have ⟨hwrites, hcontent, _⟩ := h.writing w hw
  have ⟨segs', hflush, hflatten, hnil, hthreshold⟩ := hwrites.flush
  refine ⟨segs', hflush, hcontent.trans hflatten.symm, hnil, ?_⟩
  rw [hthreshold, ← h.session, hw]
  rfl

theorem exists_writer (h : Represents base sys v segs) (hsession : v.session ≠ none) :
    ∃ w, sys.writer = some w := by
  cases hw : sys.writer
  case some w => exact ⟨w, rfl⟩
  case none   => exact absurd (h.session.symm.trans (by rw [hw]; rfl)) hsession

theorem step_eq (h : Represents base sys v segs) {event : Event}
    (hallowed : Allowed base sys.store v event) :
    ∃ sys' segs', step base sys event = .ok sys' ∧ Represents base sys' (v.next event) segs' := by
  cases event with
  | «open» mode threshold numSubFiles truncateTo => exact h.step_open hallowed
  | write buffer start =>
    have ⟨hsession, hstart, hsmall⟩ := hallowed
    have ⟨w, hw⟩ := h.exists_writer hsession
    have ⟨hwrites, hcontent, hunsaved⟩ := h.writing w hw
    have htotal : w.totalBytesWritten = v.content.length := by
      rw [hwrites.total, hcontent, List.length_append]
    have ⟨w', s', segs', hwrite, hwrites', hflatten, hbuffer, hthreshold⟩ :=
      hwrites.write buffer (htotal ▸ hstart)
    have hsession' : v.session = some w.directUploadThreshold := by
      rw [← h.session, hw]
      rfl
    refine ⟨⟨s', some w'⟩, segs', ?_, hwrites'.stored, ?_, ?_, nofun, ?_⟩
    · rw [step, hw, Option.orUndefined_some, Outcome.ok_bind, hwrite]
      rfl
    · rw [Virtual.next, List.length_append]
      exact hsmall
    · exact (congrArg some hthreshold).trans hsession'.symm
    · rintro _ ⟨⟩
      refine ⟨hwrites', ?_, ?_⟩
      · rw [Virtual.next, hflatten, hcontent]
      · rw [Virtual.next, hbuffer, hsession', hunsaved]
        rfl
  | finalizeSegment =>
    have ⟨w, hw⟩ := h.exists_writer hallowed
    have ⟨segs', hwrites, hcontent, hnil, hthreshold⟩ := h.of_flush hw
    refine ⟨⟨(flushWriteBuffer w sys.store).2, some (flushWriteBuffer w sys.store).1⟩, segs', ?_,
      hwrites.stored, h.small, hthreshold, nofun, ?_⟩
    · rw [step, hw]
      rfl
    · rintro _ ⟨⟩
      refine ⟨hwrites, ?_, ?_⟩
      · rw [hnil, List.append_nil]
        exact hcontent
      · rw [hnil]
        rfl
  | close =>
    have ⟨w, hw⟩ := h.exists_writer hallowed
    have ⟨segs', hwrites, hcontent, _, _⟩ := h.of_flush hw
    refine ⟨⟨(flushWriteBuffer w sys.store).2, none⟩, segs', ?_, hwrites.stored, h.small, rfl,
      fun _ => hcontent, nofun⟩
    rw [step, hw]
    rfl
  | crash =>
    have ⟨w, hw⟩ := h.exists_writer hallowed
    have ⟨hwrites, hcontent, hunsaved⟩ := h.writing w hw
    have htake : (v.next .crash).content = segs.flatten := by
      rw [Virtual.next, hunsaved, hcontent, List.length_append, Nat.add_sub_cancel,
        List.take_left]
    refine ⟨⟨sys.store, none⟩, segs, rfl, h.stored, ?_, rfl, fun _ => htake, nofun⟩
    have hle : (v.next .crash).content.length ≤ v.content.length := by
      rw [Virtual.next, List.length_take]
      exact Nat.min_le_right _ _
    exact Nat.lt_of_le_of_lt hle h.small

-- What holds of one step holds of a run.
theorem run_eq {events : List Event} (h : Represents base sys v segs)
    (hallowed : AllAllowed base sys v events) :
    ∃ sys' segs', run base sys events = .ok sys' ∧
      Represents base sys' (events.foldl Virtual.next v) segs' := by
  induction events generalizing sys v segs with
  | nil => exact ⟨sys, segs, rfl, h⟩
  | cons event events ih =>
    have ⟨hevent, hrest⟩ := hallowed
    have ⟨sys', segs', hstep, hsys'⟩ := h.step_eq hevent
    have ⟨sys'', segs'', hrun, hsys''⟩ := ih hsys' (hrest sys' hstep)
    refine ⟨sys'', segs'', ?_, hsys''⟩
    rw [run, List.foldlM_cons, hstep, Outcome.ok_bind]
    exact hrun

end Represents

-- What a writer and a later reader see of the file.
structure Shows (base : Key) (sys : System) (v : Virtual) : Prop where
  -- data is accepted exactly at the end of the file
  position : ∀ w, sys.writer = some w → ∀ buffer p,
    (∃ r, write w sys.store buffer (some p) = .ok r) ↔ p = v.content.length
  -- and goes to keys under which there is nothing
  fresh    : ∀ w, sys.writer = some w → ∀ n, w.nextObjectNumber ≤ n →
    sys.store.get (subKey w.baseObjectName n) = none
  absent   : v.session = none → segments sys.store base = [] →
    v.content = [] ∧ ∃ e, openRead sys.store base = .error e
  reading  : v.session = none → segments sys.store base ≠ [] →
    ∃ r, openRead sys.store base = .ok r ∧ r.size = v.content.length ∧
      ∀ size start, start < v.content.length → start + size ≤ v.content.length →
        readRange sys.store r size start = .ok ((v.content.drop start).take size)

theorem Represents.shows {base : Key} {sys : System} {v : Virtual} {segs : List (List Byte)}
    (h : Represents base sys v segs) : Shows base sys v where
  position := by
    intro w hw buffer p
    have ⟨hwrites, hcontent, _⟩ := h.writing w hw
    have htotal : w.totalBytesWritten = v.content.length := by
      rw [hwrites.total, hcontent, List.length_append]
    rw [← htotal]
    constructor
    case mp =>
      rintro ⟨r, hr⟩
      by_contra hp
      have ⟨e, he⟩ := @Writes.write_elsewhere sys.store w buffer p hp
      exact nomatch hr.symm.trans he
    case mpr =>
      rintro rfl
      have ⟨w', s', _, hwrite, _⟩ := hwrites.write buffer (.inr rfl)
      exact ⟨(w', s'), hwrite⟩
  fresh := by
    intro w hw n hn
    have ⟨hwrites, _⟩ := h.writing w hw
    rw [hwrites.base]
    exact h.stored.get_next (hwrites.next ▸ hn)
  absent := by
    intro hsession hsegs
    have hnone : sys.writer = none := Option.map_eq_none_iff.mp (h.session.trans hsession)
    have hnil : segs = [] := by
      rw [← List.length_eq_zero_iff, ← @infosFrom_length base 0, ← h.stored.segments_eq, hsegs]
      rfl
    refine ⟨(h.closed hnone).trans (by rw [hnil]; rfl), ?_⟩
    rw [openRead, h.stored.bare]
    exact ⟨_, if_pos hsegs⟩
  reading := by
    intro hsession hsegs
    have hnone : sys.writer = none := Option.map_eq_none_iff.mp (h.session.trans hsession)
    have hcontent := h.closed hnone
    have hsize : ((segments sys.store base).map SegInfo.size).sum = v.content.length := by
      rw [h.stored.segments_eq, infosFrom_sizes, hcontent, List.length_flatten]
    refine ⟨⟨base, .multiObject (cumulated 0 (segments sys.store base)),
      ((segments sys.store base).map SegInfo.size).sum⟩, ?_, hsize, ?_⟩
    · rw [openRead, h.stored.bare]
      exact if_neg hsegs
    · intro size start hstart hend
      unfold readRange
      dsimp only
      rw [hsize, if_neg (Nat.not_le.mpr hstart), if_neg (Nat.not_lt.mpr hend),
        h.stored.segments_eq, hcontent]
      refine readSubObjects_eq h.stored ?_ (Nat.lt_succ_self size) ?_
      · rw [← hcontent]
        exact h.small
      · rw [← hcontent]
        exact hend

section Parts

-- What has been written to one object: parts of the right sizes, and less than one in the buffer.
structure Parted (m : Multipart) (written : List Byte) : Prop where
  waiting : m.writeBuffer.length < m.minPartSize
  sizes   : ∀ part ∈ m.parts, m.minPartSize ≤ part.length ∧ part.length ≤ m.maxPartSize
  written : m.parts.flatten ++ m.writeBuffer = written

variable {m : Multipart} {written : List Byte}

theorem uploadDirectly_eq {fuel : Nat} {remaining : List Byte} (h : Parted m written)
    (hle : m.minPartSize ≤ m.maxPartSize) (hfuel : remaining.length < fuel)
    (hempty : m.writeBuffer = [] ∨ remaining = []) :
    ∃ m', uploadDirectly fuel m remaining = .ok m' ∧ Parted m' (written ++ remaining) ∧
      m'.minPartSize = m.minPartSize ∧ m'.maxPartSize = m.maxPartSize := by
  have hpos : 0 < m.minPartSize := Nat.zero_lt_of_lt h.waiting
  induction fuel generalizing m written remaining with
  | zero => omega
  | succ fuel ih =>
    unfold uploadDirectly
    by_cases hlarge : m.minPartSize ≤ remaining.length
    case pos =>
      rw [if_pos hlarge]
      dsimp only
      have hnil : m.writeBuffer = [] := by
        refine hempty.resolve_right fun hremaining => ?_
        rw [hremaining, List.length_nil] at hlarge
        omega
      have hlen : (remaining.take (min remaining.length m.maxPartSize)).length =
          min remaining.length m.maxPartSize := List.length_take_of_le (Nat.min_le_left _ _)
      have hnext : Parted (uploadPart m (remaining.take (min remaining.length m.maxPartSize)))
          (written ++ remaining.take (min remaining.length m.maxPartSize)) := by
        refine ⟨h.waiting, fun part hpart => ?_, ?_⟩
        · rcases List.mem_append.mp hpart with hpart | hpart
          case inl => exact h.sizes part hpart
          case inr =>
            rw [List.mem_singleton.mp hpart, hlen]
            exact ⟨Nat.le_min.mpr ⟨hlarge, hle⟩, Nat.min_le_right _ _⟩
        · have hwritten := h.written
          rw [hnil, List.append_nil] at hwritten
          rw [uploadPart]
          dsimp only
          rw [hnil, List.append_nil, List.flatten_append, List.flatten_singleton, hwritten]
      have hrest : (remaining.drop (min remaining.length m.maxPartSize)).length < fuel := by
        rw [List.length_drop]
        omega
      have ⟨m', hm', hparted, hmin, hmax⟩ := ih hnext hle hrest (.inl hnil) hpos
      refine ⟨m', hm', ?_, hmin, hmax⟩
      rwa [List.append_assoc, List.take_append_drop] at hparted
    case neg =>
      rw [if_neg hlarge]
      refine ⟨_, rfl, ⟨?_, h.sizes, ?_⟩, rfl, rfl⟩
      · rcases hempty with hnil | hnil
        case inl =>
          rw [hnil, List.nil_append]
          exact Nat.not_le.mp hlarge
        case inr =>
          rw [hnil, List.append_nil]
          exact h.waiting
      · rw [← List.append_assoc, h.written]

theorem writeParts_eq (h : Parted m written) (hle : m.minPartSize ≤ m.maxPartSize)
    (buffer : List Byte) :
    ∃ m', writeParts m buffer = .ok m' ∧ Parted m' (written ++ buffer) ∧
      m'.minPartSize = m.minPartSize ∧ m'.maxPartSize = m.maxPartSize := by
  have hwaiting := h.waiting
  unfold writeParts
  by_cases hnil : m.writeBuffer = []
  case pos =>
    rw [if_pos hnil]
    exact uploadDirectly_eq h hle (Nat.lt_succ_self _) (.inl hnil)
  case neg =>
    rw [if_neg hnil]
    dsimp only
    let toBuffer := min buffer.length (m.minPartSize - m.writeBuffer.length)
    have htake : (m.writeBuffer ++ buffer.take toBuffer).length =
        m.writeBuffer.length + toBuffer := by
      rw [List.length_append, List.length_take_of_le (Nat.min_le_left _ _)]
    have hwritten : m.parts.flatten ++ (m.writeBuffer ++ buffer.take toBuffer) =
        written ++ buffer.take toBuffer := by
      rw [← List.append_assoc, h.written]
    have hfuel : (buffer.drop toBuffer).length < buffer.length + 1 := by
      rw [List.length_drop]
      omega
    have hrest : written ++ buffer.take toBuffer ++ buffer.drop toBuffer = written ++ buffer := by
      rw [List.append_assoc, List.take_append_drop]
    by_cases hfull : m.minPartSize ≤ (m.writeBuffer ++ buffer.take toBuffer).length
    case pos =>
      have hne : m.writeBuffer ++ buffer.take toBuffer ≠ [] := by simp [hnil]
      have hparted : Parted (Multipart.mk m.minPartSize m.maxPartSize []
          (m.parts ++ [m.writeBuffer ++ buffer.take toBuffer]))
          (written ++ buffer.take toBuffer) := by
        refine ⟨Nat.zero_lt_of_lt hwaiting, fun part hpart => ?_, ?_⟩
        · rcases List.mem_append.mp hpart with hpart | hpart
          case inl => exact h.sizes part hpart
          case inr =>
            rw [List.mem_singleton.mp hpart]
            refine ⟨hfull, ?_⟩
            rw [htake]
            dsimp only [toBuffer]
            omega
        · rw [List.append_nil, List.flatten_append, List.flatten_singleton, hwritten]
      rw [if_pos hfull, uploadBufferedPart, if_neg hne, ← hrest]
      exact uploadDirectly_eq hparted hle hfuel (.inl rfl)
    case neg =>
      have hall : buffer.drop toBuffer = [] := by
        refine List.drop_eq_nil_iff.mpr ?_
        rw [htake] at hfull
        dsimp only [toBuffer] at hfull ⊢
        omega
      have hparted : Parted (Multipart.mk m.minPartSize m.maxPartSize
          (m.writeBuffer ++ buffer.take toBuffer) m.parts) (written ++ buffer.take toBuffer) :=
        ⟨Nat.not_le.mp hfull, h.sizes, hwritten⟩
      rw [if_neg hfull, ← hrest]
      exact uploadDirectly_eq hparted hle hfuel (.inr hall)

theorem writesParts_eq (h : Parted m written) (hle : m.minPartSize ≤ m.maxPartSize)
    (buffers : List (List Byte)) :
    ∃ m', buffers.foldlM writeParts m = .ok m' ∧ Parted m' (written ++ buffers.flatten) ∧
      m'.minPartSize = m.minPartSize ∧ m'.maxPartSize = m.maxPartSize := by
  induction buffers generalizing m written with
  | nil => exact ⟨m, rfl, by rwa [List.flatten_nil, List.append_nil], rfl, rfl⟩
  | cons buffer buffers ih =>
    have ⟨m', hm', hparted, hmin, hmax⟩ := writeParts_eq h hle buffer
    have ⟨m'', hm'', hparted', hmin', hmax'⟩ := ih hparted (by rw [hmin, hmax]; exact hle)
    refine ⟨m'', ?_, ?_, hmin'.trans hmin, hmax'.trans hmax⟩
    · rw [List.foldlM_cons, hm', Outcome.ok_bind, hm'']
    · rwa [List.append_assoc, ← List.flatten_cons] at hparted'

-- Together with the buffer, the last part, the parts are what has been written.
theorem Parted.closed (h : Parted m written) :
    (closeParts m).flatten = written ∧ ∀ part ∈ (closeParts m).dropLast,
      m.minPartSize ≤ part.length ∧ part.length ≤ m.maxPartSize := by
  unfold closeParts uploadBufferedPart
  split
  case isTrue hnil =>
    have hwritten := h.written
    rw [hnil, List.append_nil] at hwritten
    exact ⟨hwritten, fun part hpart => h.sizes part (List.mem_of_mem_dropLast hpart)⟩
  case isFalse =>
    refine ⟨?_, fun part hpart => ?_⟩
    · rw [uploadPart]
      dsimp only
      rw [List.flatten_append, List.flatten_singleton, h.written]
    · rw [uploadPart] at hpart
      dsimp only at hpart
      rw [List.dropLast_concat] at hpart
      exact h.sizes part hpart

end Parts

-- In every run from a store that has nothing of the file, the numbered objects are the file. One
-- object that is written in parts has parts of the right sizes.
theorem segmentedFile {base : Key} {s : Store} {events : List Event}
    {minPartSize maxPartSize : Nat} (hbare : s.get base = none)
    (hlisting : s.listing (dotted base) = [])
    (hallowed : AllAllowed base ⟨s, none⟩ ⟨[], 0, none⟩ events) (hpos : 0 < minPartSize)
    (hle : minPartSize ≤ maxPartSize) (buffers : List (List Byte)) :
    (∃ sys, run base ⟨s, none⟩ events = .ok sys ∧
      Shows base sys (events.foldl Virtual.next ⟨[], 0, none⟩)) ∧
    ∃ m, buffers.foldlM writeParts ⟨minPartSize, maxPartSize, [], []⟩ = .ok m ∧
      (closeParts m).flatten = buffers.flatten ∧
      ∀ part ∈ (closeParts m).dropLast, minPartSize ≤ part.length ∧ part.length ≤ maxPartSize := by
  constructor
  case left =>
    have hstored : Stored s base [] := by
      refine Stored.nil hbare fun object hmem hfront => ?_
      exact List.not_mem_nil (hlisting ▸ Store.mem_listing.mpr ⟨hmem, hfront⟩)
    have hstart : Represents base ⟨s, none⟩ ⟨[], 0, none⟩ [] :=
      ⟨hstored, Nat.two_pow_pos 63, rfl, fun _ => rfl, nofun⟩
    have ⟨sys, _, hrun, hsys⟩ := hstart.run_eq hallowed
    exact ⟨sys, hrun, hsys.shows⟩
  case right =>
    have hstart : Parted ⟨minPartSize, maxPartSize, [], []⟩ [] := ⟨hpos, nofun, rfl⟩
    have ⟨m, hm, hparted, hmin, hmax⟩ := writesParts_eq hstart hle buffers
    have ⟨hflatten, hsizes⟩ := hparted.closed
    rw [hmin, hmax] at hsizes
    exact ⟨m, hm, hflatten, hsizes⟩

section Example

def dataName : Key := ascii "a.bp/data.0"

-- The size that a reader finds after some events.
def sizeAfter (events : List Event) : Outcome Nat := do
  let sys ← run dataName ⟨Store.empty, none⟩ events
  let r ← openRead sys.store dataName
  pure r.size

def failed {α} : Outcome α → Bool
  | .ok _    => false
  | .error _ => true

-- A file without an object is not there. A crash keeps what went to an object of its own, though no
-- segment has ended. A cut in an object of three bytes leaves all of them, and what is written at
-- position 2 comes behind them.
theorem not_segmentedFile :
    failed (sizeAfter [.open .write 1 1 none, .close]) = true ∧
      sizeAfter [.open .write 1 1 none, .write [1, 2, 3] none, .crash] = .ok 3 ∧
      sizeAfter [.open .write 1 1 none, .write [1, 2, 3] none, .close,
        .open .append 1 1 (some 2), .write [4] (some 2), .close] = .ok 4 := by
  decide

def twoSessions : List Event :=
  [.open .write 2 1 none, .write [1] none, .write [2, 3] (some 1), .close,
    .open .append 2 1 (some 1), .write [4] (some 1), .finalizeSegment, .write [5] none, .crash]

theorem segmentedFile_twoSessions :
    (∃ sys, run dataName ⟨Store.empty, none⟩ twoSessions = .ok sys ∧
      Shows dataName sys ⟨[1, 4], 0, none⟩) ∧
    ∃ m, [[1, 2, 3], [4]].foldlM writeParts ⟨2, 3, [], []⟩ = .ok m ∧
      (closeParts m).flatten = [1, 2, 3, 4] ∧
      ∀ part ∈ (closeParts m).dropLast, 2 ≤ part.length ∧ part.length ≤ 3 := by
  refine segmentedFile (by decide) (by decide) ?_ (by decide) (by decide) [[1, 2, 3], [4]]
  refine ⟨⟨rfl, by decide, nofun⟩, ?_⟩
  rintro _ ⟨⟩
  refine ⟨⟨nofun, .inl rfl, by decide⟩, ?_⟩
  rintro _ ⟨⟩
  refine ⟨⟨nofun, .inr rfl, by decide⟩, ?_⟩
  rintro _ ⟨⟩
  refine ⟨nofun, ?_⟩
  rintro _ ⟨⟩
  refine ⟨⟨rfl, by decide, ?_⟩, ?_⟩
  · rintro _ ⟨⟩
    exact .inr ⟨rfl, 1, by decide⟩
  rintro _ ⟨⟩
  refine ⟨⟨nofun, .inr rfl, by decide⟩, ?_⟩
  rintro _ ⟨⟩
  refine ⟨nofun, ?_⟩
  rintro _ ⟨⟩
  refine ⟨⟨nofun, .inl rfl, by decide⟩, ?_⟩
  rintro _ ⟨⟩
  refine ⟨nofun, ?_⟩
  rintro _ ⟨⟩
  trivial

end Example

end FileAWSSDK
