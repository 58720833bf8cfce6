import Adios2.Lib.CString
import Mathlib.Data.List.Sort

-- A store of objects under keys. Every put, delete and listing succeeds and takes effect at once. A
-- listing has the objects whose keys start with a prefix, in the order of their keys.

namespace ObjectStore

open Bytes

abbrev Key := List Byte

structure Store where
  objects : List (Key × List Byte)
  unique  : (objects.map Prod.fst).Nodup

def Key.le (k l : Key) : Bool :=
  decide (List.Lex (· < ·) k l) || k == l

namespace Store

def empty : Store := ⟨[], List.nodup_nil⟩

def get (s : Store) (key : Key) : Option (List Byte) :=
  (s.objects.find? (·.1 == key)).map Prod.snd

def delete (s : Store) (key : Key) : Store where
  objects := s.objects.filter (·.1 ≠ key)
  unique  := s.unique.sublist (List.filter_sublist.map _)

def put (s : Store) (key : Key) (bytes : List Byte) : Store where
  objects := (s.delete key).objects ++ [(key, bytes)]
  unique  := by
    rw [List.map_append, List.map_singleton, List.nodup_append]
    refine ⟨(s.delete key).unique, List.nodup_singleton _, ?_⟩
    intro k hk l hl heq
    have ⟨object, hmem, hkey⟩ := List.mem_map.mp hk
    have hne := (List.mem_filter.mp hmem).right
    simp only [ne_eq, decide_eq_true_eq] at hne
    exact hne (hkey.trans (heq.trans (List.mem_singleton.mp hl)))

def listing (s : Store) (front : Key) : List (Key × List Byte) :=
  (s.objects.filter (front.isPrefixOf ·.1)).insertionSort (Key.le ·.1 ·.1)

variable {s : Store} {key : Key} {bytes : List Byte}

theorem get_eq_some_iff : s.get key = some bytes ↔ (key, bytes) ∈ s.objects := by
  unfold get
  constructor
  case mp =>
    intro h
    have ⟨object, hfind, hbytes⟩ := Option.map_eq_some_iff.mp h
    have hkey : object.1 = key := by simpa using List.find?_some hfind
    rw [← hkey, ← hbytes]
    exact List.mem_of_find?_eq_some hfind
  case mpr =>
    intro h
    cases hfind : s.objects.find? (·.1 == key)
    case none => exact absurd (List.find?_eq_none.mp hfind _ h) (by simp)
    case some object =>
      have hkey : object.1 = key := by simpa using List.find?_some hfind
      have hinj := List.inj_on_of_nodup_map s.unique (List.mem_of_find?_eq_some hfind) h hkey
      rw [hinj]
      rfl

theorem get_eq_none_iff : s.get key = none ↔ ∀ object ∈ s.objects, object.1 ≠ key := by
  simp [get]

theorem mem_delete {object : Key × List Byte} :
    object ∈ (s.delete key).objects ↔ object ∈ s.objects ∧ object.1 ≠ key := by
  simp [delete]

theorem listing_perm (s : Store) (front : Key) :
    (s.listing front).Perm (s.objects.filter (front.isPrefixOf ·.1)) :=
  List.perm_insertionSort _ _

theorem mem_listing {object : Key × List Byte} {front : Key} :
    object ∈ s.listing front ↔ object ∈ s.objects ∧ front <+: object.1 := by
  rw [(listing_perm s front).mem_iff, List.mem_filter, List.isPrefixOf_iff_prefix]

-- An object under a new key is put behind the others.
theorem put_objects_of_fresh (h : s.get key = none) :
    (s.put key bytes).objects = s.objects ++ [(key, bytes)] := by
  have hkeep : (s.delete key).objects = s.objects := by
    refine List.filter_eq_self.mpr fun object hmem => ?_
    simpa using get_eq_none_iff.mp h object hmem
  exact congrArg (· ++ [(key, bytes)]) hkeep

def deleteAll (s : Store) (keys : List Key) : Store :=
  keys.foldl delete s

theorem mem_deleteAll {object : Key × List Byte} {keys : List Key} :
    object ∈ (s.deleteAll keys).objects ↔ object ∈ s.objects ∧ object.1 ∉ keys := by
  induction keys generalizing s with
  | nil => simp [deleteAll]
  | cons key keys ih =>
    rw [deleteAll, List.foldl_cons, ← deleteAll, ih, mem_delete, List.mem_cons, not_or, and_assoc]

theorem deleteAll_objects (s : Store) (keys : List Key) :
    (s.deleteAll keys).objects = s.objects.filter (·.1 ∉ keys) := by
  induction keys generalizing s with
  | nil => simp [deleteAll]
  | cons key keys ih =>
    rw [deleteAll, List.foldl_cons, ← deleteAll, ih, delete, List.filter_filter]
    refine List.filter_congr fun object _ => ?_
    simp [Bool.and_comm]

end Store

end ObjectStore
