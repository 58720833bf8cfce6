import Mathlib.Data.List.Nodup
import Mathlib.Data.List.Perm.Basic
import Mathlib.Tactic.Ring
import Adios2.Lib.Lists
import Adios2.Utils.XrootdPlugin.AdiosFilePool

-- A subpool keeps account of the engines that its users hold.

namespace List

variable {α β : Type*}

-- What replaces an element of a list takes its place in what is made of the elements.
theorem perm_filterMap_set [DecidableEq β] (g : α → Option β) {l : List α} {i : Nat} {a b : α}
    (h : l[i]? = some a) :
    (l.filterMap g ++ (g b).toList).Perm ((l.set i b).filterMap g ++ (g a).toList) := by
  have ⟨hi, ha⟩ := getElem?_eq_some_iff.mp h
  have hsplit : l = l.take i ++ a :: l.drop (i + 1) := by
    rw [← ha, cons_getElem_drop_succ, take_append_drop]
  have hset : l.set i b = l.take i ++ b :: l.drop (i + 1) :=
    set_eq_take_append_cons_drop ▸ if_pos hi
  rw [hset]
  conv_lhs => rw [hsplit]
  rw [perm_iff_count]
  intro x
  simp only [filterMap_append, filterMap_cons, count_append]
  cases g a <;> cases g b <;> simp [count_cons] <;> omega

theorem zip_set_right {l : List α} {l' : List β} {i : Nat} {a : α} (h : l[i]? = some a) (b : β) :
    l.zip (l'.set i b) = (l.zip l').set i (a, b) := by
  induction l generalizing l' i with
  | nil => rfl
  | cons x l ih =>
    cases l' with
    | nil => simp
    | cons y l' =>
      cases i with
      | zero =>
        have hx : x = a := by simpa using h
        rw [set_cons_zero, zip_cons_cons, zip_cons_cons, set_cons_zero, hx]
      | succ i => simpa using ih h

end List

namespace FilePool.SubPool

-- The engines that are marked as busy.
def busyFiles (list : List Nat) (busy : List Bool) : List Nat :=
  (list.zip busy).filterMap fun (file, busy) => if busy then some file else none

theorem busyFiles_nodup {list : List Nat} {busy : List Bool} (hlen : busy.length = list.length)
    (hnodup : list.Nodup) : (busyFiles list busy).Nodup := by
  rw [List.nodup_iff_pairwise_ne, busyFiles, List.pairwise_filterMap]
  have hzip : ((list.zip busy).map Prod.fst).Nodup := by rwa [List.map_fst_zip hlen.ge]
  apply (List.pairwise_map.mp hzip).imp
  intro (a, x) (b, y) hne f hf g hg heq
  have ⟨_, hf⟩ := Option.ite_none_right_eq_some.mp hf
  have ⟨_, hg⟩ := Option.ite_none_right_eq_some.mp hg
  exact hne (by cases hf; cases hg; exact heq)

theorem busyFiles_set {list : List Nat} {busy : List Bool} {i file : Nat} {b c : Bool}
    (hfile : list[i]? = some file) (hb : busy[i]? = some b) :
    (busyFiles list busy ++ (if c then some file else none).toList).Perm
      (busyFiles list (busy.set i c) ++ (if b then some file else none).toList) := by
  have hzip : (list.zip busy)[i]? = some (file, b) := List.getElem?_zip_eq_some.mpr ⟨hfile, hb⟩
  have h := List.perm_filterMap_set (fun (f, b) => if b then some f else none) (b := (file, c)) hzip
  rwa [← List.zip_set_right hfile] at h

theorem busyFiles_append {list : List Nat} {busy : List Bool} (hlen : busy.length = list.length)
    (file : Nat) : busyFiles (list ++ [file]) (busy ++ [true]) = busyFiles list busy ++ [file] := by
  rw [busyFiles, List.zip_append hlen.symm, List.filterMap_append]
  rfl

-- `held` are the engines of the users, in any order. An engine that is shared can have many users.
structure Serves (s : SubPool) (addresses : Nat) (held : List Nat) : Prop where
  count     : s.inUseCount = held.length
  unopened  : s.modeDetermined = false → s.shareable = false ∧ s.list = [] ∧ s.busy = []
  listed    : held ⊆ s.list
  lt        : ∀ file ∈ s.list, file < addresses
  shared    : s.shareable = true → ∀ file ∈ held, s.list[0]? = some file
  exclusive : s.shareable = false →
    s.busy.length = s.list.length ∧ s.list.Nodup ∧ held.Perm (busyFiles s.list s.busy)

variable {s : SubPool} {addresses : Nat} {held held' : List Nat}

namespace Serves

theorem perm (h : s.Serves addresses held) (hp : held.Perm held') : s.Serves addresses held' where
  count         := by rw [h.count, hp.length_eq]
  unopened      := h.unopened
  listed        := fun _ hf => h.listed (hp.mem_iff.mpr hf)
  lt            := h.lt
  shared hs f hf := h.shared hs f (hp.mem_iff.mpr hf)
  exclusive hs  :=
    have ⟨hlen, hnodup, hheld⟩ := h.exclusive hs
    ⟨hlen, hnodup, hp.symm.trans hheld⟩

theorem mono (h : s.Serves addresses held) {addresses' : Nat} (hle : addresses ≤ addresses') :
    s.Serves addresses' held :=
  { h with lt := fun f hf => (h.lt f hf).trans_le hle }

-- Two users have the same engine only where it is shared.
theorem nodup (h : s.Serves addresses held) (hs : s.shareable = false) : held.Nodup :=
  have ⟨hlen, hnodup, hperm⟩ := h.exclusive hs
  hperm.nodup_iff.mpr (busyFiles_nodup hlen hnodup)

end Serves

-- What a user gets is an engine of the subpool that no other user has, or one that is shared.
theorem Serves.getFree (h : s.Serves addresses held) {opening : Opening} {s' : SubPool}
    {file : Nat} (hget : s.getFree addresses opening = .ok (s', some file)) :
    s'.Serves (addresses + 1) (held ++ [file]) := by
  have hcount : s.inUseCount + 1 = ((held ++ [file]).length : Nat) := by
    rw [h.count, List.length_append]
    rfl
  unfold SubPool.getFree at hget
  split at hget
  case isTrue hdetermined =>
    split at hget
    case isTrue hshareable =>
      obtain ⟨f, hf, hget⟩ := Outcome.bind_eq_ok.mp hget
      cases hget
      have hf := Option.orUndefined_eq_ok.mp hf
      exact {
        count     := hcount
        unopened  := h.unopened
        listed    := List.append_subset.mpr ⟨h.listed, by simpa using List.mem_of_getElem? hf⟩
        lt        := (h.mono (Nat.le_succ _)).lt
        shared    := fun _ g hg => by
          cases List.mem_append.mp hg with
          | inl hg => exact h.shared hshareable g hg
          | inr hg => exact List.mem_singleton.mp hg ▸ hf
        exclusive := fun hs => absurd (hshareable.symm.trans hs) (by decide) }
    case isFalse hshareable =>
      have hs : s.shareable = false := by simpa using hshareable
      obtain ⟨hlen, hnodup, hperm⟩ := h.exclusive hs
      split at hget
      case h_1 i hi =>
        obtain ⟨f, hf, hget⟩ := Outcome.bind_eq_ok.mp hget
        cases hget
        have hf := Option.orUndefined_eq_ok.mp hf
        have hb : s.busy[i]? = some false := by
          obtain ⟨hlt, hb, _⟩ := List.findIdx?_eq_some_iff_getElem.mp hi
          rw [List.getElem?_eq_getElem hlt]
          simpa using hb
        have hset := busyFiles_set (c := true) hf hb
        exact {
          count     := hcount
          unopened  := fun hd => absurd (hdetermined.symm.trans hd) (by decide)
          listed    := List.append_subset.mpr ⟨h.listed, by simpa using List.mem_of_getElem? hf⟩
          lt        := (h.mono (Nat.le_succ _)).lt
          shared    := fun hs' => absurd (hs'.symm.trans hs) (by decide)
          exclusive := fun _ => ⟨by rw [List.length_set, hlen], hnodup, by
            have := (hperm.append_right [file]).trans hset
            simpa using this⟩ }
      case h_2 hnone =>
        split at hget
        case h_1 => cases hget
        case h_2 =>
          cases hget
          have hnew : addresses ∉ s.list := fun hmem => (h.lt _ hmem).false
          exact {
            count     := hcount
            unopened  := fun hd => absurd (hdetermined.symm.trans hd) (by decide)
            listed    := fun f hf => by
              cases List.mem_append.mp hf with
              | inl hf => exact List.mem_append_left _ (h.listed hf)
              | inr hf => exact List.mem_append_right _ hf
            lt        := fun f hf => by
              cases List.mem_append.mp hf with
              | inl hf => exact (h.lt f hf).trans (Nat.lt_succ_self _)
              | inr hf => exact List.mem_singleton.mp hf ▸ Nat.lt_succ_self _
            shared    := fun hs' => absurd (hs'.symm.trans hs) (by decide)
            exclusive := fun _ => ⟨by simp [hlen],
              List.nodup_append_comm.mp (List.nodup_cons.mpr ⟨hnew, hnodup⟩), by
                rw [busyFiles_append hlen]
                exact hperm.append_right _⟩ }
  case isFalse hdetermined =>
    have hd : s.modeDetermined = false := by simpa using hdetermined
    obtain ⟨hs, hlist, hbusy⟩ := h.unopened hd
    have hheld : held = [] := List.subset_nil.mp (hlist ▸ h.listed)
    split at hget
    case h_1 => cases hget
    case h_2 reentrant =>
      obtain ⟨f, hf, hget⟩ := Outcome.bind_eq_ok.mp hget
      cases hget
      have hf : addresses = file := by simpa [hlist] using hf
      subst hf hheld
      exact {
        count     := hcount
        unopened  := fun hd => by cases hd
        listed    := by simp [hlist]
        lt        := by simp [hlist]
        shared    := by simp [hlist]
        exclusive := fun hr => by
          have hr : reentrant = false := hr
          simp [busyFiles, hr, hlist, hbusy] }

theorem getFree_none {opening : Opening} {s' : SubPool}
    (hget : s.getFree addresses opening = .ok (s', none)) : s' = s := by
  unfold getFree at hget
  split at hget
  case isTrue =>
    split at hget
    case isTrue =>
      obtain ⟨_, _, hget⟩ := Outcome.bind_eq_ok.mp hget
      cases hget
    case isFalse =>
      split at hget
      case h_1 =>
        obtain ⟨_, _, hget⟩ := Outcome.bind_eq_ok.mp hget
        cases hget
      case h_2 => split at hget <;> cases hget; rfl
  case isFalse =>
    split at hget
    case h_1 => cases hget; rfl
    case h_2 =>
      obtain ⟨_, _, hget⟩ := Outcome.bind_eq_ok.mp hget
      cases hget

-- What the pool knows of a subpool stays what it is.
structure SameCosts (s s' : SubPool) : Prop where
  index         : s'.index = s.index
  metadataBytes : s'.metadataBytes = s.metadataBytes
  fdCost        : s'.estimateFDCost = s.estimateFDCost

theorem getFree_sameCosts {opening : Opening} {s' : SubPool} {file : Option Nat}
    (hget : s.getFree addresses opening = .ok (s', file)) : s.SameCosts s' := by
  unfold getFree at hget
  repeat' split at hget
  all_goals
    first
    | (obtain ⟨_, _, hget⟩ := Outcome.bind_eq_ok.mp hget
       cases hget
       exact ⟨rfl, rfl, rfl⟩)
    | (cases hget
       exact ⟨rfl, rfl, rfl⟩)

theorem getFree_list {opening : Opening} {s' : SubPool} {file : Option Nat}
    (hget : s.getFree addresses opening = .ok (s', file)) {f : Nat} (hf : f ∈ s'.list) :
    f ∈ s.list ∨ f = addresses := by
  suffices h : s'.list = s.list ∨ s'.list = s.list ++ [addresses] by
    cases h with
    | inl h => exact .inl (h ▸ hf)
    | inr h => simpa [h] using hf
  unfold getFree at hget
  repeat' split at hget
  all_goals
    first
    | (obtain ⟨_, _, hget⟩ := Outcome.bind_eq_ok.mp hget
       cases hget)
    | cases hget
    first
    | exact .inl rfl
    | exact .inr rfl

theorem giveBack_sameCosts (file now : Nat) : s.SameCosts (s.giveBack file now) := by
  unfold giveBack
  split
  · exact ⟨rfl, rfl, rfl⟩
  · split <;> exact ⟨rfl, rfl, rfl⟩

theorem giveBack_list (file now : Nat) : (s.giveBack file now).list = s.list := by
  unfold giveBack
  split
  · rfl
  · split <;> rfl

-- The engine of a user is found where the user gives it back.
theorem Serves.giveBack {file : Nat} (h : s.Serves addresses (held ++ [file])) (now : Nat) :
    (s.giveBack file now).Serves addresses held := by
  have hcount : s.inUseCount - 1 = (held.length : Nat) := by
    rw [h.count, List.length_append, List.length_singleton]
    omega
  have hmem : file ∈ s.list := h.listed (by simp)
  have hlisted : held ⊆ s.list := fun f hf => h.listed (List.mem_append_left _ hf)
  unfold SubPool.giveBack
  split
  case isTrue hs =>
    exact {
      count     := hcount
      unopened  := h.unopened
      listed    := hlisted
      lt        := h.lt
      shared    := fun _ f hf => h.shared hs f (List.mem_append_left _ hf)
      exclusive := fun hs' => absurd (hs.symm.trans hs') (by decide) }
  case isFalse hs =>
    have hs : s.shareable = false := by simpa using hs
    obtain ⟨hlen, hnodup, hperm⟩ := h.exclusive hs
    rw [hlen, List.take_length]
    split
    case h_2 hnone =>
      exact absurd (List.findIdx?_eq_none_iff.mp hnone file hmem) (by simp)
    case h_1 i hi =>
      obtain ⟨hlt, hfile, _⟩ := List.findIdx?_eq_some_iff_getElem.mp hi
      have hfile : s.list[i]? = some file := by
        rw [List.getElem?_eq_getElem hlt]
        simpa using hfile
      have hbusy : s.busy[i]? = some true := by
        -- the user's engine is among those that are marked as busy, and stands in one place only
        have hbusy : file ∈ busyFiles s.list s.busy := hperm.mem_iff.mp (by simp)
        obtain ⟨⟨g, b⟩, hzip, hg⟩ := List.mem_filterMap.mp hbusy
        obtain ⟨hb, hg⟩ := Option.ite_none_right_eq_some.mp hg
        obtain ⟨k, hk⟩ := List.mem_iff_getElem?.mp hzip
        obtain ⟨hkl, hkb⟩ := List.getElem?_zip_eq_some.mp hk
        have heq : s.list[i]? = s.list[k]? := by rw [hfile, hkl, ← Option.some_inj.mp hg]
        have hki : i = k := (List.getElem?_inj hlt hnodup).mp heq
        subst hki
        simpa [hb] using hkb
      have hset := busyFiles_set (c := false) hfile hbusy
      exact {
        count     := hcount
        unopened  := fun hd => by
          obtain ⟨_, hlist, hnone⟩ := h.unopened hd
          exact ⟨hs, hlist, by simp [hnone]⟩
        listed    := hlisted
        lt        := h.lt
        shared    := fun hs' => absurd (hs'.symm.trans hs) (by decide)
        exclusive := fun _ => ⟨by rw [List.length_set, hlen], hnodup, by
          have := hperm.trans (by simpa using hset)
          exact (List.perm_append_right_iff [file]).mp this⟩ }

end FilePool.SubPool
