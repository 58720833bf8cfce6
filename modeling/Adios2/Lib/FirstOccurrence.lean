import Mathlib

-- The first occurrences in a list, where `key` tells which elements count as the same. What has
-- been seen before is a list of keys, of which only the members matter.

namespace FirstOccurrence

variable {α β κ : Type*} [DecidableEq κ] (key : α → κ)

-- For each element, whether it is a first occurrence.
def flags : List κ → List α → List Bool
  | _, []         => []
  | seen, a :: as => if key a ∈ seen then false :: flags seen as else true :: flags (key a :: seen) as

def firsts : List κ → List α → List α
  | _, []         => []
  | seen, a :: as => if key a ∈ seen then firsts seen as else a :: firsts (key a :: seen) as

def seenAfter : List κ → List α → List κ
  | seen, []      => seen
  | seen, a :: as => if key a ∈ seen then seenAfter seen as else seenAfter (key a :: seen) as

variable {key} {seen seen' : List κ} {xs ys : List α}

@[simp]
theorem flags_length : (flags key seen xs).length = xs.length := by
  induction xs generalizing seen with
  | nil => rfl
  | cons x xs ih =>
    unfold flags
    split <;> simp [ih]

theorem firsts_sublist : (firsts key seen xs).Sublist xs := by
  induction xs generalizing seen with
  | nil => exact .slnil
  | cons x xs ih =>
    unfold firsts
    split
    · exact ih.cons x
    · exact ih.cons_cons x

theorem firsts_append :
    firsts key seen (xs ++ ys) = firsts key seen xs ++ firsts key (seenAfter key seen xs) ys := by
  induction xs generalizing seen with
  | nil => rfl
  | cons x xs ih =>
    simp only [List.cons_append, firsts, seenAfter]
    split
    · exact ih
    · rw [ih, List.cons_append]

theorem seenAfter_append :
    seenAfter key seen (xs ++ ys) = seenAfter key (seenAfter key seen xs) ys := by
  induction xs generalizing seen with
  | nil => rfl
  | cons x xs ih =>
    simp only [List.cons_append, seenAfter]
    split <;> exact ih

theorem mem_seenAfter {k : κ} : k ∈ seenAfter key seen xs ↔ k ∈ seen ∨ k ∈ xs.map key := by
  induction xs generalizing seen with
  | nil => simp [seenAfter]
  | cons x xs ih =>
    unfold seenAfter
    split
    case isTrue h =>
      rw [ih, List.map_cons, List.mem_cons]
      constructor
      · tauto
      · rintro (hk | rfl | hk)
        · exact .inl hk
        · exact .inl h
        · exact .inr hk
    case isFalse =>
      rw [ih, List.map_cons, List.mem_cons, List.mem_cons]
      tauto

theorem firsts_congr (h : ∀ k, k ∈ seen ↔ k ∈ seen') :
    firsts key seen xs = firsts key seen' xs := by
  induction xs generalizing seen seen' with
  | nil => rfl
  | cons x xs ih =>
    have hcons (k : κ) : k ∈ key x :: seen ↔ k ∈ key x :: seen' := by simp [h]
    simp only [firsts, h, ih h, ih hcons]

theorem flags_congr (h : ∀ k, k ∈ seen ↔ k ∈ seen') :
    flags key seen xs = flags key seen' xs := by
  induction xs generalizing seen seen' with
  | nil => rfl
  | cons x xs ih =>
    have hcons (k : κ) : k ∈ key x :: seen ↔ k ∈ key x :: seen' := by simp [h]
    simp only [flags, h, ih h, ih hcons]

theorem mem_map_firsts {k : κ} :
    k ∈ (firsts key seen xs).map key ↔ k ∈ xs.map key ∧ k ∉ seen := by
  induction xs generalizing seen with
  | nil => simp [firsts]
  | cons x xs ih =>
    unfold firsts
    split
    case isTrue h =>
      rw [ih, List.map_cons, List.mem_cons]
      constructor
      · tauto
      · rintro ⟨rfl | hk, hseen⟩
        · contradiction
        · exact ⟨hk, hseen⟩
    case isFalse h =>
      rw [List.map_cons, List.mem_cons, ih, List.map_cons, List.mem_cons, List.mem_cons]
      constructor
      · rintro (rfl | hk)
        · exact ⟨.inl rfl, h⟩
        · tauto
      · tauto

-- To look for first occurrences in parts first changes nothing.
theorem firsts_firsts (h : ∀ k ∈ seen, k ∈ seen') :
    firsts key seen' (firsts key seen xs) = firsts key seen' xs := by
  induction xs generalizing seen seen' with
  | nil => rfl
  | cons x xs ih =>
    by_cases hx : key x ∈ seen
    case pos =>
      simp only [firsts, hx, h _ hx, if_true]
      exact ih h
    case neg =>
      have hcons : ∀ k ∈ key x :: seen, k ∈ key x :: seen' := by
        intro k hk
        rcases List.mem_cons.mp hk with rfl | hk
        · exact List.mem_cons_self
        · exact List.mem_cons_of_mem _ (h k hk)
      simp only [firsts, hx, if_false]
      split
      case isTrue hx' =>
        apply ih
        intro k hk
        rcases List.mem_cons.mp hk with rfl | hk
        · exact hx'
        · exact h k hk
      case isFalse => rw [ih hcons]

theorem firsts_flatMap_firsts (f : β → List α) (l : List β) :
    firsts key seen (l.flatMap fun b => firsts key [] (f b)) = firsts key seen (l.flatMap f) := by
  induction l generalizing seen with
  | nil => rfl
  | cons b l ih =>
    have hseen (k : κ) :
        k ∈ seenAfter key seen (firsts key [] (f b)) ↔ k ∈ seenAfter key seen (f b) := by
      rw [mem_seenAfter, mem_seenAfter, mem_map_firsts]
      simp
    rw [List.flatMap_cons, List.flatMap_cons, firsts_append, firsts_append,
      firsts_firsts (by simp), ih, firsts_congr hseen]

section TwoKeys

-- Two keys that agree on which elements are the same find the same first occurrences.

variable {κ' : Type*} [DecidableEq κ'] {key' : α → κ'} {old : List α}

omit [DecidableEq κ] [DecidableEq κ'] in
theorem mem_map_of_iff {x : α} (h : ∀ y ∈ old, key y = key x ↔ key' y = key' x) :
    key x ∈ old.map key ↔ key' x ∈ old.map key' := by
  simp only [List.mem_map]
  exact exists_congr fun y => and_congr_right (h y)

theorem firsts_map_of_iff
    (h : ∀ x ∈ old ++ xs, ∀ y ∈ old ++ xs, key x = key y ↔ key' x = key' y) :
    firsts key (old.map key) xs = firsts key' (old.map key') xs := by
  induction xs generalizing old with
  | nil => rfl
  | cons x xs ih =>
    have hmem : key x ∈ old.map key ↔ key' x ∈ old.map key' :=
      mem_map_of_iff fun y hy => h y (by simp [hy]) x (by simp)
    have hskip := ih fun y hy z hz => h y (by simp at hy ⊢; tauto) z (by simp at hz ⊢; tauto)
    have htake := @ih (x :: old) fun y hy z hz =>
      h y (by simp at hy ⊢; tauto) z (by simp at hz ⊢; tauto)
    simp only [firsts, hmem, hskip, ← List.map_cons, htake]

theorem flags_map_of_iff
    (h : ∀ x ∈ old ++ xs, ∀ y ∈ old ++ xs, key x = key y ↔ key' x = key' y) :
    flags key (old.map key) xs = flags key' (old.map key') xs := by
  induction xs generalizing old with
  | nil => rfl
  | cons x xs ih =>
    have hmem : key x ∈ old.map key ↔ key' x ∈ old.map key' :=
      mem_map_of_iff fun y hy => h y (by simp [hy]) x (by simp)
    have hskip := ih fun y hy z hz => h y (by simp at hy ⊢; tauto) z (by simp at hz ⊢; tauto)
    have htake := @ih (x :: old) fun y hy z hz =>
      h y (by simp at hy ⊢; tauto) z (by simp at hz ⊢; tauto)
    simp only [flags, hmem, hskip, ← List.map_cons, htake]

end TwoKeys

-- What a loop over positions takes with the flags are the first occurrences.
theorem flatMap_flags (f : α → List β) :
    ((xs.zip (flags key seen xs)).flatMap fun x => if x.2 then f x.1 else [])
      = (firsts key seen xs).flatMap f := by
  induction xs generalizing seen with
  | nil => rfl
  | cons x xs ih =>
    simp only [flags, firsts]
    split <;> simp [ih]

theorem count_flags : (flags key seen xs).count true = (firsts key seen xs).length := by
  induction xs generalizing seen with
  | nil => rfl
  | cons x xs ih =>
    simp only [flags, firsts]
    split <;> simp [ih]

section Positions

theorem getElem?_flags {b : Nat} : (flags key seen xs)[b]? = some true ↔
    ∃ x, xs[b]? = some x ∧ key x ∉ seen ∧ key x ∉ (xs.take b).map key := by
  induction xs generalizing seen b with
  | nil => simp [flags]
  | cons x xs ih =>
    by_cases hx : key x ∈ seen
    case pos =>
      rw [flags, if_pos hx]
      cases b with
      | zero => simp [hx]
      | succ b =>
        simp only [List.getElem?_cons_succ, ih, List.take_succ_cons, List.map_cons, List.mem_cons,
          not_or]
        refine exists_congr fun y => and_congr_right fun _ => and_congr_right fun hy => ?_
        exact (and_iff_right fun (heq : key y = key x) => hy (heq ▸ hx)).symm
    case neg =>
      rw [flags, if_neg hx]
      cases b with
      | zero => simp [hx]
      | succ b =>
        simp only [List.getElem?_cons_succ, ih, List.take_succ_cons, List.map_cons, List.mem_cons,
          not_or]
        refine exists_congr fun y => and_congr_right fun _ => ?_
        tauto

variable (key seen xs) in
-- The first occurrences stand at the positions that are flagged.
theorem map_filter_flags (n : Nat) :
    ((List.range n).filter fun b => (flags key seen xs)[b]? = some true).map (xs[·]?) =
      (firsts key seen (xs.take n)).map some := by
  induction xs generalizing seen n with
  | nil => simp [flags, firsts]
  | cons x xs ih =>
    cases n with
    | zero => simp [firsts]
    | succ n =>
      rw [List.range_succ_eq_map, List.filter_cons, List.take_succ_cons]
      by_cases hx : key x ∈ seen
      case pos =>
        simpa [flags, firsts, hx, List.filter_map, Function.comp_def] using ih _ n
      case neg =>
        simpa [flags, firsts, hx, List.filter_map, Function.comp_def] using ih _ n

variable (key seen xs) in
theorem length_firsts_take (n : Nat) : (firsts key seen (xs.take n)).length =
    ((List.range n).filter fun b => (flags key seen xs)[b]? = some true).length := by
  simpa using (congrArg List.length (map_filter_flags key seen xs n)).symm

-- All first occurrences are in front if as many are in front as there are.
theorem lt_of_length_firsts {n b : Nat}
    (h : (firsts key seen (xs.take n)).length = (firsts key seen xs).length)
    (hb : (flags key seen xs)[b]? = some true) : b < n := by
  by_contra hnb
  have hblen : b < xs.length := by
    have := (List.getElem?_eq_some_iff.mp hb).1
    rwa [flags_length] at this
  have hall := length_firsts_take key seen xs (n + xs.length)
  rw [List.take_of_length_le (by omega), List.range_add, List.filter_append, List.length_append,
    ← length_firsts_take, h] at hall
  have hmem : b ∈ ((List.range xs.length).map (n + ·)).filter
      fun b => (flags key seen xs)[b]? = some true := by
    refine List.mem_filter.mpr ⟨List.mem_map.mpr ⟨b - n, ?_, by omega⟩, decide_eq_true hb⟩
    exact List.mem_range.mpr (by omega)
  have := List.length_pos_of_mem hmem
  omega

-- Elements that are seen under another guise.
theorem flags_map_of_injective {κ' : Type*} [DecidableEq κ'] {key' : β → κ'} {f : α → β} {g : κ → κ'}
    (hg : g.Injective) (h : ∀ x ∈ xs, key' (f x) = g (key x)) :
    flags key' (seen.map g) (xs.map f) = flags key seen xs := by
  induction xs generalizing seen with
  | nil => rfl
  | cons x xs ih =>
    have hx := h x List.mem_cons_self
    have hxs := fun y hy => h y (List.mem_cons_of_mem _ hy)
    simp only [List.map_cons, flags, hx, List.mem_map_of_injective hg, ih hxs]
    rw [← List.map_cons, ih hxs]

theorem firsts_map_of_injective {κ' : Type*} [DecidableEq κ'] {key' : β → κ'} {f : α → β}
    {g : κ → κ'} (hg : g.Injective) (h : ∀ x ∈ xs, key' (f x) = g (key x)) :
    firsts key' (seen.map g) (xs.map f) = (firsts key seen xs).map f := by
  induction xs generalizing seen with
  | nil => rfl
  | cons x xs ih =>
    have hx := h x List.mem_cons_self
    have hxs := fun y hy => h y (List.mem_cons_of_mem _ hy)
    simp only [List.map_cons, firsts, hx, List.mem_map_of_injective hg, ih hxs]
    rw [← List.map_cons, ih hxs]
    split <;> rfl

end Positions

end FirstOccurrence
