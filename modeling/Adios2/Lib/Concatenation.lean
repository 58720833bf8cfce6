import Mathlib

-- Sequences that are parts one behind the other: where each part starts, and the part that a place
-- of the whole falls into.

namespace Concatenation

variable {α : Type*} (len : α → Nat)

-- The places of the whole, each as a part and a place in that part.
def places (l : List α) : List (α × Nat) :=
  l.flatMap fun a => (List.range (len a)).map (a, ·)

-- The parts with where they start, from `n` on.
def starts : Nat → List α → List (α × Nat)
  | _, []     => []
  | n, a :: l => (a, n) :: starts (n + len a) l

-- Whether place `m` falls into a part.
def Covers (m : Nat) (p : α × Nat) : Prop := p.2 ≤ m ∧ m < p.2 + len p.1

instance (m : Nat) (p : α × Nat) : Decidable (Covers len m p) := by
  unfold Covers
  infer_instance

variable {len}

@[simp]
theorem places_nil : places len ([] : List α) = [] := rfl

@[simp]
theorem places_cons (a : α) (l : List α) :
    places len (a :: l) = (List.range (len a)).map (a, ·) ++ places len l := by
  simp [places]

@[simp]
theorem places_append (l l' : List α) :
    places len (l ++ l') = places len l ++ places len l' := by
  simp [places]

theorem length_places_cons (a : α) (l : List α) :
    (places len (a :: l)).length = len a + (places len l).length := by
  simp

@[simp]
theorem starts_nil (n : Nat) : starts len n ([] : List α) = [] := rfl

@[simp]
theorem starts_cons (n : Nat) (a : α) (l : List α) :
    starts len n (a :: l) = (a, n) :: starts len (n + len a) l := rfl

theorem starts_append (n : Nat) (l l' : List α) :
    starts len n (l ++ l') = starts len n l ++ starts len (n + (places len l).length) l' := by
  induction l generalizing n with
  | nil => simp
  | cons a l ih =>
    rw [List.cons_append, starts_cons, ih, starts_cons, List.cons_append, length_places_cons,
      Nat.add_assoc]

theorem getElem?_starts (n : Nat) (l : List α) (k : Nat) :
    (starts len n l)[k]? = l[k]?.map (·, n + (places len (l.take k)).length) := by
  induction l generalizing n k with
  | nil => simp
  | cons a l ih =>
    cases k with
    | zero => simp
    | succ k => simp [ih, Nat.add_assoc]

@[simp]
theorem length_starts (n : Nat) (l : List α) : (starts len n l).length = l.length := by
  induction l generalizing n with
  | nil => rfl
  | cons a l ih => simp [ih]

-- A place of the whole falls into one part, which is the first that covers it.
theorem exists_findIdx? {l : List α} {r : Nat} (hr : r < (places len l).length) (n : Nat) :
    ∃ k a, l[k]? = some a ∧ (starts len n l).findIdx? (Covers len (n + r)) = some k ∧
      (places len (l.take k)).length ≤ r ∧ r < (places len (l.take k)).length + len a := by
  induction l generalizing n r with
  | nil => simp at hr
  | cons a l ih =>
    rw [length_places_cons] at hr
    rcases Nat.lt_or_ge r (len a) with h | h
    case inl =>
      exact ⟨0, a, rfl, by simp [List.findIdx?_cons, Covers, h], by simp, by simpa using h⟩
    case inr =>
      have ⟨k, b, hk, hf, hle, hlt⟩ := ih (r := r - len a) (by omega) (n + len a)
      rw [show n + len a + (r - len a) = n + r by omega] at hf
      refine ⟨k + 1, b, by simpa using hk, ?_, ?_, ?_⟩
      · have : ¬Covers len (n + r) (a, n) := by simp [Covers]; omega
        simp [List.findIdx?_cons, this, hf]
      · rw [List.take_succ_cons, length_places_cons]
        omega
      · rw [List.take_succ_cons, length_places_cons]
        omega

theorem findIdx?_eq_none {l : List α} {r : Nat} (hr : (places len l).length ≤ r) (n : Nat) :
    (starts len n l).findIdx? (Covers len (n + r)) = none := by
  induction l generalizing n r with
  | nil => rfl
  | cons a l ih =>
    rw [length_places_cons] at hr
    have h := ih (r := r - len a) (by omega) (n + len a)
    rw [show n + len a + (r - len a) = n + r by omega] at h
    have : ¬Covers len (n + r) (a, n) := by simp [Covers]; omega
    simp [List.findIdx?_cons, this, h]

-- What there is from a place of a part on: the rest of the part, and the parts behind it.
theorem drop_places {l : List α} {k : Nat} {a : α} (hk : l[k]? = some a) {o : Nat}
    (ho : o ≤ len a) :
    (places len l).drop ((places len (l.take k)).length + o) =
      (List.range' o (len a - o)).map (a, ·) ++ places len (l.drop (k + 1)) := by
  have hlt : k < l.length := (List.getElem?_eq_some_iff.mp hk).choose
  have hl : l = l.take k ++ a :: l.drop (k + 1) := by
    have : l[k] = a := (List.getElem?_eq_some_iff.mp hk).choose_spec
    rw [← this, List.cons_getElem_drop_succ, List.take_append_drop]
  have hp : places len l = places len (l.take k) ++
      ((List.range (len a)).map (a, ·) ++ places len (l.drop (k + 1))) := by
    rw [← places_cons, ← places_append, ← hl]
  rw [hp, ← List.drop_drop, List.drop_left, List.drop_append, List.length_map, List.length_range,
    Nat.sub_eq_zero_of_le ho, List.drop_zero, ← List.map_drop, List.range_eq_range',
    List.drop_range']
  simp

end Concatenation
