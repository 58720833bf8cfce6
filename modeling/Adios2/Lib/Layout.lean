import Mathlib

-- Rounding up to a multiple, and the layout of blocks one behind the other at rounded positions.

namespace Layout

-- What is missing to the next multiple of `a`.
def padding (a x : Nat) : Nat := (a - x % a) % a

def alignUp (a x : Nat) : Nat := x + padding a x

variable {a x : Nat}

theorem padding_lt (ha : 0 < a) : padding a x < a :=
  Nat.mod_lt _ ha

theorem le_alignUp : x ≤ alignUp a x :=
  Nat.le_add_right _ _

theorem dvd_alignUp (ha : 0 < a) : a ∣ alignUp a x := by
  have hlt := Nat.mod_lt x ha
  rw [alignUp, padding, Nat.dvd_iff_mod_eq_zero, Nat.add_mod, Nat.mod_mod]
  rcases Nat.eq_zero_or_pos (x % a) with h | h
  · simp [h]
  · rw [Nat.mod_eq_of_lt (show a - x % a < a by omega), Nat.add_sub_cancel' hlt.le, Nat.mod_self]

theorem alignUp_le {y : Nat} (ha : 0 < a) (hxy : x ≤ y) (hy : a ∣ y) : alignUp a x ≤ y := by
  have hdvd := dvd_alignUp (x := x) ha
  have hlt := padding_lt (x := x) ha
  by_contra hgt
  have hle := Nat.le_of_dvd (by omega) (Nat.dvd_sub hdvd hy)
  unfold alignUp at *
  omega

-- The last multiple of `a` that is not behind `y`.
theorem alignUp_sub_eq {y : Nat} (ha : 0 < a) (hy : a ≤ y + 1) : alignUp a (y + 1 - a) = y / a * a := by
  have hdiv := Nat.div_add_mod' y a
  have hmod := Nat.mod_lt y ha
  have hle : alignUp a (y + 1 - a) ≤ y / a * a :=
    alignUp_le ha (by omega) (Nat.dvd_mul_left a (y / a))
  obtain ⟨k, hk⟩ := dvd_alignUp (x := y + 1 - a) ha
  have hge : y + 1 - a ≤ alignUp a (y + 1 - a) := le_alignUp
  have hlt : y < (k + 1) * a := by
    rw [Nat.succ_mul, Nat.mul_comm k, ← hk]
    omega
  have hquot : y / a ≤ k := Nat.le_of_lt_succ (Nat.div_lt_of_lt_mul (by rwa [Nat.mul_comm]))
  refine hle.antisymm ?_
  rw [hk, Nat.mul_comm a]
  exact Nat.mul_le_mul_right a hquot

theorem padding_of_dvd (h : a ∣ x) : padding a x = 0 := by
  simp [padding, Nat.mod_eq_zero_of_dvd h]

-- Blocks of the given sizes behind `pos`, each with its position.
def place (a : Nat) : Nat → List Nat → List (Nat × Nat)
  | _, []             => []
  | pos, size :: sizes => (alignUp a pos, size) :: place a (alignUp a pos + size) sizes

def placeEnd (a : Nat) : Nat → List Nat → Nat
  | pos, []            => pos
  | pos, size :: sizes => placeEnd a (alignUp a pos + size) sizes

-- The end of the one block is not behind the start of the other.
def Before (r r' : Nat × Nat) : Prop := r.1 + r.2 ≤ r'.1

theorem le_placeEnd (pos : Nat) (sizes : List Nat) : pos ≤ placeEnd a pos sizes := by
  induction sizes generalizing pos with
  | nil => exact le_rfl
  | cons size sizes ih =>
    have h := ih (alignUp a pos + size)
    have := le_alignUp (a := a) (x := pos)
    rw [placeEnd]
    omega

theorem le_of_mem_place {pos : Nat} {sizes : List Nat} {r : Nat × Nat}
    (h : r ∈ place a pos sizes) : pos ≤ r.1 ∧ r.1 + r.2 ≤ placeEnd a pos sizes := by
  induction sizes generalizing pos with
  | nil => contradiction
  | cons size sizes ih =>
    have hle := le_alignUp (a := a) (x := pos)
    cases h with
    | head => exact ⟨hle, le_placeEnd _ _⟩
    | tail _ h =>
      have ⟨h₁, h₂⟩ := ih h
      exact ⟨by omega, h₂⟩

theorem place_pairwise (pos : Nat) (sizes : List Nat) :
    (place a pos sizes).Pairwise Before := by
  induction sizes generalizing pos with
  | nil => exact .nil
  | cons size sizes ih => exact .cons (fun _ h => (le_of_mem_place h).1) (ih _)

theorem place_append (pos : Nat) (xs ys : List Nat) :
    place a pos (xs ++ ys) = place a pos xs ++ place a (placeEnd a pos xs) ys := by
  induction xs generalizing pos with
  | nil => rfl
  | cons x xs ih => simp [place, placeEnd, ih]

theorem placeEnd_append (pos : Nat) (xs ys : List Nat) :
    placeEnd a pos (xs ++ ys) = placeEnd a (placeEnd a pos xs) ys := by
  induction xs generalizing pos with
  | nil => rfl
  | cons x xs ih => simp [placeEnd, ih]

end Layout
