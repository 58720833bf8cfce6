import Mathlib
import Adios2.Lib.RowMajor

-- A grid of cells in a box. Every dimension is cut into parts of the same length, of which the last
-- one has what is left over as well. The cells are numbered with the first dimension as the fastest.

namespace Grid

open RowMajor

section Part

variable {n total part x : Nat}

def partStart (n total part : Nat) : Nat := total / n * part

def partSize (n total part : Nat) : Nat :=
  if part = n - 1 then total - total / n * (n - 1) else total / n

theorem mul_pred_le (n total : Nat) : total / n * (n - 1) ≤ total :=
  (Nat.mul_le_mul_left _ (Nat.pred_le n)).trans (Nat.div_mul_le_self total n)

theorem part_le (hpart : part < n) : partStart n total part + partSize n total part ≤ total := by
  rw [partStart, partSize]
  split
  case isTrue hlast =>
    subst hlast
    have := mul_pred_le n total
    omega
  case isFalse hlast =>
    have hnext : total / n * (part + 1) ≤ total / n * (n - 1) := Nat.mul_le_mul_left _ (by omega)
    have := mul_pred_le n total
    rw [Nat.mul_succ] at hnext
    omega

-- Every place is in one of the parts,
theorem exists_part (hn : 0 < n) (hx : x < total) : ∃ part < n,
    partStart n total part ≤ x ∧ x < partStart n total part + partSize n total part := by
  by_cases hlast : total / n * (n - 1) ≤ x
  case pos =>
    refine ⟨n - 1, by omega, hlast, ?_⟩
    rw [partStart, partSize, if_pos rfl]
    omega
  case neg =>
    have hsize : 0 < total / n := Nat.pos_of_ne_zero fun hzero => by simp [hzero] at hlast
    have hlt : x / (total / n) < n - 1 := by
      rw [Nat.div_lt_iff_lt_mul hsize, Nat.mul_comm]
      omega
    refine ⟨x / (total / n), by omega, ?_, ?_⟩
    · rw [partStart]
      exact Nat.mul_div_le x (total / n)
    · rw [partStart, partSize, if_neg (by omega), ← Nat.mul_succ]
      exact Nat.lt_mul_div_succ x hsize

-- and in no other one.
theorem part_unique {part' : Nat} (hpart : part < n) (hpart' : part' < n)
    (h : partStart n total part ≤ x ∧ x < partStart n total part + partSize n total part)
    (h' : partStart n total part' ≤ x ∧ x < partStart n total part' + partSize n total part') :
    part = part' := by
  have hbefore {a b : Nat} (hb : b < n) (hlt : a < b)
      (ha : x < partStart n total a + partSize n total a) : ¬partStart n total b ≤ x := by
    rw [partStart, partSize, if_neg (by omega), ← Nat.mul_add_one] at ha
    have hle : total / n * (a + 1) ≤ total / n * b := Nat.mul_le_mul_left _ hlt
    rw [partStart]
    omega
  rcases Nat.lt_trichotomy part part' with hlt | heq | hlt
  case inl => exact absurd h'.1 (hbefore hpart' hlt h.2)
  case inr.inl => exact heq
  case inr.inr => exact absurd h.1 (hbefore hpart hlt h'.2)

end Part

section Cell

variable {ns shape point : List Nat} {cell : Nat}

def cellStart : List Nat → List Nat → Nat → List Nat
  | n :: ns, total :: shape, cell => partStart n total (cell % n) :: cellStart ns shape (cell / n)
  | _, _, _                       => []

def cellSize : List Nat → List Nat → Nat → List Nat
  | n :: ns, total :: shape, cell => partSize n total (cell % n) :: cellSize ns shape (cell / n)
  | _, _, _                       => []

def cellPoints (ns shape : List Nat) (cell : Nat) : Set (List Nat) :=
  points (cellStart ns shape cell) (cellSize ns shape cell)

theorem div_lt_prod {n : Nat} (hcell : cell < (n :: ns).prod) : cell / n < ns.prod := by
  rw [List.prod_cons, Nat.mul_comm] at hcell
  exact Nat.div_lt_of_lt_mul (by rwa [Nat.mul_comm])

-- How a cell and the whole box agree in every dimension.
theorem cell_le (hlen : ns.length = shape.length) (hpos : ∀ n ∈ ns, 0 < n) :
    List.Forall₂ (fun (box : Nat × Nat) total => box.1 + box.2 ≤ total)
      ((cellStart ns shape cell).zip (cellSize ns shape cell)) shape := by
  induction ns generalizing shape cell with
  | nil =>
    obtain rfl := List.length_eq_zero_iff.mp hlen.symm
    exact .nil
  | cons n ns ih =>
    cases shape with
    | nil => cases hlen
    | cons total shape =>
      have ⟨hn, hpos⟩ := List.forall_mem_cons.mp hpos
      exact .cons (part_le (Nat.mod_lt _ hn)) (ih (Nat.succ.inj hlen) hpos)

theorem exists_cell (hlen : ns.length = shape.length) (hpos : ∀ n ∈ ns, 0 < n)
    (hpoint : point ∈ points (shape.map fun _ => 0) shape) :
    ∃ cell < ns.prod, point ∈ cellPoints ns shape cell := by
  induction ns generalizing shape point with
  | nil =>
    obtain rfl := List.length_eq_zero_iff.mp hlen.symm
    exact ⟨0, by simp, hpoint⟩
  | cons n ns ih =>
    cases shape with
    | nil => cases hlen
    | cons total shape =>
      have ⟨hn, hpos⟩ := List.forall_mem_cons.mp hpos
      obtain ⟨x, tail, rfl, hx, htail⟩ := mem_points_cons.mp hpoint
      have ⟨part, hpart, hmem⟩ := @exists_part n total x hn (by simpa using hx)
      have ⟨cell, hcell, hcells⟩ := ih (Nat.succ.inj hlen) hpos htail
      have hmod : (part + n * cell) % n = part := by
        rw [Nat.add_mul_mod_self_left, Nat.mod_eq_of_lt hpart]
      have hdiv : (part + n * cell) / n = cell := by
        rw [Nat.add_mul_div_left _ _ hn, Nat.div_eq_of_lt hpart, Nat.zero_add]
      refine ⟨part + n * cell, ?_, ?_⟩
      · rw [List.prod_cons]
        calc part + n * cell < n + n * cell := Nat.add_lt_add_right hpart _
          _ = n * (cell + 1) := by rw [Nat.mul_succ, Nat.add_comm]
          _ ≤ n * ns.prod := Nat.mul_le_mul_left _ hcell
      · simp only [cellPoints, cellStart, cellSize, hmod, hdiv]
        exact ⟨hmem, hcells⟩

theorem cell_unique (hlen : ns.length = shape.length) (hpos : ∀ n ∈ ns, 0 < n) {cell' : Nat}
    (hcell : cell < ns.prod) (hcell' : cell' < ns.prod) (h : point ∈ cellPoints ns shape cell)
    (h' : point ∈ cellPoints ns shape cell') : cell = cell' := by
  induction ns generalizing shape point cell cell' with
  | nil =>
    rw [List.prod_nil] at hcell hcell'
    omega
  | cons n ns ih =>
    cases shape with
    | nil => cases hlen
    | cons total shape =>
      have ⟨hn, hpos⟩ := List.forall_mem_cons.mp hpos
      obtain ⟨x, tail, rfl, hx, htail⟩ := mem_points_cons.mp h
      have ⟨hx', htail'⟩ := h'
      have hpart := part_unique (Nat.mod_lt cell hn) (Nat.mod_lt cell' hn) hx hx'
      have hrest := ih (Nat.succ.inj hlen) hpos (div_lt_prod hcell) (div_lt_prod hcell') htail htail'
      rw [← Nat.div_add_mod cell n, ← Nat.div_add_mod cell' n, hpart, hrest]

end Cell

end Grid
