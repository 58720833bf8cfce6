import Mathlib

-- Boxes of points that have numbers as coordinates: what lies between a start and an end in every
-- dimension. A cut at a place of one dimension makes two boxes of one.

namespace Boxes

variable {ι : Type*} {start count start' count' : ι → Nat} {x : ι → Nat} {i : ι} {d : Nat}

def points (start count : ι → Nat) : Set (ι → Nat) :=
  {x | ∀ i, start i ≤ x i ∧ x i < start i + count i}

theorem mem_points : x ∈ points start count ↔ ∀ i, start i ≤ x i ∧ x i < start i + count i := .rfl

theorem points_nonempty : (points start count).Nonempty ↔ ∀ i, 0 < count i := by
  constructor
  case mp =>
    rintro ⟨x, hx⟩ i
    have := hx i
    omega
  case mpr =>
    intro h
    exact ⟨start, fun i => ⟨Nat.le_refl _, Nat.lt_add_of_pos_right (h i)⟩⟩

-- One box is in another when it is so in each dimension.
theorem points_subset (h : ∀ i, 0 < count i) :
    points start count ⊆ points start' count' ↔
      ∀ i, start' i ≤ start i ∧ start i + count i ≤ start' i + count' i := by
  classical
  constructor
  case mp =>
    intro hsub i
    have hlast : Function.update start i (start i + count i - 1) ∈ points start count := by
      intro j
      have := h j
      by_cases hj : j = i
      · subst hj
        simp only [Function.update_self]
        omega
      · simp only [Function.update_of_ne hj]
        omega
    have hfirst := hsub (show start ∈ points start count from
      fun j => ⟨Nat.le_refl _, Nat.lt_add_of_pos_right (h j)⟩) i
    have hlast := hsub hlast i
    have := h i
    simp only [Function.update_self] at hlast
    omega
  case mpr =>
    intro hle x hx i
    have := hle i
    have := hx i
    omega

theorem disjoint_points (h : start i + count i ≤ start' i) :
    Disjoint (points start count) (points start' count') := by
  rw [Set.disjoint_left]
  intro x hx hx'
  have := hx i
  have := hx' i
  omega

theorem inter_points : points start count ∩ points start' count' =
    points (fun i => max (start i) (start' i)) fun i =>
      min (start i + count i) (start' i + count' i) - max (start i) (start' i) := by
  ext x
  simp only [Set.mem_inter_iff, mem_points, ← forall_and]
  refine forall_congr' fun i => ?_
  omega

section Cuts

variable [DecidableEq ι]

-- The two parts of a box that is cut `d` behind its start in a dimension.
theorem mem_lower (hd : d ≤ count i) :
    x ∈ points start (Function.update count i d) ↔
      x ∈ points start count ∧ x i < start i + d := by
  constructor
  case mp =>
    intro h
    have hi := h i
    rw [Function.update_self] at hi
    refine ⟨fun j => ?_, hi.right⟩
    by_cases hj : j = i
    · subst hj
      omega
    · simpa [Function.update_of_ne hj] using h j
  case mpr =>
    intro ⟨h, hlt⟩ j
    by_cases hj : j = i
    · subst hj
      simpa using ⟨(h j).left, hlt⟩
    · simpa [Function.update_of_ne hj] using h j

theorem mem_upper (hd : d ≤ count i) :
    x ∈ points (Function.update start i (start i + d)) (Function.update count i (count i - d)) ↔
      x ∈ points start count ∧ start i + d ≤ x i := by
  constructor
  case mp =>
    intro h
    have hi := h i
    simp only [Function.update_self] at hi
    refine ⟨fun j => ?_, hi.left⟩
    by_cases hj : j = i
    · subst hj
      omega
    · simpa [Function.update_of_ne hj] using h j
  case mpr =>
    intro ⟨h, hle⟩ j
    by_cases hj : j = i
    · subst hj
      have := h j
      simp only [Function.update_self]
      omega
    · simpa [Function.update_of_ne hj] using h j

theorem lower_union_upper (hd : d ≤ count i) :
    points start (Function.update count i d) ∪
      points (Function.update start i (start i + d)) (Function.update count i (count i - d)) =
        points start count := by
  ext x
  rw [Set.mem_union, mem_lower hd, mem_upper hd, ← and_or_left]
  have : x i < start i + d ∨ start i + d ≤ x i := by omega
  simp [this]

theorem disjoint_lower_upper :
    Disjoint (points start (Function.update count i d))
      (points (Function.update start i (start i + d)) (Function.update count i (count i - d))) :=
  disjoint_points (i := i) (by simp)

end Cuts

section Volume

variable [Fintype ι]

-- The number of the points.
def volume (count : ι → Nat) : Nat := ∏ i, count i

theorem volume_pos : 0 < volume count ↔ ∀ i, 0 < count i := by
  simp [volume, Nat.pos_iff_ne_zero]

theorem volume_mono (h : ∀ i, count i ≤ count' i) : volume count ≤ volume count' :=
  Finset.prod_le_prod' fun i _ => h i

theorem volume_lt (hpos : ∀ i, 0 < count i) (h : ∀ i, count i ≤ count' i)
    (hlt : count i < count' i) : volume count < volume count' :=
  Finset.prod_lt_prod (fun j _ => hpos j) (fun j _ => h j) ⟨i, Finset.mem_univ i, hlt⟩

theorem eq_of_volume_le (hpos : ∀ i, 0 < count i) (h : ∀ i, count i ≤ count' i)
    (hle : volume count' ≤ volume count) : count = count' := by
  funext i
  by_contra hne
  have := volume_lt hpos h (Nat.lt_of_le_of_ne (h i) hne)
  omega

theorem dvd_volume (count : ι → Nat) (i : ι) : count i ∣ volume count :=
  Finset.dvd_prod_of_mem count (Finset.mem_univ i)

end Volume

end Boxes
