import Mathlib

-- Vector fields on numbered points and on the points of a grid: products at each point, and curls
-- from the differences of neighbours.

namespace VectorFields

variable {K : Type*}

structure VectorField (K : Type*) where
  x : Nat → K
  y : Nat → K
  z : Nat → K

namespace VectorField

-- The components of the points one behind the other.
def at' (f : VectorField K) (i : Nat) : K :=
  if i % 3 = 0 then f.x (i / 3) else if i % 3 = 1 then f.y (i / 3) else f.z (i / 3)

def interleave (n : Nat) (f : VectorField K) : List K := (List.range (3 * n)).map f.at'

theorem at'_three (f : VectorField K) (p : Nat) :
    f.at' (3 * p) = f.x p ∧ f.at' (3 * p + 1) = f.y p ∧ f.at' (3 * p + 2) = f.z p := by
  have hmod : 3 * p % 3 = 0 ∧ (3 * p + 1) % 3 = 1 ∧ (3 * p + 2) % 3 = 2 := by omega
  have hdiv : 3 * p / 3 = p ∧ (3 * p + 1) / 3 = p ∧ (3 * p + 2) / 3 = p := by omega
  obtain ⟨⟨h₀, h₁, h₂⟩, d₀, d₁, d₂⟩ := And.intro hmod hdiv
  simp [at', h₀, h₁, h₂, d₀, d₁, d₂]

theorem interleave_succ (n : Nat) (f : VectorField K) :
    f.interleave (n + 1) = f.interleave n ++ [f.x n, f.y n, f.z n] := by
  have ⟨hx, hy, hz⟩ := f.at'_three n
  have hrange : List.range (3 * (n + 1)) =
      List.range (3 * n) ++ [3 * n, 3 * n + 1, 3 * n + 2] := by
    rw [Nat.mul_succ, List.range_succ, List.range_succ, List.range_succ]
    simp
  rw [interleave, interleave, hrange, List.map_append]
  simp [hx, hy, hz]

theorem flatMap_points (n : Nat) (f : VectorField K) :
    (List.range n).flatMap (fun p => [f.x p, f.y p, f.z p]) = f.interleave n := by
  induction n with
  | zero => rfl
  | succ n ih => rw [List.range_succ, List.flatMap_append, ih, interleave_succ]; simp

theorem interleave_inj {n : Nat} {f g : VectorField K} :
    f.interleave n = g.interleave n ↔ ∀ p < n, f.x p = g.x p ∧ f.y p = g.y p ∧ f.z p = g.z p := by
  induction n with
  | zero => simp [interleave]
  | succ n ih =>
    rw [interleave_succ, interleave_succ, Nat.forall_lt_succ_right, ← ih]
    constructor
    · intro h
      have ⟨hl, hr⟩ := List.append_inj' h rfl
      simp only [List.cons.injEq, and_true] at hr
      exact ⟨hl, hr⟩
    · rintro ⟨hl, hx, hy, hz⟩
      rw [hl, hx, hy, hz]

section Ring

variable [CommRing K] (f g : VectorField K)

instance : Sub (VectorField K) where
  sub f g := {
    x := fun p => f.x p - g.x p
    y := fun p => f.y p - g.y p
    z := fun p => f.z p - g.z p
  }

instance : Neg (VectorField K) where
  neg f := { x := fun p => -f.x p, y := fun p => -f.y p, z := fun p => -f.z p }

-- The vector product.
def cross : VectorField K where
  x := fun p => f.y p * g.z p - f.z p * g.y p
  y := fun p => f.z p * g.x p - f.x p * g.z p
  z := fun p => f.x p * g.y p - f.y p * g.x p

def dot (p : Nat) : K := f.x p * g.x p + f.y p * g.y p + f.z p * g.z p

theorem cross_anticomm : f.cross g = -g.cross f := by
  show VectorField.mk _ _ _ = VectorField.mk _ _ _
  congr <;> funext p <;> simp only [cross] <;> ring

theorem dot_cross_left (p : Nat) : f.dot (f.cross g) p = 0 := by
  simp only [dot, cross]
  ring

theorem dot_cross_right (p : Nat) : g.dot (f.cross g) p = 0 := by
  simp only [dot, cross]
  ring

theorem interleave_neg (n : Nat) : (-f).interleave n = (f.interleave n).map (-·) := by
  rw [interleave, interleave, List.map_map]
  refine List.map_congr_left fun i _ => ?_
  rw [Function.comp_apply, at', at', apply_ite Neg.neg, apply_ite Neg.neg]
  rfl

end Ring

end VectorField

section Grid

variable [Field K]

-- The difference of the neighbours on a line of `n` points, over their distance: on one side at the
-- ends, on both sides between them.
def slope (n : Nat) (f : Nat → K) (i : Nat) : K :=
  if i = 0 then f 1 - f 0 else if i + 1 = n then f i - f (i - 1) else (f (i + 1) - f (i - 1)) / 2

theorem slope_sub (n : Nat) (f g : Nat → K) (i : Nat) :
    slope n (fun i => f i - g i) i = slope n f i - slope n g i := by
  rw [slope, slope, slope]
  split
  · ring
  · split <;> ring

-- The number of a point of the grid.
def point (n : Nat × Nat × Nat) (x y z : Nat) : Nat := (x * n.2.1 + y) * n.2.2 + z

theorem point_lt {n : Nat × Nat × Nat} {x y z : Nat} (hx : x < n.1) (hy : y < n.2.1)
    (hz : z < n.2.2) : point n x y z < n.1 * n.2.1 * n.2.2 := by
  have hrow : x * n.2.1 + y + 1 ≤ n.1 * n.2.1 := by
    calc x * n.2.1 + y + 1 ≤ x * n.2.1 + n.2.1 := by omega
      _ = (x + 1) * n.2.1 := (Nat.succ_mul x n.2.1).symm
      _ ≤ n.1 * n.2.1 := Nat.mul_le_mul_right _ hx
  calc point n x y z < (x * n.2.1 + y) * n.2.2 + n.2.2 := Nat.add_lt_add_left hz _
    _ = (x * n.2.1 + y + 1) * n.2.2 := (Nat.succ_mul _ _).symm
    _ ≤ n.1 * n.2.1 * n.2.2 := Nat.mul_le_mul_right _ hrow

variable (n : Nat × Nat × Nat) (f : VectorField K)

def curlAt (x y z : Nat) : K × K × K :=
  (slope n.2.1 (fun y => f.z (point n x y z)) y - slope n.2.2 (fun z => f.y (point n x y z)) z,
    slope n.2.2 (fun z => f.x (point n x y z)) z - slope n.1 (fun x => f.z (point n x y z)) x,
    slope n.1 (fun x => f.y (point n x y z)) x - slope n.2.1 (fun y => f.x (point n x y z)) y)

-- The curls at the points of the grid, one behind the other.
def curl : List K :=
  (List.range n.1).flatMap fun x => (List.range n.2.1).flatMap fun y =>
    (List.range n.2.2).flatMap fun z =>
      [(curlAt n f x y z).1, (curlAt n f x y z).2.1, (curlAt n f x y z).2.2]

def CurlFree : Prop := ∀ x < n.1, ∀ y < n.2.1, ∀ z < n.2.2, curlAt n f x y z = 0

theorem curlAt_sub (g : VectorField K) (x y z : Nat) :
    curlAt n (f - g) x y z = curlAt n f x y z - curlAt n g x y z := by
  have hx : ∀ p, (f - g).x p = f.x p - g.x p := fun _ => rfl
  have hy : ∀ p, (f - g).y p = f.y p - g.y p := fun _ => rfl
  have hz : ∀ p, (f - g).z p = f.z p - g.z p := fun _ => rfl
  simp only [curlAt, hx, hy, hz, slope_sub, Prod.mk_sub_mk, Prod.mk.injEq]
  refine ⟨?_, ?_, ?_⟩ <;> ring

-- Lists that are made of equally long parts are equal if the parts are.
theorem flatMap_inj {α β : Type*} {l : List α} {g h : α → List β}
    (hlen : ∀ a, (g a).length = (h a).length) :
    l.flatMap g = l.flatMap h ↔ ∀ a ∈ l, g a = h a := by
  induction l with
  | nil => simp
  | cons a l ih =>
    rw [List.flatMap_cons, List.flatMap_cons, List.forall_mem_cons, ← ih]
    exact ⟨fun h => List.append_inj h (hlen a), fun ⟨ha, hl⟩ => by rw [ha, hl]⟩

theorem curl_eq_iff (g : VectorField K) : curl n f = curl n g ↔ CurlFree n (f - g) := by
  have htriple : ∀ a b : K × K × K, [a.1, a.2.1, a.2.2] = [b.1, b.2.1, b.2.2] ↔ a - b = 0 := by
    rintro ⟨a₁, a₂, a₃⟩ ⟨b₁, b₂, b₃⟩
    simp [Prod.ext_iff, sub_eq_zero]
  have hpoints : ∀ (f : VectorField K) (x y : Nat), ((List.range n.2.2).flatMap fun z =>
      [(curlAt n f x y z).1, (curlAt n f x y z).2.1, (curlAt n f x y z).2.2]).length = n.2.2 * 3 := by
    intro f x y
    simp [List.length_flatMap, Function.const_def]
  rw [curl, curl, flatMap_inj fun x => by simp [List.length_flatMap, hpoints]]
  simp only [List.mem_range, CurlFree, curlAt_sub]
  refine forall₂_congr fun x _ => ?_
  rw [flatMap_inj fun y => by rw [hpoints, hpoints]]
  simp only [List.mem_range]
  refine forall₂_congr fun y _ => ?_
  rw [flatMap_inj (fun _ => by rfl)]
  simp only [List.mem_range]
  exact forall₂_congr fun z _ => htriple _ _

end Grid

end VectorFields
