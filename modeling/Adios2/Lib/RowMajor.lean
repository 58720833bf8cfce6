import Mathlib

-- The order in which the points of a box follow each other in memory, where the first dimension is
-- the slowest. A box is given by its start and its count in every dimension.

namespace RowMajor

variable {base count start sub point : List Nat}

def Inside : List Nat → List Nat → List Nat → Prop
  | [], [], []                             => True
  | s :: start, c :: count, x :: point => (s ≤ x ∧ x < s + c) ∧ Inside start count point
  | _, _, _                                => False

def points (start count : List Nat) : Set (List Nat) :=
  {point | Inside start count point}

@[simp]
theorem nil_mem_points : [] ∈ points [] [] := trivial

@[simp]
theorem cons_mem_points {s c x : Nat} :
    x :: point ∈ points (s :: start) (c :: count) ↔
      (s ≤ x ∧ x < s + c) ∧ point ∈ points start count := .rfl

theorem points_nil : points [] [] = {[]} := by
  ext point
  cases point with
  | nil => exact ⟨fun _ => rfl, fun _ => trivial⟩
  | cons => exact ⟨fun h => h.elim, fun h => by cases h⟩

theorem mem_points_cons {s c : Nat} :
    point ∈ points (s :: start) (c :: count) ↔
      ∃ x tail, point = x :: tail ∧ (s ≤ x ∧ x < s + c) ∧ tail ∈ points start count := by
  cases point with
  | nil => exact ⟨fun h => h.elim, fun ⟨_, _, h, _⟩ => by cases h⟩
  | cons x tail =>
    constructor
    case mp => exact fun h => ⟨x, tail, rfl, h⟩
    case mpr =>
      rintro ⟨_, _, heq, h⟩
      cases heq
      exact h

theorem length_of_mem_points (h : point ∈ points start count) :
    start.length = point.length ∧ count.length = point.length := by
  induction start generalizing count point with
  | nil =>
    cases count <;> cases point <;> first | exact ⟨rfl, rfl⟩ | exact h.elim
  | cons s start ih =>
    cases count with
    | nil => exact h.elim
    | cons c count =>
      have ⟨_, _, hp, _, htail⟩ := mem_points_cons.mp h
      have ⟨h₁, h₂⟩ := ih htail
      rw [hp]
      exact ⟨congrArg (· + 1) h₁, congrArg (· + 1) h₂⟩

-- Whether a point is in a box can be told dimension by dimension.
theorem mem_points_iff (hlen : start.length = count.length) :
    point ∈ points start count ↔ point.length = start.length ∧
      ∀ d < start.length, start.getD d 0 ≤ point.getD d 0 ∧
        point.getD d 0 < start.getD d 0 + count.getD d 0 := by
  induction start generalizing count point with
  | nil =>
    rw [List.length_eq_zero_iff.mp hlen.symm, points_nil]
    simp
  | cons s start ih =>
    cases count with
    | nil => cases hlen
    | cons c count =>
      cases point with
      | nil => exact ⟨fun h => h.elim, fun h => by cases h.left⟩
      | cons x tail =>
        rw [cons_mem_points, ih (Nat.succ.inj hlen)]
        simp only [List.length_cons, Nat.succ_inj, Nat.forall_lt_succ_left, List.getD_cons_zero,
          List.getD_cons_succ]
        exact and_left_comm

theorem points_nonempty_iff (hlen : start.length = count.length) :
    (points start count).Nonempty ↔ ∀ c ∈ count, 0 < c := by
  induction start generalizing count with
  | nil =>
    rw [List.length_eq_zero_iff.mp hlen.symm]
    exact ⟨fun _ _ h => absurd h List.not_mem_nil, fun _ => ⟨[], trivial⟩⟩
  | cons s start ih =>
    cases count with
    | nil => cases hlen
    | cons c count =>
      rw [List.forall_mem_cons, ← ih (Nat.succ.inj hlen)]
      constructor
      case mp =>
        rintro ⟨point, h⟩
        have ⟨x, tail, _, hx, htail⟩ := mem_points_cons.mp h
        exact ⟨by omega, tail, htail⟩
      case mpr =>
        rintro ⟨hc, tail, htail⟩
        exact ⟨s :: tail, ⟨Nat.le_refl s, Nat.lt_add_of_pos_right hc⟩, htail⟩

-- The place of a point in a box that starts at `base`.
def index : List Nat → List Nat → List Nat → Nat
  | b :: base, _ :: count, x :: point => (x - b) * count.prod + index base count point
  | _, _, _                           => 0

theorem index_lt (h : point ∈ points base count) : index base count point < count.prod := by
  induction base generalizing count point with
  | nil =>
    cases count <;> cases point <;> first | exact Nat.one_pos | exact h.elim
  | cons b base ih =>
    cases count with
    | nil => exact h.elim
    | cons c count =>
      obtain ⟨x, tail, rfl, hx, htail⟩ := mem_points_cons.mp h
      have hrow : x - b + 1 ≤ c := by omega
      calc (x - b) * count.prod + index base count tail
          < (x - b) * count.prod + count.prod := Nat.add_lt_add_left (ih htail) _
        _ = (x - b + 1) * count.prod := (Nat.succ_mul _ _).symm
        _ ≤ c * count.prod := Nat.mul_le_mul_right _ hrow
        _ = (c :: count).prod := List.prod_cons.symm

theorem row_and_rest {x y i j n : Nat} (hi : i < n) (hj : j < n) (h : x * n + i = y * n + j) :
    x = y ∧ i = j := by
  have hpos : 0 < n := Nat.zero_lt_of_lt hi
  have hrow := congrArg (· / n) h
  simp only [Nat.mul_comm _ n, Nat.mul_add_div hpos, Nat.div_eq_of_lt hi, Nat.div_eq_of_lt hj,
    Nat.add_zero] at hrow
  subst hrow
  exact ⟨rfl, Nat.add_left_cancel h⟩

theorem index_injOn : Set.InjOn (index base count) (points base count) := by
  intro point hp point' hp' heq
  induction base generalizing count point point' with
  | nil =>
    cases count with
    | nil =>
      rw [points_nil] at hp hp'
      rw [hp, hp']
    | cons => cases point <;> exact hp.elim
  | cons b base ih =>
    cases count with
    | nil => exact hp.elim
    | cons c count =>
      obtain ⟨x, tail, rfl, hx, htail⟩ := mem_points_cons.mp hp
      obtain ⟨x', tail', rfl, hx', htail'⟩ := mem_points_cons.mp hp'
      have ⟨hrow, hrest⟩ := row_and_rest (index_lt htail) (index_lt htail') heq
      have hxx : x = x' := by omega
      rw [hxx, ih htail htail' hrest]

-- The points that share all but the slowest dimensions with the box follow each other: the part of
-- a box that `start` and `sub` give is one piece where its slower dimensions have a count of one, and
-- the faster ones are those of the box.
inductive Slab : List Nat → List Nat → List Nat → List Nat → Prop
  | whole : Slab [] [] [] []
  | rows {b c s k : Nat} (base count : List Nat) (hs : b ≤ s) (hlen : base.length = count.length) :
      Slab (b :: base) (c :: count) (s :: base) (k :: count)
  | single {b c s : Nat} {base count start sub : List Nat} (hs : b ≤ s)
      (h : Slab base count start sub) :
      Slab (b :: base) (c :: count) (s :: start) (1 :: sub)

theorem index_base : index base count base = 0 := by
  induction base generalizing count with
  | nil => cases count <;> rfl
  | cons b base ih =>
    cases count with
    | nil => rfl
    | cons c count => rw [index, Nat.sub_self, Nat.zero_mul, ih]

-- The whole box is one piece.
theorem index_image_box (hlen : base.length = count.length) :
    index base count '' points base count = Set.Iio count.prod := by
  induction base generalizing count with
  | nil =>
    rw [List.length_eq_zero_iff.mp hlen.symm, points_nil]
    ext i
    simp [index]
  | cons b base ih =>
    cases count with
    | nil => cases hlen
    | cons c count =>
      apply Set.Subset.antisymm
      · rintro _ ⟨point, hp, rfl⟩
        exact index_lt hp
      · intro i hi
        rw [Set.mem_Iio, List.prod_cons] at hi
        have hpos : 0 < count.prod := Nat.pos_of_ne_zero fun h0 => by
          rw [h0, Nat.mul_zero] at hi
          exact Nat.not_lt_zero _ hi
        have hrest : i % count.prod ∈ index base count '' points base count := by
          rw [ih (Nat.succ.inj hlen)]
          exact Nat.mod_lt _ hpos
        have ⟨tail, htail, hindex⟩ := hrest
        have hrow : i / count.prod < c := (Nat.div_lt_iff_lt_mul hpos).mpr hi
        refine ⟨(b + i / count.prod) :: tail, ⟨⟨Nat.le_add_right _ _, ?_⟩, htail⟩, ?_⟩
        · exact Nat.add_lt_add_left hrow b
        rw [index, Nat.add_sub_cancel_left, hindex, Nat.mul_comm]
        exact Nat.div_add_mod i count.prod

theorem index_bijOn (hlen : base.length = count.length) :
    Set.BijOn (index base count) (points base count) (Set.Iio count.prod) :=
  ⟨fun _ => index_lt, index_injOn, (index_image_box hlen).symm.subset⟩

theorem Slab.index_image (h : Slab base count start sub) :
    index base count '' points start sub =
      Set.Ico (index base count start) (index base count start + sub.prod) := by
  induction h with
  | whole =>
    rw [points_nil]
    ext i
    simp [index]
  | @rows b c s k base count hs hlen =>
    have hbox := index_image_box hlen
    simp only [Set.ext_iff, Set.mem_image, Set.mem_Iio] at hbox
    rw [index, index_base, Nat.add_zero, List.prod_cons, ← Nat.add_mul]
    ext i
    rw [Set.mem_Ico]
    constructor
    case mp =>
      rintro ⟨point, hp, rfl⟩
      obtain ⟨x, tail, rfl, hx, htail⟩ := mem_points_cons.mp hp
      have hrest := (hbox (index base count tail)).mp ⟨tail, htail, rfl⟩
      rw [index]
      constructor
      · exact Nat.le_add_right_of_le (Nat.mul_le_mul_right _ (by omega))
      · calc (x - b) * count.prod + index base count tail
            < (x - b) * count.prod + count.prod := Nat.add_lt_add_left hrest _
          _ = (x - b + 1) * count.prod := (Nat.succ_mul _ _).symm
          _ ≤ (s - b + k) * count.prod := Nat.mul_le_mul_right _ (by omega)
    case mpr =>
      rintro ⟨hlo, hhi⟩
      have hpos : 0 < count.prod := Nat.pos_of_ne_zero fun h0 => by
        rw [h0, Nat.mul_zero] at hhi
        exact Nat.not_lt_zero _ hhi
      have ⟨tail, htail, hindex⟩ := (hbox (i % count.prod)).mpr (Nat.mod_lt _ hpos)
      have hrow : s - b ≤ i / count.prod := (Nat.le_div_iff_mul_le hpos).mpr hlo
      have hrow' : i / count.prod < s - b + k := (Nat.div_lt_iff_lt_mul hpos).mpr hhi
      refine ⟨(b + i / count.prod) :: tail, ⟨⟨by omega, by omega⟩, htail⟩, ?_⟩
      rw [index, Nat.add_sub_cancel_left, hindex, Nat.mul_comm]
      exact Nat.div_add_mod i count.prod
  | @single b c s base count start sub hs h ih =>
    simp only [Set.ext_iff, Set.mem_image, Set.mem_Ico] at ih
    rw [index, List.prod_cons, Nat.one_mul]
    ext i
    rw [Set.mem_Ico]
    constructor
    case mp =>
      rintro ⟨point, hp, rfl⟩
      obtain ⟨x, tail, rfl, hx, htail⟩ := mem_points_cons.mp hp
      have hxs : x = s := by omega
      have := (ih (index base count tail)).mp ⟨tail, htail, rfl⟩
      rw [index, hxs]
      omega
    case mpr =>
      intro hi
      have ⟨tail, htail, hindex⟩ := (ih (i - (s - b) * count.prod)).mpr (by omega)
      refine ⟨s :: tail, ⟨⟨Nat.le_refl s, Nat.lt_succ_self s⟩, htail⟩, ?_⟩
      rw [index, hindex]
      omega

end RowMajor
