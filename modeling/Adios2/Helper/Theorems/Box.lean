import Adios2.Helper.Box
import Adios2.Lib.RowMajor

-- What the functions on boxes compute, for boxes with coordinates of 64 bits. The ends are inclusive,
-- and the one of a box without points lies before its start.

namespace Helper

open RowMajor

theorem getD_map_range {n d : Nat} (f : Nat → Nat) (hd : d < n) :
    ((List.range n).map f).getD d 0 = f d := by
  rw [List.getD_eq_getElem _ _ (by simpa), List.getElem_map, List.getElem_range]

structure SizedBox (n : Nat) where
  start        : Dims
  count        : Dims
  start_length : start.length = n
  count_length : count.length = n
  inRange      : ∀ d < n, start.getD d 0 < 2 ^ 64 ∧ count.getD d 0 < 2 ^ 64 ∧
    start.getD d 0 + count.getD d 0 ≤ 2 ^ 64

namespace SizedBox

variable {n : Nat} (b b₁ b₂ : SizedBox n) {d : Nat}

def s (d : Nat) : Nat := b.start.getD d 0

def c (d : Nat) : Nat := b.count.getD d 0

-- The end in a dimension, as the code has it.
def e (d : Nat) : Nat := (b.s d + b.c d + (2 ^ 64 - 1)) % 2 ^ 64

def points : Set Dims := RowMajor.points b.start b.count

def startEnd : Box := (b.start, (List.range n).map b.e)

theorem length_eq : b.start.length = b.count.length :=
  b.start_length.trans b.count_length.symm

theorem start_eq : b.start = (List.range n).map b.s := by
  apply List.ext_getElem
  · rw [List.length_map, List.length_range, b.start_length]
  · intro d hd _
    rw [List.getElem_map, List.getElem_range, s, List.getD_eq_getElem _ _ hd]

theorem count_eq : b.count = (List.range n).map b.c := by
  apply List.ext_getElem
  · rw [List.length_map, List.length_range, b.count_length]
  · intro d hd _
    rw [List.getElem_map, List.getElem_range, c, List.getD_eq_getElem _ _ hd]

theorem getElem?_start (hd : d < n) : b.start[d]? = some (b.s d) := by
  rw [start_eq, List.getElem?_map, List.getElem?_range hd]
  rfl

theorem getElem?_count (hd : d < n) : b.count[d]? = some (b.c d) := by
  rw [count_eq, List.getElem?_map, List.getElem?_range hd]
  rfl

theorem getElem?_startEnd (hd : d < n) : b.startEnd.2[d]? = some (b.e d) := by
  rw [startEnd, List.getElem?_map, List.getElem?_range hd]
  rfl

theorem s_lt (hd : d < n) : b.s d < 2 ^ 64 :=
  (b.inRange d hd).left

theorem c_lt (hd : d < n) : b.c d < 2 ^ 64 :=
  (b.inRange d hd).right.left

theorem s_add_c_le (hd : d < n) : b.s d + b.c d ≤ 2 ^ 64 :=
  (b.inRange d hd).right.right

theorem mem_points {x : Dims} :
    x ∈ b.points ↔ x.length = n ∧ ∀ d < n, b.s d ≤ x.getD d 0 ∧ x.getD d 0 < b.s d + b.c d := by
  rw [points, mem_points_iff b.length_eq, b.start_length]
  rfl

theorem points_nonempty_iff : b.points.Nonempty ↔ ∀ d < n, 0 < b.c d := by
  rw [points, RowMajor.points_nonempty_iff b.length_eq, count_eq]
  simp only [List.mem_map, List.mem_range, forall_exists_index, and_imp, forall_apply_eq_imp_iff₂]

-- The end of a box without points wraps around only at the first coordinate.
theorem e_lt_iff (hd : d < n) {x : Nat} (hx : x < 2 ^ 64) :
    b.e d < x ↔ 0 < b.s d + b.c d ∧ b.s d + b.c d ≤ x := by
  have := b.s_add_c_le hd
  unfold e
  omega

theorem e_of_pos (hd : d < n) (hc : 0 < b.c d) : b.e d = b.s d + b.c d - 1 := by
  have := b.s_add_c_le hd
  unfold e
  omega

theorem extent_eq (hd : d < n) : (b.e d + (2 ^ 64 - b.s d) + 1) % 2 ^ 64 = b.c d := by
  have := b.s_add_c_le hd
  have := b.c_lt hd
  unfold e
  omega

theorem startEndBox_eq : startEndBox b.start b.count = .ok b.startEnd := by
  have hends : ((List.range b.start.length).mapM fun d => do
      let s ← (b.start[d]?).orUndefined
      let c ← (b.count[d]?).orUndefined
      pure ((s + c + (2 ^ 64 - 1)) % 2 ^ 64) : Outcome Dims) = .ok ((List.range n).map b.e) := by
    rw [b.start_length]
    refine Outcome.mapM_eq_ok fun d hd => ?_
    rw [b.getElem?_start (List.mem_range.mp hd), b.getElem?_count (List.mem_range.mp hd)]
    rfl
  rw [startEndBox, hends]
  rfl

def bounds (d : Nat) : (Nat × Nat) × (Nat × Nat) := ((b₁.s d, b₁.e d), (b₂.s d, b₂.e d))

theorem endsAt_eq (hd : d < n) :
    endsAt b₁.start b₁.count b₂.start b₂.count d = .ok (bounds b₁ b₂ d) := by
  rw [endsAt, b₁.getElem?_start hd, b₁.getElem?_count hd, b₂.getElem?_start hd,
    b₂.getElem?_count hd]
  rfl

theorem boundsAt_eq (hd : d < n) :
    boundsAt b₁.startEnd b₂.startEnd d = .ok (bounds b₁ b₂ d) := by
  rw [boundsAt, b₁.getElem?_startEnd hd, b₂.getElem?_startEnd hd]
  rw [show b₁.startEnd.1 = b₁.start from rfl, show b₂.startEnd.1 = b₂.start from rfl]
  rw [b₁.getElem?_start hd, b₂.getElem?_start hd]
  rfl

-- In dimension `d` one of the boxes lies before the other.
def Apart (d : Nat) : Prop :=
  (0 < b₁.s d + b₁.c d ∧ b₁.s d + b₁.c d ≤ b₂.s d) ∨ (0 < b₂.s d + b₂.c d ∧ b₂.s d + b₂.c d ≤ b₁.s d)

instance : DecidablePred (Apart b₁ b₂) := fun _ => inferInstanceAs (Decidable (_ ∨ _))

theorem apart_iff (hd : d < n) :
    b₂.s d > b₁.e d ∨ b₂.e d < b₁.s d ↔ Apart b₁ b₂ d := by
  rw [gt_iff_lt, b₁.e_lt_iff hd (b₂.s_lt hd), b₂.e_lt_iff hd (b₁.s_lt hd)]
  rfl

theorem apartBy_eq {at_ : Nat → Outcome ((Nat × Nat) × (Nat × Nat))} {ds : List Nat}
    (hds : ∀ d ∈ ds, d < n) (hat : ∀ d < n, at_ d = .ok (bounds b₁ b₂ d)) :
    apartBy at_ ds = .ok (decide (∃ d ∈ ds, Apart b₁ b₂ d)) := by
  induction ds with
  | nil => simp [apartBy]
  | cons d ds ih =>
    have ⟨hd, hds⟩ := List.forall_mem_cons.mp hds
    rw [apartBy, hat d hd, Outcome.ok_bind]
    by_cases hapart : Apart b₁ b₂ d
    · simp [bounds, (apart_iff b₁ b₂ hd).mpr hapart, hapart]
    · simp [bounds, mt (apart_iff b₁ b₂ hd).mp hapart, hapart, ih hds]

theorem apart_eq_apartBy (box₁ box₂ : Box) (ds : List Nat) :
    apart box₁ box₂ ds = apartBy (boundsAt box₁ box₂) ds := by
  induction ds with
  | nil => rfl
  | cons d ds ih => simp only [apart, apartBy, ih]

def interStart (d : Nat) : Nat := if b₁.s d < b₂.s d then b₂.s d else b₁.s d

def interEnd (d : Nat) : Nat := if b₁.e d > b₂.e d then b₂.e d else b₁.e d

def interCount (d : Nat) : Nat :=
  (interEnd b₁ b₂ d + (2 ^ 64 - interStart b₁ b₂ d) + 1) % 2 ^ 64

theorem intersectionStartCount_eq :
    intersectionStartCount b₁.start b₁.count b₂.start b₂.count =
      .ok (if ∃ d < n, Apart b₁ b₂ d then ([], []) else
        ((List.range n).map (interStart b₁ b₂), (List.range n).map (interCount b₁ b₂))) := by
  unfold intersectionStartCount
  dsimp only
  rw [b₁.start_length, apartBy_eq b₁ b₂ (fun d hd => List.mem_range.mp hd)
    (fun d hd => endsAt_eq b₁ b₂ hd), Outcome.ok_bind,
    Outcome.mapM_eq_ok (g := fun d => (interStart b₁ b₂ d, interCount b₁ b₂ d))]
  · simp only [List.mem_range, decide_eq_true_eq, Outcome.ok_bind, List.map_map, Function.comp_def,
      Outcome.pure_eq, apply_ite Except.ok]
  · intro d hd
    rw [endsAt_eq b₁ b₂ (List.mem_range.mp hd)]
    rfl

theorem intersectionBox_eq :
    intersectionBox b₁.startEnd b₂.startEnd =
      .ok (if ∃ d < n, Apart b₁ b₂ d then ([], []) else
        ((List.range n).map (interStart b₁ b₂), (List.range n).map (interEnd b₁ b₂))) := by
  unfold intersectionBox
  dsimp only
  rw [show b₁.startEnd.1.length = n from b₁.start_length, apart_eq_apartBy,
    apartBy_eq b₁ b₂ (fun d hd => List.mem_range.mp hd) (fun d hd => boundsAt_eq b₁ b₂ hd),
    Outcome.ok_bind, Outcome.mapM_eq_ok (g := fun d => (interStart b₁ b₂ d, interEnd b₁ b₂ d))]
  · simp only [List.mem_range, decide_eq_true_eq, Outcome.ok_bind, List.map_map, Function.comp_def,
      Outcome.pure_eq, apply_ite Except.ok]
  · intro d hd
    rw [boundsAt_eq b₁ b₂ (List.mem_range.mp hd)]
    rfl

-- The points of a box that is given with its ends.
def endPoints (box : Box) : Set Dims :=
  {x | x.length = box.1.length ∧
    ∀ d < box.1.length, box.1.getD d 0 ≤ x.getD d 0 ∧ x.getD d 0 ≤ box.2.getD d 0}

theorem mem_endPoints {box : Box} {x : Dims} : x ∈ endPoints box ↔ x.length = box.1.length ∧
    ∀ d < box.1.length, box.1.getD d 0 ≤ x.getD d 0 ∧ x.getD d 0 ≤ box.2.getD d 0 := .rfl

-- The box has the points that are common to both, and is empty if there is none.
def IsIntersection (box : Box) (points : Set Dims) : Prop :=
  (box = ([], []) ↔ b₁.points ∩ b₂.points = ∅) ∧
    (box ≠ ([], []) → points = b₁.points ∩ b₂.points)

-- There is a dimension, and each box has a point or one lies before the other in some dimension.
def Comparable : Prop :=
  0 < n ∧ ((∀ d < n, 0 < b₁.c d ∧ 0 < b₂.c d) ∨ ∃ d < n, Apart b₁ b₂ d)

theorem mem_inter {x : Dims} : x ∈ b₁.points ∩ b₂.points ↔
    x.length = n ∧ ∀ d < n, (b₁.s d ≤ x.getD d 0 ∧ x.getD d 0 < b₁.s d + b₁.c d) ∧
      (b₂.s d ≤ x.getD d 0 ∧ x.getD d 0 < b₂.s d + b₂.c d) := by
  rw [Set.mem_inter_iff, mem_points, mem_points, and_and_and_comm, and_self]
  simp only [forall_and]

theorem inter_eq_empty_of_apart (h : ∃ d < n, Apart b₁ b₂ d) : b₁.points ∩ b₂.points = ∅ := by
  obtain ⟨d, hd, hapart⟩ := h
  refine Set.eq_empty_of_forall_notMem fun x hx => ?_
  have := ((mem_inter b₁ b₂).mp hx).right d hd
  unfold Apart at hapart
  omega

theorem inter_eq_empty_of_zero (h : ¬ ∀ d < n, 0 < b₁.c d ∧ 0 < b₂.c d) :
    b₁.points ∩ b₂.points = ∅ := by
  refine Set.eq_empty_of_forall_notMem fun x hx => h fun d hd => ?_
  have := ((mem_inter b₁ b₂).mp hx).right d hd
  omega

section Overlap

variable (hpos : ∀ d < n, 0 < b₁.c d ∧ 0 < b₂.c d) (hover : ¬ ∃ d < n, Apart b₁ b₂ d)

include hpos hover

theorem interBounds (hd : d < n) :
    interStart b₁ b₂ d = max (b₁.s d) (b₂.s d) ∧
      interEnd b₁ b₂ d + 1 = min (b₁.s d + b₁.c d) (b₂.s d + b₂.c d) ∧
      interStart b₁ b₂ d ≤ interEnd b₁ b₂ d := by
  have hapart : ¬ Apart b₁ b₂ d := fun h => hover ⟨d, hd, h⟩
  have := hpos d hd
  unfold Apart at hapart
  unfold interStart interEnd
  rw [b₁.e_of_pos hd this.left, b₂.e_of_pos hd this.right]
  split <;> split <;> omega

theorem interStart_add_interCount (hd : d < n) :
    interStart b₁ b₂ d + interCount b₁ b₂ d = interEnd b₁ b₂ d + 1 := by
  have := interBounds b₁ b₂ hpos hover hd
  have := b₁.s_add_c_le hd
  have := b₁.c_lt hd
  unfold interCount
  omega

theorem points_interCount :
    RowMajor.points ((List.range n).map (interStart b₁ b₂)) ((List.range n).map (interCount b₁ b₂)) =
      b₁.points ∩ b₂.points := by
  ext x
  rw [mem_points_iff (by simp), mem_inter, List.length_map, List.length_range]
  refine and_congr_right fun _ => forall₂_congr fun d hd => ?_
  have := interBounds b₁ b₂ hpos hover hd
  have := interStart_add_interCount b₁ b₂ hpos hover hd
  rw [getD_map_range _ hd, getD_map_range _ hd]
  omega

theorem points_interEnd :
    endPoints ((List.range n).map (interStart b₁ b₂), (List.range n).map (interEnd b₁ b₂)) =
      b₁.points ∩ b₂.points := by
  ext x
  rw [mem_endPoints, mem_inter, List.length_map, List.length_range]
  refine and_congr_right fun _ => forall₂_congr fun d hd => ?_
  have := interBounds b₁ b₂ hpos hover hd
  rw [getD_map_range _ hd, getD_map_range _ hd]
  omega

theorem inter_nonempty : (b₁.points ∩ b₂.points).Nonempty := by
  refine ⟨(List.range n).map (interStart b₁ b₂), (mem_inter b₁ b₂).mpr ⟨by simp, fun d hd => ?_⟩⟩
  have := interBounds b₁ b₂ hpos hover hd
  rw [getD_map_range _ hd]
  omega

end Overlap

-- The end is computed in two ways, which does not matter here.
theorem isIntersection_iff {second : Nat → Nat} (pointsOf : Box → Set Dims)
    (hpoints : (∀ d < n, 0 < b₁.c d ∧ 0 < b₂.c d) → (¬ ∃ d < n, Apart b₁ b₂ d) →
      pointsOf ((List.range n).map (interStart b₁ b₂), (List.range n).map second) =
        b₁.points ∩ b₂.points)
    {box : Box} (hbox : box = if ∃ d < n, Apart b₁ b₂ d then ([], []) else
      ((List.range n).map (interStart b₁ b₂), (List.range n).map second)) :
    IsIntersection b₁ b₂ box (pointsOf box) ↔ Comparable b₁ b₂ := by
  by_cases hapart : ∃ d < n, Apart b₁ b₂ d
  · have hn : 0 < n := Nat.zero_lt_of_lt hapart.choose_spec.left
    rw [if_pos hapart] at hbox
    subst hbox
    have hempty := inter_eq_empty_of_apart b₁ b₂ hapart
    exact ⟨fun _ => ⟨hn, .inr hapart⟩, fun _ =>
      ⟨⟨fun _ => hempty, fun _ => rfl⟩, fun h => absurd rfl h⟩⟩
  · rw [if_neg hapart] at hbox
    have hnil : box = ([], []) ↔ n = 0 := by
      rw [hbox, Prod.mk.injEq, List.map_eq_nil_iff, List.map_eq_nil_iff, List.range_eq_nil, and_self]
    constructor
    case mp =>
      rintro ⟨hempty, _⟩
      by_cases hpos : ∀ d < n, 0 < b₁.c d ∧ 0 < b₂.c d
      · refine ⟨Nat.pos_of_ne_zero fun hn => ?_, .inl hpos⟩
        have hinter := hempty.mp (hnil.mpr hn)
        exact (inter_nonempty b₁ b₂ hpos hapart).ne_empty hinter
      · have hn := hnil.mp (hempty.mpr (inter_eq_empty_of_zero b₁ b₂ hpos))
        subst hn
        exact absurd (fun d hd => absurd hd (Nat.not_lt_zero d)) hpos
    case mpr =>
      rintro ⟨hn, hpos | h⟩
      · have hne := (inter_nonempty b₁ b₂ hpos hapart).ne_empty
        refine ⟨⟨fun h => absurd (hnil.mp h) (Nat.ne_of_gt hn), fun h => absurd h hne⟩, fun _ => ?_⟩
        rw [hbox]
        exact hpoints hpos hapart
      · exact absurd h hapart

end SizedBox

-- From the slowest dimension on.
def ordered {α} (isRowMajor : Bool) (l : List α) : List α :=
  if isRowMajor then l else l.reverse

section Ordered

variable {α β : Type} {rm : Bool} {l : List α}

theorem ordered_ordered (rm : Bool) (l : List α) : ordered rm (ordered rm l) = l := by
  cases rm
  · exact List.reverse_reverse l
  · rfl

theorem ordered_map (f : α → β) : ordered rm (l.map f) = (ordered rm l).map f := by
  cases rm
  · exact List.map_reverse.symm
  · rfl

theorem mem_ordered {a : α} : a ∈ ordered rm l ↔ a ∈ l := by
  cases rm
  · exact List.mem_reverse
  · exact .rfl

theorem prod_ordered (rm : Bool) {l : List Nat} : (ordered rm l).prod = l.prod := by
  cases rm
  · exact (List.reverse_perm l).prod_eq
  · rfl

end Ordered

theorem map_mem_points {s c x : Nat → Nat} {ds : List Nat} :
    ds.map x ∈ points (ds.map s) (ds.map c) ↔ ∀ d ∈ ds, s d ≤ x d ∧ x d < s d + c d := by
  induction ds with
  | nil => simp
  | cons d ds ih =>
    simp only [List.map_cons, cons_mem_points, ih, List.forall_mem_cons]

section LinearIndex

variable {count : Nat → Nat → Nat}

theorem linearIndexLoop_concat {start second point : Dims} (hstart : start.length = point.length)
    (hsecond : second.length = point.length) (s c x : Nat) (acc : Nat × Nat) :
    linearIndexLoop count (start ++ [s]) (second ++ [c]) (point ++ [x]) acc =
      linearIndexLoop count start second point acc >>= fun (linearIndex, product) =>
        .ok ((linearIndex + (x + (2 ^ 64 - s)) % 2 ^ 64 * product) % 2 ^ 64,
          product * count s c % 2 ^ 64) := by
  induction point generalizing start second acc with
  | nil =>
    rw [List.length_eq_zero_iff.mp hstart, List.length_eq_zero_iff.mp hsecond]
    rfl
  | cons y point ih =>
    cases start with
    | nil => cases hstart
    | cons t start =>
      cases second with
      | nil => cases hsecond
      | cons d second => exact ih (Nat.succ.inj hstart) (Nat.succ.inj hsecond) _

-- One step of the loop, with the numbers that it would have without a bound.
theorem linearIndex_step {s x : Nat} (hx : s ≤ x) (hlt : x < 2 ^ 64) (i p : Nat) :
    (i % 2 ^ 64 + (x + (2 ^ 64 - s)) % 2 ^ 64 * (p % 2 ^ 64)) % 2 ^ 64 =
      ((x - s) * p + i) % 2 ^ 64 := by
  have hoffset : (x + (2 ^ 64 - s)) % 2 ^ 64 = x - s := by omega
  rw [hoffset, Nat.add_comm]
  exact Nat.ModEq.add (Nat.ModEq.mul_left _ (Nat.mod_modEq _ _)) (Nat.mod_modEq _ _)

theorem linearIndexLoop_reverse {s second c x : Nat → Nat} (ds : List Nat)
    (hcount : ∀ d ∈ ds, count (s d) (second d) = c d)
    (hx : ∀ d ∈ ds, s d ≤ x d ∧ x d < s d + c d) (hfits : ∀ d ∈ ds, s d + c d ≤ 2 ^ 64) :
    linearIndexLoop count (ds.map s).reverse (ds.map second).reverse (ds.map x).reverse (0, 1) =
      .ok (index (ds.map s) (ds.map c) (ds.map x) % 2 ^ 64, (ds.map c).prod % 2 ^ 64) := by
  induction ds with
  | nil => rfl
  | cons d ds ih =>
    have ⟨hc, hcount⟩ := List.forall_mem_cons.mp hcount
    have ⟨hxd, hx⟩ := List.forall_mem_cons.mp hx
    have ⟨hf, hfits⟩ := List.forall_mem_cons.mp hfits
    have hlt : x d < 2 ^ 64 := Nat.lt_of_lt_of_le hxd.right hf
    simp only [List.map_cons, List.reverse_cons]
    rw [linearIndexLoop_concat (by simp) (by simp), ih hcount hx hfits, Outcome.ok_bind]
    dsimp only
    rw [linearIndex_step hxd.left hlt, hc, index, List.prod_cons, Nat.mod_mul_mod, Nat.mul_comm (c d)]

-- In both orders the loop goes through the dimensions from the fastest one on.
theorem linearIndexBy_eq {s second c x : Nat → Nat} {ds : List Nat} (rm : Bool)
    (hcount : ∀ d ∈ ds, count (s d) (second d) = c d)
    (hx : ∀ d ∈ ds, s d ≤ x d ∧ x d < s d + c d) (hfits : ∀ d ∈ ds, s d + c d ≤ 2 ^ 64) :
    linearIndexBy count (ds.map s) (ds.map second) (ds.map x) rm =
      .ok (index ((ordered rm ds).map s) ((ordered rm ds).map c) ((ordered rm ds).map x) %
        2 ^ 64) := by
  have hloop := linearIndexLoop_reverse (ordered rm ds)
    (fun d hd => hcount d (mem_ordered.mp hd)) (fun d hd => hx d (mem_ordered.mp hd))
    (fun d hd => hfits d (mem_ordered.mp hd))
  cases rm with
  | true =>
    have hback (f : Nat → Nat) : ((ordered true ds).map f).reverse = (ds.map f).reverse := rfl
    rw [hback s, hback second, hback x] at hloop
    rw [linearIndexBy, if_pos rfl, hloop]
    rfl
  | false =>
    have hback (f : Nat → Nat) : ((ordered false ds).map f).reverse = ds.map f := by
      rw [ordered, if_neg Bool.false_ne_true, List.map_reverse, List.reverse_reverse]
    rw [hback s, hback second, hback x] at hloop
    rw [linearIndexBy, if_neg Bool.false_ne_true, hloop]
    rfl

end LinearIndex

namespace SizedBox

variable {n : Nat} (b b₁ b₂ : SizedBox n) {d : Nat} {rm : Bool}

-- The place of a point among those of the box.
def place (rm : Bool) (x : Dims) : Nat :=
  index (ordered rm b.start) (ordered rm b.count) (ordered rm x)

theorem map_getD {x : Dims} (hx : x.length = n) : (List.range n).map (x.getD · 0) = x := by
  apply List.ext_getElem
  · rw [List.length_map, List.length_range, hx]
  · intro d _ hd
    rw [List.getElem_map, List.getElem_range, List.getD_eq_getElem _ _ hd]

theorem place_eq {x : Dims} (hx : x.length = n) :
    b.place rm x = index ((ordered rm (List.range n)).map b.s) ((ordered rm (List.range n)).map b.c)
      ((ordered rm (List.range n)).map (x.getD · 0)) := by
  rw [place, start_eq, count_eq]
  conv_lhs => rw [← map_getD hx]
  simp only [ordered_map]

theorem linearIndexBy_place (rm : Bool) {count : Nat → Nat → Nat} {second : Nat → Nat}
    (hcount : ∀ d < n, count (b.s d) (second d) = b.c d) {x : Dims} (hx : x ∈ b.points) :
    linearIndexBy count b.start ((List.range n).map second) x rm =
      .ok (b.place rm x % 2 ^ 64) := by
  have ⟨hlen, hin⟩ := b.mem_points.mp hx
  have hmap := linearIndexBy_eq rm (fun d hd => hcount d (List.mem_range.mp hd))
    (fun d hd => hin d (List.mem_range.mp hd)) (fun d hd => b.s_add_c_le (List.mem_range.mp hd))
  rwa [← start_eq, map_getD hlen, ← b.place_eq hlen] at hmap

theorem linearIndex_eq {x : Dims} (hx : x ∈ b.points) :
    linearIndex b.start b.count x rm = .ok (b.place rm x % 2 ^ 64) := by
  have h : linearIndexBy (fun _ c => c) b.start ((List.range n).map b.c) x rm = _ :=
    b.linearIndexBy_place rm (fun _ _ => rfl) hx
  rwa [← count_eq] at h

theorem linearIndexInBox_eq {x : Dims} (hx : x ∈ b.points) :
    linearIndexInBox b.startEnd x rm = .ok (b.place rm x % 2 ^ 64) :=
  b.linearIndexBy_place rm (fun _ hd => b.extent_eq hd) hx

theorem ordered_mem_points (rm : Bool) {s c : Nat → Nat} {x : Dims} (hx : x.length = n) :
    ordered rm x ∈ RowMajor.points ((ordered rm (List.range n)).map s)
        ((ordered rm (List.range n)).map c) ↔
      x ∈ RowMajor.points ((List.range n).map s) ((List.range n).map c) := by
  conv_lhs => rw [← map_getD hx]
  conv_rhs => rw [← map_getD hx]
  rw [ordered_map, map_mem_points, map_mem_points]
  simp only [mem_ordered]

-- Reordering is a bijection between the points of a box and those of the reordered one.
theorem ordered_image_points {s c : Nat → Nat} :
    ordered rm '' RowMajor.points ((List.range n).map s) ((List.range n).map c) =
      RowMajor.points ((ordered rm (List.range n)).map s)
        ((ordered rm (List.range n)).map c) := by
  ext x
  constructor
  case mp =>
    rintro ⟨x, hx, rfl⟩
    have hlen := (length_of_mem_points hx).left.symm
    rw [List.length_map, List.length_range] at hlen
    exact (ordered_mem_points rm hlen).mpr hx
  case mpr =>
    intro hx
    have hlen := (length_of_mem_points hx).left.symm
    have hlen' : (ordered rm x).length = n := by
      cases rm <;> simpa [ordered] using hlen
    refine ⟨ordered rm x, ?_, ordered_ordered rm x⟩
    rwa [← ordered_mem_points rm hlen', ordered_ordered]

theorem place_bijOn : Set.BijOn (b.place rm) b.points (Set.Iio b.count.prod) := by
  have hindex : Set.BijOn (index ((ordered rm (List.range n)).map b.s)
      ((ordered rm (List.range n)).map b.c)) _ _ := index_bijOn (by simp)
  have hpoints : b.points = RowMajor.points ((List.range n).map b.s) ((List.range n).map b.c) := by
    rw [points, ← start_eq, ← count_eq]
  have hordered : Set.BijOn (ordered rm) b.points
      (RowMajor.points ((ordered rm (List.range n)).map b.s)
        ((ordered rm (List.range n)).map b.c)) := by
    rw [← ordered_image_points, hpoints]
    refine Set.InjOn.bijOn_image fun x _ y _ h => ?_
    rw [← ordered_ordered rm x, h, ordered_ordered]
  have hprod : ((ordered rm (List.range n)).map b.c).prod = b.count.prod := by
    rw [← ordered_map, prod_ordered, ← count_eq]
  rw [hprod, ← ordered_map, ← ordered_map, ← start_eq, ← count_eq] at hindex
  rw [← ordered_map, ← ordered_map, ← start_eq, ← count_eq] at hordered
  exact hindex.comp hordered

-- The slowest dimension, and the others in increasing order.
def slowest (n : Nat) (rm : Bool) : Nat × List Nat :=
  if rm then (0, List.range' 1 (n - 1)) else (n - 1, List.range (n - 1))

theorem ordered_range (hn : 0 < n) :
    ordered rm (List.range n) = (slowest n rm).1 :: ordered rm (slowest n rm).2 := by
  obtain ⟨m, rfl⟩ : ∃ m, n = m + 1 := ⟨n - 1, by omega⟩
  cases rm with
  | true =>
    change List.range (m + 1) = 0 :: List.range' 1 (m + 1 - 1)
    rw [List.range_eq_range', List.range'_succ, Nat.add_sub_cancel, Nat.zero_add]
  | false =>
    change (List.range (m + 1)).reverse = (m + 1 - 1) :: (List.range (m + 1 - 1)).reverse
    rw [List.range_succ, List.reverse_concat, Nat.add_sub_cancel]

theorem slowest_lt (rm : Bool) (hn : 0 < n) : (slowest n rm).1 < n ∧ ∀ d ∈ (slowest n rm).2, d < n := by
  have hall : ∀ d ∈ ordered rm (List.range n), d < n :=
    fun d hd => List.mem_range.mp (mem_ordered.mp hd)
  rw [ordered_range hn] at hall
  have ⟨hfirst, hrest⟩ := List.forall_mem_cons.mp hall
  exact ⟨hfirst, fun d hd => hrest d (mem_ordered.mpr hd)⟩

def inter : Box := ((List.range n).map (interStart b₁ b₂), (List.range n).map (interEnd b₁ b₂))

theorem boundsAt_inter (hd : d < n) : boundsAt b₁.startEnd (inter b₁ b₂) d =
    .ok ((b₁.s d, b₁.e d), (interStart b₁ b₂ d, interEnd b₁ b₂ d)) := by
  have hget (f : Nat → Nat) : ((List.range n).map f)[d]? = some (f d) := by
    rw [List.getElem?_map, List.getElem?_range hd]
    rfl
  have hstart : b₁.startEnd.1[d]? = some (b₁.s d) := b₁.getElem?_start hd
  rw [boundsAt, b₁.getElem?_startEnd hd, hstart]
  simp only [inter, hget]
  rfl

theorem sameExtents_eq {ds : List Nat} (hds : ∀ d ∈ ds, d < n) (k : Nat) :
    ∃ r, sameExtents b₁.startEnd (inter b₁ b₂) ds k = .ok r ∧ ∀ m, r = some m →
      (∀ d ∈ ds, interStart b₁ b₂ d = b₁.s d ∧ interEnd b₁ b₂ d = b₁.e d) ∧
        m ≡ k * (ds.map b₁.c).prod [MOD 2 ^ 64] := by
  induction ds generalizing k with
  | nil =>
    refine ⟨some k, rfl, fun m hm => ⟨fun d hd => absurd hd List.not_mem_nil, ?_⟩⟩
    rw [← Option.some.inj hm, List.map_nil, List.prod_nil, Nat.mul_one]
  | cons d ds ih =>
    have ⟨hd, hds⟩ := List.forall_mem_cons.mp hds
    rw [sameExtents, boundsAt_inter b₁ b₂ hd, Outcome.ok_bind]
    dsimp only
    by_cases hne : b₁.s d ≠ interStart b₁ b₂ d ∨ b₁.e d ≠ interEnd b₁ b₂ d
    · rw [if_pos hne]
      exact ⟨none, rfl, fun m hm => by cases hm⟩
    · rw [if_neg hne, b₁.extent_eq hd]
      obtain ⟨hs, he⟩ := not_or.mp hne
      have ⟨r, hr, hsome⟩ := ih hds (k * b₁.c d % 2 ^ 64)
      refine ⟨r, hr, fun m hm => ?_⟩
      have ⟨hsame, hm⟩ := hsome m hm
      refine ⟨List.forall_mem_cons.mpr ⟨⟨(not_not.mp hs).symm, (not_not.mp he).symm⟩, hsame⟩, ?_⟩
      rw [List.map_cons, List.prod_cons, ← Nat.mul_assoc]
      exact hm.trans (Nat.ModEq.mul_right _ (Nat.mod_modEq _ _))

-- A part of the box that differs from it in the slowest dimension only is one piece.
theorem place_image (hn : 0 < n) (hpos : ∀ d < n, 0 < b₁.c d ∧ 0 < b₂.c d)
    (hover : ¬ ∃ d < n, Apart b₁ b₂ d)
    (hsame : ∀ d ∈ (slowest n rm).2, interStart b₁ b₂ d = b₁.s d ∧ interEnd b₁ b₂ d = b₁.e d) :
    ∃ k, b₁.place rm '' (b₁.points ∩ b₂.points) =
      let first := (slowest n rm).1
      let startOffset := (interStart b₁ b₂ first - b₁.s first) *
        ((slowest n rm).2.map b₁.c).prod
      Set.Ico startOffset (startOffset + k) := by
  have ⟨hfirst, hrest⟩ := slowest_lt rm hn
  have hcount : ∀ d ∈ (slowest n rm).2, interCount b₁ b₂ d = b₁.c d := fun d hd => by
    rw [interCount, (hsame d hd).left, (hsame d hd).right, b₁.extent_eq (hrest d hd)]
  have hslab : Slab ((ordered rm (List.range n)).map b₁.s) ((ordered rm (List.range n)).map b₁.c)
      ((ordered rm (List.range n)).map (interStart b₁ b₂))
      ((ordered rm (List.range n)).map (interCount b₁ b₂)) := by
    have hstarts : (ordered rm (slowest n rm).2).map (interStart b₁ b₂) =
        (ordered rm (slowest n rm).2).map b₁.s :=
      List.map_congr_left fun d hd => (hsame d (mem_ordered.mp hd)).left
    have hcounts : (ordered rm (slowest n rm).2).map (interCount b₁ b₂) =
        (ordered rm (slowest n rm).2).map b₁.c :=
      List.map_congr_left fun d hd => hcount d (mem_ordered.mp hd)
    have hle : b₁.s (slowest n rm).1 ≤ interStart b₁ b₂ (slowest n rm).1 := by
      have := (interBounds b₁ b₂ hpos hover hfirst).left
      omega
    rw [ordered_range hn, List.map_cons, List.map_cons, List.map_cons, List.map_cons, hstarts,
      hcounts]
    exact .rows _ _ hle (by simp)
  have himage := hslab.index_image
  refine ⟨((ordered rm (List.range n)).map (interCount b₁ b₂)).prod, ?_⟩
  have hplace : b₁.place rm '' (b₁.points ∩ b₂.points) =
      index ((ordered rm (List.range n)).map b₁.s) ((ordered rm (List.range n)).map b₁.c) ''
        RowMajor.points ((ordered rm (List.range n)).map (interStart b₁ b₂))
          ((ordered rm (List.range n)).map (interCount b₁ b₂)) := by
    rw [← points_interCount b₁ b₂ hpos hover, ← ordered_image_points, Set.image_image,
      ← ordered_map, ← ordered_map, ← start_eq, ← count_eq]
    rfl
  have hfirstPlace : index ((ordered rm (List.range n)).map b₁.s)
      ((ordered rm (List.range n)).map b₁.c)
      ((ordered rm (List.range n)).map (interStart b₁ b₂)) =
      (interStart b₁ b₂ (slowest n rm).1 - b₁.s (slowest n rm).1) *
        ((slowest n rm).2.map b₁.c).prod := by
    have hstarts : (ordered rm (slowest n rm).2).map (interStart b₁ b₂) =
        (ordered rm (slowest n rm).2).map b₁.s :=
      List.map_congr_left fun d hd => (hsame d (mem_ordered.mp hd)).left
    rw [ordered_range hn, List.map_cons, List.map_cons, List.map_cons, hstarts, index, index_base,
      Nat.add_zero, ← ordered_map, prod_ordered]
  rw [hplace, himage, hfirstPlace]

theorem isIntersectionContiguousSubarray_eq (hn : 0 < n)
    (hpos : ∀ d < n, 0 < b₁.c d ∧ 0 < b₂.c d) (hover : ¬ ∃ d < n, Apart b₁ b₂ d)
    (hvolume : b₁.count.prod ≤ 2 ^ 64) (rm : Bool) :
    ∃ r, isIntersectionContiguousSubarray b₁.startEnd (inter b₁ b₂) rm = .ok r ∧
      ∀ startOffset, r = some startOffset →
        ∃ k, b₁.place rm '' (b₁.points ∩ b₂.points) =
          Set.Ico startOffset (startOffset + k) := by
  have ⟨hfirst, hrest⟩ := slowest_lt rm hn
  have ⟨r, hr, hsome⟩ := sameExtents_eq b₁ b₂ hrest 1
  have hlen : b₁.startEnd.1.length = n := b₁.start_length
  have hslowest : (if rm = true then (0, List.range' 1 (n - 1)) else
      (n - 1, List.range (n - 1))) = slowest n rm := rfl
  have hs : b₁.startEnd.1[(slowest n rm).1]? = some (b₁.s (slowest n rm).1) :=
    b₁.getElem?_start hfirst
  have hi : (inter b₁ b₂).1[(slowest n rm).1]? = some (interStart b₁ b₂ (slowest n rm).1) := by
    rw [inter, List.getElem?_map, List.getElem?_range hfirst]
    rfl
  unfold isIntersectionContiguousSubarray
  dsimp only
  rw [hlen, if_neg (Nat.ne_of_gt hn), hslowest, hr, Outcome.ok_bind]
  cases r with
  | none => exact ⟨none, rfl, fun _ h => by cases h⟩
  | some m =>
    rw [hs, hi]
    refine ⟨_, rfl, fun startOffset hoffset => ?_⟩
    have ⟨hsame, hm⟩ := hsome m rfl
    have ⟨k, himage⟩ := place_image b₁ b₂ hn hpos hover hsame
    refine ⟨k, ?_⟩
    rw [himage, ← Option.some.inj hoffset]
    have hbounds := interBounds b₁ b₂ hpos hover hfirst
    have hfits := b₁.s_add_c_le hfirst
    -- The offset is the place of a point of the box.
    have hlt : (interStart b₁ b₂ (slowest n rm).1 - b₁.s (slowest n rm).1) *
        ((slowest n rm).2.map b₁.c).prod < 2 ^ 64 := by
      have hprod : b₁.count.prod =
          b₁.c (slowest n rm).1 * ((slowest n rm).2.map b₁.c).prod := by
        rw [← prod_ordered rm, count_eq, ordered_map, ordered_range hn, List.map_cons,
          List.prod_cons, ← ordered_map, prod_ordered]
      have hrestPos : 0 < ((slowest n rm).2.map b₁.c).prod := by
        refine List.prod_pos fun c hc => ?_
        have ⟨d, hd, hcd⟩ := List.mem_map.mp hc
        exact hcd ▸ (hpos d (hrest d hd)).left
      refine Nat.lt_of_lt_of_le ?_ (hprod ▸ hvolume)
      exact Nat.mul_lt_mul_of_pos_right (by omega) hrestPos
    have hoff : (interStart b₁ b₂ (slowest n rm).1 + (2 ^ 64 - b₁.s (slowest n rm).1)) % 2 ^ 64 *
        m % 2 ^ 64 = (interStart b₁ b₂ (slowest n rm).1 - b₁.s (slowest n rm).1) *
          ((slowest n rm).2.map b₁.c).prod := by
      have hdiff : (interStart b₁ b₂ (slowest n rm).1 + (2 ^ 64 - b₁.s (slowest n rm).1)) %
          2 ^ 64 = interStart b₁ b₂ (slowest n rm).1 - b₁.s (slowest n rm).1 := by
        omega
      rw [hdiff, ← Nat.mod_eq_of_lt hlt]
      rw [Nat.one_mul] at hm
      exact Nat.ModEq.mul_left _ hm
    rw [hoff]

-- What is expected of the functions for two boxes, `box₁` and `box₂` with their ends.
structure BoxArithmetic (box₁ box₂ : Box) : Prop where
  startCount : ∃ box, intersectionStartCount b₁.start b₁.count b₂.start b₂.count = .ok box ∧
    IsIntersection b₁ b₂ box (RowMajor.points box.1 box.2)
  startEnd   : ∃ box, intersectionBox box₁ box₂ = .ok box ∧
    IsIntersection b₁ b₂ box (endPoints box)
  place      : ∀ isRowMajor, ∃ place : Dims → Nat,
    (∀ point ∈ b₁.points, linearIndex b₁.start b₁.count point isRowMajor = .ok (place point) ∧
      linearIndexInBox box₁ point isRowMajor = .ok (place point)) ∧
    Set.BijOn place b₁.points (Set.Iio b₁.count.prod)
  contiguous : ∀ isRowMajor box, intersectionBox box₁ box₂ = .ok box → box ≠ ([], []) →
    ∃ r, isIntersectionContiguousSubarray box₁ box isRowMajor = .ok r ∧
      ∀ startOffset, r = some startOffset →
        ∃ k, {i | ∃ point ∈ b₁.points ∩ b₂.points,
          linearIndex b₁.start b₁.count point isRowMajor = .ok i} =
            Set.Ico startOffset (startOffset + k)

variable {b₁ b₂} in
theorem BoxArithmetic.prod_le {box₁ box₂ : Box} (h : BoxArithmetic b₁ b₂ box₁ box₂) :
    b₁.count.prod ≤ 2 ^ 64 := by
  obtain ⟨place, hplace, hbij⟩ := h.place true
  by_contra hlarge
  obtain ⟨point, hpoint, hlast⟩ := hbij.surjOn (Nat.lt_of_not_le hlarge)
  have hindex := (hplace point hpoint).left
  rw [b₁.linearIndex_eq hpoint, hlast] at hindex
  have := Except.ok.inj hindex
  omega

theorem place_bijective (hvolume : b.count.prod ≤ 2 ^ 64) (rm : Bool) :
    (∀ point ∈ b.points, linearIndex b.start b.count point rm = .ok (b.place rm point) ∧
      linearIndexInBox b.startEnd point rm = .ok (b.place rm point)) ∧
    Set.BijOn (b.place rm) b.points (Set.Iio b.count.prod) := by
  refine ⟨fun point hpoint => ?_, b.place_bijOn⟩
  have hlt : b.place rm point < 2 ^ 64 :=
    Nat.lt_of_lt_of_le (b.place_bijOn.mapsTo hpoint) hvolume
  rw [b.linearIndex_eq hpoint, b.linearIndexInBox_eq hpoint, Nat.mod_eq_of_lt hlt]
  exact ⟨rfl, rfl⟩

-- Boxes are compared, and their points are counted, as expected, exactly if there is a dimension, no
-- box without points gets between the coordinates of the other in all dimensions, and the number of
-- the points of the first one fits into 64 bits.
theorem boxArithmetic_iff : ∃ box₁ box₂,
    startEndBox b₁.start b₁.count = .ok box₁ ∧ startEndBox b₂.start b₂.count = .ok box₂ ∧
      (BoxArithmetic b₁ b₂ box₁ box₂ ↔ Comparable b₁ b₂ ∧ b₁.count.prod ≤ 2 ^ 64) := by
  refine ⟨_, _, b₁.startEndBox_eq, b₂.startEndBox_eq, ?_⟩
  have hstartCount := isIntersection_iff b₁ b₂ (fun box => RowMajor.points box.1 box.2)
    (points_interCount b₁ b₂) rfl
  have hstartEnd := isIntersection_iff b₁ b₂ endPoints (points_interEnd b₁ b₂) rfl
  constructor
  case mp =>
    intro h
    obtain ⟨box, hbox, hinter⟩ := h.startCount
    rw [← Except.ok.inj ((intersectionStartCount_eq b₁ b₂).symm.trans hbox)] at hinter
    exact ⟨hstartCount.mp hinter, h.prod_le⟩
  case mpr =>
    rintro ⟨hcomp, hvolume⟩
    refine ⟨⟨_, intersectionStartCount_eq b₁ b₂, hstartCount.mpr hcomp⟩,
      ⟨_, intersectionBox_eq b₁ b₂, hstartEnd.mpr hcomp⟩,
      fun rm => ⟨b₁.place rm, b₁.place_bijective hvolume rm⟩, fun rm box hbox hne => ?_⟩
    rw [intersectionBox_eq] at hbox
    have hbox := Except.ok.inj hbox
    have hover : ¬ ∃ d < n, Apart b₁ b₂ d := fun hapart => by
      rw [if_pos hapart] at hbox
      exact hne hbox.symm
    rw [if_neg hover] at hbox
    subst hbox
    have hpos := hcomp.right.resolve_right hover
    have ⟨r, hr, hsome⟩ :=
      isIntersectionContiguousSubarray_eq b₁ b₂ hcomp.left hpos hover hvolume rm
    refine ⟨r, hr, fun startOffset hoffset => ?_⟩
    have ⟨k, himage⟩ := hsome startOffset hoffset
    refine ⟨k, himage ▸ ?_⟩
    have hindex := (b₁.place_bijective hvolume rm).left
    ext i
    constructor
    case mp =>
      rintro ⟨point, hpoint, hi⟩
      rw [(hindex point hpoint.left).left] at hi
      exact ⟨point, hpoint, Except.ok.inj hi⟩
    case mpr =>
      rintro ⟨point, hpoint, rfl⟩
      exact ⟨point, hpoint, (hindex point hpoint.left).left⟩

def noPoints : SizedBox 1 where
  start        := [0]
  count        := [0]
  start_length := rfl
  count_length := rfl
  inRange      := by decide

def tenPoints : SizedBox 1 where
  start        := [0]
  count        := [10]
  start_length := rfl
  count_length := rfl
  inRange      := by decide

-- The end of the box without points is the last number of 64 bits.
theorem not_boxArithmetic_noPoints :
    ¬ BoxArithmetic noPoints tenPoints noPoints.startEnd tenPoints.startEnd := by
  intro h
  obtain ⟨box, hbox, hinter⟩ := h.startCount
  have hten : intersectionStartCount [0] [0] [0] [10] = .ok ([0], [10]) := rfl
  have hnone : noPoints.points ∩ tenPoints.points = ∅ :=
    inter_eq_empty_of_zero _ _ fun h => Nat.lt_irrefl 0 (h 0 Nat.one_pos).left
  rw [← Except.ok.inj (hten.symm.trans hbox)] at hinter
  cases hinter.left.mpr hnone

end SizedBox

end Helper
