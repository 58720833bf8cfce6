import Mathlib.Algebra.CharZero.Defs
import Mathlib.Algebra.Order.Field.Rat
import Adios2.Lib.VectorFields
import Adios2.Toolkit.Derived.Function

-- The operators on vectors and what they stand for: sums, lengths and curls that do not depend on the
-- layout of the field, vector products, and curls from differences.

namespace Derived

open Helper VectorFields

section Counts

theorem int32_mul (acc : Int) (n : Nat) : int32 (sizeT acc * n % 2 ^ 64) = int32 (acc * n) := by
  have hcast : (sizeT acc : Int) = acc % 2 ^ 64 := Int.toNat_of_nonneg (by omega)
  have hmod : ∀ x : Int, int32 (x % 2 ^ 64) = int32 x := fun x => by
    rw [int32, int32, ← Int.emod_bmod x, ← Int.emod_bmod (x % 2 ^ 64)]
    congr 1
    exact Int.emod_emod_of_dvd x (by decide)
  rw [hmod, hcast, int32, int32, ← Int.emod_bmod, ← Int.emod_bmod (acc * n), Int.mul_emod,
    Int.emod_emod_of_dvd acc (by decide), ← Int.mul_emod]

theorem int32_int32_mul (a b : Int) : int32 (int32 a * b) = int32 (a * b) := Int.bmod_mul_bmod

theorem accumulate_eq (a b c : Nat) : accumulate [a, b, c] = sizeT (int32 (a * b * c : Nat)) := by
  rw [accumulate, List.foldl_cons, List.foldl_cons, List.foldl_cons, List.foldl_nil, int32_mul,
    int32_mul, int32_mul, one_mul, int32_int32_mul, Int.mul_assoc, int32_int32_mul]
  push_cast
  rw [Int.mul_assoc]

-- The product of the extents is what it is up to the largest `int`.
theorem accumulate_eq_iff {a b c : Nat} (h : 3 * (a * b * c) < 2 ^ 64) :
    accumulate [a, b, c] = a * b * c ↔ a * b * c < 2 ^ 31 := by
  rw [accumulate_eq]
  generalize a * b * c = n at h
  rw [sizeT, int32, Int.bmod]
  split <;> omega

theorem int32_of_lt {n : Nat} (h : n < 2 ^ 31) : (int32 n).toNat = n := by
  rw [int32, Int.bmod]
  split <;> omega

end Counts

variable {K : Type} [Field K] [DecidableEq K]

section Loads

variable {n i : Nat}

omit [Field K] [DecidableEq K] in
theorem load_map {f : Nat → K} (h : i < n) : load ((List.range n).map f) i = .ok (f i) := by
  simp [load, h]

omit [DecidableEq K] in
theorem foldlM_three (f : VectorField K) {p : Nat} (hp : p < n) (op : K → K → K) :
    (List.range 3).foldlM (fun out v => return op out (← load (f.interleave n) (3 * p + v))) 0 =
      (.ok (op (op (op 0 (f.x p)) (f.y p)) (f.z p)) : Outcome K) := by
  have ⟨hx, hy, hz⟩ := f.at'_three p
  have hrange : List.range 3 = [0, 1, 2] := rfl
  rw [hrange]
  simp only [List.foldlM_cons, List.foldlM_nil, VectorField.interleave, Nat.add_zero]
  rw [load_map (by omega), load_map (by omega), load_map (by omega), hx, hy, hz]
  rfl

end Loads

-- A component of a field in an array of its own, and all components in one array.
def component (n : Nat × Nat × Nat) (f : Nat → K) : Block K where
  values := (List.range (n.1 * n.2.1 * n.2.2)).map f
  start  := [0, 0, 0]
  count  := [n.1, n.2.1, n.2.2]
  type   := .double

def interleaved (n : Nat × Nat × Nat) (f : VectorField K) : Block K where
  values := f.interleave (n.1 * n.2.1 * n.2.2)
  start  := [0, 0, 0, 0]
  count  := [n.1, n.2.1, n.2.2, 3]
  type   := .double

def components (n : Nat × Nat × Nat) (f : VectorField K) : List (Block K) :=
  [component n f.x, component n f.y, component n f.z]

section Pointwise

variable {n : Nat × Nat × Nat} {f g : VectorField K}

omit [DecidableEq K] in
theorem aggregated_ok (op : K → K → K) (h : accumulate [n.1, n.2.1, n.2.2] = n.1 * n.2.1 * n.2.2) :
    aggregated (interleaved n f) op = .ok ((List.range (n.1 * n.2.1 * n.2.2)).map fun p =>
      op (op (op 0 (f.x p)) (f.y p)) (f.z p)) := by
  show aggregateOnLastDim _ (accumulate [n.1, n.2.1, n.2.2]) 3 op = _
  rw [h]
  exact Outcome.mapM_eq_ok fun p hp => foldlM_three f (List.mem_range.mp hp) op

omit [DecidableEq K] in
-- The number of results tells whether the product of the extents was right.
theorem aggregated_length {op : K → K → K} {l : List K}
    (h : aggregated (interleaved n f) op = .ok l) :
    l.length = accumulate [n.1, n.2.1, n.2.2] := by
  have hspec := Outcome.mapM_eq_ok_iff.mp h
  rw [← hspec.length_eq, List.length_range]
  rfl

omit [DecidableEq K] in
theorem addFunc_components : addFunc (components n f) (n.1 * n.2.1 * n.2.2) =
    .ok ((List.range (n.1 * n.2.1 * n.2.2)).map fun p => f.x p + f.y p + f.z p) := by
  have hfirst : doAdd (component n f.x) (component n f.y) (n.1 * n.2.1 * n.2.2) =
      .ok ((List.range (n.1 * n.2.1 * n.2.2)).map fun p => f.x p + f.y p) := by
    refine Outcome.mapM_eq_ok fun p hp => ?_
    have hp := List.mem_range.mp hp
    simp [operandAt, component, load_map hp]
  rw [components, addFunc, hfirst, Outcome.ok_bind, List.foldlM_cons]
  refine Outcome.bind_eq_ok.mpr ⟨_, Outcome.mapM_eq_ok (g := fun p => f.x p + f.y p + f.z p)
    fun p hp => ?_, rfl⟩
  have hp := List.mem_range.mp hp
  simp [operandAt, component, load_map hp]

omit [DecidableEq K] in
theorem magnitudeFunc_components (sqrt : K → K) :
    magnitudeFunc sqrt (components n f) (n.1 * n.2.1 * n.2.2) =
      .ok ((List.range (n.1 * n.2.1 * n.2.2)).map fun p =>
        sqrt (f.x p * f.x p + f.y p * f.y p + f.z p * f.z p)) := by
  rw [components, magnitudeFunc, if_pos (by simp [component])]
  refine Outcome.mapM_eq_ok fun p hp => ?_
  have hp := List.mem_range.mp hp
  simp [component, load_map hp]

omit [DecidableEq K] in
theorem addFunc_eq_iff (hmemory : 3 * (n.1 * n.2.1 * n.2.2) < 2 ^ 64) :
    addFunc [interleaved n f] (n.1 * n.2.1 * n.2.2) =
      addFunc (components n f) (n.1 * n.2.1 * n.2.2) ↔ n.1 * n.2.1 * n.2.2 < 2 ^ 31 := by
  rw [← accumulate_eq_iff hmemory, addFunc_components]
  constructor
  · intro h
    rw [addFunc, addAggregatedFunc] at h
    have hlength := aggregated_length h
    rw [List.length_map, List.length_range] at hlength
    exact hlength.symm
  · intro h
    rw [addFunc, addAggregatedFunc, aggregated_ok _ h]
    simp

omit [DecidableEq K] in
theorem magnitudeFunc_eq (sqrt : K → K)
    (h : accumulate [n.1, n.2.1, n.2.2] = n.1 * n.2.1 * n.2.2) :
    magnitudeFunc sqrt [interleaved n f] (n.1 * n.2.1 * n.2.2) =
      magnitudeFunc sqrt (components n f) (n.1 * n.2.1 * n.2.2) := by
  rw [magnitudeFunc_components, magnitudeFunc, magAggregatedFunc, aggregated_ok _ h]
  simp

end Pointwise

section Cross

variable {n : Nat × Nat × Nat} {f g : VectorField K}

-- What the operator computes: the second component has the other sign.
def crossComputed (f g : VectorField K) : VectorField K :=
  { f.cross g with y := fun p => f.x p * g.z p - f.z p * g.x p }

omit [DecidableEq K] in
theorem cross3DFunc_ok (h : accumulate [n.1, n.2.1, n.2.2] = n.1 * n.2.1 * n.2.2) :
    cross3DFunc (components n f ++ components n g) =
      .ok ((crossComputed f g).interleave (n.1 * n.2.1 * n.2.2)) := by
  show applyCross3D _ _ _ _ _ _ (accumulate [n.1, n.2.1, n.2.2]) = _
  rw [h]
  refine Outcome.bind_eq_ok.mpr ⟨_, Outcome.mapM_eq_ok (g := fun p =>
    [(crossComputed f g).x p, (crossComputed f g).y p, (crossComputed f g).z p]) fun p hp => ?_, ?_⟩
  · have hp := List.mem_range.mp hp
    simp only [component, load_map hp, Outcome.ok_bind]
    rfl
  · rw [← List.flatMap_def, VectorField.flatMap_points]
    rfl

-- Where the other sign makes no difference.
def SecondVanishes (n : Nat) (f g : VectorField K) : Prop := ∀ p < n, f.x p * g.z p = f.z p * g.x p

omit [DecidableEq K] in
theorem crossComputed_eq_iff [CharZero K] {m : Nat} :
    (crossComputed f g).interleave m = (f.cross g).interleave m ↔ SecondVanishes m f g := by
  rw [VectorField.interleave_inj]
  refine forall₂_congr fun p _ => ?_
  simp only [crossComputed, VectorField.cross, true_and, and_true]
  constructor
  · intro h
    have htwo : (2 : K) * (f.x p * g.z p - f.z p * g.x p) = 0 := by linear_combination h
    exact sub_eq_zero.mp ((mul_eq_zero.mp htwo).resolve_left two_ne_zero)
  · intro h
    linear_combination 2 * h

end Cross

section Curl

variable [CharZero K] {n : Nat × Nat × Nat} {i : Nat}

-- A difference over the distance of the neighbours that the loops take.
theorem quotient_ok {input : Nat → Outcome K} {p q d : Nat} {a b : K} (hp : input p = .ok a)
    (hq : input q = .ok b) (hd : d ≠ 0) : quotient input p q d = .ok ((a - b) / d) := by
  rw [quotient, hp, hq, Outcome.ok_bind, Outcome.ok_bind, divide, if_neg (Nat.cast_ne_zero.mpr hd)]
  rfl

omit [DecidableEq K] [CharZero K] in
theorem slope_eq {m : Nat} (hm : 2 ≤ m) (hi : i < m) (f : Nat → K) :
    (f (nextOf m i) - f (prevOf i)) / ((nextOf m i - prevOf i : Nat) : K) =
      VectorFields.slope m f i := by
  rw [VectorFields.slope]
  split
  case isTrue h =>
    have hnext : nextOf m i = 1 := by rw [nextOf]; omega
    have hprev : prevOf i = 0 := by rw [prevOf]; omega
    rw [hnext, hprev]
    simp
  case isFalse h =>
    split
    case isTrue hlast =>
      have hnext : nextOf m i = i := by rw [nextOf]; omega
      have hone : i - prevOf i = 1 := by rw [prevOf]; omega
      rw [hnext, hone, prevOf]
      simp
    case isFalse hlast =>
      have hnext : nextOf m i = i + 1 := by rw [nextOf]; omega
      have htwo : i + 1 - prevOf i = 2 := by rw [prevOf]; omega
      rw [hnext, htwo, prevOf]
      simp

theorem next_lt {m : Nat} (hi : i < m) :
    nextOf m i < m ∧ prevOf i < m ∧ (2 ≤ m → nextOf m i - prevOf i ≠ 0) ∧
      (m = 1 → nextOf m i - prevOf i = 0) := by
  rw [nextOf, prevOf]
  omega

theorem returnIndex_eq (x y z : Nat) : returnIndex n x y z = point n x y z := by
  rw [returnIndex, point]
  ring

variable {input1 input2 input3 : Nat → Outcome K} {f : VectorField K}

-- What the inputs have at the points of the grid.
structure Reads (n : Nat × Nat × Nat) (input1 input2 input3 : Nat → Outcome K)
    (f : VectorField K) : Prop where
  x : ∀ p < n.1 * n.2.1 * n.2.2, input1 p = .ok (f.x p)
  y : ∀ p < n.1 * n.2.1 * n.2.2, input2 p = .ok (f.y p)
  z : ∀ p < n.1 * n.2.1 * n.2.2, input3 p = .ok (f.z p)

theorem curlAt_ok (hn : 2 ≤ n.1 ∧ 2 ≤ n.2.1 ∧ 2 ≤ n.2.2) (h : Reads n input1 input2 input3 f)
    {x y z : Nat} (hx : x < n.1) (hy : y < n.2.1) (hz : z < n.2.2) :
    curlAt input1 input2 input3 n n x y z = .ok [(VectorFields.curlAt n f x y z).1,
      (VectorFields.curlAt n f x y z).2.1, (VectorFields.curlAt n f x y z).2.2] := by
  have ⟨hnx, hpx, hdx, _⟩ := next_lt hx
  have ⟨hny, hpy, hdy, _⟩ := next_lt hy
  have ⟨hnz, hpz, hdz, _⟩ := next_lt hz
  have hdx := hdx hn.left
  have hdy := hdy hn.right.left
  have hdz := hdz hn.right.right
  simp only [curlAt, returnIndex_eq]
  rw [quotient_ok (h.z _ (point_lt hx hny hz)) (h.z _ (point_lt hx hpy hz)) hdy,
    quotient_ok (h.y _ (point_lt hx hy hpz)) (h.y _ (point_lt hx hy hnz)) hdz,
    quotient_ok (h.x _ (point_lt hx hy hnz)) (h.x _ (point_lt hx hy hpz)) hdz,
    quotient_ok (h.z _ (point_lt hpx hy hz)) (h.z _ (point_lt hnx hy hz)) hdx,
    quotient_ok (h.y _ (point_lt hnx hy hz)) (h.y _ (point_lt hpx hy hz)) hdx,
    quotient_ok (h.x _ (point_lt hx hpy hz)) (h.x _ (point_lt hx hny hz)) hdy]
  -- the differences that are taken away are written the other way round
  have hswap : ∀ (a b : K) (d : Nat), (a - b) / (d : K) = -((b - a) / d) := fun a b d => by ring
  simp only [Outcome.ok_bind, VectorFields.curlAt, ← slope_eq hn.left hx, ← slope_eq hn.right.left hy,
    ← slope_eq hn.right.right hz]
  rw [hswap (f.y (point n x y (prevOf z))), hswap (f.z (point n (prevOf x) y z)),
    hswap (f.x (point n x (prevOf y) z))]
  simp only [← sub_eq_add_neg]
  rfl

omit [Field K] [DecidableEq K] [CharZero K] in
theorem mapM_flatten {l : List Nat} {g : Nat → Outcome (List K)} {h : Nat → List K}
    (hg : ∀ a ∈ l, g a = .ok (h a)) :
    (do let parts ← l.mapM g; pure parts.flatten) = (.ok (l.flatMap h) : Outcome (List K)) := by
  rw [Outcome.mapM_eq_ok hg, List.flatMap_def]
  rfl

-- The loops reach all extents while these are numbers of the type `int`.
theorem loops_eq (hpos : 0 < n.1 ∧ 0 < n.2.1 ∧ 0 < n.2.2) (hlt : n.1 * n.2.1 * n.2.2 < 2 ^ 31) :
    ((int32 n.1).toNat, (int32 n.2.1).toNat, (int32 n.2.2).toNat) = n := by
  obtain ⟨a, b, c⟩ := n
  obtain ⟨ha, hb, hc⟩ := hpos
  have hlt : a * b * c < 2 ^ 31 := hlt
  have hab : a ≤ a * b := Nat.le_mul_of_pos_right a hb
  have hba : b ≤ a * b := Nat.le_mul_of_pos_left b ha
  have habc : a * b ≤ a * b * c := Nat.le_mul_of_pos_right _ hc
  have hc' : c ≤ a * b * c := Nat.le_mul_of_pos_left c (Nat.mul_pos ha hb)
  dsimp only at hb hc ⊢
  rw [int32_of_lt (by omega), int32_of_lt (by omega), int32_of_lt (by omega)]

theorem applyCurl_ok (hn : 2 ≤ n.1 ∧ 2 ≤ n.2.1 ∧ 2 ≤ n.2.2) (hlt : n.1 * n.2.1 * n.2.2 < 2 ^ 31)
    (h : Reads n input1 input2 input3 f) :
    applyCurl input1 input2 input3 n = .ok (VectorFields.curl n f) := by
  rw [applyCurl, loops_eq (by omega) hlt]
  refine mapM_flatten fun x hx => mapM_flatten fun y hy => mapM_flatten fun z hz => ?_
  exact curlAt_ok hn h (List.mem_range.mp hx) (List.mem_range.mp hy) (List.mem_range.mp hz)

omit [CharZero K] in
theorem quotient_distance {input : Nat → Outcome K} {p q d : Nat} {a : K}
    (h : quotient input p q d = .ok a) : d ≠ 0 := by
  obtain ⟨_, _, h⟩ := Outcome.bind_eq_ok.mp h
  obtain ⟨_, _, h⟩ := Outcome.bind_eq_ok.mp h
  rintro rfl
  rw [divide, if_pos Nat.cast_zero] at h
  exact absurd h (by simp)

omit [CharZero K] in
theorem applyCurl_extents (hpos : 0 < n.1 ∧ 0 < n.2.1 ∧ 0 < n.2.2)
    (hlt : n.1 * n.2.1 * n.2.2 < 2 ^ 31) {l : List K}
    (h : applyCurl input1 input2 input3 n = .ok l) : 2 ≤ n.1 ∧ 2 ≤ n.2.1 ∧ 2 ≤ n.2.2 := by
  have hexists : ∀ {m : Nat} {g : Nat → Outcome (List K)} {ls : List (List K)}, 0 < m →
      (List.range m).mapM g = .ok ls → ∃ l, g 0 = .ok l := fun {m g ls} hm hls => by
    have hspec := Outcome.mapM_eq_ok_iff.mp hls
    have hlen : 0 < ls.length := by
      rw [← hspec.length_eq, List.length_range]
      exact hm
    have hget := hspec.get (i := 0) (by simpa using hm) hlen
    exact ⟨_, by simpa using hget⟩
  rw [applyCurl, loops_eq hpos hlt] at h
  obtain ⟨planes, hplanes, _⟩ := Outcome.bind_eq_ok.mp h
  obtain ⟨plane, hplane⟩ := hexists hpos.left hplanes
  obtain ⟨rows, hrows, _⟩ := Outcome.bind_eq_ok.mp hplane
  obtain ⟨row, hrow⟩ := hexists hpos.right.left hrows
  obtain ⟨points, hpoints, _⟩ := Outcome.bind_eq_ok.mp hrow
  obtain ⟨values, hvalues⟩ := hexists hpos.right.right hpoints
  -- the first point takes a difference in each direction
  obtain ⟨_, hy, hvalues⟩ := Outcome.bind_eq_ok.mp hvalues
  obtain ⟨_, hz, hvalues⟩ := Outcome.bind_eq_ok.mp hvalues
  obtain ⟨_, _, hvalues⟩ := Outcome.bind_eq_ok.mp hvalues
  obtain ⟨_, hx, _⟩ := Outcome.bind_eq_ok.mp hvalues
  have hx := quotient_distance hx
  have hy := quotient_distance hy
  have hz := quotient_distance hz
  have ⟨_, _, _, hx'⟩ := next_lt hpos.left
  have ⟨_, _, _, hy'⟩ := next_lt hpos.right.left
  have ⟨_, _, _, hz'⟩ := next_lt hpos.right.right
  omega

end Curl

section VectorOperators

variable {n : Nat × Nat × Nat} {f a b : VectorField K}

-- The array of all components, as the curl reads it: one plane of values behind the other.
def planes (n : Nat × Nat × Nat) (f : VectorField K) : VectorField K where
  x := f.at'
  y := fun p => f.at' (n.1 * n.2.1 * n.2.2 + p)
  z := fun p => f.at' (2 * (n.1 * n.2.1 * n.2.2) + p)

omit [Field K] [DecidableEq K] in
theorem components_reads : Reads n (load (component n f.x).values) (load (component n f.y).values)
    (load (component n f.z).values) f :=
  ⟨fun _ hp => load_map hp, fun _ hp => load_map hp, fun _ hp => load_map hp⟩

omit [Field K] [DecidableEq K] in
theorem planes_reads : Reads n (load (interleaved n f).values)
    (fun i => load (interleaved n f).values (n.1 * n.2.1 * n.2.2 + i))
    (fun i => load (interleaved n f).values (2 * (n.1 * n.2.1 * n.2.2) + i)) (planes n f) :=
  ⟨fun p hp => load_map (by omega), fun p hp => load_map (by omega), fun p hp => load_map (by omega)⟩

theorem curl3DFunc_components : curl3DFunc (components n f) =
    applyCurl (load (component n f.x).values) (load (component n f.y).values)
      (load (component n f.z).values) n := by
  rw [components, curl3DFunc]
  rfl

theorem curl3DFunc_interleaved : curl3DFunc [interleaved n f] =
    applyCurl (load (interleaved n f).values)
      (fun i => load (interleaved n f).values (n.1 * n.2.1 * n.2.2 + i))
      (fun i => load (interleaved n f).values (2 * (n.1 * n.2.1 * n.2.2) + i)) n := by
  have hfour : ¬(interleaved n f).count.length ≠ 4 := by simp [interleaved]
  rw [curl3DFunc, if_neg hfour, Outcome.pure_eq, Outcome.ok_bind]
  exact if_neg Bool.false_ne_true

-- What the operators on vectors are to compute for a field, and for two fields.
structure VectorOperators (sqrt : K → K) (n : Nat × Nat × Nat) (f a b : VectorField K) : Prop where
  add            : addFunc [interleaved n f] (n.1 * n.2.1 * n.2.2) =
    addFunc (components n f) (n.1 * n.2.1 * n.2.2)
  magnitude      : magnitudeFunc sqrt [interleaved n f] (n.1 * n.2.1 * n.2.2) =
    magnitudeFunc sqrt (components n f) (n.1 * n.2.1 * n.2.2)
  curlAggregated : curl3DFunc [interleaved n f] = curl3DFunc (components n f)
  curl           : curl3DFunc (components n f) = .ok (VectorFields.curl n f)
  cross          : cross3DFunc (components n a ++ components n b) =
    .ok ((a.cross b).interleave (n.1 * n.2.1 * n.2.2))
  antisymmetric  : ∀ l, cross3DFunc (components n b ++ components n a) = .ok l →
    cross3DFunc (components n a ++ components n b) = .ok (l.map (-·))
  orthogonal     : ∀ c : VectorField K, cross3DFunc (components n a ++ components n b) =
    .ok (c.interleave (n.1 * n.2.1 * n.2.2)) →
      ∀ p < n.1 * n.2.1 * n.2.2, a.dot c p = 0 ∧ b.dot c p = 0

theorem vectorOperators [CharZero K] (sqrt : K → K) (n : Nat × Nat × Nat) (f a b : VectorField K)
    (hpos : 0 < n.1 ∧ 0 < n.2.1 ∧ 0 < n.2.2) (hmemory : 3 * (n.1 * n.2.1 * n.2.2) < 2 ^ 64) :
    VectorOperators sqrt n f a b ↔
      n.1 * n.2.1 * n.2.2 < 2 ^ 31 ∧ (2 ≤ n.1 ∧ 2 ≤ n.2.1 ∧ 2 ≤ n.2.2) ∧
        (∀ p < n.1 * n.2.1 * n.2.2, a.x p * b.z p = a.z p * b.x p) ∧
        CurlFree n (planes n f - f) := by
  constructor
  · intro h
    have hlt := (addFunc_eq_iff hmemory).mp h.add
    have hcount := (accumulate_eq_iff hmemory).mpr hlt
    have hextents := applyCurl_extents hpos hlt (curl3DFunc_components.symm.trans h.curl)
    refine ⟨hlt, hextents, ?_, ?_⟩
    · have hcross := h.cross
      rw [cross3DFunc_ok hcount] at hcross
      exact crossComputed_eq_iff.mp (Except.ok.inj hcross)
    · have hcurl : curl3DFunc [interleaved n f] = .ok (VectorFields.curl n (planes n f)) :=
        curl3DFunc_interleaved.trans (applyCurl_ok hextents hlt planes_reads)
      rw [← curl_eq_iff]
      exact Except.ok.inj (hcurl.symm.trans (h.curlAggregated.trans h.curl))
  · rintro ⟨hlt, hextents, hsecond, hfree⟩
    have hcount := (accumulate_eq_iff hmemory).mpr hlt
    have hcross : ∀ {a b : VectorField K}, SecondVanishes (n.1 * n.2.1 * n.2.2) a b →
        cross3DFunc (components n a ++ components n b) =
          .ok ((a.cross b).interleave (n.1 * n.2.1 * n.2.2)) := fun hab => by
      rw [cross3DFunc_ok hcount, crossComputed_eq_iff.mpr hab]
    have hcurl : curl3DFunc (components n f) = .ok (VectorFields.curl n f) :=
      curl3DFunc_components.trans (applyCurl_ok hextents hlt components_reads)
    have hplanes : curl3DFunc [interleaved n f] = .ok (VectorFields.curl n (planes n f)) :=
      curl3DFunc_interleaved.trans (applyCurl_ok hextents hlt planes_reads)
    refine ⟨(addFunc_eq_iff hmemory).mpr hlt, magnitudeFunc_eq sqrt hcount, ?_, hcurl,
      hcross hsecond, fun l hl => ?_, fun c hc p hp => ?_⟩
    · rw [hplanes, hcurl, (curl_eq_iff n _ _).mpr hfree]
    · have hsecond' : SecondVanishes (n.1 * n.2.1 * n.2.2) b a := fun p hp => by
        linear_combination -(hsecond p hp)
      rw [hcross hsecond'] at hl
      rw [hcross hsecond, ← Except.ok.inj hl, a.cross_anticomm, VectorField.interleave_neg]
    · rw [hcross hsecond] at hc
      have ⟨hx, hy, hz⟩ := VectorField.interleave_inj.mp (Except.ok.inj hc) p hp
      have hdot : ∀ v : VectorField K, v.dot c p = v.dot (a.cross b) p := fun v => by
        rw [VectorField.dot, VectorField.dot, hx, hy, hz]
      rw [hdot, hdot]
      exact ⟨a.dot_cross_left b p, a.dot_cross_right b p⟩

def constantField (x y z : ℚ) : VectorField ℚ where
  x := fun _ => x
  y := fun _ => y
  z := fun _ => z

theorem vectorOperators_constant : VectorOperators id (2, 2, 2) (constantField 1 1 1)
    (constantField 1 2 3) (constantField 2 0 6) := by
  refine (vectorOperators id (2, 2, 2) _ _ _ (by decide) (by decide)).mpr
    ⟨by decide, by decide, fun p _ => by norm_num [constantField], ?_⟩
  have hplanes : planes (2, 2, 2) (constantField 1 1 1) = constantField 1 1 1 := by
    have hat : ∀ i, (constantField 1 1 1).at' i = 1 := fun i => by
      simp [VectorField.at', constantField]
    simp only [planes, hat, funext hat]
    rfl
  rw [← curl_eq_iff, hplanes]

-- The product of the first and the third unit vector.
theorem not_vectorOperators_units : ¬VectorOperators id (2, 2, 2) (constantField 0 0 0)
    (constantField 1 0 0) (constantField 0 0 1) := by
  intro h
  have hcross := h.cross
  rw [cross3DFunc_ok ((accumulate_eq_iff (by decide)).mpr (by decide))] at hcross
  have hsecond := crossComputed_eq_iff.mp (Except.ok.inj hcross) 0 (by decide)
  exact absurd hsecond (by norm_num [constantField])

end VectorOperators

end Derived
