import Adios2.Lib.Grid
import Adios2.Utils.Reorganize.Reorganize
import Adios2.Lib.Lists

-- The positions of the ranks are the digits of their numbers, and the parts of the dimensions are
-- those of a grid.

namespace Reorganize

open Grid BP5 Helper

section Integers

theorem int_of_lt {n : Nat} (h : n < 2 ^ 31) : int n = .ok (n : Int) :=
  if_pos ⟨by omega, by omega⟩

theorem divInt_natCast {a b : Nat} (hb : 0 < b) (ha : a < 2 ^ 31) :
    divInt a b = .ok ((a / b : Nat) : Int) := by
  have hlt : a / b < 2 ^ 31 := (Nat.div_le_self a b).trans_lt ha
  rw [divInt, if_neg (by omega), ← Int.ofNat_tdiv, int_of_lt hlt]

theorem modInt_natCast {a b : Nat} (hb : 0 < b) (ha : a < 2 ^ 31) :
    modInt a b = .ok ((a % b : Nat) : Int) := by
  have hlt : a % b < 2 ^ 31 := (Nat.mod_le a b).trans_lt ha
  rw [modInt, if_neg (by omega), ← Int.ofNat_tmod, int_of_lt hlt]

theorem mulInt_natCast {a b : Nat} (h : a * b < 2 ^ 31) : mulInt a b = .ok ((a * b : Nat) : Int) := by
  rw [mulInt, ← Int.natCast_mul, int_of_lt h]

theorem sizeT_natCast {n : Nat} (h : n < 2 ^ 64) : sizeT n = n := by
  rw [sizeT]
  omega

end Integers

section Positions

variable {ns : List Nat} {rank nps : Nat}

-- The digits of a number, the first of which changes fastest.
def digits : List Nat → Nat → List Nat
  | [], _      => []
  | n :: ns, q => q % n :: digits ns (q / n)

theorem positions_eq (hrank : rank < 2 ^ 31) (hnps : 0 < nps) (hpos : ∀ n ∈ ns, 0 < n)
    (hlt : nps * ns.prod < 2 ^ 31) (v : Int) :
    positions rank (ns.map (Nat.cast : Nat → Int) ++ [v]) nps
      = .ok ((digits ns (rank / nps)).map (Nat.cast : Nat → Int)
        ++ [((rank / nps / ns.prod : Nat) : Int)]) := by
  induction ns generalizing nps with
  | nil =>
    simp only [List.map_nil, List.nil_append, positions, divInt_natCast hnps hrank, Outcome.ok_bind,
      List.prod_nil, Nat.div_one, digits]
    rfl
  | cons n ns ih =>
    have ⟨hn, hpos'⟩ := List.forall_mem_cons.mp hpos
    have hprod : 0 < ns.prod := List.prod_pos hpos'
    rw [List.prod_cons, ← Nat.mul_assoc] at hlt
    have hmul : nps * n < 2 ^ 31 := (Nat.le_mul_of_pos_right _ hprod).trans_lt hlt
    have hdiv : rank / nps < 2 ^ 31 := (Nat.div_le_self _ _).trans_lt hrank
    have hrest := ih (Nat.mul_pos hnps hn) hpos' hlt
    have hcons : ∃ m ms, ns.map (Nat.cast : Nat → Int) ++ [v] = m :: ms := by
      cases ns with
      | nil          => exact ⟨v, [], rfl⟩
      | cons n' rest => exact ⟨n', rest.map (Nat.cast : Nat → Int) ++ [v], rfl⟩
    have ⟨m, ms, heq⟩ := hcons
    rw [List.map_cons, List.cons_append, heq, positions, divInt_natCast hnps hrank, Outcome.ok_bind,
      modInt_natCast hn hdiv, Outcome.ok_bind, mulInt_natCast hmul, Outcome.ok_bind, ← heq, hrest,
      Outcome.ok_bind, digits, List.prod_cons, Nat.div_div_eq_div_mul, Nat.div_div_eq_div_mul,
      Nat.div_div_eq_div_mul, ← Nat.mul_assoc]
    rfl

theorem digits_concat {n q : Nat} (hpos : ∀ m ∈ ns ++ [n], 0 < m) (h : q < (ns ++ [n]).prod) :
    digits (ns ++ [n]) q = digits ns q ++ [q / ns.prod] := by
  induction ns generalizing q with
  | nil =>
    have hlt : q < n := by simpa using h
    simp [digits, Nat.mod_eq_of_lt hlt]
  | cons m ns ih =>
    have ⟨_, hpos'⟩ := List.forall_mem_cons.mp hpos
    rw [List.cons_append] at h
    rw [List.cons_append, digits, digits, ih hpos' (div_lt_prod h), List.prod_cons,
      Nat.div_div_eq_div_mul]
    rfl

end Positions

section Dimensions

variable {ns : List Nat} {shape : Dims}

theorem dimension_eq {total n p : Nat} (hp : p < n) (hn : n < 2 ^ 31) (htotal : total < 2 ^ 64) :
    dimension total n p = .ok (partStart n total p, partSize n total p) := by
  have hlast : int ((n : Int) - 1) = .ok ((n - 1 : Nat) : Int) := by
    rw [← int_of_lt (show n - 1 < 2 ^ 31 by omega)]
    congr 1
    omega
  have hle : partStart n total p + partSize n total p ≤ total := part_le hp
  have hmul : total / n * (n - 1) ≤ total := mul_pred_le n total
  have hstart : total / n * p ≤ total := (Nat.le_add_right _ _).trans hle
  have hiff : ((p : Int) = ((n - 1 : Nat) : Int)) ↔ p = n - 1 := Int.ofNat_inj
  rw [dimension, if_neg (by omega), hlast, Outcome.ok_bind]
  simp only [hiff, sizeT_natCast (show n < 2 ^ 64 by omega), sizeT_natCast (show p < 2 ^ 64 by omega),
    sizeT_natCast (show n - 1 < 2 ^ 64 by omega), Nat.mod_eq_of_lt (hstart.trans_lt htotal),
    Nat.mod_eq_of_lt (hmul.trans_lt htotal), partStart, partSize, Outcome.pure_eq]
  split
  case isTrue =>
    have hsub : (total + (2 ^ 64 - total / n * (n - 1))) % 2 ^ 64 = total - total / n * (n - 1) := by
      generalize total / n * (n - 1) = less at *
      omega
    rw [hsub]
  case isFalse => rfl

theorem dimensions_eq (hlen : ns.length = shape.length) (hpos : ∀ n ∈ ns, 0 < n ∧ n < 2 ^ 31)
    (hshape : ∀ s ∈ shape, s < 2 ^ 64) (q : Nat) :
    dimensions shape (ns.map (Nat.cast : Nat → Int)) ((digits ns q).map (Nat.cast : Nat → Int))
      = .ok ((cellStart ns shape q).zip (cellSize ns shape q)) := by
  induction ns generalizing shape q with
  | nil =>
    obtain rfl := List.length_eq_zero_iff.mp hlen.symm
    rfl
  | cons n ns ih =>
    cases shape with
    | nil => cases hlen
    | cons total shape =>
      have ⟨⟨hn, hlt⟩, hpos'⟩ := List.forall_mem_cons.mp hpos
      have ⟨htotal, hshape'⟩ := List.forall_mem_cons.mp hshape
      simp only [digits, List.map_cons, dimensions, dimension_eq (Nat.mod_lt q hn) hlt htotal,
        Outcome.ok_bind, ih (Nat.succ.inj hlen) hpos' hshape' (q / n)]
      rfl

theorem cellStart_length (hlen : ns.length = shape.length) (q : Nat) :
    (cellStart ns shape q).length = shape.length ∧ (cellSize ns shape q).length = shape.length := by
  induction ns generalizing shape q with
  | nil =>
    obtain rfl := List.length_eq_zero_iff.mp hlen.symm
    exact ⟨rfl, rfl⟩
  | cons n ns ih =>
    cases shape with
    | nil => cases hlen
    | cons total shape =>
      have ⟨h, h'⟩ := ih (Nat.succ.inj hlen) (q / n)
      exact ⟨congrArg (· + 1) h, congrArg (· + 1) h'⟩

end Dimensions

section DecomposeArray

variable {init : List Nat} {shape : Dims} {np : List Int} {rank : Nat}

-- The boxes of the ranks, where all values are positive.
theorem decomposeArray_eq {n : Nat} (hrank : rank < 2 ^ 31)
    (htake : np.take shape.length = (init ++ [n]).map (Nat.cast : Nat → Int))
    (hlen : (init ++ [n]).length = shape.length) (hpos : ∀ m ∈ init ++ [n], 0 < m)
    (hlt : (init ++ [n]).prod < 2 ^ 31) (hshape : ∀ s ∈ shape, s < 2 ^ 64) :
    decomposeArray rank shape np = .ok (
      if rank < (init ++ [n]).prod then
        (cellStart (init ++ [n]) shape rank, cellSize (init ++ [n]) shape rank)
      else
        (shape.map fun _ => 0, shape.map fun _ => 0)) := by
  have hnp : shape.length ≤ np.length := by
    have := congrArg List.length htake
    rw [List.length_take, List.length_map] at this
    omega
  have hinit : ∀ m ∈ init, 0 < m := fun m hm => hpos m (List.mem_append_left _ hm)
  have hn : 0 < n := hpos n (List.mem_append_right _ List.mem_cons_self)
  have hprod : (init ++ [n]).prod = init.prod * n := by simp
  have hpart : 1 * init.prod < 2 ^ 31 := by
    rw [hprod] at hlt
    rw [Nat.one_mul]
    exact (Nat.le_mul_of_pos_right _ hn).trans_lt hlt
  have hposition := positions_eq hrank Nat.one_pos hinit hpart (n : Int)
  rw [Nat.div_one] at hposition
  have hmap : (init ++ [n]).map (Nat.cast : Nat → Int)
      = init.map (Nat.cast : Nat → Int) ++ [(n : Int)] := by simp
  have hone : ((1 : Nat) : Int) = 1 := rfl
  rw [hone] at hposition
  have hbound : ((n : Int) ≤ ((rank / init.prod : Nat) : Int)) ↔ ¬rank < (init ++ [n]).prod := by
    rw [Int.ofNat_le, hprod, Nat.le_div_iff_mul_le (List.prod_pos hinit), Nat.not_lt, Nat.mul_comm]
  rw [decomposeArray, if_neg (by omega)]
  simp only [htake, hmap, hposition, Outcome.ok_bind, List.getLastD_concat, hbound]
  by_cases hin : rank < (init ++ [n]).prod
  case pos =>
    have hdigits := digits_concat hpos hin
    have hdims := dimensions_eq hlen (fun m hm => ⟨hpos m hm,
      (List.single_le_prod (fun k hk => hpos k hk) m hm).trans_lt hlt⟩) hshape rank
    have ⟨hstart, hsize⟩ := cellStart_length hlen rank
    rw [hdigits, hmap, List.map_append, List.map_singleton] at hdims
    rw [if_neg (not_not.mpr hin), if_pos hin, hdims, Outcome.ok_bind, Outcome.pure_eq,
      ← List.unzip_fst, ← List.unzip_snd, List.unzip_zip (hstart.trans hsize.symm)]
  case neg =>
    rw [if_pos hin, if_neg hin]
    rfl

-- Where the last value in use is not positive, no rank has anything.
theorem decomposeArray_of_nonpos {v : Int} (hrank : rank < 2 ^ 31)
    (htake : np.take shape.length = init.map (Nat.cast : Nat → Int) ++ [v])
    (hlen : init.length + 1 = shape.length) (hpos : ∀ m ∈ init, 0 < m) (hlt : init.prod < 2 ^ 31)
    (hv : v ≤ 0) :
    decomposeArray rank shape np = .ok (shape.map fun _ => 0, shape.map fun _ => 0) := by
  have hnp : shape.length ≤ np.length := by
    have := congrArg List.length htake
    rw [List.length_take, List.length_append, List.length_map, List.length_singleton] at this
    omega
  have hposition := positions_eq hrank Nat.one_pos hpos (by rwa [Nat.one_mul]) v
  have hone : ((1 : Nat) : Int) = 1 := rfl
  rw [hone] at hposition
  rw [decomposeArray, if_neg (by omega)]
  simp only [htake, hposition, Outcome.ok_bind, List.getLastD_concat]
  rw [if_pos (hv.trans (Int.natCast_nonneg _))]
  rfl

end DecomposeArray

end Reorganize

-- The boxes of the ranks make up an array, without an element twice, where the decomposition has
-- positive values only. With others there is an array that is not covered.

namespace Reorganize

open Bytes Grid RowMajor BP5 Helper

-- The number of the ranks, which is an `int`.
structure Ranks where
  size : Nat
  pos  : 0 < size
  lt   : size < 2 ^ 31

section DecompValues

variable {size : Nat} {args : List (List Byte)} {values : List Int}

theorem decompValues_eq_ok (h : decompValues size args = .ok values) :
    ∃ prod : Int, values.foldlM mulInt 1 = .ok prod ∧ prod ≤ size ∧ values.length ≤ 6 := by
  unfold decompValues at h
  obtain ⟨values', hvalues, h⟩ := Outcome.bind_eq_ok.mp h
  split at h
  case isTrue => nomatch h
  case isFalse =>
    obtain ⟨prod, hprod, h⟩ := Outcome.bind_eq_ok.mp h
    split at h
    case isTrue => nomatch h
    case isFalse hle =>
      cases h
      refine ⟨prod, hprod, by omega, ?_⟩
      have hlen := (Outcome.mapM_eq_ok_iff.mp hvalues).length_eq
      rw [List.length_zipIdx, List.length_take] at hlen
      omega

-- The product as far as it goes.
theorem foldlM_mulInt {ns : List Nat} {n : Nat} {prod : Int}
    (h : (ns.map (Nat.cast : Nat → Int)).foldlM mulInt (n : Int) = .ok prod) (hn : n < 2 ^ 31) :
    prod = ((n * ns.prod : Nat) : Int) ∧ n * ns.prod < 2 ^ 31 := by
  induction ns generalizing n with
  | nil =>
    cases h
    simpa using hn
  | cons m ns ih =>
    rw [List.map_cons, List.foldlM_cons] at h
    obtain ⟨product, hmul, h⟩ := Outcome.bind_eq_ok.mp h
    have hlt : n * m < 2 ^ 31 := by
      by_contra hge
      rw [mulInt, int, ← Int.natCast_mul, if_neg (by omega)] at hmul
      nomatch hmul
    rw [mulInt_natCast hlt] at hmul
    cases hmul
    rw [List.prod_cons, ← Nat.mul_assoc]
    exact ih h hlt

theorem exists_natCast (h : ∀ v ∈ values, 1 ≤ v) :
    ∃ ns : List Nat, values = ns.map (Nat.cast : Nat → Int) ∧ ∀ n ∈ ns, 0 < n := by
  refine ⟨values.map Int.toNat, ?_, ?_⟩
  · rw [List.map_map]
    apply (List.map_id values).symm.trans
    apply List.map_congr_left
    intro v hv
    have := h v hv
    simp only [id, Function.comp]
    omega
  · intro n hn
    obtain ⟨v, hv, rfl⟩ := List.mem_map.mp hn
    have := h v hv
    omega

end DecompValues

-- What the ranks get of an array.
structure Decomposed (size : Nat) (np : List Int) (shape : Dims) (box : Nat → Dims × Dims) :
    Prop where
  eq       : ∀ rank < size, decomposeArray rank shape np = .ok (box rank)
  length   : ∀ rank < size, (box rank).1.length = shape.length ∧ (box rank).2.length = shape.length
  inside   : ∀ rank < size, List.Forall₂ (fun (b : Nat × Nat) total => b.1 + b.2 ≤ total)
    ((box rank).1.zip (box rank).2) shape
  disjoint : ∀ rank < size, ∀ rank' < size, rank ≠ rank' →
    Disjoint (points (box rank).1 (box rank).2) (points (box rank').1 (box rank').2)
  covers   : ∀ point ∈ points (shape.map fun _ => 0) shape, ∃ rank < size,
    point ∈ points (box rank).1 (box rank).2
  beyond   : ∀ rank < size, (np.take shape.length).prod ≤ rank →
    (box rank).2 = shape.map fun _ => 0

section Decomposed

variable {shape : Dims} {point : List Nat}

theorem notMem_zeros (h : shape ≠ []) (start : List Nat) :
    point ∉ points start (shape.map fun _ => 0) := by
  intro hmem
  cases shape with
  | nil => contradiction
  | cons s shape =>
    cases start with
    | nil => exact hmem
    | cons b start =>
      have ⟨_, _, _, ⟨hle, hlt⟩, _⟩ := mem_points_cons.mp hmem
      exact absurd hlt (Nat.not_lt.mpr hle)

theorem zeros_inside (shape : Dims) : List.Forall₂ (fun (b : Nat × Nat) total => b.1 + b.2 ≤ total)
    ((shape.map fun _ => 0).zip (shape.map fun _ => 0)) shape := by
  induction shape with
  | nil => exact .nil
  | cons s shape ih => exact .cons (Nat.zero_le s) ih

-- The product of the first values is not more than that of all of them.
theorem prod_take_le {ns : List Nat} (hpos : ∀ n ∈ ns, 0 < n) (k : Nat) :
    (ns.take k).prod ≤ ns.prod := by
  calc (ns.take k).prod
      ≤ (ns.take k).prod * (ns.drop k).prod := Nat.le_mul_of_pos_right _
        (List.prod_pos fun n hn => hpos n (List.mem_of_mem_drop hn))
    _ = ns.prod := by rw [← List.prod_append, List.take_append_drop]

theorem take_processes {values : List Int} (h : shape.length ≤ values.length) :
    (processes values).take shape.length = values.take shape.length :=
  List.take_append_of_le_length h

theorem decomposed_of_pos {ranks : Ranks} {ns : List Nat} (hpos : ∀ n ∈ ns, 0 < n)
    (hprod : ns.prod ≤ ranks.size) (hne : shape ≠ []) (hlen : shape.length ≤ ns.length)
    (hshape : ∀ s ∈ shape, s < 2 ^ 64) :
    ∃ box, Decomposed ranks.size (processes (ns.map (Nat.cast : Nat → Int))) shape box := by
  have hlt := ranks.lt
  have htake : (processes (ns.map (Nat.cast : Nat → Int))).take shape.length
      = (ns.take shape.length).map (Nat.cast : Nat → Int) := by
    rw [take_processes (by rwa [List.length_map]), List.map_take]
  have hused : (ns.take shape.length).length = shape.length := List.length_take_of_le hlen
  have hle := (prod_take_le hpos shape.length).trans hprod
  have hpos' : ∀ n ∈ ns.take shape.length, 0 < n := fun n hn => hpos n (List.mem_of_mem_take hn)
  generalize ns.take shape.length = used at htake hused hle hpos'
  have hsome : used ≠ [] := by
    rintro rfl
    exact hne (List.length_eq_zero_iff.mp hused.symm)
  obtain ⟨init, n, rfl⟩ := (List.eq_nil_or_concat' used).resolve_left hsome
  have heq (rank : Nat) (hrank : rank < ranks.size) := decomposeArray_eq (hrank.trans hlt) htake hused
    hpos' (hle.trans_lt hlt) hshape
  refine ⟨_, heq, ?_, ?_, ?_, ?_, ?_⟩
  case refine_1 =>
    intro rank _
    split
    case isTrue  => exact cellStart_length hused rank
    case isFalse => exact ⟨List.length_map _, List.length_map _⟩
  case refine_2 =>
    intro rank _
    split
    case isTrue  => exact cell_le hused hpos'
    case isFalse => exact zeros_inside shape
  case refine_3 =>
    intro rank _ rank' _ hdiff
    rw [Set.disjoint_left]
    intro point hmem hmem'
    by_cases hin : rank < (init ++ [n]).prod
    case neg =>
      rw [if_neg hin] at hmem
      exact notMem_zeros hne _ hmem
    case pos =>
      by_cases hin' : rank' < (init ++ [n]).prod
      case neg =>
        rw [if_neg hin'] at hmem'
        exact notMem_zeros hne _ hmem'
      case pos =>
        rw [if_pos hin] at hmem
        rw [if_pos hin'] at hmem'
        exact hdiff (cell_unique hused hpos' hin hin' hmem hmem')
  case refine_4 =>
    intro point hpoint
    have ⟨rank, hrank, hmem⟩ := exists_cell hused hpos' hpoint
    refine ⟨rank, hrank.trans_le hle, ?_⟩
    rw [if_pos hrank]
    exact hmem
  case refine_5 =>
    intro rank _ hbeyond
    have hcast : ((init ++ [n]).map (Nat.cast : Nat → Int)).prod = (((init ++ [n]).prod : Nat) : Int) :=
      (Nat.cast_list_prod _).symm
    rw [htake, hcast] at hbeyond
    rw [if_neg (by omega)]

-- With another value there is an array that is not covered.
theorem not_decomposed_of_nonpos (ranks : Ranks) {values : List Int} {prod : Int}
    (hvalues : values.foldlM mulInt 1 = .ok prod) (h : ¬∀ v ∈ values, 1 ≤ v) :
    ∃ shape : Dims, shape ≠ [] ∧ shape.length ≤ values.length ∧ (∀ s ∈ shape, s < 2 ^ 64) ∧
      ¬∃ box, Decomposed ranks.size (processes values) shape box := by
  have hsplit := List.takeWhile_append_dropWhile (p := fun v : Int => decide (1 ≤ v)) (l := values)
  have hrest : values.dropWhile (fun v => decide (1 ≤ v)) ≠ [] := by
    intro hnil
    exact h fun v hv => of_decide_eq_true (List.dropWhile_eq_nil_iff.mp hnil v hv)
  have hhead := List.head_dropWhile_not (fun v : Int => decide (1 ≤ v)) hrest
  have hfirst : ∀ v ∈ values.takeWhile (fun v => decide (1 ≤ v)), 1 ≤ v :=
    fun v hv => of_decide_eq_true (List.mem_takeWhile_imp (p := fun v : Int => decide (1 ≤ v)) hv)
  cases hdrop : values.dropWhile (fun v => decide (1 ≤ v)) with
  | nil => exact absurd hdrop hrest
  | cons v post =>
    obtain ⟨init, hinit, hpos⟩ := exists_natCast hfirst
    simp only [hdrop, List.head_cons, decide_eq_false_iff_not] at hhead
    rw [hinit, hdrop] at hsplit
    have hinitLt : init.prod < 2 ^ 31 := by
      rw [← hsplit, List.foldlM_append] at hvalues
      obtain ⟨prod', hprod', _⟩ := Outcome.bind_eq_ok.mp hvalues
      have ⟨_, hlt⟩ := foldlM_mulInt (n := 1) hprod' (by decide)
      rwa [Nat.one_mul] at hlt
    refine ⟨List.replicate (init.length + 1) 1, by simp, ?_, ?_, ?_⟩
    · rw [← hsplit]
      simp
    · intro s hs
      rw [(List.mem_replicate.mp hs).2]
      decide
    · rintro ⟨box, hbox⟩
      have htake : (processes values).take (List.replicate (init.length + 1) 1).length
          = init.map (Nat.cast : Nat → Int) ++ [v] := by
        rw [take_processes (by rw [← hsplit]; simp), ← hsplit, List.length_replicate]
        have : init.length + 1 = (init.map (Nat.cast : Nat → Int) ++ [v]).length := by simp
        have hgoal : init.map (Nat.cast : Nat → Int) ++ v :: post
            = init.map (Nat.cast : Nat → Int) ++ [v] ++ post := List.append_cons ..
        rw [this, hgoal, List.take_left]
      have hpoint : List.replicate (init.length + 1) 0
          ∈ points ((List.replicate (init.length + 1) 1).map fun _ => 0)
            (List.replicate (init.length + 1) 1) := by
        rw [List.map_replicate, mem_points_iff (by simp)]
        refine ⟨rfl, fun d hd => ?_⟩
        rw [List.length_replicate] at hd
        simp [List.getD_eq_getElem?_getD, hd]
      have ⟨rank, hrank, hmem⟩ := hbox.covers _ hpoint
      have hzeros := decomposeArray_of_nonpos (hrank.trans ranks.lt) htake (by simp) hpos hinitLt
        (by omega)
      rw [Except.ok.inj ((hbox.eq rank hrank).symm.trans hzeros)] at hmem
      exact notMem_zeros (by simp) _ hmem

end Decomposed

end Reorganize
