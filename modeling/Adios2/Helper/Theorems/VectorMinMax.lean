import Mathlib
import Adios2.Helper.VectorMinMax
import Adios2.Helper.Theorems.SubblockExtremes

-- The vector instructions find the same bounds as a scan of the values.

namespace Helper

variable {t : IntegerType} {n : Nat}

section Comparison

open BitVec

variable {w : Nat}

theorem toNat_xor_intMin (hw : 0 < w) {x : BitVec w} (hx : x.msb = false) :
    (x ^^^ intMin w).toNat = x.toNat + 2 ^ (w - 1) := by
  have hand : x &&& intMin w = 0#w := by
    ext i hi
    rw [getElem_and, ← getLsbD_eq_getElem, ← getLsbD_eq_getElem, getLsbD_intMin]
    by_cases hlast : i + 1 = w
    · have hmsb : x.getLsbD i = x.msb := by
        rw [msb_eq_getLsbD_last]
        congr 1
        omega
      simp [hmsb, hx]
    · simp [hlast]
  have hxor : x ^^^ intMin w = x ||| intMin w := by
    ext i hi
    have hbit : (x[i] && (intMin w)[i]) = false := by
      rw [← getElem_and, hand, getElem_zero]
    rw [getElem_xor, getElem_or]
    cases hx : x[i] with
    | false => rw [Bool.false_xor, Bool.false_or]
    | true =>
      rw [hx, Bool.true_and] at hbit
      rw [hbit]
      rfl
  rw [hxor, ← add_eq_or_of_and_eq_zero _ _ hand, toNat_add_of_and_eq_zero hand,
    toNat_intMin_of_pos hw]

-- With its sign bit flipped a number has a sign and is less by half of the range.
theorem toInt_xor_intMin (hw : 0 < w) (x : BitVec w) :
    (x ^^^ intMin w).toInt = (x.toNat : ℤ) - 2 ^ (w - 1) := by
  obtain ⟨v, rfl⟩ : ∃ v, w = v + 1 := ⟨w - 1, by omega⟩
  have hmsb : (x ^^^ intMin (v + 1)).msb = !x.msb := by
    rw [msb_xor, msb_intMin, decide_eq_true hw, Bool.xor_true]
  rw [toInt_eq_msb_cond, hmsb]
  cases hx : x.msb with
  | false =>
    have hnat := toNat_xor_intMin hw hx
    simp only [Nat.add_sub_cancel, Bool.not_false, if_true] at hnat ⊢
    rw [hnat, pow_succ]
    push_cast
    ring
  | true =>
    have hy : (x ^^^ intMin (v + 1)).msb = false := by
      rw [hmsb, hx]
      rfl
    have hnat := toNat_xor_intMin hw hy
    rw [BitVec.xor_assoc, BitVec.xor_self, BitVec.xor_zero] at hnat
    simp only [Nat.add_sub_cancel, Bool.not_true] at hnat ⊢
    rw [hnat]
    push_cast
    simp

theorem IntegerType.width_pos (t : IntegerType) : 0 < t.width := by
  cases t <;> simp [IntegerType.width]

-- A comparison makes a mask of the lanes in which the first element is greater.
def Compares (cmpgt : Register t n → Register t n → Register t n) : Prop :=
  ∀ a b j, cmpgt a b j = ⟨if b j < a j then allOnes t.width else 0⟩

theorem compares_cmpgtEpi (ht : t.signed = true) : Compares (t := t) (n := n) cmpgtEpi := by
  intro a b j
  have hiff : (b j).bits.slt (a j).bits = true ↔ b j < a j := by
    rw [slt_eq_decide, decide_eq_true_iff, Element.lt_iff, Element.value, Element.value, if_pos ht,
      if_pos ht]
  simp only [cmpgtEpi, hiff]

theorem compares_unsignedCmpgtEpi (ht : t.signed = false) :
    Compares (t := t) (n := n) unsignedCmpgtEpi := by
  intro a b j
  have hiff : ((b j).bits ^^^ intMin t.width).slt ((a j).bits ^^^ intMin t.width) = true ↔
      b j < a j := by
    have hne : ¬t.signed = true := by rw [ht]; exact Bool.false_ne_true
    rw [slt_eq_decide, decide_eq_true_iff, Element.lt_iff, Element.value, Element.value, if_neg hne,
      if_neg hne, toInt_xor_intMin t.width_pos, toInt_xor_intMin t.width_pos]
    omega
  simp only [unsignedCmpgtEpi, cmpgtEpi, xorSi128, set1, hiff]

-- The mask selects one of two elements.
theorem select (v m : Element t) (p : Prop) [Decidable p] :
    (⟨(v.bits &&& (if p then allOnes t.width else 0)) |||
      (~~~(if p then allOnes t.width else 0) &&& m.bits)⟩ : Element t) = if p then v else m := by
  split <;> simp

end Comparison

section Lanes

variable {values : List (Element t)} {first : Element t} {count : Nat}

-- What a lane has seen after some turns, if its elements begin at `r`.
def laneValues (values : List (Element t)) (first : Element t) (count r turns : Nat) :
    Set (Element t) :=
  {first} ∪ {v | ∃ k < turns, values[k * count + r]? = some v}

theorem laneValues_zero (values : List (Element t)) (first : Element t) (count r : Nat) :
    laneValues values first count r 0 = {first} := by
  simp [laneValues]

theorem laneValues_succ (first : Element t) {r turns : Nat} {v : Element t}
    (hv : values[turns * count + r]? = some v) :
    laneValues values first count r (turns + 1) = laneValues values first count r turns ∪ {v} := by
  ext w
  simp only [laneValues, Set.mem_union, Set.mem_singleton_iff, Set.mem_ofPred_eq,
    Nat.lt_succ_iff_lt_or_eq, or_and_right, exists_or, exists_eq_left, hv, Option.some.injEq,
    or_assoc, eq_comm (a := v)]

-- All lanes together have seen the values before the tail.
theorem iUnion_laneValues (hcount : 0 < count) (turns : Nat) :
    {v | ∃ r < count, v ∈ laneValues values first count r turns} =
      {first} ∪ valuesIn values 0 (turns * count) := by
  ext v
  constructor
  case mp =>
    rintro ⟨r, hr, hfirst | ⟨k, hk, hv⟩⟩
    · exact .inl hfirst
    · refine .inr ⟨k * count + r, Nat.zero_le _, ?_, hv⟩
      have hle : (k + 1) * count ≤ turns * count := Nat.mul_le_mul_right count hk
      rw [Nat.succ_mul] at hle
      omega
  case mpr =>
    rintro (hfirst | ⟨i, _, hi, hv⟩)
    · exact ⟨0, hcount, .inl hfirst⟩
    · refine ⟨i % count, Nat.mod_lt i hcount, .inr ⟨i / count, ?_, ?_⟩⟩
      · exact (Nat.div_lt_iff_lt_mul hcount).mpr hi
      · rwa [Nat.div_add_mod']

theorem loadu_spec {i : Nat} (h : i + n ≤ values.length) :
    ∃ a : Register t n, loadu n values i = .ok a ∧ ∀ j, values[i + j.val]? = some (a j) := by
  have hlt (j : Fin n) : i + j < values.length := by
    have := j.isLt
    omega
  refine ⟨fun j => values.get ⟨i + j, hlt j⟩, ?_, fun j => ?_⟩
  · rw [loadu, dif_pos h]
  · exact List.getElem?_eq_getElem (hlt j)

-- A lane takes one more value.
theorem extremes_lane {r turns : Nat} {v : Element t} {p : Element t × Element t}
    (h : Extremes (laneValues values first count r turns) p)
    (hv : values[turns * count + r]? = some v) :
    Extremes (laneValues values first count r (turns + 1))
      (if v < p.1 then v else p.1, if v > p.2 then v else p.2) := by
  have hu := h.union (.singleton v)
  have hs := laneValues_succ first hv
  rw [← hs] at hu
  exact hu

-- The bounds of all lanes together
theorem extremes_lanes (hn : 0 < n) {part : Fin n → Set (Element t)} {vmin vmax : Register t n}
    (h : ∀ j, Extremes (part j) (vmin j, vmax j)) :
    ∃ b others, List.ofFn (fun j => (vmin j, vmax j)) = b :: others ∧
      Extremes {v | ∃ j, v ∈ part j} (joinBounds b others) := by
  obtain ⟨m, rfl⟩ : ∃ m, n = m + 1 := ⟨n - 1, by omega⟩
  refine ⟨(vmin 0, vmax 0), (List.finRange m).map fun j => (vmin j.succ, vmax j.succ), ?_, ?_⟩
  · rw [List.ofFn_succ, List.ofFn_eq_map]
  · have hjoin := extremes_join (h 0) fun j (_ : j ∈ List.finRange m) => h j.succ
    have hset : part 0 ∪ {v | ∃ j ∈ List.finRange m, v ∈ part j.succ} =
        {v | ∃ j, v ∈ part j} := by
      ext v
      simp [Fin.exists_fin_succ]
    rwa [hset] at hjoin

end Lanes

section Loops

variable {values : List (Element t)} {first : Element t} {count size turns : Nat}
  {bounds : Element t × Element t}

theorem scalarTail_spec {m : Nat} {b : Element t × Element t} (hfits : size ≤ values.length)
    (hfirst : values[0]? = some first) (hpos : 0 < size) (hm : m ≤ size)
    (h : Extremes ({first} ∪ valuesIn values 0 m) b) :
    ∃ p, scalarTail values size b m = .ok p ∧ Extremes (valuesIn values 0 size) p := by
  refine ⟨_, if_neg (not_lt.mpr hfits), ?_⟩
  have hscalar := extremes_scalar h ((values.take size).drop m)
  have hrest : {v | v ∈ (values.take size).drop m} = valuesIn values m size := by
    rw [List.drop_take, take_drop_values, Nat.add_sub_cancel' hm]
  have hset : {first} ∪ valuesIn values 0 m ∪ valuesIn values m size = valuesIn values 0 size := by
    ext v
    constructor
    case mp =>
      rintro ((hv | ⟨i, _, hi, hv⟩) | ⟨i, _, hi, hv⟩)
      · exact ⟨0, le_rfl, hpos, Set.mem_singleton_iff.mp hv ▸ hfirst⟩
      · exact ⟨i, Nat.zero_le i, by omega, hv⟩
      · exact ⟨i, Nat.zero_le i, hi, hv⟩
    case mpr =>
      rintro ⟨i, _, hi, hv⟩
      rcases Nat.lt_or_ge i m with hlt | hge
      · exact .inl (.inr ⟨i, Nat.zero_le i, hlt, hv⟩)
      · exact .inr ⟨i, hge, hi, hv⟩
  rwa [hrest, hset] at hscalar

-- The vectors end where a last part of a vector begins.
theorem loop_end (count size : Nat) :
    (size - size % count) / count * count = size - size % count := by
  refine Nat.div_mul_cancel ?_
  exact Nat.dvd_sub_mod size

theorem sse2Turn_spec {cmpgt : Register t n → Register t n → Register t n} (hc : Compares cmpgt)
    {vmin vmax : Register t n} (hfits : turns * count + n ≤ values.length)
    (h : ∀ j : Fin n, Extremes (laneValues values first count j turns) (vmin j, vmax j)) :
    ∃ vmin' vmax', sse2Turn values cmpgt (vmin, vmax) (turns * count) = .ok (vmin', vmax') ∧
      ∀ j : Fin n, Extremes (laneValues values first count j (turns + 1)) (vmin' j, vmax' j) := by
  have ⟨v, hload, hv⟩ := loadu_spec hfits
  refine ⟨_, _, by rw [sse2Turn, hload]; rfl, fun j => ?_⟩
  have hlane := extremes_lane (h j) (hv j)
  simp only [orSi128, andSi128, andnotSi128, hc v vmax j, hc vmin v j, select]
  exact hlane

theorem sse2_loop (first : Element t) {cmpgt : Register t n → Register t n → Register t n}
    (hc : Compares cmpgt) (hfits : turns * n ≤ values.length) :
    ∃ vmin vmax : Register t n, ((List.range turns).map (· * n)).foldlM (sse2Turn values cmpgt)
        (set1 first, set1 first) = .ok (vmin, vmax) ∧
      ∀ j : Fin n, Extremes (laneValues values first n j turns) (vmin j, vmax j) := by
  induction turns with
  | zero => exact ⟨_, _, rfl, fun j => laneValues_zero values first n j ▸ .singleton first⟩
  | succ turns ih =>
    rw [Nat.succ_mul] at hfits
    have ⟨vmin, vmax, hloop, hlanes⟩ := ih (by omega)
    have ⟨vmin', vmax', hturn, hlanes'⟩ := sse2Turn_spec hc hfits hlanes
    refine ⟨vmin', vmax', ?_, hlanes'⟩
    rw [List.range_succ, List.map_append, List.foldlM_append, hloop, Outcome.ok_bind,
      List.map_singleton, List.foldlM_cons, hturn]
    rfl

theorem sse2_spec {cmpgt : Register t t.lanes → Register t t.lanes → Register t t.lanes}
    (hc : Compares cmpgt) (hlanes : 0 < t.lanes) (hpos : 0 < size) (hfits : size ≤ values.length) :
    ∃ p, sse2MinMaxInt t.lanes values size bounds cmpgt = .ok p ∧
      Extremes (valuesIn values 0 size) p := by
  have hend := loop_end t.lanes size
  have ⟨first, hfirst⟩ : ∃ first, values[0]? = some first :=
    ⟨_, List.getElem?_eq_getElem (by omega)⟩
  have ⟨vmin, vmax, hloop, hlane⟩ := sse2_loop first hc
    (show (size - size % t.lanes) / t.lanes * t.lanes ≤ values.length by omega)
  have ⟨b, others, hofFn, hjoin⟩ := extremes_lanes hlanes hlane
  have hset : {v | ∃ j : Fin t.lanes, v ∈ laneValues values first t.lanes j
      ((size - size % t.lanes) / t.lanes)} =
        {first} ∪ valuesIn values 0 ((size - size % t.lanes) / t.lanes * t.lanes) := by
    rw [← iUnion_laneValues hlanes]
    ext v
    simp [Fin.exists_iff]
  rw [hset] at hjoin
  have ⟨p, htail, hp⟩ := scalarTail_spec hfits hfirst hpos (by omega) hjoin
  refine ⟨p, ?_, hp⟩
  rw [sse2MinMaxInt, if_neg hpos.ne', hfirst, Option.orUndefined_some, Outcome.ok_bind]
  dsimp only [loopStarts]
  rw [hloop, Outcome.ok_bind]
  dsimp only
  rw [hofFn]
  exact htail

theorem extremes_min_max {s : Set (Element t)} {v m M : Element t} (h : Extremes s (m, M)) :
    Extremes (s ∪ {v}) (min m v, max M v) :=
  ⟨h.left.union isLeast_singleton, h.right.union isGreatest_singleton⟩

-- Of the two pairs of vectors the second one begins half of the way.
theorem neonTurn_spec {a b : Register t n × Register t n} (hcount : count = 2 * n)
    (hfits : turns * count + count ≤ values.length)
    (ha : ∀ j : Fin n, Extremes (laneValues values first count j turns) (a.1 j, a.2 j))
    (hb : ∀ j : Fin n, Extremes (laneValues values first count (n + j) turns) (b.1 j, b.2 j)) :
    ∃ a' b', neonTurn count values (a, b) (turns * count) = .ok (a', b') ∧
      (∀ j : Fin n, Extremes (laneValues values first count j (turns + 1)) (a'.1 j, a'.2 j)) ∧
      ∀ j : Fin n, Extremes (laneValues values first count (n + j) (turns + 1))
        (b'.1 j, b'.2 j) := by
  have hhalf : count / 2 = n := by omega
  have ⟨v, hload, hv⟩ := loadu_spec (n := n) (show turns * count + n ≤ values.length by omega)
  have ⟨u, hload', hu⟩ := loadu_spec (n := n)
    (show turns * count + count / 2 + n ≤ values.length by omega)
  obtain ⟨amin, amax⟩ := a
  obtain ⟨bmin, bmax⟩ := b
  refine ⟨(vminq amin v, vmaxq amax v), (vminq bmin u, vmaxq bmax u), ?_, fun j => ?_, fun j => ?_⟩
  · rw [neonTurn, hload, Outcome.ok_bind, hload']
    rfl
  · rw [laneValues_succ first (hv j)]
    exact extremes_min_max (ha j)
  · have huj := hu j
    rw [hhalf, Nat.add_assoc] at huj
    rw [laneValues_succ first huj]
    exact extremes_min_max (hb j)

theorem neon_loop (first : Element t) (hcount : count = 2 * n) (hfits : turns * count ≤ values.length) :
    ∃ a b : Register t n × Register t n,
      ((List.range turns).map (· * count)).foldlM (neonTurn count values)
        ((set1 first, set1 first), (set1 first, set1 first)) = .ok (a, b) ∧
      (∀ j : Fin n, Extremes (laneValues values first count j turns) (a.1 j, a.2 j)) ∧
      ∀ j : Fin n, Extremes (laneValues values first count (n + j) turns) (b.1 j, b.2 j) := by
  induction turns with
  | zero =>
    exact ⟨_, _, rfl, fun j => laneValues_zero values first count j ▸ .singleton first,
      fun j => laneValues_zero values first count (n + j) ▸ .singleton first⟩
  | succ turns ih =>
    rw [Nat.succ_mul] at hfits
    have ⟨a, b, hloop, ha, hb⟩ := ih (by omega)
    have ⟨a', b', hturn, ha', hb'⟩ := neonTurn_spec hcount hfits ha hb
    refine ⟨a', b', ?_, ha', hb'⟩
    rw [List.range_succ, List.map_append, List.foldlM_append, hloop, Outcome.ok_bind,
      List.map_singleton, List.foldlM_cons, hturn]
    rfl

-- The horizontal minimum and maximum
theorem vminvq_spec (hn : 0 < n) {part : Fin n → Set (Element t)} {a : Register t n}
    (h : ∀ j, IsLeast (part j) (a j)) :
    ∃ m, vminvq a = .ok m ∧ IsLeast {v | ∃ j, v ∈ part j} m := by
  have ⟨m, hm⟩ : ∃ m, (List.ofFn a).min? = some m := by
    cases hmin : (List.ofFn a).min? with
    | none =>
      have hnil := congrArg List.length (List.min?_eq_none_iff.mp hmin)
      rw [List.length_ofFn] at hnil
      exact absurd hnil hn.ne'
    | some m => exact ⟨m, rfl⟩
  refine ⟨m, by rw [vminvq, hm, Option.orUndefined_some], ?_⟩
  have ⟨hmem, hle⟩ := List.min?_eq_some_iff.mp hm
  have ⟨j, hj⟩ := (List.mem_ofFn' a m).mp hmem
  constructor
  case left => exact ⟨j, hj ▸ (h j).left⟩
  case right =>
    rintro v ⟨i, hv⟩
    exact (hle _ ((List.mem_ofFn' a _).mpr ⟨i, rfl⟩)).trans ((h i).right hv)

theorem vmaxvq_spec (hn : 0 < n) {part : Fin n → Set (Element t)} {a : Register t n}
    (h : ∀ j, IsGreatest (part j) (a j)) :
    ∃ m, vmaxvq a = .ok m ∧ IsGreatest {v | ∃ j, v ∈ part j} m := by
  have ⟨m, hm⟩ : ∃ m, (List.ofFn a).max? = some m := by
    cases hmax : (List.ofFn a).max? with
    | none =>
      have hnil := congrArg List.length (List.max?_eq_none_iff.mp hmax)
      rw [List.length_ofFn] at hnil
      exact absurd hnil hn.ne'
    | some m => exact ⟨m, rfl⟩
  refine ⟨m, by rw [vmaxvq, hm, Option.orUndefined_some], ?_⟩
  have ⟨hmem, hge⟩ := List.max?_eq_some_iff.mp hm
  have ⟨j, hj⟩ := (List.mem_ofFn' a m).mp hmem
  constructor
  case left => exact ⟨j, hj ▸ (h j).left⟩
  case right =>
    rintro v ⟨i, hv⟩
    exact ((h i).right hv).trans (hge _ ((List.mem_ofFn' a _).mpr ⟨i, rfl⟩))

theorem neon_spec (hlanes : 0 < t.lanes) (hcount : count = 2 * t.lanes) (hpos : 0 < size)
    (hfits : size ≤ values.length) :
    ∃ p, neonMinMaxInt count values size bounds = .ok p ∧
      Extremes (valuesIn values 0 size) p := by
  have hend := loop_end count size
  have ⟨first, hfirst⟩ : ∃ first, values[0]? = some first :=
    ⟨_, List.getElem?_eq_getElem (by omega)⟩
  have ⟨a, b, hloop, ha, hb⟩ := neon_loop first hcount
    (show (size - size % count) / count * count ≤ values.length by omega)
  obtain ⟨vmin, vmax⟩ := a
  obtain ⟨vmin2, vmax2⟩ := b
  have ⟨m, hm, hleast⟩ := vminvq_spec hlanes (a := vminq vmin vmin2) fun j =>
    (ha j).left.union (hb j).left
  have ⟨M, hM, hgreatest⟩ := vmaxvq_spec hlanes (a := vmaxq vmax vmax2) fun j =>
    (ha j).right.union (hb j).right
  have hset : {v | ∃ j : Fin t.lanes, v ∈ laneValues values first count j
      ((size - size % count) / count) ∪ laneValues values first count (t.lanes + j)
        ((size - size % count) / count)} =
        {first} ∪ valuesIn values 0 ((size - size % count) / count * count) := by
    rw [← iUnion_laneValues (by omega : 0 < count)]
    ext v
    constructor
    case mp =>
      rintro ⟨j, hv | hv⟩
      · exact ⟨j, by omega, hv⟩
      · exact ⟨t.lanes + j, by omega, hv⟩
    case mpr =>
      rintro ⟨r, hr, hv⟩
      rcases Nat.lt_or_ge r t.lanes with hlt | hge
      · exact ⟨⟨r, hlt⟩, .inl hv⟩
      · refine ⟨⟨r - t.lanes, by omega⟩, .inr ?_⟩
        rwa [Nat.add_sub_cancel' hge]
  rw [hset] at hleast hgreatest
  have hextremes : Extremes ({first} ∪ valuesIn values 0 ((size - size % count) / count * count))
      (m, M) := ⟨hleast, hgreatest⟩
  have ⟨p, htail, hp⟩ := scalarTail_spec hfits hfirst hpos (by omega) hextremes
  refine ⟨p, ?_, hp⟩
  rw [neonMinMaxInt, if_neg hpos.ne', hfirst, Option.orUndefined_some, Outcome.ok_bind]
  dsimp only [loopStarts]
  rw [hloop, Outcome.ok_bind]
  dsimp only
  rw [hm, Outcome.ok_bind, hM]
  exact htail

end Loops

section Types

variable {platform : Platform} {values : List (Element t)} {size threads : Nat}
  {bounds : Element t × Element t}

-- The types with a specialisation
def Specialised : Platform → IntegerType → Bool
  | .other, _                         => false
  | _, .char _ | _, .int64 | _, .uint64 => false
  | _, _                              => true

-- Whatever the platform, the function finds what a scan of the values finds.
theorem getMinMaxOn_eq (hfits : size ≤ values.length) :
    getMinMaxOn platform t values size bounds =
      getMinMax (Specialised platform t) values size bounds := by
  rcases Nat.eq_zero_or_pos size with rfl | hpos
  case inl =>
    cases platform <;> cases t <;> rfl
  case inr =>
    have ⟨p, hp, hextremes⟩ := getMinMax_eq (Specialised platform t) values 0 bounds hpos
      (by omega)
    rw [List.drop_zero] at hp
    rw [Nat.zero_add] at hextremes
    have hof {f : Outcome (Element t × Element t)}
        (hf : ∃ q, f = .ok q ∧ Extremes (valuesIn values 0 size) q) :
        f = getMinMax (Specialised platform t) values size bounds := by
      have ⟨q, hq, hextremes'⟩ := hf
      rw [hp, hq, hextremes.unique hextremes']
    cases platform with
    | other => cases t <;> rfl
    | aarch64 =>
      cases t with
      | char _ | int64 | uint64 => rfl
      | int8 | uint8 | int16 | uint16 | int32 | uint32 =>
        exact hof (neon_spec (by decide) (by decide) hpos hfits)
    | x86_64 =>
      cases t with
      | char _ | int64 | uint64 => rfl
      | int8 | int16 | int32 =>
        exact hof (sse2_spec (compares_cmpgtEpi rfl) (by decide) hpos hfits)
      | uint8 | uint16 | uint32 =>
        exact hof (sse2_spec (compares_unsignedCmpgtEpi rfl) (by decide) hpos hfits)

theorem mapM_congr {ι α : Type} {l : List ι} {f g : ι → Outcome α} (h : ∀ i ∈ l, f i = g i) :
    l.mapM f = l.mapM g := by
  induction l with
  | nil => rfl
  | cons i l ih =>
    have ⟨hi, hl⟩ := List.forall_mem_cons.mp h
    rw [List.mapM_cons, List.mapM_cons, hi, ih hl]

theorem getMinMaxThreadsOn_eq :
    getMinMaxThreadsOn platform t values values.length bounds threads =
      getMinMaxThreads ⟨0⟩ (Specialised platform t) values values.length bounds threads := by
  unfold getMinMaxThreadsOn getMinMaxThreads
  rw [getMinMaxOn_eq le_rfl]
  dsimp only
  by_cases hthreads : threads = 0
  · rw [if_pos hthreads, if_pos hthreads]
  · have hparts : (List.range threads).mapM (fun i => getMinMaxOn platform t
        (values.drop (values.length / threads * i))
        (if i = threads - 1 then values.length / threads + values.length % threads
          else values.length / threads) (⟨0⟩, ⟨0⟩)) =
        (List.range threads).mapM fun i => getMinMax (Specialised platform t)
          (values.drop (values.length / threads * i))
          (if i = threads - 1 then values.length / threads + values.length % threads
            else values.length / threads) (⟨0⟩, ⟨0⟩) := mapM_congr fun i hi => getMinMaxOn_eq ?_
    · rw [hparts]
      congr 3
      cases (List.range threads).mapM fun i => getMinMax (Specialised platform t)
          (values.drop (values.length / threads * i))
          (if i = threads - 1 then values.length / threads + values.length % threads
            else values.length / threads) (⟨0⟩, ⟨0⟩) with
      | error fault => rfl
      | ok parts => cases parts <;> rfl
    · have hi := List.mem_range.mp hi
      have hall := Nat.div_add_mod' values.length threads
      have hle : values.length / threads * (i + 1) ≤ values.length / threads * threads :=
        Nat.mul_le_mul_left _ hi
      rw [Nat.mul_succ] at hle
      rw [List.length_drop]
      split
      case isTrue hlast =>
        have heq : values.length / threads * i + values.length / threads =
            values.length / threads * threads := by
          rw [← Nat.mul_succ, hlast, Nat.succ_eq_add_one, Nat.sub_add_cancel (by omega)]
        omega
      case isFalse => omega

variable {first : Element t} {rest : List (Element t)}

theorem extremes_scan (first : Element t) (rest : List (Element t)) :
    Extremes {v | v ∈ first :: rest} (getMinMaxScalar rest (first, first)) := by
  have hscalar := extremes_scalar (.singleton first) rest
  have hset : {first} ∪ {v | v ∈ rest} = {v | v ∈ first :: rest} := by
    ext v
    simp
  rwa [hset] at hscalar

-- Whatever the platform and the type, one call finds what a scan of the values finds, and threads do
-- exactly when there are threads for the values and values for the threads, or zero lies between the
-- values.
theorem getMinMaxThreads_scans (platform : Platform) (t : IntegerType) (first : Element t)
    (rest : List (Element t)) (bounds : Element t × Element t) (threads : Nat) :
    getMinMaxOn platform t (first :: rest) (first :: rest).length bounds =
        .ok (getMinMaxScalar rest (first, first)) ∧
      (getMinMaxThreadsOn platform t (first :: rest) (first :: rest).length bounds threads =
          .ok (getMinMaxScalar rest (first, first)) ↔
        ThreadsSuffice ⟨0⟩ (Specialised platform t) (first :: rest) threads) := by
  have hscan := extremes_scan first rest
  constructor
  case left =>
    have ⟨p, hp, hextremes⟩ := getMinMax_all (Specialised platform t) bounds
      (List.cons_ne_nil first rest)
    rw [getMinMaxOn_eq le_rfl, hp, hextremes.unique hscan]
  case right =>
    rw [getMinMaxThreadsOn_eq, ← getMinMaxThreads_iff bounds (List.cons_ne_nil first rest)]
    constructor
    case mp => exact fun h => ⟨_, h, hscan⟩
    case mpr =>
      rintro ⟨p, hp, hextremes⟩
      rw [hp, hextremes.unique hscan]

-- No threads, and more threads than values
theorem not_scans_ones :
    getMinMaxThreadsOn .x86_64 .uint8 (⟨1⟩ :: List.replicate 999999 ⟨1⟩)
        (⟨1⟩ :: List.replicate 999999 ⟨1⟩ : List (Element .uint8)).length (⟨0⟩, ⟨0⟩) 0 =
      .error .undefined ∧
    getMinMaxThreadsOn .x86_64 .uint8 (⟨1⟩ :: List.replicate 999999 ⟨1⟩)
        (⟨1⟩ :: List.replicate 999999 ⟨1⟩ : List (Element .uint8)).length (⟨0⟩, ⟨0⟩) 2000000 ≠
      .ok (getMinMaxScalar (List.replicate 999999 ⟨1⟩) (⟨1⟩, ⟨1⟩)) := by
  have hlength : (⟨1⟩ :: List.replicate 999999 ⟨1⟩ : List (Element .uint8)).length = 1000000 := by
    rw [List.length_cons, List.length_replicate]
  constructor
  case left =>
    rw [hlength, getMinMaxThreadsOn, if_neg (by decide), if_neg (by decide), if_pos rfl]
  case right =>
    intro h
    rw [getMinMaxThreadsOn_eq] at h
    have hsuffice := (getMinMaxThreads_iff _ (List.cons_ne_nil _ _)).mp
      ⟨_, h, extremes_scan _ _⟩
    have ⟨_, hmore⟩ := hsuffice (by rw [hlength]) (by decide)
    have ⟨⟨v, hv, hle⟩, _⟩ := hmore (by rw [hlength]; decide) rfl
    have hone : v = ⟨1⟩ := by
      rcases List.mem_cons.mp hv with heq | hmem
      · exact heq
      · exact List.eq_of_mem_replicate hmem
    rw [hone] at hle
    exact absurd hle (by decide)

end Types

end Helper
