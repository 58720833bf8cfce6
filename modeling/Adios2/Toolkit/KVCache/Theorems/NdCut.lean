import Adios2.Toolkit.KVCache.Theorems.Keys

-- Cutting a box out of one that encloses it.

namespace KVCache

open Boxes

section Arithmetic

theorem add64_of_lt {a b : Nat} (h : a + b < 2 ^ 64) : add64 a b = a + b := Nat.mod_eq_of_lt h

theorem sub64_of_le {a b : Nat} (ha : a < 2 ^ 64) (h : b ≤ a) : sub64 a b = a - b := by
  rw [sub64]
  omega

end Arithmetic

namespace QueryBox

variable {n : Nat} {b big cut : QueryBox n} {i : Fin n} {d : Nat}

-- The box lies in the other one in every dimension.
def Inside (b big : QueryBox n) : Prop :=
  ∀ i, big.start i ≤ b.start i ∧ b.start i + b.count i ≤ big.start i + big.count i

instance : Decidable (Inside b big) := by
  unfold Inside
  infer_instance

-- A box with elements whose size is a number.
structure Sized (b : QueryBox n) : Prop where
  bounded : b.Bounded
  pos     : ∀ i, 0 < b.count i
  small   : volume b.count < 2 ^ 64

theorem Sized.size (h : b.Sized) : b.size = volume b.count := Nat.mod_eq_of_lt h.small

theorem Inside.bounded (h : Inside b big) (hbig : big.Bounded) : b.Bounded := by
  intro i
  have := h i
  have := hbig i
  omega

theorem Inside.volume_le (h : Inside b big) : volume b.count ≤ volume big.count := by
  refine volume_mono fun i => ?_
  have := h i
  omega

theorem Inside.sized (h : Inside b big) (hbig : big.Sized) (hpos : ∀ i, 0 < b.count i) :
    b.Sized where
  bounded := h.bounded hbig.bounded
  pos     := hpos
  small   := h.volume_le.trans_lt hbig.small

theorem Inside.eq_of_volume (h : Inside b big) (hpos : ∀ i, 0 < b.count i)
    (hvol : volume big.count ≤ volume b.count) : b = big := by
  have hle : ∀ i, b.count i ≤ big.count i := fun i => by
    have := h i
    omega
  have hcount := eq_of_volume_le hpos hle hvol
  have hstart : b.start = big.start := by
    funext i
    have := h i
    rw [hcount] at this
    omega
  cases b
  cases big
  exact mk.injEq .. |>.mpr ⟨hstart, hcount⟩

theorem Inside.subset (h : Inside b big) : b.elements ⊆ big.elements := by
  intro x hx i
  have := h i
  have := hx i
  omega

section Slabs

-- The two parts of a box that is cut `d` behind its start.
def lower (big : QueryBox n) (i : Fin n) (d : Nat) : QueryBox n :=
  { big with count := Function.update big.count i d }

def upper (big : QueryBox n) (i : Fin n) (d : Nat) : QueryBox n where
  start := Function.update big.start i (big.start i + d)
  count := Function.update big.count i (big.count i - d)

theorem inside_lower (hd : d ≤ big.count i) : Inside (big.lower i d) big := by
  intro j
  by_cases hj : j = i
  · subst hj
    simp only [lower, Function.update_self]
    omega
  · simp [lower, Function.update_of_ne hj]

theorem inside_upper (hd : d ≤ big.count i) : Inside (big.upper i d) big := by
  intro j
  by_cases hj : j = i
  · subst hj
    simp only [upper, Function.update_self]
    omega
  · simp [upper, Function.update_of_ne hj]

-- What is cut off in front of a box or behind it.
inductive Slab (b big : QueryBox n) : QueryBox n → Prop
  | before (i : Fin n) (lt : big.start i < b.start i) :
      Slab b big (big.lower i (b.start i - big.start i))
  | after (i : Fin n) (lt : b.start i + b.count i < big.start i + big.count i) :
      Slab b big (big.upper i (b.start i + b.count i - big.start i))

theorem remained_lower (hbig : big.Bounded) (hpos : 0 < big.count i) (hd : d ≤ big.count i) :
    remained (big.lower i d) big = if d = big.count i then big else big.upper i d := by
  have hb := hbig i
  split
  case isTrue heq =>
    have hself : big.lower i d = big := by rw [heq, lower, Function.update_eq_self]
    rw [hself]
    simp [remained]
  case isFalse hne =>
    have hstart : ∀ j, (remained (big.lower i d) big).start j = (big.upper i d).start j := by
      intro j
      by_cases hj : j = i
      · subst hj
        simp [remained, lower, upper, hne, add64_of_lt (show big.start j + d < 2 ^ 64 by omega)]
      · simp [remained, lower, upper, Function.update_of_ne hj]
    have hcount : ∀ j, (remained (big.lower i d) big).count j = (big.upper i d).count j := by
      intro j
      by_cases hj : j = i
      · subst hj
        simp only [remained, lower, upper, hne, Function.update_self, and_false, if_false, if_true,
          add64_of_lt hb, add64_of_lt (show big.start j + d < 2 ^ 64 by omega)]
        rw [sub64_of_le hb (by omega)]
        omega
      · simp [remained, lower, upper, Function.update_of_ne hj]
    cases h : remained (big.lower i d) big
    rw [h] at hstart hcount
    exact mk.injEq .. |>.mpr ⟨funext hstart, funext hcount⟩

theorem remained_upper (hbig : big.Bounded) (hd : d < big.count i) :
    remained (big.upper i d) big = if d = 0 then big else big.lower i d := by
  have hb := hbig i
  split
  case isTrue heq =>
    have hself : big.upper i d = big := by
      subst heq
      simp [upper]
    rw [hself]
    simp [remained]
  case isFalse hne =>
    have hstart : ∀ j, (remained (big.upper i d) big).start j = (big.lower i d).start j := by
      intro j
      by_cases hj : j = i
      · subst hj
        simp [remained, lower, upper, hne]
      · simp [remained, lower, upper, Function.update_of_ne hj]
    have hcount : ∀ j, (remained (big.upper i d) big).count j = (big.lower i d).count j := by
      intro j
      by_cases hj : j = i
      · subst hj
        simp only [remained, lower, upper, hne, Function.update_self, Nat.add_eq_left, false_and,
          if_false]
        rw [sub64_of_le (by omega) (by omega)]
        omega
      · simp [remained, lower, upper, Function.update_of_ne hj]
    cases h : remained (big.upper i d) big
    rw [h] at hstart hcount
    exact mk.injEq .. |>.mpr ⟨funext hstart, funext hcount⟩

-- The box lies in what remains, which is not empty either.
theorem Slab.remained_inside (hslab : Slab b big cut) (h : Inside b big) (hbig : big.Sized) :
    Inside b (remained cut big) ∧ Inside (remained cut big) big ∧ (remained cut big).Sized := by
  have hself : Inside big big := fun i => ⟨Nat.le_refl _, Nat.le_refl _⟩
  cases hslab with
  | before i lt =>
    have hi := h i
    rw [remained_lower hbig.bounded (hbig.pos i) (by omega)]
    split
    case isTrue => exact ⟨h, hself, hbig⟩
    case isFalse hne =>
      have hin : Inside (big.upper i (b.start i - big.start i)) big := inside_upper (by omega)
      refine ⟨fun j => ?_, hin, hin.sized hbig fun j => ?_⟩ <;> by_cases hj : j = i
      · subst hj
        simp only [upper, Function.update_self]
        omega
      · simpa [upper, Function.update_of_ne hj] using h j
      · subst hj
        simp only [upper, Function.update_self]
        omega
      · simpa [upper, Function.update_of_ne hj] using hbig.pos j
  | after i lt =>
    have hi := h i
    rw [remained_upper hbig.bounded (by omega)]
    split
    case isTrue => exact ⟨h, hself, hbig⟩
    case isFalse hne =>
      have hin : Inside (big.lower i (b.start i + b.count i - big.start i)) big :=
        inside_lower (by omega)
      refine ⟨fun j => ?_, hin, hin.sized hbig fun j => ?_⟩ <;> by_cases hj : j = i
      · subst hj
        simp only [lower, Function.update_self]
        omega
      · simpa [lower, Function.update_of_ne hj] using h j
      · subst hj
        simp only [lower, Function.update_self]
        omega
      · simpa [lower, Function.update_of_ne hj] using hbig.pos j

-- Where the box has elements, what is cut off and what remains make up the whole.
theorem Slab.split (hslab : Slab b big cut) (h : Inside b big) (hbig : big.Sized)
    (hpos : ∀ i, 0 < b.count i) :
    cut.Sized ∧ Inside cut big ∧ cut.elements ∪ (remained cut big).elements = big.elements ∧
      Disjoint cut.elements (remained cut big).elements ∧
      volume cut.count < volume big.count ∧
      volume (remained cut big).count < volume big.count := by
  have ⟨_, hrem, hremSized⟩ := hslab.remained_inside h hbig
  have hle : ∀ {c : QueryBox n}, Inside c big → ∀ j, c.count j ≤ big.count j := by
    intro c hc j
    have := hc j
    omega
  cases hslab with
  | before i lt =>
    have hi := h i
    have := hpos i
    have hin : Inside (big.lower i (b.start i - big.start i)) big := inside_lower (by omega)
    have hsized : (big.lower i (b.start i - big.start i)).Sized := hin.sized hbig fun j => by
      by_cases hj : j = i
      · subst hj
        simp only [lower, Function.update_self]
        omega
      · simpa [lower, Function.update_of_ne hj] using hbig.pos j
    rw [remained_lower hbig.bounded (hbig.pos i) (by omega), if_neg (by omega)] at hrem hremSized ⊢
    refine ⟨hsized, hin, lower_union_upper (by omega), disjoint_lower_upper,
      volume_lt hsized.pos (hle hin) (i := i) ?_, volume_lt hremSized.pos (hle hrem) (i := i) ?_⟩
    · simp only [lower, Function.update_self]
      omega
    · simp only [upper, Function.update_self]
      omega
  | after i lt =>
    have hi := h i
    have := hpos i
    have hin : Inside (big.upper i (b.start i + b.count i - big.start i)) big :=
      inside_upper (by omega)
    have hsized : (big.upper i (b.start i + b.count i - big.start i)).Sized :=
      hin.sized hbig fun j => by
        by_cases hj : j = i
        · subst hj
          simp only [upper, Function.update_self]
          omega
        · simpa [upper, Function.update_of_ne hj] using hbig.pos j
    rw [remained_upper hbig.bounded (by omega), if_neg (by omega)] at hrem hremSized ⊢
    refine ⟨hsized, hin, (Set.union_comm _ _).trans (lower_union_upper (by omega)),
      disjoint_lower_upper.symm, volume_lt hsized.pos (hle hin) (i := i) ?_,
      volume_lt hremSized.pos (hle hrem) (i := i) ?_⟩
    · simp only [upper, Function.update_self]
      omega
    · simp only [lower, Function.update_self]
      omega

end Slabs

section Search

-- A slab, if there is one in the dimensions so far.
def Found (b big : QueryBox n) (cut : Cut n) : Prop := 0 < cut.size → Slab b big cut.box

theorem cutDimSize_pos (hbig : big.Sized) (hd : 0 < d) (hle : d ≤ big.count i) :
    ∃ size, cutDimSize big i d = .ok size ∧ 0 < size := by
  have hpos := hbig.pos i
  have ⟨k, hk⟩ := dvd_volume big.count i
  have hvol : 0 < volume big.count := volume_pos.mpr hbig.pos
  have hsmall := hbig.small
  have hkpos : 0 < k := Nat.pos_of_ne_zero fun h => by simp [hk, h] at hvol
  have hmul : k * d ≤ k * big.count i := Nat.mul_le_mul_left k hle
  have hdiv : volume big.count / big.count i = k := by rw [hk, Nat.mul_div_cancel_left k hpos]
  refine ⟨_, by rw [cutDimSize, if_neg hpos.ne']; rfl, ?_⟩
  rw [hbig.size, hdiv, Nat.mod_eq_of_lt (by rw [hk, Nat.mul_comm] at hsmall; omega)]
  exact Nat.mul_pos hkpos hd

variable {c : Cut n}

theorem Found.consider (hc : Found b big c) {size : Nat} {box : QueryBox n} (hpos : 0 < size)
    (hbox : Slab b big box) :
    Found b big (c.consider size box) ∧ c.size ≤ (c.consider size box).size ∧
      0 < (c.consider size box).size := by
  rw [Cut.consider]
  split
  case isTrue hgt => exact ⟨fun _ => hbox, Nat.le_of_lt hgt, hpos⟩
  case isFalse hle => exact ⟨hc, Nat.le_refl _, by omega⟩

theorem cutBefore_spec (h : Inside b big) (hbig : big.Sized) (hc : Found b big c) :
    ∃ c', b.cutBefore big c i = .ok c' ∧ Found b big c' ∧ c.size ≤ c'.size ∧
      (b.start i ≠ big.start i → 0 < c'.size) := by
  have hi := h i
  have hb := hbig.bounded i
  rw [cutBefore]
  split
  case isFalse heq => exact ⟨c, rfl, hc, Nat.le_refl _, fun hne => absurd hne heq⟩
  case isTrue hne =>
    have hdiff : sub64 (b.start i) (big.start i) = b.start i - big.start i :=
      sub64_of_le (by omega) hi.left
    have ⟨size, hsize, hpos⟩ := cutDimSize_pos (i := i) (d := b.start i - big.start i) hbig
      (by omega) (by omega)
    have ⟨hfound, hle, hpos'⟩ := hc.consider hpos (.before i (by omega))
    simp only [hdiff, hsize, Outcome.ok_bind]
    exact ⟨_, rfl, hfound, hle, fun _ => hpos'⟩

theorem cutAfter_spec (h : Inside b big) (hbig : big.Sized) (hc : Found b big c) :
    ∃ c', b.cutAfter big c i = .ok c' ∧ Found b big c' ∧ c.size ≤ c'.size ∧
      (b.start i + b.count i ≠ big.start i + big.count i → 0 < c'.size) := by
  have hi := h i
  have hb := hbig.bounded i
  have hend := add64_of_lt (h.bounded hbig.bounded i)
  rw [cutAfter, hend, add64_of_lt hb]
  split
  case isFalse heq => exact ⟨c, rfl, hc, Nat.le_refl _, fun hne => absurd hne heq⟩
  case isTrue hne =>
    have hdiff : sub64 (sub64 (big.start i + big.count i) (b.start i)) (b.count i) =
        big.count i - (b.start i + b.count i - big.start i) := by
      rw [sub64_of_le hb (by omega), sub64_of_le (by omega) (by omega)]
      omega
    have hstart : b.start i + b.count i =
        big.start i + (b.start i + b.count i - big.start i) := by omega
    have ⟨size, hsize, hpos⟩ := cutDimSize_pos (i := i)
      (d := big.count i - (b.start i + b.count i - big.start i)) hbig (by omega) (by omega)
    have ⟨hfound, hle, hpos'⟩ := hc.consider hpos (.after i (by omega))
    simp only [hdiff, hsize, Outcome.ok_bind]
    refine ⟨_, rfl, ?_⟩
    rw [upper, ← hstart] at hfound hle hpos'
    exact ⟨hfound, hle, fun _ => hpos'⟩

theorem cutDim_spec (h : Inside b big) (hbig : big.Sized) (hc : Found b big c) :
    ∃ c', b.cutDim big c i = .ok c' ∧ Found b big c' ∧ c.size ≤ c'.size ∧
      (c'.size = 0 → b.start i = big.start i ∧ b.count i = big.count i) := by
  rw [cutDim]
  split
  case isTrue heq => exact ⟨c, rfl, hc, Nat.le_refl _, fun _ => heq⟩
  case isFalse =>
    have ⟨c₁, h₁, hf₁, hle₁, hpos₁⟩ := cutBefore_spec (i := i) h hbig hc
    have ⟨c₂, h₂, hf₂, hle₂, hpos₂⟩ := cutAfter_spec (i := i) h hbig hf₁
    rw [h₁, Outcome.ok_bind, h₂]
    refine ⟨c₂, rfl, hf₂, hle₁.trans hle₂, fun hzero => ?_⟩
    have hstart : b.start i = big.start i := by
      by_contra hne
      have := hpos₁ hne
      omega
    have hend : b.start i + b.count i = big.start i + big.count i := by
      by_contra hne
      have := hpos₂ hne
      omega
    exact ⟨hstart, by omega⟩

theorem foldlM_cutDim (h : Inside b big) (hbig : big.Sized) (is : List (Fin n))
    (hc : Found b big c) :
    ∃ c', is.foldlM (b.cutDim big) c = .ok c' ∧ Found b big c' ∧ c.size ≤ c'.size ∧
      (c'.size = 0 → ∀ i ∈ is, b.start i = big.start i ∧ b.count i = big.count i) := by
  induction is generalizing c with
  | nil => exact ⟨c, rfl, hc, Nat.le_refl _, fun _ i hi => absurd hi List.not_mem_nil⟩
  | cons i is ih =>
    have ⟨c₁, h₁, hf₁, hle₁, heq₁⟩ := cutDim_spec (i := i) h hbig hc
    have ⟨c₂, h₂, hf₂, hle₂, heq₂⟩ := ih hf₁
    refine ⟨c₂, by rw [List.foldlM_cons, h₁, Outcome.ok_bind, h₂], hf₂, hle₁.trans hle₂, ?_⟩
    intro hzero j hj
    rcases List.mem_cons.mp hj with rfl | hj
    · exact heq₁ (by omega)
    · exact heq₂ hzero j hj

-- The largest slab is one as long as there is any.
theorem maxCut_spec (h : Inside b big) (hbig : big.Sized) :
    ∃ c, b.maxCut big = .ok c ∧ (c.size = 0 ∧ b = big ∨ 0 < c.size ∧ Slab b big c.box) := by
  have ⟨c, hc, hf, _, heq⟩ := foldlM_cutDim h hbig (List.finRange n)
    (c := { size := 0, box := zero }) (fun h => absurd h (Nat.lt_irrefl 0))
  refine ⟨c, hc, ?_⟩
  rcases Nat.eq_zero_or_pos c.size with hzero | hpos
  case inl =>
    have heq := heq hzero
    refine .inl ⟨hzero, ?_⟩
    cases b
    cases big
    exact mk.injEq .. |>.mpr ⟨funext fun i => (heq i (List.mem_finRange i)).left,
      funext fun i => (heq i (List.mem_finRange i)).right⟩
  case inr => exact .inr ⟨hpos, hf hpos⟩

-- In an empty box no slab has a size.
theorem maxCut_of_empty (h : Inside b big) (hempty : ∃ i, big.count i = 0) :
    ∃ c, b.maxCut big = .ok c ∧ c.size = 0 := by
  have ⟨k, hk⟩ := hempty
  have hsize : big.size = 0 := by
    have : volume big.count = 0 := Finset.prod_eq_zero (Finset.mem_univ k) hk
    rw [size, this]
    rfl
  have hslab : ∀ i d, big.count i ≠ 0 → cutDimSize big i d = .ok 0 := by
    intro i d hi
    rw [cutDimSize, if_neg hi, hsize]
    simp
  have hkeep : ∀ c : Cut n, ∀ box, c.consider 0 box = c := fun c box => by simp [Cut.consider]
  have hstep : ∀ (c : Cut n) i, b.cutDim big c i = .ok c := by
    intro c i
    have hi := h i
    rw [cutDim]
    split
    case isTrue => rfl
    case isFalse hne =>
      have hcount : big.count i ≠ 0 := fun hzero => hne ⟨by omega, by omega⟩
      have hbefore : b.cutBefore big c i = .ok c := by
        rw [cutBefore]
        split
        · simp only [hslab i _ hcount, Outcome.ok_bind, hkeep, Outcome.pure_eq]
        · rfl
      rw [hbefore, Outcome.ok_bind, cutAfter]
      split
      · simp only [hslab i _ hcount, Outcome.ok_bind, hkeep, Outcome.pure_eq]
      · rfl
  have hfold : ∀ (is : List (Fin n)) (c : Cut n), is.foldlM (b.cutDim big) c = .ok c := by
    intro is c
    induction is with
    | nil => rfl
    | cons i is ih => rw [List.foldlM_cons, hstep, Outcome.ok_bind, ih]
  exact ⟨_, hfold _ _, rfl⟩

end Search

section NdCut

-- Disjoint boxes that make up what the larger box has and the smaller one has not.
structure CutOut (b big : QueryBox n) (boxes : List (QueryBox n)) : Prop where
  disjoint : boxes.Pairwise fun c c' => Disjoint c.elements c'.elements
  union    : ∀ x, (∃ c ∈ boxes, x ∈ c.elements) ↔ x ∈ big.elements ∧ x ∉ b.elements

-- What is cut off has elements, and is less than the whole.
theorem ndCut_spec (fuel : Nat) (h : Inside b big) (hbig : big.Sized) (hpos : ∀ i, 0 < b.count i)
    (hfuel : volume big.count < fuel + volume b.count) :
    ∃ boxes, b.ndCut fuel big = .ok boxes ∧ CutOut b big boxes ∧
      ∀ c ∈ boxes, c.Sized ∧ Inside c big ∧ volume c.count < volume big.count := by
  induction fuel generalizing big with
  | zero =>
    have := h.volume_le
    omega
  | succ fuel ih =>
    rw [ndCut]
    split
    case isTrue heq =>
      have heq := toString_injective heq
      subst heq
      exact ⟨[], rfl, ⟨List.Pairwise.nil, by simp⟩, by simp⟩
    case isFalse hne =>
      have ⟨c, hc, hcut⟩ := maxCut_spec h hbig
      rw [hc, Outcome.ok_bind]
      rcases hcut with ⟨_, heq⟩ | ⟨hsize, hslab⟩
      case inl => exact absurd (heq ▸ rfl) hne
      case inr =>
        have ⟨hb, hrem, hremSized⟩ := hslab.remained_inside h hbig
        have ⟨hcSized, hcIn, hunion, hdisj, hcvol, hvol⟩ := hslab.split h hbig hpos
        have ⟨boxes, hboxes, hout, hall⟩ := ih hb hremSized (by omega)
        rw [if_pos hsize, hboxes, Outcome.ok_bind]
        refine ⟨c.box :: boxes, rfl, ⟨List.pairwise_cons.mpr ⟨?_, hout.disjoint⟩, ?_⟩, ?_⟩
        · intro c' hc'
          refine hdisj.mono_right fun x hx => ?_
          exact ((hout.union x).mp ⟨c', hc', hx⟩).left
        · intro x
          have hx := hout.union x
          rw [Set.disjoint_left] at hdisj
          rw [← hunion, Set.mem_union, List.exists_mem_cons_iff, hx]
          have hnot : x ∈ c.box.elements → x ∉ b.elements := fun hxc hxb =>
            hdisj hxc (hb.subset hxb)
          tauto
        · intro c' hc'
          rcases List.mem_cons.mp hc' with rfl | hc'
          · exact ⟨hcSized, hcIn, hcvol⟩
          · have ⟨hs, hin, hv⟩ := hall c' hc'
            refine ⟨hs, fun i => ?_, hv.trans hvol⟩
            have := hin i
            have := hrem i
            omega

-- A box without elements is never left over.
theorem ndCut_of_empty (h : Inside b big) (hbig : big.Sized) (hempty : ∃ i, b.count i = 0)
    (fuel : Nat) : b.ndCut fuel big = .error .outOfFuel := by
  have ⟨i, hi⟩ := hempty
  have hne : ∀ {c : QueryBox n}, c.Sized → ¬c.toString = b.toString := by
    intro c hc heq
    have := hc.pos i
    rw [toString_injective heq, hi] at this
    exact Nat.lt_irrefl 0 this
  induction fuel generalizing big with
  | zero => rfl
  | succ fuel ih =>
    have ⟨c, hc, hcut⟩ := maxCut_spec h hbig
    rw [ndCut, if_neg (hne hbig), hc, Outcome.ok_bind]
    rcases hcut with ⟨_, heq⟩ | ⟨hsize, hslab⟩
    case inl => exact absurd (heq ▸ rfl) (hne hbig)
    case inr =>
      have ⟨hb, _, hremSized⟩ := hslab.remained_inside h hbig
      rw [if_pos hsize, ih hb hremSized]
      rfl

theorem elements_nonempty : b.elements.Nonempty ↔ ∀ i, 0 < b.count i := points_nonempty

-- A box is cut out if it has elements, or there is nothing to cut.
theorem exists_ndCut_iff (h : Inside b big) (hbounded : big.Bounded)
    (hsmall : volume big.count < 2 ^ 64) :
    (∃ fuel boxes, b.ndCut fuel big = .ok boxes ∧ CutOut b big boxes) ↔
      big.elements = ∅ ∨ b.elements.Nonempty := by
  by_cases hbig : big.elements.Nonempty
  case pos =>
    have hsized : big.Sized := ⟨hbounded, elements_nonempty.mp hbig, hsmall⟩
    constructor
    case mp =>
      rintro ⟨fuel, boxes, hok, _⟩
      refine .inr (elements_nonempty.mpr fun i => ?_)
      by_contra hzero
      rw [ndCut_of_empty h hsized ⟨i, by omega⟩] at hok
      exact absurd hok (by simp)
    case mpr =>
      rintro (hempty | hb)
      case inl => exact absurd hempty hbig.ne_empty
      case inr =>
        have hpos := elements_nonempty.mp hb
        have := volume_pos.mpr hpos
        have ⟨boxes, hok, hout, _⟩ := ndCut_spec (volume big.count) h hsized hpos (by omega)
        exact ⟨_, boxes, hok, hout⟩
  case neg =>
    have hempty := Set.not_nonempty_iff_eq_empty.mp hbig
    refine ⟨fun _ => .inl hempty, fun _ => ⟨1, [], ?_, List.Pairwise.nil, by simp [hempty]⟩⟩
    rw [elements_nonempty, not_forall] at hbig
    have ⟨k, hk⟩ := hbig
    have ⟨c, hc, hzero⟩ := maxCut_of_empty h ⟨k, by omega⟩
    rw [ndCut, hc]
    split
    · rfl
    · rw [Outcome.ok_bind, hzero]
      rfl

end NdCut

end QueryBox

end KVCache
