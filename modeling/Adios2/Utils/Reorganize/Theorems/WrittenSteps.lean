import Adios2.Utils.Reorganize.Theorems.Decomposition

-- A step as the ranks write it together. The constructor lets decompositions through that are wrong.

namespace Reorganize

open Bytes Grid RowMajor BP5 Helper

section Steps

variable {rank : Nat} {np : List Int} {vars : List (Option Variable)} {infos : List VarInfo}

theorem product_eq (count : Dims) : product count % 2 ^ 64 = count.prod % 2 ^ 64 := by
  rw [product, List.foldl_mul_mod, Nat.one_mul]

theorem product_lt (count : Dims) : product count < 2 ^ 64 := by
  rw [product]
  rcases List.eq_nil_or_concat' count with rfl | ⟨init, c, rfl⟩
  case inl => decide
  case inr =>
    rw [List.foldl_append]
    exact Nat.mod_lt _ (by decide)

theorem product_of_lt {count : Dims} (h : count.prod < 2 ^ 64) : product count = count.prod := by
  have := product_eq count
  rwa [Nat.mod_eq_of_lt (product_lt count), Nat.mod_eq_of_lt h] at this

theorem processVariables_eq_ok (h : processVariables rank np vars = .ok (some infos)) :
    List.Forall₂ (fun v vi => processVariable rank np v = .ok (some vi)) vars infos := by
  induction vars generalizing infos with
  | nil =>
    cases h
    exact .nil
  | cons v vars ih =>
    rw [processVariables] at h
    obtain ⟨vi, hvi, h⟩ := Outcome.bind_eq_ok.mp h
    cases vi with
    | none => nomatch h
    | some vi =>
      obtain ⟨rest, hrest, h⟩ := Outcome.bind_eq_ok.mp h
      have ⟨infos', hinfos', heq⟩ := Option.map_eq_some_iff.mp (Except.ok.inj h)
      subst hinfos'
      subst heq
      exact .cons hvi (ih hrest)

theorem processMetadata_eq_ok {attributes : Nat}
    (h : processMetadata rank np vars attributes = .ok (some infos)) :
    processVariables rank np vars = .ok (some infos) := by
  unfold processMetadata at h
  obtain ⟨varinfo, hvarinfo, h⟩ := Outcome.bind_eq_ok.mp h
  have hfilter := Except.ok.inj h
  rw [hvarinfo, (Option.filter_eq_some_iff.mp hfilter).1]

theorem points_eq_empty {start count : Dims} (hlen : start.length = count.length) :
    points start count = ∅ ↔ count.prod = 0 := by
  rw [← Set.not_nonempty_iff_eq_empty, points_nonempty_iff hlen, List.prod_eq_zero_iff]
  constructor
  · intro h
    by_contra hmem
    exact h fun c hc => Nat.pos_of_ne_zero fun hzero => hmem (hzero ▸ hc)
  · exact fun hmem h => absurd (h 0 hmem) (Nat.lt_irrefl 0)

theorem prod_le_of_inside {start count shape : Dims} (hlen : start.length = count.length)
    (h : List.Forall₂ (fun (b : Nat × Nat) total => b.1 + b.2 ≤ total) (start.zip count) shape) :
    count.prod ≤ shape.prod := by
  induction start generalizing count shape with
  | nil =>
    obtain rfl := List.length_eq_zero_iff.mp hlen.symm
    cases h
    exact le_rfl
  | cons s start ih =>
    cases count with
    | nil => cases hlen
    | cons c count =>
      cases h with
      | cons hle hrest =>
        rw [List.prod_cons, List.prod_cons]
        exact Nat.mul_le_mul ((Nat.le_add_left c s).trans hle) (ih (Nat.succ.inj hlen) hrest)

-- What a rank writes of a global array is its box.
theorem region_globalArray {size : Nat} {v : Variable} {vi : VarInfo} {box : Nat → Dims × Dims}
    (hshape : v.shapeID = .globalArray) (hne : v.shape ≠ [])
    (hbox : Decomposed size np v.shape box) (hrank : rank < size)
    (h : processVariable rank np (some v) = .ok (some vi)) :
    vi.region = points (box rank).1 (box rank).2 := by
  have hlocal : v.shapeID ≠ .localArray := by
    rw [hshape]
    decide
  have ⟨hstart, hcount⟩ := hbox.length rank hrank
  have hlen := hstart.trans hcount.symm
  simp only [processVariable, hshape, true_or, if_true, decompose, if_neg hne,
    hbox.eq rank hrank, Outcome.ok_bind, Outcome.pure_eq, reduceCtorEq, if_false] at h
  cases h
  have hfits := v.fits
  rw [if_neg hlocal] at hfits
  have hle : (box rank).2.prod * v.elementSize < 2 ^ 64 :=
    (Nat.mul_le_mul_right _ (prod_le_of_inside hlen (hbox.inside rank hrank))).trans_lt hfits
  have hprod : (box rank).2.prod < 2 ^ 64 := (Nat.le_mul_of_pos_right _ v.sizePos).trans_lt hle
  simp only [VarInfo.region, hshape, if_true, product_of_lt hprod, Nat.mod_eq_of_lt hle]
  split
  case isTrue hzero =>
    have hempty := (Nat.mul_eq_zero.mp hzero).resolve_right v.sizePos.ne'
    exact ((points_eq_empty hlen).mpr hempty).symm
  case isFalse => rfl

-- Values and local arrays are written by the first rank.
theorem region_value {v : Variable} {vi : VarInfo} (hlocal : v.shapeID ≠ .localArray)
    (hnil : v.shape = []) (h : processVariable rank np (some v) = .ok (some vi)) :
    vi.region = if rank = 0 then v.elements else ∅ := by
  have hfits := v.fits
  rw [if_neg hlocal, hnil, List.prod_nil, Nat.one_mul] at hfits
  have helements : v.elements = points [] [] := by
    rw [Variable.elements, Variable.extent, if_neg hlocal, hnil]
    rfl
  have hextent : v.extent = [] := by rw [Variable.extent, if_neg hlocal, hnil]
  have hpos := v.sizePos
  simp only [processVariable, decompose, if_neg hlocal, hnil, if_true, Outcome.pure_eq,
    Outcome.ok_bind] at h
  split at h
  case isFalse => nomatch h
  case isTrue =>
    cases h
    rw [helements]
    by_cases hrank : rank = 0
    case pos =>
      simp only [VarInfo.region, hrank, if_true, Nat.one_mul, Nat.mod_eq_of_lt hfits, hextent]
      rw [if_neg hpos.ne']
      split <;> rfl
    case neg => simp [VarInfo.region, hrank]

theorem region_localArray {v : Variable} {vi : VarInfo} (hlocal : v.shapeID = .localArray)
    (h : processVariable rank np (some v) = .ok (some vi)) :
    vi.region = if rank = 0 then v.elements else ∅ := by
  have hfits := v.fits
  rw [if_pos hlocal] at hfits
  have hprod : v.count.prod < 2 ^ 64 := (Nat.le_mul_of_pos_right _ v.sizePos).trans_lt hfits
  have helements : v.elements = points (v.count.map fun _ => 0) v.count := by
    rw [Variable.elements, Variable.extent, if_pos hlocal]
  simp only [processVariable, decompose, if_pos hlocal, Outcome.pure_eq, Outcome.ok_bind] at h
  split at h
  case isFalse => nomatch h
  case isTrue =>
    cases h
    by_cases hrank : rank = 0
    case pos =>
      simp only [VarInfo.region, hrank, if_true, hlocal, product_of_lt hprod,
        Nat.mod_eq_of_lt hfits, reduceCtorEq, if_false]
      split
      case isTrue hzero =>
        have hempty := (Nat.mul_eq_zero.mp hzero).resolve_right v.sizePos.ne'
        rw [helements]
        exact ((points_eq_empty (List.length_map _)).mpr hempty).symm
      case isFalse => rfl
    case neg => simp [VarInfo.region, hrank]

-- The region that a rank writes of a variable in a step.
def region (infos : Nat → List VarInfo) (i rank : Nat) : Set (List Nat) :=
  ((infos rank)[i]?.map VarInfo.region).getD ∅

-- Each element is written by one rank.
structure WrittenOnce (size : Nat) (v : Variable) (region : Nat → Set (List Nat)) : Prop where
  inside : ∀ rank < size, region rank ⊆ v.elements
  once   : ∀ point ∈ v.elements, ∃! rank, rank < size ∧ point ∈ region rank

theorem writtenOnce_first {size : Nat} (hsize : 0 < size) {v : Variable}
    {region : Nat → Set (List Nat)}
    (h : ∀ rank < size, region rank = if rank = 0 then v.elements else ∅) :
    WrittenOnce size v region where
  inside := by
    intro rank hrank
    rw [h rank hrank]
    split
    case isTrue  => exact subset_rfl
    case isFalse => exact Set.empty_subset _
  once := by
    intro point hpoint
    refine ⟨0, ⟨hsize, by rwa [h 0 hsize, if_pos rfl]⟩, ?_⟩
    rintro rank ⟨hrank, hmem⟩
    by_contra hne
    rw [h rank hrank, if_neg hne] at hmem
    exact hmem

theorem points_subset_of_inside {start count shape : Dims} (hlen : start.length = count.length)
    (h : List.Forall₂ (fun (b : Nat × Nat) total => b.1 + b.2 ≤ total) (start.zip count) shape) :
    points start count ⊆ points (shape.map fun _ => 0) shape := by
  induction start generalizing count shape with
  | nil =>
    obtain rfl := List.length_eq_zero_iff.mp hlen.symm
    cases h
    exact subset_rfl
  | cons s start ih =>
    cases count with
    | nil => cases hlen
    | cons c count =>
      cases h with
      | cons hle hrest =>
        intro point hpoint
        obtain ⟨x, tail, rfl, ⟨_, hx⟩, htail⟩ := mem_points_cons.mp hpoint
        exact ⟨⟨Nat.zero_le x, by rw [Nat.zero_add]; exact hx.trans_le hle⟩,
          ih (Nat.succ.inj hlen) hrest htail⟩

theorem writtenOnce_boxes {size : Nat} {v : Variable} {box : Nat → Dims × Dims}
    {region : Nat → Set (List Nat)} (hlocal : v.shapeID ≠ .localArray)
    (hbox : Decomposed size np v.shape box)
    (h : ∀ rank < size, region rank = points (box rank).1 (box rank).2) :
    WrittenOnce size v region := by
  have helements : v.elements = points (v.shape.map fun _ => 0) v.shape := by
    rw [Variable.elements, Variable.extent, if_neg hlocal]
  constructor
  case inside =>
    intro rank hrank
    have ⟨hstart, hcount⟩ := hbox.length rank hrank
    rw [h rank hrank, helements]
    exact points_subset_of_inside (hstart.trans hcount.symm) (hbox.inside rank hrank)
  case once =>
    intro point hpoint
    rw [helements] at hpoint
    have ⟨rank, hrank, hmem⟩ := hbox.covers point hpoint
    refine ⟨rank, ⟨hrank, by rwa [h rank hrank]⟩, ?_⟩
    rintro rank' ⟨hrank', hmem'⟩
    by_contra hne
    rw [h rank' hrank'] at hmem'
    exact Set.disjoint_left.mp (hbox.disjoint rank' hrank' rank hrank hne) hmem' hmem

end Steps

-- What is asked of a decomposition: the boxes of an array of as many dimensions as there are values
-- at most, and the steps that the ranks write together.
structure Right (ranks : Ranks) (values : List Int) : Prop where
  boxes : ∀ shape : Dims, shape ≠ [] → shape.length ≤ values.length →
    (∀ s ∈ shape, s < 2 ^ 64) → ∃ box, Decomposed ranks.size (processes values) shape box
  steps : ∀ vars attributes (infos : Nat → List VarInfo),
    (∀ v, some v ∈ vars → v.shapeID = .globalArray → v.shape.length ≤ values.length) →
    (∀ rank < ranks.size,
      processMetadata rank (processes values) vars attributes = .ok (some (infos rank))) →
    ∀ (i : Nat) v, vars[i]? = some (some v) → WrittenOnce ranks.size v (region infos i)

theorem right_of_pos {ranks : Ranks} {ns : List Nat} (hpos : ∀ n ∈ ns, 0 < n)
    (hprod : ns.prod ≤ ranks.size) : Right ranks (ns.map (Nat.cast : Nat → Int)) := by
  constructor
  case boxes =>
    intro shape hne hlen hshape
    exact decomposed_of_pos hpos hprod hne (by rwa [List.length_map] at hlen) hshape
  case steps =>
    intro vars attributes infos hdims hmetadata i v hv
    have hinfo (rank : Nat) (hrank : rank < ranks.size) : ∃ vi, region infos i rank = vi.region ∧
        processVariable rank (processes (ns.map (Nat.cast : Nat → Int))) (some v)
          = .ok (some vi) := by
      have hall := processVariables_eq_ok (processMetadata_eq_ok (hmetadata rank hrank))
      have ⟨hi, hget⟩ := List.getElem?_eq_some_iff.mp hv
      have hi' : i < (infos rank).length := hall.length_eq ▸ hi
      have hvi := hall.get hi hi'
      refine ⟨(infos rank)[i], by rw [region, List.getElem?_eq_getElem hi']; rfl, ?_⟩
      simpa [hget] using hvi
    by_cases hlocal : v.shapeID = .localArray
    case pos =>
      refine writtenOnce_first ranks.pos fun rank hrank => ?_
      have ⟨vi, heq, hvi⟩ := hinfo rank hrank
      rw [heq, region_localArray hlocal hvi]
    case neg =>
      by_cases hnil : v.shape = []
      case pos =>
        refine writtenOnce_first ranks.pos fun rank hrank => ?_
        have ⟨vi, heq, hvi⟩ := hinfo rank hrank
        rw [heq, region_value hlocal hnil hvi]
      case neg =>
        have hshape : v.shapeID = .globalArray := by
          have ⟨vi, _, hvi⟩ := hinfo 0 ranks.pos
          rw [processVariable] at hvi
          split at hvi
          case isTrue hkind =>
            rcases hkind with hkind | hkind | hkind
            · exact hkind
            · exact absurd (v.value hkind) hnil
            · exact absurd hkind.1 hlocal
          case isFalse => nomatch hvi
        have hlen := hdims v (List.mem_of_getElem? hv) hshape
        rw [List.length_map] at hlen
        have ⟨box, hbox⟩ := decomposed_of_pos hpos hprod hnil hlen v.shapeLt
        refine writtenOnce_boxes hlocal hbox fun rank hrank => ?_
        have ⟨vi, heq, hvi⟩ := hinfo rank hrank
        rw [heq, region_globalArray hshape hnil hbox hrank hvi]

-- The arguments are not accepted, or the decomposition that they give is right.
def Reorganizes (ranks : Ranks) (args : List (List Byte)) : Prop :=
  match decompValues ranks.size args with
  | .ok values   => Right ranks values
  | .error fault => fault ≠ .undefined

-- The arguments are not accepted, or all values are positive.
def PositiveValues (ranks : Ranks) (args : List (List Byte)) : Prop :=
  match decompValues ranks.size args with
  | .ok values   => ∀ v ∈ values, 1 ≤ v
  | .error fault => fault ≠ .undefined

theorem reorganizes_iff (ranks : Ranks) (args : List (List Byte)) :
    Reorganizes ranks args ↔ PositiveValues ranks args := by
  unfold Reorganizes PositiveValues
  cases hvalues : decompValues ranks.size args with
  | error fault => exact .rfl
  | ok values =>
    have ⟨prod, hprod, hle, _⟩ := decompValues_eq_ok hvalues
    constructor
    case mp =>
      intro h
      by_contra hnonpos
      have ⟨shape, hne, hlen, hshape, hnot⟩ := not_decomposed_of_nonpos ranks hprod hnonpos
      exact hnot (h.boxes shape hne hlen hshape)
    case mpr =>
      intro hpos
      obtain ⟨ns, rfl, hns⟩ := exists_natCast hpos
      have ⟨heq, _⟩ := foldlM_mulInt (n := 1) hprod (by decide)
      rw [Nat.one_mul] at heq
      exact right_of_pos hns (by omega)

-- A decomposition of a matrix with the values 0 and 1
theorem not_reorganizes_zero :
    ¬Reorganizes ⟨1, by decide, by decide⟩ [CString.ascii "0", CString.ascii "1"] := by
  have hvalues : decompValues 1 [CString.ascii "0", CString.ascii "1"] = .ok [0, 1] := by
    decide +kernel
  have hfault : decomposeArray 0 [1, 1] (processes [0, 1]) = .error .undefined := by
    decide +kernel
  unfold Reorganizes
  rw [hvalues]
  intro h
  have ⟨box, hbox⟩ := h.boxes [1, 1] (by decide) (by decide) (by decide)
  nomatch (hbox.eq 0 (by decide)).symm.trans hfault

end Reorganize
