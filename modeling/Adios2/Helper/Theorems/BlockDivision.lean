import Adios2.Helper.BlockDivision
import Adios2.Lib.BlockPartition
import Adios2.Lib.RowMajor

-- The sub-blocks of a block follow each other in memory: all dimensions before the one that is split
-- into parts are split into their elements, and those behind it are not split.

namespace Helper

open RowMajor

inductive Division : Dims → List Nat → Prop
  | nil : Division [] []
  | cut {c n : Nat} (count : Dims) (hn : 0 < n) (hle : n = 1 ∨ n ≤ c) :
      Division (c :: count) (n :: count.map fun _ => 1)
  | split {c : Nat} {count : Dims} {div : List Nat} (hc : 0 < c) (h : Division count div) :
      Division (c :: count) (c :: div)

variable {count : Dims} {div : List Nat} {b : Nat}

theorem prod_ones : (count.map fun _ => 1).prod = 1 := by
  induction count with
  | nil => rfl
  | cons c count ih => rw [List.map_cons, List.prod_cons, ih]

theorem Division.ones (count : Dims) : Division count (count.map fun _ => 1) := by
  cases count with
  | nil => exact .nil
  | cons c count => exact .cut count Nat.one_pos (.inl rfl)

theorem Division.length_eq (h : Division count div) : div.length = count.length := by
  induction h with
  | nil => rfl
  | cut count hn hle => simp
  | split hc h ih => exact congrArg (· + 1) ih

theorem Division.pos (h : Division count div) : ∀ n ∈ div, 0 < n := by
  induction h with
  | nil => exact fun _ h => absurd h List.not_mem_nil
  | cut count hn hle =>
    refine List.forall_mem_cons.mpr ⟨hn, fun n h => ?_⟩
    have ⟨_, _, hone⟩ := List.mem_map.mp h
    exact hone ▸ Nat.one_pos
  | split hc h ih => exact List.forall_mem_cons.mpr ⟨hc, ih⟩

theorem divLoop_one : divLoop count 1 = .ok (count.map fun _ => 1) := by
  cases count with
  | nil => rfl
  | cons c count => rw [divLoop, if_neg (Nat.lt_irrefl 1), Outcome.pure_eq]

theorem divLoop_division {n : Nat} (hn : 0 < n) (hle : n ≤ 4096) (hpos : ∀ c ∈ count, 0 < c) :
    ∃ div, divLoop count n = .ok div ∧ Division count div ∧ div.prod ≤ n ∧
      (1 < n → 1 < count.prod → 1 < div.prod) := by
  induction count generalizing n with
  | nil => exact ⟨[], rfl, .nil, hn, fun _ h => absurd h (Nat.lt_irrefl 1)⟩
  | cons dim count ih =>
    have ⟨hdim, hpos⟩ := List.forall_mem_cons.mp hpos
    rw [divLoop]
    by_cases hone : 1 < n
    · rw [if_pos hone]
      by_cases hlt : n < dim
      · rw [if_pos hlt, divLoop_one]
        have hprod : (n :: count.map fun _ => 1).prod = n := by
          rw [List.prod_cons, prod_ones, Nat.mul_one]
        exact ⟨_, rfl, .cut count hn (.inr hlt.le), hprod.le, fun _ _ => hprod.symm ▸ hone⟩
      · have hdimLe : dim ≤ n := Nat.le_of_not_lt hlt
        have hrest : 0 < n / dim := Nat.div_pos hdimLe hdim
        have hrestLe : n / dim ≤ n := Nat.div_le_self n dim
        have ⟨div, hdiv, hdivision, hprod, hmore⟩ := ih hrest (hrestLe.trans hle) hpos
        rw [if_neg hlt, if_neg hdim.ne', Nat.mod_eq_of_lt (by omega : n / dim < 2 ^ 16), hdiv,
          Outcome.ok_bind, Nat.mod_eq_of_lt (by omega : dim < 2 ^ 16)]
        refine ⟨_, rfl, .split hdim hdivision, ?_, fun _ hcount => ?_⟩
        · calc (dim :: div).prod = dim * div.prod := List.prod_cons
            _ ≤ dim * (n / dim) := Nat.mul_le_mul_left _ hprod
            _ ≤ n := Nat.mul_div_le n dim
        · have hdivPos : 0 < div.prod := List.prod_pos hdivision.pos
          rw [List.prod_cons] at hcount ⊢
          rcases Nat.lt_or_ge 1 dim with hbig | hsmall
          · exact Nat.lt_of_lt_of_le hbig (Nat.le_mul_of_pos_right _ hdivPos)
          · obtain rfl : dim = 1 := by omega
            rw [Nat.one_mul] at hcount ⊢
            exact hmore (by rwa [Nat.div_one]) hcount
    · rw [if_neg hone]
      obtain rfl : n = 1 := by omega
      exact ⟨_, rfl, .ones _, prod_ones.le, fun h => absurd h (Nat.lt_irrefl 1)⟩

-- The parts that the digits of a number choose in the dimensions.
def partStarts : Dims → List Nat → Nat → Dims
  | c :: count, n :: div, b =>
    BlockPartition.start n c (b / div.prod % n) :: partStarts count div b
  | _, _, _                => []

def partSizes : Dims → List Nat → Nat → Dims
  | c :: count, n :: div, b =>
    BlockPartition.size n c (b / div.prod % n) :: partSizes count div b
  | _, _, _                => []

-- The digits do not depend on what is before them.
theorem part_add_mul (count : Dims) (b k : Nat) (hpos : ∀ n ∈ div, 0 < n) :
    partStarts count div (b + k * div.prod) = partStarts count div b ∧
      partSizes count div (b + k * div.prod) = partSizes count div b := by
  induction count generalizing div k with
  | nil => exact ⟨rfl, rfl⟩
  | cons c count ih =>
    cases div with
    | nil => exact ⟨rfl, rfl⟩
    | cons n div =>
      have ⟨_, hpos⟩ := List.forall_mem_cons.mp hpos
      have hprod : 0 < div.prod := List.prod_pos hpos
      have hmul : b + k * (n :: div).prod = b + k * n * div.prod := by
        rw [List.prod_cons, Nat.mul_assoc]
      have hdigit : (b + k * n * div.prod) / div.prod % n = b / div.prod % n := by
        rw [Nat.add_mul_div_right _ _ hprod, Nat.add_mul_mod_self_right]
      have ⟨hstarts, hsizes⟩ := ih (k * n) hpos
      rw [hmul]
      simp only [partStarts, partSizes, hdigit, hstarts, hsizes, and_self]

theorem part_ones (count : Dims) (b : Nat) :
    partStarts count (count.map fun _ => 1) b = count.map (fun _ => 0) ∧
      partSizes count (count.map fun _ => 1) b = count := by
  induction count with
  | nil => exact ⟨rfl, rfl⟩
  | cons c count ih =>
    have hstart : BlockPartition.start 1 c 0 = 0 := BlockPartition.start_zero
    have hsize : BlockPartition.size 1 c 0 = c := by
      simp [BlockPartition.size, Nat.mod_one]
    simp only [List.map_cons, partStarts, partSizes, prod_ones, Nat.mod_one, hstart, hsize, ih,
      and_self]

-- A dimension that is split into its elements.
theorem part_elements {c k : Nat} (hk : k < c) :
    BlockPartition.start c c k = k ∧ BlockPartition.size c c k = 1 := by
  refine ⟨BlockPartition.start_self hk, ?_⟩
  simp [BlockPartition.size, Nat.div_self (Nat.zero_lt_of_lt hk)]

theorem digits_of_split {D k r : Nat} (hr : r < D) : (k * D + r) / D = k := by
  rw [Nat.add_comm, Nat.add_mul_div_right _ _ (Nat.zero_lt_of_lt hr), Nat.div_eq_of_lt hr,
    Nat.zero_add]

-- Part `r` of the rest, within element `k` of the first dimension.
theorem part_split {c k r : Nat} (h : Division count div) (hk : k < c) (hr : r < div.prod) :
    partStarts (c :: count) (c :: div) (k * div.prod + r) = k :: partStarts count div r ∧
      partSizes (c :: count) (c :: div) (k * div.prod + r) = 1 :: partSizes count div r := by
  have ⟨hstarts, hsizes⟩ := part_add_mul count r k h.pos
  have ⟨hstart, hsize⟩ := part_elements hk
  rw [partStarts, partSizes, digits_of_split hr, Nat.mod_eq_of_lt hk, hstart, hsize, Nat.add_comm,
    hstarts, hsizes]
  exact ⟨rfl, rfl⟩

theorem part_cut (c : Nat) (count : Dims) {n : Nat} (hb : b < n) :
    partStarts (c :: count) (n :: count.map fun _ => 1) b =
        BlockPartition.start n c b :: count.map (fun _ => 0) ∧
      partSizes (c :: count) (n :: count.map fun _ => 1) b = BlockPartition.size n c b :: count := by
  have ⟨hstarts, hsizes⟩ := part_ones count b
  rw [partStarts, partSizes, hstarts, hsizes, prod_ones, Nat.div_one, Nat.mod_eq_of_lt hb]
  exact ⟨rfl, rfl⟩

theorem split_of_lt {c : Nat} (hpos : 0 < div.prod) (hb : b < (c :: div).prod) :
    ∃ k < c, ∃ r < div.prod, b = k * div.prod + r := by
  rw [List.prod_cons] at hb
  exact ⟨b / div.prod, (Nat.div_lt_iff_lt_mul hpos).mpr hb, b % div.prod, Nat.mod_lt _ hpos,
    (Nat.div_add_mod' b div.prod).symm⟩

def origin (count : Dims) : Dims := count.map fun _ => 0

theorem Division.slab (h : Division count div) (hb : b < div.prod) :
    Slab (origin count) count (partStarts count div b) (partSizes count div b) := by
  induction h generalizing b with
  | nil => exact .whole
  | @cut c n count hn hle =>
    rw [List.prod_cons, prod_ones, Nat.mul_one] at hb
    have ⟨hstarts, hsizes⟩ := part_cut c count hb
    rw [hstarts, hsizes]
    exact .rows _ _ (Nat.zero_le _) (by simp)
  | @split c count div hc h ih =>
    obtain ⟨k, hk, r, hr, rfl⟩ := split_of_lt (List.prod_pos h.pos) hb
    have ⟨hstarts, hsizes⟩ := part_split h hk hr
    rw [hstarts, hsizes]
    exact .single (Nat.zero_le _) (ih hr)

-- Where a part starts in memory; behind the last one is the end of the block.
def place (count : Dims) (div : List Nat) (b : Nat) : Nat :=
  if b < div.prod then index (origin count) count (partStarts count div b) else count.prod

theorem place_zero (h : Division count div) : place count div 0 = 0 := by
  rw [place, if_pos (List.prod_pos h.pos)]
  induction h with
  | nil => rfl
  | @cut c n count hn hle =>
    have ⟨hstarts, _⟩ := part_cut c count hn
    rw [hstarts, BlockPartition.start_zero]
    exact index_base
  | @split c count div hc h ih =>
    have ⟨hstarts, _⟩ := part_split h hc (List.prod_pos h.pos)
    rw [Nat.zero_mul, Nat.zero_add] at hstarts
    rw [hstarts, origin, List.map_cons, index, Nat.sub_zero, Nat.zero_mul, Nat.zero_add]
    exact ih

theorem place_split {c k r : Nat} (h : Division count div) (hk : k < c) (hr : r < div.prod) :
    place (c :: count) (c :: div) (k * div.prod + r) = k * count.prod + place count div r := by
  have hlt : k * div.prod + r < (c :: div).prod := by
    rw [List.prod_cons]
    calc k * div.prod + r < k * div.prod + div.prod := Nat.add_lt_add_left hr _
      _ = (k + 1) * div.prod := (Nat.succ_mul _ _).symm
      _ ≤ c * div.prod := Nat.mul_le_mul_right _ hk
  have ⟨hstarts, _⟩ := part_split h hk hr
  rw [place, place, if_pos hlt, if_pos hr, hstarts, origin, List.map_cons, index, Nat.sub_zero,
    origin]

-- Each part starts where the one before it ends.
theorem place_succ (h : Division count div) (hb : b < div.prod) :
    place count div (b + 1) = place count div b + (partSizes count div b).prod := by
  induction h generalizing b with
  | nil =>
    obtain rfl : b = 0 := Nat.lt_one_iff.mp hb
    rfl
  | @cut c n count hn hle =>
    have hprod : (n :: count.map fun _ => 1).prod = n := by
      rw [List.prod_cons, prod_ones, Nat.mul_one]
    have hplace : ∀ b ≤ n, place (c :: count) (n :: count.map fun _ => 1) b =
        BlockPartition.start n c b * count.prod := fun b hb => by
      rcases Nat.lt_or_eq_of_le hb with hlt | rfl
      · obtain ⟨hstarts, _⟩ := part_cut c count hlt
        rw [place, hprod, if_pos hlt, hstarts, origin, List.map_cons, index, index_base,
          Nat.sub_zero, Nat.add_zero]
      · rw [place, hprod, if_neg (Nat.lt_irrefl b), BlockPartition.start_parts hn, List.prod_cons]
    rw [hprod] at hb
    obtain ⟨_, hsizes⟩ := part_cut c count hb
    rw [hplace _ hb, hplace _ hb.le, hsizes, BlockPartition.start_succ, List.prod_cons, Nat.add_mul]
  | @split c count div hc h ih =>
    obtain ⟨k, hk, r, hr, rfl⟩ := split_of_lt (List.prod_pos h.pos) hb
    obtain ⟨_, hsizes⟩ := part_split h hk hr
    have hstep := ih hr
    rw [hsizes, List.prod_cons, Nat.one_mul, place_split h hk hr,
      Nat.add_assoc (k * List.prod count), ← hstep]
    rcases Nat.lt_or_eq_of_le (Nat.succ_le_of_lt hr) with hlt | hend
    · rw [Nat.add_assoc, place_split h hk hlt]
    · -- The last part of an element is followed by the first one of the next.
      have hnext : k * div.prod + r + 1 = (k + 1) * div.prod + 0 := by
        rw [Nat.add_assoc, Nat.add_zero, Nat.succ_mul]
        exact congrArg _ hend
      have hlast : place count div (r + 1) = count.prod := by
        rw [place, if_neg (by omega)]
      rw [hnext, hlast, ← Nat.succ_mul]
      rcases Nat.lt_or_eq_of_le (Nat.succ_le_of_lt hk) with hmore | hall
      · rw [place_split h hmore (List.prod_pos h.pos), place_zero h, Nat.add_zero]
      · rw [place, if_neg, List.prod_cons, ← hall]
        rw [List.prod_cons, ← hall, Nat.add_zero]
        exact Nat.lt_irrefl _

theorem place_end : place count div div.prod = count.prod := by
  rw [place, if_neg (Nat.lt_irrefl _)]

theorem Division.image (h : Division count div) (hb : b < div.prod) :
    index (origin count) count '' points (partStarts count div b) (partSizes count div b) =
      Set.Ico (place count div b) (place count div (b + 1)) := by
  have himage := (h.slab hb).index_image
  rw [place_succ h hb, himage, place, if_pos hb]

def suffixProducts : List Nat → List Nat
  | []     => []
  | _ :: xs => xs.prod :: suffixProducts xs

-- What is computed once the dimensions are divided.
structure BlockDivisionInfo.Computed (count : Dims) (info : BlockDivisionInfo) : Prop where
  division   : Division count info.div
  prod_le    : info.div.prod ≤ 4096
  nBlocks_eq : info.nBlocks = info.div.prod
  rem_eq     : info.rem = List.zipWith (· % ·) count info.div
  product_eq : info.reverseDivProduct = suffixProducts info.div

theorem getTotalSize_eq (dimensions : Dims) :
    getTotalSize dimensions = dimensions.prod % 2 ^ 64 := by
  have hfold : ∀ n, dimensions.foldl (fun n c => n * c % 2 ^ 64) (n % 2 ^ 64) =
      n * dimensions.prod % 2 ^ 64 := by
    induction dimensions with
    | nil => simp
    | cons c dimensions ih =>
      intro n
      rw [List.foldl_cons, Nat.mod_mul_mod, ih, List.prod_cons, Nat.mul_assoc]
  have hone := hfold 1
  rwa [Nat.mod_eq_of_lt (by omega), Nat.one_mul] at hone

theorem prod_tail_le {n : Nat} (hpos : ∀ m ∈ n :: div, 0 < m) : div.prod ≤ (n :: div).prod := by
  rw [List.prod_cons]
  exact Nat.le_mul_of_pos_left _ (hpos n List.mem_cons_self)

theorem reverseDivProducts_eq (hpos : ∀ n ∈ div, 0 < n) (hle : div.prod ≤ 4096) :
    reverseDivProducts div = (suffixProducts div, div.prod) := by
  induction div with
  | nil => rfl
  | cons n div ih =>
    have hrest := (prod_tail_le hpos).trans hle
    rw [reverseDivProducts, ih (List.forall_mem_cons.mp hpos).right hrest]
    have hmul : div.prod * n = (n :: div).prod := by rw [List.prod_cons, Nat.mul_comm]
    have hmod : div.prod * n % 2 ^ 16 = (n :: div).prod := by
      rw [hmul, Nat.mod_eq_of_lt (by omega)]
    rw [suffixProducts, ← hmod]

theorem nBlocks_foldl (hpos : ∀ n ∈ div, 0 < n) {k : Nat} (hle : k * div.prod ≤ 4096) :
    div.foldl (fun n div => n * div % 2 ^ 16) k = k * div.prod := by
  induction div generalizing k with
  | nil => simp
  | cons n div ih =>
    have ⟨hn, hpos⟩ := List.forall_mem_cons.mp hpos
    rw [List.prod_cons, ← Nat.mul_assoc] at hle
    have hkn : k * n ≤ 4096 := (Nat.le_mul_of_pos_right _ (List.prod_pos hpos)).trans hle
    rw [List.foldl_cons, Nat.mod_eq_of_lt (by omega), ih hpos hle, List.prod_cons, Nat.mul_assoc]

theorem getElem?_eq_getD {l : List Nat} {j : Nat} (hj : j < l.length) : l[j]? = some (l.getD j 0) := by
  rw [List.getElem?_eq_getElem hj, List.getD_eq_getElem _ _ hj]

theorem calculateSubblockInfo_computed (info : BlockDivisionInfo) (h : Division count info.div)
    (hle : info.div.prod ≤ 4096) :
    ∃ info', calculateSubblockInfo count info = .ok info' ∧ info'.Computed count ∧
      info'.div = info.div := by
  have hrem : ((List.range count.length).mapM fun j => do
      let c ← (count[j]?).orUndefined
      let div ← (info.div[j]?).orUndefined
      if div = 0 then .error .undefined else pure (c % div % 2 ^ 16) : Outcome (List Nat)) =
      .ok ((List.range count.length).map fun j => count.getD j 0 % info.div.getD j 0) := by
    refine Outcome.mapM_eq_ok fun j hj => ?_
    have hj := List.mem_range.mp hj
    have hj' : j < info.div.length := h.length_eq ▸ hj
    have hmem : info.div.getD j 0 ∈ info.div := by
      rw [List.getD_eq_getElem _ _ hj']
      exact List.getElem_mem hj'
    have hdiv : 0 < info.div.getD j 0 := h.pos _ hmem
    have hdivLe : info.div.getD j 0 ≤ info.div.prod :=
      Nat.le_of_dvd (List.prod_pos h.pos) (List.dvd_prod hmem)
    have hmod : count.getD j 0 % info.div.getD j 0 < info.div.getD j 0 := Nat.mod_lt _ hdiv
    rw [getElem?_eq_getD hj, getElem?_eq_getD hj', Option.orUndefined_some, Outcome.ok_bind,
      Option.orUndefined_some, Outcome.ok_bind, if_neg hdiv.ne', Nat.mod_eq_of_lt (by omega)]
    rfl
  have hzip : (List.range count.length).map (fun j => count.getD j 0 % info.div.getD j 0) =
      List.zipWith (· % ·) count info.div := by
    apply List.ext_getElem
    · simp [h.length_eq]
    · intro j hj hj'
      simp only [List.length_zipWith, h.length_eq, Nat.min_self] at hj'
      have hj'' : j < info.div.length := h.length_eq.symm ▸ hj'
      rw [List.getElem_map, List.getElem_range, List.getElem_zipWith,
        List.getD_eq_getElem _ _ hj', List.getD_eq_getElem _ _ hj'']
  let info' : BlockDivisionInfo := { info with
    rem               := List.zipWith (· % ·) count info.div
    nBlocks           := info.div.prod
    reverseDivProduct := suffixProducts info.div }
  refine ⟨info', ?_, ?_⟩
  · rw [calculateSubblockInfo, hrem, Outcome.ok_bind, hzip, reverseDivProducts_eq h.pos hle,
      nBlocks_foldl h.pos (by rwa [Nat.one_mul]), Nat.one_mul]
    rfl
  · exact ⟨⟨h, hle, rfl, rfl, rfl⟩, rfl⟩

theorem suffixProducts_ones : suffixProducts (count.map fun _ => 1) = count.map fun _ => 1 := by
  induction count with
  | nil => rfl
  | cons c count ih => rw [List.map_cons, suffixProducts, prod_ones, ih]

theorem zipWith_mod_ones : List.zipWith (· % ·) count (count.map fun _ => 1) =
    count.map fun _ => 0 := by
  induction count with
  | nil => rfl
  | cons c count ih => rw [List.map_cons, List.zipWith_cons_cons, ih, Nat.mod_one, List.map_cons]

-- The number of blocks to make, before the dimensions are looked at.
def ceilDiv (nElems subblockSize : Nat) : Nat :=
  let nBlocks64 := nElems / subblockSize
  if nElems > nBlocks64 * subblockSize then nBlocks64 + 1 else nBlocks64

def wantedBlocks (nElems subblockSize : Nat) : Nat :=
  let nBlocks64 := if ceilDiv nElems subblockSize > 4096 then 4096 else ceilDiv nElems subblockSize
  if nBlocks64 % 2 ^ 16 = 0 then 1 else nBlocks64 % 2 ^ 16

theorem atLeastOne {n : Nat} (hn : n ≤ 4096) :
    (if n % 2 ^ 16 = 0 then 1 else n % 2 ^ 16) = max 1 n := by
  have hmod : n % 2 ^ 16 = n := Nat.mod_eq_of_lt (by omega)
  rw [hmod]
  split <;> omega

theorem wantedBlocks_eq (nElems subblockSize : Nat) :
    wantedBlocks nElems subblockSize = max 1 (min 4096 (ceilDiv nElems subblockSize)) := by
  unfold wantedBlocks
  generalize ceilDiv nElems subblockSize = n
  have hlimit : (if n > 4096 then 4096 else n) = min 4096 n := by
    split <;> omega
  rw [hlimit]
  exact atLeastOne (Nat.min_le_left _ _)

theorem one_lt_ceilDiv {nElems subblockSize : Nat} (hsize : 0 < subblockSize) :
    1 < ceilDiv nElems subblockSize ↔ subblockSize < nElems := by
  have hdiv := Nat.div_add_mod' nElems subblockSize
  have hmod := Nat.mod_lt nElems hsize
  unfold ceilDiv
  dsimp only
  generalize nElems % subblockSize = rest at hdiv hmod
  rcases Nat.lt_or_ge (nElems / subblockSize) 2 with hlt | hge
  · have hcases : nElems / subblockSize = 0 ∨ nElems / subblockSize = 1 := by
      generalize nElems / subblockSize = quot at hlt
      omega
    rcases hcases with hq | hq
    · rw [hq] at hdiv ⊢
      split <;> omega
    · rw [hq] at hdiv ⊢
      split <;> omega
  · have hmul : 2 * subblockSize ≤ nElems := (Nat.le_div_iff_mul_le hsize).mp hge
    split <;> omega

theorem divideBlock_computed {subblockSize : Nat} (hsize : 0 < subblockSize) (count : Dims) :
    ∃ info, divideBlock count subblockSize .contiguous = .ok info ∧ info.Computed count ∧
      (0 < count.prod → count.prod < 2 ^ 64 →
        (info.nBlocks ≤ 1 ↔ count.prod ≤ subblockSize)) := by
  have hwanted : 0 < wantedBlocks (getTotalSize count) subblockSize ∧
      wantedBlocks (getTotalSize count) subblockSize ≤ 4096 := by
    rw [wantedBlocks_eq]
    omega
  have hmany : 1 < wantedBlocks (getTotalSize count) subblockSize ↔
      subblockSize < getTotalSize count := by
    rw [← one_lt_ceilDiv hsize, wantedBlocks_eq]
    omega
  unfold divideBlock
  rw [if_neg (not_not.mpr rfl), if_neg hsize.ne']
  dsimp only
  change ∃ info, (if 1 < wantedBlocks (getTotalSize count) subblockSize then _ else _) = _ ∧ _
  by_cases hsplit : 1 < wantedBlocks (getTotalSize count) subblockSize
  · have hprod : count.prod ≠ 0 := fun h0 => by
      have hzero : getTotalSize count = 0 := by rw [getTotalSize_eq, h0, Nat.zero_mod]
      have := hmany.mp hsplit
      omega
    have hpos : ∀ c ∈ count, 0 < c := fun c hc =>
      Nat.pos_of_ne_zero fun h0 => hprod (List.prod_eq_zero (h0 ▸ hc))
    have ⟨div, hdiv, hdivision, hle, hmore⟩ := divLoop_division hwanted.left hwanted.right hpos
    rw [if_pos hsplit]
    change ∃ info, (divLoop count (wantedBlocks _ _) >>= _) = _ ∧ _
    rw [hdiv, Outcome.ok_bind]
    let divided : BlockDivisionInfo := {
      div
      rem               := count.map fun _ => 0
      reverseDivProduct := count.map fun _ => 1
      subBlockSize      := subblockSize
      nBlocks           := wantedBlocks (getTotalSize count) subblockSize
      divisionMethod    := .contiguous }
    obtain ⟨info, hinfo, hcomputed, hsame⟩ :=
      calculateSubblockInfo_computed divided hdivision (hle.trans hwanted.right)
    refine ⟨info, hinfo, hcomputed, fun hcount hmem => ?_⟩
    have htotal : getTotalSize count = count.prod := by
      rw [getTotalSize_eq, Nat.mod_eq_of_lt hmem]
    rw [htotal] at hsplit hmany
    have hlarge := hmany.mp hsplit
    have hblocks : 1 < info.nBlocks := by
      rw [hcomputed.nBlocks_eq, hsame]
      exact hmore (htotal ▸ hsplit) (by omega)
    omega
  · rw [if_neg hsplit]
    refine ⟨_, rfl, ⟨.ones count, ?_, ?_, ?_, ?_⟩, fun hcount hmem => ?_⟩
    · exact prod_ones.le.trans (by omega)
    · exact (by omega : wantedBlocks (getTotalSize count) subblockSize = 1).trans prod_ones.symm
    · exact zipWith_mod_ones.symm
    · exact suffixProducts_ones.symm
    · have htotal : getTotalSize count = count.prod := by
        rw [getTotalSize_eq, Nat.mod_eq_of_lt hmem]
      rw [htotal] at hsplit hmany
      change wantedBlocks (getTotalSize count) subblockSize ≤ 1 ↔ _
      rw [htotal]
      omega

-- The part in dimension `j`.
def partAt (count : Dims) (div : List Nat) (b j : Nat) : Nat × Nat :=
  let id := b / (suffixProducts div).getD j 0 % div.getD j 0
  (BlockPartition.start (div.getD j 0) (count.getD j 0) id,
    BlockPartition.size (div.getD j 0) (count.getD j 0) id)

theorem map_partAt (hlen : div.length = count.length) :
    (List.range count.length).map (partAt count div b) =
      (partStarts count div b).zip (partSizes count div b) := by
  induction count generalizing div with
  | nil => rfl
  | cons c count ih =>
    cases div with
    | nil => cases hlen
    | cons n div =>
      rw [List.length_cons, List.range_succ_eq_map, List.map_cons, List.map_map, partStarts,
        partSizes, List.zip_cons_cons, ← ih (Nat.succ.inj hlen)]
      rfl

theorem length_parts (hlen : div.length = count.length) :
    (partStarts count div b).length = count.length ∧
      (partSizes count div b).length = count.length := by
  induction count generalizing div with
  | nil => exact ⟨rfl, rfl⟩
  | cons c count ih =>
    cases div with
    | nil => cases hlen
    | cons n div =>
      have ⟨hstarts, hsizes⟩ := ih (Nat.succ.inj hlen)
      exact ⟨congrArg (· + 1) hstarts, congrArg (· + 1) hsizes⟩

theorem length_suffixProducts : (suffixProducts div).length = div.length := by
  induction div with
  | nil => rfl
  | cons n div ih => exact congrArg (· + 1) ih

theorem suffixProducts_pos (hpos : ∀ n ∈ div, 0 < n) : ∀ p ∈ suffixProducts div, 0 < p := by
  induction div with
  | nil => exact fun _ h => absurd h List.not_mem_nil
  | cons n div ih =>
    have ⟨_, hpos⟩ := List.forall_mem_cons.mp hpos
    exact List.forall_mem_cons.mpr ⟨List.prod_pos hpos, ih hpos⟩

-- The first digit needs no remainder.
theorem first_digit_lt (hb : b < div.prod) (hpos : ∀ n ∈ div, 0 < n) (hne : 0 < div.length) :
    b / (suffixProducts div).getD 0 0 < div.getD 0 0 := by
  cases div with
  | nil => cases hne
  | cons n div =>
    rw [List.prod_cons] at hb
    exact (Nat.div_lt_iff_lt_mul (List.prod_pos (List.forall_mem_cons.mp hpos).right)).mpr hb

-- A part of a dimension is computed without an overflow.
theorem part_computed {c n id : Nat} (hn : 0 < n) (hid : id < n) (hc : c < 2 ^ 64) :
    (if id < c % n then
        ((c / n * id % 2 ^ 64 + id) % 2 ^ 64, (c / n + 1) % 2 ^ 64)
      else
        ((c / n * id % 2 ^ 64 + c % n) % 2 ^ 64, c / n)) =
      (BlockPartition.start n c id, BlockPartition.size n c id) := by
  have hend : BlockPartition.start n c (id + 1) ≤ BlockPartition.start n c n :=
    BlockPartition.start_mono hid
  rw [BlockPartition.start_parts hn, BlockPartition.start_succ] at hend
  unfold BlockPartition.start BlockPartition.size at *
  generalize c / n * id = first at *
  generalize c / n = rows at *
  generalize c % n = rest at *
  split
  case isTrue hlt =>
    rw [if_pos hlt, Nat.min_eq_left hlt.le] at hend
    rw [Nat.min_eq_left hlt.le]
    rw [Nat.mod_eq_of_lt (by omega : first < 2 ^ 64), Nat.mod_eq_of_lt (by omega),
      Nat.mod_eq_of_lt (by omega)]
  case isFalse hge =>
    rw [if_neg hge, Nat.min_eq_right (Nat.le_of_not_lt hge)] at hend
    rw [Nat.min_eq_right (Nat.le_of_not_lt hge)]
    rw [Nat.mod_eq_of_lt (by omega : first < 2 ^ 64), Nat.mod_eq_of_lt (by omega), Nat.add_zero]

theorem getSubBlock_eq {info : BlockDivisionInfo} (h : info.Computed count)
    (hcount : ∀ c ∈ count, c < 2 ^ 64) (hb : b < info.nBlocks) :
    getSubBlock count info b =
      .ok (partStarts count info.div b, partSizes count info.div b) := by
  rw [h.nBlocks_eq] at hb
  have hpos := h.division.pos
  have hlen := h.division.length_eq
  have hdims : ((List.range count.length).mapM fun j => do
      let c ← (count[j]?).orUndefined
      let div ← (info.div[j]?).orUndefined
      let rem ← (info.rem[j]?).orUndefined
      let product ← (info.reverseDivProduct[j]?).orUndefined
      if product = 0 ∨ div = 0 then
        .error .undefined
      else
        let id := b / product % 2 ^ 16
        let id := if 0 < j then id % div else id
        let sbCount := c / div
        let sbStart := sbCount * id % 2 ^ 64
        pure <|
          if id < rem then
            ((sbStart + id) % 2 ^ 64, (sbCount + 1) % 2 ^ 64)
          else
            ((sbStart + rem) % 2 ^ 64, sbCount) : Outcome (List (Nat × Nat))) =
      .ok ((List.range count.length).map (partAt count info.div b)) := by
    refine Outcome.mapM_eq_ok fun j hj => ?_
    have hj := List.mem_range.mp hj
    have hjdiv : j < info.div.length := hlen ▸ hj
    have hjproduct : j < (suffixProducts info.div).length := by
      rwa [length_suffixProducts]
    have hrem : info.rem[j]? = some (count.getD j 0 % info.div.getD j 0) := by
      rw [h.rem_eq, List.getElem?_zipWith, getElem?_eq_getD hj, getElem?_eq_getD hjdiv]
    have hn : 0 < info.div.getD j 0 := by
      rw [List.getD_eq_getElem _ _ hjdiv]
      exact hpos _ (List.getElem_mem hjdiv)
    have hp : 0 < (suffixProducts info.div).getD j 0 := by
      rw [List.getD_eq_getElem _ _ hjproduct]
      exact suffixProducts_pos hpos _ (List.getElem_mem hjproduct)
    have hc : count.getD j 0 < 2 ^ 64 := by
      rw [List.getD_eq_getElem _ _ hj]
      exact hcount _ (List.getElem_mem hj)
    have hsmall : b / (suffixProducts info.div).getD j 0 < 2 ^ 16 := by
      have := Nat.div_le_self b ((suffixProducts info.div).getD j 0)
      have := h.prod_le
      omega
    have hdigit : (if 0 < j then
          b / (suffixProducts info.div).getD j 0 % info.div.getD j 0
        else b / (suffixProducts info.div).getD j 0) =
        b / (suffixProducts info.div).getD j 0 % info.div.getD j 0 := by
      split
      case isTrue => rfl
      case isFalse hzero =>
        obtain rfl : j = 0 := Nat.eq_zero_of_not_pos hzero
        exact (Nat.mod_eq_of_lt (first_digit_lt hb hpos (hlen ▸ hj))).symm
    rw [getElem?_eq_getD hj, getElem?_eq_getD hjdiv, hrem, h.product_eq, getElem?_eq_getD hjproduct]
    simp only [Option.orUndefined_some, Outcome.ok_bind]
    rw [if_neg (not_or.mpr ⟨hp.ne', hn.ne'⟩), Nat.mod_eq_of_lt hsmall, hdigit,
      part_computed hn (Nat.mod_lt _ hn) hc]
    rfl
  have ⟨hstarts, hsizes⟩ := length_parts (b := b) hlen
  rw [getSubBlock, hdims, map_partAt hlen, Outcome.ok_bind,
    List.map_fst_zip (hstarts.trans hsizes.symm).le, List.map_snd_zip (hsizes.trans hstarts.symm).le]
  rfl

-- What the division of a block is expected to be: sub-blocks that are disjoint, cover the block, and
-- follow each other in memory from the first element to the last.
structure BlockDivisionInfo.Divides (count : Dims) (info : BlockDivisionInfo) : Prop where
  nBlocks_eq : info.div.prod = info.nBlocks
  nBlocks_le : info.nBlocks ≤ 4096
  ranges     : ∃ place : Nat → Nat, place 0 = 0 ∧ place info.nBlocks = count.prod ∧
    ∀ b < info.nBlocks, place b ≤ place (b + 1) ∧
      ∃ box, getSubBlock count info b = .ok box ∧
        points box.1 box.2 ⊆ points (origin count) count ∧
        index (origin count) count '' points box.1 box.2 = Set.Ico (place b) (place (b + 1))
  disjoint   : ∀ b < info.nBlocks, ∀ b' < info.nBlocks, b ≠ b' → ∀ box box',
    getSubBlock count info b = .ok box → getSubBlock count info b' = .ok box' →
      Disjoint (points box.1 box.2) (points box'.1 box'.2)
  covers     : ∀ point ∈ points (origin count) count, ∃ b < info.nBlocks, ∃ box,
    getSubBlock count info b = .ok box ∧ point ∈ points box.1 box.2

theorem parts_subset (hlen : div.length = count.length) (hpos : ∀ n ∈ div, 0 < n) :
    points (partStarts count div b) (partSizes count div b) ⊆ points (origin count) count := by
  induction count generalizing div with
  | nil =>
    rw [List.length_eq_zero_iff.mp hlen]
    exact subset_rfl
  | cons c count ih =>
    cases div with
    | nil => cases hlen
    | cons n div =>
      have ⟨hn, hpos⟩ := List.forall_mem_cons.mp hpos
      intro point hpoint
      obtain ⟨x, tail, rfl, hx, htail⟩ := mem_points_cons.mp hpoint
      have hid : b / div.prod % n + 1 ≤ n := Nat.mod_lt _ hn
      have hend : BlockPartition.start n c (b / div.prod % n + 1) ≤ BlockPartition.start n c n :=
        BlockPartition.start_mono hid
      rw [BlockPartition.start_parts hn, BlockPartition.start_succ] at hend
      exact ⟨⟨Nat.zero_le x, by omega⟩, ih (Nat.succ.inj hlen) hpos htail⟩

theorem place_mono (h : Division count div) {b b' : Nat} (hle : b ≤ b') (hb' : b' ≤ div.prod) :
    place count div b ≤ place count div b' := by
  induction b', hle using Nat.le_induction with
  | base => exact Nat.le_refl _
  | succ b' hle ih =>
    rw [place_succ h hb']
    exact Nat.le_add_right_of_le (ih (Nat.le_of_succ_le hb'))

-- The step of a sequence in which a number is passed.
theorem exists_step {f : Nat → Nat} {i n : Nat} (hzero : f 0 ≤ i) (hend : i < f n) :
    ∃ b < n, f b ≤ i ∧ i < f (b + 1) := by
  induction n with
  | zero => omega
  | succ n ih =>
    rcases Nat.lt_or_ge i (f n) with hlt | hge
    · have ⟨b, hb, hstep⟩ := ih hlt
      exact ⟨b, Nat.lt_succ_of_lt hb, hstep⟩
    · exact ⟨n, Nat.lt_succ_self n, hge, hend⟩

theorem Division.disjoint (h : Division count div) {b b' : Nat} (hlt : b < b')
    (hb' : b' < div.prod) :
    Disjoint (points (partStarts count div b) (partSizes count div b))
      (points (partStarts count div b') (partSizes count div b')) := by
  rw [Set.disjoint_left]
  intro point hpoint hpoint'
  have hindex := Set.mem_image_of_mem (index (origin count) count) hpoint
  have hindex' := Set.mem_image_of_mem (index (origin count) count) hpoint'
  rw [h.image (hlt.trans hb')] at hindex
  rw [h.image hb'] at hindex'
  have : place count div (b + 1) ≤ place count div b' := place_mono h hlt hb'.le
  have := hindex.right
  have := hindex'.left
  omega

theorem BlockDivisionInfo.Computed.divides {info : BlockDivisionInfo} (h : info.Computed count)
    (hcount : ∀ c ∈ count, c < 2 ^ 64) : info.Divides count where
  nBlocks_eq := h.nBlocks_eq.symm
  nBlocks_le := h.nBlocks_eq ▸ h.prod_le
  ranges := by
    refine ⟨place count info.div, place_zero h.division, h.nBlocks_eq ▸ place_end,
      fun b hb => ⟨?_, _, getSubBlock_eq h hcount hb, ?_, ?_⟩⟩
    · rw [h.nBlocks_eq] at hb
      exact place_mono h.division (Nat.le_succ b) hb
    · exact parts_subset h.division.length_eq h.division.pos
    · exact h.division.image (h.nBlocks_eq ▸ hb)
  disjoint := by
    intro b hb b' hb' hne box box' hbox hbox'
    rw [getSubBlock_eq h hcount hb] at hbox
    rw [getSubBlock_eq h hcount hb'] at hbox'
    rw [← Except.ok.inj hbox, ← Except.ok.inj hbox']
    rw [h.nBlocks_eq] at hb hb'
    rcases Nat.lt_or_gt_of_ne hne with hlt | hgt
    · exact h.division.disjoint hlt hb'
    · exact (h.division.disjoint hgt hb).symm
  covers := by
    intro point hpoint
    have hlen : (origin count).length = count.length := List.length_map _
    have hlt := index_lt hpoint
    have hend : index (origin count) count point < place count info.div info.nBlocks := by
      rwa [h.nBlocks_eq, place_end]
    have ⟨b, hb, hstep⟩ := exists_step ((place_zero h.division).le.trans (Nat.zero_le _)) hend
    refine ⟨b, hb, _, getSubBlock_eq h hcount hb, ?_⟩
    have himage := h.division.image (h.nBlocks_eq ▸ hb)
    have hmem : index (origin count) count point ∈ index (origin count) count ''
        points (partStarts count info.div b) (partSizes count info.div b) := himage ▸ hstep
    obtain ⟨point', hpoint', hsame⟩ := hmem
    have hsub := parts_subset h.division.length_eq h.division.pos hpoint'
    exact index_injOn hsub hpoint hsame ▸ hpoint'

end Helper
