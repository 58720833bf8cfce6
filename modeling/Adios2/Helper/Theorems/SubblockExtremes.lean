import Adios2.Helper.Theorems.BlockDivision
import Adios2.Lib.Lists
import Mathlib.Order.Bounds.Basic

-- The smallest and the largest value of each sub-block, and of the block.

namespace Helper

open RowMajor

variable {α : Type}

-- The values in a range of places.
def valuesIn (values : List α) (first last : Nat) : Set α :=
  {v | ∃ i, first ≤ i ∧ i < last ∧ values[i]? = some v}

theorem mem_valuesIn {values : List α} {v : α} :
    v ∈ valuesIn values 0 values.length ↔ v ∈ values := by
  rw [List.mem_iff_getElem?]
  constructor
  case mp => exact fun ⟨i, _, _, hi⟩ => ⟨i, hi⟩
  case mpr => exact fun ⟨i, hi⟩ => ⟨i, Nat.zero_le i, (List.getElem?_eq_some_iff.mp hi).choose, hi⟩

theorem take_drop_values {values : List α} {pos size : Nat} :
    {v | v ∈ (values.drop pos).take size} = valuesIn values pos (pos + size) := by
  ext v
  change v ∈ (values.drop pos).take size ↔ _
  rw [List.mem_iff_getElem?]
  constructor
  case mp =>
    rintro ⟨i, hi⟩
    have hlt : i < size := by
      by_contra hge
      rw [List.getElem?_take, if_neg hge] at hi
      cases hi
    rw [List.getElem?_take_of_lt hlt, List.getElem?_drop] at hi
    exact ⟨pos + i, by omega, by omega, hi⟩
  case mpr =>
    rintro ⟨i, hfirst, hlast, hi⟩
    refine ⟨i - pos, ?_⟩
    rw [List.getElem?_take_of_lt (by omega), List.getElem?_drop, Nat.add_sub_cancel' hfirst, hi]

-- The ranges of the threads are all values.
theorem values_of_threads {values : List α} {threads : Nat} (hthreads : 0 < threads)
    (hle : threads ≤ values.length) :
    {v | ∃ t < threads, v ∈ valuesIn values (values.length / threads * t)
      (if t = threads - 1 then values.length else values.length / threads * (t + 1))} =
        {v | v ∈ values} := by
  have hstride : 0 < values.length / threads := Nat.div_pos hle hthreads
  ext v
  constructor
  case mp =>
    rintro ⟨t, _, i, _, _, hi⟩
    exact List.mem_iff_getElem?.mpr ⟨i, hi⟩
  case mpr =>
    intro hv
    have ⟨i, _, hlt, hi⟩ := mem_valuesIn.mpr hv
    rcases Nat.lt_or_ge i (values.length / threads * (threads - 1)) with hbefore | hlast
    · have ht : i / (values.length / threads) < threads - 1 :=
        (Nat.div_lt_iff_lt_mul hstride).mpr (Nat.mul_comm _ _ ▸ hbefore)
      refine ⟨i / (values.length / threads), by omega, i, Nat.mul_div_le _ _, ?_, hi⟩
      rw [if_neg ht.ne]
      exact Nat.lt_mul_div_succ i hstride
    · refine ⟨threads - 1, by omega, i, hlast, ?_, hi⟩
      rwa [if_pos rfl]

variable [LinearOrder α]

def Extremes (s : Set α) (bounds : α × α) : Prop :=
  IsLeast s bounds.1 ∧ IsGreatest s bounds.2

theorem Extremes.singleton (v : α) : Extremes {v} (v, v) :=
  ⟨isLeast_singleton, isGreatest_singleton⟩

theorem Extremes.unique {s : Set α} {p q : α × α} (h : Extremes s p) (h' : Extremes s q) :
    p = q :=
  Prod.ext (h.left.unique h'.left) (h.right.unique h'.right)

theorem Extremes.union {s t : Set α} {p q : α × α} (hs : Extremes s p) (ht : Extremes t q) :
    Extremes (s ∪ t)
      (if q.1 < p.1 then q.1 else p.1, if q.2 > p.2 then q.2 else p.2) := by
  have hmin : (if q.1 < p.1 then q.1 else p.1) = p.1 ⊓ q.1 := by
    rw [inf_comm, min_def_lt]
  have hmax : (if q.2 > p.2 then q.2 else p.2) = p.2 ⊔ q.2 := by
    rw [max_def_lt]
  rw [hmin, hmax]
  exact ⟨hs.left.union ht.left, hs.right.union ht.right⟩

theorem extremes_scalar {s : Set α} {bounds : α × α} (h : Extremes s bounds) (values : List α) :
    Extremes (s ∪ {v | v ∈ values}) (getMinMaxScalar values bounds) := by
  induction values generalizing s bounds with
  | nil => simpa [getMinMaxScalar] using h
  | cons v values ih =>
    have hstep := ih (h.union (.singleton v))
    have hset : s ∪ {v} ∪ {w | w ∈ values} = s ∪ {w | w ∈ v :: values} := by
      ext w
      simp [or_assoc, or_left_comm]
    rw [hset] at hstep
    exact hstep

theorem extremes_join {ι : Type} {s : Set α} {p : α × α} (hs : Extremes s p) {part : ι → α × α}
    {t : ι → Set α} {is : List ι} (ht : ∀ i ∈ is, Extremes (t i) (part i)) :
    Extremes (s ∪ {v | ∃ i ∈ is, v ∈ t i}) (joinBounds p (is.map part)) := by
  induction is generalizing s p with
  | nil => simpa [joinBounds] using hs
  | cons i is ih =>
    have ⟨hi, ht⟩ := List.forall_mem_cons.mp ht
    have hstep := ih (hs.union hi) ht
    have hset : s ∪ t i ∪ {v | ∃ j ∈ is, v ∈ t j} = s ∪ {v | ∃ j ∈ i :: is, v ∈ t j} := by
      ext v
      simp [or_assoc]
    rw [hset] at hstep
    exact hstep

theorem getMinMax_eq (specialised : Bool) (values : List α) (pos : Nat) {size : Nat} (bounds : α × α)
    (hsize : 0 < size) (hfits : pos + size ≤ values.length) :
    ∃ p, getMinMax specialised (values.drop pos) size bounds = .ok p ∧
      Extremes (valuesIn values pos (pos + size)) p := by
  have hlen : (values.drop pos).length = values.length - pos := List.length_drop
  unfold getMinMax
  rw [if_neg fun h => hsize.ne' h.right]
  obtain ⟨v, rest, hdrop⟩ := List.exists_cons_of_length_pos (by omega : 0 < (values.drop pos).length)
  rw [hdrop]
  dsimp only
  rw [← hdrop, if_neg (by omega)]
  refine ⟨_, rfl, ?_⟩
  have hextremes := extremes_scalar (.singleton v) ((values.drop pos).take size)
  have hfirst : v ∈ (values.drop pos).take size := by
    obtain ⟨m, rfl⟩ : ∃ m, size = m + 1 := ⟨size - 1, by omega⟩
    rw [hdrop, List.take_succ_cons]
    exact List.mem_cons_self
  have hsub : ({v} : Set α) ⊆ {w | w ∈ (values.drop pos).take size} := by
    rintro _ rfl
    exact hfirst
  rwa [Set.union_eq_self_of_subset_left hsub, take_drop_values] at hextremes

theorem getMinMax_all (specialised : Bool) {values : List α} (bounds : α × α) (h : values ≠ []) :
    ∃ p, getMinMax specialised values values.length bounds = .ok p ∧
      Extremes {v | v ∈ values} p := by
  have hpart := getMinMax_eq specialised values 0 bounds (List.length_pos_of_ne_nil h)
    (Nat.zero_add _).le
  have hall : valuesIn values 0 (0 + values.length) = {v | v ∈ values} := by
    ext v
    rw [Nat.zero_add]
    exact mem_valuesIn
  rwa [List.drop_zero, hall] at hpart

-- The parts that are computed one after the other, and their bounds together.
theorem exists_parts {n : Nat} (hn : 0 < n) (f : Nat → Outcome (α × α)) (part : Nat → Set α)
    (h : ∀ t < n, ∃ p, f t = .ok p ∧ Extremes (part t) p) :
    ∃ (p : α × α) (parts : List (α × α)), (List.range n).mapM f = .ok (p :: parts) ∧
      (p :: parts).length = n ∧ (∀ t < n, ∃ q, (p :: parts)[t]? = some q ∧ Extremes (part t) q) ∧
      Extremes {v | ∃ t < n, v ∈ part t} (joinBounds p parts) := by
  have ⟨p₀, _⟩ := h 0 hn
  have : Nonempty (α × α) := ⟨p₀⟩
  choose! g hg using h
  have hmap : (List.range n).mapM f = .ok ((List.range n).map g) :=
    Outcome.mapM_eq_ok fun t ht => (hg t (List.mem_range.mp ht)).left
  obtain ⟨m, rfl⟩ : ∃ m, n = m + 1 := ⟨n - 1, by omega⟩
  have hcons : (List.range (m + 1)).map g = g 0 :: (List.range m).map fun t => g (t + 1) := by
    rw [List.range_succ_eq_map, List.map_cons, List.map_map]
    rfl
  refine ⟨g 0, (List.range m).map fun t => g (t + 1), hmap.trans (congrArg _ hcons), by simp,
    fun t ht => ⟨g t, ?_, (hg t ht).right⟩, ?_⟩
  · rw [← hcons, List.getElem?_map, List.getElem?_range ht]
    rfl
  · have hrest : ∀ t ∈ List.range m, Extremes (part (t + 1)) (g (t + 1)) :=
      fun t ht => (hg (t + 1) (Nat.succ_lt_succ (List.mem_range.mp ht))).right
    have hjoin := extremes_join (hg 0 hn).right hrest
    have hset : part 0 ∪ {v | ∃ t ∈ List.range m, v ∈ part (t + 1)} =
        {v | ∃ t < m + 1, v ∈ part t} := by
      ext v
      simp only [List.mem_range, Nat.exists_lt_succ_left]
      rfl
    rwa [hset] at hjoin

section Threads

variable (zero : α) (specialised : Bool) (values : List α) (bounds : α × α) (threads : Nat)

-- A thread without values leaves zero, where the function is specialised.
def ThreadsSuffice : Prop :=
  1000000 ≤ values.length → threads ≠ 1 → 0 < threads ∧
    (values.length < threads → specialised = true →
      (∃ v ∈ values, v ≤ zero) ∧ ∃ v ∈ values, zero ≤ v)

variable {zero specialised values bounds threads}

-- With a value for each thread, the bounds are those of all values.
theorem threads_of_le (zero : α) (specialised : Bool) (hthreads : 0 < threads) (hle : threads ≤ values.length) :
    ∃ p parts, ((List.range threads).mapM fun t =>
      getMinMax specialised (values.drop (values.length / threads * t))
        (if t = threads - 1 then values.length / threads + values.length % threads
          else values.length / threads) (zero, zero)) = .ok (p :: parts) ∧
      Extremes {v | v ∈ values} (joinBounds p parts) := by
  have hstride : 0 < values.length / threads := Nat.div_pos hle hthreads
  have hall : values.length / threads * threads + values.length % threads = values.length :=
    Nat.div_add_mod' _ _
  have hparts := exists_parts hthreads
    (fun t => getMinMax specialised (values.drop (values.length / threads * t))
      (if t = threads - 1 then values.length / threads + values.length % threads
        else values.length / threads) (zero, zero))
    (fun t => valuesIn values (values.length / threads * t)
      (if t = threads - 1 then values.length else values.length / threads * (t + 1)))
    fun t ht => ?_
  · have ⟨p, parts, hmap, _, _, hextremes⟩ := hparts
    rw [values_of_threads hthreads hle] at hextremes
    exact ⟨p, parts, hmap, hextremes⟩
  · have hnext : values.length / threads * t + values.length / threads ≤
        values.length / threads * threads :=
      Nat.mul_le_mul_left (values.length / threads) (Nat.succ_le_of_lt ht)
    by_cases hlast : t = threads - 1
    · have hend : values.length / threads * t + values.length / threads =
          values.length / threads * threads := by
        rw [← Nat.mul_succ, hlast, Nat.succ_eq_add_one, Nat.sub_add_cancel hthreads]
      have hsize : values.length / threads * t +
          (values.length / threads + values.length % threads) = values.length := by
        omega
      have hpart := getMinMax_eq specialised values (values.length / threads * t) (zero, zero)
        (Nat.add_pos_left hstride (values.length % threads)) hsize.le
      simpa only [if_pos hlast, hsize] using hpart
    · have hfits : values.length / threads * t + values.length / threads ≤ values.length := by
        omega
      have hpart := getMinMax_eq specialised values _ (zero, zero) hstride hfits
      simpa only [if_neg hlast, Nat.mul_succ] using hpart

-- What the bounds of a thread are that has no values.
def emptyBound (zero : α) (specialised : Bool) (first : α) : α :=
  if specialised then zero else first

theorem getMinMax_zero {first : α} {rest : List α} :
    getMinMax specialised (first :: rest) 0 (zero, zero) =
      .ok (emptyBound zero specialised first, emptyBound zero specialised first) := by
  cases specialised <;> rfl

-- With more threads than values, only the last thread has any.
theorem threads_of_gt (zero : α) (specialised : Bool) {first : α} {rest : List α}
    (hthreads : 1 < threads) (hgt : (first :: rest).length < threads) :
    ∃ p parts, ((List.range threads).mapM fun t =>
      getMinMax specialised ((first :: rest).drop ((first :: rest).length / threads * t))
        (if t = threads - 1 then
            (first :: rest).length / threads + (first :: rest).length % threads
          else (first :: rest).length / threads) (zero, zero)) = .ok (p :: parts) ∧
      Extremes (insert (emptyBound zero specialised first) {v | v ∈ first :: rest})
        (joinBounds p parts) := by
  rw [Nat.div_eq_of_lt hgt, Nat.mod_eq_of_lt hgt]
  simp only [Nat.zero_mul, List.drop_zero, Nat.zero_add]
  have hparts := exists_parts (Nat.zero_lt_of_lt hthreads)
    (fun t => getMinMax specialised (first :: rest)
      (if t = threads - 1 then (first :: rest).length else 0) (zero, zero))
    (fun t => if t = threads - 1 then {v | v ∈ first :: rest} else
      {emptyBound zero specialised first}) fun t ht => ?_
  · have ⟨p, parts, hmap, _, _, hextremes⟩ := hparts
    refine ⟨p, parts, hmap, ?_⟩
    have hset : {v | ∃ t < threads, v ∈ if t = threads - 1 then {v | v ∈ first :: rest} else
        {emptyBound zero specialised first}} =
          insert (emptyBound zero specialised first) {v | v ∈ first :: rest} := by
      ext v
      constructor
      case mp =>
        rintro ⟨t, _, hv⟩
        split at hv
        case isTrue => exact .inr hv
        case isFalse => exact .inl hv
      case mpr =>
        rintro (hv | hv)
        · exact ⟨0, by omega, by rwa [if_neg (by omega)]⟩
        · exact ⟨threads - 1, by omega, by rwa [if_pos rfl]⟩
    rwa [hset] at hextremes
  · by_cases hlast : t = threads - 1
    · simp only [if_pos hlast]
      exact getMinMax_all specialised (zero, zero) (List.cons_ne_nil first rest)
    · simp only [if_neg hlast, getMinMax_zero]
      exact ⟨_, rfl, .singleton _⟩

theorem extremes_insert_iff {s : Set α} {p : α × α} {v : α} (h : Extremes (insert v s) p) :
    Extremes s p ↔ (∃ w ∈ s, w ≤ v) ∧ ∃ w ∈ s, v ≤ w := by
  constructor
  case mp =>
    intro hs
    exact ⟨⟨p.1, hs.left.left, h.left.right (.inl rfl)⟩, ⟨p.2, hs.right.left,
      h.right.right (.inl rfl)⟩⟩
  case mpr =>
    rintro ⟨⟨w, hw, hle⟩, ⟨w', hw', hge⟩⟩
    refine ⟨⟨?_, fun u hu => h.left.right (.inr hu)⟩, ⟨?_, fun u hu => h.right.right (.inr hu)⟩⟩
    · rcases h.left.left with heq | hmem
      · have hpw : p.1 ≤ w := h.left.right (.inr hw)
        have hpv : p.1 = w := le_antisymm hpw (heq ▸ hle)
        exact hpv ▸ hw
      · exact hmem
    · rcases h.right.left with heq | hmem
      · have hpw : w' ≤ p.2 := h.right.right (.inr hw')
        have hpv : p.2 = w' := le_antisymm (heq ▸ hge) hpw
        exact hpv ▸ hw'
      · exact hmem

theorem getMinMaxThreads_iff (bounds : α × α) (hvalues : values ≠ []) :
    (∃ p, getMinMaxThreads zero specialised values values.length bounds threads = .ok p ∧
      Extremes {v | v ∈ values} p) ↔ ThreadsSuffice zero specialised values threads := by
  have hpos : 0 < values.length := List.length_pos_of_ne_nil hvalues
  unfold getMinMaxThreads ThreadsSuffice
  rw [if_neg hpos.ne']
  by_cases hone : threads = 1 ∨ values.length < 1000000
  · rw [if_pos hone]
    refine ⟨fun _ hmany hmore => ?_, fun _ => getMinMax_all specialised bounds hvalues⟩
    rcases hone with h | h
    · exact absurd h hmore
    · omega
  · rw [if_neg hone]
    have ⟨hmore, hmany⟩ := not_or.mp hone
    by_cases hzero : threads = 0
    · rw [if_pos hzero]
      constructor
      case mp =>
        rintro ⟨p, hp, _⟩
        cases hp
      case mpr =>
        intro h
        exact absurd (h (Nat.le_of_not_lt hmany) hmore).left (by omega)
    · rw [if_neg hzero]
      dsimp only
      rcases Nat.lt_or_ge values.length threads with hgt | hle
      · obtain ⟨first, rest, rfl⟩ := List.exists_cons_of_ne_nil hvalues
        have ⟨p, parts, hmap, hextremes⟩ := threads_of_gt zero specialised (by omega) hgt
        rw [hmap, Outcome.ok_bind]
        have hjoin := extremes_insert_iff hextremes
        have hbound : ThreadsSuffice zero specialised (first :: rest) threads ↔
            (∃ w ∈ {v | v ∈ first :: rest}, w ≤ emptyBound zero specialised first) ∧
              ∃ w ∈ {v | v ∈ first :: rest}, emptyBound zero specialised first ≤ w := by
          unfold ThreadsSuffice emptyBound
          cases specialised with
          | true =>
            exact ⟨fun h => (h (Nat.le_of_not_lt hmany) hmore).right hgt rfl,
              fun h _ _ => ⟨by omega, fun _ _ => h⟩⟩
          | false =>
            exact ⟨fun _ => ⟨⟨first, List.mem_cons_self, le_rfl⟩,
              ⟨first, List.mem_cons_self, le_rfl⟩⟩,
              fun _ _ _ => ⟨by omega, fun _ h => by cases h⟩⟩
        refine Iff.trans ?_ hbound.symm
        constructor
        case mp =>
          rintro ⟨q, hq, hqs⟩
          rw [← Except.ok.inj hq] at hqs
          exact hjoin.mp hqs
        case mpr => exact fun h => ⟨_, rfl, hjoin.mpr h⟩
      · have ⟨p, parts, hmap, hextremes⟩ := threads_of_le zero specialised
          (by omega : 0 < threads) hle
        rw [hmap, Outcome.ok_bind]
        exact ⟨fun _ _ _ => ⟨by omega, fun hgt => absurd hgt (by omega)⟩,
          fun _ => ⟨_, rfl, hextremes⟩⟩

end Threads

section Subblocks

variable {count : Dims} {div : List Nat} {b : Nat}

theorem startPosition_eq {start : Dims} (hlen : start.length = count.length) :
    startPosition start count =
      (index (origin count) count start % 2 ^ 64, count.prod % 2 ^ 64) := by
  induction count generalizing start with
  | nil =>
    rw [List.length_eq_zero_iff.mp hlen]
    rfl
  | cons c count ih =>
    cases start with
    | nil => cases hlen
    | cons s start =>
      have hrest := ih (Nat.succ.inj hlen)
      unfold startPosition at hrest ⊢
      rw [List.zip_cons_cons, List.foldr_cons, hrest]
      dsimp only
      have hpos : (index (origin count) count start % 2 ^ 64 + s * (count.prod % 2 ^ 64)) % 2 ^ 64 =
          index (origin (c :: count)) (c :: count) (s :: start) % 2 ^ 64 := by
        have horigin : origin (c :: count) = 0 :: origin count := rfl
        rw [horigin, index, Nat.sub_zero, Nat.add_comm]
        exact Nat.ModEq.add (Nat.ModEq.mul_left _ (Nat.mod_modEq _ _)) (Nat.mod_modEq _ _)
      rw [hpos, List.prod_cons, Nat.mod_mul_mod, Nat.mul_comm c]

theorem Division.sizes_pos (h : Division count div) (hpos : ∀ c ∈ count, 0 < c) :
    0 < (partSizes count div b).prod := by
  induction h with
  | nil => exact Nat.one_pos
  | @cut c n count hn hle =>
    have ⟨hc, hpos⟩ := List.forall_mem_cons.mp hpos
    have hsize : 0 < BlockPartition.size n c (b / (count.map fun _ => 1).prod % n) :=
      BlockPartition.size_pos hn (by omega)
    rw [partSizes, (part_ones count b).right, List.prod_cons]
    exact Nat.mul_pos hsize (List.prod_pos hpos)
  | split hc h ih =>
    have ⟨_, hpos⟩ := List.forall_mem_cons.mp hpos
    rw [partSizes, List.prod_cons]
    exact Nat.mul_pos (BlockPartition.size_pos hc (Nat.le_refl _)) (ih hpos)

-- The values of a sub-block.
def valuesOf (values : List α) (count : Dims) (box : Box) : Set α :=
  {v | ∃ point ∈ points box.1 box.2, values[index (origin count) count point]? = some v}

omit [LinearOrder α] in
theorem valuesOf_eq {values : List α} {box : Box} {first last : Nat}
    (h : index (origin count) count '' points box.1 box.2 = Set.Ico first last) :
    valuesOf values count box = valuesIn values first last := by
  ext v
  constructor
  case mp =>
    rintro ⟨point, hpoint, hv⟩
    have hmem : index (origin count) count point ∈ Set.Ico first last :=
      h ▸ Set.mem_image_of_mem _ hpoint
    exact ⟨_, hmem.left, hmem.right, hv⟩
  case mpr =>
    rintro ⟨i, hfirst, hlast, hv⟩
    have hmem : i ∈ index (origin count) count '' points box.1 box.2 := h ▸ ⟨hfirst, hlast⟩
    obtain ⟨point, hpoint, rfl⟩ := hmem
    exact ⟨point, hpoint, hv⟩

-- The bounds are those of the values that they stand for.
structure Summarised (values : List α) (count : Dims) (info : BlockDivisionInfo)
    (minMaxs : List α) (bounds : α × α) : Prop where
  length  : minMaxs.length = 2 * info.nBlocks
  blocks  : ∀ b < info.nBlocks, ∃ box vmin vmax, getSubBlock count info b = .ok box ∧
    minMaxs[2 * b]? = some vmin ∧ minMaxs[2 * b + 1]? = some vmax ∧
    Extremes (valuesOf values count box) (vmin, vmax)
  overall : Extremes {v | v ∈ values} bounds

variable {info : BlockDivisionInfo} {values : List α} {zero : α} {specialised : Bool}
variable {bounds : α × α} {threads : Nat}

theorem subblockMinMax_eq (h : info.Computed count) (hcount : ∀ c ∈ count, c < 2 ^ 64)
    (hlen : values.length = count.prod) (hmem : values.length < 2 ^ 64)
    (hpos : ∀ c ∈ count, 0 < c) (hb : b < info.nBlocks) :
    ∃ p, subblockMinMax zero specialised values count info b = .ok p ∧
      Extremes (valuesIn values (place count info.div b) (place count info.div (b + 1))) p := by
  have hbprod : b < info.div.prod := h.nBlocks_eq ▸ hb
  have hnext := place_succ h.division hbprod
  have hend : place count info.div (b + 1) ≤ place count info.div info.div.prod :=
    place_mono h.division hbprod (Nat.le_refl _)
  rw [place_end, ← hlen] at hend
  have hsize : 0 < (partSizes count info.div b).prod := h.division.sizes_pos hpos
  have hstart : index (origin count) count (partStarts count info.div b) =
      place count info.div b := by
    rw [place, if_pos hbprod]
  rw [subblockMinMax, getSubBlock_eq h hcount hb, Outcome.ok_bind]
  dsimp only
  rw [startPosition_eq (length_parts h.division.length_eq).left, getTotalSize_eq, hstart,
    Nat.mod_eq_of_lt (by omega), Nat.mod_eq_of_lt (by omega), if_neg fun h => hsize.ne' h.right,
    hnext]
  exact getMinMax_eq specialised values _ _ hsize (by omega)

omit [LinearOrder α] in
theorem values_of_places (h : info.Computed count) (hlen : values.length = count.prod) :
    {v | ∃ b < info.nBlocks,
      v ∈ valuesIn values (place count info.div b) (place count info.div (b + 1))} =
        {v | v ∈ values} := by
  ext v
  constructor
  case mp =>
    rintro ⟨b, _, i, _, _, hi⟩
    exact List.mem_iff_getElem?.mpr ⟨i, hi⟩
  case mpr =>
    intro hv
    have ⟨i, _, hlt, hi⟩ := mem_valuesIn.mpr hv
    have hzero : place count info.div 0 ≤ i := (place_zero h.division).le.trans (Nat.zero_le i)
    have hend : i < place count info.div info.nBlocks := by
      rwa [h.nBlocks_eq, place_end, ← hlen]
    have ⟨b, hb, hfirst, hlast⟩ := exists_step hzero hend
    exact ⟨b, hb, i, hfirst, hlast, hi⟩

theorem getMinMaxSubblocks_iff (h : info.Computed count) (hcount : ∀ c ∈ count, c < 2 ^ 64)
    (hlen : values.length = count.prod) (hmem : values.length < 2 ^ 64) (hvalues : values ≠ []) :
    (∃ minMaxs bounds', getMinMaxSubblocks zero specialised (some values) count info bounds threads =
        .ok (minMaxs, bounds') ∧ Summarised values count info minMaxs bounds') ↔
      (info.nBlocks ≤ 1 → ThreadsSuffice zero specialised values threads) := by
  have hnBlocks : 0 < info.nBlocks := h.nBlocks_eq ▸ List.prod_pos h.division.pos
  have hprod : 0 < count.prod := hlen ▸ List.length_pos_of_ne_nil hvalues
  have hpos : ∀ c ∈ count, 0 < c := fun c hc =>
    Nat.pos_of_ne_zero fun h0 => hprod.ne' (List.prod_eq_zero (h0 ▸ hc))
  have hbox : ∀ b < info.nBlocks, ∃ box, getSubBlock count info b = .ok box ∧
      valuesOf values count box =
        valuesIn values (place count info.div b) (place count info.div (b + 1)) := fun b hb =>
    ⟨_, getSubBlock_eq h hcount hb, valuesOf_eq (h.division.image (h.nBlocks_eq ▸ hb))⟩
  have htotal : getTotalSize count = values.length := by
    rw [getTotalSize_eq, ← hlen, Nat.mod_eq_of_lt hmem]
  unfold getMinMaxSubblocks
  dsimp only
  by_cases hsingle : info.nBlocks ≤ 1
  · have hone : info.nBlocks = 1 := by omega
    rw [if_pos hsingle, htotal, ← getMinMaxThreads_iff bounds hvalues]
    constructor
    case mp =>
      rintro ⟨minMaxs, bounds', hok, hsummary⟩ _
      obtain ⟨p, hp, hok⟩ := Outcome.bind_eq_ok.mp hok
      have hpair : ([p.1, p.2], p) = (minMaxs, bounds') := Except.ok.inj hok
      exact ⟨p, hp, (Prod.mk.inj hpair).right ▸ hsummary.overall⟩
    case mpr =>
      intro hthreads
      have ⟨p, hp, hextremes⟩ := hthreads hsingle
      rw [hp]
      refine ⟨[p.1, p.2], p, rfl, by rw [hone]; rfl, fun b hb => ?_, hextremes⟩
      obtain rfl : b = 0 := by omega
      have ⟨box, hget, hset⟩ := hbox 0 hb
      refine ⟨box, p.1, p.2, hget, rfl, rfl, ?_⟩
      have hall := values_of_places h hlen
      have hzero : {v | ∃ b < info.nBlocks,
          v ∈ valuesIn values (place count info.div b) (place count info.div (b + 1))} =
          valuesIn values (place count info.div 0) (place count info.div (0 + 1)) := by
        ext v
        rw [hone]
        exact ⟨fun ⟨b, hb, hv⟩ => Nat.lt_one_iff.mp hb ▸ hv, fun hv => ⟨0, Nat.one_pos, hv⟩⟩
      rw [hset, ← hzero, hall]
      exact hextremes
  · rw [if_neg hsingle]
    have ⟨p, parts, hmap, hlength, hblocks, hextremes⟩ := exists_parts hnBlocks
      (subblockMinMax zero specialised values count info)
      (fun b => valuesIn values (place count info.div b) (place count info.div (b + 1)))
      fun b hb => subblockMinMax_eq h hcount hlen hmem hpos hb
    rw [hmap]
    refine ⟨fun _ hle => absurd hle hsingle, fun _ => ⟨_, _, rfl, ?_, fun b hb => ?_, ?_⟩⟩
    · have hpairs : ∀ l : List (α × α), (l.flatMap fun q => [q.1, q.2]).length = 2 * l.length := by
        intro l
        simp [List.length_flatMap, Nat.mul_comm]
      rw [← hlength]
      exact hpairs (p :: parts)
    · have ⟨q, hq, hqextremes⟩ := hblocks b hb
      have ⟨box, hget, hset⟩ := hbox b hb
      have ⟨hmin, hmax⟩ := List.getElem?_flatMap_pair Prod.fst Prod.snd (p :: parts) b
      rw [hq] at hmin hmax
      exact ⟨box, q.1, q.2, hget, hmin, hmax, hset ▸ hqextremes⟩
    · rw [values_of_places h hlen] at hextremes
      exact hextremes

end Subblocks

-- Every block is divided as expected. The bounds are those of the sub-blocks and of the block, unless
-- it is left whole, large enough for threads, and their number does not suffice.
theorem blockDivision (count : Dims) (hcount : ∀ c ∈ count, c < 2 ^ 64) {subblockSize : Nat}
    (hsize : 1 ≤ subblockSize) :
    ∃ info, divideBlock count subblockSize .contiguous = .ok info ∧ info.Divides count ∧
      ∀ (zero : α) (specialised : Bool) (values : List α) (bounds : α × α) (threads : Nat),
        values.length = count.prod → values.length < 2 ^ 64 → values ≠ [] →
          ((∃ minMaxs bounds',
            getMinMaxSubblocks zero specialised (some values) count info bounds threads =
              .ok (minMaxs, bounds') ∧ Summarised values count info minMaxs bounds') ↔
          (values.length ≤ subblockSize → ThreadsSuffice zero specialised values threads)) := by
  have ⟨info, hinfo, hcomputed, hsingle⟩ := divideBlock_computed hsize count
  refine ⟨info, hinfo, hcomputed.divides hcount,
    fun zero specialised values bounds threads hlen hmem hvalues => ?_⟩
  have hblocks := hsingle (hlen ▸ List.length_pos_of_ne_nil hvalues) (hlen ▸ hmem)
  rw [getMinMaxSubblocks_iff hcomputed hcount hlen hmem hvalues, hblocks, hlen]

theorem blockDivision_fourValues :
    ∃ info, divideBlock [2, 2] 2 .contiguous = .ok info ∧ info.Divides [2, 2] ∧
      ∃ minMaxs bounds, getMinMaxSubblocks (0 : Int) true (some [3, 1, 4, 1]) [2, 2] info (0, 0) 1 =
        .ok (minMaxs, bounds) ∧ Summarised [3, 1, 4, 1] [2, 2] info minMaxs bounds := by
  have ⟨info, hinfo, hdivides, hbounds⟩ := blockDivision (α := Int) [2, 2] (by decide)
    (by decide : 1 ≤ 2)
  refine ⟨info, hinfo, hdivides, ?_⟩
  exact (hbounds 0 true [3, 1, 4, 1] (0, 0) 1 rfl (by decide) (by decide)).mpr
    fun hle => absurd hle (by decide)

-- The parameter of the threads may be zero, and the number of the values is divided by it.
theorem not_summarised_noThreads : ∃ info, divideBlock [1000000] 1000000 .contiguous = .ok info ∧
    ¬ ∃ minMaxs bounds, getMinMaxSubblocks (0 : Int) true (some (List.replicate 1000000 0)) [1000000]
      info (0, 0) 0 = .ok (minMaxs, bounds) ∧
        Summarised (List.replicate 1000000 0) [1000000] info minMaxs bounds := by
  refine ⟨_, rfl, ?_⟩
  rintro ⟨minMaxs, bounds, hok, _⟩
  cases hok

end Helper
