import Adios2.Toolkit.Query.Query
import Adios2.Lib.Lists

-- The points of the blocks that a composite query covers, and those that its children cover.

namespace Query

open Helper

-- A point of an array, and a point of a block.
abbrev Point := List Nat

def Contains (box : Box) (p : Point) : Prop :=
  p.length = box.1.length ∧ ∀ (d : Nat) (x : Nat), p[d]? = some x →
    ∃ s c, box.1[d]? = some s ∧ box.2[d]? = some c ∧ s ≤ x ∧ x < s + c

variable (blocks : Nat → Set Point)

-- The points of a hit, where block `id` has the points `blocks id`.
def BlockHit.covered (hit : BlockHit) : Set (Nat × Point) :=
  { x | x.1 = hit.id ∧ x.2 ∈ blocks x.1 ∧
    (hit.IsLocalArrayBlock ∨ ∃ box ∈ hit.regions, Contains box x.2) }

def covered (hits : List BlockHit) : Set (Nat × Point) :=
  { x | ∃ hit ∈ hits, x ∈ hit.covered blocks }

-- What a composite query is to cover.
def combined : Relation → List (List BlockHit) → Set (Nat × Point)
  | .and, children => { x | ∀ hits ∈ children, x ∈ covered blocks hits }
  | _, children    => { x | ∃ hits ∈ children, x ∈ covered blocks hits }

variable {blocks}

theorem mem_covered_append {hits hits' : List BlockHit} {x : Nat × Point} :
    x ∈ covered blocks (hits ++ hits') ↔ x ∈ covered blocks hits ∨ x ∈ covered blocks hits' := by
  simp [covered, or_and_right, exists_or]

theorem mem_covered_cons {hit : BlockHit} {hits : List BlockHit} {x : Nat × Point} :
    x ∈ covered blocks (hit :: hits) ↔ x ∈ hit.covered blocks ∨ x ∈ covered blocks hits := by
  simp [covered]

theorem mem_covered_flatten {children : List (List BlockHit)} {x : Nat × Point} :
    x ∈ covered blocks children.flatten ↔ ∃ hits ∈ children, x ∈ covered blocks hits := by
  induction children with
  | nil => simp [covered]
  | cons hits children ih => rw [List.flatten_cons, mem_covered_append, ih]; simp

@[simp]
theorem covered_nil : covered blocks [] = ∅ := by
  simp [covered]

-- A hit for a block that is there already is dropped.
def join (touched : List BlockHit) (b : BlockHit) : List BlockHit :=
  if b.id ∈ touched.map (·.id) then touched else touched ++ [b]

theorem mem_foldl_join {l touched : List BlockHit} {hit : BlockHit}
    (h : hit ∈ l.foldl join touched) : hit ∈ touched ∨ hit ∈ l ∧ hit.id ∉ touched.map (·.id) := by
  induction l generalizing touched with
  | nil => exact .inl h
  | cons b l ih =>
    rcases ih h with h | ⟨h, hid⟩
    · unfold join at h
      split at h
      case isTrue => exact .inl h
      case isFalse hnew =>
        rcases List.mem_append.mp h with h | h
        · exact .inl h
        · obtain rfl := List.mem_singleton.mp h
          exact .inr ⟨List.mem_cons_self, hnew⟩
    · refine .inr ⟨List.mem_cons_of_mem _ h, fun hmem => hid ?_⟩
      unfold join
      split
      case isTrue => exact hmem
      case isFalse =>
        rw [List.map_append]
        exact List.mem_append_left _ hmem

theorem covered_foldl_join_subset {l touched : List BlockHit} :
    covered blocks (l.foldl join touched) ⊆ covered blocks (touched ++ l) := by
  rintro x ⟨hit, hmem, hx⟩
  exact ⟨hit, List.mem_append.mpr ((mem_foldl_join hmem).imp_right And.left), hx⟩

variable (blocks) in
-- Each hit for a block that was hit before lies within what was hit before.
def Nested (touched l : List BlockHit) : Prop :=
  ∀ front b back, l = front ++ b :: back → b.id ∈ (touched ++ front).map (·.id) →
    b.covered blocks ⊆ covered blocks (touched ++ front)

theorem nested_cons {touched l : List BlockHit} {b : BlockHit} :
    Nested blocks touched (b :: l) ↔
      (b.id ∈ touched.map (·.id) → b.covered blocks ⊆ covered blocks touched) ∧
      Nested blocks (touched ++ [b]) l := by
  constructor
  · refine fun h => ⟨fun hid => ?_, fun front b' back hl hid => ?_⟩
    · simpa using h [] b l rfl (by simpa using hid)
    · have := h (b :: front) b' back (by rw [hl, List.cons_append]) (by simpa using hid)
      simpa using this
  · rintro ⟨hb, hl⟩ front b' back heq hid
    cases front with
    | nil =>
      rw [List.nil_append, List.cons.injEq] at heq
      obtain ⟨rfl, rfl⟩ := heq
      simpa using hb (by simpa using hid)
    | cons b₀ front =>
      rw [List.cons_append, List.cons.injEq] at heq
      obtain ⟨rfl, rfl⟩ := heq
      have := hl front b' back rfl (by simpa using hid)
      simpa using this

theorem nested_congr {touched touched' l : List BlockHit}
    (hid : ∀ id, id ∈ touched.map (·.id) ↔ id ∈ touched'.map (·.id))
    (hcov : covered blocks touched = covered blocks touched') :
    Nested blocks touched l ↔ Nested blocks touched' l := by
  have hmem (front : List BlockHit) (id : Nat) :
      id ∈ (touched ++ front).map (·.id) ↔ id ∈ (touched' ++ front).map (·.id) := by
    simp only [List.map_append, List.mem_append, hid]
  have hset (front : List BlockHit) :
      covered blocks (touched ++ front) = covered blocks (touched' ++ front) := by
    ext x
    rw [mem_covered_append, mem_covered_append, hcov]
  unfold Nested
  simp only [hmem, hset]

-- What is dropped is covered exactly where all hits lie within those before them.
theorem covered_foldl_join_eq_iff {l touched : List BlockHit} :
    covered blocks (l.foldl join touched) = covered blocks (touched ++ l) ↔
      Nested blocks touched l := by
  induction l generalizing touched with
  | nil => simp [Nested]
  | cons b l ih =>
    rw [List.foldl_cons, nested_cons]
    by_cases hid : b.id ∈ touched.map (·.id)
    case neg =>
      rw [join, if_neg hid, ← ih, List.append_assoc, List.singleton_append]
      simp [hid]
    case pos =>
      rw [join, if_pos hid]
      have hsame (hb : b.covered blocks ⊆ covered blocks touched) :
          covered blocks (touched ++ b :: l) = covered blocks (touched ++ l) ∧
          (Nested blocks touched l ↔
            Nested blocks (touched ++ [b]) l) := by
        refine ⟨?_, nested_congr (fun id => ?_) ?_⟩
        · ext x
          simp only [mem_covered_append, mem_covered_cons]
          have := @hb x
          tauto
        · simp only [List.map_append, List.mem_append, List.map_cons, List.map_nil,
            List.mem_singleton]
          exact ⟨.inl, fun h => h.elim (fun h => h) fun h => h ▸ hid⟩
        · ext x
          simp only [mem_covered_append, mem_covered_cons, covered_nil, Set.mem_empty_iff_false,
            or_false]
          have := @hb x
          tauto
      constructor
      · intro hcov
        -- the hits of the block are those that were there
        have hb : b.covered blocks ⊆ covered blocks touched := by
          intro x hx
          have hx' : x ∈ covered blocks (l.foldl join touched) := by
            rw [hcov, mem_covered_append, mem_covered_cons]
            exact .inr (.inl hx)
          obtain ⟨hit, hmem, hhit⟩ := hx'
          refine ⟨hit, (mem_foldl_join hmem).resolve_right fun h => h.right ?_, hhit⟩
          rw [← hhit.left, hx.left]
          exact hid
        have ⟨heq, hnested⟩ := hsame hb
        rw [heq] at hcov
        exact ⟨fun _ => hb, hnested.mp (ih.mp hcov)⟩
      · rintro ⟨hb, hl⟩
        have ⟨heq, hnested⟩ := hsame (hb hid)
        rw [heq]
        exact ih.mpr (hnested.mpr hl)

-- The regions of a hit list are boxes of the same number of dimensions that have no point in common.
structure Regular (n : Nat) (hits : List BlockHit) : Prop where
  dims     : ∀ hit ∈ hits, ∀ box ∈ hit.regions, box.1.length = n ∧ box.2.length = n
  disjoint : ∀ hit ∈ hits, hit.regions.Pairwise fun box box' => ∀ p, ¬ (Contains box p ∧ Contains box' p)

theorem identicalBoxes_eq_ok {n : Nat} {box box' : Box} (h : box.1.length = n ∧ box.2.length = n)
    (h' : box'.1.length = n ∧ box'.2.length = n) : ∃ same, identicalBoxes box box' = .ok same := by
  unfold identicalBoxes
  have hds : ∀ d ∈ List.range box.1.length, d < n := fun d hd => h.1 ▸ List.mem_range.mp hd
  generalize List.range box.1.length = ds at hds
  induction ds with
  | nil => exact ⟨true, rfl⟩
  | cons d ds ih =>
    have ⟨hd, hds⟩ := List.forall_mem_cons.mp hds
    have hbounds : ∃ x, boundsAt box box' d = .ok x := by
      unfold boundsAt
      rw [List.getElem?_eq_getElem (h.1 ▸ hd), List.getElem?_eq_getElem (h.2 ▸ hd),
        List.getElem?_eq_getElem (h'.1 ▸ hd), List.getElem?_eq_getElem (h'.2 ▸ hd)]
      exact ⟨_, rfl⟩
    have ⟨x, hx⟩ := hbounds
    rw [identicalIn, hx, Outcome.ok_bind]
    dsimp only
    split
    case isTrue => exact ⟨false, rfl⟩
    case isFalse => exact ih hds

theorem Regular.of_mem {n : Nat} {hits hits' : List BlockHit} (h : Regular n hits)
    (hmem : ∀ hit ∈ hits', hit ∈ hits) : Regular n hits' where
  dims hit hhit     := h.dims hit (hmem hit hhit)
  disjoint hit hhit := h.disjoint hit (hmem hit hhit)

theorem Regular.nil (n : Nat) : Regular n [] where
  dims     := by simp
  disjoint := by simp

theorem Regular.append {n : Nat} {hits hits' : List BlockHit} (h : Regular n hits)
    (h' : Regular n hits') : Regular n (hits ++ hits') where
  dims     := List.forall_mem_append.mpr ⟨h.dims, h'.dims⟩
  disjoint := List.forall_mem_append.mpr ⟨h.disjoint, h'.disjoint⟩

def HasDims (n : Nat) (regions : List Box) : Prop :=
  ∀ box ∈ regions, box.1.length = n ∧ box.2.length = n

theorem applyExtension_eq_ok {n : Nat} {hit tmp : BlockHit} (h : HasDims n hit.regions)
    (h' : HasDims n tmp.regions) :
    ∃ hit', hit.applyExtension tmp = .ok (decide (hit.id = tmp.id), hit') := by
  unfold BlockHit.applyExtension
  by_cases hid : hit.id = tmp.id
  case neg => exact ⟨hit, by simp [hid]⟩
  case pos =>
    rw [if_neg (not_not.mpr hid)]
    suffices hext : ∀ regions, HasDims n regions → ∃ regions',
        tmp.regions.foldlM (fun regions b => do
          let duplicated ← regions.mapM fun box => identicalBoxes box b
          pure (if true ∈ duplicated then regions else regions ++ [b])) regions =
        Except.ok (ε := Fault) regions' by
      have ⟨regions', hr⟩ := hext hit.regions h
      exact ⟨{ hit with regions := regions' }, by rw [hr, Outcome.ok_bind]; simp [hid]⟩
    intro regions hregions
    generalize tmp.regions = l at h'
    induction l generalizing regions with
    | nil => exact ⟨regions, rfl⟩
    | cons b l ih =>
      have ⟨hb, hl⟩ := List.forall_mem_cons.mp h'
      have ⟨same, hsame⟩ : ∃ same, regions.mapM (fun box => identicalBoxes box b) =
          Except.ok (ε := Fault) same := by
        refine Outcome.exists_mapM_eq_ok fun box hbox => identicalBoxes_eq_ok (hregions box hbox) hb
      rw [List.foldlM_cons, hsame, Outcome.ok_bind, Outcome.pure_eq, Outcome.ok_bind]
      refine ih _ ?_ hl
      split
      case isTrue => exact hregions
      case isFalse => exact List.forall_mem_append.mpr ⟨hregions, List.forall_mem_singleton.mpr hb⟩

-- The hits of a block that is there already are dropped.
theorem applyOR_eq_ok {n : Nat} {touched curr : List BlockHit}
    (h : ∀ hit ∈ touched, HasDims n hit.regions) (h' : ∀ hit ∈ curr, HasDims n hit.regions) :
    applyOR touched curr = .ok (curr.foldl join touched) := by
  unfold applyOR
  induction curr generalizing touched with
  | nil => rfl
  | cons b curr ih =>
    have ⟨hb, hcurr⟩ := List.forall_mem_cons.mp h'
    have hext : ∃ exts, touched.mapM (fun box => box.applyExtension b) = .ok exts ∧
        exts.map (·.1) = touched.map fun hit => decide (hit.id = b.id) := by
      clear ih
      induction touched with
      | nil => exact ⟨[], rfl, rfl⟩
      | cons hit touched ih =>
        have ⟨hhit, htouched⟩ := List.forall_mem_cons.mp h
        have ⟨hit', hone⟩ := applyExtension_eq_ok hhit hb
        have ⟨exts, hexts, hmap⟩ := ih htouched
        refine ⟨(decide (hit.id = b.id), hit') :: exts, ?_, ?_⟩
        · rw [List.mapM_cons, hone, Outcome.ok_bind, hexts]
          rfl
        · rw [List.map_cons, List.map_cons, hmap]
    have ⟨exts, hexts, hmap⟩ := hext
    rw [List.foldlM_cons, hexts, Outcome.ok_bind, Outcome.pure_eq, Outcome.ok_bind, List.foldl_cons,
      hmap]
    have hjoin : (if true ∈ touched.map (fun hit => decide (hit.id = b.id)) then touched
        else touched ++ [b]) = join touched b := by
      unfold join
      congr 1
      simp [eq_comm]
    rw [hjoin]
    refine ih ?_ hcurr
    unfold join
    split
    case isTrue => exact h
    case isFalse => exact List.forall_mem_append.mpr ⟨h, List.forall_mem_singleton.mpr hb⟩

-- The first index that is looked at lies behind the end.
theorem applyAND_eq {touched curr : List BlockHit} :
    applyAND touched curr =
      if curr = [] ∨ touched = [] then .ok [] else .error .undefined := by
  unfold applyAND
  cases curr with
  | nil => rfl
  | cons b curr =>
    cases touched with
    | nil => rfl
    | cons hit touched =>
      simp [intersectFrom, intersectsAny]

theorem applyOR_regular {n : Nat} {touched curr : List BlockHit} (h : Regular n touched)
    (h' : Regular n curr) :
    applyOR touched curr = .ok (curr.foldl join touched) ∧ Regular n (curr.foldl join touched) := by
  refine ⟨applyOR_eq_ok h.dims h'.dims, (h.append h').of_mem fun hit hhit => ?_⟩
  exact List.mem_append.mpr ((mem_foldl_join hhit).imp_right And.left)

variable {ν : Type} {find : ν → List BlockHit}

theorem evaluateNodes_regular {n counter : Nat} {relation : Relation} {touched result : List BlockHit}
    {nodes : List (Query ν)}
    (hnodes : ∀ node ∈ nodes, ∀ hits, blockIndexEvaluate find node = .ok hits → Regular n hits)
    (h : Regular n touched)
    (hresult : evaluateNodes find relation counter touched nodes = .ok result) :
    Regular n result := by
  induction nodes generalizing counter touched with
  | nil =>
    cases hresult
    exact h
  | cons node nodes ih =>
    have ⟨hnode, hnodes⟩ := List.forall_mem_cons.mp hnodes
    rw [evaluateNodes] at hresult
    obtain ⟨curr, hcurr, hresult⟩ := Outcome.bind_eq_ok.mp hresult
    have hcurr := hnode curr hcurr
    split at hresult
    case isTrue => exact ih hnodes hcurr hresult
    case isFalse =>
      split at hresult
      case isTrue =>
        split at hresult
        · cases hresult
          exact .nil n
        · exact ih hnodes h hresult
      case isFalse =>
        cases relation with
        | and =>
          obtain ⟨touched', happly, hresult⟩ := Outcome.bind_eq_ok.mp hresult
          rw [applyAND_eq] at happly
          split at happly
          · cases happly
            exact ih hnodes (.nil n) hresult
          · cases happly
        | or =>
          have ⟨happly, hregular⟩ := applyOR_regular h hcurr
          rw [happly, Outcome.ok_bind] at hresult
          exact ih hnodes hregular hresult
        | not => exact ih hnodes h hresult

theorem induction {motive : Query ν → Prop} (var : ∀ name, motive (.var name))
    (composite : ∀ relation nodes, (∀ node ∈ nodes, motive node) → motive (.composite relation nodes)) :
    ∀ q, motive q
  | .var name                 => var name
  | .composite relation nodes => composite relation nodes fun node _ => induction var composite node

-- Hit lists stay regular.
theorem blockIndexEvaluate_regular {n : Nat} (hfind : ∀ name, Regular n (find name)) {q : Query ν}
    {hits : List BlockHit} (h : blockIndexEvaluate find q = .ok hits) : Regular n hits := by
  induction q using induction generalizing hits with
  | var name =>
    cases h
    exact hfind name
  | composite relation nodes ih =>
    rw [blockIndexEvaluate] at h
    exact evaluateNodes_regular (fun node hnode hits h => ih node hnode h) (.nil n) h

-- Behind the first child.
theorem evaluateNodes_or {n counter : Nat} {touched : List BlockHit} {nodes : List (Query ν)}
    {hits : List (List BlockHit)} (hnodes : nodes.mapM (blockIndexEvaluate find) = .ok hits)
    (h : Regular n touched) (hhits : ∀ l ∈ hits, Regular n l) :
    evaluateNodes find .or (counter + 1) touched nodes = .ok (hits.flatten.foldl join touched) := by
  induction nodes generalizing counter touched hits with
  | nil =>
    cases hnodes
    rfl
  | cons node nodes ih =>
    rw [List.mapM_cons] at hnodes
    obtain ⟨curr, hcurr, hnodes⟩ := Outcome.bind_eq_ok.mp hnodes
    obtain ⟨rest, hrest, hnodes⟩ := Outcome.bind_eq_ok.mp hnodes
    cases hnodes
    have ⟨hc, hhits⟩ := List.forall_mem_cons.mp hhits
    rw [evaluateNodes, hcurr, Outcome.ok_bind, if_neg (by omega), List.flatten_cons,
      List.foldl_append]
    by_cases hnil : curr = []
    case pos =>
      rw [if_pos hnil, if_neg (by decide), hnil]
      exact ih hrest h hhits
    case neg =>
      have ⟨happly, hregular⟩ := applyOR_regular h hc
      rw [if_neg hnil]
      dsimp only
      rw [happly, Outcome.ok_bind]
      exact ih hrest hregular hhits

theorem evaluateNodes_and_nil {counter : Nat} {nodes : List (Query ν)} {hits : List (List BlockHit)}
    (hnodes : nodes.mapM (blockIndexEvaluate find) = .ok hits) :
    evaluateNodes find .and (counter + 1) [] nodes = .ok [] := by
  induction nodes generalizing counter hits with
  | nil => rfl
  | cons node nodes ih =>
    rw [List.mapM_cons] at hnodes
    obtain ⟨curr, hcurr, hnodes⟩ := Outcome.bind_eq_ok.mp hnodes
    obtain ⟨rest, hrest, hnodes⟩ := Outcome.bind_eq_ok.mp hnodes
    rw [evaluateNodes, hcurr, Outcome.ok_bind, if_neg (by omega)]
    split
    case isTrue => rfl
    case isFalse =>
      dsimp only
      rw [applyAND_eq, if_pos (.inr rfl), Outcome.ok_bind]
      exact ih hrest

variable (blocks)

-- The hit lists that are combined to what is to be covered. Of the hit lists that are intersected one
-- of the first two is empty, unless there is only one; and of those that are joined each hit for a
-- block that was hit before lies within what was hit before, from the second list on.
def Combinable : Relation → List (List BlockHit) → Prop
  | .and, first :: second :: _ => first = [] ∨ second = []
  | .or, first :: rest         => Nested blocks first rest.flatten
  | _, _                       => True

variable {blocks}

theorem composite_iff {n : Nat} {relation : Relation} {nodes : List (Query ν)}
    {hits : List (List BlockHit)} (hrelation : relation ≠ .not) (hne : nodes ≠ [])
    (hnodes : nodes.mapM (blockIndexEvaluate find) = .ok hits) (hhits : ∀ l ∈ hits, Regular n l) :
    (∃ touched, blockIndexEvaluate find (.composite relation nodes) = .ok touched ∧
      covered blocks touched = combined blocks relation hits) ↔
    Combinable blocks relation hits := by
  cases nodes with
  | nil => exact absurd rfl hne
  | cons node nodes =>
    rw [List.mapM_cons] at hnodes
    obtain ⟨first, hfirst, hnodes⟩ := Outcome.bind_eq_ok.mp hnodes
    obtain ⟨rest, hrest, hnodes⟩ := Outcome.bind_eq_ok.mp hnodes
    cases hnodes
    have ⟨hf, hr⟩ := List.forall_mem_cons.mp hhits
    rw [blockIndexEvaluate, evaluateNodes, hfirst, Outcome.ok_bind, if_pos rfl]
    cases relation with
    | not => exact absurd rfl hrelation
    | or =>
      have hcombined : combined blocks .or (first :: rest) = covered blocks (first ++ rest.flatten) := by
        ext x
        rw [mem_covered_append, mem_covered_flatten]
        simp [combined]
      rw [evaluateNodes_or hrest hf hr, hcombined]
      simp only [Except.ok.injEq, exists_eq_left']
      exact covered_foldl_join_eq_iff
    | and =>
      cases nodes with
      | nil =>
        cases hrest
        refine iff_of_true ⟨first, rfl, ?_⟩ trivial
        ext x
        simp [combined]
      | cons node' nodes =>
        rw [List.mapM_cons] at hrest
        obtain ⟨second, hsecond, hrest⟩ := Outcome.bind_eq_ok.mp hrest
        obtain ⟨rest', hrest', hrest⟩ := Outcome.bind_eq_ok.mp hrest
        cases hrest
        have hempty (h : first = [] ∨ second = []) :
            covered blocks [] = combined blocks .and (first :: second :: rest') := by
          ext x
          rcases h with rfl | rfl <;> simp [combined]
        rw [evaluateNodes, hsecond, Outcome.ok_bind, if_neg (by decide)]
        by_cases hs : second = []
        case pos =>
          rw [if_pos hs, if_pos rfl]
          exact iff_of_true ⟨[], rfl, hempty (.inr hs)⟩ (.inr hs)
        case neg =>
          rw [if_neg hs]
          dsimp only
          rw [applyAND_eq]
          by_cases hnil : first = []
          case pos =>
            rw [if_pos (.inr hnil), Outcome.ok_bind, evaluateNodes_and_nil hrest']
            exact iff_of_true ⟨[], rfl, hempty (.inl hnil)⟩ (.inl hnil)
          case neg =>
            rw [if_neg (by tauto), Outcome.error_bind]
            refine iff_of_false ?_ fun h => h.elim hnil hs
            rintro ⟨_, h, _⟩
            cases h

-- The queries that a query is made of, and itself.
inductive Within (q : Query ν) : Query ν → Prop
  | refl : Within q q
  | node {relation : Relation} {nodes : List (Query ν)} {node : Query ν} (mem : node ∈ nodes)
    (h : Within q node) : Within q (.composite relation nodes)

theorem Within.trans {q q' q'' : Query ν} (h : Within q q') (h' : Within q' q'') :
    Within q q'' := by
  induction h' with
  | refl => exact h
  | node mem _ ih => exact .node mem ih

-- A composite query joins or intersects what its nodes find.
def Built (q : Query ν) : Prop :=
  ∀ relation nodes, Within (.composite relation nodes) q → relation ≠ .not ∧ nodes ≠ []

variable (find blocks)

-- Every composite query in `q` is evaluated, and covers what it is to cover.
def CoversExactly (q : Query ν) : Prop :=
  ∀ relation nodes, Within (.composite relation nodes) q → ∃ hits touched,
    nodes.mapM (blockIndexEvaluate find) = .ok hits ∧
    blockIndexEvaluate find (.composite relation nodes) = .ok touched ∧
    covered blocks touched = combined blocks relation hits

-- Every composite query in `q` has hit lists that are combined to that.
def CombinesExactly (q : Query ν) : Prop :=
  ∀ relation nodes hits, Within (.composite relation nodes) q →
    nodes.mapM (blockIndexEvaluate find) = .ok hits → Combinable blocks relation hits

variable {find blocks}

theorem regular_of_mapM {n : Nat} (hfind : ∀ name, Regular n (find name)) {nodes : List (Query ν)}
    {hits : List (List BlockHit)} (h : nodes.mapM (blockIndexEvaluate find) = .ok hits) :
    ∀ l ∈ hits, Regular n l := by
  induction nodes generalizing hits with
  | nil =>
    cases h
    simp
  | cons node nodes ih =>
    rw [List.mapM_cons] at h
    obtain ⟨first, hfirst, h⟩ := Outcome.bind_eq_ok.mp h
    obtain ⟨rest, hrest, h⟩ := Outcome.bind_eq_ok.mp h
    cases h
    exact List.forall_mem_cons.mpr ⟨blockIndexEvaluate_regular hfind hfirst, ih hrest⟩

theorem CombinesExactly.evaluates {n : Nat} (hfind : ∀ name, Regular n (find name)) {q : Query ν}
    (hbuilt : Built q) (h : CombinesExactly blocks find q) :
    ∃ hits, blockIndexEvaluate find q = .ok hits := by
  induction q using induction with
  | var name => exact ⟨find name, rfl⟩
  | composite relation nodes ih =>
    have ⟨hrelation, hne⟩ := hbuilt relation nodes .refl
    have ⟨hits, hhits⟩ := Outcome.exists_mapM_eq_ok fun node hnode => ih node hnode
      (fun r ns hin => hbuilt r ns (.node hnode hin)) fun r ns hs hin => h r ns hs (.node hnode hin)
    have ⟨touched, htouched, _⟩ := (composite_iff hrelation hne hhits
      (regular_of_mapM hfind hhits)).mpr (h relation nodes hits .refl hhits)
    exact ⟨touched, htouched⟩

-- A query of two variables.
def pair (relation : Relation) : Query Nat :=
  .composite relation [.var 0, .var 1]

theorem within_pair {relation relation' : Relation} {nodes : List (Query Nat)}
    (h : Within (.composite relation' nodes) (pair relation)) :
    relation' = relation ∧ nodes = [.var 0, .var 1] := by
  cases h with
  | refl => exact ⟨rfl, rfl⟩
  | node mem h =>
    rcases List.mem_cons.mp mem with rfl | mem
    · cases h
    · cases List.mem_singleton.mp mem
      cases h

theorem built_pair {relation : Relation} (h : relation ≠ .not) : Built (pair relation) := by
  intro relation' nodes hin
  obtain ⟨rfl, rfl⟩ := within_pair hin
  exact ⟨h, by simp⟩

-- Variable `name` is found in two elements of block `block name`.
def findIn (block : Nat → Nat) (name : Nat) : List BlockHit :=
  [{ id := block name, regions := [([2 * name], [2])] }]

theorem regular_findIn (block : Nat → Nat) (name : Nat) : Regular 1 (findIn block name) where
  dims     := by simp [findIn]
  disjoint := by simp [findIn]

end Query
