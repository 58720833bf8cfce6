import Adios2.Core.Group

-- What stands in the tree of groups, and what the groups show of the names of an IO.

namespace GroupView

open Bytes BP5 IoDefinitions

variable {io : Io} {d : Byte} {tree tree' tree'' : TreeMap} {key k v w path name : Name}

theorem mem_insertName {names : List Name} : v ∈ insertName w names ↔ v = w ∨ v ∈ names := by
  unfold insertName
  split
  case isTrue h  =>
    constructor
    · exact .inr
    · intro hv
      cases hv with
      | inl heq => exact heq ▸ h
      | inr hv  => exact hv
  case isFalse => simp

-- The path from a key down through some levels.
def pathFrom (d : Byte) (key : Name) (levels : List Name) : Name := levels.foldl (join d) key

theorem pathFrom_append (xs ys : List Name) :
    pathFrom d key (xs ++ ys) = pathFrom d (pathFrom d key xs) ys :=
  List.foldl_append

theorem pathFrom_eq (levels : List Name) :
    pathFrom d key levels = key ++ levels.flatMap (d :: ·) := by
  induction levels generalizing key with
  | nil             => simp [pathFrom]
  | cons level _ ih =>
    apply (@ih (join d key level)).trans
    simp [join]

-- `v` is one of the levels, and `k` the path down to it.
def Below (d : Byte) (key : Name) (levels : List Name) (k v : Name) : Prop :=
  ∃ front back, levels = front ++ v :: back ∧ k = pathFrom d key front

theorem below_nil : ¬ Below d key [] k v := by
  intro ⟨front, back, heq, _⟩
  cases front <;> cases heq

theorem below_cons {levels : List Name} :
    Below d key (w :: levels) k v ↔ (k = key ∧ v = w) ∨ Below d (join d key w) levels k v := by
  constructor
  case mp =>
    intro ⟨front, back, heq, hk⟩
    cases front with
    | nil =>
      injection heq with hv _
      exact .inl ⟨hk, hv.symm⟩
    | cons x front =>
      injection heq with hx hrest
      subst hx
      exact .inr ⟨front, back, hrest, hk⟩
  case mpr =>
    intro h
    cases h with
    | inl h =>
      have ⟨hk, hv⟩ := h
      exact ⟨[], levels, by rw [hv]; rfl, hk⟩
    | inr h =>
      have ⟨front, back, heq, hk⟩ := h
      exact ⟨w :: front, back, by rw [heq]; rfl, hk⟩

-- A path is a key where something stands below it.
def Keyed (tree : TreeMap) : Prop := ∀ k, (tree k).isSome ↔ ∃ v, v ∈ children tree k

-- What `tree'` has on top of `tree`.
structure Grows (tree tree' : TreeMap) (P : Name → Name → Prop) : Prop where
  keyed : Keyed tree → Keyed tree'
  has   : ∀ k v, v ∈ children tree' k ↔ v ∈ children tree k ∨ P k v

namespace Grows

variable {P Q : Name → Name → Prop}

theorem refl : Grows tree tree fun _ _ => False where
  keyed := id
  has   := by simp

theorem trans (h : Grows tree tree' P) (h' : Grows tree' tree'' Q) :
    Grows tree tree'' fun k v => P k v ∨ Q k v where
  keyed hkeyed := h'.keyed (h.keyed hkeyed)
  has k v := by rw [h'.has, h.has, or_assoc]

theorem congr (h : Grows tree tree' P) (hPQ : ∀ k v, P k v ↔ Q k v) : Grows tree tree' Q where
  keyed   := h.keyed
  has k v := by rw [h.has, hPQ]

end Grows

theorem grows_emplace :
    Grows tree (tree.emplace key (insertName v (children tree key))) fun k w => k = key ∧ w = v where
  keyed hkeyed k := by
    if hk : k = key then
      subst hk
      simp only [children, Map.emplace, if_true, Option.isSome_some, Option.getD_some, true_iff]
      exact ⟨v, mem_insertName.mpr (.inl rfl)⟩
    else
      simp only [children, Map.emplace, if_neg hk]
      exact hkeyed k
  has k w := by
    if hk : k = key then
      subst hk
      simp [children, Map.emplace, mem_insertName, or_comm]
    else
      simp [children, Map.emplace, hk]

theorem grows_insertLevels {levels : List Name} :
    Grows tree (insertLevels d tree key levels) (Below d key levels) := by
  induction levels generalizing tree key with
  | nil             => exact Grows.refl.congr fun _ _ => ⟨False.elim, below_nil⟩
  | cons level _ ih => exact (grows_emplace.trans ih).congr fun _ _ => below_cons.symm

-- The levels of the name of a variable below the root.
def levels (d : Byte) (name : Name) : List Name :=
  match split name d with
  | [] :: others => others
  | tokens       => tokens

theorem addRoot_eq (h : split name d ≠ []) :
    addRoot (split name d) = .ok (adiosRoot :: levels d name) := by
  unfold levels
  generalize split name d = tokens at h
  match tokens, h with
  | [] :: _, _       => rfl
  | (_ :: _) :: _, _ => rfl

theorem addVariable_grows {state state' : Name × TreeMap} (h : addVariable d state name = .ok state') :
    state'.1 = adiosRoot ∧ Grows state.2 state'.2 (Below d adiosRoot (levels d name)) := by
  unfold addVariable at h
  if hsplit : split name d = [] then
    rw [hsplit] at h
    cases h
  else
    rw [addRoot_eq hsplit] at h
    cases h
    exact ⟨rfl, grows_insertLevels⟩

theorem addVariables_grow {names : List Name} {state state' : Name × TreeMap}
    (h : names.foldlM (addVariable d) state = .ok state') :
    state'.1 = (if names = [] then state.1 else adiosRoot) ∧
      Grows state.2 state'.2 fun k v => ∃ n ∈ names, Below d adiosRoot (levels d n) k v := by
  induction names generalizing state with
  | nil =>
    cases h
    exact ⟨rfl, Grows.refl.congr fun _ _ => by simp⟩
  | cons name names ih =>
    have ⟨middle, hfirst, hrest⟩ := Outcome.bind_eq_ok.mp h
    have ⟨hroot, hgrows⟩ := addVariable_grows hfirst
    have ⟨hroot', hgrows'⟩ := ih hrest
    constructor
    case left => rw [hroot', hroot]; simp
    case right => exact (hgrows.trans hgrows').congr fun _ _ => by simp

theorem addAttribute_grows :
    Grows tree (addAttribute d tree name) fun k v =>
      ∃ key rest, split name d = key :: rest ∧ Below d key rest k v := by
  unfold addAttribute
  generalize split name d = tokens
  cases tokens with
  | nil           => exact Grows.refl.congr fun _ _ => by simp
  | cons key rest => exact grows_insertLevels.congr fun _ _ => by simp

theorem addAttributes_grow {names : List Name} :
    Grows tree (names.foldl (addAttribute d) tree) fun k v =>
      ∃ n ∈ names, ∃ key rest, split n d = key :: rest ∧ Below d key rest k v := by
  induction names generalizing tree with
  | nil             => exact Grows.refl.congr fun _ _ => by simp
  | cons name _ ih => exact (addAttribute_grows.trans ih).congr fun _ _ => by simp

-- What the map of a new group has: the levels of the variables below the root, and those of the
-- attributes below their own first tokens.
structure Built (io : Io) (d : Byte) (root : Name) (tree : TreeMap) : Prop where
  root  : root = if io.vars = [] then [] else adiosRoot
  keyed : Keyed tree
  has   : ∀ k v, v ∈ children tree k ↔
    (∃ x ∈ io.vars, Below d adiosRoot (levels d x.1) k v) ∨
      ∃ n ∈ io.attrs, ∃ key rest, split n d = key :: rest ∧ Below d key rest k v

theorem built {root : Name} (h : createGroup io d = .ok (root, tree)) : Built io d root tree := by
  have ⟨state, hvars, hrest⟩ := Outcome.bind_eq_ok.mp h
  have ⟨hroot, hgrows⟩ := addVariables_grow hvars
  injection hrest with hrest
  injection hrest with hpath htree
  subst hpath htree
  have hall := hgrows.trans (@addAttributes_grow d state.2 io.attrs)
  constructor
  case root  => rw [hroot]; simp
  case keyed =>
    apply hall.keyed
    intro k
    simp [children, Map.empty]
  case has =>
    intro k v
    rw [hall.has]
    simp [children, Map.empty]

theorem pathFrom_eq_intercalate {rest : List Name} :
    pathFrom d key rest = [d].intercalate (key :: rest) := by
  induction rest generalizing key with
  | nil             => simp [pathFrom]
  | cons level tail ih =>
    apply (@ih (join d key level)).trans
    rw [List.intercalate_cons_cons, join]
    cases tail <;> simp [List.intercalate_cons_cons]

theorem isPrefix_split : split name d <+: name.splitOn d := by
  simp only [split]
  split
  case isTrue  => exact List.dropLast_prefix _
  case isFalse => exact List.prefix_rfl

theorem isPrefix_pathFrom {rest : List Name} (h : split name d = key :: rest) :
    pathFrom d key rest <+: name := by
  have ⟨others, heq⟩ := @isPrefix_split d name
  rw [h] at heq
  have hname : pathFrom d key (rest ++ others) = name := by
    rw [pathFrom_eq_intercalate, ← List.cons_append, heq, List.intercalate_splitOn]
  rw [pathFrom_append, pathFrom_eq others] at hname
  exact ⟨_, hname⟩

theorem Below.isPrefix_join {levels : List Name} (h : Below d key levels k v) :
    join d k v <+: pathFrom d key levels := by
  have ⟨front, back, hlevels, hk⟩ := h
  subst hlevels hk
  rw [pathFrom_append, pathFrom_eq (v :: back)]
  exact ⟨back.flatMap (d :: ·), by simp [join]⟩

-- The groups that are found from the root.
inductive Reached (d : Byte) (tree : TreeMap) (root : Name) : Name → Prop
  | root : Reached d tree root root
  | inquireGroup {path v : Name} : Reached d tree root path →
      v ∈ (availableGroups d tree path).1 → Reached d tree root (inquireGroup d path v)

def Lists (answer : Outcome (List Name)) (v : Name) : Prop := ∃ names, answer = .ok names ∧ v ∈ names

-- A path and a name below it denote a variable.
structure Denotes (io : Io) (d : Byte) (path v : Name) (x : Name × DataType) : Prop where
  found : inquireVariable io d path x.2 v = .ok (some x.1)
  type  : inquireVariableType io d path v = x.2

def DenotesAttribute (io : Io) (d : Byte) (path v : Name) (n : Name) : Prop :=
  inquireAttribute io d path v = .ok (some n)

structure Shows (io : Io) (d : Byte) (root : Name) (tree : TreeMap) : Prop where
  variableOnce   : ∀ x ∈ io.vars, ∃! path, Reached d tree root path ∧
    ∃ v, Lists (availableVariables io d tree path).1 v ∧ Denotes io d path v x
  variablesOnly  : ∀ path, Reached d tree root path →
    ∃ names, (availableVariables io d tree path).1 = .ok names ∧
      ∀ v ∈ names, ∃ x ∈ io.vars, Denotes io d path v x
  attributeOnce  : ∀ n ∈ io.attrs, ∃! path, Reached d tree root path ∧
    ∃ v, Lists (availableAttributes io d tree path).1 v ∧ DenotesAttribute io d path v n
  attributesOnly : ∀ path, Reached d tree root path →
    ∃ names, (availableAttributes io d tree path).1 = .ok names ∧
      ∀ v ∈ names, ∃ n ∈ io.attrs, DenotesAttribute io d path v n
  stable         : ∀ queries : List (Name × Query), (∀ q ∈ queries, Reached d tree root q.1) →
    ∀ path query, Reached d tree root path →
      (ask io d (askAll io d tree queries) path query).1 = (ask io d tree path query).1

-- The groups show each name once, where it is found, and nothing else.
def Presents (io : Io) (d : Byte) : Prop :=
  ∃ root tree, createGroup io d = .ok (root, tree) ∧ Shows io d root tree

theorem cutRoot_eq_ok (h : cutRoot path = .ok name) :
    path.length = name.length + (adiosRoot.length + 1) ∧ name = path.drop (adiosRoot.length + 1) := by
  unfold cutRoot at h
  split at h
  case isTrue        => cases h
  case isFalse hlong =>
    injection h with h
    subst h
    have hlength := List.length_drop (i := adiosRoot.length + 1) (l := path)
    exact ⟨by omega, rfl⟩

theorem mem_of_inquireVariableType (h : io.inquireVariableType name ≠ .none) :
    ∃ type, (name, type) ∈ io.vars := by
  unfold Io.inquireVariableType at h
  cases hlookup : io.vars.lookup name with
  | none      => simp [hlookup] at h
  | some type =>
    have ⟨front, back, heq, _⟩ := List.lookup_eq_some_iff.mp hlookup
    exact ⟨type, by simp [heq]⟩

theorem Denotes.length {x : Name × DataType} (h : Denotes io d path v x) :
    (join d path v).length = x.1.length + (adiosRoot.length + 1) := by
  have ⟨name, hcut, hname⟩ := Outcome.map_eq_ok.mp h.found
  have hname : name = x.1 := by
    unfold Io.inquireVariable at hname
    split at hname
    case h_1 => cases hname
    case h_2 =>
      split at hname
      case isTrue  => exact Option.some.inj hname
      case isFalse => cases hname
  exact hname ▸ (cutRoot_eq_ok hcut).left

-- The longest variable is not found: its type is asked for with the root in front of its name.
theorem not_presents_of_variable {x : Name × DataType} (h : x ∈ io.vars) : ¬ Presents io d := by
  intro ⟨root, tree, _, hshows⟩
  have ⟨y, hy, hmax⟩ := Finset.exists_max_image io.vars.toFinset (·.1.length)
    ⟨x, List.mem_toFinset.mpr h⟩
  have hy := List.mem_toFinset.mp hy
  have ⟨path, ⟨_, v, _, hdenotes⟩, _⟩ := hshows.variableOnce y hy
  have ⟨type, hmem⟩ := @mem_of_inquireVariableType io (join d path v)
    (hdenotes.type.trans_ne (io.typed y hy))
  have hlong : (join d path v).length ≤ y.1.length := hmax _ (List.mem_toFinset.mpr hmem)
  have hlength := hdenotes.length
  omega

theorem mem_of_listing {known names values : List Name}
    (h : listing d known tree path values = .ok names) (hv : v ∈ names) :
    v ∈ values ∧ (tree (join d path v)).isNone ∧
      ∃ name ∈ known, cutRoot (join d path v) = .ok name := by
  induction values generalizing names with
  | nil =>
    injection h with h
    subst h
    cases hv
  | cons value values ih =>
    unfold listing at h
    split at h
    case isTrue =>
      have ⟨hmem, hrest⟩ := ih h hv
      exact ⟨List.mem_cons_of_mem _ hmem, hrest⟩
    case isFalse hkey =>
      have ⟨name, hcut, h⟩ := Outcome.bind_eq_ok.mp h
      have ⟨rest, hlist, h⟩ := Outcome.bind_eq_ok.mp h
      injection h with h
      subst h
      split at hv
      case isTrue hknown =>
        cases hv with
        | head      => exact ⟨List.mem_cons_self, by simpa using hkey, name, hknown, hcut⟩
        | tail _ hv =>
          have ⟨hmem, hrest⟩ := ih hlist hv
          exact ⟨List.mem_cons_of_mem _ hmem, hrest⟩
      case isFalse =>
        have ⟨hmem, hrest⟩ := ih hlist hv
        exact ⟨List.mem_cons_of_mem _ hmem, hrest⟩

-- Without variables, the longest attribute is not listed: it is looked up without the root, which
-- attributes do not get.
theorem not_presents_of_attribute {n : Name} (h : n ∈ io.attrs) : ¬ Presents io d := by
  intro hpresents
  have hvars : io.vars = [] := by
    apply List.eq_nil_iff_forall_not_mem.mpr
    intro x hx
    exact not_presents_of_variable hx hpresents
  have ⟨root, tree, hcreate, hshows⟩ := hpresents
  have ⟨m, hm, hmax⟩ := Finset.exists_max_image io.attrs.toFinset List.length
    ⟨n, List.mem_toFinset.mpr h⟩
  have ⟨path, ⟨_, v, ⟨names, hlist, hv⟩, hdenotes⟩, _⟩ :=
    hshows.attributeOnce m (List.mem_toFinset.mp hm)
  have ⟨name, hcut, hfound⟩ := Outcome.map_eq_ok.mp hdenotes
  have hname : m = name := by simpa using List.find?_some hfound
  have hlength := (cutRoot_eq_ok hcut).left
  have hmem := ((built hcreate).has path v).mp (mem_of_listing hlist hv).left
  cases hmem with
  | inl hvar =>
    have ⟨x, hx, _⟩ := hvar
    rw [hvars] at hx
    cases hx
  | inr hattr =>
    have ⟨a, ha, key, rest, hsplit, hbelow⟩ := hattr
    have hle := (hbelow.isPrefix_join.trans (isPrefix_pathFrom hsplit)).length_le
    have hlong : a.length ≤ m.length := hmax a (List.mem_toFinset.mpr ha)
    rw [← hname] at hlength
    omega

theorem children_touch : children (touch tree key) k = children tree k := by
  unfold touch children
  cases h : tree key with
  | some names => rfl
  | none       =>
    if hk : k = key then
      subst hk
      simp [h, Map.emplace]
    else
      simp [Map.emplace, hk]

theorem ask_tree {query : Query} : (ask io d tree path query).2 = touch tree path := by
  cases query <;> rfl

theorem children_askAll {queries : List (Name × Query)} :
    children (askAll io d tree queries) k = children tree k := by
  induction queries generalizing tree with
  | nil          => rfl
  | cons q _ ih =>
    apply ih.trans
    exact (congrArg (children · k) ask_tree).trans children_touch

theorem ask_of_no_children {query : Query} (h : children tree path = []) :
    (ask io d tree path query).1 = .ok [] := by
  cases query with
  | availableVariables  => simp [ask, availableVariables, h, listing]
  | availableAttributes => simp [ask, availableAttributes, h, listing]
  | availableGroups     => simp [ask, availableGroups, h]

theorem presents_of_empty (hvars : io.vars = []) (hattrs : io.attrs = []) : Presents io d := by
  have hcreate : createGroup io d = .ok ([], .empty) := by
    simp [createGroup, buildTree, hvars, hattrs]
  refine ⟨[], .empty, hcreate, ?_⟩
  constructor
  case variableOnce   => simp [hvars]
  case attributeOnce  => simp [hattrs]
  case variablesOnly  =>
    intro path _
    exact ⟨[], @ask_of_no_children io d .empty path .availableVariables rfl, by simp⟩
  case attributesOnly =>
    intro path _
    exact ⟨[], @ask_of_no_children io d .empty path .availableAttributes rfl, by simp⟩
  case stable         =>
    intro queries _ path query _
    rw [ask_of_no_children children_askAll, ask_of_no_children rfl]

theorem presents_iff : Presents io d ↔ io.vars = [] ∧ io.attrs = [] := by
  constructor
  case mp =>
    intro h
    constructor
    case left =>
      apply List.eq_nil_iff_forall_not_mem.mpr
      intro x hx
      exact not_presents_of_variable hx h
    case right =>
      apply List.eq_nil_iff_forall_not_mem.mpr
      intro n hn
      exact not_presents_of_attribute hn h
  case mpr =>
    intro ⟨hvars, hattrs⟩
    exact presents_of_empty hvars hattrs

section ShowsVariables

-- Where a variable can be listed: some name has just these levels, and none goes on below them.
def Leaf (io : Io) (d : Byte) (n : Name) : Prop :=
  (∃ x ∈ io.vars, levels d x.1 = n.splitOn d) ∧
    ∀ x ∈ io.vars, ∀ w rest, levels d x.1 ≠ n.splitOn d ++ w :: rest

-- What the groups show of the variables.
structure ShowsVariables (io : Io) (d : Byte) (root : Name) (tree : TreeMap) : Prop where
  only   : ∀ path, Reached d tree root path →
    ∃ names, (availableVariables io d tree path).1 = .ok names ∧
      ∀ v ∈ names, ∃ x ∈ io.vars, join d path v = join d adiosRoot x.1 ∧
        ∀ T, inquireVariable io d path T v = .ok (io.inquireVariable T x.1)
  once   : ∀ path path' v v', Reached d tree root path → Reached d tree root path' →
    Lists (availableVariables io d tree path).1 v → Lists (availableVariables io d tree path').1 v' →
      join d path v = join d path' v' → path = path' ∧ v = v'
  listed : ∀ x ∈ io.vars,
    (∃ path v, Reached d tree root path ∧ Lists (availableVariables io d tree path).1 v ∧
      join d path v = join d adiosRoot x.1) ↔ Leaf io d x.1
  stable : ∀ queries : List (Name × Query), (∀ q ∈ queries, Reached d tree root q.1) →
    ∀ path query, Reached d tree root path →
      (ask io d (askAll io d tree queries) path query).1 = (ask io d tree path query).1

theorem not_mem_of_mem_splitOn {s t : Name} (h : t ∈ s.splitOn d) : d ∉ t := by
  induction s generalizing t with
  | nil       => simp_all
  | cons b s ih =>
    rw [List.splitOn_cons_eq_if_modifyHead] at h
    split at h
    case isTrue =>
      cases h with
      | head     => exact List.not_mem_nil
      | tail _ h => exact ih h
    case isFalse hb =>
      cases hs : s.splitOn d with
      | nil           => simp [hs] at h
      | cons t' rest =>
        rw [hs] at ih h
        cases h with
        | head     =>
          intro hd
          cases hd with
          | head      => simp at hb
          | tail _ hd => exact ih List.mem_cons_self hd
        | tail _ h => exact ih (List.mem_cons_of_mem _ h)

theorem not_mem_of_mem_levels (h : w ∈ levels d name) : d ∉ w := by
  have hsub : w ∈ split name d := by
    unfold levels at h
    split at h
    case h_1 heq => exact heq ▸ List.mem_cons_of_mem _ h
    case h_2     => exact h
  exact not_mem_of_mem_splitOn (isPrefix_split.subset hsub)

theorem free_of_levels {front back : List Name} (h : levels d name = front ++ back) :
    ∀ t ∈ front, d ∉ t := by
  intro t ht
  exact not_mem_of_mem_levels (h ▸ List.mem_append_left back ht)

-- The levels can be told from the path.
theorem pathFrom_inj {xs ys : List Name} (hxs : ∀ x ∈ xs, d ∉ x) (hys : ∀ y ∈ ys, d ∉ y)
    (h : pathFrom d key xs = pathFrom d key ys) : xs = ys := by
  rw [pathFrom_eq, pathFrom_eq] at h
  have hflat : pathFrom d [] xs = pathFrom d [] ys := by
    rw [pathFrom_eq, pathFrom_eq, List.append_cancel_left h]
  rw [pathFrom_eq_intercalate, pathFrom_eq_intercalate] at hflat
  have hsplit := congrArg (·.splitOn d) hflat
  rw [List.splitOn_intercalate d (by simpa using hxs) (List.cons_ne_nil _ _),
    List.splitOn_intercalate d (by simpa using hys) (List.cons_ne_nil _ _)] at hsplit
  exact (List.cons.inj hsplit).right

variable {root : Name} {front back : List Name}

theorem isSome_join_iff (hkeyed : Keyed tree) :
    (touch tree path (join d path v)).isSome ↔ ∃ w, w ∈ children tree (join d path v) := by
  have hne : join d path v ≠ path := by
    intro heq
    have hlength := congrArg List.length heq
    simp [join] at hlength
  apply Iff.trans _ (hkeyed _)
  unfold touch
  cases tree path with
  | none   => simp [Map.emplace, hne]
  | some _ => rfl

theorem mem_availableGroups (hkeyed : Keyed tree) :
    v ∈ (availableGroups d tree path).1 ↔
      v ∈ children tree path ∧ ∃ w, w ∈ children tree (join d path v) := by
  rw [← isSome_join_iff hkeyed]
  simp [availableGroups]

theorem pathFrom_concat : pathFrom d key (front ++ [v]) = join d (pathFrom d key front) v :=
  pathFrom_append front [v]

section Tree

variable (h : Built io d root tree) (hvars : io.vars ≠ [])
  (hattrs : ∀ n ∈ io.attrs, ¬ adiosRoot ++ [d] <+: n)

include h

-- What stands below a path from the root comes from variables.
theorem mem_children (hattrs : ∀ n ∈ io.attrs, ¬ adiosRoot ++ [d] <+: n) (hfront : ∀ t ∈ front, d ∉ t) :
    v ∈ children tree (pathFrom d adiosRoot front) ↔
      ∃ x ∈ io.vars, ∃ back, levels d x.1 = front ++ v :: back := by
  rw [h.has]
  constructor
  case mp =>
    intro hhas
    cases hhas with
    | inl hvar =>
      have ⟨x, hx, front', back, hlevels, hpath⟩ := hvar
      have hsame := pathFrom_inj hfront (free_of_levels hlevels) hpath
      exact ⟨x, hx, back, hsame ▸ hlevels⟩
    | inr hattr =>
      have ⟨n, hn, key, rest, hsplit, hbelow⟩ := hattr
      have hbegin := hbelow.isPrefix_join.trans (isPrefix_pathFrom hsplit)
      apply (hattrs n hn (List.IsPrefix.trans _ hbegin)).elim
      rw [← pathFrom_concat, pathFrom_eq]
      cases front with
      | nil      => exact ⟨v, by simp⟩
      | cons t _ => exact (List.prefix_append_right_inj _).mpr ⟨t ++ _, by simp; rfl⟩
  case mpr =>
    intro ⟨x, hx, back, hlevels⟩
    exact .inl ⟨x, hx, front, back, hlevels, rfl⟩

include hvars hattrs

theorem reached_iff : Reached d tree root path ↔
    ∃ front, path = pathFrom d adiosRoot front ∧
      (front = [] ∨ ∃ x ∈ io.vars, ∃ w back, levels d x.1 = front ++ w :: back) := by
  have hroot : root = adiosRoot := h.root.trans (if_neg hvars)
  constructor
  case mp =>
    intro hreached
    induction hreached with
    | root => exact ⟨[], hroot, .inl rfl⟩
    | @inquireGroup path v _ hv ih =>
      have ⟨front, hpath, hfront⟩ := ih
      have hfront : ∀ t ∈ front, d ∉ t := by
        cases hfront with
        | inl hnil => simp [hnil]
        | inr hvar =>
          have ⟨x, _, w, back, hlevels⟩ := hvar
          exact free_of_levels hlevels
      have ⟨hv, w, hw⟩ := (mem_availableGroups h.keyed).mp hv
      subst hpath
      have ⟨y, hy, rest, hrest⟩ := (mem_children h hattrs hfront).mp hv
      rw [← pathFrom_concat] at hw
      have hdeeper := (mem_children h hattrs
        (@free_of_levels d y.1 (front ++ [v]) rest (by simpa using hrest))).mp hw
      have ⟨x, hx, back, hlevels⟩ := hdeeper
      refine ⟨front ++ [v], ?_, .inr ⟨x, hx, w, back, hlevels⟩⟩
      rw [inquireGroup, if_neg, pathFrom_concat]
      rw [pathFrom_eq]
      simp [adiosRoot]
  case mpr =>
    intro ⟨front, hpath, hfront⟩
    subst hpath
    cases hfront with
    | inl hnil =>
      rw [hnil, ← hroot]
      exact .root
    | inr hvar =>
      have ⟨x, hx, w, back, hlevels⟩ := hvar
      clear hvar
      induction front using List.reverseRecOn generalizing w back with
      | nil => exact hroot ▸ .root
      | append_singleton front u ih =>
        have hlevels' : levels d x.1 = front ++ u :: w :: back := by simpa using hlevels
        have hreached := ih u (w :: back) hlevels'
        have hgroup : u ∈ (availableGroups d tree (pathFrom d adiosRoot front)).1 := by
          apply (mem_availableGroups h.keyed).mpr
          constructor
          case left  => exact (mem_children h hattrs (free_of_levels hlevels')).mpr ⟨x, hx, _, hlevels'⟩
          case right =>
            rw [← pathFrom_concat]
            exact ⟨w, (mem_children h hattrs (free_of_levels hlevels)).mpr ⟨x, hx, _, hlevels⟩⟩
        have hstep := hreached.inquireGroup hgroup
        rw [inquireGroup, if_neg, ← pathFrom_concat] at hstep
        · exact hstep
        · rw [pathFrom_eq]
          simp [adiosRoot]

end Tree

theorem cutRoot_join (n : Name) : cutRoot (join d adiosRoot n) = .ok n := rfl

-- Below the root the path has the levels with the delimiter between them.
theorem join_eq_root : join d (pathFrom d adiosRoot front) v =
    join d adiosRoot ([d].intercalate (front ++ [v])) := by
  rw [← pathFrom_concat, pathFrom_eq]
  cases hlevels : front ++ [v] with
  | nil       => simp at hlevels
  | cons u us =>
    rw [← pathFrom_eq_intercalate, pathFrom_eq us, join]
    simp

theorem join_inj {n n' : Name} : join d path n = join d path n' ↔ n = n' := by
  simp [join]

theorem listing_eq {known values : List Name}
    (h : ∀ u ∈ values, ∃ n, cutRoot (join d path u) = .ok n) :
    ∃ names, listing d known tree path values = .ok names ∧
      ∀ u, u ∈ names ↔ u ∈ values ∧ (tree (join d path u)).isSome = false ∧
        ∃ n ∈ known, cutRoot (join d path u) = .ok n := by
  induction values with
  | nil               => exact ⟨[], rfl, by simp⟩
  | cons value values ih =>
    have ⟨names, hlist, hnames⟩ := ih fun u hu => h u (List.mem_cons_of_mem _ hu)
    have ⟨n, hn⟩ := h value List.mem_cons_self
    if hkey : (tree (join d path value)).isSome then
      refine ⟨names, by simp [listing, hkey, hlist], fun u => ?_⟩
      rw [hnames, List.mem_cons]
      constructor
      · tauto
      · intro ⟨hu, hnone, hknown⟩
        cases hu with
        | inl heq => simp [heq, hkey] at hnone
        | inr hu  => exact ⟨hu, hnone, hknown⟩
    else
      refine ⟨if n ∈ known then value :: names else names, by simp [listing, hkey, hlist, hn],
        fun u => ?_⟩
      if hknown : n ∈ known then
        rw [if_pos hknown, List.mem_cons, List.mem_cons, hnames]
        constructor
        · intro hu
          cases hu with
          | inl heq => exact ⟨.inl heq, by simpa [heq] using hkey, n, hknown, heq ▸ hn⟩
          | inr hu  => exact ⟨.inr hu.left, hu.right⟩
        · tauto
      else
        rw [if_neg hknown, List.mem_cons, hnames]
        constructor
        · tauto
        · intro ⟨hu, hnone, m, hm, hcut⟩
          cases hu with
          | inl heq =>
            rw [heq, hn] at hcut
            injection hcut with hcut
            exact (hknown (hcut ▸ hm)).elim
          | inr hu  => exact ⟨hu, hnone, m, hm, hcut⟩

theorem availableVariables_eq (hkeyed : Keyed tree) :
    ∃ names, (availableVariables io d tree (pathFrom d adiosRoot front)).1 = .ok names ∧
      ∀ u, u ∈ names ↔ u ∈ children tree (pathFrom d adiosRoot front) ∧
        (∀ w, w ∉ children tree (join d (pathFrom d adiosRoot front) u)) ∧
          ∃ x ∈ io.vars, join d (pathFrom d adiosRoot front) u = join d adiosRoot x.1 := by
  have ⟨names, hlist, hnames⟩ := @listing_eq d (touch tree (pathFrom d adiosRoot front))
    (pathFrom d adiosRoot front) (io.vars.map Prod.fst)
    (children tree (pathFrom d adiosRoot front)) (by
      intro u _
      exact ⟨_, join_eq_root ▸ cutRoot_join _⟩)
  refine ⟨names, hlist, fun u => ?_⟩
  have hkey := @isSome_join_iff d tree u (pathFrom d adiosRoot front) hkeyed
  rw [hnames, ← Bool.not_eq_true, hkey, not_exists, join_eq_root, cutRoot_join]
  simp [join_inj, eq_comm]

theorem listing_congr {known values : List Name}
    (h : ∀ u, (tree (join d path u)).isSome = (tree' (join d path u)).isSome) :
    listing d known tree path values = listing d known tree' path values := by
  induction values with
  | nil         => rfl
  | cons u _ ih => simp only [listing, h, ih]

theorem ask_congr {query : Query} (hchildren : children tree path = children tree' path)
    (h : ∀ u, (touch tree path (join d path u)).isSome = (touch tree' path (join d path u)).isSome) :
    (ask io d tree path query).1 = (ask io d tree' path query).1 := by
  cases query with
  | availableVariables  =>
    simp only [ask, availableVariables, hchildren]
    exact listing_congr h
  | availableAttributes =>
    simp only [ask, availableAttributes, hchildren]
    exact listing_congr h
  | availableGroups     => simp only [ask, availableGroups, hchildren, h]

theorem touch_of_isSome (h : (tree key).isSome) : touch tree key = tree := by
  unfold touch
  cases hkey : tree key with
  | none   => simp [hkey] at h
  | some _ => rfl

theorem touch_of_ne (h : k ≠ key) : touch tree key k = tree k := by
  unfold touch
  cases tree key with
  | none   => exact if_neg h
  | some _ => rfl

theorem askAll_of_ne {queries : List (Name × Query)}
    (h : ∀ q ∈ queries, q.1 = key ∨ (tree q.1).isSome) (hk : k ≠ key) :
    askAll io d tree queries k = tree k := by
  induction queries generalizing tree with
  | nil            => rfl
  | cons q rest ih =>
    have hrest := fun q' hq' => h q' (List.mem_cons_of_mem q hq')
    have htree : (ask io d tree q.1 q.2).2 = touch tree q.1 := ask_tree
    cases h q List.mem_cons_self with
    | inl hroot =>
      have hne (n : Name) (hn : n ≠ key) : touch tree q.1 n = tree n := touch_of_ne (hroot ▸ hn)
      apply ((congrArg (askAll io d · rest k) htree).trans (ih _)).trans (hne k hk)
      intro q' hq'
      if hq : q'.1 = key then
        exact .inl hq
      else
        rw [hne _ hq]
        exact hrest q' hq'
    | inr hsome =>
      rw [touch_of_isSome hsome] at htree
      exact (congrArg (askAll io d · rest k) htree).trans (ih hrest)

section Run

variable (h : Built io d root tree) (hvars : io.vars ≠ [])
  (hattrs : ∀ n ∈ io.attrs, ¬ adiosRoot ++ [d] <+: n)

include h hvars hattrs

theorem Reached.levels (hreached : Reached d tree root path) :
    ∃ front, path = pathFrom d adiosRoot front ∧ ∀ t ∈ front, d ∉ t := by
  have ⟨front, hpath, hfront⟩ := (reached_iff h hvars hattrs).mp hreached
  refine ⟨front, hpath, ?_⟩
  cases hfront with
  | inl hnil => simp [hnil]
  | inr hvar =>
    have ⟨x, _, w, back, hlevels⟩ := hvar
    exact free_of_levels hlevels

omit hvars in
-- A variable that is listed is at the end of the levels of some name.
theorem levels_of_listed (hfront : ∀ t ∈ front, d ∉ t)
    (hlists : Lists (availableVariables io d tree (pathFrom d adiosRoot front)).1 v) :
    d ∉ v ∧ ∃ x ∈ io.vars, levels d x.1 = front ++ [v] := by
  have ⟨names, hnames, hv⟩ := hlists
  have ⟨names', hnames', hmem⟩ := @availableVariables_eq io d tree front h.keyed
  rw [hnames'] at hnames
  injection hnames with hnames
  subst hnames
  have ⟨hchild, hnone, _⟩ := (hmem v).mp hv
  have ⟨x, hx, back, hlevels⟩ := (mem_children h hattrs hfront).mp hchild
  have hfree := free_of_levels (hlevels.trans (List.append_cons front v back))
  cases back with
  | nil         => exact ⟨hfree v (by simp), x, hx, hlevels⟩
  | cons w back =>
    have hw := (mem_children h hattrs hfree).mpr ⟨x, hx, back, by simpa using hlevels⟩
    rw [pathFrom_concat] at hw
    exact (hnone w hw).elim

theorem listed_iff {x : Name × DataType} (hx : x ∈ io.vars) :
    (∃ path v, Reached d tree root path ∧ Lists (availableVariables io d tree path).1 v ∧
      join d path v = join d adiosRoot x.1) ↔ Leaf io d x.1 := by
  constructor
  case mp =>
    intro ⟨path, v, hreached, hlists, hjoin⟩
    have ⟨front, hpath, hfront⟩ := hreached.levels h hvars hattrs
    subst hpath
    have ⟨hfree, y, hy, hlevels⟩ := levels_of_listed h hattrs hfront hlists
    have hall : ∀ t ∈ front ++ [v], d ∉ t := by
      intro t ht
      cases List.mem_append.mp ht with
      | inl ht => exact hfront t ht
      | inr ht => exact List.mem_singleton.mp ht ▸ hfree
    have hname : x.1.splitOn d = front ++ [v] := by
      rw [join_eq_root, join_inj] at hjoin
      rw [← hjoin, List.splitOn_intercalate d hall (by simp)]
    rw [Leaf, hname]
    refine ⟨⟨y, hy, hlevels⟩, ?_⟩
    intro z hz w rest hdeeper
    have ⟨names, hnames, hv⟩ := hlists
    have ⟨names', hnames', hmem⟩ := @availableVariables_eq io d tree front h.keyed
    rw [hnames'] at hnames
    injection hnames with hnames
    subst hnames
    have hw := (mem_children h hattrs hall).mpr ⟨z, hz, rest, hdeeper⟩
    rw [pathFrom_concat] at hw
    exact ((hmem v).mp hv).right.left w hw
  case mpr =>
    intro ⟨⟨y, hy, hlevels⟩, hdeeper⟩
    have hfree : ∀ t ∈ x.1.splitOn d, d ∉ t := fun t ht => not_mem_of_mem_splitOn ht
    have hname := @List.intercalate_splitOn _ x.1 _ _ d
    cases (x.1.splitOn d).eq_nil_or_concat with
    | inl hnil  => exact (List.splitOn_ne_nil d x.1 hnil).elim
    | inr hlast =>
      have ⟨front, v, hsplit⟩ := hlast
      rw [List.concat_eq_append] at hsplit
      rw [hsplit] at hlevels hdeeper hfree hname
      have hfront : ∀ t ∈ front, d ∉ t := fun t ht => hfree t (List.mem_append_left _ ht)
      have hjoin : join d (pathFrom d adiosRoot front) v = join d adiosRoot x.1 := by
        rw [join_eq_root, hname]
      have ⟨names, hnames, hmem⟩ := @availableVariables_eq io d tree front h.keyed
      refine ⟨pathFrom d adiosRoot front, v, ?_, ⟨names, hnames, ?_⟩, hjoin⟩
      case refine_1 =>
        exact (reached_iff h hvars hattrs).mpr ⟨front, rfl, .inr ⟨y, hy, v, [], hlevels⟩⟩
      case refine_2 =>
        apply (hmem v).mpr
        refine ⟨(mem_children h hattrs hfront).mpr ⟨y, hy, [], hlevels⟩, ?_, x, hx, hjoin⟩
        intro w hw
        rw [← pathFrom_concat] at hw
        have ⟨z, hz, rest, hz'⟩ := (mem_children h hattrs hfree).mp hw
        exact hdeeper z hz w rest hz'

theorem askAll_stable {queries : List (Name × Query)} {query : Query}
    (hqueries : ∀ q ∈ queries, Reached d tree root q.1) (hreached : Reached d tree root path) :
    (ask io d (askAll io d tree queries) path query).1 = (ask io d tree path query).1 := by
  have hother : ∀ k, k ≠ adiosRoot → askAll io d tree queries k = tree k := by
    intro k hk
    apply @askAll_of_ne io d tree adiosRoot k queries _ hk
    intro q hq
    have ⟨front, hpath, hfront⟩ := (reached_iff h hvars hattrs).mp (hqueries q hq)
    cases hfront with
    | inl hnil => exact .inl (by rw [hpath, hnil]; rfl)
    | inr hvar =>
      have ⟨x, hx, w, back, hlevels⟩ := hvar
      apply Or.inr ((h.keyed q.1).mpr ⟨w, _⟩)
      rw [hpath]
      exact (mem_children h hattrs (free_of_levels hlevels)).mpr ⟨x, hx, back, hlevels⟩
  have ⟨front, hpath, _⟩ := hreached.levels h hvars hattrs
  apply ask_congr children_askAll
  intro u
  have hlong : (join d path u).length > path.length := by simp [join]
  have hne : join d path u ≠ path := fun heq => by simp [heq] at hlong
  have hroot : join d path u ≠ adiosRoot := by
    intro heq
    have hle : adiosRoot.length ≤ path.length := by rw [hpath, pathFrom_eq]; simp
    rw [heq] at hlong
    omega
  rw [touch_of_ne hne, touch_of_ne hne, hother _ hroot]

end Run

-- With a variable, and no attribute below the root, the groups list only variables, each at most once
-- and where it can be inquired, and no query changes what others return. The variables that are
-- listed are those behind which no other name goes on.
theorem variableView {root : Name} (hcreate : createGroup io d = .ok (root, tree))
    (hvars : io.vars ≠ []) (hattrs : ∀ n ∈ io.attrs, ¬ adiosRoot ++ [d] <+: n) :
    ShowsVariables io d root tree := by
  have h := built hcreate
  constructor
  case only =>
    intro path hreached
    have ⟨front, hpath, _⟩ := hreached.levels h hvars hattrs
    subst hpath
    have ⟨names, hnames, hmem⟩ := @availableVariables_eq io d tree front h.keyed
    refine ⟨names, hnames, ?_⟩
    intro v hv
    have ⟨_, _, x, hx, hjoin⟩ := (hmem v).mp hv
    refine ⟨x, hx, hjoin, fun T => ?_⟩
    rw [inquireVariable, hjoin, cutRoot_join]
    rfl
  case once =>
    intro path path' v v' hreached hreached' hlists hlists' hjoin
    have ⟨front, hpath, hfront⟩ := hreached.levels h hvars hattrs
    have ⟨front', hpath', hfront'⟩ := hreached'.levels h hvars hattrs
    subst hpath hpath'
    have hv := (levels_of_listed h hattrs hfront hlists).left
    have hv' := (levels_of_listed h hattrs hfront' hlists').left
    rw [← pathFrom_concat, ← pathFrom_concat] at hjoin
    have hlevels := @pathFrom_inj d adiosRoot (front ++ [v]) (front' ++ [v'])
      (by simpa [or_imp, forall_and] using ⟨hfront, hv⟩)
      (by simpa [or_imp, forall_and] using ⟨hfront', hv'⟩) hjoin
    have ⟨heq, hlast⟩ := List.append_inj' hlevels rfl
    exact ⟨heq ▸ rfl, by simpa using hlast⟩
  case listed => exact fun x hx => listed_iff h hvars hattrs hx
  case stable => exact fun queries hqueries path query hreached =>
    askAll_stable h hvars hattrs hqueries hreached

-- The names `a/b` and `c`.
def twoVariables : Io where
  vars      := [([97, 47, 98], .int32), ([99], .double)]
  attrs     := []
  validStep := fun _ => true
  nodup     := by decide
  typed     := by decide

theorem variableView_twoVariables :
    ∃ root tree, createGroup twoVariables 47 = .ok (root, tree) ∧
      ShowsVariables twoVariables 47 root tree :=
  ⟨_, _, rfl, variableView rfl (List.cons_ne_nil _ _) fun _ h => nomatch h⟩

end ShowsVariables

-- One variable, of the name `a`. The root lists it, and does not know its type.
def oneVariable : Io where
  vars      := [([97], .int32)]
  attrs     := []
  validStep := fun _ => true
  nodup     := by decide
  typed     := by decide

theorem not_presents_oneVariable : ¬ Presents oneVariable 47 :=
  @not_presents_of_variable oneVariable 47 ([97], .int32) List.mem_cons_self

end GroupView
