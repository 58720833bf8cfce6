import Mathlib.Data.Fintype.Basic
import Mathlib.Data.List.Sort
import Adios2.Utils.XrootdPlugin.Theorems.PoolAccounts

-- The accounts of the pool are right in all runs in which no loop removes a subpool that a request
-- has been given and has not used yet.

namespace FilePool

open Bytes Threads

namespace Task

-- The tasks inside of a section of the pool, and the last ones of such sections.
def inside : Task → Bool
  | evictUnderPressure _ _ | collect _ _ _ | evict _ _ _ | newSubPool _ _ | flushIdle | flush _ _
  | unlock => true
  | _      => false

def releases : Task → Bool
  | newSubPool _ _ | unlock => true
  | _                       => false

-- What a loop has still to look at.
def walks : Task → List MapItem
  | collect _ todo candidates => todo ++ candidates.map Prod.fst
  | evict _ _ candidates      => candidates
  | flush _ todo              => todo
  | _                         => []

-- The subpool that a request has been given and has not used yet.
def given : Task → Option MapItem
  | use r sp _ => some (r.index, sp)
  | _          => none

def adds : Task → Option (List Byte)
  | newSubPool r _ => some r.index
  | _              => none

structure Fits (t : Task) (p : Pool) : Prop where
  nodup : t.walks.Nodup
  walks : ∀ it ∈ t.walks, it ∈ p.map
  given : ∀ it ∈ t.given, it ∈ p.map
  adds  : ∀ key ∈ t.adds, p.map.lookup key = none

-- The subpool that a step of a loop takes out of the map.
def removes (p : Pool) : Task → Option Nat
  | evict ev left (it :: _) =>
    if ev.goesOn p left ∧ ∃ s ∈ p.subpools[it.2]?, s.inUseCount = 0 then some it.2 else none
  | flush now (it :: _)     =>
    if ∃ s ∈ p.subpools[it.2]?, s.inUseCount = 0 ∧ s.expired now = true then some it.2 else none
  | _                       => none

-- The totals have room for the costs of a new subpool.
def HasRoom (p : Pool) : Task → Prop
  | newSubPool _ cost =>
    p.totalMetadataBytes + cost.metadataBytes < 2 ^ 64
      ∧ p.totalSubfileCount + (if cost.isTar then 0 else cost.subfileCount) < 2 ^ 64
  | _                 => True

instance (p : Pool) (t : Task) : Decidable (t.HasRoom p) := by
  unfold HasRoom
  split <;> infer_instance

end Task

variable {ι : Type*}

-- No loop removes a subpool that a request has been given and has not used yet, and the totals do
-- not overflow.
def Spares (c : Configuration ι Pool Task) : Event ι Task Choice → Prop
  | .run i _   => ∀ t ∈ (c.threads i).head?, t.HasRoom c.state ∧
    ∀ sp ∈ t.removes c.state, ∀ j, ∀ t' ∈ c.threads j, ∀ it ∈ t'.given, it.2 ≠ sp
  | .start _ _ => True

-- The accounts of the pool, and what a request can rely on.
structure Accounting (c : Configuration ι Pool Task) : Prop where
  inUse     : ∀ {sp : Nat} {s : SubPool}, c.state.subpools[sp]? = some s → s.inUseCount =
    (c.state.entries.countP fun entry => entry.file.isSome && entry.subpool = some sp : Nat)
  exclusive : ∀ {i j file sp sp' : Nat}, i ≠ j →
    c.state.entries[i]? = some { file := some file, subpool := some sp } →
    c.state.entries[j]? = some { file := some file, subpool := some sp' } →
    sp' = sp ∧ ∃ s, c.state.subpools[sp]? = some s ∧ s.shareable = true
  placed    : ∀ {i file sp : Nat},
    c.state.entries[i]? = some { file := some file, subpool := some sp } →
    ∃ s, c.state.subpools[sp]? = some s ∧ c.state.map.lookup s.index = some sp
  metadata  : c.state.totalMetadataBytes = c.state.sumOf SubPool.metadataBytes
  fds       : c.state.totalSubfileCount = c.state.sumOf SubPool.estimateFDCost
  given     : ∀ {i : ι} {t : Task} {it : MapItem}, t ∈ c.threads i → it ∈ t.given →
    c.state.map.lookup it.1 = some it.2

section Invariant

-- The tasks of a thread that has locked the pool. Only the first can be a loop that is under way.
inductive Holding : List Task → Prop
  | last {t : Task} {ts : List Task} (releases : t.releases = true)
      (outside : ∀ t' ∈ ts, t'.inside = false) : Holding (t :: ts)
  | work {t : Task} {ts : List Task} (inside : t.inside = true) (goesOn : t.releases = false)
      (holding : Holding ts) (still : ∀ t' ∈ ts, t'.walks = []) : Holding (t :: ts)

structure Sections (c : Configuration ι Pool Task) : Prop where
  free : c.state.locked = false → ∀ i, ∀ t ∈ c.threads i, t.inside = false
  held : c.state.locked = true →
    ∃ i, Holding (c.threads i) ∧ ∀ j, j ≠ i → ∀ t ∈ c.threads j, t.inside = false

structure Inv (c : Configuration ι Pool Task) : Prop where
  accounted : c.state.Accounted
  sections  : Sections c
  fits      : ∀ {i t}, t ∈ c.threads i → t.Fits c.state

namespace Task

variable {e : Choice} {p p' : Pool} {t : Task} {ts rest : List Task}

theorem walks_of_outside (h : t.inside = false) : t.walks = [] := by
  cases t <;> first | rfl | cases h

-- A task inside of a section goes on with the lock.
theorem exec_inside (hinside : t.inside = true) (hgoes : t.releases = false)
    (hexec : t.exec e p = .ok (p', ts)) : p'.locked = p.locked ∧
      (ts = [] ∨ ∃ t', ts = [t'] ∧ t'.inside = true ∧ t'.releases = false) := by
  cases t with
  | evictUnderPressure =>
    dsimp only [exec] at hexec
    split at hexec <;> cases hexec
    · exact ⟨rfl, .inr ⟨_, rfl, rfl, rfl⟩⟩
    · exact ⟨rfl, .inl rfl⟩
  | collect ev todo candidates =>
    cases todo with
    | nil =>
      cases hexec
      exact ⟨rfl, .inr ⟨_, rfl, rfl, rfl⟩⟩
    | cons it todo =>
      have ⟨s, _, hexec⟩ := Outcome.bind_eq_ok.mp hexec
      split at hexec <;> cases hexec <;> exact ⟨rfl, .inr ⟨_, rfl, rfl, rfl⟩⟩
  | evict ev left candidates =>
    cases candidates with
    | nil =>
      cases hexec
      exact ⟨rfl, .inl rfl⟩
    | cons it candidates =>
      dsimp only [exec] at hexec
      split at hexec
      case isFalse =>
        cases hexec
        exact ⟨rfl, .inl rfl⟩
      case isTrue =>
        have ⟨s, _, hexec⟩ := Outcome.bind_eq_ok.mp hexec
        split at hexec <;> cases hexec <;> exact ⟨rfl, .inr ⟨_, rfl, rfl, rfl⟩⟩
  | flushIdle =>
    cases hexec
    exact ⟨rfl, .inr ⟨_, rfl, rfl, rfl⟩⟩
  | flush now todo =>
    cases todo with
    | nil =>
      cases hexec
      exact ⟨rfl, .inl rfl⟩
    | cons it todo =>
      have ⟨s, _, hexec⟩ := Outcome.bind_eq_ok.mp hexec
      split at hexec <;> cases hexec <;> exact ⟨rfl, .inr ⟨_, rfl, rfl, rfl⟩⟩
  | newSubPool | unlock => cases hgoes
  | _ => cases hinside

theorem exec_releases (h : t.releases = true) (hexec : t.exec e p = .ok (p', ts)) :
    p'.locked = false ∧ ∀ t' ∈ ts, t'.inside = false := by
  cases t with
  | newSubPool r cost =>
    cases hexec
    exact ⟨rfl, by simp [inside]⟩
  | unlock =>
    cases hexec
    exact ⟨rfl, by simp⟩
  | _ => cases h

-- Where the lock is taken, it is held by the tasks that follow.
theorem exec_locks (h : t.locks = true) (hexec : t.exec e p = .ok (p', ts))
    (hrest : ∀ t' ∈ rest, t'.inside = false) :
    p'.locked = true ∧ Holding (ts ++ rest)
      ∨ p'.locked = p.locked ∧ ∀ t' ∈ ts, t'.inside = false := by
  have hstill : ∀ t' ∈ rest, t'.walks = [] := fun t' ht' => walks_of_outside (hrest t' ht')
  cases t with
  | getFree r =>
    dsimp only [exec] at hexec
    split at hexec <;> cases hexec
    · exact .inr ⟨rfl, by simp [inside]⟩
    · exact .inl ⟨rfl, .work rfl rfl (.last rfl hrest) (by simpa [walks] using hstill)⟩
  | evictLRU =>
    cases hexec
    exact .inl ⟨rfl, .work rfl rfl (.last rfl hrest) (by simpa [walks] using hstill)⟩
  | flushUnused =>
    cases hexec
    exact .inl ⟨rfl, .work rfl rfl
      (.work rfl rfl (.last rfl hrest) (by simpa [walks] using hstill))
      (by simpa [walks] using hstill)⟩
  | flushAll =>
    cases hexec
    exact .inl ⟨rfl, .work rfl rfl (.last rfl hrest) (by simpa [walks] using hstill)⟩
  | _ => cases h

theorem giveBack_same {entry : PoolEntry} {now : Nat} (h : p.giveBack entry now = .ok p') :
    p'.locked = p.locked ∧ p'.map = p.map ∧ p'.entries = p.entries := by
  unfold Pool.giveBack at h
  split at h
  case h_1 =>
    have ⟨_, _, h⟩ := Outcome.bind_eq_ok.mp h
    cases h
    exact ⟨rfl, rfl, rfl⟩
  case h_2 =>
    cases h
    exact ⟨rfl, rfl, rfl⟩

theorem exec_outside (hinside : t.inside = false) (hlocks : t.locks = false)
    (hexec : t.exec e p = .ok (p', ts)) :
    p'.locked = p.locked ∧ ∀ t' ∈ ts, t'.inside = false := by
  cases t with
  | use r sp again =>
    have ⟨s, _, hexec⟩ := Outcome.bind_eq_ok.mp hexec
    have ⟨⟨s', file⟩, _, hexec⟩ := Outcome.bind_eq_ok.mp hexec
    cases file with
    | some file =>
      cases hexec
      exact ⟨rfl, by simp⟩
    | none =>
      cases hexec
      refine ⟨rfl, ?_⟩
      split <;> simp [inside]
  | construct =>
    cases hexec
    exact ⟨rfl, by simp⟩
  | moveConstruct source =>
    have ⟨o, _, hexec⟩ := Outcome.bind_eq_ok.mp hexec
    cases hexec
    exact ⟨rfl, by simp⟩
  | moveAssign source target =>
    have ⟨o, _, hexec⟩ := Outcome.bind_eq_ok.mp hexec
    have ⟨this, _, hexec⟩ := Outcome.bind_eq_ok.mp hexec
    split at hexec
    case isTrue =>
      cases hexec
      exact ⟨rfl, by simp⟩
    case isFalse =>
      have ⟨p₁, hback, hexec⟩ := Outcome.bind_eq_ok.mp hexec
      have ⟨hlocked, _⟩ := giveBack_same hback
      cases hexec
      exact ⟨hlocked, by simp⟩
  | destroy entry =>
    have ⟨this, _, hexec⟩ := Outcome.bind_eq_ok.mp hexec
    have ⟨p₁, hback, hexec⟩ := Outcome.bind_eq_ok.mp hexec
    have ⟨hlocked, _⟩ := giveBack_same hback
    cases hexec
    exact ⟨hlocked, by simp⟩
  | setLimits =>
    cases hexec
    exact ⟨rfl, by simp⟩
  | getFree | evictLRU | flushUnused | flushAll => cases hlocks
  | _ => cases hinside

-- What a step makes of the map.
inductive MapStep (p p' : Pool) (t : Task) : Prop
  | same (map : p'.map = p.map)
  | erased {it : MapItem} (inside : t.inside = true) (goesOn : t.releases = false)
      (removes : t.removes p = some it.2) (map : p'.map = p.map.erase it)
  | added {it : MapItem} (releases : t.releases = true) (map : p'.map = it :: p.map)

theorem Fits.still (hw : t.walks = []) (hg : t.given = none) (ha : t.adds = none) : t.Fits p where
  nodup := by simp [hw]
  walks := by simp [hw]
  given := by simp [hg]
  adds  := by simp [ha]

theorem Fits.loop (hnodup : t.walks.Nodup) (hw : ∀ it ∈ t.walks, it ∈ p.map)
    (hg : t.given = none) (ha : t.adds = none) : t.Fits p where
  nodup := hnodup
  walks := hw
  given := by simp [hg]
  adds  := by simp [ha]

theorem mem_of_lookup {key : List Byte} {sp : Nat} (h : p.map.lookup key = some sp) :
    (key, sp) ∈ p.map := by
  have ⟨front, back, hmap, _⟩ := List.lookup_eq_some_iff.mp h
  rw [hmap]
  exact List.mem_append_right _ List.mem_cons_self

-- A loop that goes on with a smaller list, or with one in another order.
theorem Fits.sublist {l : List MapItem} (h : l.Nodup ∧ ∀ it ∈ l, it ∈ p.map)
    (hsub : t.walks.Subperm l) (hg : t.given = none) (ha : t.adds = none) : t.Fits p :=
  have ⟨_, hperm, hsub⟩ := hsub
  .loop (hperm.nodup_iff.mp (h.left.sublist hsub))
    (fun it hit => h.right it (hsub.subset (hperm.mem_iff.mpr hit))) hg ha

theorem walk_map (h : p.Keys) :
    (e.walk p.map).Nodup ∧ ∀ it ∈ e.walk p.map, it ∈ p.map := by
  have hperm := e.walk_perm p.map
  exact ⟨hperm.nodup_iff.mpr (List.Nodup.of_map _ h.nodup), fun it hit => hperm.mem_iff.mp hit⟩

-- A loop that has taken what it looked at out of the map.
theorem walks_erase {it : MapItem} {l : List MapItem} (h : (it :: l).Nodup)
    (hmem : ∀ it' ∈ it :: l, it' ∈ p.map) :
    l.Nodup ∧ ∀ it' ∈ l, it' ∈ p.map.erase it := by
  have ⟨hnot, hnodup⟩ := List.nodup_cons.mp h
  refine ⟨hnodup, fun it' hit' => ?_⟩
  have hne : it' ≠ it := fun heq => hnot (heq ▸ hit')
  exact (List.mem_erase_of_ne hne).mpr (hmem it' (List.mem_cons_of_mem _ hit'))

theorem exec_accounted (h : p.Accounted) (ht : t.Fits p) (hroom : t.HasRoom p)
    (hexec : t.exec e p = .ok (p', ts)) :
    p'.Accounted ∧ MapStep p p' t ∧ ∀ t' ∈ ts, t'.Fits p' := by
  cases t with
  | getFree r =>
    dsimp only [exec] at hexec
    split at hexec
    case h_1 sp hsp =>
      cases hexec
      refine ⟨h, .same rfl, List.forall_mem_singleton.mpr ?_⟩
      have hgiven := mem_of_lookup hsp
      exact ⟨List.nodup_nil, by simp [walks], by simpa [given] using hgiven, by simp [adds]⟩
    case h_2 hnone =>
      cases hexec
      refine ⟨h.relock true, .same rfl, ?_⟩
      rw [List.forall_mem_cons, List.forall_mem_singleton]
      exact ⟨.still rfl rfl rfl, List.nodup_nil, by simp [walks], by simp [given],
        by simpa [adds] using hnone⟩
  | evictUnderPressure =>
    dsimp only [exec] at hexec
    split at hexec
    case isTrue =>
      cases hexec
      refine ⟨h, .same rfl, List.forall_mem_singleton.mpr ?_⟩
      exact .sublist (walk_map h.keys) (by simpa [walks] using List.Subperm.refl _) rfl rfl
    case isFalse =>
      cases hexec
      exact ⟨h, .same rfl, by simp⟩
  | collect ev todo candidates =>
    cases todo with
    | nil =>
      cases hexec
      refine ⟨h, .same rfl, List.forall_mem_singleton.mpr ?_⟩
      refine .sublist ⟨ht.nodup, ht.walks⟩ ?_ rfl rfl
      exact ((e.sort_perm candidates).map Prod.fst).subperm
    | cons it todo =>
      obtain ⟨s, _, hexec⟩ := Outcome.bind_eq_ok.mp hexec
      split at hexec
      case isTrue =>
        cases hexec
        refine ⟨h, .same rfl, List.forall_mem_singleton.mpr ?_⟩
        refine .sublist ⟨ht.nodup, ht.walks⟩ (List.Perm.subperm ?_) rfl rfl
        simp only [walks, List.map_append, List.map_cons, List.map_nil, List.cons_append]
        rw [← List.append_assoc]
        exact List.perm_append_singleton _ _
      case isFalse =>
        cases hexec
        refine ⟨h, .same rfl, List.forall_mem_singleton.mpr ?_⟩
        refine .sublist ⟨ht.nodup, ht.walks⟩ (List.Sublist.subperm ?_) rfl rfl
        exact List.sublist_cons_self _ _
  | evict ev left candidates =>
    cases candidates with
    | nil =>
      cases hexec
      exact ⟨h, .same rfl, by simp⟩
    | cons it candidates =>
      dsimp only [exec] at hexec
      split at hexec
      case isFalse =>
        cases hexec
        exact ⟨h, .same rfl, by simp⟩
      case isTrue hgoes =>
        obtain ⟨s, hs, hexec⟩ := Outcome.bind_eq_ok.mp hexec
        have hs := Option.orUndefined_eq_ok.mp hs
        split at hexec
        case isTrue hidle =>
          cases hexec
          have hremoves : removes p (evict ev left (it :: candidates)) = some it.2 :=
            if_pos ⟨hgoes, s, hs, hidle⟩
          refine ⟨h.erase (ht.walks it List.mem_cons_self) hs hidle,
            .erased rfl rfl hremoves rfl, List.forall_mem_singleton.mpr ?_⟩
          obtain ⟨hnodup, hmem⟩ := walks_erase ht.nodup ht.walks
          exact .loop hnodup hmem rfl rfl
        case isFalse =>
          cases hexec
          refine ⟨h, .same rfl, List.forall_mem_singleton.mpr ?_⟩
          exact .sublist ⟨ht.nodup, ht.walks⟩ (List.sublist_cons_self _ _).subperm rfl rfl
  | newSubPool r cost =>
    cases hexec
    have hnew : p.map.lookup r.index = none := ht.adds r.index rfl
    have hmap : (p.insert r cost).map = (r.index, p.subpools.length) :: p.map := by
      simp [Pool.insert, hnew]
    refine ⟨(h.insert hnew hroom.left hroom.right).relock false, .added rfl hmap,
      List.forall_mem_singleton.mpr ?_⟩
    refine ⟨List.nodup_nil, by simp [walks], ?_, by simp [adds]⟩
    simpa [given] using hmap ▸ List.mem_cons_self
  | use r sp again =>
    obtain ⟨s, hs, hexec⟩ := Outcome.bind_eq_ok.mp hexec
    obtain ⟨⟨s', file⟩, hget, hexec⟩ := Outcome.bind_eq_ok.mp hexec
    have hs := Option.orUndefined_eq_ok.mp hs
    have hgiven : (r.index, sp) ∈ p.map := ht.given _ rfl
    cases file with
    | some file =>
      cases hexec
      obtain ⟨t, ht, hindex⟩ := h.keys.known _ hgiven
      have hst : s = t := Option.some_inj.mp (hs.symm.trans ht)
      refine ⟨h.take hs (by rw [hst, hindex]; exact hgiven) hget, .same rfl, by simp⟩
    | none =>
      cases hexec
      refine ⟨h, .same rfl, fun t' ht' => ?_⟩
      have ht' : t' ∈ [evictLRU, use r sp true] := by
        split at ht'
        · exact ht'
        · cases ht'
      cases List.mem_cons.mp ht' with
      | inl heq => exact heq ▸ .still rfl rfl rfl
      | inr hmem =>
        rw [List.mem_singleton.mp hmem]
        exact ⟨List.nodup_nil, by simp [walks], by simpa [given] using hgiven, by simp [adds]⟩
  | evictLRU =>
    cases hexec
    refine ⟨h.relock true, .same rfl, ?_⟩
    rw [List.forall_mem_cons, List.forall_mem_singleton]
    have hwalk := walk_map (e := e) (h.relock true).keys
    exact ⟨.sublist hwalk (by simpa [walks] using List.Subperm.refl _) rfl rfl, .still rfl rfl rfl⟩
  | flushUnused =>
    cases hexec
    refine ⟨h.relock true, .same rfl, ?_⟩
    rw [List.forall_mem_cons, List.forall_mem_cons, List.forall_mem_singleton]
    exact ⟨.still rfl rfl rfl, .still rfl rfl rfl, .still rfl rfl rfl⟩
  | flushIdle =>
    cases hexec
    refine ⟨h, .same rfl, List.forall_mem_singleton.mpr ?_⟩
    exact .sublist (walk_map h.keys) (List.Subperm.refl _) rfl rfl
  | flushAll =>
    cases hexec
    refine ⟨h.relock true, .same rfl, ?_⟩
    rw [List.forall_mem_cons, List.forall_mem_singleton]
    have hwalk := walk_map (e := e) (h.relock true).keys
    exact ⟨.sublist hwalk (List.Subperm.refl _) rfl rfl, .still rfl rfl rfl⟩
  | flush now todo =>
    cases todo with
    | nil =>
      cases hexec
      exact ⟨h, .same rfl, by simp⟩
    | cons it todo =>
      obtain ⟨s, hs, hexec⟩ := Outcome.bind_eq_ok.mp hexec
      have hs := Option.orUndefined_eq_ok.mp hs
      split at hexec
      case isTrue hidle =>
        cases hexec
        obtain ⟨hidle, hexpired⟩ : s.inUseCount = 0 ∧ s.expired now = true := by simpa using hidle
        have hremoves : removes p (flush now (it :: todo)) = some it.2 :=
          if_pos ⟨s, hs, hidle, hexpired⟩
        refine ⟨h.erase (ht.walks it List.mem_cons_self) hs hidle,
          .erased rfl rfl hremoves rfl, List.forall_mem_singleton.mpr ?_⟩
        obtain ⟨hnodup, hmem⟩ := walks_erase ht.nodup ht.walks
        exact .loop hnodup hmem rfl rfl
      case isFalse =>
        cases hexec
        refine ⟨h, .same rfl, List.forall_mem_singleton.mpr ?_⟩
        exact .sublist ⟨ht.nodup, ht.walks⟩ (List.sublist_cons_self _ _).subperm rfl rfl
  | unlock =>
    cases hexec
    exact ⟨h.relock false, .same rfl, by simp⟩
  | construct =>
    cases hexec
    refine ⟨h.quiet p.locked p.fdLimit p.metadataBytesLimit fun sp => ?_, .same rfl, by simp⟩
    rw [List.filterMap_append, Pool.filterMap_singleton, Pool.fileOf_empty, List.append_nil]
    exact .refl _
  | moveConstruct source =>
    obtain ⟨o, ho, hexec⟩ := Outcome.bind_eq_ok.mp hexec
    cases hexec
    have ho := Option.orUndefined_eq_ok.mp ho
    refine ⟨h.quiet p.locked p.fdLimit p.metadataBytesLimit fun sp => ?_, .same rfl, by simp⟩
    rw [List.filterMap_append, Pool.filterMap_singleton]
    exact Pool.perm_of_move ho sp
  | moveAssign source target =>
    obtain ⟨o, ho, hexec⟩ := Outcome.bind_eq_ok.mp hexec
    obtain ⟨this, hthis, hexec⟩ := Outcome.bind_eq_ok.mp hexec
    have ho := Option.orUndefined_eq_ok.mp ho
    have hthis := Option.orUndefined_eq_ok.mp hthis
    split at hexec
    case isTrue =>
      cases hexec
      exact ⟨h, .same rfl, by simp⟩
    case isFalse hne =>
      obtain ⟨p₁, hback, hexec⟩ := Outcome.bind_eq_ok.mp hexec
      obtain ⟨_, hmap, hentries⟩ := giveBack_same hback
      cases hexec
      refine ⟨h.giveBack hback fun sp => ?_, .same hmap, by simp⟩
      have hthis : (p.entries.set source {})[target]? = some this := by
        rw [List.getElem?_set_ne hne, hthis]
      rw [hentries]
      exact (Pool.perm_of_move ho sp).trans (List.perm_filterMap_set (·.fileOf sp) hthis)
  | destroy entry =>
    obtain ⟨this, hthis, hexec⟩ := Outcome.bind_eq_ok.mp hexec
    obtain ⟨p₁, hback, hexec⟩ := Outcome.bind_eq_ok.mp hexec
    have hthis := Option.orUndefined_eq_ok.mp hthis
    obtain ⟨_, hmap, hentries⟩ := giveBack_same hback
    cases hexec
    refine ⟨h.giveBack hback fun sp => ?_, .same hmap, by simp⟩
    rw [hentries]
    exact Pool.perm_of_move hthis sp
  | setLimits fdLimit mdLimit =>
    cases hexec
    exact ⟨h.quiet p.locked _ _ fun _ => .refl _, .same rfl, by simp⟩

theorem inside_of_releases (h : t.releases = true) : t.inside = true := by
  cases t <;> first | rfl | cases h

theorem adds_of_outside (h : t.inside = false) : t.adds = none := by
  cases t <;> first | rfl | cases h

-- What the other tasks rely on is still there after a step.
theorem Fits.step {t' : Task} (h : t'.Fits p) (hmap : MapStep p p' t)
    (hwalks : t.inside = true → t.releases = false → t'.walks = [])
    (houtside : t.releases = true → t'.inside = false)
    (hspare : ∀ sp ∈ t.removes p, ∀ it ∈ t'.given, it.2 ≠ sp) : t'.Fits p' := by
  cases hmap with
  | same hmap => exact ⟨h.nodup, hmap ▸ h.walks, hmap ▸ h.given, hmap ▸ h.adds⟩
  | @erased it hinside hgoes hremoves hmap =>
    have hnil := hwalks hinside hgoes
    refine ⟨h.nodup, by simp [hnil], fun it' hit' => ?_, fun key hkey => ?_⟩
    · have hne : it' ≠ it := fun heq => hspare it.2 hremoves it' hit' (heq ▸ rfl)
      rw [hmap]
      exact (List.mem_erase_of_ne hne).mpr (h.given it' hit')
    · rw [hmap, List.lookup_eq_none_iff]
      intro it' hit'
      exact List.lookup_eq_none_iff.mp (h.adds key hkey) it' (List.mem_of_mem_erase hit')
  | added hreleases hmap =>
    have ho := houtside hreleases
    have hw := walks_of_outside ho
    have ha := adds_of_outside ho
    refine ⟨h.nodup, by simp [hw], fun it' hit' => ?_, by simp [ha]⟩
    exact hmap ▸ List.mem_cons_of_mem _ (h.given it' hit')

end Task

variable {c : Configuration ι Pool Task} {i : ι} {t : Task} {ts rest : List Task} {p' : Pool}

theorem inv_started {p : Pool} (hp : p.Started) :
    Inv ({ state := p, threads := fun _ => [] } : Configuration ι Pool Task) := by
  rw [hp]
  refine ⟨⟨⟨?_, ?_⟩, ⟨rfl, rfl, ?_, ?_⟩, ⟨?_, ?_, ?_⟩⟩, ⟨?_, ?_⟩, ?_⟩ <;> simp [Pool.held]

theorem Holding.inside_head {ts : List Task} (h : Holding (t :: ts)) : t.inside = true := by
  cases h with
  | last hreleases => exact Task.inside_of_releases hreleases
  | work hinside => exact hinside

-- A thread that is outside of a section has nothing to do inside of one.
theorem Sections.outside (h : Sections c) (hthread : c.threads i = t :: rest)
    (ht : t.inside = false) : ∀ t' ∈ c.threads i, t'.inside = false := by
  cases hlocked : c.state.locked with
  | false => exact h.free hlocked i
  | true =>
    have ⟨k, hk, hother⟩ := h.held hlocked
    refine hother i ?_
    rintro rfl
    rw [hthread] at hk
    exact absurd (ht.symm.trans hk.inside_head) (by decide)

-- A thread inside of a section is the only one, and holds the lock.
theorem Sections.holder (h : Sections c) (hthread : c.threads i = t :: rest)
    (ht : t.inside = true) : c.state.locked = true ∧ Holding (t :: rest) ∧
      ∀ j, j ≠ i → ∀ t' ∈ c.threads j, t'.inside = false := by
  have hmem : t ∈ c.threads i := hthread ▸ List.mem_cons_self
  have hlocked : c.state.locked = true := by
    by_contra hfree
    exact absurd (ht.symm.trans (h.free (by simpa using hfree) i t hmem)) (by decide)
  have ⟨k, hk, hother⟩ := h.held hlocked
  have hki : k = i := by
    by_contra hne
    exact absurd (ht.symm.trans (hother i (Ne.symm hne) t hmem)) (by decide)
  subst hki
  exact ⟨hlocked, hthread ▸ hk, hother⟩

variable [DecidableEq ι]

theorem mem_update {f : ι → List Task} {j : ι} {l : List Task} {t' : Task}
    (h : t' ∈ Function.update f i l j) : j = i ∧ t' ∈ l ∨ j ≠ i ∧ t' ∈ f j := by
  by_cases hj : j = i
  case pos =>
    subst hj
    exact .inl ⟨rfl, by rwa [Function.update_self] at h⟩
  case neg => exact .inr ⟨hj, by rwa [Function.update_of_ne hj] at h⟩

theorem Sections.run (h : Sections c) {e : Choice} (hthread : c.threads i = t :: rest)
    (hready : t.locks = true → ¬ c.state.locked = true)
    (hexec : t.exec e c.state = .ok (p', ts)) :
    Sections { state := p', threads := Function.update c.threads i (ts ++ rest) } := by
  cases hinside : t.inside with
  | true =>
    have ⟨hlocked, hholding, hother⟩ := h.holder hthread hinside
    cases hholding with
    | last hreleases hrest =>
      have ⟨hfree, hts⟩ := Task.exec_releases hreleases hexec
      refine ⟨fun _ j t' ht' => ?_, fun hl => absurd (hfree.symm.trans hl) (by decide)⟩
      rcases mem_update ht' with ⟨_, ht'⟩ | ⟨hj, ht'⟩
      · exact (List.mem_append.mp ht').elim (hts t') (hrest t')
      · exact hother j hj t' ht'
    | work _ hgoes hrest hstill =>
      have ⟨hkept, hts⟩ := Task.exec_inside hinside hgoes hexec
      have hl : p'.locked = true := hkept.trans hlocked
      refine ⟨fun hf => absurd (hl.symm.trans hf) (by decide), fun _ => ⟨i, ?_, fun j hj => ?_⟩⟩
      · dsimp only
        rw [Function.update_self]
        rcases hts with rfl | ⟨t', rfl, hinside', hgoes'⟩
        · exact hrest
        · exact .work hinside' hgoes' hrest hstill
      · dsimp only
        rw [Function.update_of_ne hj]
        exact hother j hj
  | false =>
    have hrest : ∀ t' ∈ rest, t'.inside = false := fun t' ht' =>
      h.outside hthread hinside t' (hthread ▸ List.mem_cons_of_mem _ ht')
    -- a step that takes no lock
    have hquiet (hkept : p'.locked = c.state.locked) (hts : ∀ t' ∈ ts, t'.inside = false) :
        Sections { state := p', threads := Function.update c.threads i (ts ++ rest) } := by
      have hnew : ∀ t' ∈ ts ++ rest, t'.inside = false := fun t' ht' =>
        (List.mem_append.mp ht').elim (hts t') (hrest t')
      refine ⟨fun hf j t' ht' => ?_, fun hl => ?_⟩
      · rcases mem_update ht' with ⟨_, ht'⟩ | ⟨_, ht'⟩
        · exact hnew t' ht'
        · exact h.free (hkept.symm.trans hf) j t' ht'
      · have ⟨k, hk, hother⟩ := h.held (hkept.symm.trans hl)
        have hki : k ≠ i := by
          rintro rfl
          rw [hthread] at hk
          exact absurd (hinside.symm.trans hk.inside_head) (by decide)
        refine ⟨k, by rwa [← Function.update_of_ne hki (ts ++ rest) c.threads] at hk, ?_⟩
        intro j hj t' ht'
        rcases mem_update ht' with ⟨_, ht'⟩ | ⟨_, ht'⟩
        · exact hnew t' ht'
        · exact hother j hj t' ht'
    cases hlocks : t.locks with
    | false =>
      have ⟨hkept, hts⟩ := Task.exec_outside hinside hlocks hexec
      exact hquiet hkept hts
    | true =>
      rcases Task.exec_locks hlocks hexec hrest with ⟨hl, hholding⟩ | ⟨hkept, hts⟩
      case inr => exact hquiet hkept hts
      case inl =>
        have hfree : c.state.locked = false := by simpa using hready hlocks
        refine ⟨fun hf => absurd (hl.symm.trans hf) (by decide), fun _ => ⟨i, ?_, fun j hj => ?_⟩⟩
        · dsimp only
          rwa [Function.update_self]
        · dsimp only
          rw [Function.update_of_ne hj]
          exact h.free hfree j

theorem Inv.run (h : Inv c) {e : Choice} (hthread : c.threads i = t :: rest)
    (hready : t.locks = true → ¬ c.state.locked = true)
    (hspares : Spares c (.run i e)) (hexec : t.exec e c.state = .ok (p', ts)) :
    Inv { state := p', threads := Function.update c.threads i (ts ++ rest) } := by
  have hmem : t ∈ c.threads i := hthread ▸ List.mem_cons_self
  have ⟨hroom, hspare⟩ := hspares t (by rw [hthread]; rfl)
  have ⟨haccounted, hmap, hts⟩ := Task.exec_accounted h.accounted (h.fits hmem) hroom hexec
  refine ⟨haccounted, h.sections.run hthread hready hexec, fun {j t'} ht' => ?_⟩
  have hold {j : ι} (ht' : t' ∈ c.threads j)
      (hwalks : t.inside = true → t.releases = false → t'.walks = [])
      (houtside : t.releases = true → t'.inside = false) : t'.Fits p' :=
    (h.fits ht').step hmap hwalks houtside fun sp hsp it hit => hspare sp hsp j t' ht' it hit
  rcases mem_update ht' with ⟨_, ht'⟩ | ⟨hj, ht'⟩
  case inr =>
    refine hold ht' (fun hinside _ => ?_) fun hreleases => ?_
    · have ⟨_, _, hother⟩ := h.sections.holder hthread hinside
      exact Task.walks_of_outside (hother j hj t' ht')
    · have ⟨_, _, hother⟩ := h.sections.holder hthread (Task.inside_of_releases hreleases)
      exact hother j hj t' ht'
  case inl =>
    cases List.mem_append.mp ht' with
    | inl ht' => exact hts t' ht'
    | inr ht' =>
      have hmem' : t' ∈ c.threads i := hthread ▸ List.mem_cons_of_mem t ht'
      refine hold hmem' (fun hinside hgoes => ?_) fun hreleases => ?_
      · have ⟨_, hholding, _⟩ := h.sections.holder hthread hinside
        cases hholding with
        | last hreleases => exact absurd (hgoes.symm.trans hreleases) (by decide)
        | work _ _ _ hstill => exact hstill t' ht'
      · have ⟨_, hholding, _⟩ :=
          h.sections.holder hthread (Task.inside_of_releases hreleases)
        cases hholding with
        | last _ hrest => exact hrest t' ht'
        | work _ hgoes => exact absurd (hgoes.symm.trans hreleases) (by decide)

theorem Inv.step {c' : Configuration ι Pool Task} {ev : Event ι Task Choice} (h : Inv c)
    (hspares : Spares c ev) (hstep : Step (program ι) c ev c') : Inv c' := by
  cases hstep with
  | run hthread hready hexec => exact h.run hthread hready hspares hexec
  | @start i ts hidle hbegins =>
    obtain ⟨t, rfl, ht⟩ := hbegins
    have hstill : t.inside = false ∧ t.walks = [] ∧ t.given = none ∧ t.adds = none := by
      cases t <;> first | exact ⟨rfl, rfl, rfl, rfl⟩ | cases ht
    obtain ⟨hinside, hwalks, hgiven, hadds⟩ := hstill
    refine ⟨h.accounted, ⟨fun hf j t' ht' => ?_, fun hl => ?_⟩, fun {j t'} ht' => ?_⟩
    · rcases mem_update ht' with ⟨_, ht'⟩ | ⟨_, ht'⟩
      · exact List.mem_singleton.mp ht' ▸ hinside
      · exact h.sections.free hf j t' ht'
    · have ⟨k, hk, hother⟩ := h.sections.held hl
      have hki : k ≠ i := by
        rintro rfl
        rw [hidle] at hk
        cases hk
      refine ⟨k, by rwa [← Function.update_of_ne hki [t] c.threads] at hk, ?_⟩
      intro j hj t' ht'
      rcases mem_update ht' with ⟨_, ht'⟩ | ⟨_, ht'⟩
      · exact List.mem_singleton.mp ht' ▸ hinside
      · exact hother j hj t' ht'
    · rcases mem_update ht' with ⟨_, ht'⟩ | ⟨_, ht'⟩
      · rw [List.mem_singleton.mp ht']
        exact .still hwalks hgiven hadds
      · exact h.fits ht'

end Invariant

section Accounts

variable {p : Pool}

theorem Pool.Keys.lookup_of_mem (h : p.Keys) {it : MapItem} (hit : it ∈ p.map) :
    p.map.lookup it.1 = some it.2 := by
  cases hlookup : p.map.lookup it.1 with
  | none => exact absurd (List.lookup_eq_none_iff.mp hlookup it hit) (by simp)
  | some sp =>
    have heq : (it.1, sp) = it :=
      List.inj_on_of_nodup_map h.nodup (Task.mem_of_lookup hlookup) hit rfl
    rw [← heq]

theorem PoolEntry.fileOf_self (file sp : Nat) :
    fileOf { file := some file, subpool := some sp } sp = some file :=
  if_pos rfl

theorem Pool.mem_held {i file sp : Nat}
    (h : p.entries[i]? = some { file := some file, subpool := some sp }) : file ∈ p.held sp :=
  List.mem_filterMap.mpr ⟨_, List.mem_of_getElem? h, PoolEntry.fileOf_self file sp⟩

theorem Pool.length_held (sp : Nat) : (p.held sp).length =
    p.entries.countP fun entry => entry.file.isSome && entry.subpool = some sp := by
  rw [held, List.length_filterMap_eq_countP]
  refine List.countP_congr fun entry _ => ?_
  unfold PoolEntry.fileOf
  split
  case isTrue h => simp [h]
  case isFalse h => simp [h]

-- Two objects hold one engine of a subpool only where it is shared.
theorem Pool.Accounted.exclusive (h : p.Accounted) {i j file sp : Nat} (hij : i < j)
    (hi : p.entries[i]? = some { file := some file, subpool := some sp })
    (hj : p.entries[j]? = some { file := some file, subpool := some sp }) {s : SubPool}
    (hs : p.subpools[sp]? = some s) : s.shareable = true := by
  by_contra hshareable
  have hnodup := (h.serving.serves hs).nodup (by simpa using hshareable)
  rw [List.nodup_iff_pairwise_ne, held, List.pairwise_filterMap, List.pairwise_iff_getElem]
    at hnodup
  obtain ⟨hil, hi⟩ := List.getElem?_eq_some_iff.mp hi
  obtain ⟨hjl, hj⟩ := List.getElem?_eq_some_iff.mp hj
  refine hnodup i j hil hjl hij file ?_ file ?_ rfl
  · rw [hi]
    exact PoolEntry.fileOf_self file sp
  · rw [hj]
    exact PoolEntry.fileOf_self file sp

theorem Inv.accounting {c : Configuration ι Pool Task} (h : Inv c) : Accounting c where
  inUse {sp _} hs := by rw [← Pool.length_held sp, (h.accounted.serving.serves hs).count]
  exclusive {i j file sp sp'} hij hi hj := by
    have hserving := h.accounted.serving
    have ⟨s, hs, _⟩ := hserving.placed _ (List.ne_nil_of_mem (Pool.mem_held hi))
    have ⟨s', hs', _⟩ := hserving.placed _ (List.ne_nil_of_mem (Pool.mem_held hj))
    have hsp : sp = sp' := hserving.disjoint hs hs'
      ((hserving.serves hs).listed (Pool.mem_held hi))
      ((hserving.serves hs').listed (Pool.mem_held hj))
    subst hsp
    refine ⟨rfl, s, hs, ?_⟩
    rcases Nat.lt_or_gt_of_ne hij with hlt | hlt
    · exact h.accounted.exclusive hlt hi hj hs
    · exact h.accounted.exclusive hlt hj hi hs
  placed hi := by
    have ⟨s, hs, hmem⟩ := h.accounted.serving.placed _ (List.ne_nil_of_mem (Pool.mem_held hi))
    exact ⟨s, hs, h.accounted.keys.lookup_of_mem hmem⟩
  metadata := h.accounted.totals.metadata
  fds := h.accounted.totals.fds
  given ht hit := h.accounted.keys.lookup_of_mem ((h.fits ht).given _ hit)

-- For any number of threads.
theorem filePoolAccounting [DecidableEq ι] {p : Pool} (hp : p.Started)
    {c : Configuration ι Pool Task}
    (h : Reaches (program ι) Spares { state := p, threads := fun _ => [] } c) : Accounting c :=
  (h.invariant (inv_started hp) fun hinv hspares hstep => hinv.step hspares hstep).accounting

end Accounts

section Runs

-- A walk in the order of the list, and a sort that keeps the order of what has the same weight.
def Choice.plain (opening : Opening) (now : Nat) : Choice where
  walk              := id
  walk_perm _       := .refl _
  sort              := List.insertionSort (·.2 ≤ ·.2)
  sort_perm _       := List.perm_insertionSort _ _
  sort_pairwise l   :=
    have : Std.Total (α := MapItem × Int) (·.2 ≤ ·.2) := ⟨fun a b => le_total a.2 b.2⟩
    have : IsTrans (MapItem × Int) (·.2 ≤ ·.2) := ⟨fun _ _ _ => le_trans⟩
    List.pairwise_insertionSort _ l
  opening           := opening
  now               := now

instance (t : Task) (p : Pool) : Decidable ((program ι).ready t p) :=
  inferInstanceAs (Decidable (t.locks = true → ¬ p.locked = true))

instance (i : ι) (p : Pool) (ts : List Task) : Decidable ((program ι).begins i p ts) :=
  match ts with
  | []          => .isFalse fun ⟨_, h, _⟩ => nomatch h
  | [t]         => decidable_of_iff (t.begins = true)
    ⟨fun h => ⟨t, rfl, h⟩, fun ⟨_, heq, h⟩ => List.head_eq_of_cons_eq heq ▸ h⟩
  | _ :: _ :: _ => .isFalse fun ⟨_, h, _⟩ => nomatch h

instance [Fintype ι] (c : Configuration ι Pool Task) (ev : Event ι Task Choice) :
    Decidable (Spares c ev) :=
  match ev with
  | .run i _   => inferInstanceAs (Decidable (∀ t ∈ (c.threads i).head?, t.HasRoom c.state ∧
    ∀ sp ∈ t.removes c.state, ∀ j, ∀ t' ∈ c.threads j, ∀ it ∈ t'.given, it.2 ≠ sp))
  | .start _ _ => .isTrue trivial

def request : Request := { filename := [102] }

-- A request holds its engine, while another thread flushes all that is not in use.
theorem filePoolAccounting_flushAll : ∃ c : Configuration (Fin 2) Pool Task,
    (c.state.entries = [{ file := some 0, subpool := some 0 }] ∧ c.threads 1 = [.unlock])
      ∧ Accounting c := by
  have ⟨c, hc, hq⟩ := Reaches.exists_of_follow (P := program (Fin 2)) (C := Spares)
    (c := { state := {}, threads := fun _ => [] })
    ([.start 0 [.getFree request], .start 1 [.flushAll]]
      ++ [0, 0, 0, 0, 1, 1, 1].map fun i => .run i (.plain (.opened true) 0))
    (fun c => c.state.entries = [{ file := some 0, subpool := some 0 }] ∧ c.threads 1 = [.unlock])
    (by decide)
  exact ⟨c, by simpa using hq, filePoolAccounting (p := {}) rfl hc⟩

-- The first request for a file cannot open it for lack of descriptors, and the eviction that is to
-- help takes the subpool of the request itself, which has never been used before.
theorem not_filePoolAccounting_evictLRU : ¬ ∀ {p : Pool}, p.Started →
    ∀ {c : Configuration Unit Pool Task},
      Reaches (program Unit) (fun _ _ => True) { state := p, threads := fun _ => [] } c →
        Accounting c := by
  intro h
  have ⟨c, hc, hq⟩ := Reaches.exists_of_follow (P := program Unit) (C := fun _ _ => True)
    (c := { state := {}, threads := fun _ => [] })
    (.start () [.getFree request] ::
      (List.replicate 10 (Opening.failed false) ++ [Opening.opened true]).map fun opening =>
        .run () (.plain opening 0))
    (fun c => c.state.entries = [{ file := some 0, subpool := some 0 }] ∧ c.state.map = [])
    (by decide)
  have ⟨hentries, hmap⟩ : c.state.entries = [{ file := some 0, subpool := some 0 }]
      ∧ c.state.map = [] := by simpa using hq
  have hentry : c.state.entries[0]? = some { file := some 0, subpool := some 0 } := by
    rw [hentries]
    rfl
  have ⟨s, _, hplaced⟩ := (h (p := {}) rfl hc).placed hentry
  rw [hmap] at hplaced
  cases hplaced

end Runs

end FilePool
