import Adios2.Utils.XrootdPlugin.Theorems.SubPools

-- The accounts of the pool, and what the operations on it make of them.

namespace FilePool

open KVCache

def PoolEntry.fileOf (entry : PoolEntry) (sp : Nat) : Option Nat :=
  if entry.subpool = some sp then entry.file else none

namespace Pool

variable (p : Pool)

-- The engines of a subpool that are held.
def held (sp : Nat) : List Nat := p.entries.filterMap (·.fileOf sp)

def sumOf (g : SubPool → Nat) : Nat :=
  (p.map.map fun it => (p.subpools[it.2]?.map g).getD 0).sum

-- The sum of the costs of what is in the map.
structure Totals : Prop where
  metadata   : p.totalMetadataBytes = p.sumOf SubPool.metadataBytes
  fds        : p.totalSubfileCount = p.sumOf SubPool.estimateFDCost
  metadataLt : p.totalMetadataBytes < 2 ^ 64
  fdsLt      : p.totalSubfileCount < 2 ^ 64

structure Keys : Prop where
  nodup : (p.map.map Prod.fst).Nodup
  known : ∀ it ∈ p.map, ∃ s, p.subpools[it.2]? = some s ∧ s.index = it.1

structure Serving : Prop where
  serves   : ∀ {sp : Nat} {s : SubPool}, p.subpools[sp]? = some s →
    s.Serves p.addresses (p.held sp)
  placed   : ∀ sp : Nat, p.held sp ≠ [] → ∃ s, p.subpools[sp]? = some s ∧ (s.index, sp) ∈ p.map
  disjoint : ∀ {sp sp' : Nat} {s s' : SubPool} {f : Nat}, p.subpools[sp]? = some s →
    p.subpools[sp']? = some s' → f ∈ s.list → f ∈ s'.list → sp = sp'

structure Accounted : Prop where
  keys    : p.Keys
  totals  : p.Totals
  serving : p.Serving

end Pool

section Totals

variable {p p' : Pool}

theorem sub64_add {a b : Nat} (h : b + a < 2 ^ 64) : sub64 (b + a) b = a := by
  unfold sub64
  omega

theorem Pool.sumOf_erase {it : MapItem} (hit : it ∈ p.map) {s : SubPool}
    (hs : p.subpools[it.2]? = some s) (g : SubPool → Nat) :
    p.sumOf g = g s + (p.erase it s).sumOf g := by
  have hperm := List.perm_cons_erase hit
  have hsum := (hperm.map fun it => (p.subpools[it.2]?.map g).getD 0).sum_eq
  rw [List.map_cons, List.sum_cons, hs] at hsum
  exact hsum

theorem Pool.Totals.erase (h : p.Totals) {it : MapItem} (hit : it ∈ p.map) {s : SubPool}
    (hs : p.subpools[it.2]? = some s) : (p.erase it s).Totals := by
  have hmetadata := sumOf_erase hit hs SubPool.metadataBytes
  have hfds := sumOf_erase hit hs SubPool.estimateFDCost
  have hm : (p.erase it s).totalMetadataBytes = (p.erase it s).sumOf SubPool.metadataBytes := by
    have hlt := h.metadataLt
    rw [h.metadata, hmetadata] at hlt
    calc sub64 p.totalMetadataBytes s.metadataBytes
      _ = sub64 (s.metadataBytes + (p.erase it s).sumOf SubPool.metadataBytes) s.metadataBytes := by
        rw [h.metadata, hmetadata]
      _ = _ := sub64_add hlt
  have hf : (p.erase it s).totalSubfileCount = (p.erase it s).sumOf SubPool.estimateFDCost := by
    have hlt := h.fdsLt
    rw [h.fds, hfds] at hlt
    calc sub64 p.totalSubfileCount s.estimateFDCost
      _ = sub64 (s.estimateFDCost + (p.erase it s).sumOf SubPool.estimateFDCost)
          s.estimateFDCost := by rw [h.fds, hfds]
      _ = _ := sub64_add hlt
  have hmlt := h.metadataLt
  have hflt := h.fdsLt
  rw [h.metadata] at hmlt
  rw [h.fds] at hflt
  exact ⟨hm, hf, by omega, by omega⟩

theorem Pool.sumOf_congr {g : SubPool → Nat} (hmap : p'.map = p.map)
    (hg : ∀ it ∈ p.map, p'.subpools[it.2]?.map g = p.subpools[it.2]?.map g) :
    p'.sumOf g = p.sumOf g := by
  unfold sumOf
  rw [hmap]
  exact congrArg List.sum (List.map_congr_left fun it hit => by rw [hg it hit])

end Totals

namespace Pool

variable {p : Pool}

theorem Keys.erase (h : p.Keys) (it : MapItem) (s : SubPool) : (p.erase it s).Keys where
  nodup       := h.nodup.sublist (List.erase_sublist.map _)
  known _ hit := h.known _ (List.mem_of_mem_erase hit)

-- A key stands for one subpool, and a subpool has one key.
theorem Keys.eq_of_place (h : p.Keys) {it it' : MapItem} (hit : it ∈ p.map) (hit' : it' ∈ p.map)
    (hsp : it.2 = it'.2) : it = it' := by
  have ⟨s, hs, hindex⟩ := h.known it hit
  have ⟨s', hs', hindex'⟩ := h.known it' hit'
  rw [hsp, hs'] at hs
  cases hs
  exact Prod.ext (hindex.symm.trans hindex') hsp

-- A loop that finds a subpool idle takes nothing from a user.
theorem Accounted.erase (h : p.Accounted) {it : MapItem} (hit : it ∈ p.map) {s : SubPool}
    (hs : p.subpools[it.2]? = some s) (hidle : s.inUseCount = 0) : (p.erase it s).Accounted where
  keys    := h.keys.erase it s
  totals  := h.totals.erase hit hs
  serving := {
    serves   := h.serving.serves
    placed   := fun sp hheld => by
      have ⟨t, ht, hmem⟩ := h.serving.placed _ hheld
      have hne : (t.index, sp) ≠ it := by
        rintro rfl
        have hcount := (h.serving.serves hs).count
        rw [hidle] at hcount
        exact hheld (List.length_eq_zero_iff.mp (by exact_mod_cast hcount.symm))
      exact ⟨t, ht, (List.mem_erase_of_ne hne).mpr hmem⟩
    disjoint := h.serving.disjoint }

theorem getElem?_concat_of_some {α : Type*} {l : List α} {i : Nat} {a b : α}
    (h : l[i]? = some a) : (l ++ [b])[i]? = some a := by
  rw [List.getElem?_append_left (List.getElem?_eq_some_iff.mp h).choose, h]

theorem Accounted.held_eq_nil (h : p.Accounted) {sp : Nat} (hsp : p.subpools[sp]? = none) :
    p.held sp = [] := by
  by_contra hheld
  have ⟨_, hs, _⟩ := h.serving.placed _ hheld
  exact absurd (hsp.symm.trans hs) (by simp)

theorem Accounted.insert (h : p.Accounted) {r : Request} {cost : BP5CostEstimate}
    (hnew : p.map.lookup r.index = none)
    (hmetadata : p.totalMetadataBytes + cost.metadataBytes < 2 ^ 64)
    (hfds : p.totalSubfileCount + (if cost.isTar then 0 else cost.subfileCount) < 2 ^ 64) :
    (p.insert r cost).Accounted := by
  let new : SubPool := {
    index         := r.index
    metadataBytes := cost.metadataBytes
    subfileCount  := cost.subfileCount
    isTar         := cost.isTar }
  have hmap : (p.insert r cost).map = (r.index, p.subpools.length) :: p.map := by
    simp [Pool.insert, hnew]
  have hsubpools : (p.insert r cost).subpools = p.subpools ++ [new] := rfl
  have hnotmem : r.index ∉ p.map.map Prod.fst := by
    intro hmem
    obtain ⟨it, hit, hkey⟩ := List.mem_map.mp hmem
    exact absurd (List.lookup_eq_none_iff.mp hnew it hit) (by simp [hkey])
  have hsum (g : SubPool → Nat) : (p.insert r cost).sumOf g = g new + p.sumOf g := by
    unfold sumOf
    rw [hmap, hsubpools, List.map_cons, List.sum_cons, List.getElem?_concat_length]
    refine congrArg (g new + List.sum ·) (List.map_congr_left fun it hit => ?_)
    obtain ⟨s, hs, _⟩ := h.keys.known it hit
    rw [getElem?_concat_of_some hs, hs]
  -- a subpool of the new pool is one of the old pool or the new one
  have hcases {sp : Nat} {s : SubPool} (hs : (p.insert r cost).subpools[sp]? = some s) :
      p.subpools[sp]? = some s ∨ p.subpools[sp]? = none ∧ s = new := by
    rw [hsubpools] at hs
    by_cases hsp : sp < p.subpools.length
    case pos => exact .inl (by rwa [List.getElem?_append_left hsp] at hs)
    case neg =>
      have hsp : p.subpools.length ≤ sp := by omega
      rw [List.getElem?_append_right hsp, List.getElem?_singleton] at hs
      refine .inr ⟨List.getElem?_eq_none hsp, ?_⟩
      exact (Option.some_inj.mp (Option.ite_none_right_eq_some.mp hs).right).symm
  have hm : add64 p.totalMetadataBytes cost.metadataBytes
      = p.totalMetadataBytes + cost.metadataBytes := Nat.mod_eq_of_lt hmetadata
  have hf : add64 p.totalSubfileCount new.estimateFDCost
      = p.totalSubfileCount + new.estimateFDCost := Nat.mod_eq_of_lt hfds
  refine {
    keys    := ⟨?_, ?_⟩
    totals  := ⟨?_, ?_, ?_, ?_⟩
    serving := ⟨?_, ?_, ?_⟩ }
  case refine_1 =>
    rw [hmap, List.map_cons]
    exact List.nodup_cons.mpr ⟨hnotmem, h.keys.nodup⟩
  case refine_2 =>
    intro it hit
    cases List.mem_cons.mp (hmap ▸ hit) with
    | inl heq =>
      subst heq
      exact ⟨new, List.getElem?_concat_length, rfl⟩
    | inr hit =>
      obtain ⟨s, hs, hindex⟩ := h.keys.known it hit
      exact ⟨s, getElem?_concat_of_some hs, hindex⟩
  case refine_3 => rw [hsum, ← h.totals.metadata, Nat.add_comm]; exact hm
  case refine_4 => rw [hsum, ← h.totals.fds, Nat.add_comm]; exact hf
  case refine_5 => exact hm.trans_lt hmetadata
  case refine_6 => exact hf.trans_lt hfds
  case refine_7 =>
    intro sp s hs
    rcases hcases hs with hs | ⟨hsp, rfl⟩
    · exact h.serving.serves hs
    · have hheld : (p.insert r cost).held sp = [] := h.held_eq_nil hsp
      rw [hheld]
      constructor <;> simp [new, SubPool.busyFiles]
  case refine_8 =>
    intro sp hheld
    obtain ⟨s, hs, hmem⟩ := h.serving.placed _ hheld
    exact ⟨s, getElem?_concat_of_some hs, hmap ▸ List.mem_cons_of_mem _ hmem⟩
  case refine_9 =>
    intro sp sp' s s' f hs hs' hf hf'
    rcases hcases hs with hs | ⟨_, rfl⟩
    case inr => cases hf
    rcases hcases hs' with hs' | ⟨_, rfl⟩
    case inr => cases hf'
    exact h.serving.disjoint hs hs' hf hf'

-- What changes one subpool and the objects that hold its engines.
theorem Accounted.update (h : p.Accounted) {sp : Nat} {s s' : SubPool}
    (hs : p.subpools[sp]? = some s) (hsame : s.SameCosts s') {addresses : Nat}
    (haddr : p.addresses ≤ addresses) {entries : List PoolEntry}
    (hlist : ∀ f ∈ s'.list, f ∈ s.list ∨ p.addresses ≤ f)
    (hserves : s'.Serves addresses (entries.filterMap (·.fileOf sp)))
    (hplaced : entries.filterMap (·.fileOf sp) ≠ [] → (s.index, sp) ∈ p.map)
    (hother : ∀ sp', sp' ≠ sp → (p.held sp').Perm (entries.filterMap (·.fileOf sp'))) :
    { p with subpools := p.subpools.set sp s', addresses, entries }.Accounted := by
  have hlt := (List.getElem?_eq_some_iff.mp hs).choose
  have hset (sp' : Nat) :
      (p.subpools.set sp s')[sp']? = if sp = sp' then some s' else p.subpools[sp']? := by
    by_cases heq : sp = sp'
    case pos =>
      subst heq
      rw [if_pos rfl, List.getElem?_set_self hlt]
    case neg => rw [if_neg heq, List.getElem?_set_ne heq]
  have hsum {g : SubPool → Nat} (hg : g s' = g s) :
      { p with subpools := p.subpools.set sp s', addresses, entries }.sumOf g = p.sumOf g := by
    refine sumOf_congr rfl fun it _ => ?_
    change (p.subpools.set sp s')[it.2]?.map g = _
    rw [hset]
    split
    case isTrue heq => rw [← heq, hs, Option.map_some, Option.map_some, hg]
    case isFalse => rfl
  refine {
    keys    := ⟨h.keys.nodup, ?_⟩
    totals  := ⟨?_, ?_, h.totals.metadataLt, h.totals.fdsLt⟩
    serving := ⟨?_, ?_, ?_⟩ }
  case refine_1 =>
    intro it hit
    have ⟨t, ht, hindex⟩ := h.keys.known it hit
    by_cases hsp : sp = it.2
    case pos =>
      subst hsp
      rw [hs] at ht
      cases ht
      exact ⟨s', by simp [hset], hsame.index.trans hindex⟩
    case neg => exact ⟨t, by simp [hset, hsp, ht], hindex⟩
  case refine_2 => rw [hsum hsame.metadataBytes]; exact h.totals.metadata
  case refine_3 => rw [hsum hsame.fdCost]; exact h.totals.fds
  case refine_4 =>
    intro sp' t hset'
    have ht := (hset sp').symm.trans hset'
    split at ht
    case isTrue heq =>
      subst heq
      cases ht
      exact hserves
    case isFalse hne => exact ((h.serving.serves ht).mono haddr).perm (hother sp' (Ne.symm hne))
  case refine_5 =>
    intro sp' hheld
    by_cases hsp : sp = sp'
    case pos =>
      subst hsp
      exact ⟨s', by simp [hset], hsame.index ▸ hplaced hheld⟩
    case neg =>
      have ⟨t, ht, hmem⟩ := h.serving.placed sp' fun hnil =>
        hheld (List.nil_perm.mp (hnil ▸ hother sp' (Ne.symm hsp)))
      exact ⟨t, by simp [hset, hsp, ht], hmem⟩
  case refine_6 =>
    intro sp₁ sp₂ t₁ t₂ f ht₁ ht₂ hf₁ hf₂
    -- an engine of the changed subpool is one of the old one, or has an address that is new
    have hold {sp' : Nat} {t : SubPool} (ht : (p.subpools.set sp s')[sp']? = some t)
        (hf : f ∈ t.list) :
        (∃ u, p.subpools[sp']? = some u ∧ f ∈ u.list) ∨ sp' = sp ∧ p.addresses ≤ f := by
      rw [hset] at ht
      split at ht
      case isTrue heq =>
        subst heq
        cases ht
        exact (hlist f hf).imp (fun hf => ⟨s, hs, hf⟩) fun hf => ⟨rfl, hf⟩
      case isFalse => exact .inl ⟨t, ht, hf⟩
    have hnew {sp' : Nat} {u : SubPool} (hu : p.subpools[sp']? = some u) (hf : f ∈ u.list)
        (hle : p.addresses ≤ f) : False :=
      Nat.not_lt.mpr hle ((h.serving.serves hu).lt f hf)
    rcases hold ht₁ hf₁ with ⟨u₁, hu₁, hf₁⟩ | ⟨rfl, hle⟩
    · rcases hold ht₂ hf₂ with ⟨u₂, hu₂, hf₂⟩ | ⟨rfl, hle⟩
      · exact h.serving.disjoint hu₁ hu₂ hf₁ hf₂
      · exact (hnew hu₁ hf₁ hle).elim
    · rcases hold ht₂ hf₂ with ⟨u₂, hu₂, hf₂⟩ | ⟨rfl, _⟩
      · exact (hnew hu₂ hf₂ hle).elim
      · rfl

-- Locks and limits are no part of the accounts, and what is held can change hands.
theorem Accounted.quiet (h : p.Accounted) (locked : Bool) (fdLimit metadataBytesLimit : Nat)
    {entries : List PoolEntry}
    (hheld : ∀ sp, (p.held sp).Perm (entries.filterMap (·.fileOf sp))) :
    Accounted { p with locked, fdLimit, metadataBytesLimit, entries } where
  keys    := ⟨h.keys.nodup, h.keys.known⟩
  totals  := ⟨h.totals.metadata, h.totals.fds, h.totals.metadataLt, h.totals.fdsLt⟩
  serving := {
    serves   := fun hs => (h.serving.serves hs).perm (hheld _)
    placed   := fun _ hne =>
      h.serving.placed _ fun hnil => hne (List.nil_perm.mp (hnil ▸ hheld _))
    disjoint := h.serving.disjoint }

theorem Accounted.relock (h : p.Accounted) (locked : Bool) : Accounted { p with locked } :=
  h.quiet locked p.fdLimit p.metadataBytesLimit fun _ => .refl _

-- A request that finds or opens an engine holds it from then on.
theorem Accounted.take (h : p.Accounted) {sp : Nat} {s s' : SubPool} {opening : Opening}
    {file : Nat} (hs : p.subpools[sp]? = some s) (hplaced : (s.index, sp) ∈ p.map)
    (hget : s.getFree p.addresses opening = .ok (s', some file)) :
    { p with
      subpools  := p.subpools.set sp s'
      addresses := p.addresses + 1
      entries   := p.entries ++ [PoolEntry.mk (some file) (some sp)] }.Accounted := by
  have hentries (sp' : Nat) :
      (p.entries ++ [PoolEntry.mk (some file) (some sp)]).filterMap (·.fileOf sp')
        = p.held sp' ++ if sp = sp' then [file] else [] := by
    rw [List.filterMap_append]
    by_cases hsp : sp = sp' <;> simp [Pool.held, PoolEntry.fileOf, hsp]
  refine h.update hs (SubPool.getFree_sameCosts hget) (Nat.le_succ _) ?_ ?_ (fun _ => hplaced) ?_
  case refine_1 =>
    intro f hf
    exact (SubPool.getFree_list hget hf).imp id (·.ge)
  case refine_2 =>
    rw [hentries, if_pos rfl]
    exact (h.serving.serves hs).getFree hget
  case refine_3 =>
    intro sp' hsp
    rw [hentries, if_neg (Ne.symm hsp), List.append_nil]

-- An object that holds an engine gives it back, and the others hold what they held.
theorem Accounted.giveBack (h : p.Accounted) {this : PoolEntry} {now : Nat} {p' : Pool}
    {entries : List PoolEntry} (hback : p.giveBack this now = .ok p')
    (hheld : ∀ sp, (p.held sp).Perm
      (entries.filterMap (·.fileOf sp) ++ (this.fileOf sp).toList)) :
    { p' with entries := entries }.Accounted := by
  unfold Pool.giveBack at hback
  split at hback
  case h_1 file sp hfile hsp =>
    have ⟨s, hs, hback⟩ := Outcome.bind_eq_ok.mp hback
    cases hback
    have hs := Option.orUndefined_eq_ok.mp hs
    have hthis (sp' : Nat) : (this.fileOf sp').toList = if sp = sp' then [file] else [] := by
      by_cases hne : sp = sp' <;> simp [PoolEntry.fileOf, hfile, hsp, hne]
    have hperm := hheld sp
    rw [hthis, if_pos rfl] at hperm
    refine h.update hs (SubPool.giveBack_sameCosts file now) (Nat.le_refl _) ?_ ?_ ?_ ?_
    case refine_1 =>
      intro f hf
      exact .inl (SubPool.giveBack_list file now ▸ hf)
    case refine_2 => exact ((h.serving.serves hs).perm hperm).giveBack now
    case refine_3 =>
      intro _
      have ⟨t, ht, hmem⟩ := h.serving.placed sp fun hnil => by
        simp [hnil] at hperm
      rw [hs] at ht
      cases ht
      exact hmem
    case refine_4 =>
      intro sp' hne
      have hperm' := hheld sp'
      rwa [hthis, if_neg (Ne.symm hne), List.append_nil] at hperm'
  case h_2 hnone =>
    cases hback
    have hthis (sp : Nat) : (this.fileOf sp).toList = [] := by
      unfold PoolEntry.fileOf
      split
      case isFalse => rfl
      case isTrue hsp =>
        cases hfile : this.file with
        | none => rfl
        | some file => exact (hnone file sp hfile hsp).elim
    have hheld (sp : Nat) : (p.held sp).Perm (entries.filterMap (·.fileOf sp)) := by
      have := hheld sp
      rwa [hthis, List.append_nil] at this
    exact h.quiet p.locked p.fdLimit p.metadataBytesLimit hheld

theorem fileOf_empty (sp : Nat) : (PoolEntry.fileOf {} sp).toList = [] := by
  unfold PoolEntry.fileOf
  split <;> rfl

theorem filterMap_singleton {α β : Type*} (f : α → Option β) (a : α) :
    [a].filterMap f = (f a).toList := by
  cases h : f a <;> simp [h]

-- What is moved changes hands.
theorem perm_of_move {entries : List PoolEntry} {i : Nat} {o : PoolEntry}
    (ho : entries[i]? = some o) (sp : Nat) :
    (entries.filterMap (·.fileOf sp)).Perm
      ((entries.set i {}).filterMap (·.fileOf sp) ++ (o.fileOf sp).toList) := by
  have := List.perm_filterMap_set (·.fileOf sp) (b := {}) ho
  rwa [fileOf_empty, List.append_nil] at this

end Pool

end FilePool
