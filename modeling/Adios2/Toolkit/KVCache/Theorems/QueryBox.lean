import Adios2.Toolkit.KVCache.Theorems.NdCut

-- A request is made of what is in the cache and of boxes that are still to be read.

namespace KVCache

open Bytes CString Boxes

namespace QueryBox

variable {n : Nat} {b box inter : QueryBox n} {keys : List (List Byte)}

section Interaction

theorem isInteracted_none (hb : b.Bounded) (hbox : box.Bounded) (h : b.isInteracted box = none) :
    Disjoint b.elements box.elements := by
  rw [isInteracted] at h
  split at h
  case isFalse => exact absurd h (by simp)
  case isTrue hex =>
    have ⟨i, hi⟩ := hex
    rw [add64_of_lt (hbox i), add64_of_lt (hb i)] at hi
    rcases hi with hi | hi
    · exact (disjoint_points (Nat.le_of_lt hi)).symm
    · exact disjoint_points (Nat.le_of_lt hi)

-- The intersection of boxes that interact. It is empty where they only touch each other.
theorem isInteracted_some (hb : b.Bounded) (hbox : box.Bounded)
    (h : b.isInteracted box = some inter) :
    inter.elements = b.elements ∩ box.elements ∧ Inside inter b := by
  rw [isInteracted] at h
  split at h
  case isTrue => exact absurd h (by simp)
  case isFalse hno =>
    have hle : ∀ i, b.start i ≤ box.start i + box.count i ∧
        box.start i ≤ b.start i + b.count i := by
      intro i
      have hi := not_exists.mp hno i
      rw [add64_of_lt (hbox i), add64_of_lt (hb i)] at hi
      omega
    have hcount : ∀ i, sub64 (min (add64 (b.start i) (b.count i)) (add64 (box.start i) (box.count i)))
        (max (b.start i) (box.start i)) =
          min (b.start i + b.count i) (box.start i + box.count i) -
            max (b.start i) (box.start i) := by
      intro i
      have := hle i
      have := hb i
      have := hbox i
      rw [add64_of_lt (hbox i), add64_of_lt (hb i)]
      exact sub64_of_le (by omega) (by omega)
    have hinter := Option.some.inj h
    subst hinter
    constructor
    case left => simp only [elements, hcount, inter_points]
    case right =>
      intro i
      have := hle i
      simp only [hcount]
      omega

end Interaction

section Keys

-- A box that is in the cache.
def Cached (keys : List (List Byte)) (box : QueryBox n) : Prop :=
  ∃ key ∈ keys, readBox key = .ok ⟨n, box⟩

-- The boxes of the keys are boxes of arrays.
def KeysBounded (keys : List (List Byte)) : Prop :=
  ∀ key ∈ keys, ∀ box, readBox key = .ok box → box.2.Bounded

theorem ofDims_eq_some {any : Σ m, QueryBox m} : ofDims n any = some box ↔ any = ⟨n, box⟩ := by
  obtain ⟨m, q⟩ := any
  by_cases h : m = n
  case pos =>
    subst h
    simp [ofDims]
  case neg =>
    simp only [ofDims, dif_neg h, Sigma.mk.injEq]
    constructor
    · intro h'
      exact absurd h' (by simp)
    · exact fun h' => absurd h'.left h

-- What is found among the boxes: the largest intersection that has a size, with its box.
structure Best (b : QueryBox n) (keys : List (List Byte)) (best : Interaction n) : Prop where
  found   : best = {} ∨ Cached keys best.source ∧
    best.interact.elements = b.elements ∩ best.source.elements ∧ Inside best.interact b
  largest : ∀ box, Cached keys box → ∀ inter, b.isInteracted box = some inter →
    inter.size ≤ best.interact.size

theorem considerBox_spec (hb : b.Bounded) {key : List Byte} {any : Σ m, QueryBox m}
    (hkey : readBox key = .ok any) (hany : any.2.Bounded) {best : Interaction n}
    (h : Best b keys best) : Best b (keys ++ [key]) (b.considerBox best any) := by
  have hmono : ∀ {q : QueryBox n}, Cached keys q → Cached (keys ++ [key]) q :=
    fun ⟨key', hmem, hread⟩ => ⟨key', List.mem_append_left _ hmem, hread⟩
  have hold : best = {} ∨ Cached (keys ++ [key]) best.source ∧
      best.interact.elements = b.elements ∩ best.source.elements ∧ Inside best.interact b :=
    h.found.imp_right fun ⟨hc, hi⟩ => ⟨hmono hc, hi⟩
  have hcases : ∀ {q : QueryBox n}, Cached (keys ++ [key]) q → Cached keys q ∨ any = ⟨n, q⟩ := by
    rintro q ⟨key', hmem, hread⟩
    rcases List.mem_append.mp hmem with hmem | hmem
    · exact .inl ⟨key', hmem, hread⟩
    · rw [List.mem_singleton.mp hmem, hkey] at hread
      exact .inr (Except.ok.inj hread)
  rw [considerBox]
  split
  case h_1 hnone =>
    refine ⟨hold, fun q hq inter hinter => ?_⟩
    rcases hcases hq with hq | hq
    · exact h.largest q hq inter hinter
    · exact absurd (hnone.symm.trans (ofDims_eq_some.mpr hq)) (by simp)
  case h_2 box hsome =>
    have hbox := ofDims_eq_some.mp hsome
    subst hbox
    have hthis : ∀ {q : QueryBox n}, (⟨n, box⟩ : Σ m, QueryBox m) = ⟨n, q⟩ → q = box :=
      fun heq => (eq_of_heq (Sigma.mk.inj heq).right).symm
    have hcached : Cached (keys ++ [key]) box := ⟨key, by simp, hkey⟩
    split
    case h_1 hnone =>
      refine ⟨hold, fun q hq inter hinter => ?_⟩
      rcases hcases hq with hq | hq
      · exact h.largest q hq inter hinter
      · rw [hthis hq, hnone] at hinter
        exact absurd hinter (by simp)
    case h_2 found hfound =>
      have ⟨helems, hin⟩ := isInteracted_some hb hany hfound
      split
      case isTrue hlt =>
        refine ⟨.inr ⟨hcached, helems, hin⟩, fun q hq inter hinter => ?_⟩
        rcases hcases hq with hq | hq
        · exact (h.largest q hq inter hinter).trans hlt.le
        · rw [hthis hq, hfound] at hinter
          exact (Option.some.inj hinter ▸ Nat.le_refl _)
      case isFalse hle =>
        refine ⟨hold, fun q hq inter hinter => ?_⟩
        rcases hcases hq with hq | hq
        · exact h.largest q hq inter hinter
        · rw [hthis hq, hfound] at hinter
          exact (Option.some.inj hinter ▸ Nat.le_of_not_lt hle)

theorem foldlM_considerBox (hb : b.Bounded) {seen : List (List Byte)}
    (hkeys : KeysBounded keys) (hread : ∀ key ∈ keys, ∃ box, readBox key = .ok box)
    {best : Interaction n} (h : Best b seen best) :
    ∃ best', keys.foldlM (fun best key => do
      let box ← readBox key
      pure (b.considerBox best box)) best = .ok best' ∧ Best b (seen ++ keys) best' := by
  induction keys generalizing best seen with
  | nil => exact ⟨best, rfl, by simpa using h⟩
  | cons key keys ih =>
    have ⟨any, hany⟩ := hread key List.mem_cons_self
    have hnext := considerBox_spec hb hany (hkeys key List.mem_cons_self any hany) h
    have ⟨best', hok, hbest⟩ := ih (fun k hk => hkeys k (List.mem_cons_of_mem _ hk))
      (fun k hk => hread k (List.mem_cons_of_mem _ hk)) hnext
    refine ⟨best', ?_, by simpa using hbest⟩
    rw [List.foldlM_cons, hany]
    exact hok

theorem maxInteract_spec (hb : b.Bounded) (hkeys : KeysBounded keys)
    (hread : ∀ key ∈ keys, ∃ box, readBox key = .ok box) :
    ∃ best, b.maxInteract keys = .ok best ∧ Best b keys best := by
  have h : Best b [] {} :=
    ⟨.inl rfl, fun box ⟨key, hmem, _⟩ => absurd hmem List.not_mem_nil⟩
  exact foldlM_considerBox hb hkeys hread h

theorem readable_of_maxInteract {best : Interaction n} (h : b.maxInteract keys = .ok best) :
    ∀ key ∈ keys, ∃ box, readBox key = .ok box := by
  rw [maxInteract] at h
  generalize ({} : Interaction n) = init at h
  induction keys generalizing init with
  | nil => exact fun key hmem => absurd hmem List.not_mem_nil
  | cons key keys ih =>
    rw [List.foldlM_cons] at h
    obtain ⟨_, hstep, hrest⟩ := Outcome.bind_eq_ok.mp h
    obtain ⟨box, hbox, _⟩ := Outcome.bind_eq_ok.mp hstep
    intro key' hmem
    rcases List.mem_cons.mp hmem with rfl | hmem
    · exact ⟨box, hbox⟩
    · exact ih _ hrest key' hmem

end Keys

section Search

variable {maxDepth : Nat} {regular cached : List (QueryBox n)}

-- What a request is made of.
structure Decomposed (b : QueryBox n) (keys : List (List Byte)) (regular cached : List (QueryBox n)) :
    Prop where
  covers   : ∀ x ∈ b.elements, (∃ r ∈ regular, x ∈ r.elements) ∨ ∃ c ∈ cached, x ∈ c.elements
  disjoint : regular.Pairwise fun r r' => Disjoint r.elements r'.elements
  regular  : ∀ r ∈ regular, r.elements.Nonempty ∧ r.elements ⊆ b.elements
  cached   : ∀ c ∈ cached, Cached keys c ∧ (c.elements ∩ b.elements).Nonempty

theorem decomposed_self (hb : b.elements.Nonempty) : Decomposed b keys [b] [] where
  covers   := fun x hx => .inl ⟨b, List.mem_singleton_self b, hx⟩
  disjoint := List.pairwise_singleton _ b
  regular  := fun r hr => by
    rw [List.mem_singleton.mp hr]
    exact ⟨hb, Set.Subset.refl _⟩
  cached   := fun c hc => absurd hc List.not_mem_nil

-- A box in the cache together with what the pieces around it are made of.
theorem Decomposed.of_pieces (hcached : Cached keys box)
    (hinter : inter.elements = b.elements ∩ box.elements) (hmeets : inter.elements.Nonempty)
    {pieces : List (QueryBox n)} (hout : CutOut inter b pieces)
    (parts : QueryBox n → List (QueryBox n) × List (QueryBox n))
    (hparts : ∀ p ∈ pieces, p.elements ⊆ b.elements ∧
      Decomposed p keys (parts p).1 (parts p).2) :
    Decomposed b keys ((pieces.map parts).flatMap (·.1))
      (box :: (pieces.map parts).flatMap (·.2)) where
  covers   := by
    intro x hx
    by_cases hin : x ∈ inter.elements
    case pos =>
      rw [hinter] at hin
      exact .inr ⟨box, List.mem_cons_self, hin.right⟩
    case neg =>
      have ⟨p, hp, hxp⟩ := (hout.union x).mpr ⟨hx, hin⟩
      rcases (hparts p hp).right.covers x hxp with ⟨r, hr, hxr⟩ | ⟨c, hc, hxc⟩
      · exact .inl ⟨r, List.mem_flatMap.mpr ⟨parts p, List.mem_map_of_mem hp, hr⟩, hxr⟩
      · exact .inr ⟨c, List.mem_cons_of_mem _
          (List.mem_flatMap.mpr ⟨parts p, List.mem_map_of_mem hp, hc⟩), hxc⟩
  disjoint := by
    rw [List.flatMap_map, List.pairwise_flatMap]
    refine ⟨fun p hp => (hparts p hp).right.disjoint, hout.disjoint.imp_of_mem ?_⟩
    intro p p' hp hp' hdisj r hr r' hr'
    exact hdisj.mono ((hparts p hp).right.regular r hr).right
      ((hparts p' hp').right.regular r' hr').right
  regular  := by
    intro r hr
    obtain ⟨_, hmem, hr⟩ := List.mem_flatMap.mp hr
    obtain ⟨p, hp, rfl⟩ := List.mem_map.mp hmem
    have ⟨hne, hsub⟩ := (hparts p hp).right.regular r hr
    exact ⟨hne, hsub.trans (hparts p hp).left⟩
  cached   := by
    intro c hc
    rcases List.mem_cons.mp hc with rfl | hc
    case inl =>
      rw [hinter, Set.inter_comm] at hmeets
      exact ⟨hcached, hmeets⟩
    case inr =>
      obtain ⟨_, hmem, hc⟩ := List.mem_flatMap.mp hc
      obtain ⟨p, hp, rfl⟩ := List.mem_map.mp hmem
      have ⟨hcached, hmeets⟩ := (hparts p hp).right.cached c hc
      exact ⟨hcached, hmeets.mono (Set.inter_subset_inter_right _ (hparts p hp).left)⟩

-- What one look through the keys comes to, for a request with elements.
inductive Looked (b : QueryBox n) (keys : List (List Byte)) (best : Interaction n) : Prop
  | nothing (size : best.interact.size = 0)
      (apart : ∀ box : QueryBox n, Cached keys box → Disjoint b.elements box.elements)
  | found (pos : best.interact.Sized) (cached : Cached keys best.source)
      (elements : best.interact.elements = b.elements ∩ best.source.elements)
      (inside : Inside best.interact b)
      (largest : ∀ box, Cached keys box → ∀ inter, b.isInteracted box = some inter →
        inter.size ≤ best.interact.size)

theorem Best.looked (hn : 0 < n) (hb : b.Sized) (hkeys : KeysBounded keys) {best : Interaction n}
    (h : Best b keys best) : Looked b keys best := by
  have hsmall : ∀ {q : QueryBox n}, Inside q b → q.size = volume q.count := fun hq =>
    Nat.mod_eq_of_lt (hq.volume_le.trans_lt hb.small)
  have hnothing : best.interact.size = 0 → Looked b keys best := by
    intro hsize
    refine .nothing hsize fun q hq => ?_
    have ⟨key, hmem, hread⟩ := hq
    have hbounded := hkeys key hmem _ hread
    cases hinter : b.isInteracted q with
    | none => exact isInteracted_none hb.bounded hbounded hinter
    | some inter =>
      have ⟨helems, hin⟩ := isInteracted_some hb.bounded hbounded hinter
      have hle := h.largest q hq inter hinter
      rw [hsize, hsmall hin] at hle
      rw [Set.disjoint_iff_inter_eq_empty, ← helems, ← Set.not_nonempty_iff_eq_empty,
        elements_nonempty, ← volume_pos]
      omega
  rcases h.found with rfl | ⟨hcached, helems, hin⟩
  case inl =>
    refine hnothing ?_
    have : volume (zero (n := n)).count = 0 :=
      Finset.prod_eq_zero (Finset.mem_univ ⟨0, hn⟩) rfl
    rw [size, this]
    rfl
  case inr =>
    rcases Nat.eq_zero_or_pos best.interact.size with hzero | hpos
    case inl => exact hnothing hzero
    case inr =>
      have hpos : 0 < volume best.interact.count := hsmall hin ▸ hpos
      exact .found (hin.sized hb (volume_pos.mp hpos)) hcached helems hin h.largest

-- With some depth left, the search comes to an end with all that the request needs.
theorem getMaxInteractBox_spec (hn : 0 < n) (hkeys : KeysBounded keys)
    (hread : ∀ key ∈ keys, ∃ box, readBox key = .ok box) (hmax : maxDepth < 2 ^ 64)
    {fuel currentDepth : Nat} (hdepth : currentDepth < maxDepth) (hb : b.Sized)
    (hfuel : volume b.count ≤ fuel) :
    ∃ boxes, getMaxInteractBox keys maxDepth fuel currentDepth b = .ok boxes ∧
      Decomposed b keys boxes.1 boxes.2 := by
  induction fuel generalizing b currentDepth with
  | zero =>
    have := volume_pos.mpr hb.pos
    omega
  | succ fuel ih =>
    have ⟨best, hbest, hspec⟩ := maxInteract_spec hb.bounded hkeys hread
    have hnext : (currentDepth + 1) % 2 ^ 64 = currentDepth + 1 := Nat.mod_eq_of_lt (by omega)
    have hne : b.elements.Nonempty := elements_nonempty.mpr hb.pos
    rw [getMaxInteractBox, if_neg (by omega)]
    simp only [hbest, Outcome.ok_bind, hnext]
    cases hspec.looked hn hb hkeys with
    | nothing size _ =>
      rw [if_pos size]
      exact ⟨_, rfl, decomposed_self hne⟩
    | found pos cached elements inside _ =>
      have hmeets : best.interact.elements.Nonempty := elements_nonempty.mpr pos.pos
      have hpos := volume_pos.mpr pos.pos
      rw [if_neg (by rw [pos.size]; omega), hb.size, pos.size]
      split
      case isTrue heq =>
        have hself := inside.eq_of_volume pos.pos heq.le
        refine ⟨_, rfl, ?_⟩
        have hout : CutOut best.interact b [] := ⟨List.Pairwise.nil, fun x => by simp [hself]⟩
        exact .of_pieces cached elements hmeets hout (fun p => ([p], []))
          fun p hp => absurd hp List.not_mem_nil
      case isFalse hneq =>
        have ⟨pieces, hcut, hout, hpieces⟩ :=
          ndCut_spec (fuel + 1) inside hb pos.pos (by omega)
        rw [hcut, Outcome.ok_bind]
        have hsub : ∀ p ∈ pieces, p.elements ⊆ b.elements := fun p hp =>
          (hpieces p hp).right.left.subset
        split
        case isTrue =>
          refine ⟨_, rfl, ?_⟩
          have hparts := Decomposed.of_pieces cached elements hmeets hout
            (fun p => ([p], [])) fun p hp =>
              ⟨hsub p hp, decomposed_self (elements_nonempty.mpr (hpieces p hp).left.pos)⟩
          have hnil : pieces.flatMap (fun _ => ([] : List (QueryBox n))) = [] := by
            simp [List.flatMap_eq_nil_iff]
          simpa [List.flatMap_map, hnil] using hparts
        case isFalse hlast =>
          have hrec : ∀ p ∈ pieces, ∃ boxes,
              getMaxInteractBox keys maxDepth fuel (currentDepth + 1) p = .ok boxes ∧
                Decomposed p keys boxes.1 boxes.2 := fun p hp =>
            ih (by omega) (hpieces p hp).left (by have := (hpieces p hp).right.right; omega)
          let parts := fun p : QueryBox n =>
            (getMaxInteractBox keys maxDepth fuel (currentDepth + 1) p).toOption.getD ([], [])
          have hparts : ∀ p ∈ pieces,
              getMaxInteractBox keys maxDepth fuel (currentDepth + 1) p = .ok (parts p) ∧
                Decomposed p keys (parts p).1 (parts p).2 := by
            intro p hp
            have ⟨boxes, hok, hdec⟩ := hrec p hp
            have heq : parts p = boxes := by simp [parts, hok, Except.toOption]
            exact ⟨heq ▸ hok, heq ▸ hdec⟩
          rw [Outcome.mapM_eq_ok fun p hp => (hparts p hp).left, Outcome.ok_bind]
          exact ⟨_, rfl, .of_pieces cached elements hmeets hout parts fun p hp =>
            ⟨hsub p hp, (hparts p hp).right⟩⟩

-- A request without elements interacts with nothing.
theorem maxInteract_of_empty (hkeys : KeysBounded keys) (hb : b.Bounded)
    (hread : ∀ key ∈ keys, ∃ box, readBox key = .ok box) (hempty : volume b.count = 0) :
    ∃ best, b.maxInteract keys = .ok best ∧ best.interact.size = 0 := by
  have ⟨best, hbest, hspec⟩ := maxInteract_spec hb hkeys hread
  refine ⟨best, hbest, ?_⟩
  rcases hspec.found with rfl | ⟨_, _, hin⟩
  case inl =>
    have ⟨i, _, _⟩ := Finset.prod_eq_zero_iff.mp hempty
    have : volume (zero (n := n)).count = 0 := Finset.prod_eq_zero (Finset.mem_univ i) rfl
    rw [size, this]
    rfl
  case inr =>
    have := hin.volume_le
    rw [size, show volume best.interact.count = 0 by omega]
    rfl

-- Without any depth the pieces around a box in the cache are lost.
theorem getMaxInteractBox_of_found {fuel : Nat} {best : Interaction n}
    {boxes : List (QueryBox n) × List (QueryBox n)} (hbest : b.maxInteract keys = .ok best)
    (hpos : best.interact.size ≠ 0) (hlt : b.size ≠ best.interact.size)
    (h : getMaxInteractBox keys 0 fuel 0 b = .ok boxes) : boxes = ([], [best.source]) := by
  cases fuel with
  | zero => exact absurd h (by simp [getMaxInteractBox])
  | succ fuel =>
    rw [getMaxInteractBox, if_neg (Nat.lt_irrefl 0)] at h
    simp only [hbest, Outcome.ok_bind, if_neg hpos, if_neg hlt, Nat.zero_add] at h
    obtain ⟨pieces, _, h⟩ := Outcome.bind_eq_ok.mp h
    obtain ⟨parts, hparts, h⟩ := Outcome.bind_eq_ok.mp h
    have hnone : ∀ part ∈ parts, part = ([], []) := by
      intro part hpart
      have ⟨p, _, hp⟩ := Outcome.exists_of_mem_mapM hparts hpart
      cases fuel with
      | zero => exact absurd hp (by simp [getMaxInteractBox])
      | succ fuel =>
        rw [getMaxInteractBox, if_pos (by decide)] at hp
        exact (Except.ok.inj hp).symm
    have hregular : parts.flatMap (·.1) = [] := by
      rw [List.flatMap_eq_nil_iff]
      exact fun part hpart => by rw [hnone part hpart]
    have hcached : parts.flatMap (·.2) = [] := by
      rw [List.flatMap_eq_nil_iff]
      exact fun part hpart => by rw [hnone part hpart]
    have hboxes := Except.ok.inj h
    rw [hregular, hcached] at hboxes
    exact hboxes.symm

-- When a request comes out right: its keys can be read, it has elements, and there is some depth or
-- no need of any.
structure Decomposable (b : QueryBox n) (keys : List (List Byte)) (maxDepth : Nat) : Prop where
  readable : ∀ key ∈ keys, ∃ box, readBox key = .ok box
  nonempty : b.elements.Nonempty
  dims     : n = 0 → ∃ box : QueryBox n, Cached keys box
  depth    : 0 < maxDepth ∨ (∀ box : QueryBox n, Cached keys box → Disjoint b.elements box.elements) ∨
    ∃ box : QueryBox n, Cached keys box ∧ b.elements ⊆ box.elements

-- In no dimensions there is one box, and it has one element.
theorem decomposes_of_noDims {b : QueryBox 0} (hkeys : KeysBounded keys)
    (hread : ∀ key ∈ keys, ∃ box, readBox key = .ok box) :
    (∃ fuel boxes, getMaxInteractBox keys maxDepth fuel 0 b = .ok boxes ∧
      Decomposed b keys boxes.1 boxes.2) ↔ ∃ box : QueryBox 0, Cached keys box := by
  have honly : ∀ q q' : QueryBox 0, q = q' := by
    rintro ⟨s, c⟩ ⟨s', c'⟩
    exact mk.injEq .. |>.mpr ⟨Subsingleton.elim _ _, Subsingleton.elim _ _⟩
  have ⟨best, hbest, _⟩ := maxInteract_spec (b := b) (fun i => i.elim0) hkeys hread
  have hsize : ∀ q : QueryBox 0, q.size = 1 := fun q => by rw [honly q zero]; decide
  have hok : ∀ fuel, getMaxInteractBox keys maxDepth (fuel + 1) 0 b = .ok ([], [best.source]) := by
    intro fuel
    rw [getMaxInteractBox, if_neg (by omega)]
    simp [hbest, hsize]
  have hall : ∀ q : QueryBox 0, ∀ x, x ∈ q.elements := fun q x i => i.elim0
  constructor
  case mp =>
    rintro ⟨fuel, boxes, h, hdec⟩
    cases fuel with
    | zero => exact absurd h (by simp [getMaxInteractBox])
    | succ fuel =>
      rw [hok] at h
      have hboxes := Except.ok.inj h
      subst hboxes
      exact ⟨best.source, (hdec.cached best.source (List.mem_singleton_self _)).left⟩
  case mpr =>
    rintro ⟨box, hbox⟩
    refine ⟨1, _, hok 0, ⟨fun x _ => .inr ⟨_, List.mem_singleton_self _, hall _ x⟩,
      List.Pairwise.nil, fun r hr => absurd hr List.not_mem_nil, fun c hc => ?_⟩⟩
    rw [List.mem_singleton.mp hc, honly best.source box]
    exact ⟨hbox, ⟨Fin.elim0, hall _ _, hall _ _⟩⟩

theorem Looked.covering_iff {best : Interaction n} (h : Looked b keys best) (hb : b.Sized)
    (hkeys : KeysBounded keys) (hfound : best.interact.size ≠ 0) :
    b.size = best.interact.size ↔
      ∃ box : QueryBox n, Cached keys box ∧ b.elements ⊆ box.elements := by
  cases h with
  | nothing size _ => exact absurd size hfound
  | found pos cached elements inside largest =>
    rw [hb.size, pos.size]
    constructor
    case mp =>
      intro heq
      have hself := inside.eq_of_volume pos.pos heq.le
      rw [hself] at elements
      exact ⟨best.source, cached, Set.inter_eq_left.mp elements.symm⟩
    case mpr =>
      rintro ⟨box, hbox, hsub⟩
      have ⟨key, hmem, hread⟩ := hbox
      have hbounded := hkeys key hmem _ hread
      have ⟨x, hx⟩ := elements_nonempty.mpr hb.pos
      cases hinter : b.isInteracted box with
      | none =>
        have hdisj := isInteracted_none hb.bounded hbounded hinter
        exact absurd (hsub hx) (Set.disjoint_left.mp hdisj hx)
      | some inter =>
        have ⟨helems, hin⟩ := isInteracted_some hb.bounded hbounded hinter
        rw [Set.inter_eq_left.mpr hsub] at helems
        have hle := largest box hbox inter hinter
        have hpos := elements_nonempty.mp (helems ▸ elements_nonempty.mpr hb.pos)
        have hcount := (points_subset hb.pos).mp helems.symm.subset
        rw [(hin.sized hb hpos).size, pos.size] at hle
        have hvol : volume b.count ≤ volume inter.count := volume_mono fun i => by
          have := hcount i
          have := hin i
          omega
        exact Nat.le_antisymm (hvol.trans hle) inside.volume_le

theorem decomposes_iff (hb : b.Bounded) (hsmall : volume b.count < 2 ^ 64)
    (hkeys : KeysBounded keys) (hmax : maxDepth < 2 ^ 64) :
    (∃ fuel boxes, getMaxInteractBox keys maxDepth fuel 0 b = .ok boxes ∧
      Decomposed b keys boxes.1 boxes.2) ↔ Decomposable b keys maxDepth := by
  have hreadable : ∀ {fuel boxes}, getMaxInteractBox keys maxDepth fuel 0 b = .ok boxes →
      ∀ key ∈ keys, ∃ box, readBox key = .ok box := by
    intro fuel boxes h
    cases fuel with
    | zero => exact absurd h (by simp [getMaxInteractBox])
    | succ fuel =>
      rw [getMaxInteractBox, if_neg (by omega)] at h
      obtain ⟨best, hbest, _⟩ := Outcome.bind_eq_ok.mp h
      exact readable_of_maxInteract hbest
  rcases Nat.eq_zero_or_pos n with rfl | hn
  case inl =>
    have hne : b.elements.Nonempty := ⟨Fin.elim0, fun i => i.elim0⟩
    constructor
    case mp =>
      rintro ⟨fuel, boxes, hok, hdec⟩
      have hread := hreadable hok
      have ⟨box, hbox⟩ := (decomposes_of_noDims hkeys hread).mp ⟨fuel, boxes, hok, hdec⟩
      exact ⟨hread, hne, fun _ => ⟨box, hbox⟩, .inr (.inr ⟨box, hbox, fun x _ i => i.elim0⟩)⟩
    case mpr =>
      intro h
      exact (decomposes_of_noDims hkeys h.readable).mpr (h.dims rfl)
  case inr =>
    constructor
    case mp =>
      rintro ⟨fuel, boxes, hok, hdec⟩
      have hread := hreadable hok
      have hne : b.elements.Nonempty := by
        by_contra hempty
        rw [elements_nonempty, ← volume_pos] at hempty
        have ⟨best, hbest, hsize⟩ := maxInteract_of_empty hkeys hb hread (by omega)
        cases fuel with
        | zero => exact absurd hok (by simp [getMaxInteractBox])
        | succ fuel =>
          rw [getMaxInteractBox, if_neg (by omega)] at hok
          simp only [hbest, Outcome.ok_bind, if_pos hsize] at hok
          have hboxes := Except.ok.inj hok
          subst hboxes
          have hself := (hdec.regular b (List.mem_singleton_self b)).left
          rw [elements_nonempty, ← volume_pos] at hself
          exact hempty hself
      have hsized : b.Sized := ⟨hb, elements_nonempty.mp hne, hsmall⟩
      refine ⟨hread, hne, fun h => absurd h hn.ne', ?_⟩
      by_contra hno
      rw [not_or, not_or] at hno
      have ⟨hzero, hmeets, hcovers⟩ := hno
      have hzero : maxDepth = 0 := Nat.eq_zero_of_not_pos hzero
      subst hzero
      have ⟨best, hbest, hspec⟩ := maxInteract_spec hb hkeys hread
      have hlooked := hspec.looked hn hsized hkeys
      have hfound : best.interact.size ≠ 0 := by
        intro hsize
        cases hlooked with
        | nothing _ apart => exact hmeets apart
        | found pos _ _ _ _ =>
          have := volume_pos.mpr pos.pos
          rw [pos.size] at hsize
          omega
      have hlt := mt (hlooked.covering_iff hsized hkeys hfound).mp hcovers
      have hboxes := getMaxInteractBox_of_found hbest hfound hlt hok
      subst hboxes
      refine hcovers ⟨best.source, (hdec.cached _ (List.mem_singleton_self _)).left, fun x hx => ?_⟩
      rcases hdec.covers x hx with ⟨r, hr, _⟩ | ⟨c, hc, hxc⟩
      · exact absurd hr List.not_mem_nil
      · exact List.mem_singleton.mp hc ▸ hxc
    case mpr =>
      intro h
      have hsized : b.Sized := ⟨hb, elements_nonempty.mp h.nonempty, hsmall⟩
      by_cases hdepth : 0 < maxDepth
      case pos =>
        have ⟨boxes, hok, hdec⟩ := getMaxInteractBox_spec hn hkeys h.readable hmax hdepth hsized
          (Nat.le_refl _)
        exact ⟨_, boxes, hok, hdec⟩
      case neg =>
        have hzero : maxDepth = 0 := Nat.eq_zero_of_not_pos hdepth
        have ⟨best, hbest, hspec⟩ := maxInteract_spec hb hkeys h.readable
        have hlooked := hspec.looked hn hsized hkeys
        by_cases hfound : best.interact.size = 0
        case pos =>
          refine ⟨1, ([b], []), ?_, decomposed_self h.nonempty⟩
          rw [getMaxInteractBox, if_neg (by omega)]
          simp [hbest, hfound]
        case neg =>
          have hcovers : b.size = best.interact.size := by
            rw [hlooked.covering_iff hsized hkeys hfound]
            rcases h.depth with h | h | h
            · exact absurd h hdepth
            · cases hlooked with
              | nothing size _ => exact absurd size hfound
              | found pos cached elements _ _ =>
                have hempty := Set.disjoint_iff_inter_eq_empty.mp (h best.source cached)
                rw [hempty] at elements
                exact absurd elements (elements_nonempty.mpr pos.pos).ne_empty
            · exact h
          have hok : getMaxInteractBox keys maxDepth 1 0 b = .ok ([], [best.source]) := by
            rw [getMaxInteractBox, if_neg (by omega)]
            simp only [hbest, Outcome.ok_bind, if_neg hfound, if_pos hcovers]
            rfl
          refine ⟨1, _, hok, ?_⟩
          cases hlooked with
          | nothing size _ => exact absurd size hfound
          | found pos cached elements inside _ =>
            rw [hsized.size, pos.size] at hcovers
            have hself := inside.eq_of_volume pos.pos hcovers.le
            have hout : CutOut best.interact b [] := ⟨List.Pairwise.nil, fun x => by simp [hself]⟩
            exact .of_pieces cached elements (elements_nonempty.mpr pos.pos) hout
              (fun p => ([p], [])) fun p hp => absurd hp List.not_mem_nil

end Search

-- A request comes out right just when it is decomposable, a box is cut out of one around it just when
-- it has elements or the one around it has none, and a key is read as the box that it was made of.
theorem queryBox (b : QueryBox n) :
    (∀ keys maxDepth, b.Bounded → volume b.count < 2 ^ 64 → KeysBounded keys → maxDepth < 2 ^ 64 →
      ((∃ fuel boxes, getMaxInteractBox keys maxDepth fuel 0 b = .ok boxes ∧
        Decomposed b keys boxes.1 boxes.2) ↔ Decomposable b keys maxDepth)) ∧
    (∀ big, Inside b big → big.Bounded → volume big.count < 2 ^ 64 →
      ((∃ fuel boxes, b.ndCut fuel big = .ok boxes ∧ CutOut b big boxes) ↔
        big.elements = ∅ ∨ b.elements.Nonempty)) ∧
    ∀ pre, Plain pre → 0 < n → n ≤ maxDims → b.Bounded → readBox (b.key pre) = .ok ⟨n, b⟩ :=
  ⟨fun _ _ => decomposes_iff, fun _ => exists_ndCut_iff, fun _ => readBox_key⟩

-- Ten elements, of which some are in the cache.
def ten : QueryBox 1 where
  start := fun _ => 0
  count := fun _ => 10

def three : QueryBox 1 where
  start := fun _ => 4
  count := fun _ => 3

def threeKey : List Byte := three.key (ascii "a|x")

theorem cached_threeKey {box : QueryBox 1} : Cached [threeKey] box ↔ box = three := by
  have hread : readBox (three.key (ascii "a|x")) = .ok ⟨1, three⟩ :=
    readBox_key (by decide) (by decide) (by decide) (by decide)
  constructor
  case mp =>
    rintro ⟨key, hmem, hkey⟩
    rw [List.mem_singleton.mp hmem, threeKey, hread] at hkey
    exact (eq_of_heq (Sigma.mk.inj (Except.ok.inj hkey)).right).symm
  case mpr =>
    rintro rfl
    exact ⟨threeKey, List.mem_singleton_self _, hread⟩

theorem keysBounded_threeKey : KeysBounded [threeKey] := by
  intro key hmem box hbox
  rw [List.mem_singleton.mp hmem, threeKey, readBox_key (by decide) (by decide) (by decide)
    (by decide)] at hbox
  rw [← Except.ok.inj hbox]
  decide

theorem queryBox_ten :
    (∃ fuel boxes, getMaxInteractBox [threeKey] 1 fuel 0 ten = .ok boxes ∧
      Decomposed ten [threeKey] boxes.1 boxes.2) ∧
    (∃ fuel boxes, three.ndCut fuel ten = .ok boxes ∧ CutOut three ten boxes) ∧
    readBox threeKey = .ok ⟨1, three⟩ := by
  have hthree : readBox threeKey = .ok ⟨1, three⟩ :=
    (queryBox three).right.right (ascii "a|x") (by decide) (by decide) (by decide) (by decide)
  refine ⟨((queryBox ten).left [threeKey] 1 (by decide) (by decide) keysBounded_threeKey
    (by decide)).mpr ⟨?_, ?_, fun h => absurd h (by decide), .inl (by decide)⟩,
    ((queryBox three).right.left ten (by decide) (by decide) (by decide)).mpr (.inr ?_), hthree⟩
  · intro key hmem
    rw [List.mem_singleton.mp hmem]
    exact ⟨_, hthree⟩
  · exact elements_nonempty.mpr (by decide)
  · exact elements_nonempty.mpr (by decide)

-- With a maximum depth of zero, what is not in the cache is not read at all.
theorem not_decomposed_ten : ¬∃ fuel boxes,
    getMaxInteractBox [threeKey] 0 fuel 0 ten = .ok boxes ∧
      Decomposed ten [threeKey] boxes.1 boxes.2 := by
  rw [decomposes_iff (by decide) (by decide) keysBounded_threeKey (by decide)]
  intro h
  rcases h.depth with h | h | ⟨box, hbox, hsub⟩
  · exact absurd h (by decide)
  · have hdisj := h three (cached_threeKey.mpr rfl)
    have hten : (fun _ => 4) ∈ ten.elements := fun i => by simp [ten]
    have hthree : (fun _ => 4) ∈ three.elements := fun i => by simp [three]
    exact Set.disjoint_left.mp hdisj hten hthree
  · rw [cached_threeKey.mp hbox] at hsub
    have h := hsub (a := fun _ => 0) (fun i => by simp [ten]) 0
    simp [three] at h

end QueryBox

end KVCache
