import Mathlib

-- Facts about lists that several developments need.

namespace List

variable {α β : Type*}

-- `mapM` in `Option` has the value that the single calls have.
theorem mapM_eq_some_iff_forall₂ {f : α → Option β} {l : List α} {l' : List β} :
    l.mapM f = some l' ↔ Forall₂ (fun a b => f a = some b) l l' := by
  constructor
  · intro h
    induction l generalizing l' with
    | nil =>
      cases h
      exact .nil
    | cons a l ih =>
      simp only [mapM_cons, Option.bind_eq_bind, Option.bind_eq_some_iff, pure,
        Option.some.injEq] at h
      obtain ⟨b, hb, l', hl', rfl⟩ := h
      exact .cons hb (ih hl')
  · intro h
    induction h with
    | nil => rfl
    | cons ha _ ih => simp [mapM_cons, ha, ih]

theorem mapM_range_eq_some {f : Nat → Option β} {l : List β} {n : Nat} (hn : n = l.length)
    (h : ∀ i b, l[i]? = some b → f i = some b) : (range n).mapM f = some l := by
  rw [mapM_eq_some_iff_forall₂, forall₂_iff_get]
  refine ⟨by simp [hn], fun i _ hi => ?_⟩
  simpa using h i _ (getElem?_eq_getElem hi)

theorem getElem?_of_mapM_range {f : Nat → Option β} {l : List β} {n i : Nat}
    (h : (range n).mapM f = some l) (hi : i < n) : f i = l[i]? := by
  have hall := mapM_eq_some_iff_forall₂.mp h
  have hlen : n = l.length := by simpa using hall.length_eq
  have := hall.get (i := i) (by simpa using hi) (hlen ▸ hi)
  simpa [getElem?_eq_getElem (hlen ▸ hi)] using this

-- A fold in which each step appends to one part of the state.
theorem foldl_eq_append_flatMap {γ : Type*} {f : β → List γ} {g : α → List γ} {step : β → α → β}
    (h : ∀ b a, f (step b a) = f b ++ g a) (l : List α) (b : β) :
    f (l.foldl step b) = f b ++ l.flatMap g := by
  induction l generalizing b with
  | nil => simp
  | cons a l ih => rw [foldl_cons, ih, h, flatMap_cons, append_assoc]

-- A loop over positions is one over the elements.
theorem flatMap_range_eq_zip {γ : Type*} {l : List α} {l' : List β} (hlen : l.length = l'.length)
    {f : Nat → List γ} {g : α × β → List γ}
    (h : ∀ i a b, l[i]? = some a → l'[i]? = some b → f i = g (a, b)) :
    (range l.length).flatMap f = (l.zip l').flatMap g := by
  have hmap : (range l.length).map f = (l.zip l').map g := by
    apply ext_getElem
    · simp [hlen]
    · intro i hi hi'
      simp only [length_map, length_range, length_zip, Nat.lt_min] at hi hi'
      simpa using h i _ _ (getElem?_eq_getElem hi) (getElem?_eq_getElem hi'.2)
  rw [flatMap_def, hmap, ← flatMap_def]

-- A list of pairs that is stored as a list of numbers.
theorem getElem?_flatMap_pair (f g : α → β) (l : List α) (i : Nat) :
    (l.flatMap fun a => [f a, g a])[2 * i]? = l[i]?.map f ∧
    (l.flatMap fun a => [f a, g a])[2 * i + 1]? = l[i]?.map g := by
  induction l generalizing i with
  | nil => simp
  | cons a l ih =>
    cases i with
    | zero => simp
    | succ i => simpa [Nat.mul_add] using ih i

theorem map_modify_of_eq {g : α → β} {f : α → α} (h : ∀ a, g (f a) = g a) (l : List α) (r : Nat) :
    (l.modify r f).map g = l.map g := by
  refine ext_getElem? fun k => ?_
  rw [getElem?_map, getElem?_map, getElem?_modify]
  by_cases hk : r = k <;> cases l[k]? <;> simp [hk, h]

theorem sum_map_modify (g : α → Nat) (f : α → α) {l : List α} {r : Nat}
    (hr : r < l.length) : ((l.modify r f).map g).sum + g l[r] = (l.map g).sum + g (f l[r]) := by
  induction l generalizing r with
  | nil => simp at hr
  | cons a l ih =>
    cases r with
    | zero =>
      simp
      omega
    | succ r =>
      have := ih (Nat.lt_of_succ_lt_succ hr)
      simp only [modify_succ_cons, map_cons, sum_cons, getElem_cons_succ]
      omega

-- A list is cut into parts of the same length.
theorem flatMap_range_take_drop (n : Nat) (l : List α) (k : Nat) :
    ((range k).flatMap fun i => (l.drop (n * i)).take n) = l.take (n * k) := by
  induction k with
  | zero => simp
  | succ k ih =>
    rw [range_succ, flatMap_append, ih, Nat.mul_succ, take_add]
    simp

-- The parts of `c` elements that come together behind those of a part that has begun.
def batches (c : Nat) : List α → List α → List (List α)
  | _, []          => []
  | begun, a :: as =>
    if c ≤ begun.length + 1 then (begun ++ [a]) :: batches c [] as else batches c (begun ++ [a]) as

section Batches

variable {c : Nat} {l as : List α}

theorem batches_length (hl : l.length < c) (hdvd : c ∣ l.length + as.length) :
    c * (batches c l as).length = l.length + as.length := by
  induction as generalizing l with
  | nil =>
    have : l.length = 0 := Nat.eq_zero_of_dvd_of_lt hdvd hl
    simp [batches, this]
  | cons a as ih =>
    rw [length_cons] at hdvd ⊢
    rw [batches]
    split
    case isTrue hc =>
      have hlen : l.length + 1 = c := by omega
      have hrest : c ∣ as.length := by
        have hsum : l.length + (as.length + 1) = c + as.length := by omega
        exact (Nat.dvd_add_right (dvd_refl c)).mp (hsum ▸ hdvd)
      have := ih (l := []) (by simp; omega) (by simpa using hrest)
      simp only [length_cons, length_nil, Nat.mul_succ] at this ⊢
      omega
    case isFalse =>
      have := ih (l := l ++ [a]) (by simp; omega) (by
        simp only [length_append, length_singleton]
        convert hdvd using 1
        omega)
      simp only [length_append, length_singleton] at this
      omega

theorem batches_flatten (hl : l.length < c) (hdvd : c ∣ l.length + as.length) :
    (batches c l as).flatten = l ++ as := by
  induction as generalizing l with
  | nil =>
    have : l.length = 0 := Nat.eq_zero_of_dvd_of_lt hdvd hl
    simp [batches, length_eq_zero_iff.mp this]
  | cons a as ih =>
    rw [length_cons] at hdvd
    rw [batches]
    split
    case isTrue hc =>
      have hrest : c ∣ as.length := by
        have hsum : l.length + (as.length + 1) = c + as.length := by omega
        exact (Nat.dvd_add_right (dvd_refl c)).mp (hsum ▸ hdvd)
      rw [flatten_cons, ih (by simp; omega) (by simpa using hrest)]
      simp
    case isFalse =>
      rw [ih (by simp; omega) (by
        simp only [length_append, length_singleton]
        convert hdvd using 1
        omega)]
      simp

end Batches

theorem IsPrefix.concat {l l' : List α} {a : α} (h : l <+: l') (ha : l'[l.length]? = some a) :
    l ++ [a] <+: l' := by
  obtain ⟨t, rfl⟩ := h
  rw [getElem?_append_right le_rfl, Nat.sub_self] at ha
  cases t with
  | nil => simp at ha
  | cons b t =>
    obtain rfl := Option.some.inj ha
    exact ⟨t, by simp⟩

theorem subset_ite_append {c : Prop} [Decidable c] {l l' : List α} :
    l ⊆ if c then l ++ l' else l := by
  split
  · exact subset_append_left l l'
  · exact Subset.refl l

theorem find?_map_of_eq {p : α → Bool} {f : α → α} {l : List α}
    (h : ∀ a, p (f a) = p a) : (l.map f).find? p = (l.find? p).map f := by
  rw [find?_map]
  congr 2
  funext a
  exact h a

theorem findIdx?_congr {p q : α → Bool} {l : List α} (h : ∀ a ∈ l, p a = q a) :
    l.findIdx? p = l.findIdx? q := by
  induction l with
  | nil => rfl
  | cons a l ih =>
    rw [findIdx?_cons, findIdx?_cons, h a mem_cons_self,
      ih fun b hb => h b (mem_cons_of_mem _ hb)]

-- The item that a position falls into when each has a number of positions.
theorem exists_split_of_lt_sum (f : α → Nat) {l : List α} {n : Nat} (h : n < (l.map f).sum) :
    ∃ front a back k, l = front ++ a :: back ∧ n = (front.map f).sum + k ∧ k < f a := by
  induction l generalizing n with
  | nil => simp at h
  | cons a l ih =>
    by_cases hn : n < f a
    case pos => exact ⟨[], a, l, n, rfl, by simp, hn⟩
    case neg =>
      rw [map_cons, sum_cons] at h
      have ⟨front, b, back, k, hl, hk, hlt⟩ := ih (n := n - f a) (by omega)
      refine ⟨a :: front, b, back, k, by rw [hl, cons_append], ?_, hlt⟩
      rw [map_cons, sum_cons]
      omega

theorem length_flatMap_eq_sum {g : α → List β} {f : α → Nat} (hlen : ∀ a, (g a).length = f a)
    (l : List α) : (l.flatMap g).length = (l.map f).sum := by
  rw [length_flatMap, funext hlen]

theorem getElem?_flatMap_split {g : α → List β} {f : α → Nat} (hlen : ∀ a, (g a).length = f a)
    (front back : List α) {a : α} {k : Nat} (hk : k < f a) :
    ((front ++ a :: back).flatMap g)[(front.map f).sum + k]? = (g a)[k]? := by
  have hfront := length_flatMap_eq_sum hlen front
  rw [flatMap_append, flatMap_cons, getElem?_append_right (by omega), hfront, Nat.add_sub_cancel_left,
    getElem?_append_left (by rwa [hlen])]

theorem nodup_set {l : List α} (h : l.Nodup) {i : Nat} {a : α}
    (ha : ∀ k, k ≠ i → l[k]? ≠ some a) : (l.set i a).Nodup := by
  rw [nodup_iff_getElem?_ne_getElem?] at h ⊢
  intro j k hjk hk
  rw [length_set] at hk
  by_cases hj : j = i
  case pos =>
    subst hj
    rw [getElem?_set_self (hjk.trans hk), getElem?_set_ne (by omega)]
    exact (ha k (by omega)).symm
  case neg =>
    rw [getElem?_set_ne (Ne.symm hj)]
    by_cases hki : k = i
    case pos =>
      subst hki
      rw [getElem?_set_self hk]
      exact ha j hj
    case neg =>
      rw [getElem?_set_ne (Ne.symm hki)]
      exact h j k hjk hk

-- One part of what the numbers up to a bound give.
theorem exists_flatMap_range_of_lt {β : Type*} (f : Nat → List β) {b n : Nat} (h : b < n) :
    ∃ rest, (range n).flatMap f = (range b).flatMap f ++ (f b ++ rest) := by
  obtain ⟨k, rfl⟩ := Nat.exists_eq_add_of_lt h
  refine ⟨((range k).map (b + 1 + ·)).flatMap f, ?_⟩
  rw [Nat.add_right_comm, range_add, flatMap_append, range_succ, flatMap_append, flatMap_singleton,
    append_assoc]

-- A product that is cut after each factor.
theorem foldl_mul_mod (l : List Nat) (n m : Nat) :
    l.foldl (fun n c => n * c % m) n % m = n * l.prod % m := by
  induction l generalizing n with
  | nil => simp
  | cons c l ih => rw [foldl_cons, ih, prod_cons, ← Nat.mul_assoc, Nat.mod_mul_mod]

end List
