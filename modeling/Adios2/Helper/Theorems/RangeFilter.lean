import Mathlib
import Adios2.Helper.RangeFilter

-- A filter selects what one of its rules selects. It is made of every text, except where a rule with
-- a stride of zero is expanded.

namespace Helper

open Bytes CString

namespace Rule

variable (r : Rule)

def Unlimited : Prop := r.last = maxSizeT

instance : Decidable r.Unlimited := inferInstanceAs (Decidable (r.last = maxSizeT))

def Selects (k : Nat) : Prop := r.start ≤ k ∧ (r.Unlimited ∨ k ≤ r.last) ∧ r.steps ∣ k - r.start

instance (k : Nat) : Decidable (r.Selects k) := by
  unfold Selects
  infer_instance

-- The numbers are those of a `long`.
structure Fits : Prop where
  start : r.start < 2 ^ 63
  last  : r.Unlimited ∨ r.last < 2 ^ 63
  steps : r.steps < 2 ^ 63

-- The loop for the rule makes no progress.
def Stalls : Prop := r.steps = 0 ∧ r.start ≤ r.last ∧ ¬ r.Unlimited

end Rule

namespace RangeFilter

section ParseRule

theorem toSizeT_eq_ok {input : List Byte} {n : Nat} (h : toSizeT input = .ok n) : n < 2 ^ 63 := by
  unfold toSizeT at h
  split at h
  case h_1 => nomatch h
  case h_2 value rest hscan =>
    have hrange := (Option.filter_eq_some_iff.mp hscan).2
    simp only [decide_eq_true_eq] at hrange
    split at h
    case isTrue => nomatch h
    case isFalse hneg =>
      split at h
      case isTrue => nomatch h
      case isFalse =>
        cases h
        omega

theorem toSizeT_ne_outOfFuel (input : List Byte) : toSizeT input ≠ .error .outOfFuel := by
  intro h
  unfold toSizeT at h
  split at h
  case h_1 => nomatch h
  case h_2 =>
    split at h
    case isTrue => nomatch h
    case isFalse =>
      split at h
      case isTrue => nomatch h
      case isFalse => nomatch h

theorem parseEnd_eq_ok {n m : Nat} {last : List Byte} (hn : n < 2 ^ 63)
    (h : parseEnd n last = .ok m) : m = maxSizeT ∨ m < 2 ^ 63 := by
  unfold parseEnd at h
  split at h
  case isTrue =>
    cases h
    exact .inr hn
  case isFalse =>
    split at h
    case isTrue =>
      cases h
      exact .inl rfl
    case isFalse => exact .inr (toSizeT_eq_ok h)

theorem parseSteps_eq_ok {s : Nat} {steps : List Byte} (h : parseSteps steps = .ok s) :
    s < 2 ^ 63 := by
  unfold parseSteps at h
  split at h
  case isTrue =>
    cases h
    decide
  case isFalse => exact toSizeT_eq_ok h

theorem parseRule_fits {item : List Byte} {r : Rule} (h : parseRule item = .ok r) : r.Fits := by
  unfold parseRule at h
  obtain ⟨n, hn, h⟩ := Outcome.bind_eq_ok.mp h
  obtain ⟨m, hm, h⟩ := Outcome.bind_eq_ok.mp h
  obtain ⟨s, hs, h⟩ := Outcome.bind_eq_ok.mp h
  cases h
  have hstart := toSizeT_eq_ok hn
  exact ⟨hstart, parseEnd_eq_ok hstart hm, parseSteps_eq_ok hs⟩

theorem parseEnd_ne_outOfFuel (n : Nat) (last : List Byte) : parseEnd n last ≠ .error .outOfFuel := by
  unfold parseEnd
  split
  case isTrue => exact fun h => nomatch h
  case isFalse =>
    split
    case isTrue => exact fun h => nomatch h
    case isFalse => exact toSizeT_ne_outOfFuel last

theorem parseSteps_ne_outOfFuel (steps : List Byte) : parseSteps steps ≠ .error .outOfFuel := by
  unfold parseSteps
  split
  case isTrue => exact fun h => nomatch h
  case isFalse => exact toSizeT_ne_outOfFuel steps

theorem bind_ne_outOfFuel {α β} {x : Outcome α} {f : α → Outcome β} (hx : x ≠ .error .outOfFuel)
    (hf : ∀ a, f a ≠ .error .outOfFuel) : x >>= f ≠ .error .outOfFuel := by
  cases x with
  | error e => exact fun h => hx (congrArg Except.error (Except.error.inj h))
  | ok a    => exact hf a

theorem parseRule_ne_outOfFuel (item : List Byte) : parseRule item ≠ .error .outOfFuel :=
  bind_ne_outOfFuel (toSizeT_ne_outOfFuel _) fun _ =>
    bind_ne_outOfFuel (parseEnd_ne_outOfFuel _ _) fun _ =>
      bind_ne_outOfFuel (parseSteps_ne_outOfFuel _) fun _ h => nomatch h

end ParseRule

section Mark

variable {steps stop fuel i : Nat} {selection : List Bool}

theorem mark_of_le (h : stop ≤ i) : mark steps stop (fuel + 1) i selection = .ok selection := by
  rw [mark, if_neg (by omega)]
  rfl

theorem mark_zero (hi : i < stop) (hstop : stop ≤ selection.length) (hlt : i < 2 ^ 64) (fuel : Nat) :
    mark 0 stop fuel i selection = .error .outOfFuel := by
  induction fuel generalizing selection with
  | zero => rfl
  | succ fuel ih =>
    have hsame : (i + 0) % 2 ^ 64 = i := Nat.mod_eq_of_lt hlt
    rw [mark, if_pos hi, if_pos (by omega), hsame]
    exact ih (by rwa [List.length_set])

theorem getD_set_true {k : Nat} (hi : i < selection.length) :
    (selection.set i true).getD k false = true ↔ selection.getD k false = true ∨ k = i := by
  rw [List.getD_eq_getElem?_getD, List.getElem?_set]
  by_cases hk : i = k
  case pos => simp [hk, hk ▸ hi]
  case neg => simp [hk, Ne.symm hk]

-- The first place, and those behind it.
theorem multiple_iff {k : Nat} (hi : i < stop) (hsteps : 0 < steps) :
    (i ≤ k ∧ k < stop ∧ steps ∣ k - i) ↔
      k = i ∨ (i + steps ≤ k ∧ k < stop ∧ steps ∣ k - (i + steps)) := by
  constructor
  · rintro ⟨hle, hlt, hdvd⟩
    by_cases hk : k = i
    · exact .inl hk
    · have hge := Nat.le_of_dvd (by omega) hdvd
      refine .inr ⟨by omega, hlt, ?_⟩
      rw [Nat.sub_add_eq]
      exact Nat.dvd_sub hdvd (Nat.dvd_refl steps)
  · rintro (rfl | ⟨hle, hlt, hdvd⟩)
    · exact ⟨le_rfl, hi, by simp⟩
    · refine ⟨by omega, hlt, ?_⟩
      have hsub : k - i = k - (i + steps) + steps := by omega
      rw [hsub]
      exact Nat.dvd_add hdvd (Nat.dvd_refl steps)

-- What the loop for a stride that is not zero leaves.
structure Marked (steps stop i : Nat) (selection selection' : List Bool) : Prop where
  length : selection'.length = selection.length
  bit    : ∀ k, selection'.getD k false = true ↔
    selection.getD k false = true ∨ (i ≤ k ∧ k < stop ∧ steps ∣ k - i)

theorem mark_spec (hsteps : 0 < steps) (hlt : steps < 2 ^ 63) (hstop : stop ≤ selection.length)
    (hsize : selection.length ≤ 2 ^ 63) (hfuel : stop - i < fuel) :
    ∃ selection', mark steps stop fuel i selection = .ok selection' ∧
      Marked steps stop i selection selection' := by
  induction fuel generalizing i selection with
  | zero => omega
  | succ fuel ih =>
    by_cases hi : i < stop
    case neg =>
      refine ⟨selection, mark_of_le (by omega), rfl, fun k => ?_⟩
      constructor
      · exact .inl
      · rintro (h | h)
        · exact h
        · omega
    case pos =>
      have hnext : (i + steps) % 2 ^ 64 = i + steps := Nat.mod_eq_of_lt (by omega)
      have ⟨selection', hmark, hlen, hbit⟩ := @ih (i + steps) (selection.set i true)
        (by rwa [List.length_set]) (by rwa [List.length_set]) (by omega)
      refine ⟨selection', ?_, hlen.trans List.length_set, fun k => ?_⟩
      · rw [mark, if_pos hi, if_pos (by omega), hnext, hmark]
      · rw [hbit, getD_set_true (by omega), multiple_iff hi hsteps, or_assoc]

end Mark

section AddRule

variable {selection : List Bool} {n fuel : Nat} {r : Rule} {rules : List Rule}
  {filter : RangeFilter}

theorem grow_length (selection : List Bool) (n : Nat) :
    (grow selection n).length = max selection.length n := by
  unfold grow
  split <;> simp <;> omega

theorem grow_getD (selection : List Bool) (n k : Nat) :
    (grow selection n).getD k false = selection.getD k false := by
  unfold grow
  split
  case isFalse => rfl
  case isTrue =>
    simp only [List.getD_eq_getElem?_getD, List.getElem?_append, List.getElem?_replicate]
    split
    case isTrue => rfl
    case isFalse hk =>
      rw [List.getElem?_eq_none (by omega)]
      split <;> rfl

theorem lt_of_getD {k : Nat} (h : selection.getD k false = true) : k < selection.length := by
  by_contra hk
  rw [List.getD_eq_getElem?_getD, List.getElem?_eq_none (by omega)] at h
  contradiction

theorem unlimited_iff (h : r.Fits) : ¬ r.last < maxSizeT ↔ r.Unlimited := by
  have hmax : maxSizeT = 2 ^ 64 - 1 := rfl
  rcases h.last with hlast | hlast
  case inl =>
    have heq : r.last = maxSizeT := hlast
    exact ⟨fun _ => hlast, fun _ => by omega⟩
  case inr =>
    refine ⟨fun hge => by omega, fun hunlimited => ?_⟩
    have heq : r.last = maxSizeT := hunlimited
    omega

-- The filter as the rules so far have made it. Those without an end are not spread yet.
structure Made (rules : List Rule) (filter : RangeFilter) : Prop where
  unlimited : filter.unlimitedRules
    = (rules.filter (·.Unlimited)).map fun r => (r.start, r.steps)
  size      : filter.selection.length ≤ 2 ^ 63
  ends      : ∀ r ∈ rules, ¬ r.Unlimited → r.last < filter.selection.length
  starts    : ∀ r ∈ rules, r.Unlimited → r.start < filter.selection.length
  sound     : ∀ k, filter.selection.getD k false = true → ∃ r ∈ rules, r.Selects k
  complete  : ∀ r ∈ rules, ¬ r.Unlimited → ∀ k, r.Selects k →
    filter.selection.getD k false = true

theorem made_nil : Made [] {} where
  unlimited := rfl
  size      := Nat.zero_le _
  ends      := fun _ hr => nomatch hr
  starts    := fun _ hr => nomatch hr
  sound     := fun _ h => nomatch h
  complete  := fun _ hr => nomatch hr

theorem mark_rule (hfits : r.Fits) (hlimited : ¬ r.Unlimited) (hstalls : ¬ r.Stalls)
    (hfuel : 2 ^ 63 < fuel) (hlast : r.last < selection.length)
    (hsize : selection.length ≤ 2 ^ 63) :
    ∃ selection', mark r.steps (r.last + 1) fuel r.start selection = .ok selection' ∧
      selection'.length = selection.length ∧
      ∀ k, selection'.getD k false = true ↔ selection.getD k false = true ∨ r.Selects k := by
  have hselects (k : Nat) :
      r.Selects k ↔ r.start ≤ k ∧ k < r.last + 1 ∧ r.steps ∣ k - r.start := by
    simp only [Rule.Selects, hlimited, false_or, Nat.lt_succ_iff]
  by_cases hsteps : 0 < r.steps
  case pos =>
    have ⟨selection', hmark, hlen, hbit⟩ := @mark_spec r.steps (r.last + 1) fuel r.start selection
      hsteps hfits.steps hlast hsize (by omega)
    exact ⟨selection', hmark, hlen, fun k => by rw [hbit, hselects]⟩
  case neg =>
    have hbehind : r.last < r.start := by
      by_contra hle
      exact hstalls ⟨by omega, by omega, hlimited⟩
    obtain ⟨fuel, rfl⟩ := Nat.exists_eq_add_of_lt (Nat.zero_lt_of_lt hfuel)
    refine ⟨selection, mark_of_le (by omega), rfl, fun k => ?_⟩
    rw [hselects]
    constructor
    · exact .inl
    · rintro (hk | hk)
      · exact hk
      · omega

theorem addRule_stalls (hfits : r.Fits) (hstalls : r.Stalls) :
    addRule fuel filter r = .error .outOfFuel := by
  have ⟨hsteps, hle, hlimited⟩ := hstalls
  have hlt : r.last < maxSizeT := by
    by_contra hge
    exact hlimited ((unlimited_iff hfits).mp hge)
  have hstart := hfits.start
  rw [addRule, if_pos hlt, hsteps, mark_zero (by omega) (by rw [grow_length]; omega) (by omega),
    Outcome.error_bind]

-- What is to be shown of the filter that another rule gives.
theorem Made.concat (h : Made rules filter) {filter' : RangeFilter}
    (hunlimited : filter'.unlimitedRules = filter.unlimitedRules
      ++ if r.Unlimited then [(r.start, r.steps)] else [])
    (hsize : filter'.selection.length ≤ 2 ^ 63)
    (hlen : filter.selection.length ≤ filter'.selection.length)
    (hend : ¬ r.Unlimited → r.last < filter'.selection.length)
    (hstart : r.Unlimited → r.start < filter'.selection.length)
    (hsound : ∀ k, filter'.selection.getD k false = true →
      filter.selection.getD k false = true ∨ r.Selects k)
    (hcomplete : ∀ k, filter.selection.getD k false = true ∨ (¬ r.Unlimited ∧ r.Selects k) →
      filter'.selection.getD k false = true) : Made (rules ++ [r]) filter' := by
  constructor
  case unlimited =>
    rw [hunlimited, h.unlimited, List.filter_append, List.map_append, List.filter_singleton]
    split <;> simp [*]
  case size => exact hsize
  case ends =>
    intro r' hr' hlimited
    rcases List.mem_append.mp hr' with hr' | hr'
    case inl => exact (h.ends r' hr' hlimited).trans_le hlen
    case inr =>
      obtain rfl := List.mem_singleton.mp hr'
      exact hend hlimited
  case starts =>
    intro r' hr' hunlimited'
    rcases List.mem_append.mp hr' with hr' | hr'
    case inl => exact (h.starts r' hr' hunlimited').trans_le hlen
    case inr =>
      obtain rfl := List.mem_singleton.mp hr'
      exact hstart hunlimited'
  case sound =>
    intro k hk
    rcases hsound k hk with hk | hk
    case inl =>
      have ⟨r', hr', hselects⟩ := h.sound k hk
      exact ⟨r', List.mem_append_left _ hr', hselects⟩
    case inr => exact ⟨r, List.mem_append_right _ List.mem_cons_self, hk⟩
  case complete =>
    intro r' hr' hlimited k hk
    apply hcomplete k
    rcases List.mem_append.mp hr' with hr' | hr'
    case inl => exact .inl (h.complete r' hr' hlimited k hk)
    case inr =>
      obtain rfl := List.mem_singleton.mp hr'
      exact .inr ⟨hlimited, hk⟩

theorem Made.addRule (h : Made rules filter) (hfits : r.Fits) (hstalls : ¬ r.Stalls)
    (hfuel : 2 ^ 63 < fuel) :
    ∃ filter', addRule fuel filter r = .ok filter' ∧ Made (rules ++ [r]) filter' := by
  have hsize := h.size
  have hstart := hfits.start
  by_cases hunlimited : r.Unlimited
  case neg =>
    have hlt : r.last < maxSizeT := by
      by_contra hge
      exact hunlimited ((unlimited_iff hfits).mp hge)
    have hlast := hfits.last.resolve_left hunlimited
    have ⟨selection', hmark, hlen, hbit⟩ := @mark_rule (grow filter.selection (r.last + 1)) fuel r
      hfits hunlimited hstalls hfuel (by rw [grow_length]; omega) (by rw [grow_length]; omega)
    rw [grow_length] at hlen
    simp only [grow_getD] at hbit
    refine ⟨{ filter with selection := selection' }, ?_, h.concat ?_ ?_ ?_ ?_ ?_ ?_ ?_⟩
    · rw [RangeFilter.addRule, if_pos hlt, hmark, Outcome.ok_bind]
      rfl
    · rw [if_neg hunlimited, List.append_nil]
    · dsimp only
      omega
    · dsimp only
      omega
    · dsimp only
      omega
    · exact fun hcontra => absurd hcontra hunlimited
    · exact fun k hk => (hbit k).mp hk
    · exact fun k hk => (hbit k).mpr (hk.imp_right And.right)
  case pos =>
    have hlt := (unlimited_iff hfits).mpr hunlimited
    have hbit (k : Nat) := @getD_set_true r.start (grow filter.selection (r.start + 1)) k (by
      rw [grow_length]
      omega)
    simp only [grow_getD] at hbit
    have hlen : ((grow filter.selection (r.start + 1)).set r.start true).length
        = max filter.selection.length (r.start + 1) := by
      rw [List.length_set, grow_length]
    refine ⟨{
      selection      := (grow filter.selection (r.start + 1)).set r.start true
      unlimitedRules := filter.unlimitedRules ++ [(r.start, r.steps)] }, ?_,
      h.concat ?_ ?_ ?_ ?_ ?_ ?_ ?_⟩
    · rw [RangeFilter.addRule, if_neg hlt]
      rfl
    · rw [if_pos hunlimited]
    · dsimp only
      omega
    · dsimp only
      omega
    · exact fun hcontra => absurd hunlimited hcontra
    · dsimp only
      omega
    · intro k hk
      rcases (hbit k).mp hk with hk | rfl
      · exact .inl hk
      · exact .inr ⟨le_rfl, .inl hunlimited, by simp⟩
    · rintro k (hk | ⟨hcontra, _⟩)
      · exact (hbit k).mpr (.inl hk)
      · exact absurd hunlimited hcontra

end AddRule

section AddItems

variable {items : List (List Byte)} {item : List Byte} {fuel : Nat} {rules : List Rule}
  {filter : RangeFilter}

-- The rules in front of the first item that is none.
def accepted : List (List Byte) → List Rule
  | []            => []
  | item :: items =>
    match parseRule item with
    | .ok r    => r :: accepted items
    | .error _ => []

theorem accepted_eq (h : items.mapM parseRule = .ok rules) : accepted items = rules := by
  induction items generalizing rules with
  | nil =>
    cases h
    rfl
  | cons item items ih =>
    rw [List.mapM_cons] at h
    have ⟨r, hr, h⟩ := Outcome.bind_eq_ok.mp h
    have ⟨rs, hrs, h⟩ := Outcome.bind_eq_ok.mp h
    cases h
    simp only [accepted, hr, ih hrs]

theorem fits_of_mapM (h : items.mapM parseRule = .ok rules) : ∀ r ∈ rules, r.Fits := by
  intro r hr
  have ⟨_, _, hok⟩ := Outcome.exists_of_mem_mapM h hr
  exact parseRule_fits hok

theorem addItems_stalls (h : ∃ r ∈ accepted items, r.Stalls) (hfuel : 2 ^ 63 < fuel)
    (hfilter : Made rules filter) : items.foldlM (addItem fuel) filter = .error .outOfFuel := by
  induction items generalizing rules filter with
  | nil => exact absurd h (by simp [accepted])
  | cons item items ih =>
    cases hparse : parseRule item with
    | error e => simp [accepted, hparse] at h
    | ok r =>
      simp only [accepted, hparse, List.exists_mem_cons_iff] at h
      have hfits := parseRule_fits hparse
      rw [List.foldlM_cons, addItem, hparse, Outcome.ok_bind]
      by_cases hstalls : r.Stalls
      case pos => rw [addRule_stalls hfits hstalls, Outcome.error_bind]
      case neg =>
        have ⟨filter', hadd, hmade⟩ := hfilter.addRule hfits hstalls hfuel
        rw [hadd, Outcome.ok_bind]
        exact ih (h.resolve_left hstalls) hmade

theorem addItems_ok (h : ¬∃ r ∈ accepted items, r.Stalls) (hfuel : 2 ^ 63 < fuel)
    (hfilter : Made rules filter) {more : List Rule} (hparse : items.mapM parseRule = .ok more) :
    ∃ filter', items.foldlM (addItem fuel) filter = .ok filter' ∧ Made (rules ++ more) filter' := by
  induction items generalizing rules filter more with
  | nil =>
    cases hparse
    exact ⟨filter, rfl, by simpa using hfilter⟩
  | cons item items ih =>
    rw [List.mapM_cons] at hparse
    have ⟨r, hr, hparse⟩ := Outcome.bind_eq_ok.mp hparse
    have ⟨rs, hrs, hparse⟩ := Outcome.bind_eq_ok.mp hparse
    cases hparse
    simp only [accepted, hr, List.exists_mem_cons_iff, not_or] at h
    have ⟨filter', hadd, hmade⟩ := hfilter.addRule (parseRule_fits hr) h.1 hfuel
    have ⟨filter'', hrest, hmade'⟩ := ih h.2 hmade hrs
    refine ⟨filter'', ?_, ?_⟩
    · rw [List.foldlM_cons, addItem, hr, Outcome.ok_bind, hadd, Outcome.ok_bind, hrest]
    · rwa [List.append_assoc] at hmade'

theorem addItems_error (h : ¬∃ r ∈ accepted items, r.Stalls) (hfuel : 2 ^ 63 < fuel)
    (hfilter : Made rules filter) {fault : Fault} (hparse : items.mapM parseRule = .error fault) :
    items.foldlM (addItem fuel) filter = .error fault := by
  induction items generalizing rules filter with
  | nil => nomatch hparse
  | cons item items ih =>
    rw [List.mapM_cons] at hparse
    rw [List.foldlM_cons, addItem]
    cases hr : parseRule item with
    | error e =>
      rw [hr] at hparse
      cases hparse
      rfl
    | ok r =>
      simp only [accepted, hr, List.exists_mem_cons_iff, not_or] at h
      have ⟨filter', hadd, hmade⟩ := hfilter.addRule (parseRule_fits hr) h.1 hfuel
      rw [hr, Outcome.ok_bind] at hparse
      rw [Outcome.ok_bind, hadd, Outcome.ok_bind]
      apply ih h.2 hmade
      cases hrs : items.mapM parseRule with
      | error e =>
        rw [hrs] at hparse
        cases hparse
        rfl
      | ok rs =>
        rw [hrs] at hparse
        nomatch hparse

theorem mapM_ne_outOfFuel (items : List (List Byte)) :
    items.mapM parseRule ≠ .error .outOfFuel := by
  induction items with
  | nil => exact fun h => nomatch h
  | cons item items ih =>
    rw [List.mapM_cons]
    exact bind_ne_outOfFuel (parseRule_ne_outOfFuel item) fun _ =>
      bind_ne_outOfFuel ih fun _ h => nomatch h

end AddItems

section FillUp

variable {unlimited : List (Nat × Nat)} {selection : List Bool} {fuel : Nat}

theorem fillUp_stalls (hstarts : ∀ u ∈ unlimited, u.1 < selection.length ∧ u.2 < 2 ^ 63)
    (hsize : selection.length ≤ 2 ^ 63) (hfuel : 2 ^ 63 < fuel) (h : ∃ u ∈ unlimited, u.2 = 0) :
    unlimited.foldlM (fillUp fuel) selection = .error .outOfFuel := by
  induction unlimited generalizing selection with
  | nil => exact absurd h (by simp)
  | cons u unlimited ih =>
    have ⟨hstart, hlt⟩ := hstarts u List.mem_cons_self
    rw [List.foldlM_cons, fillUp]
    by_cases hzero : u.2 = 0
    case pos => rw [hzero, mark_zero hstart le_rfl (by omega), Outcome.error_bind]
    case neg =>
      have ⟨selection', hmark, hlen, _⟩ := @mark_spec u.2 selection.length fuel u.1 selection
        (Nat.pos_of_ne_zero hzero) hlt le_rfl hsize (by omega)
      rw [hmark, Outcome.ok_bind]
      rw [List.exists_mem_cons_iff] at h
      exact ih (fun u hu => hlen.symm ▸ hstarts u (List.mem_cons_of_mem _ hu)) (hlen ▸ hsize)
        (h.resolve_left hzero)

theorem fillUp_spec (hstarts : ∀ u ∈ unlimited, u.2 < 2 ^ 63 ∧ u.2 ≠ 0)
    (hsize : selection.length ≤ 2 ^ 63) (hfuel : 2 ^ 63 < fuel) :
    ∃ selection', unlimited.foldlM (fillUp fuel) selection = .ok selection' ∧
      selection'.length = selection.length ∧
      ∀ k, selection'.getD k false = true ↔ selection.getD k false = true ∨
        ∃ u ∈ unlimited, u.1 ≤ k ∧ k < selection.length ∧ u.2 ∣ k - u.1 := by
  induction unlimited generalizing selection with
  | nil => exact ⟨selection, rfl, rfl, fun k => by simp⟩
  | cons u unlimited ih =>
    have ⟨hlt, hne⟩ := hstarts u List.mem_cons_self
    have ⟨selection', hmark, hlen, hbit⟩ := @mark_spec u.2 selection.length fuel u.1 selection
      (Nat.pos_of_ne_zero hne) hlt le_rfl hsize (by omega)
    have ⟨selection'', hfold, hlen', hbit'⟩ := @ih selection'
      (fun u hu => hstarts u (List.mem_cons_of_mem _ hu)) (hlen ▸ hsize)
    refine ⟨selection'', ?_, hlen'.trans hlen, fun k => ?_⟩
    · rw [List.foldlM_cons, fillUp, hmark, Outcome.ok_bind, hfold]
    · rw [hbit', hbit, hlen, or_assoc, List.exists_mem_cons_iff]

end FillUp

section IsSelected

variable {rules : List Rule} {filter : RangeFilter}

theorem consult_eq {n : Nat} (hn : n < 2 ^ 64) {unlimited : List (Nat × Nat)}
    (h : ∀ u ∈ unlimited, u.1 ≤ n ∧ u.2 ≠ 0) :
    consult n unlimited = .ok (decide (∃ u ∈ unlimited, u.2 ∣ n - u.1)) := by
  induction unlimited with
  | nil => simp [consult]
  | cons u unlimited ih =>
    have ⟨hle, hne⟩ := h u List.mem_cons_self
    have hsub : (n + (2 ^ 64 - u.1)) % 2 ^ 64 = n - u.1 := by omega
    rw [consult, if_neg hne, hsub]
    by_cases hdvd : u.2 ∣ n - u.1
    case pos =>
      rw [if_pos (Nat.mod_eq_zero_of_dvd hdvd)]
      simp [hdvd]
    case neg =>
      rw [if_neg fun hmod => hdvd (Nat.dvd_of_mod_eq_zero hmod),
        ih fun u hu => h u (List.mem_cons_of_mem _ hu)]
      simp [hdvd]

-- The filter when the vector has been filled up.
structure Filled (rules : List Rule) (filter : RangeFilter) : Prop where
  made     : Made rules filter
  complete : ∀ r ∈ rules, r.Unlimited → ∀ k < filter.selection.length, r.Selects k →
    filter.selection.getD k false = true
  steps    : ∀ r ∈ rules, r.Unlimited → r.steps ≠ 0

theorem Filled.isSelected (h : Filled rules filter) (hne : rules ≠ []) {k : Nat} (hk : k < 2 ^ 64) :
    filter.isSelected k = .ok (decide (∃ r ∈ rules, r.Selects k)) := by
  have hnonempty : 0 < filter.selection.length := by
    have ⟨r, hr⟩ := List.exists_mem_of_ne_nil rules hne
    by_cases hunlimited : r.Unlimited
    · exact Nat.zero_lt_of_lt (h.made.starts r hr hunlimited)
    · exact Nat.zero_lt_of_lt (h.made.ends r hr hunlimited)
  rw [RangeFilter.isSelected, if_neg (by omega)]
  by_cases hin : k < filter.selection.length
  case pos =>
    have hget : filter.selection.getD k false = filter.selection[k] := List.getD_eq_getElem _ _ hin
    have hiff : filter.selection[k] = true ↔ ∃ r ∈ rules, r.Selects k := by
      rw [← hget]
      refine ⟨h.made.sound k, fun ⟨r, hr, hselects⟩ => ?_⟩
      by_cases hunlimited : r.Unlimited
      · exact h.complete r hr hunlimited k hin hselects
      · exact h.made.complete r hr hunlimited k hselects
    rw [List.getElem?_eq_getElem hin]
    dsimp only
    have hdecide : filter.selection[k] = decide (∃ r ∈ rules, r.Selects k) := by
      rw [Bool.eq_iff_iff, decide_eq_true_iff]
      exact hiff
    rw [Outcome.pure_eq, hdecide]
  case neg =>
    have hiff : (∃ u ∈ filter.unlimitedRules, u.2 ∣ k - u.1) ↔ ∃ r ∈ rules, r.Selects k := by
      rw [h.made.unlimited]
      constructor
      · rintro ⟨_, hu, hdvd⟩
        obtain ⟨r, hr, rfl⟩ := List.mem_map.mp hu
        have ⟨hmem, hunlimited⟩ := List.mem_filter.mp hr
        have hunlimited := of_decide_eq_true hunlimited
        have hstart := h.made.starts r hmem hunlimited
        exact ⟨r, hmem, by omega, .inl hunlimited, hdvd⟩
      · rintro ⟨r, hr, hle, hlast, hdvd⟩
        have hunlimited : r.Unlimited := by
          by_contra hlimited
          have hend := h.made.ends r hr hlimited
          have := hlast.resolve_left hlimited
          omega
        exact ⟨_, List.mem_map_of_mem (List.mem_filter.mpr ⟨hr, decide_eq_true hunlimited⟩), hdvd⟩
    rw [List.getElem?_eq_none (by omega)]
    dsimp only
    rw [consult_eq hk, decide_eq_decide.mpr hiff]
    intro u hu
    rw [h.made.unlimited] at hu
    obtain ⟨r, hr, rfl⟩ := List.mem_map.mp hu
    have ⟨hmem, hunlimited⟩ := List.mem_filter.mp hr
    have hunlimited := of_decide_eq_true hunlimited
    have hstart := h.made.starts r hmem hunlimited
    exact ⟨by dsimp only; omega, h.steps r hmem hunlimited⟩

theorem isSelected_of_nil (h : Made [] filter) (k : Nat) :
    filter.isSelected k ≠ .error .undefined := by
  unfold RangeFilter.isSelected
  split
  case isTrue => exact fun hcontra => nomatch hcontra
  case isFalse =>
    split
    case h_1 => exact fun hcontra => nomatch hcontra
    case h_2 =>
      rw [h.unlimited]
      exact fun hcontra => nomatch hcontra

end IsSelected

section Texts

-- A rule as it can be written down, and what it stands for. `none` is the end `n`.
inductive RuleText
  | single  (start : Nat)
  | range   (start : Nat) (last : Option Nat)
  | strided (start : Nat) (last : Option Nat) (steps : Nat)

namespace RuleText

def lastText : Option Nat → List Byte
  | some last => decimal last
  | none      => ascii "n"

def toText : RuleText → List Byte
  | single start             => decimal start
  | range start last         => decimal start ++ 58 :: lastText last
  | strided start last steps => decimal start ++ 58 :: (lastText last ++ 58 :: decimal steps)

def numbers : RuleText → List Nat
  | single start             => [start]
  | range start last         => start :: last.toList
  | strided start last steps => start :: steps :: last.toList

def toRule : RuleText → Rule
  | single start             => ⟨start, start, 1⟩
  | range start last         => ⟨start, last.getD maxSizeT, 1⟩
  | strided start last steps => ⟨start, last.getD maxSizeT, steps⟩

end RuleText

theorem toSizeT_decimal {n : Nat} (hn : n < 2 ^ 63) : toSizeT (decimal n) = .ok n := by
  have hscan := scanInt_decimal n (s := []) (fun _ h => by simp at h)
  rw [List.append_nil] at hscan
  have hrange : (-2 ^ 63 ≤ (n : Int) ∧ (n : Int) < 2 ^ 63) := by omega
  simp only [toSizeT, hscan, Option.filter_some, hrange, and_self, decide_true, if_true]
  rw [if_neg (by omega)]
  simp

theorem colon_notMem_decimal (n : Nat) : (58 : Byte) ∉ decimal n :=
  fun h => absurd (decimal_digits n 58 h) (by decide)

theorem colon_notMem_lastText (last : Option Nat) : (58 : Byte) ∉ RuleText.lastText last := by
  cases last with
  | none   => decide
  | some n => exact colon_notMem_decimal n

theorem lastText_ne_nil (last : Option Nat) : RuleText.lastText last ≠ [] := by
  cases last with
  | none   => decide
  | some n => exact decimal_ne_nil n

theorem parseEnd_lastText {n : Nat} {last : Option Nat} (h : ∀ m ∈ last, m < 2 ^ 63) :
    parseEnd n (RuleText.lastText last) = .ok (last.getD maxSizeT) := by
  rw [parseEnd, if_neg (lastText_ne_nil last)]
  cases last with
  | none   => rfl
  | some m =>
    have hletter : ¬ (decimal m = ascii "n" ∨ decimal m = ascii "N") := by
      rintro (heq | heq)
      · exact absurd (decimal_digits m 110 (heq ▸ by decide)) (by decide)
      · exact absurd (decimal_digits m 78 (heq ▸ by decide)) (by decide)
    rw [RuleText.lastText, if_neg hletter, toSizeT_decimal (h m rfl), Option.getD_some]

-- Fields that are not empty are found again.
theorem getlines_intercalate {c : Byte} {fields : List (List Byte)} (hne : fields ≠ [])
    (hc : ∀ field ∈ fields, c ∉ field) (hnil : ∀ field ∈ fields, field ≠ []) :
    getlines c ([c].intercalate fields) = fields := by
  rw [getlines, List.splitOn_intercalate c hc hne]
  exact if_neg fun h => hnil _ (List.mem_of_getLast? h) rfl

theorem parseRule_text {t : RuleText} (h : ∀ n ∈ t.numbers, n < 2 ^ 63) :
    parseRule t.toText = .ok t.toRule := by
  cases t with
  | single start =>
    have hstart := h start List.mem_cons_self
    have hparts : getlines 58 (decimal start) = [decimal start] := by
      have := @getlines_intercalate 58 [decimal start] (by simp)
        (by simpa using colon_notMem_decimal start) (by simpa using decimal_ne_nil start)
      simpa using this
    simp only [RuleText.toText, parseRule, hparts, List.getD_cons_zero, List.getD_cons_succ,
      List.getD_nil, toSizeT_decimal hstart, Outcome.ok_bind]
    rfl
  | range start last =>
    have hstart := h start List.mem_cons_self
    have hlast (m : Nat) (hm : m ∈ last) : m < 2 ^ 63 :=
      h m (List.mem_cons_of_mem _ (Option.mem_toList.mpr hm))
    have hparts : getlines 58 (decimal start ++ 58 :: RuleText.lastText last)
        = [decimal start, RuleText.lastText last] := by
      have := @getlines_intercalate 58 [decimal start, RuleText.lastText last] (by simp)
        (by simpa using ⟨colon_notMem_decimal start, colon_notMem_lastText last⟩)
        (by simpa using ⟨decimal_ne_nil start, lastText_ne_nil last⟩)
      simpa using this
    simp only [RuleText.toText, parseRule, hparts, List.getD_cons_zero, List.getD_cons_succ,
      List.getD_nil, toSizeT_decimal hstart, Outcome.ok_bind, parseEnd_lastText hlast,
      if_neg (lastText_ne_nil last)]
    rfl
  | strided start last steps =>
    have hstart := h start List.mem_cons_self
    have hsteps := h steps (List.mem_cons_of_mem _ List.mem_cons_self)
    have hlast (m : Nat) (hm : m ∈ last) : m < 2 ^ 63 :=
      h m (List.mem_cons_of_mem _ (List.mem_cons_of_mem _ (Option.mem_toList.mpr hm)))
    have hparts : getlines 58 (decimal start ++ 58 :: (RuleText.lastText last ++ 58 :: decimal steps))
        = [decimal start, RuleText.lastText last, decimal steps] := by
      have := @getlines_intercalate 58 [decimal start, RuleText.lastText last, decimal steps] (by simp)
        (by simpa using ⟨colon_notMem_decimal start, colon_notMem_lastText last,
          colon_notMem_decimal steps⟩)
        (by simpa using ⟨decimal_ne_nil start, lastText_ne_nil last, decimal_ne_nil steps⟩)
      simpa using this
    simp only [RuleText.toText, parseRule, hparts, List.getD_cons_zero, List.getD_cons_succ,
      toSizeT_decimal hstart, Outcome.ok_bind, parseEnd_lastText hlast,
      if_neg (lastText_ne_nil last), parseSteps, if_neg (decimal_ne_nil steps),
      toSizeT_decimal hsteps]
    rfl

end Texts

section Fuel

-- More fuel makes no difference once there is a result.
def Extends {α} (x y : Outcome α) : Prop := x ≠ .error .outOfFuel → y = x

theorem Extends.refl {α} (x : Outcome α) : Extends x x := fun _ => rfl

theorem Extends.bind {α β} {x y : Outcome α} {f g : α → Outcome β} (h : Extends x y)
    (hf : ∀ a, Extends (f a) (g a)) : Extends (x >>= f) (y >>= g) := by
  intro hne
  have hx : x ≠ .error .outOfFuel := by
    rintro rfl
    exact hne rfl
  rw [h hx]
  cases x with
  | error e => rfl
  | ok a    => exact hf a hne

theorem Extends.foldlM {α β} {f g : β → α → Outcome β} (hf : ∀ b a, Extends (f b a) (g b a))
    (l : List α) (b : β) : Extends (l.foldlM f b) (l.foldlM g b) := by
  induction l generalizing b with
  | nil => exact .refl _
  | cons a l ih =>
    rw [List.foldlM_cons, List.foldlM_cons]
    exact (hf b a).bind fun b => ih b

variable {fuel fuel' : Nat} (hle : fuel ≤ fuel')
include hle

theorem mark_extends (steps stop i : Nat) (selection : List Bool) :
    Extends (mark steps stop fuel i selection) (mark steps stop fuel' i selection) := by
  induction fuel generalizing fuel' i selection with
  | zero => exact fun hne => absurd rfl hne
  | succ fuel ih =>
    obtain ⟨fuel', rfl⟩ := Nat.exists_eq_add_of_le' (Nat.zero_lt_of_lt hle)
    rw [mark, mark]
    split
    case isFalse => exact .refl _
    case isTrue =>
      split
      case isFalse => exact .refl _
      case isTrue  => exact ih (Nat.le_of_succ_le_succ hle) _ _

theorem addRule_extends (filter : RangeFilter) (r : Rule) :
    Extends (addRule fuel filter r) (addRule fuel' filter r) := by
  unfold addRule
  split
  case isTrue  => exact (mark_extends hle _ _ _ _).bind fun _ => .refl _
  case isFalse => exact .refl _

theorem parseSelection_extends (selection : List Byte) :
    Extends (parseSelection fuel selection) (parseSelection fuel' selection) := by
  apply Extends.bind
    (Extends.foldlM (fun filter _ => (Extends.refl _).bind (addRule_extends hle filter)) _ _)
  exact fun filter =>
    (Extends.foldlM (fun selection _ => mark_extends hle _ _ _ selection) _ _).bind fun _ => .refl _

end Fuel

-- The result of a call: what it gives with enough fuel.
def Returns (selection : List Byte) (result : Outcome RangeFilter) : Prop :=
  result ≠ .error .outOfFuel ∧ ∃ fuel, parseSelection fuel selection = result

theorem Returns.of_le {selection : List Byte} {result : Outcome RangeFilter}
    (h : Returns selection result) (n : Nat) :
    ∃ fuel, n ≤ fuel ∧ parseSelection fuel selection = result := by
  have ⟨hne, fuel, heq⟩ := h
  refine ⟨max n fuel, Nat.le_max_left .., ?_⟩
  rw [parseSelection_extends (Nat.le_max_right n fuel) selection (heq ▸ hne), heq]

theorem Returns.unique {selection : List Byte} {result result' : Outcome RangeFilter}
    (h : Returns selection result) (h' : Returns selection result') : result = result' := by
  have ⟨fuel, _, heq⟩ := h.of_le 0
  have ⟨fuel', hle, heq'⟩ := h'.of_le fuel
  rw [← heq', parseSelection_extends hle selection (heq ▸ h.1), heq]

section ParseSelection

variable {selection : List Byte}

theorem Made.fillUp {rules : List Rule} {filter : RangeFilter} (h : Made rules filter)
    (hfits : ∀ r ∈ rules, r.Fits) (hsteps : ∀ r ∈ rules, r.Unlimited → r.steps ≠ 0) {fuel : Nat}
    (hfuel : 2 ^ 63 < fuel) :
    ∃ selection', filter.unlimitedRules.foldlM (RangeFilter.fillUp fuel) filter.selection
        = .ok selection' ∧ Filled rules { filter with selection := selection' } := by
  have hunlimited (u : Nat × Nat) (hu : u ∈ filter.unlimitedRules) :
      ∃ r ∈ rules, r.Unlimited ∧ u = (r.start, r.steps) := by
    rw [h.unlimited] at hu
    obtain ⟨r, hr, rfl⟩ := List.mem_map.mp hu
    have ⟨hmem, hunlimited⟩ := List.mem_filter.mp hr
    exact ⟨r, hmem, of_decide_eq_true hunlimited, rfl⟩
  have ⟨selection', hfold, hlen, hbit⟩ := @fillUp_spec filter.unlimitedRules filter.selection fuel
    (fun u hu => by
      obtain ⟨r, hr, hun, rfl⟩ := hunlimited u hu
      exact ⟨(hfits r hr).steps, hsteps r hr hun⟩) h.size hfuel
  refine ⟨selection', hfold, ?_⟩
  constructor
  case made =>
    constructor
    case unlimited => exact h.unlimited
    case size      => exact hlen ▸ h.size
    case ends      => exact hlen ▸ h.ends
    case starts    => exact hlen ▸ h.starts
    case sound     =>
      intro k hk
      rcases (hbit k).mp hk with hk | ⟨u, hu, hle, _, hdvd⟩
      case inl => exact h.sound k hk
      case inr =>
        obtain ⟨r, hr, hun, rfl⟩ := hunlimited u hu
        exact ⟨r, hr, hle, .inl hun, hdvd⟩
    case complete =>
      exact fun r hr hlimited k hk => (hbit k).mpr (.inl (h.complete r hr hlimited k hk))
  case complete =>
    intro r hr hun k hk ⟨hle, _, hdvd⟩
    refine (hbit k).mpr (.inr ⟨(r.start, r.steps), ?_, hle, hlen ▸ hk, hdvd⟩)
    rw [h.unlimited]
    exact List.mem_map_of_mem (List.mem_filter.mpr ⟨hr, decide_eq_true hun⟩)
  case steps => exact hsteps

-- No rule in front of the first invalid item is a range with a stride of zero, and if there is no
-- invalid item then no rule without an end has such a stride.
structure Ends (selection : List Byte) : Prop where
  ranges    : ¬∃ r ∈ accepted (items selection), r.Stalls
  unlimited : ∀ rules, (items selection).mapM parseRule = .ok rules →
    ∀ r ∈ rules, r.Unlimited → r.steps ≠ 0

theorem not_returns (h : ∀ fuel, 2 ^ 63 < fuel → parseSelection fuel selection = .error .outOfFuel) :
    ¬∃ result, Returns selection result := by
  rintro ⟨result, hreturns⟩
  have ⟨fuel, hle, heq⟩ := hreturns.of_le (2 ^ 63 + 1)
  exact hreturns.1 (heq ▸ h fuel hle)

theorem parse_ok (h : Ends selection) {rules : List Rule}
    (hrules : (items selection).mapM parseRule = .ok rules) :
    ∃ filter, Filled rules filter ∧ Returns selection (.ok filter) := by
  have hfuel : 2 ^ 63 < 2 ^ 63 + 1 := Nat.lt_succ_self _
  have ⟨filter, hadd, hmade⟩ := addItems_ok h.ranges hfuel made_nil hrules
  rw [List.nil_append] at hmade
  have ⟨selection', hfold, hfilled⟩ :=
    hmade.fillUp (fits_of_mapM hrules) (h.unlimited rules hrules) hfuel
  refine ⟨_, hfilled, fun hcontra => (nomatch hcontra), 2 ^ 63 + 1, ?_⟩
  rw [parseSelection, hadd, Outcome.ok_bind, hfold, Outcome.ok_bind]
  rfl

theorem parse_error (h : Ends selection) {fault : Fault}
    (hrules : (items selection).mapM parseRule = .error fault) :
    Returns selection (.error fault) := by
  refine ⟨fun hcontra => mapM_ne_outOfFuel _ (hrules.trans (congrArg _ (Except.error.inj hcontra))),
    2 ^ 63 + 1, ?_⟩
  rw [parseSelection, addItems_error h.ranges (Nat.lt_succ_self _) made_nil hrules,
    Outcome.error_bind]

theorem ends_of_returns {result : Outcome RangeFilter} (h : Returns selection result) :
    Ends selection := by
  have ⟨fuel, hle, heq⟩ := h.of_le (2 ^ 63 + 1)
  have hranges : ¬∃ r ∈ accepted (items selection), r.Stalls := by
    intro hstalls
    rw [parseSelection, addItems_stalls hstalls hle made_nil, Outcome.error_bind] at heq
    exact h.1 heq.symm
  refine ⟨hranges, fun rules hrules r hr hunlimited hzero => ?_⟩
  have ⟨filter, hadd, hmade⟩ := addItems_ok hranges hle made_nil hrules
  rw [List.nil_append] at hmade
  have hmem : (r.start, r.steps) ∈ filter.unlimitedRules := by
    rw [hmade.unlimited]
    exact List.mem_map_of_mem (List.mem_filter.mpr ⟨hr, decide_eq_true hunlimited⟩)
  have hstarts : ∀ u ∈ filter.unlimitedRules, u.1 < filter.selection.length ∧ u.2 < 2 ^ 63 := by
    intro u hu
    rw [hmade.unlimited] at hu
    obtain ⟨r, hr, rfl⟩ := List.mem_map.mp hu
    have ⟨hmem, hun⟩ := List.mem_filter.mp hr
    exact ⟨hmade.starts r hmem (of_decide_eq_true hun), (fits_of_mapM hrules r hmem).steps⟩
  rw [parseSelection, hadd, Outcome.ok_bind, fillUp_stalls hstarts hmade.size hle ⟨_, hmem, hzero⟩,
    Outcome.error_bind] at heq
  exact h.1 heq.symm

-- Every text has a result, what it selects is what its rules select, and nothing is ever divided by
-- zero. There is at least one rule, as a filter without rules selects everything.
structure Correct (selection : List Byte) : Prop where
  terminates : ∃ result, Returns selection result
  selects    : ∀ rules, rules ≠ [] → (items selection).mapM parseRule = .ok rules →
    (∀ r ∈ rules, 1 ≤ r.steps) → ∃ filter, Returns selection (.ok filter) ∧
      ∀ k < 2 ^ 64, filter.isSelected k = .ok (decide (∃ r ∈ rules, r.Selects k))
  texts      : ∀ texts : List RuleText, (∀ t ∈ texts, ∀ n ∈ t.numbers, n < 2 ^ 63) →
    items selection = texts.map (·.toText) →
    (items selection).mapM parseRule = .ok (texts.map (·.toRule))
  divides    : ∀ filter, Returns selection (.ok filter) → ∀ k < 2 ^ 64,
    filter.isSelected k ≠ .error .undefined

theorem correct_iff (selection : List Byte) : Correct selection ↔ Ends selection := by
  constructor
  case mp =>
    intro h
    have ⟨result, hresult⟩ := h.terminates
    exact ends_of_returns hresult
  case mpr =>
    intro h
    constructor
    case terminates =>
      cases hrules : (items selection).mapM parseRule with
      | error fault => exact ⟨_, parse_error h hrules⟩
      | ok rules =>
        have ⟨filter, _, hreturns⟩ := parse_ok h hrules
        exact ⟨_, hreturns⟩
    case selects =>
      intro rules hne hrules _
      have ⟨filter, hfilled, hreturns⟩ := parse_ok h hrules
      exact ⟨filter, hreturns, fun k hk => hfilled.isSelected hne hk⟩
    case texts =>
      intro texts hfits heq
      rw [heq, Outcome.mapM_eq_ok_iff, List.forall₂_map_left_iff, List.forall₂_map_right_iff,
        List.forall₂_same]
      exact fun t ht => parseRule_text (hfits t ht)
    case divides =>
      intro filter hreturns k hk
      cases hrules : (items selection).mapM parseRule with
      | error fault => nomatch (parse_error h hrules).unique hreturns
      | ok rules =>
        have ⟨filter', hfilled, hreturns'⟩ := parse_ok h hrules
        cases hreturns.unique hreturns'
        by_cases hne : rules = []
        case neg =>
          rw [hfilled.isSelected hne hk]
          exact fun hcontra => nomatch hcontra
        case pos => exact isSelected_of_nil (hne ▸ hfilled.made) k

-- A range with a stride of zero is never expanded.
theorem not_correct_zeroStride : ¬Correct (ascii "0:5:0") := by
  intro h
  have ⟨result, hresult⟩ := h.terminates
  refine (ends_of_returns hresult).ranges ⟨⟨0, 5, 0⟩, ?_, rfl, by decide, by decide⟩
  have hparse : parseRule (ascii "0:5:0") = .ok ⟨0, 5, 0⟩ := by decide +kernel
  have hitems : items (ascii "0:5:0") = [ascii "0:5:0"] := by decide +kernel
  rw [hitems, accepted, hparse]
  exact List.mem_cons_self

end ParseSelection

end RangeFilter

end Helper
