import Mathlib
import Adios2.Format.DataMan.DataManSerializer

-- Which step a reader gets, and when it gets one at all.

namespace DataMan

variable {ε : Type}

namespace VarMap

variable {s : VarMap ε} {r : Int} {latest : Bool}

section Search

variable {goesOn : Nat → Bool} {next : Nat → Nat}

-- The loop takes a path of steps of which the last one has the blocks.
theorem search_found {path : Nat → Nat} {n : Nat} (hnext : ∀ k < n, next (path k) = path (k + 1))
    (hgoes : ∀ k ≤ n, goesOn (path k) = true)
    (hnot : ∀ k < n, s.stepHasMinimumBlocks (path k) r = false)
    (hlast : s.stepHasMinimumBlocks (path n) r = true) :
    s.search r goesOn next (n + 1) (path 0) = some (some (path n)) := by
  induction n generalizing path with
  | zero => rw [search, if_pos (hgoes 0 le_rfl), if_pos hlast]
  | succ n ih =>
    have hzero : ¬s.stepHasMinimumBlocks (path 0) r = true := by
      rw [hnot 0 (Nat.succ_pos n)]
      exact Bool.false_ne_true
    rw [search, if_pos (hgoes 0 (Nat.zero_le _)), if_neg hzero, hnext 0 (Nat.succ_pos n)]
    exact @ih (fun k => path (k + 1)) (fun k hk => hnext (k + 1) (Nat.succ_lt_succ hk))
      (fun k hk => hgoes (k + 1) (Nat.succ_le_succ hk))
      (fun k hk => hnot (k + 1) (Nat.succ_lt_succ hk)) hlast

-- It takes one to its end.
theorem search_ended {path : Nat → Nat} {n : Nat} (hnext : ∀ k < n, next (path k) = path (k + 1))
    (hgoes : ∀ k < n, goesOn (path k) = true)
    (hnot : ∀ k < n, s.stepHasMinimumBlocks (path k) r = false) (hend : goesOn (path n) = false) :
    s.search r goesOn next (n + 1) (path 0) = some none := by
  induction n generalizing path with
  | zero =>
    rw [search, if_neg (by rw [hend]; exact Bool.false_ne_true)]
  | succ n ih =>
    have hzero : ¬s.stepHasMinimumBlocks (path 0) r = true := by
      rw [hnot 0 (Nat.succ_pos n)]
      exact Bool.false_ne_true
    rw [search, if_pos (hgoes 0 (Nat.succ_pos n)), if_neg hzero, hnext 0 (Nat.succ_pos n)]
    exact @ih (fun k => path (k + 1)) (fun k hk => hnext (k + 1) (Nat.succ_lt_succ hk))
      (fun k hk => hgoes (k + 1) (Nat.succ_lt_succ hk))
      (fun k hk => hnot (k + 1) (Nat.succ_lt_succ hk)) hend

-- More turns do not change what it ends with.
theorem search_mono {turns step : Nat} {found : Option Nat}
    (h : s.search r goesOn next turns step = some found) (more : Nat) :
    s.search r goesOn next (turns + more) step = some found := by
  induction turns generalizing step with
  | zero => cases h
  | succ turns ih =>
    rw [Nat.succ_add, search]
    rw [search] at h
    split at h
    case isTrue hgoes =>
      rw [if_pos hgoes]
      split at h
      case isTrue hhas => rwa [if_pos hhas]
      case isFalse hhas =>
        rw [if_neg hhas]
        exact ih h
    case isFalse hgoes => rwa [if_neg hgoes]

theorem search_unique {turns turns' step : Nat} {found found' : Option Nat}
    (h : s.search r goesOn next turns step = some found)
    (h' : s.search r goesOn next turns' step = some found') : found = found' := by
  have hleft := search_mono h turns'
  have hright := search_mono h' turns
  rw [Nat.add_comm turns' turns, hleft] at hright
  exact Option.some.inj hright

theorem search_some {turns step found : Nat}
    (h : s.search r goesOn next turns step = some (some found)) :
    goesOn found = true ∧ s.stepHasMinimumBlocks found r = true := by
  induction turns generalizing step with
  | zero => cases h
  | succ turns ih =>
    rw [search] at h
    split at h
    case isTrue hgoes =>
      split at h
      case isTrue hhas =>
        cases h
        exact ⟨hgoes, hhas⟩
      case isFalse => exact ih h
    case isFalse => cases h

theorem search_none {turns step : Nat} (h : s.search r goesOn next turns step = some none) :
    ∃ k, goesOn (next^[k] step) = false := by
  induction turns generalizing step with
  | zero => cases h
  | succ turns ih =>
    rw [search] at h
    split at h
    case isTrue =>
      split at h
      case isTrue => cases h
      case isFalse =>
        have ⟨k, hk⟩ := ih h
        exact ⟨k + 1, hk⟩
    case isFalse hgoes => exact ⟨0, by simpa using hgoes⟩

end Search

section Walk

variable {goesOn : Nat → Bool} {next path : Nat → Nat} {count : Nat}

-- The loop takes all the steps between the ones that are held, and then ends or goes on for ever.
structure Walk (s : VarMap ε) (goesOn : Nat → Bool) (next path : Nat → Nat) (count : Nat) :
    Prop where
  pos  : 0 < count
  step : ∀ k, k + 1 < count → next (path k) = path (k + 1)
  goes : ∀ k < count, goesOn (path k) = true
  held : ∀ step ∈ s.steps, ∃ k < count, path k = step
  ends : goesOn (next (path (count - 1))) = false ∨ ∀ k, goesOn (next^[k] (path 0)) = true

-- The loop finds the first of the steps that are held and have the blocks, or that there is none.
def FindsFirst (s : VarMap ε) (r : Int) (goesOn : Nat → Bool) (next path : Nat → Nat)
    (count : Nat) : Option Nat → Prop
  | some k => k < count ∧ path k ∈ s.steps ∧ s.stepHasMinimumBlocks (path k) r = true ∧
      (∀ j < k, path j ∈ s.steps → s.stepHasMinimumBlocks (path j) r = false) ∧
      ∃ turns, s.search r goesOn next turns (path 0) = some (some (path k))
  | none   => (∀ step ∈ s.steps, s.stepHasMinimumBlocks step r = false) ∧
      ∃ turns, s.search r goesOn next turns (path 0) = some none

-- When there is a step with the blocks, the loop ends with the first one.
theorem Walk.exists_first (h : Walk s goesOn next path count)
    (hsome : ∃ k < count, s.stepHasMinimumBlocks (path k) r = true) :
    ∃ k < count, s.stepHasMinimumBlocks (path k) r = true ∧
      (∀ j < k, s.stepHasMinimumBlocks (path j) r = false) ∧
      s.search r goesOn next (k + 1) (path 0) = some (some (path k)) := by
  classical
  have ⟨hlt, hhas⟩ := Nat.find_spec hsome
  have hbefore : ∀ j < Nat.find hsome, s.stepHasMinimumBlocks (path j) r = false := by
    intro j hj
    by_contra hne
    exact Nat.find_min hsome hj ⟨hj.trans hlt, by simpa using hne⟩
  refine ⟨_, hlt, hhas, hbefore, search_found ?next ?goes hbefore hhas⟩
  case next => exact fun k hk => h.step k (by omega)
  case goes => exact fun k hk => h.goes k (by omega)

theorem Walk.findsFirst_iff (h : Walk s goesOn next path count) :
    (∃ found, FindsFirst s r goesOn next path count found) ↔
      (∀ k < count, s.stepHasMinimumBlocks (path k) r = true → path k ∉ s.steps →
        ∃ j < k, path j ∈ s.steps ∧ s.stepHasMinimumBlocks (path j) r = true) ∧
      ((∀ step ∈ s.steps, s.stepHasMinimumBlocks step r = false) →
        goesOn (next (path (count - 1))) = false) := by
  constructor
  case mp =>
    rintro ⟨found, hfound⟩
    constructor
    · intro k hk hhas hheld
      have ⟨j, hj, hhas', hbefore, hsearch⟩ := h.exists_first ⟨k, hk, hhas⟩
      have hle : j ≤ k := by
        by_contra hlt
        exact absurd (hbefore k (by omega)) (by simp [hhas])
      cases found with
      | none =>
        have ⟨_, _, hnone⟩ := hfound
        cases search_unique hsearch hnone
      | some i =>
        have ⟨_, hheld', _, _, _, hsome⟩ := hfound
        have heq : path j = path i := Option.some.inj (search_unique hsearch hsome)
        rw [← heq] at hheld'
        have hne : j ≠ k := fun hjk => hheld (hjk ▸ hheld')
        exact ⟨j, by omega, hheld', hhas'⟩
    · intro hnot
      rcases h.ends with hend | hforever
      · exact hend
      · cases found with
        | none =>
          have ⟨_, _, hnone⟩ := hfound
          have ⟨k, hk⟩ := search_none hnone
          exact absurd (hforever k) (by simp [hk])
        | some i =>
          have ⟨_, hheld, hhas, _⟩ := hfound
          exact absurd (hnot _ hheld) (by simp [hhas])
  case mpr =>
    rintro ⟨hheld, hend⟩
    by_cases hsome : ∃ k < count, s.stepHasMinimumBlocks (path k) r = true
    case pos =>
      have ⟨k, hk, hhas, hbefore, hsearch⟩ := h.exists_first hsome
      refine ⟨some k, hk, ?_, hhas, fun j hj _ => hbefore j hj, _, hsearch⟩
      by_contra hnot
      have ⟨j, hj, _, hhas'⟩ := hheld k hk hhas hnot
      exact absurd (hbefore j hj) (by simp [hhas'])
    case neg =>
      have hnone : ∀ k < count, s.stepHasMinimumBlocks (path k) r = false := by
        intro k hk
        by_contra hne
        exact hsome ⟨k, hk, by simpa using hne⟩
      have hnone' : ∀ step ∈ s.steps, s.stepHasMinimumBlocks step r = false := by
        intro step hmem
        have ⟨k, hk, heq⟩ := h.held step hmem
        exact heq ▸ hnone k hk
      -- One step behind the last one.
      let path' : Nat → Nat := fun k => if k < count then path k else next (path (count - 1))
      have hpos := h.pos
      have hlast : path' count = next (path (count - 1)) := if_neg (lt_irrefl _)
      have hin {k : Nat} (hk : k < count) : path' k = path k := if_pos hk
      refine ⟨none, hnone', count + 1, ?_⟩
      rw [← hin hpos]
      refine search_ended (fun k hk => ?_) (fun k hk => ?_) (fun k hk => ?_) ?_
      · rcases Nat.lt_or_ge (k + 1) count with hlt | hge
        · rw [hin hk, hin hlt, h.step k hlt]
        · have heq : k + 1 = count := by omega
          rw [heq, hlast, hin hk, ← heq, Nat.add_sub_cancel]
      · rw [hin hk]
        exact h.goes k hk
      · rw [hin hk]
        exact hnone k hk
      · rw [hlast]
        exact hend hnone'

end Walk

-- The steps that are held lie between two of them.
inductive Extremes (s : VarMap ε) : Prop
  | empty (none : s.steps = [])
  | between (first last : Nat) (min : s.steps.min? = some first) (max : s.steps.max? = some last)
      (first_mem : first ∈ s.steps) (last_mem : last ∈ s.steps)
      (bounds : ∀ step ∈ s.steps, first ≤ step ∧ step ≤ last)

theorem extremes (s : VarMap ε) : Extremes s := by
  cases hmin : s.steps.min? with
  | none => exact .empty (List.min?_eq_none_iff.mp hmin)
  | some first =>
    cases hmax : s.steps.max? with
    | none => exact .empty (List.max?_eq_none_iff.mp hmax)
    | some last =>
      have ⟨hfirst, hle⟩ := List.min?_eq_some_iff.mp hmin
      have ⟨hlast, hge⟩ := List.max?_eq_some_iff.mp hmax
      exact .between first last hmin hmax hfirst hlast fun step hmem => ⟨hle step hmem, hge step hmem⟩

-- The step that is to be found, if one that is held has the blocks.
def Best (s : VarMap ε) (r : Int) (latest : Bool) : Option Nat → Prop
  | some step => step ∈ s.steps ∧ s.stepHasMinimumBlocks step r = true ∧
      ∀ other ∈ s.steps, s.stepHasMinimumBlocks other r = true →
        if latest then other ≤ step else step ≤ other
  | none      => ∀ step ∈ s.steps, s.stepHasMinimumBlocks step r = false

-- What a call is to return, when the clock is as it is.
def expected (s : VarMap ε) (clock : List Bool) : Option Nat → Returned ε
  | some step => .vars step ((s.dataManVarMap.lookup step).getD none)
  | none      => if true ∈ clock then .timedOut else .waiting

-- A call ends, returns what it is to return and leaves the maps as they are.
def Selects (s : VarMap ε) (r : Int) (latest : Bool) : Prop :=
  ∃ best, Best s r latest best ∧ ∀ clock, ∃ turns,
    s.getEarliestLatestStep r latest turns clock = some (s.expected clock best, s)

-- A step with the blocks that is not held, but lies between steps that are, is not the first one on
-- the way; and the way has an end if no step has the blocks.
structure Findable (s : VarMap ε) (r : Int) (latest : Bool) : Prop where
  gaps : ∀ step, (∃ first ∈ s.steps, first ≤ step) → (∃ last ∈ s.steps, step ≤ last) →
    s.stepHasMinimumBlocks step r = true → step ∉ s.steps →
      ∃ other ∈ s.steps, s.stepHasMinimumBlocks other r = true ∧
        if latest then step < other else other < step
  ends : (∀ step ∈ s.steps, s.stepHasMinimumBlocks step r = false) →
    (if latest then 0 else 2 ^ 64 - 1) ∉ s.steps

section Call

variable {turns step : Nat} {clock : List Bool}

theorem getEarliestLatestStep_of_some (h : s.selectStep r latest turns = some (some step)) :
    s.getEarliestLatestStep r latest turns clock =
      some (.vars step (s.vars step).1, (s.vars step).2) := by
  unfold getEarliestLatestStep
  rw [h]

theorem getEarliestLatestStep_of_none (h : s.selectStep r latest turns = some none) :
    s.getEarliestLatestStep r latest turns clock =
      some (if true ∈ clock then .timedOut else .waiting, s) := by
  induction clock with
  | nil =>
    unfold getEarliestLatestStep
    rw [h]
    rfl
  | cons ended clock ih =>
    unfold getEarliestLatestStep
    rw [h]
    cases ended with
    | true => simp
    | false =>
      refine ih.trans ?_
      simp

-- The entries of a step that is held are only looked up.
theorem vars_of_mem (h : step ∈ s.steps) :
    s.vars step = ((s.dataManVarMap.lookup step).getD none, s) := by
  have hupsert (m : List (Nat × Option (List ε))) (hm : step ∈ m.map Prod.fst) :
      upsert m step (fun vars => vars.getD none) = m := by
    induction m with
    | nil => cases hm
    | cons x m ih =>
      obtain ⟨k, a⟩ := x
      rw [upsert]
      split
      case isTrue heq => rw [heq]; rfl
      case isFalse hne =>
        rcases List.mem_cons.mp hm with heq | hm
        · exact absurd heq.symm hne
        · rw [ih hm]
  rw [vars, hupsert _ h]

-- It depends on the search for a step alone whether a call is right.
theorem selects_iff : Selects s r latest ↔
    ∃ best, Best s r latest best ∧ ∃ turns, s.selectStep r latest turns = some best := by
  constructor
  case mp =>
    rintro ⟨best, hbest, hcall⟩
    refine ⟨best, hbest, ?_⟩
    have ⟨turns, hcall⟩ := hcall []
    refine ⟨turns, ?_⟩
    cases hselect : s.selectStep r latest turns with
    | none =>
      unfold getEarliestLatestStep at hcall
      rw [hselect] at hcall
      cases hcall
    | some found =>
      cases found with
      | none =>
        rw [getEarliestLatestStep_of_none hselect] at hcall
        cases best with
        | none => rfl
        | some step => cases congrArg Prod.fst (Option.some.inj hcall)
      | some step =>
        rw [getEarliestLatestStep_of_some hselect] at hcall
        cases best with
        | none => cases congrArg Prod.fst (Option.some.inj hcall)
        | some step' =>
          have heq := congrArg Prod.fst (Option.some.inj hcall)
          injection heq with hstep
          rw [hstep]
  case mpr =>
    rintro ⟨best, hbest, turns, hselect⟩
    refine ⟨best, hbest, fun clock => ⟨turns, ?_⟩⟩
    cases best with
    | none => exact getEarliestLatestStep_of_none hselect
    | some step => rw [getEarliestLatestStep_of_some hselect, vars_of_mem hbest.1, expected]

end Call

section Way

variable {goesOn : Nat → Bool} {next path : Nat → Nat} {count : Nat}

-- The walk of a call goes through the steps between the ones that are held, in the order of the call.
structure Way (s : VarMap ε) (latest : Bool) (goesOn : Nat → Bool) (next path : Nat → Nat)
    (count : Nat) : Prop extends Walk s goesOn next path count where
  select : ∀ r turns, s.selectStep r latest turns = s.search r goesOn next turns (path 0)
  order  : ∀ j < count, ∀ k < count,
    j < k ↔ if latest then path k < path j else path j < path k
  onto   : ∀ step, (∃ k < count, path k = step) ↔
    (∃ first ∈ s.steps, first ≤ step) ∧ ∃ last ∈ s.steps, step ≤ last
  bound  : goesOn (next (path (count - 1))) = false ↔
    (if latest then 0 else 2 ^ 64 - 1) ∉ s.steps

-- The first step on the way is the one that is to be found.
theorem Way.best_iff (h : Way s latest goesOn next path count) :
    (∃ best, Best s r latest best ∧ ∃ turns, s.selectStep r latest turns = some best) ↔
      ∃ found, FindsFirst s r goesOn next path count found := by
  constructor
  case mp =>
    rintro ⟨best, hbest, turns, hselect⟩
    rw [h.select] at hselect
    cases best with
    | none => exact ⟨none, hbest, turns, hselect⟩
    | some step =>
      have ⟨hheld, hhas, hfirst⟩ := hbest
      have ⟨k, hk, heq⟩ := h.held step hheld
      subst heq
      refine ⟨some k, hk, hheld, hhas, fun j hj hheld' => ?_, turns, hselect⟩
      by_contra hne
      have hle := hfirst _ hheld' (by simpa using hne)
      have horder := (h.order j (hj.trans hk) k hk).mp hj
      cases latest with
      | true => exact absurd horder (not_lt.mpr hle)
      | false => exact absurd horder (not_lt.mpr hle)
  case mpr =>
    rintro ⟨found, hfound⟩
    cases found with
    | none =>
      have ⟨hnone, turns, hsearch⟩ := hfound
      exact ⟨none, hnone, turns, (h.select r turns).trans hsearch⟩
    | some k =>
      have ⟨hk, hheld, hhas, hfirst, turns, hsearch⟩ := hfound
      refine ⟨some (path k), ⟨hheld, hhas, ?_⟩, turns, (h.select r turns).trans hsearch⟩
      intro other hheld' hhas'
      have ⟨j, hj, heq⟩ := h.held other hheld'
      subst heq
      have hle : ¬j < k := fun hjk => absurd (hfirst j hjk hheld') (by simp [hhas'])
      have horder := (h.order j hj k hk).not.mp hle
      cases latest with
      | true => exact not_lt.mp horder
      | false => exact not_lt.mp horder

theorem Way.selects_iff (h : Way s latest goesOn next path count) :
    Selects s r latest ↔ Findable s r latest := by
  rw [VarMap.selects_iff, h.best_iff, h.toWalk.findsFirst_iff]
  constructor
  case mp =>
    rintro ⟨hgaps, hends⟩
    refine ⟨fun step hfirst hlast hhas hheld => ?_, fun hnone => h.bound.mp (hends hnone)⟩
    have ⟨k, hk, heq⟩ := (h.onto step).mpr ⟨hfirst, hlast⟩
    subst heq
    have ⟨j, hj, hheld', hhas'⟩ := hgaps k hk hhas hheld
    exact ⟨path j, hheld', hhas', (h.order j (hj.trans hk) k hk).mp hj⟩
  case mpr =>
    intro hfindable
    refine ⟨fun k hk hhas hheld => ?_, fun hnone => h.bound.mpr (hfindable.ends hnone)⟩
    have ⟨hfirst, hlast⟩ := (h.onto (path k)).mp ⟨k, hk, rfl⟩
    have ⟨other, hheld', hhas', horder⟩ := hfindable.gaps _ hfirst hlast hhas hheld
    have ⟨j, hj, heq⟩ := h.held other hheld'
    subst heq
    exact ⟨j, (h.order j hj k hk).mpr horder, hheld', hhas'⟩

end Way

section Bounded

variable {first last : Nat}

-- The steps that are held are numbers of a `size_t`.
def Bounded (s : VarMap ε) : Prop := ∀ step ∈ s.steps, step < 2 ^ 64

theorem way_earliest (hmin : s.steps.min? = some first) (hmax : s.steps.max? = some last)
    (hfirst : first ∈ s.steps) (hlast : last ∈ s.steps)
    (hheld : ∀ step ∈ s.steps, first ≤ step ∧ step ≤ last) (hbounded : s.Bounded) :
    Way s false (fun step => decide (step ≤ last)) (fun step => (step + 1) % 2 ^ 64)
      (fun k => first + k) (last + 1 - first) := by
  have hle := (hheld first hfirst).2
  have hlt := hbounded last hlast
  have hmem : (2 ^ 64 - 1 ∈ s.steps) ↔ last = 2 ^ 64 - 1 := by
    constructor
    case mp =>
      intro hmem
      have := (hheld _ hmem).2
      omega
    case mpr =>
      intro heq
      exact heq ▸ hlast
  constructor
  case toWalk =>
    constructor
    case pos => omega
    case step =>
      intro k hk
      rw [Nat.mod_eq_of_lt (by omega), Nat.add_assoc]
    case goes =>
      intro k hk
      rw [decide_eq_true_iff]
      omega
    case held =>
      intro step hstep
      have ⟨hge, hle⟩ := hheld step hstep
      exact ⟨step - first, by omega, by omega⟩
    case ends =>
      by_cases hend : last = 2 ^ 64 - 1
      case pos =>
        -- There is no number behind the last one.
        refine .inr fun k => ?_
        rw [decide_eq_true_iff]
        cases k with
        | zero => exact hle
        | succ k =>
          rw [Function.iterate_succ_apply']
          have := Nat.mod_lt ((fun step => (step + 1) % 2 ^ 64)^[k] (first + 0) + 1)
            (Nat.two_pow_pos 64)
          omega
      case neg =>
        refine .inl ?_
        rw [decide_eq_false_iff_not, Nat.mod_eq_of_lt (by omega)]
        omega
  case select =>
    intro r turns
    simp only [selectStep, hmin, hmax]
    rfl
  case order =>
    intro j hj k hk
    simp
  case onto =>
    intro step
    constructor
    case mp =>
      rintro ⟨k, hk, rfl⟩
      exact ⟨⟨first, hfirst, by omega⟩, last, hlast, by omega⟩
    case mpr =>
      rintro ⟨⟨first', hfirst', hge⟩, last', hlast', hle'⟩
      have := (hheld first' hfirst').1
      have := (hheld last' hlast').2
      exact ⟨step - first, by omega, by omega⟩
  case bound =>
    have hend : first + (last + 1 - first - 1) = last := by omega
    simp only [Bool.false_eq_true, if_false, hmem, decide_eq_false_iff_not, hend]
    by_cases heq : last = 2 ^ 64 - 1
    case pos => simp [heq]
    case neg =>
      rw [Nat.mod_eq_of_lt (by omega)]
      omega

theorem way_latest (hmin : s.steps.min? = some first) (hmax : s.steps.max? = some last)
    (hfirst : first ∈ s.steps) (hlast : last ∈ s.steps)
    (hheld : ∀ step ∈ s.steps, first ≤ step ∧ step ≤ last) (hbounded : s.Bounded) :
    Way s true (fun step => decide (first ≤ step)) (fun step => (step + (2 ^ 64 - 1)) % 2 ^ 64)
      (fun k => last - k) (last + 1 - first) := by
  have hle := (hheld first hfirst).2
  have hlt := hbounded last hlast
  have hmem : (0 ∈ s.steps) ↔ first = 0 := by
    constructor
    case mp =>
      intro hmem
      have := (hheld _ hmem).1
      omega
    case mpr =>
      intro heq
      exact heq ▸ hfirst
  constructor
  case toWalk =>
    constructor
    case pos => omega
    case step =>
      intro k hk
      omega
    case goes =>
      intro k hk
      rw [decide_eq_true_iff]
      omega
    case held =>
      intro step hstep
      have ⟨hge, hle⟩ := hheld step hstep
      exact ⟨last - step, by omega, by omega⟩
    case ends =>
      by_cases hend : first = 0
      case pos =>
        -- No number is smaller than the first one.
        refine .inr fun k => ?_
        rw [decide_eq_true_iff, hend]
        exact Nat.zero_le _
      case neg =>
        refine .inl ?_
        rw [decide_eq_false_iff_not]
        omega
  case select =>
    intro r turns
    simp only [selectStep, hmin, hmax]
    rfl
  case order =>
    intro j hj k hk
    simp only [if_true]
    omega
  case onto =>
    intro step
    constructor
    case mp =>
      rintro ⟨k, hk, rfl⟩
      exact ⟨⟨first, hfirst, by omega⟩, last, hlast, by omega⟩
    case mpr =>
      rintro ⟨⟨first', hfirst', hge⟩, last', hlast', hle'⟩
      have := (hheld first' hfirst').1
      have := (hheld last' hlast').2
      exact ⟨last - step, by omega, by omega⟩
  case bound =>
    simp only [if_true, hmem, decide_eq_false_iff_not]
    omega

theorem Bounded.selects_iff (hbounded : s.Bounded) : Selects s r latest ↔ Findable s r latest := by
  rcases s.extremes with hempty | ⟨first, last, hmin, hmax, hfirst, hlast, hheld⟩
  case empty =>
    have hnone (turns : Nat) : s.selectStep r latest turns = some none := by
      simp [selectStep, hempty]
    constructor
    case mp =>
      intro _
      constructor
      case gaps =>
        rintro step ⟨first, hfirst, _⟩
        simp [hempty] at hfirst
      case ends => simp [hempty]
    case mpr =>
      intro _
      exact VarMap.selects_iff.mpr ⟨none, by simp [Best, hempty], 0, hnone 0⟩
  case between =>
    cases latest with
    | true => exact (way_latest hmin hmax hfirst hlast hheld hbounded).selects_iff
    | false => exact (way_earliest hmin hmax hfirst hlast hheld hbounded).selects_iff

end Bounded

section Runs

variable {m : Metadata ε} {step step' : Nat} {ops : List (Operation ε)}

-- The steps that are held and the ones that have a count are numbers of a `size_t`.
structure Numbers (s : VarMap ε) : Prop where
  held    : s.Bounded
  counted : ∀ step, s.deserializedBlocksForStep step ≠ 0 → step < 2 ^ 64

theorem mem_upsert {α : Type} {l : List (Nat × α)} {k k' : Nat} {f : Option α → α}
    (h : k' ∈ (upsert l k f).map Prod.fst) : k' = k ∨ k' ∈ l.map Prod.fst := by
  induction l with
  | nil =>
    left
    simpa [upsert] using h
  | cons x l ih =>
    obtain ⟨i, a⟩ := x
    rw [upsert] at h
    split at h
    case isTrue heq =>
      right
      rw [heq]
      exact h
    case isFalse =>
      rcases List.mem_cons.mp h with hi | h
      · exact .inr (hi ▸ List.mem_cons_self)
      · exact (ih h).imp_right (List.mem_cons_of_mem i)

theorem Numbers.put (h : s.Numbers) {entries : List ε} (hstep : step < 2 ^ 64) :
    (s.put step entries).Numbers := by
  constructor
  case held =>
    have hheld : ∀ k ∈ s.dataManVarMap.map Prod.fst, k < 2 ^ 64 := h.held
    intro k hk
    rw [steps, VarMap.put] at hk
    revert hheld
    generalize s.dataManVarMap = l at hk
    intro hl
    induction entries generalizing l with
    | nil => exact hl k hk
    | cons e entries ih =>
      refine ih _ hk fun i hi => ?_
      rcases mem_upsert hi with heq | hi
      · exact heq ▸ hstep
      · exact hl i hi
  case counted =>
    intro k hk
    by_cases heq : k = step
    · exact heq ▸ hstep
    · rw [VarMap.put] at hk
      simp only [Function.update_of_ne heq] at hk
      exact h.counted k hk

theorem Numbers.jsonToVarMap (h : s.Numbers) (hm : ∀ x ∈ m, x.1 < 2 ^ 64) :
    (s.jsonToVarMap m).Numbers := by
  induction m generalizing s with
  | nil => exact h
  | cons x m ih =>
    exact ih (h.put (hm x List.mem_cons_self)) fun y hy => hm y (List.mem_cons_of_mem x hy)

theorem Numbers.filter (h : s.Numbers) (keep : Nat × Option (List ε) → Bool) :
    Numbers { s with dataManVarMap := s.dataManVarMap.filter keep } where
  held k hk    := h.held k (List.map_subset _ (List.filter_subset_self _) hk)
  counted k hk := h.counted k hk

theorem Numbers.vars (h : s.Numbers) (hstep : s.stepHasMinimumBlocks step r = true) :
    (s.vars step).2.Numbers where
  held k hk := by
    rcases mem_upsert hk with heq | hk
    · rw [stepHasMinimumBlocks, Bool.and_eq_true, decide_eq_true_iff] at hstep
      exact heq ▸ h.counted step hstep.1
    · exact h.held k hk
  counted k hk := h.counted k hk

theorem selectStep_some {turns : Nat} (h : s.selectStep r latest turns = some (some step)) :
    s.stepHasMinimumBlocks step r = true := by
  rw [selectStep] at h
  split at h
  case h_1 =>
    split at h
    case isTrue => exact (search_some h).2
    case isFalse => exact (search_some h).2
  case h_2 => cases h

theorem Numbers.getEarliestLatestStep (h : s.Numbers) {turns : Nat} {clock : List Bool}
    {result : Returned ε × VarMap ε}
    (hcall : s.getEarliestLatestStep r latest turns clock = some result) : result.2.Numbers := by
  cases hselect : s.selectStep r latest turns with
  | none =>
    unfold VarMap.getEarliestLatestStep at hcall
    rw [hselect] at hcall
    cases hcall
  | some found =>
    cases found with
    | none =>
      rw [getEarliestLatestStep_of_none hselect] at hcall
      cases hcall
      exact h
    | some step =>
      rw [getEarliestLatestStep_of_some hselect] at hcall
      cases hcall
      exact h.vars (selectStep_some hselect)

theorem Numbers.apply (h : s.Numbers) {op : Operation ε}
    (hop : op.Sized) : (s.apply op).Numbers := by
  cases op with
  | jsonToVarMap m => exact h.jsonToVarMap hop
  | erase step allPreviousSteps =>
    rw [VarMap.apply]
    split
    case isTrue => exact h.filter _
    case isFalse => exact h.filter _
  | getEarliestLatestStep r latest turns clock =>
    rw [VarMap.apply]
    split
    case h_1 hcall => exact h.getEarliestLatestStep hcall
    case h_2 => exact h

theorem numbers_after (hops : ∀ op ∈ ops, op.Sized) :
    (after ops).Numbers := by
  have hinit : Numbers ({} : VarMap ε) :=
    ⟨fun step hstep => absurd hstep List.not_mem_nil, fun step hstep => absurd rfl hstep⟩
  rw [after]
  revert hinit
  generalize ({} : VarMap ε) = s
  induction ops generalizing s with
  | nil => exact id
  | cons op ops ih =>
    intro hinit
    exact ih (fun op' hop => hops op' (List.mem_cons_of_mem op hop)) _
      (hinit.apply (hops op List.mem_cons_self))

end Runs

section Selection

variable {ops : List (Operation ε)}

-- A reader gets the earliest or the latest of the steps that it holds and that have the blocks, or
-- none if there is none, and exactly when no erased one lies before them and the loop has an end.
theorem getEarliestLatestStep_selects (hops : ∀ op ∈ ops, op.Sized) :
    Selects (after ops) r latest ↔ Findable (after ops) r latest :=
  (numbers_after hops).held.selects_iff

-- Three steps come from two ranks, and the first one is dropped.
def someSteps : List (Operation Nat) := [
    .jsonToVarMap [(1, [10]), (2, [20])], .jsonToVarMap [(2, [21]), (1, [11])],
    .jsonToVarMap [(3, [30])], .erase 1 true
  ]

theorem someSteps_selects :
    (Selects (after someSteps) 2 false ↔ Findable (after someSteps) 2 false) ∧
      Findable (after someSteps) 2 false := by
  refine ⟨getEarliestLatestStep_selects (by decide), ?_, ?_⟩
  case refine_1 =>
    rintro step ⟨first, hfirst, hge⟩ ⟨last, hlast, hle⟩ _ hheld
    have hmem : ∀ step ∈ (after someSteps).steps, step = 2 ∨ step = 3 := by decide
    have hin : 2 ∈ (after someSteps).steps ∧ 3 ∈ (after someSteps).steps := by decide
    have hfirst := hmem first hfirst
    have hlast := hmem last hlast
    have heq : step = 2 ∨ step = 3 := by omega
    rcases heq with rfl | rfl
    · exact absurd hin.1 hheld
    · exact absurd hin.2 hheld
  case refine_2 =>
    intro hnone
    exact absurd (hnone 2 (by decide)) (by decide)

-- The one of three steps that has all its blocks is dropped alone.
def droppedBetween : List (Operation Nat) := [
    .jsonToVarMap [(1, [10]), (2, [20]), (3, [30])], .jsonToVarMap [(2, [21])], .erase 2 false
  ]

-- Of step 0 some blocks are missing.
def incompleteStart : List (Operation Nat) := [.jsonToVarMap [(0, [0])]]

theorem dropped_is_found :
    ¬Selects (after droppedBetween) 2 false ∧ ¬Selects (after incompleteStart) 2 true := by
  constructor
  case left =>
    rw [(numbers_after (by decide)).held.selects_iff]
    intro h
    have ⟨other, hheld, hhas, _⟩ := h.gaps 2 ⟨1, by decide, by decide⟩ ⟨3, by decide, by decide⟩
      (by decide) (by decide)
    have hnone : ∀ step ∈ (after droppedBetween).steps,
        (after droppedBetween).stepHasMinimumBlocks step 2 = false := by decide
    exact absurd (hnone other hheld) (by simp [hhas])
  case right =>
    rw [(numbers_after (by decide)).held.selects_iff]
    intro h
    exact h.ends (by decide) (by decide)

end Selection

end VarMap

end DataMan
