import Adios2.Helper.Log

-- Threads that work on one state under a lock. A task is what a thread does from where it takes the
-- lock to where it gives it up; it names the tasks that the thread goes on with. Between two tasks
-- of a thread the others can run, so that a run is any interleaving of tasks.

namespace Threads

variable {ι σ τ ε : Type*}

structure Program (ι σ τ ε : Type*) where
  -- a task that waits for a condition runs when it holds
  ready  : τ → σ → Prop
  exec   : ε → τ → σ → Outcome (σ × List τ)
  -- what a thread can begin with when it has nothing to do
  begins : ι → σ → List τ → Prop

structure Configuration (ι σ τ : Type*) where
  state   : σ
  threads : ι → List τ

inductive Event (ι τ ε : Type*)
  | run (i : ι) (e : ε)
  | start (i : ι) (ts : List τ)

variable [DecidableEq ι]

inductive Step (P : Program ι σ τ ε) :
    Configuration ι σ τ → Event ι τ ε → Configuration ι σ τ → Prop
  | run {c : Configuration ι σ τ} {i : ι} {e : ε} {t : τ} {rest ts : List τ} {s : σ}
      (thread : c.threads i = t :: rest) (ready : P.ready t c.state)
      (exec : P.exec e t c.state = .ok (s, ts)) :
      Step P c (.run i e) { state := s, threads := Function.update c.threads i (ts ++ rest) }
  | start {c : Configuration ι σ τ} {i : ι} {ts : List τ} (idle : c.threads i = [])
      (begins : P.begins i c.state ts) :
      Step P c (.start i ts) { c with threads := Function.update c.threads i ts }

-- Runs of which every step meets a condition on the configuration in front of it.
inductive Reaches (P : Program ι σ τ ε) (C : Configuration ι σ τ → Event ι τ ε → Prop) :
    Configuration ι σ τ → Configuration ι σ τ → Prop
  | refl {c : Configuration ι σ τ} : Reaches P C c c
  | tail {c c' c'' : Configuration ι σ τ} {ev : Event ι τ ε} (run : Reaches P C c c')
      (cond : C c' ev) (step : Step P c' ev c'') : Reaches P C c c''

variable {P : Program ι σ τ ε} {C : Configuration ι σ τ → Event ι τ ε → Prop}

namespace Reaches

theorem single {c c' : Configuration ι σ τ} {ev : Event ι τ ε} (hc : C c ev)
    (h : Step P c ev c') : Reaches P C c c' :=
  .tail .refl hc h

theorem trans {c₁ c₂ c₃ : Configuration ι σ τ} (h : Reaches P C c₁ c₂) (h' : Reaches P C c₂ c₃) :
    Reaches P C c₁ c₃ := by
  induction h' with
  | refl => exact h
  | tail _ cond step ih => exact .tail ih cond step

-- What holds at the start and is kept by every step holds in all that is reached.
theorem invariant {I : Configuration ι σ τ → Prop} {c c' : Configuration ι σ τ}
    (h : Reaches P C c c') (init : I c)
    (keep : ∀ {c₁ ev c₂}, I c₁ → C c₁ ev → Step P c₁ ev c₂ → I c₂) : I c' := by
  induction h with
  | refl => exact init
  | tail _ cond step ih => exact keep ih cond step

-- A transitive relation between the configurations around every step relates the ends of a run.
theorem relation {R : Configuration ι σ τ → Configuration ι σ τ → Prop}
    {I : Configuration ι σ τ → Prop} {c c' : Configuration ι σ τ} (h : Reaches P C c c')
    (init : I c) (rfl : ∀ c, R c c) (trans : ∀ {c₁ c₂ c₃}, R c₁ c₂ → R c₂ c₃ → R c₁ c₃)
    (keep : ∀ {c₁ ev c₂}, I c₁ → C c₁ ev → Step P c₁ ev c₂ → I c₂ ∧ R c₁ c₂) : R c c' ∧ I c' := by
  induction h with
  | refl => exact ⟨rfl _, init⟩
  | tail _ cond step ih =>
    have ⟨hi, hr⟩ := keep ih.right cond step
    exact ⟨trans ih.left hr, hi⟩

end Reaches

-- Where every step makes an amount of work less, no run goes on for ever.
theorem not_run_forever {I : Configuration ι σ τ → Prop} {w : Configuration ι σ τ → Nat}
    (keep : ∀ {c₁ ev c₂}, I c₁ → C c₁ ev → Step P c₁ ev c₂ → I c₂ ∧ w c₂ < w c₁)
    {run : Nat → Configuration ι σ τ} (init : I (run 0)) :
    ¬ ∀ n, ∃ ev, C (run n) ev ∧ Step P (run n) ev (run (n + 1)) := by
  intro h
  have hwork (n : Nat) : I (run n) ∧ w (run n) + n ≤ w (run 0) := by
    induction n with
    | zero => exact ⟨init, le_rfl⟩
    | succ n ih =>
      have ⟨ev, hc, hstep⟩ := h n
      have ⟨hi, hlt⟩ := keep ih.left hc hstep
      exact ⟨hi, by omega⟩
  have := (hwork (w (run 0) + 1)).right
  omega

-- Runs that are computed from their events.

section Following

variable (P C)
variable [∀ t s, Decidable (P.ready t s)] [∀ i s ts, Decidable (P.begins i s ts)]
variable [∀ c ev, Decidable (C c ev)]

def Program.next (c : Configuration ι σ τ) (ev : Event ι τ ε) : Option (Configuration ι σ τ) :=
  if C c ev then
    match ev with
    | .run i e =>
      match c.threads i with
      | []        => none
      | t :: rest =>
        if P.ready t c.state then
          match P.exec e t c.state with
          | .ok (s, ts) => some { state := s, threads := Function.update c.threads i (ts ++ rest) }
          | .error _    => none
        else
          none
    | .start i ts =>
      if (c.threads i).isEmpty ∧ P.begins i c.state ts then
        some { c with threads := Function.update c.threads i ts }
      else
        none
  else
    none

def Program.follow (c : Configuration ι σ τ) : List (Event ι τ ε) → Option (Configuration ι σ τ)
  | []        => some c
  | ev :: evs => (P.next C c ev).bind fun c' => Program.follow c' evs

variable {P C}

theorem Program.step_of_next {c c' : Configuration ι σ τ} {ev : Event ι τ ε}
    (h : P.next C c ev = some c') : C c ev ∧ Step P c ev c' := by
  unfold Program.next at h
  split at h
  case isFalse => cases h
  case isTrue hc =>
    refine ⟨hc, ?_⟩
    cases ev with
    | run i e =>
      dsimp only at h
      split at h
      · cases h
      · rename_i t rest hthread
        split at h
        case isFalse => cases h
        case isTrue hready =>
          split at h
          · rename_i s ts hexec
            cases h
            exact .run hthread hready hexec
          · cases h
    | start i ts =>
      dsimp only at h
      split at h
      case isFalse => cases h
      case isTrue hbegins =>
        cases h
        exact .start (List.isEmpty_iff.mp hbegins.left) hbegins.right

theorem Reaches.of_follow {c c' : Configuration ι σ τ} {evs : List (Event ι τ ε)}
    (h : P.follow C c evs = some c') : Reaches P C c c' := by
  induction evs generalizing c with
  | nil =>
    cases h
    exact .refl
  | cons ev evs ih =>
    have ⟨c₁, hnext, h⟩ := Option.bind_eq_some_iff.mp h
    have ⟨hc, hstep⟩ := Program.step_of_next hnext
    exact (single hc hstep).trans (ih h)

theorem Reaches.exists_of_follow {c : Configuration ι σ τ} (evs : List (Event ι τ ε))
    (q : Configuration ι σ τ → Bool) (h : (P.follow C c evs).any q = true) :
    ∃ c', Reaches P C c c' ∧ q c' := by
  have ⟨c', hc', hq⟩ := (Option.any_eq_true _ _).mp h
  exact ⟨c', .of_follow hc', hq⟩

end Following

end Threads
