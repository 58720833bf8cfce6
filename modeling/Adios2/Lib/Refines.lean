import Mathlib

-- Two computations of which the first one does what the second one does, wherever that is defined.

namespace Refinement

universe u

variable {ε : Type*} {α β α' β' : Type u} {bad : ε} {R : α → β → Prop} {S : α' → β' → Prop}

def Refines (bad : ε) (R : α → β → Prop) (x : Except ε α) (y : Except ε β) : Prop :=
  match y with
  | .ok b    => ∃ a, x = .ok a ∧ R a b
  | .error e => e = bad ∨ x = .error e

theorem Refines.ok {a : α} {b : β} (h : R a b) :
    Refines bad R (.ok a) (.ok b) := ⟨a, rfl, h⟩

theorem Refines.of_bad (x : Except ε α) :
    Refines bad R x (.error bad) := .inl rfl

theorem Refines.refl {R : α → α → Prop} (h : ∀ a, R a a) (x : Except ε α) :
    Refines bad R x x := by
  cases x
  case error e => exact .inr rfl
  case ok a => exact .ok (h a)

theorem Refines.bind {x : Except ε α} {y : Except ε β} {f : α → Except ε α'} {g : β → Except ε β'}
    (h : Refines bad R x y) (hfg : ∀ a b, R a b → Refines bad S (f a) (g b)) :
    Refines bad S (x >>= f) (y >>= g) := by
  cases y
  case error e =>
    rcases h with rfl | rfl
    · exact .inl rfl
    · exact .inr rfl
  case ok b =>
    obtain ⟨a, rfl, hab⟩ := h
    exact hfg a b hab

theorem Refines.mapM {l : List α} {l' : List β} {f : α → Except ε α'} {g : β → Except ε β'}
    (h : List.Forall₂ R l l') (hfg : ∀ a b, R a b → Refines bad S (f a) (g b)) :
    Refines bad (List.Forall₂ S) (l.mapM f) (l'.mapM g) := by
  induction h with
  | nil => exact .ok .nil
  | cons hab _ ih =>
    rw [List.mapM_cons, List.mapM_cons]
    refine (hfg _ _ hab).bind fun a b hab' => ih.bind fun as bs h' => ?_
    exact .ok (.cons hab' h')

theorem refines_eq_iff {x y : Except ε α} :
    Refines bad Eq x y ↔ (y ≠ .error bad → x = y) := by
  cases y
  case error e => simp [Refines, or_iff_not_imp_left]
  case ok b => simp [Refines]

end Refinement
