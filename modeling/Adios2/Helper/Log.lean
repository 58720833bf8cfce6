import Mathlib.Data.List.Forall2
import Adios2.Lib.Cursor

-- How a call of the library can fail to return: with an exception, or by leaving what the language
-- defines (an access outside of a buffer, a division by zero). Where a loop need not end, its model
-- can run out of fuel.

inductive Fault
  | undefined
  | outOfFuel
  | thrown (component source activity message : String)
  | logicError (message : String)
  deriving DecidableEq, Repr

abbrev Outcome := Except Fault

def Option.orUndefined {α} : Option α → Outcome α
  | some a => .ok a
  | none   => .error .undefined

@[simp]
theorem Option.orUndefined_some {α} (a : α) : (some a).orUndefined = .ok a := rfl

@[simp]
theorem Option.orUndefined_none {α} : (none : Option α).orUndefined = .error .undefined := rfl

@[simp]
theorem Option.orUndefined_eq_ok {α} {o : Option α} {a : α} :
    o.orUndefined = .ok a ↔ o = some a := by
  cases o <;> simp [Option.orUndefined]

namespace Outcome

@[simp]
theorem ok_bind {α β} (a : α) (f : α → Outcome β) : (Except.ok a >>= f) = f a := rfl

@[simp]
theorem pure_eq {α} (a : α) : (pure a : Outcome α) = .ok a := rfl

@[simp]
theorem error_bind {α β} (e : Fault) (f : α → Outcome β) :
    ((Except.error e : Outcome α) >>= f) = Except.error e := rfl

-- A sequence that returned has returned from its first part.
theorem bind_eq_ok {α β} {x : Outcome α} {f : α → Outcome β} {b : β} :
    (x >>= f) = .ok b ↔ ∃ a, x = .ok a ∧ f a = .ok b := by
  cases x
  case error => simp
  case ok a => simp

instance {α} (x : Outcome α) (p : α → Prop) [DecidablePred p] :
    Decidable (∀ a, x = .ok a → p a) :=
  match x with
  | .ok a    => decidable_of_iff (p a) ⟨fun h _ heq => Except.ok.inj heq ▸ h, fun h => h a rfl⟩
  | .error _ => .isTrue fun _ h => nomatch h

theorem mapM_eq_ok {α β} {l : List α} {f : α → Outcome β} {g : α → β}
    (h : ∀ a ∈ l, f a = .ok (g a)) : l.mapM f = .ok (l.map g) := by
  induction l with
  | nil => rfl
  | cons a l ih =>
    rw [List.mapM_cons, h a List.mem_cons_self, ok_bind,
      ih fun a ha => h a (List.mem_cons_of_mem _ ha), ok_bind]
    rfl

theorem exists_mapM_eq_ok {α β} {l : List α} {f : α → Outcome β} (h : ∀ a ∈ l, ∃ b, f a = .ok b) :
    ∃ bs, l.mapM f = .ok bs := by
  induction l with
  | nil => exact ⟨[], rfl⟩
  | cons a l ih =>
    have ⟨b, hb⟩ := h a List.mem_cons_self
    have ⟨bs, hbs⟩ := ih fun a ha => h a (List.mem_cons_of_mem _ ha)
    exact ⟨b :: bs, by rw [List.mapM_cons, hb, ok_bind, hbs]; rfl⟩

theorem exists_of_mem_mapM {α β} {l : List α} {f : α → Outcome β} {bs : List β}
    (h : l.mapM f = .ok bs) {b : β} (hb : b ∈ bs) : ∃ a ∈ l, f a = .ok b := by
  induction l generalizing bs with
  | nil =>
    have hbs : [] = bs := Except.ok.inj h
    exact absurd (hbs ▸ hb) List.not_mem_nil
  | cons a l ih =>
    rw [List.mapM_cons] at h
    obtain ⟨c, hc, h⟩ := bind_eq_ok.mp h
    obtain ⟨cs, hcs, h⟩ := bind_eq_ok.mp h
    have hbs : c :: cs = bs := Except.ok.inj h
    subst hbs
    rcases List.mem_cons.mp hb with rfl | hb
    · exact ⟨a, List.mem_cons_self, hc⟩
    · have ⟨a', ha', hok⟩ := ih hcs hb
      exact ⟨a', List.mem_cons_of_mem _ ha', hok⟩

theorem mapM_eq_ok_iff {α β} {f : α → Outcome β} {l : List α} {bs : List β} :
    l.mapM f = .ok bs ↔ List.Forall₂ (fun a b => f a = .ok b) l bs := by
  induction l generalizing bs with
  | nil => simp [eq_comm]
  | cons a l ih =>
    rw [List.mapM_cons, List.forall₂_cons_left_iff, bind_eq_ok]
    constructor
    · rintro ⟨b, hb, h⟩
      obtain ⟨bs', hbs', h⟩ := bind_eq_ok.mp h
      cases h
      exact ⟨b, bs', hb, ih.mp hbs', rfl⟩
    · rintro ⟨b, bs', hb, hbs', rfl⟩
      exact ⟨b, hb, bind_eq_ok.mpr ⟨bs', ih.mpr hbs', rfl⟩⟩

theorem map_eq_ok {α β} {f : α → β} {x : Outcome α} {b : β} :
    f <$> x = .ok b ↔ ∃ a, x = .ok a ∧ f a = b := by
  cases x <;> simp

theorem map_eq_error {α β} {f : α → β} {x : Outcome α} {fault : Fault} :
    f <$> x = .error fault ↔ x = .error fault := by
  cases x <;> simp

end Outcome
