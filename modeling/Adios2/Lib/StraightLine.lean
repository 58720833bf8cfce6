import Mathlib

-- Programs without jumps: instructions that read some names and write one. What a name holds is
-- needed from where it is written to where it is read last.

namespace StraightLine

variable {ι β σ : Type*} (inputs : ι → List β) (output : ι → β)

def WrittenBefore (is : List ι) (k : Nat) (b : β) : Prop :=
  ∃ j < k, ∃ i, is[j]? = some i ∧ output i = b

def ReadFrom (is : List ι) (k : Nat) (b : β) : Prop :=
  ∃ j ≥ k, ∃ i, is[j]? = some i ∧ b ∈ inputs i

def Live (is : List ι) (k : Nat) (b : β) : Prop :=
  WrittenBefore output is k b ∧ ReadFrom inputs is k b

-- No instruction writes to the place of a name that is still needed.
def InterferenceFree (is : List ι) (place : β → σ) : Prop :=
  ∀ k i b, is[k]? = some i → Live inputs output is k b → place b ≠ place (output i)

variable {inputs output} {is : List ι} {k : Nat} {i : ι} {b : β}

theorem WrittenBefore.succ (hi : is[k]? = some i) (h : WrittenBefore output is (k + 1) b) :
    b = output i ∨ WrittenBefore output is k b := by
  obtain ⟨j, hj, i', hi', hb⟩ := h
  rcases Nat.lt_succ_iff_lt_or_eq.mp hj with hlt | rfl
  · exact .inr ⟨j, hlt, i', hi', hb⟩
  · rw [hi] at hi'
    exact .inl (Option.some.inj hi' ▸ hb.symm)

theorem WrittenBefore.mono {k' : Nat} (h : WrittenBefore output is k b) (hk : k ≤ k') :
    WrittenBefore output is k' b := by
  obtain ⟨j, hj, h⟩ := h
  exact ⟨j, Nat.lt_of_lt_of_le hj hk, h⟩

theorem writtenBefore_succ (hi : is[k]? = some i) : WrittenBefore output is (k + 1) (output i) :=
  ⟨k, Nat.lt_succ_self k, i, hi, rfl⟩

theorem ReadFrom.of_succ (h : ReadFrom inputs is (k + 1) b) : ReadFrom inputs is k b := by
  obtain ⟨j, hj, h⟩ := h
  exact ⟨j, Nat.le_of_succ_le hj, h⟩

-- What is needed after an instruction was needed before it, or is what it writes.
theorem Live.of_succ (hi : is[k]? = some i) (h : Live inputs output is (k + 1) b) :
    b = output i ∨ Live inputs output is k b :=
  (h.left.succ hi).imp_right fun hw => ⟨hw, h.right.of_succ⟩

theorem not_live_zero : ¬Live inputs output is 0 b :=
  fun ⟨⟨_, hj, _⟩, _⟩ => Nat.not_lt_zero _ hj

end StraightLine
