import Mathlib

-- A number as the set of its bits.

namespace BitMask

def ofFlags : List Bool → Nat
  | []      => 0
  | b :: bs => b.toNat + 2 * ofFlags bs

variable {bs : List Bool}

theorem testBit_ofFlags (i : Nat) : (ofFlags bs).testBit i = bs.getD i false := by
  induction bs generalizing i with
  | nil => simp [ofFlags]
  | cons b bs ih =>
    cases i with
    | zero => cases b <;> simp [ofFlags, Nat.testBit_zero]
    | succ i =>
      have hdiv : (b.toNat + 2 * ofFlags bs) / 2 = ofFlags bs := by
        have := b.toNat_lt
        omega
      rw [ofFlags, Nat.testBit_succ, hdiv, ih]
      rfl

theorem ofFlags_lt : ofFlags bs < 2 ^ bs.length := by
  induction bs with
  | nil => simp [ofFlags]
  | cons b bs ih =>
    have := b.toNat_lt
    rw [ofFlags, List.length_cons, pow_succ']
    omega

theorem ofFlags_eq_zero : ofFlags bs = 0 ↔ true ∉ bs := by
  induction bs with
  | nil => simp [ofFlags]
  | cons b bs ih =>
    cases b
    · simpa [ofFlags] using ih
    · simp [ofFlags]

-- Clearing the lowest bit of a mask of which the first `b` bits are clear.
theorem ldiff_ofFlags_true (b : Nat) :
    (2 ^ b * ofFlags (true :: bs)).ldiff (2 ^ b) = 2 ^ (b + 1) * ofFlags bs := by
  apply Nat.eq_of_testBit_eq
  intro i
  rw [Nat.testBit_ldiff, Nat.testBit_two_pow_mul, Nat.testBit_two_pow_mul, Nat.testBit_two_pow,
    testBit_ofFlags, testBit_ofFlags]
  rcases Nat.lt_trichotomy i b with h | rfl | h
  · have h₁ : ¬ b ≤ i := by omega
    have h₂ : ¬ b + 1 ≤ i := by omega
    simp only [ge_iff_le, h₁, h₂, decide_false, Bool.false_and]
  · have h₂ : ¬ i + 1 ≤ i := by omega
    simp only [ge_iff_le, h₂, decide_true, decide_false, Bool.not_true, Bool.and_false,
      Bool.false_and]
  · obtain ⟨j, rfl⟩ := Nat.exists_eq_add_of_lt h
    have h₁ : b + j + 1 - b = j + 1 := by omega
    have h₂ : b + j + 1 - (b + 1) = j := by omega
    have h₃ : b ≠ b + j + 1 := by omega
    have h₄ : b ≤ b + j + 1 := by omega
    have h₅ : b + 1 ≤ b + j + 1 := by omega
    simp only [ge_iff_le, h₁, h₂, h₃, h₄, h₅, decide_true, decide_false, Bool.not_false,
      Bool.and_true, Bool.true_and]
    rfl

theorem testBit_ofFlags_shift (b : Nat) (x : Bool) (bs : List Bool) :
    (2 ^ b * ofFlags (x :: bs)).testBit b = x := by
  rw [Nat.testBit_two_pow_mul, Nat.sub_self, testBit_ofFlags]
  simp

end BitMask
