import Adios2.Format.BP5.SerializerFields
import Adios2.Format.BP5.DeserializerControl

-- The decoder of the reader takes back what the encoder of the writer has made of a string, whether
-- or not the text ends with the '=' that the decoder stops at.

namespace BP5

open Bytes CString

theorem charToNum_numToChar : ∀ n < 64, charToNum (numToChar n) = n := by
  decide +kernel

theorem numToChar_ne : ∀ n < 64, numToChar n ≠ 61 ∧ numToChar n ≠ 45 ∧ numToChar n ≠ 0 := by
  decide +kernel

theorem and_f0 : ∀ c < 256, (c &&& 0xf0) >>> 4 = c / 16 := by
  decide +kernel

theorem and_c0 : ∀ c < 256, (c &&& 0xc0) >>> 6 = c / 64 := by
  decide +kernel

theorem shift_and_f0 : ∀ n < 64, (n <<< 4) &&& 0xf0 = n % 16 * 16 := by
  decide

theorem shift_and_c0 : ∀ n < 64, (n <<< 6) &&& 0xc0 = n % 4 * 64 := by
  decide

theorem and_3 (c : Nat) : c &&& 0x3 = c % 4 :=
  Nat.and_two_pow_sub_one_eq_mod c 2

theorem and_f (c : Nat) : c &&& 0xf = c % 16 :=
  Nat.and_two_pow_sub_one_eq_mod c 4

theorem and_3f (c : Nat) : c &&& 0x3f = c % 64 :=
  Nat.and_two_pow_sub_one_eq_mod c 6

theorem shiftLeft_or {a b i : Nat} (hb : b < 2 ^ i) : (a <<< i) ||| b = a * 2 ^ i + b := by
  rw [← Nat.shiftLeft_add_eq_or_of_lt hb, Nat.shiftLeft_eq]

-- The four numbers that stand for three bytes.
theorem sextets {c1 c2 c3 : Nat} (h2 : c2 < 256) (h3 : c3 < 256) :
    c1 >>> 2 = c1 / 4 ∧
    ((c1 &&& 0x3) <<< 4) ||| ((c2 &&& 0xf0) >>> 4) = c1 % 4 * 16 + c2 / 16 ∧
    ((c2 &&& 0xf) <<< 2) ||| ((c3 &&& 0xc0) >>> 6) = c2 % 16 * 4 + c3 / 64 ∧
    c3 &&& 0x3f = c3 % 64 := by
  refine ⟨Nat.shiftRight_eq_div_pow c1 2, ?_, ?_, and_3f c3⟩
  case refine_1 => rw [and_f0 c2 h2, and_3, shiftLeft_or (by omega), show 2 ^ 4 = 16 from rfl]
  case refine_2 => rw [and_c0 c3 h3, and_f, shiftLeft_or (by omega), show 2 ^ 2 = 4 from rfl]

-- The three bytes that four numbers stand for.
theorem octets {n1 n2 n3 n4 : Nat} (h2 : n2 < 64) (h3 : n3 < 64) (h4 : n4 < 64) :
    (n1 <<< 2) ||| (n2 >>> 4) = n1 * 4 + n2 / 16 ∧
    ((n2 <<< 4) &&& 0xf0) ||| (n3 >>> 2) = n2 % 16 * 16 + n3 / 4 ∧
    ((n3 <<< 6) &&& 0xc0) ||| n4 = n3 % 4 * 64 + n4 := by
  refine ⟨?_, ?_, ?_⟩
  case refine_1 =>
    rw [Nat.shiftRight_eq_div_pow]
    exact shiftLeft_or (by omega)
  case refine_2 =>
    have := @shiftLeft_or (n2 % 16) (n3 / 4) 4 (by omega)
    rw [Nat.shiftLeft_eq] at this
    rw [shift_and_f0 n2 h2, Nat.shiftRight_eq_div_pow]
    exact this
  case refine_3 =>
    have := @shiftLeft_or (n3 % 4) n4 6 (by omega)
    rw [Nat.shiftLeft_eq] at this
    rw [shift_and_c0 n3 h3]
    exact this

theorem ofNat_eq {n : Nat} {b : Byte} (h : n = b.toNat) : UInt8.ofNat n = b := by
  subst h
  exact UInt8.ofNat_toNat

theorem base64Chars_length (bs : List Byte) :
    (base64Chars bs).length = 4 * ((bs.length + 2) / 3) := by
  induction bs using base64Chars.induct with
  | case1 => rfl
  | case2 c1 => simp [base64Chars]
  | case3 c1 c2 => simp [base64Chars]
  | case4 c1 c2 c3 rest ih =>
    simp only [base64Chars, List.length_cons, ih]
    omega

-- The encoded text has no '-', so that a '-' ends it.
theorem base64Chars_ne (bs : List Byte) : ∀ c ∈ base64Chars bs, c ≠ 45 ∧ c ≠ 0 := by
  have hchar (n : Nat) (hn : n < 64) : numToChar n ≠ 45 ∧ numToChar n ≠ 0 :=
    (numToChar_ne n hn).right
  have hequals : equalsSign ≠ 45 ∧ equalsSign ≠ 0 := by decide
  induction bs using base64Chars.induct with
  | case1 => simp [base64Chars]
  | case2 c1 =>
    have h1 := c1.toNat_lt
    have ⟨e1, e2, _, _⟩ := @sextets c1.toNat 0 0 (by omega) (by omega)
    simp only [Nat.zero_and, Nat.zero_shiftRight, Nat.or_zero] at e2
    simp only [base64Chars, List.forall_mem_cons, e1, e2]
    exact ⟨hchar _ (by omega), hchar _ (by omega), hequals, hequals, by simp⟩
  | case3 c1 c2 =>
    have h1 := c1.toNat_lt
    have h2 := c2.toNat_lt
    have ⟨e1, e2, e3, _⟩ := @sextets c1.toNat c2.toNat 0 (by omega) (by omega)
    simp only [Nat.zero_and, Nat.zero_shiftRight, Nat.or_zero] at e3
    simp only [base64Chars, List.forall_mem_cons, e1, e2, e3]
    exact ⟨hchar _ (by omega), hchar _ (by omega), hchar _ (by omega), hequals, by simp⟩
  | case4 c1 c2 c3 rest ih =>
    have h1 := c1.toNat_lt
    have h2 := c2.toNat_lt
    have h3 := c3.toNat_lt
    have ⟨e1, e2, e3, e4⟩ := @sextets c1.toNat c2.toNat c3.toNat (by omega) (by omega)
    simp only [base64Chars, List.forall_mem_cons, e1, e2, e3, e4]
    exact ⟨hchar _ (by omega), hchar _ (by omega), hchar _ (by omega), hchar _ (by omega), ih⟩

theorem base64Decode_dash (input : List Byte) : (base64Decode (45 :: input)).2 = [] := by
  have hdash : charToNum 45 = -1 := by decide
  unfold base64Decode
  split
  case h_1 => rfl
  case h_2 heq =>
    obtain ⟨rfl, _⟩ := List.cons.inj heq
    rw [if_pos (.inl hdash)]
  case h_3 => rfl

theorem not_invalid {n : Nat} (hn : n < 64) : charToNum (numToChar n) ≠ -1 := by
  rw [charToNum_numToChar n hn]
  omega

-- One group without padding.
theorem base64Decode_group {n1 n2 n3 n4 : Nat} (h1 : n1 < 64) (h2 : n2 < 64) (h3 : n3 < 64)
    (h4 : n4 < 64) (input : List Byte) :
    (base64Decode (numToChar n1 :: numToChar n2 :: numToChar n3 :: numToChar n4 :: input)).2 =
      UInt8.ofNat (n1 * 4 + n2 / 16) :: UInt8.ofNat (n2 % 16 * 16 + n3 / 4) ::
        UInt8.ofNat (n3 % 4 * 64 + n4) :: (base64Decode input).2 := by
  have ⟨o1, o2, o3⟩ := @octets n1 n2 n3 n4 h2 h3 h4
  rw [base64Decode, if_neg (by simp [not_invalid, h1, h2, h3, h4])]
  simp only [charToNum_numToChar, h1, h2, h3, h4, (numToChar_ne _ _).left, Int.toNat_natCast,
    if_false, o1, o2, o3]

theorem base64Decode_one {n1 n2 : Nat} (h1 : n1 < 64) (h2 : n2 < 64) (input : List Byte) :
    (base64Decode (numToChar n1 :: numToChar n2 :: 61 :: 61 :: input)).2 =
      [UInt8.ofNat (n1 * 4 + n2 / 16)] := by
  have ⟨o1, _, _⟩ := @octets n1 n2 0 0 h2 (by omega) (by omega)
  rw [base64Decode, if_neg (by simp [not_invalid, h1, h2])]
  simp only [charToNum_numToChar, h1, h2, Int.toNat_natCast, if_true, o1]

theorem base64Decode_two {n1 n2 n3 : Nat} (h1 : n1 < 64) (h2 : n2 < 64) (h3 : n3 < 64)
    (input : List Byte) :
    (base64Decode (numToChar n1 :: numToChar n2 :: numToChar n3 :: 61 :: input)).2 =
      [UInt8.ofNat (n1 * 4 + n2 / 16), UInt8.ofNat (n2 % 16 * 16 + n3 / 4)] := by
  have ⟨o1, o2, _⟩ := @octets n1 n2 n3 0 h2 h3 (by omega)
  rw [base64Decode, if_neg (by simp [not_invalid, h1, h2, h3])]
  simp only [charToNum_numToChar, h1, h2, h3, (numToChar_ne _ _).left, Int.toNat_natCast, if_true,
    if_false, o1, o2]

-- What is decoded in front of a '-' is what was encoded.
theorem base64Decode_base64Chars (bs : List Byte) (input : List Byte) :
    (base64Decode (base64Chars bs ++ 45 :: input)).2 = bs := by
  induction bs using base64Chars.induct with
  | case1 => exact base64Decode_dash input
  | case2 c1 =>
    have h1 := c1.toNat_lt
    have ⟨e1, e2, _, _⟩ := @sextets c1.toNat 0 0 (by omega) (by omega)
    simp only [Nat.zero_and, Nat.zero_shiftRight, Nat.or_zero] at e2
    simp only [base64Chars, List.cons_append, List.nil_append, e1, e2, equalsSign]
    rw [base64Decode_one (by omega) (by omega), ofNat_eq (b := c1) (by omega)]
  | case3 c1 c2 =>
    have h1 := c1.toNat_lt
    have h2 := c2.toNat_lt
    have ⟨e1, e2, e3, _⟩ := @sextets c1.toNat c2.toNat 0 (by omega) (by omega)
    simp only [Nat.zero_and, Nat.zero_shiftRight, Nat.or_zero] at e3
    simp only [base64Chars, List.cons_append, List.nil_append, e1, e2, e3, equalsSign]
    rw [base64Decode_two (by omega) (by omega) (by omega), ofNat_eq (b := c1) (by omega),
      ofNat_eq (b := c2) (by omega)]
  | case4 c1 c2 c3 rest ih =>
    have h1 := c1.toNat_lt
    have h2 := c2.toNat_lt
    have h3 := c3.toNat_lt
    have ⟨e1, e2, e3, e4⟩ := @sextets c1.toNat c2.toNat c3.toNat (by omega) (by omega)
    simp only [base64Chars, List.cons_append, e1, e2, e3, e4]
    rw [base64Decode_group (by omega) (by omega) (by omega) (by omega), ih,
      ofNat_eq (b := c1) (by omega), ofNat_eq (b := c2) (by omega), ofNat_eq (b := c3) (by omega)]

end BP5
