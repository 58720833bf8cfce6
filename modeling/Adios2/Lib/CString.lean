import Adios2.Helper.Log

-- Strings of C, as the characters from a pointer up to the terminating NUL, and the functions of
-- the C library on them.

namespace CString

open Bytes

def ascii (s : String) : List Byte :=
  s.toList.map fun c => UInt8.ofNat c.toNat

-- `s[i]`
def charAt (s : List Byte) (i : Nat) : Outcome Byte :=
  if i < s.length then
    .ok (s.getD i 0)
  else if i = s.length then
    .ok 0
  else
    .error .undefined

-- `s + n`
def advance (s : List Byte) (n : Int) : Outcome (List Byte) :=
  if 0 ≤ n ∧ n ≤ s.length then .ok (s.drop n.toNat) else .error .undefined

def strchr : List Byte → Byte → Option (List Byte)
  | [], _     => none
  | b :: s, c => if b = c then some (b :: s) else strchr s c

def strrchr (s : List Byte) (c : Byte) : Option Nat :=
  (s.reverse.findIdx? (· = c)).map (s.length - 1 - ·)

def isSpace (c : Byte) : Bool :=
  c = 32 || (9 ≤ c && c ≤ 13)

def isDigit (c : Byte) : Bool :=
  48 ≤ c && c ≤ 57

-- `%d`, `%zd` and `%zu` of a number that is not negative.
def decimal (n : Nat) : List Byte :=
  (Nat.toDigits 10 n).map fun c => UInt8.ofNat c.toNat

def signedDecimal (n : Int) : List Byte :=
  if 0 ≤ n then decimal n.toNat else 45 :: decimal n.natAbs

def digitsValue (ds : List Byte) : Nat :=
  ds.foldl (fun n d => 10 * n + (d.toNat - 48)) 0

-- A decimal integer in front of a string: blanks, a sign and at least one digit.
def scanInt (s : List Byte) : Option (Int × List Byte) :=
  let unsigned (t : List Byte) : Option (Nat × List Byte) :=
    if t.takeWhile isDigit = [] then
      none
    else
      some (digitsValue (t.takeWhile isDigit), t.dropWhile isDigit)
  match s.dropWhile isSpace with
  | 45 :: t => (unsigned t).map fun (n, rest) => (-n, rest)
  | 43 :: t => (unsigned t).map fun (n, rest) => (n, rest)
  | t       => (unsigned t).map fun (n, rest) => (n, rest)

-- `strtol(s, &end, 10)`
def strtol (s : List Byte) : Int × List Byte :=
  match scanInt s with
  | none           => (0, s)
  | some (n, rest) => (max (-2 ^ 63) (min (2 ^ 63 - 1) n), rest)

-- `std::stoul`
def stoul (token : List Byte) : Outcome Nat :=
  match scanInt token with
  | none        => .error (.logicError "stoul")
  | some (v, _) =>
    if v.natAbs < 2 ^ 64 then
      pure (v % 2 ^ 64).toNat
    else
      .error (.logicError "stoul")

-- `%d` of a `sscanf`. A number that no `int` holds leaves what the language defines.
def sscanfInt (s : List Byte) : Outcome (Option (Int × List Byte)) :=
  match scanInt s with
  | none           => .ok none
  | some (n, rest) =>
    if -2 ^ 31 ≤ n ∧ n < 2 ^ 31 then .ok (some (n, rest)) else .error .undefined

-- The value of the type `int` that a conversion from a wider type gives.
def toInt (n : Int) : Int :=
  n.bmod (2 ^ 32)

def hexDigit (n : Nat) : Byte :=
  if n < 10 then UInt8.ofNat (48 + n) else UInt8.ofNat (87 + n)

-- `%02x` of an `unsigned char`
def hexByte (b : Byte) : List Byte :=
  [hexDigit (b.toNat / 16), hexDigit (b.toNat % 16)]

def hexValue (c : Byte) : Option Nat :=
  if 48 ≤ c ∧ c ≤ 57 then
    some (c.toNat - 48)
  else if 97 ≤ c ∧ c ≤ 102 then
    some (c.toNat - 87)
  else if 65 ≤ c ∧ c ≤ 70 then
    some (c.toNat - 55)
  else
    none

-- `sscanf(s, "%02x", &n)` where two digits follow. Without a digit nothing is assigned, and shorter
-- numbers, signs and blanks are not written by anyone.
def sscanfHexByte : List Byte → Outcome Nat
  | c :: d :: _ =>
    match hexValue c, hexValue d with
    | some m, some n => .ok (16 * m + n)
    | _, _           => .error .undefined
  | _ => .error .undefined

-- `snprintf` into a buffer of `size` bytes.
def snprintf (size : Nat) (text : List Byte) : List Byte :=
  text.take (size - 1)

-- `strcpy` and `strcat` of a text that then stands in a buffer of `size` bytes.
def inBuffer (size : Nat) (text : List Byte) : Outcome (List Byte) :=
  if text.length < size then .ok text else .error .undefined

-- The lines that `std::getline` finds.
def getlines (delim : Byte) (s : List Byte) : List (List Byte) :=
  let lines := s.splitOn delim
  if lines.getLast? = some [] then lines.dropLast else lines

-- Characters behind which a decimal number in front of them does not go on.
def EndsNumber (s : List Byte) : Prop :=
  ∀ c ∈ s.head?, isDigit c = false

theorem snprintf_of_lt {size : Nat} {text : List Byte} (h : text.length < size) :
    snprintf size text = text :=
  List.take_of_length_le (by omega)

theorem inBuffer_of_lt {size : Nat} {text : List Byte} (h : text.length < size) :
    inBuffer size text = .ok text :=
  if_pos h

theorem advance_append {a : List Byte} {n : Int} (h : a.length = n) (s : List Byte) :
    advance (a ++ s) n = .ok s := by
  subst h
  simp [advance]

theorem charAt_append_cons (a : List Byte) (c : Byte) (s : List Byte) :
    charAt (a ++ c :: s) a.length = .ok c := by
  simp [charAt]

theorem strchr_append_cons {a : List Byte} {c : Byte} (h : c ∉ a) (s : List Byte) :
    strchr (a ++ c :: s) c = some (c :: s) := by
  induction a with
  | nil => simp [strchr]
  | cons b a ih =>
    rw [List.mem_cons, not_or] at h
    rw [List.cons_append, strchr, if_neg (Ne.symm h.left), ih h.right]

theorem digitChar_isDigit : ∀ d < 10, isDigit (UInt8.ofNat (Nat.digitChar d).toNat) = true := by
  decide

theorem digitChar_value :
    ∀ d < 10, (UInt8.ofNat (Nat.digitChar d).toNat).toNat - 48 = d := by
  decide

-- The last digit of a number comes off its end.
theorem decimal_eq (n : Nat) :
    decimal n =
      (if n < 10 then [] else decimal (n / 10)) ++ [UInt8.ofNat (Nat.digitChar (n % 10)).toNat] := by
  unfold decimal
  rw [Nat.toDigits_eq_if (by omega)]
  split
  case isTrue h => simp [Nat.mod_eq_of_lt h]
  case isFalse => simp

theorem decimal_digits (n : Nat) : ∀ c ∈ decimal n, isDigit c = true := by
  induction n using Nat.strong_induction_on with
  | _ n ih =>
    intro c hc
    rw [decimal_eq, List.mem_append, List.mem_singleton] at hc
    cases hc
    case inl hc =>
      split at hc
      case isTrue => simp at hc
      case isFalse h => exact ih (n / 10) (by omega) c hc
    case inr hc => exact hc ▸ digitChar_isDigit (n % 10) (Nat.mod_lt _ (by omega))

theorem decimal_ne_nil (n : Nat) : decimal n ≠ [] := by
  rw [decimal_eq]
  simp

theorem digitsValue_decimal (n : Nat) : digitsValue (decimal n) = n := by
  induction n using Nat.strong_induction_on with
  | _ n ih =>
    have hd := digitChar_value (n % 10) (Nat.mod_lt _ (by omega))
    rw [decimal_eq]
    split
    case isTrue h =>
      simp only [digitsValue, List.nil_append, List.foldl_cons, List.foldl_nil, hd]
      omega
    case isFalse h =>
      have := ih (n / 10) (by omega)
      unfold digitsValue at this ⊢
      rw [List.foldl_append, this, List.foldl_cons, List.foldl_nil, hd]
      omega

theorem decimal_length_le {n k : Nat} (hk : 0 < k) (h : n < 10 ^ k) : (decimal n).length ≤ k := by
  induction k generalizing n with
  | zero => omega
  | succ k ih =>
    rw [decimal_eq, List.length_append, List.length_singleton]
    split
    case isTrue => simp
    case isFalse hn =>
      have hk' : 0 < k := by
        by_contra h0
        have : k = 0 := by omega
        subst this
        omega
      have := ih hk' (n := n / 10) (by rw [pow_succ] at h; omega)
      omega

theorem length_decimal_lt {n k : Nat} (h : (decimal n).length ≤ k) : n < 10 ^ k := by
  induction k generalizing n with
  | zero => simp [decimal_ne_nil] at h
  | succ k ih =>
    rw [decimal_eq, List.length_append, List.length_singleton] at h
    split at h
    case isTrue hn =>
      have : 1 ≤ 10 ^ k := Nat.one_le_pow _ _ (by omega)
      rw [pow_succ]
      omega
    case isFalse hn =>
      have := ih (n := n / 10) (by omega)
      rw [pow_succ]
      omega

theorem takeWhile_digits {ds s : List Byte} (hd : ∀ c ∈ ds, isDigit c = true) (hs : EndsNumber s) :
    (ds ++ s).takeWhile isDigit = ds ∧ (ds ++ s).dropWhile isDigit = s := by
  induction ds with
  | nil =>
    cases s with
    | nil => simp
    | cons c s =>
      have := hs c rfl
      simp [this]
  | cons d ds ih =>
    have h := ih fun c hc => hd c (List.mem_cons_of_mem _ hc)
    simp [hd d List.mem_cons_self, h.left, h.right]

-- A digit is neither a blank nor a sign.
theorem isDigit_ne {c : Byte} (h : isDigit c = true) :
    isSpace c = false ∧ c ≠ 45 ∧ c ≠ 43 ∧ c ≠ 95 := by
  refine ⟨?_, ?_, ?_, ?_⟩
  case refine_1 =>
    simp only [isDigit, isSpace, Bool.and_eq_true, decide_eq_true_eq, UInt8.le_iff_toNat_le,
      Bool.or_eq_false_iff, decide_eq_false_iff_not, Bool.and_eq_false_iff, ← UInt8.toNat_inj]
      at h ⊢
    simp at h ⊢
    omega
  all_goals
    rintro rfl
    exact absurd h (by decide)

theorem scanInt_decimal (n : Nat) {s : List Byte} (hs : EndsNumber s) :
    scanInt (decimal n ++ s) = some ((n : Int), s) := by
  have ⟨htake, hdrop⟩ := takeWhile_digits (decimal_digits n) hs
  have hdigits := decimal_digits n
  have hne := decimal_ne_nil n
  have hvalue := digitsValue_decimal n
  -- the first digit decides that no blank and no sign is skipped
  cases hds : decimal n with
  | nil => exact absurd hds hne
  | cons d ds =>
    rw [hds] at htake hdrop hdigits hvalue
    have ⟨hspace, hminus, hplus, _⟩ := isDigit_ne (hdigits d List.mem_cons_self)
    have hskip : (d :: ds ++ s).dropWhile isSpace = d :: (ds ++ s) := by
      simp [hspace]
    rw [scanInt, hskip]
    split
    case h_1 heq => exact absurd (List.cons.inj heq).left hminus
    case h_2 heq => exact absurd (List.cons.inj heq).left hplus
    case h_3 =>
      rw [List.cons_append] at htake hdrop
      simp only [htake, hdrop, hvalue]
      rfl

theorem stoul_decimal {v : Nat} (hv : v < 2 ^ 64) : stoul (decimal v) = .ok v := by
  have hscan := scanInt_decimal v (s := []) (fun _ h => by simp at h)
  rw [List.append_nil] at hscan
  have hmod : ((v : Int) % 2 ^ 64).toNat = v := by omega
  simp only [stoul, hscan, Int.natAbs_natCast, if_pos hv, hmod, Outcome.pure_eq]

theorem strtol_decimal {n : Nat} (hn : n < 2 ^ 63) {s : List Byte} (hs : EndsNumber s) :
    strtol (decimal n ++ s) = ((n : Int), s) := by
  rw [strtol, scanInt_decimal n hs]
  simp only [Prod.mk.injEq, and_true]
  omega

theorem sscanfInt_decimal {n : Nat} (hn : n < 2 ^ 31) {s : List Byte} (hs : EndsNumber s) :
    sscanfInt (decimal n ++ s) = .ok (some ((n : Int), s)) := by
  rw [sscanfInt, scanInt_decimal n hs]
  exact if_pos (by omega)

theorem toInt_of_lt {n : Nat} (hn : n < 2 ^ 31) : toInt n = n := by
  unfold toInt
  rw [Int.bmod_eq_of_le] <;> omega

theorem hexValue_hexDigit : ∀ d < 16, hexValue (hexDigit d) = some d := by
  decide

theorem hexDigit_ne_underscore : ∀ d < 16, hexDigit d ≠ 95 := by
  decide

theorem sscanfHexByte_hexByte (b : Byte) (s : List Byte) :
    sscanfHexByte (hexByte b ++ s) = .ok b.toNat := by
  have hb := b.toNat_lt
  simp only [hexByte, List.cons_append, List.nil_append, sscanfHexByte,
    hexValue_hexDigit (b.toNat / 16) (by omega), hexValue_hexDigit (b.toNat % 16) (by omega)]
  congr 1
  omega

end CString
