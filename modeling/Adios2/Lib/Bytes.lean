import Mathlib

-- Fixed-width unsigned integers in a byte buffer, in either byte order, and the contents of a
-- buffer at a position.

namespace Bytes

abbrev Byte := UInt8

instance : LawfulBEq (List Byte) := inferInstance

theorem zero_lt_two_pow_64 : 0 < 2 ^ 64 := by decide

inductive Endian
  | little
  | big
  deriving DecidableEq, Repr

-- Little endian digits of `n`, truncated to `w` bytes.
def encodeLE : Nat → Nat → List Byte
  | 0, _     => []
  | w + 1, n => UInt8.ofNat n :: encodeLE w (n / 256)

def decodeLE : List Byte → Nat
  | []      => 0
  | b :: bs => b.toNat + 256 * decodeLE bs

def encode (e : Endian) (w n : Nat) : List Byte :=
  match e with
  | .little => encodeLE w n
  | .big    => (encodeLE w n).reverse

def decode (e : Endian) (bs : List Byte) : Nat :=
  match e with
  | .little => decodeLE bs
  | .big    => decodeLE bs.reverse

@[simp]
theorem encodeLE_length (w n : Nat) : (encodeLE w n).length = w := by
  induction w generalizing n <;> simp_all [encodeLE]

@[simp]
theorem encode_length (e : Endian) (w n : Nat) : (encode e w n).length = w := by
  cases e <;> simp [encode]

theorem decodeLE_encodeLE (w n : Nat) : decodeLE (encodeLE w n) = n % 256 ^ w := by
  induction w generalizing n with
  | zero => simp [encodeLE, decodeLE, Nat.mod_one]
  | succ w ih =>
    have hb : (UInt8.ofNat n).toNat = n % 256 := UInt8.toNat_ofNat'
    rw [encodeLE, decodeLE, ih, hb, pow_succ', Nat.mod_mul]

theorem decode_encode (e : Endian) (w n : Nat) : decode e (encode e w n) = n % 256 ^ w := by
  cases e <;> simp [encode, decode, decodeLE_encodeLE]

theorem decode_encode_of_lt (e : Endian) {w n : Nat} (h : n < 256 ^ w) :
    decode e (encode e w n) = n := by
  rw [decode_encode, Nat.mod_eq_of_lt h]

theorem decodeLE_lt (bs : List Byte) : decodeLE bs < 256 ^ bs.length := by
  induction bs with
  | nil => simp [decodeLE]
  | cons b bs ih =>
    have hb := b.toNat_lt
    simp only [decodeLE, List.length_cons, pow_succ']
    omega

theorem encodeLE_decodeLE (bs : List Byte) : encodeLE bs.length (decodeLE bs) = bs := by
  induction bs with
  | nil => rfl
  | cons b bs ih =>
    have hb := b.toNat_lt
    have hd : (b.toNat + 256 * decodeLE bs) / 256 = decodeLE bs := by omega
    have hm : UInt8.ofNat (b.toNat + 256 * decodeLE bs) = b := by
      apply UInt8.toNat_inj.mp
      have := UInt8.toNat_ofNat' (n := b.toNat + 256 * decodeLE bs)
      omega
    simp only [List.length_cons, encodeLE, decodeLE, hd, hm, ih]

-- The eight byte integers that file formats use for lengths and positions.
def u64 (e : Endian) (n : Nat) : List Byte := encode e 8 n

@[simp]
theorem u64_length (e : Endian) (n : Nat) : (u64 e n).length = 8 := by
  simp [u64]

def u64s (e : Endian) (ns : List Nat) : List Byte := ns.flatMap (u64 e)

@[simp]
theorem u64s_nil (e : Endian) : u64s e [] = [] := rfl

@[simp]
theorem u64s_cons (e : Endian) (n : Nat) (ns : List Nat) :
    u64s e (n :: ns) = u64 e n ++ u64s e ns := rfl

@[simp]
theorem u64s_append (e : Endian) (ms ns : List Nat) :
    u64s e (ms ++ ns) = u64s e ms ++ u64s e ns :=
  List.flatMap_append

@[simp]
theorem u64s_length (e : Endian) (ns : List Nat) : (u64s e ns).length = 8 * ns.length := by
  induction ns with
  | nil => rfl
  | cons n ns ih =>
    rw [u64s_cons, List.length_append, ih, u64_length, List.length_cons]
    omega

-- `bs` is stored in `buf` from position `pos` on.
def Holds (buf : List Byte) (pos : Nat) (bs : List Byte) : Prop :=
  bs <+: buf.drop pos

theorem Holds.length_le {buf pos bs} (h : Holds buf pos bs) (hb : bs ≠ []) :
    pos + bs.length ≤ buf.length := by
  have hl := List.IsPrefix.length_le h
  have hp : 0 < bs.length := List.length_pos_iff.mpr hb
  simp only [List.length_drop] at hl
  omega

theorem Holds.take_drop {buf pos bs} (h : Holds buf pos bs) :
    (buf.drop pos).take bs.length = bs :=
  (List.prefix_iff_eq_take.mp h).symm

@[simp]
theorem Holds.nil (buf : List Byte) (pos : Nat) : Holds buf pos [] :=
  List.nil_prefix

theorem holds_self (bs : List Byte) : Holds bs 0 bs := by
  simp [Holds]

theorem holds_append {buf : List Byte} {pos : Nat} {xs ys : List Byte} :
    Holds buf pos (xs ++ ys) ↔ Holds buf pos xs ∧ Holds buf (pos + xs.length) ys := by
  unfold Holds
  constructor
  · rintro ⟨r, hr⟩
    refine ⟨⟨ys ++ r, by simpa using hr⟩, ⟨r, ?_⟩⟩
    rw [← List.drop_drop, ← hr]
    simp
  · rintro ⟨⟨r, hr⟩, s, hs⟩
    refine ⟨s, ?_⟩
    rw [← List.drop_drop, ← hr, List.drop_left] at hs
    rw [List.append_assoc, hs, hr]

theorem holds_cons {buf : List Byte} {pos : Nat} {b : Byte} {bs : List Byte} :
    Holds buf pos (b :: bs) ↔ Holds buf pos [b] ∧ Holds buf (pos + 1) bs :=
  @holds_append buf pos [b] bs

-- What a buffer holds survives appending to it on either side.
theorem Holds.append_left {buf pos bs} (h : Holds buf pos bs) (pre : List Byte) :
    Holds (pre ++ buf) (pre.length + pos) bs := by
  unfold Holds
  rwa [← List.drop_drop, List.drop_left]

theorem Holds.append_right {buf pos bs} (h : Holds buf pos bs) (post : List Byte) :
    Holds (buf ++ post) pos bs := by
  obtain ⟨r, hr⟩ := h
  by_cases hp : pos ≤ buf.length
  · exact ⟨r ++ post, by rw [List.drop_append_of_le_length hp, ← hr, List.append_assoc]⟩
  · rw [List.drop_eq_nil_of_le (by omega)] at hr
    rw [(List.append_eq_nil_iff.mp hr).1]
    exact .nil _ _

theorem Holds.of_take {buf bs : List Byte} {pos n : Nat} (h : Holds (buf.take n) pos bs) :
    Holds buf pos bs := by
  have := h.append_right (buf.drop n)
  rwa [List.take_append_drop] at this

-- A buffer of which more is known holds the same.
theorem Holds.take_mono {buf bs : List Byte} {pos n m : Nat} (h : Holds (buf.take n) pos bs)
    (hnm : n ≤ m) : Holds (buf.take m) pos bs := by
  rw [← Nat.min_eq_left hnm, ← List.take_take] at h
  exact h.of_take

theorem Holds.take {buf pos bs n} (h : Holds buf pos bs) (hn : pos + bs.length ≤ n) :
    Holds (buf.take n) pos bs := by
  unfold Holds
  rw [List.drop_take]
  exact List.prefix_take_iff.mpr ⟨h, by omega⟩

-- A buffer that ends within `xs ++ ys` but behind `xs` holds `xs`.
theorem holds_of_prefix_append {buf : List Byte} {pos : Nat} {xs ys : List Byte}
    (h : buf.drop pos <+: xs ++ ys) (hl : pos + xs.length ≤ buf.length) : Holds buf pos xs := by
  apply List.prefix_of_prefix_length_le (List.prefix_append xs ys) h
  rw [List.length_drop]
  omega

theorem drop_prefix_of_append {buf : List Byte} {pos : Nat} {xs ys : List Byte}
    (h : buf.drop pos <+: xs ++ ys) (hl : pos + xs.length ≤ buf.length) :
    buf.drop (pos + xs.length) <+: ys := by
  have ⟨r, hr⟩ := holds_of_prefix_append h hl
  rw [← hr, List.prefix_append_right_inj] at h
  rwa [← List.drop_drop, ← hr, List.drop_left]

def readBytes (buf : List Byte) (pos n : Nat) : Option (List Byte) :=
  if pos + n ≤ buf.length then some ((buf.drop pos).take n) else none

-- A read outside of the buffer has no value.
def readUInt (e : Endian) (w : Nat) (buf : List Byte) (pos : Nat) : Option Nat :=
  (readBytes buf pos w).map (decode e)

theorem readBytes_of_holds {buf pos bs} (h : Holds buf pos bs) (hb : bs ≠ []) :
    readBytes buf pos bs.length = some bs := by
  simp [readBytes, h.length_le hb, h.take_drop]

-- The same for a part that can be empty: it has to lie within the buffer.
structure Within (buf : List Byte) (pos : Nat) (bs : List Byte) : Prop where
  le    : pos + bs.length ≤ buf.length
  holds : Holds buf pos bs

theorem within_self (bs : List Byte) : Within bs 0 bs where
  le    := (Nat.zero_add _).le
  holds := holds_self bs

theorem Within.append {buf : List Byte} {pos : Nat} {xs ys : List Byte}
    (h : Within buf pos (xs ++ ys)) : Within buf pos xs ∧ Within buf (pos + xs.length) ys := by
  have hle := h.le
  have ⟨hxs, hys⟩ := holds_append.mp h.holds
  rw [List.length_append] at hle
  exact ⟨⟨by omega, hxs⟩, ⟨by omega, hys⟩⟩

theorem Within.readBytes {buf pos bs} (h : Within buf pos bs) :
    readBytes buf pos bs.length = some bs := by
  simp [Bytes.readBytes, h.le, h.holds.take_drop]

theorem readUInt_of_holds {e : Endian} {w n : Nat} {buf pos} (h : Holds buf pos (encode e w n))
    (hw : 0 < w) (hn : n < 256 ^ w) : readUInt e w buf pos = some n := by
  have hb : encode e w n ≠ [] := List.length_pos_iff.mp (by simpa using hw)
  have hr := readBytes_of_holds h hb
  rw [encode_length] at hr
  simp [readUInt, hr, decode_encode_of_lt e hn]

theorem readUInt_u64 {e : Endian} {n : Nat} {buf pos} (h : Holds buf pos (u64 e n))
    (hn : n < 2 ^ 64) : readUInt e 8 buf pos = some n :=
  readUInt_of_holds h (by decide) (by simpa using hn)

theorem readUInt_byte {e : Endian} {b : Byte} {buf pos} (h : Holds buf pos [b]) :
    readUInt e 1 buf pos = some b.toNat := by
  have hr := readBytes_of_holds h (by simp)
  rw [List.length_singleton] at hr
  cases e <;> simp [readUInt, hr, decode, decodeLE]

theorem readUInt_length_le {e : Endian} {w n : Nat} {buf pos}
    (h : readUInt e w buf pos = some n) : pos + w ≤ buf.length := by
  unfold readUInt readBytes at h
  split at h
  case isTrue hl => exact hl
  case isFalse => contradiction

-- In a table of rows of the same length each row is at its own place.
theorem holds_u64s_row {e : Endian} {rows : List (List Nat)} {row : List Nat}
    {c i pos : Nat} {buf : List Byte} (hc : ∀ r ∈ rows, r.length = c)
    (h : Holds buf pos (u64s e rows.flatten)) (hi : rows[i]? = some row) :
    Holds buf (pos + i * c * 8) (u64s e row) := by
  induction rows generalizing pos i with
  | nil => simp at hi
  | cons r rows ih =>
    rw [List.flatten_cons, u64s_append, holds_append, u64s_length, hc r List.mem_cons_self] at h
    cases i with
    | zero =>
      cases hi
      simpa using h.1
    | succ i =>
      have := ih (fun r hr => hc r (List.mem_cons_of_mem _ hr)) h.2 hi
      have heq : pos + (i + 1) * c * 8 = pos + 8 * c + i * c * 8 := by ring
      rwa [heq]

-- `n` integers of the same width, one behind the other.
def readUInts (e : Endian) (w : Nat) (buf : List Byte) : Nat → Nat → Option (List Nat)
  | _, 0       => some []
  | pos, n + 1 => do
    let x ← readUInt e w buf pos
    let xs ← readUInts e w buf (pos + w) n
    return x :: xs

theorem readUInts_u64s {e : Endian} {ns : List Nat} {buf pos} (h : Holds buf pos (u64s e ns))
    (hn : ∀ n ∈ ns, n < 2 ^ 64) : readUInts e 8 buf pos ns.length = some ns := by
  induction ns generalizing pos with
  | nil => rfl
  | cons n ns ih =>
    rw [u64s_cons, holds_append, u64_length] at h
    have h₁ := readUInt_u64 h.1 (hn n List.mem_cons_self)
    have h₂ := ih h.2 fun m hm => hn m (List.mem_cons_of_mem _ hm)
    simp [readUInts, h₁, h₂]

end Bytes
