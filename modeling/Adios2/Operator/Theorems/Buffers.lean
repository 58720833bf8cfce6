import Adios2.Core.Operator
import Adios2.Lib.Lists

-- What is put into a buffer, and what is read where it stands.

namespace Operators

open Bytes

variable {a b buffer bs xs ys : List Byte} {pos : Nat}

theorem put_eq_ok {buffer' : List Byte} : put buffer pos bs = .ok buffer' ↔
    pos + bs.length ≤ buffer.length ∧ buffer' = overwrite buffer pos bs := by
  unfold put
  split
  case isTrue h =>
    refine ⟨fun heq => ⟨h, by cases heq; rfl⟩, fun ⟨_, heq⟩ => by rw [heq]⟩
  case isFalse h => exact ⟨fun heq => (nomatch heq), fun ⟨hle, _⟩ => absurd hle h⟩

theorem put_of_le (h : pos + bs.length ≤ buffer.length) :
    put buffer pos bs = .ok (overwrite buffer pos bs) :=
  if_pos h

theorem overwrite_front (h : pos + bs.length ≤ a.length) :
    overwrite (a ++ b) pos bs = overwrite a pos bs ++ b := by
  have : overwrite ([] ++ (a ++ b)) (([] : List Byte).length + pos) bs
      = [] ++ (overwrite a pos bs ++ b) := overwrite_append h
  rwa [List.nil_append, List.nil_append, List.length_nil, Nat.zero_add] at this

theorem overwrite_back (h : pos + bs.length ≤ b.length) :
    overwrite (a ++ b) (a.length + pos) bs = a ++ overwrite b pos bs := by
  have : overwrite (a ++ (b ++ [])) (a.length + pos) bs = a ++ (overwrite b pos bs ++ []) :=
    overwrite_append h
  rwa [List.append_nil, List.append_nil] at this

-- What is written one behind the other.
theorem overwrite_overwrite (h : pos + xs.length + ys.length ≤ buffer.length) :
    overwrite (overwrite buffer pos xs) (pos + xs.length) ys = overwrite buffer pos (xs ++ ys) := by
  have hlen : (buffer.take pos ++ xs).length = pos + xs.length := by
    rw [List.length_append, List.length_take_of_le (by omega)]
  have hback : (0 : Nat) + ys.length ≤ (buffer.drop (pos + xs.length)).length := by
    rw [List.length_drop]
    omega
  have hrest := overwrite_back (a := buffer.take pos ++ xs) hback
  rw [hlen, Nat.add_zero] at hrest
  have hinner : overwrite buffer pos xs = buffer.take pos ++ xs ++ buffer.drop (pos + xs.length) :=
    rfl
  rw [hinner, hrest]
  simp only [overwrite, List.take_zero, List.nil_append, List.length_append, List.append_assoc,
    Nat.zero_add, List.drop_drop]
  rw [Nat.add_assoc]

theorem overwrite_all (h : bs.length = buffer.length) : overwrite buffer 0 bs = bs := by
  simp [overwrite, h]

theorem overwrite_zero (bs buffer : List Byte) :
    overwrite buffer 0 bs = bs ++ buffer.drop bs.length := by
  simp [overwrite]

-- What is behind is not touched.
theorem overwrite_behind {buffer bs : List Byte} {pos i : Nat} (h : pos + bs.length ≤ buffer.length)
    (hi : pos + bs.length ≤ i) : (overwrite buffer pos bs)[i]? = buffer[i]? := by
  have hlen : (buffer.take pos ++ bs).length = pos + bs.length := by
    rw [List.length_append, List.length_take_of_le (by omega)]
  rw [overwrite, List.getElem?_append_right (by rw [hlen]; omega), hlen, List.getElem?_drop,
    Nat.add_sub_cancel' hi]

theorem within_middle (a x c : List Byte) : Within (a ++ (x ++ c)) a.length x where
  le    := by simp
  holds := by simp [Holds]

theorem within_front (x c : List Byte) : Within (x ++ c) 0 x :=
  within_middle [] x c

theorem slice_of_within (h : Within buffer pos bs) : slice buffer pos bs.length = .ok bs := by
  rw [slice, h.readBytes, Option.orUndefined_some]

@[simp]
theorem parameter_length (w n : Nat) : (parameter w n).length = w :=
  encode_length _ w n

theorem getParameter_of_within {w n : Nat} (h : Within buffer pos (parameter w n))
    (hn : n < 256 ^ w) : getParameter w buffer pos = .ok n := by
  have hread := h.readBytes
  rw [parameter_length] at hread
  rw [getParameter, readUInt, hread, Option.map_some, parameter, decode_encode_of_lt _ hn,
    Option.orUndefined_some]

theorem slice_eq_ok {n : Nat} : slice buffer pos n = .ok bs ↔
    pos + n ≤ buffer.length ∧ bs = (buffer.drop pos).take n := by
  rw [slice, Option.orUndefined_eq_ok, readBytes]
  split
  case isTrue h => exact ⟨fun heq => ⟨h, by cases heq; rfl⟩, fun hbs => by rw [hbs.right]⟩
  case isFalse h => exact ⟨fun heq => (by cases heq), fun hbs => absurd hbs.left h⟩

theorem makeCommonHeader_length (type : OperatorType) (bufferVersion : Nat) :
    (makeCommonHeader type bufferVersion).length = 4 := by
  simp [makeCommonHeader]

-- What `core::Decompress` does when the operator is done.
def finish (bufferIn : List Byte) (inverted : Inverted) : Outcome (Nat × List Byte) := do
  if inverted.size = 0 then
    let sizeOut := (bufferIn.length + (2 ^ 64 - inverted.headerSize)) % 2 ^ 64
    let bytes ← slice bufferIn inverted.headerSize sizeOut
    let dataOut ← put inverted.dataOut 0 bytes
    pure (sizeOut, dataOut)
  else
    pure (inverted.size, inverted.dataOut)

-- The operator that a container is read with, when it does the same as that of the writer.
theorem decompress_eq {makeOperator : OperatorType → Outcome Operator} {op op' : Operator}
    {bufferIn dataOut : List Byte} {inverted : Outcome Inverted}
    (htype : getParameter 1 bufferIn 0 = .ok op.typeEnum.toCode)
    (hcode : OperatorType.ofCode op.typeEnum.toCode = op.typeEnum)
    (hmake : makeOperator op.typeEnum = .ok op')
    (hinverse : ∀ o ∈ [op, op'], o.inverseOperate bufferIn dataOut = inverted)
    {reader : Option Operator} (hreader : reader ∈ [none, some op]) :
    decompress makeOperator reader bufferIn dataOut = inverted >>= finish bufferIn := by
  rw [decompress, htype, Outcome.ok_bind]
  rcases List.mem_pair.mp hreader with rfl | rfl
  case inl =>
    rw [Option.filter_none]
    dsimp only
    rw [hcode, hmake, Outcome.ok_bind, hinverse op' (by simp)]
    rfl
  case inr =>
    rw [Option.filter_some, if_pos (by simp)]
    dsimp only
    rw [Outcome.pure_eq, Outcome.ok_bind, hinverse op (by simp)]
    rfl

-- The estimate leaves room for 128 bytes beside the data.
theorem Block.estimatedSize (b : Block) :
    getEstimatedSize b.count.prod (BP5.getDataTypeSize b.type) = b.data.length + 128 := by
  have hsize := b.size
  have hlt := b.lt
  have hmod := b.count.foldl_mul_mod (BP5.getDataTypeSize b.type) (2 ^ 64)
  rw [blockSize, getTotalSize] at hsize
  rw [← hsize, Nat.mul_comm] at hmod
  rw [getEstimatedSize]
  omega

end Operators
