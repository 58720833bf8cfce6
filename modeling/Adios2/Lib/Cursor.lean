import Adios2.Lib.Bytes

-- Writing a zeroed buffer of a size computed beforehand from front to back. A write that does not
-- fit has no result, so that a buffer which is produced at all never overflowed.

namespace Bytes

structure Cursor where
  buffer   : List Byte
  position : Nat
  deriving DecidableEq, Repr

namespace Cursor

-- The state of a buffer of which `pre` is written and `k` bytes of zeros are left.
def fresh (pre : List Byte) (k : Nat) : Cursor where
  buffer   := pre ++ .replicate k 0
  position := pre.length

def zeros (n : Nat) : Cursor :=
  fresh [] n

def seek (c : Cursor) (n : Nat) : Cursor :=
  { c with position := n }

def skip (c : Cursor) (n : Nat) : Cursor :=
  c.seek (c.position + n)

def put (c : Cursor) (bs : List Byte) : Option Cursor :=
  if c.position + bs.length ≤ c.buffer.length then
    some {
      buffer   := c.buffer.take c.position ++ bs ++ c.buffer.drop (c.position + bs.length)
      position := c.position + bs.length
    }
  else
    none

theorem put_fresh (pre bs : List Byte) (k : Nat) :
    (fresh pre (bs.length + k)).put bs = some (fresh (pre ++ bs) k) := by
  have h : (fresh pre (bs.length + k)).position + bs.length
      ≤ (fresh pre (bs.length + k)).buffer.length := by
    simp [fresh]
  rw [put, if_pos h]
  simp [fresh, List.drop_append]

-- The same with the number of bytes that the caller has counted.
theorem put_fresh_of_length {bs : List Byte} {n : Nat} (h : bs.length = n) (pre : List Byte)
    (k : Nat) : (fresh pre (n + k)).put bs = some (fresh (pre ++ bs) k) := by
  rw [← h, put_fresh]

theorem seek_fresh {pre : List Byte} {n j : Nat} (h : pre.length + j = n) (k : Nat) :
    (fresh pre (j + k)).seek n = fresh (pre ++ .replicate j 0) k := by
  simp [fresh, seek, ← h, List.replicate_append_replicate]

theorem skip_fresh (pre : List Byte) (j k : Nat) :
    (fresh pre (j + k)).skip j = fresh (pre ++ .replicate j 0) k :=
  seek_fresh rfl k

-- A loop whose rounds write `g a` writes the concatenation.
theorem foldlM_fresh {α} {f : Cursor → α → Option Cursor} {g : α → List Byte} {l : List α}
    (hf : ∀ a ∈ l, ∀ pre k, f (fresh pre ((g a).length + k)) a = some (fresh (pre ++ g a) k))
    (pre : List Byte) (k : Nat) :
    l.foldlM f (fresh pre ((l.flatMap g).length + k)) = some (fresh (pre ++ l.flatMap g) k) := by
  induction l generalizing pre with
  | nil => simp
  | cons a l ih =>
    have ih' := ih (fun b hb => hf b (List.mem_cons_of_mem _ hb)) (pre ++ g a)
    rw [List.foldlM_cons, List.flatMap_cons, List.length_append, Nat.add_assoc,
      hf a List.mem_cons_self]
    simpa using ih'

@[simp]
theorem fresh_zero_buffer (pre : List Byte) : (fresh pre 0).buffer = pre := by
  simp [fresh]

end Cursor
end Bytes
