import Adios2.Lib.Bytes

-- A file behind a descriptor, and the calls that write to it. The operating system accepts any part
-- of what it is given, or none.

theorem List.getElem?_takeD {α} {l : List α} {a : α} {n p : Nat} (h : p < n) :
    (l.takeD n a)[p]? = some (l[p]?.getD a) := by
  induction n generalizing l p with
  | zero => omega
  | succ n ih =>
    cases p
    case zero => cases l <;> simp [List.takeD]
    case succ p => simp [List.takeD, ih (Nat.lt_of_succ_lt_succ h)]

namespace Posix

open Bytes

structure File where
  content  : List Byte
  position : Nat
  deriving DecidableEq, Repr

namespace File

-- What lies between the end of the file and the position is filled with zeros.
def write (f : File) (bs : List Byte) : File :=
  if bs = [] then
    f
  else {
    content  := f.content.takeD f.position 0 ++ bs ++ f.content.drop (f.position + bs.length)
    position := f.position + bs.length }

@[simp]
theorem write_nil (f : File) : f.write [] = f := rfl

@[simp]
theorem write_position (f : File) (bs : List Byte) :
    (f.write bs).position = f.position + bs.length := by
  unfold write
  split
  case isTrue h => simp [h]
  case isFalse => rfl

theorem write_content {f : File} {bs : List Byte} (h : bs ≠ []) :
    (f.write bs).content =
      f.content.takeD f.position 0 ++ bs ++ f.content.drop (f.position + bs.length) := by
  rw [write, if_neg h]

theorem write_holds (f : File) (bs : List Byte) : Holds (f.write bs).content f.position bs := by
  by_cases hbs : bs = []
  case pos => simp [hbs]
  have hlen : (f.content.takeD f.position 0).length = f.position := by simp
  rw [write_content hbs, Holds, List.append_assoc, List.drop_left' hlen]
  exact List.prefix_append _ _

theorem write_append (f : File) (xs ys : List Byte) :
    (f.write xs).write ys = f.write (xs ++ ys) := by
  by_cases hx : xs = []
  case pos => rw [hx, write_nil, List.nil_append]
  by_cases hy : ys = []
  case pos => rw [hy, write_nil, List.append_nil]
  have hxy : xs ++ ys ≠ [] := by simp [hx]
  have hlen : (f.content.takeD f.position 0 ++ xs).length = f.position + xs.length := by simp
  have htake : (f.write xs).content.takeD (f.write xs).position 0 =
      f.content.takeD f.position 0 ++ xs := by
    rw [write_content hx, write_position, List.takeD_eq_take, List.take_left' hlen]
    simp
  have hdrop : (f.write xs).content.drop ((f.write xs).position + ys.length) =
      f.content.drop (f.position + (xs ++ ys).length) := by
    rw [write_content hx, write_position, ← List.drop_drop, List.drop_left' hlen, List.drop_drop,
      List.length_append, Nat.add_assoc]
  have hcontent : ((f.write xs).write ys).content = (f.write (xs ++ ys)).content := by
    rw [write_content hy, htake, hdrop, write_content hxy]
    simp
  have hposition : ((f.write xs).write ys).position = (f.write (xs ++ ys)).position := by
    simp [Nat.add_assoc]
  cases hf : (f.write xs).write ys
  cases hf' : f.write (xs ++ ys)
  simp_all

theorem write_length {f : File} {bs : List Byte} (h : bs ≠ []) :
    (f.write bs).content.length = max f.content.length (f.position + bs.length) := by
  rw [write_content h]
  simp only [List.length_append, List.takeD_length, List.length_drop]
  omega

-- In front of the position, what there has not been is zero.
theorem write_getElem? {f : File} {bs : List Byte} (h : bs ≠ []) (p : Nat) :
    (f.write bs).content[p]? =
      if p < f.position then some (f.content[p]?.getD 0)
      else if p < f.position + bs.length then bs[p - f.position]?
      else f.content[p]? := by
  rw [write_content h, List.append_assoc]
  split
  case isTrue hp =>
    rw [List.getElem?_append_left (by simpa using hp), List.getElem?_takeD hp]
  case isFalse hp =>
    rw [List.getElem?_append_right (by simpa using hp), List.takeD_length]
    split
    case isTrue hb => rw [List.getElem?_append_left (by omega)]
    case isFalse hb =>
      rw [List.getElem?_append_right (by omega), List.getElem?_drop]
      congr 1
      omega

end File

inductive Errno
  | interrupted
  | other (message : String)
  deriving DecidableEq, Repr

-- How much of what it is given a call accepts.
abbrev Reply := Except Errno Nat

-- The replies to the calls of `write` and `writev` that are still to come. A call that nothing is said
-- about accepts everything.
structure System where
  file      : File
  writes    : List Reply
  writevs   : List Reply
  -- why the next call of `lseek` fails
  seekError : Option String

namespace System

def reply (size : Nat) : List Reply → Reply × List Reply
  | []            => (.ok size, [])
  | .ok n :: rest => (.ok (min n size), rest)
  | e :: rest     => (e, rest)

def write (s : System) (bs : List Byte) : Reply × System :=
  match reply bs.length s.writes with
  | (.ok n, rest)    => (.ok n, { s with file := s.file.write (bs.take n), writes := rest })
  | (.error e, rest) => (.error e, { s with writes := rest })

def writev (s : System) (bufs : List (List Byte)) : Reply × System :=
  match reply bufs.flatten.length s.writevs with
  | (.ok n, rest)    =>
    (.ok n, { s with file := s.file.write (bufs.flatten.take n), writevs := rest })
  | (.error e, rest) => (.error e, { s with writevs := rest })

-- A position is a signed number of 64 bits.
def lseek (s : System) (start : Nat) : Except String System :=
  match s.seekError with
  | some message => .error message
  | none         =>
    if start < 2 ^ 63 then
      .ok { s with file := { s.file with position := start } }
    else
      .error ": errno = 22: Invalid argument"

end System

end Posix
