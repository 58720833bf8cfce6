import Mathlib

-- Writes of runs of elements to a long array, and what they leave at its positions.

namespace Coverage

variable {α : Type*}

structure Piece (α : Type*) where
  offset : Nat
  items  : List α
  deriving DecidableEq, Repr

def Piece.get? (p : Piece α) (pos : Nat) : Option α :=
  if p.offset ≤ pos then p.items[pos - p.offset]? else none

-- What the pieces put at a position, one after the other.
def covering (ps : List (Piece α)) (pos : Nat) : List α :=
  ps.filterMap (·.get? pos)

theorem covering_append (ps qs : List (Piece α)) (pos : Nat) :
    covering (ps ++ qs) pos = covering ps pos ++ covering qs pos :=
  List.filterMap_append

-- Pieces one behind the other.
inductive Tile : Nat → List (Piece α) → List α → Prop
  | nil {start : Nat} : Tile start [] []
  | cons {start : Nat} {items rest : List α} {ps : List (Piece α)}
      (tail : Tile (start + items.length) ps rest) :
      Tile start (⟨start, items⟩ :: ps) (items ++ rest)

namespace Tile

variable {start : Nat} {ps : List (Piece α)} {whole : List α}

theorem get?_append (items rest : List α) (pos : Nat) :
    ((⟨start, items ++ rest⟩ : Piece α).get? pos).toList =
      ((⟨start, items⟩ : Piece α).get? pos).toList ++
        ((⟨start + items.length, rest⟩ : Piece α).get? pos).toList := by
  simp only [Piece.get?]
  by_cases hstart : start ≤ pos
  case neg =>
    have hbehind : ¬start + items.length ≤ pos := by omega
    simp [hstart, hbehind]
  case pos =>
    rw [if_pos hstart, if_pos hstart]
    by_cases hitems : pos - start < items.length
    case pos =>
      have hbehind : ¬start + items.length ≤ pos := by omega
      rw [List.getElem?_append_left hitems, if_neg hbehind, Option.toList_none, List.append_nil]
    case neg =>
      have hle : items.length ≤ pos - start := by omega
      have hbehind : start + items.length ≤ pos := by omega
      rw [List.getElem?_append_right hle, List.getElem?_eq_none hle, if_pos hbehind,
        Option.toList_none, List.nil_append, Nat.sub_sub]

-- They leave what a single piece does that has it all.
theorem covering_eq (h : Tile start ps whole) (pos : Nat) :
    covering ps pos = ((⟨start, whole⟩ : Piece α).get? pos).toList := by
  induction h with
  | nil => simp [covering, Piece.get?]
  | @cons start items rest ps tail ih =>
    rw [get?_append, ← ih, covering, List.filterMap_cons]
    cases (⟨start, items⟩ : Piece α).get? pos <;> rfl

end Tile

end Coverage
