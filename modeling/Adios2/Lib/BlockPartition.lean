import Mathlib

-- A range of numbers in blocks of nearly the same size: what is left over makes the first blocks
-- one longer.

namespace BlockPartition

def size (parts total part : Nat) : Nat :=
  total / parts + if part < total % parts then 1 else 0

def start (parts total part : Nat) : Nat :=
  total / parts * part + min part (total % parts)

def block (parts total part : Nat) : List Nat :=
  List.range' (start parts total part) (size parts total part)

variable {parts total part part' pos : Nat}

theorem start_zero : start parts total 0 = 0 := by
  simp [start]

theorem start_succ : start parts total (part + 1) = start parts total part + size parts total part := by
  have hmul : total / parts * (part + 1) = total / parts * part + total / parts := Nat.mul_succ ..
  rw [start, start, size, hmul]
  split <;> omega

theorem start_parts (h : 0 < parts) : start parts total parts = total := by
  have hlt : total % parts < parts := Nat.mod_lt _ h
  rw [start, Nat.min_eq_right hlt.le, Nat.mul_comm]
  exact Nat.div_add_mod ..

theorem start_mono : Monotone (start parts total) :=
  monotone_nat_of_le_succ fun _ => start_succ ▸ Nat.le_add_right ..

theorem mem_block : pos ∈ block parts total part ↔
    start parts total part ≤ pos ∧ pos < start parts total (part + 1) := by
  rw [block, List.mem_range'_1, start_succ]

theorem nodup_block : (block parts total part).Nodup :=
  List.nodup_range'

-- The blocks behind each other are the whole range.
theorem flatMap_block (h : 0 < parts) :
    (List.range parts).flatMap (block parts total) = List.range total := by
  have hinitial : ∀ n, (List.range n).flatMap (block parts total) =
      List.range (start parts total n) := fun n => by
    induction n with
    | zero => simp [start_zero]
    | succ n ih =>
      rw [List.range_succ, List.flatMap_append, ih, List.flatMap_singleton, block, start_succ,
        List.range_eq_range', List.range_eq_range']
      simpa using List.range'_append_1 (s := 0) (m := start parts total n)
        (n := size parts total n)
  rw [hinitial, start_parts h]

theorem lt_of_mem_block (hpart : part < parts) (h : pos ∈ block parts total part) : pos < total := by
  have hle : start parts total (part + 1) ≤ start parts total parts := start_mono hpart
  rw [start_parts (by omega)] at hle
  exact (mem_block.mp h).right.trans_le hle

theorem exists_mem_block (h : 0 < parts) (hpos : pos < total) :
    ∃ part < parts, pos ∈ block parts total part := by
  have hmem : pos ∈ (List.range parts).flatMap (block parts total) := by
    rw [flatMap_block h]
    exact List.mem_range.mpr hpos
  simpa using hmem

theorem mem_block_unique (h : pos ∈ block parts total part) (h' : pos ∈ block parts total part') :
    part = part' := by
  have h := mem_block.mp h
  have h' := mem_block.mp h'
  rcases Nat.lt_trichotomy part part' with hlt | heq | hlt
  · have hmono : start parts total (part + 1) ≤ start parts total part' := start_mono hlt
    omega
  · exact heq
  · have hmono : start parts total (part' + 1) ≤ start parts total part := start_mono hlt
    omega

-- Where there are not more parts than elements, each has one.
theorem size_pos (h : 0 < parts) (hle : parts ≤ total) : 0 < size parts total part :=
  Nat.add_pos_left (Nat.div_pos hle h) _

theorem block_eq_cons (h : 0 < size parts total part) : ∃ rest,
    block parts total part = start parts total part :: rest :=
  have ⟨n, hn⟩ := Nat.exists_eq_add_of_lt h
  ⟨_, by rw [block, hn, Nat.zero_add]; rfl⟩

theorem head?_block (h : 0 < size parts total part) :
    (block parts total part).head? = some (start parts total part) := by
  obtain ⟨rest, hrest⟩ := block_eq_cons h
  rw [hrest]
  rfl

theorem start_mem_block (h : 0 < size parts total part) :
    start parts total part ∈ block parts total part :=
  mem_block.mpr ⟨le_rfl, by rw [start_succ]; omega⟩

-- Where there are as many parts as elements, each has its own.
theorem start_self (hpart : part < total) : start total total part = part := by
  have htotal : 0 < total := by omega
  rw [start, Nat.div_self htotal, Nat.mod_self]
  omega

end BlockPartition
