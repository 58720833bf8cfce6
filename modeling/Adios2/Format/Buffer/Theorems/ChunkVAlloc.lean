import Adios2.Lib.Layout
import Adios2.Format.Buffer.ChunkV

-- What `ChunkAlloc` makes of a chunk and of the memory.

namespace Buffer

open Bytes Layout

namespace ChunkV

variable {p : Parameters} {env : Nat → Allocation} {s : ChunkV}

theorem actualSize_eq (size : Nat) : actualSize p size = alignUp p.memBlockSize size := by
  have hlt := Nat.mod_lt size p.memBlockSize_pos
  unfold actualSize alignUp padding
  split
  case isTrue h =>
    have hmod : (p.memBlockSize - size % p.memBlockSize) % p.memBlockSize
        = p.memBlockSize - size % p.memBlockSize := Nat.mod_eq_of_lt (by omega)
    rw [hmod]
  case isFalse h => rw [not_not.mp h, Nat.sub_zero, Nat.mod_self, Nat.add_zero]

theorem alignOffset_le (address : Nat) : alignOffset p address ≤ p.memAlign - 1 := by
  have := p.memAlign_pos
  unfold alignOffset
  simp only
  omega

end ChunkV

-- A chunk with its memory: as many bytes as it says from its pointer on.
structure Chunk.Ok (p : Parameters) (heap : Heap) (c : Chunk) : Prop where
  block     : ∃ block, heap.block? c.allocatedPtr = some block ∧
    block.bytes.length = c.size + (p.memAlign - 1)
  ptr_block : c.ptr.block = c.allocatedPtr
  ptr_le    : c.ptr.offset ≤ p.memAlign - 1
  size_dvd  : p.memBlockSize ∣ c.size

namespace Chunk.Ok

variable {p : Parameters} {heap heap' : Heap} {c : Chunk}

theorem lt (h : c.Ok p heap) : c.allocatedPtr < heap.length := by
  have ⟨_, hb, _⟩ := h.block
  exact Heap.block?_lt hb

-- A chunk only depends on its own block.
theorem of_block?_eq (h : c.Ok p heap)
    (hb : heap'.block? c.allocatedPtr = heap.block? c.allocatedPtr) : c.Ok p heap' :=
  { h with block := hb ▸ h.block }

end Chunk.Ok

namespace ChunkV

variable {p : Parameters} {env : Nat → Allocation} {s : ChunkV}

variable (p env s) in
-- A new chunk is in a block of its own.
theorem chunkAlloc_none {size : Nat} (hsize : 0 < size) :
    ∃ c heap, chunkAlloc p env none size s = .ok (c, { s with heap, calls := s.calls + 1 }) ∧
      c.Ok p heap ∧ size ≤ c.size ∧ c.ptr.offset = alignOffset p (env s.calls).address ∧
      c.allocatedPtr = s.heap.length ∧ ∀ b < s.heap.length, heap.block? b = s.heap.block? b := by
  have hle : size ≤ actualSize p size := by
    rw [actualSize_eq]
    exact le_alignUp
  have hn : actualSize p size + p.memAlign - 1 ≠ 0 := by
    have := p.memAlign_pos
    omega
  have ⟨heap, hrealloc, hself, hother⟩ :=
    Heap.realloc_none_eq (h := s.heap) (a := env s.calls) hn
  let c : Chunk := {
    ptr          := { block := s.heap.length, offset := alignOffset p (env s.calls).address }
    allocatedPtr := s.heap.length
    size         := actualSize p size
  }
  refine ⟨c, heap, ?_, ?_, hle, rfl, rfl, hother⟩
  · simp only [chunkAlloc, Option.map_none, hrealloc, Option.orUndefined_some, Outcome.ok_bind,
      hself, Outcome.pure_eq]
    rfl
  · exact {
      block     := by
        refine ⟨_, hself, ?_⟩
        have := p.memAlign_pos
        rw [Heap.resize_length]
        exact Nat.add_sub_assoc this _
      ptr_block := rfl
      ptr_le    := alignOffset_le _
      size_dvd  := by
        have hdvd : p.memBlockSize ∣ actualSize p size := by
          rw [actualSize_eq]
          exact dvd_alignUp p.memBlockSize_pos
        exact hdvd
    }

-- A chunk before and after it is resized: it keeps its block or gets a new one.
structure Resized (p : Parameters) (a : Allocation) (old : Heap) (c : Chunk) (size : Nat)
    (c' : Chunk) (heap : Heap) : Prop where
  ok      : c'.Ok p heap
  size_eq : c'.size = actualSize p size
  grows   : old.length ≤ heap.length
  place   : c'.allocatedPtr = c.allocatedPtr ∧ c'.ptr = c.ptr ∨ c'.allocatedPtr = old.length ∧
    a.inPlace = false ∧ c'.ptr.offset = alignOffset p a.address
  other   : ∀ b < old.length, b ≠ c.allocatedPtr → heap.block? b = old.block? b
  bytes   : ∃ block block', old.block? c.allocatedPtr = some block ∧
    heap.block? c'.allocatedPtr = some block' ∧
    block'.bytes = Heap.resize a.junk block.bytes (actualSize p size + (p.memAlign - 1))

theorem chunkAlloc_some {c : Chunk} (hc : c.Ok p s.heap) {size : Nat}
    (hsize : 0 < size ∨ 1 < p.memAlign) :
    ∃ c' heap, chunkAlloc p env (some c) size s
        = .ok (c', { s with heap, calls := s.calls + 1 }) ∧
      Resized p (env s.calls) s.heap c size c' heap := by
  have hle : size ≤ actualSize p size := by
    rw [actualSize_eq]
    exact le_alignUp
  have hpos := p.memAlign_pos
  have hn : actualSize p size + (p.memAlign - 1) ≠ 0 := by omega
  have hadd : actualSize p size + p.memAlign - 1 = actualSize p size + (p.memAlign - 1) := by omega
  have ⟨block, hblock, hlen⟩ := hc.block
  have ⟨b, heap, address, hrealloc, hgrow, hself, hcases, hother⟩ :=
    Heap.realloc_some_eq (a := env s.calls) hblock hn
  have hdvd : p.memBlockSize ∣ actualSize p size := by
    rw [actualSize_eq]
    exact dvd_alignUp p.memBlockSize_pos
  have hlt := hc.lt
  have hblock' : ∃ block, heap.block? b = some block ∧
      block.bytes.length = actualSize p size + (p.memAlign - 1) :=
    ⟨_, hself, Heap.resize_length _ _ _⟩
  simp only [chunkAlloc, Option.map_some, hadd, hrealloc, Option.orUndefined_some, Outcome.ok_bind,
    hself, Outcome.pure_eq]
  rcases hcases with ⟨rfl, -, -⟩ | ⟨rfl, hmoved, rfl⟩
  · refine ⟨{ c with size := actualSize p size }, heap, by rw [if_pos rfl], ?_⟩
    exact {
      ok      := { hc with block := hblock', size_dvd := hdvd }
      size_eq := rfl
      grows   := hgrow
      place   := .inl ⟨rfl, rfl⟩
      other   := hother
      bytes   := ⟨block, _, hblock, hself, rfl⟩
    }
  · have hne : c.allocatedPtr ≠ s.heap.length := hlt.ne
    refine ⟨_, heap, by rw [if_neg hne], ?_⟩
    exact {
      ok      := {
        block     := hblock'
        ptr_block := rfl
        ptr_le    := alignOffset_le _
        size_dvd  := hdvd
      }
      size_eq := rfl
      grows   := hgrow
      place   := .inr ⟨rfl, hmoved, rfl⟩
      other   := hother
      bytes   := ⟨block, _, hblock, hself, rfl⟩
    }

end ChunkV

end Buffer
