import Adios2.Format.Buffer.Theorems.ChunkVPlaces
import Adios2.Format.Buffer.Theorems.MallocVPlaces

-- For which offsets the pointers are right that `ChunkV` and `MallocV` give.

namespace Buffer

open Bytes

-- The pointers for offsets are right for those that `right` names, and the ones for allocations are
-- right for all of their bytes. `right` gets to know which bytes are in external entries.
structure Pointers {σ : Type} (b : BufferV σ) (u : Use σ) (right : List Bool → Nat → Prop) :
    Prop where
  size    : (places (b.dataVec u.buffer)).length = b.size u.buffer
  offsets : ∀ off < b.size u.buffer,
    Designates b u.buffer off ↔ right (externals (b.entries u.buffer)) off
  spans   : ∀ span ∈ u.spans, SpanDesignates b u.buffer span

-- In any use, `ChunkV` gives right pointers for what it has copied or allocated itself, and `MallocV`
-- does as long as nothing external is in front.
theorem getPtr_pointers (p : Parameters) (q : MallocParameters) (env : Nat → Allocation)
    (operations : List Operation) :
    (∀ u : Use ChunkV, (chunkV p env).run { buffer := {} } operations = .ok u →
      Pointers (chunkV p env) u fun external off => external[off]? = some false) ∧
    (∀ u : Use MallocV, (mallocV q env).run { buffer := {} } operations = .ok u →
      Pointers (mallocV q env) u fun external off => true ∉ external.take (off + 1)) := by
  constructor
  · intro u hrun
    have hserving := ChunkV.Serving.of_run hrun
    have htotal := hserving.laid.total
    exact {
      size    := (length_places ChunkV.iovec_len _).trans htotal.symm
      offsets := fun off hoff => ChunkV.designates_iff p env _ (htotal ▸ hoff)
      spans   := fun span hmem => ChunkV.spanDesignates_of_allocAt p env (hserving.spans span hmem)
    }
  · intro u hrun
    have hserving := MallocV.Serving.of_run hrun
    have htotal := hserving.laid.total
    exact {
      size    := (length_places MallocV.iovec_len _).trans htotal.symm
      offsets := fun off hoff => MallocV.designates_iff q env hserving.laid (htotal ▸ hoff)
      spans   := fun span hmem =>
        MallocV.spanDesignates_of_allocAt q env (hserving.spans span hmem)
    }

section Example

def smallChunks : Parameters where
  alwaysCopy       := false
  noShrink         := false
  memAlign         := 1
  memBlockSize     := 8
  chunkSize        := 10
  memAlign_pos     := Nat.one_pos
  memBlockSize_pos := by decide

def twiceAsLarge : MallocParameters where
  alwaysCopy := false
  scaled     := fun n => 2 * n

def zeroedInPlace (call : Nat) : Allocation where
  inPlace := true
  address := 64 * call
  junk    := fun _ => 0

-- Three bytes of the application, and an allocation that gets smaller.
def deferredThenSpan : List Operation :=
  [.addToVec [1, 2, 3] 1 false, .allocate 6 4, .downsizeLastAlloc 5, .addToVec [4, 5] 1 true]

theorem getPtr_pointers_deferredThenSpan :
    (∃ u, (chunkV smallChunks zeroedInPlace).run { buffer := {} } deferredThenSpan = .ok u ∧
      Pointers (chunkV smallChunks zeroedInPlace) u
        fun external off => external[off]? = some false) ∧
    ∃ u, (mallocV twiceAsLarge zeroedInPlace).run { buffer := {} } deferredThenSpan = .ok u ∧
      Pointers (mallocV twiceAsLarge zeroedInPlace) u
        fun external off => true ∉ external.take (off + 1) :=
  ⟨⟨_, rfl, (getPtr_pointers _ twiceAsLarge _ deferredThenSpan).1 _ rfl⟩,
    ⟨_, rfl, (getPtr_pointers smallChunks _ _ deferredThenSpan).2 _ rfl⟩⟩

-- The pointer for the first byte of the application is the number 1.
theorem not_getPtr_pointers_deferred :
    ¬∀ (p : Parameters) (env : Nat → Allocation) (operations : List Operation) (u : Use ChunkV),
      (chunkV p env).run { buffer := {} } operations = .ok u →
        ∀ off < (chunkV p env).size u.buffer, Designates (chunkV p env) u.buffer off := by
  intro h
  have ⟨place, hget, hplace⟩ :=
    h smallChunks zeroedInPlace [.addToVec [1, 2, 3] 1 false] _ rfl 0 (by decide)
  cases hget
  cases hplace

end Example

end Buffer
