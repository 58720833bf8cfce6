import Adios2.Format.Buffer.Theorems.ChunkVPlaces

-- What the operations of a `ChunkV` make of its memory, when full chunks may shrink and are used
-- again.

namespace Buffer

open Bytes

-- Memory that is read in front of where a block is cut off or gets longer.
theorem readBytes_resize {junk : Nat → Byte} {bytes : List Byte} {k o n : Nat}
    (hlen : o + n ≤ bytes.length) (hk : o + n ≤ k) :
    readBytes (Heap.resize junk bytes k) o n = readBytes bytes o n := by
  have hfront : (bytes.take k).length = min k bytes.length := List.length_take
  rw [readBytes, readBytes, if_pos hlen, if_pos (by rwa [Heap.resize_length]), Heap.resize,
    List.drop_append_of_le_length (by omega), List.take_append_of_le_length (by simp; omega),
    List.drop_take, List.take_take, Nat.min_eq_left (by omega)]

namespace ChunkV

variable {p : Parameters} {env : Nat → Allocation} {s s' mid : ChunkV} {flat : List Byte}

-- `n` bytes that `m_ChunkSize` leaves room for in the tail chunk also have room there.
def Fits (p : Parameters) (s : ChunkV) (n : Nat) : Prop :=
  ∀ i c, s.appendPossible = .ok true → s.tailChunkPos + n ≤ p.chunkSize →
    s.getTailChunk = .ok (i, c) → s.tailChunkPos + n ≤ c.size

-- Every internal entry is the front of a chunk of its own, and the tail is the end of the last one.
-- What is in front of the pointer of a chunk is up to the address that its block was given.
structure Sits (p : Parameters) (env : Nat → Allocation) (s : ChunkV) : Prop where
  geometry : Geometry p s
  tail     : Tail s
  offsets  : ∀ c ∈ s.chunks, ∃ call, c.ptr.offset = alignOffset p (env call).address

theorem Sits.empty : Sits p env {} where
  geometry := (Sound.empty (p := p)).geometry
  tail     := (Sound.empty (p := p)).tail
  offsets  := by simp

theorem Sits.reset (h : Sits p env s) : Sits p env s.reset where
  geometry := {
    chunks_ok := h.geometry.chunks_ok
    distinct  := h.geometry.distinct
    active    := rfl
    entries   := by simp [ChunkV.reset, internals]
  }
  tail     := ⟨by simp [ChunkV.reset, internals], fun _ => rfl⟩
  offsets  := h.offsets

-- There is no shrinking to no bytes at all.
theorem chunkAlloc_some_pos {c c' : Chunk} {size : Nat}
    (h : chunkAlloc p env (some c) size s = .ok (c', s')) : 0 < size ∨ 1 < p.memAlign := by
  by_contra hnone
  have hpos := p.memAlign_pos
  have hzero : actualSize p size + p.memAlign - 1 = 0 := by
    have hsize : size = 0 := by omega
    have hactual : actualSize p 0 = 0 := by simp [actualSize]
    rw [hsize, hactual]
    omega
  obtain ⟨⟨b, heap⟩, hrealloc, _⟩ := Outcome.bind_eq_ok.mp h
  rw [hzero, Option.map_some, Heap.realloc] at hrealloc
  simp only [Option.bind_eq_bind, if_true] at hrealloc
  cases hblock : s.heap.block? c.allocatedPtr <;> rw [hblock] at hrealloc <;> cases hrealloc

-- The tail chunk is closed out: it has the size of its entry, up to a multiple of the block size, and
-- zeros in the rest.
structure Shrunk (p : Parameters) (env : Nat → Allocation) (s mid : ChunkV)
    (init : List VecEntry) (n alignment i : Nat) (c c' : Chunk) (heap : Heap) : Prop where
  tail      : s.tailChunk = some i
  active    : s.nextActiveChunk = i + 1
  chunk     : s.chunks[i]? = some c
  before    : s.dataV = init ++ [.internal c.ptr n]
  size_le   : n ≤ c.size
  resized   : Resized p (env s.calls) s.heap c n c' heap
  padded    : c'.size = n + alignment
  stored    : Heap.Stored heap mid.heap c'.ptr n (.replicate alignment 0)
  chunks    : mid.chunks = s.chunks.set i c'
  dataV     : mid.dataV = init ++ [.internal c'.ptr c'.size]
  next      : mid.nextActiveChunk = s.nextActiveChunk
  tailChunk : mid.tailChunk = none

theorem closeOut_shrunk (hs : Sits p env s) (hp : p.noShrink = false) {init : List VecEntry}
    {base : Pointer} {n alignment : Nat} (hd : s.dataV = init ++ [.internal base n])
    (h : s.closeOut p env = .ok (alignment, mid)) :
    ∃ i c c' heap, Shrunk p env s mid init n alignment i c c' heap := by
  obtain ⟨i, c, htail, hactive, _, hpos, hc, hbase, hle⟩ := hs.geometry.last hs.tail hd
  have hok := hs.geometry.chunks_ok c (List.mem_of_getElem? hc)
  have hget : s.getTailChunk = .ok (i, c) := by
    rw [getTailChunk, htail, Option.orUndefined_some, Outcome.ok_bind, hc]
    rfl
  rw [closeOut, if_neg (by simp [hp]), hget, Outcome.ok_bind] at h
  obtain ⟨⟨c', s₁⟩, halloc, h⟩ := Outcome.bind_eq_ok.mp h
  obtain ⟨c'', heap, halloc', hresized⟩ :=
    @chunkAlloc_some p env s c hok s.tailChunkPos (chunkAlloc_some_pos halloc)
  cases halloc'.symm.trans halloc
  have hsize := hresized.size_eq
  have hgrows := le_actualSize (p := p) s.tailChunkPos
  obtain ⟨block, hblock, hlen⟩ := hresized.ok.block
  rw [← hresized.ok.ptr_block] at hblock
  have hptr := hresized.ok.ptr_le
  have hroom : c'.ptr.offset + s.tailChunkPos
      + (List.replicate (c'.size - s.tailChunkPos) (0 : Byte)).length ≤ block.bytes.length := by
    rw [List.length_replicate]
    omega
  obtain ⟨heap', hstore, hstored⟩ := Heap.store_stored hblock hroom
  simp only [store, hstore, Option.orUndefined_some, Outcome.ok_bind, Outcome.pure_eq] at h
  cases h
  subst hpos
  refine ⟨i, c, c', heap, htail, hactive, hc, hbase ▸ hd, hle, hresized, ?_, hstored, rfl, ?_, rfl, rfl⟩
  · omega
  · dsimp only
    rw [hd, List.dropLast_concat]

namespace Shrunk

variable {init : List VecEntry} {n alignment i : Nat} {c c' : Chunk} {heap : Heap}

theorem lt (h : Shrunk p env s mid init n alignment i c c' heap) : i < s.chunks.length :=
  (List.getElem?_eq_some_iff.mp h.chunk).1

-- The other chunks are in other blocks.
theorem other_ne (hs : Sits p env s) (h : Shrunk p env s mid init n alignment i c c' heap)
    {k : Nat} {d : Chunk} (hd : s.chunks[k]? = some d) (hk : k ≠ i) :
    d.allocatedPtr ≠ c.allocatedPtr ∧ d.allocatedPtr ≠ c'.allocatedPtr := by
  have hne := hs.geometry.block_ne hd h.chunk hk
  refine ⟨hne, ?_⟩
  rcases h.resized.place with ⟨heq, -⟩ | ⟨hnew, -, -⟩
  · rwa [heq]
  · rw [hnew]
    exact (hs.geometry.chunks_ok d (List.mem_of_getElem? hd)).lt.ne

theorem other_block (h : Shrunk p env s mid init n alignment i c c' heap) {b : Nat}
    (hb : b < s.heap.length) (hne : b ≠ c.allocatedPtr) (hne' : b ≠ c'.allocatedPtr) :
    mid.heap.block? b = s.heap.block? b := by
  rw [h.stored.other b (by rwa [h.resized.ok.ptr_block]), h.resized.other b hb hne]

theorem chunk_ok (h : Shrunk p env s mid init n alignment i c c' heap) : c'.Ok p mid.heap := by
  have hok := h.resized.ok
  have ⟨block, hb, hlen⟩ := hok.block
  have ⟨block', hb', hlen'⟩ := h.stored.sizes _ _ hb
  exact { hok with block := ⟨block', hb', hlen'.trans hlen⟩ }

theorem geometry (hs : Sits p env s) (h : Shrunk p env s mid init n alignment i c c' heap) :
    Geometry p mid where
  chunks_ok := by
    intro d hd
    rw [h.chunks] at hd
    obtain ⟨k, hk⟩ := List.mem_iff_getElem?.mp hd
    by_cases hki : k = i
    case pos =>
      rw [hki, List.getElem?_set_self h.lt] at hk
      exact Option.some.inj hk ▸ h.chunk_ok
    case neg =>
      rw [List.getElem?_set_ne (Ne.symm hki)] at hk
      have hok := hs.geometry.chunks_ok d (List.mem_of_getElem? hk)
      obtain ⟨hne, hne'⟩ := h.other_ne hs hk hki
      exact hok.of_block?_eq (h.other_block hok.lt hne hne')
  distinct  := by
    rw [h.chunks, List.map_set]
    refine List.nodup_set hs.geometry.distinct fun k hk hsome => ?_
    rw [List.getElem?_map, Option.map_eq_some_iff] at hsome
    obtain ⟨d, hd, heq⟩ := hsome
    exact (h.other_ne hs hd hk).2 heq
  active    := by
    rw [h.dataV, h.next, ← hs.geometry.active, h.before, internals_append, internals_append]
    simp [internals]
  entries   := by
    intro k e he
    have hin : internals s.dataV = internals init ++ [(c.ptr, n)] := by
      rw [h.before, internals_append]
      rfl
    have hlen : (internals init).length = i := by
      have := hs.geometry.active
      rw [hin, List.length_append, List.length_singleton, h.active] at this
      omega
    rw [h.dataV, internals_append] at he
    rw [h.chunks]
    rcases Nat.lt_or_ge k i with hk | hk
    · rw [List.getElem?_append_left (hlen ▸ hk)] at he
      obtain ⟨d, hd, hentry⟩ := hs.geometry.entries k e (by
        rw [hin, List.getElem?_append_left (hlen ▸ hk), he])
      exact ⟨d, by rw [List.getElem?_set_ne hk.ne', hd], hentry⟩
    · have hk' : k = i := by
        have := (List.getElem?_eq_some_iff.mp he).1
        simp only [List.length_append, internals, List.filterMap_cons, List.filterMap_nil,
          List.length_singleton] at this hlen
        omega
      rw [hk', ← hlen, List.getElem?_append_right le_rfl, Nat.sub_self] at he
      cases he
      exact ⟨c', by rw [hk', List.getElem?_set_self h.lt], rfl, le_rfl⟩

theorem offsets (hs : Sits p env s) (h : Shrunk p env s mid init n alignment i c c' heap) :
    ∀ d ∈ mid.chunks, ∃ call, d.ptr.offset = alignOffset p (env call).address := by
  intro d hd
  rw [h.chunks] at hd
  rcases List.mem_or_eq_of_mem_set hd with hd | rfl
  · exact hs.offsets d hd
  · rcases h.resized.place with ⟨-, hptr⟩ | ⟨-, -, hoffset⟩
    · rw [hptr]
      exact hs.offsets c (List.mem_of_getElem? h.chunk)
    · exact ⟨s.calls, hoffset⟩

end Shrunk

end ChunkV

end Buffer
