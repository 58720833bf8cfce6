import Adios2.Lib.Lists
import Adios2.Format.Buffer.Theorems.ChunkVAlloc

-- How chunks, memory and the entries of the output vector fit together, and that this stays so when
-- room is made for more bytes.

namespace Buffer

open Bytes Layout

namespace ChunkV

variable {p : Parameters} {env : Nat → Allocation} {s s' : ChunkV}

def internals (dataV : List VecEntry) : List (Pointer × Nat) :=
  dataV.filterMap fun
    | .external _         => none
    | .internal base size => some (base, size)

theorem internals_append (xs ys : List VecEntry) :
    internals (xs ++ ys) = internals xs ++ internals ys :=
  List.filterMap_append

-- Every internal entry starts at the pointer of a chunk of its own and ends within it.
structure Geometry (p : Parameters) (s : ChunkV) : Prop where
  chunks_ok : ∀ c ∈ s.chunks, c.Ok p s.heap
  distinct  : (s.chunks.map (·.allocatedPtr)).Nodup
  active    : (internals s.dataV).length = s.nextActiveChunk
  entries   : ∀ (k : Nat) (e : Pointer × Nat), (internals s.dataV)[k]? = some e →
    ∃ c : Chunk, s.chunks[k]? = some c ∧ e.1 = c.ptr ∧ e.2 ≤ c.size

-- The tail is the end of the last internal entry.
structure Tail (s : ChunkV) : Prop where
  last : ∀ base n, (internals s.dataV).getLast? = some (base, n) →
    s.tailChunk = some (s.nextActiveChunk - 1) ∧ s.tailChunkPos = n
  none : internals s.dataV = [] → s.tailChunk = none

theorem Geometry.active_le (h : Geometry p s) : s.nextActiveChunk ≤ s.chunks.length := by
  rw [← h.active]
  cases hi : internals s.dataV with
  | nil => exact Nat.zero_le _
  | cons e es =>
    have hlast : (internals s.dataV)[es.length]? = some ((e :: es)[es.length]) := by
      rw [hi]
      exact List.getElem?_eq_getElem (by simp)
    have ⟨c, hc, _⟩ := h.entries _ _ hlast
    exact (List.getElem?_eq_some_iff.mp hc).1

-- The chunk of the last entry.
theorem Geometry.last {init : List VecEntry} {base : Pointer} {n : Nat} (h : Geometry p s)
    (ht : Tail s) (hd : s.dataV = init ++ [.internal base n]) :
    ∃ i c, s.tailChunk = some i ∧ s.nextActiveChunk = i + 1 ∧ (internals init).length = i ∧
      s.tailChunkPos = n ∧ s.chunks[i]? = some c ∧ base = c.ptr ∧ n ≤ c.size := by
  have hin : internals s.dataV = internals init ++ [(base, n)] := by
    rw [hd, internals_append]
    rfl
  have hact := h.active
  rw [hin, List.length_append, List.length_singleton] at hact
  have ⟨htail, hpos⟩ := ht.last base n (by rw [hin, List.getLast?_concat])
  have ⟨c, hc, hbase, hle⟩ := h.entries (internals init).length (base, n) <| by
    rw [hin, List.getElem?_concat_length]
  refine ⟨(internals init).length, c, ?_, hact.symm, rfl, hpos, hc, hbase, hle⟩
  rw [htail, ← hact, Nat.add_sub_cancel]

-- Two chunks at different places are in different blocks.
theorem Geometry.block_ne {i j : Nat} {c d : Chunk} (h : Geometry p s) (hc : s.chunks[i]? = some c)
    (hd : s.chunks[j]? = some d) (hij : i ≠ j) : c.allocatedPtr ≠ d.allocatedPtr := by
  intro heq
  apply hij
  have hi : (s.chunks.map (·.allocatedPtr))[i]? = some c.allocatedPtr := by
    rw [List.getElem?_map, hc]
    rfl
  have hj : (s.chunks.map (·.allocatedPtr))[j]? = some c.allocatedPtr := by
    rw [List.getElem?_map, hd, heq]
    rfl
  have hlt := (List.getElem?_eq_some_iff.mp hi).1
  exact (List.getElem?_inj hlt h.distinct).mp (hi.trans hj.symm)

-- To take the chunk behind those that are in use, when it may have been put there just now.
theorem Geometry.claim (h : Geometry p s) (s' : ChunkV) (hs' : s'.dataV = s.dataV)
    (hactive : s'.nextActiveChunk = s.nextActiveChunk) (hok : ∀ c ∈ s'.chunks, c.Ok p s'.heap)
    (hdistinct : (s'.chunks.map (·.allocatedPtr)).Nodup)
    (hkept : ∀ k < s.nextActiveChunk, s'.chunks[k]? = s.chunks[k]?) {size : Nat} {c : Chunk}
    (hc : s'.chunks[s.nextActiveChunk]? = some c) (hsize : size ≤ c.size) :
    Geometry p (s'.claim size c) ∧ Tail (s'.claim size c) := by
  have hin : internals (s'.claim size c).dataV = internals s.dataV ++ [(c.ptr, size)] := by
    rw [ChunkV.claim, hs', internals_append]
    rfl
  have hact := h.active
  constructor
  · exact {
      chunks_ok := hok
      distinct  := hdistinct
      active    := by
        rw [hin, List.length_append, List.length_singleton, hact, ← hactive]
        rfl
      entries   := by
        intro k e he
        rw [hin] at he
        rcases Nat.lt_or_ge k s.nextActiveChunk with hk | hk
        · rw [List.getElem?_append_left (hact ▸ hk)] at he
          have ⟨d, hd, hentry⟩ := h.entries k e he
          exact ⟨d, (hkept k hk).trans hd, hentry⟩
        · have hk' : k = s.nextActiveChunk := by
            have := (List.getElem?_eq_some_iff.mp he).1
            rw [List.length_append, List.length_singleton, hact] at this
            omega
          rw [hk', ← hact, List.getElem?_concat_length] at he
          cases he
          exact ⟨c, hk' ▸ hc, rfl, hsize⟩
    }
  · exact {
      last := by
        intro base n hlast
        rw [hin, List.getLast?_concat, Option.some.injEq, Prod.mk.injEq] at hlast
        exact ⟨rfl, hlast.2⟩
      none := by simp [hin]
    }

variable (env) in
theorem freshChunk_spec (h : Geometry p s) {size : Nat} (hsize : 0 < size) :
    ∃ s' base, s.freshChunk p env size = .ok s' ∧ Geometry p s' ∧ Tail s' ∧
      s'.dataV = s.dataV ++ [.internal base size] ∧ s'.curOffset = s.curOffset ∧
      (∀ c ∈ s'.chunks, c ∈ s.chunks ∨
        p.chunkSize ≤ c.size ∧ c.ptr.offset = alignOffset p (env s.calls).address) ∧
      ∀ b < s.heap.length, s'.heap.block? b = s.heap.block? b := by
  have hle : size ≤ if size > p.chunkSize then size else p.chunkSize := by
    split <;> omega
  have hwide : p.chunkSize ≤ if size > p.chunkSize then size else p.chunkSize := by
    split <;> omega
  have ⟨c, heap, halloc, hc, hcsize, hoffset, hnew, hother⟩ :=
    chunkAlloc_none p env s (hsize.trans_le hle)
  have hlt : ∀ d ∈ s.chunks, d.allocatedPtr < s.heap.length := fun d hd => (h.chunks_ok d hd).lt
  have hperm := List.perm_insertIdx c s.chunks h.active_le
  have hok : ∀ d ∈ s.chunks.insertIdx s.nextActiveChunk c, d.Ok p heap := by
    intro d hd
    cases List.mem_cons.mp (hperm.mem_iff.mp hd) with
    | inl hd => exact hd ▸ hc
    | inr hd => exact (h.chunks_ok d hd).of_block?_eq (hother _ (hlt d hd))
  have hdistinct : ((s.chunks.insertIdx s.nextActiveChunk c).map (·.allocatedPtr)).Nodup := by
    rw [(hperm.map _).nodup_iff, List.map_cons, List.nodup_cons]
    refine ⟨fun hmem => ?_, h.distinct⟩
    obtain ⟨d, hd, heq⟩ := List.mem_map.mp hmem
    have := hlt d hd
    omega
  have hkept : ∀ k < s.nextActiveChunk,
      (s.chunks.insertIdx s.nextActiveChunk c)[k]? = s.chunks[k]? :=
    fun k hk => List.getElem?_insertIdx_of_lt hk
  have hself : (s.chunks.insertIdx s.nextActiveChunk c)[s.nextActiveChunk]? = some c := by
    rw [List.getElem?_insertIdx_self, if_pos h.active_le]
  let s' : ChunkV := { s with
    heap
    calls  := s.calls + 1
    chunks := s.chunks.insertIdx s.nextActiveChunk c
  }
  have ⟨hgeo, htail⟩ := h.claim s' rfl rfl hok hdistinct hkept hself (hle.trans hcsize)
  have hchunks : ∀ d ∈ s.chunks.insertIdx s.nextActiveChunk c,
      d ∈ s.chunks ∨
        p.chunkSize ≤ d.size ∧ d.ptr.offset = alignOffset p (env s.calls).address := by
    intro d hd
    cases List.mem_cons.mp (hperm.mem_iff.mp hd) with
    | inl hd => exact .inr (hd ▸ ⟨hwide.trans hcsize, hoffset⟩)
    | inr hd => exact .inl hd
  refine ⟨_, c.ptr, ?_, hgeo, htail, rfl, rfl, hchunks, hother⟩
  rw [freshChunk, halloc]
  rfl

variable (env) in
-- A chunk for bytes that do not fit elsewhere.
theorem newChunk_spec (h : Geometry p s) {size : Nat} (hsize : 0 < size) :
    ∃ s' base, s.newChunk p env size = .ok s' ∧ Geometry p s' ∧ Tail s' ∧
      s'.dataV = s.dataV ++ [.internal base size] ∧ s'.curOffset = s.curOffset ∧
      (∀ c ∈ s'.chunks, c ∈ s.chunks ∨
        p.chunkSize ≤ c.size ∧ c.ptr.offset = alignOffset p (env s.calls).address) ∧
      ∀ b < s.heap.length, s'.heap.block? b = s.heap.block? b := by
  unfold newChunk
  cases hc : s.chunks[s.nextActiveChunk]? with
  | none => exact freshChunk_spec env h hsize
  | some c =>
    by_cases hle : c.size ≥ size
    case pos =>
      have ⟨hgeo, htail⟩ := h.claim s rfl rfl h.chunks_ok h.distinct (fun _ _ => rfl) hc hle
      exact ⟨_, c.ptr, if_pos hle, hgeo, htail, rfl, rfl, fun _ => .inl, fun _ _ => rfl⟩
    case neg =>
      have ⟨s', base, hfresh, hspec⟩ := freshChunk_spec env h hsize
      exact ⟨s', base, (if_neg hle).trans hfresh, hspec⟩

section Contents

-- What the entries show of the memory.

variable {heap heap' : Heap} {xs ys : List VecEntry} {flat a b : List Byte}

def Shows (heap : Heap) (dataV : List VecEntry) (flat : List Byte) : Prop :=
  ∃ blocks, List.Forall₂ (fun e bs => entryBytes heap e = some bs) dataV blocks ∧
    blocks.flatten = flat

theorem contents_eq_some : s.contents = some flat ↔ Shows s.heap s.dataV flat := by
  unfold contents Shows
  simp only [Option.bind_eq_bind, Option.bind_eq_some_iff, List.mapM_eq_some_iff_forall₂,
    Option.pure_def, Option.some.injEq]

theorem shows_nil : Shows heap [] flat ↔ flat = [] := by
  constructor
  · rintro ⟨_, hall, rfl⟩
    cases hall
    rfl
  · rintro rfl
    exact ⟨[], .nil, rfl⟩

theorem shows_cons {e : VecEntry} :
    Shows heap (e :: xs) flat ↔
      ∃ bs a, entryBytes heap e = some bs ∧ Shows heap xs a ∧ flat = bs ++ a := by
  constructor
  · rintro ⟨_, hall, rfl⟩
    cases hall with
    | cons he hxs => exact ⟨_, _, he, ⟨_, hxs, rfl⟩, rfl⟩
  · rintro ⟨bs, _, he, ⟨blocks, hxs, rfl⟩, rfl⟩
    exact ⟨bs :: blocks, .cons he hxs, rfl⟩

theorem shows_append :
    Shows heap (xs ++ ys) flat ↔ ∃ a b, Shows heap xs a ∧ Shows heap ys b ∧ flat = a ++ b := by
  induction xs generalizing flat with
  | nil =>
    constructor
    · exact fun h => ⟨[], flat, shows_nil.mpr rfl, h, rfl⟩
    · rintro ⟨a, b, ha, hb, rfl⟩
      cases shows_nil.mp ha
      exact hb
  | cons e xs ih =>
    rw [List.cons_append, shows_cons]
    simp only [ih, shows_cons]
    constructor
    · rintro ⟨bs, _, he, ⟨a, b, ha, hb, rfl⟩, rfl⟩
      exact ⟨bs ++ a, b, ⟨bs, a, he, ha, rfl⟩, hb, (List.append_assoc _ _ _).symm⟩
    · rintro ⟨_, b, ⟨bs, a, he, ha, rfl⟩, hb, rfl⟩
      exact ⟨bs, a ++ b, he, ⟨a, b, ha, hb, rfl⟩, List.append_assoc _ _ _⟩

theorem shows_singleton {e : VecEntry} : Shows heap [e] flat ↔ entryBytes heap e = some flat := by
  rw [shows_cons]
  constructor
  · rintro ⟨bs, a, he, ha, rfl⟩
    rw [he, shows_nil.mp ha, List.append_nil]
  · exact fun he => ⟨flat, [], he, shows_nil.mpr rfl, (List.append_nil _).symm⟩

theorem Shows.congr (h : Shows heap xs flat)
    (heq : ∀ base n, .internal base n ∈ xs → heap'.block? base.block = heap.block? base.block) :
    Shows heap' xs flat := by
  obtain ⟨blocks, hall, rfl⟩ := h
  refine ⟨blocks, ?_, rfl⟩
  have hentry : ∀ e ∈ xs, entryBytes heap' e = entryBytes heap e := by
    intro e he
    cases e with
    | external _ => rfl
    | internal base n => simp only [entryBytes, Heap.load, heq base n he]
  clear heq
  induction hall with
  | nil => exact .nil
  | cons he _ ih =>
    rw [List.forall_mem_cons] at hentry
    exact .cons (hentry.1.trans he) (ih hentry.2)

theorem entryBytes_length {e : VecEntry} {bs : List Byte} (h : entryBytes heap e = some bs) :
    bs.length = e.size := by
  cases e with
  | external bytes =>
    cases h
    rfl
  | internal base n =>
    simp only [entryBytes, Heap.load, Option.bind_eq_bind, Option.bind_eq_some_iff] at h
    obtain ⟨_, _, h⟩ := h
    exact readBytes_length h

theorem Shows.length_eq (h : Shows heap xs flat) : flat.length = (xs.map VecEntry.size).sum := by
  induction xs generalizing flat with
  | nil =>
    rw [shows_nil.mp h]
    rfl
  | cons e xs ih =>
    obtain ⟨bs, a, he, ha, rfl⟩ := shows_cons.mp h
    rw [List.length_append, entryBytes_length he, ih ha, List.map_cons, List.sum_cons]

end Contents

-- The blocks behind the entries are those of the chunks in use.
theorem Geometry.blocks_eq (h : Geometry p s) : (internals s.dataV).map (·.1.block)
    = (s.chunks.take s.nextActiveChunk).map (·.allocatedPtr) := by
  apply List.ext_getElem?
  intro k
  rw [List.getElem?_map, List.getElem?_map]
  cases he : (internals s.dataV)[k]? with
  | none =>
    have hk := h.active ▸ List.getElem?_eq_none_iff.mp he
    rw [List.getElem?_take, if_neg (Nat.not_lt.mpr hk)]
    rfl
  | some e =>
    have ⟨c, hc, hbase, _⟩ := h.entries k e he
    have hk := h.active ▸ (List.getElem?_eq_some_iff.mp he).1
    have hok := h.chunks_ok c (List.mem_of_getElem? hc)
    rw [List.getElem?_take_of_lt hk, hc, Option.map_some, Option.map_some, hbase, hok.ptr_block]

-- No two entries are in the same block.
theorem Geometry.block_ne_of_split (h : Geometry p s) {xs ys : List VecEntry} {base : Pointer}
    {n : Nat} (hd : s.dataV = xs ++ .internal base n :: ys) :
    ∀ base' n', .internal base' n' ∈ xs ++ ys → base'.block ≠ base.block := by
  intro base' n' hmem heq
  have hnodup : ((internals s.dataV).map (·.1.block)).Nodup := by
    rw [h.blocks_eq]
    exact h.distinct.sublist ((List.take_sublist _ _).map _)
  have hin : internals s.dataV = internals xs ++ (base, n) :: internals ys := by
    rw [hd, internals_append]
    rfl
  have hmem' : (base', n') ∈ internals xs ++ internals ys := by
    rw [← internals_append]
    exact List.mem_filterMap.mpr ⟨_, hmem, rfl⟩
  rw [hin, List.map_append, List.map_cons, List.nodup_middle, List.nodup_cons, ← List.map_append,
    ← heq] at hnodup
  exact hnodup.1 (List.mem_map_of_mem hmem')

theorem Geometry.entry_block_lt (h : Geometry p s) {base : Pointer} {n : Nat}
    (he : .internal base n ∈ s.dataV) : base.block < s.heap.length := by
  have hmem : (base, n) ∈ internals s.dataV := List.mem_filterMap.mpr ⟨_, he, rfl⟩
  have ⟨k, hk⟩ := List.mem_iff_getElem?.mp hmem
  have ⟨c, hc, hbase, _⟩ := h.entries k _ hk
  have hok := h.chunks_ok c (List.mem_of_getElem? hc)
  simp only at hbase
  rw [hbase, hok.ptr_block]
  exact hok.lt

end ChunkV

end Buffer
