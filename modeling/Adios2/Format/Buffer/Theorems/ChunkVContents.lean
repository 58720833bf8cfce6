import Adios2.Format.Buffer.Theorems.ChunkVRoom

-- What the operations make of the contents of a buffer whose chunks do not shrink, and which of its
-- entries they leave as they are.

namespace Buffer

open Bytes

namespace ChunkV

variable {p : Parameters} {env : Nat → Allocation} {s s' : ChunkV} {flat : List Byte}

-- Chunks that do not shrink are as large as a chunk is to be.
structure Sound (p : Parameters) (s : ChunkV) : Prop where
  geometry : Geometry p s
  tail     : Tail s
  wide     : ∀ c ∈ s.chunks, p.chunkSize ≤ c.size

structure Holding (p : Parameters) (s : ChunkV) (flat : List Byte) : Prop extends Sound p s where
  shows     : Shows s.heap s.dataV flat
  curOffset : s.curOffset = flat.length

-- The next `size` bytes do not go in an entry of their own.
def Appends (p : Parameters) (s : ChunkV) (size : Nat) : Prop :=
  s.appendPossible = .ok true ∧ s.tailChunkPos + size ≤ p.chunkSize

instance (size : Nat) : Decidable (Appends p s size) :=
  inferInstanceAs (Decidable (_ ∧ _))

-- The first `k` entries, and their memory, before and after.
structure Kept (k : Nat) (s s' : ChunkV) : Prop where
  entries : s'.dataV.take k = s.dataV.take k
  memory  : ∀ base n, .internal base n ∈ s.dataV.take k →
    s'.heap.block? base.block = s.heap.block? base.block

-- An allocation in its entry.
inductive AllocAt (dataV : List VecEntry) (bp : BufferPos) (size : Nat) : Prop
  | empty (index : bp.bufferIdx = none) (zero : size = 0)
  | entry {xs ys : List VecEntry} {base : Pointer} {n : Nat}
      (split : dataV = xs ++ .internal base n :: ys) (index : bp.bufferIdx = some xs.length)
      (position : bp.globalPos = (xs.map VecEntry.size).sum + bp.posInBuffer)
      (within : bp.posInBuffer + size ≤ n)

-- What room for bytes at the tail makes of the entries.
inductive Room (p : Parameters) (s s' : ChunkV) (size pos : Nat) : Prop
  | appended {init : List VecEntry} {base : Pointer} (appends : Appends p s size)
      (before : s.dataV = init ++ [.internal base pos])
      (after : s'.dataV = init ++ [.internal base (pos + size)]) (heap : s'.heap = s.heap)
  | opened {base : Pointer} (fresh : ¬Appends p s size) (zero : pos = 0)
      (after : s'.dataV = s.dataV ++ [.internal base size])

theorem Kept.refl (k : Nat) (s : ChunkV) : Kept k s s :=
  ⟨rfl, fun _ _ _ => rfl⟩

theorem Sound.length_le (h : Sound p s) : s.nextActiveChunk ≤ s.chunks.length :=
  h.geometry.active_le

-- The tail is where the last entry ends, so bytes can be appended to it if it is internal.
theorem Sound.appendPossible_eq (h : Sound p s) {init : List VecEntry} {e : VecEntry}
    (hd : s.dataV = init ++ [e]) :
    s.appendPossible = .ok (match e with | .internal _ _ => true | .external _ => false) := by
  have hlast : s.dataV.getLast? = some e := by rw [hd, List.getLast?_concat]
  cases e with
  | external bytes =>
    rw [appendPossible, hlast]
  | internal base n =>
    have ⟨i, c, htail, _, _, hpos, hc, hbase, _⟩ := h.geometry.last h.tail hd
    rw [appendPossible, hlast]
    simp only [getTailChunk, htail, hc, Option.orUndefined_some, Outcome.ok_bind, Outcome.pure_eq,
      hbase, hpos, and_self, decide_true]

theorem appendPossible_nil (hd : s.dataV = []) : s.appendPossible = .ok false := by
  rw [appendPossible, hd]
  rfl

theorem Sound.appendPossible_ok (h : Sound p s) : ∃ b, s.appendPossible = .ok b := by
  rcases List.eq_nil_or_concat s.dataV with hnil | ⟨init, e, hd⟩
  · exact ⟨false, appendPossible_nil hnil⟩
  · exact ⟨_, h.appendPossible_eq (by rw [hd, List.concat_eq_append])⟩

theorem Sound.last_of_appendPossible (h : Sound p s) (happend : s.appendPossible = .ok true) :
    ∃ init base n, s.dataV = init ++ [.internal base n] := by
  rcases List.eq_nil_or_concat s.dataV with hnil | ⟨init, e, hd⟩
  · rw [appendPossible_nil hnil] at happend
    cases happend
  · rw [List.concat_eq_append] at hd
    rw [h.appendPossible_eq hd] at happend
    cases e with
    | external _ => cases happend
    | internal base n => exact ⟨init, base, n, hd⟩

variable (env) in
theorem Sound.newChunk (h : Geometry p s) (hwide : ∀ c ∈ s.chunks, p.chunkSize ≤ c.size)
    {size : Nat} (hsize : 0 < size) :
    ∃ s' base, s.newChunk p env size = .ok s' ∧ Sound p s' ∧
      s'.dataV = s.dataV ++ [.internal base size] ∧ s'.curOffset = s.curOffset ∧
      ∀ b < s.heap.length, s'.heap.block? b = s.heap.block? b := by
  have ⟨s', base, hnew, hgeo, htail, hd, hcur, hchunks, hmem⟩ := newChunk_spec env h hsize
  refine ⟨s', base, hnew, ⟨hgeo, htail, fun c hc => ?_⟩, hd, hcur, hmem⟩
  cases hchunks c hc with
  | inl hold => exact hwide c hold
  | inr hfresh => exact hfresh.1

theorem Sound.tailChunkPos_eq (h : Sound p s) {init : List VecEntry} {base : Pointer} {n : Nat}
    (hd : s.dataV = init ++ [.internal base n]) : s.tailChunkPos = n := by
  have ⟨_, _, _, _, _, hpos, _⟩ := h.geometry.last h.tail hd
  exact hpos

-- The entry at the tail grows or shrinks within its chunk.
theorem Sound.resizeLast (h : Sound p s) {init : List VecEntry} {base : Pointer} {n m : Nat}
    (hd : s.dataV = init ++ [.internal base n]) (hm : ∀ c ∈ s.chunks, n ≤ c.size → m ≤ c.size)
    (curOffset : Nat) :
    Sound p { s with dataV := init ++ [.internal base m], curOffset, tailChunkPos := m } := by
  have ⟨i, c, htail, hact, hlen, _, hc, hbase, hsize⟩ := h.geometry.last h.tail hd
  have hin : internals s.dataV = internals init ++ [(base, n)] := by
    rw [hd, internals_append]
    rfl
  have hin' : internals (init ++ [.internal base m]) = internals init ++ [(base, m)] :=
    internals_append _ _
  refine ⟨{ h.geometry with active := ?_, entries := fun k e he => ?_ }, ⟨?_, ?_⟩, h.wide⟩
  · rw [hin', ← h.geometry.active, hin]
    simp
  · rw [hin'] at he
    rcases Nat.lt_or_ge k (internals init).length with hk | hk
    · apply h.geometry.entries
      rw [List.getElem?_append_left hk] at he
      rw [hin, List.getElem?_append_left hk, he]
    · have hk' : k = (internals init).length := by
        have := (List.getElem?_eq_some_iff.mp he).1
        simp only [List.length_append, List.length_singleton] at this
        omega
      rw [hk', List.getElem?_concat_length] at he
      cases he
      exact ⟨c, by rw [hk', hlen, hc], hbase, hm c (List.mem_of_getElem? hc) hsize⟩
  · intro base' n' hlast
    rw [hin', List.getLast?_concat] at hlast
    cases hlast
    exact ⟨by rw [htail, hact]; rfl, rfl⟩
  · simp [hin']

theorem closeOut_noShrink (hp : p.noShrink = true) :
    s.closeOut p env = .ok (0, { s with tailChunk := none, tailChunkPos := 0 }) := by
  rw [closeOut, if_pos hp]
  rfl

variable (env) in
-- Room is always found, without padding.
theorem Sound.makeRoom (hp : p.noShrink = true) (h : Sound p s) {size : Nat} (hsize : 0 < size) :
    ∃ s' pos, s.makeRoom p env size = .ok (0, pos, s') ∧ Sound p s' ∧ Room p s s' size pos ∧
      s'.curOffset = s.curOffset ∧ ∀ b < s.heap.length, s'.heap.block? b = s.heap.block? b := by
  unfold ChunkV.makeRoom
  have ⟨append, happend⟩ := h.appendPossible_ok
  rw [happend, Outcome.ok_bind]
  cases append with
  | false =>
    have ⟨s', base, hnew, hsound, hd, hcur, hmem⟩ := Sound.newChunk env h.geometry h.wide hsize
    refine ⟨s', 0, ?_, hsound, .opened (fun ha => ?_) rfl hd, hcur, hmem⟩
    · rw [hnew]
      rfl
    · have := happend.symm.trans ha.1
      cases this
  | true =>
    have ⟨init, base, n, hd⟩ := h.last_of_appendPossible happend
    have hpos := h.tailChunkPos_eq hd
    by_cases hfits : s.tailChunkPos + size ≤ p.chunkSize
    case pos =>
      have hlast : s.dataV.getLast? = some (.internal base n) := by rw [hd, List.getLast?_concat]
      have hinit : s.dataV.dropLast = init := by rw [hd, List.dropLast_concat]
      have hsound := h.resizeLast (m := n + size) hd (fun c hc _ => by have := h.wide c hc; omega)
        s.curOffset
      refine ⟨_, n, ?_, hsound, .appended ⟨happend, hfits⟩ hd rfl rfl, rfl, fun _ _ => rfl⟩
      rw [if_pos rfl, if_neg (Nat.not_lt.mpr hfits), hlast]
      simp only [hpos, hinit, Outcome.pure_eq]
    case neg =>
      have hgeo : Geometry p { s with tailChunk := none, tailChunkPos := 0 } := { h.geometry with }
      have ⟨s', base, hnew, hsound, hd, hcur, hmem⟩ := Sound.newChunk env hgeo h.wide hsize
      refine ⟨s', 0, ?_, hsound, .opened (fun ha => hfits ha.2) rfl hd, hcur, hmem⟩
      simp only [if_true, if_pos (Nat.lt_of_not_le hfits), closeOut_noShrink hp, Outcome.ok_bind,
        hnew, Outcome.pure_eq]

-- The memory of an entry.
theorem Geometry.entry_block (h : Geometry p s) {base : Pointer} {n : Nat}
    (he : .internal base n ∈ s.dataV) :
    ∃ block, s.heap.block? base.block = some block ∧ base.offset + n ≤ block.bytes.length := by
  have hmem : (base, n) ∈ internals s.dataV := List.mem_filterMap.mpr ⟨_, he, rfl⟩
  have ⟨k, hk⟩ := List.mem_iff_getElem?.mp hmem
  have ⟨c, hc, hbase, hle⟩ := h.entries k _ hk
  have hok := h.chunks_ok c (List.mem_of_getElem? hc)
  have ⟨block, hb, hlen⟩ := hok.block
  have := hok.ptr_le
  dsimp only at hbase hle
  subst hbase
  refine ⟨block, by rw [hok.ptr_block, hb], ?_⟩
  omega

-- What is written to the blocks does not move them.
theorem Sound.stored (h : Sound p s) {heap : Heap} {base : Pointer} {pos : Nat} {bs : List Byte}
    (hstored : Heap.Stored s.heap heap base pos bs) : Sound p { s with heap } := by
  refine ⟨{ h.geometry with chunks_ok := fun c hc => ?_ }, ⟨h.tail.last, h.tail.none⟩, h.wide⟩
  have hok := h.geometry.chunks_ok c hc
  have ⟨block, hb, hlen⟩ := hok.block
  have ⟨block', hb', hlen'⟩ := hstored.sizes _ _ hb
  exact { hok with block := ⟨block', hb', hlen'.trans hlen⟩ }

theorem Sound.setOffset (h : Sound p s) (curOffset : Nat) : Sound p { s with curOffset } :=
  ⟨{ h.geometry with }, ⟨h.tail.last, h.tail.none⟩, h.wide⟩

namespace Room

variable {size pos : Nat}

theorem last (hroom : Room p s s' size pos) :
    ∃ init base, s'.dataV = init ++ [.internal base (pos + size)] := by
  cases hroom with
  | appended _ _ after _ => exact ⟨_, _, after⟩
  | opened _ zero after => exact ⟨_, _, by rw [after, zero, Nat.zero_add]⟩

-- The entries show what they did, and what is at the tail behind it.
theorem shows (h : Geometry p s) (h' : Geometry p s') (hroom : Room p s s' size pos)
    (hmem : ∀ b < s.heap.length, s'.heap.block? b = s.heap.block? b)
    (hshows : Shows s.heap s.dataV flat) {init : List VecEntry} {base : Pointer} {heap : Heap}
    {bs : List Byte} (hlast : s'.dataV = init ++ [.internal base (pos + size)])
    (hlen : bs.length = size) (hstored : Heap.Stored s'.heap heap base pos bs) :
    Shows heap s'.dataV (flat ++ bs) := by
  have hother : ∀ base' n', .internal base' n' ∈ init →
      heap.block? base'.block = s'.heap.block? base'.block := by
    intro base' n' hmem
    apply hstored.other
    exact h'.block_ne_of_split hlast base' n' (by simpa using hmem)
  rw [hlast]
  cases hroom with
  | @appended init' base' appends before after heap_eq =>
    obtain ⟨rfl, heq⟩ := List.append_inj' (hlast.symm.trans after) rfl
    cases heq
    rw [before] at hshows
    obtain ⟨a, b, ha, hb, rfl⟩ := shows_append.mp hshows
    rw [shows_singleton] at hb
    rw [List.append_assoc]
    refine shows_append.mpr ⟨a, b ++ bs, ?_, ?_, rfl⟩
    · rw [heap_eq] at hother
      exact ha.congr hother
    · rw [shows_singleton]
      have hfront : heap.load base pos = some b := by
        rw [hstored.front pos le_rfl, heap_eq]
        exact hb
      rw [← hlen]
      exact Heap.load_add hfront (hlen ▸ hstored.self)
  | opened fresh zero after =>
    subst zero
    rw [Nat.zero_add] at hlast ⊢
    obtain ⟨rfl, heq⟩ := List.append_inj' (hlast.symm.trans after) rfl
    cases heq
    refine shows_append.mpr ⟨flat, bs, hshows.congr fun base' n' hin => ?_, ?_, rfl⟩
    · rw [hother base' n' hin, hmem _ (h.entry_block_lt hin)]
    · rw [shows_singleton, ← hlen]
      exact hstored.self

-- All entries but one that is appended to are kept.
theorem kept (h : Sound p s) (h' : Sound p s') (hroom : Room p s s' size pos)
    (hmem : ∀ b < s.heap.length, s'.heap.block? b = s.heap.block? b) {init : List VecEntry}
    {base : Pointer} {heap : Heap} {bs : List Byte}
    (hlast : s'.dataV = init ++ [.internal base (pos + size)])
    (hstored : Heap.Stored s'.heap heap base pos bs) {k curOffset : Nat}
    (hk : k ≤ s.dataV.length) (hkeep : k = s.dataV.length → ¬Appends p s size) :
    Kept k s { s' with heap, curOffset } := by
  have hother : ∀ base' n', .internal base' n' ∈ init →
      heap.block? base'.block = s'.heap.block? base'.block := by
    intro base' n' hmem
    apply hstored.other
    exact h'.geometry.block_ne_of_split hlast base' n' (by simpa using hmem)
  have hinit : s.dataV.take k = init.take k ∧ k ≤ init.length := by
    cases hroom with
    | @appended init' base' appends before after heap_eq =>
      obtain ⟨rfl, -⟩ := List.append_inj' (hlast.symm.trans after) rfl
      have hlen : s.dataV.length = init.length + 1 := by simp [before]
      have hne : k ≠ s.dataV.length := fun heq => hkeep heq appends
      have hle : k ≤ init.length := by omega
      exact ⟨by rw [before, List.take_append_of_le_length hle], hle⟩
    | opened fresh zero after =>
      obtain ⟨rfl, -⟩ := List.append_inj' (hlast.symm.trans after) rfl
      exact ⟨rfl, hk⟩
  refine ⟨?_, fun base' n' hin => ?_⟩
  · dsimp only
    rw [hlast, List.take_append_of_le_length hinit.2, hinit.1]
  · have hold : .internal base' n' ∈ s.dataV := List.mem_of_mem_take hin
    rw [hinit.1] at hin
    dsimp only
    rw [hother base' n' (List.mem_of_mem_take hin), hmem _ (h.geometry.entry_block_lt hold)]

-- What has been allocated stays where it is.
theorem allocAt (hroom : Room p s s' size pos) {bp : BufferPos} {n : Nat}
    (ha : AllocAt s.dataV bp n) : AllocAt s'.dataV bp n := by
  cases ha with
  | empty index zero => exact .empty index zero
  | @entry xs ys base' m split index position within =>
    cases hroom with
    | opened fresh zero after =>
      rw [split, List.append_assoc, List.cons_append] at after
      exact .entry after index position within
    | appended appends before after heap_eq =>
      rcases List.eq_nil_or_concat ys with rfl | ⟨ys, e, rfl⟩
      · obtain ⟨rfl, heq⟩ := List.append_inj' (split.symm.trans before) rfl
        cases heq
        exact .entry after index position (within.trans (Nat.le_add_right _ _))
      · rw [List.concat_eq_append, ← List.cons_append, ← List.append_assoc] at split
        obtain ⟨rfl, -⟩ := List.append_inj' (split.symm.trans before) rfl
        rw [List.append_assoc, List.cons_append] at after
        exact .entry after index position within

end Room

-- What an operation that adds bytes leaves of what was there. It may be that it appends to the last
-- entry.
structure Extended (s s' : ChunkV) (appends : Prop) : Prop where
  length_le : s.dataV.length ≤ s'.dataV.length
  kept      : ∀ k ≤ s.dataV.length, (k = s.dataV.length → ¬appends) → Kept k s s'
  allocAt   : ∀ bp n, AllocAt s.dataV bp n → AllocAt s'.dataV bp n

theorem Room.length_le {size pos : Nat} (hroom : Room p s s' size pos) :
    s.dataV.length ≤ s'.dataV.length := by
  cases hroom with
  | appended _ before after _ => simp [before, after]
  | opened _ _ after => simp [after]

variable (env) in
theorem Sound.room (hp : p.noShrink = true) (h : Sound p s) {size : Nat} (hsize : 0 < size) :
    ∃ s' pos init base i c, s.makeRoom p env size = .ok (0, pos, s') ∧ Sound p s' ∧
      Room p s s' size pos ∧ s'.curOffset = s.curOffset ∧
      (∀ b < s.heap.length, s'.heap.block? b = s.heap.block? b) ∧
      s'.dataV = init ++ [.internal base (pos + size)] ∧ s'.getTailChunk = .ok (i, c) ∧
      c.ptr = base := by
  have ⟨s', pos, hmake, hsound, hroom, hcur, hmem⟩ := h.makeRoom env hp hsize
  have ⟨init, base, hlast⟩ := hroom.last
  have ⟨i, c, htail, _, _, _, hc, hbase, _⟩ := hsound.geometry.last hsound.tail hlast
  refine ⟨s', pos, init, base, i, c, hmake, hsound, hroom, hcur, hmem, hlast, ?_, hbase.symm⟩
  rw [getTailChunk, htail, Option.orUndefined_some, Outcome.ok_bind, hc]
  rfl

-- Bytes are copied if the caller or the buffer says so.
def Merges (p : Parameters) (s : ChunkV) (bytes : List Byte) (copyReqd : Bool) : Prop :=
  bytes ≠ [] ∧ (copyReqd = true ∨ p.alwaysCopy = true) ∧ Appends p s bytes.length

instance (bytes : List Byte) (copyReqd : Bool) : Decidable (Merges p s bytes copyReqd) :=
  inferInstanceAs (Decidable (_ ∧ _))

theorem Holding.external (h : Holding p s flat) (bytes : List Byte) :
    Holding p { s with
        dataV     := s.dataV ++ [.external bytes]
        curOffset := s.curOffset + bytes.length
      } (flat ++ bytes) := by
  have hin : internals (s.dataV ++ [.external bytes]) = internals s.dataV := by
    rw [internals_append]
    exact List.append_nil _
  have hshows : Shows s.heap (s.dataV ++ [.external bytes]) (flat ++ bytes) :=
    shows_append.mpr ⟨flat, bytes, h.shows, shows_singleton.mpr rfl, rfl⟩
  exact {
    geometry  := {
      chunks_ok := h.geometry.chunks_ok
      distinct  := h.geometry.distinct
      active    := by rw [hin]; exact h.geometry.active
      entries   := by rw [hin]; exact h.geometry.entries
    }
    tail      := ⟨by rw [hin]; exact h.tail.last, by rw [hin]; exact h.tail.none⟩
    wide      := h.wide
    shows     := hshows
    curOffset := by simp [h.curOffset]
  }

theorem AllocAt.append_right {dataV : List VecEntry} {bp : BufferPos} {n : Nat}
    (ha : AllocAt dataV bp n) (es : List VecEntry) : AllocAt (dataV ++ es) bp n := by
  cases ha with
  | empty index zero => exact .empty index zero
  | @entry xs ys base m split index position within =>
    have hsplit : dataV ++ es = xs ++ .internal base m :: (ys ++ es) := by
      rw [split, List.append_assoc, List.cons_append]
    exact .entry hsplit index position within

variable (env) in
-- Bytes that are put come behind those that are there.
theorem addAligned_spec (hp : p.noShrink = true) (h : Holding p s flat) (bytes : List Byte)
    (copyReqd : Bool) :
    ∃ s', s.addAligned p env bytes copyReqd = .ok (flat.length, s') ∧
      Holding p s' (flat ++ bytes) ∧ Extended s s' (Merges p s bytes copyReqd) := by
  unfold addAligned
  by_cases hempty : bytes.length = 0
  case pos =>
    rw [if_pos hempty, List.eq_nil_of_length_eq_zero hempty, List.append_nil, h.curOffset]
    exact ⟨s, rfl, h, le_rfl, fun k _ _ => .refl k s, fun _ _ => id⟩
  rw [if_neg hempty]
  by_cases hextern : (!copyReqd && !p.alwaysCopy) = true
  case pos =>
    rw [if_pos hextern]
    refine ⟨_, by rw [h.curOffset]; rfl, h.external bytes, by simp, fun k hk _ => ?_,
      fun _ _ ha => ha.append_right _⟩
    exact ⟨List.take_append_of_le_length hk, fun _ _ _ => rfl⟩
  case neg =>
    have hcopies : copyReqd = true ∨ p.alwaysCopy = true := by
      cases copyReqd <;> simp_all
    have hne : bytes ≠ [] := fun hnil => hempty (by rw [hnil]; rfl)
    have ⟨s₁, pos, init, base, i, c, hmake, hsound, hroom, hcur, hmem, hlast, htail, hbase⟩ :=
      h.room env hp (Nat.pos_of_ne_zero hempty)
    have ⟨block, hb, hle⟩ := hsound.geometry.entry_block (hlast ▸ List.mem_concat_self)
    have hfits : base.offset + pos + bytes.length ≤ block.bytes.length := by omega
    have ⟨heap, hstore, hstored⟩ := Heap.store_stored hb hfits
    refine ⟨{ s₁ with heap, curOffset := s.curOffset + bytes.length }, ?_, ?_, ?_⟩
    · rw [if_neg hextern, hmake]
      simp only [Outcome.ok_bind, htail, hbase, store, hstore, Option.orUndefined_some,
        Outcome.pure_eq, hcur, Nat.add_zero, h.curOffset]
    · exact {
        toSound   := (hsound.stored hstored).setOffset _
        shows     := hroom.shows h.geometry hsound.geometry hmem h.shows hlast rfl hstored
        curOffset := by simp [h.curOffset]
      }
    · refine ⟨hroom.length_le, fun k hk hkeep => ?_, fun _ _ => hroom.allocAt⟩
      exact hroom.kept h.toSound hsound hmem hlast hstored hk fun heq happends =>
        hkeep heq ⟨hne, hcopies, happends⟩

variable (env) in
-- An allocation is behind what is there. Nobody knows what is in it.
theorem allocateAligned_spec (hp : p.noShrink = true) (h : Holding p s flat) {size : Nat}
    (hsize : 0 < size) :
    ∃ bp s' junk, s.allocateAligned p env size = .ok (bp, s') ∧ junk.length = size ∧
      Holding p s' (flat ++ junk) ∧ Extended s s' (Appends p s size) ∧
      bp.globalPos = flat.length ∧ AllocAt s'.dataV bp size := by
  have ⟨s₁, pos, init, base, i, c, hmake, hsound, hroom, hcur, hmem, hlast, htail, hbase⟩ :=
    h.room env hp hsize
  have ⟨block, hb, hle⟩ := hsound.geometry.entry_block (hlast ▸ List.mem_concat_self)
  have ⟨junk, hload⟩ := Heap.load_isSome (p := base.add pos) (n := size) hb <| by
    change base.offset + pos + size ≤ _
    omega
  have hlen := Heap.load_length hload
  have hstored : Heap.Stored s₁.heap s₁.heap base pos junk := Heap.stored_refl (hlen ▸ hload)
  refine ⟨_, _, junk, by rw [allocateAligned, hmake]; rfl, hlen, ?_, ?_, ?_, ?_⟩
  · exact {
      toSound   := hsound.setOffset _
      shows     := hroom.shows h.geometry hsound.geometry hmem h.shows hlast hlen hstored
      curOffset := by simp [hcur, h.curOffset, hlen]
    }
  · refine ⟨hroom.length_le, fun k hk hkeep => ?_, fun _ _ => hroom.allocAt⟩
    exact hroom.kept h.toSound hsound hmem hlast hstored hk hkeep
  · simp [hcur, h.curOffset]
  · refine .entry hlast (by simp [hlast]) ?_ le_rfl
    have hsizes := h.shows.length_eq
    simp only [Nat.add_zero, hcur, h.curOffset, hsizes]
    cases hroom with
    | appended _ before after _ =>
      obtain ⟨rfl, -⟩ := List.append_inj' (hlast.symm.trans after) rfl
      simp [before, VecEntry.size]
    | opened _ zero after =>
      obtain ⟨rfl, -⟩ := List.append_inj' (hlast.symm.trans after) rfl
      simp [zero]

theorem downsizeLastAlloc_spec (h : Holding p s flat) {init : List VecEntry} {base : Pointer}
    {n : Nat} (oldSize newSize : Nat) (hd : s.dataV = init ++ [.internal base n])
    (hle : oldSize - newSize ≤ n) :
    ∃ s', s.downsizeLastAlloc oldSize newSize = .ok s' ∧
      Holding p s' (flat.take (flat.length - (oldSize - newSize))) ∧
      s'.dataV = init ++ [.internal base (n - (oldSize - newSize))] ∧
      ∀ k ≤ s.dataV.length, (k = s.dataV.length → oldSize ≤ newSize) → Kept k s s' := by
  have hshows := h.shows
  rw [hd] at hshows
  obtain ⟨a, b, ha, hb, rfl⟩ := shows_append.mp hshows
  rw [shows_singleton] at hb
  have hlen : b.length = n := entryBytes_length hb
  generalize hdiff : oldSize - newSize = d at hle
  obtain ⟨m, rfl⟩ := Nat.exists_eq_add_of_le' hle
  have ⟨hfront, _⟩ := Heap.load_take_drop (h := s.heap) (m := m) (n := d) hb
  have htake : (a ++ b).take ((a ++ b).length - d) = a ++ b.take m := by
    have hlen' : (a ++ b).length - d = a.length + m := by
      rw [List.length_append]
      omega
    rw [hlen', List.take_length_add_append]
  have hpos := h.tailChunkPos_eq hd
  have hsound := h.resizeLast (m := m + d - d) hd (fun c _ hsize => by omega) (s.curOffset - d)
  refine ⟨_, ?_, ⟨hsound, ?_, ?_⟩, rfl, fun k hk hsame => ?_⟩
  · rw [downsizeLastAlloc, hd, List.getLast?_concat, List.dropLast_concat, hdiff, hpos]
  · rw [htake]
    refine shows_append.mpr ⟨a, b.take m, ha, shows_singleton.mpr ?_, rfl⟩
    rw [Nat.add_sub_cancel]
    exact hfront
  · have := h.curOffset
    rw [htake]
    simp only [List.length_append, List.length_take, hlen] at *
    omega
  · refine ⟨?_, fun _ _ _ => rfl⟩
    dsimp only
    by_cases hall : k = s.dataV.length
    case pos =>
      have hzero : d = 0 := by
        have := hsame hall
        omega
      rw [hd, hzero]
      rfl
    case neg =>
      have hk' : k ≤ init.length := by
        rw [hd, List.length_append, List.length_singleton] at hk hall
        omega
      rw [hd, List.take_append_of_le_length hk', List.take_append_of_le_length hk']

-- What the application writes to its allocation is there.
theorem writeThrough_spec (h : Holding p s flat) {bp : BufferPos} {size relative : Nat}
    (ha : AllocAt s.dataV bp size) {bytes : List Byte} (hle : relative + bytes.length ≤ size) :
    ∃ s', s.writeThrough bp relative bytes = .ok s' ∧
      Holding p s' (overwrite flat (bp.globalPos + relative) bytes) ∧ s'.dataV = s.dataV ∧
      ∀ k, (bytes ≠ [] → ∀ i, bp.bufferIdx = some i → k ≤ i) → Kept k s s' := by
  cases ha with
  | empty index zero =>
    have hnil : bytes = [] := List.eq_nil_of_length_eq_zero (by omega)
    refine ⟨s, ?_, ?_, rfl, fun k _ => .refl k s⟩
    · rw [writeThrough, index]
      exact if_pos hnil
    · rw [hnil, overwrite_nil]
      exact h
  | @entry xs ys base n split index position within =>
    have hshows := h.shows
    rw [split] at hshows
    obtain ⟨a, _, hxs, hrest, rfl⟩ := shows_append.mp hshows
    obtain ⟨b, c, hb, hys, rfl⟩ := shows_cons.mp hrest
    have hlen : b.length = n := entryBytes_length hb
    have hin : .internal base n ∈ s.dataV := by simp [split]
    have ⟨block, hblock, hbound⟩ := h.geometry.entry_block hin
    have hfits : base.offset + (bp.posInBuffer + relative) + bytes.length ≤
        block.bytes.length := by omega
    have ⟨heap, hstore, hstored⟩ := Heap.store_stored hblock hfits
    have hother : ∀ base' n', .internal base' n' ∈ xs ++ ys →
        heap.block? base'.block = s.heap.block? base'.block :=
      fun base' n' hmem => hstored.other _ (h.geometry.block_ne_of_split split base' n' hmem)
    refine ⟨{ s with heap }, ?_, ?_, rfl, fun k hk => ⟨rfl, fun base' n' hmem => ?_⟩⟩
    · rw [writeThrough, index]
      simp only [split, List.getElem?_append_right le_rfl, Nat.sub_self, List.getElem?_cons_zero,
        store, hstore, Option.orUndefined_some, Outcome.ok_bind, Outcome.pure_eq]
    · have hpos : bp.globalPos + relative = a.length + (bp.posInBuffer + relative) := by
        rw [position, hxs.length_eq, Nat.add_assoc]
      rw [hpos, overwrite_append (by omega)]
      exact {
        toSound   := h.toSound.stored hstored
        shows     := by
          dsimp only
          rw [split]
          refine shows_append.mpr ⟨a, _, hxs.congr fun _ _ hmem => ?_,
            shows_cons.mpr ⟨_, c, ?_, hys.congr fun _ _ hmem => ?_, rfl⟩, rfl⟩
          · exact hother _ _ (List.mem_append_left _ hmem)
          · exact hstored.load hb (by omega)
          · exact hother _ _ (List.mem_append_right _ hmem)
        curOffset := by
          have := h.curOffset
          have hsame : (overwrite b (bp.posInBuffer + relative) bytes).length = b.length :=
            overwrite_length (by omega)
          simp only [List.length_append, hsame] at *
          exact this
      }
    · by_cases hnil : bytes = []
      case pos => exact hstored.empty hnil _
      case neg =>
        have hk : k ≤ xs.length := hk hnil _ index
        rw [split, List.take_append_of_le_length hk] at hmem
        exact hother _ _ (List.mem_append_left _ (List.mem_of_mem_take hmem))

theorem Sound.reset (h : Sound p s) : Holding p s.reset [] where
  geometry  := {
    chunks_ok := h.geometry.chunks_ok
    distinct  := h.geometry.distinct
    active    := rfl
    entries   := by simp [ChunkV.reset, internals]
  }
  tail      := ⟨by simp [ChunkV.reset, internals], fun _ => rfl⟩
  wide      := h.wide
  shows     := shows_nil.mpr rfl
  curOffset := rfl

theorem Sound.empty : Sound p {} where
  geometry := ⟨by simp, by simp, rfl, by simp [internals]⟩
  tail     := ⟨by simp [internals], fun _ => rfl⟩
  wide     := by simp

end ChunkV

end Buffer
