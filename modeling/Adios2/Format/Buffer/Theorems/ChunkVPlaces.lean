import Adios2.Format.Buffer.Theorems.BufferPlaces
import Adios2.Format.Buffer.Theorems.ChunkVContents

-- How the entries of a `ChunkV` lie in any use of it, and where its pointers lead.

namespace Buffer

open Bytes

namespace ChunkV

variable {p : Parameters} {env : Nat → Allocation} {s s' : ChunkV}

-- The tail is the end of the last entry, if that is internal.
structure Tailed (s : ChunkV) : Prop where
  active_le : s.nextActiveChunk ≤ s.chunks.length
  tail      : ∀ init base n, s.dataV = init ++ [.internal base n] →
    ∃ i c, s.tailChunk = some i ∧ s.chunks[i]? = some c ∧ c.ptr = base ∧ s.tailChunkPos = n

-- Every internal entry stays at its place in the vector and gets no smaller.
def Keeps (dataV dataV' : List VecEntry) : Prop :=
  ∀ xs ys base n, dataV = xs ++ .internal base n :: ys →
    ∃ base' n' ys', dataV' = xs ++ .internal base' n' :: ys' ∧ n ≤ n'

theorem Keeps.refl (dataV : List VecEntry) : Keeps dataV dataV :=
  fun _ ys base n hd => ⟨base, n, ys, hd, le_rfl⟩

theorem Keeps.trans {d₁ d₂ d₃ : List VecEntry} (h : Keeps d₁ d₂) (h' : Keeps d₂ d₃) :
    Keeps d₁ d₃ := by
  intro xs ys base n hd
  have ⟨base', n', ys', hd', hle⟩ := h xs ys base n hd
  have ⟨base'', n'', ys'', hd'', hle'⟩ := h' xs ys' base' n' hd'
  exact ⟨base'', n'', ys'', hd'', hle.trans hle'⟩

theorem keeps_append (dataV rest : List VecEntry) : Keeps dataV (dataV ++ rest) := by
  intro xs ys base n hd
  exact ⟨base, n, ys ++ rest, by simp [hd], le_rfl⟩

-- The last entry may be at another place in memory.
theorem keeps_last (init rest : List VecEntry) (base base' : Pointer) {n n' : Nat} (hle : n ≤ n') :
    Keeps (init ++ [.internal base n]) (init ++ .internal base' n' :: rest) := by
  intro xs ys base₁ n₁ hd
  rcases List.eq_nil_or_concat ys with rfl | ⟨ys, e, rfl⟩
  · obtain ⟨rfl, heq⟩ := List.append_inj' hd rfl
    cases heq
    exact ⟨base', n', rest, rfl, hle⟩
  · rw [List.concat_eq_append, ← List.cons_append, ← List.append_assoc] at hd
    obtain ⟨rfl, -⟩ := List.append_inj' hd rfl
    exact ⟨base₁, n₁, ys ++ .internal base' n' :: rest, by simp, le_rfl⟩

theorem Keeps.allocAt {dataV dataV' : List VecEntry} (h : Keeps dataV dataV') {bp : BufferPos}
    {size : Nat} (ha : AllocAt dataV bp size) : AllocAt dataV' bp size := by
  cases ha with
  | empty index zero => exact .empty index zero
  | entry split index position within =>
    have ⟨base', n', ys', hd', hle⟩ := h _ _ _ _ split
    exact .entry hd' index position (within.trans hle)

theorem chunkAlloc_eq_ok {v : Option Chunk} {size : Nat} {c : Chunk}
    (h : chunkAlloc p env v size s = .ok (c, s')) :
    c.size = actualSize p size ∧ ∃ heap calls, s' = { s with heap, calls } := by
  obtain ⟨⟨b, heap⟩, _, h⟩ := Outcome.bind_eq_ok.mp h
  obtain ⟨block, _, h⟩ := Outcome.bind_eq_ok.mp h
  cases h
  refine ⟨?_, _, _, rfl⟩
  cases v with
  | none => rfl
  | some c =>
    dsimp only
    split <;> rfl

theorem le_actualSize (size : Nat) : size ≤ actualSize p size := by
  rw [actualSize_eq]
  exact Layout.le_alignUp

-- A new entry in a chunk of its own.
structure Opened (s s' : ChunkV) (size : Nat) : Prop where
  tailed    : Tailed s'
  curOffset : s'.curOffset = s.curOffset
  dataV     : ∃ base, s'.dataV = s.dataV ++ [.internal base size]

theorem claim_opened (hactive : s.nextActiveChunk < s.chunks.length) (size : Nat) {c : Chunk}
    (hc : s.chunks[s.nextActiveChunk]? = some c) : Opened s (s.claim size c) size where
  tailed    := {
    active_le := hactive
    tail      := by
      intro init base n hd
      obtain ⟨-, heq⟩ := List.append_inj' hd rfl
      cases heq
      exact ⟨_, c, rfl, hc, rfl, rfl⟩
  }
  curOffset := rfl
  dataV     := ⟨c.ptr, rfl⟩

theorem freshChunk_opened (hactive : s.nextActiveChunk ≤ s.chunks.length) {size : Nat}
    (h : s.freshChunk p env size = .ok s') : Opened s s' size := by
  obtain ⟨⟨c, s₁⟩, halloc, h⟩ := Outcome.bind_eq_ok.mp h
  obtain ⟨-, heap, calls, rfl⟩ := chunkAlloc_eq_ok halloc
  cases h
  let s₁ : ChunkV := { s with heap, calls, chunks := s.chunks.insertIdx s.nextActiveChunk c }
  have hlt : s₁.nextActiveChunk < s₁.chunks.length := by
    have hlen : s₁.chunks.length = s.chunks.length + 1 :=
      List.length_insertIdx_of_le_length hactive _
    rw [hlen]
    exact Nat.lt_succ_of_le hactive
  have hc : s₁.chunks[s₁.nextActiveChunk]? = some c := by
    have := List.getElem?_insertIdx_self (l := s.chunks) (i := s.nextActiveChunk) (x := c)
    rwa [if_pos hactive] at this
  have hopened := claim_opened (s := s₁) hlt size hc
  exact ⟨hopened.tailed, hopened.curOffset, hopened.dataV⟩

theorem newChunk_opened (hactive : s.nextActiveChunk ≤ s.chunks.length) {size : Nat}
    (h : s.newChunk p env size = .ok s') : Opened s s' size := by
  unfold newChunk at h
  split at h
  next c hc =>
    split at h
    case isTrue =>
      cases h
      exact claim_opened (List.getElem?_eq_some_iff.mp hc).1 _ hc
    case isFalse => exact freshChunk_opened hactive h
  next => exact freshChunk_opened hactive h

-- Room for `size` bytes at the tail, behind `alignment` bytes of padding.
structure Made (s s' : ChunkV) (size alignment pos : Nat) : Prop where
  tailed    : Tailed s'
  curOffset : s'.curOffset = s.curOffset
  last      : ∃ init base, s'.dataV = init ++ [.internal base (pos + size)] ∧
    (init.map VecEntry.size).sum + pos = (s.dataV.map VecEntry.size).sum + alignment ∧
    Keeps s.dataV (init ++ [.internal base pos])

theorem Opened.made {size : Nat} (h : Opened s s' size) : Made s s' size 0 0 where
  tailed    := h.tailed
  curOffset := h.curOffset
  last      := by
    have ⟨base, hd⟩ := h.dataV
    exact ⟨s.dataV, base, by rw [Nat.zero_add, hd], rfl, keeps_append _ _⟩

theorem appendPossible_eq_ok_true (h : s.appendPossible = .ok true) :
    ∃ init base n, s.dataV = init ++ [.internal base n] := by
  rcases List.eq_nil_or_concat s.dataV with hnil | ⟨init, e, hd⟩
  · rw [appendPossible_nil hnil] at h
    cases h
  · rw [List.concat_eq_append] at hd
    cases e with
    | external bytes =>
      rw [appendPossible, hd, List.getLast?_concat] at h
      cases h
    | internal base n => exact ⟨init, base, n, hd⟩

-- The last entry is now as large as its chunk.
theorem closeOut_eq_ok {alignment : Nat} (h : s.closeOut p env = .ok (alignment, s'))
    {init : List VecEntry} {base : Pointer} (hd : s.dataV = init ++ [.internal base s.tailChunkPos]) :
    s'.curOffset = s.curOffset ∧ s'.nextActiveChunk = s.nextActiveChunk ∧
      s'.chunks.length = s.chunks.length ∧
      ∃ base', s'.dataV = init ++ [.internal base' (s.tailChunkPos + alignment)] := by
  unfold closeOut at h
  split at h
  case isTrue =>
    cases h
    exact ⟨rfl, rfl, rfl, base, hd⟩
  case isFalse =>
    obtain ⟨⟨i, tail⟩, _, h⟩ := Outcome.bind_eq_ok.mp h
    obtain ⟨⟨c, s₁⟩, halloc, h⟩ := Outcome.bind_eq_ok.mp h
    obtain ⟨s₂, hstore, h⟩ := Outcome.bind_eq_ok.mp h
    obtain ⟨heap, _, hstore⟩ := Outcome.bind_eq_ok.mp hstore
    obtain ⟨hsize, heap, calls, rfl⟩ := chunkAlloc_eq_ok halloc
    cases hstore
    cases h
    have hle := le_actualSize (p := p) s.tailChunkPos
    refine ⟨rfl, rfl, List.length_set, c.ptr, ?_⟩
    dsimp only at hsize ⊢
    rw [hd, List.dropLast_concat, hsize, Nat.add_sub_cancel' hle]

theorem makeRoom_made (ht : Tailed s) {size alignment pos : Nat}
    (h : s.makeRoom p env size = .ok (alignment, pos, s')) : Made s s' size alignment pos := by
  obtain ⟨append, happend, h⟩ := Outcome.bind_eq_ok.mp h
  cases append with
  | false =>
    rw [if_neg Bool.false_ne_true] at h
    obtain ⟨s₁, hnew, h⟩ := Outcome.bind_eq_ok.mp h
    cases h
    exact (newChunk_opened ht.active_le hnew).made
  | true =>
    have ⟨init, base, n, hd⟩ := appendPossible_eq_ok_true happend
    have ⟨i, c, htail, hc, hbase, hpos⟩ := ht.tail init base n hd
    subst hpos
    rw [if_pos rfl] at h
    split at h
    case isTrue =>
      obtain ⟨⟨_, s₁⟩, hclose, h⟩ := Outcome.bind_eq_ok.mp h
      obtain ⟨s₂, hnew, h⟩ := Outcome.bind_eq_ok.mp h
      cases h
      have ⟨hcur, hactive, hlen, base', hd'⟩ := closeOut_eq_ok hclose hd
      have hopened := newChunk_opened (by rw [hactive, hlen]; exact ht.active_le) hnew
      have ⟨base'', hd''⟩ := hopened.dataV
      rw [hd', List.append_assoc] at hd''
      exact {
        tailed    := hopened.tailed
        curOffset := hopened.curOffset.trans hcur
        last      := by
          refine ⟨init ++ [.internal base' (s.tailChunkPos + alignment)], base'', ?_, ?_, ?_⟩
          · rw [hd'', Nat.zero_add, List.append_assoc]
          · rw [hd]
            simp [VecEntry.size, Nat.add_assoc]
          · rw [hd, List.append_assoc]
            exact keeps_last init _ _ _ (Nat.le_add_right _ _)
      }
    case isFalse =>
      rw [hd, List.getLast?_concat, List.dropLast_concat] at h
      cases h
      exact {
        tailed    := {
          active_le := ht.active_le
          tail      := by
            intro init' base' n' hd'
            obtain ⟨-, heq⟩ := List.append_inj' hd' rfl
            cases heq
            exact ⟨i, c, htail, hc, hbase, rfl⟩
        }
        curOffset := rfl
        last      := by
          refine ⟨init, base, rfl, ?_, hd ▸ Keeps.refl _⟩
          rw [hd]
          simp [VecEntry.size]
      }

theorem Made.keeps {size alignment pos : Nat} (h : Made s s' size alignment pos) :
    Keeps s.dataV s'.dataV := by
  have ⟨init, base, hd, _, hkeeps⟩ := h.last
  rw [hd]
  exact hkeeps.trans (keeps_last init [] _ _ (Nat.le_add_right _ _))

-- The offset at which the next bytes go is the size of all entries.
structure Laid (s : ChunkV) : Prop extends Tailed s where
  total : s.curOffset = (s.dataV.map VecEntry.size).sum

theorem Made.laid (hs : Laid s) {size alignment pos : Nat} (h : Made s s' size alignment pos)
    (curOffset : Nat) (hcur : curOffset = s.curOffset + alignment + size) :
    Laid { s' with curOffset } := by
  refine ⟨⟨h.tailed.active_le, h.tailed.tail⟩, ?_⟩
  have ⟨init, base, hd, hsum, _⟩ := h.last
  have htotal := hs.total
  dsimp only
  rw [hd, hcur]
  simp only [List.map_append, List.map_cons, List.map_nil, List.sum_append, List.sum_cons,
    List.sum_nil, VecEntry.size]
  omega

theorem addAligned_laid (hs : Laid s) {bytes : List Byte} {copyReqd : Bool} {offset : Nat}
    (h : s.addAligned p env bytes copyReqd = .ok (offset, s')) :
    Laid s' ∧ Keeps s.dataV s'.dataV := by
  unfold addAligned at h
  split at h
  case isTrue =>
    cases h
    exact ⟨hs, .refl _⟩
  case isFalse =>
    split at h
    case isTrue =>
      cases h
      refine ⟨⟨⟨hs.active_le, fun init base n hd => ?_⟩, ?_⟩, keeps_append _ _⟩
      · have := (List.append_inj' hd rfl).2
        cases this
      · simp [hs.total, VecEntry.size]
    case isFalse =>
      obtain ⟨⟨alignment, pos, s₁⟩, hroom, h⟩ := Outcome.bind_eq_ok.mp h
      obtain ⟨⟨i, tail⟩, _, h⟩ := Outcome.bind_eq_ok.mp h
      obtain ⟨s₂, hstore, h⟩ := Outcome.bind_eq_ok.mp h
      obtain ⟨heap, _, hstore⟩ := Outcome.bind_eq_ok.mp hstore
      cases hstore
      cases h
      have hmade := makeRoom_made hs.toTailed hroom
      have hlaid := hmade.laid hs (s.curOffset + alignment + bytes.length) rfl
      rw [← hmade.curOffset] at hlaid
      exact ⟨⟨⟨hlaid.active_le, hlaid.tail⟩, hlaid.total⟩, hmade.keeps⟩

theorem alignBuffer_laid (hs : Laid s) {align : Nat} (h : s.alignBuffer p env align = .ok s') :
    Laid s' ∧ Keeps s.dataV s'.dataV := by
  obtain ⟨⟨_, s₁⟩, hadd, h⟩ := Outcome.bind_eq_ok.mp h
  cases h
  exact addAligned_laid hs hadd

theorem addToVec_laid (hs : Laid s) {bytes : List Byte} {align offset : Nat} {copyReqd : Bool}
    (h : s.addToVec p env bytes align copyReqd = .ok (offset, s')) :
    Laid s' ∧ Keeps s.dataV s'.dataV := by
  obtain ⟨s₁, halign, h⟩ := Outcome.bind_eq_ok.mp h
  have ⟨hs₁, hkeeps⟩ := alignBuffer_laid hs halign
  have ⟨hs', hkeeps'⟩ := addAligned_laid hs₁ h
  exact ⟨hs', hkeeps.trans hkeeps'⟩

-- An allocation at the end of the last entry.
def AtTail (dataV : List VecEntry) (span : Span) (front : List Span) : Prop :=
  ∃ init base, dataV = init ++ [.internal base (span.position.posInBuffer + span.size)] ∧
    span.position.bufferIdx = some init.length ∧
    span.position.globalPos = (init.map VecEntry.size).sum + span.position.posInBuffer ∧
    ∀ other ∈ front,
      AllocAt (init ++ [.internal base span.position.posInBuffer]) other.position other.size

-- All allocations are in entries of the vector.
structure Serving (u : Use ChunkV) : Prop where
  laid      : Laid u.buffer
  spans     : ∀ span ∈ u.spans, AllocAt u.buffer.dataV span.position span.size
  lastAlloc : ∀ span, u.lastAlloc = some span →
    ∃ front, u.spans = front ++ [span] ∧ AtTail u.buffer.dataV span front

theorem allocate_serving {u : Use ChunkV} (h : Serving u) {size align : Nat} {bp : BufferPos}
    (content : List (Option Byte)) (halloc : u.buffer.allocate p env size align = .ok (bp, s')) :
    Serving { u with
      content
      buffer    := s'
      spans     := u.spans ++ [{ position := bp, align, size }]
      lastAlloc := if size = 0 then none else some { position := bp, align, size }
    } := by
  unfold allocate at halloc
  split at halloc
  case isTrue hzero =>
    cases halloc
    refine ⟨h.laid, fun span hmem => ?_, fun span hlast => ?_⟩
    · rcases List.mem_append.mp hmem with hmem | hmem
      · exact h.spans span hmem
      · rw [List.mem_singleton.mp hmem]
        exact .empty rfl hzero
    · dsimp only at hlast
      rw [if_pos hzero] at hlast
      cases hlast
  case isFalse hsize =>
    obtain ⟨s₁, halign, halloc⟩ := Outcome.bind_eq_ok.mp halloc
    obtain ⟨⟨alignment, pos, s₂⟩, hroom, halloc⟩ := Outcome.bind_eq_ok.mp halloc
    cases halloc
    have ⟨hs₁, hkeeps⟩ := alignBuffer_laid h.laid halign
    have hmade := makeRoom_made hs₁.toTailed hroom
    have ⟨init, base, hd, hsum, hkeeps'⟩ := hmade.last
    have hlaid := hmade.laid hs₁ (s₂.curOffset + alignment + size) (by
      rw [hmade.curOffset])
    have hindex : s₂.dataV.length - 1 = init.length := by simp [hd]
    have hglobal : s₂.curOffset + alignment = (init.map VecEntry.size).sum + pos := by
      rw [hmade.curOffset, hs₁.total, hsum]
    refine ⟨hlaid, fun span hmem => ?_, fun span hlast => ?_⟩
    · rcases List.mem_append.mp hmem with hmem | hmem
      · exact (hkeeps.trans hmade.keeps).allocAt (h.spans span hmem)
      · rw [List.mem_singleton.mp hmem]
        exact .entry hd (congrArg some hindex) hglobal le_rfl
    · dsimp only at hlast
      rw [if_neg hsize] at hlast
      cases hlast
      refine ⟨u.spans, rfl, init, base, hd, congrArg some hindex, hglobal, fun other hmem => ?_⟩
      exact (hkeeps.trans hkeeps').allocAt (h.spans other hmem)

theorem downsizeLastAlloc_serving {u : Use ChunkV} (h : Serving u) {last : Span}
    (hlast : u.lastAlloc = some last) {newSize : Nat} (hle : newSize ≤ last.size)
    (content : List (Option Byte)) (hdown : u.buffer.downsizeLastAlloc last.size newSize = .ok s') :
    Serving { u with
      content
      buffer    := s'
      spans     := u.spans.dropLast ++ [{ last with size := newSize }]
      lastAlloc := some { last with size := newSize }
    } := by
  have ⟨front, hspans, init, base, hd, hindex, hglobal, hfront⟩ := h.lastAlloc last hlast
  have ⟨i, c, htail, hc, hbase, hpos⟩ := h.laid.tail init base _ hd
  have hnew : last.position.posInBuffer + last.size - (last.size - newSize) =
      last.position.posInBuffer + newSize := by omega
  rw [downsizeLastAlloc, hd, List.getLast?_concat, List.dropLast_concat] at hdown
  dsimp only at hdown
  rw [hnew, hpos, hnew] at hdown
  cases hdown
  have hkeeps := keeps_last init [] base base
    (Nat.le_add_right last.position.posInBuffer newSize)
  refine ⟨⟨⟨h.laid.active_le, fun init' base' n hd' => ?_⟩, ?_⟩, fun span hmem => ?_,
    fun span hlast' => ?_⟩
  · obtain ⟨-, heq⟩ := List.append_inj' hd' rfl
    cases heq
    exact ⟨i, c, htail, hc, hbase, rfl⟩
  · have htotal := h.laid.total
    rw [hd] at htotal
    simp only [List.map_append, List.map_cons, List.map_nil, List.sum_append, List.sum_cons,
      List.sum_nil, VecEntry.size] at htotal ⊢
    omega
  · rw [hspans, List.dropLast_concat] at hmem
    rcases List.mem_append.mp hmem with hmem | hmem
    · exact hkeeps.allocAt (hfront span hmem)
    · rw [List.mem_singleton.mp hmem]
      exact .entry rfl hindex hglobal le_rfl
  · cases hlast'
    rw [hspans, List.dropLast_concat]
    exact ⟨front, rfl, init, base, rfl, hindex, hglobal, hfront⟩

-- A write only changes memory.
theorem writeThrough_eq_ok {bp : BufferPos} {relative : Nat} {bytes : List Byte}
    (h : s.writeThrough bp relative bytes = .ok s') : ∃ heap, s' = { s with heap } := by
  unfold writeThrough at h
  split at h
  · split at h
    case isTrue =>
      cases h
      exact ⟨s.heap, rfl⟩
    case isFalse => cases h
  · split at h
    · obtain ⟨heap, _, h⟩ := Outcome.bind_eq_ok.mp h
      cases h
      exact ⟨heap, rfl⟩
    · cases h

theorem Serving.step {u u' : Use ChunkV} (h : Serving u) {o : Operation}
    (hstep : (chunkV p env).step u o = .ok u') : Serving u' := by
  cases o with
  | addToVec bytes align copyReqd =>
    obtain ⟨⟨offset, s'⟩, hadd, hstep⟩ := Outcome.bind_eq_ok.mp hstep
    cases hstep
    change (if align = 0 then _ else _) = _ at hadd
    split at hadd
    case isTrue => cases hadd
    case isFalse =>
      have ⟨hs', hkeeps⟩ := addToVec_laid h.laid hadd
      exact ⟨hs', fun span hmem => hkeeps.allocAt (h.spans span hmem), fun _ hnone => nomatch hnone⟩
  | allocate size align =>
    obtain ⟨⟨bp, s'⟩, halloc, hstep⟩ := Outcome.bind_eq_ok.mp hstep
    cases hstep
    change (if size ≠ 0 ∧ align = 0 then _ else _) = _ at halloc
    split at halloc
    case isTrue => cases halloc
    case isFalse => exact allocate_serving h _ halloc
  | downsizeLastAlloc newSize =>
    obtain ⟨last, hlast, hstep⟩ := Outcome.bind_eq_ok.mp hstep
    split at hstep
    case isTrue hle =>
      obtain ⟨s', hdown, hstep⟩ := Outcome.bind_eq_ok.mp hstep
      cases hstep
      exact downsizeLastAlloc_serving h (Option.orUndefined_eq_ok.mp hlast) hle _ hdown
    case isFalse => cases hstep
  | write i relative bytes =>
    obtain ⟨span, _, hstep⟩ := Outcome.bind_eq_ok.mp hstep
    split at hstep
    case isTrue =>
      obtain ⟨s', hwrite, hstep⟩ := Outcome.bind_eq_ok.mp hstep
      cases hstep
      have ⟨heap, hs'⟩ := writeThrough_eq_ok hwrite
      subst hs'
      exact ⟨⟨⟨h.laid.active_le, h.laid.tail⟩, h.laid.total⟩, h.spans, h.lastAlloc⟩
    case isFalse => cases hstep
  | reset =>
    cases hstep
    refine ⟨⟨⟨Nat.zero_le _, ?_⟩, rfl⟩, ?_, ?_⟩
    · intro init base n hd
      exact absurd hd (by simp [chunkV, reset])
    · intro span hmem
      cases hmem
    · intro span hnone
      cases hnone

theorem serving_empty : Serving { buffer := {} } := by
  refine ⟨⟨⟨le_rfl, fun init base n hd => ?_⟩, rfl⟩, fun span hmem => ?_, fun span hnone => ?_⟩
  · exact absurd hd (by simp)
  · cases hmem
  · cases hnone

theorem Serving.of_run {u : Use ChunkV} {operations : List Operation}
    (hrun : (chunkV p env).run { buffer := {} } operations = .ok u) : Serving u :=
  BufferV.run_induction (fun _ _ _ h hstep => h.step hstep) serving_empty hrun

theorem iovec_len (i : Nat) (e : VecEntry) : (e.iovec i).len = e.size := by
  cases e <;> rfl

theorem kind_size (e : VecEntry) : e.kind.size = e.size := by
  cases e <;> rfl

theorem owner_split (front back : List VecEntry) {e : VecEntry} {k : Nat} (hk : k < e.size) :
    owner (front ++ e :: back) ((front.map VecEntry.size).sum + k) = .ok (e, k) := by
  induction front with
  | nil =>
    rw [List.nil_append, List.map_nil, List.sum_nil, Nat.zero_add, owner,
      if_neg (Nat.not_le_of_lt hk)]
  | cons d front ih =>
    rw [List.cons_append, List.map_cons, List.sum_cons, owner, if_pos (by omega)]
    have hoff : d.size + (front.map VecEntry.size).sum + k - d.size =
        (front.map VecEntry.size).sum + k := by omega
    rw [hoff, ih]

variable (p env) in
-- The pointer for an offset is right for the internal entries.
theorem designates_iff (s : ChunkV) {off : Nat} (hoff : off < (s.dataV.map VecEntry.size).sum) :
    Designates (chunkV p env) s off ↔
      (externals ((chunkV p env).entries s))[off]? = some false := by
  have ⟨front, e, back, k, hd, hk, hlt⟩ := List.exists_split_of_lt_sum VecEntry.size hoff
  have hplace := getElem?_places iovec_len front back hlt
  have hext := getElem?_externals kind_size front back hlt
  have howner := owner_split front back hlt
  rw [← hd, ← hk] at hplace hext howner
  have hne : s.dataV.length ≠ 0 := by simp [hd]
  change (∃ place, s.getPtrOverall off = .ok place ∧
    (places (s.dataV.mapIdx VecEntry.iovec))[off]? = some place) ↔
      (externals (s.dataV.map VecEntry.kind))[off]? = some false
  rw [hplace, hext, getPtrOverall, if_neg hne, howner, Outcome.ok_bind]
  cases e with
  | external bytes => simp [VecEntry.iovec, VecEntry.kind, Place.add]
  | internal base size => simp [VecEntry.iovec, VecEntry.kind, Place.add]

variable (p env) in
theorem spanDesignates_of_allocAt {s : ChunkV} {span : Span}
    (ha : AllocAt s.dataV span.position span.size) : SpanDesignates (chunkV p env) s span := by
  intro k hk
  cases ha with
  | empty _ zero => omega
  | @entry xs ys base n split index position within =>
    have hplace := getElem?_places iovec_len xs ys (e := .internal base n)
      (k := span.position.posInBuffer + k) (by simp only [VecEntry.size]; omega)
    rw [← split, ← Nat.add_assoc, ← position] at hplace
    refine ⟨.memory (base.add span.position.posInBuffer), ?_, ?_⟩
    · change s.getPlace span.position = _
      simp only [getPlace, getPtr, index, split, List.getElem?_append_right le_rfl, Nat.sub_self,
        List.getElem?_cons_zero, Outcome.ok_bind, Outcome.pure_eq]
    · refine hplace.trans ?_
      simp [VecEntry.iovec, Place.add, Pointer.add, Nat.add_assoc]

end ChunkV

end Buffer
