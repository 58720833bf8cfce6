import Adios2.Format.Buffer.MallocV
import Adios2.Format.Buffer.Theorems.BufferPlaces

-- How the entries of a `MallocV` lie in any use of it, and where its pointers lead.

namespace Buffer

open Bytes

namespace MallocV

variable {q : MallocParameters} {env : Nat → Allocation} {s s' : MallocV}

-- How many bytes of the internal block entries take.
def internalSize (dataV : List MallocEntry) : Nat :=
  (dataV.map fun
    | .external _      => 0
    | .internal _ size => size).sum

theorem internalSize_append (xs ys : List MallocEntry) :
    internalSize (xs ++ ys) = internalSize xs + internalSize ys := by
  rw [internalSize, List.map_append, List.sum_append, internalSize, internalSize]

theorem internalSize_le (dataV : List MallocEntry) :
    internalSize dataV ≤ (dataV.map MallocEntry.size).sum := by
  induction dataV with
  | nil => exact le_rfl
  | cons e dataV ih =>
    rw [← List.singleton_append, internalSize_append, List.map_append, List.sum_append]
    refine Nat.add_le_add ?_ ih
    cases e <;> simp [internalSize, MallocEntry.size]

-- The internal entries follow each other in the internal block.
structure Follows (dataV : List MallocEntry) : Prop where
  offsets  : ∀ xs offset n ys, dataV = xs ++ .internal offset n :: ys → offset = internalSize xs
  nonempty : ∀ bytes, .external bytes ∈ dataV → bytes ≠ []

namespace Follows

variable {dataV : List MallocEntry} {e : MallocEntry}

theorem init (h : Follows (dataV ++ [e])) : Follows dataV where
  offsets  := fun xs offset n ys hd => h.offsets xs offset n (ys ++ [e]) (by simp [hd])
  nonempty := fun bytes hmem => h.nonempty bytes (List.mem_append_left _ hmem)

theorem concat (h : Follows dataV)
    (he : match e with
      | .external bytes    => bytes ≠ []
      | .internal offset _ => offset = internalSize dataV) :
    Follows (dataV ++ [e]) where
  offsets  := by
    intro xs offset n ys hd
    rcases List.eq_nil_or_concat ys with rfl | ⟨ys, e', rfl⟩
    · obtain ⟨rfl, heq⟩ := List.append_inj' hd rfl
      cases heq
      exact he
    · rw [List.concat_eq_append, ← List.cons_append, ← List.append_assoc] at hd
      exact h.offsets xs offset n ys (List.append_inj' hd rfl).1
  nonempty := by
    intro bytes hmem
    rcases List.mem_append.mp hmem with hmem | hmem
    · exact h.nonempty bytes hmem
    · cases List.mem_singleton.mp hmem
      exact he

end Follows

structure Laid (s : MallocV) : Prop where
  total       : s.curOffset = (s.dataV.map MallocEntry.size).sum
  internalPos : s.internalPos = internalSize s.dataV
  follows     : Follows s.dataV

-- Every internal entry stays at its place in the vector and gets no smaller.
def Keeps (dataV dataV' : List MallocEntry) : Prop :=
  ∀ xs ys offset n, dataV = xs ++ .internal offset n :: ys →
    ∃ n' ys', dataV' = xs ++ .internal offset n' :: ys' ∧ n ≤ n'

theorem Keeps.refl (dataV : List MallocEntry) : Keeps dataV dataV :=
  fun _ ys _ n hd => ⟨n, ys, hd, le_rfl⟩

theorem Keeps.trans {d₁ d₂ d₃ : List MallocEntry} (h : Keeps d₁ d₂) (h' : Keeps d₂ d₃) :
    Keeps d₁ d₃ := by
  intro xs ys offset n hd
  have ⟨n', ys', hd', hle⟩ := h xs ys offset n hd
  have ⟨n'', ys'', hd'', hle'⟩ := h' xs ys' offset n' hd'
  exact ⟨n'', ys'', hd'', hle.trans hle'⟩

theorem keeps_append (dataV rest : List MallocEntry) : Keeps dataV (dataV ++ rest) := by
  intro xs ys offset n hd
  exact ⟨n, ys ++ rest, by simp [hd], le_rfl⟩

theorem keeps_last (init : List MallocEntry) (offset : Nat) {n n' : Nat} (hle : n ≤ n') :
    Keeps (init ++ [.internal offset n]) (init ++ [.internal offset n']) := by
  intro xs ys offset₁ n₁ hd
  rcases List.eq_nil_or_concat ys with rfl | ⟨ys, e, rfl⟩
  · obtain ⟨rfl, heq⟩ := List.append_inj' hd rfl
    cases heq
    exact ⟨n', [], rfl, hle⟩
  · rw [List.concat_eq_append, ← List.cons_append, ← List.append_assoc] at hd
    obtain ⟨rfl, -⟩ := List.append_inj' hd rfl
    exact ⟨n₁, ys ++ [.internal offset n'], by simp, le_rfl⟩

-- An allocation in its entry.
inductive AllocAt (dataV : List MallocEntry) (bp : BufferPos) (size : Nat) : Prop
  | empty (index : bp.bufferIdx = none) (zero : size = 0)
  | entry {xs ys : List MallocEntry} {offset n k : Nat}
      (split : dataV = xs ++ .internal offset n :: ys) (index : bp.bufferIdx = some 0)
      (inBlock : bp.posInBuffer = offset + k)
      (position : bp.globalPos = (xs.map MallocEntry.size).sum + k) (within : k + size ≤ n)

theorem Keeps.allocAt {dataV dataV' : List MallocEntry} (h : Keeps dataV dataV') {bp : BufferPos}
    {size : Nat} (ha : AllocAt dataV bp size) : AllocAt dataV' bp size := by
  cases ha with
  | empty index zero => exact .empty index zero
  | entry split index inBlock position within =>
    have ⟨n', ys', hd', hle⟩ := h _ _ _ _ split
    exact .entry hd' index inBlock position (within.trans hle)

-- The bytes at the end of the internal block are the last of the vector.
structure Extended (s s' : MallocV) (size : Nat) (init : List MallocEntry) (offset k : Nat) :
    Prop where
  dataV : s'.dataV = init ++ [.internal offset (k + size)]
  start : s.internalPos = offset + k
  place : s.curOffset = (init.map MallocEntry.size).sum + k
  keeps : Keeps s.dataV (init ++ [.internal offset k])

theorem Extended.keeps' {size : Nat} {init : List MallocEntry} {offset k : Nat}
    (h : Extended s s' size init offset k) : Keeps s.dataV s'.dataV := by
  rw [h.dataV]
  exact h.keeps.trans (keeps_last init offset (Nat.le_add_right _ _))

section

variable {init : List MallocEntry} {offset n : Nat}

theorem sum_size_concat : ((init ++ [MallocEntry.internal offset n]).map MallocEntry.size).sum =
    (init.map MallocEntry.size).sum + n := by
  simp [MallocEntry.size]

theorem internalSize_concat : internalSize (init ++ [.internal offset n]) = internalSize init + n := by
  rw [internalSize_append]
  simp [internalSize]

end

-- Bytes behind the last entry, which is the tail if it is internal.
theorem Laid.extend (h : Laid s) (size : Nat) :
    Laid (s.extend size) ∧ ∃ init offset k, Extended s (s.extend size) size init offset k := by
  have hlaid {init : List MallocEntry} {offset k : Nat}
      (hex : Extended s (s.extend size) size init offset k) (hinit : Follows init)
      (hoffset : offset = internalSize init) :
      Laid (s.extend size) ∧ ∃ init offset k, Extended s (s.extend size) size init offset k := by
    have htotal : (s.extend size).curOffset = s.curOffset + size := rfl
    have hpos : (s.extend size).internalPos = s.internalPos + size := rfl
    refine ⟨⟨?_, ?_, hex.dataV ▸ hinit.concat hoffset⟩, init, offset, k, hex⟩
    · rw [htotal, hex.dataV, hex.place, sum_size_concat, Nat.add_assoc]
    · rw [hpos, hex.dataV, hex.start, internalSize_concat, hoffset, Nat.add_assoc]
  have hfresh (hd : (s.extend size).dataV = s.dataV ++ [.internal s.internalPos size]) :
      Extended s (s.extend size) size s.dataV s.internalPos 0 :=
    ⟨by rw [hd, Nat.zero_add], rfl, h.total, keeps_append _ _⟩
  rcases List.eq_nil_or_concat s.dataV with hnil | ⟨init, e, hd⟩
  · refine hlaid (hfresh ?_) h.follows h.internalPos
    simp [MallocV.extend, hnil]
  · rw [List.concat_eq_append] at hd
    have hlast : s.dataV.getLast? = some e := by rw [hd, List.getLast?_concat]
    cases e with
    | external bytes =>
      refine hlaid (hfresh ?_) h.follows h.internalPos
      simp only [MallocV.extend, hlast]
    | internal offset n =>
      have hoffset := h.follows.offsets init offset n [] hd
      have hpos : s.internalPos = offset + n := by
        rw [h.internalPos, hd, internalSize_concat, hoffset]
      refine hlaid (k := n) ⟨?_, hpos, ?_, hd ▸ Keeps.refl _⟩ (hd ▸ h.follows).init hoffset
      · simp only [MallocV.extend, hlast, if_pos hpos]
        rw [hd, List.dropLast_concat]
      · rw [h.total, hd, sum_size_concat]

theorem grow_eq_ok {size : Nat} (h : s.grow q env size = .ok s') :
    s'.internalPos = s.internalPos ∧ s'.dataV = s.dataV ∧ s'.curOffset = s.curOffset := by
  unfold grow at h
  split at h
  case isTrue =>
    obtain ⟨⟨b, heap⟩, _, h⟩ := Outcome.bind_eq_ok.mp h
    cases h
    exact ⟨rfl, rfl, rfl⟩
  case isFalse =>
    cases h
    exact ⟨rfl, rfl, rfl⟩

theorem Laid.of_eq (h : Laid s) (hpos : s'.internalPos = s.internalPos) (hd : s'.dataV = s.dataV)
    (hcur : s'.curOffset = s.curOffset) : Laid s' where
  total       := by rw [hcur, hd, h.total]
  internalPos := by rw [hpos, hd, h.internalPos]
  follows     := hd ▸ h.follows

theorem addAligned_laid (hs : Laid s) {bytes : List Byte} {copyReqd : Bool} {offset : Nat}
    (h : s.addAligned q env bytes copyReqd = .ok (offset, s')) :
    Laid s' ∧ Keeps s.dataV s'.dataV := by
  unfold addAligned at h
  split at h
  case isTrue =>
    cases h
    exact ⟨hs, .refl _⟩
  case isFalse hne =>
    split at h
    case isTrue =>
      cases h
      refine ⟨⟨?_, ?_, hs.follows.concat ?_⟩, keeps_append _ _⟩
      · simp [hs.total, MallocEntry.size]
      · simp [hs.internalPos, internalSize]
      · exact fun hnil => hne (congrArg List.length hnil)
    case isFalse =>
      obtain ⟨s₁, hgrow, h⟩ := Outcome.bind_eq_ok.mp h
      obtain ⟨block, _, h⟩ := Outcome.bind_eq_ok.mp h
      obtain ⟨heap, _, h⟩ := Outcome.bind_eq_ok.mp h
      cases h
      obtain ⟨hpos, hd, hcur⟩ := grow_eq_ok hgrow
      have hs₁ : Laid { s₁ with heap } := hs.of_eq hpos hd hcur
      obtain ⟨hlaid, _, _, _, hex⟩ := hs₁.extend bytes.length
      refine ⟨hlaid, ?_⟩
      rw [← hd]
      exact hex.keeps'

theorem alignBuffer_laid (hs : Laid s) {align : Nat} (h : s.alignBuffer q env align = .ok s') :
    Laid s' ∧ Keeps s.dataV s'.dataV := by
  unfold alignBuffer at h
  split at h
  case isTrue => cases h
  case isFalse =>
    obtain ⟨⟨_, s₁⟩, hadd, h⟩ := Outcome.bind_eq_ok.mp h
    cases h
    exact addAligned_laid hs hadd

-- An allocation at the end of the last entry.
def AtTail (dataV : List MallocEntry) (span : Span) (front : List Span) : Prop :=
  ∃ init offset k, dataV = init ++ [.internal offset (k + span.size)] ∧
    span.position.bufferIdx = some 0 ∧ span.position.posInBuffer = offset + k ∧
    span.position.globalPos = (init.map MallocEntry.size).sum + k ∧
    ∀ other ∈ front, AllocAt (init ++ [.internal offset k]) other.position other.size

-- All allocations are in entries of the vector.
structure Serving (u : Use MallocV) : Prop where
  laid      : Laid u.buffer
  spans     : ∀ span ∈ u.spans, AllocAt u.buffer.dataV span.position span.size
  lastAlloc : ∀ span, u.lastAlloc = some span →
    ∃ front, u.spans = front ++ [span] ∧ AtTail u.buffer.dataV span front

theorem allocate_serving {u : Use MallocV} (h : Serving u) {size align : Nat} {bp : BufferPos}
    (content : List (Option Byte)) (halloc : u.buffer.allocate q env size align = .ok (bp, s')) :
    Serving { u with
      content
      buffer    := s'
      spans     := u.spans ++ [{ position := bp, align, size }]
      lastAlloc := if size = 0 then none else some { position := bp, align, size }
    } := by
  unfold allocate at halloc
  split at halloc
  case isTrue hzero =>
    cases halloc
    refine ⟨h.laid, fun span hmem => ?_, fun span hlast => ?_⟩
    · rcases List.mem_append.mp hmem with hmem | hmem
      · exact h.spans span hmem
      · rw [List.mem_singleton.mp hmem]
        exact .empty rfl hzero
    · dsimp only at hlast
      rw [if_pos hzero] at hlast
      cases hlast
  case isFalse hsize =>
    obtain ⟨s₁, halign, halloc⟩ := Outcome.bind_eq_ok.mp halloc
    obtain ⟨s₂, hgrow, halloc⟩ := Outcome.bind_eq_ok.mp halloc
    cases halloc
    have ⟨hs₁, hkeeps⟩ := alignBuffer_laid h.laid halign
    have ⟨hpos, hd, hcur⟩ := grow_eq_ok hgrow
    have ⟨hlaid, init, offset, k, hex⟩ := (hs₁.of_eq hpos hd hcur).extend size
    rw [← hd] at hkeeps
    refine ⟨hlaid, fun span hmem => ?_, fun span hlast => ?_⟩
    · rcases List.mem_append.mp hmem with hmem | hmem
      · exact (hkeeps.trans hex.keeps').allocAt (h.spans span hmem)
      · rw [List.mem_singleton.mp hmem]
        exact .entry hex.dataV rfl hex.start hex.place le_rfl
    · dsimp only at hlast
      rw [if_neg hsize] at hlast
      cases hlast
      refine ⟨u.spans, rfl, init, offset, k, hex.dataV, rfl, hex.start, hex.place, ?_⟩
      exact fun other hmem => (hkeeps.trans hex.keeps).allocAt (h.spans other hmem)

theorem downsizeLastAlloc_serving {u : Use MallocV} (h : Serving u) {last : Span}
    (hlast : u.lastAlloc = some last) {newSize : Nat} (hle : newSize ≤ last.size)
    (content : List (Option Byte)) (hdown : u.buffer.downsizeLastAlloc last.size newSize = .ok s') :
    Serving { u with
      content
      buffer    := s'
      spans     := u.spans.dropLast ++ [{ last with size := newSize }]
      lastAlloc := some { last with size := newSize }
    } := by
  have ⟨front, hspans, init, offset, k, hd, hindex, hblock, hglobal, hfront⟩ :=
    h.lastAlloc last hlast
  have hnew : k + last.size - (last.size - newSize) = k + newSize := by omega
  rw [downsizeLastAlloc, hd, List.getLast?_concat, List.dropLast_concat] at hdown
  dsimp only at hdown
  rw [hnew] at hdown
  cases hdown
  have hfollows := hd ▸ h.laid.follows
  have hkeeps := keeps_last init offset (Nat.le_add_right k newSize)
  refine ⟨⟨?_, ?_, hfollows.init.concat (hfollows.offsets init offset _ [] rfl)⟩,
    fun span hmem => ?_, fun span hlast' => ?_⟩
  · have htotal := h.laid.total
    rw [hd, sum_size_concat] at htotal
    dsimp only
    rw [sum_size_concat]
    omega
  · have hpos := h.laid.internalPos
    rw [hd, internalSize_concat] at hpos
    dsimp only
    rw [internalSize_concat]
    omega
  · rw [hspans, List.dropLast_concat] at hmem
    rcases List.mem_append.mp hmem with hmem | hmem
    · exact hkeeps.allocAt (hfront span hmem)
    · rw [List.mem_singleton.mp hmem]
      exact .entry rfl hindex hblock hglobal le_rfl
  · cases hlast'
    rw [hspans, List.dropLast_concat]
    exact ⟨front, rfl, init, offset, k, rfl, hindex, hblock, hglobal, hfront⟩

-- A write only changes memory.
theorem writeThrough_eq_ok {bp : BufferPos} {relative : Nat} {bytes : List Byte}
    (h : s.writeThrough bp relative bytes = .ok s') : ∃ heap, s' = { s with heap } := by
  unfold writeThrough at h
  split at h
  · split at h
    case isTrue =>
      cases h
      exact ⟨s.heap, rfl⟩
    case isFalse => cases h
  · obtain ⟨block, _, h⟩ := Outcome.bind_eq_ok.mp h
    obtain ⟨heap, _, h⟩ := Outcome.bind_eq_ok.mp h
    cases h
    exact ⟨heap, rfl⟩

theorem Serving.step {u u' : Use MallocV} (h : Serving u) {o : Operation}
    (hstep : (mallocV q env).step u o = .ok u') : Serving u' := by
  cases o with
  | addToVec bytes align copyReqd =>
    obtain ⟨⟨offset, s'⟩, hadd, hstep⟩ := Outcome.bind_eq_ok.mp hstep
    cases hstep
    obtain ⟨s₁, halign, hadd⟩ := Outcome.bind_eq_ok.mp hadd
    have ⟨hs₁, hkeeps⟩ := alignBuffer_laid h.laid halign
    have ⟨hs', hkeeps'⟩ := addAligned_laid hs₁ hadd
    refine ⟨hs', fun span hmem => ?_, fun _ hnone => nomatch hnone⟩
    exact (hkeeps.trans hkeeps').allocAt (h.spans span hmem)
  | allocate size align =>
    obtain ⟨⟨bp, s'⟩, halloc, hstep⟩ := Outcome.bind_eq_ok.mp hstep
    cases hstep
    exact allocate_serving h _ halloc
  | downsizeLastAlloc newSize =>
    obtain ⟨last, hlast, hstep⟩ := Outcome.bind_eq_ok.mp hstep
    split at hstep
    case isTrue hle =>
      obtain ⟨s', hdown, hstep⟩ := Outcome.bind_eq_ok.mp hstep
      cases hstep
      exact downsizeLastAlloc_serving h (Option.orUndefined_eq_ok.mp hlast) hle _ hdown
    case isFalse => cases hstep
  | write i relative bytes =>
    obtain ⟨span, _, hstep⟩ := Outcome.bind_eq_ok.mp hstep
    split at hstep
    case isTrue =>
      obtain ⟨s', hwrite, hstep⟩ := Outcome.bind_eq_ok.mp hstep
      cases hstep
      have ⟨heap, hs'⟩ := writeThrough_eq_ok hwrite
      subst hs'
      exact ⟨h.laid.of_eq rfl rfl rfl, h.spans, h.lastAlloc⟩
    case isFalse => cases hstep
  | reset =>
    cases hstep
    refine ⟨⟨rfl, rfl, fun xs offset n ys hd => ?_, fun bytes hmem => ?_⟩, ?_, ?_⟩
    · exact absurd hd (by simp [mallocV, reset])
    · cases hmem
    · intro span hmem
      cases hmem
    · intro span hnone
      cases hnone

theorem serving_empty : Serving { buffer := {} } := by
  refine ⟨⟨rfl, rfl, fun xs offset n ys hd => ?_, fun bytes hmem => ?_⟩, ?_, ?_⟩
  · exact absurd hd (by simp)
  · cases hmem
  · intro span hmem
    cases hmem
  · intro span hnone
    cases hnone

theorem Serving.of_run {u : Use MallocV} {operations : List Operation}
    (hrun : (mallocV q env).run { buffer := {} } operations = .ok u) : Serving u :=
  BufferV.run_induction (fun _ _ _ h hstep => h.step hstep) serving_empty hrun

theorem iovec_len (i : Nat) (e : MallocEntry) : (s.iovec i e).len = e.size := by
  cases e <;> rfl

theorem kind_size (e : MallocEntry) : e.kind.size = e.size := by
  cases e <;> rfl

theorem blockPlace_add (s : MallocV) (pos k : Nat) :
    (s.blockPlace pos).add k = s.blockPlace (pos + k) := by
  unfold blockPlace
  cases s.internalBlock <;> rfl

theorem blockPlace_inj {pos pos' : Nat} : s.blockPlace pos = s.blockPlace pos' ↔ pos = pos' := by
  unfold blockPlace
  cases s.internalBlock <;> simp

theorem blockPlace_ne_application (pos i k : Nat) : s.blockPlace pos ≠ .application i k := by
  unfold blockPlace
  cases s.internalBlock <;> simp

-- All entries are internal if and only if they take as many bytes of the internal block as they have.
theorem internalSize_eq_iff {dataV : List MallocEntry} (h : Follows dataV) :
    internalSize dataV = (dataV.map MallocEntry.size).sum ↔
      true ∉ externals (dataV.map MallocEntry.kind) := by
  induction dataV using List.reverseRecOn with
  | nil => simp [internalSize, externals]
  | append_singleton dataV e ih =>
    have ih := ih h.init
    have hle := internalSize_le dataV
    cases e with
    | external bytes =>
      have hpos : 0 < bytes.length :=
        List.length_pos_of_ne_nil (h.nonempty bytes (by simp))
      have hne : internalSize (dataV ++ [.external bytes]) ≠
          ((dataV ++ [MallocEntry.external bytes]).map MallocEntry.size).sum := by
        rw [internalSize_append, List.map_append, List.sum_append]
        simp only [internalSize, MallocEntry.size, List.map_cons, List.map_nil, List.sum_cons,
          List.sum_nil] at hle ⊢
        omega
      refine iff_of_false hne (not_not.mpr ?_)
      simp [externals, MallocEntry.kind, hpos.ne']
    | internal offset n =>
      rw [internalSize_concat, sum_size_concat, Nat.add_right_cancel_iff, ih]
      simp [externals, MallocEntry.kind]

variable (q env) in
-- The pointer for an offset is right up to the first external byte.
theorem designates_iff (h : Laid s) {off : Nat} (hoff : off < (s.dataV.map MallocEntry.size).sum) :
    Designates (mallocV q env) s off ↔
      true ∉ (externals ((mallocV q env).entries s)).take (off + 1) := by
  have ⟨front, e, back, k, hd, hk, hlt⟩ := List.exists_split_of_lt_sum MallocEntry.size hoff
  have hplace := getElem?_places (iovec_len (s := s)) front back hlt
  have hfollows : Follows front := {
    offsets  := fun xs offset n ys hsplit =>
      h.follows.offsets xs offset n (ys ++ e :: back) (by rw [hd, hsplit]; simp)
    nonempty := fun bytes hmem => h.follows.nonempty bytes (by simp [hd, hmem])
  }
  have htake : (externals (s.dataV.map MallocEntry.kind)).take (off + 1) =
      externals (front.map MallocEntry.kind) ++ List.replicate (k + 1) e.kind.isExternal := by
    have hlen : (externals (front.map MallocEntry.kind)).length =
        (front.map MallocEntry.size).sum := by
      rw [externals, List.length_flatMap_eq_sum (fun _ => List.length_replicate), List.map_map]
      exact congrArg List.sum (List.map_congr_left fun e _ => kind_size e)
    rw [hd, hk, List.map_append, externals, List.flatMap_append, ← externals, Nat.add_assoc, ← hlen,
      List.take_length_add_append, List.map_cons, List.flatMap_cons, List.take_append_of_le_length,
      List.take_replicate, Nat.min_eq_left]
    · rw [kind_size]
      exact hlt
    · rw [List.length_replicate, kind_size]
      exact hlt
  rw [← hd, ← hk] at hplace
  change (∃ place, s.getPtrOverall off = .ok place ∧
    (places (s.dataV.mapIdx s.iovec))[off]? = some place) ↔
      true ∉ (externals (s.dataV.map MallocEntry.kind)).take (off + 1)
  rw [hplace, htake, List.mem_append, not_or, ← internalSize_eq_iff hfollows]
  cases e with
  | external bytes =>
    refine iff_of_false ?_ ?_
    · rintro ⟨place, hget, hsome⟩
      cases hget
      exact blockPlace_ne_application _ _ _ (Option.some.inj hsome).symm
    · simp [MallocEntry.kind]
  | internal offset n =>
    have hoffset := h.follows.offsets front offset n back hd
    constructor
    · rintro ⟨place, hget, hsome⟩
      cases hget
      have heq : (s.blockPlace offset).add k = s.blockPlace off := Option.some.inj hsome
      rw [blockPlace_add, blockPlace_inj] at heq
      refine ⟨by omega, ?_⟩
      simp [MallocEntry.kind]
    · rintro ⟨hsize, -⟩
      refine ⟨_, rfl, congrArg some ?_⟩
      change (s.blockPlace offset).add k = s.blockPlace off
      rw [blockPlace_add, hk, ← hsize, hoffset]

variable (q env) in
theorem spanDesignates_of_allocAt {span : Span}
    (ha : AllocAt s.dataV span.position span.size) : SpanDesignates (mallocV q env) s span := by
  intro j hj
  cases ha with
  | empty _ zero => omega
  | @entry xs ys offset n k split index inBlock position within =>
    have hplace := getElem?_places (iovec_len (s := s)) xs ys (e := .internal offset n) (k := k + j)
      (by simp only [MallocEntry.size]; omega)
    rw [← split, ← Nat.add_assoc, ← position] at hplace
    refine ⟨s.blockPlace span.position.posInBuffer, ?_, hplace.trans (congrArg some ?_)⟩
    · change s.getPtr span.position = _
      rw [getPtr, index]
    · change (s.blockPlace offset).add (k + j) = _
      rw [blockPlace_add, blockPlace_add, inBlock, Nat.add_assoc]

end MallocV

end Buffer
