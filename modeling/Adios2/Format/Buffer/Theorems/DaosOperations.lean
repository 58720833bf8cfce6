import Adios2.Format.Buffer.Theorems.DaosSubmission

-- What the operations of a `DaosChunkV` keep: its contents, and that what has been submitted is what
-- the first entries hold.

namespace Buffer

open Bytes Coverage ChunkV

namespace DaosChunkV

variable {p : Parameters} {env : Nat → Allocation} {writeChunk : Nat} {s s' : DaosChunkV}
  {flat : List Byte}

-- The calls so far bring what the first entries hold.
structure Submitted (s : DaosChunkV) (flat : List Byte) : Prop where
  index_le : s.lastSubmittedDataVIdx ≤ s.chunkV.dataV.length
  high     : s.submittedHigh =
    ((s.chunkV.dataV.take s.lastSubmittedDataVIdx).map VecEntry.size).sum
  sends    : Sends s.chunkV.heap (s.chunkV.dataV.take s.lastSubmittedDataVIdx) s.baseArrayOffset
    s.writes (flat.take s.submittedHigh)

-- Bytes that are added here do not go to an entry that has been submitted.
def Spares (p : Parameters) (s : DaosChunkV) (bytes : List Byte) (copyReqd : Bool) : Prop :=
  s.lastSubmittedDataVIdx = s.chunkV.dataV.length → ¬Merges p.daos s.chunkV bytes copyReqd

def SparesAlloc (p : Parameters) (s : DaosChunkV) (size : Nat) : Prop :=
  s.lastSubmittedDataVIdx = s.chunkV.dataV.length → ¬Appends p.daos s.chunkV size

-- What the first entries hold is not affected.
theorem Submitted.of_kept {v : ChunkV} {flat' : List Byte} (h : s.Submitted flat)
    (hlen : s.lastSubmittedDataVIdx ≤ v.dataV.length)
    (hkept : Kept s.lastSubmittedDataVIdx s.chunkV v)
    (hflat : flat'.take s.submittedHigh = flat.take s.submittedHigh) :
    Submitted { s with chunkV := v } flat' where
  index_le := hlen
  high     := by
    dsimp only
    rw [hkept.entries]
    exact h.high
  sends    := by
    dsimp only
    rw [hkept.entries, hflat]
    exact h.sends.mono (.refl _) hkept.memory

-- What entries in front hold is in front.
theorem shows_take {heap : Heap} {dataV : List VecEntry} (h : Shows heap dataV flat) (k : Nat) :
    Shows heap (dataV.take k) (flat.take ((dataV.take k).map VecEntry.size).sum) ∧
      Shows heap (dataV.drop k) (flat.drop ((dataV.take k).map VecEntry.size).sum) := by
  rw [← List.take_append_drop k dataV] at h
  obtain ⟨a, b, ha, hb, rfl⟩ := shows_append.mp h
  rw [← ha.length_eq, List.take_left, List.drop_left]
  exact ⟨ha, hb⟩

theorem Submitted.high_le (h : s.Submitted flat) (hshows : Shows s.chunkV.heap s.chunkV.dataV flat) :
    s.submittedHigh ≤ flat.length := by
  have hlen := (shows_take hshows s.lastSubmittedDataVIdx).1.length_eq
  rw [← h.high, List.length_take] at hlen
  omega

-- The calls so far, and those for the entries behind them.
theorem Submitted.sends_rest (h : s.Submitted flat) (writeChunk : Nat)
    (hshows : Shows s.chunkV.heap s.chunkV.dataV flat) :
    Sends s.chunkV.heap s.chunkV.dataV s.baseArrayOffset
      (s.writes ++ arrayWrites writeChunk (s.baseArrayOffset + s.submittedHigh)
        (s.chunkV.dataV.drop s.lastSubmittedDataVIdx)) flat := by
  have ⟨_, hrest⟩ := shows_take hshows s.lastSubmittedDataVIdx
  rw [← h.high] at hrest
  conv_rhs => rw [← List.take_append_drop s.submittedHigh flat]
  refine .append (h.sends.mono (fun base n hin => ?_) fun _ _ _ => rfl) ?_
  · exact ⟨base, n, List.mem_of_mem_take hin, rfl⟩
  · rw [List.length_take_of_le (h.high_le hshows)]
    refine (arrayWrites_sends writeChunk _ hrest).mono (fun base n hin => ?_) fun _ _ _ => rfl
    exact ⟨base, n, List.mem_of_mem_drop hin, rfl⟩

-- All entries are submitted.
theorem Submitted.all (h : s.Submitted flat) (hshows : Shows s.chunkV.heap s.chunkV.dataV flat)
    (offset : Nat) :
    Submitted { s.submitRange writeChunk s.lastSubmittedDataVIdx (s.chunkV.dataV.length - 1) with
      lastSubmittedDataVIdx := s.chunkV.dataV.length
      lastSubmittedOffset   := offset
    } flat := by
  have hle := h.index_le
  unfold submitRange
  split
  case isTrue hnone =>
    have heq : s.lastSubmittedDataVIdx = s.chunkV.dataV.length := by omega
    have hhigh := h.high
    have hsends := h.sends
    rw [heq] at hhigh hsends
    exact ⟨le_rfl, hhigh, hsends⟩
  case isFalse hsome =>
    have hentries : (s.chunkV.dataV.drop s.lastSubmittedDataVIdx).take
        (s.chunkV.dataV.length - 1 - s.lastSubmittedDataVIdx + 1) =
        s.chunkV.dataV.drop s.lastSubmittedDataVIdx := by
      apply List.take_of_length_le
      rw [List.length_drop]
      omega
    have hall : s.submittedHigh +
        ((s.chunkV.dataV.drop s.lastSubmittedDataVIdx).map VecEntry.size).sum = flat.length := by
      have ⟨_, hrest⟩ := shows_take hshows s.lastSubmittedDataVIdx
      have hhigh := h.high_le hshows
      rw [← h.high] at hrest
      rw [← hrest.length_eq, List.length_drop]
      omega
    dsimp only
    rw [hentries]
    refine ⟨le_rfl, ?_, ?_⟩
    · dsimp only
      rw [hall, List.take_length, hshows.length_eq]
    · dsimp only
      rw [hall, List.take_length, List.take_length]
      exact h.sends_rest _ hshows

theorem submitEnough_chunkV : (s.submitEnough p writeChunk).chunkV = s.chunkV := by
  unfold submitEnough submitRange
  split <;> [split; skip] <;> rfl

theorem submitEnough_base :
    (s.submitEnough p writeChunk).baseArrayOffset = s.baseArrayOffset := by
  unfold submitEnough submitRange
  split <;> [split; skip] <;> rfl

theorem Submitted.submitEnough (h : s.Submitted flat)
    (hshows : Shows s.chunkV.heap s.chunkV.dataV flat) :
    (s.submitEnough p writeChunk).Submitted flat := by
  unfold DaosChunkV.submitEnough
  split
  case isTrue => exact h.all hshows _
  case isFalse => exact h

-- An operation that adds bytes.
structure Added (s s' : DaosChunkV) (flat flat' : List Byte) (spares : Prop) : Prop where
  base      : s'.baseArrayOffset = s.baseArrayOffset
  allocAt   : ∀ bp n, AllocAt s.chunkV.dataV bp n → AllocAt s'.chunkV.dataV bp n
  submitted : spares → s.Submitted flat → s'.Submitted flat'

variable (env writeChunk) in
theorem addAligned_spec (h : Holding p.daos s.chunkV flat) (bytes : List Byte) (copyReqd : Bool) :
    ∃ s', s.addAligned p env writeChunk bytes copyReqd = .ok (flat.length, s') ∧
      Holding p.daos s'.chunkV (flat ++ bytes) ∧
      Added s s' flat (flat ++ bytes) (s.Spares p bytes copyReqd) := by
  have ⟨v, hadd, hholding, hextended⟩ := ChunkV.addAligned_spec env rfl h bytes copyReqd
  have hsubmitted (hspares : s.Spares p bytes copyReqd) (hs : s.Submitted flat) :
      Submitted { s with chunkV := v } (flat ++ bytes) := by
    refine hs.of_kept (hs.index_le.trans hextended.length_le) ?_ ?_
    · exact hextended.kept _ hs.index_le hspares
    · exact List.take_append_of_le_length (hs.high_le h.shows)
  unfold addAligned
  rw [hadd, Outcome.ok_bind]
  by_cases hempty : bytes.length = 0
  case pos =>
    exact ⟨_, if_pos hempty, hholding, rfl, hextended.allocAt, hsubmitted⟩
  case neg =>
    refine ⟨_, if_neg hempty, ?_, submitEnough_base, ?_, fun hspares hs => ?_⟩
    · rw [submitEnough_chunkV]
      exact hholding
    · rw [submitEnough_chunkV]
      exact hextended.allocAt
    · exact (hsubmitted hspares hs).submitEnough hholding.shows

-- The padding of an operation.
abbrev padBytes (s : DaosChunkV) (align : Nat) : List Byte :=
  .replicate (s.chunkV.addAlign align) 0

theorem alignBuffer_spec (h : Holding p.daos s.chunkV flat) {align : Nat}
    (halign : s.alignBuffer p env writeChunk align = .ok s') :
    Holding p.daos s'.chunkV (flat ++ s.padBytes align) ∧
      Added s s' flat (flat ++ s.padBytes align) (s.Spares p (s.padBytes align) true) := by
  have ⟨s₁, hadd, hspec⟩ := addAligned_spec env writeChunk h (s.padBytes align) true
  unfold alignBuffer at halign
  split at halign
  case isTrue => cases halign
  case isFalse =>
    rw [hadd, Outcome.ok_bind] at halign
    cases halign
    exact hspec

-- In neither of its two parts does `AddToVec` add to an entry that has been submitted.
structure SparesPut (p : Parameters) (env : Nat → Allocation) (writeChunk : Nat) (s : DaosChunkV)
    (bytes : List Byte) (align : Nat) (copyReqd : Bool) : Prop where
  pad   : s.Spares p (s.padBytes align) true
  bytes : ∀ s', s.alignBuffer p env writeChunk align = .ok s' → s'.Spares p bytes copyReqd

structure SparesAllocate (p : Parameters) (env : Nat → Allocation) (writeChunk : Nat)
    (s : DaosChunkV) (size align : Nat) : Prop where
  pad  : size ≠ 0 → s.Spares p (s.padBytes align) true
  span : size ≠ 0 → ∀ s', s.alignBuffer p env writeChunk align = .ok s' → s'.SparesAlloc p size

instance (bytes : List Byte) (copyReqd : Bool) : Decidable (s.Spares p bytes copyReqd) :=
  inferInstanceAs (Decidable (_ → ¬_))

instance (size : Nat) : Decidable (s.SparesAlloc p size) :=
  inferInstanceAs (Decidable (_ → ¬_))

instance (bytes : List Byte) (align : Nat) (copyReqd : Bool) :
    Decidable (s.SparesPut p env writeChunk bytes align copyReqd) :=
  decidable_of_iff (_ ∧ _) ⟨fun h => ⟨h.1, h.2⟩, fun h => ⟨h.pad, h.bytes⟩⟩

instance (size align : Nat) : Decidable (s.SparesAllocate p env writeChunk size align) :=
  decidable_of_iff (_ ∧ _) ⟨fun h => ⟨h.1, h.2⟩, fun h => ⟨h.pad, h.span⟩⟩

theorem addToVec_spec (h : Holding p.daos s.chunkV flat) {bytes : List Byte} {align offset : Nat}
    {copyReqd : Bool}
    (hput : s.addToVec p env writeChunk bytes align copyReqd = .ok (offset, s')) :
    offset = (flat ++ s.padBytes align).length ∧
      Holding p.daos s'.chunkV (flat ++ s.padBytes align ++ bytes) ∧
      Added s s' flat (flat ++ s.padBytes align ++ bytes)
        (s.SparesPut p env writeChunk bytes align copyReqd) := by
  have ⟨s₁, halign, hadd⟩ := Outcome.bind_eq_ok.mp hput
  have ⟨hholding, hpad⟩ := alignBuffer_spec h halign
  have ⟨s₂, hadd', hholding', hadded⟩ := addAligned_spec env writeChunk hholding bytes copyReqd
  cases hadd'.symm.trans hadd
  exact ⟨rfl, hholding', {
    base      := hadded.base.trans hpad.base
    allocAt   := fun bp n ha => hadded.allocAt bp n (hpad.allocAt bp n ha)
    submitted := fun hspares hs =>
      hadded.submitted (hspares.bytes s₁ halign) (hpad.submitted hspares.pad hs)
  }⟩

theorem allocate_spec (h : Holding p.daos s.chunkV flat) {size align : Nat} {bp : BufferPos}
    (halloc : s.allocate p env writeChunk size align = .ok (bp, s')) :
    ∃ pad junk, junk.length = size ∧ bp.globalPos = (flat ++ pad).length ∧
      Holding p.daos s'.chunkV (flat ++ pad ++ junk) ∧ AllocAt s'.chunkV.dataV bp size ∧
      Added s s' flat (flat ++ pad ++ junk) (s.SparesAllocate p env writeChunk size align) := by
  unfold allocate at halloc
  split at halloc
  case isTrue hzero =>
    cases halloc
    refine ⟨[], [], hzero.symm, ?_, ?_, .empty rfl hzero, rfl, fun _ _ => id, fun _ hs => ?_⟩
    · simp [h.curOffset]
    · simpa using h
    · simpa using hs
  case isFalse hsize =>
    have ⟨s₁, halign, halloc⟩ := Outcome.bind_eq_ok.mp halloc
    have ⟨hholding, hpad⟩ := alignBuffer_spec h halign
    have ⟨bp', v, junk, halloc', hlen, hholding', hextended, hpos, hat⟩ :=
      allocateAligned_spec env rfl hholding (Nat.pos_of_ne_zero hsize)
    rw [halloc', Outcome.ok_bind] at halloc
    cases halloc
    refine ⟨_, junk, hlen, hpos, hholding', hat, hpad.base, ?_, fun hspares hs => ?_⟩
    · exact fun bp n ha => hextended.allocAt bp n (hpad.allocAt bp n ha)
    · have hs₁ := hpad.submitted (hspares.pad hsize) hs
      refine hs₁.of_kept (hs₁.index_le.trans hextended.length_le) ?_ ?_
      · exact hextended.kept _ hs₁.index_le (hspares.span hsize s₁ halign)
      · exact List.take_append_of_le_length (hs₁.high_le hholding.shows)

-- The store only changes what it has read.
structure Progress (s s' : DaosChunkV) : Prop where
  chunkV                : s'.chunkV = s.chunkV
  baseArrayOffset       : s'.baseArrayOffset = s.baseArrayOffset
  submittedHigh         : s'.submittedHigh = s.submittedHigh
  lastSubmittedDataVIdx : s'.lastSubmittedDataVIdx = s.lastSubmittedDataVIdx
  length                : s'.writes.length = s.writes.length

theorem Progress.refl (s : DaosChunkV) : Progress s s :=
  ⟨rfl, rfl, rfl, rfl, rfl⟩

theorem Progress.trans {s₁ : DaosChunkV} (h : Progress s s₁) (h' : Progress s₁ s') :
    Progress s s' where
  chunkV                := h'.chunkV.trans h.chunkV
  baseArrayOffset       := h'.baseArrayOffset.trans h.baseArrayOffset
  submittedHigh         := h'.submittedHigh.trans h.submittedHigh
  lastSubmittedDataVIdx := h'.lastSubmittedDataVIdx.trans h.lastSubmittedDataVIdx
  length                := h'.length.trans h.length

theorem move_progress {i : Nat} (hmove : s.move i = .ok s') : Progress s s' := by
  unfold move at hmove
  split at hmove
  next offset iovs hi =>
    have ⟨blocks, _, hmove⟩ := Outcome.bind_eq_ok.mp hmove
    cases hmove
    exact { Progress.refl s with length := List.length_set }
  next =>
    cases hmove
    exact .refl s

section Moves

variable {entries : List VecEntry} {start : Nat}

theorem move_sends (h : Sends s.chunkV.heap entries start s.writes flat) (i : Nat) :
    ∃ s', s.move i = .ok s' ∧ Sends s'.chunkV.heap entries start s'.writes flat ∧
      ∀ j w, s'.writes[j]? = some w → j = i ∨ (∃ w', s.writes[j]? = some w' ∧
        w'.moved.isSome = true) → w.moved.isSome = true := by
  unfold move
  split
  next offset iovs hi =>
    have ⟨blocks, hblocks, hsends⟩ := h.moved hi
    rw [hblocks]
    refine ⟨_, rfl, hsends, fun j w hw hj => ?_⟩
    dsimp only at hw
    by_cases heq : j = i
    case pos =>
      subst heq
      rw [List.getElem?_set_self (List.getElem?_eq_some_iff.mp hi).1] at hw
      cases hw
      rfl
    case neg =>
      rw [List.getElem?_set_ne (Ne.symm heq)] at hw
      have ⟨w', hw', hmoved⟩ := hj.resolve_left heq
      cases hw.symm.trans hw'
      exact hmoved
  next hnone =>
    refine ⟨s, rfl, h, fun j w hw hj => ?_⟩
    rcases hj with rfl | ⟨w', hw', hmoved⟩
    · obtain ⟨offset, iovs, moved⟩ := w
      cases moved with
      | none => exact absurd hw (hnone offset iovs)
      | some _ => rfl
    · cases hw.symm.trans hw'
      exact hmoved

theorem drain_progress (hdrain : s.drain = .ok s') : Progress s s' := by
  have hfold {is : List Nat} {s : DaosChunkV}
      (h : is.foldlM (fun s i => DaosChunkV.move i s) s = .ok s') : Progress s s' := by
    induction is generalizing s with
    | nil =>
      cases h
      exact .refl _
    | cons i is ih =>
      have ⟨s₁, hmove, hrest⟩ := Outcome.bind_eq_ok.mp h
      exact (move_progress hmove).trans (ih hrest)
  exact hfold hdrain

-- After all calls have ended, all have moved.
theorem drain_sends (h : Sends s.chunkV.heap entries start s.writes flat) :
    ∃ s', s.drain = .ok s' ∧ Sends s'.chunkV.heap entries start s'.writes flat ∧
      ∀ w ∈ s'.writes, w.moved.isSome = true := by
  have hrange (n : Nat) : ∃ s', (List.range n).foldlM (fun s i => DaosChunkV.move i s) s = .ok s' ∧
      Sends s'.chunkV.heap entries start s'.writes flat ∧
      ∀ j < n, ∀ w, s'.writes[j]? = some w → w.moved.isSome = true := by
    induction n with
    | zero => exact ⟨s, rfl, h, fun j hj => (nomatch hj)⟩
    | succ n ih =>
      have ⟨s₁, hfold, hs₁, hmoved⟩ := ih
      have ⟨s₂, hmove, hs₂, hmoved'⟩ := move_sends hs₁ n
      refine ⟨s₂, ?_, hs₂, fun j hj w hw => hmoved' j w hw ?_⟩
      · rw [List.range_succ, List.foldlM_append, hfold, Outcome.ok_bind, List.foldlM_cons, hmove]
        rfl
      · have hlen := (move_progress hmove).length
        rcases Nat.lt_succ_iff_lt_or_eq.mp hj with hlt | rfl
        · have hin := (List.getElem?_eq_some_iff.mp hw).1
          have hw' := List.getElem?_eq_getElem (hlen ▸ hin)
          exact .inr ⟨_, hw', hmoved j hlt _ hw'⟩
        · exact .inl rfl
  have ⟨s', hdrain, hs', hmoved⟩ := hrange s.writes.length
  refine ⟨s', hdrain, hs', fun w hw => ?_⟩
  have ⟨j, hj⟩ := List.mem_iff_getElem?.mp hw
  have hlen := (drain_progress hdrain).length
  exact hmoved j (hlen ▸ (List.getElem?_eq_some_iff.mp hj).1) w hj

end Moves

theorem Submitted.of_progress (h : s.Submitted flat) (hp : Progress s s')
    (hsends : Sends s'.chunkV.heap (s.chunkV.dataV.take s.lastSubmittedDataVIdx) s.baseArrayOffset
      s'.writes (flat.take s.submittedHigh)) : s'.Submitted flat where
  index_le := by
    rw [hp.lastSubmittedDataVIdx, hp.chunkV]
    exact h.index_le
  high     := by
    rw [hp.submittedHigh, hp.lastSubmittedDataVIdx, hp.chunkV]
    exact h.high
  sends    := by
    rw [hp.submittedHigh, hp.lastSubmittedDataVIdx, hp.baseArrayOffset]
    rw [hp.chunkV] at hsends ⊢
    exact hsends

theorem Submitted.move (h : s.Submitted flat) {i : Nat} (hmove : s.move i = .ok s') :
    s'.Submitted flat := by
  have ⟨_, hmove', hsends, _⟩ := move_sends h.sends i
  cases hmove'.symm.trans hmove
  exact h.of_progress (move_progress hmove) hsends

theorem Submitted.drained (h : s.Submitted flat) : ∃ s', s.drain = .ok s' ∧ s'.Submitted flat := by
  have ⟨s', hdrain, hsends, _⟩ := drain_sends h.sends
  exact ⟨s', hdrain, h.of_progress (drain_progress hdrain) hsends⟩

end DaosChunkV

end Buffer
