import Adios2.Engine.Daos.DaosWriter
import Adios2.Format.Buffer.Theorems.DaosOperations

-- The writes to the array of a rank bring the bytes of a step to their positions.

namespace Daos

open Bytes Buffer Buffer.ChunkV Coverage

theorem holds_overwrite {buf bs xs : List Byte} {pos q : Nat} (h : Holds buf pos bs)
    (hq : q + xs.length ≤ buf.length)
    (hapart : bs ≠ [] → pos + bs.length ≤ q ∨ q + xs.length ≤ pos) :
    Holds (overwrite buf q xs) pos bs := by
  by_cases hnil : bs = []
  case pos =>
    rw [hnil]
    exact .nil _ _
  case neg =>
    have hread := readBytes_of_holds h hnil
    have hread' : readBytes (overwrite buf q xs) pos bs.length = some bs := by
      rcases hapart hnil with hle | hge
      · rw [readBytes_overwrite_of_le hq hle, hread]
      · rw [readBytes_overwrite_of_ge hq hge, hread]
    unfold readBytes at hread'
    split at hread'
    case isTrue => exact (Option.some.inj hread') ▸ List.take_prefix _ _
    case isFalse => cases hread'

namespace DataWriter

variable {p : Parameters} {env : Nat → Allocation} {writeChunk : Nat} {s s' : Step}
  {flat : List Byte}

-- What an operation adds, shortens or fills has not been submitted yet.
def BufferOp.Spares (p : Parameters) (env : Nat → Allocation) (writeChunk : Nat) (s : Step) :
    BufferOp → Prop
  | .addToVec bytes align copyReqd     => s.buf.SparesPut p env writeChunk bytes align copyReqd
  | .allocate size align               => s.buf.SparesAllocate p env writeChunk size align
  | .downsizeLastAlloc oldSize newSize =>
    newSize < oldSize → s.buf.lastSubmittedDataVIdx < s.buf.chunkV.dataV.length
  | .fill span _ bytes                 =>
    bytes ≠ [] → ∀ a ∈ s.allocs[span]?, ∀ i ∈ a.1.bufferIdx, s.buf.lastSubmittedDataVIdx ≤ i
  | .move _                            => True

def SparesAll (p : Parameters) (env : Nat → Allocation) (writeChunk : Nat) :
    Step → List BufferOp → Prop
  | _, []        => True
  | s, op :: ops => op.Spares p env writeChunk s ∧
    ∀ s', op.exec p env writeChunk s = .ok s' → SparesAll p env writeChunk s' ops

instance : (op : BufferOp) → Decidable (BufferOp.Spares p env writeChunk s op)
  | .addToVec bytes align copyReqd     =>
    inferInstanceAs (Decidable (s.buf.SparesPut p env writeChunk bytes align copyReqd))
  | .allocate size align               =>
    inferInstanceAs (Decidable (s.buf.SparesAllocate p env writeChunk size align))
  | .downsizeLastAlloc oldSize newSize =>
    inferInstanceAs (Decidable (newSize < oldSize → _ < _))
  | .fill span _ bytes                 =>
    inferInstanceAs (Decidable (bytes ≠ [] → ∀ a ∈ s.allocs[span]?, ∀ i ∈ a.1.bufferIdx, _ ≤ i))
  | .move _                            => .isTrue trivial

instance (ops : List BufferOp) : Decidable (SparesAll p env writeChunk s ops) :=
  decideAll s ops
where
  decideAll (s : Step) : (ops : List BufferOp) → Decidable (SparesAll p env writeChunk s ops)
    | []        => .isTrue trivial
    | _ :: ops =>
      have := fun s' => decideAll s' ops
      inferInstanceAs (Decidable (_ ∧ _))

-- The positions that the metadata gets, and the contents of the buffer.
structure Positions (p : Parameters) (s : Step) (flat : List Byte) : Prop where
  holding : Holding p.daos s.buf.chunkV flat
  puts    : ∀ put ∈ s.puts, Holds flat put.1 put.2
  allocs  : ∀ a ∈ s.allocs, AllocAt s.buf.chunkV.dataV a.1 a.2
  within  : ∀ a ∈ s.allocs, a.1.globalPos + a.2 ≤ flat.length
  sorted  : s.allocs.Pairwise fun a b => a.1.globalPos + a.2 ≤ b.1.globalPos
  apart   : ∀ put ∈ s.puts, put.2 ≠ [] → ∀ a ∈ s.allocs,
    put.1 + put.2.length ≤ a.1.globalPos ∨ a.1.globalPos + a.2 ≤ put.1

-- An operation keeps the positions, and what has been submitted if it spares that.
structure Moves (s s' : Step) (flat flat' : List Byte) (p : Parameters) (spares : Prop) : Prop where
  positions : Positions p s' flat'
  base      : s'.buf.baseArrayOffset = s.buf.baseArrayOffset
  submitted : spares → s.buf.Submitted flat → s'.buf.Submitted flat'

theorem Positions.put_le (h : Positions p s flat) {put : Nat × List Byte} (hput : put ∈ s.puts)
    (hne : put.2 ≠ []) : put.1 + put.2.length ≤ flat.length :=
  (h.puts put hput).length_le hne

theorem addToVec_moves (h : Positions p s flat) {bytes : List Byte} {align : Nat}
    {copyReqd : Bool}
    (hexec : (BufferOp.addToVec bytes align copyReqd).exec p env writeChunk s = .ok s') :
    ∃ flat', Moves s s' flat flat' p
      ((BufferOp.addToVec bytes align copyReqd).Spares p env writeChunk s) := by
  have ⟨⟨offset, buf⟩, hput, hexec⟩ := Outcome.bind_eq_ok.mp hexec
  cases hexec
  have ⟨hoffset, hholding, hadded⟩ := DaosChunkV.addToVec_spec h.holding hput
  refine ⟨_, ⟨hholding, ?_, fun a ha => ?_, fun a ha => ?_, h.sorted, ?_⟩, hadded.base,
    hadded.submitted⟩
  · intro put hin
    cases List.mem_append.mp hin with
    | inl hold =>
      rw [List.append_assoc]
      exact (h.puts put hold).append_right _
    | inr hnew =>
      cases List.mem_singleton.mp hnew
      rw [hoffset]
      have := (holds_self bytes).append_left (flat ++ s.buf.padBytes align)
      rwa [Nat.add_zero] at this
  · exact hadded.allocAt _ _ (h.allocs a ha)
  · have := h.within a ha
    simp only [List.length_append]
    omega
  · intro put hin hne a ha
    cases List.mem_append.mp hin with
    | inl hold => exact h.apart put hold hne a ha
    | inr hnew =>
      cases List.mem_singleton.mp hnew
      have := h.within a ha
      rw [hoffset, List.length_append]
      exact .inr (by omega)

theorem allocate_moves (h : Positions p s flat) {size align : Nat}
    (hexec : (BufferOp.allocate size align).exec p env writeChunk s = .ok s') :
    ∃ flat', Moves s s' flat flat' p ((BufferOp.allocate size align).Spares p env writeChunk s) := by
  have ⟨⟨bp, buf⟩, halloc, hexec⟩ := Outcome.bind_eq_ok.mp hexec
  cases hexec
  have ⟨pad, junk, hlen, hpos, hholding, hat, hadded⟩ := DaosChunkV.allocate_spec h.holding halloc
  rw [List.length_append] at hpos
  refine ⟨_, ⟨hholding, fun put hin => ?_, fun a ha => ?_, fun a ha => ?_, ?_, ?_⟩, hadded.base,
    hadded.submitted⟩
  · rw [List.append_assoc]
    exact (h.puts put hin).append_right _
  · cases List.mem_append.mp ha with
    | inl hold => exact hadded.allocAt _ _ (h.allocs a hold)
    | inr hnew =>
      cases List.mem_singleton.mp hnew
      exact hat
  · simp only [List.length_append]
    cases List.mem_append.mp ha with
    | inl hold =>
      have := h.within a hold
      omega
    | inr hnew =>
      cases List.mem_singleton.mp hnew
      dsimp only
      omega
  · refine List.pairwise_append.mpr ⟨h.sorted, List.pairwise_singleton _ _, fun a ha b hb => ?_⟩
    cases List.mem_singleton.mp hb
    have := h.within a ha
    dsimp only
    omega
  · intro put hin hne a ha
    cases List.mem_append.mp ha with
    | inl hold => exact h.apart put hin hne a hold
    | inr hnew =>
      cases List.mem_singleton.mp hnew
      have := h.put_le hin hne
      dsimp only
      exact .inl (by omega)

theorem take_sizes_le (k : Nat) (es : List VecEntry) :
    ((es.take k).map VecEntry.size).sum ≤ (es.map VecEntry.size).sum :=
  ((List.take_sublist k es).map VecEntry.size).sum_le_sum fun _ _ => Nat.zero_le _

-- An allocation in entries of which the last ends earlier.
theorem allocAt_downsized {init : List VecEntry} {base : Pointer} {n d size : Nat} {bp : BufferPos}
    (hat : AllocAt (init ++ [.internal base n]) bp size)
    (hle : bp.globalPos + size + d ≤ (init.map VecEntry.size).sum + n) :
    AllocAt (init ++ [.internal base (n - d)]) bp size := by
  cases hat with
  | empty index zero => exact .empty index zero
  | @entry xs ys base' m split index position within =>
    rcases List.eq_nil_or_concat ys with rfl | ⟨ys, e, rfl⟩
    · obtain ⟨rfl, heq⟩ := List.append_inj' split.symm rfl
      cases heq
      exact .entry rfl index position (by omega)
    · rw [List.concat_eq_append, ← List.cons_append, ← List.append_assoc] at split
      obtain ⟨rfl, -⟩ := List.append_inj' split rfl
      rw [List.append_assoc, List.cons_append]
      exact .entry rfl index position within

theorem downsizeLastAlloc_moves (h : Positions p s flat) {oldSize newSize : Nat}
    (hexec : (BufferOp.downsizeLastAlloc oldSize newSize).exec p env writeChunk s = .ok s') :
    ∃ flat', Moves s s' flat flat' p
      ((BufferOp.downsizeLastAlloc oldSize newSize).Spares p env writeChunk s) := by
  have ⟨⟨bp, size⟩, hlast, hexec⟩ := Outcome.bind_eq_ok.mp hexec
  rw [Option.orUndefined_eq_ok] at hlast
  dsimp only at hexec
  split at hexec
  case isFalse => cases hexec
  case isTrue hguard =>
    obtain ⟨rfl, hle, hindex, hend⟩ := hguard
    obtain ⟨allocs, hallocs⟩ := List.getLast?_eq_some_iff.mp hlast
    have hat := h.allocs (bp, size) (by simp [hallocs])
    rw [h.holding.curOffset] at hend
    -- The allocation is the end of the last entry.
    have hentry : ∃ init base n, s.buf.chunkV.dataV = init ++ [.internal base n] ∧
        size ≤ n ∧ (init.map VecEntry.size).sum + n = flat.length := by
      have hsum := h.holding.shows.length_eq
      cases hat with
      | empty index _ => rw [index] at hindex; cases hindex
      | @entry xs ys base n split index position within =>
        have hnil : ys = [] := by
          rw [hindex, Option.some.injEq, split] at index
          apply List.eq_nil_of_length_eq_zero
          simp only [List.length_append, List.length_cons] at index
          omega
        rw [hnil] at split
        refine ⟨xs, base, n, split, by omega, ?_⟩
        rw [hsum, split, List.map_append, List.sum_append]
        rfl
    obtain ⟨init, base, n, hdata, hsize, hsum⟩ := hentry
    have ⟨v, hdown, hholding, hdata', hkept⟩ :=
      downsizeLastAlloc_spec h.holding size newSize hdata (by omega)
    rw [hdown, Outcome.ok_bind] at hexec
    cases hexec
    have hlen : flat.length - (size - newSize) = bp.globalPos + newSize := by omega
    rw [hlen] at hholding
    have hdrop : s.allocs.dropLast = allocs := by rw [hallocs, List.dropLast_concat]
    have hold : ∀ a ∈ allocs, a ∈ s.allocs := fun a ha => by simp [hallocs, ha]
    have hsorted := h.sorted
    rw [hallocs, List.pairwise_append] at hsorted
    have hbefore : ∀ a ∈ allocs, a.1.globalPos + a.2 ≤ bp.globalPos :=
      fun a ha => hsorted.2.2 a ha (bp, size) List.mem_cons_self
    have htake : (flat.take (bp.globalPos + newSize)).length = bp.globalPos + newSize :=
      List.length_take_of_le (by omega)
    have hmem : ∀ a ∈ s.allocs.dropLast ++ [(bp, newSize)], a ∈ allocs ∨ a = (bp, newSize) := by
      intro a ha
      rw [hdrop] at ha
      exact (List.mem_append.mp ha).imp_right List.mem_singleton.mp
    refine ⟨_, ⟨hholding, fun put hin => ?_, fun a ha => ?_, fun a ha => ?_, ?_, ?_⟩, rfl,
      fun hspares hs => ?_⟩
    · by_cases hnil : put.2 = []
      case pos =>
        rw [hnil]
        exact .nil _ _
      case neg =>
        refine (h.puts put hin).take ?_
        have := h.put_le hin hnil
        have hpos := List.length_pos_iff.mpr hnil
        have := h.apart put hin hnil (bp, size) (by simp [hallocs])
        dsimp only at this
        omega
    · dsimp only
      rw [hdata']
      rcases hmem a ha with hin | rfl
      · have hat := h.allocs a (hold a hin)
        rw [hdata] at hat
        have := hbefore a hin
        exact allocAt_downsized hat (by omega)
      · rw [hdata] at hat
        have hat' : AllocAt (init ++ [.internal base n]) bp newSize := by
          cases hat with
          | empty index zero => exact .empty index (by omega)
          | entry split index position within =>
            exact .entry split index position (le_trans (Nat.add_le_add_left hle _) within)
        exact allocAt_downsized hat' (by dsimp only; omega)
    · rw [htake]
      rcases hmem a ha with hin | rfl
      · have := hbefore a hin
        omega
      · exact le_rfl
    · dsimp only
      rw [hdrop]
      refine List.pairwise_append.mpr ⟨hsorted.1, List.pairwise_singleton _ _, fun a ha b hb => ?_⟩
      cases List.mem_singleton.mp hb
      exact hbefore a ha
    · intro put hin hne a ha
      rcases hmem a ha with ha | rfl
      · exact h.apart put hin hne a (hold a ha)
      · have := h.apart put hin hne (bp, size) (by simp [hallocs])
        dsimp only at *
        omega
    · have hkept := hkept s.buf.lastSubmittedDataVIdx hs.index_le fun heq => by
        by_contra hlt
        have := hspares (by omega)
        omega
      refine hs.of_kept ?_ hkept ?_
      · have := hs.index_le
        rw [hdata, List.length_append] at this
        rw [hdata', List.length_append]
        exact this
      · -- What has been submitted ends in front of the allocation, or nothing changes.
        rw [List.take_take]
        congr 1
        apply Nat.min_eq_left
        by_cases hlt : newSize < size
        case pos =>
          have hin := hspares hlt
          rw [hdata, List.length_append, List.length_singleton] at hin
          have hhigh := hs.high
          rw [hdata, List.take_append_of_le_length (by omega)] at hhigh
          have := take_sizes_le s.buf.lastSubmittedDataVIdx init
          omega
        case neg =>
          have := hs.high_le h.holding.shows
          omega

theorem fill_moves (h : Positions p s flat) {span relative : Nat} {bytes : List Byte}
    (hexec : (BufferOp.fill span relative bytes).exec p env writeChunk s = .ok s') :
    ∃ flat', Moves s s' flat flat' p
      ((BufferOp.fill span relative bytes).Spares p env writeChunk s) := by
  have ⟨⟨bp, size⟩, hspan, hexec⟩ := Outcome.bind_eq_ok.mp hexec
  rw [Option.orUndefined_eq_ok] at hspan
  dsimp only at hexec
  split at hexec
  case isFalse => cases hexec
  case isTrue hle =>
    have ha : (bp, size) ∈ s.allocs := List.mem_of_getElem? hspan
    have hat := h.allocs _ ha
    have hwithin := h.within _ ha
    dsimp only at hat hwithin
    have ⟨v, hwrite, hholding, hdata, hkept⟩ := writeThrough_spec h.holding hat hle
    rw [hwrite, Outcome.ok_bind] at hexec
    cases hexec
    have hbound : bp.globalPos + relative + bytes.length ≤ flat.length := by omega
    refine ⟨_, ⟨hholding, fun put hin => ?_, fun a ha => ?_, fun a ha => ?_, h.sorted, h.apart⟩, rfl,
      fun hspares hs => ?_⟩
    · refine holds_overwrite (h.puts put hin) hbound fun hne => ?_
      have := h.apart put hin hne _ ha
      dsimp only at this
      omega
    · dsimp only
      rw [hdata]
      exact h.allocs a ha
    · rw [overwrite_length hbound]
      exact h.within a ha
    · refine hs.of_kept (hdata ▸ hs.index_le) ?_ ?_
      · exact hkept _ fun hne i hindex => hspares hne _ hspan i hindex
      · by_cases hnil : bytes = []
        case pos => rw [hnil, overwrite_nil]
        case neg =>
          have hhigh : s.buf.submittedHigh ≤ bp.globalPos := by
            cases hat with
            | empty _ zero =>
              have := List.length_pos_iff.mpr hnil
              omega
            | @entry xs _ _ _ split index position _ =>
              have hle := hspares hnil _ hspan _ index
              rw [hs.high, split, List.take_append_of_le_length hle, position]
              have := take_sizes_le s.buf.lastSubmittedDataVIdx xs
              omega
          rw [overwrite, List.append_assoc, List.take_append_of_le_length, List.take_take,
            Nat.min_eq_left (by omega)]
          rw [List.length_take]
          omega

theorem move_moves (h : Positions p s flat) {write : Nat}
    (hexec : (BufferOp.move write).exec p env writeChunk s = .ok s') :
    ∃ flat', Moves s s' flat flat' p ((BufferOp.move write).Spares p env writeChunk s) := by
  have ⟨buf, hmove, hexec⟩ := Outcome.bind_eq_ok.mp hexec
  cases hexec
  have hprogress := DaosChunkV.move_progress hmove
  refine ⟨flat, ⟨?_, h.puts, ?_, h.within, h.sorted, h.apart⟩, hprogress.baseArrayOffset,
    fun _ hs => ?_⟩
  · dsimp only
    rw [hprogress.chunkV]
    exact h.holding
  · dsimp only
    rw [hprogress.chunkV]
    exact h.allocs
  · exact hs.move hmove

theorem BufferOp.exec_moves (h : Positions p s flat) {op : BufferOp}
    (hexec : op.exec p env writeChunk s = .ok s') :
    ∃ flat', Moves s s' flat flat' p (op.Spares p env writeChunk s) := by
  cases op with
  | addToVec bytes align copyReqd => exact addToVec_moves h hexec
  | allocate size align => exact allocate_moves h hexec
  | downsizeLastAlloc oldSize newSize => exact downsizeLastAlloc_moves h hexec
  | fill span relative bytes => exact fill_moves h hexec
  | move write => exact move_moves h hexec

theorem execOps_moves (h : Positions p s flat) {ops : List BufferOp}
    (hexec : execOps p env writeChunk ops s = .ok s') :
    ∃ flat', Moves s s' flat flat' p (SparesAll p env writeChunk s ops) := by
  induction ops generalizing s flat with
  | nil =>
    cases hexec
    exact ⟨flat, h, rfl, fun _ => id⟩
  | cons op ops ih =>
    have ⟨s₁, hop, hrest⟩ := Outcome.bind_eq_ok.mp hexec
    have ⟨flat₁, hmoves⟩ := op.exec_moves h hop
    have ⟨flat', hmoves'⟩ := ih hmoves.positions hrest
    refine ⟨flat', hmoves'.positions, hmoves'.base.trans hmoves.base, fun hspares hs => ?_⟩
    exact hmoves'.submitted (hspares.2 s₁ hop) (hmoves.submitted hspares.1 hs)

-- Between steps.
structure Resting (p : Parameters) (w : DataWriter) : Prop where
  sound : ∀ buf, w.dataBuf = some buf → Sound p.daos buf.chunkV

theorem Resting.positions {w : DataWriter} (h : Resting p w) :
    Positions p { buf := w.stepBuf } [] ∧ w.stepBuf.Submitted [] ∧
      w.stepBuf.baseArrayOffset = w.dataArrayCursor := by
  have hempty : ∀ put ∈ ([] : List (Nat × List Byte)), Holds [] put.1 put.2 := by simp
  cases hbuf : w.dataBuf with
  | none =>
    have hstep : w.stepBuf = { baseArrayOffset := w.dataArrayCursor } := by
      rw [stepBuf, hbuf]
    have hholding : Holding p.daos ({} : ChunkV) [] := (Sound.empty (p := p.daos)).reset
    rw [hstep]
    exact ⟨⟨hholding, hempty, by simp, by simp, .nil, by simp⟩, ⟨le_rfl, rfl, .nil⟩, rfl⟩
  | some buf =>
    have hstep : w.stepBuf = { buf.reset with baseArrayOffset := w.dataArrayCursor } := by
      rw [stepBuf, hbuf]
    have hholding := (h.sound buf hbuf).reset
    rw [hstep]
    exact ⟨⟨hholding, hempty, by simp, by simp, .nil, by simp⟩, ⟨le_rfl, rfl, .nil⟩, rfl⟩

theorem writeData_resting {w w' : DataWriter} (h : Resting p w)
    (hwrite : w.writeData writeChunk = .ok w') : Resting p w' := by
  have ⟨buf, hbuf, hwrite⟩ := Outcome.bind_eq_ok.mp hwrite
  have ⟨buf₁, hdrain, hwrite⟩ := Outcome.bind_eq_ok.mp hwrite
  have ⟨buf₂, htail, hwrite⟩ := Outcome.bind_eq_ok.mp hwrite
  cases hwrite
  refine ⟨fun buf' hbuf' => ?_⟩
  cases hbuf'
  rw [(DaosChunkV.drain_progress htail).chunkV, (DaosChunkV.drain_progress hdrain).chunkV]
  exact h.sound buf (by simpa using hbuf)

theorem execSteps_resting {w w' : DataWriter} (h : Resting p w) {steps : List (List BufferOp)}
    (hsteps : w.execSteps p env writeChunk steps = .ok w') : Resting p w' := by
  induction steps generalizing w with
  | nil =>
    cases hsteps
    exact h
  | cons ops steps ih =>
    have ⟨⟨step, w₁⟩, hstep, hrest⟩ := Outcome.bind_eq_ok.mp hsteps
    have ⟨step', hops, hstep⟩ := Outcome.bind_eq_ok.mp hstep
    have ⟨w₂, hwrite, hstep⟩ := Outcome.bind_eq_ok.mp hstep
    cases hstep
    have ⟨_, hmoves⟩ := execOps_moves h.positions.1 hops
    refine ih (writeData_resting ⟨fun buf hbuf => ?_⟩ hwrite) hrest
    cases hbuf
    exact hmoves.positions.holding.toSound

-- The bytes come to the array once each, from `pos` on.
def Arrives (ps : List (Piece Byte)) (pos : Nat) (bytes : List Byte) : Prop :=
  ∀ (i : Nat) b, bytes[i]? = some b → covering ps (pos + i) = [b]

-- The array has what the buffer holds at the end of the step, from the start of the step on: each
-- byte from one write, and nothing else. What was put is at the position that the metadata has for
-- it, and so is what the application sees through its pointers.
structure Delivered (start : Nat) (step : Step) (ps : List (Piece Byte)) : Prop where
  whole  : ∃ flat, step.buf.chunkV.contents = some flat ∧
    flat.length = step.buf.chunkV.curOffset ∧
    ∀ pos, covering ps pos = ((⟨start, flat⟩ : Piece Byte).get? pos).toList
  puts   : ∀ put ∈ step.puts, Arrives ps (start + put.1) put.2
  allocs : ∀ a ∈ step.allocs, a.2 ≠ 0 → ∃ ptr bytes,
    step.buf.chunkV.getPtr a.1 = .ok (some ptr) ∧
    step.buf.chunkV.heap.load ptr a.2 = some bytes ∧ Arrives ps (start + a.1.globalPos) bytes

theorem arrives_of_holds {ps : List (Piece Byte)} {start pos : Nat} {bytes : List Byte}
    (hps : ∀ pos, covering ps pos = ((⟨start, flat⟩ : Piece Byte).get? pos).toList)
    (h : Holds flat pos bytes) : Arrives ps (start + pos) bytes := by
  intro i b hi
  have hflat : flat[pos + i]? = some b := by
    obtain ⟨rest, hrest⟩ := h
    rw [← List.getElem?_drop, ← hrest]
    exact List.getElem?_append_left (List.getElem?_eq_some_iff.mp hi).1 ▸ hi
  have hle : start ≤ start + pos + i := by omega
  rw [hps, Piece.get?, if_pos hle, Nat.add_assoc, Nat.add_sub_cancel_left, hflat]
  rfl

-- The pointer of an allocation shows what the buffer has at its position.
theorem AllocAt.shown {s : ChunkV} (hshows : Shows s.heap s.dataV flat) {bp : BufferPos}
    {size : Nat} (hsize : size ≠ 0) (hat : AllocAt s.dataV bp size) :
    ∃ ptr bytes, s.getPtr bp = .ok (some ptr) ∧ s.heap.load ptr size = some bytes ∧
      Holds flat bp.globalPos bytes := by
  cases hat with
  | empty _ zero => exact absurd zero hsize
  | @entry xs ys base n split index position within =>
    rw [split] at hshows
    obtain ⟨a, _, hxs, hrest, rfl⟩ := shows_append.mp hshows
    obtain ⟨b, c, hb, _, rfl⟩ := shows_cons.mp hrest
    obtain ⟨k, rfl⟩ := Nat.exists_eq_add_of_le within
    have ⟨_, hback⟩ := Heap.load_take_drop ((Nat.add_assoc _ _ _) ▸ hb)
    have ⟨hload, _⟩ := Heap.load_take_drop hback
    refine ⟨base.add bp.posInBuffer, (b.drop bp.posInBuffer).take size, ?_, hload, ?_⟩
    · rw [getPtr, index]
      simp only [split, List.getElem?_append_right le_rfl, Nat.sub_self, List.getElem?_cons_zero]
    · rw [position, ← hxs.length_eq]
      apply Holds.append_left
      apply Holds.append_right
      exact List.take_prefix _ _

variable (p env writeChunk) in
-- After any steps, one in which nothing is added to, shortened or filled after it was submitted.
theorem writeData_delivered (steps : List (List BufferOp)) (w : DataWriter) (ops : List BufferOp)
    (step : Step) (hsteps : execSteps p env writeChunk {} steps = .ok w)
    (hops : execOps p env writeChunk ops { buf := w.stepBuf } = .ok step)
    (hspares : SparesAll p env writeChunk { buf := w.stepBuf } ops) :
    ∃ w' buf,
      ({ w.beginStep with dataBuf := some step.buf } : DataWriter).writeData writeChunk = .ok w' ∧
      w'.dataBuf = some buf ∧ Delivered w.beginStep.stepStartDataPos step buf.landed ∧
      w'.dataArrayCursor = w.dataArrayCursor + step.buf.chunkV.curOffset := by
  have hempty : Resting p {} := ⟨fun _ hbuf => by cases hbuf⟩
  have ⟨hpositions, hsubmitted, hbase⟩ := (execSteps_resting hempty hsteps).positions
  have ⟨flat, hmoves⟩ := execOps_moves hpositions hops
  have hs := hmoves.submitted hspares hsubmitted
  have hbase : step.buf.baseArrayOffset = w.dataArrayCursor := hmoves.base.trans hbase
  have hholding := hmoves.positions.holding
  -- The calls of the step end, and those for the tail come behind them.
  have ⟨buf₁, hdrain, hs₁⟩ := hs.drained
  have hprogress := DaosChunkV.drain_progress hdrain
  have hshows : Shows buf₁.chunkV.heap buf₁.chunkV.dataV flat := by
    rw [hprogress.chunkV]
    exact hholding.shows
  have hsends := hs₁.sends_rest writeChunk hshows
  rw [hprogress.baseArrayOffset, hbase] at hsends
  let buf₂ : DaosChunkV := { buf₁ with
    writes := buf₁.writes ++
      arrayWrites writeChunk (w.dataArrayCursor + buf₁.submittedHigh) buf₁.unflushedTail
  }
  have ⟨buf₃, hdrain', hsends', hmoved⟩ := DaosChunkV.drain_sends (s := buf₂) hsends
  have hprogress' := DaosChunkV.drain_progress hdrain'
  have hps := (hsends'.tile hmoved).covering_eq
  refine ⟨{ w.beginStep with
    dataBuf         := some buf₃
    dataArrayCursor := w.dataArrayCursor + buf₃.chunkV.curOffset
  }, buf₃, ?_, rfl, ⟨⟨flat, ?_, hholding.curOffset.symm, hps⟩, fun put hin => ?_,
    fun a ha hne => ?_⟩, ?_⟩
  · simp only [writeData, writeTail, Option.orUndefined_some, Outcome.ok_bind, hdrain]
    have htail : w.beginStep.dataArrayCursor = w.dataArrayCursor := rfl
    rw [htail]
    change buf₂.drain >>= _ = _
    rw [hdrain']
    rfl
  · exact contents_eq_some.mpr hholding.shows
  · exact arrives_of_holds hps (hmoves.positions.puts put hin)
  · have ⟨ptr, bytes, hptr, hload, hholds⟩ :=
      AllocAt.shown hholding.shows hne (hmoves.positions.allocs a ha)
    exact ⟨ptr, bytes, hptr, hload, arrives_of_holds hps hholds⟩
  · dsimp only
    rw [hprogress'.chunkV, hprogress.chunkV]

-- Chunks of four bytes, and calls for two bytes at most.
theorem writeData_delivered_mixed :
    let p : Parameters := ⟨false, false, 1, 16, 4, by decide, by decide⟩
    let env : Nat → Allocation := fun _ => ⟨true, 0, fun _ => 0⟩
    let ops : List BufferOp := [.addToVec [1] 1 true, .allocate 2 2, .fill 0 0 [7, 8],
      .downsizeLastAlloc 2 1, .addToVec [9, 9] 1 false, .move 1, .addToVec [5] 1 true]
    ∃ step w' buf, execOps p env 2 ops { buf := ({} : DataWriter).stepBuf } = .ok step ∧
      ({ DataWriter.beginStep {} with dataBuf := some step.buf } : DataWriter).writeData 2 = .ok w' ∧
      w'.dataBuf = some buf ∧ Delivered 0 step buf.landed := by
  intro p env ops
  have hok : (execOps p env 2 ops { buf := ({} : DataWriter).stepBuf }).isOk = true := by
    decide +kernel
  cases hstep : execOps p env 2 ops { buf := ({} : DataWriter).stepBuf } with
  | error f =>
    rw [hstep] at hok
    cases hok
  | ok step =>
    have ⟨w', buf, hwrite, hbuf, hdelivered, _⟩ :=
      writeData_delivered p env 2 [] {} ops step rfl hstep (by decide +kernel)
    exact ⟨step, w', buf, rfl, hwrite, hbuf, hdelivered⟩

-- A byte that is put behind others in an entry that has been submitted does not come to the array.
theorem not_delivered_of_appended :
    let p : Parameters := ⟨false, false, 1, 16, 4, by decide, by decide⟩
    let env : Nat → Allocation := fun _ => ⟨true, 0, fun _ => 0⟩
    let ops : List BufferOp :=
      [.addToVec [1, 2, 3] 1 false, .addToVec [4, 5] 1 true, .addToVec [6] 1 true]
    ∃ step w' buf, execStep p env 0 {} ops = .ok (step, w') ∧ w'.dataBuf = some buf ∧
      step.puts = [(0, [1, 2, 3]), (3, [4, 5]), (5, [6])] ∧
      buf.landed = [⟨0, [1, 2, 3, 4, 5]⟩] ∧ ¬Delivered 0 step buf.landed := by
  intro p env ops
  have hrun : (execStep p env 0 {} ops).map (fun r => (r.1.puts, r.2.dataBuf.map (·.landed))) =
      .ok ([(0, [1, 2, 3]), (3, [4, 5]), (5, [6])], some [⟨0, [1, 2, 3, 4, 5]⟩]) := by
    decide +kernel
  cases hstep : execStep p env 0 {} ops with
  | error f =>
    rw [hstep] at hrun
    cases hrun
  | ok r =>
    rw [hstep] at hrun
    have hresult := Except.ok.inj hrun
    rw [Prod.mk.injEq, Option.map_eq_some_iff] at hresult
    have ⟨hputs, buf, hbuf, hlanded⟩ := hresult
    refine ⟨r.1, r.2, buf, rfl, hbuf, hputs, hlanded, fun h => ?_⟩
    have harrives := h.puts (5, [6]) (by simp [hputs]) 0 6 rfl
    rw [hlanded] at harrives
    revert harrives
    decide

end DataWriter

end Daos
