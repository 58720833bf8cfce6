import Adios2.Engine.BP5.Theorems.ShmProgress

-- What the shared memory of an aggregator group is for: the data of all ranks gets to the file of the
-- aggregator, each at its place, whatever the order in which the ranks go on.

namespace BP5

open Bytes FilePOSIX MPIShmChain Posix Threads

variable {g : ShmGroup} {f₀ : File} {c : Configuration Nat ShmState ShmTask}

-- The buffers that `CreateShm` gives to a group.
structure ShmGroup.Buffers (g : ShmGroup) : Prop where
  -- each rank computes the same addresses
  address   : ∀ r sdb, (g.address r sdb).offset = (g.address 0 sdb).offset
  -- they lie behind the structure, one behind the other, inside the segment
  behind    : g.structSize ≤ (g.address 0 .a).offset
  disjoint  : (g.address 0 .a).offset + g.shmSize.blockSize ≤ (g.address 0 .b).offset
  inside    : (g.address 0 .b).offset + g.shmSize.blockSize ≤ g.shmSize.totalSize
  allowed   : g.shmSize.totalSize ≤ g.maxShmSize
  blockSize : 0 < g.maxSize → 0 < g.shmSize.blockSize

-- What holds in every state of a write that begins with the file `f₀`.
structure ShmGroup.Sound (g : ShmGroup) (f₀ : File) (c : Configuration Nat ShmState ShmTask) :
    Prop where
  -- the contents are handed over in their order, and taken in this order, each once and as it was
  -- handed over, before its buffer is filled again
  released  : c.state.released <+: g.pieces
  consumed  : c.state.consumed <+: c.state.released
  alternate : c.state.released.length ≤ c.state.consumed.length + 2
  -- nothing is copied that is not there, and the token is sent by the rank that has it
  defined   : ∀ i t rest e f, c.threads i = t :: rest → t.ready g c.state →
    t.exec g e c.state = .error f → f = .outOfFuel
  -- nobody waits for ever
  goesOn    : (∀ i, c.threads i = []) ∨ ∃ ev c', Step g.program c ev c'
  -- when all is done, the data of every rank is at its place
  places    : (∀ i, c.threads i = []) → c.state.released = g.pieces ∧
    (∀ r < g.size, c.state.startDataPos r = g.offset r) ∧
    (c.state.eptr = none →
      c.state.file.file = (startingAt f₀ (some g.dataPos)).write
        ((List.range g.size).map fun r => (g.dataVec r).flatten).flatten ∧
      ∀ r < g.size, Holds c.state.file.file.content (c.state.startDataPos r) (g.dataVec r).flatten)

-- The allowed size leaves room for two buffers, and what comes last is handed over.
structure ShmGroup.RoomToCopy (g : ShmGroup) : Prop where
  fits     : 1 < g.size → Fits g.sizeofSegment g.maxSize g.maxShmSize g.alignmentSize
  endsSoon : g.EndsSoon

namespace ShmGroup

theorem dataSize_le_maxSize {r : Nat} (hr : r < g.size) : g.dataSize r ≤ g.maxSize := by
  have hfold (l : List Nat) (m : Nat) : m ≤ l.foldl (fun maxSize r => max maxSize (g.dataSize r)) m ∧
      ∀ r ∈ l, g.dataSize r ≤ l.foldl (fun maxSize r => max maxSize (g.dataSize r)) m := by
    induction l generalizing m with
    | nil => simp
    | cons r' l ih =>
      have ⟨hle, hmem⟩ := ih (max m (g.dataSize r'))
      rw [List.foldl_cons]
      refine ⟨(le_max_left _ _).trans hle, fun r hr => ?_⟩
      cases hr with
      | head => exact (le_max_right _ _).trans hle
      | tail _ hr => exact hmem r hr
  exact (hfold _ 0).right r (List.mem_range.mpr hr)

theorem RoomToCopy.size (h : g.RoomToCopy) (hsize : 1 < g.size) :
    g.shmSize.totalSize = g.structSize + 2 * g.shmSize.blockSize ∧
      g.shmSize.totalSize ≤ g.maxShmSize ∧ (0 < g.maxSize → 0 < g.shmSize.blockSize) := by
  have ⟨size, hshm, hmax, hpos⟩ := (h.fits hsize).createShm g.alignment_pos g.maxShmSize_lt
  have hshm : g.shmSize = _ := hshm
  rw [hshm]
  exact ⟨rfl, hmax, hpos⟩

theorem RoomToCopy.roomy (h : g.RoomToCopy) (hsize : 1 < g.size) : g.Roomy := by
  have ⟨htotal, hmax, hpos⟩ := h.size hsize
  have hlt := g.maxShmSize_lt
  exact {
    placed := {
      totalSize := htotal
      blockSize := fun r => by
        unfold ShmGroup.blockSize
        split
        case isTrue => rfl
        case isFalse =>
          rw [htotal]
          exact queriedBlockSize_eq (by omega) }
    room   := fun r hne => by
      refine hpos ?_
      have hr : r < g.size := by
        by_contra hge
        refine hne ?_
        rw [ShmGroup.dataVec, List.getElem?_eq_none (not_lt.mp hge)]
        rfl
      exact lt_of_lt_of_le (List.length_pos_iff.mpr hne) (dataSize_le_maxSize hr) }

theorem RoomToCopy.buffers (h : g.RoomToCopy) (hsize : 1 < g.size) : g.Buffers := by
  have placed := (h.roomy hsize).placed
  have ⟨htotal, hmax, hpos⟩ := h.size hsize
  have hblock := placed.blockSize 0
  exact {
    address   := placed.offset_eq
    behind    := le_rfl
    disjoint  := by
      simp only [ShmGroup.address, hblock]
      exact le_rfl
    inside    := placed.offset_le 0 .b
    allowed   := hmax
    blockSize := hpos }

-- The bytes of a rank, in what the ranks write one behind the other.
theorem holds_flatten {buf : List Byte} {pos n : Nat} {l : Nat → List Byte}
    (h : Holds buf pos ((List.range n).map l).flatten) {r : Nat} (hr : r < n) :
    Holds buf (pos + ((List.range r).map fun r => (l r).length).sum) (l r) := by
  induction n with
  | zero => omega
  | succ n ih =>
    rw [List.range_succ, List.map_append, List.flatten_append, holds_append] at h
    rcases (Nat.lt_succ_iff.mp hr).lt_or_eq with hlt | rfl
    · exact ih h.left hlt
    · have hlast := h.right
      rw [List.length_flatten, List.map_map] at hlast
      simpa [Function.comp_def] using hlast

end ShmGroup

theorem InvAt.zero_of_done {turn : Nat} {left : List (List Byte)} {p : ProducerPhase}
    {k : ConsumerPhase} (h : InvAt g f₀ turn left p k c) (hdone : ∀ i, c.threads i = []) :
    turn % g.size = 0 := by
  have hactive := h.active
  rw [hdone] at hactive
  generalize hts : ([] : List ShmTask) = tasks at hactive
  cases hactive with
  | aggregator hzero => exact hzero
  | joining | joined | receiving | producing | sending => cases hts

-- When all is done, everything has been handed over, and all that has bytes is in the file.
theorem InvAt.places {turn : Nat} {left : List (List Byte)} {p : ProducerPhase} {k : ConsumerPhase}
    (h : InvAt g f₀ turn left p k c) (roomy : 1 < g.size → g.Roomy) (hdone : ∀ i, c.threads i = []) :
    c.state.released = g.pieces ∧ (∀ r < g.size, c.state.startDataPos r = g.offset r) ∧
    (c.state.eptr = none →
      c.state.file.file = (startingAt f₀ (some g.dataPos)).write
        ((List.range g.size).map fun r => (g.dataVec r).flatten).flatten) := by
  have haggregator := h.aggregator
  rw [hdone] at haggregator
  generalize hts : ([] : List ShmTask) = tasks at haggregator
  cases haggregator with
  | first | launching | launched | own | consuming | waiting => cases hts
  | done hlt drained wrote =>
    have ⟨hturn, hreleased⟩ := h.released_eq (h.zero_of_done hdone) hlt
    have ⟨hlength, hflatten⟩ := ShmGroup.pieces_flatten roomy
    refine ⟨hreleased, fun r hr => ?_, fun heptr => ?_⟩
    · rcases Nat.eq_zero_or_pos r with rfl | hpos
      · exact h.start
      · refine h.started r hpos hr ?_
        rw [hturn, Nat.succ_mul]
        omega
    · have ⟨back, hback⟩ := h.shared.taken
      rw [hreleased] at hback
      have hall : c.state.consumed.flatten = g.pieces.flatten := by
        rw [← hlength, ← hback, List.flatten_append, List.length_append] at drained
        have hnil : back.flatten = [] := List.length_eq_zero_iff.mp (by omega)
        rw [← hback, List.flatten_append, hnil, List.append_nil]
      rw [wrote.file heptr, hall, hflatten]

theorem InvAt.sound {turn : Nat} {left : List (List Byte)} {p : ProducerPhase} {k : ConsumerPhase}
    (h : InvAt g f₀ turn left p k c) (room : g.RoomToCopy) : g.Sound f₀ c where
  released  := ⟨left, h.shared.pieces⟩
  consumed  := h.shared.taken
  alternate := by
    have hcount := h.shared.count
    have hle := h.shared.count_le
    have hcounted : k.uncounted ≤ 1 := by cases k <;> decide
    omega
  defined   := fun i t rest e f thread ready herror => by
    have ⟨hends, _⟩ := h.exec_goes room.roomy thread ready
    rcases hends e with ⟨x, hx⟩ | hfuel
    · rw [hx] at herror
      cases herror
    · rw [hfuel] at herror
      cases herror
      rfl
  goesOn    := by
    rcases h.canGoOn room.roomy room.endsSoon with ⟨i, t, rest, thread, ready⟩ | hdone
    · have ⟨_, x, hx⟩ := h.exec_goes room.roomy thread ready
      exact .inr ⟨_, _, .run thread ready hx⟩
    · exact .inl hdone
  places    := fun hdone => by
    have ⟨hreleased, hstart, hfile⟩ := h.places room.roomy hdone
    refine ⟨hreleased, hstart, fun heptr => ⟨hfile heptr, fun r hr => ?_⟩⟩
    have hholds := (startingAt f₀ (some g.dataPos)).write_holds
      ((List.range g.size).map fun r => (g.dataVec r).flatten).flatten
    rw [← hfile heptr] at hholds
    rw [hstart r hr]
    exact ShmGroup.holds_flatten hholds hr

-- The two buffers have a size and lie in the segment, no write goes on for ever, and in every state of a
-- write in which no vectored write is cut short, nor with asynchronous writing anything thrown, the
-- data is on its way to its place.
theorem twoLevelShm (g : ShmGroup) (file : System) (h : g.RoomToCopy) :
    (1 < g.size → g.Buffers) ∧
    (∀ c, Reaches g.program g.Undisturbed (g.start file) c → g.Sound file.file c) ∧
    ∀ run : Nat → Configuration Nat ShmState ShmTask, run 0 = g.start file →
      ¬ ∀ n, ∃ ev, g.Undisturbed (run n) ev ∧ Step g.program (run n) ev (run (n + 1)) := by
  have hkeep {c ev c'} (hinv : Inv g file.file c) (hc : g.Undisturbed c ev)
      (hstep : Step g.program c ev c') : Inv g file.file c' ∧ g.work c' < g.work c :=
    have hinv' := hinv.step h.roomy hc hstep
    ⟨hinv', hinv.work_lt hinv' hstep⟩
  refine ⟨h.buffers, fun c hreaches => ?_, fun run hstart => ?_⟩
  · have ⟨turn, left, p, k, hinv⟩ := hreaches.invariant (Inv.start g file)
      fun hinv hc hstep => (hkeep hinv hc hstep).left
    exact hinv.sound h
  · exact not_run_forever hkeep (hstart ▸ Inv.start g file)

def groupOfTwo : ShmGroup where
  data          := [[[1]], [[2], [3]]]
  dataPos       := 0
  maxShmSize    := 4294762496
  alignmentSize := 32
  sizeofSegment := 112
  asyncWrite    := false
  subStreamName := "data.0"
  data_ne       := by decide
  dataPos_lt    := by decide
  maxShmSize_lt := by decide
  alignment_pos := by decide

def emptyFile : System where
  file      := { content := [], position := 0 }
  writes    := []
  writevs   := []
  seekError := none

theorem twoLevelShm_groupOfTwo :
    groupOfTwo.Buffers ∧ groupOfTwo.Sound emptyFile.file (groupOfTwo.start emptyFile) :=
  have h := twoLevelShm groupOfTwo emptyFile ⟨by decide, by decide⟩
  ⟨h.left (by decide), h.right.left _ .refl⟩

-- A size that holds the structure, but no buffer behind it, is rolled back to two buffers without a
-- size.
theorem not_buffers_of_little_room :
    ¬ (1 < groupOfTwo.size → { groupOfTwo with maxShmSize := 128, maxShmSize_lt := by decide }.Buffers) := by
  intro h
  have hpos := (h (by decide)).blockSize (by decide)
  revert hpos
  decide

end BP5
