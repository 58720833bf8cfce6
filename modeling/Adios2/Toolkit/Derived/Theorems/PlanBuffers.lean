import Adios2.Lib.StraightLine
import Adios2.Toolkit.Derived.Theorems.SemanticsPass

-- The slots that `PlanBuffers` gives to results: none is given away while what is in it is needed.

namespace Derived

open StraightLine

variable {D : Type}

namespace Slots

variable {s : Slots} {p : Nat}

def Taken (s : Slots) (p : Nat) : Prop := s.slotFree[p]? = some false

def Sized (s : Slots) : Prop := s.numPoolSlots = s.slotFree.length

theorem Taken.lt (h : s.Taken p) : p < s.slotFree.length := (List.getElem?_eq_some_iff.mp h).1

-- The slot that is allocated was not taken, and is none of those to be avoided.
structure Allocated (s : Slots) (avoid : List Nat) (slot : Nat) (s' : Slots) : Prop where
  sized : s'.Sized
  made  : s'.Taken slot
  taken : ∀ p, s.Taken p → s'.Taken p
  ne    : ∀ p < s.slotFree.length, s.Taken p ∨ p ∈ avoid → p ≠ slot

theorem allocSlot_spec (hs : s.Sized) (avoid : List Nat) :
    Allocated s avoid (s.allocSlot avoid).1 (s.allocSlot avoid).2 := by
  rw [allocSlot]
  split
  case h_1 slot hfind =>
    have hfree := List.find?_some hfind
    rw [decide_eq_true_eq] at hfree
    obtain ⟨hlt, _⟩ := List.getElem?_eq_some_iff.mp hfree.left
    refine ⟨by simpa [Sized] using hs, by simp [Taken, hlt], fun p hp => ?_, fun p _ hp => ?_⟩
    · rw [Taken, List.getElem?_set]
      split
      · simp_all
      · exact hp
    · rintro rfl
      rcases hp with hp | hp
      · exact absurd (hp.symm.trans hfree.left) (by simp)
      · exact hfree.right hp
  case h_2 =>
    refine ⟨by simpa [Sized] using hs, ?_, fun p hp => ?_, fun p hlt _ => hs ▸ hlt.ne⟩
    · rw [Taken, hs, List.getElem?_append_right (Nat.le_refl _)]
      simp
    · rw [Taken, List.getElem?_append_left hp.lt]
      exact hp

-- While all slots are taken, there are only new ones.
theorem allocSlot_new (h : ∀ p < s.slotFree.length, s.Taken p) :
    s.allocSlot [] =
      (s.numPoolSlots,
        { slotFree := s.slotFree ++ [false], numPoolSlots := s.numPoolSlots + 1 }) := by
  have hfind : (List.range s.slotFree.length).find? (fun i =>
      s.slotFree[i]? = some true ∧ i ∉ ([] : List Nat)) = none := by
    refine List.find?_eq_none.mpr fun p hp => ?_
    have htaken : s.slotFree[p]? = some false := h p (List.mem_range.mp hp)
    simp [htaken]
  rw [allocSlot, hfind]

theorem release_fold (inputs : List (BufferDescriptor D)) (k : Nat) (s : Slots) :
    (inputs.foldl (fun s buf => if buf.lastUse = k then s.release buf.physicalSlot else s)
        s).numPoolSlots = s.numPoolSlots ∧
      (inputs.foldl (fun s buf => if buf.lastUse = k then s.release buf.physicalSlot else s)
        s).slotFree.length = s.slotFree.length ∧
      ∀ p, s.Taken p → (∀ buf ∈ inputs, buf.lastUse = k → buf.physicalSlot ≠ p) →
        (inputs.foldl (fun s buf => if buf.lastUse = k then s.release buf.physicalSlot else s)
          s).Taken p := by
  induction inputs generalizing s with
  | nil => exact ⟨rfl, rfl, fun p hp _ => hp⟩
  | cons buf inputs ih =>
    rw [List.foldl_cons]
    have ⟨hnum, hlen, htaken⟩ :=
      ih (if buf.lastUse = k then s.release buf.physicalSlot else s)
    refine ⟨hnum.trans ?_, hlen.trans ?_, fun p hp hne => htaken p ?_ fun buf' hbuf' => ?_⟩
    · split <;> rfl
    · split <;> simp [release]
    · split
      case isTrue huse =>
        rw [Taken, release, List.getElem?_set_ne (hne buf List.mem_cons_self huse)]
        exact hp
      case isFalse => exact hp
    · exact hne buf' (List.mem_cons_of_mem _ hbuf')

end Slots

section Buffers

variable {buffers : List (BufferDescriptor D)} {b : Nat}

def slotOf (buffers : List (BufferDescriptor D)) (b : Nat) : Nat :=
  (buffers[b]?).elim 0 (·.physicalSlot)

theorem slotOf_modify {out slot : Nat} (hout : out < buffers.length) (b : Nat) :
    slotOf (buffers.modify out ({ · with physicalSlot := slot })) b =
      if b = out then slot else slotOf buffers b := by
  rw [slotOf, slotOf, List.getElem?_modify]
  by_cases hb : b = out
  · simp [hb, hout]
  · simp [hb, Ne.symm hb]

theorem flags_modify_slot (buffers : List (BufferDescriptor D)) (out slot : Nat) :
    flags (buffers.modify out ({ · with physicalSlot := slot })) = flags buffers :=
  flags_modify (f := ({ · with physicalSlot := slot })) (fun _ => ⟨rfl, rfl⟩) buffers out

theorem lastUse_modify_slot (buffers : List (BufferDescriptor D)) (out slot b : Nat) :
    lastUse (buffers.modify out ({ · with physicalSlot := slot })) b = lastUse buffers b := by
  rw [lastUse, lastUse, List.getElem?_modify]
  cases buffers[b]? with
  | none => rfl
  | some buf => by_cases hb : out = b <;> simp [hb]

theorem mem_tempInputs {instr : ExprInstruction} {buf : BufferDescriptor D} :
    buf ∈ tempInputs buffers instr ↔
      ∃ b ∈ instr.inputBufs, buffers[b]? = some buf ∧ Temp (flags buffers) b := by
  rw [tempInputs, List.mem_filterMap]
  refine exists_congr fun b => and_congr_right fun _ => ?_
  cases hbuf : buffers[b]? with
  | none => simp
  | some buf' =>
    simp only [Temp, flags, List.getElem?_map, hbuf, Option.map_some, Option.some.injEq]
    constructor
    · intro h
      split at h
      · exact Option.some.inj h ▸ ⟨rfl, by simp_all⟩
      · exact absurd h (by simp)
    · rintro ⟨rfl, htemp⟩
      obtain ⟨hi, hc⟩ := Prod.mk.inj htemp
      simp [hi, hc]

end Buffers

section Constants

theorem Constant.cons {f : Bool × Bool} {fl : List (Bool × Bool)} {b : Nat} :
    Constant (f :: fl) (b + 1) ↔ Constant fl b := by simp [Constant]

theorem slotOf_cons (buf : BufferDescriptor D) (bufs : List (BufferDescriptor D)) (b : Nat) :
    slotOf (buf :: bufs) (b + 1) = slotOf bufs b := by simp [slotOf]

-- Constants have slots behind those that were there, each one of its own.
structure ConstantsPlanned (bufs : List (BufferDescriptor D)) (s : Slots)
    (bufs' : List (BufferDescriptor D)) (s' : Slots) : Prop where
  flags : flags bufs' = flags bufs
  uses  : ∀ b, lastUse bufs' b = lastUse bufs b
  sized : s'.Sized
  taken : ∀ p < s'.slotFree.length, s'.Taken p
  le    : s.slotFree.length ≤ s'.slotFree.length
  slot  : ∀ b, Constant (Derived.flags bufs) b →
    s.slotFree.length ≤ slotOf bufs' b ∧ slotOf bufs' b < s'.slotFree.length
  apart : ∀ b b', Constant (Derived.flags bufs) b → Constant (Derived.flags bufs) b' → b ≠ b' →
    slotOf bufs' b ≠ slotOf bufs' b'

theorem lastUse_cons {buf buf' : BufferDescriptor D} {bufs bufs' : List (BufferDescriptor D)}
    (hbuf : buf'.lastUse = buf.lastUse) (h : ∀ b, lastUse bufs' b = lastUse bufs b) (b : Nat) :
    lastUse (buf' :: bufs') b = lastUse (buf :: bufs) b := by
  cases b with
  | zero => exact hbuf
  | succ b => exact h b

theorem planConstants_spec (bufs : List (BufferDescriptor D)) {s : Slots} (hs : s.Sized)
    (htaken : ∀ p < s.slotFree.length, s.Taken p) :
    ConstantsPlanned bufs s (planConstants bufs s).1 (planConstants bufs s).2 := by
  induction bufs generalizing s with
  | nil =>
    have hnone : ∀ b, ¬Constant (flags ([] : List (BufferDescriptor D))) b := fun b ⟨f, hf, _⟩ =>
      absurd hf (by simp [flags])
    exact ⟨rfl, fun _ => rfl, hs, htaken, Nat.le_refl _, fun b hb => absurd hb (hnone b),
      fun b _ hb => absurd hb (hnone b)⟩
  | cons buf bufs ih =>
    rw [planConstants]
    split
    case isTrue hconst =>
      rw [Slots.allocSlot_new htaken]
      have hsized : Slots.Sized ⟨s.slotFree ++ [false], s.numPoolSlots + 1⟩ := by
        simpa [Slots.Sized] using hs
      have hall : ∀ p < (s.slotFree ++ [false]).length,
          Slots.Taken ⟨s.slotFree ++ [false], s.numPoolSlots + 1⟩ p := by
        intro p hp
        rw [List.length_append, List.length_singleton] at hp
        rcases Nat.lt_succ_iff_lt_or_eq.mp hp with hp | rfl
        · rw [Slots.Taken, List.getElem?_append_left hp]
          exact htaken p hp
        · simp [Slots.Taken]
      have hrec := ih hsized hall
      have hle := hrec.le
      rw [List.length_append, List.length_singleton] at hle
      -- the slots of the further constants come behind this one
      have hlater : ∀ b, Constant (flags bufs) b →
          s.numPoolSlots < slotOf (planConstants bufs
            { slotFree := s.slotFree ++ [false], numPoolSlots := s.numPoolSlots + 1 }).1 b := by
        intro b hb
        have hslot := (hrec.slot b hb).left
        rw [List.length_append, List.length_singleton, ← hs] at hslot
        exact hslot
      refine ⟨?_, lastUse_cons rfl hrec.uses, hrec.sized, hrec.taken,
        Nat.le_of_succ_le hle, fun b hb => ?_,
        fun b b' hb hb' hne => ?_⟩
      · simpa [flags] using hrec.flags
      · cases b with
        | zero =>
          have hnum : s.numPoolSlots = s.slotFree.length := hs
          exact ⟨hnum.ge, hnum.trans_lt hle⟩
        | succ b =>
          rw [slotOf_cons]
          obtain ⟨hge, hlt⟩ := hrec.slot b (Constant.cons.mp hb)
          rw [List.length_append] at hge
          exact ⟨Nat.le_of_add_right_le hge, hlt⟩
      · cases b with
        | zero =>
          cases b' with
          | zero => exact absurd rfl hne
          | succ b' => exact (hlater b' (Constant.cons.mp hb')).ne
        | succ b =>
          cases b' with
          | zero => exact (hlater b (Constant.cons.mp hb)).ne'
          | succ b' =>
            rw [slotOf_cons, slotOf_cons]
            exact hrec.apart b b' (Constant.cons.mp hb) (Constant.cons.mp hb') (by simpa using hne)
    case isFalse hconst =>
      have hrec := ih hs htaken
      have hzero : ¬Constant (flags (buf :: bufs)) 0 := by
        rintro ⟨f, hf, hc⟩
        simp only [flags, List.map_cons, List.getElem?_cons_zero] at hf
        rw [← Option.some.inj hf] at hc
        exact hconst hc
      refine ⟨?_, lastUse_cons rfl hrec.uses, hrec.sized, hrec.taken, hrec.le, fun b hb => ?_,
        fun b b' hb hb' hne => ?_⟩
      · simpa [flags] using hrec.flags
      · cases b with
        | zero => exact absurd hb hzero
        | succ b => exact hrec.slot b (Constant.cons.mp hb)
      · cases b with
        | zero => exact absurd hb hzero
        | succ b =>
          cases b' with
          | zero => exact absurd hb' hzero
          | succ b' =>
            exact hrec.apart b b' (Constant.cons.mp hb) (Constant.cons.mp hb') (by simpa using hne)

end Constants

section Results

variable {instrs : List ExprInstruction} {instr : ExprInstruction} {fl : List (Bool × Bool)}
  {buffers : List (BufferDescriptor D)} {s : Slots} {k j b : Nat}

-- What has a value that is read later, and the constants.
def Held (fl : List (Bool × Bool)) (instrs : List ExprInstruction) (k b : Nat) : Prop :=
  Constant fl b ∨ Live ExprInstruction.inputBufs ExprInstruction.outputBuf instrs k b

-- Up to an instruction: the slots of what is held are taken and apart, and were not given away.
structure Planned (instrs : List ExprInstruction) (k : Nat) (buffers : List (BufferDescriptor D))
    (s : Slots) : Prop where
  sized : s.Sized
  taken : ∀ b, Held (flags buffers) instrs k b → s.Taken (slotOf buffers b)
  apart : ∀ b b', Held (flags buffers) instrs k b → Held (flags buffers) instrs k b' → b ≠ b' →
    slotOf buffers b ≠ slotOf buffers b'
  kept  : ∀ j < k, ∀ i b, instrs[j]? = some i → Held (flags buffers) instrs j b →
    slotOf buffers b ≠ slotOf buffers i.outputBuf

theorem WellFormed.lt_of_written (hw : WellFormed fl instrs) (hi : instrs[k]? = some instr)
    (h : WrittenBefore ExprInstruction.outputBuf instrs k b) : b < instr.outputBuf := by
  obtain ⟨j, hj, i, hij, rfl⟩ := h
  have ⟨hlt, heq⟩ := List.getElem?_eq_some_iff.mp hij
  have ⟨hlt', heq'⟩ := List.getElem?_eq_some_iff.mp hi
  rw [← heq, ← heq']
  exact List.pairwise_iff_getElem.mp hw.sorted j k hlt hlt' hj

theorem WellFormed.held_ne (hw : WellFormed fl instrs) (hi : instrs[k]? = some instr) (hj : j ≤ k)
    (h : Held fl instrs j b) : b ≠ instr.outputBuf := by
  rcases h with hconst | ⟨⟨j', hj', h⟩, _⟩
  · rintro rfl
    exact (hw.temp instr (List.mem_of_getElem? hi)).not_constant hconst
  · exact (hw.lt_of_written hi ⟨j', hj'.trans_le hj, h⟩).ne

-- A result that is read was written before.
theorem WellFormed.live_of_read (hw : WellFormed fl instrs) (hi : instrs[k]? = some instr)
    (hb : b ∈ instr.inputBufs) (htemp : Temp fl b) :
    Live ExprInstruction.inputBufs ExprInstruction.outputBuf instrs k b := by
  refine ⟨?_, k, Nat.le_refl k, instr, hi, hb⟩
  have ⟨hlt, hdef⟩ := hw.inputs instr (List.mem_of_getElem? hi) b hb
  rcases hdef with hset | ⟨i, himem, rfl⟩
  · exact absurd hset htemp.not_settled
  · obtain ⟨j, hj⟩ := List.mem_iff_getElem?.mp himem
    refine ⟨j, Nat.lt_of_not_le fun hle => ?_, i, hj, rfl⟩
    rcases Nat.lt_or_eq_of_le hle with hkj | rfl
    · exact absurd (hw.lt_of_written hj ⟨k, hkj, instr, hi, rfl⟩) (by omega)
    · rw [hi] at hj
      exact absurd (Option.some.inj hj ▸ hlt) (Nat.lt_irrefl _)

theorem Held.of_succ (hi : instrs[k]? = some instr) (h : Held fl instrs (k + 1) b) :
    b = instr.outputBuf ∨ Held fl instrs k b :=
  h.elim (fun hc => .inr (.inl hc)) fun hl => (hl.of_succ hi).imp_right .inr

-- The slots after the operands with their last use are given up.
def releasedSlots (buffers : List (BufferDescriptor D)) (s : Slots) (instr : ExprInstruction)
    (k : Nat) : Slots :=
  (tempInputs buffers instr).foldl
    (fun s buf => if buf.lastUse = k then s.release buf.physicalSlot else s) s

def inputSlots (buffers : List (BufferDescriptor D)) (instr : ExprInstruction) : List Nat :=
  (tempInputs buffers instr).map (·.physicalSlot)

theorem planInstruction_eq (h : Temp (flags buffers) instr.outputBuf) :
    planInstruction buffers s instr k =
      (buffers.modify instr.outputBuf ({ · with
        physicalSlot :=
          ((releasedSlots buffers s instr k).allocSlot (inputSlots buffers instr)).1 }),
        ((releasedSlots buffers s instr k).allocSlot (inputSlots buffers instr)).2) := by
  obtain ⟨outDesc, hout, hflags⟩ : ∃ outDesc, buffers[instr.outputBuf]? = some outDesc ∧
      (outDesc.isInput, outDesc.isConstant) = (false, false) := by
    rw [Temp, flags, List.getElem?_map] at h
    simpa using h
  obtain ⟨hinput, hconst⟩ := Prod.mk.inj hflags
  rw [planInstruction, hout]
  simp only [hinput, hconst, Bool.false_eq_true, or_self, if_false]
  rfl

theorem slotOf_mem_inputSlots (hb : b ∈ instr.inputBufs) (htemp : Temp (flags buffers) b) :
    slotOf buffers b ∈ inputSlots buffers instr := by
  have hlt := htemp.lt
  rw [flags_length] at hlt
  refine List.mem_map.mpr ⟨buffers[b], mem_tempInputs.mpr ⟨b, hb, ?_, htemp⟩, ?_⟩ <;>
    simp [slotOf, hlt]

variable (hw : WellFormed (flags buffers) instrs) (hi : instrs[k]? = some instr)
include hw hi

-- The slot of what is not an operand at its last use is still taken.
theorem Planned.taken_released (h : Planned instrs k buffers s)
    (hb : Held (flags buffers) instrs k b)
    (hne : ∀ buf, b ∈ instr.inputBufs → buffers[b]? = some buf → Temp (flags buffers) b →
      buf.lastUse ≠ k) : (releasedSlots buffers s instr k).Taken (slotOf buffers b) := by
  refine (Slots.release_fold (tempInputs buffers instr) k s).right.right _ (h.taken b hb)
    fun buf hbuf huse => ?_
  have ⟨b', hb', hbuf', htemp⟩ := mem_tempInputs.mp hbuf
  have hslot : buf.physicalSlot = slotOf buffers b' := by simp [slotOf, hbuf']
  rw [hslot]
  refine h.apart b' b (.inr (hw.live_of_read hi hb' htemp)) hb ?_
  rintro rfl
  exact hne buf hb' hbuf' htemp huse

theorem Planned.step (huses : ∀ j i b, instrs[j]? = some i → b ∈ i.inputBufs →
    j ≤ lastUse buffers b) (h : Planned instrs k buffers s) :
    Planned instrs (k + 1) (planInstruction buffers s instr k).1
      (planInstruction buffers s instr k).2 := by
  have htemp := hw.temp instr (List.mem_of_getElem? hi)
  have hlt := htemp.lt
  rw [flags_length] at hlt
  rw [planInstruction_eq htemp]
  have ⟨hnum, hlen, _⟩ := Slots.release_fold (tempInputs buffers instr) k s
  have hsized : (releasedSlots buffers s instr k).Sized := hnum.trans (h.sized.trans hlen.symm)
  have ⟨hs', hmade, htaken, havoid⟩ := Slots.allocSlot_spec hsized (inputSlots buffers instr)
  generalize (releasedSlots buffers s instr k).allocSlot (inputSlots buffers instr) = alloc at *
  -- the new slot is none of what is held
  have hfresh : ∀ b, Held (flags buffers) instrs k b → slotOf buffers b ≠ alloc.1 := by
    intro b hb
    have hslot : slotOf buffers b < (releasedSlots buffers s instr k).slotFree.length :=
      hlen.symm ▸ (h.taken b hb).lt
    refine havoid _ hslot ?_
    by_cases hread : b ∈ instr.inputBufs ∧ Temp (flags buffers) b
    · exact .inr (slotOf_mem_inputSlots hread.left hread.right)
    · exact .inl (h.taken_released hw hi hb fun _ hb' _ htemp' => absurd ⟨hb', htemp'⟩ hread)
  -- what is held afterwards was not given up
  have hstill : ∀ b, Held (flags buffers) instrs (k + 1) b → b ≠ instr.outputBuf →
      alloc.2.Taken (slotOf buffers b) := by
    intro b hb hne
    have hbefore := (hb.of_succ hi).resolve_left hne
    refine htaken _ (h.taken_released hw hi hbefore fun buf _ hbuf htemp' huse => ?_)
    rcases hb with hconst | ⟨_, j, hj, i, hij, hread⟩
    · exact htemp'.not_constant hconst
    · have hle := huses j i b hij hread
      simp only [lastUse, hbuf, Option.elim_some] at hle
      omega
  have hflags := flags_modify_slot buffers instr.outputBuf alloc.1
  constructor
  case sized => exact hs'
  case taken =>
    intro b hb
    rw [hflags] at hb
    rw [slotOf_modify hlt]
    split
    case isTrue => exact hmade
    case isFalse hne => exact hstill b hb hne
  case apart =>
    intro b b' hb hb' hne
    rw [hflags] at hb hb'
    rw [slotOf_modify hlt, slotOf_modify hlt]
    split
    case isTrue hout =>
      rw [if_neg (hout ▸ hne.symm)]
      exact (hfresh b' ((hb'.of_succ hi).resolve_left (hout ▸ hne.symm))).symm
    case isFalse hout =>
      have hb := (hb.of_succ hi).resolve_left hout
      split
      case isTrue => exact hfresh b hb
      case isFalse hout' =>
        exact h.apart b b' hb ((hb'.of_succ hi).resolve_left hout') hne
  case kept =>
    intro j hj i b hij hb
    rw [hflags] at hb
    rw [slotOf_modify hlt, slotOf_modify hlt, if_neg (hw.held_ne hi (Nat.le_of_lt_succ hj) hb)]
    rcases Nat.lt_succ_iff_lt_or_eq.mp hj with hjk | rfl
    · rw [if_neg (hw.lt_of_written hi ⟨j, hjk, i, hij, rfl⟩).ne]
      exact h.kept j hjk i b hij hb
    · rw [hi] at hij
      rw [← Option.some.inj hij, if_pos rfl]
      exact hfresh b hb

end Results

section Plan

variable {instrs rest : List ExprInstruction} {buffers : List (BufferDescriptor D)} {s : Slots}
  {k : Nat}

theorem planLoop_planned (hw : WellFormed (flags buffers) instrs)
    (huses : ∀ j i b, instrs[j]? = some i → b ∈ i.inputBufs → j ≤ lastUse buffers b)
    (hrest : instrs.drop k = rest) (h : Planned instrs k buffers s) :
    flags (planLoop rest k buffers s).1 = flags buffers ∧
      Planned instrs (k + rest.length) (planLoop rest k buffers s).1
        (planLoop rest k buffers s).2 := by
  induction rest generalizing buffers s k with
  | nil => exact ⟨rfl, h⟩
  | cons instr rest ih =>
    have hi : instrs[k]? = some instr := by
      rw [← Nat.add_zero k, ← List.getElem?_drop, hrest, List.getElem?_cons_zero]
    have hdrop : instrs.drop (k + 1) = rest := by
      rw [← List.tail_drop, hrest, List.tail_cons]
    have hstep := h.step hw hi huses
    have ⟨hflags, huse⟩ : flags (planInstruction buffers s instr k).1 = flags buffers ∧
        ∀ b, lastUse (planInstruction buffers s instr k).1 b = lastUse buffers b := by
      rw [planInstruction_eq (hw.temp instr (List.mem_of_getElem? hi))]
      exact ⟨flags_modify_slot buffers _ _, lastUse_modify_slot buffers _ _⟩
    have ⟨hfl, hplan⟩ := ih (hflags ▸ hw) (fun j i b hij hb => huse b ▸ huses j i b hij hb) hdrop
      hstep
    refine ⟨hfl.trans hflags, ?_⟩
    rw [List.length_cons, Nat.add_comm rest.length, ← Nat.add_assoc]
    exact hplan

theorem planBuffers_planned {cs : ExprCodeStream D} (h : Analysed cs) :
    flags (planBuffers cs).buffers = flags cs.buffers ∧
      ∃ s, Planned cs.instructions cs.instructions.length (planBuffers cs).buffers s := by
  have hplan := planConstants_spec cs.buffers (s := {}) rfl (fun p hp => absurd hp (by simp))
  -- before the first instruction only the constants are held
  have hconst : ∀ b, Held (flags (planConstants cs.buffers {}).1) cs.instructions 0 b →
      Constant (flags cs.buffers) b := fun b hb =>
    hb.elim (hplan.flags ▸ ·) fun hl => absurd hl not_live_zero
  have hstart : Planned cs.instructions 0 (planConstants cs.buffers {}).1
      (planConstants cs.buffers {}).2 :=
    ⟨hplan.sized, fun b hb => hplan.taken _ (hplan.slot b (hconst b hb)).right,
      fun b b' hb hb' => hplan.apart b b' (hconst b hb) (hconst b' hb'),
      fun j hj => absurd hj (Nat.not_lt_zero j)⟩
  have ⟨hflags, hdone⟩ := planLoop_planned (hplan.flags ▸ h.wellFormed)
    (fun j i b hi hb => hplan.uses b ▸ h.uses j i b hi hb) rfl hstart
  rw [Nat.zero_add] at hdone
  exact ⟨hflags.trans hplan.flags, _, hdone⟩

end Plan

end Derived
