import Adios2.Toolkit.Derived.Theorems.GenerateCode

-- What `SemanticsPass` leaves of a stream: instructions on what is there when they run, and buffers
-- that know their last use.

namespace Derived

open BP5 Helper

section WellFormed

variable {fl : List (Bool × Bool)} {instrs done rest : List ExprInstruction} {i i' : ExprInstruction}

-- An instruction becomes another one with the same result, from some of the same operands.
theorem WellFormed.replace (hw : WellFormed fl (done ++ i :: rest))
    (hout : i'.outputBuf = i.outputBuf) (hin : ∀ b ∈ i'.inputBufs, b ∈ i.inputBufs) :
    WellFormed fl (done ++ i' :: rest) := by
  have hmem : ∀ j ∈ done ++ i' :: rest, ∃ j' ∈ done ++ i :: rest,
      j'.outputBuf = j.outputBuf ∧ ∀ b ∈ j.inputBufs, b ∈ j'.inputBufs := by
    intro j hj
    rcases List.mem_append.mp hj with hj | hj
    · exact ⟨j, List.mem_append_left _ hj, rfl, fun b hb => hb⟩
    · rcases List.mem_cons.mp hj with rfl | hj
      · exact ⟨i, by simp, hout.symm, hin⟩
      · exact ⟨j, by simp [hj], rfl, fun b hb => hb⟩
  have hdef : ∀ b, Defined fl (done ++ i :: rest) b → Defined fl (done ++ i' :: rest) b := by
    rintro b (hb | ⟨j, hj, rfl⟩)
    · exact .inl hb
    · rcases List.mem_append.mp hj with hj | hj
      · exact .inr ⟨j, List.mem_append_left _ hj, rfl⟩
      · rcases List.mem_cons.mp hj with rfl | hj
        · exact .inr ⟨i', by simp, hout⟩
        · exact .inr ⟨j, by simp [hj], rfl⟩
  refine ⟨?_, fun j hj => ?_, fun j hj b hb => ?_⟩
  · have hsorted := hw.sorted
    rw [← List.pairwise_map (f := ExprInstruction.outputBuf) (R := fun a b => a < b)] at hsorted ⊢
    simpa [hout] using hsorted
  · have ⟨j', hj', heq, _⟩ := hmem j hj
    exact heq ▸ hw.temp j' hj'
  · have ⟨j', hj', heq, hsub⟩ := hmem j hj
    have ⟨hlt, hb⟩ := hw.inputs j' hj' b (hsub b hb)
    exact ⟨heq ▸ hlt, hdef b hb⟩

-- The result of an instruction becomes a constant.
theorem WellFormed.fold (hw : WellFormed fl (done ++ i :: rest)) :
    WellFormed (fl.modify i.outputBuf fun f => (f.1, true)) (done ++ rest) := by
  have hsub : ∀ {j}, j ∈ done ++ rest → j ∈ done ++ i :: rest := by
    intro j hj
    rcases List.mem_append.mp hj with hj | hj
    · exact List.mem_append_left _ hj
    · exact List.mem_append_right _ (List.mem_cons_of_mem _ hj)
  have hne : ∀ j ∈ done ++ rest, j.outputBuf ≠ i.outputBuf := by
    intro j hj
    have hsorted := hw.sorted
    rw [List.pairwise_append, List.pairwise_cons] at hsorted
    rcases List.mem_append.mp hj with hj | hj
    · exact (hsorted.right.right j hj i List.mem_cons_self).ne
    · exact (hsorted.right.left.left j hj).ne'
  have hsettled : ∀ b, Settled fl b → Settled (fl.modify i.outputBuf fun f => (f.1, true)) b := by
    rintro b ⟨f, hf, hs⟩
    rw [Settled, List.getElem?_modify, hf]
    by_cases hb : i.outputBuf = b
    · exact ⟨(f.1, true), by simp [hb], .inr rfl⟩
    · exact ⟨f, by simp [hb], hs⟩
  have hout : Settled (fl.modify i.outputBuf fun f => (f.1, true)) i.outputBuf := by
    have htemp := hw.temp i (by simp)
    rw [Temp] at htemp
    rw [Settled, List.getElem?_modify, htemp]
    exact ⟨(false, true), by simp, .inr rfl⟩
  refine ⟨hw.sorted.sublist ?_, fun j hj => ?_, fun j hj b hb => ?_⟩
  · exact List.Sublist.append_left (List.sublist_cons_self i rest) done
  · have htemp := hw.temp j (hsub hj)
    rw [Temp] at htemp ⊢
    rw [List.getElem?_modify, htemp]
    simp [(hne j hj).symm]
  · obtain ⟨hlt, hdef⟩ := hw.inputs j (hsub hj) b hb
    refine ⟨hlt, ?_⟩
    rcases hdef with hdef | ⟨j', hj', rfl⟩
    · exact .inl (hsettled b hdef)
    · rcases List.mem_append.mp hj' with hj' | hj'
      · exact .inr ⟨j', List.mem_append_left _ hj', rfl⟩
      · rcases List.mem_cons.mp hj' with rfl | hj'
        · exact .inl hout
        · exact .inr ⟨j', List.mem_append_right _ hj', rfl⟩

end WellFormed

variable {D : Type}

theorem flags_modify_constant {f : BufferDescriptor D → BufferDescriptor D}
    (h : ∀ buf, (f buf).isInput = buf.isInput ∧ (f buf).isConstant = true)
    (buffers : List (BufferDescriptor D)) (i : Nat) :
    flags (buffers.modify i f) = (flags buffers).modify i fun f => (f.1, true) := by
  refine List.ext_getElem? fun j => ?_
  simp only [flags, List.getElem?_map, List.getElem?_modify]
  by_cases hj : i = j <;> cases buffers[j]? <;> simp [hj, h]

variable [Double D]

section Loop

variable {buffers buffers' : List (BufferDescriptor D)} {here : List ExprInstruction}
  {instr : ExprInstruction}

theorem resolveConstant_flags (buf : BufferDescriptor D) :
    (resolveConstant buf).isInput = buf.isInput ∧
      (resolveConstant buf).isConstant = buf.isConstant := by
  rw [resolveConstant]
  split <;> exact ⟨rfl, rfl⟩

theorem isSquare_mem {base : Nat} (h : isSquare buffers instr = some base) :
    base ∈ instr.inputBufs := by
  rw [isSquare] at h
  split at h
  case h_1 b e _ hin =>
    split at h
    · split at h
      · exact hin ▸ Option.some.inj h ▸ List.mem_cons_self
      · exact absurd h (by simp)
    · exact absurd h (by simp)
  case h_2 => exact absurd h (by simp)

-- The selection rule that goes with an operator and a number of operands.
def ruleOf (instr : ExprInstruction) : SelectionRule :=
  if instr.op = .add ∧ instr.inputBufs.length = 1 then .reshape else selectionRuleForOp instr.op

-- An instruction after the pass, if it is not folded.
structure Kept (instr instr' : ExprInstruction) : Prop where
  outputBuf : instr'.outputBuf = instr.outputBuf
  inputBufs : ∀ b ∈ instr'.inputBufs, b ∈ instr.inputBufs
  rule      : instr'.selRule = ruleOf instr'
  promote   : instr'.op = .promote → instr.op = .promote ∧ instr'.inputBufs = instr.inputBufs

theorem isSquare_op {base : Nat} (h : isSquare buffers instr = some base) : instr.op = .pow := by
  rw [isSquare] at h
  split at h
  case h_1 hop _ => exact hop
  case h_2 => exact absurd h (by simp)

theorem reduceStrength_spec (buffers : List (BufferDescriptor D)) (instr : ExprInstruction) :
    flags (reduceStrength buffers (selectRule instr)).1 = flags buffers ∧
      Kept instr (reduceStrength buffers (selectRule instr)).2 := by
  rw [reduceStrength]
  split
  case h_1 base hbase =>
    have hop : instr.op = .pow := isSquare_op hbase
    refine ⟨flags_modify (f := ({ · with type := typeOf buffers base })) (fun _ => ⟨rfl, rfl⟩) _ _,
      rfl, fun b hb => ?_, ?_, fun h => absurd h (by simp)⟩
    · have hb : b = base := by simpa using hb
      exact hb ▸ isSquare_mem hbase
    · simp [selectRule, ruleOf, hop, selectionRuleForOp]
  case h_2 => exact ⟨rfl, rfl, fun b hb => hb, rfl, fun h => ⟨h, rfl⟩⟩

-- Not all operands are constants.
def HasOperand (fl : List (Bool × Bool)) (instr : ExprInstruction) : Prop :=
  ∃ b ∈ instr.inputBufs, ¬Constant fl b

-- An instruction is folded to a constant, or it stays with some of its operands.
theorem semanticsInstruction_spec (h : semanticsInstruction buffers instr = .ok (buffers', here)) :
    (here = [] ∧ flags buffers' = (flags buffers).modify instr.outputBuf fun f => (f.1, true)) ∨
      ∃ instr', here = [instr'] ∧ Kept instr instr' ∧ HasOperand (flags buffers') instr' ∧
        flags buffers' = flags buffers := by
  rw [semanticsInstruction] at h
  have hres := flags_foldl_modify resolveConstant_flags instr.inputBufs buffers
  generalize instr.inputBufs.foldl (fun bufs bufID => bufs.modify bufID resolveConstant) buffers =
    resolved at h hres
  have ⟨hflags, hkept⟩ := reduceStrength_spec resolved instr
  generalize reduceStrength resolved (selectRule instr) = reduced at h hflags hkept
  rw [hres] at hflags
  obtain ⟨operands, hoperands, h⟩ := Outcome.bind_eq_ok.mp h
  split at h
  case isTrue =>
    obtain ⟨result, _, h⟩ := Outcome.bind_eq_ok.mp h
    have ⟨hb, hh⟩ := Prod.mk.inj (Except.ok.inj h)
    refine .inl ⟨hh.symm, ?_⟩
    have hconst := flags_modify_constant
      (f := ({ · with isConstant := true, constVal := result, type := reduced.2.outputType }))
      (fun _ => ⟨rfl, rfl⟩) reduced.1 reduced.2.outputBuf
    rw [hb, hflags, hkept.outputBuf] at hconst
    exact hconst
  case isFalse hall =>
    have ⟨hb, hh⟩ := Prod.mk.inj (Except.ok.inj h)
    refine .inr ⟨reduced.2, hh.symm, hkept, ?_, hb ▸ hflags⟩
    rw [Bool.not_eq_true, List.all_eq_false] at hall
    have ⟨buf, hbuf, hconst⟩ := hall
    have ⟨b, hbin, hread⟩ := Outcome.exists_of_mem_mapM hoperands hbuf
    refine ⟨b, hbin, fun ⟨f, hf, hc⟩ => hconst ?_⟩
    rw [← hb, flags, List.getElem?_map, Option.orUndefined_eq_ok.mp hread] at hf
    rwa [← Option.some.inj hf] at hc

omit [Double D] in
theorem HasOperand.fold {fl : List (Bool × Bool)} {done rest : List ExprInstruction}
    {i j : ExprInstruction} (hw : WellFormed fl (done ++ i :: rest)) (hj : j ∈ done)
    (h : HasOperand fl j) : HasOperand (fl.modify i.outputBuf fun f => (f.1, true)) j := by
  obtain ⟨b, hb, hconst⟩ := h
  have hlt := (hw.inputs j (List.mem_append_left _ hj) b hb).left
  have hsorted := (List.pairwise_append.mp hw.sorted).right.right j hj i List.mem_cons_self
  refine ⟨b, hb, fun ⟨f, hf, hc⟩ => hconst ⟨f, ?_, hc⟩⟩
  simpa [List.getElem?_modify, (hlt.trans hsorted).ne'] using hf

theorem semanticsLoop_spec {done rest rest' : List ExprInstruction}
    (hw : WellFormed (flags buffers) (done ++ rest))
    (hdone : ∀ i ∈ done, HasOperand (flags buffers) i)
    (h : semanticsLoop buffers rest = .ok (buffers', rest')) :
    WellFormed (flags buffers') (done ++ rest') ∧
      (∀ i ∈ done ++ rest', HasOperand (flags buffers') i) ∧
      ∀ i' ∈ rest', ∃ i ∈ rest, Kept i i' := by
  induction rest generalizing buffers done rest' with
  | nil =>
    have ⟨hb, hr⟩ := Prod.mk.inj (Except.ok.inj h)
    subst hb
    subst hr
    rw [List.append_nil] at hw ⊢
    exact ⟨hw, hdone, fun i hi => absurd hi List.not_mem_nil⟩
  | cons instr rest ih =>
    obtain ⟨⟨buffers₁, here⟩, hinstr, h⟩ := Outcome.bind_eq_ok.mp h
    obtain ⟨⟨buffers₂, others⟩, hrest, h⟩ := Outcome.bind_eq_ok.mp h
    have ⟨hb, hr⟩ := Prod.mk.inj (Except.ok.inj h)
    subst hb
    subst hr
    rcases semanticsInstruction_spec hinstr with
      ⟨hnil, hflags⟩ | ⟨instr', hone, hkept, hoperand, hflags⟩
    case inl =>
      subst hnil
      have ⟨hw', hall, hkept⟩ := ih (hflags ▸ hw.fold)
        (fun i hi => hflags ▸ (hdone i hi).fold hw hi) hrest
      refine ⟨hw', hall, fun i' hi' => ?_⟩
      have ⟨i, hi, hk⟩ := hkept i' hi'
      exact ⟨i, List.mem_cons_of_mem _ hi, hk⟩
    case inr =>
      subst hone
      have hw₁ : WellFormed (flags buffers₁) ((done ++ [instr']) ++ rest) := by
        rw [hflags, List.append_assoc]
        exact hw.replace hkept.outputBuf hkept.inputBufs
      have hdone₁ : ∀ i ∈ done ++ [instr'], HasOperand (flags buffers₁) i := by
        intro i hi
        rcases List.mem_append.mp hi with hi | hi
        · exact hflags ▸ hdone i hi
        · exact List.mem_singleton.mp hi ▸ hoperand
      have ⟨hw₂, hall, hkept₂⟩ := ih hw₁ hdone₁ hrest
      rw [List.append_assoc] at hw₂ hall
      refine ⟨hw₂, hall, fun i' hi' => ?_⟩
      rcases List.mem_cons.mp hi' with rfl | hi'
      · exact ⟨instr, List.mem_cons_self, hkept⟩
      · have ⟨i, hi, hk⟩ := hkept₂ i' hi'
        exact ⟨i, List.mem_cons_of_mem _ hi, hk⟩

end Loop

section Uses

variable {buffers : List (BufferDescriptor D)} {instrs : List ExprInstruction} {n : Nat}

def lastUse (buffers : List (BufferDescriptor D)) (b : Nat) : Nat :=
  (buffers[b]?).elim 0 (·.lastUse)

omit [Double D] in
theorem lastUse_modify {f : BufferDescriptor D → BufferDescriptor D} {j : Nat}
    (hf : ∀ buf, (f buf).lastUse = j) (buffers : List (BufferDescriptor D)) (i b : Nat) :
    lastUse (buffers.modify i f) b =
      if i = b ∧ b < buffers.length then j else lastUse buffers b := by
  rw [lastUse, lastUse, List.getElem?_modify]
  by_cases hb : b < buffers.length
  · by_cases hi : i = b <;> simp [hi, hb, hf]
  · simp [hb]

omit [Double D] in
theorem lastUse_foldl_modify {f : BufferDescriptor D → BufferDescriptor D} {j : Nat}
    (hf : ∀ buf, (f buf).lastUse = j) (is : List Nat) (buffers : List (BufferDescriptor D))
    (b : Nat) :
    lastUse (is.foldl (fun bufs i => bufs.modify i f) buffers) b =
      if b ∈ is ∧ b < buffers.length then j else lastUse buffers b := by
  induction is generalizing buffers with
  | nil => simp
  | cons i is ih =>
    rw [List.foldl_cons, ih, List.length_modify, lastUse_modify hf]
    grind

-- An operand is used by the instruction with a number.
def useAt (j : Nat) (buf : BufferDescriptor D) : BufferDescriptor D :=
  { buf with firstUse := if buf.firstUse > j then j else buf.firstUse, lastUse := j }

omit [Double D] in
theorem updateUses_eq (instr : ExprInstruction) (j : Nat) :
    updateUses buffers instr j =
      (instr.inputBufs.foldl (fun bufs i => bufs.modify i (useAt j)) buffers).modify
        instr.outputBuf ({ · with firstUse := j, lastUse := j }) := rfl

omit [Double D] in
theorem updateUses_flags (buffers : List (BufferDescriptor D)) (instr : ExprInstruction)
    (j : Nat) :
    flags (updateUses buffers instr j) = flags buffers := by
  rw [updateUses_eq,
    flags_modify (f := ({ · with firstUse := j, lastUse := j })) fun _ => ⟨rfl, rfl⟩]
  exact flags_foldl_modify (f := useAt j) (fun _ => ⟨rfl, rfl⟩) _ _

omit [Double D] in
theorem updateUses_lastUse (instr : ExprInstruction) (j b : Nat) :
    lastUse (updateUses buffers instr j) b =
      if (b ∈ instr.inputBufs ∨ b = instr.outputBuf) ∧ b < buffers.length then j
      else lastUse buffers b := by
  have hlen := congrArg List.length
    (flags_foldl_modify (f := useAt j) (fun _ => ⟨rfl, rfl⟩) instr.inputBufs buffers)
  rw [flags_length, flags_length] at hlen
  rw [updateUses_eq,
    lastUse_modify (f := ({ · with firstUse := j, lastUse := j })) (fun _ => rfl),
    lastUse_foldl_modify (f := useAt j) (fun _ => rfl), hlen]
  grind

omit [Double D] in
theorem useRanges_flags (buffers : List (BufferDescriptor D)) (instrs : List ExprInstruction) :
    flags (useRanges buffers instrs) = flags buffers := by
  rw [useRanges]
  generalize instrs.zipIdx = uses
  induction uses generalizing buffers with
  | nil => rfl
  | cons use uses ih => rw [List.foldl_cons, ih, updateUses_flags]

omit [Double D] in
-- A later use replaces an earlier one.
theorem useRanges_le {b : Nat} (hb : b < buffers.length) :
    (∀ k ≤ n, k ≤ lastUse buffers b → k ≤ lastUse
      ((instrs.zipIdx n).foldl (fun bufs (instr, j) => updateUses bufs instr j) buffers) b) ∧
    ∀ j i, instrs[j]? = some i → b ∈ i.inputBufs → n + j ≤ lastUse
      ((instrs.zipIdx n).foldl (fun bufs (instr, j) => updateUses bufs instr j) buffers) b := by
  induction instrs generalizing n buffers with
  | nil => exact ⟨fun k _ h => h, fun j i hi => absurd hi (by simp)⟩
  | cons instr instrs ih =>
    have hlen : b < (updateUses buffers instr n).length := by
      have hflags := congrArg List.length (updateUses_flags buffers instr n)
      rw [flags_length, flags_length] at hflags
      rwa [hflags]
    have ⟨hkeep, hrest⟩ := ih (n := n + 1) hlen
    rw [List.zipIdx_cons, List.foldl_cons]
    refine ⟨fun k hk huse => hkeep k (by omega) ?_, fun j i hi hb' => ?_⟩
    · rw [updateUses_lastUse]
      split
      · exact hk
      · exact huse
    · cases j with
      | zero =>
        rw [List.getElem?_cons_zero] at hi
        refine hkeep n (by omega) ?_
        rw [updateUses_lastUse, if_pos ⟨.inl (Option.some.inj hi ▸ hb'), hb⟩]
      | succ j =>
        have hle := hrest j i (by simpa using hi) hb'
        rwa [Nat.add_assoc, Nat.add_comm 1 j] at hle

omit [Double D] in
theorem eliminateDead_flags {outputBufID b : Nat} (h : Referenced instrs outputBufID b) :
    (flags (eliminateDead buffers instrs outputBufID))[b]? = (flags buffers)[b]? := by
  simp [flags, eliminateDead, List.getElem?_mapIdx, h]

omit [Double D] in
theorem eliminateDead_lastUse (outputBufID b : Nat) :
    lastUse (eliminateDead buffers instrs outputBufID) b = lastUse buffers b := by
  rw [lastUse, lastUse, eliminateDead, List.getElem?_mapIdx]
  cases buffers[b]? with
  | none => rfl
  | some buf =>
    rw [Option.map_some, Option.elim_some, Option.elim_some]
    split <;> rfl

end Uses

theorem WellFormed.congr {fl fl' : List (Bool × Bool)} {instrs : List ExprInstruction}
    (hw : WellFormed fl instrs)
    (h : ∀ b, (∃ i ∈ instrs, b ∈ i.inputBufs ∨ b = i.outputBuf) → fl'[b]? = fl[b]?) :
    WellFormed fl' instrs where
  sorted := hw.sorted
  temp   := fun i hi => (h i.outputBuf ⟨i, hi, .inr rfl⟩).trans (hw.temp i hi)
  inputs := fun i hi b hb => by
    have ⟨hlt, hdef⟩ := hw.inputs i hi b hb
    refine ⟨hlt, hdef.imp_left fun ⟨f, hf, hs⟩ => ⟨f, ?_, hs⟩⟩
    rw [h b ⟨i, hi, .inl hb⟩, hf]

omit [Double D] in
theorem generated_empty : Generated ({} : Context D) :=
  ⟨⟨.nil, fun _ hi => absurd hi List.not_mem_nil, fun _ hi => absurd hi List.not_mem_nil⟩,
    fun _ _ hb => absurd hb (by simp)⟩

-- What later passes and the execution rely on.
structure Analysed (cs : ExprCodeStream D) : Prop where
  wellFormed : WellFormed (flags cs.buffers) cs.instructions
  uses       : ∀ j i b, cs.instructions[j]? = some i → b ∈ i.inputBufs → j ≤ lastUse cs.buffers b
  operands   : ∀ i ∈ cs.instructions, HasOperand (flags cs.buffers) i

theorem semanticsPass_spec {cs cs' : ExprCodeStream D}
    (hgen : WellFormed (flags cs.buffers) cs.instructions) (h : semanticsPass cs = .ok cs') :
    Analysed cs' ∧ ∀ i' ∈ cs'.instructions, ∃ i ∈ cs.instructions, Kept i i' := by
  obtain ⟨⟨buffers, instrs⟩, hloop, h⟩ := Outcome.bind_eq_ok.mp h
  have ⟨hw, hoperands, hkept⟩ := semanticsLoop_spec hgen
    (fun i hi => absurd hi List.not_mem_nil) hloop
  rw [List.nil_append] at hw hoperands
  rw [← Except.ok.inj h]
  -- only what nothing refers to is changed after the loop
  have hsame : ∀ b, (∃ i ∈ instrs, b ∈ i.inputBufs ∨ b = i.outputBuf) →
      (flags (eliminateDead (useRanges buffers instrs) instrs cs.outputBufID))[b]? =
        (flags buffers)[b]? := fun b hb => by
    rw [eliminateDead_flags (.inr hb), useRanges_flags]
  refine ⟨⟨hw.congr hsame, fun j i b hi hb => ?_, fun i hi => ?_⟩, hkept⟩
  · have hlt := hw.lt_of_defined (hw.inputs i (List.mem_of_getElem? hi) b hb).right
    rw [flags_length] at hlt
    rw [eliminateDead_lastUse]
    have hle := (useRanges_le (n := 0) hlt).right j i hi hb
    rwa [Nat.zero_add] at hle
  · have ⟨b, hb, hconst⟩ := hoperands i hi
    refine ⟨b, hb, fun ⟨f, hf, hc⟩ => hconst ⟨f, ?_, hc⟩⟩
    rw [← hf, hsame b ⟨i, hi, .inl hb⟩]

theorem semanticsLoop_length {instrs instrs' : List ExprInstruction}
    {buffers buffers' : List (BufferDescriptor D)}
    (h : semanticsLoop buffers instrs = .ok (buffers', instrs')) :
    buffers'.length = buffers.length := by
  induction instrs generalizing buffers buffers' instrs' with
  | nil => exact congrArg List.length (Prod.mk.inj (Except.ok.inj h)).left.symm
  | cons instr instrs ih =>
    obtain ⟨⟨buffers₁, here⟩, hinstr, h⟩ := Outcome.bind_eq_ok.mp h
    obtain ⟨⟨buffers₂, others⟩, hrest, h⟩ := Outcome.bind_eq_ok.mp h
    rw [← (Prod.mk.inj (Except.ok.inj h)).left, ih hrest, ← flags_length, ← flags_length]
    rcases semanticsInstruction_spec hinstr with ⟨_, hflags⟩ | ⟨_, _, _, _, hflags⟩
    · rw [hflags, List.length_modify]
    · rw [hflags]

theorem semanticsPass_length {cs cs' : ExprCodeStream D} (h : semanticsPass cs = .ok cs') :
    cs'.buffers.length = cs.buffers.length ∧ cs'.outputBufID = cs.outputBufID := by
  obtain ⟨⟨buffers, instrs⟩, hloop, h⟩ := Outcome.bind_eq_ok.mp h
  rw [← Except.ok.inj h]
  refine ⟨?_, rfl⟩
  rw [eliminateDead, List.length_mapIdx, ← flags_length, useRanges_flags, flags_length]
  exact semanticsLoop_length hloop

theorem semanticsPass_analysed {root : ExprNode} {cs : ExprCodeStream D}
    (h : semanticsPass (generateCode root) = .ok cs) : Analysed cs :=
  (semanticsPass_spec (generateCodeNode_spec root generated_empty).generated.wellFormed h).left

end Derived
