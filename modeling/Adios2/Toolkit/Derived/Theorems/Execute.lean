import Adios2.Lib.Refines
import Adios2.Lib.StraightLine
import Adios2.Toolkit.Derived.Theorems.Pool

-- Execution with a place for each result: as long as no place is taken while what is in it is needed,
-- the results are those that come with memory of its own for each instruction.

namespace Derived

open BP5 Helper Refinement StraightLine

variable {D V : Type}

section Holds

variable {place : Nat → Option Nat} {m m₁ m' m₁' : Memory V} {b : Nat} {d d' : DerivedData V}

-- A result in its place, and the same one in memory of its own.
inductive Holds (place : Nat → Option Nat) (m m' : Memory V) (b : Nat) :
    DerivedData V → DerivedData V → Prop
  | mk {p p' : Nat} {start count : Dims} {type : DataType}
    (owns : OwnsAt m (place b) p)
    (lt : p' < m'.heap.next)
    (load : ∀ values, m'.heap.load p' (sizeOf count) = .ok values →
      m.heap.load p (sizeOf count) = .ok values) :
    Holds place m m' b { data := .heap p, start, count, type } { data := .heap p', start, count, type }

def NotHeap (d : DerivedData V) : Prop := ∀ p, d.data ≠ .heap p

-- Data that both executions read: an input, a constant, or a result that is held.
def Shared (place : Nat → Option Nat) (needed : Nat → Prop) (m m' : Memory V)
    (d d' : DerivedData V) : Prop :=
  (d = d' ∧ NotHeap d) ∨ ∃ b, needed b ∧ Holds place m m' b d d'

theorem Holds.frame (h : Holds place m m' b d d')
    (hframe : ∀ p, OwnsAt m (place b) p →
      OwnsAt m₁ (place b) p ∧ m₁.heap.pieces p = m.heap.pieces p)
    (hnext : m'.heap.next ≤ m₁'.heap.next)
    (hframe' : ∀ p < m'.heap.next, m₁'.heap.pieces p = m'.heap.pieces p) :
    Holds place m₁ m₁' b d d' := by
  obtain ⟨howns, hlt, hload⟩ := h
  have ⟨howns₁, hpieces⟩ := hframe _ howns
  refine ⟨howns₁, hlt.trans_le hnext, fun values hvalues => ?_⟩
  rw [Heap.load_congr hpieces]
  rw [Heap.load_congr (hframe' _ hlt)] at hvalues
  exact hload values hvalues

variable {needed : Nat → Prop}

theorem any_eq_false {α β : Type} {R : α → β → Prop} {l : List α} {l' : List β} {f : α → Bool}
    (h : List.Forall₂ R l l') (hf : ∀ a b, R a b → f a = false) : l.any f = false := by
  induction h with
  | nil => rfl
  | cons hab _ ih => rw [List.any_cons, hf _ _ hab, ih, Bool.or_false]

theorem Shared.fields (h : Shared place needed m m' d d') :
    (d.start, d.count, d.isScalar) = (d'.start, d'.count, d'.isScalar) ∧ d.type = d'.type := by
  rcases h with ⟨rfl, _⟩ | ⟨b, _, ⟨⟩⟩ <;> exact ⟨rfl, rfl⟩

theorem readData_of_notHeap (h : NotHeap d) (heap heap' : Heap V) :
    readData heap d = readData heap' d := by
  rw [readData, readData]
  cases hd : d.data with
  | caller values => rfl
  | constant value => rfl
  | heap p => exact absurd hd (h p)

theorem load_refines {h h' : Heap V} {p p' n : Nat}
    (hload : ∀ values, h'.load p' n = .ok values → h.load p n = .ok values) :
    Refines Fault.undefined Eq (h.load p n) (h'.load p' n) := by
  cases hp : h'.load p' n with
  | ok values => exact ⟨values, hload values hp, rfl⟩
  | error e =>
    refine .inl ?_
    rw [Heap.load] at hp
    split at hp
    · exact absurd hp (by simp)
    · split at hp
      · exact (Except.error.inj hp).symm
      · split at hp
        · exact absurd hp (by simp)
        · exact (Except.error.inj hp).symm

theorem Shared.readData (h : Shared place needed m m' d d') :
    Refines Fault.undefined Eq (readData m.heap d) (readData m'.heap d') := by
  rcases h with ⟨rfl, hheap⟩ | ⟨b, _, ⟨_, _, hload⟩⟩
  · rw [readData_of_notHeap hheap m.heap m'.heap]
    exact .refl (fun _ => rfl) _
  · refine (load_refines hload).bind fun values values' heq => ?_
    exact .ok (by rw [heq])

variable {k : Kernels D V}

theorem Shared.finalData (h : Shared place needed m m' d d') (outputStart outputCount : Dims) :
    Refines Fault.undefined Eq (finalData k m d outputStart outputCount)
      (finalData k m' d' outputStart outputCount) := by
  refine h.readData.bind fun b b' heq => ?_
  subst heq
  rcases h with ⟨rfl, _⟩ | ⟨_, _, ⟨⟩⟩ <;> exact .refl (fun _ => rfl) _

end Holds

section Step

variable {k : Kernels D V} {place : Nat → Option Nat} {instrs : List ExprInstruction}
  {instr : ExprInstruction} {n b : Nat} {m m' : Memory V} {d d' : DerivedData V}
  {bufData bufData' : List (Option (DerivedData V))}

-- What is read later, or has memory of its own.
def Needed (place : Nat → Option Nat) (instrs : List ExprInstruction) (n b : Nat) : Prop :=
  WrittenBefore ExprInstruction.outputBuf instrs n b ∧
    (ReadFrom ExprInstruction.inputBufs instrs n b ∨ place b = none)

structure Simulates (place : Nat → Option Nat) (instrs : List ExprInstruction) (n : Nat)
    (m : Memory V) (bufData : List (Option (DerivedData V))) (m' : Memory V)
    (bufData' : List (Option (DerivedData V))) : Prop where
  owned   : Owned m
  inRange : ∀ i ∈ instrs, i.outputBuf < bufData.length ∧ i.outputBuf < bufData'.length
  initial : ∀ b, ¬WrittenBefore ExprInstruction.outputBuf instrs n b →
    bufData[b]? = bufData'[b]? ∧ ∀ d, bufData[b]? = some (some d) → NotHeap d
  holds   : ∀ b, Needed place instrs n b → ∃ d d', bufData[b]? = some (some d) ∧
    bufData'[b]? = some (some d') ∧ Holds place m m' b d d'

-- No result goes to a place where something is that is read later.
def Free (place : Nat → Option Nat) (instrs : List ExprInstruction) : Prop :=
  ∀ n i b s, instrs[n]? = some i →
    Live ExprInstruction.inputBufs ExprInstruction.outputBuf instrs n b → place b = some s →
    place i.outputBuf ≠ some s

theorem Needed.place_ne (hfree : Free place instrs) (hi : instrs[n]? = some instr)
    (hb : Needed place instrs n b) (s : Nat) (hs : place b = some s) :
    place instr.outputBuf ≠ some s := by
  rcases hb.right with hread | hnone
  · exact hfree n instr b s hi ⟨hb.left, hread⟩ hs
  · exact absurd (hnone.symm.trans hs) (by simp)

theorem Needed.of_succ (hi : instrs[n]? = some instr) (hb : Needed place instrs (n + 1) b) :
    b = instr.outputBuf ∨ Needed place instrs n b :=
  (hb.left.succ hi).imp_right fun hw => ⟨hw, hb.right.imp_left ReadFrom.of_succ⟩

-- What an instruction reads, or what is there in the end.
theorem Simulates.shared (h : Simulates place instrs n m bufData m' bufData')
    (hb : ReadFrom ExprInstruction.inputBufs instrs n b ∨ place b = none) :
    Refines Fault.undefined (Shared place (Needed place instrs n) m m')
      ((bufData[b]?).join).orUndefined ((bufData'[b]?).join).orUndefined := by
  by_cases hw : WrittenBefore ExprInstruction.outputBuf instrs n b
  · obtain ⟨d, d', hd, hd', hholds⟩ := h.holds b ⟨hw, hb⟩
    rw [hd, hd']
    exact .ok (.inr ⟨b, ⟨hw, hb⟩, hholds⟩)
  · have ⟨heq, hheap⟩ := h.initial b hw
    rw [← heq]
    cases hd : (bufData[b]?).join with
    | none => exact .of_bad _
    | some d => exact .ok (.inl ⟨rfl, hheap d (Option.join_eq_some_iff.mp hd)⟩)

theorem Simulates.next (h : Simulates place instrs n m bufData m' bufData')
    (hi : instrs[n]? = some instr) {m₁ m₁' : Memory V} (howned : Owned m₁)
    (hframe : ∀ b, Needed place instrs n b → ∀ p, OwnsAt m (place b) p →
      OwnsAt m₁ (place b) p ∧ m₁.heap.pieces p = m.heap.pieces p)
    (hnext : m'.heap.next ≤ m₁'.heap.next)
    (hframe' : ∀ p < m'.heap.next, m₁'.heap.pieces p = m'.heap.pieces p)
    (hd : Holds place m₁ m₁' instr.outputBuf d d') :
    Simulates place instrs (n + 1) m₁ (bufData.set instr.outputBuf (some d)) m₁'
      (bufData'.set instr.outputBuf (some d')) where
  owned   := howned
  inRange := fun i hi => by
    rw [List.length_set, List.length_set]
    exact h.inRange i hi
  initial := fun b hb => by
    have hne : instr.outputBuf ≠ b := fun heq => hb (heq ▸ writtenBefore_succ hi)
    rw [List.getElem?_set_ne hne, List.getElem?_set_ne hne]
    exact h.initial b fun hw => hb (hw.mono (Nat.le_succ n))
  holds   := fun b hb => by
    have ⟨hlt, hlt'⟩ := h.inRange instr (List.mem_of_getElem? hi)
    by_cases heq : b = instr.outputBuf
    · subst heq
      exact ⟨d, d', by simp [hlt], by simp [hlt'], hd⟩
    · have hb := (hb.of_succ hi).resolve_left heq
      rw [List.getElem?_set_ne (Ne.symm heq), List.getElem?_set_ne (Ne.symm heq)]
      obtain ⟨e, e', he, he', hholds⟩ := h.holds b hb
      exact ⟨e, e', he, he', hholds.frame (hframe b hb) hnext hframe'⟩

-- The operands of an instruction are apart from its result, unless that has no memory.
theorem Shared.not_isAt {m₁ : Memory V} {bytes ptr : Nat}
    (halloc : Allocation m (place instr.outputBuf) bytes ptr m₁)
    (hplace : ∀ b, Needed place instrs n b → ∀ s, place b = some s →
      place instr.outputBuf ≠ some s)
    (h : Shared place (Needed place instrs n) m m' d d') (hptr : ptr ≠ 0) : isAt ptr d = false := by
  rcases h with ⟨rfl, hheap⟩ | ⟨b, hb, ⟨howns, _, _⟩⟩
  · rw [isAt]
    cases hd : d.data with
    | heap p => exact absurd hd (hheap p)
    | _ => rfl
  · refine decide_eq_false fun heq => hptr ?_
    exact heq ▸ (halloc.frame _ _ howns (hplace b hb)).right.right heq

-- The result is written, to its place and to memory of its own.
theorem Simulates.write (h : Simulates place instrs n m bufData m' bufData')
    (hi : instrs[n]? = some instr) {m₁ : Memory V} {bytes ptr : Nat}
    (halloc : Allocation m (place instr.outputBuf) bytes ptr m₁)
    (hplace : ∀ b, Needed place instrs n b → ∀ s, place b = some s →
      place instr.outputBuf ≠ some s)
    {inputs inputs' : List (DerivedData V)}
    (hinputs : List.Forall₂ (Shared place (Needed place instrs n) m m') inputs inputs')
    (values : List V) (start count : Dims) (type : DataType) :
    Refines Fault.undefined (fun s s' => Simulates place instrs (n + 1) s.1 s.2 s'.1 s'.2)
      (if values ≠ [] ∧ inputs.any (isAt ptr) then
        Except.error Fault.undefined
      else do
        let heap ← m₁.heap.store ptr type values
        pure ({ m₁ with heap },
          bufData.set instr.outputBuf (some { data := .heap ptr, start, count, type })))
      (if values ≠ [] ∧ inputs'.any (isAt m'.heap.next) then
        Except.error Fault.undefined
      else do
        let heap ← (m'.heap.malloc bytes).2.store m'.heap.next type values
        pure ({ m' with heap },
          bufData'.set instr.outputBuf
            (some { data := .heap m'.heap.next, start, count, type }))) := by
  have hframe : ∀ b, Needed place instrs n b → ∀ p, OwnsAt m (place b) p →
      OwnsAt m₁ (place b) p ∧ m₁.heap.pieces p = m.heap.pieces p := by
    intro b hb p hp
    obtain ⟨howns, hpieces, _⟩ := halloc.frame _ p hp (hplace b hb)
    exact ⟨howns, hpieces⟩
  have hframe' : ∀ p < m'.heap.next, (m'.heap.malloc bytes).2.pieces p = m'.heap.pieces p :=
    fun p hp => Heap.malloc_frame bytes hp.ne
  by_cases hv : values = []
  case pos =>
    subst hv
    rw [if_neg (fun h => h.left rfl), if_neg (fun h => h.left rfl), Heap.store_nil, Heap.store_nil]
    refine .ok (h.next hi halloc.owned hframe (Nat.le_succ _) hframe' ?_)
    refine ⟨halloc.here, Nat.lt_succ_self _, fun values hvalues => ?_⟩
    -- nothing was written, so nothing can be read
    rw [Heap.load_of_piece (Heap.malloc_here bytes)] at hvalues
    split at hvalues
    · next hn =>
      have hzero : sizeOf count = 0 := Nat.le_zero.mp hn
      rw [Heap.load, if_pos hzero, ← hvalues, hzero]
      rfl
    · exact absurd hvalues (by simp)
  case neg =>
    by_cases hany : inputs'.any (isAt m'.heap.next)
    case pos =>
      rw [if_pos (c := values ≠ [] ∧ inputs'.any (isAt m'.heap.next)) ⟨hv, hany⟩]
      exact .of_bad _
    case neg =>
      rw [if_neg (c := values ≠ [] ∧ inputs'.any (isAt m'.heap.next)) fun h => hany h.right]
      by_cases hfits : Heap.Fits type values bytes
      case neg =>
        rw [Heap.store_not_fits (Heap.malloc_here bytes) hv hfits]
        exact .of_bad _
      case pos =>
        have hptr : ptr ≠ 0 := fun hzero => absurd (hfits.pos hv) (halloc.null hzero ▸ Nat.lt_irrefl 0)
        have hapart : ¬inputs.any (isAt ptr) := by
          rw [any_eq_false hinputs fun d d' hd => hd.not_isAt halloc hplace hptr]
          exact Bool.false_ne_true
        obtain ⟨piece, hpiece, hroom⟩ := halloc.room hptr
        rw [if_neg fun h => hapart h.right, Heap.store_eq (Heap.malloc_here bytes) hv hfits,
          Heap.store_eq hpiece hv ⟨hfits.left, hfits.right.trans hroom⟩]
        refine .ok (h.next hi (halloc.owned.write hpiece values) ?_ (Nat.le_succ _) ?_ ?_)
        · intro b hb p hp
          obtain ⟨howns, hpieces, heq⟩ := halloc.frame _ p hp (hplace b hb)
          refine ⟨howns.write _, ?_⟩
          by_cases hpptr : p = ptr
          · exact absurd (hpptr ▸ heq hpptr) hptr
          · exact (Function.update_of_ne hpptr _ _).trans hpieces
        · intro p hp
          exact (Function.update_of_ne hp.ne _ _).trans (hframe' p hp)
        · refine ⟨halloc.here.write _, Nat.lt_succ_self _, fun values hvalues => ?_⟩
          rw [Heap.load_of_piece (Function.update_self _ _ _)] at hvalues ⊢
          exact hvalues

theorem Simulates.operands (h : Simulates place instrs n m bufData m' bufData')
    (hi : instrs[n]? = some instr) :
    Refines Fault.undefined (List.Forall₂ (Shared place (Needed place instrs n) m m'))
      (instr.inputBufs.mapM fun bufID => ((bufData[bufID]?).join).orUndefined)
      (instr.inputBufs.mapM fun bufID => ((bufData'[bufID]?).join).orUndefined) := by
  have hsame : List.Forall₂ (fun b b' => b = b' ∧ b ∈ instr.inputBufs) instr.inputBufs
      instr.inputBufs := List.forall₂_same.mpr fun b hb => ⟨rfl, hb⟩
  refine Refines.mapM hsame fun b b' ⟨heq, hb⟩ => ?_
  subst heq
  exact h.shared (.inl ⟨n, Nat.le_refl n, instr, hi, hb⟩)

theorem Shared.fields_eq {needed : Nat → Prop} {inputs inputs' : List (DerivedData V)}
    (h : List.Forall₂ (Shared place needed m m') inputs inputs') :
    inputs.map (fun d => (d.start, d.count, d.isScalar)) =
      inputs'.map (fun d => (d.start, d.count, d.isScalar)) := by
  induction h with
  | nil => rfl
  | cons hd _ ih => rw [List.map_cons, List.map_cons, hd.fields.left, ih]

-- The operands after the allocation of the result.
theorem Shared.allocated {m₁ : Memory V} {bytes ptr : Nat}
    (halloc : Allocation m (place instr.outputBuf) bytes ptr m₁)
    (hplace : ∀ b, Needed place instrs n b → ∀ s, place b = some s →
      place instr.outputBuf ≠ some s)
    (h : Shared place (Needed place instrs n) m m' d d') :
    Shared place (Needed place instrs n) m₁ { m' with heap := (m'.heap.malloc bytes).2 } d d' :=
  h.imp_right fun ⟨b, hb, hholds⟩ => ⟨b, hb, hholds.frame (fun p hp =>
    have ⟨howns, hpieces, _⟩ := halloc.frame _ p hp (hplace b hb)
    ⟨howns, hpieces⟩) (Nat.le_succ _) fun _ hp => Heap.malloc_frame bytes hp.ne⟩

theorem executeInstruction_refines (h : Simulates place instrs n m bufData m' bufData')
    (hi : instrs[n]? = some instr) (hfree : Free place instrs) :
    Refines Fault.undefined (fun s s' => Simulates place instrs (n + 1) s.1 s.2 s'.1 s'.2)
      (executeInstruction k place m bufData instr)
      (executeInstruction k (fun _ => none) m' bufData' instr) := by
  have hplace := fun b (hb : Needed place instrs n b) => hb.place_ne hfree hi
  refine (h.operands hi).bind fun inputs inputs' hinputs => ?_
  rw [Shared.fields_eq hinputs]
  refine (Refines.refl (R := Eq) (fun _ => rfl) _).bind fun dims dims' heq => ?_
  subst heq
  obtain ⟨start, count⟩ := dims
  have halloc := allocate_spec h.owned (place instr.outputBuf)
    (mul64 (sizeOf count) (elementSize instr.outputType))
  have hread : Refines Fault.undefined (List.Forall₂ Eq)
      (inputs.mapM (readData (allocate m (place instr.outputBuf)
        (mul64 (sizeOf count) (elementSize instr.outputType))).2.heap))
      (inputs'.mapM (readData (allocate m' none
        (mul64 (sizeOf count) (elementSize instr.outputType))).2.heap)) :=
    Refines.mapM hinputs fun d d' hd => (hd.allocated halloc hplace).readData
  refine hread.bind fun operands operands' heq => ?_
  rw [List.forall₂_eq_eq_eq] at heq
  subst heq
  refine (Refines.refl (R := Eq) (fun _ => rfl) _).bind fun values values' heq => ?_
  subst heq
  exact h.write hi halloc hplace hinputs values start count instr.outputType

theorem executeLoop_refines {rest : List ExprInstruction} (hrest : instrs.drop n = rest)
    (hfree : Free place instrs) (h : Simulates place instrs n m bufData m' bufData') :
    Refines Fault.undefined
      (fun s s' => Simulates place instrs (n + rest.length) s.1 s.2 s'.1 s'.2)
      (executeLoop k place m bufData rest) (executeLoop k (fun _ => none) m' bufData' rest) := by
  induction rest generalizing n m bufData m' bufData' with
  | nil => exact .ok h
  | cons instr rest ih =>
    have hi : instrs[n]? = some instr := by
      rw [← Nat.add_zero n, ← List.getElem?_drop, hrest, List.getElem?_cons_zero]
    have hdrop : instrs.drop (n + 1) = rest := by
      rw [← List.tail_drop, hrest, List.tail_cons]
    refine (executeInstruction_refines h hi hfree).bind fun s s' hs => ?_
    rw [List.length_cons, Nat.add_comm rest.length, ← Nat.add_assoc]
    exact ih hdrop hs

end Step

section Blocks

variable {k : Kernels D V} {place : Nat → Option Nat} {cs : ExprCodeStream D} {m m' : Memory V}
  {outputStart outputCount : Dims}

variable (k place) in
theorem simulates_initial (hrange : ∀ i ∈ cs.instructions, i.outputBuf < cs.buffers.length)
    (howned : Owned m) (m' : Memory V) (nameToData : String → Option (Block V)) :
    Simulates place cs.instructions 0 m (initialData k cs nameToData) m'
      (initialData k cs nameToData) where
  owned   := howned
  inRange := fun i hi => by
    rw [initialData, List.length_map]
    exact ⟨hrange i hi, hrange i hi⟩
  initial := fun b _ => by
    refine ⟨rfl, fun d hd p hp => ?_⟩
    rw [initialData, List.getElem?_map] at hd
    obtain ⟨buf, _, hd⟩ := Option.map_eq_some_iff.mp hd
    split at hd
    · obtain ⟨blk, _, rfl⟩ := Option.map_eq_some_iff.mp hd
      exact absurd hp (by simp)
    · split at hd
      · split at hd
        · exact absurd hd (by simp)
        · rw [← Option.some.inj hd] at hp
          exact absurd hp (by simp)
      · exact absurd hd (by simp)
  holds   := fun b hb => by
    obtain ⟨⟨j, hj, _⟩, _⟩ := hb
    exact absurd hj (Nat.not_lt_zero j)

theorem executeBlock_refines (hrange : ∀ i ∈ cs.instructions, i.outputBuf < cs.buffers.length)
    (hfree : Free place cs.instructions) (hout : place cs.outputBufID = none) (howned : Owned m)
    (nameToData : String → Option (Block V)) :
    Refines Fault.undefined (fun r r' => Owned r.1 ∧ r.2 = r'.2)
      (executeBlock k place cs m nameToData outputStart outputCount)
      (executeBlock k (fun _ => none) cs m' nameToData outputStart outputCount) := by
  have hstart := simulates_initial k place hrange howned m' nameToData
  refine (executeLoop_refines rfl hfree hstart).bind fun s s' hs => ?_
  refine (hs.shared (.inr hout)).bind fun d d' hd => ?_
  refine (hd.finalData outputStart outputCount).bind fun b b' heq => ?_
  exact .ok ⟨hs.owned, heq⟩

theorem executeBlocks_refines (hrange : ∀ i ∈ cs.instructions, i.outputBuf < cs.buffers.length)
    (hfree : Free place cs.instructions) (hout : place cs.outputBufID = none) (howned : Owned m)
    (blks : List (String → Option (Block V))) :
    Refines Fault.undefined Eq (executeBlocks k place cs outputStart outputCount blks m)
      (executeBlocks k (fun _ => none) cs outputStart outputCount blks m') := by
  induction blks generalizing m m' with
  | nil => exact .ok rfl
  | cons nameToData blks ih =>
    refine (executeBlock_refines hrange hfree hout howned nameToData).bind fun r r' hr => ?_
    refine (ih hr.left).bind fun bs bs' heq => ?_
    exact .ok (by rw [hr.right, heq])

end Blocks

end Derived
