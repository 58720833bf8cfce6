import Adios2.Toolkit.Derived.Theorems.PlanBuffers
import Adios2.Toolkit.Derived.Theorems.Execute

-- Results share slots of the pool, and none is overwritten while it is needed: execution with the
-- slots of `PlanBuffers` gives what execution with memory of its own for each instruction gives.

namespace Derived

open BP5 Helper Refinement StraightLine

variable {D V : Type}

theorem Planned.free {cs : ExprCodeStream D} {s : Slots}
    (h : Planned cs.instructions cs.instructions.length cs.buffers s) :
    Free (outputSlot cs) cs.instructions := by
  intro n i b slot hi hlive hb hout
  have hlt := (List.getElem?_eq_some_iff.mp hi).1
  refine h.kept n hlt i b hi (.inr hlive) ?_
  rw [outputSlot] at hb hout
  split at hb
  · exact absurd hb (by simp)
  · split at hout
    · exact absurd hout (by simp)
    · exact (Option.some.inj hb).trans (Option.some.inj hout).symm

theorem planBuffers_execute {cs : ExprCodeStream D} (h : Analysed cs) (k : Kernels D V)
    (blks : List (String → Option (Block V))) (outputStart outputCount : Dims) :
    Refines Fault.undefined Eq (execute k (planBuffers cs) blks outputStart outputCount)
      (executePrivately k (planBuffers cs) blks outputStart outputCount) := by
  have ⟨hflags, s, hplan⟩ := planBuffers_planned h
  refine executeBlocks_refines (fun i hi => ?_) hplan.free (by simp [outputSlot]) owned_empty blks
  have hlt := (h.wellFormed.temp i hi).lt
  rwa [← hflags, flags_length] at hlt

variable [Double D]

-- The slot of a result is none of a result that is still to be read, or of a constant.
theorem bufferSlots (root : ExprNode) (cs : ExprCodeStream D)
    (h : semanticsPass (generateCode root) = .ok cs) :
    (∀ k instr b, (planBuffers cs).instructions[k]? = some instr →
      Live ExprInstruction.inputBufs ExprInstruction.outputBuf (planBuffers cs).instructions k b →
      slotOf (planBuffers cs).buffers instr.outputBuf ≠ slotOf (planBuffers cs).buffers b) ∧
    (∀ c b, Constant (flags (planBuffers cs).buffers) c → b ≠ c →
      (Constant (flags (planBuffers cs).buffers) b ∨
        ∃ instr ∈ (planBuffers cs).instructions, instr.outputBuf = b) →
      slotOf (planBuffers cs).buffers c ≠ slotOf (planBuffers cs).buffers b) ∧
    ∀ (V : Type) (k : Kernels D V) (blks : List (String → Option (Block V)))
      (outputStart outputCount : Dims),
      executePrivately k (planBuffers cs) blks outputStart outputCount ≠ .error .undefined →
      execute k (planBuffers cs) blks outputStart outputCount =
        executePrivately k (planBuffers cs) blks outputStart outputCount := by
  have hanalysed := semanticsPass_analysed h
  have ⟨_, s, hplan⟩ := planBuffers_planned hanalysed
  refine ⟨fun k instr b hi hlive => ?_, fun c b hc hne hb => ?_,
    fun V k blks outputStart outputCount => ?_⟩
  · have hlt := (List.getElem?_eq_some_iff.mp hi).1
    exact (hplan.kept k hlt instr b hi (.inr hlive)).symm
  · rcases hb with hb | ⟨instr, hinstr, rfl⟩
    · exact hplan.apart c b (.inl hc) (.inl hb) hne.symm
    · obtain ⟨k, hk⟩ := List.mem_iff_getElem?.mp hinstr
      have hlt := (List.getElem?_eq_some_iff.mp hk).1
      exact hplan.kept k hlt instr c hk (.inl hc)
  · exact refines_eq_iff.mp (planBuffers_execute hanalysed k blks outputStart outputCount)

section Small

-- Integers in the place of floating-point numbers.
instance integers : Double Int where
  zero    := 0
  ofText  := fun _ => 3
  intText := fun _ => 3
  toText  := fun _ => ""
  ofInt   := id
  toInt   := id
  isTwo   := (· = 2)
  add     := (· + ·)
  sub     := (· - ·)
  mul     := (· * ·)
  div     := (· / ·)
  pow     := fun a _ => a
  neg     := (- ·)
  sqrt    := id
  sin     := id
  cos     := id
  tan     := id
  asin    := id
  acos    := id
  atan    := id

-- The sum of `-(x*x)` and `3*x`.
def smallTree : ExprNode :=
  .op .add [.op .negate [.op .mult [.var "x" .double, .var "x" .double] .double] .double,
    .op .mult [.const "3" .double, .var "x" .double] .double] .double

def smallStream : ExprCodeStream Int :=
  match semanticsPass (generateCode smallTree) with
  | .ok cs   => cs
  | .error _ => {}

def smallKernels : Kernels Int Int where
  compute := fun op blocks _ _ =>
    match op, blocks with
    | .negate, [a] => pure (a.values.map (- ·))
    | .add, [a, b] => pure (List.zipWith (· + ·) a.values b.values)
    | .mult, [a, b] =>
      pure (if a.isScalar then b.values.map (a.values.headD 0 * ·)
        else List.zipWith (· * ·) a.values b.values)
    | _, _         => .error .undefined
  ndCopy  := fun b _ _ => pure b.values
  scalar  := fun c _ => c.doubleVal

def smallBlock (values : List Int) : String → Option (Block Int) :=
  fun _ => some { values, start := [0], count := [values.length], type := .double }

theorem bufferSlots_small :
    slotOf (planBuffers smallStream).buffers 4 ≠ slotOf (planBuffers smallStream).buffers 2 ∧
      slotOf (planBuffers smallStream).buffers 3 ≠ slotOf (planBuffers smallStream).buffers 4 ∧
      execute smallKernels (planBuffers smallStream) [smallBlock [5, 7], smallBlock [1, 2, 3]] []
        [] = .ok [
          { values := [-10, -28], start := [0], count := [2], type := .double },
          { values := [2, 2, 0], start := [0], count := [3], type := .double }] := by
  have ⟨hslot, hconst, hexecute⟩ := bufferSlots smallTree smallStream rfl
  have hrun : executePrivately smallKernels (planBuffers smallStream)
      [smallBlock [5, 7], smallBlock [1, 2, 3]] [] [] = .ok [
        { values := [-10, -28], start := [0], count := [2], type := .double },
        { values := [2, 2, 0], start := [0], count := [3], type := .double }] := rfl
  refine ⟨hslot 2 _ 2 rfl ⟨⟨1, by decide, _, rfl, rfl⟩, 3, by decide, _, rfl, by decide⟩,
    hconst 3 4 ⟨_, rfl, rfl⟩ (by decide) (.inr ⟨_, List.mem_of_getElem? (i := 2) rfl, rfl⟩), ?_⟩
  exact (hexecute Int smallKernels _ _ _ fun h => nomatch hrun.symm.trans h).trans hrun

end Small

end Derived
