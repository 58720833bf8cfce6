import Adios2.Toolkit.Derived.VariableDerived
import Adios2.Toolkit.Derived.Theorems.SemanticsPass

-- The extents that are predicted for a result, that its operands ask for, and that the execution
-- gives it.

namespace Derived

open BP5 Helper

variable {D V : Type}

section DimsFct

variable {op : ExpressionOperator} {f : List Extent → Outcome Extent} {l : List Extent}
  {e : Extent}

theorem dimsFct_cases (hf : dimsFct op = some f) :
    f = sameDimsFunc ∨ f = sameDimsWithAgrFunc ∨ f = cross3DDimsFunc ∨ f = curlDimsFunc := by
  cases op <;> simp_all [dimsFct]

theorem of_ite_eq_ok {α : Type} {c : Prop} [Decidable c] {x y : Outcome α} {a : α}
    (hy : ∀ a, y ≠ .ok a) (h : (if c then x else y) = .ok a) : c := by
  by_contra hc
  exact hy a ((if_neg hc).symm.trans h)

-- Equal extents for all operands.
theorem sameDimsFunc_replicate (e : Extent) (n : Nat) :
    sameDimsFunc (List.replicate (n + 1) e) = .ok e :=
  if_pos fun _ ha => List.eq_of_mem_replicate ha

theorem cross3DDimsFunc_replicate (e : Extent) (n : Nat) :
    cross3DDimsFunc (List.replicate (n + 1) e) = .ok (e.concat 0 3 3) :=
  if_pos fun _ ha => List.eq_of_mem_replicate ha

theorem curlDimsFunc_replicate (e : Extent) (n : Nat) :
    curlDimsFunc (List.replicate (n + 2) e) = .ok (e.concat 0 3 3) :=
  if_pos fun _ ha => List.eq_of_mem_replicate (n := n + 1) ha

-- With two operands or more, all have to have the same extents.
theorem dimsFct_same {first second : Extent} {others : List Extent} (hf : dimsFct op = some f)
    (h : f (first :: second :: others) = .ok e) :
    ∀ a ∈ first :: second :: others, a = first := by
  have hall : ∀ a ∈ second :: others, a = first := by
    rcases dimsFct_cases hf with rfl | rfl | rfl | rfl <;>
      exact of_ite_eq_ok (by simp [invalidDims]) h
  intro a ha
  rcases List.mem_cons.mp ha with rfl | ha
  · rfl
  · exact hall a ha

-- What `Execute` knows of extents: in place of the shape it has the count.
def Extent.inBlock (e : Extent) : Extent := { e with shape := e.count }

theorem dropLast_inBlock {e' : Extent} (h : e.dropLast = .ok e') :
    e.inBlock.dropLast = .ok e'.inBlock := by
  obtain ⟨start, hstart, h⟩ := Outcome.bind_eq_ok.mp h
  obtain ⟨count, hcount, h⟩ := Outcome.bind_eq_ok.mp h
  obtain ⟨shape, _, h⟩ := Outcome.bind_eq_ok.mp h
  rw [← Except.ok.inj h, Extent.dropLast, Extent.inBlock]
  simp only [hstart, hcount, Outcome.ok_bind]
  rfl

-- The functions give the same start and count when they do not get the shape.
theorem dimsFct_inBlock (hf : dimsFct op = some f) (h : f l = .ok e) :
    ∃ b, f (l.map Extent.inBlock) = .ok b ∧ b.start = e.start ∧ b.count = e.count := by
  match l with
  | [] =>
    rcases dimsFct_cases hf with rfl | rfl | rfl | rfl <;>
      simp [sameDimsFunc, sameDimsWithAgrFunc, cross3DDimsFunc, curlDimsFunc, noOperands] at h
  | [a] =>
    rcases dimsFct_cases hf with rfl | rfl | rfl | rfl
    · obtain rfl := Except.ok.inj ((sameDimsFunc_replicate a 0).symm.trans h)
      exact ⟨a.inBlock, sameDimsFunc_replicate a.inBlock 0, rfl, rfl⟩
    · exact ⟨e.inBlock, dropLast_inBlock h, rfl, rfl⟩
    · obtain rfl := Except.ok.inj ((cross3DDimsFunc_replicate a 0).symm.trans h)
      exact ⟨_, cross3DDimsFunc_replicate a.inBlock 0, rfl, rfl⟩
    · obtain ⟨e', hdrop, h⟩ := Outcome.bind_eq_ok.mp h
      obtain rfl := Except.ok.inj h
      refine ⟨e'.inBlock.concat 0 3 3, ?_, rfl, rfl⟩
      exact Outcome.bind_eq_ok.mpr ⟨_, dropLast_inBlock hdrop, rfl⟩
  | first :: second :: others =>
    have hrep : first :: second :: others = List.replicate (others.length + 2) first :=
      List.eq_replicate_iff.mpr ⟨rfl, dimsFct_same hf h⟩
    rw [hrep] at h ⊢
    rw [List.map_replicate]
    rcases dimsFct_cases hf with rfl | rfl | rfl | rfl
    · obtain rfl := Except.ok.inj ((sameDimsFunc_replicate first _).symm.trans h)
      exact ⟨first.inBlock, sameDimsFunc_replicate first.inBlock _, rfl, rfl⟩
    · obtain rfl := Except.ok.inj ((sameDimsFunc_replicate first _).symm.trans h)
      exact ⟨first.inBlock, sameDimsFunc_replicate first.inBlock _, rfl, rfl⟩
    · obtain rfl := Except.ok.inj ((cross3DDimsFunc_replicate first _).symm.trans h)
      exact ⟨_, cross3DDimsFunc_replicate first.inBlock _, rfl, rfl⟩
    · obtain rfl := Except.ok.inj ((curlDimsFunc_replicate first _).symm.trans h)
      exact ⟨_, curlDimsFunc_replicate first.inBlock _, rfl, rfl⟩

end DimsFct

section Predicted

variable {instr : ExprInstruction} {instrs : List ExprInstruction}
  {operands : List (Option Extent)} {bufDims : List (Option Extent)} {ref e : Extent}

theorem firstExtent_mem (h : ∃ e, some e ∈ operands) : some (firstExtent operands) ∈ operands := by
  induction operands with
  | nil => exact absurd h (by simp)
  | cons operand operands ih =>
    cases operand with
    | some e => simp [firstExtent]
    | none =>
      have ⟨e, he⟩ := h
      refine List.mem_cons_of_mem _ (ih ⟨e, ?_⟩)
      simpa using he

theorem resultDims_eq (h : instr.op ≠ .promote) (l : List Extent) :
    resultDims instr l = (dimsFct instr.op).orUndefined >>= fun f => f l := if_neg h

-- A constant with the extents of the first input will do, if what it is combined with has those.
theorem resultDims_iff (hone : instr.op = .promote → operands.length = 1)
    (hsome : ∃ e, some e ∈ operands) :
    resultDims instr (operands.map (·.getD ref)) = .ok e ↔
      resultDims instr (broadcast operands) = .ok e ∧
        (none ∈ operands → ∀ e', some e' ∈ operands → e' = ref) := by
  by_cases hnone : none ∈ operands
  case neg =>
    have heq : broadcast operands = operands.map (·.getD ref) := by
      refine List.map_congr_left fun operand hoperand => ?_
      cases operand with
      | none => exact absurd hoperand hnone
      | some e => rfl
    rw [heq]
    exact ⟨fun h => ⟨h, fun hn => absurd hn hnone⟩, And.left⟩
  case pos =>
    by_cases hall : ∀ e', some e' ∈ operands → e' = ref
    case pos =>
      rw [broadcast, hall _ (firstExtent_mem hsome)]
      exact ⟨fun h => ⟨h, fun _ => hall⟩, And.left⟩
    case neg =>
      refine ⟨fun h => ?_, fun h => absurd (h.right hnone) hall⟩
      push Not at hall
      obtain ⟨e', he', hne⟩ := hall
      have hop : instr.op ≠ .promote := by
        intro hop
        have ⟨operand, hsingle⟩ := List.length_eq_one_iff.mp (hone hop)
        rw [hsingle] at hnone he'
        exact absurd ((List.mem_singleton.mp he').trans (List.mem_singleton.mp hnone).symm) (by simp)
      rw [resultDims_eq hop] at h
      obtain ⟨f, hf, h⟩ := Outcome.bind_eq_ok.mp h
      -- the extents of the first input stand for the constant, next to others
      have href : ref ∈ operands.map (·.getD ref) := List.mem_map.mpr ⟨none, hnone, rfl⟩
      have hother : e' ∈ operands.map (·.getD ref) := List.mem_map.mpr ⟨some e', he', rfl⟩
      generalize operands.map (·.getD ref) = l at h href hother
      match l with
      | [] => exact absurd href List.not_mem_nil
      | [a] =>
        exact absurd ((List.mem_singleton.mp hother).trans (List.mem_singleton.mp href).symm) hne
      | first :: second :: others =>
        have hsame := dimsFct_same (Option.orUndefined_eq_ok.mp hf) h
        exact absurd ((hsame _ hother).trans (hsame _ href).symm) hne

-- The operands that a prediction finds, in terms of those without extents for the constants.
theorem mapM_getD (is : List Nat) :
    (is.mapM fun i => ((bufDims.map (·.getD ref))[i]?).orUndefined) =
      List.map (·.getD ref) <$> is.mapM fun i => (bufDims[i]?).orUndefined := by
  induction is with
  | nil => rfl
  | cons i is ih =>
    rw [List.mapM_cons, List.mapM_cons, ih, List.getElem?_map]
    cases bufDims[i]? with
    | none => rfl
    | some operand =>
      cases is.mapM fun i => (bufDims[i]?).orUndefined <;> rfl

-- What an instruction has to have for its extents: an operand that has some, and for a promotion no
-- other one.
structure Sized (bufDims : List (Option Extent)) (instr : ExprInstruction) : Prop where
  promotes : PromotesOne instr
  operand  : ∃ b ∈ instr.inputBufs, ∃ e, bufDims[b]? = some (some e)

theorem Sized.set (h : Sized bufDims instr) (b : Nat) (e : Extent) :
    Sized (bufDims.set b (some e)) instr := by
  obtain ⟨b', hb', e', he'⟩ := h.operand
  refine ⟨h.promotes, b', hb', ?_⟩
  rw [List.getElem?_set]
  split
  · have hlt := (List.getElem?_eq_some_iff.mp he').1
    split <;> simp_all
  · exact ⟨e', he'⟩

theorem operandDims_spec (h : operandDims bufDims instr = .ok operands) :
    List.Forall₂ (fun b operand => bufDims[b]? = some operand) instr.inputBufs operands :=
  (Outcome.mapM_eq_ok_iff.mp h).imp fun _ _ hb => Option.orUndefined_eq_ok.mp hb

theorem Sized.of_operandDims (h : Sized bufDims instr)
    (hoperands : operandDims bufDims instr = .ok operands) :
    (instr.op = .promote → operands.length = 1) ∧ ∃ e, some e ∈ operands := by
  have hspec := operandDims_spec hoperands
  refine ⟨fun hop => hspec.length_eq.symm.trans (h.promotes hop), ?_⟩
  obtain ⟨b, hb, e, he⟩ := h.operand
  obtain ⟨i, hi, rfl⟩ := List.mem_iff_getElem.mp hb
  have hlt : i < operands.length := hspec.length_eq ▸ hi
  have hget := hspec.get hi hlt
  refine ⟨e, List.mem_iff_getElem.mpr ⟨i, hlt, ?_⟩⟩
  exact Option.some.inj (hget.symm.trans he)

theorem instructionDims_iff (h : Sized bufDims instr) :
    instructionDims (bufDims.map (·.getD ref)) instr = .ok e ↔
      broadcastDims bufDims instr = .ok e ∧
        ∀ operands, operandDims bufDims instr = .ok operands → none ∈ operands →
          ∀ e', some e' ∈ operands → e' = ref := by
  have heq : instructionDims (bufDims.map (·.getD ref)) instr =
      operandDims bufDims instr >>= fun operands =>
        resultDims instr (operands.map (·.getD ref)) := by
    rw [instructionDims, mapM_getD, map_eq_pure_bind, bind_assoc]
    rfl
  rw [heq, broadcastDims]
  cases hoperands : operandDims bufDims instr with
  | error fault => simp
  | ok operands =>
    have ⟨hone, hsome⟩ := h.of_operandDims hoperands
    rw [Outcome.ok_bind, Outcome.ok_bind, resultDims_iff hone hsome]
    simp

theorem dimsLoop_iff (h : ∀ i ∈ instrs, Sized bufDims i) {r : List Extent} :
    dimsLoop (bufDims.map (·.getD ref)) instrs = .ok r ↔
      ∃ r', broadcastLoop bufDims instrs = .ok r' ∧ ConstantsMeet ref bufDims instrs ∧
        r = r'.map (·.getD ref) := by
  induction instrs generalizing bufDims with
  | nil => simp [dimsLoop, broadcastLoop, ConstantsMeet, eq_comm]
  | cons instr instrs ih =>
    have hinstr := h instr List.mem_cons_self
    have hset : ∀ e, (bufDims.map (·.getD ref)).set instr.outputBuf e =
        (bufDims.set instr.outputBuf (some e)).map (·.getD ref) := fun e => by
      rw [List.map_set]
      rfl
    have hrest : ∀ e, ∀ i ∈ instrs, Sized (bufDims.set instr.outputBuf (some e)) i :=
      fun e i hi => (h i (List.mem_cons_of_mem _ hi)).set _ _
    rw [dimsLoop, broadcastLoop, ConstantsMeet, Outcome.bind_eq_ok]
    constructor
    · rintro ⟨e, he, hr⟩
      have ⟨hb, hmeet⟩ := (instructionDims_iff hinstr).mp he
      rw [hset] at hr
      obtain ⟨r', hr', hmeet', heq⟩ := (ih (hrest e)).mp hr
      refine ⟨r', Outcome.bind_eq_ok.mpr ⟨e, hb, hr'⟩, ⟨hmeet, fun e' he' => ?_⟩, heq⟩
      obtain rfl := Except.ok.inj (hb.symm.trans he')
      exact hmeet'
    · rintro ⟨r', hr', ⟨hmeet, hmeet'⟩, heq⟩
      obtain ⟨e, he, hr'⟩ := Outcome.bind_eq_ok.mp hr'
      refine ⟨e, (instructionDims_iff hinstr).mpr ⟨he, hmeet⟩, ?_⟩
      rw [hset]
      exact (ih (hrest e)).mpr ⟨r', hr', hmeet' e he, heq⟩

end Predicted

end Derived
