import Adios2.Toolkit.Derived.Theorems.Extents
import Adios2.Toolkit.Derived.Theorems.BufferSlots

-- The blocks that are announced for a derived variable are those that its execution gives, as long as
-- constants are combined with what has the extents of the first input.

namespace Derived

open BP5 Helper

variable {D V : Type}

section OutputDims

variable {instr : ExprInstruction} {operands : List (Option Extent)}
  {inputs : List (DerivedData V)} {e : Extent}

-- Data has the extents of an operand, or is a constant.
def HasExtent (d : DerivedData V) : Option Extent → Prop
  | none   => d.isScalar = true ∧ ∃ value, d.data = .constant value
  | some e => d.isScalar = false ∧ d.start = e.start ∧ d.count = e.count

theorem find_first (h : List.Forall₂ HasExtent inputs operands) (hsome : ∃ e, some e ∈ operands) :
    ((inputs.map fun d => (d.start, d.count, d.isScalar)).find? fun i => ¬i.2.2).map
      (fun i => (i.1, i.2.1)) = some ((firstExtent operands).start, (firstExtent operands).count) := by
  induction h with
  | nil => exact absurd hsome (by simp)
  | @cons d operand inputs operands hd _ ih =>
    cases operand with
    | none =>
      have ⟨e, he⟩ := hsome
      rw [List.map_cons, List.find?_cons_of_neg (by simp [hd.left])]
      exact ih ⟨e, by simpa using he⟩
    | some e =>
      have ⟨hscalar, hstart, hcount⟩ := hd
      rw [List.map_cons, List.find?_cons_of_pos (by simp [hscalar])]
      simp [firstExtent, hstart, hcount]

theorem map_inBlock (h : List.Forall₂ HasExtent inputs operands) (first : Extent) :
    ((inputs.map fun d => (d.start, d.count, d.isScalar)).map fun (start, count, isScalar) =>
      if isScalar then { start := first.start, count := first.count, shape := first.count }
      else ({ start, count, shape := count } : Extent)) =
        (operands.map (·.getD first)).map Extent.inBlock := by
  induction h with
  | nil => rfl
  | @cons d operand inputs operands hd _ ih =>
    rw [List.map_cons, List.map_cons, List.map_cons, List.map_cons, ih]
    cases operand with
    | none => simp [hd.left, Extent.inBlock]
    | some e =>
      obtain ⟨hscalar, hstart, hcount⟩ := hd
      simp [hscalar, hstart, hcount, Extent.inBlock]

-- The operators on single elements keep the extents.
theorem identity_dims {f : List Extent → Outcome Extent} {l : List Extent}
    (hrule : ruleOf instr = .identity) (hf : dimsFct instr.op = some f)
    (hlen : instr.inputBufs.length = l.length) (h : f l = .ok e) : ∀ a ∈ l, a = e := by
  match l with
  | [] => exact fun a ha => absurd ha List.not_mem_nil
  | [a] =>
    have hsame : f = sameDimsFunc := by
      rw [ruleOf, hlen] at hrule
      revert hrule hf
      cases instr.op <;> simp [dimsFct, selectionRuleForOp, eq_comm]
    subst hsame
    obtain rfl := Except.ok.inj ((sameDimsFunc_replicate a 0).symm.trans h)
    exact fun b hb => List.mem_singleton.mp hb
  | first :: second :: others =>
    have hall := dimsFct_same hf h
    have hrep : first :: second :: others = List.replicate (others.length + 2) first :=
      List.eq_replicate_iff.mpr ⟨rfl, hall⟩
    have hsame : f = sameDimsFunc ∨ f = sameDimsWithAgrFunc := by
      rw [ruleOf, hlen] at hrule
      revert hrule hf
      cases instr.op <;> simp [dimsFct, selectionRuleForOp, eq_comm] <;> tauto
    have hfirst : first = e := by
      rw [hrep] at h
      rcases hsame with rfl | rfl <;>
        exact Except.ok.inj ((sameDimsFunc_replicate first _).symm.trans h)
    exact hfirst ▸ hall

theorem outputDims_eq (hrule : instr.selRule = ruleOf instr)
    (hlen : instr.inputBufs.length = operands.length)
    (hone : instr.op = .promote → operands.length = 1) (hsome : ∃ e, some e ∈ operands)
    (hinputs : List.Forall₂ HasExtent inputs operands)
    (he : resultDims instr (broadcast operands) = .ok e) {start count : Dims}
    (h : outputDims instr (inputs.map fun d => (d.start, d.count, d.isScalar)) =
      .ok (start, count)) : start = e.start ∧ count = e.count := by
  have hmem : firstExtent operands ∈ broadcast operands :=
    List.mem_map.mpr ⟨_, firstExtent_mem hsome, rfl⟩
  rw [outputDims, find_first hinputs hsome, Option.getD_some, hrule] at h
  by_cases hidentity : ruleOf instr = .identity
  case pos =>
    rw [hidentity] at h
    obtain ⟨hstart, hcount⟩ := Prod.mk.inj (Except.ok.inj h)
    have heq : firstExtent operands = e := by
      by_cases hop : instr.op = .promote
      · obtain ⟨operand, rfl⟩ := List.length_eq_one_iff.mp (hone hop)
        rw [resultDims, if_pos hop] at he
        exact (List.mem_singleton.mp hmem).trans (Option.some.inj (Option.orUndefined_eq_ok.mp he))
      · rw [resultDims_eq hop] at he
        obtain ⟨f, hf, he⟩ := Outcome.bind_eq_ok.mp he
        refine identity_dims hidentity (Option.orUndefined_eq_ok.mp hf) ?_ he _ hmem
        rw [broadcast, List.length_map, hlen]
    exact heq ▸ ⟨hstart.symm, hcount.symm⟩
  case neg =>
    have hop : instr.op ≠ .promote := by
      intro hop
      exact hidentity (by simp [ruleOf, hop, selectionRuleForOp])
    rw [resultDims_eq hop] at he
    obtain ⟨f, hf, he⟩ := Outcome.bind_eq_ok.mp he
    obtain ⟨b, hb, hstart, hcount⟩ := dimsFct_inBlock (Option.orUndefined_eq_ok.mp hf) he
    have hcomputed : ((inputs.map fun d => (d.start, d.count, d.isScalar)).map
        fun (start, count, isScalar) => if isScalar then
          { start := (firstExtent operands).start, count := (firstExtent operands).count,
            shape := (firstExtent operands).count }
        else ({ start, count, shape := count } : Extent)) =
          (broadcast operands).map Extent.inBlock := map_inBlock hinputs _
    rw [hf, Outcome.ok_bind, hcomputed, hb, Outcome.ok_bind] at h
    cases hr : ruleOf instr with
    | identity => exact absurd hr hidentity
    | expandHalo | reshape =>
      rw [hr] at h
      obtain ⟨hstart', hcount'⟩ := Prod.mk.inj (Except.ok.inj h)
      exact ⟨hstart' ▸ hstart, hcount' ▸ hcount⟩

end OutputDims

section Executed

variable {k : Kernels D V} {place : Nat → Option Nat} {m m' : Memory V}
  {bufData bufData' : List (Option (DerivedData V))} {bufDims dims : List (Option Extent)}
  {instr : ExprInstruction} {instrs : List ExprInstruction} {e : Extent}

structure HasExtents (bufData : List (Option (DerivedData V))) (bufDims : List (Option Extent)) :
    Prop where
  length : bufData.length = bufDims.length
  extent : ∀ (b : Nat) d, bufData[b]? = some (some d) →
    ∃ operand, bufDims[b]? = some operand ∧ HasExtent d operand

theorem HasExtents.set (h : HasExtents bufData bufDims) {d : DerivedData V}
    (hd : HasExtent d (some e)) (b : Nat) :
    HasExtents (bufData.set b (some d)) (bufDims.set b (some e)) where
  length := by rw [List.length_set, List.length_set, h.length]
  extent := fun b' d' hd' => by
    rw [List.getElem?_set] at hd' ⊢
    split at hd'
    case isTrue heq =>
      rw [if_pos heq]
      split at hd'
      case isTrue hlt =>
        rw [if_pos (h.length ▸ hlt)]
        exact ⟨some e, rfl, Option.some.inj (Option.some.inj hd') ▸ hd⟩
      case isFalse => exact absurd hd' (by simp)
    case isFalse hne =>
      rw [if_neg hne]
      exact h.extent b' d' hd'

theorem forall₂_join {α β γ : Type} {P : α → β → Prop} {Q : α → γ → Prop} {R : β → γ → Prop}
    {as : List α} {bs : List β} {cs : List γ} (hP : List.Forall₂ P as bs)
    (hQ : List.Forall₂ Q as cs) (h : ∀ a b c, P a b → Q a c → R b c) : List.Forall₂ R bs cs := by
  induction hP generalizing cs with
  | nil =>
    cases hQ
    exact .nil
  | cons hb _ ih =>
    cases hQ with
    | cons hc hQ => exact .cons (h _ _ _ hb hc) (ih hQ)

theorem executeInstruction_extents (hsized : Sized bufDims instr)
    (hrule : instr.selRule = ruleOf instr) (h : HasExtents bufData bufDims)
    (he : broadcastDims bufDims instr = .ok e)
    (hexecute : executeInstruction k place m bufData instr = .ok (m', bufData')) :
    HasExtents bufData' (bufDims.set instr.outputBuf (some e)) := by
  obtain ⟨inputs, hread, hexecute⟩ := Outcome.bind_eq_ok.mp hexecute
  obtain ⟨⟨start, count⟩, hout, hexecute⟩ := Outcome.bind_eq_ok.mp hexecute
  dsimp only at hexecute
  generalize allocate m (place instr.outputBuf) _ = allocated at hexecute
  obtain ⟨ptr, m₁⟩ := allocated
  obtain ⟨blocks, _, hexecute⟩ := Outcome.bind_eq_ok.mp hexecute
  obtain ⟨values, _, hexecute⟩ := Outcome.bind_eq_ok.mp hexecute
  obtain ⟨operands, hoperands, hresult⟩ := Outcome.bind_eq_ok.mp he
  have ⟨hone, hsome⟩ := hsized.of_operandDims hoperands
  have hspec := operandDims_spec hoperands
  have hinputs : List.Forall₂ HasExtent inputs operands := by
    refine forall₂_join (Outcome.mapM_eq_ok_iff.mp hread) hspec fun b d operand hd hoperand => ?_
    have ⟨operand', hoperand', hextent⟩ :=
      h.extent b d (Option.join_eq_some_iff.mp (Option.orUndefined_eq_ok.mp hd))
    exact Option.some.inj (hoperand'.symm.trans hoperand) ▸ hextent
  have ⟨hstart, hcount⟩ := outputDims_eq hrule hspec.length_eq hone hsome hinputs hresult hout
  split at hexecute
  case isTrue => exact absurd hexecute (by simp)
  case isFalse =>
    obtain ⟨heap, _, hexecute⟩ := Outcome.bind_eq_ok.mp hexecute
    rw [← (Prod.mk.inj (Except.ok.inj hexecute)).right]
    exact h.set ⟨rfl, hstart, hcount⟩ _

theorem executeLoop_extents (hsized : ∀ i ∈ instrs, Sized bufDims i)
    (hrule : ∀ i ∈ instrs, i.selRule = ruleOf i) (h : HasExtents bufData bufDims)
    (hdims : broadcastLoop bufDims instrs = .ok dims)
    (hexecute : executeLoop k place m bufData instrs = .ok (m', bufData')) :
    HasExtents bufData' dims := by
  induction instrs generalizing m bufData bufDims with
  | nil =>
    rw [← (Prod.mk.inj (Except.ok.inj hexecute)).right, ← Except.ok.inj hdims]
    exact h
  | cons instr instrs ih =>
    obtain ⟨e, he, hdims⟩ := Outcome.bind_eq_ok.mp hdims
    obtain ⟨⟨m₁, bufData₁⟩, hinstr, hexecute⟩ := Outcome.bind_eq_ok.mp hexecute
    have h₁ := executeInstruction_extents (hsized instr List.mem_cons_self)
      (hrule instr List.mem_cons_self) h he hinstr
    exact ih (fun i hi => (hsized i (List.mem_cons_of_mem _ hi)).set _ _)
      (fun i hi => hrule i (List.mem_cons_of_mem _ hi)) h₁ hdims hexecute

-- The data of the inputs in a block, with the extents that were given for them.
def MatchesExtents (blk : String → Option Extent) (data : String → Option (Block V)) : Prop :=
  ∀ name b, data name = some b →
    b.isScalar = false ∧ ∃ e, blk name = some e ∧ b.start = e.start ∧ b.count = e.count

variable {cs : ExprCodeStream D} {blk : String → Option Extent} {data : String → Option (Block V)}

theorem initialData_extents (h : MatchesExtents blk data) :
    HasExtents (initialData k cs data) (startDims cs.buffers blk) where
  length := by rw [initialData, startDims, List.length_map, List.length_map]
  extent := fun b d hd => by
    rw [initialData, List.getElem?_map] at hd
    obtain ⟨buf, hbuf, hd⟩ := Option.map_eq_some_iff.mp hd
    rw [startDims, List.getElem?_map, hbuf]
    refine ⟨_, rfl, ?_⟩
    dsimp only
    split at hd
    case isTrue hinput =>
      obtain ⟨blk', hblk', rfl⟩ := Option.map_eq_some_iff.mp hd
      obtain ⟨hscalar, e, he, hstart, hcount⟩ := h _ _ hblk'
      rw [if_pos hinput, he]
      exact ⟨hscalar, hstart, hcount⟩
    case isFalse hinput =>
      rw [if_neg hinput]
      split at hd
      case isTrue hconst =>
        rw [if_pos hconst]
        split at hd
        · exact absurd hd (by simp)
        · obtain rfl := Option.some.inj hd
          exact ⟨rfl, _, rfl⟩
      case isFalse => exact absurd hd (by simp)

theorem readData_extent {heap : Heap V} {d : DerivedData V} {b : Block V}
    (h : readData heap d = .ok b) : b.start = d.start ∧ b.count = d.count := by
  rw [readData] at h
  cases hd : d.data <;> rw [hd] at h <;> obtain ⟨values, _, h⟩ := Outcome.bind_eq_ok.mp h <;>
    exact Except.ok.inj h ▸ ⟨rfl, rfl⟩

theorem executeBlock_extents (hsized : ∀ i ∈ cs.instructions, Sized (startDims cs.buffers blk) i)
    (hrule : ∀ i ∈ cs.instructions, i.selRule = ruleOf i) (h : MatchesExtents blk data)
    (hdims : broadcastLoop (startDims cs.buffers blk) cs.instructions = .ok dims) {b : Block V}
    (hexecute : executeBlock k place cs m data [] [] = .ok (m', b)) :
    ∃ e, dims[cs.outputBufID]? = some (some e) ∧ b.start = e.start ∧ b.count = e.count := by
  obtain ⟨⟨m₁, bufData⟩, hloop, hexecute⟩ := Outcome.bind_eq_ok.mp hexecute
  obtain ⟨d, hd, hexecute⟩ := Outcome.bind_eq_ok.mp hexecute
  obtain ⟨b', hfinal, hexecute⟩ := Outcome.bind_eq_ok.mp hexecute
  obtain rfl := (Prod.mk.inj (Except.ok.inj hexecute)).right
  have ⟨operand, hoperand, hextent⟩ :=
    (executeLoop_extents hsized hrule (initialData_extents h) hdims hloop).extent _ d
      (Option.join_eq_some_iff.mp (Option.orUndefined_eq_ok.mp hd))
  obtain ⟨b₀, hb₀, hfinal⟩ := Outcome.bind_eq_ok.mp hfinal
  have ⟨hstart₀, hcount₀⟩ := readData_extent hb₀
  rw [if_neg (by simp)] at hfinal
  cases operand with
  | none =>
    obtain ⟨_, value, hvalue⟩ := hextent
    rw [hvalue] at hfinal
    exact absurd hfinal (by simp)
  | some e =>
    obtain ⟨_, hstart, hcount⟩ := hextent
    refine ⟨e, hoperand, ?_⟩
    split at hfinal
    · exact absurd hfinal (by simp)
    · obtain rfl := Except.ok.inj hfinal
      exact ⟨hstart₀.trans hstart, hcount₀.trans hcount⟩

end Executed

section Compiled

variable [Double D] {cs : ExprCodeStream D} {blk : String → Option Extent} {e : Extent}

-- What is known of a stream that was made from a tree.
structure Compiled (cs : ExprCodeStream D) : Prop where
  output   : cs.outputBufID < cs.buffers.length
  rule     : ∀ i ∈ cs.instructions, i.selRule = ruleOf i
  promotes : ∀ i ∈ cs.instructions, PromotesOne i
  operand  : ∀ i ∈ cs.instructions, ∃ b ∈ i.inputBufs, b < cs.buffers.length ∧
    ¬Constant (flags cs.buffers) b

theorem compiled {root : ExprNode} (hroot : Parsed root)
    (h : semanticsPass (generateCode root) = .ok cs) : Compiled (planBuffers cs) := by
  have hgen := generateCodeNode_spec (D := D) root generated_empty
  have ⟨hanalysed, hkept⟩ := semanticsPass_spec hgen.generated.wellFormed h
  have ⟨hflags, _⟩ := planBuffers_planned hanalysed
  have ⟨hlength, hout⟩ := semanticsPass_length h
  have hplanned : (planBuffers cs).buffers.length = cs.buffers.length := by
    rw [← flags_length, hflags, flags_length]
  have hone : ∀ i ∈ (generateCode root : ExprCodeStream D).instructions, PromotesOne i :=
    generateCodeNode_promotes hroot fun i hi => absurd hi List.not_mem_nil
  constructor
  case output =>
    have hlt := hgen.generated.wellFormed.lt_of_defined hgen.defined
    rw [flags_length] at hlt
    show cs.outputBufID < _
    rw [hplanned, hlength, hout]
    exact hlt
  case rule =>
    intro i hi
    have ⟨_, _, hk⟩ := hkept i hi
    exact hk.rule
  case promotes =>
    intro i hi hop
    have ⟨i', hi', hk⟩ := hkept i hi
    have ⟨hop', heq⟩ := hk.promote hop
    exact heq ▸ hone i' hi' hop'
  case operand =>
    intro i hi
    have ⟨b, hb, hconst⟩ := hanalysed.operands i hi
    have hlt := hanalysed.wellFormed.lt_of_defined (hanalysed.wellFormed.inputs i hi b hb).right
    rw [flags_length] at hlt
    exact ⟨b, hb, hplanned ▸ hlt, hflags ▸ hconst⟩

omit [Double D] in
theorem Compiled.sized (h : Compiled cs) (blk : String → Option Extent) :
    ∀ i ∈ cs.instructions, Sized (startDims cs.buffers blk) i := by
  intro i hi
  have ⟨b, hb, hlt, hconst⟩ := h.operand i hi
  refine ⟨h.promotes i hi, b, hb, ?_⟩
  rw [startDims, List.getElem?_map, List.getElem?_eq_getElem hlt, Option.map_some]
  split
  · exact ⟨_, rfl⟩
  · have hflag : ¬cs.buffers[b].isConstant := fun hc =>
      hconst ⟨(cs.buffers[b].isInput, cs.buffers[b].isConstant), by simp [flags, hlt], hc⟩
    rw [if_neg hflag]
    exact ⟨_, rfl⟩

omit [Double D] in
theorem broadcastLoop_length {bufDims dims : List (Option Extent)} {instrs : List ExprInstruction}
    (h : broadcastLoop bufDims instrs = .ok dims) : dims.length = bufDims.length := by
  induction instrs generalizing bufDims with
  | nil => exact Except.ok.inj h ▸ rfl
  | cons instr instrs ih =>
    obtain ⟨e, _, h⟩ := Outcome.bind_eq_ok.mp h
    rw [ih h, List.length_set]

omit [Double D] in
theorem initialDims_eq (buffers : List (BufferDescriptor D)) :
    initialDims buffers blk = (startDims buffers blk).map (·.getD (refDims buffers blk)) := by
  rw [initialDims, startDims, List.map_map]
  refine List.map_congr_left fun buf _ => ?_
  rw [Function.comp_apply]
  split
  · rfl
  · split <;> rfl

omit [Double D] in
theorem getDims_iff (h : Compiled cs) : getDims cs blk = .ok e ↔
    ∃ dims, broadcastLoop (startDims cs.buffers blk) cs.instructions = .ok dims ∧
      ConstantsMeetFirst cs blk ∧
      (dims[cs.outputBufID]?).map (·.getD (refDims cs.buffers blk)) = some e := by
  rw [getDims, initialDims_eq, Outcome.bind_eq_ok]
  constructor
  · rintro ⟨r, hr, he⟩
    obtain ⟨dims, hdims, hmeet, rfl⟩ := (dimsLoop_iff (h.sized blk)).mp hr
    rw [Option.orUndefined_eq_ok, List.getElem?_map] at he
    exact ⟨dims, hdims, hmeet, he⟩
  · rintro ⟨dims, hdims, hmeet, he⟩
    refine ⟨_, (dimsLoop_iff (h.sized blk)).mpr ⟨dims, hdims, hmeet, rfl⟩, ?_⟩
    rw [Option.orUndefined_eq_ok, List.getElem?_map]
    exact he

omit [Double D] in
theorem getDims_succeeds_iff (h : Compiled cs) :
    (∃ e, getDims cs blk = .ok e) ↔ Compatible cs blk ∧ ConstantsMeetFirst cs blk := by
  constructor
  · rintro ⟨e, he⟩
    obtain ⟨dims, hdims, hmeet, _⟩ := (getDims_iff h).mp he
    exact ⟨⟨dims, hdims⟩, hmeet⟩
  · rintro ⟨⟨dims, hdims⟩, hmeet⟩
    have hlt : cs.outputBufID < dims.length := by
      rw [broadcastLoop_length hdims, startDims, List.length_map]
      exact h.output
    exact ⟨_, (getDims_iff h).mpr ⟨dims, hdims, hmeet, by
      rw [List.getElem?_eq_getElem hlt, Option.map_some]⟩⟩

variable {k : Kernels D V} {place : Nat → Option Nat} {m m' : Memory V}

omit [Double D] in
theorem getDims_executed (h : Compiled cs) {data : String → Option (Block V)} {b : Block V}
    (hdata : MatchesExtents blk data) (hdims : getDims cs blk = .ok e)
    (hexecute : executeBlock k place cs m data [] [] = .ok (m', b)) :
    b.start = e.start ∧ b.count = e.count := by
  obtain ⟨dims, hloop, _, he⟩ := (getDims_iff h).mp hdims
  have ⟨e', he', hstart, hcount⟩ := executeBlock_extents (h.sized blk) h.rule hdata hloop hexecute
  rw [he'] at he
  exact Option.some.inj he ▸ ⟨hstart, hcount⟩

theorem MatchesExtents.withShape {data : String → Option (Block V)} (h : MatchesExtents blk data)
    (shape : Dims) : MatchesExtents (withShape shape blk) data := fun name b hb => by
  have ⟨hscalar, e, he, hstart, hcount⟩ := h name b hb
  exact ⟨hscalar, { e with shape }, by rw [Derived.withShape, he]; rfl, hstart, hcount⟩

omit [Double D] in
theorem createEmptyData_executed (h : Compiled cs) {shape : Dims}
    {blks : List (String → Option Extent)} {datas : List (String → Option (Block V))}
    {announced : List (Dims × Dims)} {bs : List (Block V)}
    (hdatas : List.Forall₂ MatchesExtents blks datas)
    (hempty : createEmptyData cs shape blks = .ok announced)
    (hexecute : executeBlocks k place cs [] [] datas m = .ok bs) :
    announced = bs.map fun b => (b.start, b.count) := by
  induction hdatas generalizing m announced bs with
  | nil =>
    obtain rfl := Except.ok.inj hempty
    obtain rfl := Except.ok.inj hexecute
    rfl
  | cons hdata _ ih =>
    rw [createEmptyData, List.mapM_cons] at hempty
    obtain ⟨dims, hdims, hempty⟩ := Outcome.bind_eq_ok.mp hempty
    obtain ⟨others, hothers, hempty⟩ := Outcome.bind_eq_ok.mp hempty
    obtain rfl := Except.ok.inj hempty
    obtain ⟨e, he, hdims⟩ := Outcome.bind_eq_ok.mp hdims
    obtain rfl := Except.ok.inj hdims
    obtain ⟨⟨m₁, b⟩, hblock, hexecute⟩ := Outcome.bind_eq_ok.mp hexecute
    obtain ⟨bs', hblocks, hexecute⟩ := Outcome.bind_eq_ok.mp hexecute
    obtain rfl := Except.ok.inj hexecute
    have ⟨hstart, hcount⟩ := getDims_executed h (hdata.withShape shape) he hblock
    rw [List.map_cons, ih hothers hblocks, hstart, hcount]

end Compiled

section Prediction

variable [Double D]

-- The prediction succeeds for a block if its operands go together, it tells what the execution gives,
-- and the blocks that are announced are those.
structure ShapePrediction (cs : ExprCodeStream D) (shape : Dims)
    (blks : List (String → Option Extent)) : Prop where
  succeeds  : ∀ blk ∈ blks, (∃ e, getDims cs blk = .ok e) ↔ Compatible cs blk
  executed  : ∀ blk ∈ blks, ∀ e, getDims cs blk = .ok e →
    ∀ (V : Type) (k : Kernels D V) (data : String → Option (Block V)) (b : Block V),
      MatchesExtents blk data → execute k cs [data] [] [] = .ok [b] →
        b.start = e.start ∧ b.count = e.count
  announced : (∀ blk ∈ blks, Compatible cs blk) →
    ∃ announced, createEmptyData cs shape blks = .ok announced ∧
      ∀ (V : Type) (k : Kernels D V) (datas : List (String → Option (Block V)))
        (bs : List (Block V)), List.Forall₂ MatchesExtents blks datas →
          execute k cs datas [] [] = .ok bs → announced = bs.map fun b => (b.start, b.count)

theorem shapePrediction (root : ExprNode) (hroot : Parsed root) (cs : ExprCodeStream D)
    (h : semanticsPass (generateCode root) = .ok cs) (shape : Dims)
    (blks : List (String → Option Extent)) :
    ShapePrediction (planBuffers cs) shape blks ↔
      (∀ blk ∈ blks, Compatible (planBuffers cs) blk → ConstantsMeetFirst (planBuffers cs) blk) ∧
      ((∀ blk ∈ blks, Compatible (planBuffers cs) blk) → ∀ blk ∈ blks,
        Compatible (planBuffers cs) (withShape shape blk) ∧
          ConstantsMeetFirst (planBuffers cs) (withShape shape blk)) := by
  have hcs := compiled hroot h
  constructor
  · intro hpredict
    refine ⟨fun blk hblk hcompatible => ?_, fun hall blk hblk => ?_⟩
    · exact ((getDims_succeeds_iff hcs).mp ((hpredict.succeeds blk hblk).mpr hcompatible)).right
    · have ⟨announced, hempty, _⟩ := hpredict.announced hall
      obtain ⟨i, hi, rfl⟩ := List.mem_iff_getElem.mp hblk
      have hspec := Outcome.mapM_eq_ok_iff.mp hempty
      obtain ⟨e, he, _⟩ := Outcome.bind_eq_ok.mp (hspec.get hi (hspec.length_eq ▸ hi))
      exact (getDims_succeeds_iff hcs).mp ⟨e, he⟩
  · rintro ⟨hmeet, hshape⟩
    refine ⟨fun blk hblk => ?_, fun blk _ e he V k data b hdata hexecute => ?_, fun hall => ?_⟩
    · rw [getDims_succeeds_iff hcs]
      exact and_iff_left_of_imp (hmeet blk hblk)
    · obtain ⟨⟨m, b'⟩, hblock, hexecute⟩ := Outcome.bind_eq_ok.mp hexecute
      obtain ⟨bs, _, hexecute⟩ := Outcome.bind_eq_ok.mp hexecute
      obtain ⟨rfl, _⟩ := List.cons.inj (Except.ok.inj hexecute)
      exact getDims_executed hcs hdata he hblock
    · have ⟨announced, hempty⟩ : ∃ announced,
          createEmptyData (planBuffers cs) shape blks = .ok announced :=
        Outcome.exists_mapM_eq_ok fun blk hblk => by
          have ⟨e, he⟩ := (getDims_succeeds_iff hcs).mpr (hshape hall blk hblk)
          exact ⟨(e.start, e.count), by rw [he]; rfl⟩
      exact ⟨announced, hempty, fun V k datas bs hdatas hexecute =>
        createEmptyData_executed hcs hdatas hempty hexecute⟩

-- Three values in a block of four.
def lineBlock : String → Option Extent :=
  fun _ => some { start := [1], count := [3], shape := [4] }

def shiftTree : ExprNode := .op .add [.var "x" .double, .const "1" .double] .double

def shiftStream : ExprCodeStream Int :=
  match semanticsPass (generateCode shiftTree) with
  | .ok cs   => cs
  | .error _ => {}

theorem shapePrediction_shift : ShapePrediction (planBuffers shiftStream) [4] [lineBlock] := by
  have hparsed : Parsed shiftTree := by
    refine .op (by decide) (fun child hchild => ?_) .double
    simp only [List.mem_cons, List.not_mem_nil, or_false] at hchild
    rcases hchild with rfl | rfl
    · exact .var "x" .double
    · exact .const "1" .double
  have hmeet : ConstantsMeetFirst (planBuffers shiftStream) lineBlock := by
    refine ⟨fun operands hoperands _ e he => ?_, fun _ _ => trivial⟩
    have hread : operandDims (startDims (planBuffers shiftStream).buffers lineBlock)
        { op := .add, inputBufs := [0, 1], outputBuf := 2, outputType := .double } =
          .ok [some { start := [1], count := [3], shape := [4] }, none] := rfl
    obtain rfl := Except.ok.inj (hread.symm.trans hoperands)
    simp only [List.mem_cons, Option.some.injEq, reduceCtorEq, List.not_mem_nil, or_false] at he
    exact he
  have hshape : withShape [4] lineBlock = lineBlock := rfl
  refine (shapePrediction shiftTree hparsed shiftStream rfl [4] [lineBlock]).mpr ⟨?_, ?_⟩
  · intro blk hblk _
    rw [List.mem_singleton.mp hblk]
    exact hmeet
  · intro _ blk hblk
    rw [List.mem_singleton.mp hblk, hshape]
    exact ⟨⟨_, rfl⟩, hmeet⟩

-- A cross product of lines, to which a constant is added.
def crossTree : ExprNode :=
  .op .add [.op .cross [.var "x" .double, .var "x" .double, .var "x" .double, .var "x" .double,
    .var "x" .double, .var "x" .double] .double, .const "1" .double] .double

def crossStream : ExprCodeStream Int :=
  match semanticsPass (generateCode crossTree) with
  | .ok cs   => cs
  | .error _ => {}

-- The operands go together, but the prediction gives the constant the extents of a line.
theorem not_shapePrediction_cross :
    ¬ShapePrediction (planBuffers crossStream) [4, 3] [lineBlock] := by
  intro h
  have hcompatible : Compatible (planBuffers crossStream) lineBlock := ⟨_, rfl⟩
  have ⟨e, he⟩ := (h.succeeds lineBlock List.mem_cons_self).mpr hcompatible
  have hfails : getDims (planBuffers crossStream) lineBlock =
    .error (.thrown "Derived" "Function" "SameDimsFunc" "Invalid variable dimensions") := rfl
  exact absurd (hfails.symm.trans he) (by simp)

end Prediction

end Derived
