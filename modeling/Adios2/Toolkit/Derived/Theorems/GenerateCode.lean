import Adios2.Toolkit.Derived.ExprCodeStream
import Adios2.Lib.Lists

-- The stream of a tree: each instruction writes a buffer of its own, from buffers that were there
-- before.

namespace Derived

open BP5 Helper

variable {D : Type}

section Flags

-- Whether the buffers are inputs, and whether they are constants.
def flags (buffers : List (BufferDescriptor D)) : List (Bool × Bool) :=
  buffers.map fun buf => (buf.isInput, buf.isConstant)

@[simp]
theorem flags_length (buffers : List (BufferDescriptor D)) :
    (flags buffers).length = buffers.length := by simp [flags]

@[simp]
theorem flags_append (buffers buffers' : List (BufferDescriptor D)) :
    flags (buffers ++ buffers') = flags buffers ++ flags buffers' := by simp [flags]

theorem flags_modify {f : BufferDescriptor D → BufferDescriptor D}
    (h : ∀ buf, (f buf).isInput = buf.isInput ∧ (f buf).isConstant = buf.isConstant)
    (buffers : List (BufferDescriptor D)) (i : Nat) : flags (buffers.modify i f) = flags buffers :=
  List.map_modify_of_eq (fun buf => Prod.ext (h buf).left (h buf).right) buffers i

theorem flags_foldl_modify {f : BufferDescriptor D → BufferDescriptor D}
    (h : ∀ buf, (f buf).isInput = buf.isInput ∧ (f buf).isConstant = buf.isConstant)
    (is : List Nat) (buffers : List (BufferDescriptor D)) :
    flags (is.foldl (fun bufs i => bufs.modify i f) buffers) = flags buffers := by
  induction is generalizing buffers with
  | nil => rfl
  | cons i is ih => rw [List.foldl_cons, ih, flags_modify h]

-- What is in a buffer from the begin of an execution on.
def Settled (fl : List (Bool × Bool)) (b : Nat) : Prop :=
  ∃ f, fl[b]? = some f ∧ (f.1 = true ∨ f.2 = true)

def Temp (fl : List (Bool × Bool)) (b : Nat) : Prop := fl[b]? = some (false, false)

theorem Settled.lt {fl : List (Bool × Bool)} {b : Nat} (h : Settled fl b) : b < fl.length := by
  obtain ⟨f, hf, _⟩ := h
  exact (List.getElem?_eq_some_iff.mp hf).1

theorem Temp.lt {fl : List (Bool × Bool)} {b : Nat} (h : Temp fl b) : b < fl.length :=
  (List.getElem?_eq_some_iff.mp h).1

theorem Settled.append {fl : List (Bool × Bool)} {b : Nat} (h : Settled fl b)
    (fl' : List (Bool × Bool)) : Settled (fl ++ fl') b := by
  obtain ⟨f, hf, hs⟩ := h
  exact ⟨f, by rw [List.getElem?_append_left (List.getElem?_eq_some_iff.mp hf).1, hf], hs⟩

theorem Temp.append {fl : List (Bool × Bool)} {b : Nat} (h : Temp fl b)
    (fl' : List (Bool × Bool)) : Temp (fl ++ fl') b := by
  rw [Temp, List.getElem?_append_left h.lt]
  exact h

theorem Temp.not_settled {fl : List (Bool × Bool)} {b : Nat} (h : Temp fl b) : ¬Settled fl b := by
  rintro ⟨f, hf, hs⟩
  have hf := Option.some.inj (h.symm.trans hf)
  subst hf
  exact absurd hs (by simp)

def Constant (fl : List (Bool × Bool)) (b : Nat) : Prop := ∃ f, fl[b]? = some f ∧ f.2 = true

theorem Temp.not_constant {fl : List (Bool × Bool)} {b : Nat} (h : Temp fl b) : ¬Constant fl b :=
  fun ⟨f, hf, hc⟩ => h.not_settled ⟨f, hf, .inr hc⟩

end Flags

section WellFormed

-- There when an instruction reads it: an input, a constant or a result.
def Defined (fl : List (Bool × Bool)) (instrs : List ExprInstruction) (b : Nat) : Prop :=
  Settled fl b ∨ ∃ i ∈ instrs, i.outputBuf = b

structure WellFormed (fl : List (Bool × Bool)) (instrs : List ExprInstruction) : Prop where
  sorted : instrs.Pairwise fun i j => i.outputBuf < j.outputBuf
  temp   : ∀ i ∈ instrs, Temp fl i.outputBuf
  inputs : ∀ i ∈ instrs, ∀ b ∈ i.inputBufs, b < i.outputBuf ∧ Defined fl instrs b

variable {fl : List (Bool × Bool)} {instrs : List ExprInstruction} {b : Nat}

theorem Defined.append (h : Defined fl instrs b) (fl' : List (Bool × Bool))
    (instrs' : List ExprInstruction) : Defined (fl ++ fl') (instrs ++ instrs') b :=
  h.imp (·.append fl') fun ⟨i, hi, hb⟩ => ⟨i, List.mem_append_left _ hi, hb⟩

theorem WellFormed.lt_of_defined (hw : WellFormed fl instrs) (h : Defined fl instrs b) :
    b < fl.length := by
  rcases h with h | ⟨i, hi, rfl⟩
  · exact h.lt
  · exact (hw.temp i hi).lt

theorem WellFormed.append (hw : WellFormed fl instrs) (fl' : List (Bool × Bool)) :
    WellFormed (fl ++ fl') instrs where
  sorted := hw.sorted
  temp   := fun i hi => (hw.temp i hi).append fl'
  inputs := fun i hi b hb => by
    have ⟨hlt, hdef⟩ := hw.inputs i hi b hb
    exact ⟨hlt, by simpa using hdef.append fl' []⟩

-- A further instruction, with a further buffer for its result.
theorem WellFormed.concat (hw : WellFormed fl instrs) {i : ExprInstruction}
    (hout : i.outputBuf = fl.length) (hin : ∀ b ∈ i.inputBufs, Defined fl instrs b) :
    WellFormed (fl ++ [(false, false)]) (instrs ++ [i]) where
  sorted := by
    rw [List.pairwise_append]
    refine ⟨hw.sorted, List.pairwise_singleton _ i, fun j hj j' hj' => ?_⟩
    rw [List.mem_singleton.mp hj', hout]
    exact (hw.temp j hj).lt
  temp   := by
    intro j hj
    rcases List.mem_append.mp hj with hj | hj
    · exact (hw.temp j hj).append _
    · rw [List.mem_singleton.mp hj, hout, Temp, List.getElem?_append_right (Nat.le_refl _)]
      simp
  inputs := by
    intro j hj b hb
    rcases List.mem_append.mp hj with hj | hj
    · have ⟨hlt, hdef⟩ := hw.inputs j hj b hb
      exact ⟨hlt, hdef.append _ _⟩
    · rw [List.mem_singleton.mp hj] at hb ⊢
      have hdef := hin b hb
      exact ⟨hout ▸ hw.lt_of_defined hdef, hdef.append _ _⟩

end WellFormed

section Generated

structure Generated (ctx : Context D) : Prop where
  wellFormed : WellFormed (flags ctx.buffers) ctx.instructions
  vars       : ∀ name b, ctx.varBufMap.lookup name = some b → Settled (flags ctx.buffers) b

-- What was generated stays, and more comes behind it.
def Extends (ctx ctx' : Context D) : Prop :=
  flags ctx.buffers <+: flags ctx'.buffers ∧ ctx.instructions <+: ctx'.instructions

-- The result of a node is the last buffer, or was there before.
structure Result (ctx : Context D) (b : Nat) (ctx' : Context D) : Prop where
  generated : Generated ctx'
  extends'  : Extends ctx ctx'
  defined   : Defined (flags ctx'.buffers) ctx'.instructions b

variable {ctx ctx' ctx'' : Context D} {b : Nat}

theorem Extends.refl : Extends ctx ctx := ⟨List.prefix_rfl, List.prefix_rfl⟩

theorem Extends.trans (h : Extends ctx ctx') (h' : Extends ctx' ctx'') : Extends ctx ctx'' :=
  ⟨h.left.trans h'.left, h.right.trans h'.right⟩

theorem Extends.defined (h : Extends ctx ctx') {b : Nat}
    (hdef : Defined (flags ctx.buffers) ctx.instructions b) :
    Defined (flags ctx'.buffers) ctx'.instructions b := by
  obtain ⟨⟨fl, hfl⟩, ⟨is, his⟩⟩ := h
  rw [← hfl, ← his]
  exact hdef.append fl is

variable [Double D]

theorem Generated.addVar (h : Generated ctx) (name : String) (type : DataType) :
    Result ctx (ctx.addVar name type).1 (ctx.addVar name type).2 := by
  rw [Context.addVar]
  split
  case h_1 b hb => exact ⟨h, .refl, .inl (h.vars name b hb)⟩
  case h_2 hnone =>
    have hnew : Settled (flags ctx.buffers ++ [(true, false)]) ctx.buffers.length := by
      refine ⟨(true, false), ?_, .inl rfl⟩
      rw [List.getElem?_append_right (by simp)]
      simp
    refine ⟨⟨?_, ?_⟩, ⟨?_, List.prefix_rfl⟩, .inl ?_⟩ <;>
      simp only [Context.addBuffer, flags_append]
    · exact h.wellFormed.append _
    · intro name' b hb
      rw [List.lookup_cons] at hb
      split at hb
      · exact Option.some.inj hb ▸ hnew
      · exact (h.vars name' b hb).append _
    · exact List.prefix_append _ _
    · exact hnew

theorem Generated.addConst (h : Generated ctx) (text : String) (type : DataType) :
    Result ctx (ctx.addConst text type).1 (ctx.addConst text type).2 := by
  refine ⟨⟨?_, ?_⟩, ⟨?_, List.prefix_rfl⟩, .inl ?_⟩ <;>
    simp only [Context.addConst, Context.addBuffer, flags_append]
  · exact h.wellFormed.append _
  · exact fun name b hb => (h.vars name b hb).append _
  · exact List.prefix_append _ _
  · refine ⟨(false, true), ?_, .inr rfl⟩
    rw [List.getElem?_append_right (by simp)]
    simp [flags]

omit [Double D] in
-- A further instruction on what there is, after a change of other fields of the buffers.
theorem Generated.concat (h : Generated ctx) {buffers : List (BufferDescriptor D)}
    (hflags : flags buffers = flags ctx.buffers) (buf : BufferDescriptor D)
    (hbuf : buf.isInput = false ∧ buf.isConstant = false) (i : ExprInstruction)
    (hout : i.outputBuf = ctx.buffers.length)
    (hin : ∀ b ∈ i.inputBufs, Defined (flags ctx.buffers) ctx.instructions b) :
    Result ctx ctx.buffers.length { ctx with
      buffers := buffers ++ [buf]
      instructions := ctx.instructions ++ [i] } := by
  have hnew : flags (buffers ++ [buf]) = flags ctx.buffers ++ [(false, false)] := by
    rw [flags_append, hflags]
    simp [flags, hbuf]
  refine ⟨⟨?_, fun name b hb => ?_⟩, ⟨?_, List.prefix_append _ _⟩, ?_⟩ <;> simp only [hnew]
  · exact h.wellFormed.concat (by simpa using hout) hin
  · exact (h.vars name b hb).append _
  · exact List.prefix_append _ _
  · exact .inr ⟨i, by simp, hout⟩

theorem Generated.emitPromote (h : Generated ctx)
    (hb : Defined (flags ctx.buffers) ctx.instructions b) (type : DataType) :
    Result ctx (ctx.emitPromote b type).1 (ctx.emitPromote b type).2 := by
  have hin : ∀ b' ∈ [b], Defined (flags ctx.buffers) ctx.instructions b' := fun b' hb' =>
    List.mem_singleton.mp hb' ▸ hb
  exact h.concat (flags_modify (f := ({ · with lastUse := ctx.instructions.length }))
      (fun _ => ⟨rfl, rfl⟩) ctx.buffers b)
    { type, firstUse := ctx.instructions.length, lastUse := ctx.instructions.length,
      constVal := noConstant } ⟨rfl, rfl⟩
    { op := .promote, inputBufs := [b], outputBuf := ctx.buffers.length, outputType := type } rfl hin

theorem Generated.emit (h : Generated ctx) (op : ExpressionOperator) {inputBufs : List Nat}
    (hin : ∀ b ∈ inputBufs, Defined (flags ctx.buffers) ctx.instructions b) (type : DataType) :
    Result ctx (ctx.emit op inputBufs type).1 (ctx.emit op inputBufs type).2 :=
  h.concat (flags_foldl_modify (f := Context.use ctx.instructions.length) (fun _ => ⟨rfl, rfl⟩)
      inputBufs ctx.buffers)
    { type, firstUse := ctx.instructions.length, lastUse := ctx.instructions.length,
      constVal := noConstant } ⟨rfl, rfl⟩
    { op, inputBufs, outputBuf := ctx.buffers.length, outputType := type } rfl hin

mutual

theorem generateCodeNode_spec (node : ExprNode) {ctx : Context D} (h : Generated ctx) :
    Result ctx (generateCodeNode node ctx).1 (generateCodeNode node ctx).2 := by
  match node with
  | .var name type        => exact h.addVar name type
  | .const text type      => exact h.addConst text type
  | .op op children type  =>
    have ⟨hg, he, hd⟩ := generateChildren_spec type children.length children h
    have ⟨hg', he', hd'⟩ := hg.emit op hd type
    exact ⟨hg', he.trans he', hd'⟩

theorem generateChildren_spec (type : DataType) (arity : Nat) (children : List ExprNode)
    {ctx : Context D} (h : Generated ctx) :
    Generated (generateChildren type arity children ctx).2 ∧
      Extends ctx (generateChildren type arity children ctx).2 ∧
      ∀ b ∈ (generateChildren type arity children ctx).1,
        Defined (flags (generateChildren type arity children ctx).2.buffers)
          (generateChildren type arity children ctx).2.instructions b := by
  match children with
  | []                => exact ⟨h, .refl, fun b hb => absurd hb List.not_mem_nil⟩
  | child :: children =>
    have ⟨hg, he, hd⟩ := generateCodeNode_spec child h
    rw [generateChildren]
    have hpromote : ∀ p : Nat × Context D,
        p = (if NeedsPromote type child.type arity then
          (generateCodeNode child ctx).2.emitPromote (generateCodeNode child ctx).1 type
        else generateCodeNode child ctx) → Result (generateCodeNode child ctx).2 p.1 p.2 := by
      rintro p rfl
      split
      · exact hg.emitPromote hd type
      · exact ⟨hg, .refl, hd⟩
    have ⟨hg₁, he₁, hd₁⟩ := hpromote _ rfl
    have ⟨hg₂, he₂, hd₂⟩ := generateChildren_spec type arity children hg₁
    refine ⟨hg₂, (he.trans he₁).trans he₂, fun b hb => ?_⟩
    rcases List.mem_cons.mp hb with rfl | hb
    · exact he₂.defined hd₁
    · exact hd₂ b hb

end

end Generated

section Promotions

-- The trees that the parser makes. Promotions come in with the code.
inductive Parsed : ExprNode → Prop
  | var (varName : String) (type : DataType) : Parsed (.var varName type)
  | const (text : String) (type : DataType) : Parsed (.const text type)
  | op {op : ExpressionOperator} (hop : op ≠ .promote) {children : List ExprNode}
    (hchildren : ∀ child ∈ children, Parsed child) (type : DataType) :
    Parsed (.op op children type)

-- A promotion has one operand.
def PromotesOne (instr : ExprInstruction) : Prop :=
  instr.op = .promote → instr.inputBufs.length = 1

variable [Double D]

mutual

theorem generateCodeNode_promotes {node : ExprNode} (hnode : Parsed node) {ctx : Context D}
    (h : ∀ i ∈ ctx.instructions, PromotesOne i) :
    ∀ i ∈ (generateCodeNode node ctx).2.instructions, PromotesOne i := by
  match node, hnode with
  | .var name type, _              =>
    rw [generateCodeNode, Context.addVar]
    split <;> exact h
  | .const text type, _            => exact h
  | .op op children type, .op hop hchildren _ =>
    intro i hi
    rcases List.mem_append.mp hi with hi | hi
    · exact generateChildren_promotes type children.length hchildren h i hi
    · rw [List.mem_singleton.mp hi]
      exact fun h => absurd h hop

theorem generateChildren_promotes (type : DataType) (arity : Nat) {children : List ExprNode}
    (hchildren : ∀ child ∈ children, Parsed child) {ctx : Context D}
    (h : ∀ i ∈ ctx.instructions, PromotesOne i) :
    ∀ i ∈ (generateChildren type arity children ctx).2.instructions, PromotesOne i := by
  match children with
  | []                => exact h
  | child :: children =>
    have hchild := generateCodeNode_promotes (hchildren child List.mem_cons_self) h
    have hpromote : ∀ p : Nat × Context D,
        p = (if NeedsPromote type child.type arity then
          (generateCodeNode child ctx).2.emitPromote (generateCodeNode child ctx).1 type
        else generateCodeNode child ctx) → ∀ i ∈ p.2.instructions, PromotesOne i := by
      rintro p rfl
      split
      · intro i hi
        rcases List.mem_append.mp hi with hi | hi
        · exact hchild i hi
        · rw [List.mem_singleton.mp hi]
          exact fun _ => rfl
      · exact hchild
    have hrest : ∀ c ∈ children, Parsed c := fun c hc => hchildren c (List.mem_cons_of_mem _ hc)
    exact generateChildren_promotes type arity hrest (hpromote _ rfl)

end

end Promotions

end Derived
