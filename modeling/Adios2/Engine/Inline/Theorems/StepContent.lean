import Mathlib
import Adios2.Lib.Lists
import Adios2.Engine.Inline.InlineEngine

-- What the reader of an inline engine finds in a step: the blocks of the step, each with the selection
-- and the data of its Put.

namespace Inline

open Bytes BP5 Core

structure Block where
  selection : Selection
  step      : Option Nat
  data      : List Byte

-- What has been put since the step began, and the block indices that have been handed out: those of
-- deferred Puts that are not performed, those of spans, and those that the reader has.
structure Content where
  step         : Option Nat               := none
  writerInside : Bool                     := false
  readerInside : Bool                     := false
  blocks       : List Byte → List Block   := fun _ => []
  deferred     : List (List Byte × Nat)   := []
  spans        : List (List Byte × Nat)   := []
  handed       : List (List Byte × Nat)   := []

namespace Content

def put (a : Content) (v : Variable) (data : List Byte) : Content :=
  let block := { selection := v.selection, step := a.step, data }
  { a with blocks := Function.update a.blocks v.name (a.blocks v.name ++ [block]) }

-- The index of the next block.
def next (a : Content) (v : Variable) : List Byte × Nat := (v.name, (a.blocks v.name).length)

def store (a : Content) (name : List Byte) (index : Nat) (data : List Byte) : Content :=
  let blocks := (a.blocks name).modify index fun b => { b with data }
  { a with blocks := Function.update a.blocks name blocks }

def putDeferred (a : Content) (v : Variable) (data : List Byte) : Content :=
  if v.isValue then a.put v data
  else { a.put v data with deferred := a.deferred ++ [a.next v] }

-- A call that the engine has accepted.
def call (a : Content) : Call → Content
  | .beginStep                    =>
    if a.readerInside then a
    else { step := some (a.step.elim 0 (· + 1)), writerInside := true }
  | .putDeferred v data           => a.putDeferred v data
  | .putSync v data               => a.putDeferred v data
  | .putSpan v content            => { a.put v content with spans := a.spans ++ [a.next v] }
  | .storeSpan name index content => a.store name index content
  | .performPuts                  => { a with deferred := [] }
  | .endStep                      => { a with writerInside := false }
  | .readerBeginStep              =>
    if a.writerInside || a.step.isNone then a else { a with readerInside := true }
  | .get _ _ | .performGets       => a
  | .getBlock name blockID _      => { a with handed := a.handed ++ [(name, blockID)] }
  | .readerEndStep                => { a with readerInside := false }

end Content

-- What the user has to do: give as many elements as a block has, and write to spans of the step only,
-- to their elements.
def Proper (a : Content) : Call → Prop
  | .putDeferred v data | .putSync v data =>
    ¬ v.isValue → v.selectionSize * v.elementSize ≤ data.length
  | .storeSpan name index content =>
    (name, index) ∈ a.spans ∧ ∀ b, (a.blocks name)[index]? = some b → content.length = b.data.length
  | _ => True

def State.view (s : State) (b : BlockInfo) : Option Block :=
  (if b.isValue then some b.value else s.content b.data).map fun data =>
    { selection := b.selection, step := b.stepsStart, data }

-- The blocks that the reader finds are those that have been put in the step, and all indices that have
-- been handed out lie inside of their lists. A reader that is inside of a step is in that of the
-- writer, which cannot go on.
structure Presents (s : State) (a : Content) : Prop where
  blocks   : ∀ name, (s.blocksInfo name).map s.view = (a.blocks name).map some
  step     : ∀ name, ∀ b ∈ s.blocksInfo name, b.stepsStart = s.writer.currentStep
  deferred : ∀ k ∈ a.deferred, k.2 < (s.blocksInfo k.1).length
  handed   : ∀ k ∈ a.handed, k.2 < (s.blocksInfo k.1).length
  reader   : s.reader.insideStep = true →
    s.reader.currentStep = s.writer.currentStep ∧ s.writer.insideStep = false

-- The runs in which each call meets a condition. A call that the engine refuses changes nothing.
inductive Run (P : State → Content → Call → Prop) : State → Content → Prop
  | start : Run P {} {}
  | accepted {s s' : State} {a : Content} {c : Call} : Run P s a → Proper a c → P s a c →
      s.call c = .ok s' → Run P s' (a.call c)
  | refused {s : State} {a : Content} {c : Call} {component source activity message : String} :
      Run P s a → s.call c = .error (.thrown component source activity message) → Run P s a

-- A Put does not follow a `PerformPuts` that has already had blocks of the step, and is not that of the
-- span of a value. `PerformPuts` finds Puts of its own step only, none of them with more memory than
-- its block has elements. The reader gets a variable that has a block.
def Keeps (s : State) (a : Content) : Call → Prop
  | .putDeferred _ _ | .putSync _ _ => s.writer.resetVariables = true → ∀ name, a.blocks name = []
  | .putSpan v _ =>
    (s.writer.resetVariables = true → ∀ name, a.blocks name = []) ∧ ¬ v.isValue
  | .performPuts =>
    s.writer.deferredPuts.length = a.deferred.length ∧
    ∀ d ∈ s.writer.deferredPuts, d.data.length = d.dataSize
  | .get name _ => a.blocks name ≠ []
  | _ => True

section Shown

-- Blocks and buffers: no buffer belongs to two blocks, and each span writes to the buffer of its block.
structure Shown (s : State) (a : Content) : Prop where
  view   : ∀ name (i : Nat), ((s.blocksInfo name)[i]?).map s.view = ((a.blocks name)[i]?).map some
  values : ∀ name, ∀ b ∈ s.blocksInfo name, b.isValue = true → ∃ content, b.data = .user content
  apart  : ∀ {name name'} {i i' : Nat} {b b' j}, (s.blocksInfo name)[i]? = some b →
    (s.blocksInfo name')[i']? = some b' → b.data = .buffer j → b'.data = .buffer j →
    name = name' ∧ i = i'
  spans  : ∀ k ∈ a.spans, ∃ b j, (s.blocksInfo k.1)[k.2]? = some b ∧ b.isValue = false ∧
    b.data = .buffer j ∧ s.blocksSpan k.1 k.2 = some j

variable {s : State} {a : Content}

theorem Shown.length_eq (h : Shown s a) (name : List Byte) :
    (s.blocksInfo name).length = (a.blocks name).length := by
  have hnone : ∀ i, (s.blocksInfo name).length ≤ i ↔ (a.blocks name).length ≤ i := by
    intro i
    rw [← List.getElem?_eq_none_iff, ← List.getElem?_eq_none_iff,
      ← Option.map_eq_none_iff (f := s.view), h.view, Option.map_eq_none_iff]
  have h₁ := hnone (s.blocksInfo name).length
  have h₂ := hnone (a.blocks name).length
  omega

theorem Shown.exists_view (h : Shown s a) {name : List Byte} {i : Nat} {b : BlockInfo}
    (hb : (s.blocksInfo name)[i]? = some b) :
    ∃ block, (a.blocks name)[i]? = some block ∧ s.view b = some block := by
  have hview := h.view name i
  rw [hb, Option.map_some] at hview
  obtain ⟨block, hblock, heq⟩ := Option.map_eq_some_iff.mp hview.symm
  exact ⟨block, hblock, heq.symm⟩

theorem Shown.lt_length (h : Shown s a) {name : List Byte} {i j : Nat} {b : BlockInfo}
    (hb : (s.blocksInfo name)[i]? = some b) (hj : b.data = .buffer j) :
    j < s.writer.internalBuffers.length := by
  have ⟨block, _, hview⟩ := h.exists_view hb
  have hvalue : b.isValue = false := by
    by_contra hv
    have ⟨content, hc⟩ := h.values name b (List.mem_of_getElem? hb) (by simpa using hv)
    exact nomatch hj.symm.trans hc
  simp only [State.view, hvalue, Bool.false_eq_true, if_false, hj, State.content,
    Option.map_eq_some_iff] at hview
  obtain ⟨content, hget, _⟩ := hview
  exact (List.getElem?_eq_some_iff.mp hget).1

-- The view of a block needs the buffers that it points to only.
theorem view_congr {s s' : State} {b b' : BlockInfo} (hselection : b'.selection = b.selection)
    (hstep : b'.stepsStart = b.stepsStart) (hvalue : b'.isValue = b.isValue)
    (hval : b'.value = b.value) (hdata : b.isValue = false → s'.content b'.data = s.content b.data) :
    s'.view b' = s.view b := by
  unfold State.view
  cases hb : b.isValue with
  | true => simp [hvalue, hb, hval, hselection, hstep]
  | false => simp [hvalue, hb, hdata hb, hselection, hstep]

-- The lists when one of them has got another element, or another element at an index.
theorem getElem?_update_append {β : Type} (f : List Byte → List β) (n : List Byte) (x : β)
    (name : List Byte) (i : Nat) : (Function.update f n (f n ++ [x]) name)[i]? =
      if name = n ∧ i = (f n).length then some x else (f name)[i]? := by
  by_cases hname : name = n
  case neg => rw [Function.update_of_ne hname, if_neg fun h => hname h.1]
  case pos =>
    rw [hname, Function.update_self]
    by_cases hi : i = (f n).length
    case pos => simp [hi]
    case neg =>
      rw [if_neg fun h => hi h.2]
      by_cases hlt : i < (f n).length
      · exact List.getElem?_append_left hlt
      · rw [List.getElem?_eq_none (by simp; omega), List.getElem?_eq_none (by omega)]

theorem getElem?_update_modify {β : Type} (f : List Byte → List β) (n : List Byte) (k : Nat)
    (g : β → β) (name : List Byte) (i : Nat) : (Function.update f n ((f n).modify k g) name)[i]? =
      if name = n ∧ i = k then ((f name)[i]?).map g else (f name)[i]? := by
  by_cases hname : name = n
  case neg => rw [Function.update_of_ne hname, if_neg fun h => hname h.1]
  case pos =>
    rw [hname, Function.update_self, List.getElem?_modify]
    by_cases hi : k = i
    · simp [hi]
    · rw [if_neg fun h => hi h.2.symm]
      simp [hi]

-- Another block.
theorem Shown.setBlockInfo (h : Shown s a) {v : Variable} {data : Pointer} {value : List Byte}
    {isValue : Bool} {block : Block}
    (hview : ∀ b : BlockInfo, b.selection = v.selection → b.stepsStart = s.writer.currentStep →
      b.data = data → b.value = value → b.isValue = isValue → s.view b = some block)
    (hvalue : isValue = true → ∃ content, data = .user content)
    (hfresh : ∀ name (i : Nat) b j, (s.blocksInfo name)[i]? = some b → b.data = .buffer j →
      data ≠ .buffer j) :
    Shown (s.setBlockInfo v data value isValue)
      { a with blocks := Function.update a.blocks v.name (a.blocks v.name ++ [block]) } where
  view name i := by
    simp only [State.setBlockInfo, getElem?_update_append, h.length_eq]
    split
    · exact congrArg some (hview _ rfl rfl rfl rfl rfl)
    · exact h.view name i
  values name b hb := by
    by_cases hname : name = v.name
    case neg =>
      simp only [State.setBlockInfo, Function.update_of_ne hname] at hb
      exact h.values name b hb
    case pos =>
      simp only [State.setBlockInfo, hname, Function.update_self, List.mem_append,
        List.mem_singleton] at hb
      obtain hb | rfl := hb
      · exact h.values v.name b hb
      · exact hvalue
  apart {name name' i i' b b' j} hb hb' hj hj' := by
    simp only [State.setBlockInfo, getElem?_update_append] at hb hb'
    split at hb <;> split at hb'
    case isTrue.isTrue hk hk' => exact ⟨hk.1.trans hk'.1.symm, hk.2.trans hk'.2.symm⟩
    case isTrue.isFalse =>
      cases hb
      exact absurd hj (hfresh name' i' b' j hb' hj')
    case isFalse.isTrue =>
      cases hb'
      exact absurd hj' (hfresh name i b j hb hj)
    case isFalse.isFalse => exact h.apart hb hb' hj hj'
  spans k hk := by
    have ⟨b, j, hb, hrest⟩ := h.spans k hk
    refine ⟨b, j, ?_, hrest⟩
    have hlt := (List.getElem?_eq_some_iff.mp hb).1
    simp only [State.setBlockInfo, getElem?_update_append]
    rw [if_neg, hb]
    rintro ⟨hname, hi⟩
    rw [hname] at hlt
    omega

-- Another buffer, and the index of it for a span that is not there yet.
theorem Shown.newBuffer (h : Shown s a) (content name : List Byte) {index : Nat}
    (hnew : (name, index) ∉ a.spans) (bufferIdx : Option Nat) :
    Shown { s with blocksSpan := Function.update s.blocksSpan name
                     (Function.update (s.blocksSpan name) index bufferIdx)
                   writer := { s.writer with
                     internalBuffers := s.writer.internalBuffers ++ [content] } } a where
  view n i := by
    rw [← h.view]
    cases hb : (s.blocksInfo n)[i]? with
    | none => simp
    | some b =>
      simp only [Option.map_some]
      refine congrArg some (view_congr rfl rfl rfl rfl fun _ => ?_)
      cases hd : b.data with
      | user c   => rfl
      | buffer j => exact List.getElem?_append_left (h.lt_length hb hd)
  values := h.values
  apart  := h.apart
  spans k hk := by
    have ⟨b, j, hb, hv, hj, hspan⟩ := h.spans k hk
    refine ⟨b, j, hb, hv, hj, ?_⟩
    have hne : k ≠ (name, index) := fun heq => hnew (heq ▸ hk)
    by_cases hname : k.1 = name
    case neg => simpa [Function.update_of_ne hname] using hspan
    case pos =>
      have hi : k.2 ≠ index := fun hi => hne (Prod.ext hname hi)
      simp only [hname, Function.update_self, Function.update_of_ne hi]
      rw [← hname]
      exact hspan

def DeferredBlock.key (d : DeferredBlock) : List Byte × Nat := (d.var.name, d.blockIndex)

-- A deferred Put of the step that is not performed yet.
structure Pending (s : State) (a : Content) (d : DeferredBlock) : Prop where
  block : ∃ block, (a.blocks d.var.name)[d.blockIndex]? = some block ∧ block.data = d.data
  info  : ∃ b, (s.blocksInfo d.var.name)[d.blockIndex]? = some b ∧ b.isValue = false
  size  : d.dataSize ≤ d.data.length

theorem Shown.performPut (h : Shown s a) {d : DeferredBlock} (hd : Pending s a d)
    (hsize : d.data.length = d.dataSize) (hspan : d.key ∉ a.spans) :
    ∃ s', s.performPut d = .ok s' ∧ Shown s' a ∧ (∀ d', Pending s a d' → Pending s' a d') ∧
      ∃ blocksInfo internalBuffers, s' =
        { s with blocksInfo, writer := { s.writer with internalBuffers } } := by
  have ⟨block, hblock, hdata⟩ := hd.block
  have ⟨b₀, hb₀, hvalue⟩ := hd.info
  have hlt := (List.getElem?_eq_some_iff.mp hb₀).1
  have htake : d.data.take d.dataSize = d.data := by rw [← hsize, List.take_length]
  have hnext := h.newBuffer d.data d.var.name hspan none
  refine ⟨_, if_pos ⟨hd.size, hlt⟩, ⟨fun name i => ?_, fun name b hb hv => ?_, ?_, ?_⟩, ?_,
    _, _, rfl⟩
  · simp only [htake, getElem?_update_modify]
    by_cases hk : name = d.var.name ∧ i = d.blockIndex
    case pos =>
      obtain ⟨rfl, rfl⟩ := hk
      -- The buffer has what the user's memory had.
      obtain ⟨block', hblock', hview⟩ := h.exists_view hb₀
      obtain rfl := Option.some.inj (hblock.symm.trans hblock')
      simp only [State.view, hvalue, Bool.false_eq_true, if_false, Option.map_eq_some_iff] at hview
      obtain ⟨content, _, rfl⟩ := hview
      have hcontent : content = d.data := hdata
      simp [hb₀, hblock, State.view, hvalue, State.content, hcontent]
    case neg =>
      rw [if_neg hk]
      exact hnext.view name i
  · have ⟨i, hi⟩ := List.getElem?_of_mem hb
    simp only [getElem?_update_modify] at hi
    split at hi
    case isFalse => exact h.values name b (List.mem_of_getElem? hi) hv
    case isTrue hk =>
      obtain ⟨rfl, rfl⟩ := hk
      obtain rfl := Option.some.inj ((congrArg (Option.map _) hb₀).symm.trans hi)
      exact absurd hv (by simp [hvalue])
  · intro name name' i i' b b' j hb hb' hj hj'
    simp only [getElem?_update_modify] at hb hb'
    split at hb <;> split at hb'
    case isTrue.isTrue hk hk' => exact ⟨hk.1.trans hk'.1.symm, hk.2.trans hk'.2.symm⟩
    case isTrue.isFalse =>
      obtain ⟨b₁, _, rfl⟩ := Option.map_eq_some_iff.mp hb
      cases hj
      exact absurd (h.lt_length hb' hj') (Nat.lt_irrefl _)
    case isFalse.isTrue =>
      obtain ⟨b₁, _, rfl⟩ := Option.map_eq_some_iff.mp hb'
      cases hj'
      exact absurd (h.lt_length hb hj) (Nat.lt_irrefl _)
    case isFalse.isFalse => exact h.apart hb hb' hj hj'
  · intro k hk
    have ⟨b, j, hb, hrest⟩ := h.spans k hk
    refine ⟨b, j, ?_, hrest⟩
    simp only [getElem?_update_modify]
    rw [if_neg, hb]
    rintro ⟨hname, hi⟩
    exact hspan (show d.key ∈ a.spans from (Prod.ext hname hi : k = d.key) ▸ hk)
  · intro d' hd'
    refine ⟨hd'.block, ?_, hd'.size⟩
    have ⟨b, hb, hv⟩ := hd'.info
    simp only [getElem?_update_modify, hb, Option.map_some]
    split
    · exact ⟨_, rfl, hv⟩
    · exact ⟨b, rfl, hv⟩

theorem Shown.performPuts {ds : List DeferredBlock} (h : Shown s a) (hds : ∀ d ∈ ds, Pending s a d)
    (hsize : ∀ d ∈ ds, d.data.length = d.dataSize) (hspan : ∀ d ∈ ds, d.key ∉ a.spans) :
    ∃ s', ds.foldlM State.performPut s = .ok s' ∧ Shown s' a ∧
      ∃ blocksInfo internalBuffers, s' =
        { s with blocksInfo, writer := { s.writer with internalBuffers } } := by
  induction ds generalizing s with
  | nil => exact ⟨s, rfl, h, _, _, rfl⟩
  | cons d ds ih =>
    obtain ⟨s₁, h₁, hshown, hpending, _, _, rfl⟩ := h.performPut (hds d List.mem_cons_self)
      (hsize d List.mem_cons_self) (hspan d List.mem_cons_self)
    obtain ⟨s', h', hshown', _, _, rfl⟩ := ih hshown
      (fun d' hd' => hpending d' (hds d' (List.mem_cons_of_mem _ hd')))
      (fun d' hd' => hsize d' (List.mem_cons_of_mem _ hd'))
      (fun d' hd' => hspan d' (List.mem_cons_of_mem _ hd'))
    exact ⟨_, by rw [List.foldlM_cons, h₁, Outcome.ok_bind, h'], hshown', _, _, rfl⟩

-- The user writes to a span of the step.
theorem Shown.storeSpan (h : Shown s a) {name : List Byte} {index : Nat}
    (hspan : (name, index) ∈ a.spans) (content : List Byte) : ∃ internalBuffers,
      s.storeSpan name index content = .ok { s with writer := { s.writer with internalBuffers } } ∧
      Shown { s with writer := { s.writer with internalBuffers } } (a.store name index content) := by
  have ⟨b₀, j, hb₀, hvalue, hj, hidx⟩ := h.spans _ hspan
  have hlt := h.lt_length hb₀ hj
  simp only at hb₀ hidx
  refine ⟨s.writer.internalBuffers.set j content, by simp only [State.storeSpan, hidx, if_pos hlt],
    fun n i => ?_, h.values, h.apart, h.spans⟩
  simp only [Content.store, getElem?_update_modify]
  by_cases hk : n = name ∧ i = index
  case pos =>
    obtain ⟨rfl, rfl⟩ := hk
    have ⟨block, hblock, hview⟩ := h.exists_view hb₀
    simp only [State.view, hvalue, Bool.false_eq_true, if_false, Option.map_eq_some_iff] at hview
    obtain ⟨content', _, rfl⟩ := hview
    simp [hb₀, hblock, State.view, hvalue, hj, State.content, hlt]
  case neg =>
    rw [if_neg hk, ← h.view]
    cases hb : (s.blocksInfo n)[i]? with
    | none => simp
    | some b =>
      simp only [Option.map_some]
      refine congrArg some (view_congr rfl rfl rfl rfl fun _ => ?_)
      cases hd : b.data with
      | user c    => rfl
      | buffer j' =>
        have : j ≠ j' := fun heq => hk (h.apart hb hb₀ (heq ▸ hd) hj)
        simp [State.content, this]

-- What the reader has got is not seen in the lists.
def BlockInfo.unread (b : BlockInfo) : BlockInfo := { b with bufferP := none }

theorem Shown.read (h : Shown s a) {s' : State} (hwriter : s'.writer = s.writer)
    (hspans : s'.blocksSpan = s.blocksSpan)
    (hblocks : ∀ name, (s'.blocksInfo name).map BlockInfo.unread
      = (s.blocksInfo name).map BlockInfo.unread) : Shown s' a := by
  have hget : ∀ {name} {i : Nat} {b'}, (s'.blocksInfo name)[i]? = some b' →
      ∃ b, (s.blocksInfo name)[i]? = some b ∧ b.unread = b'.unread := by
    intro name i b' hb'
    have := congrArg (·[i]?) (hblocks name)
    simp only [List.getElem?_map, hb', Option.map_some] at this
    exact Option.map_eq_some_iff.mp this.symm
  have hview : s'.view = s.view ∘ BlockInfo.unread := by
    funext b
    refine (view_congr rfl rfl rfl rfl fun _ => ?_).symm
    cases b.data with
    | user     => rfl
    | buffer j => simp only [State.content, hwriter]
  have hself : s.view = s.view ∘ BlockInfo.unread := by
    funext b
    exact (view_congr rfl rfl rfl rfl fun _ => rfl).symm
  refine ⟨fun name i => ?_, fun name b' hb' hv => ?_, ?_, fun k hk => ?_⟩
  · have := congrArg (·[i]?) (hblocks name)
    simp only [List.getElem?_map] at this
    rw [← h.view, hview, ← Option.map_map, this, Option.map_map, ← hself]
  · have ⟨i, hi⟩ := List.getElem?_of_mem hb'
    have ⟨b, hb, heq⟩ := hget hi
    have hvalue := congrArg BlockInfo.isValue heq
    have hdata := congrArg BlockInfo.data heq
    simp only [BlockInfo.unread] at hvalue hdata
    exact hdata ▸ h.values name b (List.mem_of_getElem? hb) (hvalue.trans hv)
  · intro name name' i i' b₁ b₂ j h₁ h₂ hj₁ hj₂
    have ⟨b, hb, heq⟩ := hget h₁
    have ⟨b', hb', heq'⟩ := hget h₂
    exact h.apart hb hb' ((congrArg BlockInfo.data heq).trans hj₁)
      ((congrArg BlockInfo.data heq').trans hj₂)
  · have ⟨b, j, hb, hv, hj, hidx⟩ := h.spans k hk
    have := congrArg (·[k.2]?) (hblocks k.1)
    simp only [List.getElem?_map, hb, Option.map_some] at this
    obtain ⟨b', hb', heq⟩ := Option.map_eq_some_iff.mp this
    exact ⟨b', j, hb', (congrArg BlockInfo.isValue heq).trans hv,
      (congrArg BlockInfo.data heq).trans hj, hspans ▸ hidx⟩

end Shown

section Invariant

structure Inv (s : State) (a : Content) : Prop extends Shown s a where
  step         : s.writer.currentStep = a.step
  writerInside : s.writer.insideStep = a.writerInside
  readerInside : s.reader.insideStep = a.readerInside
  turns        : a.readerInside = true → a.writerInside = false ∧ s.reader.currentStep = a.step
  pending      : ∃ old new, s.writer.deferredPuts = old ++ new ∧
    new.map DeferredBlock.key = a.deferred ∧ ∀ d ∈ new, Pending s a d
  separate     : ∀ k ∈ a.spans, k ∉ a.deferred
  handed       : ∀ k ∈ a.handed, k.2 < (a.blocks k.1).length
  steps        : ∀ name, ∀ b ∈ a.blocks name, b.step = a.step

variable {s s' : State} {a : Content}

theorem inv_start : Inv {} {} where
  view _ _     := rfl
  values _ _ h := nomatch h
  apart h      := by simp at h
  spans _ h    := nomatch h
  step         := rfl
  writerInside := rfl
  readerInside := rfl
  turns h      := nomatch h
  pending      := ⟨[], [], rfl, rfl, fun _ h => nomatch h⟩
  separate _ h := nomatch h
  handed _ h   := nomatch h
  steps _ _ h  := nomatch h

theorem Inv.deferred_lt (h : Inv s a) : ∀ k ∈ a.deferred, k.2 < (a.blocks k.1).length := by
  have ⟨_, new, _, hkeys, hpending⟩ := h.pending
  intro k hk
  rw [← hkeys] at hk
  obtain ⟨d, hd, rfl⟩ := List.mem_map.mp hk
  have ⟨_, hblock, _⟩ := (hpending d hd).block
  exact (List.getElem?_eq_some_iff.mp hblock).1

theorem Inv.spans_lt (h : Inv s a) : ∀ k ∈ a.spans, k.2 < (a.blocks k.1).length := by
  intro k hk
  have ⟨_, _, hb, _⟩ := h.spans k hk
  exact h.length_eq k.1 ▸ (List.getElem?_eq_some_iff.mp hb).1

theorem Inv.presents (h : Inv s a) : Presents s a where
  blocks name   := by
    refine List.ext_getElem? fun i => ?_
    rw [List.getElem?_map, List.getElem?_map, h.view]
  step name b hb := by
    have ⟨i, hi⟩ := List.getElem?_of_mem hb
    have ⟨block, hblock, hview⟩ := h.exists_view hi
    obtain ⟨data, _, rfl⟩ := Option.map_eq_some_iff.mp hview
    exact (h.steps name _ (List.mem_of_getElem? hblock)).trans h.step.symm
  deferred k hk := h.length_eq k.1 ▸ h.deferred_lt k hk
  handed k hk   := h.length_eq k.1 ▸ h.handed k hk
  reader hin    := by
    have ⟨hw, hr⟩ := h.turns (h.readerInside ▸ hin)
    exact ⟨hr.trans h.step.symm, h.writerInside.trans hw⟩

theorem Inv.beginStep (h : Inv s a) {status : StepStatus} (hs : s.beginStep = .ok (s', status)) :
    Inv s' (a.call .beginStep) := by
  unfold State.beginStep at hs
  split at hs
  case isTrue => contradiction
  case isFalse =>
    rw [Content.call, ← h.readerInside]
    split at hs
    case isTrue hin =>
      cases hs
      rw [if_pos hin]
      exact h
    case isFalse hin =>
      obtain ⟨rfl, -⟩ := Prod.mk.inj (Except.ok.inj hs)
      rw [if_neg hin]
      refine { view _ _ := rfl, values _ _ h := (nomatch h), apart h := ?apart, spans _ h := (nomatch h)
               step := ?step, writerInside := rfl, readerInside := Bool.eq_false_of_not_eq_true hin
               turns h := (nomatch h), pending := ⟨s.writer.deferredPuts, [], ?_, rfl, fun _ h => nomatch h⟩
               separate _ h := (nomatch h), handed _ h := (nomatch h), steps _ _ h := (nomatch h) }
      case apart => simp [State.reset] at h
      case step =>
        simp only [State.reset, ← h.step]
        cases s.writer.currentStep <;> rfl
      exact (List.append_nil _).symm

-- Where no block of the step is there, nothing is lost.
theorem Inv.resetIfNeeded (h : Inv s a)
    (hempty : s.writer.resetVariables = true → ∀ name, a.blocks name = []) :
    Inv s.resetIfNeeded a ∧ s.resetIfNeeded.blocksInfo = s.blocksInfo := by
  unfold State.resetIfNeeded
  split
  case isFalse => exact ⟨h, rfl⟩
  case isTrue hreset =>
    have hblocks : s.blocksInfo = fun _ => [] := by
      funext name
      have := h.length_eq name
      rw [hempty hreset name] at this
      exact List.length_eq_zero_iff.mp this
    have heq : s.reset = { s with writer := { s.writer with resetVariables := false } } := by
      rw [State.reset, hblocks]
    rw [heq]
    have ⟨old, new, hold, hkeys, hpending⟩ := h.pending
    exact ⟨{ h with
      pending := ⟨old, new, hold, hkeys, fun d hd =>
        ⟨(hpending d hd).block, (hpending d hd).info, (hpending d hd).size⟩⟩ }, rfl⟩

theorem Content.length_put (a : Content) (v : Variable) (data name : List Byte) :
    (a.blocks name).length ≤ ((a.put v data).blocks name).length := by
  by_cases hname : name = v.name
  · simp [Content.put, hname]
  · simp [Content.put, Function.update_of_ne hname]

theorem Pending.setBlockInfo {d : DeferredBlock} (h : Pending s a d) (v : Variable)
    (data : Pointer) (value content : List Byte) (isValue : Bool) :
    Pending (s.setBlockInfo v data value isValue) (a.put v content) d where
  block := by
    have ⟨block, hblock, hdata⟩ := h.block
    refine ⟨block, ?_, hdata⟩
    have hlt := (List.getElem?_eq_some_iff.mp hblock).1
    simp only [Content.put, getElem?_update_append]
    rwa [if_neg]
    rintro ⟨hname, hi⟩
    rw [hname] at hlt
    omega
  info  := by
    have ⟨b, hb, hv⟩ := h.info
    refine ⟨b, ?_, hv⟩
    have hlt := (List.getElem?_eq_some_iff.mp hb).1
    simp only [State.setBlockInfo, getElem?_update_append]
    rwa [if_neg]
    rintro ⟨hname, hi⟩
    rw [hname] at hlt
    omega
  size  := h.size

theorem Inv.setBlockInfo (h : Inv s a) (v : Variable) (data : Pointer) (value content : List Byte)
    (isValue : Bool) (hcontent : isValue = true → value = content ∧ data = .user content)
    (hdata : isValue = false → s.content data = some content)
    (hfresh : ∀ name (i : Nat) b j, (s.blocksInfo name)[i]? = some b → b.data = .buffer j →
      data ≠ .buffer j) :
    Inv (s.setBlockInfo v data value isValue) (a.put v content) := by
  have hview : ∀ b : BlockInfo, b.selection = v.selection → b.stepsStart = s.writer.currentStep →
      b.data = data → b.value = value → b.isValue = isValue →
      s.view b = some { selection := v.selection, step := a.step, data := content } := by
    intro b hsel hstep hb hval hv
    cases hvalue : isValue with
    | true => simp [State.view, hv, hvalue, hval, hcontent hvalue, hsel, hstep, h.step]
    | false => simp [State.view, hv, hvalue, hb, hdata hvalue, hsel, hstep, h.step]
  have ⟨old, new, hold, hkeys, hpending⟩ := h.pending
  exact {
    h.toShown.setBlockInfo hview (fun hv => ⟨content, (hcontent hv).2⟩) hfresh with
    step         := h.step
    writerInside := h.writerInside
    readerInside := h.readerInside
    turns        := h.turns
    pending      := ⟨old, new, hold, hkeys, fun d hd => (hpending d hd).setBlockInfo ..⟩
    separate     := h.separate
    handed k hk  := Nat.lt_of_lt_of_le (h.handed k hk) (a.length_put v content k.1)
    steps name b hb := by
      by_cases hname : name = v.name
      case neg =>
        simp only [Content.put, Function.update_of_ne hname] at hb
        exact h.steps name b hb
      case pos =>
        simp only [Content.put, hname, Function.update_self, List.mem_append,
          List.mem_singleton] at hb
        obtain hb | rfl := hb
        · exact h.steps v.name b hb
        · rfl }

theorem Inv.putDeferred (h : Inv s a) {v : Variable} {data : List Byte}
    (hsize : ¬ v.isValue → v.selectionSize * v.elementSize ≤ data.length)
    (hempty : s.writer.resetVariables = true → ∀ name, a.blocks name = []) :
    Inv (s.putDeferredCommon v data) (a.putDeferred v data) := by
  have ⟨h, _⟩ := h.resetIfNeeded hempty
  unfold State.putDeferredCommon Content.putDeferred
  generalize s.resetIfNeeded = s at h
  simp only
  split
  case isTrue =>
    exact h.setBlockInfo v (.user data) data data true (fun _ => ⟨rfl, rfl⟩) (fun hv => nomatch hv)
      fun _ _ _ _ _ _ hu => nomatch hu
  case isFalse hvalue =>
    have hput := h.setBlockInfo v (.user data) (State.defaultValue v) data false
      (fun hv => nomatch hv) (fun _ => rfl) fun _ _ _ _ _ _ hu => nomatch hu
    have hlast : ((s.setBlockInfo v (.user data) (State.defaultValue v) false).blocksInfo
        v.name).length - 1 = (a.blocks v.name).length := by
      simp [State.setBlockInfo, h.length_eq]
    have ⟨old, new, hold, hkeys, hpending⟩ := hput.pending
    exact { hput with
      pending  := by
        refine ⟨old, new ++ [_], by rw [hold, List.append_assoc], ?_, ?_⟩
        · rw [List.map_append, hkeys, List.map_singleton, DeferredBlock.key, hlast]
          rfl
        · intro d hd
          obtain hd | hd := List.mem_append.mp hd
          · exact ⟨(hpending d hd).block, (hpending d hd).info, (hpending d hd).size⟩
          · obtain rfl := List.mem_singleton.mp hd
            refine ⟨?_, ?_, hsize hvalue⟩
            · simp [hlast, Content.put]
            · simp only [hlast]
              simp [State.setBlockInfo, h.length_eq]
      separate := by
        intro k hk hmem
        obtain hmem | hmem := List.mem_append.mp hmem
        · exact h.separate k hk hmem
        · have := h.spans_lt k hk
          rw [List.mem_singleton.mp hmem] at this
          exact Nat.lt_irrefl _ this }

theorem Inv.putSpan (h : Inv s a) {v : Variable} {content : List Byte} (hvalue : ¬ v.isValue)
    (hempty : s.writer.resetVariables = true → ∀ name, a.blocks name = []) :
    Inv (s.putSpan v content) (a.call (.putSpan v content)) := by
  have ⟨h, hsame⟩ := h.resetIfNeeded hempty
  unfold State.putSpan
  rw [← hsame]
  generalize s.resetIfNeeded = s at h
  simp only [h.length_eq v.name, decide_eq_false hvalue]
  have hnew : a.next v ∉ a.spans := fun hmem => Nat.lt_irrefl _ (h.spans_lt _ hmem)
  have hnew' : a.next v ∉ a.deferred := fun hmem => Nat.lt_irrefl _ (h.deferred_lt _ hmem)
  have ⟨old, new, hold, hkeys, hpending⟩ := h.pending
  have hbuffer : Inv { s with
      blocksSpan := Function.update s.blocksSpan v.name
        (Function.update (s.blocksSpan v.name) (a.blocks v.name).length
          (some s.writer.internalBuffers.length))
      writer     := { s.writer with internalBuffers := s.writer.internalBuffers ++ [content] } } a :=
    { h.toShown.newBuffer content v.name hnew (some s.writer.internalBuffers.length) with
      step         := h.step
      writerInside := h.writerInside
      readerInside := h.readerInside
      turns        := h.turns
      pending      := ⟨old, new, hold, hkeys, fun d hd =>
        ⟨(hpending d hd).block, (hpending d hd).info, (hpending d hd).size⟩⟩
      separate     := h.separate
      handed       := h.handed
      steps        := h.steps }
  have hput := hbuffer.setBlockInfo v (.buffer s.writer.internalBuffers.length)
    (State.defaultValue v) content false (fun hv => nomatch hv) (fun _ => by simp [State.content])
    (fun name i b j hb hj heq => by
      cases heq
      exact Nat.lt_irrefl _ (h.lt_length hb hj))
  have ⟨old, new, hold, hkeys, hpending⟩ := hput.pending
  exact { hput with
    pending  := ⟨old, new, hold, hkeys, fun d hd =>
      ⟨(hpending d hd).block, (hpending d hd).info, (hpending d hd).size⟩⟩
    spans    := by
      intro k hk
      obtain hk | hk := List.mem_append.mp hk
      · exact hput.spans k hk
      · obtain rfl := List.mem_singleton.mp hk
        refine ⟨{ selection := v.selection, stepsStart := s.writer.currentStep,
                  data := .buffer s.writer.internalBuffers.length, value := State.defaultValue v },
          s.writer.internalBuffers.length, ?_, rfl, rfl, ?_⟩
        · simp [Content.next, State.setBlockInfo, ← h.length_eq]
        · simp [Content.next, State.setBlockInfo]
    separate := by
      intro k hk
      obtain hk | hk := List.mem_append.mp hk
      · exact h.separate k hk
      · exact List.mem_singleton.mp hk ▸ hnew' }

theorem Inv.storeSpan (h : Inv s a) {name : List Byte} {index : Nat}
    (hspan : (name, index) ∈ a.spans) (content : List Byte) :
    ∃ s', s.storeSpan name index content = .ok s' ∧ Inv s' (a.store name index content) := by
  have ⟨internalBuffers, hs, hshown⟩ := h.toShown.storeSpan hspan content
  have ⟨old, new, hold, hkeys, hpending⟩ := h.pending
  refine ⟨_, hs, { hshown with
    step         := h.step
    writerInside := h.writerInside
    readerInside := h.readerInside
    turns        := h.turns
    pending      := ⟨old, new, hold, hkeys, fun d hd => ?_⟩
    separate     := h.separate
    handed k hk  := ?_
    steps n b hb := ?_ }⟩
  · have hne : ¬ (d.var.name = name ∧ d.blockIndex = index) := by
      rintro ⟨rfl, rfl⟩
      exact h.separate _ hspan (hkeys ▸ List.mem_map_of_mem hd)
    refine ⟨?_, (hpending d hd).info, (hpending d hd).size⟩
    simp only [Content.store, getElem?_update_modify, if_neg hne]
    exact (hpending d hd).block
  · have := h.handed k hk
    by_cases hname : k.1 = name
    · simpa [Content.store, hname] using this
    · simpa [Content.store, Function.update_of_ne hname] using this
  · have ⟨i, hi⟩ := List.getElem?_of_mem hb
    simp only [Content.store, getElem?_update_modify] at hi
    split at hi
    · obtain ⟨b', hb', rfl⟩ := Option.map_eq_some_iff.mp hi
      exact h.steps n b' (List.mem_of_getElem? hb')
    · exact h.steps n b (List.mem_of_getElem? hi)

theorem Inv.performPuts (h : Inv s a) (hlen : s.writer.deferredPuts.length = a.deferred.length)
    (hsize : ∀ d ∈ s.writer.deferredPuts, d.data.length = d.dataSize) :
    ∃ s', s.performPuts = .ok s' ∧ Inv s' (a.call .performPuts) := by
  have ⟨old, new, hold, hkeys, hpending⟩ := h.pending
  -- All deferred Puts are those of the step.
  have hnil : old = [] := by
    rw [hold, ← hkeys, List.length_append, List.length_map] at hlen
    exact List.length_eq_zero_iff.mp (by omega)
  rw [hnil, List.nil_append] at hold
  obtain ⟨s', hs', hshown, blocksInfo, internalBuffers, rfl⟩ := h.toShown.performPuts hpending
    (hold ▸ hsize) fun d hd hspan => h.separate _ hspan (hkeys ▸ List.mem_map_of_mem hd)
  have hperform : s.performPuts = .ok { s with
      blocksInfo
      writer := { s.writer with internalBuffers, deferredPuts := [], resetVariables := true } } := by
    rw [State.performPuts, hold, hs']
    rfl
  exact ⟨_, hperform, { hshown with
    step         := h.step
    writerInside := h.writerInside
    readerInside := h.readerInside
    turns        := h.turns
    pending      := ⟨[], [], rfl, rfl, fun _ hd => nomatch hd⟩
    separate _ _ := fun hd => nomatch hd
    handed       := h.handed
    steps        := h.steps }⟩

-- A call that only the reader sees.
theorem Inv.read (h : Inv s a) (hwriter : s'.writer = s.writer)
    (hreader : s'.reader.insideStep = s.reader.insideStep ∧
      s'.reader.currentStep = s.reader.currentStep)
    (hspans : s'.blocksSpan = s.blocksSpan)
    (hblocks : ∀ name, (s'.blocksInfo name).map BlockInfo.unread
      = (s.blocksInfo name).map BlockInfo.unread) : Inv s' a := by
  have ⟨old, new, hold, hkeys, hpending⟩ := h.pending
  refine { h.toShown.read hwriter hspans hblocks with
    step         := hwriter ▸ h.step
    writerInside := hwriter ▸ h.writerInside
    readerInside := hreader.1 ▸ h.readerInside
    turns        := hreader.2 ▸ h.turns
    pending      := ⟨old, new, hwriter ▸ hold, hkeys, fun d hd => ?_⟩
    separate     := h.separate
    handed       := h.handed
    steps        := h.steps }
  refine ⟨(hpending d hd).block, ?_, (hpending d hd).size⟩
  have ⟨b, hb, hv⟩ := (hpending d hd).info
  have := congrArg (·[d.blockIndex]?) (hblocks d.var.name)
  simp only [List.getElem?_map, hb, Option.map_some] at this
  obtain ⟨b', hb', heq⟩ := Option.map_eq_some_iff.mp this
  exact ⟨b', hb', (congrArg BlockInfo.isValue heq).trans hv⟩

theorem unread_map (blocks : List BlockInfo) :
    (blocks.map fun b => { b with bufferP := some b.data }).map BlockInfo.unread
      = blocks.map BlockInfo.unread := by
  rw [List.map_map]
  rfl

theorem Inv.setDeferredVariablePointers (h : Inv s a) : Inv s.setDeferredVariablePointers a := by
  refine h.read rfl ⟨rfl, rfl⟩ rfl fun name => ?_
  simp only [State.setDeferredVariablePointers]
  split
  · exact unread_map _
  · rfl

theorem Inv.getBlock (h : Inv s a) {name : List Byte} {blockID : Nat} {sync : Bool}
    (hs : s.getBlock name blockID sync = .ok s') :
    Inv s' (a.call (.getBlock name blockID sync)) := by
  unfold State.getBlock at hs
  simp only at hs
  split at hs
  case isTrue => contradiction
  case isFalse hlt =>
    have hinv : Inv s' a := by
      split at hs
      case isTrue =>
        cases hs
        refine h.read rfl ⟨rfl, rfl⟩ rfl fun n => ?_
        by_cases hname : n = name
        · subst hname
          simp only [Function.update_self]
          exact List.map_modify_of_eq (f := fun b : BlockInfo => { b with bufferP := some b.data })
            (fun _ => rfl) _ _
        · simp only [Function.update_of_ne hname]
      case isFalse =>
        cases hs
        exact h.read rfl ⟨rfl, rfl⟩ rfl fun _ => rfl
    have ⟨old, new, hold, hkeys, hpending⟩ := hinv.pending
    refine { hinv with
      pending := ⟨old, new, hold, hkeys, fun d hd =>
        ⟨(hpending d hd).block, (hpending d hd).info, (hpending d hd).size⟩⟩
      handed  := fun k hk => ?_ }
    obtain hk | hk := List.mem_append.mp hk
    · exact h.handed k hk
    · obtain rfl := List.mem_singleton.mp hk
      have := h.length_eq name
      simp only [Content.call]
      omega

theorem Inv.readerBeginStep (h : Inv s a) {status : StepStatus}
    (hs : s.readerBeginStep = .ok (s', status)) : Inv s' (a.call .readerBeginStep) := by
  have ⟨old, new, hold, hkeys, hpending⟩ := h.pending
  have hcall : a.call .readerBeginStep = if s.writer.insideStep || s.writer.currentStep.isNone then a
      else { a with readerInside := true } := by
    rw [h.writerInside, h.step]
    rfl
  rw [hcall]
  unfold State.readerBeginStep at hs
  split at hs
  case isTrue => contradiction
  case isFalse hin =>
    split at hs
    case isTrue hwriter =>
      cases hs
      simpa [hwriter] using h
    case isFalse hwriter =>
      simp only at hs
      split at hs
      case isTrue hnone =>
        obtain ⟨rfl, -⟩ := Prod.mk.inj (Except.ok.inj hs)
        rw [if_pos (by simp [hnone])]
        exact { h with
          turns   := fun hr => absurd (h.readerInside.trans hr) hin
          pending := ⟨old, new, hold, hkeys, fun d hd =>
            ⟨(hpending d hd).block, (hpending d hd).info, (hpending d hd).size⟩⟩ }
      case isFalse hsome =>
        obtain ⟨rfl, -⟩ := Prod.mk.inj (Except.ok.inj hs)
        rw [if_neg (by simp [hwriter, Option.isNone_iff_eq_none, hsome])]
        exact { h with
          readerInside := rfl
          turns        := fun _ =>
            ⟨h.writerInside.symm.trans (Bool.eq_false_of_not_eq_true hwriter), h.step⟩
          pending      := ⟨old, new, hold, hkeys, fun d hd =>
            ⟨(hpending d hd).block, (hpending d hd).info, (hpending d hd).size⟩⟩ }

theorem Inv.readerEndStep (h : Inv s a) (hs : s.readerEndStep = .ok s') :
    Inv s' (a.call .readerEndStep) := by
  unfold State.readerEndStep at hs
  split at hs
  case isFalse => contradiction
  case isTrue =>
    cases hs
    have hread : Inv (if s.reader.deferredVariables = [] then s
        else s.setDeferredVariablePointers) a := by
      split
      · exact h
      · exact h.setDeferredVariablePointers
    have ⟨old, new, hold, hkeys, hpending⟩ := hread.pending
    exact { hread with
      readerInside := rfl
      turns hr     := nomatch hr
      pending      := ⟨old, new, hold, hkeys, fun d hd =>
        ⟨(hpending d hd).block, (hpending d hd).info, (hpending d hd).size⟩⟩ }

theorem Inv.endStep (h : Inv s a) (hs : s.endStep = .ok s') : Inv s' (a.call .endStep) := by
  unfold State.endStep at hs
  split at hs
  case isFalse => contradiction
  case isTrue =>
    cases hs
    have ⟨old, new, hold, hkeys, hpending⟩ := h.pending
    exact { h with
      writerInside := rfl
      turns hr     := ⟨rfl, (h.turns hr).2⟩
      pending      := ⟨old, new, hold, hkeys, fun d hd =>
        ⟨(hpending d hd).block, (hpending d hd).info, (hpending d hd).size⟩⟩ }

-- The Get of a variable that has a block returns its last one.
theorem Inv.get (h : Inv s a) {name : List Byte} (elementSize : Nat) (hne : a.blocks name ≠ []) :
    ∃ block data, (a.blocks name).getLast? = some block ∧
      s.getSyncCommon name elementSize = .ok data ∧
      (data = block.data ∨ data = block.data.take elementSize) := by
  have hlen := h.length_eq name
  have hpos := List.length_pos_iff.mpr hne
  have hlt : (s.blocksInfo name).length - 1 < (s.blocksInfo name).length := by omega
  have hb := List.getElem?_eq_getElem hlt
  generalize (s.blocksInfo name)[(s.blocksInfo name).length - 1] = b at hb
  have ⟨block, hblock, hview⟩ := h.exists_view hb
  obtain ⟨data, hdata, rfl⟩ := Option.map_eq_some_iff.mp hview
  rw [hlen] at hblock
  unfold State.getSyncCommon
  rw [List.getLast?_eq_getElem?, List.getLast?_eq_getElem?, hb, hblock]
  cases hvalue : b.isValue with
  | true =>
    refine ⟨_, b.value, rfl, by simp [hvalue], .inl ?_⟩
    simpa [hvalue] using hdata
  | false =>
    have hcontent : s.content b.data = some data := by simpa [hvalue] using hdata
    exact ⟨_, data.take elementSize, rfl, by simp [hvalue, hcontent], .inr rfl⟩

end Invariant

variable {s s' : State} {a : Content} {c : Call}

-- Each call that is accepted keeps the invariant.
theorem Inv.call (h : Inv s a) (hproper : Proper a c) (hkeeps : Keeps s a c)
    (hs : s.call c = .ok s') : Inv s' (a.call c) := by
  cases c with
  | beginStep =>
    obtain ⟨⟨s₁, status⟩, hb, rfl⟩ := Outcome.map_eq_ok.mp hs
    exact h.beginStep hb
  | putDeferred v data =>
    cases hs
    exact h.putDeferred hproper hkeeps
  | putSync v data =>
    simp only [State.call, State.putSyncCommon] at hs
    split at hs
    · cases hs
      exact h.putDeferred hproper hkeeps
    · contradiction
  | putSpan v content =>
    cases hs
    exact h.putSpan hkeeps.2 hkeeps.1
  | storeSpan name index content =>
    have ⟨s₁, hs₁, hinv⟩ := h.storeSpan hproper.1 content
    cases hs₁.symm.trans hs
    exact hinv
  | performPuts =>
    have ⟨s₁, hs₁, hinv⟩ := h.performPuts hkeeps.1 hkeeps.2
    cases hs₁.symm.trans hs
    exact hinv
  | endStep => exact h.endStep hs
  | readerBeginStep =>
    obtain ⟨⟨s₁, status⟩, hb, rfl⟩ := Outcome.map_eq_ok.mp hs
    exact h.readerBeginStep hb
  | get name elementSize =>
    obtain ⟨data, _, rfl⟩ := Outcome.map_eq_ok.mp hs
    exact h
  | getBlock name blockID sync => exact h.getBlock hs
  | performGets =>
    cases hs
    exact h.setDeferredVariablePointers
  | readerEndStep => exact h.readerEndStep hs

-- No call leaves what the language defines.
theorem Inv.defined (h : Inv s a) (hproper : Proper a c) (hkeeps : Keeps s a c) :
    s.call c ≠ .error .undefined := by
  intro hs
  cases c with
  | beginStep =>
    replace hs := Outcome.map_eq_error.mp hs
    simp only [State.beginStep, State.thrown] at hs
    split at hs
    · simp at hs
    · split at hs <;> contradiction
  | putDeferred v data => contradiction
  | putSync v data =>
    simp only [State.call, State.putSyncCommon, State.thrown] at hs
    split at hs <;> simp at hs
  | putSpan v content => contradiction
  | storeSpan name index content =>
    have ⟨_, hs₁, _⟩ := h.storeSpan hproper.1 content
    exact nomatch hs₁.symm.trans hs
  | performPuts =>
    have ⟨_, hs₁, _⟩ := h.performPuts hkeeps.1 hkeeps.2
    exact nomatch hs₁.symm.trans hs
  | endStep =>
    simp only [State.call, State.endStep, State.thrown] at hs
    split at hs <;> simp at hs
  | readerBeginStep =>
    replace hs := Outcome.map_eq_error.mp hs
    simp only [State.readerBeginStep, State.thrown] at hs
    split at hs
    · simp at hs
    · split at hs
      · contradiction
      · split at hs <;> contradiction
  | get name elementSize =>
    have ⟨_, _, _, hget, _⟩ := h.get elementSize hkeeps
    exact nomatch hget.symm.trans (Outcome.map_eq_error.mp hs)
  | getBlock name blockID sync =>
    simp only [State.call, State.getBlock, State.thrown] at hs
    split at hs
    · simp at hs
    · split at hs <;> contradiction
  | performGets => contradiction
  | readerEndStep =>
    simp only [State.call, State.readerEndStep, State.thrown] at hs
    split at hs <;> simp at hs

theorem Run.inv {s : State} {a : Content} (h : Run Keeps s a) : Inv s a := by
  induction h with
  | start => exact inv_start
  | accepted _ hproper hkeeps hs ih => exact ih.call hproper hkeeps hs
  | refused _ _ ih => exact ih

section Examples

def array (name : Byte) : Variable where
  name        := [name]
  elementSize := 1
  shapeID     := .globalArray
  singleValue := false
  selection   := { shape := [2], start := [0], count := [2] }

end Examples

end Inline
