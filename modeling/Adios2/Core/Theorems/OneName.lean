import Adios2.Core.IoDefinitions

-- To how many of the maps of an IO a name belongs.

namespace IoDefinitions

open Bytes BP5 Core

variable {E O : Type} {ex : Expressions E} {ops : Operators O} {io : IoMaps E O}

namespace Map

variable {α : Type} {m : Map α} {name n : Name} {a : α}

@[simp]
theorem emplace_self : m.emplace name a name = some a := if_pos rfl

theorem emplace_of_ne (h : n ≠ name) : m.emplace name a n = m n := if_neg h

theorem empty_ne (n : Name) (a : α) : (empty : Map α) n ≠ some a :=
  (Option.some_ne_none a).symm

theorem erase_eq_some (h : m.erase name n = some a) : m n = some a := by
  unfold erase at h
  split at h
  case isTrue  => exact nomatch h
  case isFalse => exact h

end Map

-- No name belongs to two of the maps. Behind a variable of the reader that is resolved, there is a
-- variable that stands for it.
structure Distinct (io : IoMaps E O) : Prop where
  derived : ∀ n v, io.vars n = some v → io.varsDerived n = none
  reader  : ∀ n v rec, io.vars n = some v → io.readerDerivedVars n = some rec → rec.resolved.isSome
  both    : ∀ n d, io.varsDerived n = some d → io.readerDerivedVars n = none

structure SameMaps (io io' : IoMaps E O) : Prop where
  vars    : io'.vars = io.vars
  derived : io'.varsDerived = io.varsDerived
  reader  : io'.readerDerivedVars = io.readerDerivedVars

-- A call that returns keeps names apart, and one that throws leaves the maps as they are.
def Good (io : IoMaps E O) (answer : Completion × IoMaps E O) : Prop :=
  match answer.1 with
  | .returned   => Distinct answer.2
  | .thrown _   => SameMaps io answer.2
  | .terminated => True

-- The definition gets as far as to its return: the name is new among the variables, the dimensions
-- are accepted, and the operations that wait for it can be made.
def Accepted (ops : Operators O) (io : IoMaps E O) (name : Name) (type : DataType)
    (extents : Extents) (constantDims : Bool) : Prop :=
  io.vars name = none ∧ ∃ v, construct name type extents constantDims = .ok v ∧
    ∀ operations, io.varOpsPlaceholder name = some operations →
      addOperations ops v operations ≠ none

-- The name is not that of a derived variable, or of one of the reader that is not resolved.
def Free (io : IoMaps E O) (name : Name) : Prop :=
  io.varsDerived name = none ∧
    ∀ rec, io.readerDerivedVars name = some rec → rec.resolved.isSome

def Fits (ex : Expressions E) (ops : Operators O) (io : IoMaps E O) : Call → Prop
  | .defineVariable name type extents constantDims =>
    Accepted ops io name type extents constantDims → Free io name
  | .defineStructVariable name extents constantDims =>
    Accepted ops io name .struct extents constantDims → Free io name
  | .defineDerivedVariable name expression varType =>
    (∃ d, makeDerived (O := O) ex io name expression varType = .ok d) →
      io.varOpsPlaceholder name ≠ none → varType = .storeData
  | .resetReaderDerivedResolutions =>
    ∀ n rec, io.readerDerivedVars n = some rec → io.vars n = none
  | _ => True

theorem Distinct.of_same {io' : IoMaps E O} (h : Distinct io) (hsame : SameMaps io io') :
    Distinct io' where
  derived := by
    rw [hsame.vars, hsame.derived]
    exact h.derived
  reader := by
    rw [hsame.vars, hsame.reader]
    exact h.reader
  both := by
    rw [hsame.derived, hsame.reader]
    exact h.both

theorem Distinct.emplace_vars_iff (h : Distinct io) {name : Name} {v : Variable O} :
    Distinct { io with vars := io.vars.emplace name v } ↔ Free io name := by
  constructor
  case mp =>
    intro h'
    exact ⟨h'.derived name v Map.emplace_self, fun rec => h'.reader name v rec Map.emplace_self⟩
  case mpr =>
    intro hfree
    refine ⟨fun n w hw => ?_, fun n w rec hw hrec => ?_, h.both⟩
    · by_cases hn : n = name
      case pos => exact hn ▸ hfree.left
      case neg => exact h.derived n w ((Map.emplace_of_ne hn).symm.trans hw)
    · by_cases hn : n = name
      case pos => exact hfree.right rec (hn ▸ hrec)
      case neg => exact h.reader n w rec ((Map.emplace_of_ne hn).symm.trans hw) hrec

theorem SameMaps.refl : SameMaps io io := ⟨rfl, rfl, rfl⟩

theorem Distinct.define_iff (h : Distinct io) {activity : String} {name : Name} {type : DataType}
    {extents : Extents} {constantDims : Bool} :
    Good io (define ops io activity name type extents constantDims) ↔
      (Accepted ops io name type extents constantDims → Free io name) := by
  unfold define
  cases hname : io.vars name
  case some w =>
    refine iff_of_true SameMaps.refl fun haccepted => ?_
    exact nomatch hname.symm.trans haccepted.left
  case none =>
    rw [if_neg (by simp)]
    cases hv : construct (O := O) name type extents constantDims
    case error e =>
      refine iff_of_true SameMaps.refl fun haccepted => ?_
      have ⟨v, hv', _⟩ := haccepted.right
      exact nomatch hv.symm.trans hv'
    case ok v =>
      dsimp only
      cases hops : io.varOpsPlaceholder name
      case none =>
        have haccepted : Accepted ops io name type extents constantDims :=
          ⟨hname, v, hv, fun operations hoperations => nomatch hops.symm.trans hoperations⟩
        exact h.emplace_vars_iff.trans (imp_iff_right haccepted).symm
      case some operations =>
        dsimp only
        cases hadd : addOperations ops v operations
        case none =>
          refine iff_of_true trivial fun haccepted => ?_
          have ⟨v', hv', hmade⟩ := haccepted.right
          cases hv.symm.trans hv'
          exact absurd hadd (hmade operations hops)
        case some w =>
          have haccepted : Accepted ops io name type extents constantDims := by
            refine ⟨hname, v, hv, fun operations' hoperations => ?_⟩
            cases hops.symm.trans hoperations
            rw [hadd]
            exact nofun
          exact h.emplace_vars_iff.trans (imp_iff_right haccepted).symm

-- A derived variable gets as far as to its map only under a name that is free.
theorem makeDerived_names {name : Name} {expression : List Byte} {varType : DerivedVarType}
    {d : VariableDerived O} (hd : makeDerived ex io name expression varType = .ok d) :
    io.varsDerived name = none ∧ io.vars name = none ∧ io.readerDerivedVars name = none := by
  have ⟨_, hname, _⟩ := Outcome.bind_eq_ok.mp hd
  unfold checkDerivedName at hname
  split at hname
  case isTrue => exact nomatch hname
  case isFalse hderived =>
    split at hname
    case isTrue => exact nomatch hname
    case isFalse hvars =>
      split at hname
      case isTrue => exact nomatch hname
      case isFalse hreader =>
        exact ⟨Option.not_isSome_iff_eq_none.mp hderived, Option.not_isSome_iff_eq_none.mp hvars,
          Option.not_isSome_iff_eq_none.mp hreader⟩

theorem Distinct.emplace_derived (h : Distinct io) {name : Name} {d : VariableDerived O}
    (hvars : io.vars name = none) (hreader : io.readerDerivedVars name = none) :
    Distinct { io with varsDerived := io.varsDerived.emplace name d } where
  derived := by
    intro n v hv
    have hn : n ≠ name := by
      rintro rfl
      exact nomatch hvars.symm.trans hv
    exact (Map.emplace_of_ne hn).trans (h.derived n v hv)
  reader := h.reader
  both := by
    intro n d' hd'
    by_cases hn : n = name
    case pos => exact hn ▸ hreader
    case neg => exact h.both n d' ((Map.emplace_of_ne hn).symm.trans hd')

theorem Distinct.defineDerivedVariable_iff (h : Distinct io) {name : Name}
    {expression : List Byte} {varType : DerivedVarType} :
    Good io (defineDerivedVariable ex ops io name expression varType) ↔
      ((∃ d, makeDerived (O := O) ex io name expression varType = .ok d) →
        io.varOpsPlaceholder name ≠ none → varType = .storeData) := by
  unfold defineDerivedVariable
  cases hd : makeDerived (O := O) ex io name expression varType
  case error e => exact iff_of_true SameMaps.refl fun hexists => nomatch hexists.choose_spec
  case ok d =>
    have ⟨hderived, hvars, hreader⟩ := makeDerived_names hd
    dsimp only
    rw [imp_iff_right ⟨d, rfl⟩]
    cases hops : io.varOpsPlaceholder name
    case none =>
      exact iff_of_true (h.emplace_derived hvars hreader) fun hne => absurd rfl hne
    case some operations =>
      rw [imp_iff_right (show some operations ≠ none from nofun)]
      dsimp only
      by_cases htype : varType = .storeData
      case neg =>
        -- the exception comes when the variable is in its map
        rw [if_pos htype]
        refine iff_of_false (fun hsame => ?_) htype
        have hmap := congrFun (SameMaps.derived hsame) name
        exact nomatch hderived.symm.trans (hmap.symm.trans Map.emplace_self)
      case pos =>
        rw [if_neg (not_not.mpr htype)]
        refine iff_of_true ?_ htype
        cases addOperations ops d.toVariable operations
        case none   => exact trivial
        case some v => exact h.emplace_derived hvars hreader

theorem Distinct.defineReaderDerivedVariable (h : Distinct io) {name : Name}
    {expression : List Byte} :
    Good io (IoDefinitions.defineReaderDerivedVariable ex io name expression) := by
  unfold IoDefinitions.defineReaderDerivedVariable
  split
  case isTrue => exact SameMaps.refl
  case isFalse hfree =>
    simp only [not_or, Bool.not_eq_true, Option.isSome_eq_false_iff, Option.isNone_iff_eq_none]
      at hfree
    have ⟨_, hderived, hvars⟩ := hfree
    cases ex.parseToExprNode expression
    case error e => exact SameMaps.refl
    case ok exprTree =>
      refine ⟨h.derived, fun n v rec hv hrec => ?_, fun n d hd => ?_⟩
      · have hn : n ≠ name := by
          rintro rfl
          exact nomatch hvars.symm.trans hv
        exact h.reader n v rec hv ((Map.emplace_of_ne hn).symm.trans hrec)
      · have hn : n ≠ name := by
          rintro rfl
          exact nomatch hderived.symm.trans hd
        exact (Map.emplace_of_ne hn).trans (h.both n d hd)

theorem Distinct.resolveReaderDerivedVariable (h : Distinct io) {name : Name} :
    Good io (IoDefinitions.resolveReaderDerivedVariable ex io name) := by
  unfold IoDefinitions.resolveReaderDerivedVariable
  cases hrec : io.readerDerivedVars name
  case none => exact h
  case some rec =>
    dsimp only
    split
    case isTrue => exact h
    case isFalse =>
      cases resolve ex io name rec
      case error e => exact SameMaps.refl
      case ok answer =>
        cases answer
        case none => exact h
        case some d =>
          refine ⟨h.derived, fun n v rec' hv hrec' => ?_, fun n d' hd' => ?_⟩
          · by_cases hn : n = name
            case pos =>
              subst hn
              cases Map.emplace_self.symm.trans hrec'
              rfl
            case neg => exact h.reader n v rec' hv ((Map.emplace_of_ne hn).symm.trans hrec')
          · have hn : n ≠ name := by
              rintro rfl
              exact nomatch hrec.symm.trans (h.both n d' hd')
            exact (Map.emplace_of_ne hn).trans (h.both n d' hd')

theorem Distinct.reset_iff (h : Distinct io) :
    Distinct (resetReaderDerivedResolutions io) ↔
      ∀ n rec, io.readerDerivedVars n = some rec → io.vars n = none := by
  constructor
  case mp =>
    intro h' n rec hrec
    by_contra hv
    have ⟨v, hv⟩ := Option.ne_none_iff_exists'.mp hv
    have hreset : (resetReaderDerivedResolutions io).readerDerivedVars n =
        some { rec with resolved := none } := Option.map_eq_some_iff.mpr ⟨rec, hrec, rfl⟩
    exact nomatch h'.reader n v _ hv hreset
  case mpr =>
    intro hnone
    refine ⟨h.derived, fun n v rec hv hrec => ?_, fun n d hd => ?_⟩
    · have ⟨rec', hrec', _⟩ := Option.map_eq_some_iff.mp hrec
      exact nomatch (hnone n rec' hrec').symm.trans hv
    · exact Option.map_eq_none_iff.mpr (h.both n d hd)

-- What one call does.
theorem Distinct.step_iff (h : Distinct io) (call : Call) :
    Good io (step ex ops io call) ↔ Fits ex ops io call := by
  cases call with
  | defineVariable => exact h.define_iff
  | defineStructVariable => exact h.define_iff
  | defineDerivedVariable => exact h.defineDerivedVariable_iff
  | defineReaderDerivedVariable => exact iff_of_true h.defineReaderDerivedVariable trivial
  | resolveReaderDerivedVariable => exact iff_of_true h.resolveReaderDerivedVariable trivial
  | resetReaderDerivedResolutions => exact h.reset_iff
  | addOperation => exact iff_of_true ⟨h.derived, h.reader, h.both⟩ trivial
  | removeVariable name =>
    refine iff_of_true ⟨fun n v hv => ?_, fun n v rec hv => ?_, h.both⟩ trivial
    · exact h.derived n v (Map.erase_eq_some hv)
    · exact h.reader n v rec (Map.erase_eq_some hv)
  | removeDerivedVariable name =>
    refine iff_of_true ⟨fun n v hv => ?_, h.reader, fun n d hd => ?_⟩ trivial
    · have hnone := h.derived n v hv
      show io.varsDerived.erase name n = none
      rw [Map.erase, hnone, ite_self]
    · exact h.both n d (Map.erase_eq_some hd)
  | removeAllVariables =>
    refine iff_of_true ⟨fun n v hv => ?_, fun n v rec hv => ?_, h.both⟩ trivial
    · exact absurd hv (Map.empty_ne n v)
    · exact absurd hv (Map.empty_ne n v)

-- In every state that a sequence of calls reaches, names are apart, and no call that threw has changed
-- a map.
def Sound (ex : Expressions E) (ops : Operators O) : IoMaps E O → List Call → Prop
  | _, []             => True
  | io, call :: calls =>
    Good io (step ex ops io call) ∧
      ((step ex ops io call).1 ≠ .terminated → Sound ex ops (step ex ops io call).2 calls)

def AllFit (ex : Expressions E) (ops : Operators O) : IoMaps E O → List Call → Prop
  | _, []             => True
  | io, call :: calls =>
    Fits ex ops io call ∧
      ((step ex ops io call).1 ≠ .terminated → AllFit ex ops (step ex ops io call).2 calls)

theorem Distinct.next (h : Distinct io) {answer : Completion × IoMaps E O} (hgood : Good io answer)
    (hends : answer.1 ≠ .terminated) : Distinct answer.2 := by
  unfold Good at hgood
  split at hgood
  case h_1 => exact hgood
  case h_2 => exact h.of_same hgood
  case h_3 heq => exact absurd heq hends

theorem Distinct.sound_iff (h : Distinct io) (calls : List Call) :
    Sound ex ops io calls ↔ AllFit ex ops io calls := by
  induction calls generalizing io with
  | nil => exact Iff.rfl
  | cons call calls ih =>
    rw [Sound, AllFit, ← h.step_iff call]
    refine and_congr_right fun hgood => imp_congr_right fun hends => ?_
    exact ih (h.next hgood hends)

theorem declared_distinct (name : String) : Distinct (IoMaps.declared name : IoMaps E O) :=
  ⟨fun n v hv => absurd hv (Map.empty_ne n v), fun n v _ hv => absurd hv (Map.empty_ne n v),
    fun n d hd => absurd hd (Map.empty_ne n d)⟩

-- Names are kept apart by exactly those sequences of calls that define a variable under no name of a
-- derived one, have no operations wait for a derived variable that is not stored, and forget what has
-- been resolved only when nothing stands for it any more.
theorem oneName (ex : Expressions E) (ops : Operators O) (name : String) (calls : List Call) :
    Sound ex ops (IoMaps.declared name) calls ↔ AllFit ex ops (IoMaps.declared name) calls :=
  (declared_distinct name).sound_iff calls

section Example

-- Expressions that name their one input, and whose results are like it. There are no operators.
def copies : Expressions Name where
  parseToExprNode  := fun expression => .ok expression
  variableNameList := fun exprTree => [exprTree]
  compile          := fun _ types dims =>
    match types, dims with
    | (_, type) :: _, (_, extents) :: _ => .ok (type, extents)
    | _, _                              => .error .undefined

def noOperators : Operators Empty where
  makeOperator    := fun _ _ => none
  isDataTypeValid := nofun
  typeString      := nofun

-- A value, a derived one of it, and then a variable under the derived one's name.
def variableBehindDerived : List Call :=
  [.defineVariable [120] .double ⟨[], [], []⟩ false,
    .defineDerivedVariable [100] [120] .storeData,
    .defineVariable [100] .double ⟨[], [], []⟩ false]

theorem not_oneName_variableBehindDerived :
    ¬Sound copies noOperators (IoMaps.declared "io") variableBehindDerived := by
  intro h
  have hlast := ((h.right (by decide)).right (by decide)).left
  exact nomatch Distinct.derived hlast [100] _ rfl

end Example

end IoDefinitions
