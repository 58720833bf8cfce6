import Mathlib
import Adios2.Format.DataMan.DataManSerializer

-- What is put into packs comes out of them, step after step.

namespace DataMan

open Bytes CString

variable {ε : Type}

section Upsert

variable {α : Type} {m : List (Nat × α)} {k : Nat}

theorem upsert_of_notMem (h : k ∉ m.map Prod.fst) (f : Option α → α) :
    upsert m k f = m ++ [(k, f none)] := by
  induction m with
  | nil => rfl
  | cons x m ih =>
    obtain ⟨k', a⟩ := x
    simp only [List.map_cons, List.mem_cons, not_or] at h
    rw [upsert, if_neg (Ne.symm h.1), ih h.2, List.cons_append]

theorem upsert_append_of_notMem (h : k ∉ m.map Prod.fst) (a : α) (m' : List (Nat × α))
    (f : Option α → α) : upsert (m ++ (k, a) :: m') k f = m ++ (k, f (some a)) :: m' := by
  induction m with
  | nil => rw [List.nil_append, upsert, if_pos rfl]; rfl
  | cons x m ih =>
    obtain ⟨k', a'⟩ := x
    simp only [List.map_cons, List.mem_cons, not_or] at h
    rw [List.cons_append, upsert, if_neg (Ne.symm h.1), ih h.2, List.cons_append]

end Upsert

section Pack

variable {json : JsonLibrary ε} {e : Endian} {s : WriterBuffer ε}

theorem cString_append_nul {text : List Byte} (h : 0 ∉ text) (rest : List Byte) :
    cString (text ++ 0 :: rest) = .ok text := by
  rw [cString, if_pos (by simp), List.takeWhile_append_of_pos]
  · simp
  · intro b hb
    exact decide_eq_true fun heq => h (heq ▸ hb)

theorem getLocalPack_length (json : JsonLibrary ε) (e : Endian) (s : WriterBuffer ε) :
    (s.getLocalPack json e).length =
      16 + (s.localBuffer.length - 16) + (serializeJson json s.metadataJson).length := by
  simp only [WriterBuffer.getLocalPack, List.length_append, u64_length, List.length_drop]

theorem deserializeJson_serializeJson (hjson : json.Lossless) (m : Metadata ε) :
    deserializeJson json (serializeJson json m) (serializeJson json m).length =
      .ok (.metadata m) := by
  have hlength : (serializeJson json m).length ≠ 0 := by simp [serializeJson]
  rw [deserializeJson, if_neg hlength, serializeJson, cString_append_nul (hjson.dump_noNul m),
    Outcome.ok_bind, hjson.parse_dump]
  rfl

-- The reader finds in a pack what the writer has put into it.
theorem putPackThread_getLocalPack (hjson : json.Lossless) (hbuffer : 16 ≤ s.localBuffer.length)
    (hlength : (s.getLocalPack json e).length < 2 ^ 64) (r : VarMap ε) :
    r.putPackThread json e (s.getLocalPack json e) = .ok (r.jsonToVarMap s.metadataJson) := by
  have hpack := getLocalPack_length json e s
  have htake : (s.getLocalPack json e).take 8 = u64 e s.localBuffer.length := by
    simp [WriterBuffer.getLocalPack]
  have hsize : ((s.getLocalPack json e).drop 8).take 8 =
      u64 e (serializeJson json s.metadataJson).length := by
    simp [WriterBuffer.getLocalPack]
  have hdrop : (s.getLocalPack json e).drop s.localBuffer.length =
      serializeJson json s.metadataJson := by
    have hfront : s.localBuffer.length = (u64 e s.localBuffer.length ++
        u64 e (serializeJson json s.metadataJson).length ++ s.localBuffer.drop 16).length := by
      simp only [List.length_append, u64_length, List.length_drop]
      omega
    conv_lhs => rw [hfront]
    exact List.drop_left
  rw [VarMap.putPackThread, if_neg (by omega), if_neg (by omega), htake, hsize, u64, u64,
    decode_encode_of_lt e (by omega), decode_encode_of_lt e (by omega)]
  simp only [hdrop, deserializeJson_serializeJson hjson, Outcome.ok_bind, Outcome.pure_eq]

-- Where a pack is small, its first number leaves one character at most in front of a NUL.
theorem cString_getLocalPack (hlength : (s.getLocalPack json e).length < 64) :
    ∃ text, cString (s.getLocalPack json e) = .ok text ∧ text.length < 2 := by
  have hpack := getLocalPack_length json e s
  have hsmall : s.localBuffer.length < 256 := by omega
  have hdiv : s.localBuffer.length / 256 = 0 := by omega
  cases e with
  | little =>
    have hhead : ∃ rest, s.getLocalPack json .little =
        UInt8.ofNat s.localBuffer.length :: 0 :: rest :=
      ⟨_, by simp [WriterBuffer.getLocalPack, u64, encode, encodeLE, hdiv]; rfl⟩
    obtain ⟨rest, hrest⟩ := hhead
    rw [hrest]
    refine ⟨_, by rw [cString, if_pos (by simp)], ?_⟩
    by_cases hzero : UInt8.ofNat s.localBuffer.length = 0 <;> simp [hzero]
  | big =>
    have hhead : ∃ rest, s.getLocalPack json .big = 0 :: rest :=
      ⟨_, by simp [WriterBuffer.getLocalPack, u64, encode, encodeLE, hdiv]; rfl⟩
    obtain ⟨rest, hrest⟩ := hhead
    rw [hrest]
    exact ⟨_, by rw [cString, if_pos (by simp)], by simp⟩

end Pack

section Contents

-- The entries of blocks of which the first is put at a position of the buffer.
def entriesFrom : Nat → List (Block ε) → List ε
  | _, []             => []
  | pos, b :: blocks  => b.entry pos :: entriesFrom (pos + b.data.length) blocks

def dataLength (blocks : List (Block ε)) : Nat := (blocks.map (·.data.length)).sum

@[simp]
theorem entriesFrom_ne_nil {pos : Nat} {blocks : List (Block ε)} (h : blocks ≠ []) :
    entriesFrom pos blocks ≠ [] := by
  cases blocks with
  | nil => contradiction
  | cons => simp [entriesFrom]

-- The blocks of a step, put into a buffer that has no entries of it.
theorem foldl_putData (s : WriterBuffer ε) {step : Nat} (h : step ∉ s.metadataJson.map Prod.fst)
    {blocks : List (Block ε)} (hblocks : blocks ≠ []) :
    blocks.foldl (WriterBuffer.putData · step) s =
      { localBuffer  := s.localBuffer ++ blocks.flatMap (·.data)
        metadataJson := s.metadataJson ++ [(step, entriesFrom s.localBuffer.length blocks)] } := by
  have hrest (front : List Byte) (entries : List ε) (blocks : List (Block ε)) :
      blocks.foldl (WriterBuffer.putData · step) ⟨front, s.metadataJson ++ [(step, entries)]⟩ =
        ⟨front ++ blocks.flatMap (·.data),
          s.metadataJson ++ [(step, entries ++ entriesFrom front.length blocks)]⟩ := by
    induction blocks generalizing front entries with
    | nil => simp [entriesFrom]
    | cons b blocks ih =>
      rw [List.foldl_cons, WriterBuffer.putData, upsert_append_of_notMem h, ih]
      simp [entriesFrom]
  cases blocks with
  | nil => contradiction
  | cons b blocks =>
    rw [List.foldl_cons, WriterBuffer.putData, upsert_of_notMem h, hrest]
    simp [entriesFrom]

end Contents

section VarMap

variable {s : VarMap ε} {m entered : Metadata ε} {erased : Nat}

-- Metadata of the steps from the first on.
def Numbered (m : Metadata ε) : Prop := m.map Prod.fst = List.range m.length

theorem Numbered.step {k : Nat} (h : Numbered m) (hk : k < m.length) : m[k].1 = k := by
  have hget := congrArg (·[k]?) h
  simpa [hk] using hget

theorem Numbered.left {m' : Metadata ε} (h : Numbered (m ++ m')) : Numbered m := by
  have htake := congrArg (List.take m.length) h
  rw [List.map_append, List.take_left' (by simp)] at htake
  rw [Numbered, htake, List.length_append, List.take_range, min_eq_left (by omega)]

theorem Numbered.notMem {x : Nat × List ε} (h : Numbered (m ++ [x])) : x.1 ∉ m.map Prod.fst := by
  have hstep := h.step (k := m.length) (by simp)
  rw [List.getElem_append_right le_rfl] at hstep
  simp only [Nat.sub_self, List.getElem_cons_zero] at hstep
  rw [h.left, hstep]
  simp

-- The steps that have been entered and have not been erased.
structure VarMap.Has (s : VarMap ε) (entered : Metadata ε) (erased : Nat) : Prop where
  vars   : s.dataManVarMap = (entered.drop erased).map fun (k, v) => (k, some v)
  blocks : ∀ k, s.deserializedBlocksForStep k = if k < entered.length then 1 else 0

namespace VarMap.Has

theorem keys (h : s.Has entered erased) (hn : Numbered entered) :
    s.dataManVarMap.map Prod.fst = List.range' erased (entered.length - erased) := by
  have hfst : (Prod.fst ∘ fun x : Nat × List ε => (x.1, some x.2)) = Prod.fst := rfl
  rw [h.vars, List.map_map, hfst, List.map_drop, hn, List.range_eq_range', List.drop_range', mul_one,
    zero_add]

theorem nil : VarMap.Has ({} : VarMap ε) [] 0 where
  vars     := rfl
  blocks _ := rfl

theorem put (h : s.Has entered erased) (herased : erased ≤ entered.length) {x : Nat × List ε}
    (hn : Numbered (entered ++ [x])) (hx : x.2 ≠ []) : (s.put x.1 x.2).Has (entered ++ [x]) erased := by
  obtain ⟨step, entries⟩ := x
  have hnotMem : step ∉ s.dataManVarMap.map Prod.fst := by
    intro hmem
    rw [h.keys hn.left] at hmem
    have hstep := hn.notMem
    rw [hn.left] at hstep
    simp only [List.mem_range'_1, List.mem_range] at hmem hstep
    omega
  have hfold (vars : List ε) (es : List ε) :
      es.foldl (fun m e => upsert m step fun vars => some ((vars.getD none).getD [] ++ [e]))
        (s.dataManVarMap ++ [(step, some vars)]) = s.dataManVarMap ++ [(step, some (vars ++ es))] := by
    induction es generalizing vars with
    | nil => simp
    | cons e es ih =>
      rw [List.foldl_cons, upsert_append_of_notMem hnotMem, Option.getD_some, Option.getD_some, ih]
      simp
  have hstep := hn.step (k := entered.length) (by simp)
  simp only [List.getElem_append_right le_rfl, Nat.sub_self, List.getElem_cons_zero] at hstep
  refine ⟨?_, fun k => ?_⟩
  · cases entries with
    | nil => contradiction
    | cons e es =>
      rw [VarMap.put, List.foldl_cons, upsert_of_notMem hnotMem, Option.getD_none, Option.getD_none,
        hfold, h.vars, List.drop_append_of_le_length herased]
      simp
  · have hblocks := h.blocks k
    have hlast := h.blocks step
    simp only [hstep, lt_irrefl, if_false] at hlast
    by_cases hk : k = step
    · simp [VarMap.put, hk, hstep, hlast]
    · have hiff : k < entered.length + 1 ↔ k < entered.length := by omega
      simp only [VarMap.put, Function.update_of_ne hk, hblocks, List.length_append,
        List.length_singleton, hiff]

-- A pack brings the steps behind those of the packs before.
theorem jsonToVarMap (h : s.Has entered erased) (herased : erased ≤ entered.length)
    (hn : Numbered (entered ++ m)) (hm : ∀ x ∈ m, x.2 ≠ []) :
    (s.jsonToVarMap m).Has (entered ++ m) erased := by
  induction m generalizing s entered with
  | nil => simpa [VarMap.jsonToVarMap] using h
  | cons x m ih =>
    have hn' : Numbered ((entered ++ [x]) ++ m) := by simpa using hn
    have hput := h.put herased hn'.left (hm x List.mem_cons_self)
    have hrest := ih hput (by simp; omega) hn' fun y hy => hm y (List.mem_cons_of_mem _ hy)
    simpa [VarMap.jsonToVarMap] using hrest

theorem erase (h : s.Has entered erased) (hn : Numbered entered) (herased : erased < entered.length) :
    (s.erase erased).Has entered (erased + 1) := by
  refine ⟨?_, h.blocks⟩
  have hkey (x : Nat × List ε) (hx : x ∈ entered.drop (erased + 1)) : erased < x.1 := by
    obtain ⟨k, hk, rfl⟩ := List.mem_iff_getElem.mp hx
    rw [List.length_drop] at hk
    rw [List.getElem_drop, hn.step (by omega)]
    omega
  have hfirst := hn.step herased
  rw [VarMap.erase, h.vars, List.drop_eq_getElem_cons herased, List.map_cons, List.filter_cons_of_neg
    (by simp [hfirst]), List.filter_map]
  exact congrArg _ (List.filter_eq_self.mpr fun x hx => decide_eq_true (hkey x hx))

theorem earliestStep (h : s.Has entered erased) (hn : Numbered entered)
    (herased : erased < entered.length) : s.earliestStep 1 = some erased := by
  have hmin : (s.dataManVarMap.map Prod.fst).min? = some erased := by
    rw [h.keys hn, List.min?_eq_some_iff]
    exact ⟨by simp only [List.mem_range'_1]; omega, fun k hk => (List.mem_range'_1.mp hk).1⟩
  have hmax : (s.dataManVarMap.map Prod.fst).max? = some (entered.length - 1) := by
    rw [h.keys hn, List.max?_eq_some_iff]
    refine ⟨by simp only [List.mem_range'_1]; omega, fun k hk => ?_⟩
    have := (List.mem_range'_1.mp hk).2
    omega
  rw [VarMap.earliestStep, hmin, hmax]
  simp only [Option.bind_eq_bind, Option.bind_some]
  rw [List.find?_range'_eq_some]
  simp only [VarMap.stepHasMinimumBlocks, h.blocks, List.mem_range'_1]
  exact ⟨by simp [herased], ⟨le_rfl, by omega⟩, fun j _ _ => by omega⟩

theorem earliestStep_eq_none (h : s.Has entered erased) (herased : entered.length ≤ erased) :
    s.earliestStep 1 = none := by
  simp [VarMap.earliestStep, h.vars, List.drop_eq_nil_of_le herased]

theorem vars_erased (h : s.Has entered erased) (hn : Numbered entered)
    (herased : erased < entered.length) : s.vars erased = (some entered[erased].2, s) := by
  have hfirst := hn.step herased
  have hvars : s.dataManVarMap = (erased, some entered[erased].2) ::
      (entered.drop (erased + 1)).map fun (k, v) => (k, some v) := by
    rw [h.vars, List.drop_eq_getElem_cons herased, List.map_cons]
    exact congrArg (fun k => (k, some entered[erased].2) :: _) hfirst
  have hupsert : upsert s.dataManVarMap erased (fun vars => vars.getD none) = s.dataManVarMap := by
    rw [hvars, upsert, if_pos rfl, Option.getD_some]
  rw [VarMap.vars, hupsert, hvars, List.lookup_cons_self, Option.getD_some]
  rw [← hvars]

end VarMap.Has

end VarMap

end DataMan
