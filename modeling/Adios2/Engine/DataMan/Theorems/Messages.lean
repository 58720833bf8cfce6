import Adios2.Engine.DataMan.DataManEngine
import Adios2.Format.DataMan.Theorems.Packs
import Adios2.Lib.Lists

-- What the writer puts into the queue, in any run: its packs, and behind them the number of the final
-- step.

namespace DataMan

open Bytes CString

variable {ε : Type} {n : Nat}

section Sends

variable (json : JsonLibrary ε) (p : Parameters n)

-- The buffers that a list of tasks puts into the queue, from the state that only the application of
-- the writer works on.
def sends : List (Task ε n) → Int → Int → WriterBuffer ε → List (List Byte)
  | [], _, _, _ => []
  | .beginStep :: ts, step, combined, s =>
    sends ts (step + 1) combined (if combined = 0 then newWriterBuffer else s)
  | .putData b :: ts, step, combined, s => sends ts step combined (s.putData step.toNat b)
  | .endStep :: ts, step, combined, s =>
    if p.combiningSteps ≤ combined + 1 then
      s.getLocalPack json p.endian :: sends ts step 0 s
    else
      sends ts step (combined + 1) s
  | .closePack :: ts, step, combined, s =>
    if combined < p.combiningSteps ∧ 0 < combined then
      s.getLocalPack json p.endian :: sends ts step combined s
    else
      sends ts step combined s
  | .closeFinalStep :: ts, step, combined, s => endSignal step :: sends ts step combined s
  | _ :: ts, step, combined, s => sends ts step combined s

def messages (steps : List (List (Block ε))) : List (List Byte) :=
  sends json p (writerTasks steps) (-1) 0 {}

end Sends

-- The entries of each step. The data of a pack begin behind its two numbers.
def contentsFrom (combiningSteps : Nat) : Nat → Nat → List (List (Block ε)) → Metadata ε
  | _, _, []                  => []
  | step, pos, blocks :: rest =>
    let pos := if step % combiningSteps = 0 then 16 else pos
    (step, entriesFrom pos blocks) ::
      contentsFrom combiningSteps (step + 1) (pos + dataLength blocks) rest

def contents (p : Parameters n) (steps : List (List (Block ε))) : Metadata ε :=
  contentsFrom p.combiningSteps.toNat 0 16 steps

section Contents

variable {c step pos : Nat} {steps : List (List (Block ε))}

-- The first step has a buffer of its own.
theorem contentsFrom_start (pos pos' : Nat) :
    contentsFrom c 0 pos steps = contentsFrom c 0 pos' steps := by
  cases steps <;> simp [contentsFrom]

@[simp]
theorem contentsFrom_length : (contentsFrom c step pos steps).length = steps.length := by
  induction steps generalizing step pos with
  | nil => rfl
  | cons blocks steps ih => simp [contentsFrom, ih]

theorem contentsFrom_keys :
    (contentsFrom c step pos steps).map Prod.fst = List.range' step steps.length := by
  induction steps generalizing step pos with
  | nil => rfl
  | cons blocks steps ih => simp [contentsFrom, ih, List.range'_succ]

theorem contentsFrom_ne_nil (h : ∀ blocks ∈ steps, blocks ≠ []) :
    ∀ x ∈ contentsFrom c step pos steps, x.2 ≠ [] := by
  induction steps generalizing step pos with
  | nil => simp [contentsFrom]
  | cons blocks steps ih =>
    have ⟨hblocks, hsteps⟩ := List.forall_mem_cons.mp h
    exact List.forall_mem_cons.mpr ⟨entriesFrom_ne_nil hblocks, ih hsteps⟩

theorem numbered_contents {p : Parameters n} : Numbered (contents p steps) := by
  rw [Numbered, contents, contentsFrom_keys, contentsFrom_length, List.range_eq_range']

end Contents

-- A buffer that `GetLocalPack` has made from the metadata.
def IsPack (json : JsonLibrary ε) (e : Endian) (buffer : List Byte) (m : Metadata ε) : Prop :=
  ∃ s : WriterBuffer ε, 16 ≤ s.localBuffer.length ∧ s.metadataJson = m ∧
    buffer = s.getLocalPack json e

section Messages

variable {json : JsonLibrary ε} {p : Parameters n}

theorem IsPack.ne_nil {e : Endian} {buffer : List Byte} {m : Metadata ε}
    (h : IsPack json e buffer m) : buffer ≠ [] := by
  obtain ⟨s, hbuffer, rfl, rfl⟩ := h
  have := getLocalPack_length json e s
  exact List.ne_nil_of_length_pos (by omega)

-- No pack is taken for the number of the final step.
theorem IsPack.finalStepIn {e : Endian} {buffer : List Byte} {m : Metadata ε}
    (hjson : json.Lossless) (h : IsPack json e buffer m) : finalStepIn json buffer = .ok none := by
  obtain ⟨s, hbuffer, rfl, rfl⟩ := h
  unfold DataMan.finalStepIn
  split
  case isFalse => rfl
  case isTrue hlength =>
    have ⟨text, htext, hshort⟩ := cString_getLocalPack hlength
    rw [htext, Outcome.ok_bind]
    split
    case h_1 k hparse => exact absurd hparse (hjson.parse_short text k hshort)
    case h_2 => rfl

theorem IsPack.putPackThread {e : Endian} {buffer : List Byte} {m : Metadata ε}
    (hjson : json.Lossless) (h : IsPack json e buffer m) (hlength : buffer.length < 2 ^ 64)
    (r : VarMap ε) : r.putPackThread json e buffer = .ok (r.jsonToVarMap m) := by
  obtain ⟨s, hbuffer, rfl, rfl⟩ := h
  exact putPackThread_getLocalPack hjson hbuffer hlength r

theorem signedDecimal_noNul (k : Int) : 0 ∉ signedDecimal k := by
  have hdigits (m : Nat) : 0 ∉ decimal m := fun h => by
    have := decimal_digits m 0 h
    simp [isDigit] at this
  unfold signedDecimal
  split
  · exact hdigits _
  · simp only [List.mem_cons, not_or]
    exact ⟨by decide, hdigits _⟩

theorem finalStepText_noNul (k : Int) : 0 ∉ finalStepText k := by
  simp only [finalStepText, List.mem_append, not_or]
  exact ⟨⟨by decide, signedDecimal_noNul k⟩, by decide⟩

theorem finalStepIn_endSignal (hjson : json.Lossless) {k : Nat} (hk : k < 2 ^ 63) :
    finalStepIn json (endSignal k) = .ok (some (k : Int)) := by
  have hdecimal : (signedDecimal k).length ≤ 20 := by
    rw [signedDecimal, if_pos (by omega)]
    exact decimal_length_le (by omega) (by simp only [Int.toNat_natCast]; omega)
  have hfront : (ascii "\x7b\"FinalStep\":").length = 13 := by decide
  have hback : (ascii "\x7d").length = 1 := by decide
  have hlength : (endSignal k).length < 64 := by
    simp only [endSignal, finalStepText, List.length_append, List.length_singleton]
    omega
  rw [finalStepIn, if_pos hlength, endSignal, cString_append_nul (finalStepText_noNul k),
    Outcome.ok_bind, hjson.parse_finalStep]
  rfl

theorem endSignal_ne_nil (k : Int) : endSignal k ≠ [] := by
  simp [endSignal]

section Sending

theorem sends_putData (blocks : List (Block ε)) (ts : List (Task ε n)) (step combined : Int)
    (s : WriterBuffer ε) :
    sends json p (blocks.map .putData ++ ts) step combined s =
      sends json p ts step combined (blocks.foldl (WriterBuffer.putData · step.toNat) s) := by
  induction blocks generalizing s with
  | nil => rfl
  | cons b blocks ih => exact ih _

-- From any step on, in front of which a batch of steps has begun, the packs of the batches are sent.
theorem sends_steps (json : JsonLibrary ε) {c : Nat} (hp : p.combiningSteps = c) {steps : List (List (Block ε))}
    (hblocks : ∀ blocks ∈ steps, blocks ≠ []) (step : Nat) (begun : Metadata ε) (s : WriterBuffer ε)
    (ts : List (Task ε n)) (hstep : step % c = begun.length) (hbegun : begun.length < c)
    (hkeys : ∀ k ∈ begun.map Prod.fst, k < step)
    (hs : begun ≠ [] → 16 ≤ s.localBuffer.length ∧ s.metadataJson = begun) :
    ∃ packs s', List.Forall₂ (IsPack json p.endian) packs
        (List.batches c begun (contentsFrom c step s.localBuffer.length steps)) ∧
      sends json p (steps.flatMap stepTasks ++ ts) (step - 1) begun.length s =
        packs ++ sends json p ts ((step + steps.length : Nat) - 1)
          ((step + steps.length) % c : Nat) s' := by
  induction steps generalizing step begun s with
  | nil => exact ⟨[], s, .nil, by simp [hstep]⟩
  | cons blocks steps ih =>
    obtain ⟨hblock, hsteps⟩ := List.forall_mem_cons.mp hblocks
    -- the buffer that the blocks of the step are put into
    obtain ⟨s₀, hs₀⟩ : ∃ s₀, s₀ = if (begun.length : Int) = 0 then newWriterBuffer else s := ⟨_, rfl⟩
    have hmeta : s₀.metadataJson = begun := by
      by_cases hnil : begun = []
      · simp [hs₀, hnil, newWriterBuffer]
      · simpa [hs₀, hnil] using (hs hnil).2
    have hpos : s₀.localBuffer.length =
        if step % c = 0 then 16 else s.localBuffer.length := by
      by_cases hnil : begun = []
      · simp [hs₀, hnil, hstep, newWriterBuffer]
      · simp [hs₀, hnil, hstep]
    have hlength : 16 ≤ s₀.localBuffer.length := by
      by_cases hnil : begun = []
      · simp [hs₀, hnil, newWriterBuffer]
      · simpa [hs₀, hnil] using (hs hnil).1
    have hnotMem : step ∉ s₀.metadataJson.map Prod.fst := fun hmem =>
      lt_irrefl _ (hkeys step (hmeta ▸ hmem))
    have hput := foldl_putData s₀ hnotMem hblock
    rw [hmeta] at hput
    obtain ⟨s₁, hs₁⟩ : ∃ s₁, s₁ = blocks.foldl (WriterBuffer.putData · step) s₀ := ⟨_, rfl⟩
    rw [← hs₁] at hput
    have hpos₁ : s₁.localBuffer.length =
        (if step % c = 0 then 16 else s.localBuffer.length) + dataLength blocks := by
      simp [hput, ← hpos, dataLength, List.length_flatMap]
    have hlength₁ : 16 ≤ s₁.localBuffer.length := by
      simp only [hput, List.length_append]
      omega
    have htasks : (blocks :: steps).flatMap stepTasks ++ ts = (.beginStep ::
        (blocks.map .putData ++ (.endStep :: (steps.flatMap stepTasks ++ ts))) : List (Task ε n)) := by
      simp [stepTasks]
    have hsend : sends json p ((blocks :: steps).flatMap stepTasks ++ ts) (step - 1) begun.length s =
        sends json p (.endStep :: (steps.flatMap stepTasks ++ ts)) step begun.length s₁ := by
      conv_lhs => rw [htasks, sends, ← hs₀, sends_putData, sub_add_cancel, Int.toNat_natCast, ← hs₁]
    have hnext : (step + 1 : Nat) - 1 = (step : Int) := by simp
    have hcount : step + 1 + steps.length = step + (steps.length + 1) := by omega
    rw [hsend, sends, hp, contentsFrom, ← hpos, List.batches, List.length_cons]
    have hmod' : (step + 1) % c = (begun.length + 1) % c := by rw [← hstep, Nat.mod_add_mod]
    by_cases hfull : c ≤ begun.length + 1
    case pos =>
      have hmod : (step + 1) % c = 0 := by
        rw [hmod', show begun.length + 1 = c by omega, Nat.mod_self]
      obtain ⟨packs, s', hpacks, hrest⟩ := ih hsteps (step + 1) [] s₁ hmod
        (by simp; omega) (by simp) (by simp)
      rw [if_pos hfull, if_pos (by omega)]
      refine ⟨_ :: packs, s', .cons ⟨s₁, hlength₁, by rw [hput], rfl⟩ ?_, ?_⟩
      · simpa only [hpos₁, hpos] using hpacks
      · rw [hnext, hcount] at hrest
        exact congrArg _ hrest
    case neg =>
      have hmod : (step + 1) % c = begun.length + 1 := by
        rw [hmod', Nat.mod_eq_of_lt (by omega)]
      obtain ⟨packs, s', hpacks, hrest⟩ := ih hsteps (step + 1)
        (begun ++ [(step, entriesFrom s₀.localBuffer.length blocks)]) s₁
        (by simpa using hmod) (by simp; omega)
        (by
          simp only [List.map_append, List.mem_append, List.map_cons, List.map_nil,
            List.mem_singleton]
          rintro k (hk | rfl)
          · have := hkeys k hk
            omega
          · omega)
        (fun _ => ⟨hlength₁, by rw [hput]⟩)
      rw [if_neg hfull, if_neg (by omega)]
      refine ⟨packs, s', ?_, ?_⟩
      · simpa only [hpos₁, hpos] using hpacks
      · rw [hnext, hcount] at hrest
        simpa using hrest

-- The writer sends the packs of all batches and the number of the final step.
theorem messages_eq (json : JsonLibrary ε) {c : Nat} (hp : p.combiningSteps = c) (hc : 0 < c)
    {steps : List (List (Block ε))} (hblocks : ∀ blocks ∈ steps, blocks ≠ [])
    (hdvd : c ∣ steps.length) : ∃ packs,
      List.Forall₂ (IsPack json p.endian) packs (List.batches c [] (contents p steps)) ∧
      messages json p steps = packs ++ [endSignal (steps.length - 1)] := by
  have ⟨packs, s', hpacks, hsends⟩ := sends_steps json hp hblocks 0 [] {} closeTasks (by simp) (by simpa using hc) (by simp) (by simp)
  refine ⟨packs, ?_, ?_⟩
  · rw [contents, hp, Int.toNat_natCast, contentsFrom_start _ 0]
    exact hpacks
  · have hclose (k : Int) : sends json p closeTasks k 0 s' = [endSignal k] := by
      simp [closeTasks, sends]
    rw [Nat.zero_add, Nat.mod_eq_zero_of_dvd hdvd] at hsends
    exact hsends.trans (congrArg _ (hclose _))

end Sending

end Messages

end DataMan
