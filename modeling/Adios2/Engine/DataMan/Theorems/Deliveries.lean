import Adios2.Engine.DataMan.Theorems.Requests

-- The tasks of the threads of a reader keep what holds in all runs.

namespace DataMan

open Bytes CString Threads

variable {ε : Type} {n : Nat}

section Packs

variable {json : JsonLibrary ε} {p : Parameters 1} {steps : List (List (Block ε))} {c : Nat}
variable {packs : List (List Byte)} {v : View ε} {unpacked : Nat}

theorem Setting.flatten (hs : Setting json p steps c packs) :
    (List.batches c [] (contents p steps)).flatten = contents p steps := by
  refine List.batches_flatten (by simpa using hs.positive) ?_
  rw [List.length_nil, Nat.zero_add, contents, contentsFrom_length]
  exact ⟨_, hs.count.symm⟩

theorem Setting.entered_append (hs : Setting json p steps c packs) (unpacked : Nat) :
    entered p steps c unpacked ++ ((List.batches c [] (contents p steps)).drop unpacked).flatten =
      contents p steps := by
  rw [entered, ← List.flatten_append, List.take_append_drop, hs.flatten]

theorem Setting.numbered_entered (hs : Setting json p steps c packs) (unpacked : Nat) :
    Numbered (entered p steps c unpacked) :=
  Numbered.left (hs.entered_append unpacked ▸ numbered_contents)

theorem Setting.entered_all (hs : Setting json p steps c packs) :
    entered p steps c packs.length = contents p steps := by
  rw [entered, List.take_of_length_le hs.batches_length.le, hs.flatten]

-- The next pack is unpacked, by whichever thread does it.
theorem Presenting.unpack (hs : Setting json p steps c packs) (h : Presenting p steps c v unpacked)
    (hlt : unpacked < packs.length) : ∃ serializer,
    v.reader.serializer.putPackThread json p.endian packs[unpacked] = .ok serializer ∧
      Presenting p steps c { v with reader := { v.reader with serializer } } (unpacked + 1) := by
  have hlt' : unpacked < (List.batches c [] (contents p steps)).length := hs.batches_length ▸ hlt
  have hentered : entered p steps c (unpacked + 1) = entered p steps c unpacked ++
      (List.batches c [] (contents p steps))[unpacked] := by
    rw [entered, entered, List.take_succ_eq_append_getElem hlt', List.flatten_append,
      List.flatten_singleton]
  have hnumbered := hs.numbered_entered (unpacked + 1)
  rw [hentered] at hnumbered
  have hnonempty (x : Nat × List ε) (hx : x ∈ (List.batches c [] (contents p steps))[unpacked]) :
      x.2 ≠ [] :=
    hs.nonempty x (hs.flatten ▸ List.mem_flatten_of_mem (List.getElem_mem hlt') hx)
  have hpack := (hs.isPack hlt hlt').putPackThread hs.lossless (hs.lengths _ (List.getElem_mem hlt))
  refine ⟨_, hpack _, ?_⟩
  exact { h with
    has := by
      rw [hentered]
      have := h.unpacked
      exact h.has.jsonToVarMap (by omega) hnumbered hnonempty
    unpacked := by
      rw [hentered, List.length_append]
      exact h.unpacked.trans (Nat.le_add_right _ _) }

-- The pack that is unpacked next
theorem Unpacking.next (h : Unpacking steps packs v unpacked) {b : List Byte} {l : List (List Byte)}
    (hb : v.reader.putPackThread.toList ++ held v.atRequest = b :: l) :
    ∃ hlt : unpacked < packs.length, b = packs[unpacked] ∧ l <+: packs.drop (unpacked + 1) := by
  have hpending := h.pending
  rw [hb] at hpending
  have hlt : unpacked < packs.length := by
    have := hpending.length_le
    simp only [List.length_cons, List.length_drop] at this
    omega
  rw [List.drop_eq_getElem_cons hlt, List.cons_prefix_cons] at hpending
  exact ⟨hlt, hpending⟩

end Packs

section PutPack

variable {json : JsonLibrary ε} {p : Parameters 1} {steps : List (List (Block ε))} {c : Nat}
variable {packs : List (List Byte)} {v : View ε}

theorem view_update_putPack (cfg : Configuration (Thread 1) (State ε 1) (Task ε 1)) (s : State ε 1)
    (ts : List (Task ε 1)) :
    view { state := s, threads := Function.update cfg.threads (.putPack 0) ts } =
      { view cfg with
        writer := s.writer, reader := s.readers 0, requests := s.requests, atPutPack := ts } := by
  simp [view]

theorem inv_putPack (hs : Setting json p steps c packs)
    {cfg : Configuration (Thread 1) (State ε 1) (Task ε 1)}
    (h : Inv json p steps c packs (view cfg)) {timedOut : Bool} {t : Task ε 1}
    {rest ts : List (Task ε 1)} {s : State ε 1} (hthread : cfg.threads (.putPack 0) = t :: rest)
    (hexec : t.exec json p timedOut cfg.state = .ok (s, ts)) :
    Inv json p steps c packs
      (view { state := s, threads := Function.update cfg.threads (.putPack 0) (ts ++ rest) }) := by
  have ⟨unpacked, hle, hu, hp⟩ := h.unpacking
  have hview : (view cfg).atPutPack = t :: rest := hthread
  have hput := hu.thread
  rw [hview] at hput
  obtain hnil | ⟨b, htask, hb⟩ := hput
  · contradiction
  obtain ⟨rfl, rfl⟩ := List.cons.inj htask
  rw [view_update_putPack]
  have ⟨hlt, hnext, hrest⟩ := hu.next (b := b) (l := held (view cfg).atRequest)
    (by rw [hb]; rfl)
  have ⟨serializer, hunpack, hp'⟩ := hp.unpack hs hlt
  rw [← hnext] at hunpack
  simp only [view_reader] at hunpack
  simp only [Task.exec, ReaderState.putPackThread', hunpack] at hexec
  cases hexec
  simp only [State.modifyReader, Function.update_self, List.append_nil]
  exact {
    sending   := { h.sending with }
    replying  := { h.replying with }
    unpacking := ⟨unpacked + 1, hlt, { hu with
      received := by
        have := hu.received
        simp only [view_reader, Option.toList, List.length_append, List.length_nil] at hb this ⊢
        rw [hb] at this
        simp only [List.length_singleton] at this
        omega
      pending := by simpa using hrest
      thread := .inl rfl }, { hp' with }⟩ }

theorem inv_start {cfg : Configuration (Thread 1) (State ε 1) (Task ε 1)}
    (h : Inv json p steps c packs (view cfg)) {b : List Byte}
    (hb : (cfg.state.readers 0).putPackThread = some b) :
    Inv json p steps c packs (view { cfg with
      threads := Function.update cfg.threads (.putPack 0) [.putPackThread 0 b] }) := by
  have ⟨unpacked, hle, hu, hp⟩ := h.unpacking
  rw [view_update_putPack cfg cfg.state]
  exact {
    sending   := { h.sending with }
    replying  := { h.replying with }
    unpacking := ⟨unpacked, hle, { hu with thread := .inr ⟨b, rfl, hb⟩ }, { hp with }⟩ }

end PutPack

section Request

variable {json : JsonLibrary ε} {p : Parameters 1} {steps : List (List (Block ε))} {c : Nat}
variable {packs : List (List Byte)} {v : View ε}

theorem view_update_request (cfg : Configuration (Thread 1) (State ε 1) (Task ε 1)) (s : State ε 1)
    (ts : List (Task ε 1)) :
    view { state := s, threads := Function.update cfg.threads (.request 0) ts } =
      { view cfg with
        writer := s.writer, reader := s.readers 0, requests := s.requests, atRequest := ts } := by
  simp [view]

theorem Turn.request_cases {t : Task ε 1} {rest rt : List (Task ε 1)} {requests : List (Fin 1)}
    {reply : Option (List Byte)} (h : Turn rt (t :: rest) requests reply) : rest = [] ∧
    (t = .sendRequest 0 ∧ Listening rt ∧ requests = [] ∧ reply = none ∨
      (∃ b, t = .putPack 0 b ∧ Listening rt ∧ requests = [] ∧ reply = none) ∨
      t = .receiveReply 0 ∧ (reply = none ∨ ∃ b, reply = some b ∧ Listening rt ∧ requests = [])) := by
  cases h with
  | popping | sending => simp
  | requested hrt => simp
  | replied hrt => simp [hrt]
  | idle hrt hqt =>
    obtain heq | ⟨b, heq⟩ | heq := hqt
    · cases heq
      exact ⟨rfl, .inl ⟨rfl, hrt, rfl, rfl⟩⟩
    · cases heq
      exact ⟨rfl, .inr (.inl ⟨b, rfl, hrt, rfl, rfl⟩)⟩
    · cases heq

-- What the request thread receives is the next message.
theorem Inv.next_message (hs : Setting json p steps c packs) (h : Inv json p steps c packs v)
    {b : List Byte} (hrt : Listening v.atReply) (hreply : v.reader.reply = some b) :
    (∃ hlt : v.reader.received.length < packs.length, b = packs[v.reader.received.length]) ∨
      v.reader.received.length = packs.length ∧ b = endSignal (steps.length - 1) := by
  have horder := h.sending.order
  rw [View.taken, popped_of_listening hrt, hreply, hs.sent] at horder
  have hget := congrArg (·[v.reader.received.length]?) horder
  simp only [Option.toList, List.nil_append, List.append_assoc, List.singleton_append,
    List.getElem?_append_right le_rfl, Nat.sub_self, List.getElem?_cons_zero] at hget
  by_cases hlt : v.reader.received.length < packs.length
  · rw [List.getElem?_append_left hlt, List.getElem?_eq_getElem hlt, Option.some.injEq] at hget
    exact .inl ⟨hlt, hget⟩
  · have htaken := h.taken_le hs
    rw [View.taken, popped_of_listening hrt, hreply] at htaken
    simp only [Option.toList, List.nil_append, List.length_append, List.length_singleton] at htaken
    have heq : v.reader.received.length = packs.length := by omega
    rw [heq, List.getElem?_append_right le_rfl, Nat.sub_self, List.getElem?_cons_zero,
      Option.some.injEq] at hget
    exact .inr ⟨heq, hget⟩

theorem inv_request (hs : Setting json p steps c packs)
    {cfg : Configuration (Thread 1) (State ε 1) (Task ε 1)}
    (h : Inv json p steps c packs (view cfg)) {timedOut : Bool} {t : Task ε 1}
    {rest ts : List (Task ε 1)} {s : State ε 1} (hthread : cfg.threads (.request 0) = t :: rest)
    (hready : t.Ready cfg.state) (hexec : t.exec json p timedOut cfg.state = .ok (s, ts)) :
    Inv json p steps c packs
      (view { state := s, threads := Function.update cfg.threads (.request 0) (ts ++ rest) }) := by
  obtain ⟨unpacked, hle, hu, hp⟩ := h.unpacking
  have hview : (view cfg).atRequest = t :: rest := hthread
  have hturn := h.replying.turn
  rw [hview] at hturn
  obtain ⟨rfl, hcases⟩ := hturn.request_cases
  have hreceived := hu.received
  have hpending := hu.pending
  have hfinal := hu.final
  have hfinalStep := hu.finalStep
  rw [hview] at hreceived hpending hfinal hfinalStep
  simp only [List.cons_ne_nil, if_false, false_iff] at hreceived hfinal hfinalStep
  rw [view_update_request, List.append_nil]
  obtain ⟨rfl, hrt, hrequests, hreply⟩ | ⟨b, rfl, hrt, hrequests, hreply⟩ | ⟨rfl, hreplied⟩ := hcases
  · cases hexec
    simp only [view_requests] at hrequests
    exact {
      sending   := { h.sending with }
      replying  := { h.replying with
        turn := by
          simp only [hrequests, List.nil_append]
          simp only [view_reader] at hreply
          rw [hreply]
          exact .requested hrt }
      unpacking := ⟨unpacked, hle, { hu with
        received  := by simpa [held] using hreceived
        pending   := by simpa [held] using hpending
        final     := by simpa using hfinal
        finalStep := by simpa using hfinalStep }, { hp with }⟩ }
  · have hnone : (cfg.state.readers 0).putPackThread = none := hready
    simp only [view_requests] at hrequests
    simp only [view_reader] at hreply
    simp only [view_reader, hnone, Option.toList, held, List.nil_append, List.length_singleton,
      add_zero] at hreceived hpending
    have hidle : Turn (view cfg).atReply [.sendRequest 0] ([] : List (Fin 1)) none :=
      .idle hrt (.inl rfl)
    simp only [Task.exec] at hexec
    split at hexec
    case isTrue =>
      cases hexec
      simp only [State.modifyReader, Function.update_self]
      exact {
        sending   := { h.sending with }
        replying  := { h.replying with turn := by simpa only [hrequests, hreply] using hidle }
        unpacking := ⟨unpacked, hle, { hu with
          received  := by simpa [held] using hreceived
          pending   := by simpa [held] using hpending
          final     := by simpa using hfinal
          thread    := by
            obtain hnil | ⟨b', -, hb'⟩ := hu.thread
            · exact .inl hnil
            · simp [hnone] at hb'
          finalStep := by simpa using hfinalStep }, { hp with }⟩ }
    case isFalse =>
      obtain ⟨hlt, hnext, hrest⟩ := hu.next (b := b) (l := [])
        (by simp only [view_reader, hnone, hview]; rfl)
      obtain ⟨serializer, hunpack, hp'⟩ := hp.unpack hs hlt
      rw [← hnext] at hunpack
      simp only [view_reader] at hunpack
      simp only [ReaderState.putPackThread', hunpack] at hexec
      cases hexec
      simp only [State.modifyReader, Function.update_self]
      exact {
        sending   := { h.sending with }
        replying  := { h.replying with turn := by simpa only [hrequests, hreply] using hidle }
        unpacking := ⟨unpacked + 1, hlt, { hu with
          received  := by simpa [hnone, held] using hreceived
          pending   := by simp [hnone, held]
          final     := by simpa using hfinal
          finalStep := by simpa using hfinalStep }, { hp' with }⟩ }
  · have hne : (cfg.state.readers 0).reply ≠ none := hready
    obtain hnone | ⟨b, hreply, hrt, hrequests⟩ := hreplied
    · exact absurd hnone hne
    have hnext := h.next_message hs hrt hreply
    simp only [view_requests] at hrequests
    simp only [view_reader] at hreply hnext hfinal hreceived hpending
    have hpop := popped_of_listening hrt
    simp only [held, List.append_nil, add_zero] at hreceived hpending
    have hsending {finalStep : Int} {ts : List (Task ε 1)} : Sending json p steps { view cfg with
        reader    := { cfg.state.readers 0 with
          reply := none, received := (cfg.state.readers 0).received ++ [b], finalStep }
        atRequest := ts } := { h.sending with
      order := by
        have horder := h.sending.order
        simpa only [View.taken, hpop, view_reader, hreply, Option.toList, List.nil_append,
          List.append_nil] using horder }
    have hcounted := h.replying.counted
    have hmessage : b ∈ messages json p steps := by
      rw [← h.sending.order, View.taken, view_reader, hreply]
      simp
    have hlength : b.length ≠ 0 := fun hb =>
      hs.message_ne_nil hmessage (List.length_eq_zero_iff.mp hb)
    simp only [Task.exec, hreply, if_neg hlength] at hexec
    obtain ⟨hlt, hpack⟩ | ⟨hall, hend⟩ := hnext
    · obtain ⟨_, hisPack⟩ := hs.exists_isPack hlt
      have hnotFinal := hisPack.finalStepIn hs.lossless
      rw [← hpack] at hnotFinal
      rw [hnotFinal, Outcome.ok_bind] at hexec
      cases hexec
      simp only [State.modifyReader, Function.update_self]
      exact {
        sending   := hsending
        replying  := { h.replying with
          turn    := by
            rw [hrequests]
            exact .idle hrt (.inr (.inl ⟨b, rfl⟩))
          counted := by simpa [hreply] using hcounted }
        unpacking := ⟨unpacked, hle, { hu with
          received  := by
            simp only [held, List.length_append, List.length_singleton, List.cons_ne_nil, if_false]
            omega
          pending   := by
            refine hpending.concat ?_
            rw [List.getElem?_drop, ← hreceived, List.getElem?_eq_getElem hlt, hpack]
          final     := by simpa using hlt.ne
          finalStep := by simpa using hfinalStep }, { hp with }⟩ }
    · have hsteps := List.length_pos_iff.mpr hs.steps_ne
      have hlast : ((steps.length - 1 : Nat) : Int) = steps.length - 1 := by omega
      have hisFinal := finalStepIn_endSignal (k := steps.length - 1) hs.lossless (by
        have := hs.steps_lt
        omega)
      rw [hlast, ← hend] at hisFinal
      rw [hisFinal, Outcome.ok_bind] at hexec
      cases hexec
      simp only [State.modifyReader, Function.update_self]
      exact {
        sending   := hsending
        replying  := { h.replying with
          turn    := by
            rw [hrequests]
            exact .idle hrt (.inr (.inr rfl))
          counted := by simpa [hreply] using hcounted }
        unpacking := ⟨unpacked, hle, { hu with
          received  := by simpa [held] using hreceived
          pending   := by simpa [held] using hpending
          final     := by simpa using hall
          finalStep := by simp }, { hp with }⟩ }

end Request

section Reader

variable {json : JsonLibrary ε} {p : Parameters 1} {steps : List (List (Block ε))} {c : Nat}
variable {packs : List (List Byte)} {v : View ε} {unpacked : Nat}

theorem view_update_reader (cfg : Configuration (Thread 1) (State ε 1) (Task ε 1)) (s : State ε 1)
    (ts : List (Task ε 1)) :
    view { state := s, threads := Function.update cfg.threads (.reader 0) ts } =
      { view cfg with
        writer := s.writer, reader := s.readers 0, requests := s.requests, atReader := ts } := by
  simp [view]

theorem Presenting.presented_le (hs : Setting json p steps c packs)
    (h : Presenting p steps c v unpacked) : v.reader.presented.length ≤ steps.length := by
  have hlength := congrArg List.length (hs.entered_append unpacked)
  rw [List.length_append, contents, contentsFrom_length] at hlength
  have := h.unpacked
  omega

-- The end of the stream is where all steps have been presented and the final step is known.
theorem atEndOfStream_iff (hs : Setting json p steps c packs) (hu : Unpacking steps packs v unpacked)
    (hp : Presenting p steps c v unpacked) :
    v.reader.atEndOfStream = true ↔
      v.atRequest = [] ∧ v.reader.presented.length = steps.length := by
  have hle := hp.presented_le hs
  have hne := List.length_pos_iff.mpr hs.steps_ne
  have hlt := hs.steps_lt
  rw [ReaderState.atEndOfStream, hu.finalStep, hp.current, Bool.and_eq_true, decide_eq_true_iff,
    decide_eq_true_iff]
  split
  case isTrue h =>
    simp only [h, true_and]
    omega
  case isFalse h =>
    simp only [h, false_and, iff_false]
    omega

theorem inv_reader (hs : Setting json p steps c packs)
    {cfg : Configuration (Thread 1) (State ε 1) (Task ε 1)}
    (h : Inv json p steps c packs (view cfg)) {timedOut : Bool} {t : Task ε 1}
    {rest ts : List (Task ε 1)} {s : State ε 1} (hthread : cfg.threads (.reader 0) = t :: rest)
    (hawaits : Awaits steps cfg (.run (.reader 0) timedOut)) (hready : t.Ready cfg.state)
    (hexec : t.exec json p timedOut cfg.state = .ok (s, ts)) :
    Inv json p steps c packs
      (view { state := s, threads := Function.update cfg.threads (.reader 0) (ts ++ rest) }) := by
  have ⟨unpacked, hle, hu, hp⟩ := h.unpacking
  have hview : (view cfg).atReader = t :: rest := hthread
  have hpresented := hp.presented_le hs
  have hend := atEndOfStream_iff hs hu hp
  have hreading := hp.reading
  have hhas := hp.has
  have hended := hp.ended
  rw [hview] at hreading hhas hended
  rw [view_update_reader]
  obtain heq | ⟨heq, hlt⟩ | ⟨heq, hpos⟩ | ⟨heq, -⟩ := hreading
  · obtain ⟨rfl, rfl⟩ := List.cons.inj heq
    simp only [Awaits, hthread] at hawaits
    simp only [Task.exec] at hexec
    split at hexec
    case isTrue hEnd =>
      cases hexec
      simp only [State.modifyReader, Function.update_self, List.append_nil]
      exact {
        sending   := { h.sending with }
        replying  := { h.replying with }
        unpacking := ⟨unpacked, hle, { hu with }, { hp with
          has     := by simpa [inStep] using hhas
          reading := .inr (.inr (.inr ⟨rfl, (hend.mp hEnd).2⟩))
          ended   := by simp }⟩ }
    case isFalse hnotEnd =>
      cases hexec
      have hlt : (cfg.state.readers 0).presented.length < steps.length := by
        refine lt_of_le_of_ne hpresented fun hall => hnotEnd (hend.mpr ⟨?_, hall⟩)
        have hcurrent := hp.current
        have hfinal := hu.finalStep
        simp only [view_reader] at hcurrent hfinal
        by_contra hne
        rw [if_neg hne] at hfinal
        exact hawaits (by rw [hcurrent, hall]) hfinal
      exact {
        sending   := { h.sending with }
        replying  := { h.replying with }
        unpacking := ⟨unpacked, hle, { hu with }, { hp with
          has     := by simpa [inStep] using hhas
          reading := .inr (.inl ⟨rfl, hlt⟩)
          ended   := by simpa using hended }⟩ }
  · obtain ⟨rfl, rfl⟩ := List.cons.inj heq
    have hnumbered := hs.numbered_entered unpacked
    simp only [view_reader, inStep, Nat.sub_zero] at hhas
    have hentered : (cfg.state.readers 0).presented.length <
        (entered p steps c unpacked).length := by
      by_contra hge
      exact hready (hhas.earliestStep_eq_none (not_lt.mp hge))
    have hvars := hhas.vars_erased hnumbered hentered
    simp only [Task.exec, hhas.earliestStep hnumbered hentered, hvars] at hexec
    cases hexec
    simp only [State.modifyReader, Function.update_self]
    have hcontents : (contents p steps)[(cfg.state.readers 0).presented.length]? =
        some (entered p steps c unpacked)[(cfg.state.readers 0).presented.length] := by
      rw [← hs.entered_append unpacked, List.getElem?_append_left hentered,
        List.getElem?_eq_getElem hentered]
    have hstep := hnumbered.step hentered
    have hpresented' := hp.presented
    simp only [view_reader] at hpresented'
    exact {
      sending   := { h.sending with }
      replying  := { h.replying with }
      unpacking := ⟨unpacked, hle, { hu with }, { hp with
        has       := by simpa [inStep] using hhas
        presented := by
          simp only [List.length_append, List.length_singleton]
          rw [List.take_add_one, hcontents, List.map_append, ← hpresented']
          simp [hstep]
        unpacked  := by simpa using hentered
        current   := by simp
        reading   := .inr (.inr (.inl ⟨rfl, by simp⟩))
        ended     := by simpa using hended }⟩ }
  · obtain ⟨rfl, rfl⟩ := List.cons.inj heq
    cases hexec
    simp only [State.modifyReader, Function.update_self, ReaderState.endStep]
    have hcurrent := hp.current
    have hentered := hp.unpacked
    simp only [view_reader, inStep] at hcurrent hentered hhas hpos
    have hstep : (cfg.state.readers 0).currentStep.toNat =
        (cfg.state.readers 0).presented.length - 1 := by omega
    have herase := hhas.erase (hs.numbered_entered unpacked) (by omega)
    rw [Nat.sub_add_cancel hpos, ← hstep] at herase
    exact {
      sending   := { h.sending with }
      replying  := { h.replying with }
      unpacking := ⟨unpacked, hle, { hu with }, { hp with
        has     := by simpa [inStep] using herase
        reading := .inl rfl
        ended   := by simpa using hended }⟩ }
  · cases heq

end Reader

section Runs

variable {json : JsonLibrary ε} {p : Parameters 1} {steps : List (List (Block ε))} {c : Nat}
variable {packs : List (List Byte)} {cfg cfg' : Configuration (Thread 1) (State ε 1) (Task ε 1)}

theorem Inv.step (hs : Setting json p steps c packs) (h : Inv json p steps c packs (view cfg))
    {ev : Event (Thread 1) (Task ε 1) Bool} (hawaits : Awaits steps cfg ev)
    (hstep : Step (program json p) cfg ev cfg') : Inv json p steps c packs (view cfg') := by
  cases hstep with
  | @run i timedOut t rest ts s hthread hready hexec =>
    cases i with
    | writer => exact inv_writer h hthread hready hexec
    | reply => exact inv_reply hs h hthread hready hexec
    | reader i =>
      obtain rfl := Subsingleton.elim i 0
      exact inv_reader hs h hthread hawaits hready hexec
    | request i =>
      obtain rfl := Subsingleton.elim i 0
      exact inv_request hs h hthread hready hexec
    | putPack i =>
      obtain rfl := Subsingleton.elim i 0
      exact inv_putPack hs h hthread hexec
  | @start i ts hidle hbegins =>
    cases i with
    | writer | reply | reader | request => exact hbegins.elim
    | putPack i =>
      obtain rfl := Subsingleton.elim i 0
      obtain ⟨b, hb, rfl⟩ := hbegins
      exact inv_start h hb

theorem inv_reaches (hs : Setting json p steps c packs)
    (h : Reaches (program json p) (Awaits steps) (opened steps) cfg) :
    Inv json p steps c packs (view cfg) :=
  h.invariant (I := fun cfg => Inv json p steps c packs (view cfg)) inv_opened
    fun h hawaits hstep => h.step hs hawaits hstep

end Runs

end DataMan
