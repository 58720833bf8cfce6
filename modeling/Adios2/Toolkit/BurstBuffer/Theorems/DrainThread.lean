import Mathlib
import Adios2.Toolkit.BurstBuffer.Theorems.ExecutedOperations

-- The drain thread executes what the writer has added, in all runs in which no operation is added
-- between its look at the queue and its look at the flag.

namespace BurstBuffer

open Bytes Threads

-- The files that a drain has to do with: those to read from, and what is on disk before.
structure Disk where
  sources : List Byte → Option (List Byte)
  targets : List Byte → Option (List Byte)

-- What a list of operations makes of the files.
def Disk.after (disk : Disk) (fdos : List FileDrainOperation) : Contents :=
  fdos.foldl (Contents.apply disk.sources) { targets := disk.targets }

theorem Disk.after_append (disk : Disk) (fdos : List FileDrainOperation) (fdo : FileDrainOperation) :
    disk.after (fdos ++ [fdo]) = (disk.after fdos).apply disk.sources fdo := by
  rw [after, List.foldl_append]
  rfl

-- The writer adds operations until it calls `Finish`.
def program (bufferSize : Nat) (disk : Disk) : Program Thread State Task (List Nat) where
  ready _ _           := True
  exec answers t s    := t.exec bufferSize answers s
  begins i s ts       :=
    match i with
    | .writer  => ts = [.finish] ∨ s.finish = false ∧
      ∃ fdo, ts = [.addOperation fdo] ∧ Proper disk.sources (disk.after s.added) fdo
    | .drainer => False

-- After `Start`
def started (disk : Disk) : Configuration Thread State Task where
  state     := { files := { sources := disk.sources, targets := disk.targets } }
  threads
    | .writer  => []
    | .drainer => [.look]

-- When the drain thread finds that it has to finish, nothing has come to the queue that it has found
-- empty. What it executes finds the stream of its target open as it has to be, and all data.
def Keeps (bufferSize : Nat) (c : Configuration Thread State Task) :
    Event Thread Task (List Nat) → Prop
  | .run .drainer answers =>
    match c.threads .drainer with
    | .checkFinish :: _ => c.state.finish = true → c.state.operations = []
    | .execute fdo :: _ => Opened c.state.files fdo ∧ Found bufferSize fdo answers
    | _                 => True
  | _ => True

-- The operations are executed in order, each at most once and all of them when the thread has ended,
-- and the files are what the executed operations mean.
structure Drained (disk : Disk) (c : Configuration Thread State Task) : Prop where
  order   : c.state.executed <+: c.state.added
  all     : c.threads .drainer = [] → c.state.executed = c.state.added
  targets : c.state.files.targets = (disk.after c.state.executed).targets

section Invariant

variable {bufferSize : Nat} {disk : Disk} {c c' : Configuration Thread State Task}

-- What is in the queue, for each place where the drain thread can be.
def Queued (s : State) : List Task → Prop
  | [.look] | [.checkFinish] => s.added = s.executed ++ s.operations
  | [.execute fdo]           => s.added = s.executed ++ s.operations ∧ s.operations.head? = some fdo
  | [.pop]                   => s.added = s.executed ++ s.operations.tail ∧ s.operations ≠ []
  | []                       => s.added = s.executed ∧ s.finish = true
  | _                        => False

def Writing (disk : Disk) (s : State) (ts : List Task) : Prop :=
  ts = [] ∨ ts = [.finish] ∨ s.finish = false ∧
    ∃ fdo, ts = [.addOperation fdo] ∧ Proper disk.sources (disk.after s.added) fdo

structure Inv (disk : Disk) (c : Configuration Thread State Task) : Prop where
  sources : c.state.files.sources = disk.sources
  streams : Matches c.state.files (disk.after c.state.executed)
  proper  : ∀ before fdo after, c.state.added = before ++ fdo :: after →
    Proper disk.sources (disk.after before) fdo
  queued  : Queued c.state (c.threads .drainer)
  writing : Writing disk c.state (c.threads .writer)

theorem inv_started : Inv disk (started disk) where
  sources := rfl
  streams := ⟨rfl, fun _ _ _ => .inl ⟨rfl, rfl⟩, fun _ _ h => nomatch h⟩
  proper before fdo after h := by simp [started] at h
  queued  := rfl
  writing := .inl rfl

theorem Inv.drained (h : Inv disk c) : Drained disk c where
  order   := by
    have hq := h.queued
    unfold Queued at hq
    split at hq
    case h_1 | h_2 => exact hq ▸ List.prefix_append _ _
    case h_3 | h_4 => exact hq.1 ▸ List.prefix_append _ _
    case h_5 => exact hq.1 ▸ List.prefix_refl _
    case h_6 => contradiction
  all hend := by
    have hq := h.queued
    rw [hend] at hq
    exact hq.1.symm
  targets := h.streams.targets

-- An operation that is added comes to the end of the queue.
theorem Queued.add {s : State} {ts : List Task} (h : Queued s ts) (hfinish : s.finish = false)
    (fdo : FileDrainOperation) :
    Queued { s with operations := s.operations ++ [fdo], added := s.added ++ [fdo] } ts := by
  unfold Queued at h ⊢
  split at h
  case h_1 | h_2 => simp [h]
  case h_3 fdo' =>
    obtain ⟨hadded, hhead⟩ := h
    exact ⟨by simp [hadded], by simp [List.head?_append, hhead]⟩
  case h_4 =>
    obtain ⟨hadded, hne⟩ := h
    exact ⟨by simp [hadded, List.tail_append_of_ne_nil hne], by simp⟩
  case h_5 => exact absurd (hfinish.symm.trans h.2) (by simp)
  case h_6 => contradiction

theorem Queued.finish {s : State} {ts : List Task} (h : Queued s ts) :
    Queued { s with finish := true } ts := by
  unfold Queued at h ⊢
  split at h
  case h_1 | h_2 | h_3 | h_4 => exact h
  case h_5 => exact ⟨h.1, rfl⟩
  case h_6 => contradiction

theorem inv_writer {answers : List Nat} {t : Task} {rest ts : List Task} {s : State}
    (h : Inv disk c) (hthread : c.threads .writer = t :: rest)
    (hexec : t.exec bufferSize answers c.state = .ok (s, ts)) :
    Inv disk { state := s, threads := Function.update c.threads .writer (ts ++ rest) } := by
  have hwriting := h.writing
  rw [hthread] at hwriting
  have hother : Function.update c.threads .writer (ts ++ rest) .drainer = c.threads .drainer := by
    simp
  obtain hnil | hfinish | ⟨hfinish, fdo, hadd, hproper⟩ := hwriting
  · contradiction
  · obtain ⟨rfl, rfl⟩ := List.cons.inj hfinish
    cases hexec
    refine ⟨h.sources, h.streams, h.proper, ?_, .inl (by simp)⟩
    simp only [hother]
    exact h.queued.finish
  · obtain ⟨rfl, rfl⟩ := List.cons.inj hadd
    cases hexec
    refine ⟨h.sources, h.streams, ?_, ?_, .inl (by simp)⟩
    · intro before fdo' after heq
      simp only at heq
      cases List.eq_nil_or_concat after with
      | inl hnil =>
        rw [hnil] at heq
        have ⟨hbefore, hlast⟩ := List.append_inj' heq rfl
        cases hlast
        exact hbefore ▸ hproper
      | inr hconcat =>
        obtain ⟨after, last, rfl⟩ := hconcat
        rw [List.concat_eq_append, ← List.cons_append, ← List.append_assoc] at heq
        exact h.proper before fdo' after (List.append_inj' heq rfl).1
    · simp only [hother]
      exact h.queued.add hfinish fdo

-- An operation that is executed next is one that has been added.
theorem Inv.execute (h : Inv disk c) (hbuffer : 0 < bufferSize) {fdo : FileDrainOperation}
    {answers : List Nat} (hthread : c.threads .drainer = [.execute fdo])
    (hopened : Opened c.state.files fdo) (hfound : Found bufferSize fdo answers) :
    ∃ files, BurstBuffer.execute bufferSize fdo { c.state.files with answers } = .ok () files ∧
      files.sources = disk.sources ∧ Matches files (disk.after (c.state.executed ++ [fdo])) := by
  have hq := h.queued
  rw [hthread] at hq
  obtain ⟨hadded, hhead⟩ := hq
  obtain ⟨rest, hrest⟩ := List.head?_eq_some_iff.mp hhead
  rw [hrest] at hadded
  have hproper := h.proper _ _ _ hadded
  have hmatches : Matches { c.state.files with answers } (disk.after c.state.executed) :=
    ⟨h.streams.targets, h.streams.input, h.streams.output⟩
  have ⟨files, hfiles, hm, hs⟩ := matches_execute hmatches hbuffer
    (by simpa only [h.sources] using hproper) hopened hfound
  refine ⟨files, hfiles, hs.trans h.sources, ?_⟩
  rw [disk.after_append]
  simpa only [h.sources] using hm

theorem inv_drainer (hbuffer : 0 < bufferSize) {answers : List Nat} {t : Task}
    {rest ts : List Task} {s : State} (h : Inv disk c) (hthread : c.threads .drainer = t :: rest)
    (hexec : t.exec bufferSize answers c.state = .ok (s, ts))
    (hkeeps : Keeps bufferSize c (.run .drainer answers)) :
    Inv disk { state := s, threads := Function.update c.threads .drainer (ts ++ rest) } := by
  have hq := h.queued
  have hother : Function.update c.threads .drainer (ts ++ rest) .writer = c.threads .writer := by
    simp
  simp only [Keeps] at hkeeps
  unfold Queued at hq
  split at hq
  case h_1 heq =>
    obtain ⟨rfl, rfl⟩ := List.cons.inj (hthread.symm.trans heq)
    simp only [Task.exec] at hexec
    split at hexec
    case h_1 =>
      cases hexec
      exact { h with queued := by simpa [Queued] using hq, writing := hother ▸ h.writing }
    case h_2 fdo fdos hops =>
      cases hexec
      have hqueued : Queued c.state [.execute fdo] := ⟨hq, by rw [hops]; rfl⟩
      exact { h with queued := by simpa using hqueued, writing := hother ▸ h.writing }
  case h_2 heq =>
    obtain ⟨rfl, rfl⟩ := List.cons.inj (hthread.symm.trans heq)
    simp only [heq] at hkeeps
    cases hexec
    cases hfinish : c.state.finish with
    | false => exact { h with queued := by simpa [Queued] using hq, writing := hother ▸ h.writing }
    | true =>
      rw [hkeeps hfinish, List.append_nil] at hq
      exact { h with
        queued  := by simpa [Queued] using ⟨hq, hfinish⟩
        writing := hother ▸ h.writing }
  case h_3 fdo heq =>
    obtain ⟨rfl, rfl⟩ := List.cons.inj (hthread.symm.trans heq)
    simp only [heq] at hkeeps
    have ⟨files, hfiles, hsources, hm⟩ := h.execute hbuffer heq hkeeps.1 hkeeps.2
    obtain ⟨hadded, hhead⟩ := hq
    obtain ⟨fdos, hops⟩ := List.head?_eq_some_iff.mp hhead
    simp only [Task.exec, hfiles] at hexec
    cases hexec
    have hqueued : Queued { c.state with files, executed := c.state.executed ++ [fdo] } [.pop] := by
      refine ⟨?_, by simp [hops]⟩
      simp [hadded, hops]
    exact { sources := hsources, streams := hm, proper := h.proper
            queued := by simpa using hqueued, writing := hother ▸ h.writing }
  case h_4 heq =>
    obtain ⟨rfl, rfl⟩ := List.cons.inj (hthread.symm.trans heq)
    cases hexec
    exact { h with queued := by simpa [Queued] using hq.1, writing := hother ▸ h.writing }
  case h_5 heq => exact absurd (hthread.symm.trans heq) (by simp)
  case h_6 => contradiction

theorem Inv.step (hbuffer : 0 < bufferSize) (h : Inv disk c) {ev : Event Thread Task (List Nat)}
    (hkeeps : Keeps bufferSize c ev) (hstep : Step (program bufferSize disk) c ev c') :
    Inv disk c' := by
  cases hstep with
  | @run i answers t rest ts s hthread _ hexec =>
    cases i with
    | writer => exact inv_writer h hthread hexec
    | drainer => exact inv_drainer hbuffer h hthread hexec hkeeps
  | @start i ts hidle hbegins =>
    cases i with
    | drainer => exact hbegins.elim
    | writer =>
      have hother : Function.update c.threads .writer ts .drainer = c.threads .drainer := by simp
      have hwriting : Writing disk c.state ts := .inr hbegins
      exact { h with queued := hother ▸ h.queued, writing := by simpa using hwriting }

-- The drain thread can always go on.
theorem Inv.exec_ok (hbuffer : 0 < bufferSize) (h : Inv disk c) {answers : List Nat} {t : Task}
    {rest : List Task} (hthread : c.threads .drainer = t :: rest)
    (hkeeps : Keeps bufferSize c (.run .drainer answers)) :
    ∃ r, t.exec bufferSize answers c.state = .ok r := by
  cases t with
  | look => cases hops : c.state.operations <;> simp [Task.exec, hops]
  | execute fdo =>
    have hq := h.queued
    rw [hthread] at hq
    simp only [Keeps, hthread] at hkeeps
    cases rest with
    | nil =>
      have ⟨files, hfiles, _⟩ := h.execute hbuffer hthread hkeeps.1 hkeeps.2
      exact ⟨_, by rw [Task.exec, hfiles]⟩
    | cons => exact hq.elim
  | addOperation | finish | checkFinish | pop => exact ⟨_, rfl⟩

end Invariant

theorem drain (bufferSize : Nat) (hbuffer : 0 < bufferSize) (disk : Disk)
    {c : Configuration Thread State Task}
    (h : Reaches (program bufferSize disk) (Keeps bufferSize) (started disk) c) :
    Drained disk c ∧
    ∀ answers t rest, c.threads .drainer = t :: rest → Keeps bufferSize c (.run .drainer answers) →
      ∃ r, t.exec bufferSize answers c.state = .ok r :=
  have hinv := h.invariant inv_started fun h hkeeps hstep => h.step hbuffer hkeeps hstep
  ⟨hinv.drained, fun _ _ _ hthread hkeeps => hinv.exec_ok hbuffer hthread hkeeps⟩

section Examples

def noFiles : Disk where
  sources _ := none
  targets _ := none

def creation : FileDrainOperation where
  op         := .create
  toFileName := [102]

variable {c : Configuration Thread State Task}

theorem step_add (hidle : c.threads .writer = []) (hfinish : c.state.finish = false) :
    Step (program 1 noFiles) c (.start .writer [.addOperation creation])
      { c with threads := Function.update c.threads .writer [.addOperation creation] } :=
  .start hidle (Or.inr ⟨hfinish, creation, rfl, trivial⟩)

theorem step_finish (hidle : c.threads .writer = []) :
    Step (program 1 noFiles) c (.start .writer [.finish])
      { c with threads := Function.update c.threads .writer [.finish] } :=
  .start hidle (Or.inl rfl)

-- A file is created, and the writer finishes then.
theorem drained_creation : ∃ c, Drained noFiles c ∧ c.threads .drainer = [] ∧
    c.state.executed = [creation] ∧ c.state.files.targets [102] = some [] := by
  have h₁ := (Reaches.refl (C := Keeps 1)).tail (by exact trivial)
    (step_add (c := started noFiles) rfl rfl)
  have h₂ := h₁.tail (by exact trivial) (.run (i := .writer) (e := []) rfl trivial rfl)
  have h₃ := h₂.tail (by exact trivial) (.run (i := .drainer) (e := []) rfl trivial rfl)
  have h₄ := h₃.tail (by exact ⟨rfl, fun h => by simp [creation] at h⟩)
    (.run (i := .drainer) (e := []) rfl trivial rfl)
  have h₅ := h₄.tail (by exact trivial) (.run (i := .drainer) (e := []) rfl trivial rfl)
  have h₆ := h₅.tail (by exact trivial) (.run (i := .drainer) (e := []) rfl trivial rfl)
  have h₇ := h₆.tail (by exact trivial) (step_finish rfl)
  have h₈ := h₇.tail (by exact trivial) (.run (i := .writer) (e := []) rfl trivial rfl)
  have h₉ := h₈.tail (by exact fun _ => rfl) (.run (i := .drainer) (e := []) rfl trivial rfl)
  exact ⟨_, (drain 1 (by decide) noFiles h₉).1, rfl, rfl, rfl⟩

-- The drain thread finds the queue empty, then an operation is added and the writer finishes, and the
-- drain thread finds the flag.
theorem not_drained_lateOperation : ¬ ∀ bufferSize, 0 < bufferSize → ∀ disk c,
    Reaches (program bufferSize disk) (fun _ _ => True) (started disk) c → Drained disk c := by
  intro h
  have h₁ := (Reaches.refl (P := program 1 noFiles) (C := fun _ _ => True)
    (c := started noFiles)).tail trivial (.run (i := .drainer) (e := []) rfl trivial rfl)
  have h₂ := h₁.tail trivial (step_add rfl rfl)
  have h₃ := h₂.tail trivial (.run (i := .writer) (e := []) rfl trivial rfl)
  have h₄ := h₃.tail trivial (step_finish rfl)
  have h₅ := h₄.tail trivial (.run (i := .writer) (e := []) rfl trivial rfl)
  have h₆ := h₅.tail trivial (.run (i := .drainer) (e := []) rfl trivial rfl)
  exact nomatch (h 1 (by decide) noFiles _ h₆).all rfl

end Examples

end BurstBuffer
