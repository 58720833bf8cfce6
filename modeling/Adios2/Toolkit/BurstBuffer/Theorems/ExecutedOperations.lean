import Mathlib
import Adios2.Toolkit.BurstBuffer.FileDrainer

-- What drain operations mean, and when the drain thread does what they mean.

namespace BurstBuffer

open Bytes

-- The files that are written to, with the current position in each of them and in each file that is
-- read from.
structure Contents where
  targets      : List Byte → Option (List Byte)
  position     : List Byte → Nat                := fun _ => 0
  readPosition : List Byte → Nat                := fun _ => 0

namespace Contents

def file (a : Contents) (path : List Byte) : Posix.File where
  content  := (a.targets path).getD []
  position := a.position path

def put (a : Contents) (path : List Byte) (f : Posix.File) : Contents :=
  { a with targets  := Function.update a.targets path (some f.content)
           position := Function.update a.position path f.position }

def write (a : Contents) (path bs : List Byte) : Contents := a.put path ((a.file path).write bs)

def seek (a : Contents) (path : List Byte) (offset : Nat) : Contents :=
  { a with position := Function.update a.position path offset }

def seekRead (a : Contents) (path : List Byte) (offset : Nat) : Contents :=
  { a with readPosition := Function.update a.readPosition path offset }

-- The bytes at the position of a file that is read.
def next (a : Contents) (content path : List Byte) (count : Nat) : List Byte :=
  (content.drop (a.readPosition path)).take count

def copy (a : Contents) (content source target : List Byte) (count : Nat) : Contents :=
  (a.write target (a.next content source count)).seekRead source (a.readPosition source + count)

-- An operation, where the files to read from have the contents.
def apply (sources : List Byte → Option (List Byte)) (a : Contents) (fdo : FileDrainOperation) :
    Contents :=
  let content := (sources fdo.fromFileName).getD []
  match fdo.op with
  | .create  => a.put fdo.toFileName { content := [], position := 0 }
  | .open    =>
    let old := (a.targets fdo.toFileName).getD []
    a.put fdo.toFileName { content := old, position := old.length }
  | .copy    => a.copy content fdo.fromFileName fdo.toFileName fdo.countBytes
  | .copyAt  =>
    ((a.seekRead fdo.fromFileName fdo.fromOffset).seek fdo.toFileName fdo.toOffset).copy content
      fdo.fromFileName fdo.toFileName fdo.countBytes
  | .write   => a.write fdo.toFileName fdo.dataToWrite
  | .writeAt => (a.seek fdo.toFileName fdo.toOffset).write fdo.toFileName fdo.dataToWrite
  | .seekEnd => a.seek fdo.toFileName ((a.targets fdo.toFileName).getD []).length
  | .delete  => { a with targets := Function.update a.targets fdo.toFileName none }

end Contents

-- The operations that a writer adds: the data are as many as they say, and what is copied will be there.
def Proper (sources : List Byte → Option (List Byte)) (a : Contents) (fdo : FileDrainOperation) :
    Prop :=
  match fdo.op with
  | .copy             => ∃ content, sources fdo.fromFileName = some content ∧
    a.readPosition fdo.fromFileName + fdo.countBytes ≤ content.length
  | .copyAt           => ∃ content, sources fdo.fromFileName = some content ∧
    fdo.fromOffset + fdo.countBytes ≤ content.length
  | .write | .writeAt => fdo.dataToWrite.length = fdo.countBytes
  | _                 => True

-- A file is created or opened before everything else, and nothing but another removal follows its
-- removal. In a file that has been opened for append, an offset is the end of the file.
def Opened (s : Files) (fdo : FileDrainOperation) : Prop :=
  match fdo.op with
  | .create | .open          => s.outputFileMap fdo.toFileName = none
  | .delete                  => True
  | .seekEnd | .copy | .write =>
    ∃ f, s.outputFileMap fdo.toFileName = some f ∧ f.isOpen = true
  | .writeAt | .copyAt       =>
    ∃ f, s.outputFileMap fdo.toFileName = some f ∧ f.isOpen = true ∧
      (f.append = true → fdo.toOffset = ((s.targets fdo.toFileName).getD []).length)

-- Each call of `read` finds as many bytes as it asks for.
def Full : List Nat → List Nat → Prop
  | size :: sizes, n :: answers => size ≤ n ∧ Full sizes answers
  | _, _                        => True

def batchSizes (bufferSize : Nat) (fdo : FileDrainOperation) : List Nat :=
  List.replicate (fdo.countBytes / bufferSize) bufferSize ++
    if fdo.countBytes % bufferSize ≠ 0 then [fdo.countBytes % bufferSize] else []

def Found (bufferSize : Nat) (fdo : FileDrainOperation) (answers : List Nat) : Prop :=
  fdo.op = .copy ∨ fdo.op = .copyAt → Full (batchSizes bufferSize fdo) answers

-- The streams of the drain thread are at the positions that the operations mean.
structure Matches (s : Files) (a : Contents) : Prop where
  targets : s.targets = a.targets
  input   : ∀ path content, s.sources path = some content →
    s.inputFileMap path = none ∧ a.readPosition path = 0 ∨
    s.inputFileMap path = some { position := a.readPosition path }
  output  : ∀ path f, s.outputFileMap path = some f → f.isOpen = true → f.good = true ∧
    ∃ content, s.targets path = some content ∧
      if f.append then a.position path = content.length else f.position = a.position path

variable {s : Files} {a : Contents} {path : List Byte}

section Runs

-- A run goes on with what a part of it has returned.
theorem bind_ok {α β : Type} {x : Drain α} {f : α → Drain β} {s s' : Files} {r : α}
    (h : x s = .ok r s') : (x >>= f) s = f r s' := by
  change EStateM.bind x f s = _
  rw [EStateM.bind, h]

theorem getFileForWrite_some {f : OutputStream} (hf : s.outputFileMap path = some f)
    (append : Bool) : getFileForWrite path append s = .ok f s := by
  have hget : (get : Drain Files) s = .ok s s := rfl
  rw [getFileForWrite, bind_ok hget, hf]
  rfl

theorem getFileForWrite_none (hnone : s.outputFileMap path = none) (append : Bool) :
    getFileForWrite path append s = .ok { append }
      { s with
        outputFileMap := Function.update s.outputFileMap path (some { append })
        targets       := Function.update s.targets path
          (some (if append then (s.targets path).getD [] else [])) } := by
  have hget : (get : Drain Files) s = .ok s s := rfl
  rw [getFileForWrite, bind_ok hget, hnone]
  rfl

theorem getFileForRead_some {f : InputStream} (hf : s.inputFileMap path = some f) :
    getFileForRead path s = .ok f s := by
  have hget : (get : Drain Files) s = .ok s s := rfl
  rw [getFileForRead, bind_ok hget, hf]
  rfl

end Runs

section Write

-- What a call changes: the target and its stream, which stays open as it is.
structure Wrote (s s' : Files) (path : List Byte) : Prop where
  sources : s'.sources = s.sources
  answers : s'.answers = s.answers
  input   : s'.inputFileMap = s.inputFileMap
  output  : ∀ f, s.outputFileMap path = some f →
    ∃ f', s'.outputFileMap path = some f' ∧ f'.isOpen = f.isOpen ∧ f'.append = f.append

theorem OutputStream.write_open {f : OutputStream} (hgood : f.good = true) (hopen : f.isOpen = true)
    (content bs : List Byte) (position : Nat)
    (hpos : if f.append then position = content.length else f.position = position) :
    ∃ f', f.write content bs = (f', (Posix.File.write { content, position } bs).content) ∧
      f'.good = true ∧ f'.isOpen = true ∧ f'.append = f.append ∧
      if f.append then (Posix.File.write { content, position } bs).position
          = (Posix.File.write { content, position } bs).content.length
        else f'.position = (Posix.File.write { content, position } bs).position := by
  by_cases hbs : bs = []
  case pos =>
    refine ⟨f, by simp [OutputStream.write, hbs], hgood, hopen, rfl, ?_⟩
    simpa [hbs] using hpos
  case neg =>
    have hwrite : f.write content bs =
        ({ f with position := (Posix.File.write { content, position } bs).position },
          (Posix.File.write { content, position } bs).content) := by
      cases happend : f.append with
      | true =>
        have : position = content.length := by simpa [happend] using hpos
        simp [OutputStream.write, hgood, hbs, hopen, happend, this]
      | false =>
        have : f.position = position := by simpa [happend] using hpos
        simp [OutputStream.write, hgood, hbs, hopen, happend, this]
    refine ⟨_, hwrite, hgood, hopen, rfl, ?_⟩
    cases happend : f.append with
    | true =>
      have : position = content.length := by simpa [happend] using hpos
      subst this
      simp [Posix.File.write_content hbs]
    | false => simp

theorem matches_write (h : Matches s a) {f : OutputStream} (hf : s.outputFileMap path = some f)
    (hopen : f.isOpen = true) (bs : List Byte) :
    ∃ s', write path bs s = .ok () s' ∧ Matches s' (a.write path bs) ∧ Wrote s s' path := by
  have ⟨hgood, content, hcontent, hpos⟩ := h.output path f hf hopen
  have ⟨f', hwrite, hgood', hopen', happend', hpos'⟩ := f.write_open hgood hopen content bs
    (a.position path) hpos
  have hfile : a.file path = { content, position := a.position path } := by
    rw [Contents.file, ← h.targets, hcontent, Option.getD_some]
  have hget : (get : Drain Files) s = .ok s s := rfl
  have hbad : f'.badbit = false := by
    simp only [OutputStream.good, Bool.and_eq_true, Bool.not_eq_true'] at hgood'
    exact hgood'.2
  refine ⟨{ s with
    outputFileMap := Function.update s.outputFileMap path (some f')
    targets       := Function.update s.targets path
      (some (Posix.File.write { content, position := a.position path } bs).content) }, ?_, ?_, ?_⟩
  · rw [write, bind_ok (getFileForWrite_some hf false), bind_ok hget, hcontent, Option.getD_some,
      hwrite]
    simp only [hopen, hbad, Bool.false_eq_true, if_true, if_false]
    rfl
  · refine ⟨?_, h.input, fun path' f₁ hf₁ hopen₁ => ?_⟩
    · simp only [Contents.write, Contents.put, hfile, h.targets]
    · by_cases hpath : path' = path
      case pos =>
        subst hpath
        simp only [Function.update_self, Option.some.injEq] at hf₁
        subst hf₁
        refine ⟨hgood', _, Function.update_self .., ?_⟩
        simp only [Contents.write, Contents.put, Function.update_self, hfile, happend']
        exact hpos'
      case neg =>
        simp only [Function.update_of_ne hpath] at hf₁
        simp only [Contents.write, Contents.put, Function.update_of_ne hpath]
        exact h.output path' f₁ hf₁ hopen₁
  · refine ⟨rfl, rfl, rfl, fun f₁ hf₁ => ⟨f', Function.update_self .., ?_⟩⟩
    cases hf.symm.trans hf₁
    exact ⟨hopen'.trans hopen.symm, happend'⟩

-- A position that is set: that of the stream if it is not one for append.
theorem matches_seek (h : Matches s a) {f : OutputStream} (hf : s.outputFileMap path = some f)
    (hopen : f.isOpen = true) (offset : Nat)
    (hoffset : f.append = true → offset = ((s.targets path).getD []).length) :
    ∃ s', seekOutput path offset s = .ok () s' ∧ Matches s' (a.seek path offset) ∧
      Wrote s s' path := by
  have ⟨hgood, content, hcontent, hpos⟩ := h.output path f hf hopen
  have hfail : f.fail = false := by
    simp only [OutputStream.good, Bool.and_eq_true, Bool.not_eq_true'] at hgood
    simp [OutputStream.fail, hgood.1, hgood.2]
  have hseek : f.seekp offset = { f with position := offset } := by
    simp [OutputStream.seekp, hfail, hopen]
  let next : Option OutputStream := some { f with position := offset }
  refine ⟨{ s with outputFileMap := Function.update s.outputFileMap path next }, ?_, ?_, ?_⟩
  · rw [seekOutput, bind_ok (getFileForWrite_some hf false), hseek]
    rfl
  · refine ⟨h.targets, h.input, fun path' f₁ hf₁ hopen₁ => ?_⟩
    by_cases hpath : path' = path
    case pos =>
      subst hpath
      simp only [Function.update_self] at hf₁
      obtain rfl := Option.some.inj hf₁
      refine ⟨hgood, content, hcontent, ?_⟩
      simp only [Contents.seek, Function.update_self]
      cases happend : f.append with
      | true => simpa [hcontent] using hoffset happend
      | false => simp
    case neg =>
      simp only [Function.update_of_ne hpath] at hf₁
      simp only [Contents.seek, Function.update_of_ne hpath]
      exact h.output path' f₁ hf₁ hopen₁
  · refine ⟨rfl, rfl, rfl, fun f₁ hf₁ => ⟨_, Function.update_self .., ?_⟩⟩
    cases hf.symm.trans hf₁
    exact ⟨rfl, rfl⟩

end Write

section Copy

variable {content source target : List Byte} {count : Nat} {answers : List Nat}

theorem InputStream.read_full {position answer : Nat} (hle : position + count ≤ content.length)
    (hanswer : count ≤ answer) :
    InputStream.read { position } content answer count =
      ({ position := position + count }, (content.drop position).take count) := by
  have hlen : ((content.drop position).take count).length = count := by
    simp
    omega
  simp [InputStream.read, InputStream.good, Nat.min_eq_right hanswer, hlen]

-- A call of `Read` that finds all at once.
theorem read_full (fuel : Nat) (hsource : s.sources path = some content)
    (hinput : s.inputFileMap path = some { position := a.readPosition path })
    (hle : a.readPosition path + count ≤ content.length) (hpos : 0 < count)
    (hfull : Full [count] s.answers) : read path (fuel + 1) count s =
      .ok (a.next content path count)
        { s with
          answers      := s.answers.tail
          inputFileMap := Function.update s.inputFileMap path
            (some { position := a.readPosition path + count }) } := by
  have hanswer : count ≤ s.answers.headD count := by
    cases ha : s.answers with
    | nil => simp
    | cons n rest =>
      rw [ha] at hfull
      exact hfull.1
  have hlen : (a.next content path count).length = count := by
    simp [Contents.next]
    omega
  obtain ⟨count, rfl⟩ := Nat.exists_eq_add_one_of_ne_zero (Nat.ne_of_gt hpos)
  have hget : (get : Drain Files) s = .ok s s := rfl
  have hread := InputStream.read_full hle hanswer
  have hnext : (content.drop (a.readPosition path)).take (count + 1)
      = a.next content path (count + 1) := rfl
  have hzero : ∀ s', read path fuel 0 s' = .ok [] s' := by
    intro s'
    cases fuel <;> rfl
  rw [read, bind_ok (getFileForRead_some hinput), bind_ok hget, hsource, Option.getD_some, hread,
    hnext]
  case x_2 => omega
  simp only [hlen, Nat.lt_irrefl, if_false, InputStream.good, Nat.sub_self, Bool.not_false,
    Bool.and_self, if_true]
  have hlast := bind_ok (f := fun rest => pure (a.next content path (count + 1) ++ rest))
    (hzero { s with
      answers      := s.answers.tail
      inputFileMap := Function.update s.inputFileMap path
        (some { position := a.readPosition path + (count + 1) }) })
  rw [List.append_nil] at hlast
  exact hlast

theorem Contents.write_write (a : Contents) (path xs ys : List Byte) :
    (a.write path xs).write path ys = a.write path (xs ++ ys) := by
  have hfile : (a.write path xs).file path = (a.file path).write xs := by
    simp only [Contents.write, Contents.put, Contents.file, Function.update_self, Option.getD_some]
  rw [Contents.write, hfile, Posix.File.write_append]
  simp [Contents.write, Contents.put]

theorem Contents.copy_add (a : Contents) (content source target : List Byte) (n m : Nat) :
    (a.copy content source target n).copy content source target m
      = a.copy content source target (n + m) := by
  have hnext : (a.copy content source target n).next content source m
      = (content.drop (a.readPosition source + n)).take m := by
    simp [Contents.next, Contents.copy, Contents.seekRead]
  have happend : a.next content source n ++ (content.drop (a.readPosition source + n)).take m
      = a.next content source (n + m) := by
    rw [Contents.next, Contents.next, List.take_add, List.drop_drop]
  have hwrite : (a.copy content source target n).write target
      ((content.drop (a.readPosition source + n)).take m)
      = (a.write target (a.next content source (n + m))).seekRead source
        (a.readPosition source + n) := by
    rw [← happend, ← Contents.write_write]
    rfl
  rw [Contents.copy, hnext, hwrite]
  simp [Contents.copy, Contents.seekRead, Nat.add_assoc]

theorem Contents.copy_zero {a : Contents} {old : List Byte} (h : a.targets target = some old) :
    a.copy content source target 0 = a := by
  have htargets : Function.update a.targets target (some old) = a.targets := by
    rw [← h, Function.update_eq_self]
  simp [Contents.copy, Contents.next, Contents.write, Contents.put, Contents.file,
    Contents.seekRead, h, htargets, Function.update_eq_self]

-- Both files are open, with the position in the source.
structure Copying (s : Files) (a : Contents) (content source target : List Byte) : Prop where
  arrives : s.sources source = some content
  input   : s.inputFileMap source = some { position := a.readPosition source }
  output  : ∃ f, s.outputFileMap target = some f ∧ f.isOpen = true

variable {fdo : FileDrainOperation}

theorem matches_lfCopy {sizes : List Nat} (h : Matches s a)
    (hcopy : Copying s a content fdo.fromFileName fdo.toFileName)
    (hle : a.readPosition fdo.fromFileName + count ≤ content.length) (hpos : 0 < count)
    (hfull : Full (count :: sizes) s.answers) :
    ∃ s', lfCopy fdo count s = .ok () s' ∧
      Matches s' (a.copy content fdo.fromFileName fdo.toFileName count) ∧
      Copying s' (a.copy content fdo.fromFileName fdo.toFileName count) content fdo.fromFileName
        fdo.toFileName ∧
      Full sizes s'.answers ∧ s'.sources = s.sources := by
  have hone : Full [count] s.answers ∧ Full sizes s.answers.tail := by
    cases ha : s.answers with
    | nil => cases sizes <;> exact ⟨trivial, trivial⟩
    | cons n rest =>
      rw [ha] at hfull
      refine ⟨⟨hfull.1, ?_⟩, hfull.2⟩
      cases rest <;> trivial
  have hget : (get : Drain Files) s = .ok s s := rfl
  have hread := read_full (s.answers.length + 1) hcopy.arrives hcopy.input hle hpos hone.1
  -- The state behind the read.
  let s₁ : Files := { s with
    answers      := s.answers.tail
    inputFileMap := Function.update s.inputFileMap fdo.fromFileName
      (some { position := a.readPosition fdo.fromFileName + count }) }
  have h₁ : Matches s₁ (a.seekRead fdo.fromFileName (a.readPosition fdo.fromFileName + count)) := by
    refine ⟨h.targets, fun path c hc => ?_, h.output⟩
    by_cases hpath : path = fdo.fromFileName
    · subst hpath
      simp [s₁, Contents.seekRead]
    · simpa [s₁, Contents.seekRead, Function.update_of_ne hpath] using h.input path c hc
  have ⟨f, hf, hopen⟩ := hcopy.output
  have ⟨s', hwrite, h', hwrote⟩ := matches_write h₁ hf hopen (a.next content fdo.fromFileName count)
  refine ⟨s', ?_, h', ⟨?_, ?_, ?_⟩, ?_, hwrote.sources⟩
  · rw [lfCopy, bind_ok hget, bind_ok hread, hwrite]
  · rw [hwrote.sources]
    exact hcopy.arrives
  · rw [hwrote.input]
    simp [s₁, Contents.copy, Contents.seekRead]
  · have ⟨f', hf', hopen', _⟩ := hwrote.output f hf
    exact ⟨f', hf', hopen'.trans hopen⟩
  · rw [hwrote.answers]
    exact hone.2

theorem matches_copyBatches {bufferSize batches : Nat} {sizes : List Nat} (h : Matches s a)
    (hcopy : Copying s a content fdo.fromFileName fdo.toFileName)
    (hle : a.readPosition fdo.fromFileName + batches * bufferSize ≤ content.length)
    (hpos : 0 < bufferSize)
    (hfull : Full (List.replicate batches bufferSize ++ sizes) s.answers) :
    ∃ s', copyBatches fdo bufferSize batches s = .ok () s' ∧
      Matches s' (a.copy content fdo.fromFileName fdo.toFileName (batches * bufferSize)) ∧
      Copying s' (a.copy content fdo.fromFileName fdo.toFileName (batches * bufferSize)) content
        fdo.fromFileName fdo.toFileName ∧
      Full sizes s'.answers ∧ s'.sources = s.sources := by
  induction batches generalizing s a with
  | zero =>
    have ⟨f, hf, hopen⟩ := hcopy.output
    have ⟨_, old, hold, _⟩ := h.output _ f hf hopen
    rw [Nat.zero_mul, Contents.copy_zero (h.targets ▸ hold)]
    exact ⟨s, rfl, h, hcopy, hfull, rfl⟩
  | succ batches ih =>
    rw [Nat.succ_mul] at hle
    have ⟨s₁, h₁, hm₁, hc₁, hf₁, hs₁⟩ := matches_lfCopy h hcopy
      (show a.readPosition fdo.fromFileName + bufferSize ≤ content.length by omega) hpos hfull
    have hread : (a.copy content fdo.fromFileName fdo.toFileName bufferSize).readPosition
        fdo.fromFileName = a.readPosition fdo.fromFileName + bufferSize := by
      simp [Contents.copy, Contents.seekRead]
    have ⟨s', h', hm', hc', hf', hs'⟩ := ih hm₁ hc₁ (by rw [hread]; omega) hf₁
    rw [Contents.copy_add, Nat.add_comm, ← Nat.succ_mul] at hm' hc'
    exact ⟨s', by rw [copyBatches, bind_ok h₁, h'], hm', hc', hf', hs'.trans hs₁⟩

-- The batches and what remains.
theorem matches_copyBytes {bufferSize : Nat} (h : Matches s a)
    (hcopy : Copying s a content fdo.fromFileName fdo.toFileName)
    (hle : a.readPosition fdo.fromFileName + fdo.countBytes ≤ content.length)
    (hpos : 0 < bufferSize) (hfull : Full (batchSizes bufferSize fdo) s.answers) :
    ∃ s', (do
        copyBatches fdo bufferSize (fdo.countBytes / bufferSize)
        if fdo.countBytes % bufferSize ≠ 0 then
          lfCopy fdo (fdo.countBytes % bufferSize)) s = .ok () s' ∧
      Matches s' (a.copy content fdo.fromFileName fdo.toFileName fdo.countBytes) ∧
      s'.sources = s.sources := by
  have hcount : fdo.countBytes / bufferSize * bufferSize + fdo.countBytes % bufferSize
      = fdo.countBytes := by
    rw [Nat.mul_comm]
    exact Nat.div_add_mod ..
  have ⟨s₁, h₁, hm₁, hc₁, hf₁, hs₁⟩ := matches_copyBatches h hcopy (by omega) hpos hfull
  rw [bind_ok h₁]
  by_cases hrem : fdo.countBytes % bufferSize = 0
  case pos =>
    rw [if_neg (by simpa using hrem)]
    rw [hrem, Nat.add_zero] at hcount
    rw [hcount] at hm₁
    exact ⟨s₁, rfl, hm₁, hs₁⟩
  case neg =>
    rw [if_pos hrem] at hf₁
    rw [if_pos hrem]
    have hread : (a.copy content fdo.fromFileName fdo.toFileName
        (fdo.countBytes / bufferSize * bufferSize)).readPosition fdo.fromFileName
        = a.readPosition fdo.fromFileName + fdo.countBytes / bufferSize * bufferSize := by
      simp [Contents.copy, Contents.seekRead]
    have ⟨s', h', hm', _, _, hs'⟩ := matches_lfCopy hm₁ hc₁ (by rw [hread]; omega)
      (Nat.pos_of_ne_zero hrem) hf₁
    rw [Contents.copy_add, hcount] at hm'
    exact ⟨s', h', hm', hs'.trans hs₁⟩

end Copy

section Execute

variable {fdo : FileDrainOperation} {bufferSize : Nat}

theorem matches_open (h : Matches s a) (hnone : s.outputFileMap path = none) (append : Bool) :
    ∃ s' content, getFileForWrite path append s = .ok { append } s' ∧
      content = (if append then (a.targets path).getD [] else []) ∧
      Matches s' (a.put path { content, position := if append then content.length else 0 }) ∧
      s'.sources = s.sources := by
  refine ⟨_, _, getFileForWrite_none hnone append, by rw [← h.targets],
    ⟨?_, h.input, fun path' f hf hopen => ?_⟩, rfl⟩
  · simp only [Contents.put, h.targets]
  · by_cases hpath : path' = path
    case pos =>
      subst hpath
      simp only [Function.update_self] at hf
      obtain rfl := Option.some.inj hf
      refine ⟨rfl, _, Function.update_self .., ?_⟩
      cases append <;> simp [Contents.put]
    case neg =>
      simp only [Function.update_of_ne hpath] at hf
      simp only [Contents.put, Function.update_of_ne hpath]
      exact h.output path' f hf hopen

theorem matches_delete (h : Matches s a) (path : List Byte) : ∃ s', delete path s = .ok () s' ∧
    Matches s' { a with targets := Function.update a.targets path none } ∧
    s'.sources = s.sources := by
  -- The stream that is closed.
  obtain ⟨f, s₁, h₁, htargets, hsources, hinput, houtput⟩ :
      ∃ f s₁, getFileForWrite path true s = .ok f s₁ ∧
        Function.update s₁.targets path none = Function.update s.targets path none ∧
        s₁.sources = s.sources ∧ s₁.inputFileMap = s.inputFileMap ∧
        ∀ path', path' ≠ path → s₁.outputFileMap path' = s.outputFileMap path' := by
    cases hf : s.outputFileMap path with
    | some f => exact ⟨f, s, getFileForWrite_some hf true, rfl, rfl, rfl, fun _ _ => rfl⟩
    | none =>
      exact ⟨_, _, getFileForWrite_none hf true, Function.update_idem .., rfl, rfl,
        fun path' hpath => Function.update_of_ne hpath _ _⟩
  have hclosed : f.close.isOpen = false := by
    cases hopen : f.isOpen <;> simp [OutputStream.close, hopen]
  refine ⟨{ s₁ with outputFileMap := Function.update s₁.outputFileMap path (some f.close)
                    targets       := Function.update s₁.targets path none },
    by rw [delete, bind_ok h₁]; rfl, ⟨?_, ?_, fun path' f' hf' hopen' => ?_⟩, hsources⟩
  · simp only [htargets, h.targets]
  · intro path' content hc
    simp only [hinput]
    exact h.input path' content (hsources ▸ hc)
  · by_cases hpath : path' = path
    case pos =>
      subst hpath
      simp only [Function.update_self] at hf'
      obtain rfl := Option.some.inj hf'
      exact absurd (hclosed.symm.trans hopen') (by simp)
    case neg =>
      simp only [Function.update_of_ne hpath, houtput path' hpath] at hf'
      have htarget := congrFun htargets path'
      simp only [Function.update_of_ne hpath] at htarget ⊢
      rw [htarget]
      exact h.output path' f' hf' hopen'

theorem matches_writeData (h : Matches s a) {f : OutputStream}
    (hf : s.outputFileMap fdo.toFileName = some f) (hopen : f.isOpen = true)
    (hdata : fdo.dataToWrite.length = fdo.countBytes) :
    ∃ s', writeData fdo s = .ok () s' ∧ Matches s' (a.write fdo.toFileName fdo.dataToWrite) ∧
      s'.sources = s.sources := by
  have ⟨s', hwrite, hm, hwrote⟩ := matches_write h hf hopen fdo.dataToWrite
  refine ⟨s', ?_, hm, hwrote.sources⟩
  rw [writeData, if_neg (by omega), ← hdata, List.take_length]
  exact hwrite

theorem matches_seekRead (h : Matches s a) (path : List Byte) (offset : Nat) :
    Matches { s with
      inputFileMap := Function.update s.inputFileMap path (some { position := offset }) }
      (a.seekRead path offset) := by
  refine ⟨h.targets, fun path' content hc => ?_, h.output⟩
  by_cases hpath : path' = path
  · subst hpath
    simp [Contents.seekRead]
  · simpa [Contents.seekRead, Function.update_of_ne hpath] using h.input path' content hc

-- The stream that a file is read from.
theorem matches_getFileForRead {content : List Byte} (h : Matches s a)
    (hsource : s.sources path = some content) :
    ∃ s', getFileForRead path s = .ok { position := a.readPosition path } s' ∧ Matches s' a ∧
      s'.inputFileMap path = some { position := a.readPosition path } ∧
      s'.sources = s.sources ∧ s'.outputFileMap = s.outputFileMap ∧ s'.targets = s.targets ∧
      s'.answers = s.answers := by
  cases h.input path content hsource with
  | inr hsome => exact ⟨s, getFileForRead_some hsome, h, hsome, rfl, rfl, rfl, rfl⟩
  | inl hnone =>
    have hget : (get : Drain Files) s = .ok s s := rfl
    let s₁ : Files := { s with
      inputFileMap := Function.update s.inputFileMap path (some { position := 0 }) }
    refine ⟨s₁, ?_, ⟨h.targets, fun path' c hc => ?_, h.output⟩, ?_, rfl, rfl, rfl, rfl⟩
    · rw [getFileForRead, bind_ok hget, hnone.1, hnone.2, hsource]
      rfl
    · by_cases hpath : path' = path
      · subst hpath
        simp [s₁, hnone.2]
      · simpa [s₁, Function.update_of_ne hpath] using h.input path' c hc
    · simp [s₁, hnone.2]

theorem catchFailure_ok {x : Drain Unit} {s' : Files} (h : x s = .ok () s') :
    catchFailure x s = .ok () s' := by
  rw [catchFailure, h]

theorem matches_copyAll {content : List Byte} (h : Matches s a) (hbuffer : 0 < bufferSize)
    (hsource : s.sources fdo.fromFileName = some content)
    (hinput : s.inputFileMap fdo.fromFileName
      = some { position := a.readPosition fdo.fromFileName })
    (hop : fdo.op = .copy ∨ fdo.op = .copyAt) (hproper : Proper s.sources a fdo)
    (hopened : Opened s fdo) (hfound : Found bufferSize fdo s.answers) :
    ∃ s', copyAll fdo bufferSize s = .ok () s' ∧ Matches s' (a.apply s.sources fdo) ∧
      s'.sources = s.sources := by
  have hfull := hfound hop
  unfold copyAll
  obtain hop | hop := hop
  case inl =>
    have ⟨f, hf, hopen⟩ : ∃ f, s.outputFileMap fdo.toFileName = some f ∧ f.isOpen = true := by
      simpa [Opened, hop] using hopened
    have ⟨c, hc, hle⟩ : ∃ content, s.sources fdo.fromFileName = some content ∧
        a.readPosition fdo.fromFileName + fdo.countBytes ≤ content.length := by
      simpa [Proper, hop] using hproper
    cases hsource.symm.trans hc
    have ⟨s', h', hm', hs'⟩ := matches_copyBytes h ⟨hsource, hinput, f, hf, hopen⟩ hle hbuffer hfull
    refine ⟨s', ?_, ?_, hs'⟩
    · simpa [hop] using h'
    · simpa [Contents.apply, hop, hsource] using hm'
  case inr =>
    have ⟨f, hf, hopen, hoffset⟩ : ∃ f, s.outputFileMap fdo.toFileName = some f ∧
        f.isOpen = true ∧
        (f.append = true → fdo.toOffset = ((s.targets fdo.toFileName).getD []).length) := by
      simpa [Opened, hop] using hopened
    have ⟨c, hc, hle⟩ : ∃ content, s.sources fdo.fromFileName = some content ∧
        fdo.fromOffset + fdo.countBytes ≤ content.length := by
      simpa [Proper, hop] using hproper
    cases hsource.symm.trans hc
    have h₁ := matches_seekRead h fdo.fromFileName fdo.fromOffset
    have ⟨s₂, hseek, h₂, hwrote⟩ := matches_seek h₁ hf hopen fdo.toOffset hoffset
    have ⟨f₂, hf₂, hopen₂, _⟩ := hwrote.output f hf
    have hcopying : Copying s₂ ((a.seekRead fdo.fromFileName fdo.fromOffset).seek fdo.toFileName
        fdo.toOffset) content fdo.fromFileName fdo.toFileName := by
      refine ⟨hwrote.sources ▸ hsource, ?_, f₂, hf₂, hopen₂.trans hopen⟩
      simp [hwrote.input, Contents.seek, Contents.seekRead]
    have ⟨s', h', hm', hs'⟩ := matches_copyBytes h₂ hcopying
      (by simpa [Contents.seek, Contents.seekRead] using hle) hbuffer (hwrote.answers ▸ hfull)
    refine ⟨s', ?_, ?_, hs'.trans hwrote.sources⟩
    · have hset : setInput fdo.fromFileName (InputStream.seekg
          { position := a.readPosition fdo.fromFileName } fdo.fromOffset) s = .ok () _ := rfl
      rw [if_pos hop, bind_ok (getFileForRead_some hinput)]
      exact (bind_ok hset).trans ((bind_ok hseek).trans h')
    · simpa [Contents.apply, hop, hsource] using hm'

theorem matches_execute (h : Matches s a) (hbuffer : 0 < bufferSize)
    (hproper : Proper s.sources a fdo) (hopened : Opened s fdo)
    (hfound : Found bufferSize fdo s.answers) :
    ∃ s', execute bufferSize fdo s = .ok () s' ∧ Matches s' (a.apply s.sources fdo) ∧
      s'.sources = s.sources := by
  unfold execute
  cases hop : fdo.op with
  | create =>
    have hnone : s.outputFileMap fdo.toFileName = none := by simpa [Opened, hop] using hopened
    have ⟨s', content, h', hcontent, hm', hs'⟩ := matches_open h hnone false
    refine ⟨s', bind_ok h', ?_, hs'⟩
    simpa [Contents.apply, hop, hcontent] using hm'
  | «open» =>
    have hnone : s.outputFileMap fdo.toFileName = none := by simpa [Opened, hop] using hopened
    have ⟨s', content, h', hcontent, hm', hs'⟩ := matches_open h hnone true
    refine ⟨s', bind_ok h', ?_, hs'⟩
    simpa [Contents.apply, hop, hcontent] using hm'
  | delete =>
    have ⟨s', h', hm', hs'⟩ := matches_delete h fdo.toFileName
    exact ⟨s', h', by simpa [Contents.apply, hop] using hm', hs'⟩
  | seekEnd =>
    have ⟨f, hf, hopen⟩ : ∃ f, s.outputFileMap fdo.toFileName = some f ∧ f.isOpen = true := by
      simpa [Opened, hop] using hopened
    have ⟨s', h', hm', hwrote⟩ := matches_seek h hf hopen
      ((s.targets fdo.toFileName).getD []).length fun _ => rfl
    have hget : (get : Drain Files) s = .ok s s := rfl
    rw [seekOutput, bind_ok (getFileForWrite_some hf false)] at h'
    refine ⟨s', ?_, by simpa [Contents.apply, hop, h.targets] using hm', hwrote.sources⟩
    simp only
    rw [seekEnd, bind_ok (getFileForWrite_some hf false), bind_ok hget]
    exact h'
  | write =>
    have ⟨f, hf, hopen⟩ : ∃ f, s.outputFileMap fdo.toFileName = some f ∧ f.isOpen = true := by
      simpa [Opened, hop] using hopened
    have ⟨s', h', hm', hs'⟩ := matches_writeData h hf hopen (by simpa [Proper, hop] using hproper)
    exact ⟨s', h', by simpa [Contents.apply, hop] using hm', hs'⟩
  | writeAt =>
    have ⟨f, hf, hopen, hoffset⟩ : ∃ f, s.outputFileMap fdo.toFileName = some f ∧
        f.isOpen = true ∧
        (f.append = true → fdo.toOffset = ((s.targets fdo.toFileName).getD []).length) := by
      simpa [Opened, hop] using hopened
    have ⟨s₁, h₁, hm₁, hwrote⟩ := matches_seek h hf hopen fdo.toOffset hoffset
    have ⟨f₁, hf₁, hopen₁, _⟩ := hwrote.output f hf
    have ⟨s', h', hm', hs'⟩ := matches_writeData hm₁ hf₁ (hopen₁.trans hopen)
      (by simpa [Proper, hop] using hproper)
    refine ⟨s', (bind_ok h₁).trans h', ?_, hs'.trans hwrote.sources⟩
    simpa [Contents.apply, hop] using hm'
  | copy | copyAt =>
    have hcopies : fdo.op = .copy ∨ fdo.op = .copyAt := by simp [hop]
    have ⟨content, hsource⟩ : ∃ content, s.sources fdo.fromFileName = some content := by
      simp only [Proper, hop] at hproper
      exact ⟨_, hproper.choose_spec.1⟩
    have ⟨f, hf, hopen⟩ : ∃ f, s.outputFileMap fdo.toFileName = some f ∧ f.isOpen = true := by
      simp only [Opened, hop] at hopened
      exact ⟨_, hopened.choose_spec.1, by first
        | exact hopened.choose_spec.2
        | exact hopened.choose_spec.2.1⟩
    have ⟨s₁, h₁, hm₁, hinput, hsources, houtput, htargets, hanswers⟩ :=
      matches_getFileForRead h hsource
    have hf₁ : s₁.outputFileMap fdo.toFileName = some f := houtput ▸ hf
    have ⟨s', h', hm', hs'⟩ := matches_copyAll hm₁ hbuffer (hsources ▸ hsource) hinput hcopies
      (hsources ▸ hproper) (by simpa only [Opened, houtput, htargets] using hopened)
      (hanswers ▸ hfound)
    have hgood := (h.output _ f hf hopen).1
    refine ⟨s', ?_, hsources ▸ hm', hs'.trans hsources⟩
    simp only
    rw [bind_ok h₁, bind_ok (getFileForWrite_some hf₁ _)]
    simp only [InputStream.good, hgood, Bool.not_false, Bool.and_self, if_true]
    exact catchFailure_ok h'

end Execute

end BurstBuffer
