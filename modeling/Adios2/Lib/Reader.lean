import Adios2.Lib.Bytes

-- Readers of a buffer that move a position forward, and what they read where it is stored.

namespace Bytes

abbrev Reader := StateT Nat Option

-- Elements behind their number.
def counted {α : Type} (e : Endian) (enc : α → List Byte) (l : List α) : List Byte :=
  u64 e l.length ++ l.flatMap enc

section Counted

variable {α : Type} {e : Endian} {enc : α → List Byte} {l : List α}

theorem counted_length : (counted e enc l).length = 8 + (l.map fun x => (enc x).length).sum := by
  rw [counted, List.length_append, u64_length, List.length_flatMap]

theorem length_le_counted (h : ∀ x, 0 < (enc x).length) : l.length ≤ (counted e enc l).length := by
  have hsum := List.length_le_sum_of_one_le (l.map fun x => (enc x).length) fun i hi => by
    obtain ⟨x, -, rfl⟩ := List.mem_map.mp hi
    exact h x
  rw [List.length_map] at hsum
  rw [counted_length]
  omega

theorem enc_length_le_counted {x : α} (hx : x ∈ l) :
    (enc x).length ≤ (counted e enc l).length := by
  have hmem : (enc x).length ∈ l.map fun x => (enc x).length := List.mem_map_of_mem hx
  have hsum := List.le_sum_of_mem hmem
  rw [counted_length]
  omega

end Counted

namespace Reader

variable {α β : Type} (e : Endian) (buf : List Byte)

def bytes (n : Nat) : Reader (List Byte) := fun pos => do
  let bs ← readBytes buf pos n
  return (bs, pos + n)

def number : Reader Nat := fun pos => do
  let n ← readUInt e 8 buf pos
  return (n, pos + 8)

def many (r : Reader α) : Nat → Reader (List α)
  | 0     => return []
  | n + 1 => do
    let a ← r
    let as ← many r n
    return a :: as

def list (r : Reader α) : Reader (List α) := do
  let n ← number e buf
  many r n

-- Where the buffer has `bs` the reader finds `a` and goes on behind it.
def Reads (r : Reader α) (bs : List Byte) (a : α) : Prop :=
  ∀ pos, Within buf pos bs → r.run pos = some (a, pos + bs.length)

variable {e buf} {r : Reader α} {bs bs' : List Byte} {a : α} {b : β}

theorem Reads.pure (a : α) : Reads buf (pure a) [] a :=
  fun _ _ => rfl

theorem Reads.bind {f : α → Reader β} (h : Reads buf r bs a) (hf : Reads buf (f a) bs' b) :
    Reads buf (r >>= f) (bs ++ bs') b := by
  intro pos hpos
  have ⟨hbs, hbs'⟩ := hpos.append
  rw [StateT.run_bind, h pos hbs, List.length_append, ← Nat.add_assoc]
  exact hf _ hbs'

theorem Reads.bind_pure {f : α → β} (h : Reads buf r bs a) :
    Reads buf (r >>= fun a => Pure.pure (f a)) bs (f a) := by
  intro pos hpos
  rw [StateT.run_bind, h pos hpos]
  rfl

theorem reads_bytes (bs : List Byte) : Reads buf (bytes buf bs.length) bs bs := by
  intro pos h
  simp [bytes, StateT.run, h.readBytes]

theorem reads_number {n : Nat} (hn : n < 2 ^ 64) : Reads buf (number e buf) (u64 e n) n := by
  intro pos h
  simp [number, StateT.run, readUInt_u64 h.holds hn]

theorem reads_many {l : List β} {enc : β → List Byte} {f : β → α}
    (h : ∀ x ∈ l, Reads buf r (enc x) (f x)) :
    Reads buf (many r l.length) (l.flatMap enc) (l.map f) := by
  induction l with
  | nil => exact .pure []
  | cons x l ih =>
    have hl := ih fun y hy => h y (List.mem_cons_of_mem _ hy)
    exact (h x List.mem_cons_self).bind hl.bind_pure

theorem reads_list {l : List β} {enc : β → List Byte} {f : β → α} (hlen : l.length < 2 ^ 64)
    (h : ∀ x ∈ l, Reads buf r (enc x) (f x)) :
    Reads buf (list e buf r) (counted e enc l) (l.map f) :=
  (reads_number hlen).bind (reads_many h)

-- Whatever the reader returns has the property.
def Gives (r : Reader α) (φ : α → Prop) : Prop :=
  ∀ pos a pos', r.run pos = some (a, pos') → φ a

theorem gives_pure {φ : α → Prop} (h : φ a) : Gives (Pure.pure a) φ := by
  intro _ _ _ hrun
  cases hrun
  exact h

theorem Gives.bind {f : α → Reader β} {φ : α → Prop} {ψ : β → Prop} (h : Gives r φ)
    (hf : ∀ a, φ a → Gives (f a) ψ) : Gives (r >>= f) ψ := by
  intro pos b pos' hrun
  rw [StateT.run_bind] at hrun
  have ⟨(a, pos''), hr, hf'⟩ := Option.bind_eq_some_iff.mp hrun
  exact hf a (h pos a pos'' hr) pos'' b pos' hf'

theorem gives_bind {f : α → Reader β} {ψ : β → Prop} (hf : ∀ a, Gives (f a) ψ) :
    Gives (r >>= f) ψ :=
  Gives.bind (φ := fun _ => True) (fun _ _ _ _ => trivial) fun a _ => hf a

theorem gives_many (n : Nat) : Gives (many r n) fun as => as.length = n := by
  induction n with
  | zero => exact gives_pure rfl
  | succ n ih => exact gives_bind fun a => ih.bind fun as has => gives_pure (by simp [has])

theorem gives_bytes (n : Nat) : Gives (bytes buf n) fun bs => bs.length = n := by
  intro pos bs pos' hrun
  have ⟨bs', hread, hpair⟩ := Option.bind_eq_some_iff.mp hrun
  cases hpair
  unfold readBytes at hread
  split at hread
  · cases hread
    simp
    omega
  · contradiction

-- However the reader ends, it has moved by so many bytes.
def Moves (r : Reader α) (k : Nat) : Prop :=
  ∀ pos a pos', r.run pos = some (a, pos') → pos' = pos + k

theorem Moves.pure (a : α) : Moves (Pure.pure a) 0 := by
  intro _ _ _ hrun
  cases hrun
  rfl

theorem Moves.bind {f : α → Reader β} {k k' : Nat} (h : Moves r k) (hf : ∀ a, Moves (f a) k') :
    Moves (r >>= f) (k + k') := by
  intro pos b pos' hrun
  rw [StateT.run_bind] at hrun
  have ⟨(a, pos''), hr, hf'⟩ := Option.bind_eq_some_iff.mp hrun
  rw [hf a pos'' b pos' hf', h pos a pos'' hr, Nat.add_assoc]

theorem moves_bytes (n : Nat) : Moves (bytes buf n) n := by
  intro pos bs pos' hrun
  have ⟨_, _, hpair⟩ := Option.bind_eq_some_iff.mp hrun
  cases hpair
  rfl

theorem moves_many {k : Nat} (h : Moves r k) (n : Nat) : Moves (many r n) (n * k) := by
  induction n with
  | zero => simpa [many] using Moves.pure ([] : List α)
  | succ n ih =>
    have hsum : (n + 1) * k = k + (n * k + 0) := by
      rw [Nat.succ_mul]
      omega
    rw [hsum]
    exact h.bind fun a => ih.bind fun as => .pure (a :: as)

-- Where the buffer has `bs`, the reader can only return `a` if `P` holds, and then it does and goes
-- on behind `bs`.
def ReadsIff (buf : List Byte) (r : Reader α) (bs : List Byte) (a : α) (P : Prop) : Prop :=
  ∀ pos, Within buf pos bs →
    (P → r.run pos = some (a, pos + bs.length)) ∧ ∀ pos', r.run pos = some (a, pos') → P

variable {P Q : Prop}

theorem Reads.iff (h : Reads buf r bs a) : ReadsIff buf r bs a True :=
  fun pos hpos => ⟨fun _ => h pos hpos, fun _ _ => trivial⟩

theorem ReadsIff.congr (h : ReadsIff buf r bs a P) (hiff : P ↔ Q) : ReadsIff buf r bs a Q :=
  propext hiff ▸ h

-- A reader whose result shows the results of its parts.
theorem ReadsIff.bind {f : α → Reader β} (g : β → α) (h : ReadsIff buf r bs (g b) P)
    (hf : ReadsIff buf (f (g b)) bs' b Q) (hg : ∀ a, Gives (f a) fun b => g b = a) :
    ReadsIff buf (r >>= f) (bs ++ bs') b (P ∧ Q) := by
  intro pos hpos
  have ⟨hbs, hbs'⟩ := hpos.append
  have ⟨hr, hr'⟩ := h pos hbs
  constructor
  · rintro ⟨hP, hQ⟩
    rw [StateT.run_bind, hr hP, List.length_append, ← Nat.add_assoc]
    exact (hf _ hbs').1 hQ
  · intro pos' hrun
    rw [StateT.run_bind] at hrun
    have ⟨(a', pos''), hrun', hrest⟩ := Option.bind_eq_some_iff.mp hrun
    obtain rfl := hg a' pos'' b pos' hrest
    have hP := hr' pos'' hrun'
    have heq := (hr hP).symm.trans hrun'
    cases heq
    exact ⟨hP, (hf _ hbs').2 pos' hrest⟩

end Reader
end Bytes
