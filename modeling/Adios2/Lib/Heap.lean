import Adios2.Lib.Bytes

-- Memory as blocks from an allocator, with pointers into blocks. What the allocator is free to
-- choose (whether a block stays where it is, the address of a new block and what is in bytes that
-- nobody has written) is an argument of each call.

namespace Bytes

def overwrite (buf : List Byte) (pos : Nat) (bs : List Byte) : List Byte :=
  buf.take pos ++ bs ++ buf.drop (pos + bs.length)

section Overwrite

variable {buf bs : List Byte} {pos : Nat}

theorem overwrite_length (h : pos + bs.length ≤ buf.length) :
    (overwrite buf pos bs).length = buf.length := by
  simp only [overwrite, List.length_append, List.length_take, List.length_drop]
  omega

theorem readBytes_overwrite_self (h : pos + bs.length ≤ buf.length) :
    readBytes (overwrite buf pos bs) pos bs.length = some bs := by
  have hlen : (buf.take pos).length = pos := List.length_take_of_le (by omega)
  rw [readBytes, if_pos (by rwa [overwrite_length h]), overwrite, List.append_assoc,
    List.drop_left' hlen, List.take_left]

-- Bytes in front are not touched.
theorem readBytes_overwrite_of_le {p n : Nat} (h : pos + bs.length ≤ buf.length)
    (hn : p + n ≤ pos) : readBytes (overwrite buf pos bs) p n = readBytes buf p n := by
  have hlen : (buf.take pos).length = pos := List.length_take_of_le (by omega)
  rw [readBytes, readBytes, overwrite_length h, overwrite, List.append_assoc,
    List.drop_append_of_le_length (by omega), List.take_append_of_le_length (by simp; omega),
    List.drop_take, List.take_take, Nat.min_eq_left (by omega)]

-- Nor are bytes behind.
theorem readBytes_overwrite_of_ge {p n : Nat} (h : pos + bs.length ≤ buf.length)
    (hp : pos + bs.length ≤ p) : readBytes (overwrite buf pos bs) p n = readBytes buf p n := by
  have hlen : (buf.take pos ++ bs).length = pos + bs.length := by
    rw [List.length_append, List.length_take_of_le (by omega)]
  obtain ⟨k, rfl⟩ := Nat.exists_eq_add_of_le hp
  have hdrop : (overwrite buf pos bs).drop (pos + bs.length + k) =
      buf.drop (pos + bs.length + k) := by
    rw [overwrite, ← List.drop_drop, List.drop_left' hlen, List.drop_drop]
  rw [readBytes, readBytes, overwrite_length h, hdrop]

theorem readBytes_add {p m n : Nat} {xs ys : List Byte} (hxs : readBytes buf p m = some xs)
    (hys : readBytes buf (p + m) n = some ys) : readBytes buf p (m + n) = some (xs ++ ys) := by
  unfold readBytes at *
  split at hys
  case isTrue h =>
    cases hys
    rw [if_pos (by omega)] at hxs
    cases hxs
    rw [if_pos (by omega), List.take_add, List.drop_drop]
  case isFalse => contradiction

theorem readBytes_length {p n : Nat} {xs : List Byte} (h : readBytes buf p n = some xs) :
    xs.length = n := by
  unfold readBytes at h
  split at h
  case isTrue hle =>
    cases h
    rw [List.length_take, List.length_drop]
    omega
  case isFalse => contradiction

theorem overwrite_nil : overwrite buf pos [] = buf := by
  simp [overwrite]

-- Only the part changes that is written to.
theorem overwrite_append {front back : List Byte} (h : pos + bs.length ≤ buf.length) :
    overwrite (front ++ (buf ++ back)) (front.length + pos) bs =
      front ++ (overwrite buf pos bs ++ back) := by
  unfold overwrite
  rw [List.take_length_add_append, List.take_append_of_le_length (by omega), Nat.add_assoc,
    List.drop_length_add_append, List.drop_append_of_le_length h]
  simp only [List.append_assoc]

theorem readBytes_take_drop {p m n : Nat} {xs : List Byte} (h : readBytes buf p (m + n) = some xs) :
    readBytes buf p m = some (xs.take m) ∧ readBytes buf (p + m) n = some (xs.drop m) := by
  unfold readBytes at *
  split at h
  case isTrue hle =>
    cases h
    rw [if_pos (by omega), if_pos (by omega), List.take_add, List.drop_drop,
      List.take_left' (by simp; omega), List.drop_left' (by simp; omega)]
    exact ⟨rfl, rfl⟩
  case isFalse => contradiction

end Overwrite

structure Pointer where
  block  : Nat
  offset : Nat
  deriving DecidableEq, Repr

def Pointer.add (p : Pointer) (n : Nat) : Pointer :=
  { p with offset := p.offset + n }

structure Block where
  address : Nat
  bytes   : List Byte
  deriving DecidableEq, Repr

-- The blocks in the order of their allocation. One that has been given back is gone.
abbrev Heap := List (Option Block)

-- What the allocator chooses in a call.
structure Allocation where
  inPlace : Bool
  address : Nat
  junk    : Nat → Byte

namespace Heap

def block? (h : Heap) (b : Nat) : Option Block :=
  (h[b]?).join

def load (h : Heap) (p : Pointer) (n : Nat) : Option (List Byte) := do
  let block ← h.block? p.block
  readBytes block.bytes p.offset n

def store (h : Heap) (p : Pointer) (bs : List Byte) : Option Heap := do
  let block ← h.block? p.block
  if p.offset + bs.length ≤ block.bytes.length then
    some <| h.set p.block <| some { block with bytes := overwrite block.bytes p.offset bs }
  else
    none

-- Bytes that are kept, and junk behind them.
def resize (junk : Nat → Byte) (bytes : List Byte) (n : Nat) : List Byte :=
  bytes.take n ++ (List.range (n - bytes.length)).map junk

-- There is no meaning in asking for no bytes at all.
def realloc (h : Heap) (a : Allocation) (n : Nat) : Option Nat → Option (Nat × Heap)
  | none     =>
    if n = 0 then none else some (h.length, h ++ [some ⟨a.address, resize a.junk [] n⟩])
  | some old => do
    let block ← h.block? old
    let bytes := resize a.junk block.bytes n
    if n = 0 then
      none
    else if a.inPlace then
      some (old, h.set old (some { block with bytes }))
    else
      some (h.length, h.set old none ++ [some ⟨a.address, bytes⟩])

variable {h h' : Heap} {b b' n : Nat} {p : Pointer} {bs : List Byte} {a : Allocation}

theorem resize_length (junk : Nat → Byte) (bytes : List Byte) (n : Nat) :
    (resize junk bytes n).length = n := by
  simp only [resize, List.length_append, List.length_take, List.length_map, List.length_range]
  omega

theorem block?_lt {block : Block} (hb : h.block? b = some block) : b < h.length := by
  by_contra hge
  rw [block?, List.getElem?_eq_none (Nat.le_of_not_lt hge)] at hb
  contradiction

theorem block?_set_self (block : Option Block) (hb : b < h.length) :
    block? (h.set b block) b = block := by
  rw [block?, List.getElem?_set_self hb]
  rfl

theorem block?_set_ne (block : Option Block) (hne : b' ≠ b) :
    block? (h.set b block) b' = h.block? b' := by
  rw [block?, List.getElem?_set_ne hne.symm]
  rfl

theorem block?_append_self (block : Option Block) : block? (h ++ [block]) h.length = block := by
  rw [block?, List.getElem?_concat_length]
  rfl

theorem block?_append_of_lt (block : Option Block) (hb : b < h.length) :
    block? (h ++ [block]) b = h.block? b := by
  rw [block?, List.getElem?_append_left hb]
  rfl

-- Only the block that is written to changes, and only its bytes.
theorem store_eq {block : Block} (hb : h.block? p.block = some block)
    (hle : p.offset + bs.length ≤ block.bytes.length) :
    ∃ h', h.store p bs = some h' ∧ h'.length = h.length ∧
      h'.block? p.block = some { block with bytes := overwrite block.bytes p.offset bs } ∧
      ∀ b, b ≠ p.block → h'.block? b = h.block? b := by
  refine ⟨_, ?_, List.length_set, block?_set_self _ (block?_lt hb), fun b hne =>
    block?_set_ne _ hne⟩
  rw [store, hb, Option.bind_eq_bind, Option.bind_some, if_pos hle]

theorem load_add {m : Nat} {xs ys : List Byte} (hxs : h.load p m = some xs)
    (hys : h.load (p.add m) n = some ys) : h.load p (m + n) = some (xs ++ ys) := by
  simp only [load, Option.bind_eq_bind, Option.bind_eq_some_iff] at *
  have ⟨block, hb, hread⟩ := hxs
  have ⟨block', hb', hread'⟩ := hys
  cases hb.symm.trans hb'
  exact ⟨block, hb, readBytes_add hread hread'⟩

theorem load_take_drop {m : Nat} {xs : List Byte} (hload : h.load p (m + n) = some xs) :
    h.load p m = some (xs.take m) ∧ h.load (p.add m) n = some (xs.drop m) := by
  simp only [load, Option.bind_eq_bind, Option.bind_eq_some_iff] at *
  have ⟨block, hb, hread⟩ := hload
  have ⟨hxs, hys⟩ := readBytes_take_drop hread
  exact ⟨⟨block, hb, hxs⟩, ⟨block, hb, hys⟩⟩

theorem load_isSome {block : Block} (hb : h.block? p.block = some block)
    (hle : p.offset + n ≤ block.bytes.length) : ∃ bs, h.load p n = some bs := by
  rw [load, hb, Option.bind_eq_bind, Option.bind_some, readBytes, if_pos hle]
  exact ⟨_, rfl⟩

theorem load_length (hload : h.load p n = some bs) : bs.length = n := by
  simp only [load, Option.bind_eq_bind, Option.bind_eq_some_iff] at hload
  have ⟨_, _, hread⟩ := hload
  exact readBytes_length hread

-- A part of a block before and after it is written to, as seen from a pointer into it.
structure Stored (h h' : Heap) (p : Pointer) (pos : Nat) (bs : List Byte) : Prop where
  other : ∀ b, b ≠ p.block → h'.block? b = h.block? b
  sizes : ∀ b block, h.block? b = some block →
    ∃ block', h'.block? b = some block' ∧ block'.bytes.length = block.bytes.length
  empty : bs = [] → ∀ b, h'.block? b = h.block? b
  front : ∀ n ≤ pos, h'.load p n = h.load p n
  self  : h'.load (p.add pos) bs.length = some bs
  back  : ∀ k n, pos + bs.length ≤ k → h'.load (p.add k) n = h.load (p.add k) n

theorem Stored.load {pos : Nat} {xs : List Byte} (hs : Stored h h' p pos bs)
    (hload : h.load p n = some xs) (hle : pos + bs.length ≤ n) :
    h'.load p n = some (overwrite xs pos bs) := by
  obtain ⟨k, rfl⟩ := Nat.exists_eq_add_of_le hle
  have ⟨hfront, _⟩ := load_take_drop ((Nat.add_assoc _ _ _).symm ▸ hload)
  have ⟨_, hback⟩ := load_take_drop hload
  rw [← hs.front pos le_rfl] at hfront
  rw [← hs.back _ _ le_rfl] at hback
  exact load_add (load_add hfront hs.self) hback

theorem stored_refl {pos : Nat} (hload : h.load (p.add pos) bs.length = some bs) :
    Stored h h p pos bs where
  other := fun _ _ => rfl
  sizes := fun _ block hb => ⟨block, hb, rfl⟩
  empty := fun _ _ => rfl
  front := fun _ _ => rfl
  self  := hload
  back  := fun _ _ _ => rfl

theorem store_stored {block : Block} {pos : Nat} (hb : h.block? p.block = some block)
    (hle : p.offset + pos + bs.length ≤ block.bytes.length) :
    ∃ h', h.store (p.add pos) bs = some h' ∧ Stored h h' p pos bs := by
  have ⟨h', hstore, _, hself, hother⟩ := store_eq (p := p.add pos) hb hle
  refine ⟨h', hstore, hother, fun b block' hb' => ?_, fun hnil b => ?_, fun n hn => ?_, ?_,
    fun k n hk => ?_⟩
  · by_cases heq : b = p.block
    case pos =>
      subst heq
      cases hb.symm.trans hb'
      exact ⟨_, hself, overwrite_length hle⟩
    case neg => exact ⟨block', (hother b heq).trans hb', rfl⟩
  · by_cases heq : b = p.block
    case pos =>
      subst heq
      rw [hnil, overwrite_nil] at hself
      exact hself.trans hb.symm
    case neg => exact hother b heq
  · have hself : h'.block? p.block = _ := hself
    rw [load, load, hself, hb]
    exact readBytes_overwrite_of_le hle (Nat.add_le_add_left hn _)
  · rw [load, hself]
    exact readBytes_overwrite_self hle
  · have hself : h'.block? (p.add k).block = _ := hself
    have hb : h.block? (p.add k).block = _ := hb
    rw [load, load, hself, hb]
    refine readBytes_overwrite_of_ge hle ?_
    change p.offset + pos + bs.length ≤ p.offset + k
    omega

-- A new block disturbs none that is there.
theorem realloc_none_eq (hn : n ≠ 0) :
    ∃ h', h.realloc a n none = some (h.length, h') ∧
      h'.block? h.length = some ⟨a.address, resize a.junk [] n⟩ ∧
      ∀ b < h.length, h'.block? b = h.block? b :=
  ⟨_, if_neg hn, block?_append_self _, fun _ hb => block?_append_of_lt _ hb⟩

-- A block that is resized, and may have moved, disturbs no other.
theorem realloc_some_eq {block : Block} (hb : h.block? b = some block) (hn : n ≠ 0) :
    ∃ b' h' address, h.realloc a n (some b) = some (b', h') ∧ h.length ≤ h'.length ∧
      h'.block? b' = some ⟨address, resize a.junk block.bytes n⟩ ∧
      (b' = b ∧ a.inPlace = true ∧ address = block.address ∨
        b' = h.length ∧ a.inPlace = false ∧ address = a.address) ∧
      ∀ c < h.length, c ≠ b → h'.block? c = h.block? c := by
  have hlt := block?_lt hb
  unfold realloc
  simp only [hb, Option.bind_eq_bind, Option.bind_some, if_neg hn]
  cases a.inPlace with
  | true =>
    refine ⟨b, _, block.address, rfl, List.length_set.ge, block?_set_self _ hlt,
      .inl ⟨rfl, rfl, rfl⟩, fun c _ hne => block?_set_ne _ hne⟩
  | false =>
    have hset : (h.set b none).length = h.length := List.length_set
    refine ⟨h.length, _, a.address, rfl, ?_, ?_, .inr ⟨rfl, rfl, rfl⟩, fun c hc hne => ?_⟩
    · rw [List.length_append, hset]
      exact Nat.le_add_right _ _
    · conv_lhs => rw [← hset]
      exact block?_append_self _
    · rw [block?_append_of_lt _ (hset ▸ hc), block?_set_ne _ hne]

end Heap
end Bytes
