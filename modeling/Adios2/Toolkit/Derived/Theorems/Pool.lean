import Adios2.Toolkit.Derived.Execute

-- The memory of a run of `Execute`: the pool owns its pieces, each slot one of its own.

namespace Derived

open BP5

variable {V : Type}

namespace Heap

variable {h h' : Heap V} {p q n : Nat} {type : DataType} {values : List V}

@[simp]
theorem malloc_next (bytes : Nat) : (h.malloc bytes).2.next = h.next + 1 := rfl

theorem malloc_here (bytes : Nat) :
    (h.malloc bytes).2.pieces h.next = some { bytes } := by simp [malloc]

theorem malloc_frame (bytes : Nat) (hp : p ≠ h.next) :
    (h.malloc bytes).2.pieces p = h.pieces p := by simp [malloc, hp]

@[simp]
theorem free_next : (h.free p).next = h.next := rfl

theorem free_frame (hp : q ≠ p) : (h.free p).pieces q = h.pieces q := by simp [free, hp]

theorem load_congr (hp : h.pieces p = h'.pieces q) : h.load p n = h'.load q n := by
  rw [load, load, hp]

theorem load_of_piece {piece : Piece V} (hp : h.pieces p = some piece) :
    h.load p n = if n ≤ piece.values.length then pure (piece.values.take n)
      else .error .undefined := by
  rw [load, hp]
  split
  case isTrue hn => simp [hn]
  case isFalse => rfl

-- What an array of elements needs.
def Fits (type : DataType) (values : List V) (bytes : Nat) : Prop :=
  getDataTypeSize type ≠ 0 ∧ values.length * getDataTypeSize type ≤ bytes

theorem Fits.pos {bytes : Nat} (hfits : Fits type values bytes) (hv : values ≠ []) : 0 < bytes :=
  (Nat.mul_pos (List.length_pos_iff.mpr hv) (Nat.pos_of_ne_zero hfits.left)).trans_le hfits.right

theorem store_nil : h.store p type [] = .ok h := rfl

theorem store_eq {piece : Piece V} (hp : h.pieces p = some piece) (hv : values ≠ [])
    (hfits : Fits type values piece.bytes) : h.store p type values =
      .ok { h with pieces := Function.update h.pieces p (some { piece with values }) } := by
  rw [store, if_neg hv, hp]
  exact if_pos hfits

theorem store_not_fits {piece : Piece V} (hp : h.pieces p = some piece) (hv : values ≠ [])
    (hfits : ¬Fits type values piece.bytes) : h.store p type values = .error .undefined := by
  rw [store, if_neg hv, hp]
  exact if_neg hfits

end Heap

def slotAt (m : Memory V) (s : Nat) : BufferSlot := m.pool.getD s {}

-- A slot with memory has a piece that is as large as its capacity.
structure Owned (m : Memory V) : Prop where
  pos   : 0 < m.heap.next
  null  : m.heap.pieces 0 = none
  slots : ∀ s, slotAt m s = {} ∨ (slotAt m s).ptr ≠ 0 ∧ (slotAt m s).ptr < m.heap.next ∧
    ∃ piece, m.heap.pieces (slotAt m s).ptr = some piece ∧ piece.bytes = (slotAt m s).capacity
  apart : ∀ s s', s ≠ s' → (slotAt m s).ptr ≠ 0 → (slotAt m s).ptr ≠ (slotAt m s').ptr

-- The address that a result has at its place: in its slot, or outside of the pool.
def OwnsAt (m : Memory V) (slot : Option Nat) (p : Nat) : Prop :=
  match slot with
  | none   => 0 < p ∧ p < m.heap.next ∧ ∀ s, (slotAt m s).ptr ≠ p
  | some s => (slotAt m s).ptr = p

section Owned

variable {m m' : Memory V} {p : Nat} {slot : Option Nat}

theorem owned_empty : Owned ({ heap := {} } : Memory V) :=
  ⟨Nat.one_pos, rfl, fun _ => .inl rfl, fun _ _ _ h => absurd rfl h⟩

theorem Owned.ptr_lt (h : Owned m) (s : Nat) : (slotAt m s).ptr < m.heap.next := by
  rcases h.slots s with hs | ⟨_, hlt, _⟩
  · rw [hs]
    exact h.pos
  · exact hlt

theorem OwnsAt.lt (h : Owned m) (hp : OwnsAt m slot p) : p < m.heap.next := by
  cases slot with
  | none => exact hp.right.left
  | some s => exact hp ▸ h.ptr_lt s

theorem OwnsAt.write (h : OwnsAt m slot p) (pieces : Nat → Option (Piece V)) :
    OwnsAt { m with heap := { m.heap with pieces } } slot p := by
  cases slot <;> exact h

-- The sizes of the pieces stay when elements are written.
theorem Owned.write (h : Owned m) {piece : Piece V} (hp : m.heap.pieces p = some piece)
    (values : List V) : Owned { m with
      heap := { m.heap with
        pieces := Function.update m.heap.pieces p (some { piece with values }) } } where
  pos   := h.pos
  null  := by
    have hne : 0 ≠ p := by
      rintro rfl
      exact absurd (h.null.symm.trans hp) (by simp)
    simpa [hne] using h.null
  slots := fun s => (h.slots s).imp_right fun ⟨hne, hlt, piece', hs, hcap⟩ => by
    refine ⟨hne, hlt, ?_⟩
    by_cases hptr : (slotAt m s).ptr = p
    · have heq := Option.some.inj ((hptr ▸ hs).symm.trans hp)
      subst heq
      refine ⟨{ piece' with values }, ?_, hcap⟩
      show Function.update m.heap.pieces p _ (slotAt m s).ptr = _
      rw [hptr, Function.update_self]
    · exact ⟨piece', (Function.update_of_ne hptr _ _).trans hs, hcap⟩
  apart := h.apart

end Owned

section Allocate

variable {m : Memory V} {slot : Option Nat} {bytes : Nat}

-- What is elsewhere is not touched, and what is written has room.
structure Allocation (m : Memory V) (slot : Option Nat) (bytes ptr : Nat) (m' : Memory V) :
    Prop where
  owned : Owned m'
  le    : m.heap.next ≤ m'.heap.next
  here  : OwnsAt m' slot ptr
  null  : ptr = 0 → bytes = 0
  room  : ptr ≠ 0 → ∃ piece, m'.heap.pieces ptr = some piece ∧ bytes ≤ piece.bytes
  frame : ∀ slot' p, OwnsAt m slot' p → (∀ s, slot' = some s → slot ≠ some s) →
    OwnsAt m' slot' p ∧ m'.heap.pieces p = m.heap.pieces p ∧ (p = ptr → p = 0)

theorem Owned.malloc (h : Owned m) :
    Allocation m none bytes m.heap.next { m with heap := (m.heap.malloc bytes).2 } where
  owned := by
    refine ⟨Nat.succ_pos _, ?_, fun s => (h.slots s).imp_right ?_, h.apart⟩
    · rw [← h.null]
      exact Heap.malloc_frame bytes h.pos.ne
    · rintro ⟨hne, hlt, piece, hs, hcap⟩
      exact ⟨hne, Nat.lt_succ_of_lt hlt, piece, (Heap.malloc_frame bytes hlt.ne).trans hs, hcap⟩
  le    := Nat.le_succ _
  here  := ⟨h.pos, Nat.lt_succ_self _, fun s => (h.ptr_lt s).ne⟩
  null  := fun heq => absurd h.pos (heq ▸ Nat.lt_irrefl 0)
  room  := fun _ => ⟨{ bytes }, Heap.malloc_here bytes, Nat.le_refl _⟩
  frame := fun slot' p hp _ => by
    have hlt := hp.lt h
    refine ⟨?_, Heap.malloc_frame bytes hlt.ne, fun heq => absurd hlt (heq ▸ Nat.lt_irrefl p)⟩
    cases slot' with
    | none => exact ⟨hp.left, Nat.lt_succ_of_lt hlt, hp.right.right⟩
    | some s => exact hp

theorem getD_grow (pool : List BufferSlot) (n s : Nat) :
    (pool ++ List.replicate n ({} : BufferSlot)).getD s {} = pool.getD s {} := by
  simp only [List.getD_eq_getElem?_getD, List.getElem?_append, List.getElem?_replicate]
  split
  case isTrue => rfl
  case isFalse hs =>
    rw [List.getElem?_eq_none (Nat.le_of_not_lt hs)]
    split <;> rfl

theorem getD_set_grow (pool : List BufferSlot) (slot s : Nat) (x : BufferSlot) :
    ((pool ++ List.replicate (slot + 1 - pool.length) ({} : BufferSlot)).set slot x).getD s {} =
      if s = slot then x else pool.getD s {} := by
  rw [← getD_grow pool (slot + 1 - pool.length) s]
  simp only [List.getD_eq_getElem?_getD, List.getElem?_set]
  by_cases hs : slot = s
  · have hlt : slot < pool.length + (slot + 1 - pool.length) := by omega
    simp [← hs, hlt]
  · simp [hs, Ne.symm hs]

-- A slot that is large enough keeps its memory, another one gets new memory.
theorem poolAlloc_eq (m : Memory V) (slot bytes : Nat) :
    poolAlloc m slot bytes =
      if (slotAt m slot).capacity < bytes then
        (m.heap.next, {
          heap := ((m.heap.free (slotAt m slot).ptr).malloc bytes).2
          pool := (m.pool ++ List.replicate (slot + 1 - m.pool.length) ({} : BufferSlot)).set slot
            { ptr := m.heap.next, capacity := bytes } })
      else
        ((slotAt m slot).ptr,
          { m with pool := m.pool ++ List.replicate (slot + 1 - m.pool.length) ({} : BufferSlot) }) := by
  rw [poolAlloc, slotAt]
  simp only [getD_grow]
  rfl

theorem Owned.keep (h : Owned m) {slot : Nat} (hcap : bytes ≤ (slotAt m slot).capacity)
    {pool : List BufferSlot} (hpool : ∀ s, pool.getD s {} = slotAt m s) :
    Allocation m (some slot) bytes (slotAt m slot).ptr { m with pool } where
  owned := by
    refine ⟨h.pos, h.null, fun s => ?_, fun s s' hne => ?_⟩
    · rw [slotAt, hpool]
      exact h.slots s
    · rw [slotAt, slotAt, hpool, hpool]
      exact h.apart s s' hne
  le    := Nat.le_refl _
  here  := congrArg BufferSlot.ptr (hpool slot)
  null  := fun hzero => by
    rcases h.slots slot with hs | ⟨hne, _⟩
    · rw [hs] at hcap
      exact Nat.le_zero.mp hcap
    · exact absurd hzero hne
  room  := fun hne => by
    rcases h.slots slot with hs | ⟨_, _, piece, hp, hsize⟩
    · rw [hs] at hne
      exact absurd rfl hne
    · exact ⟨piece, hp, hsize ▸ hcap⟩
  frame := fun slot' p hp hslot => by
    cases slot' with
    | none =>
      refine ⟨⟨hp.left, hp.right.left, fun s => ?_⟩, rfl, fun heq => ?_⟩
      · rw [slotAt, hpool]
        exact hp.right.right s
      · exact absurd heq.symm (hp.right.right slot)
    | some s =>
      refine ⟨(congrArg BufferSlot.ptr (hpool s)).trans hp, rfl, fun heq => ?_⟩
      by_contra hzero
      have hne : s ≠ slot := fun heq => hslot s rfl (heq ▸ rfl)
      exact h.apart s slot hne (hp ▸ hzero) (hp.trans heq)

theorem Owned.grow (h : Owned m) {slot : Nat} {pool : List BufferSlot}
    (hpool : ∀ s, pool.getD s {} =
      if s = slot then { ptr := m.heap.next, capacity := bytes } else slotAt m s) :
    Allocation m (some slot) bytes m.heap.next
      { heap := ((m.heap.free (slotAt m slot).ptr).malloc bytes).2, pool } := by
  -- pieces other than the one that is given back stay
  have hframe : ∀ p < m.heap.next, (p = (slotAt m slot).ptr → p = 0) →
      ((m.heap.free (slotAt m slot).ptr).malloc bytes).2.pieces p = m.heap.pieces p := by
    intro p hlt hp
    rw [Heap.malloc_frame (h := m.heap.free _) bytes hlt.ne]
    by_cases heq : p = (slotAt m slot).ptr
    · rw [hp heq, h.null]
      simp [Heap.free, ← heq, hp heq]
    · exact Heap.free_frame heq
  have hother : ∀ s ≠ slot, (slotAt m s).ptr = (slotAt m slot).ptr → (slotAt m s).ptr = 0 := by
    intro s hne heq
    by_contra hzero
    exact h.apart s slot hne hzero heq
  have hslots : ∀ s, slotAt (V := V)
      { heap := ((m.heap.free (slotAt m slot).ptr).malloc bytes).2, pool } s =
        if s = slot then { ptr := m.heap.next, capacity := bytes } else slotAt m s := hpool
  constructor
  case owned =>
    refine ⟨Nat.succ_pos _, ?_, fun s => ?_, fun s s' hne hzero => ?_⟩
    · exact (hframe 0 h.pos fun _ => rfl).trans h.null
    · rw [hslots]
      split
      case isTrue =>
        exact .inr ⟨h.pos.ne', Nat.lt_succ_self _, { bytes }, Heap.malloc_here bytes, rfl⟩
      case isFalse hs =>
        refine (h.slots s).imp_right fun ⟨hne, hlt, piece, hp, hsize⟩ => ?_
        exact ⟨hne, Nat.lt_succ_of_lt hlt, piece,
          (hframe _ hlt fun heq => hother s hs heq).trans hp, hsize⟩
    · rw [hslots] at hzero
      rw [hslots, hslots]
      split
      case isTrue hs =>
        rw [if_neg (hs ▸ hne.symm)]
        exact (h.ptr_lt s').ne'
      case isFalse hs =>
        rw [if_neg hs] at hzero
        split
        · exact (h.ptr_lt s).ne
        · exact h.apart s s' hne hzero
  case le => exact Nat.le_succ _
  case here => exact congrArg BufferSlot.ptr ((hpool slot).trans (if_pos rfl))
  case null => exact fun hzero => absurd h.pos (hzero ▸ Nat.lt_irrefl 0)
  case room => exact fun _ => ⟨{ bytes }, Heap.malloc_here bytes, Nat.le_refl _⟩
  case frame =>
    intro slot' p hp hslot
    have hlt := hp.lt h
    have hnew : p = m.heap.next → p = 0 := fun heq => absurd hlt (heq ▸ Nat.lt_irrefl p)
    cases slot' with
    | none =>
      refine ⟨⟨hp.left, Nat.lt_succ_of_lt hlt, fun s => ?_⟩,
        hframe p hlt fun heq => absurd heq.symm (hp.right.right slot), hnew⟩
      rw [hslots]
      split
      · exact hlt.ne'
      · exact hp.right.right s
    | some s =>
      have hne : s ≠ slot := fun heq => hslot s rfl (heq ▸ rfl)
      refine ⟨?_, hframe p hlt fun heq => ?_, hnew⟩
      · exact (congrArg BufferSlot.ptr ((hpool s).trans (if_neg hne))).trans hp
      · exact hp ▸ hother s hne (hp.trans heq)

theorem allocate_spec (h : Owned m) (slot : Option Nat) (bytes : Nat) :
    Allocation m slot bytes (allocate m slot bytes).1 (allocate m slot bytes).2 := by
  cases slot with
  | none => exact h.malloc
  | some slot =>
    rw [allocate, poolAlloc_eq]
    split
    case isTrue => exact h.grow fun s => getD_set_grow m.pool slot s _
    case isFalse hcap => exact h.keep (Nat.le_of_not_lt hcap) fun s => getD_grow m.pool _ s

end Allocate

end Derived
