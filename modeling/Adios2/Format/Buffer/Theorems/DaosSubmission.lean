import Adios2.Format.Buffer.DaosChunkV
import Adios2.Format.Buffer.Theorems.ChunkVContents

-- The calls that bring entries to the array have all of their bytes, in order and each once.

namespace Buffer

open Bytes Coverage ChunkV

section Slices

variable {heap : Heap} {e : VecEntry} {bs : List Byte}

theorem VecEntry.slice_full (e : VecEntry) : e.slice 0 e.size = e := by
  cases e with
  | external bytes => simp [VecEntry.slice, VecEntry.size]
  | internal base n => simp [VecEntry.slice, VecEntry.size, Pointer.add]

-- A piece of an entry in two.
theorem entryBytes_slice {off m n : Nat}
    (h : entryBytes heap (e.slice off (m + n)) = some bs) :
    entryBytes heap (e.slice off m) = some (bs.take m) ∧
      entryBytes heap (e.slice (off + m) n) = some (bs.drop m) := by
  cases e with
  | external bytes =>
    cases h
    constructor
    · rw [List.take_take, Nat.min_eq_left (Nat.le_add_right m n)]
      rfl
    · rw [List.drop_take, Nat.add_sub_cancel_left, List.drop_drop]
      rfl
  | internal base size =>
    have ⟨hfront, hback⟩ := Heap.load_take_drop (p := base.add off) h
    refine ⟨hfront, ?_⟩
    rw [← hback]
    simp only [VecEntry.slice, entryBytes, Pointer.add, Nat.add_assoc]

theorem VecEntry.slice_internal {off n m : Nat} {base : Pointer}
    (h : e.slice off n = .internal base m) :
    ∃ base' n', e = .internal base' n' ∧ base'.block = base.block := by
  cases e with
  | external _ => cases h
  | internal base' n' =>
    cases h
    exact ⟨base', n', rfl, rfl⟩

-- What is left of the pieces when bytes of the first have been taken.
def remaining : List VecEntry → Nat → List VecEntry
  | [], _        => []
  | e :: es, off => e.slice off (e.size - off) :: es

theorem remaining_zero (es : List VecEntry) : remaining es 0 = es := by
  cases es with
  | nil => rfl
  | cons e es => rw [remaining, Nat.sub_zero, e.slice_full]

end Slices

-- The memory of the pieces belongs to the entries.
def OutOf (entries iovs : List VecEntry) : Prop :=
  ∀ base n, .internal base n ∈ iovs →
    ∃ base' n', .internal base' n' ∈ entries ∧ base'.block = base.block

theorem OutOf.refl (entries : List VecEntry) : OutOf entries entries :=
  fun base n h => ⟨base, n, h, rfl⟩

theorem OutOf.trans {xs ys zs : List VecEntry} (hxy : OutOf xs ys) (hyz : OutOf ys zs) :
    OutOf xs zs := by
  intro base n h
  have ⟨base', n', hin, hblock⟩ := hyz base n h
  have ⟨base'', n'', hin', hblock'⟩ := hxy base' n' hin
  exact ⟨base'', n'', hin', hblock'.trans hblock⟩

-- A call of the loop takes bytes from the front.
structure Takes (heap : Heap) (iovs : List VecEntry) (flat : List Byte) (n : Nat)
    (batch rest : List VecEntry) (off : Nat) : Prop where
  taken  : Shows heap batch (flat.take n)
  left   : Shows heap (remaining rest off) (flat.drop n)
  within : ∀ e ∈ rest.head?, off < e.size
  outOf  : OutOf iovs batch
  mem    : ∀ e ∈ rest, e ∈ iovs

theorem takeBatch_takes {heap : Heap} {step b off : Nat} {iovs : List VecEntry} {flat : List Byte}
    (hb : b ≤ step) (hoff : ∀ e ∈ iovs.head?, off < e.size) (hne : ∀ e ∈ iovs, e.size ≠ 0)
    (h : Shows heap (remaining iovs off) flat) :
    Takes heap iovs flat (step - b) (takeBatch step b iovs off).1 (takeBatch step b iovs off).2.1
      (takeBatch step b iovs off).2.2 := by
  induction iovs generalizing b off flat with
  | nil =>
    cases shows_nil.mp h
    exact ⟨shows_nil.mpr List.take_nil, shows_nil.mpr List.drop_nil, by simp [takeBatch],
      fun _ _ hin => (nomatch hin), by simp [takeBatch]⟩
  | cons e es ih =>
    have hlt : off < e.size := hoff e rfl
    rw [takeBatch]
    by_cases hfull : b < step
    case neg =>
      rw [if_neg hfull]
      have hzero : step - b = 0 := by omega
      rw [hzero]
      exact ⟨shows_nil.mpr List.take_zero, h, hoff, fun _ _ hin => (nomatch hin), fun _ => id⟩
    rw [if_pos hfull]
    obtain ⟨x, y, hx, hy, rfl⟩ := shows_cons.mp h
    have hxlen : x.length = e.size - off := by
      rw [entryBytes_length hx]
      cases e with
      | external bytes => simp [VecEntry.slice, VecEntry.size]
      | internal _ _ => rfl
    by_cases hall : off + min (e.size - off) (step - b) = e.size
    case pos =>
      -- The rest of the first piece fits.
      have htake : min (e.size - off) (step - b) = e.size - off := by omega
      have hle : e.size - off ≤ step - b := by omega
      have hrest := ih (b := b + (e.size - off)) (by omega)
        (fun e' he' => Nat.pos_of_ne_zero (hne e' (.tail _ (List.mem_of_mem_head? he'))))
        (fun e' he' => hne e' (.tail _ he')) (by rwa [remaining_zero])
      have hstep : step - b = x.length + (step - (b + (e.size - off))) := by omega
      rw [if_pos hall, htake, hstep]
      refine ⟨?_, ?_, hrest.within, ?_, fun e' he' => .tail _ (hrest.mem e' he')⟩
      · rw [List.take_length_add_append]
        exact shows_cons.mpr ⟨x, _, hx, hrest.taken, rfl⟩
      · rw [List.drop_length_add_append]
        exact hrest.left
      · intro base n hin
        cases List.mem_cons.mp hin with
        | inl heq =>
          obtain ⟨base', n', he, hblock⟩ := VecEntry.slice_internal heq.symm
          exact ⟨base', n', he ▸ List.mem_cons_self, hblock⟩
        | inr hin =>
          obtain ⟨base', n', hin', hblock⟩ := hrest.outOf base n hin
          exact ⟨base', n', .tail _ hin', hblock⟩
    case neg =>
      have htake : min (e.size - off) (step - b) = step - b := by omega
      have hlt' : step - b < e.size - off := by omega
      have hsplit : e.size - off = (step - b) + (e.size - (off + (step - b))) := by omega
      rw [hsplit] at hx
      obtain ⟨hfront, hback⟩ := entryBytes_slice hx
      rw [if_neg hall, htake]
      refine ⟨?_, ?_, ?_, fun base n hin => ?_, fun _ => id⟩
      · rw [List.take_append_of_le_length (by omega)]
        exact shows_singleton.mpr hfront
      · rw [List.drop_append_of_le_length (by omega)]
        exact shows_cons.mpr ⟨_, y, hback, hy, rfl⟩
      · intro e' he'
        cases he'
        dsimp only
        omega
      · obtain ⟨base', n', he, hblock⟩ := VecEntry.slice_internal (List.mem_singleton.mp hin).symm
        exact ⟨base', n', he ▸ List.mem_cons_self, hblock⟩

-- A call has moved the bytes, or has them in memory that belongs to the entries.
structure ArrayWrite.Brings (heap : Heap) (entries : List VecEntry) (w : ArrayWrite)
    (bs : List Byte) : Prop where
  moved : ∀ x, w.moved = some x → x = bs
  shows : w.moved = none → Shows heap w.iovs bs
  outOf : OutOf entries w.iovs

-- Calls one behind the other.
inductive Sends (heap : Heap) (entries : List VecEntry) : Nat → List ArrayWrite → List Byte → Prop
  | nil {start : Nat} : Sends heap entries start [] []
  | cons {w : ArrayWrite} {bs rest : List Byte} {ws : List ArrayWrite}
      (brings : w.Brings heap entries bs)
      (tail : Sends heap entries (w.offset + bs.length) ws rest) :
      Sends heap entries w.offset (w :: ws) (bs ++ rest)

namespace Sends

variable {heap heap' : Heap} {entries entries' : List VecEntry} {start : Nat}
  {ws ws' : List ArrayWrite} {flat flat' : List Byte}

theorem append (h : Sends heap entries start ws flat)
    (h' : Sends heap entries (start + flat.length) ws' flat') :
    Sends heap entries start (ws ++ ws') (flat ++ flat') := by
  induction h with
  | nil => simpa using h'
  | cons brings tail ih =>
    rw [List.append_assoc]
    refine .cons brings (ih ?_)
    rwa [List.length_append, ← Nat.add_assoc] at h'

-- More entries, or another memory that is the same where the entries are.
theorem mono (h : Sends heap entries start ws flat) (houtOf : OutOf entries' entries)
    (hmem : ∀ base n, .internal base n ∈ entries →
      heap'.block? base.block = heap.block? base.block) :
    Sends heap' entries' start ws flat := by
  induction h with
  | nil => exact .nil
  | cons brings tail ih =>
    refine .cons ⟨brings.moved, fun hnone => ?_, houtOf.trans brings.outOf⟩ ih
    refine (brings.shows hnone).congr fun base n hin => ?_
    have ⟨base', n', hin', hblock⟩ := brings.outOf base n hin
    rw [← hblock]
    exact hmem base' n' hin'

-- When the memory of a call is read, it is what it is to be.
theorem moved (h : Sends heap entries start ws flat) {i offset : Nat} {iovs : List VecEntry}
    (hi : ws[i]? = some { offset, iovs, moved := none }) :
    ∃ blocks, iovs.mapM (entryBytes heap) = some blocks ∧
      Sends heap entries start (ws.set i { offset, iovs, moved := some blocks.flatten }) flat := by
  induction h generalizing i with
  | nil => cases hi
  | @cons w bs rest ws brings tail ih =>
    cases i with
    | zero =>
      cases hi
      obtain ⟨blocks, hall, rfl⟩ := brings.shows rfl
      refine ⟨blocks, List.mapM_eq_some_iff_forall₂.mpr hall, ?_⟩
      refine Sends.cons (w := { offset, iovs, moved := some blocks.flatten }) ?_ tail
      exact ⟨fun x hx => (Option.some.inj hx).symm, fun hnone => (nomatch hnone), brings.outOf⟩
    | succ i =>
      have ⟨blocks, hblocks, hsends⟩ := ih hi
      exact ⟨blocks, hblocks, .cons brings hsends⟩

-- Once all have moved, the array has it all.
theorem tile (h : Sends heap entries start ws flat) (hmoved : ∀ w ∈ ws, w.moved.isSome = true) :
    Tile start (ws.filterMap fun w => w.moved.map fun items => { offset := w.offset, items })
      flat := by
  induction h with
  | nil => exact .nil
  | @cons w bs rest ws brings tail ih =>
    have ⟨x, hx⟩ := Option.isSome_iff_exists.mp (hmoved w List.mem_cons_self)
    cases brings.moved x hx
    rw [List.filterMap_cons, hx]
    exact .cons (ih fun w hw => hmoved w (.tail _ hw))

end Sends

theorem subWrites_cons (step n start off : Nat) (e : VecEntry) (es : List VecEntry) :
    subWrites step (n + 1) start (e :: es) off =
      { offset := start, iovs := (takeBatch step 0 (e :: es) off).1 } ::
        subWrites step n (start + ((takeBatch step 0 (e :: es) off).1.map VecEntry.size).sum)
          (takeBatch step 0 (e :: es) off).2.1 (takeBatch step 0 (e :: es) off).2.2 :=
  rfl

theorem subWrites_sends {heap : Heap} {step : Nat} (hstep : 0 < step) {n start off : Nat}
    {entries iovs : List VecEntry} {flat : List Byte} (hn : flat.length ≤ n)
    (hoff : ∀ e ∈ iovs.head?, off < e.size) (hne : ∀ e ∈ iovs, e.size ≠ 0)
    (houtOf : OutOf entries iovs) (h : Shows heap (remaining iovs off) flat) :
    Sends heap entries start (subWrites step n start iovs off) flat := by
  induction n generalizing start off iovs flat with
  | zero =>
    cases List.eq_nil_of_length_eq_zero (Nat.le_zero.mp hn)
    exact .nil
  | succ n ih =>
    cases iovs with
    | nil =>
      cases shows_nil.mp h
      exact .nil
    | cons e es =>
      have htakes := takeBatch_takes (Nat.zero_le step) hoff hne h
      rw [subWrites_cons]
      have hlen := htakes.taken.length_eq
      rw [Nat.sub_zero] at hlen htakes
      have hpos : 0 < flat.length := by
        have hlt := hoff e rfl
        rw [h.length_eq, remaining, List.map_cons, List.sum_cons]
        have : (e.slice off (e.size - off)).size = e.size - off := by
          cases e with
          | external bytes => simp [VecEntry.slice, VecEntry.size]
          | internal _ _ => rfl
        omega
      have htail := @ih (start + ((takeBatch step 0 (e :: es) off).1.map VecEntry.size).sum)
        _ _ _ (by rw [List.length_drop]; omega) htakes.within (fun e' he' => hne e' (htakes.mem e' he'))
        (fun base k hin => houtOf base k (htakes.mem _ hin)) htakes.left
      conv_rhs => rw [← List.take_append_drop step flat]
      rw [← hlen] at htail ⊢
      refine Sends.cons (w := { offset := start, iovs := (takeBatch step 0 (e :: es) off).1 }) ?_
        htail
      exact ⟨fun _ hx => (by cases hx), fun _ => htakes.taken, houtOf.trans htakes.outOf⟩

theorem shows_filter {heap : Heap} {entries : List VecEntry} {flat : List Byte}
    (h : Shows heap entries flat) : Shows heap (entries.filter (·.size ≠ 0)) flat := by
  induction entries generalizing flat with
  | nil => exact h
  | cons e es ih =>
    obtain ⟨x, y, hx, hy, rfl⟩ := shows_cons.mp h
    by_cases hzero : e.size = 0
    case pos =>
      have hnil : x = [] := List.eq_nil_of_length_eq_zero (by rw [entryBytes_length hx, hzero])
      rw [List.filter_cons_of_neg (by simpa using hzero), hnil, List.nil_append]
      exact ih hy
    case neg =>
      rw [List.filter_cons_of_pos (by simpa using hzero)]
      exact shows_cons.mpr ⟨x, y, hx, ih hy, rfl⟩

variable (writeChunk start : Nat) in
theorem arrayWrites_sends {heap : Heap} {entries : List VecEntry} {flat : List Byte}
    (h : Shows heap entries flat) :
    Sends heap entries start (arrayWrites writeChunk start entries) flat := by
  have hfilter := shows_filter h
  have hlen := hfilter.length_eq
  rw [arrayWrites, ← hlen]
  rcases Nat.eq_zero_or_pos flat.length with hzero | hpos
  · cases List.eq_nil_of_length_eq_zero hzero
    exact .nil
  · have hstep : 0 < if writeChunk = 0 then flat.length else writeChunk := by
      split
      · exact hpos
      · omega
    have hne : ∀ e ∈ entries.filter (·.size ≠ 0), e.size ≠ 0 := by
      intro e he
      simpa using (List.mem_filter.mp he).2
    refine subWrites_sends hstep le_rfl (fun e he => ?_) hne (fun base n hin => ?_) ?_
    · exact Nat.pos_of_ne_zero (hne e (List.mem_of_mem_head? he))
    · exact ⟨base, n, (List.mem_filter.mp hin).1, rfl⟩
    · rwa [remaining_zero]

end Buffer
