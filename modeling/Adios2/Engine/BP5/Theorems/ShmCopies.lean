import Adios2.Engine.BP5.TwoLevelShm

-- The data of a rank in the pieces in which it goes through shared memory.

namespace BP5

open Bytes

variable {maxSize : Nat}

-- An offset in the first of the blocks that are left.
def InFirst (blocks : List (List Byte)) (tempOffset : Nat) : Prop :=
  tempOffset = 0 ∨ ∃ block ∈ blocks.head?, tempOffset < block.length

theorem InFirst.zero {blocks : List (List Byte)} : InFirst blocks 0 :=
  .inl rfl

theorem InFirst.le {block : List Byte} {blocks : List (List Byte)} {tempOffset : Nat}
    (h : InFirst (block :: blocks) tempOffset) : tempOffset ≤ block.length := by
  cases h with
  | inl h => omega
  | inr h =>
    have ⟨b, hb, hlt⟩ := h
    cases hb
    exact hlt.le

-- What a turn of the loop that fills a buffer has done. It gets on, and the buffer is not overrun.
structure Copied (maxSize : Nat) (blocks : List (List Byte)) (tempOffset : Nat) (front : List Byte)
    (res : List Byte × Nat × Nat) : Prop where
  bytes    : ∃ bs, res.1 = front ++ bs ∧
    blocks.flatten.drop tempOffset = bs ++ (blocks.drop res.2.1).flatten.drop res.2.2
  le       : res.1.length ≤ maxSize
  inFirst  : InFirst (blocks.drop res.2.1) res.2.2
  finished : res.2.1 ≤ blocks.length
  getsOn   : blocks ≠ [] → 0 < res.2.1 ∨ tempOffset < res.2.2
  full     : blocks.drop res.2.1 ≠ [] → res.1.length = maxSize

theorem copyBlocks_copied {blocks : List (List Byte)} {tempOffset : Nat} {front : List Byte}
    (hmax : blocks.flatten ≠ [] → front.length < maxSize) (hfront : front.length ≤ maxSize)
    (h : InFirst blocks tempOffset) (hempty : blocks = [] → tempOffset = 0) :
    Copied maxSize blocks tempOffset front (copyBlocks maxSize blocks tempOffset front) := by
  induction blocks generalizing tempOffset front with
  | nil =>
    cases hempty rfl
    exact ⟨⟨[], by simp [copyBlocks]⟩, hfront, .zero, le_rfl, fun h => absurd rfl h, fun h => absurd rfl h⟩
  | cons block blocks ih =>
    have hle := h.le
    unfold copyBlocks
    dsimp only
    generalize hn : min (block.length - tempOffset) (maxSize - front.length) = n
    have hcopied : (front ++ (block.drop tempOffset).take n).length = front.length + n := by
      rw [List.length_append, List.length_take, List.length_drop]
      omega
    have hflatten : (block :: blocks).flatten.drop tempOffset =
        block.drop tempOffset ++ blocks.flatten := by
      rw [List.flatten_cons, List.drop_append_of_le_length hle]
    split
    case isTrue hlt =>
      -- the buffer is full
      have hne : (block :: blocks).flatten ≠ [] := by
        rw [List.flatten_cons]
        intro hnil
        have := (List.append_eq_nil_iff.mp hnil).left
        simp [this] at hlt
      have := hmax hne
      refine ⟨⟨_, rfl, ?_⟩, ?_, .inr ⟨block, rfl, ?_⟩, Nat.zero_le _, fun _ => .inr ?_, fun _ => ?_⟩
      · dsimp only
        rw [hflatten, List.drop_zero, List.flatten_cons, List.drop_append_of_le_length (by omega),
          ← List.append_assoc, ← List.drop_drop, List.take_append_drop]
      all_goals
        dsimp only
        omega
    case isFalse hge =>
      have htake : (block.drop tempOffset).take n = block.drop tempOffset :=
        List.take_of_length_le (by rw [List.length_drop]; omega)
      split
      case isTrue hfull =>
        refine ⟨⟨_, rfl, ?_⟩, ?_, .zero, by simp, fun _ => .inl Nat.one_pos, fun _ => ?_⟩
        · rw [hflatten, htake]
          simp
        all_goals
          dsimp only
          omega
      case isFalse hroom =>
        have hih : Copied maxSize blocks 0 (front ++ (block.drop tempOffset).take n) _ :=
          ih (fun _ => by omega) (by omega) .zero fun _ => rfl
        have ⟨bs, hbs, hrest⟩ := hih.bytes
        refine ⟨⟨block.drop tempOffset ++ bs, ?_, ?_⟩, hih.le, ?_, ?_, fun _ => .inl ?_, fun h => ?_⟩
        · rw [hbs, htake, List.append_assoc]
        · rw [hflatten, List.append_assoc, List.drop_succ_cons, ← hrest, List.drop_zero]
        · rw [List.drop_succ_cons]
          exact hih.inFirst
        · rw [List.length_cons]
          exact Nat.succ_le_succ hih.finished
        · exact Nat.succ_pos _
        · rw [List.drop_succ_cons] at h
          exact hih.full h

-- The contents of the buffers that a rank hands over, from a block and an offset in it on.

def fills (maxSize : Nat) : Nat → List (List Byte) → Nat → List (List Byte)
  | 0, _, _                       => []
  | fuel + 1, blocks, tempOffset  =>
    if blocks = [] then
      []
    else
      let (copied, finished, tempOffset) := copyBlocks maxSize blocks tempOffset []
      copied :: fills maxSize fuel (blocks.drop finished) tempOffset

-- Every content takes something from this.
def toCopy (blocks : List (List Byte)) (tempOffset : Nat) : Nat :=
  blocks.flatten.length - tempOffset + blocks.length

-- The blocks can be copied to buffers of this size.
structure Copyable (maxSize : Nat) (blocks : List (List Byte)) (tempOffset : Nat) : Prop where
  inFirst : InFirst blocks tempOffset
  empty   : blocks = [] → tempOffset = 0
  room    : blocks.flatten ≠ [] → 0 < maxSize

namespace Copyable

variable {blocks : List (List Byte)} {tempOffset : Nat}

theorem copied (h : Copyable maxSize blocks tempOffset) :
    Copied maxSize blocks tempOffset [] (copyBlocks maxSize blocks tempOffset []) :=
  copyBlocks_copied h.room (Nat.zero_le _) h.inFirst h.empty

theorem rest (h : Copyable maxSize blocks tempOffset) :
    Copyable maxSize (blocks.drop (copyBlocks maxSize blocks tempOffset []).2.1)
      (copyBlocks maxSize blocks tempOffset []).2.2 where
  inFirst := h.copied.inFirst
  empty   := by
    intro hnil
    cases h.copied.inFirst with
    | inl h => exact h
    | inr h =>
      have ⟨b, hb, _⟩ := h
      rw [hnil] at hb
      cases hb
  room    := by
    intro hne
    refine h.room fun hnil => hne ?_
    rw [List.flatten_eq_nil_iff] at hnil ⊢
    exact fun b hb => hnil b (List.mem_of_mem_drop hb)

theorem toCopy_lt (h : Copyable maxSize blocks tempOffset) (hne : blocks ≠ []) :
    toCopy (blocks.drop (copyBlocks maxSize blocks tempOffset []).2.1)
      (copyBlocks maxSize blocks tempOffset []).2.2 < toCopy blocks tempOffset := by
  have ⟨bs, hbs, hrest⟩ := h.copied.bytes
  have hlen := congrArg List.length hrest
  rw [List.length_drop, List.length_append, List.length_drop] at hlen
  have hpos := List.length_pos_iff.mpr hne
  have hfin := h.copied.finished
  unfold toCopy
  rw [List.length_drop]
  cases h.copied.getsOn hne with
  | inl hk => omega
  | inr hoff =>
    -- the offset is in the block in which the copying has stopped
    cases h.copied.inFirst with
    | inl h0 => omega
    | inr hin =>
      have ⟨b, hb, hlt⟩ := hin
      have hle : b.length ≤
          (blocks.drop (copyBlocks maxSize blocks tempOffset []).2.1).flatten.length := by
        have hmem := List.mem_of_mem_head? hb
        rw [List.length_flatten]
        exact List.single_le_sum (by simp) _ (List.mem_map_of_mem hmem)
      by_cases hzero : (copyBlocks maxSize blocks tempOffset []).2.1 = 0
      · rw [hzero, List.drop_zero] at hle hlen ⊢
        omega
      · omega

theorem fills_eq_of_le {fuel fuel' : Nat} (h : Copyable maxSize blocks tempOffset)
    (hfuel : toCopy blocks tempOffset ≤ fuel) (hfuel' : toCopy blocks tempOffset ≤ fuel') :
    fills maxSize fuel blocks tempOffset = fills maxSize fuel' blocks tempOffset := by
  induction fuel generalizing fuel' blocks tempOffset with
  | zero =>
    have hnil : blocks = [] := by
      by_contra hne
      have := List.length_pos_iff.mpr hne
      unfold toCopy at hfuel
      omega
    cases fuel' <;> simp [fills, hnil]
  | succ fuel ih =>
    by_cases hne : blocks = []
    case pos => cases fuel' <;> simp [fills, hne]
    have hlt := h.toCopy_lt hne
    cases fuel' with
    | zero => omega
    | succ fuel' =>
      rw [fills, fills, if_neg hne, if_neg hne]
      dsimp only
      have hrest := ih h.rest (by omega : _ ≤ fuel) (by omega : _ ≤ fuel')
      rw [hrest]

end Copyable

def fillsFrom (maxSize : Nat) (blocks : List (List Byte)) (tempOffset : Nat) : List (List Byte) :=
  fills maxSize (toCopy blocks tempOffset) blocks tempOffset

@[simp]
theorem fillsFrom_nil (tempOffset : Nat) : fillsFrom maxSize [] tempOffset = [] := by
  unfold fillsFrom
  cases toCopy [] tempOffset <;> simp [fills]

namespace Copyable

variable {blocks : List (List Byte)} {tempOffset : Nat}

theorem fillsFrom_eq (h : Copyable maxSize blocks tempOffset) (hne : blocks ≠ []) :
    fillsFrom maxSize blocks tempOffset =
      (copyBlocks maxSize blocks tempOffset []).1 ::
        fillsFrom maxSize (blocks.drop (copyBlocks maxSize blocks tempOffset []).2.1)
          (copyBlocks maxSize blocks tempOffset []).2.2 := by
  have hlt := h.toCopy_lt hne
  unfold fillsFrom
  cases hfuel : toCopy blocks tempOffset with
  | zero => omega
  | succ fuel =>
    rw [fills, if_neg hne]
    dsimp only
    rw [h.rest.fills_eq_of_le (by omega) le_rfl]

-- By induction on what is to be copied.
theorem fillsFrom_flatten (h : Copyable maxSize blocks tempOffset) :
    (fillsFrom maxSize blocks tempOffset).flatten = blocks.flatten.drop tempOffset := by
  generalize hn : toCopy blocks tempOffset = n
  induction n using Nat.strong_induction_on generalizing blocks tempOffset with
  | _ n ih =>
    by_cases hne : blocks = []
    case pos => simp [hne]
    have ⟨bs, hbs, hrest⟩ := h.copied.bytes
    rw [h.fillsFrom_eq hne, List.flatten_cons, ih _ (hn ▸ h.toCopy_lt hne) h.rest rfl, hrest, hbs,
      List.nil_append]

theorem length_le_of_mem_fillsFrom (h : Copyable maxSize blocks tempOffset) {bs : List Byte}
    (hbs : bs ∈ fillsFrom maxSize blocks tempOffset) : bs.length ≤ maxSize := by
  generalize hn : toCopy blocks tempOffset = n at *
  induction n using Nat.strong_induction_on generalizing blocks tempOffset with
  | _ n ih =>
    by_cases hne : blocks = []
    case pos => simp [hne] at hbs
    rw [h.fillsFrom_eq hne] at hbs
    cases hbs with
    | head => exact h.copied.le
    | tail _ hbs => exact ih _ (hn ▸ h.toCopy_lt hne) h.rest hbs rfl

theorem length_fills_le (fuel : Nat) (blocks : List (List Byte)) (tempOffset : Nat) :
    (fills maxSize fuel blocks tempOffset).length ≤ fuel := by
  induction fuel generalizing blocks tempOffset with
  | zero => exact le_rfl
  | succ fuel ih =>
    rw [fills]
    split
    · exact Nat.zero_le _
    · exact Nat.succ_le_succ (ih _ _)

-- Blocks without bytes go in one content together, or each in its own if a buffer has no size.
theorem length_fillsFrom_le (h : Copyable maxSize blocks 0) (hnil : blocks.flatten = []) :
    (fillsFrom maxSize blocks 0).length ≤
      if maxSize = 0 then blocks.length else min 1 blocks.length := by
  by_cases hne : blocks = []
  case pos => simp [hne]
  split
  case isTrue =>
    refine (length_fills_le _ _ _).trans ?_
    simp [toCopy, hnil]
  case isFalse hmax =>
    have hpos := List.length_pos_iff.mpr hne
    have hrest : blocks.drop (copyBlocks maxSize blocks 0 []).2.1 = [] := by
      by_contra hrest
      have ⟨bs, hbs, heq⟩ := h.copied.bytes
      rw [hnil, List.drop_nil] at heq
      have hlen := h.copied.full hrest
      rw [hbs, List.nil_append, (List.append_eq_nil_iff.mp heq.symm).left] at hlen
      exact hmax hlen.symm
    rw [h.fillsFrom_eq hne, hrest, fillsFrom_nil, List.length_singleton]
    omega

theorem takeWhile_reverse_cons {bs : List Byte} (hne : bs ≠ []) (l : List (List Byte)) :
    (bs :: l).reverse.takeWhile List.isEmpty = l.reverse.takeWhile List.isEmpty := by
  rw [List.reverse_cons, List.takeWhile_append]
  split
  case isTrue h =>
    rw [List.takeWhile_cons_of_neg (by simpa using hne), List.append_nil]
    exact ((List.takeWhile_prefix _).eq_of_length h).symm
  case isFalse => rfl

-- Behind bytes only one content can be empty: that of blocks without bytes behind a full buffer. By
-- induction on what is to be copied.
theorem length_takeWhile_isEmpty_le (h : Copyable maxSize blocks tempOffset)
    (hne : blocks.flatten.drop tempOffset ≠ []) :
    ((fillsFrom maxSize blocks tempOffset).reverse.takeWhile List.isEmpty).length ≤
      if blocks.getLast? = some [] ∧ (blocks.flatten.length - tempOffset) % maxSize = 0 then 1
      else 0 := by
  generalize hn : toCopy blocks tempOffset = n
  induction n using Nat.strong_induction_on generalizing blocks tempOffset with
  | _ n ih =>
    have hblocks : blocks ≠ [] := by
      rintro rfl
      simp at hne
    have hmax : 0 < maxSize := h.room fun hnil => hne (by simp [hnil])
    have ⟨bs, hbs, hrest⟩ := h.copied.bytes
    have hlen := congrArg List.length hrest
    rw [List.length_drop, List.length_append, List.length_drop] at hlen
    have hfull := h.copied.full
    have hrest' := h.rest
    have hih := fun hne => ih _ (hn ▸ h.toCopy_lt hblocks) hrest' hne rfl
    have hlast (hdrop : blocks.drop (copyBlocks maxSize blocks tempOffset []).2.1 ≠ []) :
        (blocks.drop (copyBlocks maxSize blocks tempOffset []).2.1).getLast? = blocks.getLast? := by
      rw [List.getLast?_drop, if_neg (by simpa using hdrop)]
    rw [h.fillsFrom_eq hblocks]
    rw [List.nil_append] at hbs
    rw [← hbs] at hlen hrest
    clear hbs
    generalize (copyBlocks maxSize blocks tempOffset []).1 = copied at *
    generalize (copyBlocks maxSize blocks tempOffset []).2.2 = off at *
    generalize blocks.drop (copyBlocks maxSize blocks tempOffset []).2.1 = rest at *
    by_cases hdrop : rest = []
    case pos =>
      rw [hdrop, fillsFrom_nil, List.reverse_singleton, List.takeWhile_cons_of_neg]
      · exact Nat.zero_le _
      · rw [hdrop] at hrest
        rw [hrest] at hne
        simpa using hne
    case neg =>
      have hcopied := hfull hdrop
      have hcopied' : copied ≠ [] := List.ne_nil_of_length_pos (by omega)
      rw [takeWhile_reverse_cons hcopied', ← hlast hdrop]
      have hmod : (blocks.flatten.length - tempOffset) % maxSize =
          (rest.flatten.length - off) % maxSize := by
        rw [hlen, hcopied, Nat.add_mod_left]
      rw [hmod]
      by_cases hbytes : rest.flatten.drop off = []
      case neg => exact hih hbytes
      case pos =>
        have hoff : off = 0 := by
          rcases hrest'.inFirst with hzero | ⟨block, hblock, hlt⟩
          · exact hzero
          · have hle : block.length ≤ rest.flatten.length := by
              rw [List.length_flatten]
              exact List.single_le_sum (by simp) _ (List.mem_map_of_mem (List.mem_of_mem_head? hblock))
            have := List.drop_eq_nil_iff.mp hbytes
            omega
        subst hoff
        rw [List.drop_zero] at hbytes
        have hle := hrest'.length_fillsFrom_le hbytes
        rw [if_neg hmax.ne'] at hle
        have hnil : rest.getLast? = some [] := by
          rw [List.getLast?_eq_some_getLast hdrop]
          rw [List.flatten_eq_nil_iff] at hbytes
          exact congrArg some (hbytes _ (List.getLast_mem hdrop))
        rw [if_pos ⟨hnil, by simp [hbytes]⟩]
        have htake := (List.takeWhile_prefix (l := (fillsFrom maxSize rest 0).reverse)
          List.isEmpty).length_le
        rw [List.length_reverse] at htake
        omega

end Copyable

end BP5
