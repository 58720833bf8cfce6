import Adios2.Lib.BitMask
import Adios2.Lib.FirstOccurrence
import Adios2.Lib.Lists
import Adios2.Format.BP5.Theorems.ContributionCodec

-- What rank 0 decides about the blocks of the ranks when they tell it with contributions of any size.

namespace BP5

open Bytes BitMask FirstOccurrence

section Contents

-- What a block brings: a block without a body brings nothing.
def content (b : Digest × Nat) : Option Digest :=
  if b.2 = 0 then none else some b.1

-- The contents of the blocks of some ranks. Nothing is among them from the start.
def contents (rs : List NodeRecord) : List (Option Digest) :=
  none :: rs.flatMap fun r => r.mmBlocks.map content

theorem mem_contents {k : Option Digest} {rs : List NodeRecord} :
    k ∈ contents rs ↔ k = none ∨ ∃ r ∈ rs, k ∈ r.mmBlocks.map content := by
  simp [contents]

-- Among the blocks of a rank behind others, those that are the first with their content.
def nodeFlags (before : List NodeRecord) (r : NodeRecord) : List Bool :=
  flags content (contents before) r.mmBlocks

def nodeFirsts (before : List NodeRecord) (r : NodeRecord) : List (Digest × Nat) :=
  firsts content (contents before) r.mmBlocks

def FirstAttribute (before : List NodeRecord) (r : NodeRecord) : Prop :=
  r.attrSize ≠ 0 ∧ ∀ r' ∈ before, r'.attrSize ≠ 0 → r'.attrHash ≠ r.attrHash

instance (before : List NodeRecord) (r : NodeRecord) : Decidable (FirstAttribute before r) :=
  inferInstanceAs (Decidable (_ ∧ ∀ _ ∈ _, _ → _))

def nodeMask (before : List NodeRecord) (r : NodeRecord) : Nat :=
  (if FirstAttribute before r then MInfo.attrBit else 0) ||| ofFlags (nodeFlags before r)

theorem nodeFlags_length (before : List NodeRecord) (r : NodeRecord) :
    (nodeFlags before r).length = r.mmBlocks.length :=
  flags_length

theorem getElem?_nodeFlags {before : List NodeRecord} {r : NodeRecord} {b : Nat} :
    (nodeFlags before r)[b]? = some true ↔ ∃ mmb, r.mmBlocks[b]? = some mmb ∧
      content mmb ∉ contents before ∧ content mmb ∉ (r.mmBlocks.take b).map content :=
  getElem?_flags

-- All firsts are at positions that have a bit.
def FlagsBelow (n : Nat) (fs : List Bool) : Prop :=
  ∀ b : Nat, fs[b]? = some true → b < n

end Contents

section Knows

-- The sets that rank 0 has when it has gone through some ranks.
structure MInfo.Knows (before : List NodeRecord) (info : MInfo) : Prop where
  mmbSet  : ∀ d, d ∈ info.mmbSet ↔ some d ∈ contents before
  attrSet : ∀ h, h ∈ info.attrSet ↔ ∃ r ∈ before, r.attrSize ≠ 0 ∧ r.attrHash = h

variable {before : List NodeRecord} {info info' : MInfo} {r : NodeRecord}

theorem MInfo.Knows.mem_iff (h : info.Knows before) (mmb : Digest × Nat) :
    (mmb.2 ≠ 0 ∧ mmb.1 ∉ info.mmbSet) ↔ content mmb ∉ contents before := by
  rw [content, h.mmbSet]
  split
  case isTrue hzero => simp [hzero, contents]
  case isFalse hne => simp [hne]

theorem MInfo.Knows.needAttr (h : info.Knows before) :
    (r.attrSize ≠ 0 ∧ r.attrHash ∉ info.attrSet) ↔ FirstAttribute before r := by
  rw [FirstAttribute, h.attrSet]
  simp only [not_exists, not_and]

-- Going through one rank adds what is new in it.
structure MInfo.Adds (before : List NodeRecord) (r : NodeRecord) (info info' : MInfo) : Prop where
  mmbSizes            : info'.mmbSizes =
    info.mmbSizes ++ (nodeFirsts before r).map fun b => alignedSize b.2 % 2 ^ 64
  mmbIDs              : info'.mmbIDs = info.mmbIDs ++ (nodeFirsts before r).map (·.1)
  bcastInfo           : info'.bcastInfo = info.bcastInfo ++ [nodeMask before r]
  attrSizes           : info'.attrSizes = info.attrSizes ++ [r.attrSize]
  metaEncodeSize      : info'.metaEncodeSize = info.metaEncodeSize ++ [r.metaEncodeSize]
  writerDataPositions :
    info'.writerDataPositions = info.writerDataPositions ++ [r.writerDataPosition]
  knows               : info'.Knows (before ++ [r])

-- The same for the loop over the blocks, where `done` are those it has gone through, and `size`
-- what is recorded as the size of a block.
structure BlockLoop.Adds (size : Nat → Nat) (seen : List (Option Digest)) (n : Nat)
    (mmbs : List (Digest × Nat)) (l l' : BlockLoop) : Prop where
  mmbSizes  : l'.info.mmbSizes =
    l.info.mmbSizes ++ (firsts content seen mmbs).map fun b => size b.2
  mmbIDs    : l'.info.mmbIDs = l.info.mmbIDs ++ (firsts content seen mmbs).map (·.1)
  mmbSet    : ∀ d, d ∈ l'.info.mmbSet ↔ d ∈ l.info.mmbSet ∨ some d ∈ mmbs.map content
  mmsNeeded : l'.mmsNeeded = l.mmsNeeded + 2 ^ n * ofFlags (flags content seen mmbs)
  others    : ({ l'.info with mmbSet := [], mmbSizes := [], mmbIDs := [] } : MInfo) =
    { l.info with mmbSet := [], mmbSizes := [], mmbIDs := [] }

def BlockLoop.Sees (seen : List (Option Digest)) (l : BlockLoop) : Prop :=
  none ∈ seen ∧ ∀ d, d ∈ l.info.mmbSet ↔ some d ∈ seen

theorem BlockLoop.Sees.mem_iff {seen : List (Option Digest)} {l : BlockLoop} (h : l.Sees seen)
    (mmb : Digest × Nat) : (mmb.2 ≠ 0 ∧ mmb.1 ∉ l.info.mmbSet) ↔ content mmb ∉ seen := by
  rw [content, h.right]
  split
  case isTrue hzero => simp [hzero, h.left]
  case isFalse hne => simp [hne]

-- What one block that is the first with its content adds.
def BlockLoop.add (size : Nat → Nat) (l : BlockLoop) (n : Nat) (mmb : Digest × Nat) : BlockLoop where
  info           := { l.info with
    mmbSet   := mmb.1 :: l.info.mmbSet
    mmbSizes := l.info.mmbSizes ++ [size mmb.2]
    mmbIDs   := l.info.mmbIDs ++ [mmb.1]
  }
  mmsNeeded      := l.mmsNeeded + 2 ^ n
  secondRecvSize := l.secondRecvSize + size mmb.2

variable {size : Nat → Nat} {seen : List (Option Digest)} {l l' : BlockLoop} {n : Nat}
  {mmb : Digest × Nat} {mmbs : List (Digest × Nat)}

theorem BlockLoop.Adds.nil : BlockLoop.Adds size seen n [] l l where
  mmbSizes  := by simp [firsts]
  mmbIDs    := by simp [firsts]
  mmbSet    := by simp
  mmsNeeded := by simp [flags, ofFlags]
  others    := rfl

theorem content_of_first (h : content mmb ∉ seen) (hnone : none ∈ seen) : content mmb = some mmb.1 := by
  rw [content] at h ⊢
  split
  case isTrue hzero => exact absurd hnone (by simpa [hzero] using h)
  case isFalse => rfl

-- A block with a content that has been there before is passed over.
theorem BlockLoop.Adds.skip (hsees : l.Sees seen) (hseen : content mmb ∈ seen)
    (h : BlockLoop.Adds size seen (n + 1) mmbs l l') :
    BlockLoop.Adds size seen n (mmb :: mmbs) l l' where
  mmbSizes  := by rw [firsts, if_pos hseen, h.mmbSizes]
  mmbIDs    := by rw [firsts, if_pos hseen, h.mmbIDs]
  mmbSet    := fun d => by
    rw [h.mmbSet, hsees.right, List.map_cons, List.mem_cons]
    have hd : some d = content mmb → some d ∈ seen := fun heq => heq ▸ hseen
    tauto
  mmsNeeded := by
    rw [h.mmsNeeded, flags, if_pos hseen, ofFlags, pow_succ, Bool.toNat_false, Nat.zero_add,
      Nat.mul_assoc]
  others    := h.others

theorem BlockLoop.Adds.take (hsees : l.Sees seen) (hseen : content mmb ∉ seen)
    (h : BlockLoop.Adds size (content mmb :: seen) (n + 1) mmbs (l.add size n mmb) l') :
    BlockLoop.Adds size seen n (mmb :: mmbs) l l' where
  mmbSizes  := by
    rw [firsts, if_neg hseen, h.mmbSizes, List.map_cons]
    simp [add]
  mmbIDs    := by
    rw [firsts, if_neg hseen, h.mmbIDs, List.map_cons]
    simp [add]
  mmbSet    := fun d => by
    rw [h.mmbSet, List.map_cons, List.mem_cons, content_of_first hseen hsees.left]
    simp only [add, List.mem_cons, Option.some.injEq]
    tauto
  mmsNeeded := by
    rw [h.mmsNeeded, flags, if_neg hseen, ofFlags, pow_succ, Bool.toNat_true, add]
    ring
  others    := h.others

theorem BlockLoop.Sees.add (hsees : l.Sees seen) (size : Nat → Nat) (n : Nat)
    (hseen : content mmb ∉ seen) :
    (l.add size n mmb).Sees (content mmb :: seen) := by
  refine ⟨List.mem_cons_of_mem _ hsees.left, fun d => ?_⟩
  rw [content_of_first hseen hsees.left]
  simp only [BlockLoop.add, List.mem_cons, Option.some.injEq, hsees.right]

end Knows

section Blocks

variable {seen : List (Option Digest)} {l l' : BlockLoop} {n : Nat} {mmb : Digest × Nat}
  {mmbs : List (Digest × Nat)}

theorem dynamicBlock_skip (hsees : l.Sees seen) (hseen : content mmb ∈ seen) :
    l.dynamicBlock n mmb = .ok l := by
  rw [BlockLoop.dynamicBlock, if_neg (mt (hsees.mem_iff mmb).mp (not_not.mpr hseen))]

theorem dynamicBlock_take (hsees : l.Sees seen) (hseen : content mmb ∉ seen) :
    l.dynamicBlock n mmb = if n < 64 then .ok (l.add (alignedSize · % 2 ^ 64) n mmb)
      else .error .undefined := by
  rw [BlockLoop.dynamicBlock, if_pos ((hsees.mem_iff mmb).mpr hseen)]
  rfl

-- The loop over the blocks ends if no first occurrence is at a position without a bit.
variable (n mmbs) in
theorem dynamicBlocks_ok (hsees : l.Sees seen) :
    (∃ l', BlockLoop.dynamicBlocks n mmbs l = .ok l') ↔
      ∀ b : Nat, (flags content seen mmbs)[b]? = some true → n + b < 64 := by
  induction mmbs generalizing n l seen with
  | nil => simp [BlockLoop.dynamicBlocks, flags]
  | cons mmb mmbs ih =>
    rw [BlockLoop.dynamicBlocks]
    by_cases hseen : content mmb ∈ seen
    case pos =>
      rw [dynamicBlock_skip hsees hseen, Outcome.ok_bind, ih _ hsees, flags, if_pos hseen]
      constructor
      · rintro h (_ | b) hb
        · simp at hb
        · have := h b hb
          omega
      · intro h b hb
        have := h (b + 1) hb
        omega
    case neg =>
      rw [dynamicBlock_take hsees hseen, flags, if_neg hseen]
      split
      case isTrue hn =>
        rw [Outcome.ok_bind, ih _ (hsees.add _ _ hseen)]
        constructor
        · rintro h (_ | b) hb
          · exact hn
          · have := h b hb
            omega
        · intro h b hb
          have := h (b + 1) hb
          omega
      case isFalse hn =>
        simp only [Outcome.error_bind, reduceCtorEq, exists_false, false_iff]
        exact fun h => hn (h 0 rfl)

theorem dynamicBlocks_adds (hsees : l.Sees seen) (h : BlockLoop.dynamicBlocks n mmbs l = .ok l') :
    BlockLoop.Adds (alignedSize · % 2 ^ 64) seen n mmbs l l' := by
  induction mmbs generalizing n l seen with
  | nil =>
    cases h
    exact .nil
  | cons mmb mmbs ih =>
    obtain ⟨next, hnext, h⟩ := Outcome.bind_eq_ok.mp h
    by_cases hseen : content mmb ∈ seen
    case pos =>
      rw [dynamicBlock_skip hsees hseen] at hnext
      cases hnext
      exact (ih hsees h).skip hsees hseen
    case neg =>
      rw [dynamicBlock_take hsees hseen] at hnext
      split at hnext
      case isTrue =>
        cases hnext
        exact (ih (hsees.add _ _ hseen) h).take hsees hseen
      case isFalse => cases hnext

end Blocks

section Nodes

variable {before : List NodeRecord} {info info' : MInfo} {r : NodeRecord}

-- The sets are known with the next rank when both loops have added to them.
theorem MInfo.Knows.append (h : info.Knows before)
    (hmmb : ∀ d, d ∈ info'.mmbSet ↔ d ∈ info.mmbSet ∨ some d ∈ r.mmBlocks.map content)
    (hattr : ∀ k, k ∈ info'.attrSet ↔
      k ∈ info.attrSet ∨ (FirstAttribute before r ∧ k = r.attrHash)) :
    info'.Knows (before ++ [r]) where
  mmbSet  := fun d => by
    rw [hmmb, h.mmbSet, mem_contents, mem_contents]
    simp only [reduceCtorEq, false_or, List.mem_append, List.mem_singleton, or_and_right,
      exists_or, exists_eq_left]
  attrSet := fun k => by
    rw [hattr, h.attrSet]
    simp only [List.mem_append, List.mem_singleton, or_and_right, exists_or, exists_eq_left]
    refine or_congr_right' fun hk => ⟨fun ⟨hfirst, heq⟩ => ⟨hfirst.left, heq.symm⟩, fun ⟨hne, heq⟩ => ?_⟩
    exact ⟨⟨hne, fun r' hr' hne' heq' => hk ⟨r', hr', hne', heq'.trans heq⟩⟩, heq.symm⟩

theorem dynamicNode_ok (hknows : info.Knows before) :
    (∃ info', info.dynamicNode r = .ok info') ↔ FlagsBelow 64 (nodeFlags before r) := by
  have hsees : ∀ {i : MInfo} {s : Nat}, i.mmbSet = info.mmbSet →
      (BlockLoop.mk i 0 s).Sees (contents before) := fun heq =>
    ⟨List.mem_cons_self, fun d => heq ▸ hknows.mmbSet d⟩
  have hblocks := dynamicBlocks_ok 0 r.mmBlocks (hsees (i := { info with
      attrSizes := info.attrSizes ++ [r.attrSize]
      attrSet   := if decide (r.attrSize ≠ 0 ∧ r.attrHash ∉ info.attrSet) then
        r.attrHash :: info.attrSet else info.attrSet })
    (s := if decide (r.attrSize ≠ 0 ∧ r.attrHash ∉ info.attrSet) then
      alignedSize r.attrSize % 2 ^ 64 else 0) rfl)
  simp only [Nat.zero_add] at hblocks
  rw [FlagsBelow, nodeFlags, ← hblocks, MInfo.dynamicNode]
  constructor
  · rintro ⟨info', h⟩
    obtain ⟨l, hl, _⟩ := Outcome.bind_eq_ok.mp h
    exact ⟨l, hl⟩
  · rintro ⟨l, hl⟩
    exact ⟨_, by dsimp only; rw [hl]; rfl⟩

theorem dynamicNode_adds (hknows : info.Knows before) (h : info.dynamicNode r = .ok info') :
    info.Adds before r info' := by
  obtain ⟨l, hl, h⟩ := Outcome.bind_eq_ok.mp h
  cases h
  have hneed := hknows.needAttr (r := r)
  have hadds : BlockLoop.Adds (alignedSize · % 2 ^ 64) (contents before) _ _ _ _ := dynamicBlocks_adds
    ⟨List.mem_cons_self, hknows.mmbSet⟩ hl
  have hothers := hadds.others
  simp only [MInfo.mk.injEq] at hothers
  have ⟨hattrSet, _, _, hbcast, hpositions, hmeta, hattrSizes, _, _⟩ := hothers
  have hmask := hadds.mmsNeeded
  rw [Nat.zero_add, pow_zero, Nat.one_mul] at hmask
  refine ⟨hadds.mmbSizes, hadds.mmbIDs, ?_, hattrSizes, rfl, rfl, hknows.append hadds.mmbSet ?_⟩
  · simp only [nodeMask, nodeFlags, hmask, hneed, decide_eq_true_eq]
  · intro k
    simp only [hattrSet, hneed, decide_eq_true_eq]
    split
    case isTrue hfirst => simp [hfirst, or_comm]
    case isFalse hfirst => simp [hfirst]

end Nodes

section Run

-- The masks of ranks behind others, and the blocks that they ask for.
def masks : List NodeRecord → List NodeRecord → List Nat
  | _, []           => []
  | before, r :: rs => nodeMask before r :: masks (before ++ [r]) rs

def newBlocks : List NodeRecord → List NodeRecord → List (Digest × Nat)
  | _, []           => []
  | before, r :: rs => nodeFirsts before r ++ newBlocks (before ++ [r]) rs

-- Every rank has its first occurrences at positions below this one.
def AllBelow (n : Nat) : List NodeRecord → List NodeRecord → Prop
  | _, []           => True
  | before, r :: rs => FlagsBelow n (nodeFlags before r) ∧ AllBelow n (before ++ [r]) rs

structure MInfo.AddsAll (before rs : List NodeRecord) (info info' : MInfo) : Prop where
  mmbSizes            : info'.mmbSizes =
    info.mmbSizes ++ (newBlocks before rs).map fun b => alignedSize b.2 % 2 ^ 64
  mmbIDs              : info'.mmbIDs = info.mmbIDs ++ (newBlocks before rs).map (·.1)
  bcastInfo           : info'.bcastInfo = info.bcastInfo ++ masks before rs
  attrSizes           : info'.attrSizes = info.attrSizes ++ rs.map (·.attrSize)
  metaEncodeSize      : info'.metaEncodeSize = info.metaEncodeSize ++ rs.map (·.metaEncodeSize)
  writerDataPositions :
    info'.writerDataPositions = info.writerDataPositions ++ rs.map (·.writerDataPosition)
  knows               : info'.Knows (before ++ rs)

variable {before rs : List NodeRecord} {info info' : MInfo} {r : NodeRecord}

theorem MInfo.AddsAll.nil (h : info.Knows before) : info.AddsAll before [] info where
  mmbSizes            := by simp [newBlocks]
  mmbIDs              := by simp [newBlocks]
  bcastInfo           := by simp [masks]
  attrSizes           := by simp
  metaEncodeSize      := by simp
  writerDataPositions := by simp
  knows               := by simpa using h

theorem MInfo.Adds.cons {next : MInfo} (h : info.Adds before r next)
    (h' : next.AddsAll (before ++ [r]) rs info') : info.AddsAll before (r :: rs) info' where
  mmbSizes            := by rw [h'.mmbSizes, h.mmbSizes, newBlocks]; simp
  mmbIDs              := by rw [h'.mmbIDs, h.mmbIDs, newBlocks]; simp
  bcastInfo           := by rw [h'.bcastInfo, h.bcastInfo, masks]; simp
  attrSizes           := by rw [h'.attrSizes, h.attrSizes]; simp
  metaEncodeSize      := by rw [h'.metaEncodeSize, h.metaEncodeSize]; simp
  writerDataPositions := by rw [h'.writerDataPositions, h.writerDataPositions]; simp
  knows               := by simpa using h'.knows

variable {host : Endian} {buf : List Byte} {cs : List Contribution} {b b' : Breakdown}

def seenRecords (host : Endian) (cs : List Contribution) : List NodeRecord :=
  cs.map fun c => c.record.seen host

def CountsKept (host : Endian) (cs : List Contribution) : Prop :=
  ∀ c ∈ cs, seenNumber host c.mmBlocks.length = c.mmBlocks.length

-- The check behind every node finds out a number of blocks that is not read as it is.
theorem breakdownNodes_spec (hfits : ∀ c ∈ cs, c.Fits)
    (hwithin : Within buf b.pos (cs.flatMap (encodeNode host))) (hknows : b.info.Knows before) :
    ((∃ b', breakdownNodes host buf (cs.map fun c => (encodeNode host c).length) b.pos b = .ok b') ↔
      CountsKept host cs ∧ AllBelow 64 before (seenRecords host cs)) ∧
    ∀ b', breakdownNodes host buf (cs.map fun c => (encodeNode host c).length) b.pos b = .ok b' →
      b'.records = b.records ++ seenRecords host cs ∧
        b'.pos = b.pos + (cs.flatMap (encodeNode host)).length ∧
          b.info.AddsAll before (seenRecords host cs) b'.info := by
  induction cs generalizing b before with
  | nil =>
    refine ⟨by simp [breakdownNodes, CountsKept, seenRecords, AllBelow], fun b' h => ?_⟩
    cases h
    simpa [seenRecords] using MInfo.AddsAll.nil hknows
  | cons c cs ih =>
    have hc := hfits c List.mem_cons_self
    have hcs := fun c' hc' => hfits c' (List.mem_cons_of_mem _ hc')
    rw [List.flatMap_cons] at hwithin
    have ⟨hnode, hrest⟩ := hwithin.append
    have hkept : CountsKept host (c :: cs) ↔
        seenNumber host c.mmBlocks.length = c.mmBlocks.length ∧ CountsKept host cs :=
      List.forall_mem_cons
    have hseen : seenRecords host (c :: cs) = c.record.seen host :: seenRecords host cs := rfl
    rw [hkept, hseen, AllBelow, List.map_cons]
    by_cases hcount : seenNumber host c.mmBlocks.length = c.mmBlocks.length
    case pos =>
      have hrun : (readNode host buf).run b.pos = _ := reads_readNode hc hcount b.pos hnode
      rw [breakdownNodes, hrun, Option.orUndefined_some, Outcome.ok_bind]
      simp only [ne_eq, not_true_eq_false, if_false]
      have hok := dynamicNode_ok (r := c.record.seen host) hknows
      have hnext : ∀ info, b.info.dynamicNode (c.record.seen host) = .ok info → _ :=
        fun info hinfo => @ih (before ++ [c.record.seen host]) {
          records := b.records ++ [c.record.seen host]
          info    := info
          pos     := b.pos + (encodeNode host c).length
        } hcs hrest (dynamicNode_adds hknows hinfo).knows
      constructor
      · constructor
        · rintro ⟨b', h⟩
          obtain ⟨info, hinfo, h⟩ := Outcome.bind_eq_ok.mp h
          have ⟨hkept, hbelow⟩ := (hnext info hinfo).left.mp ⟨b', h⟩
          exact ⟨⟨hcount, hkept⟩, hok.mp ⟨info, hinfo⟩, hbelow⟩
        · rintro ⟨⟨_, hkept⟩, hflags, hbelow⟩
          obtain ⟨info, hinfo⟩ := hok.mpr hflags
          rw [hinfo, Outcome.ok_bind]
          exact (hnext info hinfo).left.mpr ⟨hkept, hbelow⟩
      · intro b' h
        obtain ⟨info, hinfo, h⟩ := Outcome.bind_eq_ok.mp h
        have ⟨hrecords, hpos, hall⟩ := (hnext info hinfo).right b' h
        refine ⟨by rw [hrecords]; simp, ?_, (dynamicNode_adds hknows hinfo).cons hall⟩
        rw [hpos, List.flatMap_cons, List.length_append, Nat.add_assoc]
    case neg =>
      have hfails : ∀ b', breakdownNodes host buf ((encodeNode host c).length ::
          cs.map fun c => (encodeNode host c).length) b.pos b ≠ .ok b' := by
        intro b' h
        rw [breakdownNodes] at h
        obtain ⟨⟨record, pos⟩, hread, h⟩ := Outcome.bind_eq_ok.mp h
        obtain ⟨info, _, h⟩ := Outcome.bind_eq_ok.mp h
        have ⟨hlen, hpos⟩ := readNode_count hnode (Option.orUndefined_eq_ok.mp hread)
        have hne : pos ≠ b.pos + (encodeNode host c).length := by
          rw [encodeNode_length hc]
          omega
        rw [if_pos hne] at h
        cases h
      exact ⟨⟨fun ⟨b', h⟩ => absurd h (hfails b'), fun h => absurd h.left.left hcount⟩,
        fun b' h => absurd h (hfails b')⟩

end Run

end BP5
