import Adios2.Format.BP5.Theorems.DynamicContribution

-- The vectors of sizes and IDs of `BP5AggregateInformation`, which the pass over the contributions of
-- fixed size leaves behind when it gives up.

namespace BP5

open Bytes BitMask FirstOccurrence

section Fixed

variable {before : List NodeRecord} {info info' : MInfo} {c : Contribution} {nc : NodeContrib}

theorem copyID_take {bs : List MetaMetaInfoBlock} {ids : List Digest} (h : bs.mapM copyID = .ok ids) :
    (∀ b ∈ bs, b.metaMetaID.length ≤ digestSize) ∧ ids = bs.map (toDigest ·.metaMetaID) := by
  replace h := Outcome.mapM_eq_ok_iff.mp h
  induction h with
  | nil => simp
  | cons hb _ ih =>
    have ⟨hle, heq⟩ := copyID_eq_ok.mp hb
    exact ⟨List.forall_mem_cons.mpr ⟨hle, ih.left⟩, by rw [List.map_cons, heq, ih.right]⟩

-- What a rank with blocks for the slots sends.
theorem buildFixedContrib_ok (h : buildFixedContrib c = .ok nc) : nc.attrHash = c.attrHash ∧
    nc.attrSize = c.attrSize ∧ nc.mmbCount = c.mmBlocks.length ∧
      nc.metaEncodeSize = c.metaEncodeSize ∧ nc.writerDataPosition = c.writerDataPosition := by
  obtain ⟨ids, _, h⟩ := Outcome.bind_eq_ok.mp h
  cases h
  exact ⟨rfl, rfl, rfl, rfl, rfl⟩

theorem fits_of_buildFixedContrib (h : buildFixedContrib c = .ok nc)
    (hle : c.mmBlocks.length ≤ fixedMMBSlotCount) : c.Fits := by
  obtain ⟨ids, hids, _⟩ := Outcome.bind_eq_ok.mp h
  rw [List.take_of_length_le hle] at hids
  exact (copyID_take hids).left

theorem getElem?_fixed (h : buildFixedContrib c = .ok nc) (hle : c.mmBlocks.length ≤ fixedMMBSlotCount)
    {i : Nat} {mmb : Digest × Nat} (hmmb : c.record.mmBlocks[i]? = some mmb) :
    nc.mmbArray[i]? = some mmb.1 ∧ nc.mmbSizeArray[i]? = some mmb.2 := by
  obtain ⟨ids, hids, h⟩ := Outcome.bind_eq_ok.mp h
  rw [List.take_of_length_le hle] at hids
  have ⟨_, hids⟩ := copyID_take hids
  cases h
  have ⟨block, hblock, hmmb⟩ : ∃ block, c.mmBlocks[i]? = some block ∧
      (toDigest block.metaMetaID, alignedSize block.metaMetaInfo.length) = mmb := by
    simpa [Contribution.record] using hmmb
  have hi : i < c.mmBlocks.length := (List.getElem?_eq_some_iff.mp hblock).1
  have hslot : i < fixedMMBSlotCount := by omega
  subst hmmb
  constructor
  · rw [List.getElem?_append_left (by rw [hids, List.length_map]; exact hi), hids, List.getElem?_map,
      hblock]
    rfl
  · simp [List.getElem?_range hslot, hblock]

-- The loop over the slots does what that over the blocks does.
variable (nc) in
theorem fixedBlocks_adds (seen : List (Option Digest)) (l : BlockLoop) (n : Nat)
    (mmbs : List (Digest × Nat)) (hsees : l.Sees seen)
    (hslots : ∀ i mmb, mmbs[i]? = some mmb →
      nc.mmbArray[n + i]? = some mmb.1 ∧ nc.mmbSizeArray[n + i]? = some mmb.2) :
    ∃ l', BlockLoop.blocks nc mmbs.length n l = some l' ∧
      BlockLoop.Adds alignedSize seen n mmbs l l' := by
  induction mmbs generalizing n l seen with
  | nil => exact ⟨l, rfl, .nil⟩
  | cons mmb mmbs ih =>
    have ⟨hid, hsize⟩ := hslots 0 mmb rfl
    have hslots' : ∀ i mmb, mmbs[i]? = some mmb →
        nc.mmbArray[n + 1 + i]? = some mmb.1 ∧ nc.mmbSizeArray[n + 1 + i]? = some mmb.2 :=
      fun i mmb' h => by simpa [Nat.add_right_comm, Nat.add_assoc] using hslots (i + 1) mmb' h
    simp only [Nat.add_zero] at hid hsize
    rw [List.length_cons, BlockLoop.blocks, hid, hsize, Option.bind_eq_bind, Option.bind_some,
      Option.bind_eq_bind, Option.bind_some, BlockLoop.block]
    by_cases hseen : content mmb ∈ seen
    case pos =>
      rw [if_neg (mt (hsees.mem_iff mmb).mp (not_not.mpr hseen))]
      have ⟨l', hl', hadds⟩ := ih _ _ _ hsees hslots'
      exact ⟨l', hl', hadds.skip hsees hseen⟩
    case neg =>
      rw [if_pos ((hsees.mem_iff mmb).mpr hseen)]
      have ⟨l', hl', hadds⟩ := ih _ _ _ (hsees.add alignedSize n hseen) hslots'
      exact ⟨l', hl', hadds.take hsees hseen⟩

theorem record_size {b : Digest × Nat} (h : b ∈ c.record.mmBlocks) :
    alignedSize b.2 = b.2 ∧ b.2 < 2 ^ 64 := by
  obtain ⟨block, hblock, rfl⟩ := List.mem_map.mp h
  have hlt := c.info_lt block hblock
  refine ⟨alignedSize_alignedSize _, ?_⟩
  simp only [alignedSize]
  omega

theorem record_aligned {b : Digest × Nat} (h : b ∈ c.record.mmBlocks) :
    alignedSize b.2 % 2 ^ 64 = b.2 := by
  have ⟨heq, hlt⟩ := record_size h
  rw [heq, Nat.mod_eq_of_lt hlt]

theorem fixedNode_adds (hknows : info.Knows before) (h : buildFixedContrib c = .ok nc)
    (hle : c.mmBlocks.length ≤ fixedMMBSlotCount) :
    ∃ info', info.node nc = some info' ∧ info.Adds before c.record info' := by
  obtain ⟨hhash, hattr, hcount, hmeta, hposition⟩ := buildFixedContrib_ok h
  have hlength : nc.mmbCount = c.record.mmBlocks.length := by
    rw [hcount, Contribution.record, List.length_map]
  have hneed : (nc.attrSize ≠ 0 ∧ nc.attrHash ∉ info.attrSet) ↔ FirstAttribute before c.record := by
    rw [hhash, hattr]
    exact hknows.needAttr (r := c.record)
  let l₀ : BlockLoop := {
    info           := { info with
      attrSizes := info.attrSizes ++ [nc.attrSize]
      attrSet   := if info.needAttr nc then nc.attrHash :: info.attrSet else info.attrSet
    }
    secondRecvSize := if info.needAttr nc then alignedSize nc.attrSize else 0
  }
  obtain ⟨l, hl, hadds⟩ := fixedBlocks_adds nc (contents before) l₀ 0 c.record.mmBlocks
    ⟨List.mem_cons_self, hknows.mmbSet⟩ fun i mmb hmmb => by simpa using getElem?_fixed h hle hmmb
  have hothers := hadds.others
  simp only [MInfo.mk.injEq] at hothers
  obtain ⟨hattrSet, _, _, _, _, _, hattrSizes, _, _⟩ := hothers
  have hmask := hadds.mmsNeeded
  rw [Nat.zero_add, pow_zero, Nat.one_mul] at hmask
  have hsizes : ∀ b ∈ nodeFirsts before c.record, alignedSize b.2 = alignedSize b.2 % 2 ^ 64 :=
    fun b hb => by
      have hmem := firsts_sublist.subset hb
      rw [record_aligned hmem, (record_size hmem).left]
  have hnode : info.node nc = some { l.info with
      metaEncodeSize      := info.metaEncodeSize ++ [nc.metaEncodeSize]
      writerDataPositions := info.writerDataPositions ++ [nc.writerDataPosition]
      secondRecvCounts    := info.secondRecvCounts ++ [l.secondRecvSize]
      bcastInfo           :=
        info.bcastInfo ++ [(if info.needAttr nc then MInfo.attrBit else 0) ||| l.mmsNeeded]
    } := by
    rw [MInfo.node, hlength, hl]
    rfl
  refine ⟨_, hnode, ?_, hadds.mmbIDs, ?_, ?_, ?_, ?_, hknows.append hadds.mmbSet ?_⟩
  · rw [← List.map_congr_left hsizes]
    exact hadds.mmbSizes
  · simp only [nodeMask, nodeFlags, hmask, MInfo.needAttr, hneed, decide_eq_true_eq]
  · exact hattrSizes.trans (congrArg (info.attrSizes ++ [·]) hattr)
  · exact congrArg (info.metaEncodeSize ++ [·]) hmeta
  · exact congrArg (info.writerDataPositions ++ [·]) hposition
  · intro k
    have hhash' : c.record.attrHash = nc.attrHash := hhash.symm
    simp only [hattrSet, l₀, MInfo.needAttr, hneed, decide_eq_true_eq, hhash']
    split
    case isTrue hfirst => simp [hfirst, or_comm]
    case isFalse hfirst => simp [hfirst]

-- The pass goes through all ranks, or up to the first with more blocks than slots.
theorem fixedNodes_spec {cs : List Contribution} {ncs : List NodeContrib}
    (h : List.Forall₂ (fun c nc => buildFixedContrib c = .ok nc) cs ncs) (hknows : info.Knows before) :
    ((∀ c ∈ cs, c.mmBlocks.length ≤ fixedMMBSlotCount) ∧ ∃ info',
      breakdownFixedNodes ncs info = .ok info' ∧ info.AddsAll before (records cs) info') ∨
    ∃ pre c post info' rest, cs = pre ++ c :: post ∧
      (∀ c ∈ pre, c.mmBlocks.length ≤ fixedMMBSlotCount) ∧ fixedMMBSlotCount < c.mmBlocks.length ∧
        info.AddsAll before (records pre) info' ∧ breakdownFixedNodes ncs info = .ok { info' with
          attrSizes := info'.attrSizes ++ [c.attrSize]
          bcastInfo := (info'.bcastInfo ++ .replicate (rest + 1) 0).set 0 needDynamic
        } := by
  induction h generalizing info before with
  | nil => exact .inl ⟨by simp, info, rfl, .nil hknows⟩
  | @cons c nc cs ncs hc hcs ih =>
    have ⟨_, hattr, hcount, _⟩ := buildFixedContrib_ok hc
    by_cases hle : c.mmBlocks.length ≤ fixedMMBSlotCount
    case pos =>
      have ⟨next, hnext, hadds⟩ := fixedNode_adds hknows hc hle
      have hstep : breakdownFixedNodes (nc :: ncs) info = breakdownFixedNodes ncs next := by
        rw [breakdownFixedNodes, if_neg (by omega), hnext]
        rfl
      rw [hstep]
      rcases ih hadds.knows with ⟨hall, info', hok, haddsAll⟩ |
        ⟨pre, c', post, info', rest, rfl, hpre, hc', haddsAll, hok⟩
      · exact .inl ⟨List.forall_mem_cons.mpr ⟨hle, hall⟩, info', hok, hadds.cons haddsAll⟩
      · exact .inr ⟨c :: pre, c', post, info', rest, rfl, List.forall_mem_cons.mpr ⟨hle, hpre⟩, hc',
          hadds.cons haddsAll, hok⟩
    case neg =>
      refine .inr ⟨[], c, cs, info, ncs.length, rfl, by simp, by omega, .nil hknows, ?_⟩
      rw [breakdownFixedNodes, if_pos (by omega), hattr]

end Fixed

section Seen

-- That the numbers are read the other way round does not change which blocks are first occurrences.

variable {host : Endian} {before rs : List NodeRecord} {r : NodeRecord}

def NodeRecord.Bounded (r : NodeRecord) : Prop :=
  ∀ mmb ∈ r.mmBlocks, mmb.2 < 2 ^ 64

theorem content_seen {mmb : Digest × Nat} (h : mmb.2 < 2 ^ 64) :
    content (seenBlock host mmb) = (content mmb).map (seenBytes host) := by
  simp only [content, seenBlock, seenNumber_eq_zero h]
  split <;> rfl

theorem contents_seen (h : ∀ r ∈ before, r.Bounded) :
    contents (before.map (NodeRecord.seen host)) =
      (contents before).map (Option.map (seenBytes host)) := by
  simp only [contents, List.map_cons, Option.map_none, List.flatMap_map, List.map_flatMap]
  congr 1
  refine List.flatMap_congr fun r hr => ?_
  rw [NodeRecord.seen, List.map_map, List.map_map]
  exact List.map_congr_left fun mmb hmmb => content_seen (h r hr mmb hmmb)

theorem nodeFlags_seen (h : ∀ r ∈ before, r.Bounded) (hr : r.Bounded) :
    nodeFlags (before.map (NodeRecord.seen host)) (r.seen host) = nodeFlags before r := by
  rw [nodeFlags, contents_seen h]
  exact flags_map_of_injective (Option.map_injective seenBytes_injective)
    fun mmb hmmb => content_seen (hr mmb hmmb)

theorem nodeFirsts_seen (h : ∀ r ∈ before, r.Bounded) (hr : r.Bounded) :
    nodeFirsts (before.map (NodeRecord.seen host)) (r.seen host) =
      (nodeFirsts before r).map (seenBlock host) := by
  rw [nodeFirsts, contents_seen h]
  exact firsts_map_of_injective (Option.map_injective seenBytes_injective)
    fun mmb hmmb => content_seen (hr mmb hmmb)

theorem bounded_append (h : ∀ r ∈ before, r.Bounded) (hr : r.Bounded) :
    ∀ r' ∈ before ++ [r], r'.Bounded := by
  intro r' hr'
  rcases List.mem_append.mp hr' with hr' | hr'
  · exact h r' hr'
  · exact List.mem_singleton.mp hr' ▸ hr

theorem newBlocks_seen (before : List NodeRecord) (h : ∀ r ∈ before, r.Bounded) (hrs : ∀ r ∈ rs, r.Bounded) :
    newBlocks (before.map (NodeRecord.seen host)) (rs.map (NodeRecord.seen host)) =
      (newBlocks before rs).map (seenBlock host) := by
  induction rs generalizing before with
  | nil => rfl
  | cons r rs ih =>
    have ⟨hr, hrs⟩ := List.forall_mem_cons.mp hrs
    have hnext := ih _ (bounded_append h hr) hrs
    rw [List.map_append, List.map_singleton] at hnext
    rw [List.map_cons, newBlocks, newBlocks, hnext, nodeFirsts_seen h hr, List.map_append]

theorem allBelow_seen {n : Nat} (before : List NodeRecord) (h : ∀ r ∈ before, r.Bounded) (hrs : ∀ r ∈ rs, r.Bounded) :
    AllBelow n (before.map (NodeRecord.seen host)) (rs.map (NodeRecord.seen host)) ↔
      AllBelow n before rs := by
  induction rs generalizing before with
  | nil => exact Iff.rfl
  | cons r rs ih =>
    have ⟨hr, hrs⟩ := List.forall_mem_cons.mp hrs
    have hnext := ih _ (bounded_append h hr) hrs
    rw [List.map_append, List.map_singleton] at hnext
    rw [List.map_cons, AllBelow, AllBelow, hnext, nodeFlags_seen h hr]

theorem record_bounded (cs : List Contribution) : ∀ r ∈ records cs, r.Bounded := by
  intro r hr
  obtain ⟨c, _, rfl⟩ := List.mem_map.mp hr
  exact fun mmb hmmb => (record_size hmmb).right

end Seen

section Paired

variable {before rs : List NodeRecord} {r : NodeRecord}

-- The meta-metadata bits that are set, in the order of the ranks and of the bits.
def blockBits (mask : Nat) : List Nat :=
  (List.range 63).filter (mask.testBit ·)

def setBits (masks : List Nat) : List (Nat × Nat) :=
  masks.zipIdx.flatMap fun (mask, i) => (blockBits mask).map (i, ·)

def blockAt (rs : List NodeRecord) (pos : Nat × Nat) : Option (Digest × Nat) :=
  rs[pos.1]?.bind (·.mmBlocks[pos.2]?)

-- There is one entry for each bit, with the size and the ID of the block that the bit asks for.
structure Paired (cs : List Contribution) (info : MInfo) : Prop where
  sizes : info.mmbSizes.map some =
    (setBits info.bcastInfo).map fun pos => (blockAt (records cs) pos).map (·.2)
  ids   : info.mmbIDs.map some =
    (setBits info.bcastInfo).map fun pos => (blockAt (records cs) pos).map (·.1)

-- The new blocks at positions that have a bit.
def newBelow : List NodeRecord → List NodeRecord → List (Digest × Nat)
  | _, []           => []
  | before, r :: rs =>
    firsts content (contents before) (r.mmBlocks.take 63) ++ newBelow (before ++ [r]) rs

theorem nodeFirsts_split (before : List NodeRecord) (r : NodeRecord) : ∃ behind,
    nodeFirsts before r = firsts content (contents before) (r.mmBlocks.take 63) ++ behind := by
  rw [nodeFirsts]
  nth_rewrite 1 [← List.take_append_drop 63 r.mmBlocks]
  rw [firsts_append]
  exact ⟨_, rfl⟩

theorem newBelow_length_le (before rs : List NodeRecord) :
    (newBelow before rs).length ≤ (newBlocks before rs).length := by
  induction rs generalizing before with
  | nil => exact le_rfl
  | cons r rs ih =>
    have ⟨behind, hsplit⟩ := nodeFirsts_split before r
    have := ih (before ++ [r])
    rw [newBelow, newBlocks, hsplit]
    simp only [List.length_append]
    omega

theorem firsts_take_of_flagsBelow (h : FlagsBelow 63 (nodeFlags before r)) :
    firsts content (contents before) (r.mmBlocks.take 63) = nodeFirsts before r := by
  have hall : ∀ n, 63 ≤ n → firsts content (contents before) (r.mmBlocks.take n) =
      firsts content (contents before) (r.mmBlocks.take 63) := by
    intro n hn
    induction n, hn using Nat.le_induction with
    | base => rfl
    | succ n hn ih =>
      rw [← ih]
      apply List.map_injective_iff.mpr (Option.some_injective _)
      rw [← map_filter_flags, ← map_filter_flags, List.range_succ, List.filter_append]
      have hflag : ¬(flags content (contents before) r.mmBlocks)[n]? = some true := fun hflag =>
        absurd (h n hflag) (by omega)
      simp [hflag]
  have := hall (63 + r.mmBlocks.length) (by omega)
  rw [← this, List.take_of_length_le (by omega)]
  rfl

theorem newBelow_eq_of_allBelow (h : AllBelow 63 before rs) :
    newBelow before rs = newBlocks before rs := by
  induction rs generalizing before with
  | nil => rfl
  | cons r rs ih => rw [newBelow, newBlocks, firsts_take_of_flagsBelow h.left, ih h.right]

theorem allBelow_of_length (before rs : List NodeRecord)
    (h : (newBelow before rs).length = (newBlocks before rs).length) :
    AllBelow 63 before rs := by
  induction rs generalizing before with
  | nil => trivial
  | cons r rs ih =>
    have ⟨behind, hsplit⟩ := nodeFirsts_split before r
    have hle : (newBelow (before ++ [r]) rs).length ≤ _ := newBelow_length_le _ _
    rw [newBelow, newBlocks, List.length_append, List.length_append, hsplit, List.length_append] at h
    refine ⟨fun b hb => lt_of_length_firsts ?_ hb, ih _ (by omega)⟩
    have hfirsts : firsts content (contents before) r.mmBlocks = _ := hsplit
    rw [hfirsts, List.length_append]
    omega

theorem blockBits_nodeMask (before : List NodeRecord) (r : NodeRecord) :
    blockBits (nodeMask before r) =
      (List.range 63).filter fun b => (nodeFlags before r)[b]? = some true := by
  refine List.filter_congr fun b hb => ?_
  have hne : b ≠ 63 := (List.mem_range.mp hb).ne
  rw [Bool.eq_iff_iff, testBit_nodeMask, Bool.or_eq_true, getD_eq_true, decide_eq_true_iff,
    decide_eq_true_iff]
  simp [hne]

-- What the bits ask for are the new blocks that have one.
theorem setBits_blockAt {host : Endian} (before : List NodeRecord) (h : ∀ r ∈ before, r.Bounded) (hrs : ∀ r ∈ rs, r.Bounded) :
    (((masks (before.map (NodeRecord.seen host)) (rs.map (NodeRecord.seen host))).zipIdx
        before.length).flatMap fun (mask, i) => (blockBits mask).map (i, ·)).map
      (blockAt (before ++ rs)) = (newBelow before rs).map some := by
  induction rs generalizing before with
  | nil => rfl
  | cons r rs ih =>
    have ⟨hr, hrs⟩ := List.forall_mem_cons.mp hrs
    have hnext := ih _ (bounded_append h hr) hrs
    rw [List.map_append, List.map_singleton, List.length_append, List.length_singleton,
      List.append_assoc, List.singleton_append] at hnext
    have hat : ∀ b, blockAt (before ++ r :: rs) (before.length, b) = r.mmBlocks[b]? := fun b => by
      simp [blockAt]
    rw [List.map_cons, masks, List.zipIdx_cons, List.flatMap_cons, List.map_append, hnext, newBelow,
      List.map_append, ← map_filter_flags, List.map_map, blockBits_nodeMask, nodeFlags_seen h hr]
    congr 1
    exact List.map_congr_left fun b _ => hat b

end Paired

section NewBlocks

variable {before rs : List NodeRecord} {r : NodeRecord} {mmb : Digest × Nat}

theorem mem_nodeFirsts : mmb ∈ nodeFirsts before r ↔
    ∃ b : Nat, (nodeFlags before r)[b]? = some true ∧ r.mmBlocks[b]? = some mmb := by
  have hmap := map_filter_flags content (contents before) r.mmBlocks r.mmBlocks.length
  rw [List.take_length] at hmap
  have hsome : mmb ∈ nodeFirsts before r ↔ some mmb ∈ (nodeFirsts before r).map some := by simp
  rw [hsome, nodeFirsts, ← hmap, List.mem_map]
  constructor
  · rintro ⟨b, hb, hmmb⟩
    exact ⟨b, decide_eq_true_iff.mp (List.mem_filter.mp hb).right, hmmb⟩
  · rintro ⟨b, hb, hmmb⟩
    have hlt := (List.getElem?_eq_some_iff.mp hmmb).1
    exact ⟨b, List.mem_filter.mpr ⟨List.mem_range.mpr hlt, decide_eq_true hb⟩, hmmb⟩

theorem mem_newBlocks : mmb ∈ newBlocks before rs ↔
    ∃ i r, rs[i]? = some r ∧ mmb ∈ nodeFirsts (before ++ rs.take i) r := by
  induction rs generalizing before with
  | nil => simp [newBlocks]
  | cons r rs ih =>
    rw [newBlocks, List.mem_append, ih]
    constructor
    · rintro (h | ⟨i, r', hr', h⟩)
      · exact ⟨0, r, rfl, by simpa using h⟩
      · exact ⟨i + 1, r', hr', by simpa using h⟩
    · rintro ⟨_ | i, r', hr', h⟩
      · cases hr'
        exact .inl (by simpa using h)
      · exact .inr ⟨i, r', hr', by simpa using h⟩

theorem mem_newBlocks_iff_firstBlock :
    mmb ∈ newBlocks [] rs ↔ ∃ i k, FirstBlock rs i k mmb := by
  rw [mem_newBlocks]
  simp only [List.nil_append, mem_nodeFirsts, getElem?_nodeFlags, FirstBlock]
  constructor
  · rintro ⟨i, r, hr, k, ⟨mmb', hmmb', hnew⟩, hmmb⟩
    rw [hmmb] at hmmb'
    cases hmmb'
    exact ⟨i, k, r, hr, hmmb, hnew⟩
  · rintro ⟨i, k, r, hr, hmmb, hnew⟩
    exact ⟨i, r, hr, k, ⟨mmb, hmmb, hnew⟩, hmmb⟩

theorem newBlocks_eq_firsts : newBlocks before rs =
    firsts content (contents before) (rs.flatMap (·.mmBlocks)) := by
  induction rs generalizing before with
  | nil => rfl
  | cons r rs ih =>
    rw [newBlocks, ih, List.flatMap_cons, firsts_append, nodeFirsts]
    congr 1
    refine firsts_congr fun k => ?_
    rw [mem_seenAfter, mem_contents, mem_contents]
    simp only [List.mem_append, List.mem_singleton, or_and_right, exists_or, exists_eq_left, or_assoc]

-- There are none if and only if no block has a body.
theorem newBlocks_eq_nil : newBlocks [] rs = [] ↔ ∀ r ∈ rs, ∀ mmb ∈ r.mmBlocks, mmb.2 = 0 := by
  rw [newBlocks_eq_firsts]
  have hmap : ∀ k, k ∈ (firsts content (contents []) (rs.flatMap (·.mmBlocks))).map content ↔
      k ∈ (rs.flatMap (·.mmBlocks)).map content ∧ k ∉ contents [] := fun _ => mem_map_firsts
  constructor
  · intro h r hr mmb hmmb
    by_contra hne
    have hcontent : content mmb = some mmb.1 := if_neg hne
    have := (hmap (content mmb)).mpr ⟨List.mem_map_of_mem (List.mem_flatMap.mpr ⟨r, hr, hmmb⟩),
      by simp [hcontent, contents]⟩
    simp [h] at this
  · intro h
    rw [← List.map_eq_nil_iff (f := content), List.eq_nil_iff_forall_not_mem]
    intro k hk
    obtain ⟨hk, hnone⟩ := (hmap k).mp hk
    obtain ⟨mmb, hmmb, rfl⟩ := List.mem_map.mp hk
    obtain ⟨r, hr, hmmb⟩ := List.mem_flatMap.mp hmmb
    exact hnone (by simp [content, h r hr mmb hmmb, contents])

end NewBlocks

section Fallback

variable {host : Endian} {cs : List Contribution} {info : MInfo}

-- What is recorded for a new block is its ID and its size.
def RecordedAsIs (host : Endian) (mmb : Digest × Nat) : Prop :=
  seenBytes host mmb.1 = mmb.1 ∧ alignedSize (seenNumber host mmb.2) % 2 ^ 64 = mmb.2

-- The vectors have what an earlier pass has left in front of the new blocks.
theorem paired_iff (host : Endian) (stale : List (Digest × Nat))
    (h : MInfo.AddsAll [] (seenRecords host cs)
      { mmbSizes := stale.map fun b => alignedSize b.2 % 2 ^ 64, mmbIDs := stale.map (·.1) } info) :
    Paired cs info ↔ stale = [] ∧ AllBelow 63 [] (records cs) ∧
      ∀ mmb ∈ newBlocks [] (records cs), RecordedAsIs host mmb := by
  have hbounded := record_bounded cs
  have hseen : seenRecords host cs = (records cs).map (NodeRecord.seen host) := by
    rw [seenRecords, records, List.map_map]
    rfl
  have hbits : (setBits info.bcastInfo).map (blockAt (records cs)) =
      (newBelow [] (records cs)).map some := by
    rw [h.bcastInfo, hseen]
    exact setBits_blockAt [] (by simp) hbounded
  have hnew : newBlocks [] (seenRecords host cs) =
      (newBlocks [] (records cs)).map (seenBlock host) := by
    rw [hseen]
    exact newBlocks_seen [] (by simp) hbounded
  have hproject : ∀ {α : Type} (f : Digest × Nat → α),
      ((setBits info.bcastInfo).map fun pos => (blockAt (records cs) pos).map f) =
        (newBelow [] (records cs)).map fun mmb => some (f mmb) := fun f => by
    have := congrArg (List.map (Option.map f)) hbits
    simpa [List.map_map, Function.comp_def] using this
  have hsizes : info.mmbSizes = (stale.map fun b => alignedSize b.2 % 2 ^ 64) ++
      (newBlocks [] (records cs)).map fun mmb => alignedSize (seenNumber host mmb.2) % 2 ^ 64 := by
    rw [h.mmbSizes, hnew, List.map_map]
    rfl
  have hids : info.mmbIDs = stale.map (·.1) ++
      (newBlocks [] (records cs)).map fun mmb => seenBytes host mmb.1 := by
    rw [h.mmbIDs, hnew, List.map_map]
    rfl
  constructor
  · rintro ⟨hsize, hid⟩
    rw [hproject, hsizes] at hsize
    rw [hproject, hids] at hid
    have hlength := congrArg List.length hsize
    simp only [List.length_map, List.length_append] at hlength
    have hle := newBelow_length_le [] (records cs)
    have hstale : stale = [] := List.length_eq_zero_iff.mp (by omega)
    have hbelow := allBelow_of_length [] (records cs) (by omega)
    rw [newBelow_eq_of_allBelow hbelow, hstale, List.map_nil, List.nil_append, List.map_map,
      List.map_inj_left] at hsize hid
    exact ⟨hstale, hbelow, fun mmb hmmb =>
      ⟨Option.some.inj (hid mmb hmmb), Option.some.inj (hsize mmb hmmb)⟩⟩
  · rintro ⟨rfl, hbelow, hrecorded⟩
    constructor
    · rw [hproject, hsizes, newBelow_eq_of_allBelow hbelow, List.map_nil, List.nil_append,
        List.map_map]
      exact List.map_congr_left fun mmb hmmb => congrArg some (hrecorded mmb hmmb).right
    · rw [hproject, hids, newBelow_eq_of_allBelow hbelow, List.map_nil, List.nil_append, List.map_map]
      exact List.map_congr_left fun mmb hmmb => congrArg some (hrecorded mmb hmmb).left

theorem nodeMask_ne_needDynamic {before : List NodeRecord} {r : NodeRecord}
    (h : r.mmBlocks.length ≤ fixedMMBSlotCount) : nodeMask before r ≠ needDynamic := by
  intro heq
  have hbit := congrArg (Nat.testBit · 5) heq
  simp only [testBit_nodeMask, needDynamic, Nat.testBit_two_pow_sub_one] at hbit
  have hnone : (nodeFlags before r)[5]? = none :=
    List.getElem?_eq_none (by rw [nodeFlags_length]; simp only [fixedMMBSlotCount] at h; omega)
  simp [List.getD_eq_getElem?_getD, hnone] at hbit

-- What the pass over the contributions of fixed size leaves in the vectors when it gives up.
def stale (cs : List Contribution) : List (Digest × Nat) :=
  newBlocks [] (records (cs.takeWhile fun c => c.mmBlocks.length ≤ fixedMMBSlotCount))

def AllFixed (cs : List Contribution) : Prop :=
  ∀ c ∈ cs, c.mmBlocks.length ≤ fixedMMBSlotCount

theorem stale_eq {pre post : List Contribution} {c : Contribution} (hpre : AllFixed pre)
    (hc : fixedMMBSlotCount < c.mmBlocks.length) : stale (pre ++ c :: post) = newBlocks [] (records pre) := by
  have htake : (pre ++ c :: post).takeWhile
      (fun c => decide (c.mmBlocks.length ≤ fixedMMBSlotCount)) = pre := by
    rw [List.takeWhile_append_of_pos fun c hc => decide_eq_true (hpre c hc),
      List.takeWhile_cons_of_neg (by simpa using hc), List.append_nil]
  rw [stale, htake]

theorem knows_nil : ({} : MInfo).Knows [] :=
  ⟨by simp [contents], by simp⟩

-- The exchange up to the masks, after the contributions of fixed size were made.
def afterFixed (host : Endian) (cs : List Contribution) (ncs : List NodeContrib) : Outcome MInfo := do
  let info ← breakdownFixedNodes ncs {}
  let first ← info.bcastInfo.head?.orUndefined
  if first = needDynamic then do
    let contribs ← cs.mapM (buildNodeContrib host)
    let b ← breakdownIncomingMInfo host contribs.flatten (contribs.map List.length) info.mmbSizes
      info.mmbIDs
    pure b.info
  else
    pure info

theorem afterFixed_fixed (host : Endian) {ncs : List NodeContrib} (hne : cs ≠ [])
    (h : List.Forall₂ (fun c nc => buildFixedContrib c = .ok nc) cs ncs) (hall : AllFixed cs) :
    ∃ info, afterFixed host cs ncs = .ok info ∧ MInfo.AddsAll [] (records cs) {} info := by
  rcases fixedNodes_spec h knows_nil with ⟨_, info, hok, hadds⟩ | ⟨pre, c, post, _, _, rfl, _, hc, _⟩
  · obtain ⟨c, cs, rfl⟩ := List.exists_cons_of_ne_nil hne
    have hfirst : info.bcastInfo.head? = some (nodeMask [] c.record) := by
      rw [hadds.bcastInfo]
      rfl
    have hle : c.record.mmBlocks.length ≤ fixedMMBSlotCount := by
      simpa [Contribution.record] using hall c List.mem_cons_self
    refine ⟨info, ?_, hadds⟩
    rw [afterFixed, hok, Outcome.ok_bind, hfirst, Option.orUndefined_some, Outcome.ok_bind,
      if_neg (nodeMask_ne_needDynamic hle)]
    rfl
  · exact absurd (hall c (by simp)) (by omega)

theorem afterFixed_dynamic {ncs : List NodeContrib}
    (h : List.Forall₂ (fun c nc => buildFixedContrib c = .ok nc) cs ncs) (hall : ¬AllFixed cs) :
    afterFixed host cs ncs = (do
      let contribs ← cs.mapM (buildNodeContrib host)
      let b ← breakdownIncomingMInfo host contribs.flatten (contribs.map List.length)
        ((stale cs).map fun b => alignedSize b.2 % 2 ^ 64) ((stale cs).map (·.1))
      pure b.info) := by
  rcases fixedNodes_spec h knows_nil with ⟨hall', _⟩ | ⟨pre, c, post, info, rest, rfl, hpre, hc, hadds, hok⟩
  · exact absurd hall' hall
  · have hfirst : ((info.bcastInfo ++ .replicate (rest + 1) 0).set 0 needDynamic).head? =
        some needDynamic := by
      cases info.bcastInfo <;> rfl
    rw [afterFixed, hok, Outcome.ok_bind]
    dsimp only
    rw [hfirst, Option.orUndefined_some, Outcome.ok_bind, if_pos rfl, hadds.mmbSizes, hadds.mmbIDs,
      stale_eq hpre hc, List.nil_append, List.nil_append]

theorem exists_buildFixedContrib (hfits : ∀ c ∈ cs, c.Fits) :
    ∃ ncs, cs.mapM buildFixedContrib = .ok ncs := by
  refine Outcome.exists_mapM_eq_ok fun c hc => ?_
  have ⟨ids, hids⟩ := Outcome.exists_mapM_eq_ok (l := c.mmBlocks.take fixedMMBSlotCount) (f := copyID)
    fun b hb => ⟨_, copyID_eq_ok.mpr ⟨hfits c hc b (List.mem_of_mem_take hb), rfl⟩⟩
  exact ⟨_, by rw [buildFixedContrib, hids, Outcome.ok_bind]; rfl⟩

def FallbackPairs (host : Endian) (cs : List Contribution) : Prop :=
  ∃ info, aggregateMInfo host cs = .ok info ∧ Paired cs info

theorem fallbackPairs_fixed (hne : cs ≠ []) (hall : AllFixed cs) :
    FallbackPairs host cs ↔ ∀ c ∈ cs, c.Fits := by
  constructor
  · rintro ⟨info, h, -⟩ c hc
    obtain ⟨ncs, hncs, -⟩ := Outcome.bind_eq_ok.mp h
    have ⟨nc, hnc⟩ : ∃ nc, buildFixedContrib c = .ok nc := by
      replace hncs := Outcome.mapM_eq_ok_iff.mp hncs
      clear h hall hne
      induction hncs with
      | nil => simp at hc
      | cons hfirst _ ih =>
        rcases List.mem_cons.mp hc with rfl | hc
        · exact ⟨_, hfirst⟩
        · exact ih hc
    exact fits_of_buildFixedContrib hnc (hall c hc)
  · intro hfits
    have ⟨ncs, hncs⟩ := exists_buildFixedContrib hfits
    have ⟨info, hok, hadds⟩ := afterFixed_fixed host hne
      (Outcome.mapM_eq_ok_iff.mp hncs) hall
    refine ⟨info, by rw [aggregateMInfo, hncs]; exact hok, ?_⟩
    have hseen : seenRecords .big cs = records cs := seenRecords_eq fun c _ => record_seen_big c
    refine (paired_iff .big [] (hseen ▸ hadds)).mpr ⟨rfl, ?_, ?_⟩
    · refine allBelow_iff.mpr fun i r hr b hb => ?_
      obtain ⟨c, hc, rfl⟩ := List.mem_map.mp (List.mem_of_getElem? hr)
      have hlt := (List.getElem?_eq_some_iff.mp hb).1
      have hlen : c.record.mmBlocks.length ≤ fixedMMBSlotCount := by
        simpa [Contribution.record] using hall c hc
      rw [nodeFlags_length] at hlt
      simp only [fixedMMBSlotCount] at hlen
      omega
    · intro mmb hmmb
      rw [newBlocks_eq_firsts] at hmmb
      obtain ⟨r, hr, hmmb⟩ := List.mem_flatMap.mp (firsts_sublist.subset hmmb)
      obtain ⟨c, _, rfl⟩ := List.mem_map.mp hr
      exact ⟨rfl, record_aligned hmmb⟩

theorem fallbackPairs_dynamic (hall : ¬AllFixed cs) : FallbackPairs host cs ↔
    (∀ c ∈ cs, c.Fits) ∧ CountsKept host cs ∧ stale cs = [] ∧ AllBelow 63 [] (records cs) ∧
      ∀ mmb ∈ newBlocks [] (records cs), RecordedAsIs host mmb := by
  constructor
  · rintro ⟨info, h, hpaired⟩
    obtain ⟨ncs, hncs, h⟩ := Outcome.bind_eq_ok.mp h
    have h : afterFixed host cs ncs = .ok info := h
    rw [afterFixed_dynamic (Outcome.mapM_eq_ok_iff.mp hncs) hall] at h
    obtain ⟨contribs, hcontribs, h⟩ := Outcome.bind_eq_ok.mp h
    obtain ⟨b, hb, h⟩ := Outcome.bind_eq_ok.mp h
    cases h
    have ⟨hfits, hcontribs⟩ := mapM_buildNodeContrib.mp hcontribs
    subst hcontribs
    have ⟨hok, hspec⟩ := breakdown_spec host hfits
      ((stale cs).map fun b => alignedSize b.2 % 2 ^ 64) ((stale cs).map (·.1))
    have ⟨hkept, _⟩ := hok.mp ⟨b, hb⟩
    have ⟨_, _, hadds⟩ := hspec b hb
    exact ⟨hfits, hkept, (paired_iff _ _ hadds).mp hpaired⟩
  · rintro ⟨hfits, hkept, hpairs⟩
    have ⟨ncs, hncs⟩ := exists_buildFixedContrib hfits
    have ⟨hok, hspec⟩ := breakdown_spec host hfits
      ((stale cs).map fun b => alignedSize b.2 % 2 ^ 64) ((stale cs).map (·.1))
    have hbelow : AllBelow 64 [] (seenRecords host cs) := by
      have hseen : seenRecords host cs = (records cs).map (NodeRecord.seen host) := by
        rw [seenRecords, records, List.map_map]
        rfl
      rw [hseen]
      refine (allBelow_seen [] (by simp) (record_bounded cs)).mpr ?_
      exact allBelow_iff_firstBlock.mpr fun i k mmb hfirst => by
        have := allBelow_iff_firstBlock.mp hpairs.right.left i k mmb hfirst
        omega
    obtain ⟨b, hb⟩ := hok.mpr ⟨hkept, hbelow⟩
    have ⟨_, _, hadds⟩ := hspec b hb
    refine ⟨b.info, ?_, (paired_iff _ _ hadds).mpr hpairs⟩
    rw [aggregateMInfo, hncs]
    refine (afterFixed_dynamic (Outcome.mapM_eq_ok_iff.mp hncs) hall).trans ?_
    rw [mapM_buildNodeContrib.mpr ⟨hfits, rfl⟩, Outcome.ok_bind, hb]
    rfl

-- When the contributions of any size pair the bodies with their IDs: no rank in front of the first
-- with too many blocks brings a body, no block needs the bit of the attributes or one behind it, and
-- a little endian host finds the numbers of blocks and what it records as they are.
structure DynamicHolds (host : Endian) (cs : List Contribution) : Prop where
  earlier : ∀ pre c post, cs = pre ++ c :: post → AllFixed pre →
    fixedMMBSlotCount < c.mmBlocks.length → ∀ c' ∈ pre, ∀ b ∈ c'.mmBlocks, b.metaMetaInfo = []
  bits    : ∀ i k mmb, FirstBlock (records cs) i k mmb → k < 63
  counts  : host = .little → ∀ c ∈ cs, swapped c.mmBlocks.length = c.mmBlocks.length
  blocks  : host = .little → ∀ i k mmb, FirstBlock (records cs) i k mmb →
    mmb.1.reverse = mmb.1 ∧ alignedSize (swapped mmb.2) % 2 ^ 64 = mmb.2

theorem stale_eq_nil (hall : ¬AllFixed cs) : stale cs = [] ↔
    ∀ pre c post, cs = pre ++ c :: post → AllFixed pre → fixedMMBSlotCount < c.mmBlocks.length →
      ∀ c' ∈ pre, ∀ b ∈ c'.mmBlocks, b.metaMetaInfo = [] := by
  have hempty : ∀ pre : List Contribution, newBlocks [] (records pre) = [] ↔
      ∀ c ∈ pre, ∀ b ∈ c.mmBlocks, b.metaMetaInfo = [] := fun pre => by
    rw [newBlocks_eq_nil, records, List.forall_mem_map]
    refine forall_congr' fun c => forall_congr' fun _ => ?_
    rw [Contribution.record, List.forall_mem_map]
    refine forall_congr' fun b => forall_congr' fun _ => ?_
    rw [← List.length_eq_zero_iff]
    refine ⟨fun h => ?_, fun h => by rw [h]; rfl⟩
    have := le_alignedSize b.metaMetaInfo.length
    omega
  constructor
  · rintro h pre c post rfl hpre hc
    exact (hempty pre).mp ((stale_eq hpre hc).symm.trans h)
  · intro h
    obtain ⟨c, hc, hmany⟩ : ∃ c ∈ cs, fixedMMBSlotCount < c.mmBlocks.length := by
      simpa [AllFixed] using hall
    let p : Contribution → Bool := fun c => decide (c.mmBlocks.length ≤ fixedMMBSlotCount)
    have hdrop : cs.dropWhile p ≠ [] := fun hnil => by
      have := List.dropWhile_eq_nil_iff.mp hnil c hc
      simp only [p, decide_eq_true_iff] at this
      omega
    obtain ⟨c', post, hpost⟩ := List.exists_cons_of_ne_nil hdrop
    have hcs : cs = cs.takeWhile p ++ c' :: post := by rw [← hpost, List.takeWhile_append_dropWhile]
    have hc' : fixedMMBSlotCount < c'.mmBlocks.length := by
      have := List.head_dropWhile_not p hdrop
      simp only [hpost, List.head_cons, p, decide_eq_false_iff_not] at this
      omega
    have hpre : AllFixed (cs.takeWhile p) := fun c hc => by
      have hp : p c = true := List.mem_takeWhile_imp hc
      exact of_decide_eq_true hp
    exact (hempty _).mpr (h _ c' post hcs hpre hc')

theorem dynamicHolds_iff (hall : ¬AllFixed cs) : DynamicHolds host cs ↔
    CountsKept host cs ∧ stale cs = [] ∧ AllBelow 63 [] (records cs) ∧
      ∀ mmb ∈ newBlocks [] (records cs), RecordedAsIs host mmb := by
  rw [stale_eq_nil hall, allBelow_iff_firstBlock]
  simp only [mem_newBlocks_iff_firstBlock]
  constructor
  · rintro ⟨hearlier, hbits, hcounts, hblocks⟩
    refine ⟨fun c hc => ?_, hearlier, hbits, fun mmb ⟨i, k, hfirst⟩ => ?_⟩
    · cases host with
      | little => exact hcounts rfl c hc
      | big    => rfl
    · cases host with
      | little => exact hblocks rfl i k mmb hfirst
      | big    =>
        have ⟨r, hr, hmmb, _⟩ := hfirst
        obtain ⟨c, _, rfl⟩ := List.mem_map.mp (List.mem_of_getElem? hr)
        exact ⟨rfl, record_aligned (List.mem_of_getElem? hmmb)⟩
  · rintro ⟨hkept, hearlier, hbits, hrecorded⟩
    refine ⟨hearlier, hbits, fun heq c hc => ?_, fun heq i k mmb hfirst => ?_⟩
    · subst heq
      exact hkept c hc
    · subst heq
      exact hrecorded mmb ⟨i, k, hfirst⟩

theorem fallbackPairs (host : Endian) {cs : List Contribution} (hne : cs ≠ []) :
    FallbackPairs host cs ↔ (∀ c ∈ cs, c.Fits) ∧ (AllFixed cs ∨ DynamicHolds host cs) := by
  by_cases hall : AllFixed cs
  case pos => rw [fallbackPairs_fixed hne hall, and_iff_left (.inl hall)]
  case neg => rw [fallbackPairs_dynamic hall, dynamicHolds_iff hall, or_iff_right hall]

end Fallback

section Example

def emptyContribution : Contribution where
  attrHash              := .replicate 16 0
  attrSize              := 0
  mmBlocks              := []
  metaEncodeSize        := 0
  writerDataPosition    := 0
  attrHash_length       := replicate_digest
  attrSize_lt           := zero_lt_two_pow_64
  mmBlocks_lt           := zero_lt_two_pow_64
  info_lt               := by decide
  metaEncodeSize_lt     := zero_lt_two_pow_64
  writerDataPosition_lt := zero_lt_two_pow_64

theorem fallbackPairs_empty : FallbackPairs .little [emptyContribution] :=
  (fallbackPairs .little (by simp)).mpr
    ⟨by simp [emptyContribution, Contribution.Fits], .inl (by simp [emptyContribution, AllFixed])⟩

def oneBlock : Contribution where
  attrHash              := .replicate 16 0
  attrSize              := 0
  mmBlocks              :=
    [{ metaMetaInfo := [7], metaMetaID := [2, 0, 0, 12, 1, 1, 1, 1, 0, 0, 0, 9] }]
  metaEncodeSize        := 0
  writerDataPosition    := 0
  attrHash_length       := replicate_digest
  attrSize_lt           := zero_lt_two_pow_64
  mmBlocks_lt           := by decide
  info_lt               := by decide
  metaEncodeSize_lt     := zero_lt_two_pow_64
  writerDataPosition_lt := zero_lt_two_pow_64

-- A rank with a block in front of one with five, on a big endian host.
theorem not_fallbackPairs_oneBlock_fiveBlocks : ¬FallbackPairs .big [oneBlock, fiveBlocks] := by
  intro h
  have hall : ¬AllFixed [oneBlock, fiveBlocks] := fun hall =>
    absurd (hall fiveBlocks (by simp)) (by decide)
  have ⟨_, _, hstale, _⟩ := (fallbackPairs_dynamic hall).mp h
  have hbody := (stale_eq_nil hall).mp hstale [oneBlock] fiveBlocks [] rfl
    (fun c hc => List.mem_singleton.mp hc ▸ by decide) (by decide) oneBlock (by simp) _
    List.mem_cons_self
  exact absurd hbody (by decide)

end Example

end BP5
