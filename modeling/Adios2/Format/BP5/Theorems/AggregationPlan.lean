import Adios2.Lib.BitMask
import Adios2.Lib.FirstOccurrence
import Adios2.Lib.Lists
import Adios2.Format.BP5.Helper

-- What rank 0 decides in `BreakdownFixedIncomingMInfo`, and that the ranks send what it expects.

namespace BP5

open Bytes BitMask FirstOccurrence

variable {hash : List Byte → Digest}

namespace MetaMetaInfoBlock

def digest (b : MetaMetaInfoBlock) : Digest :=
  toDigest b.metaMetaID

def size (b : MetaMetaInfoBlock) : Nat :=
  alignedSize b.metaMetaInfo.length

theorem WellFormed.size_ne {b : MetaMetaInfoBlock} (h : b.WellFormed) : b.size ≠ 0 :=
  (alignedSize_pos <| List.length_pos_iff.mpr h.info_ne).ne'

-- An ID can be told from its slot.
theorem WellFormed.digest_take {b : MetaMetaInfoBlock} :
    b.digest.take b.metaMetaID.length = b.metaMetaID := by
  simp [digest, toDigest]

theorem WellFormed.digest_inj {b b' : MetaMetaInfoBlock} (h : b.WellFormed) (h' : b'.WellFormed) :
    b.digest = b'.digest ↔ b.metaMetaID = b'.metaMetaID := by
  constructor
  · intro hd
    have hl : b.metaMetaID.length = b'.metaMetaID.length := by
      have h₁ := h.id_len
      have h₂ := h'.id_len
      rw [show toDigest b.metaMetaID = toDigest b'.metaMetaID from hd, h₂] at h₁
      exact (Except.ok.inj h₁).symm
    rw [← digest_take (b := b), ← digest_take (b := b'), hd, hl]
  · intro hid
    rw [digest, digest, hid]

end MetaMetaInfoBlock

open MetaMetaInfoBlock

-- What rank 0 decides about a rank: its attribute block, if that is to be sent, and which of its
-- blocks are.
structure Plan where
  rank   : RankInfo
  attr   : Option (List Byte)
  flags  : List Bool
  blocks : List MetaMetaInfoBlock

namespace Plan

def attrSize (p : Plan) : Nat :=
  (p.rank.attributeEncodeBuffer.map fun a => alignedSize a.length).getD 0

def mask (p : Plan) : Nat :=
  (if p.attr.isSome then MInfo.attrBit else 0) ||| ofFlags p.flags

def bytes (p : Plan) : List Byte :=
  p.attr.getD [] ++ p.blocks.flatMap fun b => padded b.metaMetaInfo

end Plan

-- The attribute block of a rank, if its hash is not among those of the ranks before.
def newAttribute (hash : List Byte → Digest) (attrSet : List Digest) (r : RankInfo) :
    Option (List Byte) :=
  (r.attributeEncodeBuffer.map padded).filter fun a => hash a ∉ attrSet

def attrSetAfter (hash : List Byte → Digest) (attrSet : List Digest) (r : RankInfo) : List Digest :=
  ((newAttribute hash attrSet r).map hash).toList ++ attrSet

def planOf (hash : List Byte → Digest) (attrSet mmbSet : List Digest) (r : RankInfo) : Plan where
  rank   := r
  attr   := newAttribute hash attrSet r
  flags  := flags digest mmbSet r.newMetaMetaBlocks
  blocks := firsts digest mmbSet r.newMetaMetaBlocks

def plans (hash : List Byte → Digest) : List Digest → List Digest → List RankInfo → List Plan
  | _, _, []               => []
  | attrSet, mmbSet, r :: rs =>
    planOf hash attrSet mmbSet r :: plans hash (attrSetAfter hash attrSet r)
      (seenAfter digest mmbSet r.newMetaMetaBlocks) rs

section Decide

variable {r : RankInfo}

variable (hash) in
theorem nodeContrib_mmb {i : Nat} {b : MetaMetaInfoBlock} (h : r.newMetaMetaBlocks[i]? = some b) :
    (buildFixedNodeContrib hash r).mmbArray[i]? = some b.digest ∧
    (buildFixedNodeContrib hash r).mmbSizeArray[i]? = some b.size := by
  have hi : i < fixedMMBSlotCount :=
    (List.getElem?_eq_some_iff.mp h).1.trans_le r.blocks_le
  simp [buildFixedNodeContrib, List.getElem?_range hi, h, digest, MetaMetaInfoBlock.size]

variable (hash) in
-- The loop over the blocks of a node from one of them on.
theorem blockLoop_eq (l : BlockLoop) {bs : List MetaMetaInfoBlock} {n : Nat}
    (hbs : r.newMetaMetaBlocks.drop n = bs) :
    BlockLoop.blocks (buildFixedNodeContrib hash r) bs.length n l = some {
      info           := { l.info with
        mmbSet   := seenAfter digest l.info.mmbSet bs
        mmbSizes := l.info.mmbSizes ++ (firsts digest l.info.mmbSet bs).map size
        mmbIDs   := l.info.mmbIDs ++ (firsts digest l.info.mmbSet bs).map digest
      }
      mmsNeeded      := l.mmsNeeded + 2 ^ n * ofFlags (flags digest l.info.mmbSet bs)
      secondRecvSize := l.secondRecvSize + ((firsts digest l.info.mmbSet bs).map size).sum
    } := by
  induction bs generalizing n l with
  | nil => simp [BlockLoop.blocks, seenAfter, firsts, flags, ofFlags]
  | cons b bs ih =>
    have hb : r.newMetaMetaBlocks[n]? = some b := by
      rw [← List.head?_drop, hbs]
      rfl
    have hbs' : r.newMetaMetaBlocks.drop (n + 1) = bs := by
      rw [← List.drop_drop, hbs]
      rfl
    obtain ⟨hid, hsize⟩ := nodeContrib_mmb hash hb
    have hmem := r.blocks_wellFormed b <| List.mem_of_getElem? hb
    simp only [List.length_cons, BlockLoop.blocks, hid, hsize, Option.bind_eq_bind,
      Option.bind_some, ih _ hbs', BlockLoop.block, hmem.size_ne, ne_eq, not_false_eq_true,
      true_and, seenAfter, firsts, flags]
    by_cases hseen : b.digest ∈ l.info.mmbSet
    · simp [hseen, ofFlags, pow_succ, Nat.mul_assoc]
    · have hs : alignedSize b.size = b.size := alignedSize_alignedSize _
      simp [hseen, ofFlags, pow_succ, hs, Nat.mul_add, Nat.mul_assoc, Nat.add_assoc]

def MInfo.addPlan (hash : List Byte → Digest) (info : MInfo) (p : Plan) : MInfo where
  attrSet             := (p.attr.map hash).toList ++ info.attrSet
  mmbSet              := seenAfter digest info.mmbSet p.rank.newMetaMetaBlocks
  secondRecvCounts    := info.secondRecvCounts ++ [p.bytes.length]
  bcastInfo           := info.bcastInfo ++ [p.mask]
  writerDataPositions := info.writerDataPositions ++ [p.rank.writerDataPosition]
  metaEncodeSize      := info.metaEncodeSize ++ [p.rank.metaEncodeSize]
  attrSizes           := info.attrSizes ++ [p.attrSize]
  mmbSizes            := info.mmbSizes ++ p.blocks.map size
  mmbIDs              := info.mmbIDs ++ p.blocks.map digest

theorem blocks_bytes_length (bs : List MetaMetaInfoBlock) :
    (bs.flatMap fun b => padded b.metaMetaInfo).length = (bs.map size).sum := by
  simp only [List.length_flatMap, padded_length]
  rfl

variable (hash r) in
theorem newAttribute_needAttr (info : MInfo) :
    info.needAttr (buildFixedNodeContrib hash r) = (newAttribute hash info.attrSet r).isSome ∧
    ∀ a ∈ newAttribute hash info.attrSet r, (buildFixedNodeContrib hash r).attrHash = hash a ∧
      alignedSize (buildFixedNodeContrib hash r).attrSize = a.length := by
  cases ha : r.attributeEncodeBuffer with
  | none => simp [MInfo.needAttr, buildFixedNodeContrib, newAttribute, ha]
  | some a =>
    have hne : a ≠ [] := by
      rintro rfl
      exact r.attribute_ne ha
    have hpos := alignedSize_pos <| List.length_pos_iff.mpr hne
    by_cases hseen : hash (padded a) ∈ info.attrSet
    · simp [MInfo.needAttr, buildFixedNodeContrib, newAttribute, ha, hseen]
    · simp [MInfo.needAttr, buildFixedNodeContrib, newAttribute, ha, hseen, hpos.ne']

theorem node_eq (info : MInfo) : info.node (buildFixedNodeContrib hash r)
    = some (info.addPlan hash (planOf hash info.attrSet info.mmbSet r)) := by
  obtain ⟨hneed, hattr⟩ := newAttribute_needAttr hash r info
  have hloop (l : BlockLoop) := blockLoop_eq hash l
    (List.drop_zero : r.newMetaMetaBlocks.drop 0 = _)
  have hcount : (buildFixedNodeContrib hash r).mmbCount = r.newMetaMetaBlocks.length := rfl
  have hsize : (buildFixedNodeContrib hash r).attrSize
      = (planOf hash info.attrSet info.mmbSet r).attrSize := by
    simp only [buildFixedNodeContrib, Plan.attrSize, planOf]
    cases r.attributeEncodeBuffer <;> rfl
  simp only [MInfo.node, hcount, hloop, Option.bind_eq_bind, Option.bind_some, hneed]
  cases ha : newAttribute hash info.attrSet r with
  | none =>
    simp only [MInfo.addPlan, Plan.mask, Plan.bytes, List.length_append, blocks_bytes_length,
      ← hsize]
    simp [planOf, ha, buildFixedNodeContrib]
  | some a =>
    obtain ⟨h₁, h₂⟩ := hattr a ha
    simp only [MInfo.addPlan, Plan.mask, Plan.bytes, List.length_append, blocks_bytes_length,
      ← hsize, h₁, h₂]
    simp [planOf, ha, buildFixedNodeContrib]

variable (hash) in
theorem breakdownFixed_eq (ranks : List RankInfo) (info : MInfo) :
    (ranks.map (buildFixedNodeContrib hash)).foldlM
        (fun info nc => if nc.mmbCount > fixedMMBSlotCount then none else info.node nc) info
      = some ((plans hash info.attrSet info.mmbSet ranks).foldl (MInfo.addPlan hash) info) := by
  induction ranks generalizing info with
  | nil => rfl
  | cons r ranks ih =>
    have hcount : ¬ (buildFixedNodeContrib hash r).mmbCount > fixedMMBSlotCount :=
      Nat.not_lt.mpr r.blocks_le
    rw [List.map_cons, List.foldlM_cons, if_neg hcount, node_eq, Option.bind_eq_bind,
      Option.bind_some, ih]
    rfl

-- What rank 0 knows about all ranks.
structure MInfo.Of (info : MInfo) (ps : List Plan) : Prop where
  secondRecvCounts    : info.secondRecvCounts = ps.map (·.bytes.length)
  bcastInfo           : info.bcastInfo = ps.map Plan.mask
  writerDataPositions : info.writerDataPositions = ps.map (·.rank.writerDataPosition)
  metaEncodeSize      : info.metaEncodeSize = ps.map (·.rank.metaEncodeSize)
  attrSizes           : info.attrSizes = ps.map Plan.attrSize
  mmbSizes            : info.mmbSizes = (ps.flatMap Plan.blocks).map size
  mmbIDs              : info.mmbIDs = (ps.flatMap Plan.blocks).map digest

variable (hash) in
theorem foldl_addPlan (ps : List Plan) : (ps.foldl (MInfo.addPlan hash) {}).Of ps := by
  have hmap {γ : Type} {f : MInfo → List γ} {g : Plan → γ} (hempty : f {} = [])
      (hstep : ∀ info p, f (MInfo.addPlan hash info p) = f info ++ [g p]) :
      f (ps.foldl (MInfo.addPlan hash) {}) = ps.map g := by
    rw [List.foldl_eq_append_flatMap hstep, hempty, List.nil_append, List.map_eq_flatMap]
  have hblocks {γ : Type} {f : MInfo → List γ} {g : MetaMetaInfoBlock → γ} (hempty : f {} = [])
      (hstep : ∀ info p, f (MInfo.addPlan hash info p) = f info ++ p.blocks.map g) :
      f (ps.foldl (MInfo.addPlan hash) {}) = (ps.flatMap Plan.blocks).map g := by
    rw [List.foldl_eq_append_flatMap hstep, hempty, List.nil_append, List.map_flatMap]
  exact {
    secondRecvCounts    := hmap rfl fun _ _ => rfl
    bcastInfo           := hmap rfl fun _ _ => rfl
    writerDataPositions := hmap rfl fun _ _ => rfl
    metaEncodeSize      := hmap rfl fun _ _ => rfl
    attrSizes           := hmap rfl fun _ _ => rfl
    mmbSizes            := hblocks rfl fun _ _ => rfl
    mmbIDs              := hblocks rfl fun _ _ => rfl
  }

end Decide

-- A plan that was made for its rank.
def Plan.Made (hash : List Byte → Digest) (p : Plan) : Prop :=
  ∃ attrSet mmbSet, p = planOf hash attrSet mmbSet p.rank

theorem plans_made {attrSet mmbSet : List Digest} {ranks : List RankInfo} :
    ∀ p ∈ plans hash attrSet mmbSet ranks, p.Made hash := by
  induction ranks generalizing attrSet mmbSet with
  | nil => simp [plans]
  | cons r ranks ih =>
    intro p hp
    cases hp with
    | head => exact ⟨attrSet, mmbSet, rfl⟩
    | tail _ hp => exact ih p hp

namespace Plan

variable {p : Plan}

theorem Made.flags_length_le (h : p.Made hash) : p.flags.length ≤ fixedMMBSlotCount := by
  obtain ⟨_, _, hp⟩ := h
  have hlen : p.flags.length = p.rank.newMetaMetaBlocks.length := by
    rw [hp]
    exact flags_length
  exact hlen ▸ p.rank.blocks_le

theorem Made.flags_lt (h : p.Made hash) : ofFlags p.flags < 2 ^ 4 :=
  ofFlags_lt.trans_le <| Nat.pow_le_pow_right (by decide) h.flags_length_le

theorem Made.count_flags (h : p.Made hash) : p.flags.count true = p.blocks.length := by
  obtain ⟨_, _, hp⟩ := h
  rw [hp]
  exact FirstOccurrence.count_flags

theorem Made.wellFormed (h : p.Made hash) : ∀ b ∈ p.blocks, b.WellFormed := by
  obtain ⟨attrSet, mmbSet, hp⟩ := h
  have hblocks : p.blocks = firsts digest mmbSet p.rank.newMetaMetaBlocks := congrArg Plan.blocks hp
  intro b hb
  exact p.rank.blocks_wellFormed b <| firsts_sublist.subset (hblocks ▸ hb)

theorem Made.attr_length (h : p.Made hash) : ∀ a ∈ p.attr, p.attrSize = a.length ∧ a ≠ [] := by
  obtain ⟨attrSet, mmbSet, hp⟩ := h
  have hattr : p.attr = newAttribute hash attrSet p.rank := congrArg Plan.attr hp
  intro a ha
  rw [hattr, newAttribute, Option.mem_def, Option.filter_eq_some_iff, Option.map_eq_some_iff] at ha
  obtain ⟨⟨b, hb, rfl⟩, -⟩ := ha
  have hne : 0 < b.length := by
    apply List.length_pos_iff.mpr
    rintro rfl
    exact p.rank.attribute_ne hb
  refine ⟨?_, List.ne_nil_of_length_pos ?_⟩
  · simp [Plan.attrSize, hb]
  · rw [padded_length]
    exact alignedSize_pos hne

theorem Made.testBit_mask (h : p.Made hash) :
    p.mask.testBit 63 = p.attr.isSome ∧ p.mask.ldiff MInfo.attrBit = ofFlags p.flags ∧
    ∀ i < 4, p.mask.testBit i = p.flags.getD i false := by
  have hbit (i : Nat) (hi : 4 ≤ i) : (ofFlags p.flags).testBit i = false :=
    Nat.testBit_lt_two_pow <| h.flags_lt.trans_le <| Nat.pow_le_pow_right (by decide) hi
  have hattr (i : Nat) : (if p.attr.isSome then MInfo.attrBit else 0).testBit i
      = (p.attr.isSome && decide (63 = i)) := by
    cases p.attr.isSome
    · simp
    · rw [if_pos rfl, MInfo.attrBit, Nat.testBit_two_pow, Bool.true_and]
  refine ⟨?_, ?_, fun i hi => ?_⟩
  · rw [mask, Nat.testBit_lor, hattr, hbit 63 (by decide)]
    simp
  · apply Nat.eq_of_testBit_eq
    intro i
    rw [Nat.testBit_ldiff, mask, Nat.testBit_lor, hattr, MInfo.attrBit, Nat.testBit_two_pow]
    by_cases hi : 63 = i
    · simp [← hi, hbit 63 (by decide)]
    · simp [hi]
  · have hi' : 63 ≠ i := by omega
    rw [mask, Nat.testBit_lor, hattr, testBit_ofFlags]
    simp [hi']

variable (hash) in
theorem attrContrib_eq (r : RankInfo) (attrSet : List Digest) {mask : Nat}
    (h : mask.testBit 63 = (newAttribute hash attrSet r).isSome) :
    ∃ a, attrContrib r mask = .ok a ∧ padded a = (newAttribute hash attrSet r).getD [] := by
  unfold attrContrib
  rw [h]
  unfold newAttribute
  cases r.attributeEncodeBuffer with
  | none => exact ⟨[], rfl, rfl⟩
  | some a =>
    by_cases hseen : hash (padded a) ∈ attrSet
    · exact ⟨[], by simp [hseen], by simp [Option.filter_some, hseen, padded_nil]⟩
    · exact ⟨a, by simp [hseen], by simp [Option.filter_some, hseen]⟩

-- Nothing is asked of a rank whose mask is zero.
theorem Made.of_mask_eq_zero (h : p.Made hash) (hzero : p.mask = 0) :
    p.attr = none ∧ p.blocks = [] ∧ true ∉ p.flags := by
  have ⟨h₆₃, hflags, _⟩ := h.testBit_mask
  have hclear : true ∉ p.flags := by
    rw [← ofFlags_eq_zero, ← hflags, hzero]
    exact Nat.eq_of_testBit_eq fun i => by simp
  refine ⟨?_, ?_, hclear⟩
  · rw [hzero, Nat.zero_testBit] at h₆₃
    exact Option.not_isSome_iff_eq_none.mp <| Bool.eq_false_iff.mp h₆₃.symm
  · rw [← List.length_eq_zero_iff, ← h.count_flags]
    exact List.count_eq_zero.mpr hclear

-- What a rank sends is what rank 0 expects of it.
theorem Made.mmaContrib_eq (h : p.Made hash) : mmaContrib p.rank p.mask = .ok p.bytes := by
  obtain ⟨h₆₃, _, hbits⟩ := h.testBit_mask
  have hle := p.rank.blocks_le
  obtain ⟨attrSet, mmbSet, hp⟩ := h
  have hpa : p.attr = newAttribute hash attrSet p.rank := congrArg Plan.attr hp
  have hpf : p.flags = FirstOccurrence.flags digest mmbSet p.rank.newMetaMetaBlocks := congrArg Plan.flags hp
  have hpb : p.blocks = firsts digest mmbSet p.rank.newMetaMetaBlocks := congrArg Plan.blocks hp
  obtain ⟨a, ha, hpad⟩ := attrContrib_eq hash p.rank attrSet (hpa ▸ h₆₃)
  simp only [mmaContrib, ha, Outcome.ok_bind, Outcome.pure_eq]
  apply congrArg Except.ok
  rw [bytes, hpa, ← hpad]
  refine congrArg (padded a ++ ·) ?_
  rw [hpb, ← flatMap_flags, ← hpf]
  apply List.flatMap_range_eq_zip
  · rw [hpf, flags_length]
  · intro i b flag hb hflag
    have hi : i < 4 := (List.getElem?_eq_some_iff.mp hb).1.trans_le hle
    simp [hb, hbits i hi, hflag]

end Plan

end BP5
