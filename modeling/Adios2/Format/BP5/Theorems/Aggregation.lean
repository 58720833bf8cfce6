import Adios2.Format.BP5.Theorems.AggregationPlan

-- The exchange of `BP5AggregateInformation` ends with the first occurrences of all blocks, if no
-- rank has a new block behind one that is not.

namespace BP5

open Bytes BitMask FirstOccurrence MetaMetaInfoBlock

variable {hash : List Byte → Digest}

-- No flag is set behind one that is not.
def Leading (flags : List Bool) : Prop :=
  flags.Pairwise fun before after => after = true → before = true

instance (flags : List Bool) : Decidable (Leading flags) :=
  inferInstanceAs (Decidable (List.Pairwise _ _))

namespace Leading

variable {flags : List Bool}

theorem cons_true : Leading (true :: flags) ↔ Leading flags := by
  simp [Leading]

theorem cons_false : Leading (false :: flags) ↔ true ∉ flags := by
  constructor
  · intro h hmem
    have := List.rel_of_pairwise_cons h hmem rfl
    contradiction
  · intro h
    apply List.Pairwise.cons
    · intro b hb hb'
      exact absurd (hb' ▸ hb) h
    · exact List.pairwise_of_forall_mem_list fun _ _ b hb hb' => absurd (hb' ▸ hb) h

end Leading

namespace MData

variable {info : MInfo} {incomingMMA : List Byte} {d d' : MData} {fuel : Nat}

def addBlocks (d : MData) (bs : List MetaMetaInfoBlock) : MData := { d with
  pos               := d.pos + (bs.map size).sum
  newMetaMetaBlocks := d.newMetaMetaBlocks ++ bs.map MetaMetaInfoBlock.padded
}

def addPlan (d : MData) (p : Plan) : MData where
  pos                    := d.pos + p.bytes.length
  newMetaMetaBlocks      := d.newMetaMetaBlocks ++ p.blocks.map MetaMetaInfoBlock.padded
  attributeEncodeBuffers := d.attributeEncodeBuffers ++ p.attr.toList

-- The next blocks that rank 0 will find are these.
structure Expects (info : MInfo) (d : MData) (bs : List MetaMetaInfoBlock) : Prop where
  wellFormed : ∀ b ∈ bs, b.WellFormed
  sizes      : info.mmbSizes.drop d.newMetaMetaBlocks.length = bs.map size
  ids        : info.mmbIDs.drop d.newMetaMetaBlocks.length = bs.map digest

theorem Expects.of_cons {b : MetaMetaInfoBlock} {bs : List MetaMetaInfoBlock}
    (h : Expects info d (b :: bs)) : Expects info (d.addBlocks [b]) bs where
  wellFormed := fun b hb => h.wellFormed b (List.mem_cons_of_mem _ hb)
  sizes := by
    have := h.sizes
    simp only [addBlocks, List.map_cons, List.length_append, List.length_cons] at this ⊢
    rw [List.map_nil, List.length_nil, ← List.drop_drop, this]
    rfl
  ids := by
    have := h.ids
    simp only [addBlocks, List.map_cons, List.length_append, List.length_cons] at this ⊢
    rw [List.map_nil, List.length_nil, ← List.drop_drop, this]
    rfl

theorem takeBlock_eq {b : MetaMetaInfoBlock} {bs : List MetaMetaInfoBlock}
    (h : Expects info d (b :: bs)) (hbuf : Holds incomingMMA d.pos (padded b.metaMetaInfo)) :
    d.takeBlock info incomingMMA = .ok (d.addBlocks [b]) := by
  have hsize : info.mmbSizes[d.newMetaMetaBlocks.length]? = some b.size := by
    rw [← List.head?_drop, h.sizes]
    rfl
  have hid : info.mmbIDs[d.newMetaMetaBlocks.length]? = some b.digest := by
    rw [← List.head?_drop, h.ids]
    rfl
  have hwf := h.wellFormed b List.mem_cons_self
  have hlen : b.size = (padded b.metaMetaInfo).length := by
    rw [padded_length]
    rfl
  have hread := readBytes_of_holds hbuf <| List.ne_nil_of_length_pos <| by
    have := hwf.size_ne
    omega
  rw [← hlen] at hread
  have hidLen : formatIDLen b.digest = .ok b.metaMetaID.length := hwf.id_len
  simp only [takeBlock, hsize, hid, hread, hidLen, Option.orUndefined_some, Outcome.ok_bind,
    Outcome.pure_eq, WellFormed.digest_take]
  simp [addBlocks, MetaMetaInfoBlock.padded]

-- The loop stays where it is at a bit that is clear.
theorem takeBlocks_stuck (fuel : Nat) {mask b : Nat} (hne : mask ≠ 0)
    (hbit : mask.testBit b = false) :
    d.takeBlocks info incomingMMA fuel mask b = .error .outOfFuel := by
  induction fuel with
  | zero => rfl
  | succ fuel ih =>
    rw [takeBlocks, if_neg hne, hbit]
    exact ih

theorem takeBlocks_done {flags : List Bool} (hflags : true ∉ flags) (b : Nat) :
    d.takeBlocks info incomingMMA fuel (2 ^ b * ofFlags flags) b = .ok d' ↔ 0 < fuel ∧ d' = d := by
  rw [ofFlags_eq_zero.mpr hflags, Nat.mul_zero]
  cases fuel with
  | zero => simp [takeBlocks]
  | succ fuel => simp [takeBlocks, eq_comm]

theorem addBlocks_nil : d.addBlocks [] = d := by
  simp [addBlocks]

theorem addBlocks_cons (b : MetaMetaInfoBlock) (bs : List MetaMetaInfoBlock) :
    (d.addBlocks [b]).addBlocks bs = d.addBlocks (b :: bs) := by
  simp [addBlocks, Nat.add_assoc]

-- The loop over the bits of a mask from one of them on. Where the flags are not leading, it stays
-- forever at the first that is clear.
theorem takeBlocks_flags {flags : List Bool} {bs rest : List MetaMetaInfoBlock}
    (hbs : flags.count true = bs.length) (h : Expects info d (bs ++ rest))
    (hbuf : Holds incomingMMA d.pos (bs.flatMap fun b => padded b.metaMetaInfo)) (b : Nat) :
    d.takeBlocks info incomingMMA fuel (2 ^ b * ofFlags flags) b = .ok d' ↔
      Leading flags ∧ bs.length < fuel ∧ d' = d.addBlocks bs := by
  induction flags generalizing d bs b fuel with
  | nil =>
    obtain rfl : bs = [] := List.length_eq_zero_iff.mp hbs.symm
    rw [takeBlocks_done List.not_mem_nil, addBlocks_nil]
    exact (and_iff_right List.Pairwise.nil).symm
  | cons flag flags ih =>
    cases flag with
    | false =>
      by_cases hflags : true ∈ flags
      case pos =>
        have hne : ofFlags (false :: flags) ≠ 0 := by
          rw [Ne, ofFlags_eq_zero, not_not]
          exact List.mem_cons_of_mem _ hflags
        rw [takeBlocks_stuck fuel (by positivity) (testBit_ofFlags_shift b false flags),
          Leading.cons_false]
        simp [hflags]
      case neg =>
        have hmem : true ∉ false :: flags := by simp [hflags]
        have hcount := List.count_eq_zero.mpr hmem
        obtain rfl : bs = [] := List.length_eq_zero_iff.mp (hbs.symm.trans hcount)
        rw [takeBlocks_done hmem, addBlocks_nil, Leading.cons_false]
        exact (and_iff_right hflags).symm
    | true =>
      rw [List.count_cons_self] at hbs
      obtain ⟨b₀, bs, rfl⟩ := List.exists_cons_of_length_eq_add_one hbs.symm
      rw [List.flatMap_cons, holds_append] at hbuf
      have hpos : d.pos + (padded b₀.metaMetaInfo).length = (d.addBlocks [b₀]).pos := by
        simp [addBlocks, MetaMetaInfoBlock.size]
      have hbit := testBit_ofFlags_shift b true flags
      have hne : 2 ^ b * ofFlags (true :: flags) ≠ 0 := by
        intro hzero
        rw [hzero, Nat.zero_testBit] at hbit
        contradiction
      rw [Leading.cons_true]
      cases fuel with
      | zero => simp [takeBlocks]
      | succ fuel =>
        rw [takeBlocks, if_neg hne, if_pos hbit, takeBlock_eq h hbuf.1, Outcome.ok_bind,
          ldiff_ofFlags_true, ih (Nat.succ.inj hbs) h.of_cons (hpos ▸ hbuf.2), addBlocks_cons,
          List.length_cons, Nat.add_lt_add_iff_right]

theorem Expects.of_blocks {bs rest : List MetaMetaInfoBlock} (h : Expects info d (bs ++ rest)) :
    Expects info (d.addBlocks bs) rest := by
  induction bs generalizing d with
  | nil => simpa [addBlocks_nil] using h
  | cons b bs ih =>
    rw [← addBlocks_cons b bs]
    exact ih h.of_cons

variable {p : Plan} {rest : List MetaMetaInfoBlock}

theorem takeAttribute_eq (hp : p.Made hash) (hbuf : Holds incomingMMA d.pos (p.attr.getD [])) :
    d.takeAttribute incomingMMA p.mask p.attrSize = .ok { d with
      pos                    := d.pos + (p.attr.getD []).length
      attributeEncodeBuffers := d.attributeEncodeBuffers ++ p.attr.toList
    } := by
  have hbit := hp.testBit_mask.1
  cases ha : p.attr with
  | none =>
    rw [takeAttribute, hbit, ha]
    simp
  | some a =>
    have ⟨hsize, hne⟩ := hp.attr_length a ha
    rw [ha] at hbuf
    have hread := readBytes_of_holds hbuf hne
    rw [Option.getD_some, ← hsize] at hread
    rw [takeAttribute, hbit, ha, Option.isSome_some, if_pos rfl, hread]
    simp [hsize]

-- One node.
theorem node_plan (hp : p.Made hash) (h : Expects info d (p.blocks ++ rest))
    (hbuf : Holds incomingMMA d.pos p.bytes) :
    d.node info incomingMMA fuel p.mask p.attrSize (d.pos + p.bytes.length) = .ok d' ↔
      Leading p.flags ∧ p.blocks.length < fuel ∧ d' = d.addPlan p := by
  have ⟨hattr, hblocks⟩ := holds_append.mp hbuf
  have ⟨_, hmask, _⟩ := hp.testBit_mask
  let d₀ : MData := { d with
    pos                    := d.pos + (p.attr.getD []).length
    attributeEncodeBuffers := d.attributeEncodeBuffers ++ p.attr.toList
  }
  have hadd : d₀.addBlocks p.blocks = d.addPlan p := by
    simp [d₀, addBlocks, addPlan, Plan.bytes, ← blocks_bytes_length, Nat.add_assoc]
  have hexpects : Expects info d₀ (p.blocks ++ rest) := ⟨h.wellFormed, h.sizes, h.ids⟩
  have hloop (d' : MData) : d₀.takeBlocks info incomingMMA fuel (ofFlags p.flags) 0 = .ok d' ↔
      Leading p.flags ∧ p.blocks.length < fuel ∧ d' = d.addPlan p := by
    rw [← hadd, ← takeBlocks_flags hp.count_flags hexpects hblocks 0, pow_zero, Nat.one_mul]
  have hattr : d.takeAttribute incomingMMA p.mask p.attrSize = .ok d₀ := takeAttribute_eq hp hattr
  simp only [node, hattr, Outcome.ok_bind, hmask, Outcome.bind_eq_ok, hloop]
  constructor
  · rintro ⟨d₁, ⟨hflags, hfuel, rfl⟩, hsum⟩
    simp only [addPlan, ne_eq, not_true, if_false, Outcome.pure_eq, Except.ok.injEq] at hsum
    exact ⟨hflags, hfuel, hsum.symm⟩
  · rintro ⟨hflags, hfuel, rfl⟩
    exact ⟨d.addPlan p, ⟨hflags, hfuel, rfl⟩, if_neg (not_not.mpr rfl)⟩

theorem nodes_plans {ps : List Plan} (hps : ∀ p ∈ ps, p.Made hash)
    (h : Expects info d (ps.flatMap Plan.blocks))
    (hbuf : Holds incomingMMA d.pos (ps.flatMap Plan.bytes)) :
    d.nodes info incomingMMA fuel (ps.map (·.bytes.length)) (ps.map Plan.mask)
      (ps.map Plan.attrSize) d.pos = .ok d' ↔
      (∀ p ∈ ps, Leading p.flags ∧ p.blocks.length < fuel) ∧ d' = ps.foldl addPlan d := by
  induction ps generalizing d with
  | nil => simp [nodes, eq_comm]
  | cons p ps ih =>
    rw [List.flatMap_cons] at h
    rw [List.flatMap_cons, holds_append] at hbuf
    have hp := hps p List.mem_cons_self
    have hps (p : Plan) (hp : p ∈ ps) := hps p (List.mem_cons_of_mem _ hp)
    have hnext : Expects info (d.addPlan p) (ps.flatMap Plan.blocks) := by
      have h := h.of_blocks
      exact ⟨h.wellFormed, h.sizes, h.ids⟩
    have ih := ih hps hnext hbuf.2
    rw [List.map_cons, List.map_cons, List.map_cons, nodes, Outcome.bind_eq_ok,
      List.forall_mem_cons, List.foldl_cons]
    simp only [node_plan hp h hbuf.1]
    constructor
    · rintro ⟨_, ⟨hflags, hfuel, rfl⟩, hnodes⟩
      have ⟨hall, hd⟩ := ih.mp hnodes
      exact ⟨⟨⟨hflags, hfuel⟩, hall⟩, hd⟩
    · rintro ⟨⟨⟨hflags, hfuel⟩, hall⟩, hd⟩
      exact ⟨d.addPlan p, ⟨hflags, hfuel, rfl⟩, ih.mpr ⟨hall, hd⟩⟩

end MData

section Plans

-- The plans of all ranks together are the first occurrences.

variable {attrSet mmbSet : List Digest} {ranks : List RankInfo}

def allBlocks (ranks : List RankInfo) : List MetaMetaInfoBlock :=
  ranks.flatMap (·.newMetaMetaBlocks)

-- The attribute blocks as they are sent.
def allAttributes (ranks : List RankInfo) : List (List Byte) :=
  ranks.filterMap (·.attributeEncodeBuffer.map padded)

theorem allBlocks_cons (r : RankInfo) :
    allBlocks (r :: ranks) = r.newMetaMetaBlocks ++ allBlocks ranks :=
  List.flatMap_cons

theorem allAttributes_cons (r : RankInfo) :
    allAttributes (r :: ranks)
      = (r.attributeEncodeBuffer.map padded).toList ++ allAttributes ranks := by
  rw [allAttributes, List.filterMap_cons]
  cases r.attributeEncodeBuffer <;> rfl

theorem plans_rank : (plans hash attrSet mmbSet ranks).map Plan.rank = ranks := by
  induction ranks generalizing attrSet mmbSet with
  | nil => rfl
  | cons r ranks ih =>
    rw [plans, List.map_cons, ih]
    rfl

theorem plans_blocks :
    (plans hash attrSet mmbSet ranks).flatMap Plan.blocks
      = firsts digest mmbSet (allBlocks ranks) := by
  induction ranks generalizing attrSet mmbSet with
  | nil => rfl
  | cons r ranks ih =>
    rw [plans, List.flatMap_cons, ih, allBlocks_cons, firsts_append]
    rfl

theorem plans_attr :
    (plans hash attrSet mmbSet ranks).flatMap (·.attr.toList)
      = firsts hash attrSet (allAttributes ranks) := by
  induction ranks generalizing attrSet mmbSet with
  | nil => rfl
  | cons r ranks ih =>
    rw [plans, List.flatMap_cons, ih, allAttributes_cons]
    simp only [planOf, attrSetAfter, newAttribute]
    cases r.attributeEncodeBuffer with
    | none => rfl
    | some a =>
      by_cases hseen : hash (padded a) ∈ attrSet <;> simp [Option.filter_some, firsts, hseen]

theorem plans_flags {property : List Bool → Prop} :
    (∀ p ∈ plans hash attrSet mmbSet ranks, property p.flags) ↔
      ∀ before r after, ranks = before ++ r :: after →
        property (flags digest (seenAfter digest mmbSet (allBlocks before)) r.newMetaMetaBlocks) := by
  induction ranks generalizing attrSet mmbSet with
  | nil => simp [plans]
  | cons r₀ ranks ih =>
    rw [plans, List.forall_mem_cons, ih]
    constructor
    · rintro ⟨hfirst, hrest⟩ before r after heq
      cases before with
      | nil =>
        obtain ⟨rfl, rfl⟩ := List.cons.inj heq
        exact hfirst
      | cons r₁ before =>
        obtain ⟨rfl, rfl⟩ := List.cons.inj heq
        have := hrest before r after rfl
        rwa [← seenAfter_append, ← allBlocks_cons] at this
    · intro h
      refine ⟨h [] r₀ ranks rfl, fun before r after heq => ?_⟩
      have := h (r₀ :: before) r after (congrArg (r₀ :: ·) heq)
      rwa [allBlocks_cons, seenAfter_append] at this

end Plans

-- What rank 0 ends with when everything goes as planned.
def aggregated (ps : List Plan) : AggregatedInfo where
  newMetaMetaBlocks      := (ps.flatMap Plan.blocks).map MetaMetaInfoBlock.padded
  attributeEncodeBuffers := ps.flatMap (·.attr.toList)
  metaEncodeSize         := ps.map (·.rank.metaEncodeSize)
  writerDataPositions    := ps.map (·.rank.writerDataPosition)

theorem foldl_addPlan_fresh (ps : List Plan) :
    (ps.foldl MData.addPlan {}).newMetaMetaBlocks
      = (ps.flatMap Plan.blocks).map MetaMetaInfoBlock.padded ∧
    (ps.foldl MData.addPlan {}).attributeEncodeBuffers = ps.flatMap (·.attr.toList) := by
  constructor
  · have hstep (d : MData) (p : Plan) : (d.addPlan p).newMetaMetaBlocks
        = d.newMetaMetaBlocks ++ p.blocks.map MetaMetaInfoBlock.padded := rfl
    rw [List.foldl_eq_append_flatMap hstep, List.map_flatMap]
    rfl
  · have hstep (d : MData) (p : Plan) : (d.addPlan p).attributeEncodeBuffers
        = d.attributeEncodeBuffers ++ p.attr.toList := rfl
    rw [List.foldl_eq_append_flatMap hstep]
    rfl

-- Rank 0 has nothing either if nobody has anything new.
theorem aggregated_of_masks {r : RankInfo} {ranks : List RankInfo}
    (hmasks : ∀ p ∈ plans hash [] [] (r :: ranks), p.mask = 0) :
    aggregated (plans hash [] [] (r :: ranks)) = {
      newMetaMetaBlocks      := r.newMetaMetaBlocks
      attributeEncodeBuffers := r.attributeEncodeBuffer.toList
      metaEncodeSize         := (plans hash [] [] (r :: ranks)).map (·.rank.metaEncodeSize)
      writerDataPositions    := (plans hash [] [] (r :: ranks)).map (·.rank.writerDataPosition)
    } := by
  have hzero {p : Plan} (hp : p ∈ plans hash [] [] (r :: ranks)) :=
    (plans_made p hp).of_mask_eq_zero (hmasks p hp)
  have ⟨hattr, hblocks, _⟩ := hzero List.mem_cons_self
  have hroot : r.newMetaMetaBlocks = [] := by
    cases hr : r.newMetaMetaBlocks with
    | nil => rfl
    | cons b bs => simp [planOf, hr, firsts] at hblocks
  have hroot' : r.attributeEncodeBuffer = none := by
    cases ha : r.attributeEncodeBuffer with
    | none => rfl
    | some a => simp [planOf, newAttribute, ha] at hattr
  have hnoBlocks : (plans hash [] [] (r :: ranks)).flatMap Plan.blocks = [] :=
    List.flatMap_eq_nil_iff.mpr fun p hp => (hzero hp).2.1
  have hnoAttr : (plans hash [] [] (r :: ranks)).flatMap (·.attr.toList) = [] :=
    List.flatMap_eq_nil_iff.mpr fun p hp => by rw [(hzero hp).1, Option.toList_none]
  rw [aggregated, hnoBlocks, hnoAttr, hroot, hroot']
  rfl

-- The gather delivers what rank 0 takes apart.
theorem mmaContribs_eq {ps : List Plan} (hmade : ∀ p ∈ ps, p.Made hash) :
    ((ps.map Plan.rank).zip (ps.map Plan.mask)).mapM (fun (r, mask) => mmaContrib r mask)
      = .ok (ps.map Plan.bytes) := by
  have hzip : (ps.map Plan.rank).zip (ps.map Plan.mask) = ps.map fun p => (p.rank, p.mask) := by
    simp [List.zip_map']
  rw [hzip, List.mapM_map]
  exact Outcome.mapM_eq_ok fun p hp => (hmade p hp).mmaContrib_eq

theorem breakdownIncoming_eq {ps : List Plan} {info : MInfo} {fuel : Nat} {d : MData}
    (hmade : ∀ p ∈ ps, p.Made hash) (hof : info.Of ps) :
    breakdownIncomingMData fuel info (ps.flatMap Plan.bytes) = .ok d ↔
      (∀ p ∈ ps, Leading p.flags ∧ p.blocks.length < fuel) ∧ d = ps.foldl MData.addPlan {} := by
  have hexpects : MData.Expects info {} (ps.flatMap Plan.blocks) := {
    wellFormed := fun b hb => by
      obtain ⟨p, hp, hb⟩ := List.mem_flatMap.mp hb
      exact (hmade p hp).wellFormed b hb
    sizes      := hof.mmbSizes
    ids        := hof.mmbIDs
  }
  rw [← MData.nodes_plans hmade hexpects (holds_self _), breakdownIncomingMData,
    hof.secondRecvCounts, hof.bcastInfo, hof.attrSizes]

-- The whole exchange, as far as the loop over the bits of a mask lets it come.
theorem exchange_eq {ranks : List RankInfo} (hne : ranks ≠ []) {fuel : Nat}
    {result : AggregatedInfo} :
    bp5AggregateInformation hash fuel ranks = .ok result ↔
      (∀ p ∈ plans hash [] [] ranks, Leading p.flags ∧
        ((∃ p ∈ plans hash [] [] ranks, p.mask ≠ 0) → p.blocks.length < fuel)) ∧
      result = aggregated (plans hash [] [] ranks) := by
  obtain ⟨r, ranks, rfl⟩ := List.exists_cons_of_ne_nil hne
  have hinfo := breakdownFixed_eq hash (r :: ranks) {}
  have hof := foldl_addPlan hash (plans hash [] [] (r :: ranks))
  have hrank : (plans hash [] [] (r :: ranks)).map Plan.rank = r :: ranks := plans_rank
  have hmade : ∀ p ∈ plans hash [] [] (r :: ranks), p.Made hash := plans_made
  have hmasks := @aggregated_of_masks hash r ranks
  generalize plans hash [] [] (r :: ranks) = ps at *
  generalize hinfo' : ps.foldl (MInfo.addPlan hash) {} = info at *
  simp only [bp5AggregateInformation, breakdownFixedIncomingMInfo, hinfo, Option.orUndefined_some,
    Outcome.ok_bind, List.head?_cons, hof.bcastInfo, hof.metaEncodeSize, hof.writerDataPositions]
  by_cases hall : ∀ p ∈ ps, p.mask = 0
  case pos =>
    have hskip : (ps.map Plan.mask).all (· = 0) = true := by simpa using hall
    rw [if_pos hskip, hmasks hall, Outcome.pure_eq, Except.ok.injEq, eq_comm]
    refine (and_iff_right fun p hp => ⟨?_, fun ⟨p', hp', hne⟩ => absurd (hall p' hp') hne⟩).symm
    have hclear := ((hmade p hp).of_mask_eq_zero (hall p hp)).2.2
    exact List.pairwise_of_forall_mem_list fun _ _ b hb hb' => absurd (hb' ▸ hb) hclear
  case neg =>
    have hskip : ¬ (ps.map Plan.mask).all (· = 0) = true := by simpa using hall
    have hsome : ∃ p ∈ ps, p.mask ≠ 0 := by simpa using hall
    have hcounts : (ps.map Plan.bytes).map List.length = info.secondRecvCounts := by
      rw [hof.secondRecvCounts, List.map_map]
      rfl
    have ⟨hblocks, hattrs⟩ := foldl_addPlan_fresh ps
    rw [if_neg hskip, ← hrank, mmaContribs_eq hmade, Outcome.ok_bind, gathervArrays,
      if_pos hcounts, Outcome.ok_bind, ← List.flatMap_def, Outcome.bind_eq_ok]
    simp only [breakdownIncoming_eq hmade hof, Outcome.pure_eq, Except.ok.injEq]
    constructor
    · rintro ⟨d, ⟨hflags, rfl⟩, rfl⟩
      refine ⟨fun p hp => ⟨(hflags p hp).1, fun _ => (hflags p hp).2⟩, ?_⟩
      rw [hblocks, hattrs]
      rfl
    · rintro ⟨hflags, rfl⟩
      refine ⟨_, ⟨fun p hp => ⟨(hflags p hp).1, (hflags p hp).2 hsome⟩, rfl⟩, ?_⟩
      rw [hblocks, hattrs]
      rfl

-- No rank has a block that is new behind one that an earlier rank, or it itself, has had before.
def NewBlocksFirst (ranks : List RankInfo) : Prop :=
  ∀ before r after, ranks = before ++ r :: after →
    Leading (flags id (allBlocks before) r.newMetaMetaBlocks)

-- The slots of IDs tell blocks from each other if the IDs do.
theorem digest_iff {ranks : List RankInfo}
    (hids : ∀ b ∈ allBlocks ranks, ∀ b' ∈ allBlocks ranks, b.metaMetaID = b'.metaMetaID → b = b') :
    ∀ b ∈ allBlocks ranks, ∀ b' ∈ allBlocks ranks, b.digest = b'.digest ↔ id b = id b' := by
  have hwf : ∀ b ∈ allBlocks ranks, b.WellFormed := by
    intro b hb
    obtain ⟨r, -, hb⟩ := List.mem_flatMap.mp hb
    exact r.blocks_wellFormed b hb
  intro b hb b' hb'
  rw [(hwf b hb).digest_inj (hwf b' hb')]
  exact ⟨hids b hb b' hb', congrArg _⟩

theorem newBlocksFirst_iff {ranks : List RankInfo}
    (hids : ∀ b ∈ allBlocks ranks, ∀ b' ∈ allBlocks ranks, b.metaMetaID = b'.metaMetaID → b = b') :
    (∀ p ∈ plans hash [] [] ranks, Leading p.flags) ↔ NewBlocksFirst ranks := by
  rw [plans_flags]
  refine forall_congr' fun before => forall_congr' fun r => forall_congr' fun after =>
    forall_congr' fun heq => ?_
  have hsub : ∀ b ∈ allBlocks before ++ r.newMetaMetaBlocks, b ∈ allBlocks ranks := by
    intro b hb
    rw [heq, allBlocks, List.flatMap_append, List.flatMap_cons, ← List.append_assoc]
    exact List.mem_append_left _ hb
  have hseen (k : Digest) :
      k ∈ seenAfter digest [] (allBlocks before) ↔ k ∈ (allBlocks before).map digest := by
    rw [mem_seenAfter]
    simp
  have hflags : flags digest ((allBlocks before).map digest) r.newMetaMetaBlocks
      = flags id ((allBlocks before).map id) r.newMetaMetaBlocks :=
    flags_map_of_iff fun b hb b' hb' => digest_iff hids b (hsub b hb) b' (hsub b' hb')
  rw [flags_congr hseen, hflags, List.map_id]

-- The exchange ends, and with the first occurrences of all blocks, if and only if no rank has a new
-- block behind one that is not new. IDs are made from what they identify, so different blocks have
-- different IDs, and the hash is free of collisions on the blocks of the run.
theorem bp5AggregateInformation_iff {ranks : List RankInfo} (hne : ranks ≠ [])
    (hids : ∀ b ∈ allBlocks ranks, ∀ b' ∈ allBlocks ranks, b.metaMetaID = b'.metaMetaID → b = b')
    (hhash : ∀ a ∈ allAttributes ranks, ∀ a' ∈ allAttributes ranks, hash a = hash a' → a = a') :
    (∃ fuel result, bp5AggregateInformation hash fuel ranks = .ok result ∧
      result.newMetaMetaBlocks
        = (firsts id [] (allBlocks ranks)).map MetaMetaInfoBlock.padded ∧
      result.attributeEncodeBuffers = firsts id [] (allAttributes ranks)) ↔
    NewBlocksFirst ranks := by
  rw [← @newBlocksFirst_iff hash ranks hids]
  constructor
  · rintro ⟨fuel, result, hok, -⟩
    exact fun p hp => (((exchange_eq hne).mp hok).1 p hp).1
  · intro hleading
    have hblocks : firsts digest [] (allBlocks ranks) = firsts id [] (allBlocks ranks) :=
      @firsts_map_of_iff _ _ _ digest _ _ _ id [] (digest_iff hids)
    have hattrs : firsts hash [] (allAttributes ranks) = firsts id [] (allAttributes ranks) :=
      @firsts_map_of_iff _ _ _ hash _ _ _ id [] fun a ha a' ha' =>
        ⟨hhash a ha a' ha', congrArg hash⟩
    refine ⟨fixedMMBSlotCount + 1, aggregated (plans hash [] [] ranks),
      (exchange_eq hne).mpr ⟨fun p hp => ⟨hleading p hp, fun _ => ?_⟩, rfl⟩, ?_, ?_⟩
    · have hmade := plans_made p hp
      rw [← hmade.count_flags, Nat.lt_succ_iff]
      exact List.count_le_length.trans hmade.flags_length_le
    · rw [aggregated, plans_blocks, hblocks]
    · rw [aggregated, plans_attr, hattrs]

section TwoRanks

def blockA : MetaMetaInfoBlock where
  metaMetaInfo := [1, 2, 3]
  metaMetaID   := [2, 0, 0, 12, 1, 1, 1, 1, 0, 0, 0, 1]

def blockB : MetaMetaInfoBlock where
  metaMetaInfo := [4, 5, 6]
  metaMetaID   := [2, 0, 0, 12, 1, 1, 1, 1, 0, 0, 0, 2]

theorem blockA_wellFormed : blockA.WellFormed := ⟨by decide, by decide, rfl⟩

theorem blockB_wellFormed : blockB.WellFormed := ⟨by decide, by decide, rfl⟩

def rankA : RankInfo where
  newMetaMetaBlocks     := [blockA]
  attributeEncodeBuffer := some [7]
  metaEncodeSize        := 8
  writerDataPosition    := 0
  blocks_le             := by decide
  blocks_wellFormed     := by simp [blockA_wellFormed]
  attribute_ne          := by decide

def rankAB : RankInfo where
  newMetaMetaBlocks     := [blockA, blockB]
  attributeEncodeBuffer := none
  metaEncodeSize        := 8
  writerDataPosition    := 64
  blocks_le             := by decide
  blocks_wellFormed     := by simp [blockA_wellFormed, blockB_wellFormed]
  attribute_ne          := by decide

theorem bp5AggregateInformation_iff_rankAB_rankA :
    (∃ fuel result, bp5AggregateInformation id fuel [rankAB, rankA] = .ok result ∧
      result.newMetaMetaBlocks
        = (firsts id [] (allBlocks [rankAB, rankA])).map MetaMetaInfoBlock.padded ∧
      result.attributeEncodeBuffers = firsts id [] (allAttributes [rankAB, rankA])) ↔
    NewBlocksFirst [rankAB, rankA] :=
  bp5AggregateInformation_iff (by decide) (by decide) (by decide)

-- The second rank has the block of the first rank and then one of its own.
theorem bp5AggregateInformation_rankA_rankAB :
    ¬ ∃ hash fuel result, bp5AggregateInformation hash fuel [rankA, rankAB] = .ok result := by
  rintro ⟨hash, fuel, result, hok⟩
  have hleading := ((exchange_eq (by decide)).mp hok).1
  have hflags := (@plans_flags hash [] [] [rankA, rankAB] Leading).mp fun p hp => (hleading p hp).1
  have := hflags [rankA] rankAB [] rfl
  revert this
  decide

end TwoRanks

end BP5
