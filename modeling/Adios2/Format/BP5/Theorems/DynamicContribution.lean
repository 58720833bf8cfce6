import Adios2.Format.BP5.Theorems.DynamicAggregation

-- The contributions of any size are read back where the host is big endian and no rank has too many
-- blocks for the bits of a mask.

namespace BP5

open Bytes BitMask FirstOccurrence

section Bits

variable {before rs : List NodeRecord} {r : NodeRecord} {i b : Nat}

-- The block at a position is the first with its content, in the order of the ranks and their blocks.
def FirstBlock (rs : List NodeRecord) (i b : Nat) (mmb : Digest × Nat) : Prop :=
  ∃ r, rs[i]? = some r ∧ r.mmBlocks[b]? = some mmb ∧ content mmb ∉ contents (rs.take i) ∧
    content mmb ∉ (r.mmBlocks.take b).map content

theorem getElem?_masks : (masks before rs)[i]? =
    rs[i]?.map fun r => nodeMask (before ++ rs.take i) r := by
  induction rs generalizing before i with
  | nil => simp [masks]
  | cons r rs ih =>
    cases i with
    | zero => simp [masks]
    | succ i => simp [masks, ih]

theorem allBelow_iff {n : Nat} : AllBelow n before rs ↔
    ∀ i r, rs[i]? = some r → FlagsBelow n (nodeFlags (before ++ rs.take i) r) := by
  induction rs generalizing before with
  | nil => simp [AllBelow]
  | cons r rs ih =>
    rw [AllBelow, ih]
    constructor
    · rintro ⟨hfirst, hothers⟩ (_ | i) r' hr'
      · cases hr'
        simpa using hfirst
      · simpa using hothers i r' hr'
    · intro h
      exact ⟨by simpa using h 0 r rfl, fun i r' hr' => by simpa using h (i + 1) r' hr'⟩

theorem firstBlock_iff : (∃ mmb, FirstBlock rs i b mmb) ↔
    ∃ r, rs[i]? = some r ∧ (nodeFlags (rs.take i) r)[b]? = some true := by
  simp only [FirstBlock, getElem?_nodeFlags]
  exact ⟨fun ⟨mmb, r, hr, h⟩ => ⟨r, hr, mmb, h⟩, fun ⟨r, hr, mmb, h⟩ => ⟨mmb, r, hr, h⟩⟩

theorem allBelow_iff_firstBlock {n : Nat} :
    AllBelow n [] rs ↔ ∀ i b mmb, FirstBlock rs i b mmb → b < n := by
  rw [allBelow_iff]
  constructor
  · intro h i b mmb hfirst
    have ⟨r, hr, hflag⟩ := firstBlock_iff.mp ⟨mmb, hfirst⟩
    exact h i r hr b (by simpa using hflag)
  · intro h i r hr b hflag
    have ⟨mmb, hfirst⟩ := (firstBlock_iff (b := b)).mpr ⟨r, hr, by simpa using hflag⟩
    exact h i b mmb hfirst

theorem testBit_nodeMask : (nodeMask before r).testBit b =
    (decide (b = 63 ∧ FirstAttribute before r) || (nodeFlags before r).getD b false) := by
  rw [nodeMask, Nat.testBit_lor, testBit_ofFlags]
  congr 1
  split
  case isTrue hfirst =>
    rw [MInfo.attrBit, Nat.testBit_two_pow]
    simp [hfirst, eq_comm]
  case isFalse hfirst => simp [hfirst]

theorem getD_eq_true {fs : List Bool} : fs.getD b false = true ↔ fs[b]? = some true := by
  rw [List.getD_eq_getElem?_getD]
  cases fs[b]? <;> simp

end Bits

section ReadBack

variable {host : Endian} {cs : List Contribution}

def records (cs : List Contribution) : List NodeRecord :=
  cs.map Contribution.record

-- No block needs the bit of the attributes or one behind it, and where that bit is set no block is
-- at its position.
structure BitsSuffice (rs : List NodeRecord) : Prop where
  blocks     : ∀ i k mmb, FirstBlock rs i k mmb → k < 63
  attributes : ∀ i r, rs[i]? = some r → FirstAttribute (rs.take i) r → r.mmBlocks.length ≤ 63

-- What rank 0 is to make of the contributions.
structure ReadBack (cs : List Contribution) (length : Nat) (b : Breakdown) : Prop where
  records             : b.records = records cs
  pos                 : b.pos = length
  attrSizes           : b.info.attrSizes = cs.map (·.attrSize)
  metaEncodeSize      : b.info.metaEncodeSize = cs.map (·.metaEncodeSize)
  writerDataPositions : b.info.writerDataPositions = cs.map (·.writerDataPosition)
  masks               : b.info.bcastInfo.length = cs.length
  blockBit            : ∀ i m r, b.info.bcastInfo[i]? = some m → (BP5.records cs)[i]? = some r →
    ∀ k < r.mmBlocks.length, m.testBit k = true ↔ ∃ mmb, FirstBlock (BP5.records cs) i k mmb
  attrBit             : ∀ i m r, b.info.bcastInfo[i]? = some m → (BP5.records cs)[i]? = some r →
    (m.testBit 63 = true ↔ FirstAttribute ((BP5.records cs).take i) r)
  apart               : ∀ i k mmb, FirstBlock (BP5.records cs) i k mmb → k ≠ 63

def DynamicContribution (host : Endian) (cs : List Contribution) : Prop :=
  ∃ contribs b, cs.mapM (buildNodeContrib host) = .ok contribs ∧
    breakdownIncomingMInfo host contribs.flatten (contribs.map List.length) [] [] = .ok b ∧
      ReadBack cs contribs.flatten.length b

-- All numbers and digests of a contribution are the same from both ends.
structure Contribution.Palindrome (c : Contribution) : Prop where
  count  : swapped c.mmBlocks.length = c.mmBlocks.length
  record : c.record.seen .little = c.record

theorem record_seen_big (c : Contribution) : c.record.seen .big = c.record := by
  have hblock : ∀ mmb, seenBlock .big mmb = mmb := fun _ => rfl
  simp [NodeRecord.seen, seenBytes, seenNumber, funext hblock]

theorem mapM_buildNodeContrib {contribs : List (List Byte)} :
    cs.mapM (buildNodeContrib host) = .ok contribs ↔
      (∀ c ∈ cs, c.Fits) ∧ contribs = cs.map (encodeNode host) := by
  rw [Outcome.mapM_eq_ok_iff]
  constructor
  · intro h
    induction h with
    | nil => simp
    | cons hc _ ih =>
      have ⟨hfits, heq⟩ := buildNodeContrib_eq_ok.mp hc
      rw [List.forall_mem_cons, List.map_cons, ih.right, heq]
      exact ⟨⟨hfits, ih.left⟩, rfl⟩
  · rintro ⟨hfits, rfl⟩
    rw [List.forall₂_map_right_iff, List.forall₂_same]
    exact fun c hc => buildNodeContrib_eq_ok.mpr ⟨hfits c hc, rfl⟩

-- The whole buffer, from empty vectors or from those of an earlier pass.
theorem breakdown_spec (host : Endian) (hfits : ∀ c ∈ cs, c.Fits) (mmbSizes : List Nat) (mmbIDs : List Digest) :
    ((∃ b, breakdownIncomingMInfo host (cs.map (encodeNode host)).flatten
        ((cs.map (encodeNode host)).map List.length) mmbSizes mmbIDs = .ok b) ↔
      CountsKept host cs ∧ AllBelow 64 [] (seenRecords host cs)) ∧
    ∀ b, breakdownIncomingMInfo host (cs.map (encodeNode host)).flatten
        ((cs.map (encodeNode host)).map List.length) mmbSizes mmbIDs = .ok b →
      b.records = seenRecords host cs ∧ b.pos = (cs.map (encodeNode host)).flatten.length ∧
        MInfo.AddsAll [] (seenRecords host cs) { mmbSizes, mmbIDs } b.info := by
  have hknows : ({ mmbSizes, mmbIDs } : MInfo).Knows [] :=
    ⟨by simp [contents], by simp⟩
  have hspec := breakdownNodes_spec (b := { info := { mmbSizes, mmbIDs } }) hfits
    (within_self (cs.flatMap (encodeNode host))) hknows
  simpa [breakdownIncomingMInfo, List.flatMap_def, List.map_map, Function.comp_def] using hspec

theorem seenRecords_eq (h : ∀ c ∈ cs, c.record.seen host = c.record) :
    seenRecords host cs = records cs :=
  List.map_congr_left h

theorem DynamicContribution.palindrome (h : DynamicContribution .little cs) :
    ∀ c ∈ cs, c.Palindrome := by
  obtain ⟨contribs, b, hcontribs, hb, hread⟩ := h
  obtain ⟨hfits, rfl⟩ := mapM_buildNodeContrib.mp hcontribs
  have ⟨hok, hspec⟩ := breakdown_spec .little hfits [] []
  have ⟨hkept, _⟩ := hok.mp ⟨b, hb⟩
  have hrecords : seenRecords .little cs = records cs := (hspec b hb).left.symm.trans hread.records
  exact fun c hc => ⟨hkept c hc, List.map_inj_left.mp hrecords c hc⟩

theorem masks_length (before rs : List NodeRecord) : (masks before rs).length = rs.length := by
  induction rs generalizing before with
  | nil => rfl
  | cons r rs ih => rw [masks, List.length_cons, ih, List.length_cons]

-- What is read back and made of it is right as soon as nothing is changed by the reading.
theorem dynamicContribution_of_seen (hseen : seenRecords host cs = records cs)
    (hkept : CountsKept host cs) (hfits : ∀ c ∈ cs, c.Fits) :
    DynamicContribution host cs ↔ BitsSuffice (records cs) := by
  have ⟨hok, hspec⟩ := breakdown_spec host hfits [] []
  rw [hseen] at hok hspec
  have hmask : ∀ b, MInfo.AddsAll [] (records cs) {} b → ∀ i m r, b.bcastInfo[i]? = some m →
      (records cs)[i]? = some r → m = nodeMask ((records cs).take i) r := by
    intro b hadds i m r hm hr
    rw [hadds.bcastInfo, List.nil_append, getElem?_masks, hr] at hm
    simpa using hm.symm
  constructor
  · rintro ⟨contribs, b, hcontribs, hb, hread⟩
    obtain ⟨_, rfl⟩ := mapM_buildNodeContrib.mp hcontribs
    have ⟨_, hbelow⟩ := hok.mp ⟨b, hb⟩
    have hblocks : ∀ i k mmb, FirstBlock (records cs) i k mmb → k < 63 := fun i k mmb hfirst => by
      have hlt := allBelow_iff_firstBlock.mp hbelow i k mmb hfirst
      have hne := hread.apart i k mmb hfirst
      omega
    refine ⟨hblocks, fun i r hr hattr => ?_⟩
    have ⟨_, _, hadds⟩ := hspec b hb
    have hm : b.info.bcastInfo[i]? = some (nodeMask ((records cs).take i) r) := by
      rw [hadds.bcastInfo, List.nil_append, getElem?_masks, hr]
      rfl
    by_contra hmany
    have hbit := (hread.attrBit i _ r hm hr).mpr hattr
    have ⟨mmb, hfirst⟩ := (hread.blockBit i _ r hm hr 63 (by omega)).mp hbit
    exact absurd (hblocks i 63 mmb hfirst) (by decide)
  · intro ⟨hfirst, hattrs⟩
    obtain ⟨b, hb⟩ := hok.mpr ⟨hkept, allBelow_iff_firstBlock.mpr fun i k mmb h => by
      have := hfirst i k mmb h
      omega⟩
    have ⟨hrecords, hpos, hadds⟩ := hspec b hb
    have hmask := hmask b.info hadds
    have hclear : ∀ i r, (records cs)[i]? = some r →
        (nodeFlags ((records cs).take i) r)[63]? ≠ some true := fun i r hr hflag => by
      have ⟨mmb, h⟩ := firstBlock_iff.mpr ⟨r, hr, hflag⟩
      exact absurd (hfirst i 63 mmb h) (by decide)
    refine ⟨_, b, mapM_buildNodeContrib.mpr ⟨hfits, rfl⟩, hb, hrecords, hpos, ?_, ?_, ?_, ?_, ?_, ?_,
      fun i k mmb h => (hfirst i k mmb h).ne⟩
    · rw [hadds.attrSizes, records, List.map_map]
      rfl
    · rw [hadds.metaEncodeSize, records, List.map_map]
      rfl
    · rw [hadds.writerDataPositions, records, List.map_map]
      rfl
    · rw [hadds.bcastInfo, List.nil_append, masks_length, records, List.length_map]
    · intro i m r hm hr k hk
      rw [hmask i m r hm hr, testBit_nodeMask, Bool.or_eq_true, getD_eq_true, firstBlock_iff]
      have hattr : ¬(k = 63 ∧ FirstAttribute ((records cs).take i) r) := fun ⟨heq, hattr⟩ => by
        have := hattrs i r hr hattr
        omega
      simp [hr, hattr]
    · intro i m r hm hr
      rw [hmask i m r hm hr, testBit_nodeMask, Bool.or_eq_true, getD_eq_true]
      simp [hclear i r hr]

theorem dynamicContribution (host : Endian) (cs : List Contribution) : DynamicContribution host cs ↔
    (∀ c ∈ cs, c.Fits) ∧ (host = .little → ∀ c ∈ cs, c.Palindrome) ∧ BitsSuffice (records cs) := by
  have hsame : (host = .little → ∀ c ∈ cs, c.Palindrome) →
      seenRecords host cs = records cs ∧ CountsKept host cs := fun hpal => by
    cases host with
    | little =>
      exact ⟨seenRecords_eq fun c hc => (hpal rfl c hc).record, fun c hc => (hpal rfl c hc).count⟩
    | big => exact ⟨seenRecords_eq fun c _ => record_seen_big c, fun _ _ => rfl⟩
  constructor
  · intro h
    have ⟨_, _, hcontribs, _⟩ := h
    have hfits := (mapM_buildNodeContrib.mp hcontribs).left
    have hpal : host = .little → ∀ c ∈ cs, c.Palindrome := fun heq => by
      subst heq
      exact h.palindrome
    have ⟨hseen, hkept⟩ := hsame hpal
    exact ⟨hfits, hpal, (dynamicContribution_of_seen hseen hkept hfits).mp h⟩
  · rintro ⟨hfits, hpal, hbits⟩
    have ⟨hseen, hkept⟩ := hsame hpal
    exact (dynamicContribution_of_seen hseen hkept hfits).mpr hbits

end ReadBack

section Example

-- A rank with five blocks of which each has a body of one byte.
def fiveBlocks : Contribution where
  attrHash              := .replicate 16 0
  attrSize              := 0
  mmBlocks              := (List.range 5).map fun i =>
    { metaMetaInfo := [7], metaMetaID := [2, 0, 0, 12, 1, 1, 1, 1, 0, 0, 0, UInt8.ofNat i] }
  metaEncodeSize        := 0
  writerDataPosition    := 0
  attrHash_length       := replicate_digest
  attrSize_lt           := zero_lt_two_pow_64
  mmBlocks_lt           := by decide
  info_lt               := by decide
  metaEncodeSize_lt     := zero_lt_two_pow_64
  writerDataPosition_lt := zero_lt_two_pow_64

theorem not_dynamicContribution_fiveBlocks : ¬DynamicContribution .little [fiveBlocks] := by
  intro h
  have hcount := (h.palindrome fiveBlocks (List.mem_singleton_self _)).count
  exact absurd hcount (by decide)

end Example

end BP5
