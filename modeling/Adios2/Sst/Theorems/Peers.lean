import Adios2.Lib.BlockPartition
import Adios2.Lib.Lists
import Adios2.Sst.Peers

namespace Sst

open BlockPartition

variable {mySize myRank peerSize i n peer : Nat}

theorem peerArray_eq_block (mySize myRank peerSize : Nat) :
    peerArray mySize myRank peerSize = block mySize peerSize myRank := by
  have hleft : peerSize - peerSize / mySize * mySize = peerSize % mySize := by
    rw [Nat.mul_comm]
    exact (Nat.mod_eq_sub_mul_div ..).symm
  have hmul : (peerSize / mySize + 1) * myRank = peerSize / mySize * myRank + myRank :=
    Nat.succ_mul ..
  rw [peerArray, hleft, block, size, start, List.range'_eq_map_range]
  by_cases h : myRank < peerSize % mySize
  case pos => simp [h, hmul, Nat.min_eq_left h.le]
  case neg => simp [h, Nat.min_eq_right (Nat.le_of_not_lt h)]

section Reverse

variable {reverse : ReversePeers} {theirPeers : List Nat}

-- Behind the first entry a rank is noted, but not as the one to be forward to.
theorem reversePeersOf_behind (h : theirPeers.Nodup) (reverse : ReversePeers) (k : Nat) :
    (theirPeers.zipIdx (k + 1)).foldl (fun (reverse : ReversePeers) (peer, j) =>
      if peer = myRank then
        { peers := reverse.peers ++ [i], forwardEntry := if j = 0 then some i else reverse.forwardEntry }
      else reverse) reverse =
    { reverse with peers := reverse.peers ++ if myRank ∈ theirPeers then [i] else [] } := by
  induction theirPeers generalizing reverse k with
  | nil => simp
  | cons first others ih =>
    have ⟨hfirst, hothers⟩ := List.nodup_cons.mp h
    rw [List.zipIdx_cons, List.foldl_cons, ih hothers]
    by_cases heq : first = myRank
    case pos => simp [← heq, hfirst]
    case neg => simp [heq, Ne.symm heq]

theorem reversePeersOf_eq (h : theirPeers.Nodup) : reversePeersOf myRank i reverse theirPeers = {
    peers        := reverse.peers ++ if myRank ∈ theirPeers then [i] else []
    forwardEntry := if theirPeers.head? = some myRank then some i else reverse.forwardEntry } := by
  cases theirPeers with
  | nil => simp [reversePeersOf]
  | cons first others =>
    have ⟨hfirst, hothers⟩ := List.nodup_cons.mp h
    rw [reversePeersOf, List.zipIdx_cons, List.foldl_cons, reversePeersOf_behind hothers]
    by_cases heq : first = myRank
    case pos => simp [← heq, hfirst]
    case neg => simp [heq, Ne.symm heq]

-- What the first opposing ranks leave.
theorem reversePeers_range (hpos : 0 < peerSize) (hle : peerSize ≤ mySize) (n : Nat) :
    let reverse := (List.range n).foldl
      (fun reverse i => reversePeersOf myRank i reverse (peerArray peerSize i mySize))
      { peers := [], forwardEntry := none }
    reverse.peers = (List.range n).filter (myRank ∈ block peerSize mySize ·) ∧
      ∀ i, reverse.forwardEntry = some i ↔ i < n ∧ start peerSize mySize i = myRank := by
  dsimp only
  induction n with
  | zero => simp
  | succ n ih =>
    have ⟨hpeers, hforward⟩ := ih
    have hsize : 0 < size peerSize mySize n := size_pos hpos hle
    have hhead := head?_block hsize
    rw [List.range_succ, List.foldl_append, List.foldl_cons, List.foldl_nil, peerArray_eq_block,
      reversePeersOf_eq nodup_block, hpeers, hhead]
    refine ⟨by by_cases h : myRank ∈ block peerSize mySize n <;> simp [h], fun i => ?_⟩
    by_cases hstart : start peerSize mySize n = myRank
    case pos =>
      have hunique : start peerSize mySize i = myRank → n = i := fun hi =>
        mem_block_unique (hstart ▸ start_mem_block (size_pos hpos hle))
          (hi ▸ start_mem_block (size_pos hpos hle))
      simp only [hstart, if_true, Option.some.injEq]
      exact ⟨fun h => h ▸ ⟨Nat.lt_succ_self _, hstart⟩, fun h => hunique h.right⟩
    case neg =>
      have hne : some (start peerSize mySize n) ≠ some myRank := by simpa using hstart
      simp only [if_neg hne, hforward]
      refine ⟨fun ⟨hlt, hi⟩ => ⟨by omega, hi⟩, fun ⟨hlt, hi⟩ => ⟨?_, hi⟩⟩
      have hin : i ≠ n := fun hin => hstart (hin ▸ hi)
      omega

-- Every rank of the larger side is a peer of one rank of the other side.
theorem reversePeerArray_peers (hpos : 0 < peerSize) (hle : peerSize ≤ mySize)
    (hrank : myRank < mySize) : ∃ i < peerSize, myRank ∈ block peerSize mySize i ∧
      (reversePeerArray mySize myRank peerSize).peers = [i] := by
  have ⟨i, hi, hmem⟩ := exists_mem_block hpos hrank
  refine ⟨i, hi, hmem, ?_⟩
  have hfilter : (List.range peerSize).filter (myRank ∈ block peerSize mySize ·) =
      (List.range peerSize).filter (· == i) :=
    List.filter_congr fun j _ => by
      simp only [beq_eq_decide]
      exact decide_eq_decide.mpr
        ⟨fun hj => mem_block_unique hj hmem, fun hj => hj ▸ hmem⟩
  rw [reversePeerArray, (reversePeers_range hpos hle peerSize).left, hfilter, List.filter_beq,
    List.count_eq_one_of_mem List.nodup_range (List.mem_range.mpr hi)]
  rfl

theorem reversePeerArray_forwardEntry (hpos : 0 < peerSize) (hle : peerSize ≤ mySize) :
    (reversePeerArray mySize myRank peerSize).forwardEntry = some i ↔
      i < peerSize ∧ start peerSize mySize i = myRank :=
  (reversePeers_range hpos hle peerSize).right i

end Reverse

section Forward

theorem forward_of_lt (h : mySize < peerSize) :
    (getPeerArrays mySize myRank peerSize).forward = block mySize peerSize myRank := by
  rw [getPeerArrays, if_pos h, peerArray_eq_block]

theorem mem_forward_of_le (hpos : 0 < peerSize) (hle : peerSize ≤ mySize) :
    peer ∈ (getPeerArrays mySize myRank peerSize).forward ↔
      peer < peerSize ∧ start peerSize mySize peer = myRank := by
  rw [getPeerArrays, if_neg (Nat.not_lt.mpr hle), Option.mem_toList,
    reversePeerArray_forwardEntry hpos hle]

theorem nodup_forward_of_le (hle : peerSize ≤ mySize) :
    (getPeerArrays mySize myRank peerSize).forward.Nodup := by
  rw [getPeerArrays, if_neg (Nat.not_lt.mpr hle)]
  dsimp only
  cases (reversePeerArray mySize myRank peerSize).forwardEntry <;> simp

-- The forward arrays of one side have every rank of the other side once.
theorem forward_perm (hsize : 0 < mySize) (hpeers : 0 < peerSize) :
    ((List.range mySize).flatMap fun myRank => (getPeerArrays mySize myRank peerSize).forward).Perm
      (List.range peerSize) := by
  by_cases h : mySize < peerSize
  case pos =>
    simp only [forward_of_lt h]
    exact .of_eq (flatMap_block hsize)
  case neg =>
    have hle := Nat.le_of_not_lt h
    have hnodup : ((List.range mySize).flatMap
        fun myRank => (getPeerArrays mySize myRank peerSize).forward).Nodup := by
      refine List.nodup_flatMap.mpr ⟨fun _ _ => nodup_forward_of_le hle,
        List.nodup_range.imp fun hne peer hpeer hpeer' => ?_⟩
      have hpeer := (mem_forward_of_le hpeers hle).mp hpeer
      have hpeer' := (mem_forward_of_le hpeers hle).mp hpeer'
      exact hne (hpeer.right.symm.trans hpeer'.right)
    refine (List.perm_ext_iff_of_nodup hnodup List.nodup_range).mpr fun peer => ?_
    simp only [List.mem_flatMap, List.mem_range, mem_forward_of_le hpeers hle]
    refine ⟨fun ⟨_, _, hpeer, _⟩ => hpeer, fun hpeer => ⟨_, ?_, hpeer, rfl⟩⟩
    exact lt_of_mem_block hpeer (start_mem_block (size_pos hpeers hle))

theorem lt_of_mem_forward (hsize : 0 < mySize) (hpeers : 0 < peerSize) (hrank : myRank < mySize)
    (h : peer ∈ (getPeerArrays mySize myRank peerSize).forward) : peer < peerSize :=
  List.mem_range.mp <| (forward_perm hsize hpeers).subset <|
    List.mem_flatMap.mpr ⟨myRank, List.mem_range.mpr hrank, h⟩

end Forward

section Sides

variable {writerSize writerRank readerSize readerRank : Nat}

-- A writer rank connects to one reader rank to notify it, which is the first that it is forward to
-- where there are several. Rank 0 connects to rank 0.
theorem exists_reverse (hw : 0 < writerSize) (hr : 0 < readerSize) (hrank : writerRank < writerSize) :
    ∃ reader < readerSize, (getPeerArrays writerSize writerRank readerSize).reverse = [reader] ∧
      (writerRank = 0 → reader = 0) := by
  by_cases h : writerSize < readerSize
  case pos =>
    have hsize : 0 < size writerSize readerSize writerRank := size_pos hw h.le
    have ⟨rest, hrest⟩ := block_eq_cons hsize
    refine ⟨_, lt_of_mem_block hrank (start_mem_block hsize), ?_, fun hzero => ?_⟩
    · rw [getPeerArrays, if_pos h, peerArray_eq_block, hrest]
      rfl
    · rw [hzero, start_zero]
  case neg =>
    have hle := Nat.le_of_not_lt h
    have ⟨i, hi, hmem, hpeers⟩ := reversePeerArray_peers hr hle hrank
    refine ⟨i, hi, ?_, fun hzero => ?_⟩
    · rw [getPeerArrays, if_neg h]
      exact hpeers
    · have hfirst : 0 ∈ block readerSize writerSize 0 := by
        have hsize : 0 < size readerSize writerSize 0 := size_pos hr hle
        have hstart := start_mem_block hsize
        rwa [start_zero] at hstart
      exact mem_block_unique (hzero ▸ hmem) hfirst

-- The two constructions fit: a reader rank is forward to those writer ranks that notify it.
theorem mem_writer_of_mem_reader (hw : 0 < writerSize) (hr : 0 < readerSize)
    (hrank : writerRank < writerSize) (hreader : readerRank < readerSize)
    (h : writerRank ∈ (getPeerArrays readerSize readerRank writerSize).forward) :
    readerRank ∈ (getPeerArrays writerSize writerRank readerSize).reverse ∨
      readerRank ∈ (getPeerArrays writerSize writerRank readerSize).forward := by
  by_cases hlt : readerSize < writerSize
  case pos =>
    rw [forward_of_lt hlt] at h
    have ⟨i, _, hi, hpeers⟩ := reversePeerArray_peers hr hlt.le hrank
    left
    rw [getPeerArrays, if_neg (Nat.not_lt.mpr hlt.le)]
    simp only [hpeers, List.mem_singleton]
    exact mem_block_unique h hi
  case neg =>
    have hle := Nat.le_of_not_lt hlt
    have hstart := ((mem_forward_of_le hw hle).mp h).right
    right
    rcases hle.lt_or_eq with hlt' | heq
    · rw [forward_of_lt hlt', ← hstart]
      exact start_mem_block (size_pos hw hle)
    · subst heq
      rw [start_self hrank] at hstart
      refine (mem_forward_of_le hr le_rfl).mpr ⟨hreader, ?_⟩
      rw [start_self hreader, hstart]

-- Every reader rank is notified by a writer rank.
theorem exists_writer (hw : 0 < writerSize) (hr : 0 < readerSize) (hreader : readerRank < readerSize) :
    ∃ writer < writerSize, readerRank ∈ (getPeerArrays writerSize writer readerSize).forward := by
  have hmem := (forward_perm hw hr).symm.subset (List.mem_range.mpr hreader)
  simpa using hmem

end Sides

end Sst

namespace Sst

namespace WSReader

variable {getConn : Nat → Bool} {writerSize writerRank peer : Nat} {reader reader' : WSReader}

theorem connect_ok (h : reader.connect getConn peer = .ok reader') :
    reader'.peers = reader.peers ∧ reader'.sent = reader.sent ∧
      ∀ p, p ∈ reader'.connections ↔ p = peer ∨ p ∈ reader.connections := by
  rw [connect] at h
  split at h
  case isTrue hmem =>
    cases h
    exact ⟨rfl, rfl, fun p => ⟨.inr, fun hp => hp.elim (· ▸ hmem) id⟩⟩
  case isFalse =>
    split at h
    case isTrue =>
      cases h
      exact ⟨rfl, rfl, fun p => List.mem_cons⟩
    case isFalse => cases h

-- Whom the rank has a connection to has been told so, with the rank.
structure Announced (writerSize writerRank : Nat) (reader : WSReader) : Prop where
  connections : ∀ p ∈ reader.connections, (p, ⟨some writerRank, writerSize⟩) ∈ reader.sent
  sent        : ∀ m ∈ reader.sent, m.2 = ⟨some writerRank, writerSize⟩

theorem Announced.connect (h : reader.Announced writerSize writerRank)
    (hconnect : reader.connect getConn peer = .ok reader') :
    (reader'.send writerSize peer (some writerRank)).Announced writerSize writerRank := by
  have ⟨_, hsent, hconns⟩ := connect_ok hconnect
  simp only [send, hsent]
  refine ⟨fun p hp => ?_, fun m hm => ?_⟩
  · rcases (hconns p).mp hp with rfl | hp
    · exact List.mem_append_right _ (List.mem_singleton_self _)
    · exact List.mem_append_left _ (h.connections p hp)
  · rcases List.mem_append.mp hm with hm | hm
    · exact h.sent m hm
    · rw [List.mem_singleton.mp hm]

-- The one that the rank notifies first is told so even where the connection was there before.
theorem initReverse_announced (hsent : reader.sent = [])
    (hexisting : ∀ p ∈ reader.connections, p = peer)
    (h : initReverse getConn writerSize writerRank reader [peer] = .ok reader') :
    reader'.Announced writerSize writerRank ∧ reader'.peers = reader.peers ∧
      peer ∈ reader'.connections := by
  simp only [initReverse, List.zipIdx_singleton, List.foldlM_cons, List.foldlM_nil] at h
  cases hconnect : reader.connect getConn peer with
  | error _ => rw [hconnect] at h; cases h
  | ok next =>
    rw [hconnect] at h
    cases h
    have ⟨hpeers, hsent', hconns⟩ := connect_ok hconnect
    refine ⟨⟨fun p hp => ?_, fun m hm => ?_⟩, hpeers, (hconns peer).mpr (.inl rfl)⟩
    · have hp : p = peer := ((hconns p).mp hp).elim id (hexisting p)
      simp [send, hp]
    · simp only [send, hsent', hsent, List.nil_append, List.mem_singleton, if_true] at hm
      rw [hm]

-- Those that the rank is forward to are connected to and told so.
theorem initForward_announced {peers : List Nat} (hann : reader.Announced writerSize writerRank)
    (h : peers.foldlM (fun (reader : WSReader) peer =>
      if peer ∈ reader.connections then pure reader
      else do
        let reader ← reader.connect getConn peer
        pure (reader.send writerSize peer (some writerRank))) reader = .ok reader') :
    reader'.Announced writerSize writerRank ∧ reader'.peers = reader.peers ∧
      ∀ p, p ∈ peers ∨ p ∈ reader.connections → p ∈ reader'.connections := by
  induction peers generalizing reader with
  | nil =>
    cases h
    exact ⟨hann, rfl, fun p hp => hp.resolve_left List.not_mem_nil⟩
  | cons peer peers ih =>
    rw [List.foldlM_cons] at h
    by_cases hmem : peer ∈ reader.connections
    case pos =>
      rw [if_pos hmem] at h
      have ⟨hann, hpeers, hconns⟩ := ih hann h
      refine ⟨hann, hpeers, fun p hp => hconns p ?_⟩
      rcases hp with hp | hp
      · exact (List.mem_cons.mp hp).elim (fun heq => .inr (heq ▸ hmem)) .inl
      · exact .inr hp
    case neg =>
      rw [if_neg hmem] at h
      cases hconnect : reader.connect getConn peer with
      | error _ => rw [hconnect] at h; cases h
      | ok next =>
        rw [hconnect] at h
        have ⟨hpeers', _, hconns'⟩ := connect_ok hconnect
        have ⟨hann, hpeers, hconns⟩ := ih (hann.connect hconnect) h
        refine ⟨hann, hpeers.trans hpeers', fun p hp => hconns p ?_⟩
        rcases hp with hp | hp
        · exact (List.mem_cons.mp hp).elim (fun heq => .inr ((hconns' p).mpr (.inl heq))) .inl
        · exact .inr ((hconns' p).mpr (.inr hp))

end WSReader

-- The connection of writer rank 0 to reader rank 0 can be the one that the reader has asked on.
def openConnections (writerRank : Nat) (conn : Bool) : List Nat :=
  if writerRank = 0 ∧ conn then [0] else []

-- A writer rank that has set up a reader of this size.
def SetUp (writerSize readerSize writerRank : Nat) (reader : WSReader) : Prop :=
  ∃ getConn conn, initWSReader getConn .peer writerSize writerRank readerSize
    (openConnections writerRank conn) = .ok reader

-- Where the connections can be made, every rank sets the reader up.
theorem exists_setUp (writerSize readerSize writerRank : Nat) :
    ∃ reader, SetUp writerSize readerSize writerRank reader := by
  have hconnect : ∀ (reader : WSReader) (peer : Nat), ∃ reader',
      reader.connect (fun _ => true) peer = .ok reader' := fun reader peer => by
    simp only [WSReader.connect, if_true]
    split <;> exact ⟨_, rfl⟩
  have hfold : ∀ {α : Type} (l : List α) (f : WSReader → α → Except WSReader WSReader)
      (reader : WSReader), (∀ reader a, ∃ reader', f reader a = .ok reader') →
        ∃ reader', l.foldlM f reader = .ok reader' := by
    intro α l f reader hf
    induction l generalizing reader with
    | nil => exact ⟨reader, rfl⟩
    | cons a l ih =>
      have ⟨next, hnext⟩ := hf reader a
      rw [List.foldlM_cons, hnext]
      exact ih next
  simp only [SetUp, initWSReader, initReverse, initForward]
  have ⟨next, hnext⟩ := hfold
    (getPeerArrays writerSize writerRank readerSize).reverse.zipIdx
    (fun (reader : WSReader) (peer, i) => do
      let reader ← reader.connect (fun _ => true) peer
      pure (reader.send writerSize peer (if i = 0 then some writerRank else none)))
    { peers       := (getPeerArrays writerSize writerRank readerSize).forward
      connections := openConnections writerRank false
      sent        := [] } fun reader (peer, i) => by
      obtain ⟨reader', h⟩ := hconnect reader peer
      exact ⟨_, by dsimp only; rw [h]; rfl⟩
  have ⟨reader, hreader⟩ := hfold next.peers (fun (reader : WSReader) peer =>
      if peer ∈ reader.connections then pure reader
      else do
        let reader ← reader.connect (fun _ => true) peer
        pure (reader.send writerSize peer (some writerRank))) next fun reader peer => by
      obtain ⟨reader', h⟩ := hconnect reader peer
      split
      · exact ⟨_, rfl⟩
      · exact ⟨_, by rw [h]; rfl⟩
  exact ⟨reader, fun _ => true, false, by rw [hnext]; exact hreader⟩

theorem SetUp.spec {writerSize readerSize writerRank : Nat} {reader : WSReader}
    (hw : 0 < writerSize) (hr : 0 < readerSize) (hrank : writerRank < writerSize)
    (h : SetUp writerSize readerSize writerRank reader) :
    reader.Announced writerSize writerRank ∧
      reader.peers = (getPeerArrays writerSize writerRank readerSize).forward ∧
      ∀ p, p ∈ (getPeerArrays writerSize writerRank readerSize).reverse ∨
        p ∈ (getPeerArrays writerSize writerRank readerSize).forward → p ∈ reader.connections := by
  obtain ⟨getConn, conn, h⟩ := h
  have ⟨first, _, hreverse, hzero⟩ := exists_reverse hw hr hrank
  simp only [initWSReader, hreverse] at h
  generalize hstart : WSReader.mk _ _ _ = start at h
  cases hinit : initReverse getConn writerSize writerRank start [first] with
  | error _ => rw [hinit] at h; cases h
  | ok next =>
    rw [hinit] at h
    have hexisting : ∀ p ∈ start.connections, p = first := fun p hp => by
      simp only [← hstart, openConnections] at hp
      split at hp
      case isTrue hrank₀ => rw [hzero hrank₀.left, List.mem_singleton.mp hp]
      case isFalse => exact absurd hp List.not_mem_nil
    have ⟨hann, hpeers, hfirst⟩ :=
      WSReader.initReverse_announced (hstart ▸ rfl) hexisting hinit
    have ⟨hann, hpeers', hconns⟩ := WSReader.initForward_announced hann h
    have hpeers : next.peers = (getPeerArrays writerSize writerRank readerSize).forward :=
      hpeers.trans (hstart ▸ rfl)
    refine ⟨hann, hpeers'.trans hpeers, fun p hp => hconns p ?_⟩
    rw [hreverse, List.mem_singleton] at hp
    exact hp.elim (fun hp => .inr (hp ▸ hfirst)) (fun hp => .inl (hpeers ▸ hp))

namespace ReaderStream

variable {Conn : Type} {stream stream' : ReaderStream Conn} {writerSize : Nat} {known : Nat → Prop}

-- What a reader rank has after it has heard from some writer ranks.
structure Heard (writerSize : Nat) (known : Nat → Prop) (stream : ReaderStream Conn) : Prop where
  length : ∀ connections, stream.connectionsToWriter = some connections →
    connections.length = writerSize
  knows  : ∀ w, known w → ∃ connections conn, stream.connectionsToWriter = some connections ∧
    connections[w]? = some (some conn)

theorem opening_heard {readerSize readerRank : Nat} :
    (opening readerSize readerRank writerSize : ReaderStream Conn).Heard writerSize fun _ => False where
  length := fun _ h => nomatch h
  knows  := fun _ h => h.elim

theorem Heard.peerSetupHandler (h : stream.Heard writerSize known) (conn : Conn) {w : Nat}
    (hw : w < writerSize) : ∃ stream',
      stream.peerSetupHandler conn ⟨some w, writerSize⟩ = .ok stream' ∧ stream'.peers = stream.peers ∧
        stream'.Heard writerSize fun v => known v ∨ v = w := by
  simp only [ReaderStream.peerSetupHandler]
  generalize hconns : stream.connectionsToWriter.getD (List.replicate writerSize none) = connections
  have hlength : connections.length = writerSize := by
    cases hstream : stream.connectionsToWriter with
    | none => simp [← hconns, hstream]
    | some conns => simpa [← hconns, hstream] using h.length conns hstream
  rw [if_pos (hlength.symm ▸ hw)]
  refine ⟨_, rfl, rfl, fun conns heq => ?_, fun v hv => ?_⟩
  · cases heq
    simpa using hlength
  · by_cases hvw : v = w
    case pos =>
      subst hvw
      exact ⟨_, conn, rfl, List.getElem?_set_self (hlength.symm ▸ hw)⟩
    case neg =>
      have ⟨conns, conn', hstream, hconn'⟩ := h.knows v (hv.resolve_right hvw)
      have heq : conns = connections := by simpa [hstream] using hconns
      exact ⟨_, conn', rfl, (List.getElem?_set_ne (Ne.symm hvw)).trans (heq ▸ hconn')⟩

-- The messages can come in any order.
theorem Heard.receive {arrived : List (Conn × PeerSetupMsg)} (h : stream.Heard writerSize known)
    (harrived : ∀ a ∈ arrived, ∃ w < writerSize, a.2 = ⟨some w, writerSize⟩) :
    ∃ stream', stream.receive arrived = .ok stream' ∧ stream'.peers = stream.peers ∧
      stream'.Heard writerSize fun w => known w ∨ ⟨some w, writerSize⟩ ∈ arrived.map (·.2) := by
  induction arrived generalizing stream known with
  | nil => exact ⟨stream, rfl, rfl, by simpa using h⟩
  | cons first others ih =>
    obtain ⟨conn, msg⟩ := first
    have ⟨w, hw, hmsg⟩ := harrived _ List.mem_cons_self
    dsimp only at hmsg
    subst hmsg
    have ⟨next, hnext, hpeers, hheard⟩ := h.peerSetupHandler conn hw
    have ⟨last, hlast, hpeers', hheard'⟩ :=
      ih hheard fun a ha => harrived a (List.mem_cons_of_mem _ ha)
    refine ⟨last, ?_, hpeers'.trans hpeers, hheard'.length, fun v hv => hheard'.knows v ?_⟩
    · rw [ReaderStream.receive, List.foldlM_cons]
      dsimp only
      rw [hnext]
      exact hlast
    · simp only [List.map_cons, List.mem_cons, PeerSetupMsg.mk.injEq, Option.some.injEq,
        and_true] at hv
      tauto

-- With a first message there, the rank waits for nothing but those that it is forward to.
theorem Heard.hasAllPeers (h : stream.Heard writerSize known) (hpeers : ∀ w ∈ stream.peers, known w)
    {w : Nat} (hknown : known w) : stream.hasAllPeers = .ok true := by
  have ⟨connections, _, hstream, _⟩ := h.knows w hknown
  have hfold : ∀ peers ⊆ stream.peers, peers.foldlM (fun (stillWaiting : Nat) peer => do
      let conn ← (connections[peer]?).orUndefined
      pure (if conn.isNone then stillWaiting + 1 else stillWaiting)) 0 = Except.ok (ε := Fault) 0 := by
    intro peers hsub
    induction peers with
    | nil => rfl
    | cons peer peers ih =>
      have ⟨conns, conn, hconns, hconn⟩ := h.knows peer (hpeers peer (hsub List.mem_cons_self))
      have heq : connections = conns := Option.some.inj (hstream.symm.trans hconns)
      rw [List.foldlM_cons, heq, hconn]
      exact heq ▸ ih (List.subset_of_cons_subset hsub)
  rw [ReaderStream.hasAllPeers, hstream]
  dsimp only
  rw [hfold _ (List.Subset.refl _)]
  rfl

theorem Heard.sendOneToEachWriterRank (h : stream.Heard writerSize known)
    (hpeers : ∀ w ∈ stream.peers, known w) :
    ∃ written, stream.sendOneToEachWriterRank = .ok written ∧ written.map (·.1) = stream.peers := by
  rw [ReaderStream.sendOneToEachWriterRank]
  generalize stream.peers = peers at hpeers
  induction peers with
  | nil => exact ⟨[], rfl, rfl⟩
  | cons peer peers ih =>
    have ⟨connections, conn, hconns, hconn⟩ := h.knows peer (hpeers peer List.mem_cons_self)
    have ⟨written, hwritten, hmap⟩ := ih fun w hw => hpeers w (List.mem_cons_of_mem _ hw)
    refine ⟨(peer, conn) :: written, ?_, by rw [List.map_cons, hmap]⟩
    rw [List.mapM_cons, hwritten, hconns]
    simp only [hconn, Option.orUndefined_some, Outcome.ok_bind, Outcome.pure_eq]

end ReaderStream

section Peering

variable {Conn : Type}

-- The setup messages of all writer ranks that are for one reader rank.
def setupMessages (readers : Nat → WSReader) (writerSize readerRank : Nat) : List PeerSetupMsg :=
  (List.range writerSize).flatMap fun w =>
    ((readers w).sent.filter fun m => m.1 = readerRank).map (·.2)

-- A reader rank that has all the messages, in the order in which they came in.
def Opened (readers : Nat → WSReader) (writerSize readerSize readerRank : Nat)
    (stream : ReaderStream Conn) : Prop :=
  ∃ arrived : List (Conn × PeerSetupMsg),
    (arrived.map (·.2)).Perm (setupMessages readers writerSize readerRank) ∧
      (ReaderStream.opening readerSize readerRank writerSize).receive arrived = .ok stream

-- A writer rank and a reader rank that the writer rank has a connection for.
def InContact (writerSize readerSize writerRank readerRank : Nat) : Prop :=
  let arrays := getPeerArrays writerSize writerRank readerSize
  readerRank ∈ arrays.reverse ∨ readerRank ∈ arrays.forward

-- What the arrays of both sides are to fulfil.
structure Consistent (writerSize readerSize : Nat) : Prop where
  writersForward : ((List.range writerSize).flatMap fun w =>
    (getPeerArrays writerSize w readerSize).forward).Perm (List.range readerSize)
  readersForward : ((List.range readerSize).flatMap fun r =>
    (getPeerArrays readerSize r writerSize).forward).Perm (List.range writerSize)
  writerContact  : ∀ w < writerSize, ∃ r < readerSize, InContact writerSize readerSize w r
  readerContact  : ∀ r < readerSize, ∃ w < writerSize, InContact writerSize readerSize w r

-- What comes of them when the writer ranks have set up the reader.
structure Connected (writerSize readerSize : Nat) (readers : Nat → WSReader) : Prop where
  connection : ∀ w < writerSize, ∀ r, InContact writerSize readerSize w r →
    r ∈ (readers w).connections
  announced  : ∀ r < readerSize, ∀ w ∈ (getPeerArrays readerSize r writerSize).forward,
    (r, ⟨some w, writerSize⟩) ∈ (readers w).sent
  timesteps  : ((List.range writerSize).flatMap fun w => (readers w).sendOneToWSRCohort).Perm
    (List.range readerSize)
  opens      : ∀ {Conn : Type} (r : Nat) (arrived : List (Conn × PeerSetupMsg)), r < readerSize →
    (arrived.map (·.2)).Perm (setupMessages readers writerSize r) →
      ∃ stream, (ReaderStream.opening readerSize r writerSize).receive arrived = .ok stream ∧
        stream.hasAllPeers = .ok true
  releases   : ∀ {Conn : Type} (streams : Nat → ReaderStream Conn),
    (∀ r < readerSize, Opened readers writerSize readerSize r (streams r)) →
      ∃ written : Nat → List (Nat × Conn),
        (∀ r < readerSize, (streams r).sendOneToEachWriterRank = .ok (written r)) ∧
          ((List.range readerSize).flatMap fun r => (written r).map (·.1)).Perm
            (List.range writerSize)

section Connected

variable {writerSize readerSize r : Nat} {readers : Nat → WSReader} (hw : 0 < writerSize)
  (hr : 0 < readerSize) (hsetUp : ∀ w < writerSize, SetUp writerSize readerSize w (readers w))

include hw hr hsetUp

theorem announced_of_contact {w : Nat} (hrank : w < writerSize)
    (h : InContact writerSize readerSize w r) : (r, ⟨some w, writerSize⟩) ∈ (readers w).sent :=
  have ⟨hann, _, hconns⟩ := (hsetUp w hrank).spec hw hr hrank
  hann.connections r (hconns r h)

theorem mem_setupMessages {w : Nat} (hrank : w < writerSize)
    (h : InContact writerSize readerSize w r) :
    ⟨some w, writerSize⟩ ∈ setupMessages readers writerSize r := by
  have hsent := announced_of_contact hw hr hsetUp hrank h
  exact List.mem_flatMap.mpr ⟨w, List.mem_range.mpr hrank, List.mem_map.mpr
    ⟨_, List.mem_filter.mpr ⟨hsent, decide_eq_true rfl⟩, rfl⟩⟩

theorem setupMessages_spec : ∀ msg ∈ setupMessages readers writerSize r,
    ∃ w < writerSize, msg = ⟨some w, writerSize⟩ := by
  intro msg hmsg
  have ⟨w, hrank, hmsg⟩ := List.mem_flatMap.mp hmsg
  have hrank := List.mem_range.mp hrank
  have ⟨m, hm, hmsg⟩ := List.mem_map.mp hmsg
  have ⟨hann, _⟩ := (hsetUp w hrank).spec hw hr hrank
  exact ⟨w, hrank, hmsg ▸ hann.sent m (List.mem_filter.mp hm).left⟩

-- A reader rank with all the messages knows every writer rank that it is in contact with.
theorem receive_heard (Conn : Type) (arrived : List (Conn × PeerSetupMsg))
    (h : (arrived.map (·.2)).Perm (setupMessages readers writerSize r)) : ∃ stream,
      (ReaderStream.opening readerSize r writerSize).receive arrived = .ok stream ∧
        stream.peers = (getPeerArrays readerSize r writerSize).forward ∧
          stream.Heard writerSize fun w => w < writerSize ∧ InContact writerSize readerSize w r := by
  have hmsgs := setupMessages_spec (r := r) hw hr hsetUp
  have hopening : (ReaderStream.opening readerSize r writerSize : ReaderStream Conn).Heard writerSize
      fun _ => False := ReaderStream.opening_heard
  have ⟨stream, hreceive, hpeers, hheard⟩ :=
    hopening.receive fun a ha => hmsgs a.2 (h.subset (List.mem_map_of_mem ha))
  refine ⟨stream, hreceive, hpeers, hheard.length, fun w ⟨hrank, hcontact⟩ => ?_⟩
  exact hheard.knows w (.inr (h.symm.subset (mem_setupMessages hw hr hsetUp hrank hcontact)))

end Connected

theorem readerContact {writerSize readerSize r : Nat} (hw : 0 < writerSize) (hr : 0 < readerSize)
    (hreader : r < readerSize) : ∃ w < writerSize, InContact writerSize readerSize w r :=
  have ⟨w, hrank, hmem⟩ := exists_writer hw hr hreader
  ⟨w, hrank, .inr hmem⟩

theorem forward_known {writerSize readerSize r : Nat} (hw : 0 < writerSize) (hr : 0 < readerSize)
    (hreader : r < readerSize) : ∀ w ∈ (getPeerArrays readerSize r writerSize).forward,
      w < writerSize ∧ InContact writerSize readerSize w r := by
  intro w hmem
  have hrank := lt_of_mem_forward hr hw hreader hmem
  exact ⟨hrank, mem_writer_of_mem_reader hw hr hrank hreader hmem⟩

theorem peering {writerSize readerSize : Nat} (hw : 0 < writerSize) (hr : 0 < readerSize) :
    Consistent writerSize readerSize ∧ ∀ readers : Nat → WSReader,
      (∀ w < writerSize, SetUp writerSize readerSize w (readers w)) →
        Connected writerSize readerSize readers := by
  refine ⟨⟨forward_perm hw hr, forward_perm hr hw, fun w hrank => ?_,
    fun r hreader => readerContact hw hr hreader⟩, fun readers hsetUp => ⟨?_, ?_, ?_, ?_, ?_⟩⟩
  · have ⟨r, hreader, hreverse, _⟩ := exists_reverse hw hr hrank
    exact ⟨r, hreader, .inl (hreverse ▸ List.mem_singleton_self r)⟩
  · exact fun w hrank r hcontact => ((hsetUp w hrank).spec hw hr hrank).right.right r hcontact
  · intro r hreader w hmem
    have ⟨hrank, hcontact⟩ := forward_known hw hr hreader w hmem
    exact announced_of_contact hw hr hsetUp hrank hcontact
  · -- every forward connection is there
    have hsend : ∀ w ∈ List.range writerSize, (readers w).sendOneToWSRCohort =
        (getPeerArrays writerSize w readerSize).forward := fun w hrank => by
      have hrank := List.mem_range.mp hrank
      have ⟨_, hpeers, hconns⟩ := (hsetUp w hrank).spec hw hr hrank
      rw [WSReader.sendOneToWSRCohort, hpeers]
      exact List.filter_eq_self.mpr fun p hp => decide_eq_true (hconns p (.inr hp))
    rw [List.flatMap_congr hsend]
    exact forward_perm hw hr
  · intro Conn r arrived hreader hperm
    have ⟨stream, hreceive, hpeers, hheard⟩ := receive_heard hw hr hsetUp Conn arrived hperm
    have ⟨w, hrank, hcontact⟩ := readerContact hw hr hreader
    exact ⟨stream, hreceive, hheard.hasAllPeers
      (hpeers ▸ forward_known hw hr hreader) ⟨hrank, hcontact⟩⟩
  · intro Conn streams hopened
    have hwritten : ∀ r, ∃ written, r < readerSize →
        (streams r).sendOneToEachWriterRank = .ok written ∧
          written.map (·.1) = (getPeerArrays readerSize r writerSize).forward := fun r => by
      by_cases hreader : r < readerSize
      case neg => exact ⟨[], fun h => absurd h hreader⟩
      case pos =>
        obtain ⟨arrived, hperm, hreceive⟩ := hopened r hreader
        have ⟨stream, hreceive', hpeers, hheard⟩ := receive_heard hw hr hsetUp Conn arrived hperm
        have heq : stream = streams r := Except.ok.inj (hreceive'.symm.trans hreceive)
        have ⟨written, hsend, hmap⟩ :=
          (heq ▸ hheard).sendOneToEachWriterRank (heq ▸ hpeers ▸ forward_known hw hr hreader)
        exact ⟨written, fun _ => ⟨hsend, hmap.trans (heq ▸ hpeers)⟩⟩
    choose written hwritten using hwritten
    refine ⟨written, fun r hreader => (hwritten r hreader).left, ?_⟩
    rw [List.flatMap_congr fun r hreader => (hwritten r (List.mem_range.mp hreader)).right]
    exact forward_perm hr hw

-- Three writer ranks and two reader ranks.
theorem peering_three_two : Consistent 3 2 ∧ ∃ readers : Nat → WSReader,
    (∀ w < 3, SetUp 3 2 w (readers w)) ∧ Connected 3 2 readers := by
  have ⟨hconsistent, hconnected⟩ :
      Consistent 3 2 ∧ ∀ readers : Nat → WSReader, (∀ w < 3, SetUp 3 2 w (readers w)) →
        Connected 3 2 readers := peering (by decide) (by decide)
  choose readers hreaders using exists_setUp 3 2
  exact ⟨hconsistent, readers, fun w _ => hreaders w, hconnected readers fun w _ => hreaders w⟩

end Peering

end Sst
