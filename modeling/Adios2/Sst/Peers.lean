import Adios2.Sst.Writer

-- Which ranks of the two sides of an SST stream talk to each other, and how a reader rank comes to
-- know the writer ranks that it has a connection to. The arrays of ranks are given up to the -1 at
-- their ends.

namespace Sst

section Arrays

def peerArray (mySize myRank peerSize : Nat) : List Nat :=
  let portionSize := peerSize / mySize
  let leftovers := peerSize - portionSize * mySize
  let (portionSize, startOffset) :=
    if myRank < leftovers then (portionSize + 1, 0) else (portionSize, leftovers)
  let start := portionSize * myRank + startOffset
  (List.range portionSize).map (start + ·)

structure ReversePeers where
  peers        : List Nat
  -- none is the -1
  forwardEntry : Option Nat
  deriving DecidableEq, Repr

-- What the loop over the peers of one opposing rank does.
def reversePeersOf (myRank i : Nat) (reverse : ReversePeers) (theirPeers : List Nat) : ReversePeers :=
  theirPeers.zipIdx.foldl (fun (reverse : ReversePeers) (peer, j) =>
    if peer = myRank then
      { peers := reverse.peers ++ [i], forwardEntry := if j = 0 then some i else reverse.forwardEntry }
    else reverse) reverse

def reversePeerArray (mySize myRank peerSize : Nat) : ReversePeers :=
  (List.range peerSize).foldl
    (fun reverse i => reversePeersOf myRank i reverse (peerArray peerSize i mySize))
    { peers := [], forwardEntry := none }

structure PeerArrays where
  forward : List Nat
  reverse : List Nat
  deriving DecidableEq, Repr

def getPeerArrays (mySize myRank peerSize : Nat) : PeerArrays :=
  if mySize < peerSize then
    let forward := peerArray mySize myRank peerSize
    { forward, reverse := forward.take 1 }
  else
    let reverse := reversePeerArray mySize myRank peerSize
    { forward := reverse.forwardEntry.toList, reverse := reverse.peers }

end Arrays

section Writer

structure PeerSetupMsg where
  -- none is the -1
  writerRank       : Option Nat
  writerCohortSize : Nat
  deriving DecidableEq, Repr

-- What one writer rank has about the ranks of a reader.
structure WSReader where
  peers       : List Nat
  -- the reader ranks of which CMconn is not NULL
  connections : List Nat
  -- the peer setup messages that went out, with the reader rank that each is for
  sent        : List (Nat × PeerSetupMsg)
  deriving DecidableEq, Repr

def WSReader.send (reader : WSReader) (writerSize peer : Nat) (myRank : Option Nat) : WSReader :=
  { reader with sent := reader.sent ++ [(peer, ⟨myRank, writerSize⟩)] }

-- Tunneling_get_conn is asked only where there is no connection; without one the stream fails.
def WSReader.connect (reader : WSReader) (getConn : Nat → Bool) (peer : Nat) :
    Except WSReader WSReader :=
  if peer ∈ reader.connections then .ok reader
  else if getConn peer then .ok { reader with connections := peer :: reader.connections }
  else .error reader

def initReverse (getConn : Nat → Bool) (writerSize writerRank : Nat) (reader : WSReader)
    (reverseArray : List Nat) : Except WSReader WSReader :=
  reverseArray.zipIdx.foldlM (fun (reader : WSReader) (peer, i) => do
    let reader ← reader.connect getConn peer
    pure (reader.send writerSize peer (if i = 0 then some writerRank else none))) reader

def initForward (getConn : Nat → Bool) (writerSize writerRank : Nat) (reader : WSReader) :
    Except WSReader WSReader :=
  reader.peers.foldlM (fun (reader : WSReader) peer =>
    if peer ∈ reader.connections then pure reader
    else do
      let reader ← reader.connect getConn peer
      pure (reader.send writerSize peer (some writerRank))) reader

-- The connections that are there already are the one of rank 0 to rank 0, if at all.
def initWSReader (getConn : Nat → Bool) (commPattern : CPCommPattern)
    (writerSize writerRank readerSize : Nat) (connections : List Nat) : Except WSReader WSReader :=
  let reader := { peers := [], connections, sent := [] }
  match commPattern with
  | .peer => do
    let arrays := getPeerArrays writerSize writerRank readerSize
    let reader := { reader with peers := arrays.forward }
    let reader ← initReverse getConn writerSize writerRank reader arrays.reverse
    initForward getConn writerSize writerRank reader
  | .min  => if writerRank = 0 then reader.connect getConn 0 else pure reader

-- The reader ranks that a message to the cohort is written to.
def WSReader.sendOneToWSRCohort (reader : WSReader) : List Nat :=
  reader.peers.filter (· ∈ reader.connections)

end Writer

section Reader

variable {Conn : Type}

structure ReaderStream (Conn : Type) where
  peers               : List Nat
  connectionsToWriter : Option (List (Option Conn))
  failureContactRank  : Option Nat
  deriving DecidableEq, Repr

def ReaderStream.opening (readerSize readerRank writerSize : Nat) : ReaderStream Conn where
  peers               := (getPeerArrays readerSize readerRank writerSize).forward
  connectionsToWriter := none
  failureContactRank  := none

namespace ReaderStream

def peerSetupHandler (stream : ReaderStream Conn) (conn : Conn) (msg : PeerSetupMsg) :
    Outcome (ReaderStream Conn) :=
  let connections := stream.connectionsToWriter.getD (List.replicate msg.writerCohortSize none)
  match msg.writerRank with
  | none            => pure { stream with connectionsToWriter := some connections }
  | some writerRank =>
    if writerRank < connections.length then
      pure {
        stream with
        connectionsToWriter := some (connections.set writerRank (some conn))
        failureContactRank  := some writerRank
      }
    else .error .undefined

-- The messages that come in while the stream is opened, each on its connection.
def receive (stream : ReaderStream Conn) (arrived : List (Conn × PeerSetupMsg)) :
    Outcome (ReaderStream Conn) :=
  arrived.foldlM (fun stream (conn, msg) => stream.peerSetupHandler conn msg) stream

def hasAllPeers (stream : ReaderStream Conn) : Outcome Bool :=
  match stream.connectionsToWriter with
  | none             => pure false
  | some connections => do
    let stillWaiting ← stream.peers.foldlM (fun (stillWaiting : Nat) peer => do
      let conn ← (connections[peer]?).orUndefined
      pure (if conn.isNone then stillWaiting + 1 else stillWaiting)) 0
    pure (decide (stillWaiting = 0))

-- The connections that a release is written to, with the writer ranks that they lead to. It is not
-- looked at whether there is one.
def sendOneToEachWriterRank (stream : ReaderStream Conn) : Outcome (List (Nat × Conn)) :=
  stream.peers.mapM fun peer =>
    match stream.connectionsToWriter with
    | none             => .error .undefined
    | some connections => do
      let conn ← (connections[peer]?).orUndefined
      let conn ← conn.orUndefined
      pure (peer, conn)

end ReaderStream

end Reader

end Sst
