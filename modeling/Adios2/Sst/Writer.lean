import Adios2.Lib.Threads
import Adios2.Lib.Bytes

-- The writer side of an SST stream on one rank: the queue of timesteps, the readers, and what the
-- application's thread and the network thread do to them under the stream's lock. What the other
-- ranks contribute to a collective operation is an input. The exchange of read patterns for
-- preloading, the statistics and the end of the stream are left out.

namespace Sst

open Bytes Threads

inductive StreamStatus
  | notOpen
  | opening
  | established
  | peerClosed
  | peerFailed
  | closed
  | destroyed
  deriving DecidableEq, Repr

inductive CPCommPattern
  | min
  | peer
  deriving DecidableEq, Repr

inductive StepDistributionMode
  | allToAll
  | roundRobin
  | onDemand
  deriving DecidableEq, Repr

inductive QueueFullPolicy
  | block
  | discard
  deriving DecidableEq, Repr

abbrev FormatID := List Byte

structure TimestepEntry where
  timestep          : Int
  metaDataSendCount : Nat
  referenceCount    : Int
  inProgressFlag    : Bool
  expired           : Bool
  preciousTimestep  : Bool
  dpRegistered      : Bool
  -- Msg->Metadata is not NULL
  hasMetadata       : Bool
  deriving DecidableEq, Repr

structure ReaderInfo where
  readerStatus             : StreamStatus
  startingTimestep         : Int
  lastSentTimestep         : Int
  lastReleasedTimestep     : Int
  oldestUnreleasedTimestep : Int
  formatSentCount          : Nat
  sentTimestepList         : List Int
  -- the connections that this rank sends on, and whether they are there
  peers                    : Nat
  connected                : Bool
  deriving DecidableEq, Repr

inductive Message
  | deliverTimestepMetadata (timestep : Int) (hasMetadata : Bool) (formats : List FormatID)
  | writerClose (finalTimestep : Int)
  deriving DecidableEq, Repr

-- A message that went out on one connection of a reader cohort.
structure Written where
  reader : Nat
  peer   : Nat
  msg    : Message
  deriving DecidableEq, Repr

-- What rank 0 tells the other ranks about a timestep.
structure ReturnMetadataInfo where
  discardThisTimestep : Bool
  pendingReaderCount  : Nat
  readerStatus        : List StreamStatus
  releaseList         : List (Nat × Int)
  formats             : List FormatID
  deriving Repr

structure Stream where
  rank                  : Nat
  cpCommPattern         : CPCommPattern
  stepDistributionMode  : StepDistributionMode
  queueFullPolicy       : QueueFullPolicy
  queueLimit            : Nat
  firstTimestepPrecious : Bool
  reserveQueueLimit     : Int
  status                : StreamStatus
  -- the last one that was provided stands first
  queuedTimesteps       : List TimestepEntry
  readers               : List ReaderInfo
  readerRegisterQueue   : Nat
  writerTimestep        : Int
  lastProvidedTimestep  : Int
  nextRRDistribution    : Nat
  lastDemandTimestep    : Int
  closeTimestepCount    : Int
  stepRequestQueue      : List Nat
  closeMessagesSent     : Bool
  releaseList           : List (Nat × Int)
  previousFormats       : List FormatID
  -- the readers that a CloseWSRStream is scheduled for
  delayedTasks          : List Nat
  -- the application's thread keeps the lock for its next task
  held                  : Bool
  -- what has happened so far: the messages that went out, the timesteps that were put on sent lists,
  -- those that were discarded, and the requests that came in
  written               : List Written
  deliveries            : List (Nat × Int)
  discarded             : List Int
  requests              : List Nat
  deriving Repr

-- What a task finds out from outside: whether a write went through, and what comes from the other
-- ranks of the writer or from an opening reader.
structure Environment where
  writeSucceeds    : Bool
  returned         : ReturnMetadataInfo
  openSucceeds     : Bool
  peers            : Nat
  othersStart      : Int
  readerStatus     : StreamStatus
  closeReplayEnds  : Bool

inductive Task
  -- CP_PeerFailCloseWSReader
  | derefAllSentTimesteps (reader : Nat) (list : Option Int)
  | peerFailCloseRest (reader : Nat) (newState : StreamStatus)
  -- messages to readers
  | sendEntryMsg (reader : Nat) (timestep : Int) (formats : List FormatID)
  | sendOneToWSRCohort (reader : Nat) (peer : Nat) (msg : Message)
  | cmWrite (reader : Nat) (peer : Nat) (msg : Message)
  | sendOneToEachReaderRank (reader : Nat) (msg : Message)
  | closeMessagesSent
  -- events of the network
  | connClose (reader : Nat)
  | readerClose (reader : Nat)
  | closeWSRStream (reader : Nat)
  | readerRegister
  | readerActivate (reader : Nat)
  | readerRequestStep (reader : Nat)
  | requestedStepSent
  | releaseTimestep (reader : Nat) (timestep : Int)
  | releaseTimestepRest (reader : Nat) (timestep : Int)
  | queueMaintenance
  -- SstInternalProvideTimestep
  | queueTimestep (timestep : Int)
  | decideTimestep (timestep : Int)
  | waitForRoom (timestep : Int) (arriving : Bool)
  | returnedTimestep (timestep : Int)
  | processReaderStatusList (reader : Nat) (list : List StreamStatus)
  | processReleaseList (list : List (Nat × Int))
  | discardTimestep (timestep : Int)
  | sendToReaders (timestep : Int) (reader : Nat)
  | sendRoundRobin (timestep : Int)
  | nextRoundRobin (timestep : Int)
  | sendOnDemand (timestep : Int)
  | demandedStepSent
  | providedTimestep (timestep : Int)
  -- opening readers
  | rendezvous (count : Nat)
  | acceptReaders (count : Nat)
  | waitForReader (reader : Nat)
  | sendQueued (reader : Nat) (timestep : Int)
  | sentQueued (reader : Nat) (timestep : Int)
  | adoptReaderStatus (reader : Nat)
  -- SstWriterClose
  | writerClose
  | writerCloseRest
  | writerCloseDrain
  | waitForRelease
  | replayReleases
  | streamDestroy
  deriving DecidableEq, Repr

-- The state and the tasks that follow.
abbrev Result := Outcome (Stream × List Task)

namespace Stream

variable (s : Stream)

-- Whether this rank exchanges messages with readers.
def HasPeers : Prop :=
  s.cpCommPattern = .peer ∨ s.rank = 0

instance : Decidable s.HasPeers :=
  inferInstanceAs (Decidable (_ ∨ _))

def reader (r : Nat) : Outcome ReaderInfo :=
  s.readers[r]?.orUndefined

def findEntry (t : Int) : Option TimestepEntry :=
  s.queuedTimesteps.find? (·.timestep = t)

def modifyReader (r : Nat) (f : ReaderInfo → ReaderInfo) : Stream :=
  { s with readers := s.readers.modify r f }

def modifyEntry (t : Int) (f : TimestepEntry → TimestepEntry) : Stream :=
  { s with queuedTimesteps := s.queuedTimesteps.map fun e => if e.timestep = t then f e else e }

end Stream

def TimestepEntry.Removable (e : TimestepEntry) : Prop :=
  e.expired = true ∧ e.preciousTimestep = false ∧ e.referenceCount = 0

instance : DecidablePred TimestepEntry.Removable := fun _ =>
  inferInstanceAs (Decidable (_ ∧ _))

def removeQueueEntries (s : Stream) : Stream :=
  { s with queuedTimesteps := s.queuedTimesteps.filter fun e => ¬ e.Removable }

-- The bound that SSIZE_T_MAX is where no reader is established.
def smallestLastReleasedTimestep (s : Stream) : Option Int :=
  ((s.readers.filter (·.readerStatus = .established)).map (·.lastReleasedTimestep)).min?

def expireTimesteps (smallest : Option Int) : Int → List TimestepEntry → List TimestepEntry
  | _, [] => []
  | reserveCount, e :: rest =>
    if ∀ t ∈ smallest, e.timestep ≤ t then
      let e' :=
        if reserveCount - 1 < 0 then
          { e with
            expired := true
            dpRegistered := e.dpRegistered && (e.referenceCount ≠ 0 || e.preciousTimestep) }
        else
          e
      e' :: expireTimesteps smallest (reserveCount - 1) rest
    else
      e :: expireTimesteps smallest reserveCount rest

-- Maintenance is abandoned while a reader is opening.
def Stream.Maintains (s : Stream) : Prop :=
  s.status = .established ∧ ∀ r ∈ s.readers, r.readerStatus ≠ .opening

instance : DecidablePred Stream.Maintains := fun _ =>
  inferInstanceAs (Decidable (_ ∧ _))

def queueMaintenance (s : Stream) : Stream :=
  if s.Maintains then
    -- unreferenced precious timesteps are reserve
    let reserve := s.queuedTimesteps.countP fun e => e.preciousTimestep && e.referenceCount = 0
    removeQueueEntries { s with
      queuedTimesteps := expireTimesteps (smallestLastReleasedTimestep s)
        (s.reserveQueueLimit - reserve) s.queuedTimesteps }
  else
    s

def subRefTimestep (s : Stream) (t : Int) : Stream :=
  s.modifyEntry t fun e => { e with referenceCount := e.referenceCount - 1 }

-- DerefSentTimestep where the timestep stands in the reader's list.
def derefSentTimestep (s : Stream) (r : Nat) (t : Int) : Stream :=
  (subRefTimestep s t).modifyReader r fun i =>
    { i with sentTimestepList := i.sentTimestepList.erase t }

def untagPreciousTimesteps (s : Stream) : Stream :=
  { s with queuedTimesteps := s.queuedTimesteps.map fun e =>
      if e.preciousTimestep then { e with preciousTimestep := false, expired := true } else e }

def addUniqueFormats (list candidates : List FormatID) : List FormatID :=
  candidates.foldl (fun l f => if f ∈ l then l else l ++ [f]) list

def earliestAvailableTimestepNumber (s : Stream) (currentTimestep : Int) : Int :=
  (s.queuedTimesteps.map (·.timestep)).foldl min currentTimestep

-- SendTimestepEntryToSingleReader up to where the lock is given up for the data plane.
def sendTimestepEntryToSingleReader (s : Stream) (t : Int) (r : Nat) : Result := do
  let reader ← s.reader r
  if reader.readerStatus = .established then
    let _ ← (s.findEntry t).orUndefined
    let toSend := s.previousFormats.drop reader.formatSentCount
    let s := s.modifyEntry t fun e => { e with
      referenceCount    := e.referenceCount + 1
      metaDataSendCount := e.metaDataSendCount + 1 }
    let s := s.modifyReader r fun i => { i with
      lastSentTimestep := t
      sentTimestepList := i.sentTimestepList ++ [t]
      formatSentCount  := i.formatSentCount + toSend.length }
    pure ({ s with deliveries := s.deliveries ++ [(r, t)] }, [.sendEntryMsg r t toSend])
  else
    pure (s, [])

def sendCloseMsgs (s : Stream) : List Task :=
  [.sendOneToEachReaderRank 0 (.writerClose s.lastProvidedTimestep), .closeMessagesSent]

-- The message of an entry is gone with the entry.
def Message.Alive (s : Stream) : Message → Prop
  | .deliverTimestepMetadata t _ _ => (s.findEntry t).isSome
  | .writerClose _                 => True

instance (s : Stream) : DecidablePred (Message.Alive s) := fun m => by
  cases m <;> unfold Message.Alive <;> infer_instance

-- The first request of an established reader, and the requests behind it.
def firstRequest (s : Stream) : List Nat → Outcome (Option Nat × List Nat)
  | []            => .ok (none, [])
  | r :: requests => do
    let reader ← s.reader r
    if reader.readerStatus = .established then
      pure (some r, requests)
    else
      firstRequest s requests

-- The first timestep from `t` on, among `n`, that is in the queue and can be sent.
def nextQueued (s : Stream) : Nat → Int → Option Int
  | 0, _     => none
  | n + 1, t =>
    match s.findEntry t with
    | some e => if e.expired && !e.preciousTimestep then nextQueued s n (t + 1) else some t
    | none   => nextQueued s n (t + 1)

-- What a rank does once the decision about a timestep is known.
def provideTasks (s : Stream) (t : Int) (info : ReturnMetadataInfo) : List Task :=
  .processReaderStatusList 0 info.readerStatus ::
  (if s.cpCommPattern = .min ∧ s.rank ≠ 0 then [.processReleaseList info.releaseList] else []) ++
  (if info.discardThisTimestep then
    [.sendOneToEachReaderRank 0 (.deliverTimestepMetadata t false []), .discardTimestep t]
  else
    [match s.stepDistributionMode with
      | .allToAll   => .sendToReaders t 0
      | .roundRobin => .sendRoundRobin t
      | .onDemand   => .sendOnDemand t,
    .providedTimestep t]) ++
  [.acceptReaders info.pendingReaderCount]

-- Rank 0 with the lock, when the decision about a timestep is made.
def distributeDecision (s : Stream) (t : Int) (discard arriving : Bool)
    (xmitFormats : List FormatID) : Stream × List Task :=
  let info : ReturnMetadataInfo := {
    discardThisTimestep := discard
    pendingReaderCount  := if arriving then s.readerRegisterQueue else 0
    readerStatus        := s.readers.map (·.readerStatus)
    releaseList         := s.releaseList
    formats             := [] }
  let s := { s with
    releaseList     := []
    previousFormats := addUniqueFormats s.previousFormats xmitFormats
    discarded       := if discard then s.discarded ++ [t] else s.discarded }
  (s.modifyEntry t fun e => { e with hasMetadata := true }, provideTasks s t info)

def hasRoom (s : Stream) : Prop :=
  ¬ (0 < s.queueLimit ∧ s.queueLimit < s.queuedTimesteps.length)

instance (s : Stream) : Decidable (hasRoom s) :=
  inferInstanceAs (Decidable (¬ _))

-- WriterParticipateInReaderOpen and the wait for the reader. `rest` comes behind it, or `failed`
-- where the registration fails.
def participateInReaderOpen (env : Environment) (s : Stream) (rest failed : List Task) : Result :=
  if s.rank = 0 ∧ s.readerRegisterQueue = 0 then
    .error .undefined -- assert
  else
    let s := { s with readerRegisterQueue := s.readerRegisterQueue - 1 }
    if env.openSucceeds then
      let mine := earliestAvailableTimestepNumber s s.writerTimestep
      let mine := if mine = -1 then 0 else mine
      let r := s.readers.length
      let s := { s with readers := s.readers ++ [{
        readerStatus             := .opening
        startingTimestep         := max mine env.othersStart
        lastSentTimestep         := 0
        lastReleasedTimestep     := -1
        oldestUnreleasedTimestep := 0
        formatSentCount          := 0
        sentTimestepList         := []
        peers     := if s.cpCommPattern = .peer then env.peers else if s.rank = 0 then 1 else 0
        connected := true }] }
      let wait : Task := if s.HasPeers then .waitForReader r else .adoptReaderStatus r
      .ok (s, wait :: rest)
    else
      .ok (s, failed)

def processReleases (s : Stream) (list : List (Nat × Int)) : Outcome Stream :=
  list.foldlM
    (fun s (r, t) =>
      if (s.findEntry t).isSome then do
        let _ ← s.reader r
        let s := s.modifyReader r fun i => { i with
          lastReleasedTimestep := max i.lastReleasedTimestep t }
        pure (s.modifyEntry t fun e => { e with referenceCount := 0 })
      else
        pure s)
    s

-- The timestep behind `t` in the queue, for a list pointer to the entry of `t`.
def nextEntry (t : Int) : List TimestepEntry → Option Int
  | []        => none
  | e :: rest => if e.timestep = t then rest.head?.map (·.timestep) else nextEntry t rest

-- The first timestep from a list pointer on that the reader has been sent.
def firstSentFrom (s : Stream) (reader : ReaderInfo) (t : Int) : Option Int :=
  ((s.queuedTimesteps.dropWhile (·.timestep ≠ t)).find? fun e =>
    e.timestep ∈ reader.sentTimestepList).map (·.timestep)

-- The loop of DerefAllSentTimesteps, up to where a dereference gives up the lock. The pointer to the
-- next entry is read before that.
def derefAllFrom (s : Stream) (reader : ReaderInfo) (r : Nat) (list : Option Int) :
    Stream × List Task :=
  match list.bind (firstSentFrom s reader) with
  | none   => (s, [])
  | some t => (derefSentTimestep s r t, [.derefAllSentTimesteps r (nextEntry t s.queuedTimesteps)])

-- CP_PeerFailCloseWSReader, up to where the lock is given up.
def peerFailCloseWSReader (s : Stream) (r : Nat) (newState : StreamStatus) : Result := do
  let reader ← s.reader r
  if s.status ≠ .established ∨ reader.readerStatus = newState then
    pure (s, [])
  else
    let s := s.modifyReader r fun i => { i with readerStatus := newState }
    if newState = .peerClosed ∨ newState = .closed ∨ newState = .peerFailed then
      let (s, ts) := derefAllFrom s reader r (s.queuedTimesteps.head?.map (·.timestep))
      pure (s, ts ++ [.peerFailCloseRest r newState])
    else
      pure (queueMaintenance s, [])

-- `CP_PeerFailCloseWSReader` and what its caller goes on with.
def peerFailCloseThen (s : Stream) (r : Nat) (newState : StreamStatus) (rest : List Task) :
    Result := do
  let (s, ts) ← peerFailCloseWSReader s r newState
  pure (s, ts ++ rest)

-- The task that comes next where the lock is kept.
def Task.KeepsLock : Task → Prop
  | .providedTimestep _ => True
  | _                   => False

instance : DecidablePred Task.KeepsLock := fun task => by
  unfold Task.KeepsLock
  split <;> infer_instance

-- What a task waits for once it has the lock.
def Task.WaitsFor (s : Stream) : Task → Prop
  | .waitForRoom _ _  => hasRoom s
  | .waitForReader r  => ∀ i ∈ s.readers[r]?, i.readerStatus ≠ .opening
  | .rendezvous count => 0 < count → s.rank = 0 → 0 < s.readerRegisterQueue
  -- the end of the stream is left out
  | .streamDestroy    => False
  | _                 => True

instance (s : Stream) : DecidablePred (Task.WaitsFor s) := fun task => by
  unfold Task.WaitsFor
  split <;> infer_instance

def taskReady (task : Task) (s : Stream) : Prop :=
  (s.held = true → task.KeepsLock) ∧ task.WaitsFor s

instance (task : Task) (s : Stream) : Decidable (taskReady task s) :=
  inferInstanceAs (Decidable (_ ∧ _))

def execTask (env : Environment) (task : Task) (s : Stream) : Result :=
  match task with
  | .derefAllSentTimesteps r list => do
    let reader ← s.reader r
    -- the entry must still be there
    if ∀ t ∈ list, (s.findEntry t).isSome then
      pure (derefAllFrom s reader r list)
    else
      .error .undefined
  | .peerFailCloseRest r newState =>
    let s := s.modifyReader r fun i => { i with
      oldestUnreleasedTimestep := i.lastSentTimestep + 1
      connected                := false }
    let s := if newState = .peerFailed then { s with delayedTasks := s.delayedTasks ++ [r] } else s
    pure (queueMaintenance s, [])
  | .sendEntryMsg r t formats => do
    let reader ← s.reader r
    if reader.readerStatus = .established then
      let e ← (s.findEntry t).orUndefined
      pure (s, [.sendOneToWSRCohort r 0 (.deliverTimestepMetadata t e.hasMetadata formats)])
    else
      pure (s, [])
  | .sendOneToWSRCohort r peer msg => do
    let reader ← s.reader r
    if peer < reader.peers then
      if reader.connected then
        pure (s, [.cmWrite r peer msg])
      else
        pure (s, [.sendOneToWSRCohort r (peer + 1) msg])
    else
      pure (s, [])
  | .cmWrite r peer msg =>
    if msg.Alive s then
      if env.writeSucceeds then
        pure ({ s with written := s.written ++ [{ reader := r, peer, msg }] },
          [.sendOneToWSRCohort r (peer + 1) msg])
      else
        peerFailCloseThen s r .peerFailed [.sendOneToWSRCohort r (peer + 1) msg]
    else
      .error .undefined
  | .sendOneToEachReaderRank r msg =>
    match s.readers[r]? with
    | none        => pure (s, [])
    | some reader =>
      if reader.readerStatus = .established then
        pure (s, [.sendOneToWSRCohort r 0 msg, .sendOneToEachReaderRank (r + 1) msg])
      else
        pure (s, [.sendOneToEachReaderRank (r + 1) msg])
  | .closeMessagesSent => pure ({ s with closeMessagesSent := true }, [])
  | .connClose r => do
    let reader ← s.reader r
    if s.status = .destroyed then
      pure (s, [])
    else
      match reader.readerStatus with
      | .established          => peerFailCloseThen s r .peerFailed [.queueMaintenance]
      -- the main thread will be waiting for this
      | .opening              => pure (queueMaintenance s, [])
      | .peerClosed | .closed => pure (queueMaintenance s, [])
      | _                     => pure (s, [])
  | .readerClose r =>
    if s.status = .established then
      peerFailCloseWSReader s r .peerClosed
    else
      pure (s, [])
  | .closeWSRStream r =>
    peerFailCloseWSReader { s with delayedTasks := s.delayedTasks.erase r } r .peerClosed
  | .readerRegister => pure ({ s with readerRegisterQueue := s.readerRegisterQueue + 1 }, [])
  | .readerActivate r => do
    let _ ← s.reader r
    pure (s.modifyReader r fun i => { i with readerStatus := .established }, [])
  | .readerRequestStep r => do
    if s.cpCommPattern = .peer then
      .error .undefined -- assert
    else if s.closeMessagesSent then
      pure (s, [])
    else
      let reader ← s.reader r
      let s : Stream := { s with requests := s.requests ++ [r] }
      let queued : Stream × List Task :=
        ({ s with stepRequestQueue := s.stepRequestQueue ++ [r] }, [])
      if reader.readerStatus = .established then
        let nextTS : Int := s.lastDemandTimestep + 1
        match s.queuedTimesteps.find? fun e =>
          e.timestep = nextTS && !e.inProgressFlag && !(e.expired && !e.preciousTimestep) with
        | some e => do
          let (s, ts) ← sendTimestepEntryToSingleReader
            { s with lastDemandTimestep := e.timestep } e.timestep r
          pure (s, ts ++ [.requestedStepSent])
        | none => pure queued
      else
        pure queued
  | .requestedStepSent =>
    pure (s, if s.lastDemandTimestep = s.closeTimestepCount then sendCloseMsgs s else [])
  | .releaseTimestep r t => do
    if s.status = .destroyed then
      pure (s, [])
    else
      let reader ← s.reader r
      let s := s.modifyReader r fun i => { i with lastReleasedTimestep := t }
      let s := if s.rank = 0 ∧ s.cpCommPattern = .min then
        { s with releaseList := s.releaseList ++ [(r, t)] } else s
      let s := if t ∈ reader.sentTimestepList then derefSentTimestep s r t else s
      pure (s, [.releaseTimestepRest r t])
  | .releaseTimestepRest r t =>
    pure ((queueMaintenance s).modifyReader r fun i => { i with oldestUnreleasedTimestep := t + 1 },
      [])
  | .queueMaintenance => pure (queueMaintenance s, [])
  | .queueTimestep t =>
    let entry : TimestepEntry := {
      timestep          := t
      metaDataSendCount := 0
      -- holding one for us, so it doesn't disappear under us
      referenceCount    := 1
      inProgressFlag    := true
      expired           := false
      preciousTimestep  := s.firstTimestepPrecious && t = 0
      dpRegistered      := true
      hasMetadata       := false }
    pure ({ s with
      writerTimestep       := t
      lastProvidedTimestep := t
      queuedTimesteps      := entry :: s.queuedTimesteps },
      [if s.rank = 0 then .decideTimestep t else .returnedTimestep t])
  | .decideTimestep t =>
    let arriving : Bool := 0 < s.readerRegisterQueue
    let s := queueMaintenance s
    match s.queueFullPolicy with
    | .discard =>
      let s := queueMaintenance s
      pure (distributeDecision s t (s.queueLimit < s.queuedTimesteps.length) arriving
        env.returned.formats)
    | .block => pure (s, [.waitForRoom t arriving])
  | .waitForRoom t arriving => pure (distributeDecision s t false arriving env.returned.formats)
  | .returnedTimestep t =>
    let s := { s with
      previousFormats := addUniqueFormats s.previousFormats env.returned.formats
      discarded       :=
        if env.returned.discardThisTimestep then s.discarded ++ [t] else s.discarded }
    pure (s.modifyEntry t fun e => { e with hasMetadata := true }, provideTasks s t env.returned)
  | .processReaderStatusList _ [] => pure (s, [])
  | .processReaderStatusList r (status :: list) => do
    let reader ← s.reader r
    if reader.readerStatus = status then
      pure (s, [.processReaderStatusList (r + 1) list])
    else
      peerFailCloseThen s r status [.processReaderStatusList (r + 1) list]
  | .processReleaseList list => do
    let s ← processReleases s list
    pure (queueMaintenance s, [])
  | .discardTimestep t =>
    let s := s.modifyEntry t fun e => { e with
      expired        := true
      referenceCount := 0
      hasMetadata    := false }
    pure (queueMaintenance s, [])
  | .sendToReaders t r =>
    if r < s.readers.length then do
      let (s, ts) ← sendTimestepEntryToSingleReader s t r
      pure (s, ts ++ [.sendToReaders t (r + 1)])
    else
      pure (s, [])
  | .sendRoundRobin t =>
    if s.readers = [] then
      pure (s, [])
    else do
      let next := if s.readers.length ≤ s.nextRRDistribution then 0 else s.nextRRDistribution
      let (s, ts) ← sendTimestepEntryToSingleReader { s with nextRRDistribution := next } t next
      pure (s, ts ++ [.nextRoundRobin t])
  -- there is no break between the cases
  | .nextRoundRobin t =>
    pure ({ s with nextRRDistribution := s.nextRRDistribution + 1 }, [.sendOnDemand t])
  | .sendOnDemand t =>
    if s.readers = [] then
      pure ({ s with held := true }, [])
    else do
      let (request, requests) ← firstRequest s s.stepRequestQueue
      let s := { s with stepRequestQueue := requests }
      match request with
      | none   => pure ({ s with held := true }, [])
      | some r => do
        let (s, ts) ← sendTimestepEntryToSingleReader { s with lastDemandTimestep := t } t r
        pure (s, ts ++ [.demandedStepSent])
  | .demandedStepSent =>
    pure (s, if s.closeTimestepCount ≠ -1 ∧ s.lastDemandTimestep = s.closeTimestepCount then
      sendCloseMsgs s else [])
  | .providedTimestep t =>
    let s : Stream := { s with held := false }
    let s := s.modifyEntry t fun e => { e with inProgressFlag := false }
    pure (queueMaintenance (subRefTimestep s t), [])
  | .rendezvous 0 => pure ({ s with status := .established }, [])
  | .rendezvous (count + 1) => participateInReaderOpen env s [.rendezvous count] [.rendezvous 0]
  | .acceptReaders 0 => pure (s, [])
  | .acceptReaders (count + 1) => participateInReaderOpen env s [.acceptReaders count] []
  | .waitForReader r => do
    let reader ← s.reader r
    if reader.readerStatus = .established then
      let s := s.modifyReader r fun i => { i with oldestUnreleasedTimestep := i.startingTimestep }
      pure (s, if s.stepDistributionMode = .allToAll then
        [.sendQueued r reader.startingTimestep] else [])
    else
      .error .undefined -- the lock is given up twice
  | .sendQueued r t => do
    let reader ← s.reader r
    if reader.readerStatus = .established then
      match nextQueued s (s.lastProvidedTimestep + 1 - t).toNat t with
      | none    => pure (s, [])
      | some t' => do
        let (s, ts) ← sendTimestepEntryToSingleReader s t' r
        pure (s, ts ++ [.sentQueued r t'])
    else
      pure (s, [])
  | .sentQueued r t => do
    -- the loop goes on behind this entry
    let _ ← (s.findEntry t).orUndefined
    pure (s, [.sendQueued r (t + 1)])
  | .adoptReaderStatus r => do
    let _ ← s.reader r
    pure (s.modifyReader r fun i => { i with readerStatus := env.readerStatus }, [])
  | .writerClose =>
    let s := { s with closeTimestepCount := s.writerTimestep }
    pure (s, (if s.stepDistributionMode ≠ .onDemand ∨ s.lastDemandTimestep = s.closeTimestepCount
      then sendCloseMsgs s else []) ++ [.writerCloseRest])
  | .writerCloseRest =>
    pure (queueMaintenance { untagPreciousTimesteps s with reserveQueueLimit := 0 },
      [.writerCloseDrain])
  | .writerCloseDrain =>
    if s.HasPeers then
      pure ({ s with releaseList := [], stepRequestQueue := [] }, [.waitForRelease])
    else
      pure (s, [.replayReleases])
  | .waitForRelease =>
    if s.queuedTimesteps = [] then
      pure ({ s with releaseList := [] }, [.streamDestroy])
    else
      pure ({ s with releaseList := if s.cpCommPattern = .min then [] else s.releaseList },
        [.waitForRelease])
  | .replayReleases =>
    if env.closeReplayEnds then
      pure (s, [.streamDestroy])
    else if env.returned.releaseList = [] then
      pure (s, [.replayReleases])
    else do
      let s ← processReleases s env.returned.releaseList
      pure (queueMaintenance s, [.replayReleases])
  | .streamDestroy => pure (s, [])

inductive Thread
  | main
  | network
  deriving DecidableEq, Repr

-- The application provides timesteps in ascending order until it closes the stream. The readers send
-- their messages in any order; they request steps where the distribution is on demand, and not before
-- they are open.
def Begins : Thread → Stream → List Task → Prop
  | .main, s, [.queueTimestep t] => s.status = .established ∧ 0 ≤ t ∧ s.writerTimestep < t
  | .main, s, [.writerClose]            => s.status = .established
  | .network, s, [.connClose r]         => s.HasPeers ∧ r < s.readers.length
  | .network, s, [.readerClose r]       => s.HasPeers ∧ r < s.readers.length
  | .network, s, [.closeWSRStream r]    => r ∈ s.delayedTasks
  | .network, s, [.readerRegister]      => s.rank = 0
  | .network, s, [.readerActivate r]    => s.HasPeers ∧ r < s.readers.length
  | .network, s, [.readerRequestStep r] =>
    s.HasPeers ∧ s.stepDistributionMode = .onDemand ∧
      ∃ i ∈ s.readers[r]?, i.readerStatus ≠ .opening
  | .network, s, [.releaseTimestep r _] => s.HasPeers ∧ r < s.readers.length
  | _, _, _                             => False

instance (i : Thread) (s : Stream) (ts : List Task) : Decidable (Begins i s ts) := by
  unfold Begins
  split <;> infer_instance

def writer : Program Thread Stream Task Environment where
  ready  := taskReady
  exec   := execTask
  begins := Begins

instance (t : Task) (s : Stream) : Decidable (writer.ready t s) :=
  inferInstanceAs (Decidable (taskReady t s))

instance (i : Thread) (s : Stream) (ts : List Task) : Decidable (writer.begins i s ts) :=
  inferInstanceAs (Decidable (Begins i s ts))

structure Parameters where
  rank                  : Nat
  cpCommPattern         : CPCommPattern
  stepDistributionMode  : StepDistributionMode
  queueFullPolicy       : QueueFullPolicy
  queueLimit            : Nat
  firstTimestepPrecious : Bool
  reserveQueueLimit     : Nat
  rendezvousReaderCount : Nat

def Stream.new (p : Parameters) : Stream where
  rank                  := p.rank
  cpCommPattern         := p.cpCommPattern
  stepDistributionMode  := p.stepDistributionMode
  queueFullPolicy       := p.queueFullPolicy
  queueLimit            := p.queueLimit
  firstTimestepPrecious := p.firstTimestepPrecious
  reserveQueueLimit     := p.reserveQueueLimit
  status                := .notOpen
  queuedTimesteps       := []
  readers               := []
  readerRegisterQueue   := 0
  writerTimestep        := -1
  lastProvidedTimestep  := 0
  nextRRDistribution    := 0
  lastDemandTimestep    := -1
  closeTimestepCount    := -1
  stepRequestQueue      := []
  closeMessagesSent     := false
  releaseList           := []
  previousFormats       := []
  delayedTasks          := []
  held                  := false
  written               := []
  deliveries            := []
  discarded             := []
  requests              := []

abbrev Writer := Configuration Thread Stream Task

-- SstWriterOpen, where it begins to wait for readers.
def Writer.opening (p : Parameters) : Writer where
  state   := .new p
  threads := fun
    | .main    => [.rendezvous p.rendezvousReaderCount]
    | .network => []

end Sst
