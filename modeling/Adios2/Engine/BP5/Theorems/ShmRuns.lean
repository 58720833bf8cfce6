import Adios2.Engine.BP5.Theorems.ShmTurns

-- Every step of a group keeps what holds of the token, the tasks, the file and the shared memory.

namespace BP5

open Bytes FilePOSIX MPIShmChain Posix Threads

-- No call of `writev` by a task is cut short.
def ShmTask.Uncut (g : ShmGroup) (e : List Schedule) : ShmTask → ShmState → Prop
  | .writeMyOwnData, s    =>
    if g.asyncWrite then
      ∀ iov ∈ rushed (asyncMaxSize (g.dataSize 0)) e (g.dataVec 0) 0,
        NeverCut (batches iov) s.file.writevs
    else
      ∀ file, writeV g.subStreamName s.file (g.dataVec 0) (some s.dataPos) = .ok file →
        NeverCut (batches (g.dataVec 0)) s.file.writevs
  | .writeBuffer sdb _, s =>
    g.asyncWrite = true → ∀ bs, s.shm.readFrom 0 sdb = .ok bs →
      ∀ iov ∈ rushed (asyncMaxSize bs.length) e [bs] 0, NeverCut (batches iov) s.file.writevs
  | _, _                  => True

-- With asynchronous writing no call throws either.
def ShmGroup.Undisturbed (g : ShmGroup) (c : Configuration Nat ShmState ShmTask) :
    Event Nat ShmTask (List Schedule) → Prop
  | .run i e => ∀ t ∈ (c.threads i).head?, t.Uncut g e c.state ∧
    (g.asyncWrite = true → ∀ s' ts, t.exec g e c.state = .ok (s', ts) → s'.eptr = none)
  | .start .. => True

-- There is room for what is to be copied.
structure ShmGroup.Roomy (g : ShmGroup) : Prop where
  placed : g.Placed
  room   : ∀ r, (g.dataVec r).flatten ≠ [] → 0 < g.shmSize.blockSize

structure InvAt (g : ShmGroup) (f₀ : File) (turn : Nat) (left : List (List Byte))
    (p : ProducerPhase) (k : ConsumerPhase) (c : Configuration Nat ShmState ShmTask) : Prop where
  le         : turn ≤ (g.rounds + 1) * g.size
  current    : c.state.currentRank = turn % g.size
  token      : 0 < turn % g.size → c.state.token = g.offset (turn % g.size)
  start      : c.state.startDataPos 0 = g.dataPos
  started    : ∀ r, 0 < r → r < g.size → r < turn → c.state.startDataPos r = g.offset r
  waiting    : ∀ r, 0 < r → r ≠ turn % g.size → c.threads r = g.waiting r turn
  active     : Turn g c.state turn (turn % g.size) (c.threads (turn % g.size)) p left
  aggregator : AggregatorAt g f₀ c.state turn (c.threads 0) k
  shared     : Shared g c.state (turn % g.size) left g.pieces p k

variable {g : ShmGroup} {f₀ : File} {turn : Nat} {left : List (List Byte)} {p : ProducerPhase}
  {k : ConsumerPhase} {c : Configuration Nat ShmState ShmTask}

theorem Shared.congr {s s' : ShmState} {r r' : Nat} {pieces : List (List Byte)}
    (h : Shared g s r left pieces p k) (hr : p.Pointed → r' = r) (hshm : s'.shm = s.shm)
    (hreleased : s'.released = s.released) (hconsumed : s'.consumed = s.consumed) :
    Shared g s' r' left pieces p k where
  pieces          := hreleased ▸ h.pieces
  taken           := by rw [hreleased, hconsumed]; exact h.taken
  count           := by rw [hshm, hreleased, hconsumed]; exact h.count
  count_le        := hshm ▸ h.count_le
  producerBuffer  := by rw [hshm, hreleased]; exact h.producerBuffer
  consumerBuffer  := by rw [hshm, hconsumed]; exact h.consumerBuffer
  lock            := by rw [hshm, hreleased, hconsumed]; exact h.lock
  exclusive       := by rw [hreleased, hconsumed]; exact h.exclusive
  room            := hshm ▸ h.room
  full            := hshm ▸ h.full
  pointed         := fun hp => by rw [hshm, hreleased, hr hp]; exact h.pointed hp
  pointedConsumer := by rw [hshm, hconsumed]; exact h.pointedConsumer
  maxSize         := hshm ▸ h.maxSize
  length          := hshm ▸ h.length
  contents        := fun i bs hi hbs =>
    (h.contents i bs (hconsumed ▸ hi) (hreleased ▸ hbs)).congr (by rw [hshm]) (by rw [hshm])
  filled          := fun hp => by
    have ⟨bs, hhead, hbs⟩ := h.filled hp
    rw [hreleased]
    exact ⟨bs, hhead, hbs.congr (by rw [hshm]) (by rw [hshm])⟩

namespace InvAt

-- The rank that has the token goes on.
theorem updateTurn {s' : ShmState} {tasks : List ShmTask} {left' : List (List Byte)}
    {p' : ProducerPhase} (h : InvAt g f₀ turn left p k c) (hpos : 0 < turn % g.size)
    (hcurrent : s'.currentRank = c.state.currentRank) (htoken : s'.token = c.state.token)
    (hstart : ∀ r < turn, s'.startDataPos r = c.state.startDataPos r)
    (hfile : s'.file = c.state.file) (heptr : s'.eptr = c.state.eptr)
    (hconsumed : s'.consumed = c.state.consumed)
    (hstartPos : s'.startPos 0 = c.state.startPos 0) (hdataPos : s'.dataPos = c.state.dataPos)
    (hturn : Turn g s' turn (turn % g.size) tasks p' left')
    (hshared : Shared g s' (turn % g.size) left' g.pieces p' k) :
    InvAt g f₀ turn left' p' k
      { state := s', threads := Function.update c.threads (turn % g.size) tasks } where
  le         := h.le
  current    := hcurrent.trans h.current
  token      := fun ht => htoken.trans (h.token ht)
  start      := (hstart 0 (hpos.trans_le (Nat.mod_le _ _))).trans h.start
  started    := fun r h₀ hr hlt => (hstart r hlt).trans (h.started r h₀ hr hlt)
  waiting    := fun r h₀ hne => by
    dsimp only
    rw [Function.update_of_ne hne]
    exact h.waiting r h₀ hne
  active     := by
    dsimp only
    rwa [Function.update_self]
  aggregator := by
    dsimp only
    rw [Function.update_of_ne hpos.ne]
    exact h.aggregator.congr hfile heptr hconsumed hstartPos hdataPos
  shared     := hshared

-- The aggregator goes on.
theorem updateAggregator {s' : ShmState} {tasks : List ShmTask} {k' : ConsumerPhase}
    (h : InvAt g f₀ turn left p k c) (hcurrent : s'.currentRank = c.state.currentRank)
    (htoken : s'.token = c.state.token) (hstart : s'.startDataPos = c.state.startDataPos)
    (hstartPos : ∀ r, 0 < r → s'.startPos r = c.state.startPos r)
    (hreleased : s'.released = c.state.released)
    (haggregator : AggregatorAt g f₀ s' turn tasks k')
    (hshared : Shared g s' (turn % g.size) left g.pieces p k') :
    InvAt g f₀ turn left p k' { state := s', threads := Function.update c.threads 0 tasks } where
  le         := h.le
  current    := hcurrent.trans h.current
  token      := fun ht => htoken.trans (h.token ht)
  start      := by rw [hstart, h.start]
  started    := fun r h₀ hr hlt => by rw [hstart, h.started r h₀ hr hlt]
  waiting    := fun r h₀ hne => by
    dsimp only
    rw [Function.update_of_ne h₀.ne']
    exact h.waiting r h₀ hne
  active     := by
    have hturn := h.active.congr (congrFun hstart _) (hstartPos _) hreleased
    rcases Nat.eq_zero_or_pos (turn % g.size) with hzero | hpos
    · generalize c.threads (turn % g.size) = ts at hturn
      cases hturn with
      | aggregator => exact .aggregator hzero
      | joining pos | joined pos | receiving pos | producing pos | sending pos =>
        exact absurd hzero pos.ne'
    · dsimp only
      rwa [Function.update_of_ne hpos.ne']
  aggregator := by
    dsimp only
    rwa [Function.update_self]
  shared     := hshared

theorem turn_succ_mod {n : Nat} (hn : 0 < n) (turn : Nat) :
    (turn + 1) % n = if turn % n < n - 1 then turn % n + 1 else 0 := by
  have hlt := Nat.mod_lt turn hn
  rw [Nat.add_mod]
  split
  case isTrue h => rw [Nat.mod_eq_of_lt (show 1 < n by omega), Nat.mod_eq_of_lt (by omega)]
  case isFalse h =>
    rcases Nat.lt_or_ge 1 n with h1 | h1
    · rw [Nat.mod_eq_of_lt h1, show turn % n + 1 = n by omega, Nat.mod_self]
    · rw [show n = 1 by omega, Nat.mod_one]

-- The token is sent on. The rank that sends it is in front of its next round, or has done everything.
theorem next {tasks : List ShmTask} {value : Nat} {s' : ShmState}
    (h : InvAt g f₀ turn left .idle k c) (hlt : turn < (g.rounds + 1) * g.size)
    (hleft : left = g.pending (turn + 1)) (hvalue : value = g.offset (turn % g.size + 1))
    (hsend : c.state.sendToken g (turn % g.size) value = .ok s')
    (hstarted : 0 < turn → turn = turn % g.size → c.state.startDataPos turn = g.offset turn)
    (htasks : 0 < turn % g.size → tasks = g.waiting (turn % g.size) (turn + 1))
    (haggregator : AggregatorAt g f₀ c.state (turn + 1)
      (if turn % g.size = 0 then tasks else c.threads 0) k) :
    InvAt g f₀ (turn + 1) left .idle k
      { state := s', threads := Function.update c.threads (turn % g.size) tasks } := by
  have hmod := turn_succ_mod (ShmGroup.size_pos (g := g)) turn
  rw [ShmState.sendToken, if_neg (not_not.mpr h.current.symm)] at hsend
  cases hsend
  exact {
    le         := hlt
    current    := hmod.symm
    token      := fun ht => by
      rw [hmod] at ht ⊢
      split at ht
      case isTrue hr => rw [if_pos hr, hvalue]
      case isFalse => exact absurd ht (Nat.lt_irrefl 0)
    start      := h.start
    started    := fun r h₀ hr hr' => by
      rcases (Nat.lt_succ_iff.mp hr').lt_or_eq with hlt' | heq
      · exact h.started r h₀ hr hlt'
      · subst heq
        exact hstarted h₀ (Nat.mod_eq_of_lt hr).symm
    waiting    := fun r h₀ hr => by
      dsimp only
      by_cases heq : r = turn % g.size
      case pos =>
        subst heq
        rw [Function.update_self, htasks h₀]
      case neg =>
        rw [Function.update_of_ne heq, h.waiting r h₀ heq, ShmGroup.waiting_succ (Ne.symm heq)]
    active     := by
      dsimp only
      rcases Nat.eq_zero_or_pos ((turn + 1) % g.size) with hzero | hpos
      · rw [hleft]
        exact .aggregator hzero
      · have heq : (turn + 1) % g.size ≠ turn % g.size := by
          rw [hmod] at hpos ⊢
          split at hpos
          case isTrue hr =>
            rw [if_pos hr]
            omega
          case isFalse => exact absurd hpos (Nat.lt_irrefl 0)
        rw [Function.update_of_ne heq, h.waiting _ hpos heq, ← ShmGroup.waiting_succ heq.symm, hleft]
        exact .of_waiting hlt rfl
    aggregator := by
      dsimp only
      split at haggregator
      case isTrue hzero =>
        rw [hzero, Function.update_self]
        exact haggregator.congr rfl rfl rfl rfl rfl
      case isFalse hpos =>
        rw [Function.update_of_ne (Ne.symm hpos)]
        exact haggregator.congr rfl rfl rfl rfl rfl
    shared     := h.shared.congr (False.elim ·) rfl rfl rfl }

end InvAt

def Inv (g : ShmGroup) (f₀ : File) (c : Configuration Nat ShmState ShmTask) : Prop :=
  ∃ turn left p k, InvAt g f₀ turn left p k c

theorem recvToken_main {s : ShmState} {r : Nat} (hr : 0 < r) : s.recvToken r .main =
    { s with startDataPos := Function.update s.startDataPos r s.token } := by
  obtain ⟨r, rfl⟩ := Nat.exists_eq_succ_of_ne_zero hr.ne'
  rfl

theorem recvToken_thread {s : ShmState} {r : Nat} (hr : 0 < r) : s.recvToken r .thread =
    { s with startPos := Function.update s.startPos r s.token } := by
  obtain ⟨r, rfl⟩ := Nat.exists_eq_succ_of_ne_zero hr.ne'
  rfl

namespace ShmGroup

-- The position that goes to the next rank.
theorem exec_sendToken_dataPart {s : ShmState} {r : Nat} {e : List Schedule} :
    (ShmTask.sendToken r g.dataPart).exec g e s = (do
      let s ← s.sendToken g r (s.position g r + g.dataSize r)
      return (s, [])) := by
  unfold ShmTask.exec dataPart ShmState.position
  cases g.asyncWrite <;> rfl

theorem lastTurn_lt {r : Nat} (hr : r < g.size) : g.lastTurn r < (g.rounds + 1) * g.size := by
  rw [lastTurn, Nat.succ_mul]
  omega

theorem Roomy.copyable (h : g.Roomy) (r : Nat) : Copyable g.shmSize.blockSize (g.dataVec r) 0 where
  inFirst := .zero
  empty   := fun _ => rfl
  room    := h.room r

theorem fills_eq {r : Nat} (hr : 0 < r) :
    g.fills r = fillsFrom g.shmSize.blockSize (g.dataVec r) 0 :=
  if_neg hr.ne'

end ShmGroup

-- The rank that is sending its data goes on to another of its tasks.
theorem InvAt.updateProducing {shm : ShmSegment} {released left' : List (List Byte)} {t : ShmTask}
    {p' : ProducerPhase} (h : InvAt g f₀ turn left p k c) (hpos : 0 < turn % g.size)
    (last : turn = g.lastTurn (turn % g.size))
    (position : c.state.position g (turn % g.size) = g.offset (turn % g.size))
    (hproducing : Producing g (turn % g.size) released.length t p' left')
    (hshared : Shared g { c.state with shm, released } (turn % g.size)
      (left' ++ g.pending (turn + 1)) g.pieces p' k) :
    Inv g f₀ {
      state   := { c.state with shm, released }
      threads := Function.update c.threads (turn % g.size)
        [t, .sendToken (turn % g.size) g.dataPart] } :=
  ⟨turn, _, _, k, h.updateTurn hpos rfl rfl (fun _ _ => rfl) rfl rfl rfl rfl rfl
    (.producing hpos last position hproducing) hshared⟩

-- A step of the rank that has the token.
theorem InvAt.turnStep {e : List Schedule} {t : ShmTask} {rest ts : List ShmTask} {s' : ShmState}
    (h : InvAt g f₀ turn left p k c) (roomy : g.Roomy) (hpos : 0 < turn % g.size)
    (thread : c.threads (turn % g.size) = t :: rest) (ready : t.ready g c.state)
    (exec : t.exec g e c.state = .ok (s', ts)) :
    Inv g f₀ { state := s', threads := Function.update c.threads (turn % g.size) (ts ++ rest) } := by
  have hlt : turn % g.size < g.size := Nat.mod_lt _ ShmGroup.size_pos
  have hactive := h.active
  rw [thread] at hactive
  generalize hts : t :: rest = tasks at hactive
  have htoken := h.token hpos
  cases hactive with
  | aggregator hzero => omega
  | joining _ async first =>
    cases hts
    cases exec
    rw [recvToken_main hpos]
    refine ⟨turn, _, _, k, h.updateTurn hpos rfl rfl (fun r hr => ?_) rfl rfl rfl rfl rfl
      (.joined hpos async first ?_) (h.shared.congr (fun _ => rfl) rfl rfl rfl)⟩
    · exact Function.update_of_ne (by omega) _ _
    · simpa using htoken
  | joined _ async first position =>
    cases hts
    obtain ⟨s₁, hsend, exec⟩ := Outcome.bind_eq_ok.mp exec
    cases exec
    have hrounds : turn < g.rounds * g.size := by
      rw [ShmGroup.rounds, if_pos async]
      omega
    have hlt' : turn < (g.rounds + 1) * g.size := by
      rw [Nat.succ_mul]
      omega
    refine ⟨turn + 1, _, _, k, h.next hlt' (ShmGroup.pending_of_lt hrounds).symm ?_ hsend ?_ ?_ ?_⟩
    · rw [ShmGroup.offset_succ, position]
    · intro _ heq
      rw [heq, position]
    · intro _
      rw [List.nil_append, ← ShmGroup.waiting_first_succ hlt async, ← first]
    · rw [if_neg hpos.ne']
      exact h.aggregator.next hpos.ne'
  | receiving _ last =>
    cases hts
    cases exec
    have hleft : g.pending turn =
        fillsFrom g.shmSize.blockSize ((g.dataVec (turn % g.size)).drop 0) 0 ++
          g.pending (turn + 1) := by
      rw [List.drop_zero, ← ShmGroup.fills_eq hpos]
      conv_lhs => rw [last, ShmGroup.pending_lastTurn hlt, ← last]
    have hfirst : Producing g (turn % g.size) c.state.released.length
        (.sendData (turn % g.size) 0 0) .idle _ := .sendData (roomy.copyable _)
    cases hasync : g.asyncWrite with
    | false =>
      have hpart : g.dataPart = .main := by simp [ShmGroup.dataPart, hasync]
      have hturn : turn = turn % g.size := by simpa [ShmGroup.lastTurn, ShmGroup.rounds, hasync] using last
      rw [hpart, recvToken_main hpos, ← hpart]
      refine ⟨turn, _, _, k, h.updateTurn hpos rfl rfl (fun r hr => ?_) rfl rfl rfl rfl rfl
        (.producing hpos last ?_ hfirst) ?_⟩
      · exact Function.update_of_ne (by omega) _ _
      · simpa [ShmState.position, hasync] using htoken
      · rw [← hleft]
        exact h.shared.congr (fun _ => rfl) rfl rfl rfl
    | true =>
      have hpart : g.dataPart = .thread := by simp [ShmGroup.dataPart, hasync]
      rw [hpart, recvToken_thread hpos, ← hpart]
      refine ⟨turn, _, _, k, h.updateTurn hpos rfl rfl (fun r hr => rfl) rfl rfl rfl ?_ rfl
        (.producing hpos last ?_ hfirst) ?_⟩
      · exact Function.update_of_ne hpos.ne _ _
      · simpa [ShmState.position, hasync] using htoken
      · rw [← hleft]
        exact h.shared.congr (fun _ => rfl) rfl rfl rfl
  | sending _ last position =>
    cases hts
    rw [ShmGroup.exec_sendToken_dataPart] at exec
    obtain ⟨s₁, hsend, exec⟩ := Outcome.bind_eq_ok.mp exec
    cases exec
    refine ⟨turn + 1, _, _, k, h.next ?_ rfl ?_ hsend ?_ ?_ ?_⟩
    · rw [last]
      exact ShmGroup.lastTurn_lt hlt
    · rw [ShmGroup.offset_succ, position]
    · intro _ heq
      have hasync : g.asyncWrite = false := by
        by_contra hasync
        have : 0 < g.size := ShmGroup.size_pos
        rw [ShmGroup.lastTurn, ShmGroup.rounds, if_pos (by simpa using hasync)] at last
        omega
      rw [heq]
      simpa [ShmState.position, hasync] using position
    · intro _
      have hdone := ShmGroup.waiting_lastTurn_succ (g := g) (r := turn % g.size)
      rw [← last] at hdone
      exact hdone.symm
    · rw [if_neg hpos.ne']
      exact h.aggregator.next hpos.ne'
  | producing _ last position hp =>
    cases hts
    have hshared := h.shared
    cases hp with
    | @sendData block tempOffset hcopy =>
      cases exec
      split
      case isTrue hblock =>
        exact h.updateProducing hpos last position (.choose hblock hcopy)
          (hshared.waitRoom (ready hblock))
      case isFalse hblock =>
        have hnil : (g.dataVec (turn % g.size)).drop block = [] :=
          List.drop_eq_nil_of_le (not_lt.mp hblock)
        rw [hnil, fillsFrom_nil, List.nil_append] at h
        exact ⟨turn, _, _, k, h.updateTurn hpos rfl rfl (fun _ _ => rfl) rfl rfl rfl rfl rfl
          (.sending hpos last position) h.shared⟩
    | choose hblock hcopy =>
      cases exec
      have hnext : ShmSegment.next c.state.shm.producerBuffer =
          bufferOf c.state.released.length := by
        rw [hshared.producerBuffer]
        exact next_lastUsed _
      rw [hnext]
      exact h.updateProducing hpos last position (.lock hblock hcopy) hshared.chooseProducer
    | lock hblock hcopy =>
      cases exec
      exact h.updateProducing hpos last position (.fill hblock hcopy) (hshared.lockProducer ready)
    | @fill block tempOffset hblock hcopy =>
      have hne : (g.dataVec (turn % g.size)).drop block ≠ [] := by
        simpa [List.drop_eq_nil_iff] using hblock
      have hfills := hcopy.fillsFrom_eq hne
      rw [hfills] at hshared
      obtain ⟨shm, hcopyTo, hfilled⟩ := hshared.fill roomy.placed rfl hcopy.copied.le
      rw [ShmTask.exec, ShmState.fill] at exec
      dsimp only at exec
      rw [hshared.maxSize, hcopyTo, Outcome.ok_bind] at exec
      cases exec
      have hrest := hcopy.rest
      rw [List.drop_drop] at hfilled hrest
      exact h.updateProducing hpos last position (.count hrest) hfilled
    | count hcopy =>
      cases exec
      obtain ⟨hcontent, hcounted⟩ := hshared.countProducer
      rw [hcontent]
      exact h.updateProducing hpos last position (.unlock (by simp) hcopy) hcounted
    | unlock hreleased hcopy =>
      cases exec
      have hne : c.state.released ≠ [] := List.ne_nil_of_length_pos hreleased
      exact h.updateProducing hpos last position (.sendData hcopy) (hshared.unlockProducer hne)

-- What the aggregator does to its file.

theorem writing_eq_ok {s s' : ShmState} {o : Outcome System} (h : s.writing o = .ok s') :
    (∃ file, o = .ok file ∧ s' = { s with file }) ∨
      ∃ f, o = .error f ∧ s' = { s with eptr := some f } := by
  unfold ShmState.writing at h
  split at h
  · cases h
    exact .inl ⟨_, rfl, rfl⟩
  · cases h
    exact .inr ⟨_, rfl, rfl⟩
  · cases h

-- The token, the positions, the shared memory and what has been released are as they were.
structure ShmState.Apart (s s' : ShmState) : Prop where
  currentRank  : s'.currentRank = s.currentRank
  token        : s'.token = s.token
  startDataPos : s'.startDataPos = s.startDataPos
  startPos     : s'.startPos = s.startPos
  shm          : s'.shm = s.shm
  released     : s'.released = s.released

theorem ShmState.Untouched.writeMyOwnData {s s' : ShmState} {e : List Schedule}
    (h : s.Untouched f₀) (hstart : s.startDataPos 0 = g.dataPos)
    (pos : g.asyncWrite = false → s.dataPos = g.dataPos)
    (posAsync : g.asyncWrite = true → s.startPos 0 = g.dataPos)
    (huncut : ShmTask.writeMyOwnData.Uncut g e s)
    (hthrow : g.asyncWrite = true → s'.eptr = none)
    (hs : s.writeMyOwnData g e = .ok s') :
    s.Apart s' ∧ s'.consumed = [] ∧ s'.Wrote g f₀ := by
  unfold ShmState.writeMyOwnData at hs
  rw [ShmTask.Uncut] at huncut
  split at hs
  case isTrue hasync =>
    rw [if_pos hasync] at huncut
    rcases writing_eq_ok hs with ⟨file, hfile, rfl⟩ | ⟨f, _, rfl⟩
    case inr => cases hthrow hasync
    obtain ⟨s₁, hseek, hfile⟩ := Outcome.bind_eq_ok.mp hfile
    have hpos := g.dataPos_lt
    rw [posAsync hasync] at hseek
    have ⟨hf, hwritevs⟩ := seekFile_file (by omega) hseek
    rw [← hwritevs] at huncut
    refine ⟨⟨rfl, rfl, rfl, rfl, rfl, rfl⟩, h.consumed, fun _ => ?_, fun _ => h.eptr⟩
    rw [asyncWriteOwnData_written (Nat.zero_le _) huncut hfile, hf, h.file]
    simp [h.consumed, startingAt]
  case isFalse hasync =>
    rw [if_neg hasync] at huncut
    have hpos := pos (by simpa using hasync)
    obtain ⟨s₁, hs₁, hs⟩ := Outcome.bind_eq_ok.mp hs
    have hsame : Function.update s.startDataPos 0 s.dataPos = s.startDataPos := by
      rw [hpos, ← hstart, Function.update_eq_self]
    rw [hsame] at hs₁
    cases hs
    rcases writing_eq_ok hs₁ with ⟨file, hfile, rfl⟩ | ⟨f, _, rfl⟩
    · have hwritten := writeV_written_at huncut
      rw [hfile] at hwritten
      cases hwritten with
      | ok hfile =>
        have heptr : s.eptr = none := h.eptr
        simp only [heptr, Option.isSome_none, Bool.false_eq_true, if_false]
        refine ⟨⟨rfl, rfl, rfl, rfl, rfl, rfl⟩, h.consumed, fun _ => ?_, (absurd · hasync)⟩
        rw [hfile, h.file, hpos]
        simp [h.consumed, startingAt]
    · simp only [Option.isSome_some, if_true]
      exact ⟨⟨rfl, rfl, rfl, rfl, rfl, rfl⟩, h.consumed, nofun, (absurd · hasync)⟩

theorem ShmState.Wrote.writeBuffer {s s' : ShmState} {e : List Schedule} {sdb : Buffer}
    {wrote : Nat} {bs : List Byte} (h : s.Wrote g f₀) (hread : s.shm.readFrom 0 sdb = .ok bs)
    (hcontent : s.content g sdb = bs) (huncut : (ShmTask.writeBuffer sdb wrote).Uncut g e s)
    (hthrow : g.asyncWrite = true → s'.eptr = none) (hs : s.writeBuffer g e sdb = .ok s') :
    s.Apart s' ∧ s'.consumed = s.consumed ++ [bs] ∧ s'.Wrote g f₀ := by
  unfold ShmState.writeBuffer at hs
  rw [hcontent, hread] at hs
  dsimp only at hs
  split at hs
  case isTrue heptr =>
    cases hs
    refine ⟨⟨rfl, rfl, rfl, rfl, rfl, rfl⟩, rfl, fun hnone => ?_, hthrow⟩
    have hnone : s.eptr = none := hnone
    simp [hnone] at heptr
  case isFalse heptr =>
    rw [Outcome.ok_bind] at hs
    rcases writing_eq_ok hs with ⟨file, hfile, rfl⟩ | ⟨f, _, rfl⟩
    case inr =>
      exact ⟨⟨rfl, rfl, rfl, rfl, rfl, rfl⟩, rfl, nofun, hthrow⟩
    refine ⟨⟨rfl, rfl, rfl, rfl, rfl, rfl⟩, rfl, fun hnone => ?_, hthrow⟩
    have hbefore := h.file hnone
    have hflatten : (s.consumed ++ [bs]).flatten = s.consumed.flatten ++ bs := by simp
    dsimp only
    rw [hflatten, ← List.append_assoc, ← File.write_append, ← hbefore]
    split at hfile
    case isTrue hasync =>
      rw [asyncWriteOwnData_written (Nat.zero_le _) (huncut hasync bs hread) hfile]
      simp
    case isFalse =>
      have hwritten : Written s.file.file bs (write g.subStreamName s.file bs none) := write_written
      rw [hfile] at hwritten
      cases hwritten with
      | ok hfile => exact hfile

-- A step of the aggregator.

theorem pending_succ_of_le (hle : turn ≤ g.rounds * g.size) :
    g.pending (turn + 1) = g.pending turn := by
  rcases hle.lt_or_eq with hlt | heq
  · exact ShmGroup.pending_of_lt hlt
  · have hlast : turn = g.lastTurn 0 := heq
    rw [hlast, ShmGroup.pending_lastTurn ShmGroup.size_pos, ShmGroup.fills, if_pos rfl,
      List.nil_append]

theorem InvAt.active_aggregator (h : InvAt g f₀ turn left p k c) (hzero : turn % g.size = 0) :
    p = .idle ∧ left = g.pending turn := by
  have hactive := h.active
  generalize c.threads (turn % g.size) = tasks at hactive
  cases hactive with
  | aggregator => exact ⟨rfl, rfl⟩
  | joining pos | joined pos | receiving pos | producing pos | sending pos => omega

theorem InvAt.sendByAggregator {tasks : List ShmTask} {s' : ShmState}
    (h : InvAt g f₀ turn left p k c) (hle : turn ≤ g.rounds * g.size) (hzero : turn % g.size = 0)
    (hsend : c.state.sendToken g 0 (g.dataPos + g.dataSize 0) = .ok s')
    (haggregator : AggregatorAt g f₀ c.state (turn + 1) tasks k) :
    Inv g f₀ { state := s', threads := Function.update c.threads 0 tasks } := by
  have hpos : 0 < g.size := ShmGroup.size_pos
  obtain ⟨rfl, hleft⟩ := h.active_aggregator hzero
  have hlt : turn < (g.rounds + 1) * g.size := by
    rw [Nat.succ_mul]
    omega
  have hvalue : g.dataPos + g.dataSize 0 = g.offset (turn % g.size + 1) := by
    rw [ShmGroup.offset_succ, hzero]
    rfl
  have hsend' : c.state.sendToken g (turn % g.size) (g.dataPos + g.dataSize 0) = .ok s' := by
    rwa [hzero]
  have hnext := h.next hlt (hleft.trans (pending_succ_of_le hle).symm) hvalue hsend'
    (fun _ heq => by omega) (fun hpos => by omega) (by rwa [if_pos hzero])
  rw [hzero] at hnext
  exact ⟨turn + 1, left, .idle, k, hnext⟩

-- The aggregator goes on to another of its tasks, and only the shared memory changes.
theorem InvAt.updateConsuming {shm : ShmSegment} {t : ShmTask} {k' : ConsumerPhase}
    (h : InvAt g f₀ turn left p k c) (hlt : g.rounds * g.size < turn)
    (hwrote : c.state.Wrote g f₀) (hconsuming : Consuming g c.state.consumed t k')
    (hshared : Shared g { c.state with shm } (turn % g.size) left g.pieces p k') :
    Inv g f₀ {
      state   := { c.state with shm }
      threads := Function.update c.threads 0 (t :: g.lastTasks) } :=
  ⟨turn, left, p, k', h.updateAggregator rfl rfl rfl (fun _ _ => rfl) rfl
    (.consuming hlt hconsuming ⟨hwrote.file, hwrote.async⟩) hshared⟩

theorem InvAt.aggregatorStep {e : List Schedule} {t : ShmTask} {rest ts : List ShmTask}
    {s' : ShmState} (h : InvAt g f₀ turn left p k c) (thread : c.threads 0 = t :: rest)
    (ready : t.ready g c.state) (exec : t.exec g e c.state = .ok (s', ts))
    (huncut : t.Uncut g e c.state) (hthrow : g.asyncWrite = true → s'.eptr = none) :
    Inv g f₀ { state := s', threads := Function.update c.threads 0 (ts ++ rest) } := by
  have hpos : 0 < g.size := ShmGroup.size_pos
  have haggregator := h.aggregator
  rw [thread] at haggregator
  generalize hts : t :: rest = tasks at haggregator
  have hshared := h.shared
  cases haggregator with
  | first hturn file pos =>
    cases hts
    obtain ⟨s₁, hsend, exec⟩ := Outcome.bind_eq_ok.mp exec
    cases exec
    dsimp only at hsend
    rw [h.start] at hsend
    refine h.sendByAggregator (by omega) (by simp [hturn]) hsend ?_
    cases hasync : g.asyncWrite with
    | true =>
      have : AggregatorAt g f₀ _ (turn + 1) _ _ := .launching hasync (by omega) (by omega) file
      simpa [ShmGroup.launchTasks, ShmGroup.lastTasks, hasync] using this
    | false =>
      have hrounds : g.rounds * g.size < turn + 1 := by simp [ShmGroup.rounds, hasync]
      have := AggregatorAt.own hrounds file pos (by simp [hasync])
      simpa [ShmGroup.launchTasks, hasync] using this
  | launching async hturn le file =>
    cases hts
    cases exec
    have hcurrent : c.state.currentRank = 0 := ready.resolve_right (by simp)
    have hzero : turn % g.size = 0 := h.current ▸ hcurrent
    have heq : turn = g.size := by
      rcases le.lt_or_eq with hlt | heq
      · rw [Nat.mod_eq_of_lt hlt] at hzero
        omega
      · exact heq
    refine ⟨turn, left, p, .idle, h.updateAggregator rfl rfl rfl (fun r hr => ?_) rfl
      (.launched async heq ⟨file.file, file.eptr, file.consumed⟩ ?_)
      (h.shared.congr (fun _ => rfl) rfl rfl rfl)⟩
    · exact Function.update_of_ne hr.ne' _ _
    · simpa [ShmState.recvToken] using h.start
  | launched async heq file pos =>
    cases hts
    obtain ⟨s₁, hsend, exec⟩ := Outcome.bind_eq_ok.mp exec
    cases exec
    dsimp only at hsend
    rw [pos] at hsend
    have hrounds : g.rounds * g.size = g.size := by simp [ShmGroup.rounds, async]
    refine h.sendByAggregator (by omega) (by simp [heq]) hsend ?_
    have := AggregatorAt.own (show g.rounds * g.size < turn + 1 by omega) file (by simp [async])
      fun _ => pos
    simpa [ShmGroup.lastTasks, async] using this
  | own lt file pos posAsync =>
    cases hts
    obtain ⟨s₁, hwrite, exec⟩ := Outcome.bind_eq_ok.mp exec
    cases exec
    have ⟨hapart, hconsumed, hwrote⟩ :=
      file.writeMyOwnData h.start pos posAsync huncut hthrow hwrite
    have hothers : Consuming g s'.consumed (.writeOthersData 0) .idle := by
      rw [hconsumed]
      exact .others
    exact ⟨turn, left, p, .idle, h.updateAggregator hapart.currentRank hapart.token
      hapart.startDataPos (fun r _ => congrFun hapart.startPos r) hapart.released
      (.consuming lt hothers hwrote)
      (h.shared.congr (fun _ => rfl) hapart.shm hapart.released (hconsumed.trans file.consumed.symm))⟩
  | consuming lt hconsuming wrote =>
    cases hts
    have hthrown : c.state.thrown g = false := by
      unfold ShmState.thrown
      cases hasync : g.asyncWrite
      · rfl
      · simp [wrote.async hasync]
    cases hconsuming with
    | others =>
      rw [ShmTask.exec, hthrown] at exec
      simp only [Bool.false_eq_true, if_false] at exec
      split at exec
      case isTrue hlt =>
        cases exec
        refine h.updateConsuming lt wrote .choose (hshared.waitFull (ready ⟨hlt, ?_⟩))
        simp [hthrown]
      case isFalse hge =>
        have hdrained := not_lt.mp hge
        split at exec
        case isTrue hasync =>
          cases exec
          have hlast : g.lastTasks = [.recvToken 0 .thread] := if_pos hasync
          rw [List.nil_append, hlast]
          exact ⟨turn, left, p, .idle, h.updateAggregator rfl rfl rfl (fun _ _ => rfl) rfl
            (.waiting hasync lt hdrained wrote) hshared⟩
        case isFalse hasync =>
          cases exec
          have hlast : g.lastTasks = [] := if_neg hasync
          rw [List.nil_append, hlast]
          exact ⟨turn, left, p, .idle, h.updateAggregator rfl rfl rfl (fun _ _ => rfl) rfl
            (.done lt hdrained ⟨wrote.file, wrote.async⟩)
            (hshared.congr (fun _ => rfl) rfl rfl rfl)⟩
    | choose =>
      cases exec
      have hnext : ShmSegment.next c.state.shm.consumerBuffer =
          bufferOf c.state.consumed.length := by
        rw [hshared.consumerBuffer]
        exact next_lastUsed _
      rw [hnext]
      exact h.updateConsuming lt wrote .lock hshared.chooseConsumer
    | lock =>
      cases exec
      exact h.updateConsuming lt wrote .write (hshared.lockConsumer ready)
    | write =>
      obtain ⟨s₁, hwrite, exec⟩ := Outcome.bind_eq_ok.mp exec
      cases exec
      have ⟨bs, hbs, hread, hcontent, hsize⟩ := hshared.readFrom
      have ⟨hapart, hconsumed, hwrote'⟩ := wrote.writeBuffer hread hcontent huncut hthrow hwrite
      have hthrown' : s'.thrown g = false := by
        unfold ShmState.thrown
        cases hasync : g.asyncWrite
        · rfl
        · simp [hwrote'.async hasync]
      have hcount : Consuming g s'.consumed
          (.countConsumer (c.state.consumed.flatten.length + bs.length)) .taken := by
        have hlen : c.state.consumed.flatten.length + bs.length = s'.consumed.flatten.length := by
          rw [hconsumed, List.flatten_append, List.length_append, List.flatten_singleton]
        rw [hlen]
        exact .count (by simp [hconsumed])
      rw [hthrown', hsize]
      exact ⟨turn, left, p, .taken, h.updateAggregator hapart.currentRank hapart.token
        hapart.startDataPos (fun r _ => congrFun hapart.startPos r) hapart.released
        (.consuming lt hcount hwrote')
        (hshared.take hbs hapart.shm hapart.released hconsumed)⟩
    | count hne =>
      cases exec
      exact h.updateConsuming lt wrote (.unlock hne) hshared.countConsumer
    | unlock hne =>
      cases exec
      exact h.updateConsuming lt wrote .others (hshared.unlockConsumer hne)
  | waiting async lt drained wrote =>
    cases hts
    cases exec
    exact ⟨turn, left, p, .idle, h.updateAggregator rfl rfl rfl (fun _ _ => rfl) rfl
      (.done lt drained wrote) hshared⟩
  | done => cases hts

end BP5
