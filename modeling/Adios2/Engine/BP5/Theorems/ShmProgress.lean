import Adios2.Engine.BP5.Theorems.ShmRuns

-- A group never gets stuck: as long as a rank has something to do, one of them can do it, and what
-- there is to be done gets less with every step.

namespace BP5

open Bytes FilePOSIX MPIShmChain Posix Threads

variable {g : ShmGroup} {f₀ : File} {turn : Nat} {left : List (List Byte)} {p : ProducerPhase}
  {k : ConsumerPhase} {c c' : Configuration Nat ShmState ShmTask}

theorem head_waiting {r : Nat} {t : ShmTask} {rest : List ShmTask}
    (h : g.waiting r turn = t :: rest) : ∃ part, t = .recvToken r part := by
  unfold ShmGroup.waiting ShmGroup.round at h
  split at h
  case isFalse => cases h
  case isTrue =>
    split at h
    case isTrue =>
      dsimp only at h
      split at h <;> cases h <;> exact ⟨_, rfl⟩
    case isFalse =>
      split at h
      case isTrue =>
        cases h
        exact ⟨_, rfl⟩
      case isFalse => cases h

-- Only the aggregator and the rank that has the token can make a step.
theorem InvAt.ready_eq {i : Nat} {t : ShmTask} {rest : List ShmTask}
    (h : InvAt g f₀ turn left p k c) (thread : c.threads i = t :: rest) (ready : t.ready g c.state) :
    i = 0 ∨ i = turn % g.size := by
  by_contra hne
  rw [not_or] at hne
  have hi : 0 < i := Nat.pos_of_ne_zero hne.left
  rw [h.waiting i hi hne.right] at thread
  obtain ⟨part, rfl⟩ := head_waiting thread
  have hready : c.state.currentRank = i := ready.resolve_right fun h => hne.left h.left
  exact hne.right (hready.symm.trans h.current)

theorem Inv.step {ev : Event Nat ShmTask (List Schedule)} (h : Inv g f₀ c)
    (roomy : 1 < g.size → g.Roomy) (hc : g.Undisturbed c ev) (hstep : Step g.program c ev c') :
    Inv g f₀ c' := by
  obtain ⟨turn, left, p, k, h⟩ := h
  cases hstep with
  | start _ begins => exact begins.elim
  | @run i e t rest ts s thread ready exec =>
    have ⟨huncut, hthrow⟩ := hc t (by rw [thread]; rfl)
    have hsize : turn % g.size < g.size := Nat.mod_lt _ ShmGroup.size_pos
    rcases Nat.eq_zero_or_pos i with rfl | hi
    · exact h.aggregatorStep thread ready exec huncut fun hasync => hthrow hasync _ _ exec
    · have heq := (h.ready_eq thread ready).resolve_left hi.ne'
      subst heq
      exact h.turnStep (roomy (by omega)) hi thread ready exec

theorem Inv.start (g : ShmGroup) (file : System) : Inv g file.file (g.start file) := by
  have hzero : 0 % g.size = 0 := Nat.zero_mod _
  refine ⟨0, g.pending 0, .idle, .idle, ?_⟩
  exact {
    le         := Nat.zero_le _
    current    := hzero.symm
    token      := fun h => absurd h (by omega)
    start      := rfl
    started    := fun _ _ _ h => absurd h (Nat.not_lt_zero _)
    waiting    := fun r hr _ => by
      obtain ⟨r, rfl⟩ := Nat.exists_eq_succ_of_ne_zero hr.ne'
      change g.tasks (r + 1) = g.waiting (r + 1) 0
      rw [ShmGroup.tasks, ShmGroup.waiting]
      cases g.asyncWrite <;> simp
    active     := .aggregator hzero
    aggregator := by
      have hfirst : AggregatorAt g file.file (g.start file).state 0
          (.sendToken 0 .main ::
            (g.launchTasks ++ .writeMyOwnData :: .writeOthersData 0 :: g.lastTasks)) .idle :=
        .first rfl ⟨rfl, rfl, rfl⟩ fun hsync => if_neg (by simp [hsync])
      have htasks : (g.start file).threads 0 = .sendToken 0 .main ::
          (g.launchTasks ++ .writeMyOwnData :: .writeOthersData 0 :: g.lastTasks) := by
        change g.aggregatorTasks = _
        unfold ShmGroup.aggregatorTasks ShmGroup.launchTasks ShmGroup.lastTasks
        cases g.asyncWrite <;> rfl
      rwa [htasks]
    shared     := {
      pieces          := ShmGroup.pending_zero
      taken           := List.prefix_rfl
      count           := rfl
      count_le        := Nat.zero_le _
      producerBuffer  := rfl
      consumerBuffer  := rfl
      lock            := fun sdb => by
        change false = true ↔ (none : Option Buffer) = some sdb ∨ (none : Option Buffer) = some sdb
        simp
      exclusive       := nofun
      room            := nofun
      full            := nofun
      pointed         := nofun
      pointedConsumer := nofun
      maxSize         := fun _ => rfl
      length          := List.length_replicate
      contents        := nofun
      filled          := nofun } }

-- The work that is left.

-- A task counts more than those that come after it, up to the next content that is handed over or
-- taken.
def ShmTask.weight : ShmTask → Nat
  | .recvToken .. | .sendToken .. | .writeMyOwnData | .countProducer .. | .writeBuffer .. => 1
  | .fill .. | .lockConsumer ..                                                           => 2
  | .lockProducer .. | .chooseConsumer ..                                                 => 3
  | .chooseProducer .. | .writeOthersData ..                                              => 4
  | .sendData .. | .unlockConsumer ..                                                     => 5
  | .unlockProducer .. | .countConsumer ..                                                => 6

def weights (tasks : List ShmTask) : Nat :=
  (tasks.map ShmTask.weight).sum

def ShmGroup.work (g : ShmGroup) (c : Configuration Nat ShmState ShmTask) : Nat :=
  (Finset.range g.size).sum (fun r => weights (c.threads r)) +
    8 * (g.pieces.length - c.state.released.length) + 8 * (g.pieces.length - c.state.consumed.length)

theorem writing_apart {s s' : ShmState} {o : Outcome System} (h : s.writing o = .ok s') :
    s'.released = s.released ∧ s'.consumed = s.consumed := by
  rcases writing_eq_ok h with ⟨file, _, rfl⟩ | ⟨f, _, rfl⟩
  · exact ⟨rfl, rfl⟩
  · exact ⟨rfl, rfl⟩

theorem ShmTask.exec_weight {e : List Schedule} {t : ShmTask} {ts : List ShmTask} {s s' : ShmState}
    (h : t.exec g e s = .ok (s', ts)) :
    weights ts + 8 * s.released.length + 8 * s.consumed.length <
      t.weight + 8 * s'.released.length + 8 * s'.consumed.length := by
  cases t with
  | recvToken r part =>
    cases h
    cases r <;> cases part <;> simp [weights, ShmTask.weight, ShmState.recvToken]
  | sendToken r part =>
    obtain ⟨s₁, hsend, h⟩ := Outcome.bind_eq_ok.mp h
    cases h
    unfold ShmState.sendToken at hsend
    split at hsend <;> cases hsend
    simp [weights, ShmTask.weight]
  | writeMyOwnData =>
    obtain ⟨s₁, hwrite, h⟩ := Outcome.bind_eq_ok.mp h
    cases h
    unfold ShmState.writeMyOwnData at hwrite
    split at hwrite
    case isTrue =>
      obtain ⟨hreleased, hconsumed⟩ := writing_apart hwrite
      simp [weights, ShmTask.weight, hreleased, hconsumed]
    case isFalse =>
      obtain ⟨s₂, hs₂, hwrite⟩ := Outcome.bind_eq_ok.mp hwrite
      obtain ⟨hreleased, hconsumed⟩ := writing_apart hs₂
      cases hwrite
      split <;> simp [weights, ShmTask.weight, hreleased, hconsumed]
  | sendData r block tempOffset =>
    cases h
    split <;> simp [weights, ShmTask.weight]
  | fill r sdb block tempOffset =>
    obtain ⟨shm, _, h⟩ := Outcome.bind_eq_ok.mp h
    cases h
    simp [weights, ShmTask.weight]
  | writeOthersData wrote =>
    rw [ShmTask.exec] at h
    split at h
    case isTrue => cases h; simp [weights, ShmTask.weight]
    case isFalse =>
      split at h
      case isTrue => cases h; simp [weights, ShmTask.weight]
      case isFalse => split at h <;> cases h <;> simp [weights, ShmTask.weight]
  | writeBuffer sdb wrote =>
    obtain ⟨s₁, hwrite, h⟩ := Outcome.bind_eq_ok.mp h
    cases h
    have hlen : s'.released.length = s.released.length ∧
        s'.consumed.length = s.consumed.length + 1 := by
      unfold ShmState.writeBuffer at hwrite
      dsimp only at hwrite
      split at hwrite
      case isTrue => cases hwrite; simp
      case isFalse =>
        obtain ⟨bs, _, hwrite⟩ := Outcome.bind_eq_ok.mp hwrite
        obtain ⟨hreleased, hconsumed⟩ := writing_apart hwrite
        simp [hreleased, hconsumed]
    split <;> simp only [weights, ShmTask.weight, List.map_cons, List.map_nil, List.sum_cons,
      List.sum_nil] <;> omega
  | countProducer r block tempOffset =>
    cases h
    simp only [weights, ShmTask.weight, List.map_cons, List.map_nil, List.sum_cons, List.sum_nil,
      List.length_append, List.length_singleton]
    omega
  | chooseProducer | lockProducer | unlockProducer | chooseConsumer | lockConsumer | countConsumer
  | unlockConsumer =>
    cases h
    simp [weights, ShmTask.weight]

theorem Shared.released_le {s : ShmState} {r : Nat} (h : Shared g s r left g.pieces p k) :
    s.released.length ≤ g.pieces.length ∧ s.consumed.length ≤ g.pieces.length := by
  have hlen := congrArg List.length h.pieces
  have := h.taken_le
  rw [List.length_append] at hlen
  omega

theorem Inv.work_lt {ev : Event Nat ShmTask (List Schedule)} (h : Inv g f₀ c) (h' : Inv g f₀ c')
    (hstep : Step g.program c ev c') : g.work c' < g.work c := by
  obtain ⟨turn, left, p, k, h⟩ := h
  obtain ⟨_, _, _, _, h'⟩ := h'
  cases hstep with
  | start _ begins => exact begins.elim
  | @run i e t rest ts s thread ready exec =>
    have hi : i ∈ Finset.range g.size := by
      have hpos : 0 < g.size := ShmGroup.size_pos
      rw [Finset.mem_range]
      rcases h.ready_eq thread ready with rfl | rfl
      · exact hpos
      · exact Nat.mod_lt _ hpos
    have hweight := ShmTask.exec_weight exec
    have ⟨hreleased, hconsumed⟩ := h.shared.released_le
    have ⟨hreleased', hconsumed'⟩ := h'.shared.released_le
    have hsum := Finset.sum_eq_add_sum_sdiff_singleton_of_mem hi fun r => weights (c.threads r)
    have hsum' := Finset.sum_update_of_mem hi (fun r => weights (c.threads r)) (weights (ts ++ rest))
    have hthreads : (fun r => weights (Function.update c.threads i (ts ++ rest) r)) =
        Function.update (fun r => weights (c.threads r)) i (weights (ts ++ rest)) := by
      funext r
      by_cases hr : r = i
      · subst hr
        simp
      · simp [hr]
    have happend : weights (ts ++ rest) = weights ts + weights rest := by simp [weights]
    have hcons : weights (t :: rest) = t.weight + weights rest := by simp [weights]
    unfold ShmGroup.work
    dsimp only at hreleased' hconsumed' ⊢
    rw [hthreads, hsum', hsum, thread, happend, hcons]
    omega

-- What is handed over in all.

theorem ShmGroup.fills_flatten (roomy : g.Roomy) {r : Nat} (hr : 0 < r) :
    (g.fills r).flatten = (g.dataVec r).flatten := by
  rw [ShmGroup.fills_eq hr, (roomy.copyable r).fillsFrom_flatten, List.drop_zero]

theorem ShmGroup.pieces_flatten (roomy : 1 < g.size → g.Roomy) :
    g.pieces.flatten.length = g.myTotalSize - g.dataSize 0 ∧
      (g.dataVec 0).flatten ++ g.pieces.flatten =
        ((List.range g.size).map fun r => (g.dataVec r).flatten).flatten := by
  obtain ⟨n, hn⟩ := Nat.exists_eq_succ_of_ne_zero (ShmGroup.size_pos (g := g)).ne'
  have hfills : ∀ r ∈ List.range n, (g.fills (r + 1)).flatten = (g.dataVec (r + 1)).flatten := by
    intro r hr
    have hlt := List.mem_range.mp hr
    exact ShmGroup.fills_flatten (roomy (by omega)) r.succ_pos
  have hpieces : g.pieces.flatten =
      ((List.range n).map fun r => (g.dataVec (r + 1)).flatten).flatten := by
    have hzero : g.fills 0 = [] := if_pos rfl
    rw [ShmGroup.pieces, hn, List.range_succ_eq_map, List.flatMap_cons, hzero, List.nil_append,
      List.flatMap_map, List.flatMap_def, List.flatten_flatten, List.map_map]
    exact congrArg List.flatten (List.map_congr_left hfills)
  constructor
  · rw [hpieces, ShmGroup.myTotalSize, hn, List.range_succ_eq_map, List.map_cons, List.sum_cons,
      Nat.add_sub_cancel_left, List.length_flatten, List.map_map, List.map_map]
    rfl
  · rw [hpieces, hn, List.range_succ_eq_map, List.map_cons, List.flatten_cons, List.map_map]
    rfl

-- The contents without bytes that a rank hands over last. One comes from blocks without bytes behind a
-- buffer that was filled to its end.
def ShmGroup.emptyContents (g : ShmGroup) (r : Nat) : Nat :=
  if g.dataSize r = 0 then
    if g.shmSize.blockSize = 0 then (g.dataVec r).length else min 1 (g.dataVec r).length
  else if (g.dataVec r).getLast? = some [] ∧ g.dataSize r % g.shmSize.blockSize = 0 then
    1
  else
    0

-- Those that come from the last ranks, up to the last one with bytes.
def ShmGroup.emptyTail (g : ShmGroup) : List Nat → Nat
  | []      => 0
  | r :: rs => g.emptyContents r + if g.dataSize r = 0 then g.emptyTail rs else 0

-- The aggregator does not wait for contents without bytes at the very end, so that these have to find
-- room in the two buffers.
def ShmGroup.EndsSoon (g : ShmGroup) : Prop :=
  g.emptyTail ((List.range g.size).drop 1).reverse ≤ 2

instance : Decidable g.EndsSoon :=
  inferInstanceAs (Decidable (_ ≤ _))

theorem ShmGroup.length_emptyContents_le (roomy : g.Roomy) {r : Nat} (hr : 0 < r) :
    ((g.fills r).reverse.takeWhile List.isEmpty).length ≤ g.emptyContents r := by
  have hcopyable := roomy.copyable r
  rw [ShmGroup.fills_eq hr]
  unfold ShmGroup.emptyContents ShmGroup.dataSize
  split
  case isTrue hzero =>
    have hle := (List.takeWhile_prefix (l := (fillsFrom g.shmSize.blockSize (g.dataVec r) 0).reverse)
      List.isEmpty).length_le
    rw [List.length_reverse] at hle
    exact hle.trans (hcopyable.length_fillsFrom_le (List.length_eq_zero_iff.mp hzero))
  case isFalse hne =>
    have hle := hcopyable.length_takeWhile_isEmpty_le fun hnil =>
      hne (List.length_eq_zero_iff.mpr hnil)
    rwa [Nat.sub_zero] at hle

theorem ShmGroup.length_emptyTail_le (roomy : g.Roomy) {rs : List Nat} (hrs : ∀ r ∈ rs, 0 < r) :
    ((rs.reverse.flatMap g.fills).reverse.takeWhile List.isEmpty).length ≤ g.emptyTail rs := by
  induction rs with
  | nil => exact Nat.zero_le _
  | cons r rs ih =>
    have hr := hrs r List.mem_cons_self
    have hle := ShmGroup.length_emptyContents_le roomy hr
    have hih := ih fun r hmem => hrs r (List.mem_cons_of_mem _ hmem)
    rw [List.reverse_cons, List.flatMap_append, List.flatMap_singleton, List.reverse_append,
      List.takeWhile_append, ShmGroup.emptyTail]
    split
    case isFalse => exact hle.trans (Nat.le_add_right _ _)
    case isTrue hall =>
      have hzero : g.dataSize r = 0 := by
        have hempty := List.takeWhile_eq_self_iff.mp
          ((List.takeWhile_prefix List.isEmpty).eq_of_length hall)
        rw [ShmGroup.dataSize, ← ShmGroup.fills_flatten roomy hr, List.length_eq_zero_iff,
          List.flatten_eq_nil_iff]
        exact fun bs hbs => List.isEmpty_iff.mp (hempty bs (List.mem_reverse.mpr hbs))
      rw [if_pos hzero, List.length_append]
      omega

theorem ShmGroup.EndsSoon.length_le {front back : List (List Byte)} (h : g.EndsSoon)
    (roomy : 1 < g.size → g.Roomy) (heq : front ++ back = g.pieces) (hback : back.flatten = []) :
    back.length ≤ 2 := by
  have hempty : ∀ bs ∈ back.reverse, bs.isEmpty := by
    intro bs hbs
    rw [List.flatten_eq_nil_iff] at hback
    simp [hback bs (List.mem_reverse.mp hbs)]
  have htake : (back.reverse ++ front.reverse).takeWhile List.isEmpty =
      back.reverse ++ front.reverse.takeWhile List.isEmpty :=
    List.takeWhile_append_of_pos hempty
  have hpieces : g.pieces = ((List.range g.size).drop 1).flatMap g.fills := by
    have hpos : 0 < (List.range g.size).length := by simpa using ShmGroup.size_pos (g := g)
    have hzero : g.fills 0 = [] := if_pos rfl
    conv_lhs => rw [ShmGroup.pieces, ← List.drop_zero (l := List.range g.size),
      List.drop_eq_getElem_cons hpos, List.flatMap_cons, List.getElem_range, hzero, List.nil_append]
  by_cases hsize : 1 < g.size
  case neg =>
    have hdrop : (List.range g.size).drop 1 = [] := List.drop_of_length_le (by simp; omega)
    rw [hpieces, hdrop, List.flatMap_nil] at heq
    simp [(List.append_eq_nil_iff.mp heq).right]
  case pos =>
    have hpos : ∀ r ∈ ((List.range g.size).drop 1).reverse, 0 < r := by
      intro r hr
      rw [List.mem_reverse, List.mem_drop_iff_getElem] at hr
      obtain ⟨i, hi, rfl⟩ := hr
      rw [List.getElem_range]
      omega
    have hle := (ShmGroup.length_emptyTail_le (roomy hsize) hpos).trans h
    rw [List.reverse_reverse, ← hpieces, ← heq, List.reverse_append, htake, List.length_append,
      List.length_reverse] at hle
    omega

-- When the aggregator has taken everything that has bytes, it is not waited for.
theorem InvAt.left_nil (h : InvAt g f₀ turn left p k c) (roomy : 1 < g.size → g.Roomy)
    (hends : g.EndsSoon) (drained : g.myTotalSize - g.dataSize 0 ≤ c.state.consumed.flatten.length)
    (hahead : c.state.consumed.length + 2 ≤ c.state.released.length) : left = [] := by
  have ⟨back, hback⟩ := h.shared.taken
  have hpieces : c.state.consumed ++ (back ++ left) = g.pieces := by
    rw [← List.append_assoc, hback, h.shared.pieces]
  have hlen := congrArg (fun l => l.flatten.length) hpieces
  have hreleased := congrArg List.length hback
  simp only [List.flatten_append, List.length_append] at hlen hreleased
  rw [(ShmGroup.pieces_flatten roomy).left] at hlen
  have hflatten : (back ++ left).flatten = [] := by
    rw [List.flatten_append, ← List.length_eq_zero_iff, List.length_append]
    omega
  have hle := hends.length_le roomy hpieces hflatten
  rw [List.length_append] at hle
  exact List.length_eq_zero_iff.mp (by omega)

-- A process that can go on.
def CanGoOn (g : ShmGroup) (c : Configuration Nat ShmState ShmTask) (i : Nat) : Prop :=
  ∃ t rest, c.threads i = t :: rest ∧ t.ready g c.state

-- The aggregator behind its first tasks. It waits for a content that is to come, for the lock that the
-- producer holds, or for the token when it has taken everything.
theorem InvAt.aggregator_canGoOn (h : InvAt g f₀ turn left p k c) (hlt : g.rounds * g.size < turn)
    (hfull : k = .idle → g.myTotalSize - g.dataSize 0 ≤ c.state.consumed.flatten.length ∨
      1 ≤ c.state.shm.numBuffersFull)
    (hfree : ∀ sdb, p.holds c.state.released.length = some sdb → k ≠ .chosen) :
    CanGoOn g c 0 ∨ k = .idle ∧
      g.myTotalSize - g.dataSize 0 ≤ c.state.consumed.flatten.length ∧
      (c.threads 0 = [] ∨ c.threads 0 = [.recvToken 0 .thread]) := by
  have haggregator := h.aggregator
  have hshared := h.shared
  generalize hts : c.threads 0 = tasks at haggregator
  have hgoesOn {t : ShmTask} {rest : List ShmTask} (htasks : t :: rest = tasks)
      (hready : t.ready g c.state) : CanGoOn g c 0 := ⟨t, rest, hts.trans htasks.symm, hready⟩
  have hrounds (hasync : g.asyncWrite = true) : g.rounds * g.size = g.size := by
    simp [ShmGroup.rounds, hasync]
  cases haggregator with
  | first hturn => omega
  | launching async _ le =>
    have := hrounds async
    omega
  | launched async heq =>
    have := hrounds async
    omega
  | own => exact .inl (hgoesOn rfl trivial)
  | consuming _ hconsuming _ =>
    refine .inl ?_
    cases hconsuming with
    | others =>
      refine hgoesOn rfl fun hwrote => (hfull rfl).resolve_left ?_
      exact not_le.mpr hwrote.left
    | choose => exact hgoesOn rfl trivial
    | lock =>
      have hlock : ShmSegment.lockOf c.state.shm.consumerBuffer =
          bufferOf c.state.consumed.length := by
        rw [hshared.consumerBuffer]
        exact lockOf_lastUsed_succ _
      refine hgoesOn rfl ?_
      change c.state.shm.lock (ShmSegment.lockOf c.state.shm.consumerBuffer) = false
      rw [hlock, ← Bool.not_eq_true, hshared.lock]
      rintro (hp | hk)
      · exact hfree _ hp rfl
      · cases hk
    | write => exact hgoesOn rfl trivial
    | count => exact hgoesOn rfl trivial
    | unlock => exact hgoesOn rfl trivial
  | waiting _ _ drained => exact .inr ⟨rfl, drained, .inr rfl⟩
  | done _ drained => exact .inr ⟨rfl, drained, .inl rfl⟩

theorem ShmGroup.lt_lastTurn {r : Nat} (hr : 0 < r) : g.rounds * g.size < g.lastTurn r := by
  unfold ShmGroup.lastTurn
  omega

-- The rank that has the token goes on, or waits for the aggregator, which then does.
theorem InvAt.turn_canGoOn (h : InvAt g f₀ turn left p k c) (roomy : 1 < g.size → g.Roomy)
    (hends : g.EndsSoon) (hpos : 0 < turn % g.size) :
    CanGoOn g c (turn % g.size) ∨ CanGoOn g c 0 := by
  have hactive := h.active
  have hshared := h.shared
  generalize hts : c.threads (turn % g.size) = tasks at hactive
  have hgoesOn {t : ShmTask} {rest : List ShmTask} (htasks : t :: rest = tasks)
      (hready : t.ready g c.state) : CanGoOn g c (turn % g.size) :=
    ⟨t, rest, hts.trans htasks.symm, hready⟩
  cases hactive with
  | aggregator hzero => omega
  | joining => exact .inl (hgoesOn rfl (.inl h.current))
  | joined => exact .inl (hgoesOn rfl trivial)
  | receiving => exact .inl (hgoesOn rfl (.inl h.current))
  | sending => exact .inl (hgoesOn rfl trivial)
  | producing _ last _ hproducing =>
    have hlt : g.rounds * g.size < turn := last ▸ ShmGroup.lt_lastTurn hpos
    cases hproducing with
    | @sendData block tempOffset hcopy =>
      by_cases hready : block < (g.dataVec (turn % g.size)).length → c.state.shm.numBuffersFull ≠ 2
      case pos => exact .inl (hgoesOn rfl hready)
      simp only [Classical.not_imp, not_not] at hready
      refine .inr ((h.aggregator_canGoOn hlt (fun _ => .inr (by omega)) nofun).resolve_right ?_)
      rintro ⟨rfl, drained, _⟩
      have hcount : c.state.shm.numBuffersFull + c.state.consumed.length = c.state.released.length :=
        hshared.count
      -- a content is still to be handed over
      have hnil := h.left_nil roomy hends drained (by omega)
      have hne : (g.dataVec (turn % g.size)).drop block ≠ [] := by
        simpa [List.drop_eq_nil_iff] using hready.left
      rw [hcopy.fillsFrom_eq hne] at hnil
      cases hnil
    | choose => exact .inl (hgoesOn rfl trivial)
    | lock hblock hcopy =>
      have hlock : ShmSegment.lockOf c.state.shm.producerBuffer =
          bufferOf c.state.released.length := by
        rw [hshared.producerBuffer]
        exact lockOf_lastUsed_succ _
      cases hheld : c.state.shm.lock (bufferOf c.state.released.length) with
      | false => exact .inl (hgoesOn rfl (by rw [ShmTask.ready, hlock, hheld]))
      | true =>
        rcases (hshared.lock _).mp hheld with hp | hk
        · cases hp
        · have hidle : k ≠ .idle := by
            rintro rfl
            cases hk
          exact .inr ((h.aggregator_canGoOn hlt (absurd · hidle) nofun).resolve_right fun hdone =>
            hidle hdone.left)
    | fill => exact .inl (hgoesOn rfl trivial)
    | count => exact .inl (hgoesOn rfl trivial)
    | unlock => exact .inl (hgoesOn rfl trivial)

-- The token has been with all ranks.
theorem InvAt.released_eq (h : InvAt g f₀ turn left p k c) (hzero : turn % g.size = 0)
    (hlt : g.rounds * g.size < turn) :
    turn = (g.rounds + 1) * g.size ∧ c.state.released = g.pieces := by
  have hturn : turn = (g.rounds + 1) * g.size := by
    have hle := h.le
    have hdiv := Nat.div_add_mod' turn g.size
    rw [hzero, Nat.add_zero] at hdiv
    rw [← hdiv] at hlt hle ⊢
    have h₁ := Nat.lt_of_mul_lt_mul_right hlt
    have h₂ := Nat.le_of_mul_le_mul_right hle ShmGroup.size_pos
    rw [show turn / g.size = g.rounds + 1 by omega]
  have hpieces := h.shared.pieces
  rw [(h.active_aggregator hzero).right, ShmGroup.pending_of_le hturn.ge, List.append_nil] at hpieces
  exact ⟨hturn, hpieces⟩

-- Where nobody but the aggregator needs the token, it goes on, or everything has been done.
theorem InvAt.zero_canGoOn (h : InvAt g f₀ turn left p k c) (roomy : 1 < g.size → g.Roomy)
    (hzero : turn % g.size = 0) : CanGoOn g c 0 ∨ ∀ i, c.threads i = [] := by
  have ⟨hidle, hleft⟩ := h.active_aggregator hzero
  subst hidle
  have hcurrent : c.state.currentRank = 0 := h.current.trans hzero
  by_cases hlt : g.rounds * g.size < turn
  case neg =>
    have haggregator := h.aggregator
    generalize hts : c.threads 0 = tasks at haggregator
    cases haggregator with
    | first => exact .inl ⟨_, _, hts, trivial⟩
    | launching => exact .inl ⟨_, _, hts, .inl hcurrent⟩
    | launched => exact .inl ⟨_, _, hts, trivial⟩
    | own lt => exact absurd lt hlt
    | consuming lt => exact absurd lt hlt
    | waiting _ lt => exact absurd lt hlt
    | done lt => exact absurd lt hlt
  case pos =>
    have ⟨hturn, hreleased⟩ := h.released_eq hzero hlt
    -- without a content that is full everything has been taken
    have hfull : k = .idle → g.myTotalSize - g.dataSize 0 ≤ c.state.consumed.flatten.length ∨
        1 ≤ c.state.shm.numBuffersFull := by
      intro hk
      subst hk
      by_contra hempty
      rw [not_or] at hempty
      have hcount : c.state.shm.numBuffersFull + c.state.consumed.length =
        c.state.released.length := h.shared.count
      have htaken := h.shared.taken.eq_of_length (by omega)
      rw [htaken, hreleased, (ShmGroup.pieces_flatten roomy).left] at hempty
      exact hempty.left le_rfl
    rcases h.aggregator_canGoOn hlt hfull nofun with hgoesOn | ⟨_, _, hthreads | hthreads⟩
    · exact .inl hgoesOn
    · refine .inr fun i => ?_
      rcases Nat.eq_zero_or_pos i with rfl | hi
      · exact hthreads
      · rw [h.waiting i hi (by omega)]
        exact ShmGroup.waiting_of_le hturn.ge
    · exact .inl ⟨_, _, hthreads, .inl hcurrent⟩

theorem InvAt.canGoOn (h : InvAt g f₀ turn left p k c) (roomy : 1 < g.size → g.Roomy)
    (hends : g.EndsSoon) : (∃ i, CanGoOn g c i) ∨ ∀ i, c.threads i = [] := by
  rcases Nat.eq_zero_or_pos (turn % g.size) with hzero | hpos
  · exact (h.zero_canGoOn roomy hzero).imp_left fun h => ⟨0, h⟩
  · exact .inl ((h.turn_canGoOn roomy hends hpos).elim (fun h => ⟨_, h⟩) fun h => ⟨0, h⟩)

-- What a task that can go on comes to. The loop in `AsyncWriteOwnData` can go on for as long as the
-- main thread computes; written at once, the data is on its way.

inductive Goes {α : Type} (exec : List Schedule → Outcome α) : Prop
  | mk (ends : ∀ e, (∃ x, exec e = .ok x) ∨ exec e = .error .outOfFuel)
      (rush : ∃ x, exec [.rush] = .ok x)

namespace Goes

variable {α β : Type} {exec : List Schedule → Outcome α}

theorem of_ok {x : α} (h : ∀ e, exec e = .ok x) : Goes exec :=
  ⟨fun e => .inl ⟨x, h e⟩, x, h _⟩

theorem bind {f : List Schedule → α → Outcome β} (h : Goes exec)
    (hf : ∀ e x, ∃ y, f e x = .ok y) : Goes fun e => exec e >>= f e := by
  obtain ⟨hends, x, hx⟩ := h
  constructor
  · intro e
    rcases hends e with ⟨x, hx⟩ | he
    · have ⟨y, hy⟩ := hf e x
      exact .inl ⟨y, by rw [hx, Outcome.ok_bind, hy]⟩
    · exact .inr (by rw [he]; rfl)
  · have ⟨y, hy⟩ := hf [.rush] x
    exact ⟨y, by rw [hx, Outcome.ok_bind, hy]⟩

end Goes

theorem writing_goes {s : ShmState} {o : List Schedule → Outcome System}
    (hends : ∀ e, Returned (o e) ∨ o e = .error .outOfFuel) (hrush : Returned (o [.rush])) :
    Goes fun e => s.writing (o e) := by
  have hreturned {e : List Schedule} (h : Returned (o e)) : ∃ s', s.writing (o e) = .ok s' := by
    rcases h with ⟨file, h⟩ | ⟨component, source, activity, message, h⟩
    · exact ⟨{ s with file }, by rw [h]; rfl⟩
    · exact ⟨_, by rw [h]; rfl⟩
  refine ⟨fun e => (hends e).imp hreturned fun h => ?_, hreturned hrush⟩
  rw [h]
  rfl

theorem ShmState.writeMyOwnData_goes {s : ShmState} : Goes fun e => s.writeMyOwnData g e := by
  unfold ShmState.writeMyOwnData
  split
  case isTrue =>
    refine writing_goes (fun e => ?_) ?_
    · have hseek : Returned (seekFile g.subStreamName s.file (s.startPos 0)) := seekFile_returned
      rcases hseek with ⟨file, h⟩ | ⟨component, source, activity, message, h⟩
      · rw [h, Outcome.ok_bind]
        exact asyncWriteOwnData_returned
      · rw [h]
        exact .inl (.inr ⟨_, _, _, _, rfl⟩)
    · have hseek : Returned (seekFile g.subStreamName s.file (s.startPos 0)) := seekFile_returned
      rcases hseek with ⟨file, h⟩ | ⟨component, source, activity, message, h⟩
      · rw [h, Outcome.ok_bind]
        exact asyncWriteOwnData_rush
      · rw [h]
        exact .inr ⟨_, _, _, _, rfl⟩
  case isFalse =>
    refine .bind ?_ fun e x => ⟨_, rfl⟩
    have hreturned : Returned (writeV g.subStreamName s.file (g.dataVec 0) (some s.dataPos)) :=
      writeV_returned (g.dataVec 0) (some s.dataPos)
    exact writing_goes (fun _ => .inl hreturned) hreturned

theorem ShmState.writeBuffer_goes {s : ShmState} {sdb : Buffer} {bs : List Byte}
    (hread : s.shm.readFrom 0 sdb = .ok bs) : Goes fun e => s.writeBuffer g e sdb := by
  unfold ShmState.writeBuffer
  dsimp only
  rw [hread]
  split
  case isTrue => exact .of_ok fun _ => rfl
  case isFalse =>
    simp only [Outcome.ok_bind]
    split
    case isTrue =>
      exact writing_goes (fun _ => asyncWriteOwnData_returned) asyncWriteOwnData_rush
    case isFalse =>
      have hreturned : Returned (write g.subStreamName s.file bs none) :=
        (write_written (s := s.file)).returned
      exact writing_goes (fun _ => .inl hreturned) hreturned

theorem sendToken_ok {s : ShmState} {r : Nat} (value : Nat) (h : s.currentRank = r) :
    ∃ s', s.sendToken g r value = .ok s' := by
  rw [ShmState.sendToken, if_neg (by simp [h])]
  exact ⟨_, rfl⟩

theorem ShmTask.sendToken_goes {s : ShmState} {r : Nat} {part : Part} (h : s.currentRank = r) :
    Goes fun e => (ShmTask.sendToken r part).exec g e s := by
  have hgoes (pos : Nat) :
      Goes fun _ => s.sendToken g r (pos + g.dataSize r) >>= fun s => .ok (s, ([] : List ShmTask)) := by
    have ⟨s', hsend⟩ := sendToken_ok (g := g) (pos + g.dataSize r) h
    exact .bind (.of_ok fun _ => hsend) fun _ _ => ⟨_, rfl⟩
  cases part with
  | main => exact hgoes (s.startDataPos r)
  | thread => exact hgoes (s.startPos r)

theorem InvAt.exec_goes (h : InvAt g f₀ turn left p k c) (roomy : 1 < g.size → g.Roomy) {i : Nat}
    {t : ShmTask} {rest : List ShmTask} (thread : c.threads i = t :: rest)
    (ready : t.ready g c.state) : Goes fun e => t.exec g e c.state := by
  rcases Nat.eq_zero_or_pos i with rfl | hi
  · have haggregator := h.aggregator
    rw [thread] at haggregator
    generalize hts : t :: rest = tasks at haggregator
    cases haggregator with
    | first hturn =>
      cases hts
      exact ShmTask.sendToken_goes (h.current.trans (by simp [hturn]))
    | launching =>
      cases hts
      exact .of_ok fun _ => rfl
    | launched _ heq =>
      cases hts
      exact ShmTask.sendToken_goes (h.current.trans (by simp [heq]))
    | own =>
      cases hts
      exact .bind ShmState.writeMyOwnData_goes fun _ _ => ⟨_, rfl⟩
    | consuming _ hconsuming _ =>
      cases hts
      have hshared := h.shared
      cases hconsuming with
      | others =>
        simp only [ShmTask.exec]
        split
        · exact .of_ok fun _ => rfl
        · split
          · exact .of_ok fun _ => rfl
          · split
            · exact .of_ok fun _ => rfl
            · exact .of_ok fun _ => rfl
      | choose | lock | count | unlock => exact .of_ok fun _ => rfl
      | write =>
        obtain ⟨bs, _, hread, _⟩ := hshared.readFrom
        exact .bind (ShmState.writeBuffer_goes hread) fun _ _ => ⟨_, rfl⟩
    | waiting =>
      cases hts
      exact .of_ok fun _ => rfl
    | done => cases hts
  · have heq := (h.ready_eq thread ready).resolve_left hi.ne'
    subst heq
    have hactive := h.active
    rw [thread] at hactive
    generalize hts : t :: rest = tasks at hactive
    have hshared := h.shared
    cases hactive with
    | aggregator hzero => omega
    | joining | receiving =>
      cases hts
      exact .of_ok fun _ => rfl
    | joined | sending =>
      cases hts
      exact ShmTask.sendToken_goes h.current
    | producing _ _ _ hproducing =>
      cases hts
      cases hproducing with
      | sendData | choose | lock | count | unlock => exact .of_ok fun _ => rfl
      | @fill block tempOffset hblock hcopy =>
        have hlt : turn % g.size < g.size := Nat.mod_lt _ ShmGroup.size_pos
        have hne : (g.dataVec (turn % g.size)).drop block ≠ [] := by
          simpa [List.drop_eq_nil_iff] using hblock
        rw [hcopy.fillsFrom_eq hne] at hshared
        obtain ⟨shm, hcopyTo, _⟩ :=
          hshared.fill (roomy (by omega)).placed rfl hcopy.copied.le
        have hfill : ∃ x, c.state.fill g (turn % g.size) (bufferOf c.state.released.length) block
            tempOffset = .ok x := by
          rw [ShmState.fill]
          dsimp only
          rw [hshared.maxSize, hcopyTo, Outcome.ok_bind]
          exact ⟨_, rfl⟩
        obtain ⟨_, hfill⟩ := hfill
        exact .of_ok fun _ => hfill

end BP5
