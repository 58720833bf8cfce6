import Adios2.Toolkit.Aggregator.Theorems.ShmSizes
import Adios2.Engine.BP5.Theorems.ShmCopies

-- What holds of the shared memory while a producer and the aggregator are at it: the counter, the
-- buffer that each of them has used last, who holds which lock, and what is in the buffers.

namespace BP5

open Bytes MPIShmChain

-- The buffer through which a content goes, by its number.
def bufferOf (i : Nat) : Buffer :=
  if i % 2 = 0 then .a else .b

-- The buffer that is used last when `n` have been used.
def lastUsed : Nat → LastBufferUsed
  | 0     => none
  | n + 1 => some (bufferOf n)

theorem bufferOf_succ_ne (i : Nat) : bufferOf (i + 1) ≠ bufferOf i := by
  unfold bufferOf
  rcases Nat.mod_two_eq_zero_or_one i with h | h
  · simp [h, show (i + 1) % 2 = 1 by omega]
  · simp [h, show (i + 1) % 2 = 0 by omega]

@[simp]
theorem next_lastUsed (n : Nat) : ShmSegment.next (lastUsed n) = bufferOf n := by
  cases n with
  | zero => rfl
  | succ n =>
    unfold lastUsed bufferOf
    rcases Nat.mod_two_eq_zero_or_one n with h | h
    · simp [h, show (n + 1) % 2 = 1 by omega, ShmSegment.next]
    · simp [h, show (n + 1) % 2 = 0 by omega, ShmSegment.next]

@[simp]
theorem lockOf_lastUsed_succ (n : Nat) : ShmSegment.lockOf (lastUsed (n + 1)) = bufferOf n := by
  change ShmSegment.lockOf (some (bufferOf n)) = bufferOf n
  cases bufferOf n <;> rfl

section Segment

variable (shm : ShmSegment) (sdb sdb' : Buffer) (address : Address) (held : Bool)

@[simp]
theorem pointTo_maxSize : ((shm.pointTo sdb address).sdb sdb').maxSize = (shm.sdb sdb').maxSize := by
  by_cases h : sdb' = sdb
  · subst h
    simp [ShmSegment.pointTo]
  · simp [ShmSegment.pointTo, h]

@[simp]
theorem pointTo_actualSize :
    ((shm.pointTo sdb address).sdb sdb').actualSize = (shm.sdb sdb').actualSize := by
  by_cases h : sdb' = sdb
  · subst h
    simp [ShmSegment.pointTo]
  · simp [ShmSegment.pointTo, h]

@[simp]
theorem pointTo_buf_self : ((shm.pointTo sdb address).sdb sdb).buf = some address := by
  simp [ShmSegment.pointTo]

theorem pointTo_buf_of_ne (h : sdb' ≠ sdb) :
    ((shm.pointTo sdb address).sdb sdb').buf = (shm.sdb sdb').buf := by
  simp [ShmSegment.pointTo, h]

theorem setLock_eq_true : (shm.setLock sdb held).lock sdb' = true ↔
    if sdb' = sdb then held = true else shm.lock sdb' = true := by
  unfold ShmSegment.setLock
  split
  case isTrue h => simp [h]
  case isFalse h => simp [h]

end Segment

-- How far the producer has got with a buffer.
inductive ProducerPhase
  | idle
  | room
  | chosen
  | filling
  | filled
  | counted

namespace ProducerPhase

-- The buffers that it has chosen, beyond those that it has handed over.
def ahead : ProducerPhase → Nat
  | chosen | filling | filled => 1
  | _                         => 0

def holds (released : Nat) : ProducerPhase → Option Buffer
  | filling | filled => some (bufferOf released)
  | counted          => some (bufferOf (released - 1))
  | _                => none

def NeedsRoom : ProducerPhase → Prop
  | room | chosen | filling | filled => True
  | _                                => False

-- It has set the address of the buffer, and goes on to use it.
def Pointed : ProducerPhase → Prop
  | chosen | filling => True
  | _                => False

end ProducerPhase

inductive ConsumerPhase
  | idle
  | full
  | chosen
  | taking
  | taken
  | counted

namespace ConsumerPhase

def ahead : ConsumerPhase → Nat
  | chosen | taking => 1
  | _               => 0

-- A content has been taken, and still counts.
def uncounted : ConsumerPhase → Nat
  | taken => 1
  | _     => 0

def holds (consumed : Nat) : ConsumerPhase → Option Buffer
  | taking          => some (bufferOf consumed)
  | taken | counted => some (bufferOf (consumed - 1))
  | _               => none

def NeedsFull : ConsumerPhase → Prop
  | full | chosen | taking => True
  | _                      => False

def Pointed : ConsumerPhase → Prop
  | chosen | taking => True
  | _               => False

end ConsumerPhase

variable {g : ShmGroup} {s : ShmState} {r : Nat} {left : List (List Byte)} {p : ProducerPhase}
  {k : ConsumerPhase}

structure ShmState.Holds (g : ShmGroup) (s : ShmState) (sdb : Buffer) (bs : List Byte) : Prop where
  le         : bs.length ≤ g.shmSize.blockSize
  actualSize : (s.shm.sdb sdb).actualSize = bs.length
  bytes      : readBytes s.shm.bytes (g.address 0 sdb).offset bs.length = some bs

theorem ShmState.Holds.content {sdb : Buffer} {bs : List Byte} (h : s.Holds g sdb bs) :
    s.content g sdb = bs := by
  rw [ShmState.content, h.actualSize, h.bytes, Option.getD_some]

theorem ShmState.Holds.congr {s' : ShmState} {sdb : Buffer} {bs : List Byte} (h : s.Holds g sdb bs)
    (hsize : (s'.shm.sdb sdb).actualSize = (s.shm.sdb sdb).actualSize)
    (hbytes : readBytes s'.shm.bytes (g.address 0 sdb).offset bs.length =
      readBytes s.shm.bytes (g.address 0 sdb).offset bs.length) : s'.Holds g sdb bs where
  le         := h.le
  actualSize := hsize.trans h.actualSize
  bytes      := hbytes.trans h.bytes

-- The buffers lie one behind the other in the segment, and all ranks see them at the same place.
structure ShmGroup.Placed (g : ShmGroup) : Prop where
  totalSize : g.shmSize.totalSize = g.structSize + 2 * g.shmSize.blockSize
  blockSize : ∀ r, g.blockSize r = g.shmSize.blockSize

theorem ShmGroup.Placed.offset_eq (h : g.Placed) (r : Nat) (sdb : Buffer) :
    (g.address r sdb).offset = (g.address 0 sdb).offset := by
  cases sdb with
  | a => rfl
  | b => simp only [ShmGroup.address, h.blockSize]

theorem ShmGroup.Placed.offset_le (h : g.Placed) (r : Nat) (sdb : Buffer) :
    (g.address r sdb).offset + g.shmSize.blockSize ≤ g.shmSize.totalSize := by
  rw [h.totalSize]
  cases sdb with
  | a =>
    simp only [ShmGroup.address]
    omega
  | b =>
    simp only [ShmGroup.address, h.blockSize]
    omega

theorem ShmGroup.Placed.readBytes_overwrite_of_ne {sdb sdb' : Buffer} {buf bs : List Byte} {n : Nat}
    (h : g.Placed) (hin : (g.address 0 sdb').offset + bs.length ≤ buf.length)
    (hbs : bs.length ≤ g.shmSize.blockSize) (hn : n ≤ g.shmSize.blockSize) (hne : sdb ≠ sdb') :
    readBytes (overwrite buf (g.address 0 sdb').offset bs) (g.address 0 sdb).offset n =
      readBytes buf (g.address 0 sdb).offset n := by
  have hblock := h.blockSize 0
  cases sdb <;> cases sdb'
  case a.a | b.b => exact absurd rfl hne
  case a.b =>
    apply readBytes_overwrite_of_le hin
    simp only [ShmGroup.address, hblock]
    omega
  case b.a =>
    apply readBytes_overwrite_of_ge hin
    simp only [ShmGroup.address, hblock]
    omega

-- The contents that are released and still to be handed over are those of the run, in their order, and
-- the aggregator has taken the first ones.
structure Shared (g : ShmGroup) (s : ShmState) (r : Nat) (left : List (List Byte))
    (pieces : List (List Byte)) (p : ProducerPhase) (k : ConsumerPhase) : Prop where
  pieces         : s.released ++ left = pieces
  taken          : s.consumed <+: s.released
  count          : s.shm.numBuffersFull + s.consumed.length = s.released.length + k.uncounted
  count_le       : s.shm.numBuffersFull ≤ 2
  producerBuffer : s.shm.producerBuffer = lastUsed (s.released.length + p.ahead)
  consumerBuffer : s.shm.consumerBuffer = lastUsed (s.consumed.length + k.ahead)
  lock           : ∀ sdb, s.shm.lock sdb = true ↔
    p.holds s.released.length = some sdb ∨ k.holds s.consumed.length = some sdb
  exclusive      : ∀ sdb, p.holds s.released.length = some sdb → k.holds s.consumed.length ≠ some sdb
  room           : p.NeedsRoom → s.shm.numBuffersFull ≤ 1
  full           : k.NeedsFull → 1 ≤ s.shm.numBuffersFull
  pointed        : p.Pointed → (s.shm.sdb (bufferOf s.released.length)).buf =
    some (g.address r (bufferOf s.released.length))
  pointedConsumer : k.Pointed → (s.shm.sdb (bufferOf s.consumed.length)).buf =
    some (g.address 0 (bufferOf s.consumed.length))
  maxSize        : ∀ sdb, (s.shm.sdb sdb).maxSize = g.shmSize.blockSize
  length         : s.shm.bytes.length = g.shmSize.totalSize
  contents       : ∀ i bs, s.consumed.length ≤ i → s.released[i]? = some bs →
    s.Holds g (bufferOf i) bs
  filled         : p = .filled → ∃ bs, left.head? = some bs ∧
    s.Holds g (bufferOf s.released.length) bs

namespace Shared

variable {pieces : List (List Byte)}

theorem taken_le (h : Shared g s r left pieces p k) : s.consumed.length ≤ s.released.length :=
  h.taken.length_le

-- Steps of the producer.

theorem waitRoom (h : Shared g s r left pieces .idle k) (hroom : s.shm.numBuffersFull ≠ 2) :
    Shared g s r left pieces .room k :=
  { h with
    room := fun _ => by have := h.count_le; omega
    pointed := nofun
    filled := nofun }

-- The address of a buffer that the aggregator is going to use is not set again.
theorem bufferOf_ne (h : Shared g s r left pieces .room k) (hk : k.Pointed) :
    bufferOf s.consumed.length ≠ bufferOf s.released.length := by
  have hroom := h.room trivial
  have hcount := h.count
  have hle := h.taken_le
  have hfull : 1 ≤ s.shm.numBuffersFull := h.full (by cases k <;> trivial)
  have hun : k.uncounted = 0 := by cases k <;> trivial
  rw [show s.released.length = s.consumed.length + 1 by omega]
  exact (bufferOf_succ_ne _).symm

theorem chooseProducer (h : Shared g s r left pieces .room k) :
    Shared g { s with shm := s.shm.chooseProducer (g.address r) } r left pieces .chosen k := by
  have hnext : ShmSegment.next s.shm.producerBuffer = bufferOf s.released.length := by
    rw [h.producerBuffer]
    exact next_lastUsed _
  unfold ShmSegment.chooseProducer
  rw [hnext]
  exact { h with
    producerBuffer  := rfl
    pointed         := fun _ => pointTo_buf_self ..
    pointedConsumer := fun hk =>
      (pointTo_buf_of_ne _ _ _ _ (h.bufferOf_ne hk)).trans (h.pointedConsumer hk)
    maxSize         := fun sdb => (pointTo_maxSize ..).trans (h.maxSize sdb)
    contents        := fun i bs hi hbs => (h.contents i bs hi hbs).congr (pointTo_actualSize ..) rfl
    filled          := nofun }

theorem lockProducer (h : Shared g s r left pieces .chosen k)
    (hfree : s.shm.lock (ShmSegment.lockOf s.shm.producerBuffer) = false) :
    Shared g { s with shm := s.shm.setLock (ShmSegment.lockOf s.shm.producerBuffer) true } r left
      pieces .filling k := by
  have hlock : ShmSegment.lockOf s.shm.producerBuffer = bufferOf s.released.length := by
    rw [h.producerBuffer]
    exact lockOf_lastUsed_succ _
  rw [hlock] at hfree ⊢
  have hk : k.holds s.consumed.length ≠ some (bufferOf s.released.length) := fun hk => by
    rw [(h.lock _).mpr (.inr hk)] at hfree
    cases hfree
  exact { h with
    lock      := fun sdb => by
      rw [setLock_eq_true, h.lock]
      by_cases hsdb : sdb = bufferOf s.released.length
      · simp [hsdb, ProducerPhase.holds]
      · simp [hsdb, ProducerPhase.holds, Ne.symm hsdb]
    exclusive := fun sdb hsdb => by
      cases hsdb
      exact hk
    contents  := fun i bs hi hbs => (h.contents i bs hi hbs).congr rfl rfl
    filled    := nofun }

-- The content goes to the buffer that the producer has locked, and not to the one that is full.
theorem fill {bs : List Byte} (h : Shared g s r left pieces .filling k) (placed : g.Placed)
    (hbs : left.head? = some bs) (hle : bs.length ≤ g.shmSize.blockSize) :
    ∃ shm, s.shm.copyTo r (bufferOf s.released.length) bs = .ok shm ∧
      Shared g { s with shm } r left pieces .filled k := by
  have hoffset := placed.offset_le r (bufferOf s.released.length)
  have hin : (g.address r (bufferOf s.released.length)).offset + bs.length ≤ s.shm.bytes.length := by
    rw [h.length]
    omega
  have hprocess : (g.address r (bufferOf s.released.length)).process = r := by
    cases bufferOf s.released.length <;> rfl
  unfold ShmSegment.copyTo
  rw [h.pointed trivial]
  dsimp only
  rw [if_pos ⟨hprocess, hin⟩]
  refine ⟨_, rfl, ?_⟩
  have hother {i : Nat} {bs' : List Byte} (hi : s.consumed.length ≤ i)
      (hbs' : s.released[i]? = some bs') : bufferOf i ≠ bufferOf s.released.length := by
    have hroom := h.room trivial
    have hcount := h.count
    have hlt := (List.getElem?_eq_some_iff.mp hbs').choose
    rw [show s.released.length = i + 1 by omega]
    exact (bufferOf_succ_ne i).symm
  exact { h with
    pointed         := nofun
    pointedConsumer := fun hk => by
      by_cases hsdb : bufferOf s.consumed.length = bufferOf s.released.length
      · have hp := h.pointedConsumer hk
        rw [hsdb] at hp ⊢
        simpa using hp
      · simpa [hsdb] using h.pointedConsumer hk
    maxSize         := fun sdb => by
      by_cases hsdb : sdb = bufferOf s.released.length
      · simp [hsdb, h.maxSize]
      · simp [hsdb, h.maxSize]
    length          := (overwrite_length hin).trans h.length
    contents        := fun i bs' hi hbs' => by
      have hold := h.contents i bs' hi hbs'
      have hne := hother hi hbs'
      refine hold.congr (by simp [hne]) ?_
      rw [placed.offset_eq] at hin ⊢
      exact placed.readBytes_overwrite_of_ne hin hle hold.le hne
    filled          := fun _ => ⟨bs, hbs, hle, by simp, by
      rw [placed.offset_eq] at hin ⊢
      exact readBytes_overwrite_self hin⟩ }

theorem countProducer {bs : List Byte} (h : Shared g s r (bs :: left) pieces .filled k) :
    s.content g (ShmSegment.lockOf s.shm.producerBuffer) = bs ∧
    Shared g { s with shm := s.shm.countProducer, released := s.released ++ [bs] } r left pieces
      .counted k := by
  have hlock : ShmSegment.lockOf s.shm.producerBuffer = bufferOf s.released.length := by
    rw [h.producerBuffer]
    exact lockOf_lastUsed_succ _
  obtain ⟨bs', hhead, hfilled⟩ := h.filled rfl
  cases hhead
  have hroom := h.room trivial
  have hle := h.taken_le
  refine ⟨hlock ▸ hfilled.content, ?_⟩
  have hcount : (s.shm.numBuffersFull + 1) % 2 ^ 32 = s.shm.numBuffersFull + 1 :=
    Nat.mod_eq_of_lt (by omega)
  have hlen : (s.released ++ [bs]).length = s.released.length + 1 := by simp
  exact {
    pieces          := by rw [← h.pieces]; simp
    taken           := h.taken.trans (List.prefix_append _ _)
    count           := by
      have := h.count
      simp only [ShmSegment.countProducer, hcount, hlen]
      omega
    count_le        := by
      simp only [ShmSegment.countProducer, hcount]
      omega
    producerBuffer  := by
      simp only [hlen]
      exact h.producerBuffer
    consumerBuffer  := h.consumerBuffer
    lock            := by
      simp only [hlen]
      exact h.lock
    exclusive       := by
      simp only [hlen]
      exact h.exclusive
    room            := nofun
    full            := fun hk => by
      simp only [ShmSegment.countProducer, hcount]
      omega
    pointed         := nofun
    pointedConsumer := h.pointedConsumer
    maxSize         := h.maxSize
    length          := h.length
    contents        := fun i bs' hi hbs' => by
      rcases Nat.lt_or_ge i s.released.length with hlt | hge
      · rw [List.getElem?_append_left hlt] at hbs'
        exact (h.contents i bs' hi hbs').congr rfl rfl
      · obtain rfl : i = s.released.length := by
          have hlt : i < (s.released ++ [bs]).length :=
            (List.getElem?_eq_some_iff.mp hbs').choose
          omega
        rw [List.getElem?_append_right le_rfl, Nat.sub_self] at hbs'
        cases hbs'
        exact hfilled.congr rfl rfl
    filled          := nofun }

theorem unlockProducer (h : Shared g s r left pieces .counted k) (hpos : s.released ≠ []) :
    Shared g { s with shm := s.shm.setLock (ShmSegment.lockOf s.shm.producerBuffer) false } r left
      pieces .idle k := by
  obtain ⟨n, hn⟩ : ∃ n, s.released.length = n + 1 :=
    Nat.exists_eq_succ_of_ne_zero (by simpa using hpos)
  have hlock : ShmSegment.lockOf s.shm.producerBuffer = bufferOf (s.released.length - 1) := by
    rw [h.producerBuffer, hn]
    exact lockOf_lastUsed_succ _
  rw [hlock]
  have hk := h.exclusive (bufferOf (s.released.length - 1)) rfl
  exact { h with
    lock      := fun sdb => by
      rw [setLock_eq_true, h.lock]
      by_cases hsdb : sdb = bufferOf (s.released.length - 1)
      · simp [hsdb, ProducerPhase.holds, hk]
      · simp [hsdb, ProducerPhase.holds, Ne.symm hsdb]
    exclusive := nofun
    room      := nofun
    contents  := fun i bs hi hbs => (h.contents i bs hi hbs).congr rfl rfl
    filled    := nofun }

-- Steps of the aggregator.

theorem waitFull (h : Shared g s r left pieces p .idle) (hfull : 1 ≤ s.shm.numBuffersFull) :
    Shared g s r left pieces p .full :=
  { h with
    full := fun _ => hfull
    pointedConsumer := nofun }

theorem bufferOf_ne' (h : Shared g s r left pieces p .full) (hp : p.Pointed) :
    bufferOf s.released.length ≠ bufferOf s.consumed.length := by
  have hroom : s.shm.numBuffersFull ≤ 1 := h.room (by cases p <;> trivial)
  have hcount : s.shm.numBuffersFull + s.consumed.length = s.released.length := h.count
  have hfull := h.full trivial
  rw [show s.released.length = s.consumed.length + 1 by omega]
  exact bufferOf_succ_ne _

theorem chooseConsumer (h : Shared g s r left pieces p .full) :
    Shared g { s with shm := s.shm.chooseConsumer (g.address 0) } r left pieces p .chosen := by
  have hnext : ShmSegment.next s.shm.consumerBuffer = bufferOf s.consumed.length := by
    rw [h.consumerBuffer]
    exact next_lastUsed _
  unfold ShmSegment.chooseConsumer
  rw [hnext]
  exact { h with
    consumerBuffer  := rfl
    pointed         := fun hp =>
      (pointTo_buf_of_ne _ _ _ _ (h.bufferOf_ne' hp)).trans (h.pointed hp)
    pointedConsumer := fun _ => pointTo_buf_self ..
    maxSize         := fun sdb => (pointTo_maxSize ..).trans (h.maxSize sdb)
    contents        := fun i bs hi hbs => (h.contents i bs hi hbs).congr (pointTo_actualSize ..) rfl
    filled          := fun hp => by
      have ⟨bs, hhead, hbs⟩ := h.filled hp
      exact ⟨bs, hhead, hbs.congr (pointTo_actualSize ..) rfl⟩ }

theorem lockConsumer (h : Shared g s r left pieces p .chosen)
    (hfree : s.shm.lock (ShmSegment.lockOf s.shm.consumerBuffer) = false) :
    Shared g { s with shm := s.shm.setLock (ShmSegment.lockOf s.shm.consumerBuffer) true } r left
      pieces p .taking := by
  have hlock : ShmSegment.lockOf s.shm.consumerBuffer = bufferOf s.consumed.length := by
    rw [h.consumerBuffer]
    exact lockOf_lastUsed_succ _
  rw [hlock] at hfree ⊢
  have hp : p.holds s.released.length ≠ some (bufferOf s.consumed.length) := fun hp => by
    rw [(h.lock _).mpr (.inl hp)] at hfree
    cases hfree
  exact { h with
    lock      := fun sdb => by
      rw [setLock_eq_true, h.lock]
      by_cases hsdb : sdb = bufferOf s.consumed.length
      · simp [hsdb, ConsumerPhase.holds]
      · simp [hsdb, ConsumerPhase.holds, Ne.symm hsdb]
    exclusive := fun sdb hsdb hk => by
      cases hk
      exact hp hsdb
    contents  := fun i bs hi hbs => (h.contents i bs hi hbs).congr rfl rfl
    filled    := fun hp => by
      have ⟨bs, hhead, hbs⟩ := h.filled hp
      exact ⟨bs, hhead, hbs.congr rfl rfl⟩ }

-- What the aggregator reads is the first content that it has not taken yet.
theorem readFrom (h : Shared g s r left pieces p .taking) :
    ∃ bs, s.released[s.consumed.length]? = some bs ∧
      s.shm.readFrom 0 (bufferOf s.consumed.length) = .ok bs ∧
      s.content g (bufferOf s.consumed.length) = bs ∧
      (s.shm.sdb (bufferOf s.consumed.length)).actualSize = bs.length := by
  have hcount : s.shm.numBuffersFull + s.consumed.length = s.released.length := h.count
  have hfull := h.full trivial
  have hlt : s.consumed.length < s.released.length := by omega
  have hbs := List.getElem?_eq_getElem hlt
  have hold := h.contents _ _ le_rfl hbs
  have hprocess : (g.address 0 (bufferOf s.consumed.length)).process = 0 := by
    cases bufferOf s.consumed.length <;> rfl
  refine ⟨_, hbs, ?_, hold.content, hold.actualSize⟩
  unfold ShmSegment.readFrom
  rw [h.pointedConsumer trivial]
  dsimp only
  rw [if_pos hprocess, hold.actualSize, hold.bytes, Option.orUndefined_some]

theorem take {bs : List Byte} {s' : ShmState} (h : Shared g s r left pieces p .taking)
    (hbs : s.released[s.consumed.length]? = some bs) (hshm : s'.shm = s.shm)
    (hreleased : s'.released = s.released) (hconsumed : s'.consumed = s.consumed ++ [bs]) :
    Shared g s' r left pieces p .taken := by
  have hlen : s'.consumed.length = s.consumed.length + 1 := by simp [hconsumed]
  have hlt := (List.getElem?_eq_some_iff.mp hbs).choose
  have hcount := h.count
  exact {
    pieces          := by rw [hreleased, h.pieces]
    taken           := by
      have htake : s.released.take (s.consumed.length + 1) = s.consumed ++ [bs] := by
        rw [List.take_add_one, hbs, ← List.prefix_iff_eq_take.mp h.taken]
        rfl
      rw [hreleased, hconsumed, ← htake]
      exact List.take_prefix _ _
    count           := by
      rw [hshm, hreleased, hlen]
      simp only [ConsumerPhase.uncounted] at hcount ⊢
      omega
    count_le        := hshm ▸ h.count_le
    producerBuffer  := by rw [hshm, hreleased, h.producerBuffer]
    consumerBuffer  := by
      rw [hshm, hlen, h.consumerBuffer]
      rfl
    lock            := by
      rw [hshm, hreleased, hlen]
      exact h.lock
    exclusive       := by
      rw [hreleased, hlen]
      exact h.exclusive
    room            := hshm ▸ h.room
    full            := nofun
    pointed         := by
      rw [hshm, hreleased]
      exact h.pointed
    pointedConsumer := nofun
    maxSize         := hshm ▸ h.maxSize
    length          := hshm ▸ h.length
    contents        := fun i bs' hi hbs' => by
      rw [hlen] at hi
      rw [hreleased] at hbs'
      exact (h.contents i bs' (by omega) hbs').congr (by rw [hshm]) (by rw [hshm])
    filled          := fun hp => by
      have ⟨bs', hhead, hbs'⟩ := h.filled hp
      rw [hreleased]
      exact ⟨bs', hhead, hbs'.congr (by rw [hshm]) (by rw [hshm])⟩ }

theorem countConsumer (h : Shared g s r left pieces p .taken) :
    Shared g { s with shm := s.shm.countConsumer } r left pieces p .counted := by
  have hcount := h.count
  have hle := h.taken_le
  have hle2 := h.count_le
  simp only [ConsumerPhase.uncounted] at hcount
  have hmod : (s.shm.numBuffersFull + 2 ^ 32 - 1) % 2 ^ 32 = s.shm.numBuffersFull - 1 := by
    rw [show s.shm.numBuffersFull + 2 ^ 32 - 1 = s.shm.numBuffersFull - 1 + 2 ^ 32 by omega,
      Nat.add_mod_right, Nat.mod_eq_of_lt (by omega)]
  have hcounter : s.shm.countConsumer =
      { s.shm with numBuffersFull := s.shm.numBuffersFull - 1 } := by
    rw [ShmSegment.countConsumer, hmod]
  rw [hcounter]
  exact { h with
    count           := by
      simp only [ConsumerPhase.uncounted]
      omega
    count_le        := (Nat.sub_le _ _).trans hle2
    room            := fun hp => (Nat.sub_le _ _).trans (h.room hp)
    full            := nofun
    pointedConsumer := nofun
    contents        := fun i bs hi hbs => (h.contents i bs hi hbs).congr rfl rfl
    filled          := fun hp => by
      have ⟨bs, hhead, hbs⟩ := h.filled hp
      exact ⟨bs, hhead, hbs.congr rfl rfl⟩ }

theorem unlockConsumer (h : Shared g s r left pieces p .counted) (hpos : s.consumed ≠ []) :
    Shared g { s with shm := s.shm.setLock (ShmSegment.lockOf s.shm.consumerBuffer) false } r left
      pieces p .idle := by
  obtain ⟨n, hn⟩ : ∃ n, s.consumed.length = n + 1 :=
    Nat.exists_eq_succ_of_ne_zero (by simpa using hpos)
  have hlock : ShmSegment.lockOf s.shm.consumerBuffer = bufferOf (s.consumed.length - 1) := by
    rw [h.consumerBuffer, hn]
    exact lockOf_lastUsed_succ _
  rw [hlock]
  have hp : p.holds s.released.length ≠ some (bufferOf (s.consumed.length - 1)) :=
    fun hp => h.exclusive _ hp rfl
  exact { h with
    lock      := fun sdb => by
      rw [setLock_eq_true, h.lock]
      by_cases hsdb : sdb = bufferOf (s.consumed.length - 1)
      · simp [hsdb, ConsumerPhase.holds, hp]
      · simp [hsdb, ConsumerPhase.holds, Ne.symm hsdb]
    exclusive := fun _ _ => nofun
    full      := nofun
    contents  := fun i bs hi hbs => (h.contents i bs hi hbs).congr rfl rfl
    filled    := fun hp => by
      have ⟨bs, hhead, hbs⟩ := h.filled hp
      exact ⟨bs, hhead, hbs.congr rfl rfl⟩ }

end Shared

end BP5
