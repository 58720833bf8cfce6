import Mathlib
import Adios2.Toolkit.Remote.XrootdRemote

-- What a request has got when the library has made all its calls.

namespace XrootdRemote

open Bytes

-- The bytes of a response that have come since the library was last handed the request
def received (bytes : List Byte) : Callback → List Byte
  | .processResponse _                 => []
  | .processResponseData _ buff dlen _ => bytes ++ buff.take dlen.toNat

def response (cs : List Callback) : List Byte := cs.foldl received []

-- The last call for the data of a response
inductive Final : Callback → Prop
  | error {isOK : Bool} {buff : List Byte} {dlen : Int} {last : Bool}
      (h : dlen < 0 ∨ isOK = false) : Final (.processResponseData isOK buff dlen last)
  | last {buff : List Byte} {dlen : Nat} : Final (.processResponseData true buff dlen true)

-- A last chunk that is not too long
def Taken (expectedSize : Nat) : Callback → Prop
  | .processResponse _                    => False
  | .processResponseData isOK _ dlen last =>
    isOK = true ∧ 0 ≤ dlen ∧ last = true ∧ (expectedSize = 0 ∨ dlen ≤ expectedSize)

namespace MyRequest

variable {s s' mid : MyRequest} {c : Callback} {cs : List Callback} {chunk : List Byte × Nat}
  {filename : String}

-- A chunk that others follow
def more (chunk : List Byte × Nat) : Callback := .processResponseData true chunk.1 chunk.2 false

section Steps

theorem run_cons : s.run (c :: cs) = some s' ↔ ∃ mid, s.step c = some mid ∧ mid.run cs = some s' := by
  rw [run]
  cases s.step c with
  | none => simp
  | some mid => simp

theorem run_append {ds : List Callback} :
    s.run (cs ++ ds) = some s' ↔ ∃ mid, s.run cs = some mid ∧ mid.run ds = some s' := by
  induction cs generalizing s with
  | nil => simp [run]
  | cons c cs ih =>
    rw [List.cons_append, run_cons]
    constructor
    case mp =>
      rintro ⟨mid, hstep, hrun⟩
      have ⟨mid', hcs, hds⟩ := ih.mp hrun
      exact ⟨mid', run_cons.mpr ⟨mid, hstep, hcs⟩, hds⟩
    case mpr =>
      rintro ⟨mid', hcs, hds⟩
      have ⟨mid, hstep, hrun⟩ := run_cons.mp hcs
      exact ⟨mid, hstep, ih.mpr ⟨mid', hrun, hds⟩⟩

theorem step_processResponse {isOK : Bool} : s.step (.processResponse isOK) = some s' ↔
    s.awaited = .processResponse ∧ s' = s.processResponse isOK := by
  rw [step]
  split
  case isTrue h => simp [h, eq_comm]
  case isFalse h => simp [h]

theorem step_processResponseData {isOK last : Bool} {buff : List Byte} {dlen : Int} :
    s.step (.processResponseData isOK buff dlen last) = some s' ↔
      s.awaited = .processResponseData ∧ dlen ≤ buff.length ∧
        s' = s.processResponseData isOK buff dlen last := by
  rw [step]
  split
  case isTrue h => simp [h, eq_comm]
  case isFalse h =>
    rw [not_and] at h
    simp only [reduceCtorEq, false_iff, not_and]
    exact fun hawaited hle => absurd hle (h hawaited)

-- A request that nothing is awaited for is deleted.
theorem run_of_nothing (h : s.awaited = .nothing) (hrun : s.run cs = some s') :
    cs = [] ∧ s' = s := by
  cases cs with
  | nil =>
    cases hrun
    exact ⟨rfl, rfl⟩
  | cons c cs =>
    have ⟨mid, hstep, _⟩ := run_cons.mp hrun
    cases c with
    | processResponse isOK =>
      rw [step_processResponse, h] at hstep
      cases hstep.1
    | processResponseData isOK buff dlen last =>
      rw [step_processResponseData, h] at hstep
      cases hstep.1

-- A chunk in front of the last one leaves no trace.
theorem step_more (hstep : s.step (more chunk) = some mid) : mid = s := by
  have ⟨hawaited, _, heq⟩ := step_processResponseData.mp hstep
  rw [heq, processResponseData, if_neg (by simp), if_pos (by simp [doOnce]), getResponseData,
    ← hawaited]

theorem Final.step_nothing (h : Final c) (hstep : s.step c = some mid) : mid.awaited = .nothing := by
  cases h with
  | error herror =>
    have ⟨_, _, heq⟩ := step_processResponseData.mp hstep
    rw [heq, processResponseData, if_pos (by simpa using herror)]
    rfl
  | last =>
    have ⟨_, _, heq⟩ := step_processResponseData.mp hstep
    rw [heq, processResponseData, if_neg (by simp), if_neg (by simp)]
    split
    case isTrue => rfl
    case isFalse => rfl

end Steps

section Runs

-- While the data comes
theorem run_data (h : s.awaited = .processResponseData) (hrun : s.run cs = some s')
    (hend : s'.awaited = .nothing) :
    ∃ chunks c, cs = List.map more chunks ++ [c] ∧ Final c ∧ s.step c = some s' := by
  induction cs with
  | nil =>
    cases hrun
    rw [h] at hend
    cases hend
  | cons c cs ih =>
    have ⟨mid, hstep, hrest⟩ := run_cons.mp hrun
    have hfinal (hfinal : Final c) :
        ∃ chunks c', c :: cs = List.map more chunks ++ [c'] ∧ Final c' ∧ s.step c' = some s' := by
      have ⟨hnil, heq⟩ := run_of_nothing (Final.step_nothing hfinal hstep) hrest
      subst hnil heq
      exact ⟨[], c, rfl, hfinal, hstep⟩
    cases c with
    | processResponse isOK =>
      rw [step_processResponse, h] at hstep
      cases hstep.1
    | processResponseData isOK buff dlen last =>
      by_cases herror : dlen < 0 ∨ isOK = false
      case pos => exact hfinal (.error herror)
      case neg =>
        obtain ⟨hpos, hok⟩ := not_or.mp herror
        obtain ⟨n, rfl⟩ := Int.eq_ofNat_of_zero_le (not_lt.mp hpos)
        have hok : isOK = true := by simpa using hok
        subst hok
        cases last with
        | true => exact hfinal .last
        | false =>
          have heq : mid = s := @step_more s mid (buff, n) hstep
          rw [heq] at hrest
          have ⟨chunks, c, hcs, hlast, hend⟩ := ih hrest
          exact ⟨(buff, n) :: chunks, c, by rw [hcs]; rfl, hlast, hend⟩

def refusals (n : Nat) : List Callback := List.replicate n (.processResponse false)

-- The ways in which the calls for a request can go
inductive Course (s : MyRequest) : List Callback → MyRequest → Prop
  | refused : Course s [.processResponse false, .processResponse false]
      { s with retry := false, awaited := .nothing }
  | answered {n : Nat} {chunks : List (List Byte × Nat)} {c : Callback} {retry : Bool}
      {s' : MyRequest} (hn : n ≤ 1) (final : Final c)
      (step : { s with retry, awaited := .processResponseData }.step c = some s') :
      Course s (refusals n ++ .processResponse true :: List.map more chunks ++ [c]) s'

theorem run_awaits (h : s.awaited = .processResponse) (hrun : s.run cs = some s')
    (hend : s'.awaited = .nothing) : ∃ isOK cs', cs = .processResponse isOK :: cs' := by
  cases cs with
  | nil =>
    cases hrun
    rw [h] at hend
    cases hend
  | cons c cs =>
    have ⟨mid, hstep, _⟩ := run_cons.mp hrun
    cases c with
    | processResponse isOK => exact ⟨isOK, cs, rfl⟩
    | processResponseData isOK buff dlen last =>
      rw [step_processResponseData, h] at hstep
      cases hstep.1

theorem run_answered (hrun : s.run (.processResponse true :: cs) = some s')
    (hend : s'.awaited = .nothing) : ∃ chunks c, cs = List.map more chunks ++ [c] ∧ Final c ∧
      { s with awaited := .processResponseData }.step c = some s' := by
  have ⟨mid, hstep, hrest⟩ := run_cons.mp hrun
  have ⟨_, hmid⟩ := step_processResponse.mp hstep
  rw [processResponse, if_pos rfl] at hmid
  subst hmid
  exact run_data rfl hrest hend

theorem course_of_run (h : s.awaited = .processResponse) (hretry : s.retry = true)
    (hrun : s.run cs = some s') (hend : s'.awaited = .nothing) : Course s cs s' := by
  obtain ⟨isOK, cs, rfl⟩ := run_awaits h hrun hend
  cases isOK with
  | true =>
    have ⟨chunks, c, hcs, hfinal, hstep⟩ := run_answered hrun hend
    subst hcs
    exact @Course.answered s 0 chunks c s.retry s' (Nat.zero_le 1) hfinal hstep
  | false =>
    have ⟨mid, hstep, hrest⟩ := run_cons.mp hrun
    have ⟨_, hmid⟩ := step_processResponse.mp hstep
    rw [processResponse, if_neg (by simp), finished, if_pos hretry, processRequest] at hmid
    subst hmid
    obtain ⟨isOK, cs, rfl⟩ := run_awaits rfl hrest hend
    cases isOK with
    | true =>
      have ⟨chunks, c, hcs, hfinal, hstep⟩ := run_answered hrest hend
      subst hcs
      exact @Course.answered s 1 chunks c false s' le_rfl hfinal hstep
    | false =>
      have ⟨mid, hstep, hrest⟩ := run_cons.mp hrest
      have ⟨_, hmid⟩ := step_processResponse.mp hstep
      rw [processResponse, if_neg (by simp), finished, if_neg (by simp)] at hmid
      subst hmid
      have ⟨hnil, heq⟩ := run_of_nothing rfl hrest
      subst hnil heq
      exact .refused

-- The calls for a request do not depend on what it has at its destination.
theorem step_dest (hstep : s.step c = some s') (dest : List Byte) :
    ∃ dest', { s with dest }.step c = some { s' with dest := dest' } := by
  cases c with
  | processResponse isOK =>
    have ⟨hawaited, heq⟩ := step_processResponse.mp hstep
    refine ⟨dest, step_processResponse.mpr ⟨hawaited, ?_⟩⟩
    subst heq
    cases isOK with
    | true => rfl
    | false => cases hretry : s.retry <;> simp [processResponse, finished, processRequest, hretry]
  | processResponseData isOK buff dlen last =>
    have ⟨hawaited, hle, heq⟩ := step_processResponseData.mp hstep
    refine ⟨({ s with dest }.processResponseData isOK buff dlen last).dest,
      step_processResponseData.mpr ⟨hawaited, hle, ?_⟩⟩
    subst heq
    simp only [processResponseData]
    split_ifs <;> rfl

theorem run_dest (hrun : s.run cs = some s') (dest : List Byte) :
    ∃ dest', { s with dest }.run cs = some { s' with dest := dest' } := by
  induction cs generalizing s dest with
  | nil =>
    cases hrun
    exact ⟨dest, rfl⟩
  | cons c cs ih =>
    have ⟨mid, hstep, hrest⟩ := run_cons.mp hrun
    have ⟨dest', hstep'⟩ := step_dest hstep dest
    have ⟨dest'', hrest'⟩ := ih hrest dest'
    exact ⟨dest'', run_cons.mpr ⟨_, hstep', hrest'⟩⟩

end Runs

section Answers

-- A request has ended well, or `WaitForGet` throws.
def Answered (filename : String) (bytes : List Byte) (s : MyRequest) : Prop :=
  (s.promise = [true] ∧ s.waitForGet filename = some (.ok true) ∧
    s.dest.take bytes.length = bytes ∧ (s.expectedSize = 0 ∨ bytes.length ≤ s.expectedSize)) ∨
  (s.promise = [false] ∧ ∃ text, s.waitForGet filename = some (.error text))

theorem answered_false (h : s.promise = [false]) (bytes : List Byte) :
    Answered filename bytes s := by
  refine .inr ⟨h, "XRootD - Get failed for file " ++ filename, ?_⟩
  rw [waitForGet, h]

-- An error and a chunk that is too long are told.
theorem Final.step_false (h : Final c) (hbytes : s.totbytes = 0) (htaken : ¬Taken s.expectedSize c)
    (hstep : s.step c = some s') : s'.promise = s.promise ++ [false] := by
  cases h with
  | error herror =>
    have ⟨_, _, heq⟩ := step_processResponseData.mp hstep
    rw [heq, processResponseData, if_pos (by simpa using herror)]
    rfl
  | @last buff dlen =>
    have ⟨_, _, heq⟩ := step_processResponseData.mp hstep
    have hlong : s.expectedSize ≠ 0 ∧ s.expectedSize < s.totbytes + (dlen : Int).toNat := by
      simp only [Taken, true_and, not_or, Nat.cast_le, Int.natCast_nonneg] at htaken
      rw [hbytes, Int.toNat_natCast]
      omega
    rw [heq, processResponseData, if_neg (by simp), if_neg (by simp), if_pos hlong]
    rfl

theorem step_taken (hbytes : s.totbytes = 0) (htaken : Taken s.expectedSize c)
    (hstep : s.step c = some s') : s'.promise = s.promise ++ [true] ∧
      s'.dest = received [] c ++ s.dest.drop (received [] c).length ∧
      s'.expectedSize = s.expectedSize ∧
      (s.expectedSize = 0 ∨ (received [] c).length ≤ s.expectedSize) := by
  cases c with
  | processResponse isOK => exact absurd htaken id
  | processResponseData isOK buff dlen last =>
    obtain ⟨rfl, hpos, rfl, hle⟩ := htaken
    obtain ⟨n, rfl⟩ := Int.eq_ofNat_of_zero_le hpos
    have ⟨_, hbuff, heq⟩ := step_processResponseData.mp hstep
    have hlen : (buff.take n).length = n := by
      rw [List.length_take]
      omega
    have hshort : ¬(s.expectedSize ≠ 0 ∧ s.expectedSize < s.totbytes + (n : Int).toNat) := by
      rw [hbytes, Int.toNat_natCast]
      omega
    rw [processResponseData, if_neg (by simp), if_neg (by simp), if_neg hshort] at heq
    subst heq
    simp only [received, List.nil_append, Int.toNat_natCast, hlen]
    exact ⟨rfl, rfl, rfl, by omega⟩

theorem response_concat : response (cs ++ [c]) = received (response cs) c := by
  rw [response, List.foldl_append]
  rfl

theorem received_of_taken {bytes : List Byte} {expectedSize : Nat} (h : Taken expectedSize c) :
    received bytes c = bytes ++ received [] c := by
  cases c with
  | processResponse isOK => exact absurd h id
  | processResponseData isOK buff dlen last => rfl

-- One chunk is the whole response.
theorem answered_of_whole (hpromise : s.promise = []) (hbytes : s.totbytes = 0)
    (htaken : Taken s.expectedSize c) (hstep : s.step c = some s') :
    Answered filename (received [] c) s' := by
  have ⟨hset, hdest, hsize, hle⟩ := step_taken hbytes htaken hstep
  have htrue : s'.promise = [true] := by rw [hset, hpromise, List.nil_append]
  refine .inl ⟨htrue, ?_, ?_, hsize ▸ hle⟩
  · rw [waitForGet, htrue]
  · rw [hdest, List.take_left']
    rfl

-- More than one is not.
theorem not_answered_of_split {bytes : List Byte} (hpromise : s.promise = [])
    (hbytes : s.totbytes = 0) (htaken : Taken s.expectedSize c) (hstep : s.step c = some s')
    (hsplit : bytes ≠ []) {b : Byte}
    (hb : some b ≠ (bytes ++ received [] c)[(received [] c).length]?)
    (hdest : s.dest[(received [] c).length]? = some b) :
    ¬Answered filename (bytes ++ received [] c) s' := by
  have ⟨hset, hdest', _⟩ := step_taken hbytes htaken hstep
  rintro (⟨_, _, hholds, _⟩ | ⟨hfalse, _⟩)
  · have hlen : (received [] c).length < (bytes ++ received [] c).length := by
      rw [List.length_append]
      have := List.length_pos_iff.mpr hsplit
      omega
    have hget := congrArg (fun bs : List Byte => bs[(received [] c).length]?) hholds
    rw [List.getElem?_take_of_lt hlen, hdest', List.getElem?_append_right le_rfl, Nat.sub_self,
      List.getElem?_drop, Nat.add_zero, hdest] at hget
    exact hb hget
  · rw [hset, hpromise] at hfalse
    cases hfalse

end Answers

section Gets

variable {expectedSize : Nat}

-- No submission fails after a retry, and what comes before a last chunk that is taken is empty.
structure Unsplit (expectedSize : Nat) (cs : List Callback) : Prop where
  retried : cs.count (.processResponse false) ≤ 1
  whole   : ∀ c, cs.getLast? = some c → Taken expectedSize c → response cs.dropLast = []

-- The library has made all its calls.
def Complete (expectedSize : Nat) (cs : List Callback) : Prop :=
  ∃ dest s, (get dest expectedSize).run cs = some s ∧ s.awaited = .nothing

theorem Complete.course (h : Complete expectedSize cs) (dest : List Byte) :
    ∃ s, (get dest expectedSize).run cs = some s ∧ Course (get dest expectedSize) cs s := by
  have ⟨dest₀, s, hrun, hend⟩ := h
  have ⟨dest', hrun'⟩ := run_dest hrun dest
  exact ⟨_, hrun', course_of_run rfl rfl hrun' hend⟩

theorem count_answered {n : Nat} {chunks : List (List Byte × Nat)} (hfinal : Final c) :
    (refusals n ++ .processResponse true :: List.map more chunks ++ [c]).count
      (.processResponse false) = n := by
  have hmore : (List.map more chunks).count (.processResponse false) = 0 := by
    rw [List.count_eq_zero]
    intro hmem
    have ⟨chunk, _, heq⟩ := List.mem_map.mp hmem
    cases heq
  have hlast : [c].count (.processResponse false) = 0 := by
    rw [List.count_eq_zero, List.mem_singleton]
    rintro rfl
    cases hfinal
  rw [List.count_append, List.count_append, refusals, List.count_replicate_self,
    List.count_cons_of_ne (by decide), hmore, hlast,
    Nat.add_zero]

-- Whatever is at the destination and whatever way a response comes in, a request is answered exactly
-- when the response is not split and no retry fails.
theorem get_answered (h : Complete expectedSize cs) :
    (∀ dest : List Byte, expectedSize ≤ dest.length →
      ∃ s, (get dest expectedSize).run cs = some s ∧ Answered filename (response cs) s) ↔
        Unsplit expectedSize cs := by
  constructor
  case mp =>
    intro hall
    constructor
    case retried =>
      have ⟨s, hrun, hcourse⟩ := h.course (List.replicate expectedSize 0)
      have ⟨s₁, hrun₁, hanswered⟩ :=
        hall (List.replicate expectedSize 0) (List.length_replicate).ge
      rw [hrun] at hrun₁
      cases hrun₁
      cases hcourse with
      | refused => rcases hanswered with ⟨hset, _⟩ | ⟨hset, _⟩ <;> cases hset
      | answered hn hfinal _ => rwa [count_answered hfinal]
    case whole =>
      intro c hlast htaken
      by_contra hsplit
      have hcs : cs = cs.dropLast ++ [c] := (List.dropLast_append_getLast? c hlast).symm
      have hbytes : response cs = response cs.dropLast ++ received [] c := by
        conv_lhs => rw [hcs]
        rw [response_concat, received_of_taken htaken]
      -- Another byte is where the last chunk ends.
      have ⟨b, hb⟩ : ∃ b, some b ≠ (response cs)[(received [] c).length]? := by
        by_cases hzero : (response cs)[(received [] c).length]? = some 0
        · exact ⟨1, by rw [hzero]; decide⟩
        · exact ⟨0, Ne.symm hzero⟩
      have hlen : (received [] c).length < (response cs).length := by
        rw [hbytes, List.length_append]
        have := List.length_pos_iff.mpr hsplit
        omega
      let dest := List.replicate (expectedSize + (response cs).length) b
      have ⟨s, hrun, hcourse⟩ := h.course dest
      have ⟨s₁, hrun₁, hanswered⟩ := hall dest (by rw [List.length_replicate]; omega)
      rw [hrun] at hrun₁
      cases hrun₁
      rw [hbytes] at hanswered hb
      cases hcourse with
      | refused =>
        cases hlast
        exact htaken
      | answered hn hfinal hstep =>
        rw [List.getLast?_concat] at hlast
        cases hlast
        refine not_answered_of_split rfl rfl htaken hstep hsplit hb ?_ hanswered
        exact List.getElem?_replicate_of_lt (by omega)
  case mpr =>
    intro hunsplit dest _
    have ⟨s, hrun, hcourse⟩ := h.course dest
    refine ⟨s, hrun, ?_⟩
    cases hcourse with
    | refused =>
      have := hunsplit.retried
      simp at this
    | @answered n chunks c retry s hn hfinal hstep =>
      by_cases htaken : Taken expectedSize c
      case pos =>
        have hwhole := hunsplit.whole c List.getLast?_concat htaken
        rw [List.dropLast_concat] at hwhole
        rw [response_concat, hwhole]
        exact answered_of_whole rfl rfl htaken hstep
      case neg => exact answered_false (Final.step_false hfinal rfl htaken hstep) _

-- After an error and a retry a response comes in one chunk, with an empty one before it.
theorem get_answered_retried :
    Complete 2 [.processResponse false, .processResponse true,
      .processResponseData true [] 0 false, .processResponseData true [1, 2] 2 true] ∧
    Unsplit 2 [.processResponse false, .processResponse true,
      .processResponseData true [] 0 false, .processResponseData true [1, 2] 2 true] := by
  have hcomplete : Complete 2 [.processResponse false, .processResponse true,
      .processResponseData true [] 0 false, .processResponseData true [1, 2] 2 true] :=
    ⟨[0, 0], _, rfl, rfl⟩
  refine ⟨hcomplete, (@get_answered _ "" 2 hcomplete).mp fun dest hdest => ⟨_, rfl, .inl ?_⟩⟩
  exact ⟨rfl, rfl, rfl, .inr le_rfl⟩

-- Of two chunks the second one takes the place of the first one; and after two errors the promise is
-- never set.
theorem split_response :
    (∃ s, (get [0, 0] 2).run [.processResponse true, .processResponseData true [1] 1 false,
        .processResponseData true [2] 1 true] = some s ∧ s.awaited = .nothing ∧
      ¬Answered "data.bp" (response [.processResponse true, .processResponseData true [1] 1 false,
        .processResponseData true [2] 1 true]) s) ∧
    ∃ s, (get [0, 0] 2).run [.processResponse false, .processResponse false] = some s ∧
      s.awaited = .nothing ∧ s.waitForGet "data.bp" = none ∧
      ¬Answered "data.bp" (response [.processResponse false, .processResponse false]) s := by
  constructor
  case left =>
    refine ⟨_, rfl, rfl, ?_⟩
    rintro (⟨_, _, hholds, _⟩ | ⟨hfalse, _⟩)
    · exact absurd hholds (by decide)
    · cases hfalse
  case right =>
    refine ⟨_, rfl, rfl, rfl, ?_⟩
    rintro (⟨htrue, _⟩ | ⟨hfalse, _⟩)
    · cases htrue
    · cases hfalse

end Gets

end MyRequest

end XrootdRemote
