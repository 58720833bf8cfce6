import Adios2.Toolkit.KVCache.QueryBox

-- The text of a box tells the box, also behind a prefix in which it does not seem to begin.

namespace KVCache

open Bytes CString Boxes

section Find

variable {p a s r : List Byte} {c : Byte}

theorem find_cons (h : ¬p <+: c :: s) : find p (c :: s) = (find p s).map (· + 1) := by
  rw [find, if_neg h]

theorem find_prefix : find p (p ++ s) = some 0 := by
  cases h : p ++ s with
  | nil =>
    have ⟨hp, _⟩ := List.append_eq_nil_iff.mp h
    simp [find, hp]
  | cons c t =>
    rw [find, if_pos]
    exact h ▸ List.prefix_append p s

-- What stands in front of all occurrences is passed over.
theorem find_append (h : ∀ t, t <:+ a → t ≠ [] → ¬p <+: t ++ s) :
    find p (a ++ s) = (find p s).map (· + a.length) := by
  induction a with
  | nil => simp
  | cons c a ih =>
    have hcons : ¬p <+: c :: (a ++ s) := h (c :: a) List.suffix_rfl (List.cons_ne_nil c a)
    rw [show c :: a ++ s = c :: (a ++ s) from rfl, find_cons hcons,
      ih fun t ht => h t (ht.trans (List.suffix_cons c a)), Option.map_map]
    rfl

theorem find_append_of_notMem (hc : c ∉ a) :
    find (c :: p) (a ++ s) = (find (c :: p) s).map (· + a.length) := by
  refine find_append fun t ht hne h => ?_
  have ⟨d, t', hcons⟩ := List.exists_cons_of_ne_nil hne
  subst hcons
  have heq : c = d := (List.cons_prefix_cons.mp h).left
  exact hc (ht.subset (heq ▸ List.mem_cons_self))

-- A pattern with its first character nowhere else does not begin in front of that character.
theorem prefix_of_prefix_append (hc : c ∉ p) (ha : a ≠ []) (h : c :: p <+: a ++ c :: s) :
    c :: p <+: a := by
  rcases List.prefix_or_prefix_of_prefix h (List.prefix_append a (c :: s)) with h' | ⟨q, hq⟩
  case inl => exact h'
  case inr =>
    cases q with
    | nil => exact (hq ▸ List.append_nil a).symm ▸ List.prefix_rfl
    | cons d q =>
      rw [← hq, List.prefix_append_right_inj] at h
      have hd : d = c := (List.cons_prefix_cons.mp h).left
      have ⟨e, a', hcons⟩ := List.exists_cons_of_ne_nil ha
      rw [hcons, List.cons_append] at hq
      have hp := (List.cons.inj hq).right
      exact absurd (hp ▸ List.mem_append_right a' (hd ▸ List.mem_cons_self)) hc

theorem find_append_of_not_infix (hc : c ∉ p) (ha : ¬c :: p <:+: a) :
    find (c :: p) (a ++ c :: s) = (find (c :: p) (c :: s)).map (· + a.length) :=
  find_append fun _ ht hne h =>
    ha ((prefix_of_prefix_append hc hne h).isInfix.trans ht.isInfix)

end Find

namespace QueryBox

section Numbers

variable {n : Nat} (values : Fin n → Nat)

theorem underscore_notMem : ∀ l ∈ List.ofFn fun i => decimal (values i), (95 : Byte) ∉ l := by
  intro l hl h
  obtain ⟨i, rfl⟩ := List.mem_ofFn.mp hl
  exact absurd (decimal_digits (values i) 95 h) (by decide)

theorem splitOn_numbers (hn : 0 < n) :
    (numbers values).splitOn 95 = List.ofFn fun i => decimal (values i) :=
  List.splitOn_intercalate 95 (underscore_notMem values) (by simpa using hn.ne')

theorem numbers_injective : Function.Injective (numbers (n := n)) := by
  intro v w h
  cases n with
  | zero   => exact Subsingleton.elim v w
  | succ n =>
    have hsplit := congrArg (List.splitOn 95) h
    rw [splitOn_numbers v (Nat.succ_pos n), splitOn_numbers w (Nat.succ_pos n)] at hsplit
    funext i
    have hi := congrFun (List.ofFn_injective hsplit) i
    rw [← digitsValue_decimal (v i), ← digitsValue_decimal (w i), hi]

theorem mem_intercalate {ls : List (List Byte)} {c d : Byte} (h : c ∈ [d].intercalate ls) :
    c = d ∨ ∃ l ∈ ls, c ∈ l := by
  induction ls with
  | nil => simp at h
  | cons l ls ih =>
    cases ls with
    | nil => exact .inr ⟨l, List.mem_cons_self, by simpa using h⟩
    | cons l' ls =>
      rw [List.intercalate_cons_cons, List.append_assoc, List.mem_append, List.mem_append] at h
      rcases h with h | h | h
      case inl => exact .inr ⟨l, List.mem_cons_self, h⟩
      case inr.inl => exact .inl (List.mem_singleton.mp h)
      case inr.inr =>
        rcases ih h with h | ⟨l, hl, h⟩
        · exact .inl h
        · exact .inr ⟨l, List.mem_cons_of_mem _ hl, h⟩

theorem bar_notMem_numbers : (124 : Byte) ∉ numbers values := by
  intro h
  rcases mem_intercalate h with h | ⟨l, hl, h⟩
  case inl => exact absurd h (by decide)
  case inr =>
    obtain ⟨i, rfl⟩ := List.mem_ofFn.mp hl
    exact absurd (decimal_digits (values i) 124 h) (by decide)

theorem count_intercalate (ls : List (List Byte)) (hls : ls ≠ []) (h : ∀ l ∈ ls, (95 : Byte) ∉ l) :
    ([95].intercalate ls).count 95 + 1 = ls.length := by
  induction ls with
  | nil => exact absurd rfl hls
  | cons l ls ih =>
    have hl := List.count_eq_zero.mpr (h l List.mem_cons_self)
    cases ls with
    | nil => simpa using hl
    | cons l' ls =>
      have := ih (List.cons_ne_nil l' ls) fun l hl => h l (List.mem_cons_of_mem _ hl)
      rw [List.intercalate_cons_cons, List.append_assoc, List.count_append, List.count_append, hl]
      simp only [List.length_cons, List.count_singleton_self] at this ⊢
      omega

theorem count_numbers (hn : 0 < n) : (numbers values).count 95 + 1 = n := by
  have := count_intercalate (List.ofFn fun i => decimal (values i)) (by simpa using hn.ne')
    (underscore_notMem values)
  simpa [numbers] using this

theorem getlines_numbers (hn : 0 < n) :
    getlines 95 (numbers values) = List.ofFn fun i => decimal (values i) := by
  rw [getlines, splitOn_numbers values hn]
  refine if_neg fun h => ?_
  have hmem := List.mem_of_getLast? h
  obtain ⟨i, hi⟩ := List.mem_ofFn.mp hmem
  exact decimal_ne_nil (values i) hi

end Numbers

section Keys

variable {n : Nat} (b : QueryBox n)

theorem toString_eq : b.toString = ascii "Start_" ++ numbers b.start ++
    (124 :: (ascii "Count_" ++ numbers b.count ++ [124])) := by
  rw [toString, show ascii "|Count_" = 124 :: ascii "Count_" from rfl, show ascii "|" = [124] from rfl]
  simp

theorem splitOn_toString : b.toString.splitOn 124 =
    [ascii "Start_" ++ numbers b.start, ascii "Count_" ++ numbers b.count, []] := by
  have hstart : (124 : Byte) ∉ ascii "Start_" ++ numbers b.start := by
    rw [List.mem_append, not_or]
    exact ⟨by decide, bar_notMem_numbers b.start⟩
  have hcount : (124 : Byte) ∉ ascii "Count_" ++ numbers b.count := by
    rw [List.mem_append, not_or]
    exact ⟨by decide, bar_notMem_numbers b.count⟩
  rw [toString_eq, List.splitOn_append_cons_self_of_not_mem hstart,
    List.splitOn_append_cons_self_of_not_mem hcount]
  rfl

theorem toString_injective : Function.Injective (toString (n := n)) := by
  intro b b' h
  have hsplit := congrArg (List.splitOn 124) h
  rw [splitOn_toString, splitOn_toString] at hsplit
  have ⟨hstart, htail⟩ := List.cons.inj hsplit
  have ⟨hcount, _⟩ := List.cons.inj htail
  have hstart := numbers_injective (List.append_cancel_left hstart)
  have hcount := numbers_injective (List.append_cancel_left hcount)
  cases b
  cases b'
  exact mk.injEq .. |>.mpr ⟨hstart, hcount⟩

-- The key of a box: what it is a box of, and its text.
def key (pre : List Byte) : List Byte := pre ++ ascii "|" ++ b.toString

-- In what the box is a box of, no box seems to begin.
def Plain (pre : List Byte) : Prop := ¬ascii "|Start" <:+: pre ∧ ¬ascii "|Count" <:+: pre

instance (pre : List Byte) : Decidable (Plain pre) := by
  unfold Plain
  infer_instance

variable {b} {pre : List Byte}

theorem key_eq : b.key pre = pre ++ 124 :: (ascii "Start_" ++ (numbers b.start ++
    124 :: (ascii "Count_" ++ (numbers b.count ++ [124])))) := by
  rw [key, toString_eq, show ascii "|" = [124] from rfl]
  simp

theorem find_start (h : Plain pre) {t : List Byte} (ht : t <+: ascii "Start_")
    (hle : ascii "Start" <+: t) : find (124 :: t) (b.key pre) = some pre.length := by
  obtain ⟨r, hr⟩ := ht
  have hbar : (124 : Byte) ∉ t := fun hmem =>
    absurd (hr ▸ List.mem_append_left r hmem : (124 : Byte) ∈ ascii "Start_") (by decide)
  have hpre : ¬124 :: t <:+: pre := fun hin =>
    h.left ((List.cons_prefix_cons.mpr ⟨rfl, hle⟩ : ascii "|Start" <+: 124 :: t).isInfix.trans hin)
  rw [key_eq, find_append_of_not_infix hbar hpre, ← hr, List.append_assoc, ← List.cons_append,
    find_prefix]
  simp

theorem find_count (h : Plain pre) {t : List Byte} (ht : t <+: ascii "Count_")
    (hle : ascii "Count" <+: t) : find (124 :: t) (b.key pre) =
      some (pre.length + 1 + (ascii "Start_" ++ numbers b.start).length) := by
  obtain ⟨r, hr⟩ := ht
  have hbar : (124 : Byte) ∉ t := fun hmem =>
    absurd (hr ▸ List.mem_append_left r hmem : (124 : Byte) ∈ ascii "Count_") (by decide)
  have hpre : ¬124 :: t <:+: pre := fun hin =>
    h.right ((List.cons_prefix_cons.mpr ⟨rfl, hle⟩ : ascii "|Count" <+: 124 :: t).isInfix.trans hin)
  have hstart : (124 : Byte) ∉ ascii "Start_" ++ numbers b.start := by
    rw [List.mem_append, not_or]
    exact ⟨by decide, bar_notMem_numbers b.start⟩
  have hskip : ∀ s, ¬124 :: t <+: 124 :: (ascii "Start_" ++ s) := by
    intro s hpre
    obtain ⟨q, rfl⟩ := hle
    have hq := (List.cons_prefix_cons.mp hpre).right
    exact absurd (List.cons_prefix_cons.mp hq).left (by decide)
  rw [key_eq, find_append_of_not_infix hbar hpre, find_cons (hskip _), ← List.append_assoc,
    find_append_of_notMem hstart, ← hr, List.append_assoc, ← List.cons_append, find_prefix]
  simp only [Option.map_some, Option.some.injEq]
  omega

theorem mapM_stoul (hn : n ≤ maxDims) {values : Fin n → Nat} (h : ∀ i, values i < 2 ^ 64) :
    ((List.ofFn fun i => decimal (values i)).zipIdx.mapM fun (token, i) => do
      let value ← stoul token
      if i < maxDims then pure value else .error .undefined) =
        (.ok (List.ofFn values) : Outcome (List Nat)) := by
  refine (Outcome.mapM_eq_ok (g := fun p => digitsValue p.1) ?_).trans ?_
  · rintro ⟨token, i⟩ hmem
    have ⟨hi, htoken⟩ := List.mem_zipIdx' hmem
    simp only [List.length_ofFn, List.getElem_ofFn] at hi htoken
    simp only [htoken]
    rw [stoul_decimal (h _), Outcome.ok_bind, if_pos (by omega), digitsValue_decimal]
    rfl
  · congr 1
    refine List.ext_getElem (by simp) fun k hk _ => ?_
    simp [digitsValue_decimal]

theorem extractDimensions_eq (hpos : 0 < n) (hn : n ≤ maxDims) {values : Fin n → Nat}
    (h : ∀ i, values i < 2 ^ 64) {key delimiter a r : List Byte}
    (hfind : find delimiter key = some a.length)
    (hkey : key = a ++ delimiter ++ (numbers values ++ 124 :: r)) :
    extractDimensions key delimiter = .ok (List.ofFn values) := by
  have hdrop : key.drop (a.length + delimiter.length) = numbers values ++ 124 :: r := by
    rw [hkey, ← List.length_append, List.drop_left]
  have hend : find (ascii "|") (numbers values ++ 124 :: r) = some (numbers values).length := by
    rw [show ascii "|" = [124] from rfl, find_append_of_notMem (bar_notMem_numbers values),
      show (124 : Byte) :: r = [124] ++ r from rfl, find_prefix]
    simp
  rw [extractDimensions, hfind]
  simp only [hdrop, hend, List.take_left, getlines_numbers values hpos]
  exact mapM_stoul hn h

theorem dimCount_key (h : Plain pre) (hpos : 0 < n) (hn : n ≤ maxDims) :
    dimCount (b.key pre) = .ok n := by
  have hs := find_start (b := b) h (t := ascii "Start") ⟨[95], rfl⟩ List.prefix_rfl
  have hc := find_count (b := b) h (t := ascii "Count") ⟨[95], rfl⟩ List.prefix_rfl
  have htake : ((b.key pre).take
      (pre.length + 1 + (ascii "Start_" ++ numbers b.start).length)).drop pre.length =
        124 :: (ascii "Start_" ++ numbers b.start) := by
    have hkey : b.key pre = pre ++ (124 :: (ascii "Start_" ++ numbers b.start)) ++
        124 :: (ascii "Count_" ++ (numbers b.count ++ [124])) := by
      rw [key_eq]
      simp
    have hlen : pre.length + 1 + (ascii "Start_" ++ numbers b.start).length =
        (pre ++ (124 :: (ascii "Start_" ++ numbers b.start))).length := by
      simp only [List.length_append, List.length_cons]
      omega
    rw [hkey, hlen, List.take_left, List.drop_left]
  have hcount : (124 :: (ascii "Start_" ++ numbers b.start)).count (95 : Byte) = n := by
    have := count_numbers b.start hpos
    rw [List.count_cons_of_ne (by decide), List.count_append,
      show (ascii "Start_").count 95 = 1 from by decide]
    omega
  rw [dimCount, show ascii "|Start" = 124 :: ascii "Start" from rfl,
    show ascii "|Count" = 124 :: ascii "Count" from rfl, hs, hc]
  simp only [Option.orUndefined_some, Outcome.ok_bind, htake, hcount]
  rw [if_pos ⟨by omega, hn⟩]
  rfl

-- A box is read from its key.
theorem readBox_key (h : Plain pre) (hpos : 0 < n) (hn : n ≤ maxDims) (hb : b.Bounded) :
    readBox (b.key pre) = .ok ⟨n, b⟩ := by
  have hs := find_start (b := b) h (t := ascii "Start_") List.prefix_rfl ⟨[95], rfl⟩
  have hc := find_count (b := b) h (t := ascii "Count_") List.prefix_rfl ⟨[95], rfl⟩
  have hstart : extractDimensions (b.key pre) (ascii "|Start_") = .ok (List.ofFn b.start) := by
    refine extractDimensions_eq hpos hn (fun i => by have := hb i; omega) (a := pre)
      (r := ascii "Count_" ++ (numbers b.count ++ [124])) hs ?_
    rw [key_eq]
    simp [show ascii "|Start_" = 124 :: ascii "Start_" from rfl]
  have hcount : extractDimensions (b.key pre) (ascii "|Count_") = .ok (List.ofFn b.count) := by
    refine extractDimensions_eq hpos hn (fun i => by have := hb i; omega)
      (a := pre ++ 124 :: (ascii "Start_" ++ numbers b.start)) (r := []) ?_ ?_
    · rw [show ascii "|Count_" = 124 :: ascii "Count_" from rfl, hc]
      simp only [List.length_append, List.length_cons, Option.some.injEq]
      omega
    · rw [key_eq]
      simp [show ascii "|Count_" = 124 :: ascii "Count_" from rfl]
  rw [readBox, dimCount_key h hpos hn, Outcome.ok_bind, hstart, Outcome.ok_bind, hcount,
    Outcome.ok_bind]
  simp

end Keys

end QueryBox

end KVCache
