import Adios2.Lib.Lists
import Adios2.Format.Buffer.BufferV

-- The places of the bytes of a vector, and what it is for a pointer to be right.

namespace Buffer

open Bytes

section Places

variable {ε : Type} {size : ε → Nat} {iovec : Nat → ε → Iovec} {kind : ε → EntryKind}

theorem Iovec.places_length (v : Iovec) : v.places.length = v.len := by
  rw [Iovec.places, List.length_map, List.length_range]

theorem map_len_mapIdx (hlen : ∀ i e, (iovec i e).len = size e) (dataV : List ε) :
    (dataV.mapIdx iovec).map Iovec.len = dataV.map size := by
  apply List.ext_getElem
  · simp
  · simp [hlen]

-- The byte at offset `k` of an entry.
theorem getElem?_places (hlen : ∀ i e, (iovec i e).len = size e) (front back : List ε) {e : ε}
    {k : Nat} (hk : k < size e) :
    (places ((front ++ e :: back).mapIdx iovec))[(front.map size).sum + k]? =
      some ((iovec front.length e).base.add k) := by
  rw [List.mapIdx_append, List.mapIdx_cons, ← map_len_mapIdx hlen, places,
    List.getElem?_flatMap_split Iovec.places_length _ _ (by simpa [hlen] using hk), Iovec.places,
    List.getElem?_map, List.getElem?_range (by simpa [hlen] using hk)]
  simp

theorem length_places (hlen : ∀ i e, (iovec i e).len = size e) (dataV : List ε) :
    (places (dataV.mapIdx iovec)).length = (dataV.map size).sum := by
  rw [places, List.length_flatMap_eq_sum Iovec.places_length, map_len_mapIdx hlen]

theorem getElem?_externals (hsize : ∀ e, (kind e).size = size e) (front back : List ε) {e : ε}
    {k : Nat} (hk : k < size e) :
    (externals ((front ++ e :: back).map kind))[(front.map size).sum + k]? =
      some (kind e).isExternal := by
  have hlen (e : ε) : (List.replicate (kind e).size (kind e).isExternal).length = size e := by
    rw [List.length_replicate, hsize]
  rw [externals, List.flatMap_map, List.getElem?_flatMap_split hlen front back hk,
    List.getElem?_replicate, if_pos (by rwa [hsize])]

end Places

-- The pointer for an offset is that of its byte.
def Designates {σ : Type} (b : BufferV σ) (s : σ) (off : Nat) : Prop :=
  ∃ place, b.getPtrOverall off s = .ok place ∧ (places (b.dataVec s))[off]? = some place

-- So is the one for the position of an allocation, and the bytes behind it follow.
def SpanDesignates {σ : Type} (b : BufferV σ) (s : σ) (span : Span) : Prop :=
  ∀ k < span.size, ∃ place, b.getPtr span.position s = .ok place ∧
    (places (b.dataVec s))[span.position.globalPos + k]? = some (place.add k)

namespace BufferV

variable {σ : Type} {b : BufferV σ}

-- What every operation keeps holds after any number of them.
theorem run_induction {P : Use σ → Prop}
    (hstep : ∀ u u' o, P u → b.step u o = .ok u' → P u') {operations : List Operation}
    {u u' : Use σ} (h : P u) (hrun : b.run u operations = .ok u') : P u' := by
  induction operations generalizing u with
  | nil =>
    cases hrun
    exact h
  | cons o operations ih =>
    have ⟨u₁, hstep₁, hrun⟩ := Outcome.bind_eq_ok.mp hrun
    exact ih (hstep u u₁ o h hstep₁) hrun

end BufferV

end Buffer
