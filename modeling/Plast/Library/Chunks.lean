/-
# Consecutive chunks of a list

Two one-shot ways to cut a list.  `chunksExact r l` takes chunks of `r` elements off
the front as long as a full one is left: they are all of `l` but its last
`l.length % r` elements (`flatten_chunksExact`).  `shiftedChunks r s l` pairs the
chunk at `k * r` with the one `s` elements further on, for `k` from `0` as long as
the second one is full.

In a list of `m` elements there are `m / r` chunks and `(m - s) / r` pairs, and
both can be given by their places (`chunksExact_eq`, `shiftedChunks_eq`).
-/

import Mathlib.Data.List.Basic

namespace Chunks

variable {α : Type*} {r s : ℕ} {l : List α}

/-- `slice::chunks_exact` for `0 < r`: the chunks of `r` elements, as long as a full
one is left. -/
def chunksExact (r : ℕ) (l : List α) : List (List α) :=
  if 0 < r ∧ r ≤ l.length then l.take r :: chunksExact r (l.drop r) else []
termination_by l.length
decreasing_by
  rw [List.length_drop]
  omega

/-- The pairs of elements `k * r` to `k * r + r` and elements `k * r + s` to
`k * r + s + r`, for `k` from `0` as long as the second ones are there (`0 < r`). -/
def shiftedChunks (r s : ℕ) (l : List α) : List (List α × List α) :=
  ((List.range l.length).takeWhile fun k => decide (k * r + r + s ≤ l.length)).map fun k =>
    (l.extract (k * r) (k * r + r), l.extract (k * r + s) (k * r + r + s))

theorem chunksExact_of_le (hr : 0 < r) (h : r ≤ l.length) :
    chunksExact r l = l.take r :: chunksExact r (l.drop r) := by
  rw [chunksExact, if_pos ⟨hr, h⟩]

theorem chunksExact_of_lt (h : l.length < r) : chunksExact r l = [] := by
  rw [chunksExact, if_neg]
  omega

/-- A list of `r` elements is one chunk. -/
theorem chunksExact_of_length_eq (hr : 0 < r) (h : l.length = r) : chunksExact r l = [l] := by
  rw [chunksExact_of_le hr (Nat.le_of_eq h.symm), List.take_of_length_le (Nat.le_of_eq h),
    chunksExact_of_lt]
  rw [List.length_drop, h, Nat.sub_self]
  exact hr

/-- Every chunk is full. -/
theorem length_of_mem_chunksExact {c : List α} (h : c ∈ chunksExact r l) : c.length = r := by
  induction l using chunksExact.induct r with
  | case1 l hle ih =>
    rw [chunksExact_of_le hle.1 hle.2] at h
    rcases List.mem_cons.1 h with rfl | hmem
    · exact List.length_take_of_le hle.2
    · exact ih hmem
  | case2 l hlt =>
    rw [chunksExact, if_neg hlt] at h
    exact absurd h List.not_mem_nil

/-- The chunks are all but the remainder. -/
theorem flatten_chunksExact (hr : 0 < r) (l : List α) :
    (chunksExact r l).flatten ++ l.drop (l.length - l.length % r) = l := by
  induction l using chunksExact.induct r with
  | case1 l hle ih =>
    have hrest : l.length - l.length % r = r + (l.length - r - (l.length - r) % r) := by
      have hmod : (l.length - r) % r = l.length % r := (Nat.mod_eq_sub_mod hle.2).symm
      have hlt := Nat.mod_le (l.length - r) r
      omega
    rw [chunksExact_of_le hle.1 hle.2, List.flatten_cons, List.append_assoc, hrest,
      ← List.drop_drop]
    rw [List.length_drop] at ih
    rw [ih, List.take_append_drop]
  | case2 l hlt =>
    have hshort : l.length < r := by omega
    rw [chunksExact_of_lt hshort, Nat.mod_eq_of_lt hshort, Nat.sub_self]
    rfl

/-- The chunks by their places. -/
theorem chunksExact_eq (hr : 0 < r) (l : List α) :
    chunksExact r l = (List.range (l.length / r)).map fun k => l.extract (k * r) (k * r + r) := by
  induction l using chunksExact.induct r with
  | case1 l hle ih =>
    have hcount : l.length / r = (l.length - r) / r + 1 := Nat.div_eq_sub_div hr hle.2
    rw [chunksExact_of_le hle.1 hle.2, ih, List.length_drop, hcount, List.range_succ_eq_map,
      List.map_cons, List.map_map]
    congr 1
    · simp
    · refine List.map_congr_left fun k _ => ?_
      simp only [Function.comp_apply, List.extract_eq_take_drop, List.drop_drop, Nat.succ_mul]
      congr 1
      · omega
      · rw [Nat.add_comm]
  | case2 l hlt =>
    have hshort : l.length < r := by omega
    rw [chunksExact_of_lt hshort, Nat.div_eq_of_lt hshort]
    rfl

/-- The numbers below `m` up to the first that is not below `q`. -/
theorem takeWhile_range_lt {q m : ℕ} (h : q ≤ m) :
    (List.range m).takeWhile (fun k => decide (k < q)) = List.range q := by
  obtain ⟨d, rfl⟩ := Nat.exists_eq_add_of_le h
  rw [List.range_add, List.takeWhile_append_of_pos fun k hk => by simpa using hk]
  have hrest : ((List.range d).map (q + ·)).takeWhile (fun k => decide (k < q)) = [] := by
    cases d with
    | zero => rfl
    | succ d => simp [List.range_succ_eq_map]
  rw [hrest, List.append_nil]

/-- A pair fits as long as `k` is below the number of pairs. -/
theorem shifted_fits_iff (hr : 0 < r) {k m : ℕ} : k * r + r + s ≤ m ↔ k < (m - s) / r := by
  rw [← Nat.succ_le_iff, Nat.le_div_iff_mul_le hr, Nat.succ_mul]
  omega

/-- The pairs by their places. -/
theorem shiftedChunks_eq (hr : 0 < r) (s : ℕ) (l : List α) :
    shiftedChunks r s l = (List.range ((l.length - s) / r)).map fun k =>
      (l.extract (k * r) (k * r + r), l.extract (k * r + s) (k * r + r + s)) := by
  have hle : (l.length - s) / r ≤ l.length := Nat.le_trans (Nat.div_le_self _ _) (Nat.sub_le _ _)
  simp only [shiftedChunks, shifted_fits_iff hr, takeWhile_range_lt hle]

theorem length_shiftedChunks (hr : 0 < r) (s : ℕ) (l : List α) :
    (shiftedChunks r s l).length = (l.length - s) / r := by
  rw [shiftedChunks_eq hr, List.length_map, List.length_range]

/-- A pair of the list, and where it lies. -/
theorem getElem?_shiftedChunks (hr : 0 < r) {k : ℕ} {x y : List α}
    (h : (shiftedChunks r s l)[k]? = some (x, y)) :
    x = l.extract (k * r) (k * r + r) ∧ y = l.extract (k * r + s) (k * r + r + s) := by
  rw [shiftedChunks_eq hr, List.getElem?_map, Option.map_eq_some_iff] at h
  obtain ⟨i, hi, heq⟩ := h
  obtain ⟨hlt, hget⟩ := List.getElem?_eq_some_iff.1 hi
  obtain rfl : k = i := by rwa [List.getElem_range] at hget
  obtain ⟨rfl, rfl⟩ := Prod.mk.inj heq
  exact ⟨rfl, rfl⟩

/-- The last `s` elements of a pair are the first `s` of the next. -/
theorem drop_eq_take_of_shiftedChunks (hr : 0 < r) (hs : s ≤ r) {k : ℕ} {x y x' y' : List α}
    (h : (shiftedChunks r s l)[k]? = some (x, y))
    (h' : (shiftedChunks r s l)[k + 1]? = some (x', y')) : y.drop (r - s) = x'.take s := by
  obtain ⟨-, rfl⟩ := getElem?_shiftedChunks hr h
  obtain ⟨rfl, -⟩ := getElem?_shiftedChunks hr h'
  have hstart : k * r + s + (r - s) = (k + 1) * r := by rw [Nat.succ_mul]; omega
  have hcount : k * r + r + s - (k * r + s) - (r - s) = s := by omega
  rw [List.extract_eq_take_drop, List.extract_eq_take_drop, List.drop_take, List.drop_drop,
    hstart, hcount, List.take_take, Nat.add_sub_cancel_left, Nat.min_eq_left hs]

end Chunks
