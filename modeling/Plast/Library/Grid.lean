/-
# A grid laid over consecutive blocks

Blocks of given lengths stand one after the other, and a grid of cells of `r` elements
is laid over them from the front.  A cell is whole if one block holds it.

The first `n` cells are all whole exactly if every block that starts among them starts on
the grid (`whole_iff_aligned`).  Then they are the chunks of `r` elements of block after
block (`cells_eq_take`).  Off the grid a block has its cells elsewhere than its chunks, but
never more of them (`count_whole_le`).
-/

import Plast.Library.Chunks
import Plast.Library.PrefixSums
import Mathlib.Data.Nat.Count
import Mathlib.Order.Interval.Finset.Nat

namespace Grid

open Chunks PrefixSums

variable {α : Type*} {l : List ℕ} {r n : ℕ}

/-- One entry holds the numbers from `start` up to `stop`. -/
def Holds (l : List ℕ) (start stop : ℕ) : Prop :=
  ∃ i m, l[i]? = some m ∧ (l.take i).sum ≤ start ∧ stop ≤ (l.take i).sum + m

/-- Every entry that starts before `stop` starts on the grid. -/
def Aligned (r : ℕ) (l : List ℕ) (stop : ℕ) : Prop :=
  ∀ j, (l.take j).sum < stop → r ∣ (l.take j).sum

/-! ### Whole cells -/

/-- An entry that starts inside a cell cuts it. -/
theorem not_holds_of_start {j start stop : ℕ} (hin : start < (l.take j).sum)
    (hin' : (l.take j).sum < stop) : ¬Holds l start stop := by
  rintro ⟨i, m, hi, hstart, hstop⟩
  have hji := index_le hi (show (l.take j).sum < (l.take i).sum + m by omega) (Nat.le_refl _)
  have hmono := sum_take_mono l hji
  omega

/-- The first cells are all whole exactly if no entry starts inside one. -/
theorem whole_iff_aligned (hr : 0 < r) (hn : n * r ≤ l.sum) :
    (∀ k < n, Holds l (k * r) (k * r + r)) ↔ Aligned r l (n * r) := by
  constructor
  · intro hwhole j hj
    by_contra hdvd
    have hlt : (l.take j).sum / r < n := (Nat.div_lt_iff_lt_mul hr).2 hj
    have hrest : 0 < (l.take j).sum % r :=
      Nat.pos_of_ne_zero fun h => hdvd (Nat.dvd_of_mod_eq_zero h)
    have hmod := Nat.mod_lt (l.take j).sum hr
    have hdiv : (l.take j).sum / r * r + (l.take j).sum % r = (l.take j).sum :=
      Nat.div_add_mod' _ _
    exact not_holds_of_start (j := j) (by omega) (by omega) (hwhole _ hlt)
  · intro haligned k hk
    have hcell : k * r + r ≤ n * r := by
      rw [← Nat.succ_mul]
      exact Nat.mul_le_mul_right r hk
    obtain ⟨i, m, o, hi, ho, hplace⟩ := exists_of_lt_sum (show k * r < l.sum by omega)
    refine ⟨i, m, hi, by omega, ?_⟩
    by_contra hcut
    have hnext := sum_take_succ hi
    -- the entry ends inside the cell, where the next one starts
    obtain ⟨c, hc⟩ := haligned (i + 1) (by omega)
    have hlow : k * r < r * c := by omega
    have hhigh : r * c < r * (k + 1) := by
      rw [Nat.mul_succ, Nat.mul_comm r k]
      omega
    rw [Nat.mul_comm k r] at hlow
    have := Nat.lt_of_mul_lt_mul_left hlow
    have := Nat.lt_of_mul_lt_mul_left hhigh
    omega

/-! ### How many there are -/

/-- An entry of `m` numbers holds no more cells than it has chunks. -/
theorem count_cells_le (hr : 0 < r) (start m n : ℕ) :
    Nat.count (fun k => start ≤ k * r ∧ k * r + r ≤ start + m) n ≤ m / r := by
  have hceil : start ≤ (start + (r - 1)) / r * r := by
    have hmod := Nat.mod_lt (start + (r - 1)) hr
    have hdiv : (start + (r - 1)) / r * r + (start + (r - 1)) % r = start + (r - 1) :=
      Nat.div_add_mod' _ _
    omega
  have hsub : (Finset.range n).filter (fun k => start ≤ k * r ∧ k * r + r ≤ start + m) ⊆
      Finset.Ico ((start + (r - 1)) / r) ((start + (r - 1)) / r + m / r) := by
    intro k hk
    obtain ⟨-, hlow, hhigh⟩ := Finset.mem_filter.1 hk
    have hle : (start + (r - 1)) / r ≤ k := by
      refine Nat.lt_succ_iff.1 ((Nat.div_lt_iff_lt_mul hr).2 ?_)
      rw [Nat.succ_mul]
      omega
    obtain ⟨d, rfl⟩ := Nat.exists_eq_add_of_le hle
    rw [Nat.add_mul] at hhigh
    have hfit : d < m / r := by
      refine Nat.lt_of_succ_le ((Nat.le_div_iff_mul_le hr).2 ?_)
      rw [Nat.succ_mul]
      omega
    exact Finset.mem_Ico.2 ⟨hle, by omega⟩
  rw [Nat.count_eq_card_filter_range]
  exact (Finset.card_le_card hsub).trans (by rw [Nat.card_Ico, Nat.add_sub_cancel_left])

theorem count_le_add (p q : ℕ → Prop) [DecidablePred p] [DecidablePred q] (n : ℕ) :
    Nat.count p n ≤ Nat.count q n + Nat.count (fun k => p k ∧ ¬q k) n := by
  induction n with
  | zero => exact Nat.zero_le _
  | succ n ih =>
    simp only [Nat.count_succ]
    by_cases hp : p n <;> by_cases hq : q n <;> simp only [hp, hq] <;> simp <;> omega

/-- The whole cells are no more than the chunks of the entries. -/
theorem count_whole_le (hr : 0 < r) {p : ℕ → Prop} [DecidablePred p] (start : ℕ)
    (hp : ∀ k, p k → ∃ i m, l[i]? = some m ∧ start + (l.take i).sum ≤ k * r ∧
      k * r + r ≤ start + (l.take i).sum + m) (n : ℕ) :
    Nat.count p n ≤ (l.map (· / r)).sum := by
  induction l generalizing p start with
  | nil =>
    have hnone : ∀ k < n, ¬p k := fun k _ hk => by
      obtain ⟨i, m, hi, -⟩ := hp k hk
      cases hi
    exact Nat.le_of_eq (Nat.count_iff_forall_not.2 hnone)
  | cons m l ih =>
    let first := fun k => start ≤ k * r ∧ k * r + r ≤ start + m
    have hrest : Nat.count (fun k => p k ∧ ¬first k) n ≤ (l.map (· / r)).sum := by
      refine ih (start + m) fun k ⟨hk, hnot⟩ => ?_
      obtain ⟨i, m', hi, hlow, hhigh⟩ := hp k hk
      cases i with
      | zero =>
        obtain rfl := Option.some.inj hi
        exact absurd ⟨hlow, hhigh⟩ hnot
      | succ i =>
        rw [List.take_succ_cons, List.sum_cons] at hlow hhigh
        exact ⟨i, m', hi, by omega, by omega⟩
    have hsplit := count_le_add p first n
    have hfirst : Nat.count first n ≤ m / r := count_cells_le hr start m n
    rw [List.map_cons, List.sum_cons]
    omega

/-! ### What they hold -/

theorem length_chunksExact (hr : 0 < r) (xs : List α) :
    (chunksExact r xs).length = xs.length / r := by
  rw [chunksExact_eq hr, List.length_map, List.length_range]

/-- Blocks that start on the grid have their chunks where the cells are. -/
theorem chunksExact_append (hr : 0 < r) {b : List α} (hdvd : r ∣ b.length) (rest : List α) :
    chunksExact r (b ++ rest) = chunksExact r b ++ chunksExact r rest := by
  obtain ⟨c, hc⟩ := hdvd
  induction c generalizing b with
  | zero =>
    obtain rfl := List.eq_nil_of_length_eq_zero hc
    rw [chunksExact_of_lt (l := []) hr]
    rfl
  | succ c ih =>
    rw [Nat.mul_succ] at hc
    have hle : r ≤ b.length := by omega
    rw [chunksExact_of_le hr hle, chunksExact_of_le hr (by rw [List.length_append]; omega),
      List.take_append_of_le_length hle, List.drop_append_of_le_length hle,
      ih (by rw [List.length_drop]; omega)]
    rfl

/-- The chunks of a list are the cells over it. -/
theorem take_chunksExact (hr : 0 < r) {xs : List α} (hn : n * r ≤ xs.length) :
    (chunksExact r xs).take n =
      (List.range n).map fun k => xs.extract (k * r) (k * r + r) := by
  have hle : n ≤ xs.length / r := (Nat.le_div_iff_mul_le hr).2 hn
  rw [chunksExact_eq hr, ← List.map_take, List.take_range, Nat.min_eq_left hle]

/-- If the first cells are all whole, they are the first chunks. -/
theorem cells_eq_take (hr : 0 < r) (blocks : List (List α)) (hn : n * r ≤ blocks.flatten.length)
    (h : Aligned r (blocks.map List.length) (n * r)) :
    (blocks.flatMap (chunksExact r)).take n =
      (List.range n).map fun k => blocks.flatten.extract (k * r) (k * r + r) := by
  rw [← take_chunksExact hr hn]
  induction blocks generalizing n with
  | nil => rw [List.flatten_nil, chunksExact_of_lt (l := []) hr]; rfl
  | cons b blocks ih =>
    rw [List.flatten_cons, List.length_append] at hn
    rw [List.flatMap_cons, List.flatten_cons]
    rcases Nat.lt_or_ge b.length (n * r) with hlt | hge
    · -- the next block starts on the grid
      have hdvd : r ∣ b.length := by
        simpa using h 1 (by simpa using hlt)
      obtain ⟨c, hc⟩ := hdvd
      have hcount : (chunksExact r b).length = c := by
        rw [length_chunksExact hr, hc, Nat.mul_div_cancel_left c hr]
      have hcells : (n - c) * r = n * r - b.length := by rw [hc, Nat.sub_mul, Nat.mul_comm r c]
      have hrest := ih (n := n - c) (by omega) fun j hj => by
        have hnext := h (j + 1)
        rw [List.map_cons, List.take_succ_cons, List.sum_cons] at hnext
        exact (Nat.dvd_add_right ⟨c, hc⟩).1 (hnext (by omega))
      rw [chunksExact_append hr ⟨c, hc⟩, List.take_append, List.take_append, hcount, hrest]
    · have hshort : n ≤ (chunksExact r b).length := by
        rw [length_chunksExact hr]
        exact (Nat.le_div_iff_mul_le hr).2 hge
      rw [List.take_append_of_le_length hshort, take_chunksExact hr hge,
        take_chunksExact hr (by rw [List.length_append]; omega)]
      refine List.map_congr_left fun k hk => ?_
      have hcell : k * r + r ≤ n * r := by
        rw [← Nat.succ_mul]
        exact Nat.mul_le_mul_right r (List.mem_range.1 hk)
      rw [List.extract_eq_take_drop, List.extract_eq_take_drop,
        List.drop_append_of_le_length (by omega),
        List.take_append_of_le_length (by rw [List.length_drop]; omega)]

end Grid
