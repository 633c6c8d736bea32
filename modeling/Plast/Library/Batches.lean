/-
# Greedy batches

`pack` cuts a list into batches: an item goes into the open batch unless that
batch has reached the limit, in which case it starts a new one.  Nothing is lost
or reordered (`flatten_pack`), no batch is empty (`ne_nil_of_mem_pack`), every
batch but the last has reached the limit (`limit_le_of_mem_pack`), and a batch of
more than one item was below it before its last item came
(`small_of_mem_pack`).  Items that come later change the last batch only
(`pack_append`).

No other way to cut the list into batches that, but for the last, have reached the limit
has more of them (`Cut.length_le`), so a higher limit never gives more
(`length_pack_antitone`).
-/

import Mathlib.Algebra.Group.Action.Defs
import Mathlib.Algebra.Order.BigOperators.Group.List
import Mathlib.Algebra.Order.Ring.Nat
import Mathlib.Data.List.Basic

namespace Batches

variable {α : Type*}

/-- The total size of a batch. -/
def weight (size : α → ℕ) (batch : List α) : ℕ := (batch.map size).sum

/-- Cut the items that follow the open batch `batch`. -/
def packFrom (size : α → ℕ) (limit : ℕ) : List α → List α → List (List α)
  | batch, [] => [batch]
  | batch, x :: xs =>
    if limit ≤ weight size batch then
      batch :: packFrom size limit [x] xs
    else
      packFrom size limit (batch ++ [x]) xs

/-- Cut a list of items. -/
def pack (size : α → ℕ) (limit : ℕ) : List α → List (List α)
  | [] => []
  | x :: xs => packFrom size limit [x] xs

variable {size : α → ℕ} {limit : ℕ}

theorem weight_append (batch batch' : List α) :
    weight size (batch ++ batch') = weight size batch + weight size batch' := by
  simp [weight]

theorem packFrom_of_le {batch : List α} (h : limit ≤ weight size batch) (x : α) (xs : List α) :
    packFrom size limit batch (x :: xs) = batch :: packFrom size limit [x] xs :=
  if_pos h

theorem packFrom_of_lt {batch : List α} (h : weight size batch < limit) (x : α) (xs : List α) :
    packFrom size limit batch (x :: xs) = packFrom size limit (batch ++ [x]) xs :=
  if_neg (Nat.not_le.2 h)

theorem packFrom_ne_nil (batch xs : List α) : packFrom size limit batch xs ≠ [] := by
  induction xs generalizing batch with
  | nil => exact List.cons_ne_nil _ _
  | cons x xs ih =>
    rcases Nat.lt_or_ge (weight size batch) limit with hlt | hle
    · rw [packFrom_of_lt hlt]
      exact ih _
    · rw [packFrom_of_le hle]
      exact List.cons_ne_nil _ _

theorem flatten_packFrom (batch xs : List α) :
    (packFrom size limit batch xs).flatten = batch ++ xs := by
  induction xs generalizing batch with
  | nil => simp [packFrom]
  | cons x xs ih =>
    rcases Nat.lt_or_ge (weight size batch) limit with hlt | hle
    · rw [packFrom_of_lt hlt, ih, List.append_assoc]
      rfl
    · rw [packFrom_of_le hle, List.flatten_cons, ih]
      rfl

/-- What holds of the open batch, of every new batch and of a batch below the limit
that takes one more item holds of every batch. -/
theorem packFrom_induct {P : List α → Prop} {batch xs : List α} (hopen : P batch)
    (hnew : ∀ x, P [x]) (hmore : ∀ b x, P b → weight size b < limit → P (b ++ [x])) :
    ∀ b ∈ packFrom size limit batch xs, P b := by
  induction xs generalizing batch with
  | nil =>
    intro b hb
    obtain rfl := List.mem_singleton.1 hb
    exact hopen
  | cons x xs ih =>
    rcases Nat.lt_or_ge (weight size batch) limit with hlt | hle
    · rw [packFrom_of_lt hlt]
      exact ih (hmore batch x hopen hlt)
    · rw [packFrom_of_le hle]
      exact List.forall_mem_cons.2 ⟨hopen, ih (hnew x)⟩

theorem limit_le_of_mem_packFrom (batch xs : List α) :
    ∀ b ∈ (packFrom size limit batch xs).dropLast, limit ≤ weight size b := by
  induction xs generalizing batch with
  | nil => exact fun b hb => absurd hb List.not_mem_nil
  | cons x xs ih =>
    rcases Nat.lt_or_ge (weight size batch) limit with hlt | hle
    · rw [packFrom_of_lt hlt]
      exact ih _
    · rw [packFrom_of_le hle, List.dropLast_cons_of_ne_nil (packFrom_ne_nil _ _)]
      exact List.forall_mem_cons.2 ⟨hle, ih _⟩

/-- Items that come later go on where the cutting stood: at the last batch. -/
theorem packFrom_append (batch xs ys : List α) :
    ∃ init last, packFrom size limit batch xs = init ++ [last] ∧
      packFrom size limit batch (xs ++ ys) = init ++ packFrom size limit last ys := by
  induction xs generalizing batch with
  | nil => exact ⟨[], batch, rfl, rfl⟩
  | cons x xs ih =>
    rcases Nat.lt_or_ge (weight size batch) limit with hlt | hle
    · rw [packFrom_of_lt hlt, List.cons_append, packFrom_of_lt hlt]
      exact ih _
    · rw [packFrom_of_le hle, List.cons_append, packFrom_of_le hle]
      obtain ⟨init, last, hinit, hrest⟩ := ih [x]
      exact ⟨batch :: init, last, by rw [hinit]; rfl, by rw [hrest]; rfl⟩

/-- The open batch only grows. -/
theorem exists_packFrom_eq_cons (batch xs : List α) :
    ∃ more rest, packFrom size limit batch xs = (batch ++ more) :: rest := by
  induction xs generalizing batch with
  | nil => exact ⟨[], [], by rw [List.append_nil]; rfl⟩
  | cons x xs ih =>
    rcases Nat.lt_or_ge (weight size batch) limit with hlt | hle
    · obtain ⟨more, rest, h⟩ := ih (batch ++ [x])
      exact ⟨x :: more, rest, by rw [packFrom_of_lt hlt, h, List.append_assoc]; rfl⟩
    · exact ⟨[], _, by rw [packFrom_of_le hle, List.append_nil]⟩

/-! ### Cutting a whole list -/

variable {xs : List α}

/-- The batches in order are the list. -/
theorem flatten_pack (xs : List α) : (pack size limit xs).flatten = xs := by
  cases xs with
  | nil => rfl
  | cons x xs => exact flatten_packFrom [x] xs

theorem pack_eq_nil : pack size limit xs = [] ↔ xs = [] := by
  cases xs with
  | nil => exact ⟨fun _ => rfl, fun _ => rfl⟩
  | cons x xs =>
    exact ⟨fun h => absurd h (packFrom_ne_nil _ _), fun h => absurd h (List.cons_ne_nil _ _)⟩

theorem ne_nil_of_mem_pack {b : List α} (h : b ∈ pack size limit xs) : b ≠ [] := by
  cases xs with
  | nil => exact absurd h List.not_mem_nil
  | cons x xs =>
    exact packFrom_induct (P := (· ≠ [])) (List.cons_ne_nil x []) (fun _ => List.cons_ne_nil _ _)
      (fun b x _ _ => List.append_ne_nil_of_right_ne_nil b (List.cons_ne_nil x [])) b h

/-- Every batch but the last has reached the limit. -/
theorem limit_le_of_mem_pack {b : List α} (h : b ∈ (pack size limit xs).dropLast) :
    limit ≤ weight size b := by
  cases xs with
  | nil => exact absurd h List.not_mem_nil
  | cons x xs => exact limit_le_of_mem_packFrom [x] xs b h

/-- A batch holds one item, or was below the limit before its last item came. -/
theorem small_of_mem_pack {b : List α} (h : b ∈ pack size limit xs) :
    b.length = 1 ∨ weight size b.dropLast < limit := by
  cases xs with
  | nil => exact absurd h List.not_mem_nil
  | cons x xs =>
    refine packFrom_induct (P := fun b => b.length = 1 ∨ weight size b.dropLast < limit)
      (Or.inl rfl) (fun _ => Or.inl rfl) (fun b x _ hlt => Or.inr ?_) b h
    rwa [List.dropLast_concat]

/-- With nothing to reach, every item is a batch. -/
theorem pack_zero (xs : List α) : pack size 0 xs = xs.map fun x => [x] := by
  cases xs with
  | nil => rfl
  | cons x xs =>
    rw [pack, List.map_cons]
    induction xs generalizing x with
    | nil => rfl
    | cons y ys ih => rw [packFrom_of_le (Nat.zero_le _), ih y, List.map_cons]

/-- Items that come later leave the batches alone, but for the last, which may grow. -/
theorem pack_append {init : List (List α)} {last : List α}
    (h : pack size limit xs = init ++ [last]) (ys : List α) :
    ∃ more, (pack size limit (xs ++ ys))[init.length]? = some (last ++ more) ∧
      (pack size limit (xs ++ ys)).take init.length = init := by
  cases xs with
  | nil => exact absurd h.symm (List.append_ne_nil_of_right_ne_nil _ (List.cons_ne_nil _ _))
  | cons x xs =>
    obtain ⟨init', last', hpack, hall⟩ := @packFrom_append _ size limit [x] xs ys
    obtain ⟨rfl, hlast⟩ := List.append_inj' (h.symm.trans hpack) rfl
    obtain rfl := (List.cons.inj hlast).1
    obtain ⟨more, rest, hmore⟩ := @exists_packFrom_eq_cons _ size limit last ys
    rw [List.cons_append, pack, hall, hmore]
    refine ⟨more, ?_, List.take_left⟩
    rw [List.getElem?_append_right le_rfl, Nat.sub_self, List.getElem?_cons_zero]

/-! ### How many batches -/

/-- A way to cut a list that `pack` could have taken: into batches that are not empty and,
but for the last, have reached the limit. -/
structure Cut (size : α → ℕ) (limit : ℕ) (xs : List α) (batches : List (List α)) : Prop where
  flatten : batches.flatten = xs
  nonempty : ∀ b ∈ batches, b ≠ []
  full : ∀ b ∈ batches.dropLast, limit ≤ weight size b

theorem cut_pack (size : α → ℕ) (limit : ℕ) (xs : List α) : Cut size limit xs (pack size limit xs) :=
  ⟨flatten_pack xs, fun _ => ne_nil_of_mem_pack, fun _ => limit_le_of_mem_pack⟩

theorem Cut.mono {limit' : ℕ} {batches : List (List α)} (h : Cut size limit' xs batches)
    (hle : limit ≤ limit') : Cut size limit xs batches :=
  ⟨h.flatten, h.nonempty, fun b hb => Nat.le_trans hle (h.full b hb)⟩

/-- Greedy cutting stays ahead.  Here another cut has an open batch that begins with `init`,
while the open batch of the greedy one is `batch`: either the greedy open batch weighs at
least as much, or the greedy cut is a batch ahead already. -/
theorem length_le_packFrom {batch init more : List α} {others : List (List α)}
    (hxs : more ++ others.flatten = xs) (hne : ∀ b ∈ others, b ≠ [])
    (hfull : ∀ b ∈ ((init ++ more) :: others).dropLast, limit ≤ weight size b) :
    others.length ≤ (packFrom size limit batch xs).length ∧
      (weight size init ≤ weight size batch →
        others.length + 1 ≤ (packFrom size limit batch xs).length) := by
  induction xs generalizing batch init more others with
  | nil =>
    have hothers : others = [] := by
      refine List.eq_nil_iff_forall_not_mem.2 fun b hb => hne b hb ?_
      exact List.flatten_eq_nil_iff.1 (List.append_eq_nil_iff.1 hxs).2 b hb
    subst hothers
    exact ⟨Nat.zero_le _, fun _ => Nat.le_refl 1⟩
  | cons x xs ih =>
    cases more with
    | cons y more =>
      -- the other cut puts the item into its open batch
      obtain ⟨rfl, hrest⟩ := List.cons.inj hxs
      rw [List.append_cons] at hfull
      rcases Nat.lt_or_ge (weight size batch) limit with hlt | hle
      · rw [packFrom_of_lt hlt]
        obtain ⟨hbehind, hahead⟩ := @ih (batch ++ [y]) _ _ _ hrest hne hfull
        refine ⟨hbehind, fun hweight => hahead ?_⟩
        rw [weight_append, weight_append]
        omega
      · rw [packFrom_of_le hle, List.length_cons]
        have hbehind := (@ih [y] _ _ _ hrest hne hfull).1
        exact ⟨by omega, fun _ => by omega⟩
    | nil =>
      -- the other cut starts a new batch with the item
      obtain ⟨b, rest, rfl⟩ : ∃ b rest, others = b :: rest := by
        cases others with
        | nil => cases hxs
        | cons b rest => exact ⟨b, rest, rfl⟩
      obtain ⟨y, b, rfl⟩ := List.exists_cons_of_ne_nil (hne b List.mem_cons_self)
      obtain ⟨rfl, hrest⟩ := List.cons.inj hxs
      rw [List.append_nil, List.dropLast_cons_cons] at hfull
      obtain ⟨hinit, hfull⟩ := List.forall_mem_cons.1 hfull
      have hahead := fun batch =>
        (@ih batch [y] b rest hrest (List.forall_mem_cons.1 hne).2 hfull).2
      rw [List.length_cons]
      rcases Nat.lt_or_ge (weight size batch) limit with hlt | hle
      · rw [packFrom_of_lt hlt]
        have hlen := hahead (batch ++ [y]) (by rw [weight_append]; omega)
        exact ⟨hlen, fun hweight => by omega⟩
      · rw [packFrom_of_le hle, List.length_cons]
        have hlen := hahead [y] (Nat.le_refl _)
        exact ⟨by omega, fun _ => by omega⟩

/-- No other cut has more batches. -/
theorem Cut.length_le {batches : List (List α)} (h : Cut size limit xs batches) :
    batches.length ≤ (pack size limit xs).length := by
  obtain ⟨rfl, hne, hfull⟩ := h
  cases batches with
  | nil => exact Nat.le_refl 0
  | cons b others =>
    obtain ⟨x, b, rfl⟩ := List.exists_cons_of_ne_nil (hne b List.mem_cons_self)
    exact (@length_le_packFrom _ size limit _ [x] [x] b others rfl (List.forall_mem_cons.1 hne).2
      hfull).2 (Nat.le_refl _)

/-- A higher limit never gives more batches. -/
theorem length_pack_antitone {limit' : ℕ} (hle : limit ≤ limit') (xs : List α) :
    (pack size limit' xs).length ≤ (pack size limit xs).length :=
  ((cut_pack size limit' xs).mono hle).length_le

theorem weight_flatten (batches : List (List α)) :
    weight size batches.flatten = (batches.map (weight size)).sum := by
  induction batches with
  | nil => rfl
  | cons b batches ih => rw [List.flatten_cons, weight_append, ih, List.map_cons, List.sum_cons]

/-- All batches but one are as heavy as the limit. -/
theorem Cut.length_mul_le {batches : List (List α)} (h : Cut size limit xs batches) :
    batches.length * limit ≤ weight size xs + limit := by
  have hsum : batches.dropLast.length * limit ≤ (batches.dropLast.map (weight size)).sum := by
    have hall := List.card_nsmul_le_sum (batches.dropLast.map (weight size)) limit
      (List.forall_mem_map.2 h.full)
    rwa [List.length_map, smul_eq_mul] at hall
  have hpart : (batches.dropLast.map (weight size)).sum ≤ weight size xs := by
    rw [← h.flatten, weight_flatten]
    exact ((List.dropLast_sublist batches).map (weight size)).sum_le_sum fun _ _ => Nat.zero_le _
  have hone : batches.length * limit ≤ (batches.dropLast.length + 1) * limit := by
    refine Nat.mul_le_mul_right limit ?_
    rw [List.length_dropLast]
    omega
  rw [Nat.succ_mul] at hone
  omega

/-- No batch weighs as much as the limit and the heaviest item. -/
theorem weight_le_of_mem_pack {heaviest : ℕ} (hsize : ∀ x ∈ xs, size x ≤ heaviest) {b : List α}
    (hb : b ∈ pack size limit xs) : weight size b ≤ limit - 1 + heaviest := by
  have hmem : ∀ x ∈ b, size x ≤ heaviest := fun x hx => hsize x (by
    rw [← @flatten_pack _ size limit xs]
    exact List.mem_flatten_of_mem hb hx)
  have hsplit := List.dropLast_append_getLast (ne_nil_of_mem_pack hb)
  have hlast := hmem _ (List.getLast_mem (ne_nil_of_mem_pack hb))
  have hinit : weight size b.dropLast ≤ limit - 1 := by
    rcases small_of_mem_pack hb with hone | hlt
    · obtain ⟨x, rfl⟩ := List.length_eq_one_iff.1 hone
      exact Nat.zero_le _
    · omega
  have hfinal : weight size [b.getLast (ne_nil_of_mem_pack hb)] =
      size (b.getLast (ne_nil_of_mem_pack hb)) := List.sum_singleton
  rw [← hsplit, weight_append]
  omega

/-- With a limit, every batch is short of the limit and the heaviest item together. -/
theorem weight_add_length_le {heaviest : ℕ} (hlimit : 0 < limit)
    (hsize : ∀ x ∈ xs, size x ≤ heaviest) :
    weight size xs + (pack size limit xs).length ≤
      (pack size limit xs).length * (limit + heaviest) := by
  have hsum := List.sum_le_card_nsmul ((pack size limit xs).map (weight size)) _
    (List.forall_mem_map.2 fun _ => weight_le_of_mem_pack hsize)
  rw [List.length_map, smul_eq_mul, ← weight_flatten, flatten_pack] at hsum
  have hstep : limit + heaviest = limit - 1 + heaviest + 1 := by omega
  rw [hstep, Nat.mul_succ]
  omega

end Batches
