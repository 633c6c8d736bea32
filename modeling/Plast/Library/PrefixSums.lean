/-
# Prefix sums and binary search

`offsets l` lists the sums of the first `0, 1, …, n` entries of `l`.  A number
below the total lies between two neighbouring offsets, and a binary search for
the last offset not above it finds the entry it falls into
(`partitionPoint_offsets`), also where empty entries repeat an offset.

The other binary search answers with the place of an equal entry or with a place to
insert one (`Found`).  It may choose among equal entries, so on repeated offsets it need
not find the entry that a number falls into (`found_offsets`).
-/

import Mathlib.Algebra.Ring.Nat
import Mathlib.Data.List.Basic

namespace PrefixSums

/-- The sums of the first `0, 1, …, l.length` entries. -/
def offsets (l : List ℕ) : List ℕ := (List.range (l.length + 1)).map fun i => (l.take i).sum

/-- The method `slice::partition_point`: the index of the first entry that fails
`p`, on a slice whose entries with `p` all come first. -/
def partitionPoint (p : ℕ → Bool) (l : List ℕ) : ℕ := l.findIdx fun x => !p x

/-- What the method `slice::binary_search` answers on a sorted slice: the index of an
entry equal to `key`, whichever it is, or if there is none an index at which `key` can be
inserted and the slice stays sorted. -/
def Found (l : List ℕ) (key : ℕ) : Except ℕ ℕ → Prop
  | .ok i => l[i]? = some key
  | .error i => key ∉ l ∧ i ≤ l.length ∧ (l.take i ++ key :: l.drop i).Pairwise (· ≤ ·)

/-- An implementation of `slice::binary_search`. -/
def BinarySearches (search : List ℕ → ℕ → Except ℕ ℕ) : Prop :=
  ∀ l key, l.Pairwise (· ≤ ·) → Found l key (search l key)

/-- The search that answers with the first of equal entries. -/
def searchFirst : List ℕ → ℕ → Except ℕ ℕ
  | [], _ => .error 0
  | x :: l, key =>
    if x < key then
      match searchFirst l key with
      | .ok i => .ok (i + 1)
      | .error i => .error (i + 1)
    else if x = key then .ok 0
    else .error 0

@[simp] theorem length_offsets (l : List ℕ) : (offsets l).length = l.length + 1 := by
  simp [offsets]

theorem getElem?_offsets {l : List ℕ} {i : ℕ} (h : i ≤ l.length) :
    (offsets l)[i]? = some (l.take i).sum := by
  rw [offsets, List.getElem?_map, List.getElem?_range (Nat.lt_succ_of_le h)]
  rfl

theorem getLast?_offsets (l : List ℕ) : (offsets l).getLast? = some l.sum := by
  rw [List.getLast?_eq_getElem?, length_offsets, Nat.add_sub_cancel,
    getElem?_offsets (Nat.le_refl _), List.take_length]

theorem sum_take_succ {l : List ℕ} {i n : ℕ} (h : l[i]? = some n) :
    (l.take (i + 1)).sum = (l.take i).sum + n := by
  simp [List.take_add_one, h]

theorem sum_take_mono (l : List ℕ) {i j : ℕ} (h : i ≤ j) : (l.take i).sum ≤ (l.take j).sum := by
  obtain ⟨k, rfl⟩ := Nat.exists_eq_add_of_le h
  rw [List.take_add, List.sum_append]
  exact Nat.le_add_right _ _

/-- No offset is past the total. -/
theorem le_sum_of_mem_offsets {l : List ℕ} {off : ℕ} (h : off ∈ offsets l) : off ≤ l.sum := by
  obtain ⟨i, hi, rfl⟩ := List.mem_map.1 h
  have hmono := sum_take_mono l (Nat.le_of_lt_succ (List.mem_range.1 hi))
  rwa [List.take_length] at hmono

/-- A number below the total falls into an entry. -/
theorem exists_of_lt_sum {l : List ℕ} {g : ℕ} (h : g < l.sum) :
    ∃ i n o, l[i]? = some n ∧ o < n ∧ g = (l.take i).sum + o := by
  induction l generalizing g with
  | nil => exact absurd h (Nat.not_lt_zero g)
  | cons n l ih =>
    rcases Nat.lt_or_ge g n with hlt | hge
    · exact ⟨0, n, g, rfl, hlt, (Nat.zero_add g).symm⟩
    · have hrest : g - n < l.sum := by rw [List.sum_cons] at h; omega
      obtain ⟨i, m, o, hi, ho, hg⟩ := ih hrest
      refine ⟨i + 1, m, o, hi, ho, ?_⟩
      rw [List.take_succ_cons, List.sum_cons]
      omega

/-- An entry that starts at or before a number comes no later than the entry the number
falls into. -/
theorem index_le {l : List ℕ} {i j n g : ℕ} (hi : l[i]? = some n) (hin : g < (l.take i).sum + n)
    (hj : (l.take j).sum ≤ g) : j ≤ i := by
  by_contra hji
  have hmono := sum_take_mono l (Nat.succ_le_of_lt (Nat.not_le.1 hji))
  rw [sum_take_succ hi] at hmono
  omega

/-- A number falls into one entry only. -/
theorem index_unique {l : List ℕ} {i j n m g : ℕ} (hi : l[i]? = some n) (hj : l[j]? = some m)
    (hin : (l.take i).sum ≤ g) (hin' : g < (l.take i).sum + n) (hjn : (l.take j).sum ≤ g)
    (hjn' : g < (l.take j).sum + m) : i = j :=
  Nat.le_antisymm (index_le hj hjn' hin) (index_le hi hin' hjn)

/-- An entry that holds an offset starts there. -/
theorem sum_take_of_offset {l : List ℕ} {i j n : ℕ} (hi : l[i]? = some n)
    (hin : (l.take i).sum ≤ (l.take j).sum) (hin' : (l.take j).sum < (l.take i).sum + n) :
    (l.take i).sum = (l.take j).sum :=
  Nat.le_antisymm hin (sum_take_mono l (index_le hi hin' (Nat.le_refl _)))

/-- The last offset not above a number inside entry `i` is the one entry `i`
starts at. -/
theorem partitionPoint_offsets {l : List ℕ} {i n o : ℕ} (hi : l[i]? = some n) (ho : o < n) :
    partitionPoint (fun off => decide (off ≤ (l.take i).sum + o)) (offsets l) = i + 1 := by
  obtain ⟨hlt, -⟩ := List.getElem?_eq_some_iff.1 hi
  have hget : ∀ j (hj : j < (offsets l).length), (offsets l)[j] = (l.take j).sum := by
    intro j hj
    rw [length_offsets] at hj
    exact Option.some.inj
      ((List.getElem?_eq_getElem _).symm.trans (getElem?_offsets (Nat.lt_succ_iff.1 hj)))
  have hbound : i + 1 < (offsets l).length := by rw [length_offsets]; omega
  refine (List.findIdx_eq hbound).2 ⟨?_, fun j hj => ?_⟩
  · have := sum_take_succ hi
    simp only [hget, Bool.not_eq_true', decide_eq_false_iff_not]
    omega
  · have := sum_take_mono l (Nat.lt_succ_iff.1 hj)
    simp only [hget, Bool.not_eq_false', decide_eq_true_eq]
    omega

/-- No offset is past a number from the total on. -/
theorem partitionPoint_offsets_of_sum_le {l : List ℕ} {g : ℕ} (h : l.sum ≤ g) :
    partitionPoint (fun off => decide (off ≤ g)) (offsets l) = l.length + 1 := by
  rw [← length_offsets, partitionPoint, List.findIdx_eq_length]
  intro off hoff
  have := le_sum_of_mem_offsets hoff
  simp only [Bool.not_eq_false', decide_eq_true_eq]
  omega

/-! ### Binary search for an entry -/

theorem sorted_offsets (l : List ℕ) : (offsets l).Pairwise (· ≤ ·) :=
  List.pairwise_map.2 (List.pairwise_lt_range.imp fun h => sum_take_mono l (Nat.le_of_lt h))

/-- A place in the tail of a sorted list, where the head is below the key. -/
theorem Found.cons_error {l : List ℕ} {key x i : ℕ} (h : Found l key (.error i)) (hlt : x < key)
    (hx : ∀ y ∈ l, x ≤ y) : Found (x :: l) key (.error (i + 1)) := by
  obtain ⟨hmem, hle, hinsert⟩ := h
  refine ⟨List.not_mem_cons_of_ne_of_not_mem (Nat.ne_of_gt hlt) hmem, Nat.succ_le_succ hle, ?_⟩
  rw [List.take_succ_cons, List.drop_succ_cons, List.cons_append]
  refine List.pairwise_cons.2 ⟨fun y hy => ?_, hinsert⟩
  rcases List.mem_append.1 hy with hy | hy
  · exact hx y (List.mem_of_mem_take hy)
  · rcases List.mem_cons.1 hy with rfl | hy
    · exact Nat.le_of_lt hlt
    · exact hx y (List.mem_of_mem_drop hy)

/-- A key below all entries goes to the front. -/
theorem found_front {l : List ℕ} {key : ℕ} (hsorted : l.Pairwise (· ≤ ·)) (h : ∀ y ∈ l, key < y) :
    Found l key (.error 0) :=
  ⟨fun hmem => Nat.lt_irrefl _ (h key hmem), Nat.zero_le _,
    List.pairwise_cons.2 ⟨fun y hy => Nat.le_of_lt (h y hy), hsorted⟩⟩

theorem binarySearches_searchFirst : BinarySearches searchFirst := by
  intro l key hsorted
  induction l with
  | nil => exact found_front hsorted fun y hy => absurd hy List.not_mem_nil
  | cons x l ih =>
    obtain ⟨hx, hl⟩ := List.pairwise_cons.1 hsorted
    rcases Nat.lt_trichotomy x key with hlt | rfl | hgt
    · have hfound := ih hl
      rw [searchFirst, if_pos hlt]
      cases hr : searchFirst l key with
      | ok i =>
        rw [hr] at hfound
        exact hfound
      | error i =>
        rw [hr] at hfound
        exact hfound.cons_error hlt hx
    · rw [searchFirst, if_neg (Nat.lt_irrefl x), if_pos rfl]
      exact List.getElem?_cons_zero
    · rw [searchFirst, if_neg (Nat.lt_asymm hgt), if_neg (Nat.ne_of_gt hgt)]
      refine found_front hsorted fun y hy => ?_
      rcases List.mem_cons.1 hy with rfl | hy
      · exact hgt
      · exact Nat.lt_of_lt_of_le hgt (hx y hy)

/-- An answer that the contract allows is the answer of some implementation. -/
theorem exists_search {l : List ℕ} {key : ℕ} {r : Except ℕ ℕ} (h : Found l key r) :
    ∃ search, BinarySearches search ∧ search l key = r := by
  refine ⟨fun l' key' => if l' = l ∧ key' = key then r else searchFirst l' key', ?_,
    if_pos ⟨rfl, rfl⟩⟩
  intro l' key' hsorted
  by_cases hsame : l' = l ∧ key' = key
  · obtain ⟨rfl, rfl⟩ := hsame
    simpa only [and_self, if_true] using h
  · simpa only [if_neg hsame] using binarySearches_searchFirst l' key' hsorted

/-- The entries before the place to insert are below the key, and the others above it. -/
theorem Found.lt_or_gt {l : List ℕ} {key i j x : ℕ} (h : Found l key (.error i))
    (hj : l[j]? = some x) : j < i ∧ x < key ∨ i ≤ j ∧ key < x := by
  obtain ⟨hmem, hle, hinsert⟩ := h
  obtain ⟨-, hkey, hcross⟩ := List.pairwise_append.1 hinsert
  have hne : x ≠ key := fun heq => hmem (heq ▸ List.mem_of_getElem? hj)
  rcases Nat.lt_or_ge j i with hlt | hge
  · have hget : (l.take i)[j]? = some x := by rw [List.getElem?_take_of_lt hlt, hj]
    have hx := hcross x (List.mem_of_getElem? hget) key List.mem_cons_self
    exact Or.inl ⟨hlt, Nat.lt_of_le_of_ne hx hne⟩
  · obtain ⟨k, rfl⟩ := Nat.exists_eq_add_of_le hge
    have hget : (l.drop i)[k]? = some x := by rw [List.getElem?_drop, hj]
    have hx := (List.pairwise_cons.1 hkey).1 x (List.mem_of_getElem? hget)
    exact Or.inr ⟨hge, Nat.lt_of_le_of_ne hx hne.symm⟩

/-- A search among the offsets answers with an entry that starts at the key, or with the
place behind the entry that the key falls into; the entry may be the end of the list. -/
theorem found_offsets {l : List ℕ} {key : ℕ} {r : Except ℕ ℕ} (h : Found (offsets l) key r) :
    ∃ j ≤ l.length, (r = .ok j ∧ (l.take j).sum = key) ∨ (r = .error (j + 1) ∧
      (l.take j).sum < key ∧ ∀ n, l[j]? = some n → key < (l.take j).sum + n) := by
  cases r with
  | ok j =>
    have hj : (offsets l)[j]? = some key := h
    have hlt := (List.getElem?_eq_some_iff.1 hj).1
    rw [length_offsets] at hlt
    have hle : j ≤ l.length := Nat.lt_succ_iff.1 hlt
    exact ⟨j, hle, Or.inl ⟨rfl, Option.some.inj ((getElem?_offsets hle).symm.trans hj)⟩⟩
  | error i =>
    have hplace : ∀ j ≤ l.length, j < i ∧ (l.take j).sum < key ∨ i ≤ j ∧ key < (l.take j).sum :=
      fun j hj => h.lt_or_gt (getElem?_offsets hj)
    have hle : i ≤ l.length + 1 := by rw [← length_offsets]; exact h.2.1
    -- the first offset is `0`, and nothing is below it
    rcases hplace 0 (Nat.zero_le _) with ⟨hpos, -⟩ | ⟨-, hneg⟩
    · obtain ⟨j, rfl⟩ := Nat.exists_eq_succ_of_ne_zero (Nat.ne_of_gt hpos)
      have hj : j ≤ l.length := Nat.succ_le_succ_iff.1 hle
      refine ⟨j, hj, Or.inr ⟨rfl, ?_, fun n hn => ?_⟩⟩
      · exact (hplace j hj).elim And.right fun hge => absurd hge.1 (Nat.not_succ_le_self j)
      · have hnext := hplace (j + 1) (List.getElem?_eq_some_iff.1 hn).1
        rw [sum_take_succ hn] at hnext
        exact hnext.elim (fun hlt => absurd hlt.1 (Nat.lt_irrefl _)) And.right
    · exact absurd hneg (Nat.not_lt_zero _)

end PrefixSums
