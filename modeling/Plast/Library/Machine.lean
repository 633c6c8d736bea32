/-
# Machine words and bounds checks

A Rust `usize` operation means one thing per build profile: `Arith.release`
wraps modulo `2^64`, `Arith.debug` panics when the result leaves the word, and
`Arith.unbounded` is the arithmetic of `ℕ`, which is what both profiles compute
as long as nothing overflows (`Arith.add_of_lt`).  Slicing and indexing check their
bounds in every profile.  A computation that may panic is a term of `Except Panic`.  A loop
over a list that may fail succeeds when every round does (`mapM_eq_ok`), and otherwise
fails with the first error (`errorOf_mapM`).
-/

import Mathlib.Algebra.Ring.Nat
import Mathlib.Data.List.Forall2

namespace Machine

/-- The panics of the code modelled with this library. -/
inductive Panic
  /-- An arithmetic operation left the word in a debug build. -/
  | overflow
  /-- An index is not below the length. -/
  | index
  /-- A range is reversed or ends past the length. -/
  | slice
  deriving DecidableEq, Repr

/-- How `usize` arithmetic is performed. -/
inductive Arith
  /-- No width: the arithmetic of `ℕ`, where only a negative difference fails. -/
  | unbounded
  /-- Wrapping modulo `2^64`. -/
  | release
  /-- Checked: a result outside the word panics. -/
  | debug
  deriving DecidableEq, Repr

namespace Arith

/-- The operator `+` on `usize`. -/
def add : Arith → ℕ → ℕ → Except Panic ℕ
  | .unbounded, x, y => .ok (x + y)
  | .release, x, y => .ok ((x + y) % 2 ^ 64)
  | .debug, x, y => if x + y < 2 ^ 64 then .ok (x + y) else .error .overflow

/-- The operator `-` on `usize`. -/
def sub : Arith → ℕ → ℕ → Except Panic ℕ
  | .release, x, y => .ok ((x + 2 ^ 64 - y) % 2 ^ 64)
  | _, x, y => if y ≤ x then .ok (x - y) else .error .overflow

/-- The operator `*` on `usize`. -/
def mul : Arith → ℕ → ℕ → Except Panic ℕ
  | .unbounded, x, y => .ok (x * y)
  | .release, x, y => .ok ((x * y) % 2 ^ 64)
  | .debug, x, y => if x * y < 2 ^ 64 then .ok (x * y) else .error .overflow

@[simp] theorem add_unbounded (x y : ℕ) : unbounded.add x y = .ok (x + y) := rfl

@[simp] theorem add_release (x y : ℕ) : release.add x y = .ok ((x + y) % 2 ^ 64) := rfl

@[simp] theorem mul_release (x y : ℕ) : release.mul x y = .ok ((x * y) % 2 ^ 64) := rfl

theorem mul_debug_eq_ok {x y z : ℕ} : debug.mul x y = .ok z ↔ x * y < 2 ^ 64 ∧ x * y = z := by
  by_cases h : x * y < 2 ^ 64
  · rw [mul, if_pos h, Except.ok.injEq]
    exact (and_iff_right h).symm
  · rw [mul, if_neg h]
    exact iff_of_false nofun fun hand => h hand.1

/-- A sum that fits the word is the same in every profile. -/
theorem add_of_lt (a : Arith) {x y : ℕ} (h : x + y < 2 ^ 64) : a.add x y = .ok (x + y) := by
  cases a with
  | unbounded => rfl
  | release => rw [add_release, Nat.mod_eq_of_lt h]
  | debug => exact if_pos h

theorem mul_of_lt (a : Arith) {x y : ℕ} (h : x * y < 2 ^ 64) : a.mul x y = .ok (x * y) := by
  cases a with
  | unbounded => rfl
  | release => rw [mul_release, Nat.mod_eq_of_lt h]
  | debug => exact if_pos h

/-- Numbers up to `n` are exact: there is no word, or it holds them. -/
def Exact (a : Arith) (n : ℕ) : Prop := a = .unbounded ∨ n < 2 ^ 64

namespace Exact

variable {a : Arith} {m n x y : ℕ}

theorem mono (h : a.Exact n) (hle : m ≤ n) : a.Exact m :=
  h.imp_right (Nat.lt_of_le_of_lt hle)

/-- A build with a word holds what is exact. -/
theorem lt (h : a.Exact n) (ha : a ≠ .unbounded) : n < 2 ^ 64 := h.resolve_left ha

theorem add (h : a.Exact (x + y)) : a.add x y = .ok (x + y) := by
  rcases h with rfl | hlt
  · rfl
  · exact a.add_of_lt hlt

theorem mul (h : a.Exact (x * y)) : a.mul x y = .ok (x * y) := by
  rcases h with rfl | hlt
  · rfl
  · exact a.mul_of_lt hlt

/-- A difference of an exact number is exact. -/
theorem sub (h : a.Exact x) (hle : y ≤ x) : a.sub x y = .ok (x - y) := by
  rcases h with rfl | hlt
  · exact if_pos hle
  · cases a with
    | unbounded => exact if_pos hle
    | debug => exact if_pos hle
    | release =>
      refine congrArg Except.ok ?_
      rw [Nat.sub_add_comm hle, Nat.add_mod_right]
      exact Nat.mod_eq_of_lt (Nat.lt_of_le_of_lt (Nat.sub_le _ _) hlt)

/-- One less than the number after an exact one. -/
theorem succ_sub_one (h : a.Exact n) : a.sub (n + 1) 1 = .ok n := by
  cases a with
  | release =>
    have hlt : n < 2 ^ 64 := h.lt (by decide)
    refine congrArg Except.ok ?_
    omega
  | _ => rfl

end Exact

end Arith

variable {α : Type*}

/-- The expression `&l[start..stop]`, with the bounds checks of every profile. -/
def slice (l : List α) (start stop : ℕ) : Except Panic (List α) :=
  if start ≤ stop ∧ stop ≤ l.length then .ok (l.extract start stop) else .error .slice

/-- The expression `l.get(start..stop)`, which answers where `slice` panics. -/
def slice? (l : List α) (start stop : ℕ) : Option (List α) :=
  if start ≤ stop ∧ stop ≤ l.length then some (l.extract start stop) else none

/-- The expression `l[i]`, with its bounds check. -/
def index (l : List α) (i : ℕ) : Except Panic α :=
  match l[i]? with
  | some x => .ok x
  | none => .error .index

theorem slice_of_le {l : List α} {start stop : ℕ} (h : start ≤ stop) (hl : stop ≤ l.length) :
    slice l start stop = .ok (l.extract start stop) :=
  if_pos ⟨h, hl⟩

theorem slice_of_gt {l : List α} {start stop : ℕ} (h : l.length < stop) :
    slice l start stop = .error .slice :=
  if_neg fun hle => absurd hle.2 (Nat.not_le.mpr h)

theorem slice?_of_le {l : List α} {start stop : ℕ} (h : start ≤ stop) (hl : stop ≤ l.length) :
    slice? l start stop = some (l.extract start stop) :=
  if_pos ⟨h, hl⟩

theorem index_of_getElem? {l : List α} {i : ℕ} {x : α} (h : l[i]? = some x) :
    index l i = .ok x := by
  unfold index
  rw [h]

theorem index_of_length_le {l : List α} {i : ℕ} (h : l.length ≤ i) :
    index l i = .error .index := by
  unfold index
  rw [List.getElem?_eq_none h]

theorem map_eq_ok {β ε : Type*} {f : α → β} {x : Except ε α} {y : β} :
    x.map f = .ok y ↔ ∃ a, x = .ok a ∧ f a = y := by
  cases x <;> simp [Except.map]

theorem mapError_eq_ok {ε ε' : Type*} {f : ε → ε'} {x : Except ε α} {a : α} :
    x.mapError f = .ok a ↔ x = .ok a := by
  cases x <;> simp [Except.mapError]

theorem mapError_eq_error {ε ε' : Type*} {f : ε → ε'} {x : Except ε α} {e : ε'} :
    x.mapError f = .error e ↔ ∃ e', x = .error e' ∧ f e' = e := by
  cases x <;> simp [Except.mapError]

theorem bind_eq_ok.{u, v} {α β : Type u} {ε : Type v} {x : Except ε α} {f : α → Except ε β}
    {b : β} :
    x >>= f = .ok b ↔ ∃ a, x = .ok a ∧ f a = .ok b := by
  cases x <;> simp [bind, Except.bind]

/-- A loop that may fail succeeds when every round does. -/
theorem mapM_eq_ok {β ε : Type*} {f : α → Except ε β} {xs : List α} {ys : List β} :
    xs.mapM f = .ok ys ↔ List.Forall₂ (fun x y => f x = .ok y) xs ys := by
  induction xs generalizing ys with
  | nil => simp [pure, Except.pure, eq_comm]
  | cons x xs ih =>
    rw [List.mapM_cons, List.forall₂_cons_left_iff]
    cases hx : f x with
    | error e => simp [bind, Except.bind]
    | ok y =>
      cases hxs : xs.mapM f with
      | error e => simp [bind, Except.bind, ← ih, hxs]
      | ok ys' => simp [bind, Except.bind, pure, Except.pure, ← ih, hxs, eq_comm]

/-- What holds of the result of every round holds of all results. -/
theorem forall_of_mapM {β ε : Type*} {f : α → Except ε β} {P : β → Prop} {xs : List α} {ys : List β}
    (h : xs.mapM f = .ok ys) (hP : ∀ x y, f x = .ok y → P y) : ∀ y ∈ ys, P y := by
  have hall : List.Forall₂ (fun y x => P y ∧ f x = .ok y) ys xs :=
    (mapM_eq_ok.1 h).flip.imp fun y x hxy => ⟨hP x y hxy, hxy⟩
  exact ((List.forall₂_and_left _ _).1 hall).1

/-- The error of a computation that fails. -/
def errorOf {ε : Type*} : Except ε α → Option ε
  | .error e => some e
  | .ok _ => none

@[simp] theorem errorOf_eq_some {ε : Type*} {x : Except ε α} {e : ε} :
    errorOf x = some e ↔ x = .error e := by
  cases x <;> simp [errorOf]

theorem errorOf_map {β ε : Type*} (f : α → β) (x : Except ε α) : errorOf (x.map f) = errorOf x := by
  cases x <;> rfl

/-- A loop that may fail fails with the error of the first round that does. -/
theorem errorOf_mapM {β ε : Type*} (f : α → Except ε β) (xs : List α) :
    errorOf (xs.mapM f) = xs.findSome? fun x => errorOf (f x) := by
  induction xs with
  | nil => rfl
  | cons x xs ih =>
    rw [List.mapM_cons, List.findSome?_cons, ← ih]
    cases f x with
    | error e => rfl
    | ok y => cases xs.mapM f <;> rfl

/-- A loop that does not look at the number of the round. -/
theorem mapM_zipIdx {β ε : Type*} (f : α → Except ε β) (xs : List α) :
    (xs.zipIdx.mapM fun (x, _) => f x) = xs.mapM f :=
  calc (xs.zipIdx.mapM fun (x, _) => f x)
      = (xs.zipIdx.map Prod.fst).mapM f := List.mapM_map.symm
    _ = xs.mapM f := by rw [List.zipIdx_map_fst]

theorem errorOf_forM {ε : Type*} (f : α → Except ε PUnit) (xs : List α) :
    errorOf (xs.forM f) = xs.findSome? fun x => errorOf (f x) := by
  induction xs with
  | nil => rfl
  | cons x xs ih =>
    rw [List.forM_eq_forM, List.forM_cons, List.findSome?_cons, ← ih]
    cases f x <;> rfl

/-- Such an error is that of a round. -/
theorem exists_of_mapM_error {β ε : Type*} {f : α → Except ε β} {xs : List α} {e : ε}
    (h : xs.mapM f = .error e) : ∃ x ∈ xs, f x = .error e := by
  have hfirst := errorOf_mapM f xs
  rw [h] at hfirst
  obtain ⟨x, hx, he⟩ := List.exists_of_findSome?_eq_some hfirst.symm
  exact ⟨x, hx, errorOf_eq_some.1 he⟩

theorem exists_of_forM_error {ε : Type*} {f : α → Except ε PUnit} {xs : List α} {e : ε}
    (h : xs.forM f = .error e) : ∃ x ∈ xs, f x = .error e := by
  have hfirst := errorOf_forM f xs
  rw [h] at hfirst
  obtain ⟨x, hx, he⟩ := List.exists_of_findSome?_eq_some hfirst.symm
  exact ⟨x, hx, errorOf_eq_some.1 he⟩

/-- A loop that adds up numbers it may fail to obtain. -/
theorem sumM_eq_ok {ε : Type*} {f : α → Except ε ℕ} {xs : List α} {init total : ℕ} :
    xs.foldlM (fun (sum : ℕ) x => do
        let n ← f x
        return sum + n) init = .ok total ↔
      ∃ ns, List.Forall₂ (fun x n => f x = .ok n) xs ns ∧ total = init + ns.sum := by
  induction xs generalizing init with
  | nil => simp [pure, Except.pure, eq_comm]
  | cons x xs ih =>
    simp only [List.foldlM_cons, List.forall₂_cons_left_iff]
    cases hx : f x with
    | error e => simp [bind, Except.bind]
    | ok n =>
      refine ih.trans ⟨?_, ?_⟩
      · rintro ⟨ns, hns, rfl⟩
        exact ⟨n :: ns, ⟨n, ns, rfl, hns, rfl⟩, by simp [Nat.add_assoc]⟩
      · rintro ⟨-, ⟨m, ns, hm, hns, rfl⟩, rfl⟩
        obtain rfl := Except.ok.inj hm
        exact ⟨ns, hns, by simp [Nat.add_assoc]⟩

end Machine
