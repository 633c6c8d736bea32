/-
# Operations that stop at the first failure

A list of operations is performed one after another, the one at place `j` as
operation number `k + j`, and the first that fails ends the run with its failure
(`FailStop.perform`).  A run fails with the failure of one operation, the earlier
ones having succeeded (`perform_error`).

`Ends good bad` says where a computation may end, and is proved along `>>=` too
(`Ends.bind`).  `Alike R` relates two computations that fail with the same failure, or both
succeed with results that `R` relates.  It composes along `>>=` (`Alike.bind`), so
a program is compared with the list of its operations piece by piece.
-/

import Plast.Library.Machine

namespace FailStop

open Machine

variable {α β γ δ φ ω σ : Type}

/-- Perform the operations, numbered from `k` on. -/
def perform (act : ℕ → ω → σ → Except φ σ) : ℕ → List ω → σ → Except φ σ
  | _, [], s => .ok s
  | k, op :: ops, s => act k op s >>= perform act (k + 1) ops

variable {act : ℕ → ω → σ → Except φ σ}

theorem perform_one (k : ℕ) (op : ω) (s : σ) : perform act k [op] s = act k op s := by
  rw [perform]
  cases act k op s <;> rfl

theorem perform_append (k : ℕ) (ops ops' : List ω) (s : σ) :
    perform act k (ops ++ ops') s = perform act k ops s >>= perform act (k + ops.length) ops' := by
  induction ops generalizing k s with
  | nil => rfl
  | cons op ops ih =>
    have hplace : k + 1 + ops.length = k + (op :: ops).length := by
      rw [List.length_cons]
      omega
    rw [List.cons_append, perform, perform]
    cases act k op s with
    | error f => rfl
    | ok t =>
      refine (ih (k + 1) t).trans ?_
      rw [hplace]
      rfl

/-- A run fails at one operation, and with its failure. -/
theorem perform_error {k : ℕ} {ops : List ω} {s : σ} {f : φ} (h : perform act k ops s = .error f) :
    ∃ j op t, ops[j]? = some op ∧ perform act k (ops.take j) s = .ok t ∧
      act (k + j) op t = .error f := by
  induction ops generalizing k s with
  | nil => cases h
  | cons op ops ih =>
    rw [perform] at h
    cases hact : act k op s with
    | error f' =>
      rw [hact] at h
      obtain rfl := Except.error.inj h
      exact ⟨0, op, s, rfl, rfl, hact⟩
    | ok t =>
      rw [hact] at h
      obtain ⟨j, op', u, hop, hrun, hfail⟩ := ih h
      refine ⟨j + 1, op', u, hop, ?_, ?_⟩
      · rw [List.take_succ_cons, perform, hact]
        exact hrun
      · rwa [show k + (j + 1) = k + 1 + j by omega]

/-- If whether an operation succeeds depends on its number only, a run succeeds exactly
when all its numbers are good. -/
theorem perform_ok_iff {good : ℕ → Prop} (hgood : ∀ k op s, (∃ t, act k op s = .ok t) ↔ good k)
    {k : ℕ} {ops : List ω} {s : σ} :
    (∃ t, perform act k ops s = .ok t) ↔ ∀ j < ops.length, good (k + j) := by
  induction ops generalizing k s with
  | nil => exact ⟨fun _ j hj => absurd hj (Nat.not_lt_zero j), fun _ => ⟨s, rfl⟩⟩
  | cons op ops ih =>
    constructor
    · rintro ⟨t, ht⟩ j hj
      obtain ⟨u, hu, ht⟩ := bind_eq_ok.1 ht
      rcases j with _ | j
      · exact (hgood k op s).1 ⟨u, hu⟩
      · have hrest := ih.1 ⟨t, ht⟩ j (Nat.lt_of_succ_lt_succ hj)
        rwa [show k + (j + 1) = k + 1 + j by omega]
    · intro h
      obtain ⟨u, hu⟩ := (hgood k op s).2 (h 0 (Nat.succ_pos _))
      obtain ⟨t, ht⟩ := (ih (s := u)).2 fun j hj => by
        rw [show k + 1 + j = k + (j + 1) by omega]
        exact h (j + 1) (Nat.succ_lt_succ hj)
      exact ⟨t, bind_eq_ok.2 ⟨u, hu, ht⟩⟩

/-! ### Where a computation may end -/

/-- The computation succeeds with a `good` result or fails with a `bad` failure. -/
def Ends (good : α → Prop) (bad : φ → Prop) : Except φ α → Prop
  | .ok a => good a
  | .error f => bad f

theorem Ends.bind {good : α → Prop} {good' : β → Prop} {bad bad' : φ → Prop} {x : Except φ α}
    {f : α → Except φ β} (h : Ends good bad' x) (hbad : ∀ e, bad' e → bad e)
    (hf : ∀ a, good a → Ends good' bad (f a)) : Ends good' bad (x >>= f) := by
  cases x with
  | ok a => exact hf a h
  | error e => exact hbad e h

theorem Ends.mono {good good' : α → Prop} {bad bad' : φ → Prop} {x : Except φ α}
    (h : Ends good bad x) (hgood : ∀ a, good a → good' a) (hbad : ∀ e, bad e → bad' e) :
    Ends good' bad' x := by
  cases x with
  | ok a => exact hgood a h
  | error e => exact hbad e h

theorem Ends.of_ok {good : α → Prop} {bad : φ → Prop} {x : Except φ α} {a : α}
    (h : Ends good bad x) (hx : x = .ok a) : good a := by
  subst hx
  exact h

theorem Ends.of_error {good : α → Prop} {bad : φ → Prop} {x : Except φ α} {e : φ}
    (h : Ends good bad x) (hx : x = .error e) : bad e := by
  subst hx
  exact h

/-! ### Computations that fail alike -/

/-- Both fail with the same failure, or both succeed with related results. -/
inductive Alike (R : α → β → Prop) : Except φ α → Except φ β → Prop
  | error (f : φ) : Alike R (.error f) (.error f)
  | ok {a : α} {b : β} : R a b → Alike R (.ok a) (.ok b)

variable {R : α → β → Prop} {S : γ → δ → Prop} {x : Except φ α} {y : Except φ β}

theorem Alike.bind {f : α → Except φ γ} {g : β → Except φ δ} (h : Alike R x y)
    (hf : ∀ a b, R a b → Alike S (f a) (g b)) : Alike S (x >>= f) (y >>= g) := by
  rcases h with e | hab
  · exact .error e
  · exact hf _ _ hab

theorem Alike.ends {good : β → Prop} {bad : φ → Prop} (h : Alike R x y)
    (hy : Ends good bad y) : Ends (fun a => ∃ b, R a b ∧ good b) bad x := by
  rcases h with f | hab
  · exact hy
  · exact ⟨_, hab, hy⟩

/-- One fails with what the other fails with. -/
theorem Alike.error_iff {e : φ} (h : Alike R x y) : x = .error e ↔ y = .error e := by
  rcases h with f | hab
  · simp
  · simp

theorem Alike.ok_iff (h : Alike R x y) : (∃ a, x = .ok a) ↔ ∃ b, y = .ok b := by
  rcases h with f | hab
  · simp
  · simp

end FailStop
