/-
# Calling an iterator again and again

`answers next k s` is what the first `k` calls of an iterator answer, with the calls
that find nothing.  Unlike a drain it says what happens after the end and of an
iterator that never ends.  Two iterators answer alike if one step keeps their states
related and gives the same answer (`answers_of_related`).
-/

import Mathlib.Data.List.Basic

namespace Calls

variable {σ τ β ε : Type*}

/-- What the first `k` calls answer, up to a failure. -/
def answers (next : σ → Except ε (Option β × σ)) : ℕ → σ → Except ε (List (Option β))
  | 0, _ => .ok []
  | k + 1, s =>
    match next s with
    | .error e => .error e
    | .ok (x, t) => (answers next k t).map (x :: ·)

/-- Related iterators answer alike, and do not fail. -/
theorem answers_of_related {next : σ → Except ε (Option β × σ)}
    {next' : τ → Except ε (Option β × τ)} {R : σ → τ → Prop}
    (hR : ∀ s t, R s t →
      ∃ x s' t', next s = .ok (x, s') ∧ next' t = .ok (x, t') ∧ R s' t')
    {s : σ} {t : τ} (h : R s t) (k : ℕ) :
    ∃ xs, xs.length = k ∧ answers next k s = .ok xs ∧ answers next' k t = .ok xs := by
  induction k generalizing s t with
  | zero => exact ⟨[], rfl, rfl, rfl⟩
  | succ k ih =>
    obtain ⟨x, s', t', hs, ht, h'⟩ := hR s t h
    obtain ⟨xs, hlen, hxs, hxs'⟩ := ih h'
    refine ⟨x :: xs, congrArg (· + 1) hlen, ?_, ?_⟩
    · simp only [answers, hs, hxs, Except.map]
    · simp only [answers, ht, hxs', Except.map]

/-- An iterator that stays where it does not fail never fails. -/
theorem answers_of_invariant {next : σ → Except ε (Option β × σ)} {P : σ → Prop}
    (hP : ∀ s, P s → ∃ x t, next s = .ok (x, t) ∧ P t) {s : σ} (hs : P s) (k : ℕ) :
    ∃ xs, xs.length = k ∧ answers next k s = .ok xs := by
  have hstep : ∀ s t, s = t ∧ P s →
      ∃ x s' t', next s = .ok (x, s') ∧ next t = .ok (x, t') ∧ s' = t' ∧ P s' := by
    rintro s _ ⟨rfl, hs⟩
    obtain ⟨x, t, hnext, ht⟩ := hP s hs
    exact ⟨x, t, t, hnext, hnext, rfl, ht⟩
  obtain ⟨xs, hlen, hxs, -⟩ := answers_of_related hstep ⟨rfl, hs⟩ k
  exact ⟨xs, hlen, hxs⟩

end Calls
