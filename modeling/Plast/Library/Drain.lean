/-
# Draining an iterator

`Drains next s xs t`: starting from state `s`, the iterator yields exactly the
items `xs` and then stops, leaving state `t`.  `next` relates a state to what
one call may answer, so the definition covers functions, partial functions and
nondeterministic iterators alike; for a function the items are determined
(`Drains.unique`).
-/

import Mathlib.Data.List.Basic

variable {σ β : Type*}

/-- The items obtained before the first `none`. -/
inductive Drains (next : σ → Option β × σ → Prop) : σ → List β → σ → Prop
  | stop {s t : σ} : next s (none, t) → Drains next s [] t
  | item {s t u : σ} {x : β} {xs : List β} :
      next s (some x, t) → Drains next t xs u → Drains next s (x :: xs) u

namespace Drains

variable {next : σ → Option β × σ → Prop}

/-- A drain only looks at the answers of its first state. -/
theorem of_next {s s' t : σ} {xs : List β} (h : Drains next s xs t)
    (hs : ∀ y, next s y → next s' y) : Drains next s' xs t := by
  cases h with
  | stop h => exact .stop (hs _ h)
  | item h hrest => exact .item (hs _ h) hrest

theorem unique (hfun : ∀ s y y', next s y → next s y' → y = y') {s t t' : σ} {xs xs' : List β}
    (h : Drains next s xs t) (h' : Drains next s xs' t') : xs = xs' ∧ t = t' := by
  induction h generalizing xs' t' with
  | stop hs =>
    cases h' with
    | stop hs' => exact ⟨rfl, congrArg Prod.snd (hfun _ _ _ hs hs')⟩
    | item hs' _ => cases hfun _ _ _ hs hs'
  | item hs _ ih =>
    cases h' with
    | stop hs' => cases hfun _ _ _ hs hs'
    | item hs' hrest =>
      cases hfun _ _ _ hs hs'
      obtain ⟨rfl, rfl⟩ := ih hrest
      exact ⟨rfl, rfl⟩

/-- What a function yields is known from one drain. -/
theorem exists_iff (hfun : ∀ s y y', next s y → next s y' → y = y') {s t : σ} {xs : List β}
    (h : Drains next s xs t) (ys : List β) : (∃ u, Drains next s ys u) ↔ ys = xs := by
  constructor
  · rintro ⟨u, hu⟩
    exact (hu.unique hfun h).1
  · rintro rfl
    exact ⟨t, h⟩

/-- An iterator that answers without moving never ends. -/
theorem false_of_loop {s t : σ} {x : β} {xs : List β}
    (hloop : ∀ y, next s y → y = (some x, s)) (h : Drains next s xs t) : False := by
  induction h with
  | stop hs => cases hloop _ hs
  | item hs _ ih =>
    cases hloop _ hs
    exact ih hloop

/-- Nor does one that keeps finding something. -/
theorem false_of_forever {P : σ → Prop}
    (hP : ∀ s, P s → ∀ y, next s y → ∃ x t, y = (some x, t) ∧ P t) {s t : σ} {xs : List β}
    (hs : P s) (h : Drains next s xs t) : False := by
  induction h with
  | stop hnext =>
    obtain ⟨x, t, heq, -⟩ := hP _ hs _ hnext
    cases heq
  | item hnext _ ih =>
    obtain ⟨x, t, heq, ht⟩ := hP _ hs _ hnext
    cases heq
    exact ih ht

/-- Draining one iterator through another whose answers are images of its own. -/
theorem map {τ γ : Type*} {next' : τ → Option γ × τ → Prop} {R : σ → τ → Prop} {f : β → γ}
    (hR : ∀ s t' y, R s t' → next s y → ∃ t'', next' t' (y.1.map f, t'') ∧ R y.2 t'')
    {s u : σ} {xs : List β} (h : Drains next s xs u) {t : τ} (ht : R s t) :
    ∃ u', Drains next' t (xs.map f) u' ∧ R u u' := by
  induction h generalizing t with
  | stop hs =>
    obtain ⟨t'', hn, hR'⟩ := hR _ _ _ ht hs
    exact ⟨t'', .stop hn, hR'⟩
  | item hs _ ih =>
    obtain ⟨t'', hn, hR'⟩ := hR _ _ _ ht hs
    obtain ⟨u', hd, hu⟩ := ih hR'
    exact ⟨u', .item hn hd, hu⟩

/-- An iterator that may answer in several ways, but every time what a function answers,
drains as the function does: nothing else is yielded, and something is. -/
theorem of_refines {τ γ : Type*} {next' : τ → Option γ × τ → Prop} {R : σ → τ → Prop} {f : β → γ}
    (hfun : ∀ s y y', next s y → next s y' → y = y')
    (href : ∀ s t y', R s t → next' t y' → ∃ y, next s y ∧ y'.1 = y.1.map f ∧ R y.2 y'.2)
    (hprog : ∀ s t, R s t → ∃ y', next' t y') {s u : σ} {xs : List β} (h : Drains next s xs u)
    {t : τ} (ht : R s t) :
    (∀ ys u', Drains next' t ys u' → ys = xs.map f ∧ R u u') ∧
      ∃ u', Drains next' t (xs.map f) u' := by
  induction h generalizing t with
  | stop hs =>
    constructor
    · rintro ys u' (hstop | ⟨hitem, -⟩)
      · obtain ⟨y, hy, -, hR⟩ := href _ _ _ ht hstop
        obtain rfl := hfun _ _ _ hs hy
        exact ⟨rfl, hR⟩
      · obtain ⟨y, hy, hx, -⟩ := href _ _ _ ht hitem
        obtain rfl := hfun _ _ _ hs hy
        cases hx
    · obtain ⟨⟨x, t'⟩, hn⟩ := hprog _ _ ht
      obtain ⟨y, hy, hx, -⟩ := href _ _ _ ht hn
      obtain rfl := hfun _ _ _ hs hy
      obtain rfl : x = none := hx
      exact ⟨t', .stop hn⟩
  | @item s s' u x xs hs _ ih =>
    constructor
    · rintro ys u' (hstop | ⟨hitem, hrest⟩)
      · obtain ⟨y, hy, hx, -⟩ := href _ _ _ ht hstop
        obtain rfl := hfun _ _ _ hs hy
        cases hx
      · obtain ⟨y, hy, hx, hR⟩ := href _ _ _ ht hitem
        obtain rfl := hfun _ _ _ hs hy
        obtain ⟨rfl, hu⟩ := (ih hR).1 _ _ hrest
        exact ⟨by rw [Option.some.inj hx]; rfl, hu⟩
    · obtain ⟨⟨x', t'⟩, hn⟩ := hprog _ _ ht
      obtain ⟨y, hy, hx, hR⟩ := href _ _ _ ht hn
      obtain rfl := hfun _ _ _ hs hy
      obtain rfl : x' = some (f x) := hx
      obtain ⟨u', hd⟩ := (ih hR).2
      exact ⟨u', .item hn hd⟩

/-- Draining an iterator that wraps another one and converts what it yields. -/
theorem map_iff {τ γ : Type*} {next' : τ → Option γ × τ → Prop} (wrap : σ → τ) (f : β → γ)
    (hwrap : ∀ s y, next' (wrap s) y ↔ ∃ z, next s z ∧ (z.1.map f, wrap z.2) = y) {s : σ} {u : τ}
    {ys : List γ} :
    Drains next' (wrap s) ys u ↔ ∃ xs t, Drains next s xs t ∧ ys = xs.map f ∧ u = wrap t := by
  constructor
  · intro h
    generalize hs : wrap s = s' at h
    induction h generalizing s with
    | stop hnext =>
      subst hs
      obtain ⟨⟨_ | x, t⟩, hz, heq⟩ := (hwrap _ _).1 hnext
      · exact ⟨[], t, .stop hz, rfl, (congrArg Prod.snd heq).symm⟩
      · cases heq
    | item hnext _ ih =>
      subst hs
      obtain ⟨⟨_ | x, t⟩, hz, heq⟩ := (hwrap _ _).1 hnext
      · cases heq
      · obtain ⟨hx, ht⟩ := Prod.mk.inj heq
        obtain ⟨xs, u, hrest, rfl, rfl⟩ := ih ht
        exact ⟨x :: xs, u, .item hz hrest, by rw [← Option.some.inj hx]; rfl, rfl⟩
  · rintro ⟨xs, t, h, rfl, rfl⟩
    induction h with
    | stop hnext => exact .stop ((hwrap _ _).2 ⟨_, hnext, rfl⟩)
    | item hnext _ ih => exact .item ((hwrap _ _).2 ⟨_, hnext, rfl⟩) ih

/-! ### Iterators that are functions -/

section Function

variable {f : σ → Option β × σ} {s t u : σ} {x : β} {xs : List β}

theorem of_some (h : Drains (fun s y => f s = y) s xs u) (hs : f s = (some x, t)) :
    ∃ rest, xs = x :: rest ∧ Drains (fun s y => f s = y) t rest u := by
  rcases h with hstop | ⟨hitem, hrest⟩
  · cases hstop.symm.trans hs
  · obtain ⟨hx, rfl⟩ := Prod.mk.inj (hitem.symm.trans hs)
    exact ⟨_, by rw [Option.some.inj hx], hrest⟩

theorem of_none (h : Drains (fun s y => f s = y) s xs u) (hs : f s = (none, t)) : xs = [] := by
  rcases h with hstop | ⟨hitem, -⟩
  · rfl
  · cases hitem.symm.trans hs

end Function

end Drains

/-! ### Again and again -/

/-- Steps with results, one after the other. -/
inductive Repeats (step : σ → β → σ → Prop) : σ → List β → σ → Prop
  | stop (s : σ) : Repeats step s [] s
  | step {s t u : σ} {x : β} {xs : List β} :
      step s x t → Repeats step t xs u → Repeats step s (x :: xs) u

theorem Repeats.singleton_iff {step : σ → β → σ → Prop} {s : σ} {x : β} :
    (∃ t, Repeats step s [x] t) ↔ ∃ t, step s x t := by
  constructor
  · rintro ⟨t, h⟩
    cases h with
    | step hstep _ => exact ⟨_, hstep⟩
  · rintro ⟨t, h⟩
    exact ⟨t, .step h (.stop t)⟩

/-- If the result of step `k` is known, whatever the steps before it did, then so are the
results of all steps. -/
theorem Repeats.iff_of_known {step : σ → β → σ → Prop} {R : ℕ → σ → Prop} {f : ℕ → β}
    (hknown : ∀ k s x t, R k s → step s x t → x = f k ∧ R (k + 1) t)
    (hprog : ∀ k s, R k s → ∃ x t, step s x t) {k : ℕ} {s : σ} (hs : R k s) (xs : List β) :
    (∃ t, Repeats step s xs t) ↔ xs = (List.range' k xs.length).map f := by
  constructor
  · rintro ⟨t, h⟩
    induction h generalizing k with
    | stop => rfl
    | step hstep _ ih =>
      obtain ⟨rfl, hR⟩ := hknown _ _ _ _ hs hstep
      rw [List.length_cons, List.range'_succ, List.map_cons, ← ih hR]
  · intro h
    induction xs generalizing k s with
    | nil => exact ⟨s, .stop s⟩
    | cons x xs ih =>
      rw [List.length_cons, List.range'_succ, List.map_cons, List.cons.injEq] at h
      obtain ⟨x', t, hstep⟩ := hprog _ _ hs
      obtain ⟨hx, hR⟩ := hknown _ _ _ _ hs hstep
      obtain ⟨u, hu⟩ := ih hR h.2
      exact ⟨u, .step (hx.trans h.1.symm ▸ hstep) hu⟩

/-- Steps of a system that wraps another one. -/
theorem Repeats.map_iff {τ : Type*} {step : σ → β → σ → Prop} {step' : τ → β → τ → Prop}
    (wrap : σ → τ) (hwrap : ∀ s x t', step' (wrap s) x t' ↔ ∃ t, step s x t ∧ t' = wrap t) {s : σ}
    {xs : List β} {u : τ} :
    Repeats step' (wrap s) xs u ↔ ∃ t, Repeats step s xs t ∧ u = wrap t := by
  constructor
  · intro h
    generalize hs : wrap s = s' at h
    induction h generalizing s with
    | stop => exact ⟨s, .stop s, hs.symm⟩
    | step hstep _ ih =>
      subst hs
      obtain ⟨t, ht, rfl⟩ := (hwrap _ _ _).1 hstep
      obtain ⟨u, hu, rfl⟩ := ih rfl
      exact ⟨u, .step ht hu, rfl⟩
  · rintro ⟨t, h, rfl⟩
    induction h with
    | stop s => exact .stop _
    | step hstep _ ih => exact .step ((hwrap _ _ _).2 ⟨_, hstep, rfl⟩) ih
