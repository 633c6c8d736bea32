/-
# Reading windows out of a sequence of blocks

A reader holds one block at a time and a cursor into it.  A request for `take`
elements with a `lookahead` is served from the active block if the elements and
the lookahead after them still fit; otherwise the rest of the block is dropped
and the next pending block is tried from its start (`State.seek`).  Blocks are
never joined: a window lies in one block.

What happens at the end is a parameter.  A reader with `keepLast = false` lets
the last block go when nothing is pending, so it stays exhausted
(`seek_exhausted`); one with `keepLast = true` holds on to it, and a smaller
request may still be served (`State.Ended.run_iff`).  Up to the first failure the two
agree (`run_agree`).

Served windows are found where they should be, in order and without overlap
(`run_ordered`), and repeating one request yields every block's consecutive
windows (`drain_blocks`).
-/

import Plast.Library.Drain
import Mathlib.Data.List.Basic
import Mathlib.Data.Nat.Basic
import Mathlib.Order.Basic

namespace BlockReader

variable {α : Type*}

/-- A request for `take` elements, which must be followed by `lookahead` more in
the same block. -/
structure Request where
  take : ℕ
  lookahead : ℕ
  deriving DecidableEq, Repr

/-- How far past the cursor the request reaches. -/
def Request.need (q : Request) : ℕ := q.take + q.lookahead

/-- The block being read, the position in it, and the blocks to come. -/
structure State (α : Type*) where
  active : Option (List α)
  cursor : ℕ
  pending : List (List α)
  deriving DecidableEq

/-- A served request: the block and the position in it where the window starts. -/
abbrev Hit (α : Type*) := List α × ℕ

/-- The elements a served request reaches, lookahead included. -/
def span (q : Request) (h : Hit α) : List α := h.1.extract h.2 (h.2 + q.need)

/-- A reader that has not started. -/
def fresh (blocks : List (List α)) : State α := ⟨none, 0, blocks⟩

/-- The request served from the active block, if it fits there. -/
def State.hit? (q : Request) (r : State α) : Option (Hit α) :=
  match r.active with
  | some b => if r.cursor + q.need ≤ b.length then some (b, r.cursor) else none
  | none => none

/-- Serve a request from the active block or the first pending block it fits. -/
def seekFrom (keepLast : Bool) (q : Request) :
    List (List α) → Option (List α) → ℕ → Option (Hit α) × State α
  | [], active, cursor =>
    match State.hit? q ⟨active, cursor, []⟩ with
    | some h => (some h, ⟨active, cursor + q.take, []⟩)
    | none => (none, if keepLast then ⟨active, cursor, []⟩ else ⟨none, 0, []⟩)
  | b :: rest, active, cursor =>
    match State.hit? q ⟨active, cursor, b :: rest⟩ with
    | some h => (some h, ⟨active, cursor + q.take, b :: rest⟩)
    | none => seekFrom keepLast q rest (some b) 0

/-- One request to the reader. -/
def State.seek (keepLast : Bool) (q : Request) (r : State α) : Option (Hit α) × State α :=
  seekFrom keepLast q r.pending r.active r.cursor

/-- Start over with `blocks`.  A reader that keeps its last block keeps it here
too, with the cursor back at its start. -/
def State.restart (keepLast : Bool) (blocks : List (List α)) (r : State α) : State α :=
  ⟨if keepLast then r.active else none, 0, blocks⟩

/-- One line of a script: a call that makes a request, or a restart. -/
inductive Op (κ : Type*)
  | read (c : κ)
  | restart
  deriving DecidableEq, Repr

variable {κ ω : Type*}

/-- A script of calls and restarts.  `request` says what a call asks for and
`view` what it returns when it is served; restarts return nothing. -/
def State.run (request : κ → Request) (view : κ → Hit α → ω) (keepLast : Bool)
    (blocks : List (List α)) : List (Op κ) → State α → List (Option ω) × State α
  | [], r => ([], r)
  | .read c :: ops, r =>
    let (h, r') := r.seek keepLast (request c)
    let (ws, r'') := r'.run request view keepLast blocks ops
    (h.map (view c) :: ws, r'')
  | .restart :: ops, r => (r.restart keepLast blocks).run request view keepLast blocks ops

variable {keepLast : Bool} {q : Request} {r : State α}

theorem State.hit?_eq_some {h : Hit α} :
    r.hit? q = some h ↔ r.active = some h.1 ∧ h.2 = r.cursor ∧ r.cursor + q.need ≤ h.1.length := by
  unfold State.hit?
  cases hr : r.active with
  | none => simp
  | some b =>
    obtain ⟨c, o⟩ := h
    simp only [Option.ite_none_right_eq_some, Option.some.injEq, Prod.mk.injEq]
    constructor
    · rintro ⟨hle, rfl, rfl⟩
      exact ⟨rfl, rfl, hle⟩
    · rintro ⟨rfl, rfl, hle⟩
      exact ⟨hle, rfl, rfl⟩

theorem State.hit?_eq_none :
    r.hit? q = none ↔ ∀ b, r.active = some b → b.length < r.cursor + q.need := by
  unfold State.hit?
  cases hr : r.active with
  | none => simp
  | some b => simp

/-! ### One request -/

theorem State.seek_hit {h : Hit α} (hh : r.hit? q = some h) :
    r.seek keepLast q = (some h, { r with cursor := r.cursor + q.take }) := by
  obtain ⟨active, cursor, pending⟩ := r
  cases pending <;> simp only [State.seek, seekFrom, hh]

theorem State.seek_next {b : List α} {rest : List (List α)} (hh : r.hit? q = none)
    (hp : r.pending = b :: rest) : r.seek keepLast q = State.seek keepLast q ⟨some b, 0, rest⟩ := by
  obtain ⟨active, cursor, pending⟩ := r
  obtain rfl : pending = b :: rest := hp
  simp only [State.seek, seekFrom, hh]

theorem State.seek_last (hh : r.hit? q = none) (hp : r.pending = []) :
    r.seek keepLast q = (none, if keepLast then r else ⟨none, 0, []⟩) := by
  obtain ⟨active, cursor, pending⟩ := r
  obtain rfl : pending = [] := hp
  simp only [State.seek, seekFrom, hh]

/-- The three ways a request goes, as an induction principle: it is served here,
it moves on to the next block, or there is none. -/
theorem State.seekInduct (q : Request) {P : State α → Prop}
    (hit : ∀ r h, r.hit? q = some h → P r)
    (next : ∀ r b rest, r.hit? q = none → r.pending = b :: rest → P ⟨some b, 0, rest⟩ → P r)
    (last : ∀ r, r.hit? q = none → r.pending = [] → P r) (r : State α) : P r := by
  obtain ⟨active, cursor, pending⟩ := r
  induction pending generalizing active cursor with
  | nil =>
    cases hh : State.hit? q ⟨active, cursor, []⟩ with
    | some h => exact hit _ h hh
    | none => exact last _ hh rfl
  | cons b rest ih =>
    cases hh : State.hit? q ⟨active, cursor, b :: rest⟩ with
    | some h => exact hit _ h hh
    | none => exact next _ b rest hh rfl (ih _ _)

theorem State.pending_of_seek_none (h : (r.seek keepLast q).1 = none) :
    (r.seek keepLast q).2.pending = [] := by
  induction r using State.seekInduct q with
  | hit r b hh => simp [State.seek_hit hh] at h
  | next r b rest hh hp ih =>
    rw [State.seek_next hh hp] at h ⊢
    exact ih h
  | last r hh hp =>
    rw [State.seek_last hh hp]
    split
    · exact hp
    · rfl

/-- A served request never leaves the reader without a block. -/
theorem State.active_of_seek {h : Hit α} (hs : (r.seek keepLast q).1 = some h) :
    (r.seek keepLast q).2.active = some h.1 ∧ (r.seek keepLast q).2.cursor = h.2 + q.take ∧
      h.2 + q.need ≤ h.1.length := by
  induction r using State.seekInduct q with
  | hit r b hh =>
    rw [State.seek_hit hh] at hs ⊢
    obtain rfl := Option.some.inj hs
    obtain ⟨ha, ho, hle⟩ := State.hit?_eq_some.1 hh
    exact ⟨ha, by rw [ho], by rw [ho]; exact hle⟩
  | next r b rest hh hp ih =>
    rw [State.seek_next hh hp] at hs ⊢
    exact ih hs
  | last r hh hp => simp [State.seek_last hh hp] at hs

/-- Some block that is left can serve the request: the rest of the one in hand, or a
pending one. -/
def State.Serves (q : Request) (r : State α) : Prop :=
  (∃ b, r.active = some b ∧ r.cursor + q.need ≤ b.length) ∨ ∃ b ∈ r.pending, q.need ≤ b.length

/-- A request fails exactly when no block that is left can serve it. -/
theorem State.seek_eq_none_iff : (r.seek keepLast q).1 = none ↔ ¬r.Serves q := by
  induction r using State.seekInduct q with
  | hit r h hh =>
    obtain ⟨ha, ho, hle⟩ := State.hit?_eq_some.1 hh
    rw [State.seek_hit hh]
    exact ⟨fun hn => absurd hn (Option.some_ne_none h),
      fun hn => absurd (Or.inl ⟨h.1, ha, hle⟩) hn⟩
  | next r b rest hh hp ih =>
    have hmiss := State.hit?_eq_none.1 hh
    rw [State.seek_next hh hp, ih, not_iff_not]
    constructor
    · rintro (⟨c, hc, hle⟩ | ⟨c, hc, hle⟩)
      · obtain rfl := Option.some.inj hc
        exact Or.inr ⟨b, hp ▸ List.mem_cons_self, (Nat.zero_add _).symm.le.trans hle⟩
      · exact Or.inr ⟨c, hp ▸ List.mem_cons_of_mem b hc, hle⟩
    · rintro (⟨c, hc, hle⟩ | ⟨c, hc, hle⟩)
      · exact absurd hle (Nat.not_le.2 (hmiss c hc))
      · rcases List.mem_cons.1 (hp ▸ hc) with rfl | hrest
        · exact Or.inl ⟨c, rfl, (Nat.zero_add _).le.trans hle⟩
        · exact Or.inr ⟨c, hrest, hle⟩
  | last r hh hp =>
    have hmiss := State.hit?_eq_none.1 hh
    rw [State.seek_last hh hp]
    refine ⟨fun _ => ?_, fun _ => rfl⟩
    rintro (⟨c, hc, hle⟩ | ⟨c, hc, -⟩)
    · exact absurd hle (Nat.not_le.2 (hmiss c hc))
    · rw [hp] at hc
      exact absurd hc List.not_mem_nil

/-! ### The end of the blocks -/

/-- A reader that lets the last block go ends with nothing. -/
theorem State.seek_exhausted (h : (r.seek false q).1 = none) :
    (r.seek false q).2 = ⟨none, 0, []⟩ := by
  induction r using State.seekInduct q with
  | hit r b hh => simp [State.seek_hit hh] at h
  | next r b rest hh hp ih =>
    rw [State.seek_next hh hp] at h ⊢
    exact ih h
  | last r hh hp => simp [State.seek_last hh hp]

/-- Nothing is pending, and a reader that lets the last block go has let it go. -/
structure State.Ended (keepLast : Bool) (r : State α) : Prop where
  pending : r.pending = []
  gone : keepLast = false → r = ⟨none, 0, []⟩

/-- A request that fails leaves the reader so. -/
theorem State.ended_of_seek_none (h : (r.seek keepLast q).1 = none) :
    (r.seek keepLast q).2.Ended keepLast where
  pending := State.pending_of_seek_none h
  gone := by
    rintro rfl
    exact State.seek_exhausted h

/-- Then it answers from what it holds alone, and a request that does not fit leaves it as
it is. -/
theorem State.Ended.seek (h : r.Ended keepLast) :
    (r.seek keepLast q).1 = r.hit? q ∧ (r.hit? q = none → (r.seek keepLast q).2 = r) := by
  cases hh : r.hit? q with
  | some x => simp [State.seek_hit hh]
  | none =>
    rw [State.seek_last hh h.pending]
    refine ⟨rfl, fun _ => ?_⟩
    cases keepLast with
    | true => rfl
    | false => exact (h.gone rfl).symm

/-- Up to a failure the two kinds of reader do the same. -/
theorem State.seek_agree (r : State α) (q : Request) :
    (r.seek true q).1 = (r.seek false q).1 ∧
      ((r.seek true q).1 ≠ none → (r.seek true q).2 = (r.seek false q).2) := by
  induction r using State.seekInduct q with
  | hit r b hh => simp [State.seek_hit hh]
  | next r b rest hh hp ih =>
    rw [State.seek_next hh hp, State.seek_next hh hp]
    exact ih
  | last r hh hp => simp [State.seek_last hh hp]

/-- The reader with the first pending block in hand, if it has none. -/
def State.settle (r : State α) : State α :=
  match r.active, r.pending with
  | none, b :: rest => ⟨some b, 0, rest⟩
  | none, [] => ⟨none, 0, []⟩
  | some _, _ => r

theorem State.settle_of_active {b : List α} (h : r.active = some b) : r.settle = r := by
  unfold State.settle
  rw [h]

/-- Taking the first pending block in hand early changes no answer. -/
theorem State.seek_settle (r : State α) : r.settle.seek false q = r.seek false q := by
  obtain ⟨active, cursor, pending⟩ := r
  cases active with
  | some b => rfl
  | none =>
    cases pending with
    | nil => rfl
    | cons b rest => exact (State.seek_next rfl rfl).symm

theorem State.settle_seek (r : State α) : (r.seek false q).2.settle = (r.seek false q).2 := by
  cases hs : (r.seek false q).1 with
  | none => rw [State.seek_exhausted hs]; rfl
  | some h => exact State.settle_of_active (State.active_of_seek hs).1

/-- Passing over a block that cannot serve the request. -/
theorem State.seek_pass {b : List α} {o : ℕ} {pending : List (List α)}
    (h : b.length < o + q.need) :
    State.seek false q ⟨some b, o, pending⟩ = State.seek false q (State.settle ⟨none, 0, pending⟩) := by
  have hmiss : State.hit? q ⟨some b, o, pending⟩ = none := if_neg (Nat.not_le.2 h)
  cases pending with
  | nil => exact State.seek_last hmiss rfl
  | cons b' rest => exact State.seek_next hmiss rfl

/-! ### Scripts -/

section Scripts

variable {request : κ → Request} {view : κ → Hit α → ω} {blocks : List (List α)}

@[simp] theorem State.run_nil (r : State α) :
    r.run request view keepLast blocks [] = ([], r) := rfl

@[simp] theorem State.run_read (r : State α) (c : κ) (ops : List (Op κ)) :
    r.run request view keepLast blocks (.read c :: ops) =
      ((r.seek keepLast (request c)).1.map (view c) ::
          ((r.seek keepLast (request c)).2.run request view keepLast blocks ops).1,
        ((r.seek keepLast (request c)).2.run request view keepLast blocks ops).2) := rfl

@[simp] theorem State.run_restart (r : State α) (ops : List (Op κ)) :
    r.run request view keepLast blocks (.restart :: ops) =
      (r.restart keepLast blocks).run request view keepLast blocks ops := rfl

theorem State.run_append (r : State α) (ops ops' : List (Op κ)) :
    r.run request view keepLast blocks (ops ++ ops') =
      ((r.run request view keepLast blocks ops).1 ++
          ((r.run request view keepLast blocks ops).2.run request view keepLast blocks ops').1,
        ((r.run request view keepLast blocks ops).2.run request view keepLast blocks ops').2) := by
  induction ops generalizing r with
  | nil => simp
  | cons op ops ih => cases op <;> simp [ih]

/-- A script of calls returns one result for each of them. -/
theorem State.length_run_reads (r : State α) (calls : List κ) :
    (r.run request view keepLast blocks (calls.map .read)).1.length = calls.length := by
  induction calls generalizing r with
  | nil => rfl
  | cons c calls ih => simp [ih]

/-- The results up to and including the first failure. -/
def upToNone {β : Type*} : List (Option β) → List (Option β)
  | [] => []
  | none :: _ => [none]
  | some x :: rest => some x :: upToNone rest

theorem upToNone_take {β : Type*} (l : List (Option β)) (n : ℕ) :
    upToNone (l.take n) = (upToNone l).take n := by
  induction l generalizing n with
  | nil => simp [upToNone]
  | cons x l ih => cases n <;> cases x <;> simp [upToNone, ih]

/-- Up to and including the first failure, whether the last block is kept does
not matter. -/
theorem State.run_agree (r : State α) (calls : List κ) :
    upToNone (r.run request view true blocks (calls.map .read)).1 =
      upToNone (r.run request view false blocks (calls.map .read)).1 := by
  induction calls generalizing r with
  | nil => rfl
  | cons c calls ih =>
    obtain ⟨hres, hstate⟩ := r.seek_agree (request c)
    simp only [List.map_cons, State.run_read]
    cases hs : (r.seek true (request c)).1 with
    | none => rw [← hres, hs]; rfl
    | some h =>
      rw [← hres, hs, ← hstate (by rw [hs]; exact Option.some_ne_none h)]
      simp only [Option.map_some, upToNone, ih]

/-- What is read from a reader at its end: nothing at all exactly when no call fits what it
still holds. -/
theorem State.Ended.run_iff (h : r.Ended keepLast) (calls : List κ) :
    (∀ w ∈ (r.run request view keepLast blocks (calls.map .read)).1, w = none) ↔
      ∀ c ∈ calls, r.hit? (request c) = none := by
  induction calls with
  | nil => simp
  | cons c calls ih =>
    obtain ⟨hres, hstate⟩ := h.seek (q := request c)
    rw [List.map_cons, State.run_read, List.forall_mem_cons, List.forall_mem_cons, hres,
      Option.map_eq_none_iff]
    refine and_congr_right fun hmiss => ?_
    rw [hstate hmiss, ih]

/-- No restart gives a reader without blocks anything to read. -/
theorem State.run_no_blocks (ops : List (Op κ)) :
    (State.run request view keepLast [] ops (fresh ([] : List (List α)))).2 = fresh [] := by
  induction ops with
  | nil => rfl
  | cons op ops ih => cases op <;> cases keepLast <;> exact ih

/-! ### Where the windows lie -/

/-- The position of element `o` of block `i` in the concatenation of all blocks. -/
def start (blocks : List (List α)) (i o : ℕ) : ℕ := (blocks.take i).flatten.length + o

/-- The reader has left the blocks `done` behind and is reading the rest of `blocks`. -/
structure State.Along (blocks done : List (List α)) (r : State α) : Prop where
  split : blocks = done ++ (r.active.toList ++ r.pending)
  cursor_le : ∀ b, r.active = some b → r.cursor ≤ b.length
  cursor_zero : r.active = none → r.cursor = 0

/-- The position of the cursor in the concatenation of all blocks. -/
def State.position (done : List (List α)) (r : State α) : ℕ := done.flatten.length + r.cursor

theorem fresh_along (blocks : List (List α)) : (fresh blocks).Along blocks [] :=
  ⟨by simp [fresh], by simp [fresh], fun _ => rfl⟩

/-- Moving on to the next block does not move the cursor back. -/
theorem State.Along.next {done : List (List α)} {b : List α} {rest : List (List α)}
    (h : r.Along blocks done) (hp : r.pending = b :: rest) :
    State.Along blocks (done ++ r.active.toList) ⟨some b, 0, rest⟩ ∧
      r.position done ≤ State.position (done ++ r.active.toList) ⟨some b, 0, rest⟩ := by
  refine ⟨⟨by simp [h.split, hp], by simp, by simp⟩, ?_⟩
  cases ha : r.active with
  | none => simp [State.position, h.cursor_zero ha]
  | some c =>
    have := h.cursor_le c ha
    simpa [State.position] using this

/-- One request keeps the reader inside `blocks` and never moves it back; the
window it returns starts at or after the old position, and the new position is
its end. -/
theorem State.Along.seek {done : List (List α)} (h : r.Along blocks done) (keepLast : Bool)
    (q : Request) :
    ∃ done', (r.seek keepLast q).2.Along blocks done' ∧
      r.position done ≤ (r.seek keepLast q).2.position done' ∧
      ∀ w, (r.seek keepLast q).1 = some w → blocks[done'.length]? = some w.1 ∧
        r.position done ≤ start blocks done'.length w.2 ∧
        (r.seek keepLast q).2.position done' = start blocks done'.length w.2 + q.take := by
  induction r using State.seekInduct q generalizing done with
  | hit r w hh =>
    obtain ⟨ha, ho, hle⟩ := State.hit?_eq_some.1 hh
    rw [State.seek_hit hh]
    have htake : blocks.take done.length = done := by rw [h.split, List.take_left]
    refine ⟨done, ⟨h.split, fun b hb => ?_,
      fun hn => absurd (ha.symm.trans hn) (Option.some_ne_none _)⟩, ?_, fun w' hw' => ?_⟩
    · obtain rfl : w.1 = b := Option.some.inj (ha.symm.trans hb)
      exact le_trans (Nat.add_le_add_left (Nat.le_add_right _ _) _) hle
    · exact Nat.add_le_add_left (Nat.le_add_right _ _) _
    · obtain rfl := Option.some.inj hw'
      refine ⟨by simp [h.split, ha], ?_, ?_⟩
      · rw [start, htake, ho]; exact le_rfl
      · rw [start, htake, ho, State.position, Nat.add_assoc]
  | next r b rest hh hp ih =>
    obtain ⟨halong, hpos⟩ := h.next hp
    obtain ⟨done', halong', hpos', hw⟩ := ih halong
    rw [State.seek_next hh hp]
    refine ⟨done', halong', hpos.trans hpos', fun w hs => ?_⟩
    obtain ⟨hb, hstart, hend⟩ := hw w hs
    exact ⟨hb, hpos.trans hstart, hend⟩
  | last r hh hp =>
    rw [State.seek_last hh hp]
    cases keepLast with
    | true => exact ⟨done, h, le_rfl, by simp⟩
    | false =>
      refine ⟨blocks, ⟨by simp, by simp, by simp⟩, ?_, by simp⟩
      have hlen := congrArg (fun l => (List.flatten l).length) h.split
      cases ha : r.active with
      | none => simp_all [State.position, h.cursor_zero ha]
      | some c =>
        have := h.cursor_le c ha
        simp_all [State.position]

/-- Window `w`, returned by call `c`, is what `c` shows of the elements from
position `o` of block `i` on. -/
def Placed (request : κ → Request) (view : κ → Hit α → ω) (blocks : List (List α)) (c : κ) (w : ω)
    (i o : ℕ) : Prop :=
  ∃ b, blocks[i]? = some b ∧ o + (request c).need ≤ b.length ∧ w = view c (b, o)

/-- The windows of a script of calls have places in `blocks`, each in one block,
each starting at or after the end of every earlier one. -/
theorem State.run_ordered {done : List (List α)} (h : r.Along blocks done) (calls : List κ) :
    ∃ place : ℕ → ℕ × ℕ, ∀ k c w, calls[k]? = some c →
      (r.run request view keepLast blocks (calls.map .read)).1[k]? = some (some w) →
        Placed request view blocks c w (place k).1 (place k).2 ∧
        r.position done ≤ start blocks (place k).1 (place k).2 ∧
        ∀ j c' w', j < k → calls[j]? = some c' →
          (r.run request view keepLast blocks (calls.map .read)).1[j]? = some (some w') →
            start blocks (place j).1 (place j).2 + (request c').take ≤
              start blocks (place k).1 (place k).2 := by
  induction calls generalizing r done with
  | nil => exact ⟨fun _ => (0, 0), fun k c w hk => by simp at hk⟩
  | cons c calls ih =>
    obtain ⟨done', halong, hpos, hhit⟩ := h.seek keepLast (request c)
    obtain ⟨place, hplace⟩ := ih halong
    -- the first call is placed by its own hit, the others as the induction says
    let o := ((r.seek keepLast (request c)).1.map Prod.snd).getD 0
    refine ⟨fun | 0 => (done'.length, o) | k + 1 => place k, fun k c₁ w hk hw => ?_⟩
    simp only [List.map_cons, State.run_read] at hw ⊢
    cases k with
    | zero =>
      obtain rfl : c = c₁ := by simpa using hk
      simp only [List.getElem?_cons_zero, Option.some.injEq, Option.map_eq_some_iff] at hw
      obtain ⟨x, hx, rfl⟩ := hw
      obtain ⟨hb, hstart, -⟩ := hhit x hx
      have ho : o = x.2 := by simp [o, hx]
      have hplaced : Placed request view blocks c (view c x) done'.length o := by
        rw [ho]
        exact ⟨x.1, hb, (State.active_of_seek hx).2.2, rfl⟩
      exact ⟨hplaced, ho ▸ hstart, fun j _ _ hj => absurd hj (Nat.not_lt_zero j)⟩
    | succ k =>
      simp only [List.getElem?_cons_succ] at hk hw
      obtain ⟨hpl, hfrom, hprev⟩ := hplace k c₁ w hk hw
      refine ⟨hpl, hpos.trans hfrom, fun j c' w' hj hc' hw' => ?_⟩
      cases j with
      | zero =>
        obtain rfl : c = c' := by simpa using hc'
        simp only [List.getElem?_cons_zero, Option.some.injEq, Option.map_eq_some_iff] at hw'
        obtain ⟨x, hx, rfl⟩ := hw'
        obtain ⟨-, -, hend⟩ := hhit x hx
        have ho : o = x.2 := by simp [o, hx]
        rw [← ho] at hend
        exact hend ▸ hfrom
      | succ j =>
        simp only [List.getElem?_cons_succ] at hc' hw'
        exact hprev j c' w' (Nat.lt_of_succ_lt_succ hj) hc' hw'

end Scripts

/-! ### Repeating one request -/

/-- The consecutive windows of block `b` from position `o` on. -/
def windows (q : Request) (b : List α) (o : ℕ) : List (Hit α) :=
  (List.range ((b.length - o - q.lookahead) / q.take)).map fun k => (b, o + k * q.take)

theorem windows_of_le {b : List α} {o : ℕ} (ht : 0 < q.take) (h : o + q.need ≤ b.length) :
    windows q b o = (b, o) :: windows q b (o + q.take) := by
  unfold Request.need at h
  have hcount : (b.length - o - q.lookahead) / q.take =
      (b.length - (o + q.take) - q.lookahead) / q.take + 1 := by
    rw [Nat.div_eq_sub_div ht (by omega)]
    congr 2
    omega
  rw [windows, hcount, List.range_succ_eq_map, List.map_cons, List.map_map, windows]
  congr 1
  · simp
  · refine List.map_congr_left fun k _ => ?_
    simp only [Function.comp_apply, Nat.succ_mul, Prod.mk.injEq, true_and]
    omega

theorem windows_of_lt {b : List α} {o : ℕ} (ht : 0 < q.take) (h : b.length < o + q.need) :
    windows q b o = [] := by
  unfold Request.need at h
  rw [windows, Nat.div_eq_of_lt (by omega)]
  rfl

@[simp] theorem length_windows (q : Request) (b : List α) (o : ℕ) :
    (windows q b o).length = (b.length - o - q.lookahead) / q.take := by
  simp [windows]

/-- Every window fits its block, with its lookahead. -/
theorem fits_of_mem_windows {b : List α} {o : ℕ} (ht : 0 < q.take) {x : Hit α}
    (hx : x ∈ windows q b o) : x.1 = b ∧ x.2 + q.need ≤ b.length := by
  obtain ⟨k, hk, rfl⟩ := List.mem_map.1 hx
  have hmul : (k + 1) * q.take ≤ b.length - o - q.lookahead :=
    (Nat.le_div_iff_mul_le ht).1 (List.mem_range.1 hk)
  rw [Nat.succ_mul] at hmul
  refine ⟨rfl, ?_⟩
  unfold Request.need
  omega

/-- The request `q` again and again, as an iterator. -/
def repeated (keepLast : Bool) (q : Request) (r : State α) (y : Option (Hit α) × State α) : Prop :=
  r.seek keepLast q = y

theorem State.hit?_of_lt {b : List α} {o : ℕ} {pending : List (List α)}
    (h : b.length < o + q.need) : State.hit? q ⟨some b, o, pending⟩ = none :=
  if_neg (Nat.not_le.2 h)

/-- The windows of the active block come first, then whatever the reader yields
once a position `o` is too late for the request. -/
theorem State.drains_active (ht : 0 < q.take) (b : List α) (pending : List (List α))
    {hits : List (Hit α)}
    (hrest : ∀ o, b.length < o + q.need → ∃ r',
      Drains (repeated keepLast q) ⟨some b, o, pending⟩ hits r') (o : ℕ) :
    ∃ r', Drains (repeated keepLast q) ⟨some b, o, pending⟩ (windows q b o ++ hits) r' := by
  -- on what is left of the block
  induction hn : b.length - o using Nat.strongRecOn generalizing o with
  | _ n ih =>
    by_cases hle : o + q.need ≤ b.length
    · have hhit : State.hit? q ⟨some b, o, pending⟩ = some (b, o) := if_pos hle
      have hless : b.length - (o + q.take) < n := by unfold Request.need at hle; omega
      obtain ⟨r', hr'⟩ := ih _ hless (o + q.take) rfl
      rw [windows_of_le ht hle]
      exact ⟨r', .item (State.seek_hit hhit) hr'⟩
    · rw [windows_of_lt ht (Nat.not_le.1 hle)]
      exact hrest o (Nat.not_le.1 hle)

/-- Repeating a request that takes something ends, and yields the consecutive
windows of the rest of the active block and then of every pending block. -/
theorem State.drains_windows (keepLast : Bool) (ht : 0 < q.take) (r : State α) :
    ∃ r', Drains (repeated keepLast q) r
      (r.active.toList.flatMap (windows q · r.cursor) ++ r.pending.flatMap (windows q · 0)) r' := by
  obtain ⟨active, cursor, pending⟩ := r
  induction pending generalizing active cursor with
  | nil =>
    cases active with
    | none => exact ⟨_, .stop rfl⟩
    | some b =>
      have hlast : ∀ o, b.length < o + q.need → ∃ r',
          Drains (repeated keepLast q) ⟨some b, o, []⟩ [] r' := fun o ho =>
        ⟨_, .stop (State.seek_last (State.hit?_of_lt ho) rfl)⟩
      simpa using State.drains_active ht b [] hlast cursor
  | cons b' rest ih =>
    obtain ⟨r', hr'⟩ := ih (some b') 0
    simp only [Option.toList_some, List.flatMap_cons, List.flatMap_nil, List.append_nil] at hr'
    cases active with
    | none => exact ⟨r', hr'.of_next fun y hy => hy ▸ State.seek_next rfl rfl⟩
    | some b =>
      have hnext : ∀ o, b.length < o + q.need → ∃ r',
          Drains (repeated keepLast q) ⟨some b, o, b' :: rest⟩
            (windows q b' 0 ++ rest.flatMap (windows q · 0)) r' := fun o ho =>
        ⟨r', hr'.of_next fun y hy => hy ▸ State.seek_next (State.hit?_of_lt ho) rfl⟩
      simpa using State.drains_active ht b (b' :: rest) hnext cursor

/-- A script that repeats one call until it fails returns the drained windows and
then nothing. -/
theorem State.run_of_drains {request : κ → Request} {view : κ → Hit α → ω}
    {blocks : List (List α)} {c : κ} {hits : List (Hit α)} {r r' : State α}
    (h : Drains (repeated keepLast (request c)) r hits r') :
    (r.run request view keepLast blocks ((List.replicate (hits.length + 1) c).map .read)).1 =
      hits.map (fun x => some (view c x)) ++ [none] := by
  induction h with
  | stop hs =>
    unfold repeated at hs
    simp [hs]
  | item hs _ ih =>
    unfold repeated at hs
    rw [List.length_cons, List.replicate_succ, List.map_cons, State.run_read, hs, ih]
    rfl

/-- Repeating a request on a fresh reader yields the consecutive windows of every
block, in order. -/
theorem drain_blocks (keepLast : Bool) (ht : 0 < q.take) (blocks : List (List α)) :
    ∃ r', Drains (repeated keepLast q) (fresh blocks) (blocks.flatMap (windows q · 0)) r' :=
  State.drains_windows keepLast ht (fresh blocks)

/-! ### Epoch after epoch -/

/-- A reader that keeps its last block has the same last block before and after a
request. -/
theorem State.getLast?_seek (r : State α) (q : Request) :
    ((r.seek true q).2.active.toList ++ (r.seek true q).2.pending).getLast? =
      (r.active.toList ++ r.pending).getLast? := by
  induction r using State.seekInduct q with
  | hit r h hh => rw [State.seek_hit hh]
  | next r b rest hh hp ih =>
    rw [State.seek_next hh hp, ih, hp]
    change (b :: rest).getLast? = _
    rw [List.getLast?_append]
    cases hlast : (b :: rest).getLast? with
    | none => cases List.getLast?_eq_none_iff.1 hlast
    | some c => rfl
  | last r hh hp => rw [State.seek_last hh hp, if_pos rfl]

/-- What a drained reader has in hand: the last block, if it keeps it. -/
theorem State.active_of_drains {hits : List (Hit α)} {r' : State α}
    (h : Drains (repeated keepLast q) r hits r') :
    r'.active = if keepLast then (r.active.toList ++ r.pending).getLast? else none := by
  induction h with
  | @stop r t hs =>
    have hnone : (r.seek keepLast q).1 = none := congrArg Prod.fst hs
    have hend : (r.seek keepLast q).2 = t := congrArg Prod.snd hs
    cases keepLast with
    | false => rw [← hend, State.seek_exhausted hnone]; rfl
    | true =>
      rw [if_pos rfl, ← State.getLast?_seek r q, State.pending_of_seek_none hnone, hend]
      cases t.active <;> rfl
  | @item r t u x xs hs _ ih =>
    have hend : (r.seek keepLast q).2 = t := congrArg Prod.snd hs
    rw [ih]
    cases keepLast with
    | false => rfl
    | true => rw [if_pos rfl, if_pos rfl, ← State.getLast?_seek r q, hend]

/-- The reader at the start of an epoch, when every epoch before it was read to its end: the
first goes through `first`, and the later ones through `blocks`. -/
def atEpoch (keepLast : Bool) (first blocks : List (List α)) : ℕ → State α
  | 0 => fresh first
  | k + 1 => ⟨if keepLast then (if k = 0 then first else blocks).getLast? else none, 0, blocks⟩

/-- What epoch `k` goes through. -/
def epochBlocks (keepLast : Bool) (first blocks : List (List α)) (k : ℕ) : List (List α) :=
  (atEpoch keepLast first blocks k).active.toList ++ (atEpoch keepLast first blocks k).pending

/-- An epoch read to its end, and a restart, lead to the next epoch. -/
theorem restart_of_drains {first blocks : List (List α)} (hfirst : blocks = [] → first = []) {k : ℕ}
    {hits : List (Hit α)} {r' : State α}
    (h : Drains (repeated keepLast q) (atEpoch keepLast first blocks k) hits r') :
    r'.restart keepLast blocks = atEpoch keepLast first blocks (k + 1) := by
  have hactive := State.active_of_drains h
  unfold State.restart atEpoch
  cases keepLast with
  | false => simp
  | true =>
    simp only [↓reduceIte] at hactive ⊢
    rw [hactive]
    congr 1
    cases k with
    | zero => rfl
    | succ k =>
      -- the last block of a later epoch is the last of all blocks, whatever was in hand
      rw [if_neg (Nat.succ_ne_zero k)]
      cases hlast : blocks.getLast? with
      | none =>
        obtain rfl := List.getLast?_eq_none_iff.1 hlast
        simp [atEpoch, hfirst rfl]
      | some b =>
        change (_ ++ blocks).getLast? = _
        rw [List.getLast?_append, hlast]
        rfl

/-- Epoch `k` yields the consecutive windows of the blocks it goes through. -/
theorem drains_epoch (keepLast : Bool) (ht : 0 < q.take) (first blocks : List (List α)) (k : ℕ) :
    ∃ r', Drains (repeated keepLast q) (atEpoch keepLast first blocks k)
      ((epochBlocks keepLast first blocks k).flatMap (windows q · 0)) r' := by
  have hcursor : (atEpoch keepLast first blocks k).cursor = 0 := by
    cases k <;> rfl
  have hdrains := State.drains_windows keepLast ht (atEpoch keepLast first blocks k)
  rw [hcursor] at hdrains
  rwa [epochBlocks, List.flatMap_append]

/-! ### Starting over with a block in hand -/

section Restart

variable {request : κ → Request} {view : κ → Hit α → ω} {blocks : List (List α)}

/-- A reader without a block reads as if it held the first pending one. -/
theorem State.run_none (b : List α) (rest : List (List α)) (o : ℕ) (calls : List κ) :
    (State.run request view keepLast blocks (calls.map .read) ⟨none, o, b :: rest⟩).1 =
      (State.run request view keepLast blocks (calls.map .read) ⟨some b, 0, rest⟩).1 := by
  cases calls with
  | nil => rfl
  | cons c calls => simp [State.seek_next (r := ⟨none, o, b :: rest⟩) rfl rfl]

/-- A finished block is passed over as if it were not there. -/
theorem State.run_finished {b₀ : List α} {o : ℕ} {c : κ} (h : b₀.length < o + (request c).need)
    (b : List α) (rest : List (List α)) (calls : List κ) :
    (State.run request view keepLast blocks ((c :: calls).map .read) ⟨some b₀, o, b :: rest⟩).1 =
      (State.run request view keepLast blocks ((c :: calls).map .read) ⟨some b, 0, rest⟩).1 := by
  simp [State.seek_next (r := ⟨some b₀, o, b :: rest⟩) (State.hit?_of_lt h) rfl]

/-- An empty block in hand cannot be told from none, if a call shows nothing but
the elements it reaches. -/
theorem State.run_empty_active
    (hview : ∀ c h h', span (request c) h = span (request c) h' → view c h = view c h')
    (b : List α) (rest : List (List α)) (calls : List κ) :
    (State.run request view keepLast blocks (calls.map .read) ⟨some [], 0, b :: rest⟩).1 =
      (State.run request view keepLast blocks (calls.map .read) ⟨some b, 0, rest⟩).1 := by
  induction calls with
  | nil => rfl
  | cons c calls ih =>
    rcases Nat.eq_zero_or_pos (request c).need with hneed | hneed
    · -- a request for nothing is served by either block and moves neither cursor
      have htake : (request c).take = 0 := by unfold Request.need at hneed; omega
      have hhit : ∀ (b' : List α) p, State.hit? (request c) ⟨some b', 0, p⟩ = some (b', 0) :=
        fun b' p => if_pos (by rw [hneed]; exact Nat.zero_le _)
      have hsame : view c ([], 0) = view c (b, 0) := hview c _ _ (by simp [span, hneed])
      simp only [List.map_cons, State.run_read, State.seek_hit (hhit _ _), htake, Option.map_some,
        hsame, ih]
    · exact State.run_finished (by simpa using hneed) b rest calls

/-- A block in hand that one call takes whole is returned first; after it the
reader is like a fresh one. -/
theorem State.run_stale {b₀ : List α} (hpos : 0 < b₀.length) {c : κ}
    (hc : request c = ⟨b₀.length, 0⟩) (b : List α) (rest : List (List α)) (n : ℕ) :
    (State.run request view true blocks ((List.replicate (n + 1) c).map .read)
        ⟨some b₀, 0, b :: rest⟩).1 =
      some (view c (b₀, 0)) :: (State.run request view true blocks
        ((List.replicate n c).map .read) (fresh (b :: rest))).1 := by
  have hneed : (request c).need = b₀.length := by rw [hc]; rfl
  have hhit : State.hit? (request c) ⟨some b₀, 0, b :: rest⟩ = some (b₀, 0) :=
    if_pos (by rw [hneed, Nat.zero_add])
  rw [List.replicate_succ, List.map_cons, State.run_read, State.seek_hit hhit]
  refine congrArg (some (view c (b₀, 0)) :: ·) ?_
  cases n with
  | zero => rfl
  | succ n =>
    have hlate : b₀.length < 0 + (request c).take + (request c).need := by
      rw [hneed, hc]
      simpa using hpos
    exact (State.run_finished hlate b rest _).trans (State.run_none b rest 0 _).symm

/-- A reader that starts over with a block in hand behaves like a fresh one
exactly when that block is empty: any other block is served once more. -/
theorem State.run_stale_iff
    (hview : ∀ c h h', span (request c) h = span (request c) h' → view c h = view c h')
    (hrequest : ∀ n, ∃ c, request c = ⟨n, 0⟩) {active : Option (List α)}
    (hblocks : blocks = [] → active = none) :
    (∀ calls : List κ,
      (State.run request view true blocks (calls.map .read) ⟨active, 0, blocks⟩).1 =
        (State.run request view true blocks (calls.map .read) (fresh blocks)).1) ↔
      active.getD [] = [] := by
  cases active with
  | none => exact ⟨fun _ => rfl, fun _ _ => rfl⟩
  | some b₀ =>
    obtain ⟨b, rest, rfl⟩ : ∃ b rest, blocks = b :: rest :=
      List.exists_cons_of_ne_nil fun h => by simpa using hblocks h
    constructor
    · intro hsame
      by_contra hne
      have hpos : 0 < b₀.length := List.length_pos_iff.2 hne
      obtain ⟨c, hc⟩ := hrequest b₀.length
      let results n := (State.run request view true (b :: rest)
        ((List.replicate n c).map .read) (fresh (b :: rest))).1
      have hshift : ∀ n, results (n + 1) = some (view c (b₀, 0)) :: results n := fun n =>
        (hsame _).symm.trans (State.run_stale hpos hc b rest n)
      -- so a fresh reader would be served for ever, but repeating a call ends
      have hserved : ∀ n, none ∉ results n := by
        intro n
        induction n with
        | zero => exact List.not_mem_nil
        | succ n ih => simpa [hshift n] using ih
      have htake : 0 < (request c).take := by rw [hc]; exact hpos
      obtain ⟨r', hdrain⟩ := drain_blocks true htake (b :: rest)
      refine hserved (((b :: rest).flatMap (windows (request c) · 0)).length + 1) ?_
      have hlast : results _ = _ := State.run_of_drains hdrain
      rw [hlast]
      exact List.mem_append_right _ List.mem_cons_self
    · rintro rfl calls
      exact (State.run_empty_active hview b rest calls).trans (State.run_none b rest 0 calls).symm

end Restart

end BlockReader
