/-
# The fit tests in machine words

The fit tests add the cursor, the length and the lookahead before they compare.
A large request can overflow a checked build, or wrap and pass the test of the
other and then panic at the slice (`Traps`).  A sum can also wrap past the end of
the shard, and then the test answers no as it should (`misses_release`).

A call tests what its reader holds, block by block, until a window fits or a test
traps.  If the first sum overflows, none fits: a checked build traps there
(`trapsIn_debug`), and a build that wraps at the first block that is not shorter
than its wrapped sum (`trapsIn_release`), or nowhere (`WrapsPast.allMiss`).
-/

import Plast.Storage.Basic

namespace Plast

open Machine BlockReader

variable {c : Call}

/-! ### One fit test -/

/-- A checked build panics as soon as the end of a window overflows. -/
theorem windowEnd_debug {cursor reqLen lookahead : ℕ}
    (h : 2 ^ 64 ≤ cursor + reqLen + lookahead) :
    windowEnd .debug cursor reqLen lookahead = .error .overflow := by
  unfold windowEnd
  rcases Nat.lt_or_ge (cursor + reqLen) (2 ^ 64) with hlt | hge
  · have hsum : Arith.debug.add cursor reqLen = .ok (cursor + reqLen) := if_pos hlt
    simp only [hsum, bind, Except.bind]
    exact if_neg (Nat.not_lt.2 h)
  · have hsum : Arith.debug.add cursor reqLen = .error .overflow := if_neg (Nat.not_lt.2 hge)
    simp only [hsum, bind, Except.bind]

/-- The fit test of a call answers no. -/
def Misses (a : Arith) (c : Call) (b : Bytes) (o : ℕ) : Prop :=
  ∃ stop, windowEnd a o c.reqLen c.lookahead = .ok stop ∧ b.length < stop

/-- The fit test of a call panics, or it lets a window pass that is out of bounds. -/
inductive Traps (a : Arith) (c : Call) (b : Bytes) (o : ℕ) : Prop
  | test (p : Panic) : windowEnd a o c.reqLen c.lookahead = .error p → Traps a c b o
  | slice (stop cursor : ℕ) : windowEnd a o c.reqLen c.lookahead = .ok stop → stop ≤ b.length →
    a.add o c.reqLen = .ok cursor → slice b o cursor = .error .slice → Traps a c b o

theorem Call.lookahead_le (c : Call) : c.lookahead ≤ 4 := by
  cases c <;> simp [Call.lookahead]

/-- At a cursor inside a shard the test traps, or it answers no and rightly so, or the
window fits. -/
theorem fitTest (a : Arith) {c : Call} {b : Bytes} {o : ℕ} (hreq : c.reqLen < 2 ^ 64)
    (hsize : b.length < 2 ^ 63) (ho : o ≤ b.length) :
    Traps a c b o ∨ (Misses a c b o ∧ b.length < o + c.reqLen + c.lookahead) ∨
      o + c.reqLen + c.lookahead ≤ b.length := by
  have hahead := c.lookahead_le
  rcases Nat.lt_or_ge b.length (o + c.reqLen + c.lookahead) with hlong | hfit
  · rcases Nat.lt_or_ge (o + c.reqLen + c.lookahead) (2 ^ 64) with hlt | hge
    · exact Or.inr (Or.inl ⟨⟨_, windowEnd_of_exact (Or.inr hlt), hlong⟩, hlong⟩)
    · cases a with
      | unbounded => exact Or.inr (Or.inl ⟨⟨_, rfl, hlong⟩, hlong⟩)
      | debug => exact Or.inl (.test _ (windowEnd_debug hge))
      | release =>
        have hstop : windowEnd .release o c.reqLen c.lookahead =
            .ok (((o + c.reqLen) % 2 ^ 64 + c.lookahead) % 2 ^ 64) := rfl
        rcases Nat.lt_or_ge b.length (((o + c.reqLen) % 2 ^ 64 + c.lookahead) % 2 ^ 64) with
          hmiss | hpass
        · exact Or.inr (Or.inl ⟨⟨_, hstop, hmiss⟩, hlong⟩)
        · refine Or.inl (.slice _ _ hstop hpass rfl (if_neg ?_))
          rintro ⟨hstart, hend⟩
          omega
  · exact Or.inr (Or.inr hfit)

/-- In a build that wraps, a sum that wraps past the end of the shard is a no. -/
theorem misses_release {c : Call} {b : Bytes} {o : ℕ} (hreq : c.reqLen < 2 ^ 64)
    (hsize : b.length < 2 ^ 63) (ho : o ≤ b.length)
    (hpast : b.length + 2 ^ 64 < o + c.reqLen + c.lookahead) : Misses .release c b o := by
  have hahead := c.lookahead_le
  exact ⟨((o + c.reqLen) % 2 ^ 64 + c.lookahead) % 2 ^ 64, rfl, by omega⟩

/-- A sum that wraps to a position inside the shard lets a window pass. -/
theorem traps_release {c : Call} {b : Bytes} {o : ℕ} (hreq : c.reqLen < 2 ^ 64)
    (hsize : b.length < 2 ^ 63) (ho : o ≤ b.length)
    (hover : 2 ^ 64 ≤ o + c.reqLen + c.lookahead)
    (hin : o + c.reqLen + c.lookahead ≤ b.length + 2 ^ 64) : Traps .release c b o := by
  have hahead := c.lookahead_le
  rcases fitTest .release hreq hsize ho with htraps | ⟨⟨stop, hstop, hmiss⟩, -⟩ | hfit
  · exact htraps
  · obtain rfl : ((o + c.reqLen) % 2 ^ 64 + c.lookahead) % 2 ^ 64 = stop := Except.ok.inj hstop
    omega
  · omega

/-! ### All tests of a call -/

/-- Of the tests on the way through what a reader holds, one traps, and those before it
answer no. -/
inductive TrapsIn (a : Arith) (c : Call) : State UInt8 → Prop
  | here {r : State UInt8} {b : Bytes} : r.active = some b → Traps a c b r.cursor → TrapsIn a c r
  | next {r : State UInt8} {b : Bytes} {rest : List Bytes} :
    (∀ b', r.active = some b' → Misses a c b' r.cursor) → r.pending = b :: rest →
    TrapsIn a c ⟨some b, 0, rest⟩ → TrapsIn a c r

/-- They all answer no, and rightly so. -/
structure AllMiss (a : Arith) (c : Call) (r : State UInt8) : Prop where
  active : ∀ b, r.active = some b → Misses a c b r.cursor ∧
    b.length < r.cursor + c.reqLen + c.lookahead
  pending : ∀ b ∈ r.pending, Misses a c b 0 ∧ b.length < 0 + c.reqLen + c.lookahead

/-- The sums leave the word, and wrapped they are past the end of every shard. -/
structure WrapsPast (c : Call) (r : State UInt8) : Prop where
  active : ∀ b, r.active = some b → b.length + 2 ^ 64 < r.cursor + c.reqLen + c.lookahead
  pending : ∀ b ∈ r.pending, b.length + 2 ^ 64 < c.reqLen + c.lookahead

/-- The reader holds slices, and its cursor is inside the active one or at `0`. -/
structure OverSlices (r : State UInt8) : Prop where
  active : ∀ b, r.active = some b → b.length < 2 ^ 63 ∧ r.cursor ≤ b.length
  pending : ∀ b ∈ r.pending, b.length < 2 ^ 63
  cursor_zero : r.active = none → r.cursor = 0

theorem WrapsPast.allMiss {r : State UInt8} (h : WrapsPast c r) (hreq : c.reqLen < 2 ^ 64)
    (hslices : OverSlices r) : AllMiss .release c r where
  active := fun b hb => by
    obtain ⟨hsize, ho⟩ := hslices.active b hb
    have hpast := h.active b hb
    exact ⟨misses_release hreq hsize ho hpast, by omega⟩
  pending := fun b hb => by
    have hpast := h.pending b hb
    exact ⟨misses_release hreq (hslices.pending b hb) (Nat.zero_le _) (by omega), by omega⟩

/-- A checked build traps at the first test if its sum overflows. -/
theorem trapsIn_debug {r : State UInt8} (hcursor : r.active = none → r.cursor = 0)
    (hsome : r.active ≠ none ∨ r.pending ≠ [])
    (hover : 2 ^ 64 ≤ r.cursor + c.reqLen + c.lookahead) : TrapsIn .debug c r := by
  cases hb : r.active with
  | some b => exact .here hb (.test _ (windowEnd_debug hover))
  | none =>
    obtain ⟨b, rest, hp⟩ := List.exists_cons_of_ne_nil (hsome.resolve_left fun h => h hb)
    rw [hcursor hb] at hover
    refine .next (fun b' hb' => ?_) hp (.here rfl (.test _ (windowEnd_debug hover)))
    cases hb.symm.trans hb'

/-- A build that wraps traps somewhere if the first sum overflows and not every wrapped sum
is past the end of its shard. -/
theorem trapsIn_release {r : State UInt8} (hreq : c.reqLen < 2 ^ 64) (hslices : OverSlices r)
    (hover : 2 ^ 64 ≤ r.cursor + c.reqLen + c.lookahead) (hpast : ¬WrapsPast c r) :
    TrapsIn .release c r := by
  obtain ⟨active, cursor, pending⟩ := r
  induction pending generalizing active cursor with
  | nil =>
    by_contra hno
    refine hpast ⟨fun b hb => ?_, fun b hb => absurd hb List.not_mem_nil⟩
    obtain ⟨hsize, ho⟩ := hslices.active b hb
    by_contra hin
    exact hno (.here hb (traps_release hreq hsize ho hover (Nat.not_lt.1 hin)))
  | cons b rest ih =>
    by_cases hhere : ∃ b', active = some b' ∧ cursor + c.reqLen + c.lookahead ≤ b'.length + 2 ^ 64
    · obtain ⟨b', hb', hin⟩ := hhere
      obtain ⟨hsize, ho⟩ := hslices.active b' hb'
      exact .here hb' (traps_release hreq hsize ho hover hin)
    · have hmiss : ∀ b', active = some b' →
          b'.length + 2 ^ 64 < cursor + c.reqLen + c.lookahead := fun b' hb' =>
        Nat.lt_of_not_le fun hin => hhere ⟨b', hb', hin⟩
      -- the sum of the next test overflows too
      have hover' : 2 ^ 64 ≤ 0 + c.reqLen + c.lookahead := by
        cases hb : active with
        | none =>
          have hzero := hslices.cursor_zero hb
          change cursor = 0 at hzero
          rwa [← hzero]
        | some b' =>
          have hlong := hmiss b' hb
          have ho := (hslices.active b' hb).2
          change cursor ≤ b'.length at ho
          omega
      refine .next (fun b' hb' => ?_) rfl (ih (some b) 0 ⟨fun b' hb' => ?_, fun b' hb' =>
        hslices.pending b' (List.mem_cons_of_mem b hb'), fun h => absurd h (Option.some_ne_none _)⟩
        hover' fun h => hpast ⟨hmiss, ?_⟩)
      · obtain ⟨hsize, ho⟩ := hslices.active b' hb'
        exact misses_release hreq hsize ho (hmiss b' hb')
      · obtain rfl := Option.some.inj hb'
        exact ⟨hslices.pending b List.mem_cons_self, Nat.zero_le _⟩
      · have hb := h.active b rfl
        change b.length + 2 ^ 64 < 0 + c.reqLen + c.lookahead at hb
        exact List.forall_mem_cons.2 ⟨by omega, h.pending⟩

end Plast
