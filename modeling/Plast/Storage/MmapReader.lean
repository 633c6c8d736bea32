/-
# The memory-mapped storage is a block reader

In unbounded arithmetic the sequential methods of `MmapStorage` do not panic and
do what a block reader over the shards does that lets its last block go
(`MmapStorage.call_eq`, `MmapStorage.run_eq`).  A read moves the cursor and
touches nothing else, so every state a script can reach from a loaded storage is
that storage with its cursor moved (`MmapStorage.run_of_load`).

Every build profile computes the same as long as the cursor plus the request does
not overflow (`MmapStorage.call_of_exact`), and in none does a call touch more than
the cursor (`MmapStorage.run_moves`).
-/

import Plast.Storage.Mmap

namespace Plast

open Machine BlockReader

namespace MmapStorage

/-- The storage as a block reader: the current shard is in hand. -/
def reader (s : MmapStorage) : State UInt8 :=
  match s.shards.drop s.currentShardIdx with
  | [] => ⟨none, 0, []⟩
  | b :: rest => ⟨some b, s.localCursor, rest⟩

/-- The storage with its cursor elsewhere. -/
def moveTo (s : MmapStorage) (i o : ℕ) : MmapStorage :=
  { s with currentShardIdx := i, localCursor := o }

/-- The cursor is on a shard and inside it, or past the last shard and at `0`. -/
def InRange (s : MmapStorage) : Prop :=
  s.currentShardIdx ≤ s.shards.length ∧
    s.localCursor ≤ (s.shards[s.currentShardIdx]?.getD []).length

theorem reader_of_lt {s : MmapStorage} (h : s.currentShardIdx < s.shards.length) :
    s.reader = ⟨some s.shards[s.currentShardIdx], s.localCursor,
      s.shards.drop (s.currentShardIdx + 1)⟩ := by
  unfold reader
  rw [List.drop_eq_getElem_cons h]

theorem reader_of_ge {s : MmapStorage} (h : s.shards.length ≤ s.currentShardIdx) :
    s.reader = ⟨none, 0, []⟩ := by
  unfold reader
  rw [List.drop_eq_nil_of_le h]

theorem reader_of_cursor_zero {s : MmapStorage} (h : s.localCursor = 0) :
    s.reader = State.settle ⟨none, 0, s.shards.drop s.currentShardIdx⟩ := by
  unfold reader
  cases s.shards.drop s.currentShardIdx with
  | nil => rfl
  | cons b rest => rw [h]; rfl

/-- The shard in hand is the current one. -/
theorem getElem?_of_reader {s : MmapStorage} {b : Bytes} (h : s.reader.active = some b) :
    s.shards[s.currentShardIdx]? = some b ∧ s.reader.cursor = s.localCursor := by
  rcases Nat.lt_or_ge s.currentShardIdx s.shards.length with hlt | hge
  · rw [reader_of_lt hlt] at h ⊢
    exact ⟨(List.getElem?_eq_getElem hlt).trans h, rfl⟩
  · rw [reader_of_ge hge] at h
    cases h

/-- The loop stops at the current shard if the test passes there. -/
theorem sequentialLoop_hit {a : Arith} {s : MmapStorage} {reqLen lookahead stop cursor : ℕ}
    {b : Bytes} (hb : s.shards[s.currentShardIdx]? = some b)
    (hstop : windowEnd a s.localCursor reqLen lookahead = .ok stop) (hfit : stop ≤ b.length)
    (hcursor : a.add s.localCursor reqLen = .ok cursor) :
    s.sequentialLoop a reqLen lookahead =
      .ok (some (b, s.localCursor), s.moveTo s.currentShardIdx cursor) := by
  obtain ⟨hlt, rfl⟩ := List.getElem?_eq_some_iff.1 hb
  rw [sequentialLoop, dif_pos hlt]
  simp only [hstop, bind, Except.bind, if_pos hfit, hcursor]
  rfl

/-- The loop of the sequential methods is one request to the reader. -/
theorem sequentialLoop_eq (s : MmapStorage) (q : Request) :
    ∃ i o, s.sequentialLoop .unbounded q.take q.lookahead =
        .ok ((s.reader.seek false q).1, s.moveTo i o) ∧
      (s.moveTo i o).reader = (s.reader.seek false q).2 ∧
      (s.InRange → (s.moveTo i o).InRange) := by
  -- on the number of shards not yet left behind
  induction hn : s.shards.length - s.currentShardIdx using Nat.strongRecOn generalizing s with
  | _ n ih =>
    rw [sequentialLoop]
    rcases Nat.lt_or_ge s.currentShardIdx s.shards.length with hlt | hge
    · rw [dif_pos hlt, reader_of_lt hlt]
      simp only [windowEnd, Arith.add_unbounded, bind, Except.bind]
      by_cases hfit : s.localCursor + q.take + q.lookahead ≤ s.shards[s.currentShardIdx].length
      · have hhit : State.hit? q ⟨some s.shards[s.currentShardIdx], s.localCursor,
            s.shards.drop (s.currentShardIdx + 1)⟩ =
              some (s.shards[s.currentShardIdx], s.localCursor) :=
          if_pos (by rw [Request.need, ← Nat.add_assoc]; exact hfit)
        rw [State.seek_hit hhit, if_pos hfit]
        refine ⟨s.currentShardIdx, s.localCursor + q.take, rfl,
          reader_of_lt (s := s.moveTo s.currentShardIdx (s.localCursor + q.take)) hlt, fun hin => ?_⟩
        refine ⟨hin.1, ?_⟩
        simp only [moveTo, List.getElem?_eq_getElem hlt, Option.getD_some]
        omega
      · have hneed : s.shards[s.currentShardIdx].length < s.localCursor + q.need := by
          unfold Request.need
          omega
        let s' : MmapStorage :=
          { s with currentShardIdx := s.currentShardIdx + 1, localCursor := 0 }
        have hless : s'.shards.length - s'.currentShardIdx < n := by
          simp only [s']
          omega
        obtain ⟨i, o, hloop, hreader, hin⟩ := ih _ hless s' rfl
        have hpass : s'.reader.seek false q = State.seek false q
            ⟨some s.shards[s.currentShardIdx], s.localCursor,
              s.shards.drop (s.currentShardIdx + 1)⟩ := by
          rw [State.seek_pass hneed, reader_of_cursor_zero rfl]
        rw [if_neg hfit, ← hpass]
        exact ⟨i, o, hloop, hreader, fun _ => hin ⟨hlt, Nat.zero_le _⟩⟩
    · rw [dif_neg (Nat.not_lt.2 hge), reader_of_ge hge]
      exact ⟨s.currentShardIdx, s.localCursor, rfl, reader_of_ge hge, fun h => h⟩

/-- A call is the loop and then the slices of the window it found. -/
theorem call_eq_loop (a : Arith) (s : MmapStorage) (c : Call) :
    s.call a c = s.sequentialLoop a c.reqLen c.lookahead >>= c.served a := by
  cases c with
  | sliceSequential n =>
    simp only [call, sliceSequential, Call.reqLen, Call.lookahead]
    cases s.sequentialLoop a n 0 with
    | error p => rfl
    | ok found =>
      rcases found with ⟨_ | ⟨b, o⟩, s'⟩
      · rfl
      · simp only [bind, Except.bind, Call.served, Call.window]
        cases plainWindow a b o n <;> rfl
  | sliceTfSequential n =>
    simp only [call, sliceTfSequential, Call.reqLen, Call.lookahead]
    cases s.sequentialLoop a n 4 with
    | error p => rfl
    | ok found =>
      rcases found with ⟨_ | ⟨b, o⟩, s'⟩
      · rfl
      · simp only [bind, Except.bind, Call.served, Call.window]
        cases tfWindow a b o n <;> rfl

/-- A shard that fails the test is passed over. -/
theorem call_skip {a : Arith} {s : MmapStorage} {c : Call} {b : Bytes} {stop : ℕ}
    (hb : s.shards[s.currentShardIdx]? = some b)
    (hstop : windowEnd a s.localCursor c.reqLen c.lookahead = .ok stop) (hmiss : b.length < stop) :
    s.call a c = (s.moveTo (s.currentShardIdx + 1) 0).call a c := by
  obtain ⟨hlt, rfl⟩ := List.getElem?_eq_some_iff.1 hb
  rw [call_eq_loop, call_eq_loop, sequentialLoop, dif_pos hlt]
  simp only [hstop, bind, Except.bind, if_neg (Nat.not_le.2 hmiss)]
  rfl

/-- Past the last shard every call returns `None`. -/
theorem call_end {s : MmapStorage} (h : s.shards.length ≤ s.currentShardIdx) (a : Arith)
    (c : Call) :
    s.call a c = .ok (none, s) := by
  rw [call_eq_loop, sequentialLoop, dif_neg (Nat.not_lt.2 h)]
  rfl

/-- A sequential call does not panic, returns what the reader returns, and moves
the cursor. -/
theorem call_eq (s : MmapStorage) (c : Call) :
    ∃ i o, s.call .unbounded c =
        .ok ((s.reader.seek false c.request).1.map c.view, s.moveTo i o) ∧
      (s.moveTo i o).reader = (s.reader.seek false c.request).2 ∧
      (s.InRange → (s.moveTo i o).InRange) := by
  obtain ⟨i, o, hloop, hreader, hin⟩ := s.sequentialLoop_eq c.request
  have hloop : s.sequentialLoop .unbounded c.reqLen c.lookahead = _ := hloop
  refine ⟨i, o, ?_, hreader, hin⟩
  rw [call_eq_loop, hloop]
  cases hseek : (s.reader.seek false c.request).1 with
  | none => rfl
  | some h =>
    have hfit : h.2 + (c.reqLen + c.lookahead) ≤ h.1.length := (State.active_of_seek hseek).2.2
    rw [← Nat.add_assoc] at hfit
    simp only [bind, Except.bind, Call.served, Call.window_unbounded hfit]
    rfl

/-- The loop does the same in every profile if the end of the first window does not
overflow: later windows start at `0`. -/
theorem sequentialLoop_of_exact {a : Arith} {s : MmapStorage} {reqLen lookahead : ℕ}
    (h : a.Exact (s.localCursor + reqLen + lookahead)) :
    s.sequentialLoop a reqLen lookahead = s.sequentialLoop .unbounded reqLen lookahead := by
  induction hn : s.shards.length - s.currentShardIdx using Nat.strongRecOn generalizing s with
  | _ n ih =>
    have hadd : a.add s.localCursor reqLen = .ok (s.localCursor + reqLen) :=
      (h.mono (Nat.le_add_right _ _)).add
    have hend : windowEnd .unbounded s.localCursor reqLen lookahead =
        .ok (s.localCursor + reqLen + lookahead) := rfl
    rw [sequentialLoop, sequentialLoop.eq_def .unbounded]
    by_cases hlt : s.currentShardIdx < s.shards.length
    · simp only [hlt, ↓reduceDIte, windowEnd_of_exact h, hend, bind, Except.bind, hadd,
        Arith.add_unbounded]
      split
      · rfl
      · refine ih _ ?_ ?_ rfl
        · change s.shards.length - (s.currentShardIdx + 1) < n
          omega
        · change a.Exact (0 + reqLen + lookahead)
          exact h.mono (by omega)
    · simp only [hlt, ↓reduceDIte]

/-- How the loop of the sequential methods comes to what it returns. -/
inductive Loops (a : Arith) (reqLen lookahead : ℕ) :
    MmapStorage → Option (Bytes × ℕ) × MmapStorage → Prop
  | past {s : MmapStorage} :
    s.shards.length ≤ s.currentShardIdx → Loops a reqLen lookahead s (none, s)
  | hit {s : MmapStorage} {b : Bytes} {stop cursor : ℕ} :
    s.shards[s.currentShardIdx]? = some b →
    windowEnd a s.localCursor reqLen lookahead = .ok stop → stop ≤ b.length →
    a.add s.localCursor reqLen = .ok cursor →
    Loops a reqLen lookahead s (some (b, s.localCursor), s.moveTo s.currentShardIdx cursor)
  | skip {s : MmapStorage} {b : Bytes} {stop : ℕ} {result : Option (Bytes × ℕ) × MmapStorage} :
    s.shards[s.currentShardIdx]? = some b →
    windowEnd a s.localCursor reqLen lookahead = .ok stop → b.length < stop →
    Loops a reqLen lookahead (s.moveTo (s.currentShardIdx + 1) 0) result →
    Loops a reqLen lookahead s result

theorem loops_of_sequentialLoop {a : Arith} {s : MmapStorage} {reqLen lookahead : ℕ}
    {result : Option (Bytes × ℕ) × MmapStorage}
    (h : s.sequentialLoop a reqLen lookahead = .ok result) : Loops a reqLen lookahead s result := by
  induction hn : s.shards.length - s.currentShardIdx using Nat.strongRecOn generalizing s with
  | _ n ih =>
    rw [sequentialLoop] at h
    by_cases hlt : s.currentShardIdx < s.shards.length
    · have hb := List.getElem?_eq_getElem hlt
      rw [dif_pos hlt] at h
      obtain ⟨stop, hstop, h⟩ := bind_eq_ok.1 h
      by_cases hfit : stop ≤ s.shards[s.currentShardIdx].length
      · simp only [if_pos hfit] at h
        obtain ⟨cursor, hcursor, h⟩ := bind_eq_ok.1 h
        obtain rfl := Except.ok.inj h
        exact .hit hb hstop hfit hcursor
      · simp only [if_neg hfit] at h
        refine .skip hb hstop (Nat.not_le.1 hfit) (ih _ ?_ h rfl)
        change s.shards.length - (s.currentShardIdx + 1) < n
        omega
    · rw [dif_neg hlt] at h
      obtain rfl := Except.ok.inj h
      exact .past (Nat.not_lt.1 hlt)

/-- The loop moves the cursor and touches nothing else.  A window it finds starts at the
cursor or at the front of a later shard and ends, without its lookahead, at the new
cursor; if it finds none, the cursor is in range if it was. -/
theorem Loops.moves {a : Arith} {s : MmapStorage} {reqLen lookahead : ℕ}
    {result : Option (Bytes × ℕ) × MmapStorage} (h : Loops a reqLen lookahead s result) :
    ∃ i o, result.2 = s.moveTo i o ∧
      (result.1 = none → s.InRange → (s.moveTo i o).InRange) ∧
      ∀ b start, result.1 = some (b, start) →
        start ≤ s.localCursor ∧ s.shards[i]? = some b ∧ a.add start reqLen = .ok o := by
  induction h with
  | past h =>
    refine ⟨_, _, rfl, fun _ hin => hin, fun b start hfound => ?_⟩
    cases hfound
  | hit hb hstop hfit hcursor =>
    refine ⟨_, _, rfl, fun hnone => absurd hnone (by simp), fun b' start hfound => ?_⟩
    obtain ⟨rfl, rfl⟩ := Prod.mk.inj (Option.some.inj hfound)
    exact ⟨le_rfl, hb, hcursor⟩
  | skip hb hstop hmiss _ ih =>
    obtain ⟨i, o, hmove, hnone, hfound⟩ := ih
    obtain ⟨hlt, -⟩ := List.getElem?_eq_some_iff.1 hb
    refine ⟨i, o, hmove, fun h _ => hnone h ⟨hlt, Nat.zero_le _⟩, fun b' start h => ?_⟩
    obtain ⟨hstart, hrest⟩ := hfound b' start h
    exact ⟨hstart.trans (Nat.zero_le _), hrest⟩

/-- A sequential call does the same in every profile if the cursor, the length and
the lookahead add up without overflow. -/
theorem call_of_exact {a : Arith} {s : MmapStorage} {c : Call}
    (h : a.Exact (s.localCursor + c.reqLen + c.lookahead)) :
    s.call a c = s.call .unbounded c := by
  rw [call_eq_loop, call_eq_loop, sequentialLoop_of_exact h]
  cases hres : s.sequentialLoop .unbounded c.reqLen c.lookahead with
  | error e => rfl
  | ok found =>
    rcases found with ⟨_ | ⟨b, start⟩, s'⟩
    · rfl
    · obtain ⟨i, o, -, -, hfound⟩ := (loops_of_sequentialLoop hres).moves
      have hle := (hfound b start rfl).1
      have hsum : a.Exact (start + c.reqLen + c.lookahead) := h.mono (by omega)
      simp only [bind, Except.bind, Call.served, Call.window_of_exact hsum]

/-- A call is served by the current shard if its end is exact and fits. -/
theorem call_hit {a : Arith} {s : MmapStorage} {c : Call} {b : Bytes}
    (hb : s.shards[s.currentShardIdx]? = some b)
    (h : a.Exact (s.localCursor + c.reqLen + c.lookahead))
    (hfit : s.localCursor + c.reqLen + c.lookahead ≤ b.length) :
    s.call a c = .ok (some (c.view (b, s.localCursor)),
      s.moveTo s.currentShardIdx (s.localCursor + c.reqLen)) := by
  have hcursor : a.add s.localCursor c.reqLen = .ok (s.localCursor + c.reqLen) :=
    (h.mono (Nat.le_add_right _ _)).add
  rw [call_eq_loop, sequentialLoop_hit hb (windowEnd_of_exact h) hfit hcursor]
  simp only [bind, Except.bind, Call.served, Call.window_of_exact h, Call.window_unbounded hfit]
  rfl

/-- A storage without a shard in hand has its cursor at `0`. -/
theorem localCursor_of_exhausted {s : MmapStorage} (hin : s.InRange)
    (h : s.reader.active = none) : s.localCursor = 0 := by
  rcases Nat.lt_or_ge s.currentShardIdx s.shards.length with hlt | hge
  · rw [reader_of_lt hlt] at h
    cases h
  · have hle := hin.2
    rw [List.getElem?_eq_none hge] at hle
    exact Nat.le_zero.1 hle

/-- A call whose end does not overflow leaves a cursor for which that is so again, if
twice the length of a shard does not overflow either. -/
theorem call_keeps {a : Arith} {s : MmapStorage} {c : Call}
    (hsize : ∀ b ∈ s.shards, a.Exact (2 * b.length))
    (hword : a.Exact (s.localCursor + c.reqLen + c.lookahead)) {i o : ℕ}
    (hreader : (s.moveTo i o).reader = (s.reader.seek false c.request).2)
    (hin' : (s.moveTo i o).InRange) : a.Exact (o + c.reqLen + c.lookahead) := by
  cases hseek : (s.reader.seek false c.request).1 with
  | none =>
    rw [State.seek_exhausted hseek] at hreader
    have ho : o = 0 := localCursor_of_exhausted hin' (by rw [hreader])
    exact hword.mono (by omega)
  | some h =>
    obtain ⟨hactive, hcursor, hfit⟩ := State.active_of_seek hseek
    rw [← hreader] at hactive hcursor
    obtain ⟨hb, ho⟩ := getElem?_of_reader hactive
    have ho : h.2 + c.reqLen = o := hcursor.symm.trans ho
    have hfit : h.2 + (c.reqLen + c.lookahead) ≤ h.1.length := hfit
    exact (hsize h.1 (List.mem_of_getElem? hb)).mono (by omega)

/-- A script does not panic, returns what the reader returns, and moves the cursor. -/
theorem run_eq (ops : List Op) {s : MmapStorage} {r : State UInt8} (h : s.reader = r.settle) :
    ∃ i o, s.run .unbounded ops =
        .ok ((r.run Call.request Call.view false s.shards ops).1, s.moveTo i o) ∧
      (s.moveTo i o).reader = (r.run Call.request Call.view false s.shards ops).2.settle ∧
      (s.InRange → (s.moveTo i o).InRange) := by
  induction ops generalizing s r with
  | nil => exact ⟨s.currentShardIdx, s.localCursor, rfl, h, fun hin => hin⟩
  | cons op ops ih =>
    cases op with
    | read c =>
      obtain ⟨i, o, hcall, hreader, hin⟩ := s.call_eq c
      rw [h, State.seek_settle] at hcall hreader
      obtain ⟨j, p, hrun, hreader', hin'⟩ := ih (hreader.trans (State.settle_seek r).symm)
      refine ⟨j, p, ?_, hreader', fun hs => hin' (hin hs)⟩
      simp only [run, hcall, bind, Except.bind, hrun]
      rfl
    | restart =>
      have hclear : s.clearState.reader = (r.restart false s.shards).settle :=
        reader_of_cursor_zero rfl
      obtain ⟨j, p, hrun, hreader', hin'⟩ := ih hclear
      exact ⟨j, p, hrun, hreader', fun _ => hin' ⟨Nat.zero_le _, Nat.zero_le _⟩⟩

/-! ### What a call leaves alone -/

/-- In any profile a call moves the cursor and touches nothing else, and it leaves the
cursor in range: the slices of a window check where it ends. -/
theorem call_moves {a : Arith} {s s' : MmapStorage} {c : Call} {w : Option Window}
    (h : s.call a c = .ok (w, s')) : ∃ i o, s' = s.moveTo i o ∧ (s.InRange → s'.InRange) := by
  rw [call_eq_loop] at h
  obtain ⟨⟨_ | ⟨b, start⟩, t⟩, hloop, h⟩ := bind_eq_ok.1 h
  · obtain ⟨i, o, rfl, hnone, -⟩ := (loops_of_sequentialLoop hloop).moves
    obtain ⟨-, rfl⟩ := Prod.mk.inj (Except.ok.inj h)
    exact ⟨i, o, rfl, hnone rfl⟩
  · obtain ⟨i, o, rfl, -, hfound⟩ := (loops_of_sequentialLoop hloop).moves
    obtain ⟨-, hb, ho⟩ := hfound b start rfl
    obtain ⟨window, hwindow, h⟩ := bind_eq_ok.1 h
    obtain ⟨-, rfl⟩ := Prod.mk.inj (Except.ok.inj h)
    obtain ⟨hlt, -⟩ := List.getElem?_eq_some_iff.1 hb
    refine ⟨i, o, rfl, fun _ => ⟨hlt.le, ?_⟩⟩
    simp only [moveTo, hb, Option.getD_some]
    exact Call.stop_le_of_window ho hwindow

/-- So does a script that does not panic. -/
theorem run_moves {a : Arith} {s s' : MmapStorage} {ops : List Op} {ws : List (Option Window)}
    (h : s.run a ops = .ok (ws, s')) : ∃ i o, s' = s.moveTo i o ∧ (s.InRange → s'.InRange) := by
  induction ops generalizing s ws with
  | nil =>
    obtain ⟨-, rfl⟩ := Prod.mk.inj (Except.ok.inj h)
    exact ⟨s.currentShardIdx, s.localCursor, rfl, fun hin => hin⟩
  | cons op ops ih =>
    cases op with
    | read c =>
      obtain ⟨⟨w, t⟩, hcall, h⟩ := bind_eq_ok.1 h
      obtain ⟨⟨ws', u⟩, hrun, hret⟩ := bind_eq_ok.1 h
      obtain ⟨-, rfl⟩ := Prod.mk.inj (Except.ok.inj hret)
      obtain ⟨i, o, rfl, hin⟩ := call_moves hcall
      obtain ⟨j, p, rfl, hin'⟩ := ih hrun
      exact ⟨j, p, rfl, fun hs => hin' (hin hs)⟩
    | restart =>
      obtain ⟨i, o, rfl, hin⟩ := ih h
      exact ⟨i, o, rfl, fun _ => hin ⟨Nat.zero_le _, Nat.zero_le _⟩⟩

/-! ### Loaded storages -/

/-- A loaded storage as a block reader that has not started. -/
theorem reader_ofShards (shards : List Bytes) :
    (ofShards shards).reader = (fresh shards).settle :=
  reader_of_cursor_zero rfl

/-- A script on a loaded storage moves the cursor, which stays in range. -/
theorem run_of_load {ε : Type} {host : Host ε} {setup : MmapSetup} {s₀ s : MmapStorage}
    {ops : List Op} {ws : List (Option Window)} (hload : loadData host setup = .ok s₀)
    (hrun : s₀.run .unbounded ops = .ok (ws, s)) :
    ∃ i o, s = (ofShards (host.shards setup.dataFiles)).moveTo i o ∧ s.InRange := by
  obtain ⟨-, rfl⟩ := loadData_eq_ok.1 hload
  obtain ⟨i, o, heq, -, hin⟩ := run_eq ops (reader_ofShards (host.shards setup.dataFiles))
  obtain ⟨-, rfl⟩ := Prod.mk.inj (Except.ok.inj (hrun.symm.trans heq))
  exact ⟨i, o, rfl, hin ⟨Nat.zero_le _, Nat.zero_le _⟩⟩

end MmapStorage

end Plast
