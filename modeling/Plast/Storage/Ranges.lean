/-
# Ranges of every shape

`slice_random` and `slice_tf_random` subtract the ends of their range before they look at
them.  On a range that runs forwards they return and refuse what is empty or out of
bounds.  One that runs backwards overflows a checked build; the other build goes on
with a wrapped length (`findRange_reversed`).  It panics at the index if the range starts
past the data, and at the slice if the shard it starts in also holds its wrapped end,
which passes the fit test but lies before the start or after the end.

`sliceRandom_safe_iff` is the exact condition for both methods.  They differ in the
lookahead of the test only, so the argument is about `sliceRange`.
-/

import Plast.Storage.RandomAccess

namespace Plast

open Machine PrefixSums

namespace MmapStorage

variable {a : Arith} {shards : List Bytes} {p q start stop lookahead : ℕ} {s : MmapStorage}
  {β : Type} {window : Bytes → ℕ → ℕ → Except Panic β}

/-- A call on a range returns, and it returns `None` if the range is empty or ends after
the data. -/
structure RangeSafe (s : MmapStorage) (start stop : ℕ) (result : Except Panic (Option β)) :
    Prop where
  returns : ∃ found, result = .ok found
  refuses : stop ≤ start ∨ (s.shards.map List.length).sum < stop → result = .ok none

/-- The range runs forwards; or the build wraps, and the range ends after the data or
starts in a shard that does not hold its end, lookahead included. -/
def Guarded (a : Arith) (s : MmapStorage) (start stop lookahead : ℕ) : Prop :=
  start ≤ stop ∨ a = .release ∧ ((s.shards.map List.length).sum < stop ∨
    ∃ i b, s.shards[i]? = some b ∧ ((s.shards.map List.length).take i).sum ≤ start ∧
      start < ((s.shards.map List.length).take i).sum + b.length ∧
      (stop + lookahead < ((s.shards.map List.length).take i).sum ∨
        ((s.shards.map List.length).take i).sum + b.length < stop + lookahead))

theorem RangeSafe.none : RangeSafe s start stop (.ok none : Except Panic (Option β)) :=
  ⟨⟨_, rfl⟩, fun _ => rfl⟩

theorem not_rangeSafe_error (e : Panic) :
    ¬RangeSafe s start stop (.error e : Except Panic (Option β)) := by
  rintro ⟨⟨found, h⟩, -⟩
  cases h

/-! ### Ranges that run backwards -/

/-- What the search does with a range that runs backwards. -/
inductive Reversed (a : Arith) (s : MmapStorage) (start stop lookahead : ℕ) : Prop
  | panics (e : Panic) : ¬Guarded a s start stop lookahead →
    s.findRange a start stop lookahead = .error e → Reversed a s start stop lookahead
  | refuses : Guarded a s start stop lookahead →
    s.findRange a start stop lookahead = .ok none → Reversed a s start stop lookahead
  /-- The length has wrapped, the test passes, and the slice is out of bounds. -/
  | wraps (b : Bytes) (o n e : ℕ) : ¬Guarded a s start stop lookahead →
    s.findRange a start stop lookahead = .ok (some (b, o, n)) → a.add o n = .ok e →
    slice b o e = .error .slice → Reversed a s start stop lookahead

/-- Past the data the search ends behind the last shard. -/
theorem locate_past (hs : s = (ofShards shards).moveTo p q) (haddr : Addressable a shards)
    (hword : a.Exact start) (h : (shards.map List.length).sum ≤ start) :
    s.locate a start = .ok (shards.length, start - (shards.map List.length).sum) := by
  subst hs
  have hpart := partitionPoint_offsets_of_sum_le h
  rw [List.length_map] at hpart
  have hidx : index (offsets (shards.map List.length)) shards.length =
      .ok (shards.map List.length).sum := by
    refine index_of_getElem? ((getElem?_offsets (by rw [List.length_map])).trans ?_)
    rw [List.take_of_length_le (by rw [List.length_map])]
  simp only [locate, moveTo, ofShards, hpart, haddr.count.succ_sub_one, bind, Except.bind, hidx,
    hword.sub h]
  rfl

/-- The length of a range that runs backwards has wrapped. -/
theorem sub_reversed (hrev : stop < start) (hword : start < 2 ^ 64) :
    ∃ n, Arith.release.sub stop start = .ok n ∧ n + start = stop + 2 ^ 64 := by
  refine ⟨_, rfl, ?_⟩
  rw [Nat.mod_eq_of_lt (by omega)]
  omega

/-- A wrapped length is tested against the end that it really has. -/
theorem windowEnd_reversed {base o n len : ℕ} (hn : n + (base + o) = stop + 2 ^ 64)
    (htotal : base + len + 4 < 2 ^ 64) (ho : o < len) (hstop : stop < base + o)
    (hahead : lookahead ≤ 4) :
    ∃ e last, Arith.release.add o n = .ok e ∧ windowEnd .release o n lookahead = .ok last ∧
      (last ≤ len ↔ base ≤ stop + lookahead ∧ stop + lookahead ≤ base + len) ∧
      ¬(o ≤ e ∧ e ≤ len) := by
  refine ⟨_, _, rfl, rfl, ?_, ?_⟩
  · omega
  · omega

/-- A checked build guards no range that runs backwards. -/
theorem not_guarded_checked (ha : a ≠ .release) (hrev : stop < start) :
    ¬Guarded a s start stop lookahead := by
  rintro (hle | ⟨hrel, -⟩)
  · exact absurd hle (Nat.not_le.2 hrev)
  · exact ha hrel

/-- In a build that wraps, what matters is the shard that the range starts in. -/
theorem guarded_iff {i o : ℕ} {b : Bytes} (hs : s = (ofShards shards).moveTo p q)
    (hi : shards[i]? = some b) (ho : o < b.length)
    (hrev : stop < ((shards.map List.length).take i).sum + o)
    (hin : stop ≤ (shards.map List.length).sum) :
    Guarded .release s (((shards.map List.length).take i).sum + o) stop lookahead ↔
      stop + lookahead < ((shards.map List.length).take i).sum ∨
        ((shards.map List.length).take i).sum + b.length < stop + lookahead := by
  have hshards : s.shards = shards := by rw [hs]; rfl
  constructor
  · rintro (hle | ⟨-, hout | ⟨j, c, hj, hle, hlt, hend⟩⟩)
    · exact absurd hle (Nat.not_le.2 hrev)
    · rw [hshards] at hout
      exact absurd hout (Nat.not_lt.2 hin)
    · rw [hshards] at hj hle hlt hend
      obtain ⟨rfl, rfl⟩ := shard_unique hj hi hle hlt (Nat.le_add_right _ _) (by omega)
      exact hend
  · intro hend
    refine Or.inr ⟨rfl, Or.inr ⟨i, b, ?_⟩⟩
    rw [hshards]
    exact ⟨hi, Nat.le_add_right _ _, by omega, hend⟩

/-- No range that starts past the data and ends in the data is guarded. -/
theorem not_guarded_past (hs : s = (ofShards shards).moveTo p q) (hrev : stop < start)
    (hin : stop ≤ (shards.map List.length).sum) (hpast : (shards.map List.length).sum ≤ start) :
    ¬Guarded .release s start stop lookahead := by
  have hshards : s.shards = shards := by rw [hs]; rfl
  rintro (hle | ⟨-, hout | ⟨i, b, hi, -, hb, -⟩⟩)
  · exact absurd hle (Nat.not_le.2 hrev)
  · rw [hshards] at hout
    exact absurd hout (Nat.not_lt.2 hin)
  · rw [hshards] at hi hb
    have := sum_take_add_le hi
    omega

theorem findRange_reversed (hs : s = (ofShards shards).moveTo p q) (haddr : Addressable a shards)
    (hstart : a.Exact start) (hahead : lookahead ≤ 4) (hrev : stop < start) :
    Reversed a s start stop lookahead := by
  have hshards : s.shards = shards := by rw [hs]; rfl
  have hchecked : a ≠ .release → a.sub stop start = .error .overflow →
      Reversed a s start stop lookahead := fun ha hsub =>
    .panics .overflow (not_guarded_checked ha hrev) (by simp only [findRange, hsub, bind, Except.bind])
  cases a with
  | unbounded => exact hchecked (by decide) (if_neg (Nat.not_le.2 hrev))
  | debug => exact hchecked (by decide) (if_neg (Nat.not_le.2 hrev))
  | release =>
    have hword : start < 2 ^ 64 := hstart.lt (by decide)
    have htotal : (shards.map List.length).sum + 4 < 2 ^ 64 := haddr.total.lt (by decide)
    obtain ⟨n, hreq, hn⟩ := sub_reversed hrev hword
    rcases Nat.lt_or_ge (shards.map List.length).sum stop with hout | hin
    · exact .refuses (Or.inr ⟨rfl, Or.inl (by rwa [hshards])⟩)
        (findRange_none hs hreq (Or.inr hout) lookahead)
    have hsome : ¬(n = 0 ∨ (shards.map List.length).sum < stop) := by omega
    rcases Nat.lt_or_ge start (shards.map List.length).sum with hlt | hge
    · obtain ⟨i, b, o, hi, ho, rfl⟩ := exists_shard_of_lt hlt
      have hlen := sum_take_add_le hi
      obtain ⟨e, last, hadd, hend, hfit, hslice⟩ :=
        windowEnd_reversed hn (by omega) ho hrev hahead
      have hfind := findRange_located hs hreq hsome (locate_eq hs haddr hi ho) hi hend
      have hguard := @guarded_iff _ _ _ _ lookahead _ _ _ _ hs hi ho hrev hin
      by_cases hpass : last ≤ b.length
      · have hbounds := hfit.1 hpass
        rw [if_pos hpass] at hfind
        exact .wraps b o n e (fun h => by have := hguard.1 h; omega) hfind hadd (if_neg hslice)
      · have hbounds := mt hfit.2 hpass
        rw [if_neg hpass] at hfind
        exact .refuses (hguard.2 (by omega)) hfind
    · exact .panics .index (not_guarded_past hs hrev hin hge)
        (findRange_unlocated hs hreq hsome (locate_past hs haddr hstart hge) lookahead)

/-! ### The exact condition -/

/-- On a range that runs forwards nothing overflows, and the search refuses what is empty
or out of bounds. -/
theorem sliceRange_forward (hs : s = (ofShards shards).moveTo p q) (haddr : Addressable a shards)
    (hstop : a.Exact stop) (hahead : lookahead ≤ 4) (hle : start ≤ stop)
    (hfit : ∀ b o n, o + n + lookahead ≤ b.length → a.Exact (o + n + lookahead) →
      ∃ w, window b o n = .ok w) :
    RangeSafe s start stop (s.sliceRange a start stop lookahead window) := by
  rcases findRange_exact hs haddr hstop hahead hle with
    ⟨hlt, ⟨i, c, hi, -, hend⟩, b, o, n, hfind, hfits, hexact, -⟩ | ⟨-, hfind⟩
  · obtain ⟨w, hw⟩ := hfit b o n hfits hexact
    have htotal := sum_take_add_le hi
    have hshards : s.shards = shards := by rw [hs]; rfl
    rw [sliceRange_some hfind, hw]
    refine ⟨⟨_, rfl⟩, fun hout => ?_⟩
    rw [hshards] at hout
    omega
  · rw [sliceRange_none hfind]
    exact .none

/-- A call on a range is safe exactly when the range is guarded. -/
theorem sliceRange_safe_iff (hs : s = (ofShards shards).moveTo p q) (haddr : Addressable a shards)
    (hstart : a.Exact start) (hstop : a.Exact stop) (hahead : lookahead ≤ 4)
    (hfit : ∀ b o n, o + n + lookahead ≤ b.length → a.Exact (o + n + lookahead) →
      ∃ w, window b o n = .ok w)
    (hslice : ∀ b o n e, a.add o n = .ok e → slice b o e = .error .slice →
      window b o n = .error .slice) :
    RangeSafe s start stop (s.sliceRange a start stop lookahead window) ↔
      Guarded a s start stop lookahead := by
  rcases Nat.lt_or_ge stop start with hrev | hle
  · cases findRange_reversed hs haddr hstart hahead hrev with
    | panics e hguard hfind =>
      rw [sliceRange_error hfind]
      exact iff_of_false (not_rangeSafe_error e) hguard
    | refuses hguard hfind =>
      rw [sliceRange_none hfind]
      exact iff_of_true .none hguard
    | wraps b o n e hguard hfind hadd hout =>
      rw [sliceRange_some hfind, hslice b o n e hadd hout]
      exact iff_of_false (not_rangeSafe_error _) hguard
  · exact iff_of_true (sliceRange_forward hs haddr hstop hahead hle hfit) (Or.inl hle)

/-- Random access is safe on a range exactly when the range is guarded, for either method
with its own lookahead, in every state of a loaded storage and in every build. -/
theorem sliceRandom_safe_iff {ε : Type} {host : Host ε} {setup : MmapSetup} {s₀ : MmapStorage}
    {ops : List Op} {ws : List (Option Window)} (hload : loadData host setup = .ok s₀)
    (hrun : s₀.run a ops = .ok (ws, s)) (haddr : Addressable a s.shards)
    (hstart : a.Exact start) (hstop : a.Exact stop) :
    (RangeSafe s start stop (s.sliceRandom a start stop) ↔ Guarded a s start stop 0) ∧
      (RangeSafe s start stop (s.sliceTfRandom a start stop) ↔ Guarded a s start stop 4) := by
  obtain ⟨-, rfl⟩ := loadData_eq_ok.1 hload
  obtain ⟨p, q, hs, -⟩ := run_moves hrun
  have hshards : s.shards = host.shards setup.dataFiles := by rw [hs]; rfl
  rw [hshards] at haddr
  rw [sliceRandom_eq, sliceTfRandom_eq]
  constructor
  · refine sliceRange_safe_iff hs haddr hstart hstop (Nat.zero_le 4) (fun b o n hfit hexact => ?_)
      fun b o n e hadd hslice => ?_
    · have hexact : a.Exact (o + n) := hexact
      have hfit : o + n ≤ b.length := hfit
      exact ⟨_, (plainWindow_of_exact b hexact).trans (plainWindow_unbounded hfit)⟩
    · simp only [plainWindow, hadd, bind, Except.bind, hslice]
  · refine sliceRange_safe_iff hs haddr hstart hstop le_rfl (fun b o n hfit hexact => ?_)
      fun b o n e hadd hslice => ?_
    · exact ⟨_, (tfWindow_of_exact b hexact).trans (tfWindow_unbounded hfit)⟩
    · simp only [tfWindow, hadd, bind, Except.bind, hslice]

/-- In a build that wraps, a range that starts in the second shard and ends in the first
is refused by both methods. -/
theorem sliceRandom_safe_iff_two :
    let host : Host Unit := fun _ => File.ofBytes [1, 2, 3, 4, 5, 6, 7, 8]
    ∃ s, loadData host (MmapSetup.new ["a.bin", "b.bin"]) = .ok s ∧
      s.sliceRandom .release 13 2 = .ok none ∧ s.sliceTfRandom .release 13 2 = .ok none := by
  intro host
  have hload : loadData host (MmapSetup.new ["a.bin", "b.bin"]) =
      .ok (ofShards [[1, 2, 3, 4, 5, 6, 7, 8], [1, 2, 3, 4, 5, 6, 7, 8]]) := rfl
  have hrun : (ofShards [[1, 2, 3, 4, 5, 6, 7, 8], [1, 2, 3, 4, 5, 6, 7, 8]]).run .release [] =
      .ok ([], ofShards [[1, 2, 3, 4, 5, 6, 7, 8], [1, 2, 3, 4, 5, 6, 7, 8]]) := rfl
  have hstart : Arith.release.Exact 13 := Or.inr (by decide)
  have hstop : Arith.release.Exact 2 := Or.inr (by decide)
  obtain ⟨hplain, htf⟩ := sliceRandom_safe_iff hload hrun
    ⟨Or.inr (by decide), Or.inr (by decide)⟩ hstart hstop
  have hguard : ∀ {k}, 2 + k < 8 → Guarded .release
      (ofShards [[1, 2, 3, 4, 5, 6, 7, 8], [1, 2, 3, 4, 5, 6, 7, 8]]) 13 2 k := fun hk =>
    Or.inr ⟨rfl, Or.inr ⟨1, [1, 2, 3, 4, 5, 6, 7, 8], rfl, by decide, by decide, Or.inl hk⟩⟩
  exact ⟨_, hload, (hplain.2 (hguard (by decide))).refuses (Or.inl (by decide)),
    (htf.2 (hguard (by decide))).refuses (Or.inl (by decide))⟩

/-- Over a file of 8 bytes a range that runs backwards overflows a checked build.  The
other build panics at the slice if the range starts inside the file, and at the index if
it starts after the end. -/
theorem sliceRandom_panics :
    let host : Host Unit := fun _ => File.ofBytes [1, 2, 3, 4, 5, 6, 7, 8]
    ∃ s, loadData host (MmapSetup.new ["a.bin"]) = .ok s ∧
      s.sliceRandom .debug 6 4 = .error .overflow ∧
      s.sliceTfRandom .debug 6 4 = .error .overflow ∧
      s.sliceRandom .release 6 4 = .error .slice ∧ s.sliceTfRandom .release 6 4 = .error .slice ∧
      s.sliceRandom .release 9 4 = .error .index ∧ s.sliceTfRandom .release 9 4 = .error .index ∧
      ∀ a, a ≠ .unbounded → ¬RangeSafe s 6 4 (s.sliceRandom a 6 4) ∧
        ¬RangeSafe s 6 4 (s.sliceTfRandom a 6 4) := by
  intro host
  refine ⟨ofShards [[1, 2, 3, 4, 5, 6, 7, 8]], rfl, by decide +kernel, by decide +kernel,
    by decide +kernel, by decide +kernel, by decide +kernel, by decide +kernel, fun a ha => ?_⟩
  cases a with
  | unbounded => exact absurd rfl ha
  | debug => exact ⟨not_rangeSafe_error .overflow, not_rangeSafe_error .overflow⟩
  | release => exact ⟨not_rangeSafe_error .slice, not_rangeSafe_error .slice⟩

end MmapStorage

end Plast
