/-
# A sweep by index

A caller that does not iterate asks `slice_random` for one window after the other, at the
multiples of the window size (`MmapStorage.randomAccessBatching`, the first strategy of the
benchmarks).  A window across a seam is not answered, and the sweep goes on behind it.

So the sweep never gets more windows than sequential iteration over the same storage, which
goes on at the seam.  It gets all it asks for exactly if every shard that starts on the way
starts at a multiple of the window size, and then it gets what sequential iteration
yields (`MmapStorage.randomAccessBatching_sweeps`).
-/

import Plast.Dataloader.Reference
import Plast.Library.Grid
import Plast.Storage.RandomAccess

namespace Plast

open Machine Chunks Grid

namespace MmapStorage

/-- Random-access batching: the windows at the multiples of their size. -/
def randomAccessBatching (a : Arith) (s : MmapStorage) (contextWindowBytes iterations : ℕ) :
    Except Panic (List (Option Bytes)) :=
  (List.range iterations).mapM fun step => do
    let startByte ← a.mul step contextWindowBytes
    let endByte ← a.add startByte contextWindowBytes
    s.sliceRandom a startByte endByte

/-- The lengths of the shards in bytes. -/
def byteLengths (s : MmapStorage) : List ℕ := s.shards.map List.length

variable {a : Arith} {shards : List Bytes} {p q r n k : ℕ} {s : MmapStorage}

theorem inOneShard_iff_holds {start stop : ℕ} :
    InOneShard shards start stop ↔ Holds (shards.map List.length) start stop := by
  constructor
  · rintro ⟨i, b, hi, hstart, hstop⟩
    exact ⟨i, b.length, by rw [List.getElem?_map, hi]; rfl, hstart, hstop⟩
  · rintro ⟨i, m, hi, hstart, hstop⟩
    obtain ⟨b, hb, rfl⟩ := Option.map_eq_some_iff.1 (List.getElem?_map.symm.trans hi)
    exact ⟨i, b, hb, hstart, hstop⟩

/-- What the sweep gets at step `k`. -/
def answer (a : Arith) (s : MmapStorage) (r k : ℕ) : Option Bytes :=
  (s.sliceRandom a (k * r) (k * r + r)).toOption.join

theorem cell_le (hk : k < n) : k * r + r ≤ n * r := by
  rw [← Nat.succ_mul]
  exact Nat.mul_le_mul_right r hk

/-- A window inside the data is answered if one shard holds it. -/
theorem answer_eq (hs : s = (ofShards shards).moveTo p q) (haddr : Addressable a shards)
    (hr : 0 < r) (hk : k < n) (hn : n * r ≤ (shards.map List.length).sum) :
    s.sliceRandom a (k * r) (k * r + r) = .ok (s.answer a r k) ∧
      (Holds (shards.map List.length) (k * r) (k * r + r) →
        s.answer a r k = some (shards.flatten.extract (k * r) (k * r + r))) ∧
      (¬Holds (shards.map List.length) (k * r) (k * r + r) → s.answer a r k = none) := by
  have hcell := cell_le (r := r) hk
  obtain ⟨hin, hout⟩ := sliceRandom_returns hs haddr
    (haddr.total.mono (show k * r + r ≤ _ by omega)) (Nat.le_add_right (k * r) r)
  rw [← inOneShard_iff_holds]
  unfold answer
  by_cases hheld : InOneShard shards (k * r) (k * r + r)
  · rw [hin ⟨by omega, hheld⟩]
    exact ⟨rfl, fun _ => rfl, fun hnot => absurd hheld hnot⟩
  · rw [hout fun h => hheld h.2]
    exact ⟨rfl, fun h => absurd h hheld, fun _ => rfl⟩

theorem isSome_answer_iff (hs : s = (ofShards shards).moveTo p q) (haddr : Addressable a shards)
    (hr : 0 < r) (hk : k < n) (hn : n * r ≤ (shards.map List.length).sum) :
    (s.answer a r k).isSome ↔ Holds (shards.map List.length) (k * r) (k * r + r) := by
  obtain ⟨-, hin, hout⟩ := answer_eq hs haddr hr hk hn
  by_cases hheld : Holds (shards.map List.length) (k * r) (k * r + r)
  · simp [hin hheld, hheld]
  · simp [hout hheld, hheld]

/-- The sweep does not panic. -/
theorem randomAccessBatching_eq (hs : s = (ofShards shards).moveTo p q)
    (haddr : Addressable a shards) (hr : 0 < r) (hn : n * r ≤ (shards.map List.length).sum) :
    s.randomAccessBatching a r n = .ok ((List.range n).map (s.answer a r)) := by
  refine mapM_eq_ok.2 (List.forall₂_map_right_iff.2 (List.forall₂_same.2 fun k hk => ?_))
  have hk := List.mem_range.1 hk
  have hcell := cell_le (r := r) hk
  have hstart : a.mul k r = .ok (k * r) := (haddr.total.mono (by omega)).mul
  have hstop : a.add (k * r) r = .ok (k * r + r) := (haddr.total.mono (by omega)).add
  simp only [hstart, hstop, bind, Except.bind]
  exact (answer_eq hs haddr hr hk hn).1

/-- A sweep gets no more windows than the shards have chunks. -/
theorem countP_answer_le (hs : s = (ofShards shards).moveTo p q) (haddr : Addressable a shards)
    (hr : 0 < r) (hn : n * r ≤ (shards.map List.length).sum) :
    ((List.range n).map (s.answer a r)).countP Option.isSome ≤
      (shards.flatMap (chunksExact r)).length := by
  have hcells : Nat.count (fun k => k < n ∧ (s.answer a r k).isSome) n ≤
      ((shards.map List.length).map (· / r)).sum := by
    refine count_whole_le hr 0 (fun k ⟨hk, hsome⟩ => ?_) n
    simpa only [Nat.zero_add, Holds] using (isSome_answer_iff hs haddr hr hk hn).1 hsome
  have hlength : (shards.flatMap (chunksExact r)).length =
      ((shards.map List.length).map (· / r)).sum := by
    simp only [List.length_flatMap, length_chunksExact hr, List.map_map, Function.comp_def]
  have hcount : ((List.range n).map (s.answer a r)).countP Option.isSome =
      Nat.count (fun k => (s.answer a r k).isSome) n := by
    simp only [List.countP_map, Nat.count, Bool.decide_eq_true, Function.comp_def]
  rw [hlength, hcount]
  exact (Nat.count_mono_left fun k hk hsome => ⟨hk, hsome⟩).trans hcells

/-- **Sweeping by index against iterating.**  In every state of a loaded storage, for every
window size but `0` and every number of windows that the data have room for: the sweep does not
panic; it gets no more windows than sequential iteration yields; it gets all of them exactly
if every shard that starts on the way starts at a multiple of the window size, and then they
are the first ones that sequential iteration yields. -/
theorem randomAccessBatching_sweeps {ε : Type} {host : Host ε} {setup : MmapSetup}
    {s₀ s : MmapStorage} {a : Arith} {ops : List Op} {ws : List (Option Window)}
    (hload : loadData host setup = .ok s₀) (hrun : s₀.run a ops = .ok (ws, s)) {r n : ℕ}
    (hr : 0 < r) (hn : n * r ≤ s.byteLengths.sum) (haddr : Addressable a s.shards)
    (hword : (Call.sliceSequential r).NoOverflow a s.shards) :
    ∃ answers chunks t, s.randomAccessBatching a r n = .ok answers ∧
      Drains (Slices a r) s.clearState chunks t ∧
      answers.countP Option.isSome ≤ chunks.length ∧
      ((∀ x ∈ answers, x.isSome) ↔ Aligned r s.byteLengths (n * r)) ∧
      (Aligned r s.byteLengths (n * r) → answers = (chunks.take n).map some) := by
  obtain ⟨-, rfl⟩ := loadData_eq_ok.1 hload
  obtain ⟨i, o, hs, -⟩ := run_moves hrun
  have hshards : s.shards = host.shards setup.dataFiles := by rw [hs]; rfl
  have hclear : s.clearState = ofShards (host.shards setup.dataFiles) := by rw [hs]; rfl
  unfold byteLengths at hn ⊢
  rw [hshards] at hn haddr hword ⊢
  rw [hclear]
  obtain ⟨t, ht⟩ := slices_drains hr hword
  refine ⟨_, _, t, randomAccessBatching_eq hs haddr hr hn, ht,
    countP_answer_le hs haddr hr hn, ?_, fun haligned => ?_⟩
  · rw [← whole_iff_aligned hr hn, List.forall_mem_map]
    exact forall_congr' fun k => by
      rw [List.mem_range]
      exact ⟨fun h hk => (isSome_answer_iff hs haddr hr hk hn).1 (h hk),
        fun h hk => (isSome_answer_iff hs haddr hr hk hn).2 (h hk)⟩
  · rw [cells_eq_take hr _ (by rwa [List.length_flatten]) haligned, List.map_map]
    refine List.map_congr_left fun k hk => ?_
    have hk := List.mem_range.1 hk
    exact (answer_eq hs haddr hr hk hn).2.1 ((whole_iff_aligned hr hn).2 haligned k hk)

/-- Windows of 4 bytes over shards of 4 and 8 bytes: all three are answered. -/
theorem randomAccessBatching_sweeps_three :
    let host : Host Unit := fun path =>
      File.ofBytes (if path = "a.bin" then [1, 2, 3, 4] else [5, 6, 7, 8, 9, 10, 11, 12])
    ∃ s answers, loadData host (MmapSetup.new ["a.bin", "b.bin"]) = .ok s ∧
      s.randomAccessBatching .debug 4 3 = .ok answers ∧ ∀ x ∈ answers, x.isSome := by
  intro host
  have hload : loadData host (MmapSetup.new ["a.bin", "b.bin"]) =
      .ok (ofShards (host.shards ["a.bin", "b.bin"])) := rfl
  obtain ⟨answers, chunks, t, hanswers, -, -, hall, -⟩ := randomAccessBatching_sweeps (r := 4)
    (n := 3) hload (show (ofShards (host.shards ["a.bin", "b.bin"])).run .debug [] = .ok ([], _)
      from rfl) (by decide) (by decide) ⟨Or.inr (by decide), Or.inr (by decide)⟩
    ⟨Or.inr (by decide), fun b hb => Or.inr (by revert b; decide)⟩
  refine ⟨_, answers, hload, hanswers, hall.2 fun j hj => ?_⟩
  match j with
  | 0 => exact Nat.dvd_zero 4
  | 1 => exact Nat.dvd_refl 4
  | j + 2 =>
    have hbefore : (List.take (j + 2) [4, 8]).sum < 12 := hj
    rw [List.take_of_length_le (show [4, 8].length ≤ j + 2 from Nat.le_add_left 2 j)] at hbefore
    exact absurd hbefore (by decide)

end MmapStorage

end Plast
