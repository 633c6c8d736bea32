/-
# Legacy batches of any size

What do the legacy iterators yield for an arbitrary `num_elements`, in a build that wraps
and in one that panics?

The iterators over windows compare elements, and multiply only what has passed the test.
The cursor is at the start of a shard or a batch has fitted there, so no sum leaves the
word: no call panics, and what is yielded are the full chunks of every shard
(`legacy_windows_iff`).  The iterator over pairs multiplies by 4 before it looks at the
shard.  A build that wraps reads the windows that the product modulo `2^64` gives, from a
cursor that wraps along with it, and `legacy_pairs_iff` is the exact condition under which
that ends.
-/

import Plast.Legacy.Streams
import Plast.Storage.Oversized

namespace Plast
namespace Legacy

open Machine Calls BlockReader Chunks

variable {ε α W : Type} {a : Arith} {shards : List Bytes} {n i k o m : ℕ} {b : Bytes} {q : Request}

namespace ChunkedShards

/-! ### Walking over the shards -/

/-- How `next` moves when `At b k o` says that element `k` of `b`, as the iterator counts,
is at byte `o`: past the last shard it stays, it leaves a shard whose rest is too short for
the request, and otherwise it shows the window at `o` and moves on to its end. -/
structure Walks (shards : List Bytes) (n : ℕ) (q : Request) (At : Bytes → ℕ → ℕ → Prop)
    (shown : Hit UInt8 → W) (next : ChunkedShards → Except Panic (Option W × ChunkedShards)) :
    Prop where
  start : ∀ b ∈ shards, At b 0 0
  stays : ∀ i k, shards.length ≤ i → next (located shards n i k) = .ok (none, located shards n i k)
  leaves : ∀ i k b o, shards[i]? = some b → At b k o → b.length < o + q.need →
    next (located shards n i k) = next (located shards n (i + 1) 0)
  shows : ∀ i k b o, shards[i]? = some b → At b k o → o + q.need ≤ b.length →
    ∃ k', next (located shards n i k) = .ok (some (shown (b, o)), located shards n i k') ∧
      At b k' (o + q.take)

namespace Walks

variable {At : Bytes → ℕ → ℕ → Prop} {shown : Hit UInt8 → W}
  {next : ChunkedShards → Except Panic (Option W × ChunkedShards)}

/-- The cursor of an iterator at shard `i` is at some byte, if there is such a shard. -/
def Placed (shards : List Bytes) (At : Bytes → ℕ → ℕ → Prop) (i k : ℕ) : Prop :=
  ∀ b, shards[i]? = some b → ∃ o, At b k o

theorem placed_start (h : Walks shards n q At shown next) (i : ℕ) : Placed shards At i 0 :=
  fun b hb => ⟨0, h.start b (List.mem_of_getElem? hb)⟩

/-- A call does not panic, and leaves the cursor at a byte. -/
theorem next_ok (h : Walks shards n q At shown next) (hplaced : Placed shards At i k) :
    ∃ w i' k', next (located shards n i k) = .ok (w, located shards n i' k') ∧
      Placed shards At i' k' := by
  -- on the number of shards not yet left behind
  induction hleft : shards.length - i using Nat.strongRecOn generalizing i k with
  | _ left ih =>
    rcases Nat.lt_or_ge i shards.length with hlt | hge
    · have hb : shards[i]? = some shards[i] := List.getElem?_eq_getElem hlt
      obtain ⟨o, hat⟩ := hplaced _ hb
      rcases Nat.lt_or_ge shards[i].length (o + q.need) with hmiss | hfit
      · rw [h.leaves i k _ o hb hat hmiss]
        exact ih _ (by omega) (h.placed_start (i + 1)) rfl
      · obtain ⟨k', hnext, hat'⟩ := h.shows i k _ o hb hat hfit
        refine ⟨_, i, k', hnext, fun c hc => ?_⟩
        obtain rfl := Option.some.inj (hb.symm.trans hc)
        exact ⟨_, hat'⟩
    · exact ⟨none, i, k, h.stays i k hge, hplaced⟩

/-- So no call of an iterator panics whose `next'` moves in this way. -/
theorem answers_ok {σ γ : Type} {f : ChunkedShards → σ} {next' : σ → Except Panic (Option γ × σ)}
    (h : Walks shards n q At shown next)
    (hf : ∀ st w st', next st = .ok (w, st') → ∃ w', next' (f st) = .ok (w', f st')) (calls : ℕ) :
    ∃ ys, ys.length = calls ∧ answers next' calls (f (located shards n 0 0)) = .ok ys := by
  refine answers_of_invariant (P := fun it => ∃ i k, it = f (located shards n i k) ∧
    Placed shards At i k) ?_ ⟨0, 0, rfl, h.placed_start 0⟩ calls
  rintro _ ⟨i, k, rfl, hplaced⟩
  obtain ⟨w, i', k', hnext, hplaced'⟩ := h.next_ok hplaced
  obtain ⟨w', hnext'⟩ := hf _ w _ hnext
  exact ⟨w', _, hnext', i', k', rfl, hplaced'⟩

/-- The windows of the rest of a shard come first, then what the later shards give. -/
theorem drains_shard (h : Walks shards n q At shown next) (hb : shards[i]? = some b)
    (hq : 0 < q.take ∨ b.length < q.need) {items : List W} {it' : ChunkedShards}
    (hrest : Drains (fun it y => next it = .ok y) (located shards n (i + 1) 0) items it')
    (hat : At b k o) :
    ∃ it', Drains (fun it y => next it = .ok y) (located shards n i k)
      ((windows q b o).map shown ++ items) it' := by
  induction hleft : b.length - o using Nat.strongRecOn generalizing k o with
  | _ left ih =>
    rcases Nat.lt_or_ge b.length (o + q.need) with hmiss | hfit
    · have hnone : windows q b o = [] := by
        rcases Nat.eq_zero_or_pos q.take with hzero | hpos
        · rw [windows, hzero, Nat.div_zero]
          rfl
        · exact windows_of_lt hpos hmiss
      rw [hnone, List.map_nil, List.nil_append]
      exact ⟨it', hrest.of_next fun y hy => (h.leaves i k b o hb hat hmiss).trans hy⟩
    · have hpos : 0 < q.take := hq.resolve_right (by omega)
      have hneed : q.take ≤ q.need := Nat.le_add_right _ _
      obtain ⟨k', hnext, hat'⟩ := h.shows i k b o hb hat hfit
      obtain ⟨it', hdrain⟩ := ih _ (by omega) hat' rfl
      rw [windows_of_le hpos hfit, List.map_cons, List.cons_append]
      exact ⟨it', .item hnext hdrain⟩

/-- Shard by shard. -/
theorem drains_from (h : Walks shards n q At shown next)
    (hq : 0 < q.take ∨ ∀ b ∈ shards, b.length < q.need) (rest : List Bytes)
    (hrest : shards.drop i = rest) :
    ∃ it', Drains (fun it y => next it = .ok y) (located shards n i 0)
      ((rest.flatMap (windows q · 0)).map shown) it' := by
  induction rest generalizing i with
  | nil => exact ⟨_, .stop (h.stays i 0 (List.drop_eq_nil_iff.1 hrest))⟩
  | cons b rest ih =>
    have hb : shards[i]? = some b := by
      rw [← List.head?_drop, hrest]
      rfl
    have htail : shards.drop (i + 1) = rest := by
      rw [← List.tail_drop, hrest]
      rfl
    have hmem := List.mem_of_getElem? hb
    obtain ⟨it', hdrain⟩ := ih htail
    rw [List.flatMap_cons, List.map_append]
    exact h.drains_shard hb (hq.imp_right fun hshort => hshort b hmem) hdrain (h.start b hmem)

/-- A request for nothing is served for ever by the first shard that it fits. -/
theorem next_some (h : Walks shards n q At shown next) (hzero : q.take = 0)
    (hat : ∀ b, shards[i]? = some b → At b k 0) {j : ℕ} {c : Bytes} (hij : i ≤ j)
    (hc : shards[j]? = some c) (hfit : q.need ≤ c.length) :
    ∃ x i' k', next (located shards n i k) = .ok (some x, located shards n i' k') ∧ i' ≤ j ∧
      ∀ b, shards[i']? = some b → At b k' 0 := by
  induction hleft : j - i using Nat.strongRecOn generalizing i k with
  | _ left ih =>
    have hlt : i < shards.length := Nat.lt_of_le_of_lt hij (List.getElem?_eq_some_iff.1 hc).1
    have hb : shards[i]? = some shards[i] := List.getElem?_eq_getElem hlt
    rcases Nat.lt_or_ge shards[i].length (0 + q.need) with hmiss | hhit
    · have hne : i ≠ j := by
        rintro rfl
        obtain rfl := Option.some.inj (hb.symm.trans hc)
        omega
      rw [h.leaves i k _ 0 hb (hat _ hb) hmiss]
      exact ih _ (by omega) (fun b hb' => h.start b (List.mem_of_getElem? hb')) (by omega) rfl
    · obtain ⟨k', hnext, hat'⟩ := h.shows i k _ 0 hb (hat _ hb) hhit
      refine ⟨_, i, k', hnext, hij, fun b hb' => ?_⟩
      obtain rfl := Option.some.inj (hb.symm.trans hb')
      rwa [hzero] at hat'

/-- A drain ends unless the request takes nothing and fits some shard, and it yields the
consecutive windows of every shard. -/
theorem drains_iff (h : Walks shards n q At shown next) (items : List W) :
    (∃ it', Drains (fun it y => next it = .ok y) (located shards n 0 0) items it') ↔
      (0 < q.take ∨ ∀ b ∈ shards, b.length < q.need) ∧
        items = (shards.flatMap (windows q · 0)).map shown := by
  by_cases hq : 0 < q.take ∨ ∀ b ∈ shards, b.length < q.need
  · obtain ⟨it', hdrain⟩ := h.drains_from hq shards List.drop_zero
    rw [hdrain.exists_iff (fun _ _ _ hy hy' => Except.ok.inj (hy.symm.trans hy'))]
    exact (and_iff_right hq).symm
  · refine iff_of_false ?_ fun hand => hq hand.1
    rintro ⟨it', hdrain⟩
    obtain ⟨hzero, hfit⟩ := not_or.1 hq
    obtain ⟨c, hmem, hfit⟩ := not_forall₂.1 hfit
    obtain ⟨j, hc⟩ := List.mem_iff_getElem?.1 hmem
    refine hdrain.false_of_forever (P := fun it => ∃ i k, it = located shards n i k ∧ i ≤ j ∧
      ∀ b, shards[i]? = some b → At b k 0) ?_ ⟨0, 0, rfl, Nat.zero_le j, fun b hb =>
        h.start b (List.mem_of_getElem? hb)⟩
    rintro _ ⟨i, k, rfl, hij, hat⟩ y hy
    obtain ⟨x, i', k', hnext, hij', hat'⟩ :=
      h.next_some (by omega) hat hij hc (Nat.not_lt.1 hfit)
    exact ⟨x, _, Except.ok.inj (hy.symm.trans hnext), i', k', rfl, hij', hat'⟩

end Walks

/-! ### Windows -/

/-- Element `k` is at byte `4 * k`, in the shard, and a batch fits the shard unless the
iterator is at its start. -/
def AtElement (n : ℕ) (b : Bytes) (k o : ℕ) : Prop :=
  o = k * 4 ∧ k ≤ b.length / 4 ∧ (k = 0 ∨ n ≤ b.length / 4)

/-- The iterators over windows walk in windows of `4 * n` bytes, for every `n` in the word. -/
theorem walks_nextWindow (halign : ∀ b ∈ shards, b.length % 4 = 0)
    (hsize : ∀ b ∈ shards, b.length < 2 ^ 63) (a : Arith) (hn : n < 2 ^ 64) :
    Walks shards n ⟨n * 4, 0⟩ (AtElement n) (fun h => h.1.extract h.2 (h.2 + n * 4))
      (nextWindow a) := by
  -- the sum of the test never leaves the word
  have hsum : ∀ (i k o : ℕ) (b : Bytes), shards[i]? = some b → AtElement n b k o →
      a.add k n = .ok (k + n) := by
    rintro i k o b hb ⟨-, hk, hfit⟩
    have hb63 := hsize b (List.mem_of_getElem? hb)
    exact a.add_of_lt (by omega)
  refine ⟨fun b _ => ⟨rfl, Nat.zero_le _, Or.inl rfl⟩, fun i k h => ?_,
    fun i k b o hb hat hmiss => ?_, fun i k b o hb hat hfit => ?_⟩
  · rw [nextWindow, dif_neg (not_lt_of_le h)]
    rfl
  · have hmiss : b.length < o + (n * 4 + 0) := hmiss
    have hb4 := halign b (List.mem_of_getElem? hb)
    obtain ⟨rfl, hk, -⟩ := id hat
    have hlong : ¬ k + n ≤ b.length / 4 := by omega
    rw [nextWindow, dif_pos (lt_of_getElem? hb)]
    simp only [index_shards hb, index_shardLengths hb, bind, Except.bind]
    simp only [located, hsum i k _ b hb hat, if_neg hlong]
  · have hfit : o + (n * 4 + 0) ≤ b.length := hfit
    have hb63 := hsize b (List.mem_of_getElem? hb)
    have hadd := hsum i k o b hb hat
    obtain ⟨rfl, hk, -⟩ := hat
    have hshort : k + n ≤ b.length / 4 := by omega
    have hstart : a.mul k 4 = .ok (k * 4) := a.mul_of_lt (by omega)
    have hlen : a.mul n 4 = .ok (n * 4) := a.mul_of_lt (by omega)
    have hend : a.add (k * 4) (n * 4) = .ok (k * 4 + n * 4) := a.add_of_lt (by omega)
    have hslice : slice b (k * 4) (k * 4 + n * 4) = .ok (b.extract (k * 4) (k * 4 + n * 4)) :=
      slice_of_le (by omega) (by omega)
    refine ⟨k + n, ?_, show k * 4 + n * 4 = (k + n) * 4 by omega, hshort, Or.inr (by omega)⟩
    rw [nextWindow, dif_pos (lt_of_getElem? hb)]
    simp only [index_shards hb, index_shardLengths hb, bind, Except.bind]
    simp only [located, hadd, if_pos hshort, hstart, hlen, hend, hslice]
    rfl

/-! ### Pairs -/

/-- As the build multiplies, element `k` is at byte `o`, in the shard, and a pair of
windows of `m` bytes fits the shard unless the iterator is at its start. -/
def AtByte (a : Arith) (m : ℕ) (b : Bytes) (k o : ℕ) : Prop :=
  a.mul k 4 = .ok o ∧ o ≤ b.length ∧ (o = 0 ∨ m + 4 ≤ b.length)

/-- The cursor moves on by as many bytes as a window has. -/
theorem exists_add_mul_four (a : Arith) (hk : a.mul k 4 = .ok o) (hm : a.mul n 4 = .ok m)
    (hlt : o + m < 2 ^ 64) : ∃ k', a.add k n = .ok k' ∧ a.mul k' 4 = .ok (o + m) := by
  cases a with
  | unbounded =>
    obtain rfl := Except.ok.inj hk
    obtain rfl := Except.ok.inj hm
    exact ⟨k + n, rfl, congrArg Except.ok (Nat.add_mul k n 4)⟩
  | release =>
    rw [Arith.mul_release, Except.ok.injEq] at hk hm
    refine ⟨(k + n) % 2 ^ 64, rfl, ?_⟩
    rw [Arith.mul_release, Except.ok.injEq]
    omega
  | debug =>
    obtain ⟨-, rfl⟩ := Arith.mul_debug_eq_ok.1 hk
    obtain ⟨-, rfl⟩ := Arith.mul_debug_eq_ok.1 hm
    have hbytes : (k + n) * 4 = k * 4 + n * 4 := Nat.add_mul k n 4
    exact ⟨k + n, Arith.add_of_lt .debug (by omega), Arith.mul_debug_eq_ok.2 ⟨by omega, hbytes⟩⟩

/-- The iterator over pairs walks in windows of as many bytes as the build computes, if
the sum with the lookahead fits the word. -/
theorem walks_nextPair (halign : ∀ b ∈ shards, b.length % 4 = 0)
    (hsize : ∀ b ∈ shards, b.length < 2 ^ 63) (hm : a.mul n 4 = .ok m) (hword : m + 4 < 2 ^ 64) :
    Walks shards n ⟨m, 4⟩ (AtByte a m)
      (fun h => (h.1.extract h.2 (h.2 + m), h.1.extract (h.2 + 4) (h.2 + m + 4)))
      (nextPair a) := by
  -- the test of the fit is exact
  have htest : ∀ (i k o : ℕ) (b : Bytes), shards[i]? = some b → AtByte a m b k o →
      a.mul (b.length / 4) 4 = .ok b.length ∧ a.Exact (o + m + 4) := by
    rintro i k o b hb ⟨-, ho, hfit⟩
    have hb63 := hsize b (List.mem_of_getElem? hb)
    have hb4 : b.length / 4 * 4 = b.length :=
      Nat.div_mul_cancel (Nat.dvd_of_mod_eq_zero (halign b (List.mem_of_getElem? hb)))
    exact ⟨(a.mul_of_lt (by omega)).trans (congrArg Except.ok hb4), Or.inr (by omega)⟩
  refine ⟨fun b _ => ⟨a.mul_of_lt (by omega), Nat.zero_le _, Or.inl rfl⟩, fun i k h => ?_,
    fun i k b o hb hat hmiss => ?_, fun i k b o hb hat hfit => ?_⟩
  · rw [nextPair, dif_neg (not_lt_of_le h)]
    rfl
  · have hmiss : b.length < o + m + 4 := hmiss
    obtain ⟨hbytes, hexact⟩ := htest i k o b hb hat
    rw [nextPair, dif_pos (lt_of_getElem? hb)]
    simp only [index_shards hb, index_shardLengths hb, bind, Except.bind]
    simp only [located, hbytes, hat.1, hm, windowEnd_of_exact hexact, if_neg (Nat.not_le.2 hmiss)]
  · have hfit : o + m + 4 ≤ b.length := hfit
    have hb63 := hsize b (List.mem_of_getElem? hb)
    obtain ⟨hbytes, hexact⟩ := htest i k o b hb hat
    obtain ⟨k', hadd, hmul⟩ := exists_add_mul_four a hat.1 hm (by omega)
    refine ⟨k', ?_, hmul, show o + m ≤ b.length by omega, Or.inr (by omega)⟩
    rw [nextPair, dif_pos (lt_of_getElem? hb)]
    simp only [index_shards hb, index_shardLengths hb, bind, Except.bind]
    simp only [located, hbytes, hat.1, hm, windowEnd_of_exact hexact, if_pos hfit,
      tfWindow_of_exact b hexact, tfWindow_unbounded hfit, hadd]
    rfl

/-- Otherwise the first call panics, if there is a shard. -/
theorem nextPair_panics (halign : ∀ b ∈ shards, b.length % 4 = 0)
    (hsize : ∀ b ∈ shards, b.length < 2 ^ 63) (ha : a ≠ .unbounded) (hb : shards[0]? = some b)
    (hword : ∀ m, a.mul n 4 = .ok m → 2 ^ 64 ≤ m + 4) :
    ∃ e, nextPair a (located shards n 0 0) = .error e := by
  have hb63 := hsize b (List.mem_of_getElem? hb)
  have hb4 : b.length / 4 * 4 = b.length :=
    Nat.div_mul_cancel (Nat.dvd_of_mod_eq_zero (halign b (List.mem_of_getElem? hb)))
  have hbytes : a.mul (b.length / 4) 4 = .ok b.length :=
    (a.mul_of_lt (by omega)).trans (congrArg Except.ok hb4)
  have hstart : a.mul 0 4 = .ok 0 := a.mul_of_lt (by omega)
  rw [nextPair, dif_pos (lt_of_getElem? hb)]
  simp only [index_shards hb, index_shardLengths hb, bind, Except.bind]
  simp only [located, hbytes, hstart]
  cases hm : a.mul n 4 with
  | error e => exact ⟨e, rfl⟩
  | ok m =>
    have hover := hword m hm
    cases a with
    | unbounded => exact absurd rfl ha
    | debug =>
      have hend : windowEnd .debug 0 m 4 = .error .overflow := windowEnd_debug (by omega)
      refine ⟨.overflow, ?_⟩
      simp only [hend]
    | release =>
      -- the sum wraps to 0 and passes the test
      rw [Arith.mul_release, Except.ok.injEq] at hm
      have hend : windowEnd .release 0 m 4 = .ok 0 := by
        simp only [windowEnd, Arith.add_release, bind, Except.bind, Except.ok.injEq]
        omega
      have hsum : Arith.release.add 0 m = .ok m := by
        rw [Arith.add_release, Except.ok.injEq]
        omega
      have hslice : slice b 0 m = .error .slice := slice_of_gt (by omega)
      refine ⟨.slice, ?_⟩
      simp only [hend, if_pos (Nat.zero_le _), tfWindow, hsum, bind, Except.bind, hslice]

end ChunkedShards

/-- The windows of the shards are their pairs, if they are not empty or there is nothing
to read them from. -/
theorem ChunkedShards.map_windows_pairs (h : 0 < m ∨ ∀ b ∈ shards, b = []) :
    (shards.flatMap (windows ⟨m, 4⟩ · 0)).map
        (fun h => (h.1.extract h.2 (h.2 + m), h.1.extract (h.2 + 4) (h.2 + m + 4))) =
      shards.flatMap (shiftedChunks m 4) := by
  rw [List.map_flatMap]
  refine List.flatMap_congr fun b hb => ?_
  rcases h with hpos | hnil
  · rw [shiftedChunks_eq hpos, windows, List.map_map]
    refine List.map_congr_left fun k _ => ?_
    rw [Function.comp_apply, Nat.zero_add]
  · rw [hnil b hb, windows, List.length_nil, Nat.zero_sub, Nat.zero_div]
    rfl

/-! ### The drains -/

/-- What one `next` over windows answers. -/
def ChunkedShards.Windows (a : Arith) (it : ChunkedShards) (y : Option Bytes × ChunkedShards) :
    Prop :=
  it.nextWindow a = .ok y

/-- What one `next` over pairs answers. -/
def ChunkedShards.Pairs (a : Arith) (it : ChunkedShards)
    (y : Option (Bytes × Bytes) × ChunkedShards) : Prop :=
  it.nextPair a = .ok y

/-- What one `ChunkedShardIter::next` answers. -/
def ChunkedShardIter.Answers (a : Arith) (it : ChunkedShardIter α)
    (y : Option (List α) × ChunkedShardIter α) : Prop :=
  it.next a = .ok y

/-- If the byte length overflows, a drain ends only where there is nothing to read. -/
theorem ChunkedShards.drains_pairs_of_overflow (halign : ∀ b ∈ shards, b.length % 4 = 0)
    (hsize : ∀ b ∈ shards, b.length < 2 ^ 63) (ha : a ≠ .unbounded)
    (hword : ∀ m, a.mul n 4 = .ok m → 2 ^ 64 ≤ m + 4) (items : List (Bytes × Bytes)) :
    (∃ it', Drains (Pairs a) (located shards n 0 0) items it') ↔ shards = [] ∧ items = [] := by
  cases shards with
  | nil =>
    have hstop : Drains (Pairs a) (located [] n 0 0) [] (located [] n 0 0) := by
      refine .stop ?_
      rw [Pairs, nextPair, dif_neg (not_lt_of_le (Nat.le_refl 0))]
      rfl
    rw [hstop.exists_iff fun _ _ _ hy hy' => Except.ok.inj (hy.symm.trans hy')]
    exact (and_iff_right rfl).symm
  | cons b rest =>
    obtain ⟨e, hpanic⟩ := nextPair_panics halign hsize ha
      (show (b :: rest)[0]? = some b from rfl) hword
    refine iff_of_false ?_ fun hand => absurd hand.1 (List.cons_ne_nil b rest)
    rintro ⟨it', hstop | ⟨hitem, -⟩⟩
    · cases hpanic.symm.trans hstop
    · cases hpanic.symm.trans hitem

theorem ChunkedShardIter.next_of_nextWindow {st st' : ChunkedShards} {w : Option Bytes}
    (marker : Pod α) (h : st.nextWindow a = .ok (w, st')) :
    ChunkedShardIter.next a ⟨st, marker⟩ = .ok (w.map marker.castSlice, ⟨st', marker⟩) := by
  simp only [next, h, bind, Except.bind]
  rfl

/-- Draining the typed iterator casts what draining the windows yields. -/
theorem ChunkedShardIter.drains_iff {st : ChunkedShards} {marker : Pod α} {items : List (List α)}
    {it' : ChunkedShardIter α} :
    Drains (Answers a) ⟨st, marker⟩ items it' ↔
      ∃ chunks st', Drains (ChunkedShards.Windows a) st chunks st' ∧
        items = chunks.map marker.castSlice ∧ it' = ⟨st', marker⟩ := by
  refine Drains.map_iff (fun st => ChunkedShardIter.mk st marker) marker.castSlice fun st y => ?_
  simp only [Answers, next, bind_eq_ok, pure, Except.pure, Except.ok.injEq, ChunkedShards.Windows]

/-- There are as many shards as files. -/
theorem PretokenizedDataLoader.length_of_mapData {host : Host ε} {dataFiles : List PathBuf}
    {l : PretokenizedDataLoader} (h : mapData host dataFiles = .ok l) :
    l.shards.length = dataFiles.length := by
  rw [mapData_eq] at h
  obtain ⟨shards, hshards, rfl⟩ := map_eq_ok.1 h
  exact (mapM_eq_ok.1 hshards).length_eq.symm

/-- The windows of a shard are its chunks, and there are none if they are empty. -/
theorem ChunkedShards.map_windows_chunks (n : ℕ) (b : Bytes) :
    (windows ⟨n * 4, 0⟩ b 0).map (fun h => h.1.extract h.2 (h.2 + n * 4)) =
      chunksExact (n * 4) b := by
  rcases Nat.eq_zero_or_pos (n * 4) with hzero | hpos
  · rw [windows, chunksExact, hzero, Nat.div_zero, if_neg (by omega)]
    rfl
  · rw [chunksExact_eq hpos, windows, List.map_map]
    refine List.map_congr_left fun k _ => ?_
    rw [Function.comp_apply, Nat.zero_add]

section Mapped

variable {host : Host ε} {dataFiles : List PathBuf} {l : PretokenizedDataLoader}

/-- A new iterator is at the start of the first shard. -/
theorem ChunkedShards.new_eq (hmap : PretokenizedDataLoader.mapData host dataFiles = .ok l)
    (n : ℕ) : new l n = located l.shards n 0 0 := by
  rw [new, (PretokenizedDataLoader.eq_of_mapData hmap).1]
  rfl

theorem ChunkedShards.drains_windows_iff
    (hmap : PretokenizedDataLoader.mapData host dataFiles = .ok l)
    (hsize : ∀ b ∈ l.shards, b.length < 2 ^ 63) (a : Arith) (hn : n < 2 ^ 64)
    (chunks : List Bytes) :
    (∃ it', Drains (Windows a) (new l n) chunks it') ↔
      (1 ≤ n ∨ dataFiles = []) ∧ chunks = l.shards.flatMap (chunksExact (n * 4)) := by
  have hwalks := walks_nextWindow (PretokenizedDataLoader.eq_of_mapData hmap).2 hsize a hn
  have hend : (0 < n * 4 ∨ ∀ b ∈ l.shards, b.length < n * 4 + 0) ↔ 1 ≤ n ∨ dataFiles = [] := by
    rw [← List.length_eq_zero_iff, ← PretokenizedDataLoader.length_of_mapData hmap,
      List.length_eq_zero_iff]
    rcases Nat.eq_zero_or_pos n with rfl | hpos
    · simp [List.eq_nil_iff_forall_not_mem]
    · exact iff_of_true (Or.inl (by omega)) (Or.inl hpos)
  rw [← hend, ← funext (map_windows_chunks n), ← List.map_flatMap, new_eq hmap]
  exact hwalks.drains_iff chunks

theorem ChunkedShardIter.drains_casts_iff
    (hmap : PretokenizedDataLoader.mapData host dataFiles = .ok l)
    (hsize : ∀ b ∈ l.shards, b.length < 2 ^ 63) (a : Arith) (hn : n < 2 ^ 64) (marker : Pod α)
    (items : List (List α)) :
    (∃ it', Drains (Answers a) ⟨.new l n, marker⟩ items it') ↔ (1 ≤ n ∨ dataFiles = []) ∧
      items = (l.shards.flatMap (chunksExact (n * 4))).map marker.castSlice := by
  have hdrains := ChunkedShards.drains_windows_iff hmap hsize a hn
  simp only [drains_iff]
  constructor
  · rintro ⟨_, chunks, st', hdrain, rfl, -⟩
    obtain ⟨hend, rfl⟩ := (hdrains chunks).1 ⟨st', hdrain⟩
    exact ⟨hend, rfl⟩
  · rintro ⟨hend, rfl⟩
    obtain ⟨st', hdrain⟩ := (hdrains _).2 ⟨hend, rfl⟩
    exact ⟨_, _, st', hdrain, rfl, rfl⟩

/-- Whatever is asked for, a call of either iterator over windows never panics, not even
after the end and in no build.  A drain ends unless batches of nothing are read from some
file, and it yields the full chunks of every file, in order. -/
theorem legacy_windows_iff (hmap : MmapPretokenizedDataLoader.mapData host dataFiles = .ok l)
    (hsize : ∀ b ∈ l.shards, b.length < 2 ^ 63) (a : Arith) (hn : n < 2 ^ 64) (marker : Pod α) :
    (∀ calls, ∃ ys, ys.length = calls ∧
      answers (ChunkedShardIter.next a) calls ⟨.new l n, marker⟩ = .ok ys) ∧
    (∀ calls, ∃ ys, ys.length = calls ∧
      answers (ChunkedShards.nextWindow a) calls (l.iter n) = .ok ys) ∧
    (∀ items, (∃ it', Drains (ChunkedShardIter.Answers a) ⟨.new l n, marker⟩ items it') ↔
      (1 ≤ n ∨ dataFiles = []) ∧
        items = (l.shards.flatMap (chunksExact (n * 4))).map marker.castSlice) ∧
    ∀ chunks, (∃ it', Drains (ChunkedShards.Windows a) (l.iter n) chunks it') ↔
      (1 ≤ n ∨ dataFiles = []) ∧ chunks = l.shards.flatMap (chunksExact (n * 4)) := by
  have hwalks := ChunkedShards.walks_nextWindow (PretokenizedDataLoader.eq_of_mapData hmap).2
    hsize a hn
  refine ⟨fun calls => ?_, fun calls => ?_,
    ChunkedShardIter.drains_casts_iff hmap hsize a hn marker,
    ChunkedShards.drains_windows_iff hmap hsize a hn⟩
  · rw [ChunkedShards.new_eq hmap]
    refine hwalks.answers_ok (f := fun st => ChunkedShardIter.mk st marker) (fun st w st' h => ?_)
      calls
    exact ⟨_, ChunkedShardIter.next_of_nextWindow marker h⟩
  · rw [show l.iter n = ChunkedShards.new l n from rfl, ChunkedShards.new_eq hmap]
    exact hwalks.answers_ok (f := id) (fun st w st' h => ⟨w, h⟩) calls

/-- Asked for `2 ^ 62` tokens at a time, a release build yields nothing and ends. -/
theorem legacy_windows_iff_huge :
    let host : Host Unit := fun _ => File.ofBytes [1, 2, 3, 4, 5, 6, 7, 8]
    ∃ l, MmapPretokenizedDataLoader.mapData host ["a.bin"] = .ok l ∧
      ∃ it', Drains (ChunkedShardIter.Answers .release) (l.iterU8 (2 ^ 62)) [] it' := by
  intro host
  obtain ⟨-, -, hiff, -⟩ := @legacy_windows_iff Unit UInt8 (2 ^ 62) host ["a.bin"]
    (.ofShards [[1, 2, 3, 4, 5, 6, 7, 8]]) rfl (by decide) .release (by decide) Pod.u8
  refine ⟨_, rfl, (hiff []).2 ⟨Or.inl (by decide), ?_⟩⟩
  rw [show (PretokenizedDataLoader.ofShards [[1, 2, 3, 4, 5, 6, 7, 8]]).shards =
    [[1, 2, 3, 4, 5, 6, 7, 8]] from rfl, List.flatMap_singleton, chunksExact_of_lt (by decide)]
  rfl

/-- In a build with a word, a drain of the iterator over pairs ends exactly if no file is
mapped, or if the byte length of a batch, as the build computes it, fits the word with its
lookahead and is not 0 unless every file is empty.  It yields the pairs of that byte
length, whatever the number of elements was. -/
theorem legacy_pairs_iff (hmap : MmapPretokenizedDataLoaderBytes.mapData host dataFiles = .ok l)
    (hsize : ∀ b ∈ l.shards, b.length < 2 ^ 63) (ha : a ≠ .unbounded)
    (items : List (Bytes × Bytes)) :
    (∃ it', Drains (ChunkedShards.Pairs a) (l.iterTf n) items it') ↔
      (dataFiles = [] ∧ items = []) ∨ ∃ m, a.mul n 4 = .ok m ∧ m + 4 < 2 ^ 64 ∧
        (0 < m ∨ ∀ b ∈ l.shards, b = []) ∧ items = l.shards.flatMap (shiftedChunks m 4) := by
  have halign := (PretokenizedDataLoader.eq_of_mapData hmap).2
  have hempty : l.shards = [] ↔ dataFiles = [] := by
    rw [← List.length_eq_zero_iff, PretokenizedDataLoader.length_of_mapData hmap,
      List.length_eq_zero_iff]
  rw [show l.iterTf n = ChunkedShards.new l n from rfl, ChunkedShards.new_eq hmap]
  by_cases hm : ∃ m, a.mul n 4 = .ok m ∧ m + 4 < 2 ^ 64
  · obtain ⟨m, hm, hword⟩ := hm
    refine ((ChunkedShards.walks_nextPair halign hsize hm hword).drains_iff items).trans ?_
    -- an aligned shard without a whole element is empty
    have hend : (0 < m ∨ ∀ b ∈ l.shards, b.length < m + 4) ↔ (0 < m ∨ ∀ b ∈ l.shards, b = []) := by
      rcases Nat.eq_zero_or_pos m with rfl | hpos
      · refine or_congr Iff.rfl (forall₂_congr fun b hb => ?_)
        have hb4 := halign b hb
        rw [← List.length_eq_zero_iff]
        omega
      · exact iff_of_true (Or.inl hpos) (Or.inl hpos)
    change (0 < m ∨ ∀ b ∈ l.shards, b.length < m + 4) ∧ _ ↔ _
    rw [hend]
    constructor
    · rintro ⟨hpairs, rfl⟩
      exact Or.inr ⟨m, hm, hword, hpairs, ChunkedShards.map_windows_pairs hpairs⟩
    · rintro (⟨hfiles, rfl⟩ | ⟨m', hm', -, hpairs, rfl⟩)
      · rw [hempty.2 hfiles]
        exact ⟨Or.inr nofun, rfl⟩
      · obtain rfl := Except.ok.inj (hm.symm.trans hm')
        exact ⟨hpairs, (ChunkedShards.map_windows_pairs hpairs).symm⟩
  · rw [or_iff_left fun ⟨m, hmul, hword, _⟩ => hm ⟨m, hmul, hword⟩, ← hempty]
    exact ChunkedShards.drains_pairs_of_overflow halign hsize ha (fun m hmul =>
      Nat.not_lt.1 fun hlt => hm ⟨m, hmul, hlt⟩) items

/-- Asked for `2 ^ 62 + 1` tokens at a time, a release build yields a pair of one token,
while a debug build panics. -/
theorem legacy_pairs_iff_wrapped :
    let host : Host Unit := fun _ => File.ofBytes [1, 2, 3, 4, 5, 6, 7, 8]
    ∃ l, MmapPretokenizedDataLoaderBytes.mapData host ["a.bin"] = .ok l ∧
      (∃ it', Drains (ChunkedShards.Pairs .release) (l.iterTf (2 ^ 62 + 1))
        [([1, 2, 3, 4], [5, 6, 7, 8])] it') ∧
      ∀ items it', ¬Drains (ChunkedShards.Pairs .debug) (l.iterTf (2 ^ 62 + 1)) items it' := by
  intro host
  have hiff := fun (a : Arith) (ha : a ≠ .unbounded) => @legacy_pairs_iff Unit a (2 ^ 62 + 1) host
    ["a.bin"] (.ofShards [[1, 2, 3, 4, 5, 6, 7, 8]]) rfl (by decide) ha
  refine ⟨_, rfl, (hiff .release (by decide) _).2 (Or.inr ⟨4, rfl, by decide, Or.inl (by decide), ?_⟩),
    fun items it' hdrain => ?_⟩
  · decide +kernel
  · obtain ⟨hfiles, -⟩ | ⟨m, hm, -⟩ := (hiff .debug (by decide) items).1 ⟨it', hdrain⟩
    · cases hfiles
    · cases hm

end Mapped

end Legacy
end Plast
