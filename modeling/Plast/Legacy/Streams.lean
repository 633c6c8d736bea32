/-
# The new loader streams what the legacy loaders streamed

The legacy iterators and `Dataloader` over a `MmapStorage` walk the same files with
different cursors: elements inside the iterator on one side, bytes inside the storage
on the other.  The simulation relation is that one cursor is four times the other and
both are at the same shard (`ChunkedShards.next_related`).  The tests of the fit agree
because every file is a whole number of elements.
-/

import Plast.Legacy.Loader
import Plast.Dataloader.Reference
import Plast.Library.Calls

namespace Plast
namespace Legacy

open Machine Calls

variable {ε α : Type} {a : Arith} {shards : List Bytes} {n i k : ℕ} {b : Bytes}

namespace ChunkedShards

/-- An iterator at element `k` of shard `i`. -/
def located (shards : List Bytes) (n i k : ℕ) : ChunkedShards := ⟨.ofShards shards, k, i, n⟩

theorem index_shards (hb : shards[i]? = some b) :
    index (located shards n i k).dataloader.shards (located shards n i k).currentFileIdx = .ok b :=
  index_of_getElem? hb

theorem index_shardLengths (hb : shards[i]? = some b) :
    index (located shards n i k).dataloader.shardLengths (located shards n i k).currentFileIdx =
      .ok (b.length / 4) := by
  refine index_of_getElem? ?_
  change (shards.map fun b => b.length / 4)[i]? = _
  rw [List.getElem?_map, hb]
  rfl

theorem lt_of_getElem? (hb : shards[i]? = some b) :
    (located shards n i k).currentFileIdx < (located shards n i k).dataloader.totalNumShards :=
  (List.getElem?_eq_some_iff.1 hb).1

theorem not_lt_of_le (h : shards.length ≤ i) :
    ¬ (located shards n i k).currentFileIdx < (located shards n i k).dataloader.totalNumShards :=
  Nat.not_lt.2 h

/-! ### One step of an iterator -/

/-- How `next` moves: past the last shard it stays, it leaves a shard whose rest is too
short for the call, and otherwise it shows the window of the call and moves on. -/
structure Steps {W : Type} (a : Arith) (shards : List Bytes) (n : ℕ) (c : Call) (view : W → Window)
    (next : ChunkedShards → Except Panic (Option W × ChunkedShards)) : Prop where
  stays : ∀ i k, shards.length ≤ i → next (located shards n i k) = .ok (none, located shards n i k)
  leaves : ∀ i k b, shards[i]? = some b → a.Exact (k * 4 + c.reqLen + c.lookahead) →
    b.length < k * 4 + c.reqLen + c.lookahead →
      next (located shards n i k) = next (located shards n (i + 1) 0)
  shows : ∀ i k b, shards[i]? = some b → a.Exact (k * 4 + c.reqLen + c.lookahead) →
    k * 4 + c.reqLen + c.lookahead ≤ b.length → ∃ w, view w = c.view (b, k * 4) ∧
      next (located shards n i k) = .ok (some w, located shards n i (k + n))

/-- The iterators over windows move by `slice_sequential`. -/
theorem steps_nextWindow (halign : ∀ b ∈ shards, b.length % 4 = 0) :
    Steps a shards n (.sliceSequential (n * 4)) Window.plain (nextWindow a) := by
  refine ⟨fun i k h => ?_, fun i k b hb hexact hmiss => ?_, fun i k b hb hexact hfit => ?_⟩
  · rw [nextWindow, dif_neg (not_lt_of_le h)]
    rfl
  · have hexact : a.Exact (k * 4 + n * 4 + 0) := hexact
    have hmiss : b.length < k * 4 + n * 4 + 0 := hmiss
    have hb4 := halign b (List.mem_of_getElem? hb)
    have hsum : a.add k n = .ok (k + n) := (hexact.mono (by omega)).add
    have hlong : ¬ k + n ≤ b.length / 4 := by omega
    rw [nextWindow, dif_pos (lt_of_getElem? hb)]
    simp only [index_shards hb, index_shardLengths hb, bind, Except.bind]
    simp only [located, hsum, if_neg hlong]
  · have hexact : a.Exact (k * 4 + n * 4 + 0) := hexact
    have hfit : k * 4 + n * 4 + 0 ≤ b.length := hfit
    have hsum : a.add k n = .ok (k + n) := (hexact.mono (by omega)).add
    have hstart : a.mul k 4 = .ok (k * 4) := (hexact.mono (by omega)).mul
    have hlen : a.mul n 4 = .ok (n * 4) := (hexact.mono (by omega)).mul
    have hend : a.add (k * 4) (n * 4) = .ok (k * 4 + n * 4) := (hexact.mono (by omega)).add
    have hslice : slice b (k * 4) (k * 4 + n * 4) = .ok (b.extract (k * 4) (k * 4 + n * 4)) :=
      slice_of_le (by omega) hfit
    have hshort : k + n ≤ b.length / 4 := by omega
    refine ⟨b.extract (k * 4) (k * 4 + n * 4), rfl, ?_⟩
    rw [nextWindow, dif_pos (lt_of_getElem? hb)]
    simp only [index_shards hb, index_shardLengths hb, bind, Except.bind]
    simp only [located, hsum, if_pos hshort, hstart, hlen, hend, hslice]
    rfl

/-- The iterator over pairs moves by `slice_tf_sequential`. -/
theorem steps_nextPair (halign : ∀ b ∈ shards, b.length % 4 = 0)
    (hsize : ∀ b ∈ shards, a.Exact (2 * b.length)) :
    Steps a shards n (.sliceTfSequential (n * 4)) (fun p => Window.tf p.1 p.2) (nextPair a) := by
  -- the test of the fit, in bytes as in the storage
  have htest : ∀ (i k : ℕ) (b : Bytes), shards[i]? = some b → a.Exact (k * 4 + n * 4 + 4) →
      a.mul (b.length / 4) 4 = .ok b.length ∧ a.mul k 4 = .ok (k * 4) ∧
        a.mul n 4 = .ok (n * 4) ∧ windowEnd a (k * 4) (n * 4) 4 = .ok (k * 4 + n * 4 + 4) := by
    intro i k b hb hexact
    have hb4 := halign b (List.mem_of_getElem? hb)
    have hlen : a.mul (b.length / 4) 4 = .ok (b.length / 4 * 4) :=
      ((hsize b (List.mem_of_getElem? hb)).mono (by omega)).mul
    rw [Nat.div_mul_cancel (Nat.dvd_of_mod_eq_zero hb4)] at hlen
    exact ⟨hlen, (hexact.mono (by omega)).mul, (hexact.mono (by omega)).mul,
      windowEnd_of_exact hexact⟩
  refine ⟨fun i k h => ?_, fun i k b hb hexact hmiss => ?_, fun i k b hb hexact hfit => ?_⟩
  · rw [nextPair, dif_neg (not_lt_of_le h)]
    rfl
  · have hexact : a.Exact (k * 4 + n * 4 + 4) := hexact
    have hmiss : b.length < k * 4 + n * 4 + 4 := hmiss
    obtain ⟨hbytes, hstart, hlen, hend⟩ := htest i k b hb hexact
    rw [nextPair, dif_pos (lt_of_getElem? hb)]
    simp only [index_shards hb, index_shardLengths hb, bind, Except.bind]
    simp only [located, hbytes, hstart, hlen, hend, if_neg (Nat.not_le.2 hmiss)]
  · have hexact : a.Exact (k * 4 + n * 4 + 4) := hexact
    have hfit : k * 4 + n * 4 + 4 ≤ b.length := hfit
    obtain ⟨hbytes, hstart, hlen, hend⟩ := htest i k b hb hexact
    have hsum : a.add k n = .ok (k + n) := (hexact.mono (by omega)).add
    refine ⟨(b.extract (k * 4) (k * 4 + n * 4), b.extract (k * 4 + 4) (k * 4 + n * 4 + 4)), rfl, ?_⟩
    rw [nextPair, dif_pos (lt_of_getElem? hb)]
    simp only [index_shards hb, index_shardLengths hb, bind, Except.bind]
    simp only [located, hbytes, hstart, hlen, hend, if_pos hfit, tfWindow_of_exact b hexact,
      tfWindow_unbounded hfit, hsum]
    rfl

/-! ### The simulation -/

/-- A legacy iterator and the storage, at the same place: the cursor of the storage is
four times the one of the iterator, and the next sum does not overflow. -/
def Related (a : Arith) (shards : List Bytes) (n : ℕ) (c : Call) (it : ChunkedShards)
    (s : MmapStorage) : Prop :=
  ∃ i k, it = located shards n i k ∧ s = (MmapStorage.ofShards shards).moveTo i (k * 4) ∧
    a.Exact (k * 4 + c.reqLen + c.lookahead)

/-- One step keeps the two at the same place, and both give the same answer. -/
theorem next_related {W : Type} {c : Call} {view : W → Window}
    {next : ChunkedShards → Except Panic (Option W × ChunkedShards)}
    (hnext : Steps a shards n c view next) (hc : c.reqLen = n * 4)
    (hsize : ∀ b ∈ shards, a.Exact (2 * b.length)) {it : ChunkedShards} {s : MmapStorage}
    (h : Related a shards n c it s) :
    ∃ w it' s', next it = .ok (w, it') ∧ s.call a c = .ok (w.map view, s') ∧
      Related a shards n c it' s' := by
  obtain ⟨i, k, rfl, rfl, hexact⟩ := h
  -- on the number of shards not yet left behind
  induction hleft : shards.length - i using Nat.strongRecOn generalizing i k with
  | _ left ih =>
    rcases Nat.lt_or_ge i shards.length with hlt | hge
    · have hb : shards[i]? = some shards[i] := List.getElem?_eq_getElem hlt
      rcases Nat.lt_or_ge shards[i].length (k * 4 + c.reqLen + c.lookahead) with hmiss | hfit
      · have hskip := MmapStorage.call_skip (c := c)
          (s := (MmapStorage.ofShards shards).moveTo i (k * 4)) hb (windowEnd_of_exact hexact) hmiss
        rw [hnext.leaves i k _ hb hexact hmiss, hskip]
        exact ih _ (by omega) (i + 1) 0 (hexact.mono (by omega)) rfl
      · obtain ⟨w, hw, hstep⟩ := hnext.shows i k _ hb hexact hfit
        have hcall := MmapStorage.call_hit (c := c) (b := shards[i])
          (s := (MmapStorage.ofShards shards).moveTo i (k * 4)) hb hexact hfit
        refine ⟨some w, _, (MmapStorage.ofShards shards).moveTo i (k * 4 + c.reqLen), hstep,
          hcall.trans ?_, i, k + n, rfl, ?_, ?_⟩
        · rw [Option.map_some, hw]
          rfl
        · rw [hc, Nat.add_mul]
        · refine (hsize _ (List.getElem_mem hlt)).mono ?_
          omega
    · exact ⟨none, _, _, hnext.stays i k hge, MmapStorage.call_end hge a c, i, k, rfl, rfl, hexact⟩

/-- An iterator over a storage and a legacy iterator, at the same place. -/
def RelatedBy {ι : Type} (a : Arith) (shards : List Bytes) (n : ℕ) (c : Call) (mk : MmapStorage → ι)
    (it : ι) (it' : ChunkedShards) : Prop :=
  ∃ s, it = mk s ∧ Related a shards n c it' s

/-- One step keeps them there, if `next` of the first does what the call does. -/
theorem RelatedBy.step {ι W : Type} {c : Call} {mk : MmapStorage → ι} {view : W → Window}
    {next : ι → Except Panic (Option W × ι)}
    {next' : ChunkedShards → Except Panic (Option W × ChunkedShards)}
    (hnext' : Steps a shards n c view next') (hc : c.reqLen = n * 4)
    (hsize : ∀ b ∈ shards, a.Exact (2 * b.length))
    (hnext : ∀ s w s', s.call a c = .ok (w.map view, s') → next (mk s) = .ok (w, mk s'))
    (it : ι) (it' : ChunkedShards) (h : RelatedBy a shards n c mk it it') :
    ∃ w u u', next it = .ok (w, u) ∧ next' it' = .ok (w, u') ∧ RelatedBy a shards n c mk u u' := by
  obtain ⟨s, rfl, hrel⟩ := h
  obtain ⟨w, u', s', hstep, hcall, hrel'⟩ := next_related hnext' hc hsize hrel
  exact ⟨w, _, u', hnext s w s' hcall, hstep, s', rfl, hrel'⟩

/-- Both start at the same place. -/
theorem RelatedBy.new {ι : Type} {c : Call} (mk : MmapStorage → ι) (shards : List Bytes) (n : ℕ)
    (hexact : a.Exact (c.reqLen + c.lookahead)) :
    RelatedBy a shards n c mk (mk (.ofShards shards)) (.new (.ofShards shards) n) :=
  ⟨_, rfl, 0, 0, rfl, rfl, hexact.mono (by omega)⟩

end ChunkedShards

/-- The step of `ChunkedShardIter` over bytes. -/
theorem ChunkedShardIter.next_u8 {st st' : ChunkedShards} {w : Option Bytes}
    (h : st.nextWindow a = .ok (w, st')) :
    ChunkedShardIter.next a ⟨st, Pod.u8⟩ = .ok (w, ⟨st', Pod.u8⟩) := by
  simp only [next, h, bind, Except.bind, Pod.u8, Option.map_id_fun', id]
  rfl

/-- The step of `DataloaderIter` over bytes. -/
theorem next_of_call_plain {s s' : MmapStorage} {r : ℕ} {w : Option Bytes}
    (h : s.call a (.sliceSequential r) = .ok (w.map .plain, s')) :
    DataloaderIter.next a ⟨s, r, bytesConverter⟩ = .ok (w, ⟨s', r, bytesConverter⟩) := by
  obtain ⟨⟨w', t⟩, hslice, heq⟩ := bind_eq_ok.1 h
  obtain ⟨hw, rfl⟩ := Prod.mk.inj (Except.ok.inj heq)
  obtain rfl := Option.map_injective (fun _ _ h => Window.plain.inj h) hw
  simp only [DataloaderIter.next, hslice, bind, Except.bind, bytesConverter, Option.map_id_fun', id]
  rfl

/-- The step of `TFDataloaderIter` over bytes. -/
theorem next_of_call_tf {s s' : MmapStorage} {r : ℕ} {w : Option (Bytes × Bytes)}
    (h : s.call a (.sliceTfSequential r) = .ok (w.map (fun p => .tf p.1 p.2), s')) :
    TFDataloaderIter.next a ⟨s, r, bytesConverter⟩ = .ok (w, ⟨s', r, bytesConverter⟩) := by
  obtain ⟨⟨w', t⟩, hslice, heq⟩ := bind_eq_ok.1 h
  obtain ⟨hw, rfl⟩ := Prod.mk.inj (Except.ok.inj heq)
  obtain rfl := Option.map_injective Window.tf_injective hw
  simp only [TFDataloaderIter.next, hslice, bind, Except.bind, bytesConverter, Option.map_id_fun', id]
  rfl

/-- The iterators over windows answer what `iter_bytes` answers. -/
theorem answers_nextWindow (halign : ∀ b ∈ shards, b.length % 4 = 0)
    (hword : (Call.sliceSequential (n * 4)).NoOverflow a shards) (k : ℕ) :
    ∃ xs, xs.length = k ∧
      answers (DataloaderIter.next a) k ⟨.ofShards shards, n * 4, bytesConverter⟩ = .ok xs ∧
      answers (ChunkedShardIter.next a) k ⟨.new (.ofShards shards) n, Pod.u8⟩ = .ok xs ∧
      answers (ChunkedShards.nextWindow a) k (.new (.ofShards shards) n) = .ok xs := by
  have hstart := ChunkedShards.RelatedBy.new
    (fun s => (⟨s, n * 4, bytesConverter⟩ : DataloaderIter Bytes)) shards n hword.1
  have hstep := ChunkedShards.RelatedBy.step (ChunkedShards.steps_nextWindow halign) rfl hword.2
    fun s w s' => @next_of_call_plain a s s' (n * 4) w
  obtain ⟨xs, hlen, hnew, hbytes⟩ := answers_of_related hstep hstart k
  -- the cast to `u8` changes nothing
  have hcast : ∀ st (it : ChunkedShardIter UInt8),
      (∃ s, ChunkedShards.Related a shards n (.sliceSequential (n * 4)) st s) ∧
        it = ⟨st, Pod.u8⟩ →
      ∃ w st' u, ChunkedShards.nextWindow a st = .ok (w, st') ∧
        ChunkedShardIter.next a it = .ok (w, u) ∧
        (∃ s, ChunkedShards.Related a shards n (.sliceSequential (n * 4)) st' s) ∧
        u = ⟨st', Pod.u8⟩ := by
    rintro st _ ⟨⟨s, hrel⟩, rfl⟩
    obtain ⟨w, st', s', hnext, -, hrel'⟩ := ChunkedShards.next_related
      (ChunkedShards.steps_nextWindow halign) rfl hword.2 hrel
    exact ⟨w, st', _, hnext, ChunkedShardIter.next_u8 hnext, ⟨s', hrel'⟩, rfl⟩
  obtain ⟨s, -, hrel⟩ := hstart
  obtain ⟨ys, -, hys, hu8⟩ := answers_of_related hcast ⟨⟨s, hrel⟩, rfl⟩ k
  obtain rfl := Except.ok.inj (hbytes.symm.trans hys)
  exact ⟨xs, hlen, hnew, hu8, hbytes⟩

/-- The iterator over pairs answers what `tf_iter_bytes` answers. -/
theorem answers_nextPair (halign : ∀ b ∈ shards, b.length % 4 = 0)
    (hword : (Call.sliceTfSequential (n * 4)).NoOverflow a shards) (k : ℕ) :
    ∃ ps, ps.length = k ∧
      answers (TFDataloaderIter.next a) k ⟨.ofShards shards, n * 4, bytesConverter⟩ = .ok ps ∧
      answers (ChunkedShards.nextPair a) k (.new (.ofShards shards) n) = .ok ps := by
  have hstart := ChunkedShards.RelatedBy.new
    (fun s => (⟨s, n * 4, bytesConverter⟩ : TFDataloaderIter Bytes)) shards n hword.1
  have hstep := ChunkedShards.RelatedBy.step (ChunkedShards.steps_nextPair halign hword.2) rfl
    hword.2 fun s w s' => @next_of_call_tf a s s' (n * 4) w
  exact answers_of_related hstep hstart k

/-- Files that the new loader loads are mapped by the legacy loaders, and then, call by
call and whatever the number of elements, both legacy iterators over windows answer what
`iter_bytes` answers, and the one over pairs what `tf_iter_bytes` answers. -/
theorem legacy_streams {host : Host ε} {setup : MmapSetup} {s : MmapStorage}
    (hload : MmapStorage.loadData host setup = .ok s) (a : Arith) (n : ℕ)
    (marker : DataloaderType α) :
    ∃ l lb, MmapPretokenizedDataLoader.mapData host setup.dataFiles = .ok l ∧
      MmapPretokenizedDataLoaderBytes.mapData host setup.dataFiles = .ok lb ∧
      ((Call.sliceSequential (n * 4)).NoOverflow a s.shards →
        ∃ it, (Dataloader.new s n marker).iterBytes a = .ok it ∧ ∀ k, ∃ xs, xs.length = k ∧
          answers (DataloaderIter.next a) k it = .ok xs ∧
          answers (ChunkedShardIter.next a) k (l.iterU8 n) = .ok xs ∧
          answers (ChunkedShards.nextWindow a) k (lb.iter n) = .ok xs) ∧
      ((Call.sliceTfSequential (n * 4)).NoOverflow a s.shards →
        ∃ it, (Dataloader.new s n marker).tfIterBytes a = .ok it ∧ ∀ k, ∃ ps, ps.length = k ∧
          answers (TFDataloaderIter.next a) k it = .ok ps ∧
          answers (ChunkedShards.nextPair a) k (lb.iterTf n) = .ok ps) := by
  have halign := MmapStorage.aligned_of_loadData hload
  have hmap := PretokenizedDataLoader.mapData_of_loadData hload
  obtain ⟨-, rfl⟩ := MmapStorage.loadData_eq_ok.1 hload
  refine ⟨_, _, hmap, hmap, fun hword => ⟨_, ?_, answers_nextWindow halign hword⟩,
    fun hword => ⟨_, ?_, answers_nextPair halign hword⟩⟩
  · simp only [Dataloader.iterBytes, Dataloader.new, mul_of_noOverflow rfl hword, bind, Except.bind]
    rfl
  · simp only [Dataloader.tfIterBytes, Dataloader.new, mul_of_noOverflow rfl hword, bind,
      Except.bind]
    rfl

/-- Two tokens a time from a file of three tokens, an empty one and one of two, in a debug
build, with one call after the end.  A target of two tokens is only left in the first. -/
theorem legacy_streams_three :
    let host : Host Unit := fun path =>
      File.ofBytes (if path = "a.bin" then [1, 0, 0, 0, 2, 0, 0, 0, 3, 0, 0, 0]
        else if path = "b.bin" then [] else [4, 0, 0, 0, 5, 0, 0, 0])
    let setup := MmapSetup.new ["a.bin", "b.bin", "c.bin"]
    ∃ s l lb it tf, MmapStorage.loadData host setup = .ok s ∧
      MmapPretokenizedDataLoader.mapData host setup.dataFiles = .ok l ∧
      MmapPretokenizedDataLoaderBytes.mapData host setup.dataFiles = .ok lb ∧
      (Dataloader.new s 2 u32Converter).iterBytes .debug = .ok it ∧
      answers (DataloaderIter.next .debug) 3 it =
        .ok [some [1, 0, 0, 0, 2, 0, 0, 0], some [4, 0, 0, 0, 5, 0, 0, 0], none] ∧
      answers (ChunkedShardIter.next .debug) 3 (l.iterU8 2) =
        answers (DataloaderIter.next .debug) 3 it ∧
      answers (ChunkedShards.nextWindow .debug) 3 (lb.iter 2) =
        answers (DataloaderIter.next .debug) 3 it ∧
      (Dataloader.new s 2 u32Converter).tfIterBytes .debug = .ok tf ∧
      answers (TFDataloaderIter.next .debug) 3 tf =
        .ok [some ([1, 0, 0, 0, 2, 0, 0, 0], [2, 0, 0, 0, 3, 0, 0, 0]), none, none] ∧
      answers (ChunkedShards.nextPair .debug) 3 (lb.iterTf 2) =
        answers (TFDataloaderIter.next .debug) 3 tf := by
  intro host setup
  have hload : MmapStorage.loadData host setup =
      .ok (MmapStorage.ofShards (host.shards setup.dataFiles)) := rfl
  have hsize : ∀ b ∈ host.shards setup.dataFiles, b.length < 2 ^ 63 := by decide +kernel
  obtain ⟨l, lb, hmap, hmapBytes, hwindows, hpairs⟩ := legacy_streams hload .debug 2 u32Converter
  obtain ⟨it, hit, hanswers⟩ := hwindows (Call.noOverflow_of_lt _ hsize (by decide))
  obtain ⟨xs, -, hnew, hlegacy, hbytes⟩ := hanswers 3
  obtain ⟨tf, htf, hanswers'⟩ := hpairs (Call.noOverflow_of_lt _ hsize (by decide))
  obtain ⟨ps, -, hnew', hlegacy'⟩ := hanswers' 3
  refine ⟨_, l, lb, it, tf, hload, hmap, hmapBytes, hit, ?_, hlegacy.trans hnew.symm,
    hbytes.trans hnew.symm, htf, ?_, hlegacy'.trans hnew'.symm⟩
  · obtain rfl := Except.ok.inj (Eq.symm hit)
    decide +kernel
  · obtain rfl := Except.ok.inj (Eq.symm htf)
    decide +kernel

end Legacy
end Plast
