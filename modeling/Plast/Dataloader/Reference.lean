/-
# What a drain yields

The iterators of `src/dataloader/iterators.rs` against two one-shot references.
Draining `iter_bytes` over a loaded storage cuts every shard into full chunks
(`Dataloader.iterBytes_drains`), and draining `tf_iter` pairs every chunk with the
one that starts a token later (`Dataloader.tfIter_drains`).  `iter` and `tf_iter`
yield the images under the converter.

Both start from a storage that was just loaded, or that `clear_state` has reset
after any calls (`Dataloader.Ready`), and hold in every build profile as long as
no sum overflows (`Call.NoOverflow`).
-/

import Plast.Dataloader.Epoch
import Plast.Library.Chunks

namespace Plast

open Machine BlockReader Chunks

variable {ε α : Type} {a : Arith}

/-- The loader has `s₀` as it was loaded, or as `clear_state` left it after any
script of calls. -/
def Dataloader.Ready (a : Arith) (s₀ : MmapStorage) (d : Dataloader α) : Prop :=
  d.storage = s₀ ∨ ∃ ops ws s, s₀.run a ops = .ok (ws, s) ∧ d.storage = s.clearState

/-- A loader that is ready is like a fresh one. -/
theorem Dataloader.Ready.storage_eq {host : Host ε} {setup : MmapSetup} {s₀ : MmapStorage}
    {d : Dataloader α} (h : d.Ready a s₀) (hload : MmapStorage.loadData host setup = .ok s₀) :
    d.storage = MmapStorage.ofShards s₀.shards := by
  obtain ⟨-, rfl⟩ := MmapStorage.loadData_eq_ok.1 hload
  rcases h with h | ⟨ops, ws, s, hrun, h⟩
  · exact h
  · obtain ⟨i, o, rfl, -⟩ := MmapStorage.run_moves hrun
    exact h

/-- The length of a request for `num_elements` tokens. -/
theorem mul_of_noOverflow {c : Call} {n : ℕ} {shards : List Bytes} (hc : c.reqLen = n * 4)
    (hword : c.NoOverflow a shards) : a.mul n bytesPerToken = .ok (n * 4) :=
  (hword.1.mono (by change n * 4 ≤ _; omega)).mul

/-! ### Windows as chunks -/

/-- The plain windows of a shard are its chunks. -/
theorem plainWindows_eq {r : ℕ} (hr : 0 < r) (shard : Bytes) :
    (windows (Call.sliceSequential r).request shard 0).map (Call.sliceSequential r).view =
      (chunksExact r shard).map .plain := by
  rw [chunksExact_eq hr, windows, List.map_map, List.map_map]
  refine List.map_congr_left fun k _ => ?_
  simp only [Function.comp_apply, Call.view, Call.request, Call.reqLen, Nat.zero_add]

/-- The teacher-forcing windows of a shard are its pairs. -/
theorem tfWindows_eq {r : ℕ} (hr : 0 < r) (shard : Bytes) :
    (windows (Call.sliceTfSequential r).request shard 0).map (Call.sliceTfSequential r).view =
      (shiftedChunks r 4 shard).map fun p => .tf p.1 p.2 := by
  rw [shiftedChunks_eq hr, windows, List.map_map, List.map_map]
  refine List.map_congr_left fun k _ => ?_
  simp only [Function.comp_apply, Call.view, Call.request, Call.reqLen, Nat.zero_add]

/-- Draining a fresh storage by `slice_sequential` yields the chunks of every shard. -/
theorem MmapStorage.slices_drains {r : ℕ} {shards : List Bytes} (hr : 0 < r)
    (hword : (Call.sliceSequential r).NoOverflow a shards) :
    ∃ s', Drains (Slices a r) (ofShards shards) (shards.flatMap (chunksExact r)) s' := by
  obtain ⟨s', hs'⟩ := drains_windows (c := .sliceSequential r) hr hword
  obtain ⟨chunks, t, hchunks, hmap, -⟩ := drains_plain.1 hs'
  have hwindows : (shards.flatMap (windows (Call.sliceSequential r).request · 0)).map
      (Call.sliceSequential r).view = (shards.flatMap (chunksExact r)).map .plain := by
    rw [List.map_flatMap, List.map_flatMap]
    exact congrArg (List.flatMap · shards) (funext (plainWindows_eq hr))
  have hinj : Function.Injective Window.plain := fun _ _ h => Window.plain.inj h
  obtain rfl := (List.map_injective_iff.2 hinj) (hmap.symm.trans hwindows)
  exact ⟨t, hchunks⟩

/-- Draining a fresh storage by `slice_tf_sequential` yields the pairs of every shard. -/
theorem MmapStorage.slicesTf_drains {r : ℕ} {shards : List Bytes} (hr : 0 < r)
    (hword : (Call.sliceTfSequential r).NoOverflow a shards) :
    ∃ s', Drains (SlicesTf a r) (ofShards shards) (shards.flatMap (shiftedChunks r 4)) s' := by
  obtain ⟨s', hs'⟩ := drains_windows (c := .sliceTfSequential r) hr hword
  obtain ⟨pairs, t, hpairs, hmap, -⟩ := drains_tf.1 hs'
  have hwindows : (shards.flatMap (windows (Call.sliceTfSequential r).request · 0)).map
      (Call.sliceTfSequential r).view =
        (shards.flatMap (shiftedChunks r 4)).map fun p => .tf p.1 p.2 := by
    rw [List.map_flatMap, List.map_flatMap]
    exact congrArg (List.flatMap · shards) (funext (tfWindows_eq hr))
  obtain rfl := (List.map_injective_iff.2 Window.tf_injective) (hmap.symm.trans hwindows)
  exact ⟨t, hpairs⟩

/-! ### The two drains -/

/-- Draining the iterator `it` ends, and yields exactly `items`. -/
def DataloaderIter.Yields (a : Arith) (it : DataloaderIter α) (items : List α) : Prop :=
  ∀ xs, (∃ it', Drains (Answers a) it xs it') ↔ xs = items

/-- Draining the teacher-forcing iterator `it` ends, and yields exactly `items`. -/
def TFDataloaderIter.Yields (a : Arith) (it : TFDataloaderIter α) (items : List (α × α)) : Prop :=
  ∀ xs, (∃ it', Drains (Answers a) it xs it') ↔ xs = items

/-- An iterator over a storage that drains to `chunks` yields them, converted. -/
theorem DataloaderIter.yields_of_slices {s s' : MmapStorage} {r : ℕ} {chunks : List Bytes}
    (h : Drains (MmapStorage.Slices a r) s chunks s') (marker : DataloaderType α) :
    (DataloaderIter.mk s r marker).Yields a (chunks.map marker.convert) := by
  have hfun : ∀ (it : DataloaderIter α) y y', it.Answers a y → it.Answers a y' → y = y' :=
    fun it y y' hy hy' => Except.ok.inj ((Eq.symm hy).trans hy')
  exact (DataloaderIter.drains_iff.2 ⟨chunks, s', h, rfl, rfl⟩).exists_iff hfun

/-- A teacher-forcing iterator over a storage that drains to `pairs` yields them,
converted. -/
theorem TFDataloaderIter.yields_of_slicesTf {s s' : MmapStorage} {r : ℕ}
    {pairs : List (Bytes × Bytes)} (h : Drains (MmapStorage.SlicesTf a r) s pairs s')
    (marker : DataloaderType α) : (TFDataloaderIter.mk s r marker).Yields a
      (pairs.map fun p => (marker.convert p.1, marker.convert p.2)) := by
  have hfun : ∀ (it : TFDataloaderIter α) y y', it.Answers a y → it.Answers a y' → y = y' :=
    fun it y y' hy hy' => Except.ok.inj ((Eq.symm hy).trans hy')
  exact (TFDataloaderIter.drains_iff.2 ⟨pairs, s', h, rfl, rfl⟩).exists_iff hfun

/-- Repeating `next` on `iter_bytes` ends, and yields all full chunks of every shard in
order; only what is left of a shard after its last full chunk is dropped.  `iter`
yields the same chunks, converted. -/
theorem Dataloader.iterBytes_yields {host : Host ε} {setup : MmapSetup} {s₀ : MmapStorage}
    {d : Dataloader α} (hload : MmapStorage.loadData host setup = .ok s₀) (hready : d.Ready a s₀)
    (hn : 1 ≤ d.numElements)
    (hword : (Call.sliceSequential (d.numElements * 4)).NoOverflow a s₀.shards) :
    (∃ it, d.iterBytes a = .ok it ∧
      it.Yields a (s₀.shards.flatMap (chunksExact (4 * d.numElements)))) ∧
    (∃ it, d.iter a = .ok it ∧
      it.Yields a ((s₀.shards.flatMap (chunksExact (4 * d.numElements))).map d.marker.convert)) ∧
    ∀ shard ∈ s₀.shards,
      (∀ chunk ∈ chunksExact (4 * d.numElements) shard, chunk.length = 4 * d.numElements) ∧
      (chunksExact (4 * d.numElements) shard).flatten ++
        shard.drop (shard.length - shard.length % (4 * d.numElements)) = shard := by
  obtain ⟨s', hs'⟩ := MmapStorage.slices_drains (show 0 < d.numElements * 4 by omega) hword
  have hmul := mul_of_noOverflow rfl hword
  rw [← hready.storage_eq hload] at hs'
  rw [Nat.mul_comm 4]
  have hbytes := DataloaderIter.yields_of_slices hs' bytesConverter
  rw [show bytesConverter.convert = id from rfl, List.map_id] at hbytes
  refine ⟨⟨_, ?_, hbytes⟩, ⟨_, ?_, DataloaderIter.yields_of_slices hs' d.marker⟩, fun shard _ =>
    ⟨fun chunk => length_of_mem_chunksExact, flatten_chunksExact (by omega) shard⟩⟩
  · simp only [iterBytes, hmul, bind, Except.bind, pure, Except.pure]
  · simp only [iter, hmul, bind, Except.bind, pure, Except.pure]

/-- Two tokens a time from a file of five tokens and one of one, in a release build: the
fifth token is dropped, and so is the second file. -/
theorem Dataloader.iterBytes_yields_five :
    let host : Host Unit := fun path =>
      File.ofBytes (if path = "a.bin" then
        [1, 0, 0, 0, 2, 0, 0, 0, 3, 0, 0, 0, 4, 0, 0, 0, 5, 0, 0, 0] else [6, 0, 0, 0])
    ∃ s it, MmapStorage.loadData host (MmapSetup.new ["a.bin", "b.bin"]) = .ok s ∧
      (Dataloader.new s 2 u32Converter).iterBytes .release = .ok it ∧
      it.Yields .release [[1, 0, 0, 0, 2, 0, 0, 0], [3, 0, 0, 0, 4, 0, 0, 0]] := by
  intro host
  have hload : MmapStorage.loadData host (MmapSetup.new ["a.bin", "b.bin"]) =
      .ok (MmapStorage.ofShards (host.shards ["a.bin", "b.bin"])) := rfl
  have hsize : ∀ b ∈ host.shards ["a.bin", "b.bin"], b.length < 2 ^ 63 := by decide +kernel
  obtain ⟨⟨it, hit, hyields⟩, -, -⟩ := iterBytes_yields (a := .release)
    (d := Dataloader.new (MmapStorage.ofShards (host.shards ["a.bin", "b.bin"])) 2 u32Converter)
    hload (Or.inl rfl) (by decide) (Call.noOverflow_of_lt _ hsize (by decide))
  refine ⟨_, it, hload, hit, ?_⟩
  have hitems : (host.shards ["a.bin", "b.bin"]).flatMap (chunksExact 8) =
      [[1, 0, 0, 0, 2, 0, 0, 0], [3, 0, 0, 0, 4, 0, 0, 0]] := by decide +kernel
  exact hitems ▸ hyields

/-- Repeating `next` on `tf_iter` ends, and yields the pairs of every shard in order,
converted: a chunk and the chunk one token later, as long as both are full.  The
last token of a target is the first of the next input from the same shard, and a
shard of at least 4 bytes has as many pairs as chunks fit after its first token. -/
theorem Dataloader.tfIter_yields {host : Host ε} {setup : MmapSetup} {s₀ : MmapStorage}
    {d : Dataloader α} (hload : MmapStorage.loadData host setup = .ok s₀) (hready : d.Ready a s₀)
    (hn : 1 ≤ d.numElements)
    (hword : (Call.sliceTfSequential (d.numElements * 4)).NoOverflow a s₀.shards) :
    (∃ it, d.tfIter a = .ok it ∧
      it.Yields a ((s₀.shards.flatMap (shiftedChunks (4 * d.numElements) 4)).map fun p =>
        (d.marker.convert p.1, d.marker.convert p.2))) ∧
    ∀ shard ∈ s₀.shards,
      (∀ (k : ℕ) (x y x' y' : Bytes), (shiftedChunks (4 * d.numElements) 4 shard)[k]? = some (x, y) →
        (shiftedChunks (4 * d.numElements) 4 shard)[k + 1]? = some (x', y') →
          y.drop (4 * d.numElements - 4) = x'.take 4) ∧
      (4 ≤ shard.length → (shiftedChunks (4 * d.numElements) 4 shard).length =
        (shard.length - 4) / (4 * d.numElements)) := by
  have hr : 0 < 4 * d.numElements := by omega
  obtain ⟨s', hs'⟩ := MmapStorage.slicesTf_drains (show 0 < d.numElements * 4 by omega) hword
  have hmul := mul_of_noOverflow rfl hword
  rw [← hready.storage_eq hload, Nat.mul_comm] at hs'
  rw [Nat.mul_comm] at hmul
  refine ⟨⟨_, ?_, TFDataloaderIter.yields_of_slicesTf hs' d.marker⟩, fun shard _ => ⟨?_, fun _ => ?_⟩⟩
  · simp only [tfIter, hmul, bind, Except.bind, pure, Except.pure]
  · exact fun k x y x' y' => drop_eq_take_of_shiftedChunks hr (by omega)
  · exact length_shiftedChunks hr 4 shard

/-- One token a time from a file of three tokens and one of one, in a debug build: two
pairs, and none from the second file. -/
theorem Dataloader.tfIter_yields_three :
    let host : Host Unit := fun path =>
      File.ofBytes (if path = "a.bin" then [1, 0, 0, 0, 2, 0, 0, 0, 3, 0, 0, 0] else [4, 0, 0, 0])
    ∃ s it, MmapStorage.loadData host (MmapSetup.new ["a.bin", "b.bin"]) = .ok s ∧
      (Dataloader.new s 1 bytesConverter).tfIter .debug = .ok it ∧
      it.Yields .debug [([1, 0, 0, 0], [2, 0, 0, 0]), ([2, 0, 0, 0], [3, 0, 0, 0])] := by
  intro host
  have hload : MmapStorage.loadData host (MmapSetup.new ["a.bin", "b.bin"]) =
      .ok (MmapStorage.ofShards (host.shards ["a.bin", "b.bin"])) := rfl
  have hsize : ∀ b ∈ host.shards ["a.bin", "b.bin"], b.length < 2 ^ 63 := by decide +kernel
  obtain ⟨⟨it, hit, hyields⟩, -⟩ := tfIter_yields (a := .debug)
    (d := Dataloader.new (MmapStorage.ofShards (host.shards ["a.bin", "b.bin"])) 1 bytesConverter)
    hload (Or.inl rfl) (by decide) (Call.noOverflow_of_lt _ hsize (by decide))
  refine ⟨_, it, hload, hit, ?_⟩
  have hitems : ((host.shards ["a.bin", "b.bin"]).flatMap (shiftedChunks 4 4)).map
      (fun p => (bytesConverter.convert p.1, bytesConverter.convert p.2)) =
        [([1, 0, 0, 0], [2, 0, 0, 0]), ([2, 0, 0, 0], [3, 0, 0, 0])] := by decide +kernel
  exact hitems ▸ hyields

end Plast
