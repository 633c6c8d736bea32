/-
# Training over files that fail

`BufferStorage::load_data` only asks for the lengths of the files; its worker opens and maps
them later, and dies at the first that fails.  The consumer cannot tell this from the end of
the data, so the first epoch ends without an error after the files in front.  The workers of
the later epochs pass over what fails, and these epochs go through all files that are left,
after the last shard of the epoch before (`failing_epochs`).
-/

import Plast.Dataloader.Training

namespace Plast

open Machine BlockReader Chunks

variable {ε α : Type} {host : Host ε} {files : List PathBuf}

/-- The files in front of the first that cannot be opened or mapped. -/
def Host.goodFront (host : Host ε) (files : List PathBuf) : List PathBuf :=
  files.takeWhile fun path => (host path).contents.isSome

/-- The shards that epoch `k` over a prefetching storage goes through. -/
def Host.epochShards (host : Host ε) (files : List PathBuf) : ℕ → List Bytes
  | 0 => host.shards (host.goodFront files)
  | 1 => (host.shards (host.goodFront files)).getLast?.toList ++ host.shards files
  | _ + 2 => (host.shards files).getLast?.toList ++ host.shards files

/-- The worker of `load_data` delivers the files in front of the first that fails. -/
theorem Spawn.delivered_loadData (host : Host ε) (files : List PathBuf) :
    Spawn.loadData.delivered host files = host.shards (host.goodFront files) := by
  induction files with
  | nil => rfl
  | cons path files ih =>
    rw [delivered_cons, ih, Host.goodFront, Host.goodFront, List.takeWhile_cons]
    cases hc : (host path).contents with
    | none => rfl
    | some bytes => simp [Host.shards_cons, hc]

theorem Host.shards_goodFront_prefix (host : Host ε) (files : List PathBuf) :
    host.shards (host.goodFront files) <+: host.shards files :=
  (List.takeWhile_prefix _).filterMap _

/-- Loaded, a prefetching storage is a reader of these files that has not started. -/
theorem BufferSystem.loadData_readsAs {bufferSize : ℕ} {sys : BufferSystem}
    (hload : loadData host files bufferSize = .ok sys) :
    (Storage.buffer sys).ReadsAs host files true
      (fresh (host.shards (host.goodFront files))) := by
  obtain ⟨lens, -, rfl⟩ := loadData_eq_ok.1 hload
  exact ⟨⟨⟨rfl, rfl, rfl, rfl⟩, ⟨rfl, rfl⟩, rfl,
    congrArg (State.mk none 0) (Spawn.delivered_loadData host files)⟩, rfl⟩

theorem epochBlocks_failing (host : Host ε) (files : List PathBuf) (k : ℕ) :
    epochBlocks true (host.shards (host.goodFront files)) (host.shards files) k =
      host.epochShards files k := by
  match k with
  | 0 => rfl
  | 1 => rfl
  | _ + 2 => rfl

/-- **Epochs over files that fail.**  Whatever files the workers cannot open or map, on every
schedule a training run over a prefetching storage yields in its first epoch the full chunks
of the files in front of the first of them, and in every later one those of the last shard
of the epoch before and of all other files; and likewise the pairs.  There are such runs of any
number of epochs.  The memory-mapped storage refuses such files. -/
theorem failing_epochs {bufferSize : ℕ} {sys : BufferSystem}
    (hload : BufferSystem.loadData host files bufferSize = .ok sys) {n : ℕ} (hn : 1 ≤ n)
    (marker : DataloaderType α) :
    (∀ epochs, (∃ d', Repeats (StorageLoader.Epoch host (StorageLoader.IterNext host))
        ⟨.buffer sys, n, marker⟩ epochs d') ↔
      epochs = (List.range epochs.length).map fun k =>
        ((host.epochShards files k).flatMap (chunksExact (n * 4))).map marker.convert) ∧
    (∀ epochs, (∃ d', Repeats (StorageLoader.Epoch host (StorageLoader.TfIterNext host))
        ⟨.buffer sys, n, marker⟩ epochs d') ↔
      epochs = (List.range epochs.length).map fun k =>
        ((host.epochShards files k).flatMap (shiftedChunks (n * 4) 4)).map
          fun p => (marker.convert p.1, marker.convert p.2)) ∧
    ∀ path ∈ files, (host path).contents = none →
      ∀ adviceSet s, MmapStorage.loadData host ⟨files, adviceSet⟩ ≠ .ok s := by
  have hreads := BufferSystem.loadData_readsAs hload
  have hfirst : host.shards files = [] → host.shards (host.goodFront files) = [] := fun h =>
    List.prefix_nil.1 (h ▸ host.shards_goodFront_prefix files)
  refine ⟨fun epochs => ?_, fun epochs => ?_, fun path hpath hbad adviceSet s hs => ?_⟩
  · rw [StorageLoader.iter_epochs_iff hfirst hreads hn]
    simp only [epochBlocks_failing]
  · rw [StorageLoader.tfIter_epochs_iff hfirst hreads hn]
    simp only [epochBlocks_failing]
  · obtain ⟨b, hb, -⟩ := (MmapStorage.loadData_eq_ok.1 hs).1 path hpath
    cases hbad.symm.trans hb

/-- Three files of one token, of which the second cannot be opened: the first epoch loses the
third, and the next two begin with what the one before ended with. -/
theorem failing_epochs_three :
    let host : Host Unit := fun path =>
      if path = "a.bin" then File.ofBytes [1, 0, 0, 0]
      else if path = "b.bin" then { File.ofBytes [2, 0, 0, 0] with openFile := .error () }
      else File.ofBytes [3, 0, 0, 0]
    ∃ sys, BufferSystem.loadData host ["a.bin", "b.bin", "c.bin"] 1 = .ok sys ∧
      ∃ d', Repeats (StorageLoader.Epoch host (StorageLoader.IterNext host))
        ⟨.buffer sys, 1, u32Converter⟩ [[[1]], [[1], [1], [3]], [[3], [1], [3]]] d' := by
  intro host
  obtain ⟨sys, hload⟩ : ∃ sys, BufferSystem.loadData host ["a.bin", "b.bin", "c.bin"] 1 = .ok sys :=
    ⟨_, rfl⟩
  refine ⟨sys, hload, ((failing_epochs hload (Nat.le_refl 1) u32Converter).1 _).2 ?_⟩
  have hchunks : ∀ b : Bytes, b.length = 4 → chunksExact 4 b = [b] := fun b hb =>
    chunksExact_of_length_eq (by decide) hb
  have hshards : host.shards ["a.bin", "b.bin", "c.bin"] = [[1, 0, 0, 0], [3, 0, 0, 0]] := by
    decide +kernel
  have hfront : host.shards (host.goodFront ["a.bin", "b.bin", "c.bin"]) = [[1, 0, 0, 0]] := by
    decide +kernel
  simp only [List.length_cons, List.length_nil, List.range_succ, List.range_zero, hshards, hfront,
    Host.epochShards, List.map_append, List.map_cons, List.map_nil, List.flatMap_append,
    List.flatMap_cons, List.flatMap_nil, Nat.one_mul, Nat.zero_add,
    hchunks [1, 0, 0, 0] rfl, hchunks [3, 0, 0, 0] rfl]
  decide +kernel

end Plast
