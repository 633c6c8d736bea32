/-
# Loading fails first or builds an index

The loading loops of `src/storage/mmap/storage.rs` can leave at four places in every round,
and what they accumulate is redundant: elements and bytes, one entry per shard and one more.

`loadSteps` lists what loading one file asks of the operating system and of the file, in
order, and `firstError` is the first failure in the list of files.  Loading returns
just that error (`errorOf_loadWith`).  Otherwise its lists describe the files they
were made from (`Indexed`), and no call touches them or moves the cursor out of the
current shard (`load_consistent`).  Every round of the loop has a host of its own, and every
hint its own answer, so what is listed twice may load once and fail once.
-/

import Plast.Storage.MmapReader
import Mathlib.Algebra.BigOperators.Ring.List
import Mathlib.Algebra.Ring.Nat

namespace Plast

open Machine PrefixSums

variable {ε : Type} {mode : MapMode} {host : Host ε} {adviceSet : AdviceSet} {path : PathBuf}

/-! ### The first failure -/

/-- A mapped file is a whole number of elements. -/
def checkAlignment (mode : MapMode) (file : File ε) (path : PathBuf) :
    Except (DataLoaderError ε) Unit :=
  match file.mmap mode with
  | .ok b => if b.length % 4 = 0 then .ok () else .error (.invalidByteAlignment b.length path)
  | .error _ => .ok ()

/-- What loading one file asks for, in order: to open it, to map it, to take each hint, and
to be aligned. -/
def loadSteps (mode : MapMode) (host : Host ε) (adviceSet : AdviceSet) (path : PathBuf) :
    List (Except (DataLoaderError ε) Unit) :=
  let file := host path
  [file.openFile.mapError fun source => .shardOpenFailed source path,
    ((file.mmap mode).map fun _ => ()).mapError fun source => .memoryMappingFailed source path] ++
  (adviceSet.advice.zipIdx.map fun (advice, i) =>
    (file.advise i advice).mapError fun source => .adviseFailed source advice) ++
  [checkAlignment mode file path]

/-- The error of the first step that fails, of the first file with such a step. -/
def firstError (mode : MapMode) (hosts : ℕ → Host ε) (setup : MmapSetup) :
    Option (DataLoaderError ε) :=
  setup.dataFiles.zipIdx.findSome? fun (path, i) =>
    (loadSteps mode (hosts i) setup.adviceSet path).findSome? errorOf

/-- The hints are given up to the first that is rejected. -/
theorem errorOf_apply (adviceSet : AdviceSet) (file : File ε) :
    errorOf (adviceSet.apply file) =
      (adviceSet.advice.zipIdx.map fun (advice, i) => (file.advise i advice).mapError fun source =>
        DataLoaderError.adviseFailed source advice).findSome? errorOf := by
  rw [List.findSome?_map]
  exact errorOf_forM _ _

/-- A file that does not load fails at the first step that does. -/
theorem errorOf_loadFile (mode : MapMode) (host : Host ε) (adviceSet : AdviceSet) (path : PathBuf) :
    errorOf (loadFile mode host adviceSet path) =
      (loadSteps mode host adviceSet path).findSome? errorOf := by
  have hhints := errorOf_apply adviceSet (host path)
  unfold loadFile loadSteps checkAlignment
  simp only [List.findSome?_append, ← hhints]
  generalize host path = file
  obtain ⟨metadata, openFile, mmap, advise⟩ := file
  cases openFile with
  | error e => rfl
  | ok u =>
    cases hmap : mmap mode with
    | error e =>
      simp only [hmap, Except.map, Except.mapError, bind, Except.bind, List.findSome?_cons, errorOf]
      rfl
    | ok b =>
      simp only [hmap, Except.map, Except.mapError, bind, Except.bind, List.findSome?_cons, errorOf]
      cases adviceSet.apply ⟨metadata, .ok u, mmap, advise⟩ with
      | error e => rfl
      | ok u' =>
        by_cases halign : b.length % 4 = 0
        · simp only [halign, ne_eq, not_true_eq_false, ↓reduceIte]
          rfl
        · simp only [halign, ne_eq, not_false_eq_true, ↓reduceIte]
          rfl

/-- Loading fails with the first error, if there is one. -/
theorem errorOf_loadWith (mode : MapMode) (hosts : ℕ → Host ε) (setup : MmapSetup) :
    errorOf (loadWith mode hosts setup) = firstError mode hosts setup := by
  rw [loadWith_eq, errorOf_map, errorOf_mapM]
  simp only [errorOf_loadFile]
  rfl

/-- A file that loads in the first round rejects a hint in the second, before its length, now
misaligned, is looked at. -/
example :
    let hosts : ℕ → Host Unit := fun round _ =>
      if round = 0 then File.ofBytes [1, 2, 3, 4]
      else { File.ofBytes [1] with advise := fun i _ => if i = 1 then .error () else .ok () }
    firstError .map hosts (MmapSetup.new ["a.bin", "a.bin"]) =
      some (.adviseFailed () .hugePage) := rfl

/-! ### The index -/

/-- A file that loads is what it maps to, a whole number of elements. -/
theorem mmap_of_loadFile {b : Bytes} (h : loadFile mode host adviceSet path = .ok b) :
    (host path).mmap mode = .ok b ∧ b.length % 4 = 0 := by
  unfold loadFile at h
  obtain ⟨u, -, h⟩ := bind_eq_ok.1 h
  obtain ⟨mmap, hmap, h⟩ := bind_eq_ok.1 h
  obtain ⟨u', -, h⟩ := bind_eq_ok.1 h
  by_cases halign : mmap.length % 4 = 0
  · simp only [halign, ne_eq, not_true_eq_false, ↓reduceIte] at h
    obtain rfl := Except.ok.inj h
    exact ⟨mapError_eq_ok.1 hmap, halign⟩
  · simp only [halign, ne_eq, not_false_eq_true, ↓reduceIte] at h
    cases h

namespace MmapStorage

/-- The lists of a storage describe its shards. -/
structure Indexed (s : MmapStorage) : Prop where
  /-- There is one more offset than there are shards. -/
  count : s.shardOffsets.length = s.shards.length + 1
  /-- An offset is the length of the shards before it. -/
  offset : ∀ i ≤ s.shards.length,
    s.shardOffsets[i]? = some ((s.shards.map List.length).take i).sum
  /-- The lengths are counted in elements. -/
  lengths : s.shardLengths.map (· * 4) = s.shards.map List.length
  /-- The last offset is that of the end. -/
  total : s.shardOffsets.getLast? = some (s.totalSize * 4)

theorem indexed_ofShards {shards : List Bytes} (h : ∀ b ∈ shards, b.length % 4 = 0) :
    (ofShards shards).Indexed := by
  have hlengths : (shards.map fun b => b.length / 4).map (· * 4) = shards.map List.length := by
    rw [List.map_map]
    exact List.map_congr_left fun b hb => Nat.div_mul_cancel (Nat.dvd_of_mod_eq_zero (h b hb))
  refine ⟨?_, fun i hi => getElem?_offsets (by rwa [List.length_map]), hlengths, ?_⟩
  · exact (length_offsets _).trans (congrArg (· + 1) (List.length_map _))
  · refine (getLast?_offsets _).trans (congrArg some ?_)
    rw [← hlengths, List.sum_map_mul_right, List.map_id']
    rfl

/-- A moved cursor changes nothing about the index. -/
theorem Indexed.moveTo {s : MmapStorage} (h : s.Indexed) (i o : ℕ) : (s.moveTo i o).Indexed :=
  ⟨h.count, h.offset, h.lengths, h.total⟩

end MmapStorage

/-- A result of loading: the first error of the list, or a storage over the mapped files
whose index is right and stays so in every state that calls lead to, with the cursor
inside the current shard. -/
structure LoadsOrFails (mode : MapMode) (hosts : ℕ → Host ε) (setup : MmapSetup)
    (result : Except (DataLoaderError ε) MmapStorage) : Prop where
  fails : ∀ e, result = .error e ↔ firstError mode hosts setup = some e
  loads : (∃ s, result = .ok s) ↔ firstError mode hosts setup = none
  files : ∀ s, result = .ok s → List.Forall₂ (fun (path, i) b => (hosts i path).mmap mode = .ok b)
    setup.dataFiles.zipIdx s.shards
  keeps : ∀ s, result = .ok s → ∀ a ops ws s', s.run a ops = .ok (ws, s') →
    s'.shards = s.shards ∧ s'.Indexed ∧ s'.InRange

theorem loadWith_consistent (mode : MapMode) (hosts : ℕ → Host ε) (setup : MmapSetup) :
    LoadsOrFails mode hosts setup (loadWith mode hosts setup) := by
  have herror := errorOf_loadWith mode hosts setup
  have hloaded : ∀ s, loadWith mode hosts setup = .ok s → ∃ shards,
      (setup.dataFiles.zipIdx.mapM fun (path, i) =>
        loadFile mode (hosts i) setup.adviceSet path) = .ok shards ∧ s = .ofShards shards := by
    intro s hs
    rw [loadWith_eq] at hs
    obtain ⟨shards, hshards, rfl⟩ := map_eq_ok.1 hs
    exact ⟨shards, hshards, rfl⟩
  refine ⟨fun e => by rw [← herror, errorOf_eq_some], ?_, fun s hs => ?_, ?_⟩
  · rw [← herror]
    cases loadWith mode hosts setup <;> simp [errorOf]
  · obtain ⟨shards, hshards, rfl⟩ := hloaded s hs
    exact (mapM_eq_ok.1 hshards).imp fun _ _ h => (mmap_of_loadFile h).1
  · intro s hs a ops ws s' hrun
    obtain ⟨shards, hshards, rfl⟩ := hloaded s hs
    have halign := forall_of_mapM hshards fun _ _ h => (mmap_of_loadFile h).2
    obtain ⟨i, o, rfl, hin⟩ := MmapStorage.run_moves hrun
    exact ⟨rfl, (MmapStorage.indexed_ofShards halign).moveTo i o,
      hin ⟨Nat.zero_le _, Nat.zero_le _⟩⟩

/-- Both ways of loading fail at the first bad file or build an index that every
operation keeps, whatever the files answer in each round and whichever arithmetic the calls
use.  Files that answer the same in every round (`MmapStorage.loadData`) are a case of it. -/
theorem load_consistent (hosts : ℕ → Host ε) (setup : MmapSetup) :
    LoadsOrFails .map hosts setup (MmapStorage.loadDataIn hosts setup) ∧
      LoadsOrFails .mapMut hosts setup (MmapStorage.loadDataMutIn hosts setup) :=
  ⟨loadWith_consistent .map hosts setup, loadWith_consistent .mapMut hosts setup⟩

end Plast
