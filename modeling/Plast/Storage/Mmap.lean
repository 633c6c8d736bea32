/-
# The memory-mapped storage

`src/storage/mmap/storage.rs`, `src/storage/mmap/setup.rs` and
`src/storage/mmap/advice_set.rs`.

`MmapStorage::load_data` builds four parallel lists in one loop over the files
and stops at the first file that cannot be opened, mapped or advised or whose
length is not a multiple of 4.  `loadData_eq` separates the two concerns: the
files are loaded one by one, and what they give is indexed by
`MmapStorage.ofShards`.

The sequential methods are loops over `current_shard_idx` and `local_cursor`
that differ in the lookahead of their fit test, so both are `sequentialLoop`
followed by the slices of their window.  The arithmetic is a parameter
(`Machine.Arith`).  Options that only select how a file is opened or mapped are
part of the answers of the `Host`.
-/

import Plast.Storage.Basic
import Plast.Library.PrefixSums
import Mathlib.Data.List.Induction

namespace Plast

open Machine PrefixSums

variable {ε : Type}

/-! ### Setup -/

/-- The struct `AdviceSet`. -/
structure AdviceSet where
  advice : List Advice
  deriving DecidableEq, Repr

/-- `AdviceSet::empty`. -/
def AdviceSet.empty : AdviceSet := ⟨[]⟩

/-- `AdviceSet::default` on Linux. -/
def AdviceSet.default : AdviceSet := ⟨[.sequential, .hugePage]⟩

/-- `AdviceSet::apply`: every hint in order, up to the first that is rejected. -/
def AdviceSet.apply (set : AdviceSet) (mmap : File ε) : Except (DataLoaderError ε) Unit :=
  set.advice.zipIdx.forM fun (advice, i) =>
    (mmap.advise i advice).mapError fun source => .adviseFailed source advice

/-- The struct `MmapSetup`, as far as it is not an argument of a system call. -/
structure MmapSetup where
  dataFiles : List PathBuf
  adviceSet : AdviceSet
  deriving DecidableEq, Repr

/-- `MmapSetup::new` on Linux. -/
def MmapSetup.new (dataFiles : List PathBuf) : MmapSetup := ⟨dataFiles, AdviceSet.default⟩

/-! ### Loading -/

/-- The struct `MmapStorage`. -/
structure MmapStorage where
  /-- The mapped files. -/
  shards : List Bytes
  /-- The length of each shard in elements of 4 bytes. -/
  shardLengths : List ℕ
  /-- The byte offset of each shard, and the total. -/
  shardOffsets : List ℕ
  /-- The number of elements of all shards. -/
  totalSize : ℕ
  currentShardIdx : ℕ
  localCursor : ℕ
  deriving DecidableEq, Repr

/-- The variables of the loading loop. -/
structure LoadState where
  shards : List Bytes
  shardLengths : List ℕ
  shardOffsets : List ℕ
  totalSize : ℕ
  currentByteOffset : ℕ

/-- The body of the loading loop up to its last early exit: open, map, advise, and
check the alignment. -/
def loadFile (mode : MapMode) (host : Host ε) (adviceSet : AdviceSet) (path : PathBuf) :
    Except (DataLoaderError ε) Bytes := do
  (host path).openFile.mapError fun source => .shardOpenFailed source path
  let mmap ← ((host path).mmap mode).mapError fun source => .memoryMappingFailed source path
  adviceSet.apply (host path)
  let byteLen := mmap.length
  if byteLen % 4 ≠ 0 then
    throw (.invalidByteAlignment byteLen path)
  return mmap

/-- The rest of the body of the loading loop. -/
def LoadState.push (st : LoadState) (bytes : Bytes) : LoadState :=
  let byteLen := bytes.length
  let numElements := byteLen / 4
  { shardOffsets := st.shardOffsets ++ [st.currentByteOffset]
    currentByteOffset := st.currentByteOffset + byteLen
    totalSize := st.totalSize + numElements
    shardLengths := st.shardLengths ++ [numElements]
    shards := st.shards ++ [bytes] }

/-- The loop of `load_data` and `load_data_mut`, which differ in how they map.  In round `i`
the files answer as `hosts i`. -/
def loadWith (mode : MapMode) (hosts : ℕ → Host ε) (setup : MmapSetup) :
    Except (DataLoaderError ε) MmapStorage := do
  let st ← setup.dataFiles.zipIdx.foldlM
    (fun (st : LoadState) (path, i) =>
      return st.push (← loadFile mode (hosts i) setup.adviceSet path))
    ⟨[], [], [], 0, 0⟩
  return {
    shards := st.shards
    shardLengths := st.shardLengths
    -- the terminal boundary
    shardOffsets := st.shardOffsets ++ [st.currentByteOffset]
    totalSize := st.totalSize
    currentShardIdx := 0
    localCursor := 0 }

/-- `MmapStorage::load_data`, with the answers of each round. -/
def MmapStorage.loadDataIn (hosts : ℕ → Host ε) (setup : MmapSetup) :
    Except (DataLoaderError ε) MmapStorage :=
  loadWith .map hosts setup

/-- `MmapStorage::load_data_mut`, with the answers of each round. -/
def MmapStorage.loadDataMutIn (hosts : ℕ → Host ε) (setup : MmapSetup) :
    Except (DataLoaderError ε) MmapStorage :=
  loadWith .mapMut hosts setup

/-- `MmapStorage::load_data` of files that answer the same in every round. -/
def MmapStorage.loadData (host : Host ε) (setup : MmapSetup) :
    Except (DataLoaderError ε) MmapStorage :=
  loadDataIn (fun _ => host) setup

namespace MmapStorage

/-- `Storage::len`. -/
def len (s : MmapStorage) : ℕ := s.totalSize

/-- `Storage::clear_state`. -/
def clearState (s : MmapStorage) : MmapStorage := { s with localCursor := 0, currentShardIdx := 0 }

/-! ### Random access -/

/-- `MmapStorage::locate`. -/
def locate (a : Arith) (s : MmapStorage) (globalInx : ℕ) : Except Panic (ℕ × ℕ) := do
  let idx ← a.sub (partitionPoint (fun off => decide (off ≤ globalInx)) s.shardOffsets) 1
  let localOffset ← a.sub globalInx (← index s.shardOffsets idx)
  return (idx, localOffset)

/-- The common part of the random-access methods: the shard and the local offset
of a range that fits with its lookahead. -/
def findRange (a : Arith) (s : MmapStorage) (start stop lookahead : ℕ) :
    Except Panic (Option (Bytes × ℕ × ℕ)) := do
  let reqLen ← a.sub stop start
  let totalBytes := s.shardOffsets.getLast?.getD 0
  if reqLen = 0 ∨ totalBytes < stop then
    return none
  let (shardIdx, localOffset) ← s.locate a start
  let activeShard ← index s.shards shardIdx
  if (← windowEnd a localOffset reqLen lookahead) ≤ activeShard.length then
    return some (activeShard, localOffset, reqLen)
  else
    return none

/-- `Storage::slice_random` on the range `start..stop`. -/
def sliceRandom (a : Arith) (s : MmapStorage) (start stop : ℕ) : Except Panic (Option Bytes) := do
  match ← s.findRange a start stop 0 with
  | some (shard, localOffset, reqLen) => return some (← plainWindow a shard localOffset reqLen)
  | none => return none

/-- `Storage::slice_tf_random` on the range `start..stop`. -/
def sliceTfRandom (a : Arith) (s : MmapStorage) (start stop : ℕ) :
    Except Panic (Option (Bytes × Bytes)) := do
  match ← s.findRange a start stop 4 with
  | some (shard, localOffset, reqLen) => return some (← tfWindow a shard localOffset reqLen)
  | none => return none

/-! ### Sequential access -/

/-- The `while` loop of the sequential methods: skip shards until the request and
its lookahead fit after the cursor, then move the cursor past the request.  The
hit is the shard and the position the window starts at. -/
def sequentialLoop (a : Arith) (reqLen lookahead : ℕ) (s : MmapStorage) :
    Except Panic (Option (Bytes × ℕ) × MmapStorage) :=
  if h : s.currentShardIdx < s.shards.length then do
    let activeShard := s.shards[s.currentShardIdx]
    if (← windowEnd a s.localCursor reqLen lookahead) ≤ activeShard.length then
      let start := s.localCursor
      return (some (activeShard, start), { s with localCursor := ← a.add s.localCursor reqLen })
    else
      sequentialLoop a reqLen lookahead
        { s with currentShardIdx := s.currentShardIdx + 1, localCursor := 0 }
  else
    return (none, s)
termination_by s.shards.length - s.currentShardIdx

/-- `Storage::slice_sequential`. -/
def sliceSequential (a : Arith) (s : MmapStorage) (reqLen : ℕ) :
    Except Panic (Option Bytes × MmapStorage) := do
  match ← s.sequentialLoop a reqLen 0 with
  | (some (shard, start), s') => return (some (← plainWindow a shard start reqLen), s')
  | (none, s') => return (none, s')

/-- `Storage::slice_tf_sequential`. -/
def sliceTfSequential (a : Arith) (s : MmapStorage) (reqLen : ℕ) :
    Except Panic (Option (Bytes × Bytes) × MmapStorage) := do
  match ← s.sequentialLoop a reqLen 4 with
  | (some (shard, start), s') => return (some (← tfWindow a shard start reqLen), s')
  | (none, s') => return (none, s')

/-- One sequential call. -/
def call (a : Arith) (s : MmapStorage) : Call → Except Panic (Option Window × MmapStorage)
  | .sliceSequential reqLen => do
    let (w, s') ← s.sliceSequential a reqLen
    return (w.map .plain, s')
  | .sliceTfSequential reqLen => do
    let (w, s') ← s.sliceTfSequential a reqLen
    return (w.map fun p => .tf p.1 p.2, s')

/-- A script of sequential calls and `clear_state`: the results of the calls. -/
def run (a : Arith) : List Op → MmapStorage → Except Panic (List (Option Window) × MmapStorage)
  | [], s => return ([], s)
  | .read c :: ops, s => do
    let (w, s') ← s.call a c
    let (ws, s'') ← run a ops s'
    return (w :: ws, s'')
  | .restart :: ops, s => run a ops s.clearState

end MmapStorage

/-! ### The index -/

/-- The storage over the given shards, before anything is read. -/
def MmapStorage.ofShards (shards : List Bytes) : MmapStorage where
  shards := shards
  shardLengths := shards.map fun b => b.length / 4
  shardOffsets := offsets (shards.map List.length)
  totalSize := (shards.map fun b => b.length / 4).sum
  currentShardIdx := 0
  localCursor := 0

/-- The offsets pushed by the loading loop. -/
theorem range_map_sum_take (l : List ℕ) (n : ℕ) :
    (List.range (l.length + 1)).map (fun i => ((l ++ [n]).take i).sum) =
      (List.range l.length).map (fun i => (l.take i).sum) ++ [l.sum] := by
  have htake : ∀ i ≤ l.length, (l ++ [n]).take i = l.take i := fun i hi =>
    List.take_append_of_le_length hi
  rw [List.range_succ, List.map_append, List.map_singleton, htake _ le_rfl, List.take_length]
  congr 1
  exact List.map_congr_left fun i hi => by rw [htake i (List.mem_range.1 hi).le]

/-- The loading loop keeps its four lists in step. -/
theorem LoadState.foldl_push (shards : List Bytes) :
    shards.foldl LoadState.push ⟨[], [], [], 0, 0⟩ =
      ⟨shards, shards.map fun b => b.length / 4,
        (List.range shards.length).map fun i => ((shards.map List.length).take i).sum,
        (shards.map fun b => b.length / 4).sum, (shards.map List.length).sum⟩ := by
  induction shards using List.reverseRecOn with
  | nil => rfl
  | append_singleton shards b ih =>
    have hoff := range_map_sum_take (shards.map List.length) b.length
    rw [List.length_map] at hoff
    rw [List.foldl_append, ih]
    simp [LoadState.push, hoff]

/-- A loop that loads each file and pushes it loads all files and then pushes. -/
theorem foldlM_push {α δ : Type} (load : α → Except δ Bytes) (files : List α)
    (st : LoadState) :
    files.foldlM (fun (st : LoadState) path => return st.push (← load path)) st =
      (files.mapM load).map fun shards => shards.foldl LoadState.push st := by
  induction files generalizing st with
  | nil => rfl
  | cons path files ih =>
    simp only [List.foldlM_cons, List.mapM_cons]
    cases load path with
    | error e => rfl
    | ok b =>
      refine (ih (st.push b)).trans ?_
      cases hfiles : files.mapM load <;> simp [bind, Except.bind, Except.map, pure, Except.pure]

/-- The offsets that the loop pushes, and the terminal boundary. -/
theorem offsets_eq_range (shards : List Bytes) : offsets (shards.map List.length) =
    (List.range shards.length).map (fun i => ((shards.map List.length).take i).sum) ++
      [(shards.map List.length).sum] := by
  rw [offsets, List.length_map, List.range_succ, List.map_append, List.map_singleton,
    List.take_of_length_le (by rw [List.length_map])]

/-- Loading reads the files one by one, in order, up to the first that fails, and
indexes what they give. -/
theorem loadWith_eq (mode : MapMode) (hosts : ℕ → Host ε) (setup : MmapSetup) :
    loadWith mode hosts setup = (setup.dataFiles.zipIdx.mapM fun (path, i) =>
      loadFile mode (hosts i) setup.adviceSet path).map MmapStorage.ofShards := by
  unfold loadWith
  rw [foldlM_push fun file : PathBuf × ℕ => loadFile mode (hosts file.2) setup.adviceSet file.1]
  cases setup.dataFiles.zipIdx.mapM fun file =>
      loadFile mode (hosts file.2) setup.adviceSet file.1 with
  | error e => rfl
  | ok shards =>
    simp only [Except.map, LoadState.foldl_push, bind, Except.bind, MmapStorage.ofShards,
      offsets_eq_range]
    rfl

/-- The files that answer the same in every round are loaded one by one. -/
theorem MmapStorage.loadData_eq (host : Host ε) (setup : MmapSetup) : loadData host setup =
    (setup.dataFiles.mapM (loadFile .map host setup.adviceSet)).map ofShards :=
  (loadWith_eq .map (fun _ => host) setup).trans (congrArg _ (mapM_zipIdx _ _))

/-- A file is loaded when it opens, maps, takes every hint and is aligned. -/
theorem loadFile_eq_ok {host : Host ε} {adviceSet : AdviceSet} {path : PathBuf} {b : Bytes} :
    loadFile .map host adviceSet path = .ok b ↔
      (host path).contents = some b ∧ adviceSet.apply (host path) = .ok () ∧ b.length % 4 = 0 := by
  unfold loadFile File.contents
  cases (host path).openFile with
  | error e => simp [Except.mapError, bind, Except.bind]
  | ok u =>
    cases (host path).mmap .map with
    | error e => simp [Except.mapError, bind, Except.bind]
    | ok b' =>
      cases adviceSet.apply (host path) with
      | error e => simp [Except.mapError, bind, Except.bind]
      | ok u' =>
        by_cases halign : b'.length % 4 = 0
        · simp only [Except.mapError, bind, Except.bind, halign, ne_eq, not_true_eq_false, ↓reduceIte,
            pure, Except.pure, Except.ok.injEq, Option.some.injEq, true_and]
          exact ⟨fun h => ⟨h, h ▸ halign⟩, fun h => h.1⟩
        · simp only [Except.mapError, bind, Except.bind, halign, ne_eq, not_false_eq_true, ↓reduceIte,
            throw, throwThe, MonadExceptOf.throw, Option.some.injEq, true_and]
          constructor
          · intro h
            cases h
          · rintro ⟨rfl, h⟩
            exact absurd h halign

/-- The hints are rejected for one of them. -/
theorem AdviceSet.apply_eq_error {set : AdviceSet} {mmap : File ε} {e : DataLoaderError ε}
    (h : set.apply mmap = .error e) : ∃ source advice, e = .adviseFailed source advice := by
  obtain ⟨⟨advice, i⟩, -, hrejected⟩ := exists_of_forM_error h
  obtain ⟨source, -, rfl⟩ := mapError_eq_error.1 hrejected
  exact ⟨source, advice, rfl⟩

/-- A file is rejected for its alignment only when it maps to a length that is not a
multiple of 4. -/
theorem loadFile_invalidByteAlignment {mode : MapMode} {host : Host ε} {adviceSet : AdviceSet}
    {path path' : PathBuf} {size : ℕ}
    (h : loadFile mode host adviceSet path = .error (.invalidByteAlignment size path')) :
    ∃ b, (host path).mmap mode = .ok b ∧ b.length % 4 ≠ 0 := by
  unfold loadFile at h
  cases hopen : (host path).openFile with
  | error e => simp [hopen, Except.mapError, bind, Except.bind] at h
  | ok u =>
    cases hmap : (host path).mmap mode with
    | error e => simp [hopen, hmap, Except.mapError, bind, Except.bind] at h
    | ok b =>
      cases hadvice : adviceSet.apply (host path) with
      | error e =>
        simp only [hopen, hmap, hadvice, Except.mapError, bind, Except.bind,
          Except.error.injEq] at h
        obtain ⟨source, advice, rejected⟩ := AdviceSet.apply_eq_error hadvice
        cases rejected.symm.trans h
      | ok u' =>
        refine ⟨b, rfl, fun halign => ?_⟩
        simp [hopen, hmap, hadvice, halign, Except.mapError, bind, Except.bind, pure,
          Except.pure] at h

/-- The files load when each of them does, and they give their contents. -/
theorem mapM_loadFile {host : Host ε} {adviceSet : AdviceSet} {files : List PathBuf}
    {shards : List Bytes} :
    files.mapM (loadFile .map host adviceSet) = .ok shards ↔
      (∀ path ∈ files, ∃ b, (host path).contents = some b ∧
        adviceSet.apply (host path) = .ok () ∧ b.length % 4 = 0) ∧
      shards = host.shards files := by
  rw [mapM_eq_ok]
  induction files generalizing shards with
  | nil => simp [Host.shards]
  | cons path files ih =>
    rw [List.forall₂_cons_left_iff, List.forall_mem_cons]
    constructor
    · rintro ⟨b, rest, hb, hrest, rfl⟩
      obtain ⟨hall, rfl⟩ := ih.1 hrest
      have hb := loadFile_eq_ok.1 hb
      exact ⟨⟨⟨b, hb⟩, hall⟩, by simp [Host.shards, hb.1]⟩
    · rintro ⟨⟨⟨b, hb⟩, hall⟩, rfl⟩
      exact ⟨b, host.shards files, loadFile_eq_ok.2 hb, ih.2 ⟨hall, rfl⟩,
        by simp [Host.shards, hb.1]⟩

/-- Loading succeeds when every file loads, and the storage is then built over
their contents. -/
theorem MmapStorage.loadData_eq_ok {host : Host ε} {setup : MmapSetup} {s : MmapStorage} :
    loadData host setup = .ok s ↔
      (∀ path ∈ setup.dataFiles, ∃ b, (host path).contents = some b ∧
        setup.adviceSet.apply (host path) = .ok () ∧ b.length % 4 = 0) ∧
      s = ofShards (host.shards setup.dataFiles) := by
  rw [loadData_eq, map_eq_ok]
  constructor
  · rintro ⟨shards, hshards, rfl⟩
    obtain ⟨hall, rfl⟩ := mapM_loadFile.1 hshards
    exact ⟨hall, rfl⟩
  · rintro ⟨hall, rfl⟩
    exact ⟨_, mapM_loadFile.2 ⟨hall, rfl⟩, rfl⟩

/-- Every shard of a loaded storage is a whole number of elements. -/
theorem MmapStorage.aligned_of_loadData {host : Host ε} {setup : MmapSetup} {s : MmapStorage}
    (h : loadData host setup = .ok s) : ∀ b ∈ s.shards, b.length % 4 = 0 := by
  obtain ⟨hall, rfl⟩ := loadData_eq_ok.1 h
  intro b hb
  obtain ⟨path, hpath, hcontents⟩ := List.mem_filterMap.1 hb
  obtain ⟨b', hb', -, halign⟩ := hall path hpath
  rwa [Option.some.inj (hcontents.symm.trans hb')]

/-- Loading reports a misaligned file only when there is one. -/
theorem MmapStorage.loadData_invalidByteAlignment {host : Host ε} {setup : MmapSetup}
    {path : PathBuf} {size : ℕ}
    (h : loadData host setup = .error (.invalidByteAlignment size path)) :
    ∃ p ∈ setup.dataFiles, ∃ b, (host p).mmap .map = .ok b ∧ b.length % 4 ≠ 0 := by
  rw [loadData_eq] at h
  cases hfiles : setup.dataFiles.mapM (loadFile .map host setup.adviceSet) with
  | error e =>
    simp only [hfiles, Except.map, Except.error.injEq] at h
    obtain ⟨p, hp, hload⟩ := exists_of_mapM_error hfiles
    exact ⟨p, hp, loadFile_invalidByteAlignment (h ▸ hload)⟩
  | ok shards => simp [hfiles, Except.map] at h

end Plast
