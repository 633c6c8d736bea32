/-
# The legacy loaders

`src/legacy/mmap_dataloader.rs`, `src/legacy/mmap_dataloader_bytes.rs` and
`src/legacy/errors.rs`.

The two loaders differ in how they own a mapped file, so here they are one
structure.  The cursor is part of the iterators and not of the loader, and it counts
elements of 4 bytes from the start of a shard.  The iterators over windows test the fit in
elements (`ChunkedShards.nextWindow`), the one over pairs in bytes
(`ChunkedShards.nextPair`).  The first loader also has indexed access
(`PretokenizedDataLoader.getTfBatchU8`), by a binary search of its own.
-/

import Plast.Storage.Mmap
import Plast.Library.Endian

namespace Plast
namespace Legacy

open Endian Machine PrefixSums

variable {ε α : Type}

/-- The enumeration `DataLoaderError` of `src/legacy/errors.rs`. -/
inductive DataLoaderError (ε : Type)
  | shardOpenFailed (source : ε) (path : PathBuf)
  | memoryMappingFailed (source : ε) (path : PathBuf)
  | invalidByteAlignment (size : ℕ) (path : PathBuf)
  deriving DecidableEq, Repr

/-! ### Loading -/

/-- The structs `MmapPretokenizedDataLoader` and `MmapPretokenizedDataLoaderBytes`. -/
structure PretokenizedDataLoader where
  /-- The mapped files. -/
  shards : List Bytes
  /-- The length of each shard in elements of 4 bytes. -/
  shardLengths : List ℕ
  /-- The byte offset of each shard, and the total. -/
  shardOffsets : List ℕ
  /-- The number of elements of all shards. -/
  totalSize : ℕ
  deriving DecidableEq, Repr

/-- The body of the loading loop up to its last early exit.  What `advise` answers is
not looked at. -/
def mapFile (host : Host ε) (path : PathBuf) : Except (DataLoaderError ε) Bytes := do
  (host path).openFile.mapError fun source => .shardOpenFailed source path
  let mmap ← ((host path).mmap .map).mapError fun source => .memoryMappingFailed source path
  let byteLen := mmap.length
  if byteLen % 4 ≠ 0 then
    throw (.invalidByteAlignment byteLen path)
  return mmap

/-- The functions `map_data`, whose loop pushes what the one of `load_data` pushes, with the
answers of each round. -/
def PretokenizedDataLoader.mapDataIn (hosts : ℕ → Host ε) (dataFiles : List PathBuf) :
    Except (DataLoaderError ε) PretokenizedDataLoader := do
  let st ← dataFiles.zipIdx.foldlM
    (fun (st : LoadState) (path, i) => return st.push (← mapFile (hosts i) path))
    ⟨[], [], [], 0, 0⟩
  return {
    shards := st.shards
    shardLengths := st.shardLengths
    shardOffsets := st.shardOffsets ++ [st.currentByteOffset]
    totalSize := st.totalSize }

/-- The functions `map_data`, for files that answer the same in every round. -/
def PretokenizedDataLoader.mapData (host : Host ε) (dataFiles : List PathBuf) :
    Except (DataLoaderError ε) PretokenizedDataLoader :=
  mapDataIn (fun _ => host) dataFiles

abbrev MmapPretokenizedDataLoader := PretokenizedDataLoader

/-- `MmapPretokenizedDataLoader::map_data`. -/
def MmapPretokenizedDataLoader.mapData (host : Host ε) (dataFiles : List PathBuf) :
    Except (DataLoaderError ε) MmapPretokenizedDataLoader :=
  PretokenizedDataLoader.mapData host dataFiles

abbrev MmapPretokenizedDataLoaderBytes := PretokenizedDataLoader

/-- `MmapPretokenizedDataLoaderBytes::map_data`. -/
def MmapPretokenizedDataLoaderBytes.mapData (host : Host ε) (dataFiles : List PathBuf) :
    Except (DataLoaderError ε) MmapPretokenizedDataLoaderBytes :=
  PretokenizedDataLoader.mapData host dataFiles

/-- `total_num_shards`. -/
def PretokenizedDataLoader.totalNumShards (l : PretokenizedDataLoader) : ℕ := l.shards.length

/-! ### Indexed access -/

/-- The two expressions `mmap.get(..)?`: the slices of a window, if they are in bounds. -/
def tfWindow? (a : Arith) (mmap : Bytes) (localStart batchByteLen : ℕ) :
    Except Panic (Option (Bytes × Bytes)) := do
  match slice? mmap localStart (← a.add localStart batchByteLen) with
  | none => return none
  | some input =>
    match slice? mmap (← a.add localStart 4) (← windowEnd a localStart batchByteLen 4) with
    | none => return none
    | some target => return some (input, target)

/-- The `match` on the answer of the binary search. -/
def shardIdx : Except ℕ ℕ → Option ℕ
  | .ok exactMatch => some exactMatch
  | .error insertionPoint => if insertionPoint = 0 then none else some (insertionPoint - 1)

/-- `MmapPretokenizedDataLoader::get_tf_batch_u8`.  The standard library does not say
which of several equal entries `slice::binary_search` finds, so the search is a
parameter. -/
def PretokenizedDataLoader.getTfBatchU8 (a : Arith)
    (binarySearch : List ℕ → ℕ → Except ℕ ℕ) (l : MmapPretokenizedDataLoader)
    (idx batchElements : ℕ) : Except Panic (Option (Bytes × Bytes)) := do
  let batchByteLen ← a.mul batchElements 4
  let globalByteOffset ← a.mul idx batchByteLen
  match shardIdx (binarySearch l.shardOffsets globalByteOffset) with
  | none => return none
  | some shardIdx =>
    if l.shards.length ≤ shardIdx then
      return none
    let localStart ← a.sub globalByteOffset (← index l.shardOffsets shardIdx)
    let shardByteLen ← a.mul (← index l.shardLengths shardIdx) 4
    if (← windowEnd a localStart batchByteLen 4) ≤ shardByteLen then
      tfWindow? a (← index l.shards shardIdx) localStart batchByteLen
    else
      return none

/-! ### Iterators -/

/-- The structs `ChunkedShardIter` and `ChunkedShardBytesIter` without their marker. -/
structure ChunkedShards where
  dataloader : PretokenizedDataLoader
  /-- Elements of the current shard. -/
  currentIdx : ℕ
  currentFileIdx : ℕ
  numElements : ℕ
  deriving DecidableEq, Repr

/-- The functions `new`. -/
def ChunkedShards.new (dataloader : PretokenizedDataLoader) (numElements : ℕ) : ChunkedShards :=
  ⟨dataloader, 0, 0, numElements⟩

/-- The body of `next` that yields one window. -/
def ChunkedShards.nextWindow (a : Arith) (it : ChunkedShards) :
    Except Panic (Option Bytes × ChunkedShards) :=
  if _h : it.currentFileIdx < it.dataloader.totalNumShards then do
    let activeShard ← index it.dataloader.shards it.currentFileIdx
    let shardLenElements ← index it.dataloader.shardLengths it.currentFileIdx
    if (← a.add it.currentIdx it.numElements) ≤ shardLenElements then
      let startByte ← a.mul it.currentIdx 4
      let endByte ← a.add startByte (← a.mul it.numElements 4)
      let byteWindow ← slice activeShard startByte endByte
      return (some byteWindow, { it with currentIdx := ← a.add it.currentIdx it.numElements })
    else
      nextWindow a { it with currentFileIdx := it.currentFileIdx + 1, currentIdx := 0 }
  else
    return (none, it)
termination_by it.dataloader.totalNumShards - it.currentFileIdx

/-- The body of `next` that yields an input and its target. -/
def ChunkedShards.nextPair (a : Arith) (it : ChunkedShards) :
    Except Panic (Option (Bytes × Bytes) × ChunkedShards) :=
  if _h : it.currentFileIdx < it.dataloader.totalNumShards then do
    let activeShard ← index it.dataloader.shards it.currentFileIdx
    let shardByteLen ← a.mul (← index it.dataloader.shardLengths it.currentFileIdx) 4
    let localStart ← a.mul it.currentIdx 4
    let batchByteLen ← a.mul it.numElements 4
    if (← windowEnd a localStart batchByteLen 4) ≤ shardByteLen then
      let pair ← tfWindow a activeShard localStart batchByteLen
      return (some pair, { it with currentIdx := ← a.add it.currentIdx it.numElements })
    else
      nextPair a { it with currentFileIdx := it.currentFileIdx + 1, currentIdx := 0 }
  else
    return (none, it)
termination_by it.dataloader.totalNumShards - it.currentFileIdx

/-- The struct `ChunkedShardBytesIter`, whose `next` is `ChunkedShards.nextWindow` when it
yields slices and `ChunkedShards.nextPair` when it yields pairs. -/
abbrev ChunkedShardBytesIter := ChunkedShards

/-- The trait `bytemuck::Pod`, as far as `cast_slice` of bytes goes: a window starts
and ends at a multiple of 4 in its file, so the cast does not fail. -/
structure Pod (α : Type) where
  castSlice : Bytes → List α

/-- The type `u8`. -/
def Pod.u8 : Pod UInt8 := ⟨fun bytes => bytes⟩

/-- The type `u32` on a machine with the given byte order. -/
def Pod.u32 : ByteOrder → Pod UInt32
  | .little => ⟨decode⟩
  | .big => ⟨fun bytes => (decode bytes).map swapBytes⟩

/-- The type `i32` on a machine with the given byte order. -/
def Pod.i32 (order : ByteOrder) : Pod Int32 :=
  ⟨fun bytes => ((Pod.u32 order).castSlice bytes).map UInt32.toInt32⟩

/-- The struct `ChunkedShardIter`. -/
structure ChunkedShardIter (α : Type) where
  state : ChunkedShards
  marker : Pod α

/-- `ChunkedShardIter::next`. -/
def ChunkedShardIter.next (a : Arith) (it : ChunkedShardIter α) :
    Except Panic (Option (List α) × ChunkedShardIter α) := do
  let (byteWindow, state) ← it.state.nextWindow a
  return (byteWindow.map it.marker.castSlice, { it with state := state })

namespace PretokenizedDataLoader

/-- `MmapPretokenizedDataLoader::iter_u32`. -/
def iterU32 (order : ByteOrder) (l : MmapPretokenizedDataLoader) (numElements : ℕ) :
    ChunkedShardIter UInt32 :=
  ⟨.new l numElements, .u32 order⟩

/-- `MmapPretokenizedDataLoader::iter_u8`. -/
def iterU8 (l : MmapPretokenizedDataLoader) (numElements : ℕ) : ChunkedShardIter UInt8 :=
  ⟨.new l numElements, .u8⟩

/-- `MmapPretokenizedDataLoader::iter_i32`. -/
def iterI32 (order : ByteOrder) (l : MmapPretokenizedDataLoader) (numElements : ℕ) :
    ChunkedShardIter Int32 :=
  ⟨.new l numElements, .i32 order⟩

/-- `MmapPretokenizedDataLoaderBytes::iter`. -/
def iter (l : MmapPretokenizedDataLoaderBytes) (numElements : ℕ) : ChunkedShardBytesIter :=
  .new l numElements

/-- `MmapPretokenizedDataLoaderBytes::iter_tf`. -/
def iterTf (l : MmapPretokenizedDataLoaderBytes) (numElements : ℕ) : ChunkedShardBytesIter :=
  .new l numElements

/-! ### The index -/

/-- The loader over the given shards. -/
def ofShards (shards : List Bytes) : PretokenizedDataLoader where
  shards := shards
  shardLengths := shards.map fun b => b.length / 4
  shardOffsets := offsets (shards.map List.length)
  totalSize := (shards.map fun b => b.length / 4).sum

/-- Mapping reads the files one by one, in order, up to the first that fails, and
indexes what they give. -/
theorem mapDataIn_eq (hosts : ℕ → Host ε) (dataFiles : List PathBuf) :
    mapDataIn hosts dataFiles =
      (dataFiles.zipIdx.mapM fun (path, i) => mapFile (hosts i) path).map ofShards := by
  unfold mapDataIn
  rw [foldlM_push fun file : PathBuf × ℕ => mapFile (hosts file.2) file.1]
  cases dataFiles.zipIdx.mapM fun file => mapFile (hosts file.2) file.1 with
  | error e => rfl
  | ok shards =>
    simp only [Except.map, LoadState.foldl_push, bind, Except.bind, ofShards, offsets_eq_range]
    rfl

theorem mapData_eq (host : Host ε) (dataFiles : List PathBuf) :
    mapData host dataFiles = (dataFiles.mapM (mapFile host)).map ofShards :=
  (mapDataIn_eq (fun _ => host) dataFiles).trans (congrArg _ (mapM_zipIdx _ _))

end PretokenizedDataLoader

/-- A file that the new loader loads is mapped. -/
theorem mapFile_of_loadFile {host : Host ε} {adviceSet : AdviceSet} {path : PathBuf} {b : Bytes}
    (h : loadFile .map host adviceSet path = .ok b) : mapFile host path = .ok b := by
  unfold loadFile at h
  obtain ⟨u, hopen, h⟩ := bind_eq_ok.1 h
  obtain ⟨mmap, hmap, h⟩ := bind_eq_ok.1 h
  obtain ⟨v, -, h⟩ := bind_eq_ok.1 h
  refine bind_eq_ok.2 ⟨u, mapError_eq_ok.2 (mapError_eq_ok.1 hopen),
    bind_eq_ok.2 ⟨mmap, mapError_eq_ok.2 (mapError_eq_ok.1 hmap), ?_⟩⟩
  by_cases halign : mmap.length % 4 ≠ 0
  · simp only [if_pos halign] at h
    cases h
  · simp only [if_neg halign] at h ⊢
    exact congrArg Except.ok (Except.ok.inj h)

/-- A mapped file is aligned. -/
theorem aligned_of_mapFile {host : Host ε} {path : PathBuf} {b : Bytes}
    (h : mapFile host path = .ok b) : b.length % 4 = 0 := by
  unfold mapFile at h
  obtain ⟨-, -, h⟩ := bind_eq_ok.1 h
  obtain ⟨mmap, -, h⟩ := bind_eq_ok.1 h
  by_cases halign : mmap.length % 4 ≠ 0
  · simp only [if_pos halign] at h
    cases h
  · simp only [if_neg halign] at h
    obtain rfl := Except.ok.inj h
    exact not_not.1 halign

/-- A loaded loader indexes aligned shards. -/
theorem PretokenizedDataLoader.eq_of_mapData {host : Host ε} {dataFiles : List PathBuf}
    {l : PretokenizedDataLoader} (h : mapData host dataFiles = .ok l) :
    l = ofShards l.shards ∧ ∀ b ∈ l.shards, b.length % 4 = 0 := by
  rw [mapData_eq] at h
  obtain ⟨shards, hshards, rfl⟩ := map_eq_ok.1 h
  exact ⟨rfl, forall_of_mapM hshards fun _ _ => aligned_of_mapFile⟩

/-- The files of a storage are mapped by the legacy loaders too. -/
theorem PretokenizedDataLoader.mapData_of_loadData {host : Host ε} {setup : MmapSetup}
    {s : MmapStorage} (h : MmapStorage.loadData host setup = .ok s) :
    mapData host setup.dataFiles = .ok (ofShards s.shards) := by
  rw [MmapStorage.loadData_eq] at h
  obtain ⟨shards, hshards, rfl⟩ := map_eq_ok.1 h
  have hfiles : setup.dataFiles.mapM (mapFile host) = .ok shards :=
    mapM_eq_ok.2 ((mapM_eq_ok.1 hshards).imp fun _ _ => mapFile_of_loadFile)
  rw [mapData_eq, hfiles]
  rfl

end Legacy
end Plast
