/-
# Shards read by the machine that wrote them

The legacy loader casts the bytes of a file to `u32` in place, so it reads a word in the
byte order of the machine; the writer stores ids in that order too, and the separator as
little-endian.  Hence on the machine that wrote them the ids come back in either byte
order, and on a big-endian machine the separators do not, unless the separator is its own
byte swap (`legacy_reads_back`).  A reader that takes the files for little-endian has it the
other way round (`decode_concat_iff`).
-/

import Plast.Legacy.AnySize
import Plast.Legacy.Migration
import Plast.Pretokenizer.Corpus

namespace Plast
namespace Legacy

open Endian Machine Chunks

variable {ε ε' : Type} {host : Host ε} {n : ℕ} {eosId : UInt32} {order : ByteOrder}

/-! ### Words in the byte order of the machine -/

/-- A cast reads back the words that the machine has stored. -/
theorem Pod.castSlice_encode (order : ByteOrder) (words : List UInt32) :
    (Pod.u32 order).castSlice (order.encode words) = words := by
  cases order with
  | little => exact decode_encode_little words
  | big =>
    change (decode (ByteOrder.big.encode words)).map swapBytes = words
    rw [decode_encode_big, List.map_map]
    conv_rhs => rw [← List.map_id words]
    exact List.map_congr_left fun x _ => swapBytes_swapBytes x

/-- The chunks of stored words are the stored chunks. -/
theorem chunksExact_encode (order : ByteOrder) (n : ℕ) (words : List UInt32) :
    chunksExact (n * 4) (order.encode words) = (chunksExact n words).map order.encode := by
  induction words using chunksExact.induct n with
  | case1 words hle ih =>
    have hbytes : n * 4 ≤ (order.encode words).length := by
      rw [length_encode]
      omega
    rw [chunksExact_of_le (by omega) hbytes, chunksExact_of_le hle.1 hle.2, Nat.mul_comm n 4,
      take_encode, drop_encode, List.map_cons, Nat.mul_comm 4 n, ih]
  | case2 words hlt =>
    have hnone : chunksExact n words = [] := by rw [chunksExact, if_neg hlt]
    have hbytes : ¬(0 < n * 4 ∧ n * 4 ≤ (order.encode words).length) := by
      rw [length_encode]
      omega
    rw [hnone, chunksExact, if_neg hbytes]
    rfl

/-- Two separators give the same stream when they are the same, or nothing is separated. -/
theorem tokenStream_eq_iff {eosId' : UInt32} (payloads : List Payload) :
    tokenStream eosId' payloads = tokenStream eosId payloads ↔ eosId' = eosId ∨ payloads = [] := by
  cases payloads with
  | nil => exact iff_of_true rfl (Or.inr rfl)
  | cons payload payloads =>
    constructor
    · intro h
      rw [tokenStream, tokenStream, List.flatMap_cons, List.flatMap_cons] at h
      obtain ⟨hhead, -⟩ := List.append_inj h (by simp)
      exact Or.inl (List.singleton_inj.1 (List.append_cancel_left hhead))
    · rintro (rfl | h)
      · rfl
      · cases h

/-! ### Loading what was written -/

theorem mmap_of_mapFile {path : PathBuf} {b : Bytes} (h : mapFile host path = .ok b) :
    (host path).mmap .map = .ok b :=
  File.mmap_of_contents (mapFile_eq_ok.1 h).1

/-- The loader maps what the files hold. -/
theorem PretokenizedDataLoader.shards_of_shows {disk : Disk} (hshow : host.Shows disk)
    {paths : List PathBuf} {files : List Bytes}
    (hfiles : List.Forall₂ (fun path bytes => disk path = some bytes) paths files)
    {l : PretokenizedDataLoader} (h : mapData host paths = .ok l) : l.shards = files := by
  rw [mapData_eq] at h
  obtain ⟨shards, hshards, rfl⟩ := map_eq_ok.1 h
  have hall := mapM_eq_ok.1 hshards
  clear h hshards
  change shards = files
  induction hfiles generalizing shards with
  | nil => exact List.forall₂_nil_left_iff.1 hall
  | cons hfile _ ih =>
    obtain ⟨b, rest, hb, hrest, rfl⟩ := List.forall₂_cons_left_iff.1 hall
    rw [hshow _ _ _ hfile (mmap_of_mapFile hb), ih rest hrest]

/-- An alignment error names a file that is not aligned. -/
theorem mapFile_invalidByteAlignment {path p : PathBuf} {size : ℕ}
    (h : mapFile host path = .error (.invalidByteAlignment size p)) :
    ∃ b, (host path).mmap .map = .ok b ∧ b.length % 4 ≠ 0 := by
  unfold mapFile at h
  cases hopen : (host path).openFile with
  | error e => simp [hopen, Except.mapError, bind, Except.bind] at h
  | ok u =>
    cases hmap : (host path).mmap .map with
    | error e => simp [hopen, hmap, Except.mapError, bind, Except.bind] at h
    | ok b =>
      refine ⟨b, rfl, fun hb => ?_⟩
      simp [hopen, hmap, hb, Except.mapError, bind, Except.bind, pure, Except.pure] at h

theorem PretokenizedDataLoader.mapData_invalidByteAlignment {paths : List PathBuf} {size : ℕ}
    {p : PathBuf} (h : mapData host paths = .error (.invalidByteAlignment size p)) :
    ∃ path ∈ paths, ∃ b, (host path).mmap .map = .ok b ∧ b.length % 4 ≠ 0 := by
  rw [mapData_eq] at h
  cases hfiles : paths.mapM (mapFile host) with
  | ok shards => simp [hfiles, Except.map] at h
  | error e =>
    rw [hfiles] at h
    obtain rfl := Except.error.inj h
    obtain ⟨path, hpath, he⟩ := exists_of_mapM_error hfiles
    exact ⟨path, hpath, mapFile_invalidByteAlignment he⟩

/-! ### The round trip -/

/-- One token at a time. -/
theorem chunksExact_one {α : Type} (xs : List α) : chunksExact 1 xs = xs.map fun x => [x] := by
  induction xs with
  | nil => exact chunksExact_of_lt Nat.one_pos
  | cons x xs ih =>
    have hle : 1 ≤ (x :: xs).length := Nat.succ_le_succ (Nat.zero_le _)
    rw [chunksExact_of_le Nat.one_pos hle, List.map_cons, ← ih]
    rfl

theorem flatMap_chunksExact_one {α : Type} (blocks : List (List α)) :
    blocks.flatMap (chunksExact 1) = blocks.flatten.map fun x => [x] := by
  rw [List.flatMap_def, List.map_flatten, funext (chunksExact_one (α := α))]

theorem fromLe_eq_iff (x : UInt32) : order.fromLe x = x ↔ order = .little ∨ swapBytes x = x := by
  cases order with
  | little => exact iff_of_true rfl (Or.inl rfl)
  | big => exact (or_iff_right nofun).symm

/-- The loader counts the words. -/
theorem PretokenizedDataLoader.totalSize_encode (order : ByteOrder) (blocks : List (List UInt32)) :
    (ofShards (blocks.map order.encode)).totalSize = blocks.flatten.length := by
  simp only [ofShards, List.map_map, List.length_flatten]
  refine congrArg List.sum (List.map_congr_left fun block _ => ?_)
  rw [Function.comp_apply, length_encode, Nat.mul_div_cancel_left _ (by decide)]

/-- **Written and read on one machine.**  Without an I/O failure the returned paths never
give an alignment error, and a loader that has mapped them yields the stream of the
records, file by file and in full batches of any size, in every build and either byte
order, with the separator as the machine reads it.  Token by token that is the token stream
exactly on a little-endian machine, for a separator that is its own byte swap, or when
there are no records. -/
theorem legacy_reads_back {writer : WriterHost ε} (hio : ∀ k, (writer.io k).result = .ok ())
    (args : WriterArgs) (disk : Disk) (payloads : List Payload) :
    ∃ paths disk', pretokenizeDataset writer args disk payloads = .ok (paths, disk') ∧
      ∀ host : Host ε', host.Shows disk' →
        (∀ size path, MmapPretokenizedDataLoader.mapData host paths ≠
          .error (.invalidByteAlignment size path)) ∧
        ∀ l, MmapPretokenizedDataLoader.mapData host paths = .ok l →
          (∀ b ∈ l.shards, b.length < 2 ^ 63) → ∀ a,
          (∃ blocks, blocks.flatten = tokenStream (writer.order.fromLe args.eosId) payloads ∧
            List.Forall₂ (fun path block => disk' path = some (writer.order.encode block))
              paths blocks ∧
            l.totalSize = blocks.flatten.length ∧
            ∀ n, 1 ≤ n → n < 2 ^ 64 → ∀ items,
              (∃ it', Drains (ChunkedShardIter.Answers a) (l.iterU32 writer.order n) items it') ↔
                items = blocks.flatMap (chunksExact n)) ∧
          ((∃ it', Drains (ChunkedShardIter.Answers a) (l.iterU32 writer.order 1)
              ((tokenStream args.eosId payloads).map fun id => [id]) it') ↔
            writer.order = .little ∨ swapBytes args.eosId = args.eosId ∨ payloads = []) := by
  obtain ⟨v, hv, hfiled⟩ := pretokenizeDataset_eq hio args disk payloads
  have hfiles := hfiled.files_eq
  simp only [records_native] at hfiles
  generalize hblocks : (Batches.pack (recordSize writer.order args.eosId) args.shardSizeBytes
    payloads).map (tokenStream (writer.order.fromLe args.eosId)) = blocks
  have hflat : blocks.flatten = tokenStream (writer.order.fromLe args.eosId) payloads := by
    rw [← hblocks, ← tokenStream_flatten, Batches.flatten_pack]
  have hholds : List.Forall₂ (fun path block => v.disk path = some (writer.order.encode block))
      v.generatedShards blocks := by
    rw [← hblocks]
    exact List.forall₂_map_right_iff.2 hfiles
  have hbytes : List.Forall₂ (fun path bytes => v.disk path = some bytes) v.generatedShards
      (blocks.map writer.order.encode) := List.forall₂_map_right_iff.2 hholds
  refine ⟨_, _, hv, fun host hshow => ⟨fun size path h => ?_, fun l hmap hsize a => ?_⟩⟩
  · obtain ⟨p, hp, b, hb, hlen⟩ := PretokenizedDataLoader.mapData_invalidByteAlignment h
    refine hlen (hshow.aligned hbytes (List.forall_mem_map.2 fun block _ => ?_) p hp b hb)
    rw [length_encode, Nat.mul_mod_right]
  · have hshards := PretokenizedDataLoader.shards_of_shows hshow hbytes hmap
    -- a drain casts the chunks of the stored blocks
    have hdrains : ∀ n, 1 ≤ n → n < 2 ^ 64 → ∀ items,
        (∃ it', Drains (ChunkedShardIter.Answers a) (l.iterU32 writer.order n) items it') ↔
          items = blocks.flatMap (chunksExact n) := by
      intro n hn hword items
      refine (ChunkedShardIter.drains_casts_iff hmap hsize a hword _ items).trans ?_
      rw [and_iff_right (Or.inl hn), hshards, List.flatMap_map]
      simp only [chunksExact_encode, List.map_flatMap, List.map_map]
      simp only [Function.comp_def, Pod.castSlice_encode, List.map_id']
    refine ⟨⟨blocks, hflat, hholds, ?_, hdrains⟩, ?_⟩
    · rw [(PretokenizedDataLoader.eq_of_mapData hmap).1, hshards]
      exact PretokenizedDataLoader.totalSize_encode writer.order blocks
    · rw [hdrains 1 (Nat.le_refl 1) (by decide), flatMap_chunksExact_one, hflat,
        (List.map_injective_iff.2 List.singleton_injective).eq_iff, eq_comm, tokenStream_eq_iff,
        fromLe_eq_iff, or_assoc]

/-- Big-endian, the id comes back and the separator does not. -/
theorem legacy_reads_back_big :
    ∃ paths disk' l it', pretokenizeDataset (WriterHost.reliable .big : WriterHost Unit)
        ⟨"out", 16, 7⟩ (fun _ => none) [[1]] = .ok (paths, disk') ∧
      MmapPretokenizedDataLoader.mapData
        (fun path => File.ofBytes ((disk' path).getD []) : Host Unit) paths = .ok l ∧
      Drains (ChunkedShardIter.Answers .release) (l.iterU32 .big 2) [[1, 0x07000000]] it' ∧
      ∀ it', ¬Drains (ChunkedShardIter.Answers .release) (l.iterU32 .big 1) [[1], [7]] it' := by
  obtain ⟨paths, disk', hrun, hread⟩ := @legacy_reads_back Unit Unit (WriterHost.reliable .big)
    (fun _ => rfl) ⟨"out", 16, 7⟩ (fun _ => none) [[1]]
  have hfile : (pretokenizeDataset (WriterHost.reliable .big : WriterHost Unit)
      ⟨"out", 16, 7⟩ (fun _ => none) [[1]]).toOption.map (fun r =>
        (r.1, r.2 "out/pretokenized_shard_0.bin")) =
      some (["out/pretokenized_shard_0.bin"], some [0, 0, 0, 1, 7, 0, 0, 0]) := by
    decide +kernel
  rw [hrun] at hfile
  obtain ⟨rfl, hbytes⟩ := Prod.mk.inj (Option.some.inj hfile)
  have hmap : MmapPretokenizedDataLoader.mapData
      (fun path => File.ofBytes ((disk' path).getD []) : Host Unit)
      ["out/pretokenized_shard_0.bin"] = .ok (.ofShards [[0, 0, 0, 1, 7, 0, 0, 0]]) := by
    refine (PretokenizedDataLoader.mapData_eq _ _).trans (map_eq_ok.2 ⟨_, mapM_eq_ok.2
      (.cons ?_ .nil), rfl⟩)
    rw [mapFile, show disk' "out/pretokenized_shard_0.bin" = _ from hbytes]
    rfl
  obtain ⟨⟨blocks, hflat, hholds, -, hdrains⟩, hseparator⟩ :=
    (hread _ (Host.shows_ofBytes disk')).2 _ hmap (by decide) .release
  obtain ⟨block, rest, -, hrest, rfl⟩ := List.forall₂_cons_left_iff.1 hholds
  obtain rfl := List.forall₂_nil_left_iff.1 hrest
  rw [List.flatten_singleton] at hflat
  subst hflat
  obtain ⟨it', hdrain⟩ := (hdrains 2 (by decide) (by decide) [[1, 0x07000000]]).2 (by decide +kernel)
  refine ⟨_, disk', _, it', hrun, hmap, hdrain, fun it' h => ?_⟩
  obtain h | h | h := hseparator.1 ⟨it', h⟩
  · cases h
  · exact absurd h (by decide)
  · cases h

end Legacy
end Plast
