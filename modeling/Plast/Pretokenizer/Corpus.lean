/-
# From payloads to training pairs

What the shard files say to a reader that takes them for little-endian `u32`, as
the documentation of `pretokenize_dataset` and of `DataloaderType` describes the
format.

The separator is always written as little-endian, the ids in the byte order of
the machine.  On a little-endian machine the files decode to the token stream,
every payload followed by the separator; on a big-endian machine only if every
id is its own byte swap (`decode_concat_iff`).

On a little-endian machine the files can be loaded and drained
(`pretokenize_then_train`): the shards are cut at record borders, hence aligned,
the windows of a shard are windows of its tokens (`tfWindows_encode`), and their
places in the whole stream are those of `ShiftedPairs.positions`.
-/

import Plast.Pretokenizer.Shards
import Plast.Dataloader.Loader
import Plast.Library.ShiftedPairs

namespace Plast

open Endian Machine BlockReader ShiftedPairs

/-- The token stream of a corpus: every payload, followed by the separator. -/
def tokenStream (eosId : UInt32) (payloads : List Payload) : List UInt32 :=
  payloads.flatMap fun payload => payload ++ [eosId]

variable {ε : Type} {eosId : UInt32}

theorem tokenStream_flatten (groups : List (List Payload)) :
    tokenStream eosId groups.flatten = (groups.map (tokenStream eosId)).flatten := by
  induction groups with
  | nil => rfl
  | cons group groups ih =>
    rw [List.flatten_cons, tokenStream, List.flatMap_append]
    exact congrArg (_ ++ ·) ih

/-- On a little-endian machine the records are the token stream. -/
theorem records_little (payloads : List Payload) :
    records .little eosId payloads = ByteOrder.little.encode (tokenStream eosId payloads) := by
  induction payloads with
  | nil => rfl
  | cons payload payloads ih =>
    rw [records, List.flatMap_cons, tokenStream, List.flatMap_cons, encode_append, encode_append]
    exact congrArg (record .little eosId payload ++ ·) ih

/-- To the machine that wrote them, the records are the payloads, every one followed by the
separator as it reads it. -/
theorem records_native (order : ByteOrder) (payloads : List Payload) :
    records order eosId payloads = order.encode (tokenStream (order.fromLe eosId) payloads) := by
  induction payloads with
  | nil => rfl
  | cons payload payloads ih =>
    have hseparator : order.encode [order.fromLe eosId] = toLeBytes eosId := by
      rw [ByteOrder.encode, List.flatMap_singleton, toNeBytes_fromLe]
    rw [records, List.flatMap_cons, tokenStream, List.flatMap_cons, encode_append, encode_append,
      hseparator]
    exact congrArg (record order eosId payload ++ ·) ih

/-! ### Decoding -/

/-- On a big-endian machine the ids are read with their bytes swapped, and the
separator as it is. -/
theorem decode_records_big (payloads : List Payload) :
    decode (records .big eosId payloads) =
      payloads.flatMap fun payload => payload.map swapBytes ++ [eosId] := by
  induction payloads with
  | nil => rfl
  | cons payload payloads ih =>
    have hids : (ByteOrder.big.encode payload).length % 4 = 0 := by
      rw [length_encode, Nat.mul_mod_right]
    rw [records, List.flatMap_cons, record, List.append_assoc, decode_append hids,
      decode_encode_big, decode_toLeBytes_append, List.flatMap_cons, List.append_assoc]
    exact congrArg (payload.map swapBytes ++ eosId :: ·) ih

/-- The swapped stream is the stream when every id is its own swap. -/
theorem swapped_eq_iff (payloads : List Payload) :
    (payloads.flatMap fun payload => payload.map swapBytes ++ [eosId]) =
        tokenStream eosId payloads ↔
      ∀ payload ∈ payloads, ∀ id ∈ payload, swapBytes id = id := by
  induction payloads with
  | nil => simp [tokenStream]
  | cons payload payloads ih =>
    have hself : payload.map swapBytes = payload ↔ ∀ id ∈ payload, swapBytes id = id := by
      conv_lhs => rw [← List.map_id payload, List.map_map]
      exact List.map_inj_left
    rw [List.forall_mem_cons, ← hself, ← ih, tokenStream, List.flatMap_cons, List.flatMap_cons]
    constructor
    · intro h
      have hlen : (payload.map swapBytes ++ [eosId]).length = (payload ++ [eosId]).length := by
        simp
      obtain ⟨hhead, htail⟩ := List.append_inj h hlen
      exact ⟨List.append_cancel_right hhead, htail⟩
    · rintro ⟨hhead, htail⟩
      rw [hhead, htail]
      rfl

theorem decode_records_iff (order : ByteOrder) (payloads : List Payload) :
    decode (records order eosId payloads) = tokenStream eosId payloads ↔
      order = .little ∨ ∀ payload ∈ payloads, ∀ id ∈ payload, swapBytes id = id := by
  cases order with
  | little => simp [records_little, decode_encode_little]
  | big => simp [decode_records_big, swapped_eq_iff]

/-- Exactly when do the shard files decode to the token stream?  On a little-endian
machine always; on a big-endian one when every id of every payload is its own
byte swap. -/
theorem decode_concat_iff {host : WriterHost ε} (hio : ∀ k, (host.io k).result = .ok ())
    (args : WriterArgs) (disk : Disk) (payloads : List Payload) :
    ∃ paths disk', pretokenizeDataset host args disk payloads = .ok (paths, disk') ∧
      (decode (disk'.concat paths) = tokenStream args.eosId payloads ↔
        host.order = .little ∨ ∀ payload ∈ payloads, ∀ id ∈ payload, swapBytes id = id) := by
  obtain ⟨v, hv, hfiled⟩ := pretokenizeDataset_eq hio args disk payloads
  refine ⟨_, _, hv, ?_⟩
  rw [hfiled.concat, Batches.flatten_pack]
  exact decode_records_iff host.order payloads

/-- An id that reads the same both ways survives on a big-endian machine. -/
theorem decode_concat_palindrome :
    ∃ paths disk', pretokenizeDataset (WriterHost.reliable .big : WriterHost Unit)
        ⟨"out", 16, 7⟩ (fun _ => none) [[0x01020201]] = .ok (paths, disk') ∧
      decode (disk'.concat paths) = [0x01020201, 7] := by
  obtain ⟨paths, disk', hrun, hiff⟩ := @decode_concat_iff Unit (WriterHost.reliable .big)
    (fun _ => rfl) ⟨"out", 16, 7⟩ (fun _ => none) [[0x01020201]]
  have hswap : swapBytes 0x01020201 = 0x01020201 := rfl
  exact ⟨paths, disk', hrun, hiff.2 (Or.inr (by simpa using hswap))⟩

/-- The id 1 does not. -/
theorem decode_concat_swapped :
    ∃ paths disk', pretokenizeDataset (WriterHost.reliable .big : WriterHost Unit)
        ⟨"out", 16, 7⟩ (fun _ => none) [[1]] = .ok (paths, disk') ∧
      decode (disk'.concat paths) = [0x01000000, 7] ∧
      decode (disk'.concat paths) ≠ tokenStream 7 [[1]] := by
  obtain ⟨v, hv, hfiled⟩ := @pretokenizeDataset_eq Unit (WriterHost.reliable .big)
    (fun _ => rfl) ⟨"out", 16, 7⟩ (fun _ => none) [[1]]
  have hfiles : v.disk.concat v.generatedShards = records .big 7 [[1]] := by
    rw [hfiled.concat, Batches.flatten_pack]
    rfl
  refine ⟨_, _, hv, ?_⟩
  rw [hfiles]
  decide

/-! ### Training pairs -/

/-- The teacher-forcing windows of a shard are the pairs of its tokens. -/
theorem tfWindows_encode (n : ℕ) (tokens : List UInt32) :
    (windows (Call.sliceTfSequential (n * 4)).request (ByteOrder.little.encode tokens) 0).map
        (Call.sliceTfSequential (n * 4)).view =
      (blockPairs n tokens).map fun p =>
        .tf (ByteOrder.little.encode p.1) (ByteOrder.little.encode p.2) := by
  have hcount : ((ByteOrder.little.encode tokens).length - 0 - 4) / (n * 4) =
      (tokens.length - 1) / n := by
    rw [length_encode, ← Nat.mul_div_mul_right _ n (show 0 < 4 by decide)]
    congr 1
    omega
  have hplace : ∀ i j o p, o = 4 * i → p = 4 * j → (ByteOrder.little.encode tokens).extract o p =
      ByteOrder.little.encode (tokens.extract i j) := by
    rintro i j _ _ rfl rfl
    exact extract_encode _ _ _ _
  simp only [windows, Call.request, Call.reqLen, Call.lookahead, hcount, blockPairs, List.map_map]
  refine List.map_congr_left fun k _ => ?_
  simp only [Function.comp_apply, Call.view, pairAt]
  have hk : 0 + k * (n * 4) = 4 * (k * n) := by
    rw [Nat.zero_add, ← Nat.mul_assoc, Nat.mul_comm]
  rw [hplace (k * n) (k * n + n) _ _ hk (by omega),
    hplace (k * n + 1) (k * n + 1 + n) _ _ (by omega) (by omega)]

/-- Draining a teacher-forcing iterator over little-endian shards yields the pairs of
the whole stream at their positions. -/
theorem TFDataloaderIter.drains_pairs {n : ℕ} (hn : 1 ≤ n) (blocks : List (List UInt32)) :
    ∃ it', Drains (Answers .unbounded)
      ⟨MmapStorage.ofShards (blocks.map ByteOrder.little.encode), n * 4, u32Converter⟩
      ((positions n 0 blocks).flatten.map (pairAt n blocks.flatten)) it' := by
  let c : Call := .sliceTfSequential (n * 4)
  have hpos : 0 < c.reqLen := Nat.mul_pos hn (by decide)
  obtain ⟨s', hs'⟩ := MmapStorage.drains_windows hpos
    (Call.noOverflow_unbounded c (blocks.map ByteOrder.little.encode))
  obtain ⟨pairs, t, hpairs, hmap, -⟩ := MmapStorage.drains_tf.1 hs'
  -- what the storage yields are the encoded pairs
  have hwindows : ((blocks.map ByteOrder.little.encode).flatMap (windows c.request · 0)).map
      c.view = ((blocks.flatMap (blockPairs n)).map fun p => (ByteOrder.little.encode p.1,
        ByteOrder.little.encode p.2)).map fun p => Window.tf p.1 p.2 := by
    rw [List.flatMap_map, List.map_flatMap, List.map_flatMap, List.map_flatMap]
    refine congrArg (List.flatMap · blocks) (funext fun tokens => ?_)
    rw [List.map_map]
    exact tfWindows_encode n tokens
  obtain rfl := (List.map_injective_iff.2 Window.tf_injective) (hmap.symm.trans hwindows)
  refine ⟨_, TFDataloaderIter.drains_iff.2 ⟨_, t, hpairs, ?_, rfl⟩⟩
  have hpre := flatMap_blockPairs n [] blocks
  rw [List.length_nil, List.nil_append] at hpre
  rw [← hpre, List.map_map]
  conv_lhs => rw [← List.map_id (blocks.flatMap (blockPairs n))]
  refine List.map_congr_left fun p _ => ?_
  simp only [Function.comp_apply, u32Converter, decode_encode_little, id]

/-! ### The whole way -/

/-- What a file maps to is what the disk holds. -/
def Host.Shows (host : Host ε) (disk : Disk) : Prop :=
  ∀ path bytes b, disk path = some bytes → (host path).mmap .map = .ok b → b = bytes

theorem Host.shows_ofBytes (disk : Disk) :
    Host.Shows (fun path => File.ofBytes ((disk path).getD []) : Host ε) disk := by
  intro path bytes b hdisk hmap
  obtain rfl := Except.ok.inj hmap
  rw [hdisk, Option.getD_some]

/-- No system call that loading makes for these files fails. -/
def Host.Succeeds (host : Host ε) (files : List PathBuf) (adviceSet : AdviceSet) : Prop :=
  ∀ path ∈ files, (host path).openFile = .ok () ∧ (∃ b, (host path).mmap .map = .ok b) ∧
    ∀ hint ∈ adviceSet.advice.zipIdx, (host path).advise hint.2 hint.1 = .ok ()

/-- Draining `tf_iter` over `s` with `n` yields pairs of the stream `tokens`: an input,
and the tokens one further on.  The places of the pairs, file by file, never
overlap, lie inside their file, and a file of `m` tokens has `(m - 1) / n` of them. -/
def TrainsOn (disk : Disk) (paths : List PathBuf) (tokens : List UInt32) (n : ℕ)
    (s : MmapStorage) : Prop :=
  ∃ it items it', (Dataloader.new s n u32Converter).tfIter .unbounded = .ok it ∧
    Drains (TFDataloaderIter.Answers .unbounded) it items it' ∧
    ∃ places : List (List ℕ),
      items = places.flatten.map (fun p =>
        (tokens.extract p (p + n), tokens.extract (p + 1) (p + 1 + n))) ∧
      (∀ p ∈ places.flatten, p + n + 1 ≤ tokens.length) ∧
      places.flatten.Pairwise (fun p q => p + n ≤ q) ∧
      List.Forall₂ (fun path ps => ∃ bytes, disk path = some bytes ∧
        ps.length = (bytes.length / 4 - 1) / n) paths places ∧
      ∀ i ps, places[i]? = some ps → ∀ p ∈ ps,
        (disk.concat (paths.take i)).length ≤ 4 * p ∧
          4 * (p + n + 1) ≤ (disk.concat (paths.take (i + 1))).length

section Shows

variable {disk : Disk} {paths : List PathBuf} {files : List Bytes}

/-- Aligned files are seen aligned. -/
theorem Host.Shows.aligned {host : Host ε} (hshow : host.Shows disk)
    (h : List.Forall₂ (fun path bytes => disk path = some bytes) paths files)
    (halign : ∀ bytes ∈ files, bytes.length % 4 = 0) :
    ∀ path ∈ paths, ∀ b, (host path).mmap .map = .ok b → b.length % 4 = 0 := by
  induction h with
  | nil => exact fun path hpath => absurd hpath List.not_mem_nil
  | cons hfile _ ih =>
    obtain ⟨hbytes, hrest⟩ := List.forall_mem_cons.1 halign
    refine List.forall_mem_cons.2 ⟨fun b hb => ?_, ih hrest⟩
    rw [hshow _ _ _ hfile hb]
    exact hbytes

/-- A loader sees what is in the files. -/
theorem Host.Shows.shards_eq {host : Host ε} (hshow : host.Shows disk)
    (h : List.Forall₂ (fun path bytes => disk path = some bytes) paths files)
    (hread : ∀ path ∈ paths, ∃ b, (host path).contents = some b) : host.shards paths = files := by
  induction h with
  | nil => rfl
  | cons hfile _ ih =>
    rw [List.forall_mem_cons] at hread
    obtain ⟨⟨b, hb⟩, hrest⟩ := hread
    rw [Host.shards_cons, hb, hshow _ _ _ hfile (File.mmap_of_contents hb), ih hrest]
    rfl

end Shows

/-- The files hold these blocks of tokens as little-endian words. -/
def Disk.Holds (disk : Disk) (paths : List PathBuf) (blocks : List (List UInt32)) : Prop :=
  List.Forall₂ (fun path tokens => disk path = some (ByteOrder.little.encode tokens)) paths blocks

/-- On a little-endian machine the shard files hold the streams of their records. -/
theorem Writer.Filed.holds {host : WriterHost ε} {args : WriterArgs}
    {groups : List (List Payload)} {w v : Writer} (h : w.Filed host args 0 groups v)
    (horder : host.order = .little) :
    v.disk.Holds v.generatedShards (groups.map (tokenStream args.eosId)) := by
  have hfiles := h.files_eq
  simp only [horder, records_little] at hfiles
  exact List.forall₂_map_right_iff.2 hfiles

/-- So do those that a run without an I/O failure returned. -/
theorem Disk.holds_of_pretokenizeDataset {host : WriterHost ε}
    (hio : ∀ k, (host.io k).result = .ok ()) (horder : host.order = .little) {args : WriterArgs}
    {disk disk' : Disk} {payloads : List Payload} {paths : List PathBuf}
    (h : pretokenizeDataset host args disk payloads = .ok (paths, disk')) :
    disk'.Holds paths ((Batches.pack (recordSize host.order args.eosId) args.shardSizeBytes
      payloads).map (tokenStream args.eosId)) := by
  obtain ⟨v, hv, hfiled⟩ := pretokenizeDataset_eq hio args disk payloads
  obtain ⟨rfl, rfl⟩ := Prod.mk.inj (Except.ok.inj (h.symm.trans hv))
  exact hfiled.holds horder

namespace Disk.Holds

variable {disk : Disk} {paths : List PathBuf} {blocks : List (List UInt32)}

theorem length_concat (h : disk.Holds paths blocks) :
    (disk.concat paths).length = 4 * blocks.flatten.length := by
  rw [Disk.concat_eq (List.forall₂_map_right_iff.2 h)]
  clear h
  induction blocks with
  | nil => rfl
  | cons tokens blocks ih =>
    rw [List.map_cons, List.flatten_cons, List.flatten_cons, List.length_append,
      List.length_append, length_encode, ih, Nat.mul_add]

theorem take (h : disk.Holds paths blocks) (i : ℕ) : disk.Holds (paths.take i) (blocks.take i) :=
  List.forall₂_take i h

/-- The files say which blocks they hold. -/
theorem unique {blocks' : List (List UInt32)} (h : disk.Holds paths blocks)
    (h' : disk.Holds paths blocks') : blocks = blocks' := by
  induction h generalizing blocks' with
  | nil =>
    obtain rfl := List.forall₂_nil_left_iff.1 h'
    rfl
  | cons hfile _ ih =>
    obtain ⟨tokens, rest, hfile', hrest, rfl⟩ := List.forall₂_cons_left_iff.1 h'
    have htokens := encode_injective .little (Option.some.inj (hfile.symm.trans hfile'))
    rw [htokens, ih hrest]

/-- Every file is aligned. -/
theorem aligned {host : Host ε} (h : disk.Holds paths blocks) (hshow : host.Shows disk) :
    ∀ path ∈ paths, ∀ b, (host path).mmap .map = .ok b → b.length % 4 = 0 := by
  refine hshow.aligned (List.forall₂_map_right_iff.2 h) (List.forall_mem_map.2 fun tokens _ => ?_)
  rw [length_encode, Nat.mul_mod_right]

/-- A loader sees the encoded blocks. -/
theorem shards_eq {host : Host ε} (h : disk.Holds paths blocks) (hshow : host.Shows disk)
    (hread : ∀ path ∈ paths, ∃ b, (host path).contents = some b) :
    host.shards paths = blocks.map ByteOrder.little.encode :=
  hshow.shards_eq (List.forall₂_map_right_iff.2 h) hread

/-- Counting the pairs of a block by the length of its file. -/
theorem forall₂_count {n : ℕ} {places : List (List ℕ)} (h : disk.Holds paths blocks)
    (hcounts : List.Forall₂ (fun tokens ps => ps.length = (tokens.length - 1) / n) blocks places) :
    List.Forall₂ (fun path ps => ∃ bytes, disk path = some bytes ∧
      ps.length = (bytes.length / 4 - 1) / n) paths places := by
  induction h generalizing places with
  | nil =>
    obtain rfl := List.forall₂_nil_left_iff.1 hcounts
    exact List.Forall₂.nil
  | cons hfile _ ih =>
    obtain ⟨ps, places', hcount, hrest, rfl⟩ := List.forall₂_cons_left_iff.1 hcounts
    refine List.Forall₂.cons ⟨_, hfile, ?_⟩ (ih hrest)
    rw [hcount, length_encode, Nat.mul_div_cancel_left _ (by decide)]

/-- Every epoch over the loaded blocks trains on their concatenation. -/
theorem trainsOn (h : disk.Holds paths blocks) {n : ℕ} (hn : 1 ≤ n) :
    TrainsOn disk paths blocks.flatten n
      (MmapStorage.ofShards (blocks.map ByteOrder.little.encode)) := by
  obtain ⟨it', hdrain⟩ := TFDataloaderIter.drains_pairs hn blocks
  refine ⟨_, _, it', rfl, hdrain, positions n 0 blocks, rfl, fun p hp => ?_,
    positions_pairwise n 0 blocks, ?_, fun i ps hps p hp => ?_⟩
  · have hend := end_le_of_mem n 0 blocks hp
    rwa [Nat.zero_add] at hend
  · exact h.forall₂_count (forall₂_positions n 0 blocks)
  · have hin := positions_inside n 0 blocks hps p hp
    rw [(h.take i).length_concat, (h.take (i + 1)).length_concat]
    omega

end Disk.Holds

theorem MmapStorage.len_encode (blocks : List (List UInt32)) :
    (ofShards (blocks.map ByteOrder.little.encode)).len = blocks.flatten.length := by
  simp only [len, ofShards, List.map_map, List.length_flatten]
  refine congrArg List.sum (List.map_congr_left fun tokens _ => ?_)
  rw [Function.comp_apply, length_encode, Nat.mul_div_cancel_left _ (by decide)]

theorem Host.Succeeds.loadData {host : Host ε} {paths : List PathBuf} {adviceSet : AdviceSet}
    (h : host.Succeeds paths adviceSet)
    (halign : ∀ path ∈ paths, ∀ b, (host path).mmap .map = .ok b → b.length % 4 = 0) :
    ∃ s, MmapStorage.loadData host ⟨paths, adviceSet⟩ = .ok s := by
  refine ⟨_, MmapStorage.loadData_eq_ok.2 ⟨fun path hpath => ?_, rfl⟩⟩
  obtain ⟨hopen, ⟨b, hb⟩, hadvice⟩ := h path hpath
  refine ⟨b, ?_, ?_, halign path hpath b hb⟩
  · simp only [File.contents, hopen, hb]
  · cases happly : adviceSet.apply (host path) with
    | ok u => rfl
    | error e =>
      obtain ⟨advice, hmem, he⟩ := exists_of_forM_error happly
      simp [hadvice advice hmem, Except.mapError] at he

/-- **Pretokenize, then train**: on a little-endian machine and without an I/O failure
the returned paths can be loaded, never with an alignment error, to a storage of
as many elements as the stream has tokens, and every epoch over it trains on the
stream. -/
theorem pretokenize_then_train {ε' : Type} {writer : WriterHost ε} (horder : writer.order = .little)
    (hio : ∀ k, (writer.io k).result = .ok ()) (args : WriterArgs) (disk : Disk)
    (payloads : List Payload) :
    ∃ paths disk', pretokenizeDataset writer args disk payloads = .ok (paths, disk') ∧
      ∀ (host : Host ε') (adviceSet : AdviceSet), host.Shows disk' →
        (∀ size path, MmapStorage.loadData host ⟨paths, adviceSet⟩ ≠
          .error (.invalidByteAlignment size path)) ∧
        (host.Succeeds paths adviceSet →
          ∃ s, MmapStorage.loadData host ⟨paths, adviceSet⟩ = .ok s) ∧
        ∀ s, MmapStorage.loadData host ⟨paths, adviceSet⟩ = .ok s →
          s.len = (tokenStream args.eosId payloads).length ∧
          ∀ n, 1 ≤ n → TrainsOn disk' paths (tokenStream args.eosId payloads) n s := by
  obtain ⟨v, hv, hfiled⟩ := pretokenizeDataset_eq hio args disk payloads
  have hholds := hfiled.holds horder
  have hstream : tokenStream args.eosId payloads = List.flatten ((Batches.pack
      (recordSize writer.order args.eosId) args.shardSizeBytes payloads).map
        (tokenStream args.eosId)) := by
    rw [← tokenStream_flatten, Batches.flatten_pack]
  rw [hstream]
  refine ⟨_, _, hv, fun host adviceSet hshow => ⟨fun size path h => ?_, fun h => ?_,
    fun s hload => ?_⟩⟩
  · obtain ⟨p, hp, b, hb, hlen⟩ := MmapStorage.loadData_invalidByteAlignment h
    exact hlen (hholds.aligned hshow p hp b hb)
  · exact h.loadData (hholds.aligned hshow)
  · obtain ⟨hall, rfl⟩ := MmapStorage.loadData_eq_ok.1 hload
    rw [hholds.shards_eq hshow fun path hpath => (hall path hpath).imp fun b hb => hb.1]
    exact ⟨MmapStorage.len_encode _, fun n hn => hholds.trainsOn hn⟩

/-- Three records in two shards of five tokens each, trained on in windows of two: the last
token of the first shard is in no input, and no window crosses the seam. -/
theorem pretokenize_then_train_seam :
    ∃ paths disk' s, pretokenizeDataset (WriterHost.reliable .little : WriterHost Unit)
        ⟨"out", 16, 7⟩ (fun _ => none) [[1, 2], [3], [4, 5, 6, 8]] = .ok (paths, disk') ∧
      paths = ["out/pretokenized_shard_0.bin", "out/pretokenized_shard_1.bin"] ∧
      MmapStorage.loadData (fun path => File.ofBytes ((disk' path).getD []) : Host Unit)
        (MmapSetup.new paths) = .ok s ∧
      s.len = 10 ∧ TrainsOn disk' paths [1, 2, 7, 3, 7, 4, 5, 6, 8, 7] 2 s := by
  obtain ⟨paths, disk', hrun, htrain⟩ := @pretokenize_then_train Unit Unit
    (WriterHost.reliable .little) rfl (fun _ => rfl) ⟨"out", 16, 7⟩ (fun _ => none)
    [[1, 2], [3], [4, 5, 6, 8]]
  have hpaths : (pretokenizeDataset (WriterHost.reliable .little : WriterHost Unit)
      ⟨"out", 16, 7⟩ (fun _ => none) [[1, 2], [3], [4, 5, 6, 8]]).toOption.map Prod.fst =
        some ["out/pretokenized_shard_0.bin", "out/pretokenized_shard_1.bin"] := by
    decide +kernel
  rw [hrun] at hpaths
  obtain ⟨-, hload, hall⟩ := htrain _ AdviceSet.default (Host.shows_ofBytes disk')
  obtain ⟨s, hs⟩ := hload fun path _ => ⟨rfl, ⟨_, rfl⟩, fun _ _ => rfl⟩
  obtain ⟨hlen, hepoch⟩ := hall s hs
  exact ⟨paths, disk', s, hrun, Option.some.inj hpaths, hs, hlen, hepoch 2 (by decide)⟩

end Plast
