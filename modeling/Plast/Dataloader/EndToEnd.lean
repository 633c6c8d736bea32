/-
# From a directory of data files to training pairs

All parts of the crate in a row, as its callers use them: `fetch_data_files` lists a
directory, a `ShardLoader` reads the files, `pretokenize_dataset` writes the shards on
several threads, either backend loads the paths it returned, and `tf_iter` yields pairs.

For every interleaving and every schedule of the worker, and whatever Polars makes of the
files: the pairs of the first epoch are the consecutive windows of every shard, from its
first token on, and the shards are one token stream, that of the rows which Polars reads
and the tokenizer encodes, file after file in the order of the directory and the rows of a
file in some order (`directory_to_pairs`).
-/

import Plast.Dataloader.Training
import Plast.Pretokenizer.Dataset
import Plast.Pretokenizer.Refinement

namespace Plast

open Machine BlockReader Chunks ShiftedPairs Transition Endian

variable {ε : Type} {host : Host ε} {files : List PathBuf}

/-! ### The first epoch -/

/-- Read as words, the shifted chunks of a shard of any length are the pairs of its words. -/
theorem shiftedChunks_decode {n : ℕ} (hn : 1 ≤ n) (bytes : Bytes) :
    (shiftedChunks (n * 4) 4 bytes).map (fun p => (decode p.1, decode p.2)) =
      blockPairs n (decode bytes) := by
  have hcount : (bytes.length - 4) / (n * 4) = ((decode bytes).length - 1) / n := by
    rw [length_decode, Nat.mul_comm, ← Nat.div_div_eq_div_mul]
    congr 1
    omega
  have hplace : ∀ i j o p, o = 4 * i → p = 4 * j →
      decode (bytes.extract o p) = (decode bytes).extract i j := by
    rintro i j _ _ rfl rfl
    exact decode_extract bytes i j
  rw [shiftedChunks_eq (by omega), List.map_map, blockPairs, hcount]
  refine List.map_congr_left fun k _ => ?_
  have hk : k * (n * 4) = 4 * (k * n) := by rw [← Nat.mul_assoc, Nat.mul_comm]
  simp only [Function.comp_apply, pairAt]
  rw [hplace (k * n) (k * n + n) _ _ hk (by omega),
    hplace (k * n + 1) (k * n + 1 + n) _ _ (by omega) (by omega)]

/-- Right after loading, an epoch of `tf_iter` yields the pairs of what the shards are read
as, on every schedule and both backends. -/
theorem StorageLoader.first_epoch_decode {backend : Backend} {st : Storage}
    (hread : host.Readable files) (hload : backend.load host files = .ok st) {n : ℕ} (hn : 1 ≤ n)
    (items : List (List UInt32 × List UInt32)) :
    (∃ d', Epoch host (TfIterNext host) ⟨st, n, u32Converter⟩ items d') ↔
      items = (host.shards files).flatMap fun bytes => blockPairs n (decode bytes) := by
  have hreads : st.ReadsAs host files st.keepLast (fresh (host.shards files)) :=
    ⟨backend.load_reads hread hload, rfl⟩
  have hfirst : backend.epochShards (host.shards files) 0 = host.shards files := by
    cases backend <;> rfl
  rw [← Repeats.singleton_iff, tfIter_epochs_iff id hreads hn]
  simp only [List.length_singleton, List.range_one, List.map_singleton, List.cons.injEq, and_true,
    Backend.epochBlocks_eq hload, hfirst, List.map_flatMap]
  refine Eq.congr_right (congrArg (List.flatMap · (host.shards files)) (funext fun bytes => ?_))
  exact shiftedChunks_decode hn bytes

/-- Over encoded tokens these are the pairs of the tokens. -/
theorem StorageLoader.first_epoch_iff {backend : Backend} {st : Storage}
    (hread : host.Readable files) (hload : backend.load host files = .ok st)
    {blocks : List (List UInt32)}
    (hshards : host.shards files = blocks.map ByteOrder.little.encode) {n : ℕ} (hn : 1 ≤ n)
    (items : List (List UInt32 × List UInt32)) :
    (∃ d', Epoch host (TfIterNext host) ⟨st, n, u32Converter⟩ items d') ↔
      items = blocks.flatMap (blockPairs n) := by
  rw [first_epoch_decode hread hload hn, hshards, List.flatMap_map]
  simp only [decode_encode_little]

/-! ### All the way -/

/-- The files hold the stream `tokens` in blocks, and the items are the pairs of block after
block.  The `k`-th pair of a block of `m` tokens is its `n` tokens from `k * n` on with the
`n` tokens one further on, for every `k` below `(m - 1) / n`.  In the stream the pairs are
at `positions`. -/
def PairsOf (disk : Disk) (paths : List PathBuf) (tokens : List UInt32) (n : ℕ)
    (items : List (List UInt32 × List UInt32)) : Prop :=
  ∃ blocks, disk.Holds paths blocks ∧ blocks.flatten = tokens ∧
    items = blocks.flatMap (blockPairs n) ∧
    items = (positions n 0 blocks).flatten.map (pairAt n tokens)

/-- The pairs of the blocks that files hold are pairs of what the files say together. -/
theorem Disk.Holds.pairsOf {disk : Disk} {paths : List PathBuf} {blocks : List (List UInt32)}
    (h : disk.Holds paths blocks) (n : ℕ) :
    PairsOf disk paths blocks.flatten n (blocks.flatMap (blockPairs n)) :=
  ⟨blocks, h, rfl, rfl, flatMap_blockPairs n [] blocks⟩

/-- What the files hold says which pairs these are. -/
theorem PairsOf.items_eq {disk : Disk} {paths : List PathBuf} {tokens : List UInt32} {n : ℕ}
    {items : List (List UInt32 × List UInt32)} (h : PairsOf disk paths tokens n items)
    {blocks : List (List UInt32)} (hholds : disk.Holds paths blocks) :
    items = blocks.flatMap (blockPairs n) := by
  obtain ⟨blocks', hholds', -, hitems, -⟩ := h
  rw [hitems, hholds'.unique hholds]

/-- **From a directory to training pairs.**  On a little-endian machine and without an I/O
failure of the writer: the scan returns files, every interleaving of the threads that
pretokenize them ends, and with the paths of shards.  If the loader is shown these shards
and can read them, then on both backends, on every schedule of the prefetching worker and
for windows of at least one token, the first epoch of `tf_iter` yields the consecutive pairs
of the shards, which are the stream of the records that arrived. -/
theorem directory_to_pairs {ε₁ ε₂ ε₃ P : Type} {dirs : DirHost ε₁} {dataDir : PathBuf}
    {entries : List DirEntry} (hdir : dirs dataDir = .ok (entries.map .ok))
    (polars : Polars ε₂ P) (textColumnName : String) (encode : String → Option Payload)
    {writer : WriterHost ε} (horder : writer.order = .little)
    (hio : ∀ k, (writer.io k).result = .ok ()) (args : WriterArgs) (disk : Disk)
    (writeQueueSize : ℕ) :
    ∃ files, fetchDataFiles dirs dataDir = .ok files ∧
      Completes (Pipeline.step (ShardLoader.next polars.getChunkedArray) encode writer args)
        Pipeline.Quiet (Pipeline.start writer args disk (ShardLoader.new files textColumnName)
          writeQueueSize) ∧
      ∀ sys result, Reaches
          (Pipeline.step (ShardLoader.next polars.getChunkedArray) encode writer args)
          (Pipeline.start writer args disk (ShardLoader.new files textColumnName) writeQueueSize)
          sys → sys.caller = .returned result →
        ∃ payloads paths disk',
          Orders encode (files.map (polars.getChunkedArray textColumnName)) payloads ∧
          result = .ok (paths, disk') ∧
          pretokenizeDataset writer args disk payloads = .ok (paths, disk') ∧
          ∀ (host : Host ε₃) (backend : Backend) (st : Storage), host.Shows disk' →
            host.Readable paths → backend.load host paths = .ok st → ∀ n, 1 ≤ n →
            (∃ items d', StorageLoader.Epoch host (StorageLoader.TfIterNext host)
              ⟨st, n, u32Converter⟩ items d') ∧
            ∀ items d', StorageLoader.Epoch host (StorageLoader.TfIterNext host)
                ⟨st, n, u32Converter⟩ items d' →
              PairsOf disk' paths (tokenStream args.eosId payloads) n items := by
  refine ⟨_, fetchFiles_eq hdir, ?_⟩
  obtain ⟨t, hdrain⟩ := ShardLoader.drains polars.getChunkedArray
    ((entries.filter fun e => e.isFile && (extension e.name).any fun ext =>
      ext.toLower ∈ supportedExtensions).map (DirEntry.path dataDir)) textColumnName
  refine ⟨(Pipeline.start_sound encode writer args disk hdrain writeQueueSize).quiet,
    fun sys result hreach hc => ?_⟩
  obtain ⟨payloads, horders, rfl⟩ := (Pipeline.sound_foreseen hdrain hreach).2 result hc
  obtain ⟨v, hv, hfiled⟩ := pretokenizeDataset_eq hio args disk payloads
  have hholds := hfiled.holds horder
  have hstream : ((Batches.pack (recordSize writer.order args.eosId) args.shardSizeBytes
      payloads).map (tokenStream args.eosId)).flatten = tokenStream args.eosId payloads := by
    rw [← tokenStream_flatten, Batches.flatten_pack]
  refine ⟨payloads, _, _, horders, hv, hv, fun host backend st hshow hread hload n hn => ?_⟩
  have hshards := hholds.shards_eq hshow fun path hpath => (hread path hpath).imp fun _ h => h.1
  have hepoch := StorageLoader.first_epoch_iff hread hload hshards hn
  refine ⟨⟨_, (hepoch _).2 rfl⟩, fun items d' h => ?_⟩
  rw [(hepoch items).1 ⟨d', h⟩, ← hstream]
  exact hholds.pairsOf n

/-- One data file of two rows, one of them null, beside a file of another kind: the pair of
the other row is the epoch. -/
theorem directory_to_pairs_one :
    let dirs : DirHost Unit := fun _ => .ok [.ok ⟨"a.jsonl", true⟩, .ok ⟨"b.bin", true⟩]
    let polars : Polars Unit String := {
      LazyFrame := StringChunked
      DataFrame := StringChunked
      Column := StringChunked
      validPath := fun _ => true
      scanParquet := fun _ => .error "not a parquet file"
      scanIpc := fun _ => .error "not an ipc file"
      collectSchema := fun _ => .ok ()
      openFile := fun _ => .ok ()
      readIpcStream := fun _ => .error "not a stream"
      lazy := id
      scanJsonLines := fun _ => .ok [some "hello", none]
      scanCsv := fun _ => .error "not a csv file"
      selectCollect := fun _ lf => .ok lf
      column := fun _ df => .ok df
      str := .ok
      message := id }
    let encode : String → Option Payload := fun _ => some [1, 2]
    let writer : WriterHost Unit := WriterHost.reliable .little
    let step := Pipeline.step (ShardLoader.next polars.getChunkedArray) encode writer ⟨"out", 16, 7⟩
    let start := Pipeline.start writer ⟨"out", 16, 7⟩ (fun _ => none)
      (ShardLoader.new ["data/a.jsonl"] "text") 1
    fetchDataFiles dirs "data" = .ok ["data/a.jsonl"] ∧ Completes step Pipeline.Quiet start ∧
      ∀ sys result, Reaches step start sys → sys.caller = .returned result →
        ∃ paths disk', result = .ok (paths, disk') ∧
          ∀ (host : Host Unit) (backend : Backend) (st : Storage), host.Shows disk' →
            host.Readable paths → backend.load host paths = .ok st →
            ∀ items d', StorageLoader.Epoch host (StorageLoader.TfIterNext host)
                ⟨st, 2, u32Converter⟩ items d' →
              items = [([1, 2], [2, 7])] := by
  intro dirs polars encode writer step start
  have hfetch : fetchDataFiles dirs "data" = .ok ["data/a.jsonl"] := by decide +kernel
  obtain ⟨files, hfiles, hcompletes, hruns⟩ := @directory_to_pairs Unit Unit Unit Unit String dirs
    "data" [⟨"a.jsonl", true⟩, ⟨"b.bin", true⟩] rfl polars "text" encode writer rfl (fun _ => rfl)
    ⟨"out", 16, 7⟩ (fun _ => none) 1
  obtain rfl := Except.ok.inj (hfetch.symm.trans hfiles)
  refine ⟨hfetch, hcompletes, fun sys result hreach hc => ?_⟩
  obtain ⟨payloads, paths, disk', horders, hresult, hrun, hpairs⟩ := hruns sys result hreach hc
  have hchunks : (chunks (["data/a.jsonl"].map (polars.getChunkedArray "text"))).map
      (encodings encode) = [[[1, 2]]] := by
    decide +kernel
  rw [Orders, hchunks] at horders
  obtain rfl := List.perm_singleton.1 horders.perm
  have hholds : disk'.Holds paths [[1, 2, 7]] :=
    Disk.holds_of_pretokenizeDataset (fun _ => rfl) rfl hrun
  refine ⟨paths, disk', hresult, fun host backend st hshow hread hload items d' hepoch => ?_⟩
  rw [((hpairs host backend st hshow hread hload 2 (by decide)).2 items d' hepoch).items_eq hholds]
  rfl

end Plast
