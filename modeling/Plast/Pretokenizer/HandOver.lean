/-
# From the directory to the loader

`src/pretokenizer/utils.rs`: the functions that collect the files of a
directory by their extension.  `read_dir` enumerates the entries in an order that
the operating system chooses, and the functions keep it: nothing sorts.

Between `pretokenize_dataset` and `load_data` stands `fetch_bin_files`, which
takes every `.bin` file of the directory.  It returns the paths the writer returned
in their order only if nothing else is there and the enumeration happens to be in
index order, and then the loader streams the records as they were written
(`fetch_after_pretokenize`).
-/

import Plast.Pretokenizer.Corpus
import Plast.Dataloader.Reference
import Mathlib.Data.List.Perm.Basic

namespace Plast

open Endian Machine Chunks

variable {ε : Type}

/-! ### Scanning a directory -/

/-- The method `Path::extension` on a file name: what follows the last dot, unless
there is no dot or only a leading one. -/
def extension (name : String) : Option String :=
  let chars := name.toList.reverse
  if name = ".." then none
  else match chars.dropWhile (· ≠ '.') with
    | [] | [_] => none
    | _ :: _ :: _ => some (String.ofList (chars.takeWhile (· ≠ '.')).reverse)

/-- An entry that `read_dir` yields. -/
structure DirEntry where
  /-- The result of `file_name`. -/
  name : String
  /-- The result of `path().is_file()`. -/
  isFile : Bool
  deriving DecidableEq, Repr

/-- The answers of `read_dir`: an error, or the entries in the order it yields them. -/
abbrev DirHost (ε : Type) := PathBuf → Except ε (List (Except ε DirEntry))

/-- The body of the loop of the functions, which differ in the names they take. -/
def fetchEntry (accepts : String → Bool) (dir : PathBuf) (paths : List PathBuf)
    (entry : Except ε DirEntry) : Except ε (List PathBuf) := do
  let entry ← entry
  if entry.isFile && accepts entry.name then
    return paths ++ [join dir entry.name]
  else
    return paths

def fetchFiles (accepts : String → Bool) (host : DirHost ε) (dir : PathBuf) :
    Except ε (List PathBuf) := do
  (← host dir).foldlM (fetchEntry accepts dir) []

/-- The test `path.extension().is_some_and(|ext| ext == "bin")`. -/
def isBin (name : String) : Bool := extension name = some "bin"

/-- `fetch_bin_files`. -/
def fetchBinFiles (host : DirHost ε) (dir : PathBuf) : Except ε (List PathBuf) :=
  fetchFiles isBin host dir

/-- `fetch_arrow_files`. -/
def fetchArrowFiles (host : DirHost ε) (dir : PathBuf) : Except ε (List PathBuf) :=
  fetchFiles (fun name => extension name = some "arrow") host dir

/-- The extensions that the loader of data files reads. -/
def supportedExtensions : List String :=
  ["parquet", "arrow", "ipc", "jsonl", "ndjson", "csv", "txt"]

/-- `fetch_data_files`.  The source lowers every letter and not only those of ASCII, but
no other letter is lowered to one of these names. -/
def fetchDataFiles (host : DirHost ε) (dir : PathBuf) : Except ε (List PathBuf) :=
  fetchFiles (fun name => (extension name).any fun ext => ext.toLower ∈ supportedExtensions)
    host dir

/-- The path of an entry. -/
def DirEntry.path (dir : PathBuf) (entry : DirEntry) : PathBuf := join dir entry.name

theorem foldlM_fetchEntry (accepts : String → Bool) (dir : PathBuf) (entries : List DirEntry)
    (paths : List PathBuf) :
    (entries.map (.ok : DirEntry → Except ε DirEntry)).foldlM (fetchEntry accepts dir) paths =
      .ok (paths ++ (entries.filter fun e => e.isFile && accepts e.name).map
        (DirEntry.path dir)) := by
  induction entries generalizing paths with
  | nil => exact congrArg Except.ok (List.append_nil paths).symm
  | cons entry entries ih =>
    rw [List.map_cons, List.foldlM_cons]
    cases htake : entry.isFile && accepts entry.name with
    | true =>
      have hentry : fetchEntry accepts dir paths (.ok entry : Except ε DirEntry) =
          .ok (paths ++ [entry.path dir]) := if_pos htake
      rw [hentry, List.filter_cons, if_pos htake, List.map_cons]
      exact (ih _).trans (congrArg Except.ok (List.append_cons _ _ _).symm)
    | false =>
      have hentry : fetchEntry accepts dir paths (.ok entry : Except ε DirEntry) = .ok paths :=
        if_neg (by rw [htake]; decide)
      rw [hentry, List.filter_cons, if_neg (by rw [htake]; decide)]
      exact ih _

/-- Without an error the functions return the paths of the files they accept, in the
order of the enumeration. -/
theorem fetchFiles_eq {accepts : String → Bool} {host : DirHost ε} {dir : PathBuf}
    {entries : List DirEntry} (h : host dir = .ok (entries.map .ok)) :
    fetchFiles accepts host dir = .ok ((entries.filter fun e => e.isFile && accepts e.name).map
      (DirEntry.path dir)) := by
  rw [fetchFiles, h]
  exact foldlM_fetchEntry accepts dir entries []

/-! ### Names -/

/-- One component of a path, as the names of directory entries are. -/
def PlainName (name : String) : Prop := name ≠ "" ∧ '/' ∉ name.toList

/-- The name of shard `n`. -/
def shardName (n : ℕ) : String := "pretokenized_shard_" ++ n.repr ++ ".bin"

theorem toList_shardName (n : ℕ) : (shardName n).toList =
    "pretokenized_shard_".toList ++ Nat.toDigits 10 n ++ ['.', 'b', 'i', 'n'] := by
  have hend : ".bin".toList = ['.', 'b', 'i', 'n'] := by decide
  unfold shardName
  rw [String.toList_append, String.toList_append, Nat.toList_repr, hend]

theorem plainName_shardName (n : ℕ) : PlainName (shardName n) := by
  have hslash : '/' ∉ (shardName n).toList := by
    rw [toList_shardName, List.mem_append, List.mem_append, not_or, not_or]
    refine ⟨⟨by decide, fun h => ?_⟩, by decide⟩
    have hdigit := Nat.isDigit_of_mem_toDigits (by decide) (by decide) h
    exact absurd hdigit (by decide)
  refine ⟨fun h => ?_, hslash⟩
  have hlength := congrArg List.length (toList_shardName n)
  rw [h, List.length_append] at hlength
  simp at hlength

/-- What follows the last dot of a name is its extension. -/
theorem extension_of_toList {name : String} {base ext : List Char}
    (h : name.toList = base ++ '.' :: ext) (hbase : base ≠ []) (hext : ext ≠ [])
    (hdot : '.' ∉ ext) : extension name = some (String.ofList ext) := by
  have hne : name ≠ ".." := by
    rintro rfl
    have hdots : "..".toList = ['.', '.'] := by decide
    have hlength := congrArg List.length (hdots.symm.trans h)
    rw [List.length_append, List.length_cons] at hlength
    have hbase := List.length_pos_iff.2 hbase
    have hext := List.length_pos_iff.2 hext
    simp only [List.length_cons, List.length_nil] at hlength
    omega
  have hkeep : ∀ c ∈ ext.reverse, decide (c ≠ '.') = true := fun c hc => by
    rw [decide_eq_true_iff]
    rintro rfl
    exact hdot (List.mem_reverse.1 hc)
  have hdrop : (ext.reverse ++ '.' :: base.reverse).dropWhile (· ≠ '.') = '.' :: base.reverse := by
    rw [List.dropWhile_append_of_pos hkeep]
    rfl
  have htake : (ext.reverse ++ '.' :: base.reverse).takeWhile (· ≠ '.') = ext.reverse := by
    rw [List.takeWhile_append_of_pos hkeep]
    exact List.append_nil _
  have hchars : name.toList.reverse = ext.reverse ++ '.' :: base.reverse := by
    rw [h, List.reverse_append, List.reverse_cons, List.append_assoc]
    rfl
  obtain ⟨c, rest, hrest⟩ := List.exists_cons_of_ne_nil (List.reverse_ne_nil_iff.2 hbase)
  unfold extension
  simp only [hchars, if_neg hne]
  rw [hdrop, htake, List.reverse_reverse, hrest]

theorem isBin_shardName (n : ℕ) : isBin (shardName n) = true := by
  have hlist : (shardName n).toList =
      ("pretokenized_shard_".toList ++ Nat.toDigits 10 n) ++ '.' :: ['b', 'i', 'n'] :=
    toList_shardName n
  have hext := extension_of_toList hlist (List.append_ne_nil_of_left_ne_nil (by decide) _)
    (by decide) (by decide)
  rw [isBin, hext]
  decide

/-! ### What the scan finds -/

/-- The entries are those of the directory, in some order. -/
structure Disk.Lists (disk : Disk) (dir : PathBuf) (entries : List DirEntry) : Prop where
  nodup : (entries.map DirEntry.name).Nodup
  plain : ∀ e ∈ entries, PlainName e.name
  files : ∀ name, PlainName name →
    ((disk (join dir name)).isSome ↔ ∃ e ∈ entries, e.name = name ∧ e.isFile = true)

/-- The path is that of a `.bin` file of the directory. -/
def Disk.HasBin (disk : Disk) (dir p : PathBuf) : Prop :=
  ∃ name, PlainName name ∧ isBin name = true ∧ p = join dir name ∧ (disk p).isSome

variable {disk : Disk} {dir : PathBuf} {entries : List DirEntry}

theorem Disk.Lists.nodup_paths (h : disk.Lists dir entries) :
    (entries.map (DirEntry.path dir)).Nodup := by
  have hpaths : entries.map (DirEntry.path dir) = (entries.map DirEntry.name).map (join dir) := by
    rw [List.map_map]
    rfl
  rw [hpaths]
  exact h.nodup.map (join_injective dir)

/-- The scan finds every `.bin` file once, in the order of the enumeration. -/
theorem Disk.Lists.fetchBinFiles (h : disk.Lists dir entries) {host : DirHost ε}
    (hdir : host dir = .ok (entries.map .ok)) :
    ∃ found, Plast.fetchBinFiles host dir = .ok found ∧
      found.Sublist (entries.map (DirEntry.path dir)) ∧ ∀ p, p ∈ found ↔ disk.HasBin dir p := by
  refine ⟨_, fetchFiles_eq hdir, List.filter_sublist.map _, fun p => ?_⟩
  rw [List.mem_map]
  constructor
  · rintro ⟨e, he, rfl⟩
    obtain ⟨hmem, htake⟩ := List.mem_filter.1 he
    obtain ⟨hfile, hbin⟩ := Bool.and_eq_true_iff.1 htake
    exact ⟨e.name, h.plain e hmem, hbin, rfl, (h.files _ (h.plain e hmem)).2 ⟨e, hmem, rfl, hfile⟩⟩
  · rintro ⟨name, hname, hbin, rfl, hsome⟩
    obtain ⟨e, hmem, rfl, hfile⟩ := (h.files name hname).1 hsome
    exact ⟨e, List.mem_filter.2 ⟨hmem, Bool.and_eq_true_iff.2 ⟨hfile, hbin⟩⟩, rfl⟩

/-- After a run the `.bin` files are the shards and those that were there before. -/
theorem Writer.Filed.hasBin_iff {host : WriterHost ε} {args : WriterArgs}
    {groups : List (List Payload)} {w v : Writer} (h : w.Filed host args 0 groups v)
    {p : PathBuf} :
    v.disk.HasBin args.saveDir p ↔ p ∈ v.generatedShards ∨ w.disk.HasBin args.saveDir p := by
  have hpaths : p ∈ v.generatedShards ↔ ∃ i < groups.length, shardPath args.saveDir i = p := by
    rw [h.generatedShards, Nat.zero_add, List.mem_map]
    simp only [List.mem_range]
  have hother : p ∉ v.generatedShards → v.disk p = w.disk p := fun hp =>
    h.others p fun i hi heq => hp (hpaths.2 ⟨i, hi, by rw [heq, Nat.zero_add]⟩)
  by_cases hp : p ∈ v.generatedShards
  · refine ⟨fun _ => Or.inl hp, fun _ => ?_⟩
    obtain ⟨i, hi, rfl⟩ := hpaths.1 hp
    have hfile := h.files i hi
    rw [Nat.zero_add] at hfile
    exact ⟨shardName i, plainName_shardName i, isBin_shardName i, rfl, by rw [hfile]; rfl⟩
  · simp only [hp, false_or, Disk.HasBin, hother hp]

/-- The entry of a file. -/
def DirEntry.file (name : String) : DirEntry := ⟨name, true⟩

/-- After a run the directory holds the shards and the files that were there before. -/
theorem Writer.Filed.lists {host : WriterHost ε} {args : WriterArgs}
    {groups : List (List Payload)} {w v : Writer} (h : w.Filed host args 0 groups v)
    (old names : List String) (hplain : ∀ name ∈ old, PlainName name)
    (hold : ∀ name, (w.disk (join args.saveDir name)).isSome ↔ name ∈ old) (hnodup : names.Nodup)
    (hnames : names.Perm (((List.range groups.length).map shardName).union old)) :
    v.disk.Lists args.saveDir (names.map DirEntry.file) := by
  have hnames : ∀ name, name ∈ names ↔
      name ∈ (List.range groups.length).map shardName ∨ name ∈ old := fun name =>
    hnames.mem_iff.trans List.mem_union_iff
  refine ⟨?_, fun e he => ?_, fun name _ => ?_⟩
  · rw [List.map_map, show DirEntry.name ∘ DirEntry.file = id from rfl, List.map_id]
    exact hnodup
  · obtain ⟨name, hname, rfl⟩ := List.mem_map.1 he
    rcases (hnames name).1 hname with hshard | hname
    · obtain ⟨i, -, rfl⟩ := List.mem_map.1 hshard
      exact plainName_shardName i
    · exact hplain name hname
  · have hentry : (∃ e ∈ names.map DirEntry.file, e.name = name ∧ e.isFile = true) ↔
        name ∈ names := by
      constructor
      · rintro ⟨e, he, rfl, -⟩
        obtain ⟨name, hname, rfl⟩ := List.mem_map.1 he
        exact hname
      · exact fun hname => ⟨.file name, List.mem_map_of_mem hname, rfl, rfl⟩
    rw [hentry, hnames, ← hold]
    by_cases hshard : name ∈ (List.range groups.length).map shardName
    · obtain ⟨i, hi, rfl⟩ := List.mem_map.1 hshard
      have hfile := h.files i (List.mem_range.1 hi)
      rw [Nat.zero_add] at hfile
      have hsome : (v.disk (join args.saveDir (shardName i))).isSome := by
        rw [show join args.saveDir (shardName i) = shardPath args.saveDir i from rfl, hfile]
        rfl
      exact ⟨fun _ => Or.inl hshard, fun _ => hsome⟩
    · have hsame : v.disk (join args.saveDir name) = w.disk (join args.saveDir name) :=
        h.others _ fun i hi heq => hshard (List.mem_map.2 ⟨i, List.mem_range.2 hi, by
          rw [Nat.zero_add] at heq
          exact (join_injective args.saveDir heq).symm⟩)
      rw [hsame, or_iff_right hshard]

/-! ### What the loader streams -/

/-- Files on which no system call fails are loaded, and draining `iter_bytes` one token at
a time over the loaded storage yields these bytes. -/
def Streams (host : Host ε) (files : List PathBuf) (bytes : Bytes) : Prop :=
  ∀ adviceSet : AdviceSet,
    (host.Succeeds files adviceSet → ∃ s, MmapStorage.loadData host ⟨files, adviceSet⟩ = .ok s) ∧
    ∀ s, MmapStorage.loadData host ⟨files, adviceSet⟩ = .ok s →
      ∃ it xs it', (Dataloader.new s 1 bytesConverter).iterBytes .unbounded = .ok it ∧
        Drains (DataloaderIter.Answers .unbounded) it xs it' ∧ xs.flatten = bytes

theorem length_records_mod (order : ByteOrder) (eosId : UInt32) (payloads : List Payload) :
    (records order eosId payloads).length % 4 = 0 := by
  induction payloads with
  | nil => rfl
  | cons payload payloads ih =>
    have heos : (toLeBytes eosId).length = 4 := rfl
    rw [records, List.flatMap_cons, List.length_append, record, List.length_append,
      length_encode, heos]
    rw [records] at ih
    omega

/-- Aligned shards are the chunks of their tokens. -/
theorem flatten_flatMap_chunksExact {shards : List Bytes} (h : ∀ b ∈ shards, b.length % 4 = 0) :
    (shards.flatMap (chunksExact 4)).flatten = shards.flatten := by
  induction shards with
  | nil => rfl
  | cons b shards ih =>
    obtain ⟨hb, hrest⟩ := List.forall_mem_cons.1 h
    have hchunks := flatten_chunksExact (show 0 < 4 by decide) b
    rw [hb, Nat.sub_zero, List.drop_length, List.append_nil] at hchunks
    rw [List.flatMap_cons, List.flatten_append, hchunks, ih hrest, List.flatten_cons]

/-- The loader streams aligned files that it is shown. -/
theorem streams_of_files {host : Host ε} {paths : List PathBuf} {files : List Bytes}
    (hfiles : List.Forall₂ (fun path bytes => disk path = some bytes) paths files)
    (halign : ∀ b ∈ files, b.length % 4 = 0) (hshow : host.Shows disk) :
    Streams host paths files.flatten := by
  intro adviceSet
  refine ⟨fun h => h.loadData (hshow.aligned hfiles halign), fun s hload => ?_⟩
  obtain ⟨hall, rfl⟩ := MmapStorage.loadData_eq_ok.1 hload
  rw [hshow.shards_eq hfiles fun path hpath => (hall path hpath).imp fun b hb => hb.1]
  obtain ⟨t, ht⟩ := MmapStorage.slices_drains (show 0 < 4 by decide)
    (Call.noOverflow_unbounded (.sliceSequential 4) files)
  refine ⟨_, _, _, rfl, DataloaderIter.drains_iff.2 ⟨_, t, ht, rfl, rfl⟩, ?_⟩
  rw [show bytesConverter.convert = id from rfl, List.map_id]
  exact flatten_flatMap_chunksExact halign

/-! ### The hand-over -/

/-- After a run without an I/O failure, a scan of the directory finds each of its shards
once and each `.bin` file that was there before, in the order of the enumeration.  So it
returns the shards up to order exactly when no other `.bin` file was there, and in their
own order exactly when the enumeration has them in that order too; then the loader streams
the records as they were written, on a little-endian machine the token stream. -/
theorem fetch_after_pretokenize {ε₁ ε₂ : Type} {writer : WriterHost ε}
    (hio : ∀ k, (writer.io k).result = .ok ()) (args : WriterArgs) (disk : Disk)
    (payloads : List Payload) :
    ∃ paths disk', pretokenizeDataset writer args disk payloads = .ok (paths, disk') ∧
      ∀ (dirs : DirHost ε₁) (entries : List DirEntry),
        dirs args.saveDir = .ok (entries.map .ok) → disk'.Lists args.saveDir entries →
        ∃ found, fetchBinFiles dirs args.saveDir = .ok found ∧
          found.Nodup ∧ found.Sublist (entries.map (DirEntry.path args.saveDir)) ∧
          (∀ p, p ∈ found ↔ p ∈ paths ∨ disk.HasBin args.saveDir p) ∧
          (∀ p ∈ found, p ∉ paths → disk' p = disk p) ∧
          (found.Perm paths ↔ ∀ p, disk.HasBin args.saveDir p → p ∈ paths) ∧
          (found = paths ↔ (∀ p, disk.HasBin args.saveDir p → p ∈ paths) ∧
            paths.Sublist (entries.map (DirEntry.path args.saveDir))) ∧
          (found = paths → ∀ host : Host ε₂, host.Shows disk' →
            Streams host found (records writer.order args.eosId payloads) ∧
            (writer.order = .little →
              decode (records writer.order args.eosId payloads) =
                tokenStream args.eosId payloads)) := by
  obtain ⟨v, hv, hfiled⟩ := pretokenizeDataset_eq hio args disk payloads
  have hfiles := hfiled.shardFiles
  refine ⟨_, _, hv, fun dirs entries hdir hlists => ?_⟩
  obtain ⟨found, hfetch, hsub, hfound⟩ := hlists.fetchBinFiles hdir
  have hnodup : found.Nodup := hsub.nodup hlists.nodup_paths
  have hmem : ∀ p, p ∈ found ↔ p ∈ v.generatedShards ∨ disk.HasBin args.saveDir p := fun p =>
    (hfound p).trans hfiled.hasBin_iff
  have hperm : found.Perm v.generatedShards ↔
      ∀ p, disk.HasBin args.saveDir p → p ∈ v.generatedShards := by
    rw [List.perm_ext_iff_of_nodup hnodup hfiles.nodup]
    exact forall_congr' fun p => by rw [hmem p]; tauto
  refine ⟨found, hfetch, hnodup, hsub, hmem, fun p _ hp => ?_, hperm, ?_, ?_⟩
  · refine hfiled.others p fun i hi heq => hp ?_
    rw [hfiled.generatedShards, heq, Nat.zero_add, Nat.zero_add]
    exact List.mem_map_of_mem (List.mem_range.2 hi)
  · constructor
    · rintro rfl
      exact ⟨hperm.1 (List.Perm.refl _), hsub⟩
    · rintro ⟨hold, hshards⟩
      exact (hlists.nodup_paths.perm_iff_eq_of_sublist hsub hshards).1 (hperm.2 hold)
  · rintro rfl host hshow
    constructor
    · have hrecords := records_flatten writer.order args.eosId
        (Batches.pack (recordSize writer.order args.eosId) args.shardSizeBytes payloads)
      rw [Batches.flatten_pack] at hrecords
      rw [hrecords]
      exact streams_of_files (List.forall₂_map_right_iff.2 hfiles.files)
        (List.forall_mem_map.2 fun batch _ => length_records_mod _ _ _) hshow
    · exact fun horder => (decode_records_iff writer.order payloads).2 (Or.inl horder)

/-- Two shards, and an older file that stands between them in the enumeration: the scan finds
all three in that order, so not the shards alone, and the older file as it was. -/
theorem fetch_after_pretokenize_older :
    ∃ paths disk', pretokenizeDataset (WriterHost.reliable .little : WriterHost Unit)
        ⟨"out", 4, 7⟩ (fun p => if p = join "out" "older.bin" then some [9, 0, 0, 0] else none)
        [[1], [2]] = .ok (paths, disk') ∧
      ∃ found, fetchBinFiles (fun _ => .ok
          ([shardName 1, "older.bin", shardName 0].map (.ok ∘ .file)) : DirHost Unit) "out" =
          .ok found ∧
        found = [shardPath "out" 1, join "out" "older.bin", shardPath "out" 0] ∧ ¬found.Perm paths ∧
        disk' (join "out" "older.bin") = some [9, 0, 0, 0] := by
  let disk : Disk := fun p => if p = join "out" "older.bin" then some [9, 0, 0, 0] else none
  obtain ⟨v, hv, hfiled⟩ := @pretokenizeDataset_eq Unit (WriterHost.reliable .little)
    (fun _ => rfl) ⟨"out", 4, 7⟩ disk [[1], [2]]
  obtain ⟨paths, disk', hok, hscan⟩ := @fetch_after_pretokenize Unit Unit Unit
    (WriterHost.reliable .little) (fun _ => rfl) ⟨"out", 4, 7⟩ disk [[1], [2]]
  obtain ⟨rfl, rfl⟩ := Prod.mk.inj (Except.ok.inj (hok.symm.trans hv))
  have hplain : PlainName "older.bin" := by
    unfold PlainName
    decide +kernel
  have hold : ∀ name, (disk (join "out" name)).isSome ↔ name ∈ ["older.bin"] := by
    intro name
    have hname : name ∈ ["older.bin"] ↔ join "out" name = join "out" "older.bin" :=
      List.mem_singleton.trans (join_injective "out").eq_iff.symm
    rw [hname, Option.isSome_ite]
  have hlists := hfiled.lists ["older.bin"] [shardName 1, "older.bin", shardName 0]
    (List.forall_mem_singleton.2 hplain) hold (by decide +kernel) (by decide +kernel)
  obtain ⟨found, hfound, -, -, -, hsame, hperm, -, -⟩ := hscan
    (fun _ => .ok ([shardName 1, "older.bin", shardName 0].map (.ok ∘ .file))) _ rfl hlists
  have hthree : fetchBinFiles (fun _ => .ok
      ([shardName 1, "older.bin", shardName 0].map (.ok ∘ .file)) : DirHost Unit) "out" =
        .ok [shardPath "out" 1, join "out" "older.bin", shardPath "out" 0] := by
    decide +kernel
  obtain rfl := Except.ok.inj (hfound.symm.trans hthree)
  have hshards : v.generatedShards = [shardPath "out" 0, shardPath "out" 1] :=
    hfiled.generatedShards
  have hnot : join "out" "older.bin" ∉ v.generatedShards := by
    rw [hshards]
    decide +kernel
  have hbytes : disk (join "out" "older.bin") = some [9, 0, 0, 0] := if_pos rfl
  refine ⟨_, _, hok, _, hfound, rfl, fun h => hnot (hperm.1 h _ ?_),
    (hsame _ (by simp) hnot).trans hbytes⟩
  exact ⟨"older.bin", hplain, by decide +kernel, rfl, by rw [hbytes]; rfl⟩

/-- Two shards that the directory enumerates in the other order come back in that order, and
a shard that an earlier run left comes back too. -/
theorem fetch_after_pretokenize_differs :
    (∃ paths disk' entries, pretokenizeDataset (WriterHost.reliable .little : WriterHost Unit)
        ⟨"out", 4, 7⟩ (fun _ => none) [[1], [2]] = .ok (paths, disk') ∧
      disk'.Lists "out" entries ∧
      fetchBinFiles (fun _ => .ok (entries.map .ok) : DirHost Unit) "out" =
        .ok [shardPath "out" 1, shardPath "out" 0] ∧
      paths = [shardPath "out" 0, shardPath "out" 1]) ∧
    ∃ paths disk' entries, pretokenizeDataset (WriterHost.reliable .little : WriterHost Unit)
        ⟨"out", 16, 7⟩ (fun p => if p = shardPath "out" 1 then some [9, 0, 0, 0] else none)
        [[1]] = .ok (paths, disk') ∧
      disk'.Lists "out" entries ∧
      fetchBinFiles (fun _ => .ok (entries.map .ok) : DirHost Unit) "out" =
        .ok [shardPath "out" 0, shardPath "out" 1] ∧
      paths = [shardPath "out" 0] := by
  constructor
  · obtain ⟨v, hv, hfiled⟩ := @pretokenizeDataset_eq Unit (WriterHost.reliable .little)
      (fun _ => rfl) ⟨"out", 4, 7⟩ (fun _ => none) [[1], [2]]
    have hpaths := hfiled.generatedShards
    have hlists := hfiled.lists [] [shardName 1, shardName 0] (by simp) (by simp [Writer.start])
      (by decide +kernel) (by decide +kernel)
    exact ⟨_, _, _, hv, hlists, by decide +kernel, hpaths⟩
  · obtain ⟨v, hv, hfiled⟩ := @pretokenizeDataset_eq Unit (WriterHost.reliable .little)
      (fun _ => rfl) ⟨"out", 16, 7⟩
      (fun p => if p = shardPath "out" 1 then some [9, 0, 0, 0] else none) [[1]]
    have hpaths := hfiled.generatedShards
    have hold : ∀ name, ((if join "out" name = shardPath "out" 1 then some [9, 0, 0, 0] else none :
        Option Bytes)).isSome ↔ name ∈ [shardName 1] := by
      intro name
      have hname : name ∈ [shardName 1] ↔ join "out" name = shardPath "out" 1 :=
        List.mem_singleton.trans (join_injective "out").eq_iff.symm
      rw [hname, Option.isSome_ite]
    have hlists := hfiled.lists [shardName 1] [shardName 0, shardName 1]
      (List.forall_mem_singleton.2 (plainName_shardName 1)) hold (by decide +kernel)
      (by decide +kernel)
    exact ⟨_, _, _, hv, hlists, by decide +kernel, hpaths⟩

end Plast
