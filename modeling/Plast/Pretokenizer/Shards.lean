/-
# What the shard writer leaves behind

Without an I/O failure `pretokenize_dataset` returns the paths of the files it
wrote, and those files hold the records in arrival order, cut into whole records
by the greedy rule of `Batches.pack` (`pretokenizeDataset_eq`).

The loop performs the plan of its groups (`pretokenizeDataset_alike`), which files
them all when no operation fails (`perform_plan`).  `Writer.Filed` says what that means
file by file, and `ShardFiles` states it for the files as a whole
(`pretokenizeDataset_shards`).  The greedy rule makes as many files as the limit allows
(`pretokenizeDataset_most`).
-/

import Plast.Pretokenizer.Operations
import Mathlib.Data.List.Nodup

namespace Plast

open Endian Batches FailStop

variable {ε : Type}

/-- The shards from `n` on hold `groups`, and no other file has changed. -/
structure Writer.Filed (host : WriterHost ε) (args : WriterArgs) (n : ℕ)
    (groups : List (List Payload)) (w v : Writer) : Prop where
  generatedShards : v.generatedShards =
    (List.range (n + groups.length)).map (shardPath args.saveDir)
  files : ∀ i, (h : i < groups.length) → v.disk (shardPath args.saveDir (n + i)) =
    some (records host.order args.eosId groups[i])
  others : ∀ p, (∀ i, i < groups.length → p ≠ shardPath args.saveDir (n + i)) →
    v.disk p = w.disk p

/-- What a run without an I/O failure returns and leaves behind. -/
theorem pretokenizeDataset_eq {host : WriterHost ε} (hio : ∀ k, (host.io k).result = .ok ())
    (args : WriterArgs) (disk : Disk) (payloads : List Payload) :
    ∃ v, pretokenizeDataset host args disk payloads = .ok (v.generatedShards, v.disk) ∧
      Writer.Filed host args 0
        (pack (recordSize host.order args.eosId) args.shardSizeBytes payloads)
        (Writer.start disk 1) v := by
  obtain ⟨out, hrun⟩ := (pretokenizeDataset_ok_iff (hio 0) args disk payloads).2
    fun j _ => hio (1 + j)
  obtain rfl := (pretokenizeDataset_ends (hio 0) args disk payloads).of_ok hrun
  exact ⟨{ Writer.start disk 1 with generatedShards := _, disk := _ }, hrun,
    by rw [Nat.zero_add], fun i hi => filed_shard (List.getElem?_eq_getElem hi),
    fun p hp => filed_other hp⟩

/-! ### The files as a whole -/

/-- The contents of several files, one after another. -/
def Disk.concat (disk : Disk) (paths : List PathBuf) : Bytes :=
  paths.flatMap fun path => (disk path).getD []

theorem records_flatten (order : ByteOrder) (eosId : UInt32) (groups : List (List Payload)) :
    records order eosId groups.flatten = (groups.map (records order eosId)).flatten := by
  induction groups with
  | nil => rfl
  | cons group groups ih =>
    rw [List.flatten_cons, records, List.flatMap_append]
    exact congrArg (_ ++ ·) ih

/-- The shard files hold the groups. -/
theorem Writer.Filed.files_eq {host : WriterHost ε} {args : WriterArgs}
    {groups : List (List Payload)} {w v : Writer} (h : w.Filed host args 0 groups v) :
    List.Forall₂ (fun path group => v.disk path = some (records host.order args.eosId group))
      v.generatedShards groups := by
  rw [h.generatedShards, Nat.zero_add, List.forall₂_map_left_iff, List.forall₂_iff_get]
  refine ⟨List.length_range, fun i hi hi' => ?_⟩
  have hfile := h.files i hi'
  rw [Nat.zero_add] at hfile
  simpa using hfile

theorem Disk.concat_eq {disk : Disk} {paths : List PathBuf} {files : List Bytes}
    (h : List.Forall₂ (fun path bytes => disk path = some bytes) paths files) :
    disk.concat paths = files.flatten := by
  induction h with
  | nil => rfl
  | cons hfile _ ih =>
    rw [Disk.concat, List.flatMap_cons, hfile]
    exact congrArg (_ ++ ·) ih

theorem Writer.Filed.concat {host : WriterHost ε} {args : WriterArgs}
    {groups : List (List Payload)} {w v : Writer} (h : w.Filed host args 0 groups v) :
    v.disk.concat v.generatedShards = records host.order args.eosId groups.flatten := by
  rw [records_flatten]
  exact Disk.concat_eq (List.forall₂_map_right_iff.2 h.files_eq)

/-- What the shard writer guarantees of the files it names, whose contents are the
records of `groups`. -/
structure ShardFiles (order : ByteOrder) (args : WriterArgs) (payloads : List Payload)
    (paths : List PathBuf) (disk : Disk) (groups : List (List Payload)) : Prop where
  paths_eq : paths = (List.range groups.length).map (shardPath args.saveDir)
  nodup : paths.Nodup
  /-- A file holds whole records. -/
  files : List.Forall₂ (fun path group => disk path = some (records order args.eosId group))
    paths groups
  /-- Nothing is lost, added or reordered. -/
  concat : disk.concat paths = records order args.eosId payloads
  flatten : groups.flatten = payloads
  nonempty : ∀ group ∈ groups, group ≠ []
  /-- Every file but the last has reached the limit. -/
  full : ∀ group ∈ groups.dropLast,
    args.shardSizeBytes ≤ (records order args.eosId group).length
  /-- A file of more than one record was below the limit before its last record. -/
  small : ∀ group ∈ groups, group.length = 1 ∨
    (records order args.eosId group.dropLast).length < args.shardSizeBytes
  empty : paths = [] ↔ payloads = []

/-- Greedy groups in the shards are what the writer guarantees. -/
theorem Writer.Filed.shardFiles {host : WriterHost ε} {args : WriterArgs} {payloads : List Payload}
    {w v : Writer} (h : w.Filed host args 0
      (pack (recordSize host.order args.eosId) args.shardSizeBytes payloads) v) :
    ShardFiles host.order args payloads v.generatedShards v.disk
      (pack (recordSize host.order args.eosId) args.shardSizeBytes payloads) := by
  have hpaths := h.generatedShards
  rw [Nat.zero_add] at hpaths
  refine ⟨hpaths, ?_, h.files_eq, ?_, flatten_pack payloads, fun group => ne_nil_of_mem_pack,
    fun group hgroup => ?_, fun group hgroup => ?_, ?_⟩
  · rw [hpaths]
    exact List.nodup_range.map (shardPath_injective args.saveDir)
  · rw [h.concat, flatten_pack]
  · rw [length_records]
    exact limit_le_of_mem_pack hgroup
  · rw [length_records]
    exact small_of_mem_pack hgroup
  · rw [hpaths, List.map_eq_nil_iff, List.range_eq_nil, List.length_eq_zero_iff, pack_eq_nil]

/-- Without an I/O failure the writer returns the paths of shards that hold all the
records in arrival order, cut into whole records by the size limit. -/
theorem pretokenizeDataset_shards {host : WriterHost ε} (hio : ∀ k, (host.io k).result = .ok ())
    (args : WriterArgs) (disk : Disk) (payloads : List Payload) :
    ∃ paths disk' groups, pretokenizeDataset host args disk payloads = .ok (paths, disk') ∧
      ShardFiles host.order args payloads paths disk' groups := by
  obtain ⟨v, hv, hfiled⟩ := pretokenizeDataset_eq hio args disk payloads
  exact ⟨_, _, _, hv, hfiled.shardFiles⟩

/-- A machine on which every operation succeeds. -/
def WriterHost.reliable (order : ByteOrder) : WriterHost ε := ⟨order, fun _ => ⟨.ok (), 0⟩⟩

/-- Three records of 12, 8 and 4 bytes, a limit of 16 bytes: two shards. -/
theorem pretokenizeDataset_shards_three :
    ∃ paths disk' groups, pretokenizeDataset (WriterHost.reliable .little : WriterHost Unit)
        ⟨"out", 16, 7⟩ (fun _ => none) [[1, 2], [3], []] = .ok (paths, disk') ∧
      ShardFiles .little ⟨"out", 16, 7⟩ [[1, 2], [3], []] paths disk' groups ∧
      paths = ["out/pretokenized_shard_0.bin", "out/pretokenized_shard_1.bin"] := by
  obtain ⟨paths, disk', groups, hrun, hfiles⟩ := @pretokenizeDataset_shards Unit
    (WriterHost.reliable .little) (fun _ => rfl) ⟨"out", 16, 7⟩
    (fun _ => none) [[1, 2], [3], []]
  refine ⟨paths, disk', groups, hrun, hfiles, ?_⟩
  have hpaths : (pretokenizeDataset (WriterHost.reliable .little : WriterHost Unit)
      ⟨"out", 16, 7⟩ (fun _ => none) [[1, 2], [3], []]).toOption.map Prod.fst =
        some ["out/pretokenized_shard_0.bin", "out/pretokenized_shard_1.bin"] := by
    decide +kernel
  rw [hrun] at hpaths
  exact Option.some.inj hpaths

/-! ### How many shards -/

/-- The bytes of all files together. -/
theorem Writer.Filed.length_concat {host : WriterHost ε} {args : WriterArgs}
    {payloads : List Payload} {w v : Writer} (h : w.Filed host args 0
      (pack (recordSize host.order args.eosId) args.shardSizeBytes payloads) v) :
    (v.disk.concat v.generatedShards).length =
      weight (recordSize host.order args.eosId) payloads := by
  rw [h.concat, flatten_pack, length_records]

theorem recordSize_eq (order : ByteOrder) (eosId : UInt32) (payload : Payload) :
    recordSize order eosId payload = 4 * (payload.length + 1) := by
  rw [recordSize, record, List.length_append, length_encode]
  rfl

/-- **The writer cuts as often as it may.**  Without an I/O failure, no other way to cut the
records into files, in order and with every file but the last at the limit, has more
files.  A higher limit gives a part of the same paths, from the first one on.  Together the
files are as long as if all but the last had the limit, at least.  With a limit of 0 every
record is a file; with any other, no file is as long as the limit and the longest record
together. -/
theorem pretokenizeDataset_most {host : WriterHost ε} (hio : ∀ k, (host.io k).result = .ok ())
    (args : WriterArgs) (disk : Disk) (payloads : List Payload) :
    ∃ paths disk', pretokenizeDataset host args disk payloads = .ok (paths, disk') ∧
      (∀ groups : List (List Payload), groups.flatten = payloads → (∀ g ∈ groups, g ≠ []) →
        (∀ g ∈ groups.dropLast,
          args.shardSizeBytes ≤ (records host.order args.eosId g).length) →
        groups.length ≤ paths.length) ∧
      (∀ limit disk₂, args.shardSizeBytes ≤ limit → ∃ paths₂ disk₂',
        pretokenizeDataset host { args with shardSizeBytes := limit } disk₂ payloads =
          .ok (paths₂, disk₂') ∧ paths₂ <+: paths) ∧
      paths.length * args.shardSizeBytes ≤ (disk'.concat paths).length + args.shardSizeBytes ∧
      (args.shardSizeBytes = 0 → List.Forall₂ (fun path payload =>
        disk' path = some (records host.order args.eosId [payload])) paths payloads) ∧
      (0 < args.shardSizeBytes → ∀ longest, (∀ payload ∈ payloads, payload.length ≤ longest) →
        (disk'.concat paths).length + paths.length ≤
          paths.length * (args.shardSizeBytes + 4 * (longest + 1))) := by
  obtain ⟨v, hv, hfiled⟩ := pretokenizeDataset_eq hio args disk payloads
  have hpaths := hfiled.generatedShards
  rw [Nat.zero_add] at hpaths
  have hlen : v.generatedShards.length =
      (pack (recordSize host.order args.eosId) args.shardSizeBytes payloads).length := by
    rw [hpaths, List.length_map, List.length_range]
  refine ⟨_, _, hv, fun groups hflat hne hfull => ?_, fun limit disk₂ hle => ?_, ?_,
    fun hzero => ?_, fun hlimit longest hlong => ?_⟩
  · rw [hlen]
    refine Cut.length_le ⟨hflat, hne, fun g hg => ?_⟩
    rw [← length_records]
    exact hfull g hg
  · obtain ⟨v₂, hv₂, hfiled₂⟩ := pretokenizeDataset_eq hio { args with shardSizeBytes := limit }
      disk₂ payloads
    refine ⟨_, _, hv₂, ?_⟩
    have hpaths₂ := hfiled₂.generatedShards
    rw [Nat.zero_add] at hpaths₂
    have hcount := @length_pack_antitone _ (recordSize host.order args.eosId) _ _ hle payloads
    rw [hpaths, hpaths₂]
    refine List.IsPrefix.map _ ?_
    obtain ⟨more, hmore⟩ := Nat.exists_eq_add_of_le hcount
    rw [hmore, List.range_add]
    exact List.prefix_append _ _
  · rw [hlen, hfiled.length_concat]
    exact (cut_pack _ _ _).length_mul_le
  · have hfiles := hfiled.files_eq
    rw [hzero, pack_zero, List.forall₂_map_right_iff] at hfiles
    exact hfiles
  · rw [hlen, hfiled.length_concat]
    refine weight_add_length_le hlimit fun payload hp => ?_
    rw [recordSize_eq]
    exact Nat.mul_le_mul_left 4 (Nat.succ_le_succ (hlong payload hp))

/-- Five records of 4 bytes and a limit of 8: three files.  With a limit of 0 each of them
has its own. -/
theorem pretokenizeDataset_most_five :
    ∃ paths disk', pretokenizeDataset (WriterHost.reliable .little : WriterHost Unit)
        ⟨"out", 8, 7⟩ (fun _ => none) [[], [], [], [], []] = .ok (paths, disk') ∧
      paths.length = 3 ∧
      ∃ paths₀ disk₀, pretokenizeDataset (WriterHost.reliable .little : WriterHost Unit)
          ⟨"out", 0, 7⟩ (fun _ => none) [[], [], [], [], []] = .ok (paths₀, disk₀) ∧
        paths₀.length = 5 := by
  obtain ⟨paths, disk', hrun, hmost, -, hlow, -⟩ := @pretokenizeDataset_most Unit
    (WriterHost.reliable .little) (fun _ => rfl) ⟨"out", 8, 7⟩ (fun _ => none) [[], [], [], [], []]
  obtain ⟨paths₀, disk₀, hrun₀, -, -, -, hsingle, -⟩ := @pretokenizeDataset_most Unit
    (WriterHost.reliable .little) (fun _ => rfl) ⟨"out", 0, 7⟩ (fun _ => none) [[], [], [], [], []]
  refine ⟨paths, disk', hrun, ?_, paths₀, disk₀, hrun₀, (hsingle rfl).length_eq⟩
  have hthree := hmost [[[], []], [[], []], [[]]] rfl (by decide) (by decide)
  obtain ⟨w, hw, hfiled⟩ := @pretokenizeDataset_eq Unit (WriterHost.reliable .little)
    (fun _ => rfl) ⟨"out", 8, 7⟩ (fun _ => none) [[], [], [], [], []]
  obtain ⟨rfl, rfl⟩ := Prod.mk.inj (Except.ok.inj (hrun.symm.trans hw))
  rw [hfiled.length_concat] at hlow
  have hbytes : weight (recordSize ByteOrder.little 7) [[], [], [], [], []] = 20 := by decide
  change _ * 8 ≤ weight (recordSize ByteOrder.little 7) [[], [], [], [], []] + 8 at hlow
  have hthree : 3 ≤ w.generatedShards.length := hthree
  omega

end Plast
