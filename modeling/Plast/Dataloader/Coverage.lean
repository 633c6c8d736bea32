/-
# How much of a corpus an epoch trains on

The shards are cut at record borders by size, the pairs of an epoch at multiples of
`num_elements` inside a shard, and the two sizes know nothing of each other.  The inputs of
a shard are its front, and every shard leaves at its end between 1 and `n` tokens that are
in no input.

So an epoch trains on all tokens but `n` for every `shard_size_bytes` of the corpus, and
`n` more.  That is little while the shards are large against the windows.  If a shard is
sure to hold a window, every shard but the last gives a pair; if the limit and the
longest payload together are not longer than a window, the epoch is empty, however large
the corpus (`epoch_covers`).
-/

import Plast.Dataloader.EndToEnd

namespace Plast

open Machine Batches ShiftedPairs Endian

variable {ε : Type} {eosId : UInt32} {limit n : ℕ} {payloads : List Payload}

/-- The shards as blocks of tokens. -/
def shardTokens (eosId : UInt32) (limit : ℕ) (payloads : List Payload) : List (List UInt32) :=
  (pack (recordSize .little eosId) limit payloads).map (tokenStream eosId)

theorem flatten_shardTokens :
    (shardTokens eosId limit payloads).flatten = tokenStream eosId payloads := by
  rw [shardTokens, ← tokenStream_flatten, flatten_pack]

/-- The bytes of a shard are four for each token. -/
theorem weight_eq_tokens (payloads : List Payload) :
    weight (recordSize .little eosId) payloads = 4 * (tokenStream eosId payloads).length := by
  rw [← length_records, records_little, length_encode]

theorem shardTokens_ne_nil {tokens : List UInt32}
    (h : tokens ∈ shardTokens eosId limit payloads) : tokens ≠ [] := by
  obtain ⟨group, hgroup, rfl⟩ := List.mem_map.1 h
  obtain ⟨payload, rest, rfl⟩ := List.exists_cons_of_ne_nil (ne_nil_of_mem_pack hgroup)
  simp [tokenStream]

/-- Every shard but the last has reached the limit. -/
theorem limit_le_shardTokens {tokens : List UInt32}
    (h : tokens ∈ (shardTokens eosId limit payloads).dropLast) : limit ≤ 4 * tokens.length := by
  rw [shardTokens, ← List.map_dropLast] at h
  obtain ⟨group, hgroup, rfl⟩ := List.mem_map.1 h
  rw [← weight_eq_tokens]
  exact limit_le_of_mem_pack hgroup

/-- No shard is longer than the limit by more than the longest record. -/
theorem length_shardTokens_le {longest : ℕ} (hlong : ∀ payload ∈ payloads, payload.length ≤ longest)
    {tokens : List UInt32} (h : tokens ∈ shardTokens eosId limit payloads) :
    4 * tokens.length ≤ limit - 1 + 4 * (longest + 1) := by
  obtain ⟨group, hgroup, rfl⟩ := List.mem_map.1 h
  rw [← weight_eq_tokens]
  refine weight_le_of_mem_pack (fun payload hp => ?_) hgroup
  rw [recordSize_eq]
  exact Nat.mul_le_mul_left 4 (Nat.succ_le_succ (hlong payload hp))

/-- Shards of at least `limit` bytes, but for the last, leave `n` tokens each at most. -/
theorem lost_le {shards tokens lost : ℕ} (hlost : lost ≤ shards * n)
    (hcut : shards * limit ≤ 4 * tokens + limit) : lost * limit ≤ n * (4 * tokens + limit) :=
  calc lost * limit ≤ shards * n * limit := Nat.mul_le_mul_right limit hlost
    _ = n * (shards * limit) := by rw [Nat.mul_comm shards n, Nat.mul_assoc]
    _ ≤ n * (4 * tokens + limit) := Nat.mul_le_mul_left n hcut

/-- What an epoch with these items makes of shards with these tokens. -/
structure Covers (limit n : ℕ) (payloads : List Payload) (blocks : List (List UInt32))
    (items : List (List UInt32 × List UInt32)) : Prop where
  /-- The items are the consecutive pairs of the shards. -/
  pairs : items = blocks.flatMap (blockPairs n)
  /-- The inputs of a shard are its front, up to at least one token and at most `n`. -/
  left : ∀ block ∈ blocks, ∃ rest, (blockPairs n block).flatMap Prod.fst ++ rest = block ∧
    1 ≤ rest.length ∧ rest.length ≤ n
  /-- So much is in no input: at least a token for every shard, at most `n` for every `limit`
  bytes of the corpus and `n` more. -/
  lost : ∃ lost, (items.flatMap Prod.fst).length + lost = blocks.flatten.length ∧
    blocks.length ≤ lost ∧ lost * limit ≤ n * (4 * blocks.flatten.length + limit)
  /-- Every full shard gives a pair if the limit is above a window. -/
  full : 4 * (n + 1) ≤ limit → ∀ block ∈ blocks.dropLast, blockPairs n block ≠ []
  /-- There is no pair if the limit and the longest payload are not above a window. -/
  empty : ∀ longest, (∀ payload ∈ payloads, payload.length ≤ longest) → longest < n →
    limit + 4 * longest ≤ 4 * n → items = []

/-- The pairs of the shards cover the stream so far. -/
theorem covers_shardTokens (hn : 1 ≤ n) (payloads : List Payload) :
    Covers limit n payloads (shardTokens eosId limit payloads)
      ((shardTokens eosId limit payloads).flatMap (blockPairs n)) := by
  have hne : ∀ block ∈ shardTokens eosId limit payloads, block ≠ [] := fun _ =>
    shardTokens_ne_nil
  refine ⟨rfl, fun block hblock => exists_rest hn (hne block hblock), ?_,
    fun hlimit block hblock => ?_, fun longest hlong hshort hwindow => ?_⟩
  · obtain ⟨lost, hsum, hleast, hmost⟩ := exists_lost hn hne
    refine ⟨lost, hsum, hleast, lost_le hmost ?_⟩
    rw [shardTokens, List.length_map, ← shardTokens, flatten_shardTokens, ← weight_eq_tokens]
    exact (cut_pack _ limit payloads).length_mul_le
  · have hlen := limit_le_shardTokens hblock
    have hpair := (Nat.le_div_iff_mul_le hn).2 (show 1 * n ≤ block.length - 1 by omega)
    rw [Ne, blockPairs_eq_nil]
    omega
  · refine List.flatMap_eq_nil_iff.2 fun block hblock => ?_
    have hlen := length_shardTokens_le hlong hblock
    exact blockPairs_eq_nil.2 (Nat.div_eq_of_lt (by omega))

/-- **How much of the corpus an epoch covers.**  On a little-endian machine and without an
I/O failure the returned shards are blocks of the token stream.  However they are cut, they
give an epoch of pairs on both backends and on every schedule, and each such epoch covers
the blocks up to `n` tokens at the end of each: never all of them, and nothing if they are
shorter than a window. -/
theorem epoch_covers {ε₂ : Type} {writer : WriterHost ε} (horder : writer.order = .little)
    (hio : ∀ k, (writer.io k).result = .ok ()) (args : WriterArgs) (disk : Disk)
    (payloads : List Payload) :
    ∃ paths disk' blocks, pretokenizeDataset writer args disk payloads = .ok (paths, disk') ∧
      disk'.Holds paths blocks ∧ blocks.flatten = tokenStream args.eosId payloads ∧
      ∀ (host : Host ε₂) (backend : Backend) (st : Storage), host.Shows disk' →
        host.Readable paths → backend.load host paths = .ok st → ∀ n, 1 ≤ n →
        (∃ items d', StorageLoader.Epoch host (StorageLoader.TfIterNext host)
          ⟨st, n, u32Converter⟩ items d') ∧
        ∀ items d', StorageLoader.Epoch host (StorageLoader.TfIterNext host)
            ⟨st, n, u32Converter⟩ items d' →
          Covers args.shardSizeBytes n payloads blocks items := by
  obtain ⟨v, hv, hfiled⟩ := pretokenizeDataset_eq hio args disk payloads
  have hholds := hfiled.holds horder
  rw [horder] at hholds
  refine ⟨_, _, shardTokens args.eosId args.shardSizeBytes payloads, hv, hholds,
    flatten_shardTokens, fun host backend st hshow hread hload n hn => ?_⟩
  have hshards := hholds.shards_eq hshow fun path hpath => (hread path hpath).imp fun _ h => h.1
  have hepoch := StorageLoader.first_epoch_iff hread hload hshards hn
  refine ⟨⟨_, (hepoch _).2 rfl⟩, fun items d' h => ?_⟩
  rw [(hepoch items).1 ⟨d', h⟩]
  exact covers_shardTokens hn payloads

/-- Three records of 6 tokens in shards of at least 16 bytes.  In windows of 2 tokens the
epoch over the prefetching backend has the two pairs of the first shard, and leaves a token
of each of the two shards; in windows of 6 it is empty. -/
theorem epoch_covers_two :
    ∃ paths disk', pretokenizeDataset (WriterHost.reliable .little : WriterHost Unit)
        ⟨"out", 16, 7⟩ (fun _ => none) [[1, 2], [3], []] = .ok (paths, disk') ∧
      disk'.Holds paths [[1, 2, 7, 3, 7], [7]] ∧
      ∃ (host : Host Unit) (st : Storage), (Backend.buffer 1).load host paths = .ok st ∧
        (∃ items d', StorageLoader.Epoch host (StorageLoader.TfIterNext host)
            ⟨st, 2, u32Converter⟩ items d' ∧
          Covers 16 2 [[1, 2], [3], []] [[1, 2, 7, 3, 7], [7]] items ∧
          items = [([1, 2], [2, 7]), ([7, 3], [3, 7])]) ∧
        ∃ d', StorageLoader.Epoch host (StorageLoader.TfIterNext host)
          ⟨st, 6, u32Converter⟩ [] d' := by
  obtain ⟨paths, disk', blocks, hrun, hholds, -, hepochs⟩ := @epoch_covers Unit Unit
    (WriterHost.reliable .little) rfl (fun _ => rfl) ⟨"out", 16, 7⟩ (fun _ => none)
    [[1, 2], [3], []]
  have hblocks : disk'.Holds paths [[1, 2, 7, 3, 7], [7]] :=
    Disk.holds_of_pretokenizeDataset (fun _ => rfl) rfl hrun
  obtain rfl := hholds.unique hblocks
  let host : Host Unit := fun path => File.ofBytes ((disk' path).getD [])
  have hread : host.Readable paths := fun path _ => File.ofBytes_readable _
  obtain ⟨st, hload⟩ : ∃ st, (Backend.buffer 1).load host paths = .ok st :=
    ⟨_, map_eq_ok.2 ⟨_, BufferSystem.loadData_of_readable hread 1, rfl⟩⟩
  have hcovers := hepochs host _ st (Host.shows_ofBytes disk') hread hload
  obtain ⟨⟨items, d', hepoch⟩, htwo⟩ := hcovers 2 (by decide)
  obtain ⟨⟨none, d'', hnone⟩, hsix⟩ := hcovers 6 (by decide)
  obtain rfl := (hsix none d'' hnone).empty 2 (by decide) (by decide) (by decide)
  have hitems := htwo items d' hepoch
  exact ⟨paths, disk', hrun, hholds, host, st, hload, ⟨items, d', hepoch, hitems, hitems.pairs⟩,
    d'', hnone⟩

end Plast
