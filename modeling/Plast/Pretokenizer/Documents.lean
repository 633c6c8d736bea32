/-
# Documents in the shards

Every payload is followed by the separator, so a reader that cuts a shard after each
separator gets pieces that it can take for documents.  A shard ends with a separator,
hence nothing remains after its last cut; a payload that contains the separator is
cut there too (`documents_tokenStream`).  The pieces of all shards are the payloads
exactly when no payload contains the separator (`documents_eq_payloads_iff`).
-/

import Plast.Pretokenizer.Corpus

namespace Plast

open Endian

variable {ε : Type} {eosId : UInt32}

/-- The pieces that end with a separator, without it. -/
def documents (eosId : UInt32) (tokens : List UInt32) : List Payload :=
  (tokens.splitOn eosId).dropLast

/-- What follows the last separator. -/
def remainder (eosId : UInt32) (tokens : List UInt32) : List UInt32 :=
  (tokens.splitOn eosId).getLast (List.splitOn_ne_nil eosId tokens)

/-- The tokens that a file says in little-endian `u32`. -/
def Disk.tokens (disk : Disk) (path : PathBuf) : List UInt32 :=
  decode ((disk path).getD [])

theorem documents_append_remainder (eosId : UInt32) (tokens : List UInt32) :
    documents eosId tokens ++ [remainder eosId tokens] = tokens.splitOn eosId :=
  List.dropLast_append_getLast _

theorem notMem_of_mem_splitOn {tokens piece : List UInt32} (h : piece ∈ tokens.splitOn eosId) :
    eosId ∉ piece := by
  induction tokens generalizing piece with
  | nil =>
    rw [List.splitOn_nil, List.mem_singleton] at h
    rw [h]
    exact List.not_mem_nil
  | cons token tokens ih =>
    obtain ⟨first, rest, hpieces⟩ :=
      List.exists_cons_of_ne_nil (List.splitOn_ne_nil eosId tokens)
    rw [hpieces] at ih
    rw [List.splitOn_cons_eq_if_modifyHead, hpieces] at h
    split at h
    · rcases List.mem_cons.1 h with rfl | hmem
      · exact List.not_mem_nil
      · exact ih hmem
    · rename_i hne
      rcases List.mem_cons.1 h with rfl | hmem
      · rw [List.mem_cons, not_or]
        exact ⟨fun heq => hne (beq_iff_eq.2 heq.symm), ih List.mem_cons_self⟩
      · exact ih (List.mem_cons_of_mem _ hmem)

/-- A payload is one piece exactly when it does not contain the separator. -/
theorem splitOn_eq_singleton_iff {payload : Payload} :
    payload.splitOn eosId = [payload] ↔ eosId ∉ payload :=
  ⟨fun h => notMem_of_mem_splitOn (h ▸ List.mem_singleton_self payload),
    List.splitOn_eq_singleton⟩

/-- The pieces are what was written if every piece is followed by a separator and the
remainder by none. -/
theorem tokenStream_documents (tokens : List UInt32) :
    tokenStream eosId (documents eosId tokens) ++ remainder eosId tokens = tokens := by
  have hjoin : ∀ (pieces : List Payload) (last : List UInt32),
      [eosId].intercalate (pieces ++ [last]) = tokenStream eosId pieces ++ last := by
    intro pieces last
    induction pieces with
    | nil => simp [tokenStream]
    | cons piece pieces ih =>
      rw [List.cons_append, List.intercalate_cons_of_ne_nil (by simp), ih, ← List.append_assoc]
      rfl
  rw [← hjoin, documents_append_remainder, List.intercalate_splitOn]

/-- Cutting a token stream: every payload is cut at the separators in it, and at its end. -/
theorem splitOn_tokenStream (payloads : List Payload) :
    (tokenStream eosId payloads).splitOn eosId =
      payloads.flatMap (fun payload => payload.splitOn eosId) ++ [[]] := by
  induction payloads with
  | nil => exact List.splitOn_nil eosId
  | cons payload payloads ih =>
    rw [tokenStream, List.flatMap_cons, List.append_assoc, List.singleton_append,
      List.splitOn_append_cons_self, List.flatMap_cons, List.append_assoc, ← ih]
    rfl

theorem documents_tokenStream (payloads : List Payload) :
    documents eosId (tokenStream eosId payloads) =
      payloads.flatMap fun payload => payload.splitOn eosId := by
  rw [documents, splitOn_tokenStream, List.dropLast_concat]

theorem remainder_tokenStream (payloads : List Payload) :
    remainder eosId (tokenStream eosId payloads) = [] := by
  unfold remainder
  simp only [splitOn_tokenStream, List.getLast_append_singleton]

/-- The pieces of the payloads are the payloads exactly when none contains the separator. -/
theorem flatMap_splitOn_eq_iff (payloads : List Payload) :
    (payloads.flatMap fun payload => payload.splitOn eosId) = payloads ↔
      ∀ payload ∈ payloads, eosId ∉ payload := by
  constructor
  · intro h payload hmem
    rw [← h, List.mem_flatMap] at hmem
    obtain ⟨_, -, hpiece⟩ := hmem
    exact notMem_of_mem_splitOn hpiece
  · intro h
    rw [List.flatMap_congr fun payload hmem => splitOn_eq_singleton_iff.2 (h payload hmem)]
    exact List.flatMap_singleton' payloads

variable {disk : Disk} {paths : List PathBuf} {blocks : List (List UInt32)}

theorem Disk.tokens_of_encode {path : PathBuf} {tokens : List UInt32}
    (h : disk path = some (ByteOrder.little.encode tokens)) : disk.tokens path = tokens := by
  rw [Disk.tokens, h, Option.getD_some, decode_encode_little]

theorem Disk.Holds.map_tokens (h : disk.Holds paths blocks) : paths.map disk.tokens = blocks := by
  induction h with
  | nil => rfl
  | cons hfile _ ih => rw [List.map_cons, Disk.tokens_of_encode hfile, ih]

theorem Disk.Holds.exists_block (h : disk.Holds paths blocks) : ∀ path ∈ paths,
    ∃ tokens ∈ blocks, disk path = some (ByteOrder.little.encode tokens) ∧
      disk.tokens path = tokens := by
  induction h with
  | nil => exact fun path hpath => absurd hpath List.not_mem_nil
  | cons hfile _ ih =>
    refine List.forall_mem_cons.2 ⟨⟨_, List.mem_cons_self, hfile, tokens_of_encode hfile⟩, ?_⟩
    exact fun path hpath => (ih path hpath).imp fun tokens h => ⟨List.mem_cons_of_mem _ h.1, h.2⟩

/-- On a little-endian machine and without an I/O failure a shard file holds whole words,
nothing remains after its last separator, and the pieces of the shards in order are the
payloads exactly when no payload contains the separator. -/
theorem documents_eq_payloads_iff {host : WriterHost ε} (horder : host.order = .little)
    (hio : ∀ k, (host.io k).result = .ok ()) (args : WriterArgs) (disk : Disk)
    (payloads : List Payload) :
    ∃ paths disk', pretokenizeDataset host args disk payloads = .ok (paths, disk') ∧
      (∀ path ∈ paths, ∃ bytes, disk' path = some bytes ∧ bytes.length % 4 = 0 ∧
        remainder args.eosId (disk'.tokens path) = []) ∧
      ((paths.flatMap fun path => documents args.eosId (disk'.tokens path)) = payloads ↔
        ∀ payload ∈ payloads, args.eosId ∉ payload) := by
  obtain ⟨v, hv, hfiled⟩ := pretokenizeDataset_eq hio args disk payloads
  have hholds := hfiled.holds horder
  refine ⟨_, _, hv, fun path hpath => ?_, ?_⟩
  · obtain ⟨tokens, hblock, hfile, htokens⟩ := hholds.exists_block path hpath
    obtain ⟨group, -, rfl⟩ := List.mem_map.1 hblock
    refine ⟨_, hfile, ?_, ?_⟩
    · rw [length_encode, Nat.mul_mod_right]
    · rw [htokens, remainder_tokenStream]
  · have hpieces : (v.generatedShards.flatMap fun path => documents args.eosId (v.disk.tokens path)) =
        payloads.flatMap fun payload => payload.splitOn args.eosId := by
      rw [← List.flatMap_map, hholds.map_tokens, List.flatMap_map]
      simp only [documents_tokenStream]
      rw [← List.flatMap_assoc, List.flatMap_id', Batches.flatten_pack]
    rw [hpieces]
    exact flatMap_splitOn_eq_iff payloads

/-- Three documents, one of them empty, come back from shards of one or two records. -/
theorem documents_eq_payloads_three :
    ∃ paths disk', pretokenizeDataset (WriterHost.reliable .little : WriterHost Unit)
        ⟨"out", 5, 7⟩ (fun _ => none) [[1, 2], [], [3]] = .ok (paths, disk') ∧
      (paths.flatMap fun path => documents 7 (disk'.tokens path)) = [[1, 2], [], [3]] := by
  obtain ⟨paths, disk', hrun, -, hiff⟩ := @documents_eq_payloads_iff Unit
    (WriterHost.reliable .little) rfl (fun _ => rfl) ⟨"out", 5, 7⟩ (fun _ => none)
    [[1, 2], [], [3]]
  exact ⟨paths, disk', hrun, hiff.2 (by decide)⟩

end Plast
