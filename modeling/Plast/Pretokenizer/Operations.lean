/-
# The shard writer as a list of operations

`plan` lists what the writer does to its files for the groups of records that the
greedy rule of `Batches.pack` cuts: create a file, write each record in two parts,
flush it, and go on with the next.  A `Session` is what these operations work on,
the disk and what the open file has been given.

The receive loop performs that list and nothing else, up to the first operation
that fails (`pretokenizeDataset_alike`).  `Writer.Follows` is the simulation behind
it: the loop has the file of the session open, and counts the bytes of its records.
`planFrom` is the part of the list that is left while a file is open.

`filed` is the disk once the groups are in their files.  A run that succeeds leaves
that disk, and one that fails breaks at one shard with the earlier ones filed
(`pretokenizeDataset_ends`), at the first operation that fails
(`pretokenizeDataset_error`).
-/

import Plast.Pretokenizer.Writer
import Plast.Library.Batches
import Plast.Library.FailStop
import Mathlib.Data.List.Induction

namespace Plast

open Endian Machine Batches FailStop

variable {ε : Type}

/-- Different shards have different paths. -/
theorem join_injective (dir : PathBuf) : Function.Injective (join dir) := by
  intro name name' h
  unfold join at h
  split at h
  · exact (String.append_right_inj _).1 h
  · exact (String.append_right_inj _).1 h

theorem shardPath_injective (saveDir : PathBuf) : Function.Injective (shardPath saveDir) := by
  intro m n h
  have hname : "pretokenized_shard_" ++ m.repr ++ ".bin" =
      "pretokenized_shard_" ++ n.repr ++ ".bin" := join_injective saveDir h
  have hrepr : m.repr = n.repr :=
    (String.append_right_inj _).1 ((String.append_left_inj _).1 hname)
  have hdigits : Nat.toDigits 10 m = Nat.toDigits 10 n := by
    rw [← Nat.toList_repr, ← Nat.toList_repr, hrepr]
  rw [← @Nat.ofDigitChars_ten_toDigits m, hdigits, Nat.ofDigitChars_ten_toDigits]

theorem shardPath_ne (saveDir : PathBuf) {m n : ℕ} (h : m < n) :
    shardPath saveDir m ≠ shardPath saveDir n :=
  fun heq => absurd (shardPath_injective saveDir heq) (Nat.ne_of_lt h)

namespace Disk

@[simp] theorem write_same (disk : Disk) (path : PathBuf) (bytes : Bytes) :
    disk.write path bytes path = some bytes := if_pos rfl

theorem write_other (disk : Disk) {path p : PathBuf} (bytes : Bytes) (h : p ≠ path) :
    disk.write path bytes p = disk p := if_neg h

end Disk

/-- The bytes written for one payload: its ids, and the separator. -/
def record (order : ByteOrder) (eosId : UInt32) (payload : Payload) : Bytes :=
  order.encode payload ++ toLeBytes eosId

/-- The bytes written for several payloads. -/
def records (order : ByteOrder) (eosId : UInt32) (payloads : List Payload) : Bytes :=
  payloads.flatMap (record order eosId)

/-- The number of bytes written for one payload. -/
def recordSize (order : ByteOrder) (eosId : UInt32) (payload : Payload) : ℕ :=
  (record order eosId payload).length

theorem length_records (order : ByteOrder) (eosId : UInt32) (payloads : List Payload) :
    (records order eosId payloads).length = weight (recordSize order eosId) payloads := by
  rw [records, List.length_flatMap]
  rfl

/-! ### Operations -/

/-- An operation of the writer on the file of a shard. -/
inductive Operation
  | create (n : ℕ)
  | write (n : ℕ) (bytes : Bytes)
  | flush (n : ℕ)
  deriving DecidableEq, Repr

/-- The disk, and the open file: what was written to it, and how much of that has
reached it. -/
structure Session where
  written : Bytes
  reached : ℕ
  disk : Disk

namespace Operation

/-- The shard whose file the operation works on. -/
def shard : Operation → ℕ
  | .create n | .write n _ | .flush n => n

/-- The error that a failure of the operation is reported as. -/
def error (saveDir : PathBuf) (source : ε) : Operation → PretokenizerError ε
  | .create n => .shardCreationFailed source (shardPath saveDir n)
  | .write n _ => .writeFailed source (shardPath saveDir n)
  | .flush n => .flushFailed source (shardPath saveDir n)

/-- The session after the operation has succeeded. -/
def done (saveDir : PathBuf) (reached : ℕ) (s : Session) : Operation → Session
  | .create n => ⟨[], 0, s.disk.write (shardPath saveDir n) []⟩
  | .write n bytes =>
    let written := s.written ++ bytes
    let reached := max s.reached (min reached written.length)
    ⟨written, reached, s.disk.write (shardPath saveDir n) (written.take reached)⟩
  | .flush n => ⟨s.written, s.reached, s.disk.write (shardPath saveDir n) s.written⟩

/-- The disk after the operation has failed. -/
def torn (saveDir : PathBuf) (reached : ℕ) (s : Session) : Operation → Disk
  | .create _ => s.disk
  | .write n bytes =>
    let written := s.written ++ bytes
    s.disk.write (shardPath saveDir n)
      (written.take (max s.reached (min reached written.length)))
  | .flush n => s.disk.write (shardPath saveDir n) (s.written.take (max s.reached reached))

/-- Operation number `k`. -/
def act (host : WriterHost ε) (saveDir : PathBuf) (k : ℕ) (op : Operation) (s : Session) :
    Except (Failure ε) Session :=
  match (host.io k).result with
  | .ok () => .ok (op.done saveDir (host.io k).reached s)
  | .error e => .error ⟨op.error saveDir e, op.torn saveDir (host.io k).reached s⟩

/-- An error tells the shard, and whether its file was being created. -/
theorem error_inj {saveDir : PathBuf} {e e' : ε} {op op' : Operation}
    (h : op.error saveDir e = op'.error saveDir e') :
    op.shard = op'.shard ∧ ((∃ n, op = .create n) ↔ ∃ n, op' = .create n) := by
  cases op <;> cases op' <;> simp [error, shard] at h ⊢ <;>
    exact shardPath_injective saveDir h.2

theorem act_ok {host : WriterHost ε} {k : ℕ} (h : (host.io k).result = .ok ()) (saveDir : PathBuf)
    (op : Operation) (s : Session) :
    op.act host saveDir k s = .ok (op.done saveDir (host.io k).reached s) := by
  simp only [act, h]

theorem act_error {host : WriterHost ε} {k : ℕ} {e : ε} (h : (host.io k).result = .error e)
    (saveDir : PathBuf) (op : Operation) (s : Session) :
    op.act host saveDir k s =
      .error ⟨op.error saveDir e, op.torn saveDir (host.io k).reached s⟩ := by
  simp only [act, h]

/-- Only the answer decides whether an operation succeeds. -/
theorem act_ok_iff (host : WriterHost ε) (saveDir : PathBuf) (k : ℕ) (op : Operation)
    (s : Session) :
    (∃ t, op.act host saveDir k s = .ok t) ↔ (host.io k).result = .ok () := by
  cases h : (host.io k).result with
  | ok u => simp [act_ok h]
  | error e => simp [act_error h]

end Operation

/-- Perform operations, numbered from `k` on. -/
abbrev performAll (host : WriterHost ε) (saveDir : PathBuf) :
    ℕ → List Operation → Session → Except (Failure ε) Session :=
  perform fun k op s => op.act host saveDir k s

theorem performAll_ok_iff {host : WriterHost ε} {saveDir : PathBuf} {k : ℕ}
    {ops : List Operation} {s : Session} :
    (∃ t, performAll host saveDir k ops s = .ok t) ↔
      ∀ j < ops.length, (host.io (k + j)).result = .ok () :=
  @perform_ok_iff _ _ _ _ (fun k => (host.io k).result = .ok ())
    (fun k op s => Operation.act_ok_iff host saveDir k op s) k ops s

/-- The two writes of one record. -/
def recordOps (order : ByteOrder) (eosId : UInt32) (n : ℕ) (payload : Payload) : List Operation :=
  [.write n (order.encode payload), .write n (toLeBytes eosId)]

/-- The operations on one shard. -/
def shardOps (order : ByteOrder) (eosId : UInt32) (n : ℕ) (batch : List Payload) :
    List Operation :=
  .create n :: batch.flatMap (recordOps order eosId n) ++ [.flush n]

/-- The operations on the shards from `n` on. -/
def plan (order : ByteOrder) (eosId : UInt32) : ℕ → List (List Payload) → List Operation
  | _, [] => []
  | n, batch :: groups => shardOps order eosId n batch ++ plan order eosId (n + 1) groups

/-- The operations that are left when shard `n` is open and holds `batch`. -/
def planFrom (order : ByteOrder) (args : WriterArgs) :
    ℕ → List Payload → List Payload → List Operation
  | n, _, [] => [.flush n]
  | n, batch, payload :: payloads =>
    if args.shardSizeBytes ≤ weight (recordSize order args.eosId) batch then
      [.flush n, .create (n + 1)] ++ recordOps order args.eosId (n + 1) payload ++
        planFrom order args (n + 1) [payload] payloads
    else
      recordOps order args.eosId n payload ++ planFrom order args n (batch ++ [payload]) payloads

/-- What is left completes the operations on the groups. -/
theorem planFrom_eq (order : ByteOrder) (args : WriterArgs) (n : ℕ) (batch payloads : List Payload) :
    .create n :: batch.flatMap (recordOps order args.eosId n) ++
        planFrom order args n batch payloads =
      plan order args.eosId n
        (packFrom (recordSize order args.eosId) args.shardSizeBytes batch payloads) := by
  induction payloads generalizing n batch with
  | nil => simp [planFrom, packFrom, plan, shardOps]
  | cons payload payloads ih =>
    rcases Nat.lt_or_ge (weight (recordSize order args.eosId) batch) args.shardSizeBytes
      with hlt | hle
    · rw [packFrom_of_lt hlt, planFrom, if_neg (Nat.not_le.2 hlt), ← ih]
      simp
    · rw [packFrom_of_le hle, planFrom, if_pos hle, plan, ← ih]
      simp [shardOps]

/-! ### The loop performs the plan -/

namespace Writer

variable {host : WriterHost ε} {args : WriterArgs} {w : Writer} {s : Session} {k n : ℕ}

/-- The writer has the file of the session open, as shard `n`, before operation `k`. -/
structure Tracks (args : WriterArgs) (k n : ℕ) (s : Session) (w : Writer) : Prop where
  buf : w.buf = some ⟨shardPath args.saveDir n, s.written, s.reached⟩
  disk : w.disk = s.disk
  operations : w.operations = k
  currentFilePath : w.currentFilePath = shardPath args.saveDir n
  shardCount : w.shardCount = n + 1
  generatedShards : w.generatedShards = (List.range (n + 1)).map (shardPath args.saveDir)

/-- Moreover, the records of `batch` have been written to it. -/
structure Follows (host : WriterHost ε) (args : WriterArgs) (k n : ℕ) (batch : List Payload)
    (s : Session) (w : Writer) : Prop extends w.Tracks args k n s where
  written : s.written = records host.order args.eosId batch
  currentShardBytes : w.currentShardBytes = weight (recordSize host.order args.eosId) batch

/-- The writer has no file open, and shard `n` is the next, before operation `k`. -/
structure Between (args : WriterArgs) (k n : ℕ) (s : Session) (w : Writer) : Prop where
  buf : w.buf = none
  disk : w.disk = s.disk
  operations : w.operations = k
  shardCount : w.shardCount = n
  generatedShards : w.generatedShards = (List.range n).map (shardPath args.saveDir)

/-- `write_all` is a write. -/
theorem writeAll_alike (h : w.Tracks args k n s) (bytes : Bytes) :
    Alike (fun (p : BufWriter × Writer) t => p.2.Tracks args (k + 1) n t ∧ p.2.buf = some p.1 ∧
        t.written = s.written ++ bytes ∧ p.2.currentShardBytes = w.currentShardBytes)
      (w.writeAll host ⟨shardPath args.saveDir n, s.written, s.reached⟩ bytes)
      ((Operation.write n bytes).act host args.saveDir k s) := by
  obtain ⟨hbuf, hdisk, hk, hpath, hcount, hshards⟩ := h
  subst hk
  unfold writeAll
  cases hio : (host.io w.operations).result with
  | ok u =>
    rw [Operation.act_ok hio]
    exact .ok ⟨⟨rfl, by rw [hdisk]; rfl, rfl, hpath, hcount, hshards⟩, rfl, rfl, rfl⟩
  | error e =>
    rw [Operation.act_error hio]
    simp only [hpath, hdisk]
    exact .error _

/-- A record is written in two parts. -/
theorem writeRecord_alike {batch : List Payload} (h : w.Follows host args k n batch s)
    (payload : Payload) :
    Alike (fun v t => v.Follows host args (k + 2) n (batch ++ [payload]) t)
      (w.writeRecord host (host.order.encode payload) (toLeBytes args.eosId))
      (performAll host args.saveDir k (recordOps host.order args.eosId n payload) s) := by
  simp only [writeRecord, h.buf]
  refine (writeAll_alike h.toTracks _).bind ?_
  rintro ⟨buff, v⟩ t ⟨hv, hbuff, hwritten, hbytes⟩
  obtain rfl : buff = _ := Option.some.inj (hbuff.symm.trans hv.buf)
  refine (writeAll_alike hv _).bind ?_
  rintro ⟨buff', v'⟩ t' ⟨hv', -, hwritten', hbytes'⟩
  refine .ok ⟨⟨hv'.buf, hv'.disk, hv'.operations, hv'.currentFilePath, hv'.shardCount,
    hv'.generatedShards⟩, ?_, ?_⟩
  · rw [hwritten', hwritten, h.written, List.append_assoc, records, records, List.flatMap_append]
    simp [record]
  · change v'.currentShardBytes + _ = _
    have hsum : v'.currentShardBytes = w.currentShardBytes := hbytes'.trans hbytes
    rw [hsum, h.currentShardBytes, weight_append]
    simp [weight, recordSize, record]

/-- Finalizing an open shard is a flush. -/
theorem finalizeShard_alike (h : w.Tracks args k n s) :
    Alike (fun v t => v.Between args (k + 1) (n + 1) t) (w.finalizeShard host)
      ((Operation.flush n).act host args.saveDir k s) := by
  obtain ⟨hbuf, hdisk, hk, hpath, hcount, hshards⟩ := h
  subst hk
  simp only [finalizeShard, hbuf]
  cases hio : (host.io w.operations).result with
  | ok u =>
    rw [Operation.act_ok hio]
    exact .ok ⟨rfl, by rw [hdisk]; rfl, rfl, hcount, hshards⟩
  | error e =>
    rw [Operation.act_error hio]
    simp only [hpath, hdisk]
    exact .error _

/-- With no file open there is nothing to finalize. -/
theorem finalizeShard_between (host : WriterHost ε) (h : w.Between args k n s) :
    w.finalizeShard host = .ok w := by
  simp only [finalizeShard, h.buf]

/-- A rollover with no shard open creates the next file. -/
theorem rollover_between (host : WriterHost ε) (h : w.Between args k n s) :
    Alike (fun v t => v.Follows host args (k + 1) n [] t) (w.rollover host args)
      ((Operation.create n).act host args.saveDir k s) := by
  have hfin := finalizeShard_between host h
  obtain ⟨hbuf, hdisk, hk, hcount, hshards⟩ := h
  subst hk hcount
  simp only [rollover, hfin, bind, Except.bind]
  cases hio : (host.io w.operations).result with
  | ok u =>
    rw [Operation.act_ok hio]
    refine .ok ⟨⟨rfl, by rw [hdisk]; rfl, rfl, rfl, rfl, ?_⟩, rfl, rfl⟩
    rw [hshards, List.range_succ, List.map_append]
    rfl
  | error e =>
    rw [Operation.act_error hio, hdisk]
    exact .error _

/-- A rollover with a shard open flushes its file and creates the next. -/
theorem rollover_alike (h : w.Tracks args k n s) :
    Alike (fun v t => v.Follows host args (k + 2) (n + 1) [] t) (w.rollover host args)
      (performAll host args.saveDir k [.flush n, .create (n + 1)] s) := by
  have hperform : performAll host args.saveDir k [.flush n, .create (n + 1)] s =
      (Operation.flush n).act host args.saveDir k s >>=
        (Operation.create (n + 1)).act host args.saveDir (k + 1) := by
    rw [performAll, perform]
    exact congrArg _ (funext fun t => perform_one _ _ _)
  rw [hperform]
  refine (finalizeShard_alike h).bind fun v t hv => ?_
  have hcreate := rollover_between host hv
  simp only [rollover, finalizeShard_between host hv, bind, Except.bind] at hcreate
  exact hcreate

/-! ### The whole loop -/

/-- A record needs a new shard. -/
theorem receive_rollover (h : w.buf = none ∨ args.shardSizeBytes ≤ w.currentShardBytes)
    (payload : Payload) :
    w.receive host args payload = w.rollover host args >>=
      (writeRecord host (host.order.encode payload) (toLeBytes args.eosId) ·) := by
  have hguard : w.buf.isNone ∨ args.shardSizeBytes ≤ w.currentShardBytes :=
    h.imp_left fun hbuf => by rw [hbuf]; rfl
  simp only [receive, if_pos hguard]

/-- Below the limit a record goes to the open shard. -/
theorem receive_open {batch : List Payload} (h : w.Follows host args k n batch s)
    (hlt : weight (recordSize host.order args.eosId) batch < args.shardSizeBytes)
    (payload : Payload) :
    w.receive host args payload =
      w.writeRecord host (host.order.encode payload) (toLeBytes args.eosId) := by
  have hguard : ¬(w.buf.isNone ∨ args.shardSizeBytes ≤ w.currentShardBytes) := by
    rw [h.buf, h.currentShardBytes]
    simpa using hlt
  simp only [receive, if_neg hguard, bind, Except.bind]

/-- What the loop returns when the operations left behind `t`. -/
abbrev Returns (args : WriterArgs) (shards : ℕ) (out : List PathBuf × Disk) (t : Session) : Prop :=
  out = ((List.range shards).map (shardPath args.saveDir), t.disk)

/-- The rest of the loop and the last `finalize_shard`, with a shard open. -/
theorem loop_alike (payloads : List Payload) {batch : List Payload}
    (h : w.Follows host args k n batch s) :
    Alike (Returns args (n + (packFrom (recordSize host.order args.eosId) args.shardSizeBytes batch
        payloads).length))
      (payloads.foldlM (receive host args) w >>= (finish host ·))
      (performAll host args.saveDir k (planFrom host.order args n batch payloads) s) := by
  induction payloads generalizing w s k n batch with
  | nil =>
    change Alike _ (w.finish host) _
    have hflush : performAll host args.saveDir k [.flush n] s =
      (Operation.flush n).act host args.saveDir k s >>= .ok := rfl
    rw [planFrom, hflush]
    exact (finalizeShard_alike h.toTracks).bind fun v t hv =>
      .ok (Prod.ext hv.generatedShards hv.disk)
  | cons payload payloads ih =>
    rw [List.foldlM_cons, bind_assoc]
    rcases Nat.lt_or_ge (weight (recordSize host.order args.eosId) batch) args.shardSizeBytes
      with hlt | hle
    · rw [packFrom_of_lt hlt, planFrom, if_neg (Nat.not_le.2 hlt), performAll, perform_append,
        receive_open h hlt]
      exact (writeRecord_alike h payload).bind fun v t hv => ih hv
    · rw [packFrom_of_le hle, planFrom, if_pos hle, performAll, perform_append, perform_append,
        receive_rollover (Or.inr (h.currentShardBytes ▸ hle)), bind_assoc, bind_assoc]
      refine (rollover_alike h.toTracks).bind fun u t hu => ?_
      refine (writeRecord_alike hu payload).bind fun v t' hv => ?_
      have hlength : ∀ m, n + (m + 1) = n + 1 + m := fun m => by omega
      rw [List.length_cons, hlength]
      exact ih hv

end Writer

/-- Once the directory is there, the writer performs the plan for the groups of its
records, and returns the paths of their files. -/
theorem pretokenizeDataset_alike {host : WriterHost ε} (hdir : (host.io 0).result = .ok ())
    (args : WriterArgs) (disk : Disk) (payloads : List Payload) :
    Alike (Writer.Returns args
        (pack (recordSize host.order args.eosId) args.shardSizeBytes payloads).length)
      (pretokenizeDataset host args disk payloads)
      (performAll host args.saveDir 1 (plan host.order args.eosId 0
        (pack (recordSize host.order args.eosId) args.shardSizeBytes payloads)) ⟨[], 0, disk⟩) := by
  simp only [pretokenizeDataset, hdir]
  rcases payloads with _ | ⟨payload, payloads⟩
  · exact .ok rfl
  · have hstart : (Writer.start disk 1).Between args 1 0 ⟨[], 0, disk⟩ := ⟨rfl, rfl, rfl, rfl, rfl⟩
    have hplan := planFrom_eq host.order args 0 [payload] payloads
    rw [pack, ← hplan, List.flatMap_singleton, performAll, List.cons_append, perform,
      List.foldlM_cons, bind_assoc, Writer.receive_rollover (Or.inl rfl), bind_assoc]
    refine (Writer.rollover_between host hstart).bind fun u t hu => ?_
    rw [perform_append]
    refine (Writer.writeRecord_alike hu payload).bind fun v t' hv => ?_
    have hloop := Writer.loop_alike payloads hv
    rwa [Nat.zero_add] at hloop

/-! ### What the operations leave behind -/

section Outcome

variable {host : WriterHost ε} {saveDir : PathBuf} {s : Session} {order : ByteOrder}
  {eosId : UInt32}

/-- The disk once the shards from `n` on hold `groups`. -/
def filed (saveDir : PathBuf) (order : ByteOrder) (eosId : UInt32) :
    ℕ → List (List Payload) → Disk → Disk
  | _, [], disk => disk
  | n, batch :: groups, disk =>
    filed saveDir order eosId (n + 1) groups
      (disk.write (shardPath saveDir n) (records order eosId batch))

theorem filed_other {n : ℕ} {groups : List (List Payload)} {disk : Disk} {p : PathBuf}
    (hp : ∀ i < groups.length, p ≠ shardPath saveDir (n + i)) :
    filed saveDir order eosId n groups disk p = disk p := by
  induction groups generalizing n disk with
  | nil => rfl
  | cons batch groups ih =>
    refine (ih fun i hi => ?_).trans (Disk.write_other _ _ (hp 0 (Nat.succ_pos _)))
    rw [show n + 1 + i = n + (i + 1) by omega]
    exact hp (i + 1) (Nat.succ_lt_succ hi)

theorem filed_shard {n i : ℕ} {groups : List (List Payload)} {disk : Disk} {batch : List Payload}
    (hi : groups[i]? = some batch) :
    filed saveDir order eosId n groups disk (shardPath saveDir (n + i)) =
      some (records order eosId batch) := by
  induction groups generalizing n i disk with
  | nil => cases hi
  | cons batch' groups ih =>
    rcases i with _ | i
    · obtain rfl : batch' = batch := Option.some.inj hi
      have hlater : ∀ j < groups.length, shardPath saveDir (n + 0) ≠ shardPath saveDir (n + 1 + j) :=
        fun j _ => shardPath_ne saveDir (by omega)
      exact (filed_other hlater).trans (Disk.write_same _ _ _)
    · rw [show n + (i + 1) = n + 1 + i by omega]
      exact ih hi

/-- The open file is that of shard `n`, on a disk that is otherwise `disk`. -/
def Session.Writing (saveDir : PathBuf) (disk : Disk) (n : ℕ) (s : Session) : Prop :=
  s.disk = disk.write (shardPath saveDir n) (s.written.take s.reached)

theorem Disk.write_write (disk : Disk) (path : PathBuf) (bytes bytes' : Bytes) :
    (disk.write path bytes).write path bytes' = disk.write path bytes' := by
  funext p
  unfold Disk.write
  split <;> rfl

/-- An operation on shard `n`, which was to hold `whole`, has failed. -/
inductive Broken (saveDir : PathBuf) (n : ℕ) (whole : Bytes) (disk : Disk) (f : Failure ε) : Prop
  /-- Its file was not created. -/
  | missing (e : ε) : f.error = (Operation.create n).error saveDir e → f.disk = disk →
    Broken saveDir n whole disk f
  /-- Its file holds the front of what it was to hold. -/
  | torn (op : Operation) (e : ε) (bytes : Bytes) : op.shard = n → (∀ m, op ≠ .create m) →
    f.error = op.error saveDir e → bytes <+: whole →
    f.disk = disk.write (shardPath saveDir n) bytes → Broken saveDir n whole disk f

/-- A file that holds the front of a part holds the front of the whole. -/
theorem Broken.mono {n : ℕ} {part whole : Bytes} {disk : Disk} {f : Failure ε}
    (h : Broken saveDir n part disk f) (hpart : part <+: whole) : Broken saveDir n whole disk f := by
  rcases h with ⟨e, herror, hdisk⟩ | ⟨op, e, bytes, hn, hop, herror, hbytes, hdisk⟩
  · exact .missing e herror hdisk
  · exact .torn op e bytes hn hop herror (hbytes.trans hpart) hdisk

theorem act_create (host : WriterHost ε) (saveDir : PathBuf) (k n : ℕ) (s : Session)
    (whole : Bytes) :
    Ends (fun t => t.written = [] ∧ t.Writing saveDir s.disk n) (Broken saveDir n whole s.disk)
      ((Operation.create n).act host saveDir k s) := by
  cases hio : (host.io k).result with
  | ok u =>
    rw [Operation.act_ok hio]
    exact ⟨rfl, rfl⟩
  | error e =>
    rw [Operation.act_error hio]
    exact .missing e rfl rfl

theorem act_write {disk : Disk} {n : ℕ} (h : s.Writing saveDir disk n) (host : WriterHost ε)
    (k : ℕ) (bytes : Bytes) :
    Ends (fun t => t.written = s.written ++ bytes ∧ t.Writing saveDir disk n)
      (Broken saveDir n (s.written ++ bytes) disk)
      ((Operation.write n bytes).act host saveDir k s) := by
  have hdisk : s.disk = _ := h
  cases hio : (host.io k).result with
  | ok u =>
    rw [Operation.act_ok hio]
    exact ⟨rfl, by simp only [Session.Writing, Operation.done, hdisk, Disk.write_write]⟩
  | error e =>
    rw [Operation.act_error hio]
    refine .torn (.write n bytes) e _ rfl (fun m => by simp) rfl (List.take_prefix
      (max s.reached (min (host.io k).reached (s.written ++ bytes).length)) _) ?_
    simp only [Operation.torn, hdisk, Disk.write_write]

theorem act_flush {disk : Disk} {n : ℕ} (h : s.Writing saveDir disk n) (host : WriterHost ε)
    (k : ℕ) :
    Ends (fun t => t.disk = disk.write (shardPath saveDir n) s.written)
      (Broken saveDir n s.written disk) ((Operation.flush n).act host saveDir k s) := by
  have hdisk : s.disk = _ := h
  cases hio : (host.io k).result with
  | ok u =>
    rw [Operation.act_ok hio]
    simp only [Ends, Operation.done, hdisk, Disk.write_write]
  | error e =>
    rw [Operation.act_error hio]
    refine .torn (.flush n) e _ rfl (fun m => by simp) rfl
      (List.take_prefix (max s.reached (host.io k).reached) _) ?_
    simp only [Operation.torn, hdisk, Disk.write_write]

/-- Writes append to the open file, and the first that fails leaves the front of it. -/
theorem perform_writes (host : WriterHost ε) (chunks : List Bytes) {disk : Disk} {k n : ℕ}
    (h : s.Writing saveDir disk n) :
    Ends (fun t => t.written = s.written ++ chunks.flatten ∧ t.Writing saveDir disk n)
      (Broken saveDir n (s.written ++ chunks.flatten) disk)
      (performAll host saveDir k (chunks.map (.write n)) s) := by
  induction chunks generalizing s k with
  | nil => exact ⟨(List.append_nil _).symm, h⟩
  | cons chunk chunks ih =>
    rw [List.map_cons, performAll, perform, List.flatten_cons, ← List.append_assoc]
    refine (act_write h host k chunk).bind (fun f hf => hf.mono (List.prefix_append _ _)) ?_
    rintro t ⟨hwritten, ht⟩
    rw [← hwritten]
    exact ih ht

/-- The chunks a shard is written in. -/
theorem flatMap_recordOps (order : ByteOrder) (eosId : UInt32) (n : ℕ) (batch : List Payload) :
    ∃ chunks : List Bytes, batch.flatMap (recordOps order eosId n) = chunks.map (.write n) ∧
      chunks.flatten = records order eosId batch := by
  induction batch with
  | nil => exact ⟨[], rfl, rfl⟩
  | cons payload batch ih =>
    obtain ⟨chunks, hops, hflat⟩ := ih
    refine ⟨[order.encode payload, toLeBytes eosId] ++ chunks, ?_, ?_⟩
    · rw [List.flatMap_cons, hops]
      rfl
    · rw [List.flatten_append, hflat, records, records, List.flatMap_cons, record]
      simp

/-- The operations on one shard complete its file or break it. -/
theorem perform_shard (host : WriterHost ε) (k n : ℕ) (batch : List Payload) (s : Session) :
    Ends (fun t => t.disk = s.disk.write (shardPath saveDir n) (records order eosId batch))
      (Broken saveDir n (records order eosId batch) s.disk)
      (performAll host saveDir k (shardOps order eosId n batch) s) := by
  obtain ⟨chunks, hops, hflat⟩ := flatMap_recordOps order eosId n batch
  rw [shardOps, hops, performAll, List.cons_append, perform]
  refine (act_create host saveDir k n s _).bind (fun f hf => hf) fun t ht => ?_
  obtain ⟨hempty, ht⟩ := ht
  have hwrites := @perform_writes _ _ _ host chunks _ (k + 1) _ ht
  rw [hempty, List.nil_append, hflat] at hwrites
  rw [perform_append, List.length_map]
  refine hwrites.bind (fun f hf => hf) fun u hu => ?_
  obtain ⟨hwritten, hu⟩ := hu
  rw [perform_one, ← hwritten]
  exact act_flush hu host _

/-- The plan files its groups, or breaks at one of them with the earlier ones filed. -/
theorem perform_plan (host : WriterHost ε) (k n : ℕ) (groups : List (List Payload)) (s : Session) :
    Ends (fun t => t.disk = filed saveDir order eosId n groups s.disk)
      (fun f => ∃ i batch, groups[i]? = some batch ∧
        Broken saveDir (n + i) (records order eosId batch)
          (filed saveDir order eosId n (groups.take i) s.disk) f)
      (performAll host saveDir k (plan order eosId n groups) s) := by
  induction groups generalizing k n s with
  | nil => exact rfl
  | cons batch groups ih =>
    rw [plan, performAll, perform_append]
    refine (perform_shard host k n batch s).bind (fun f hf => ⟨0, batch, rfl, hf⟩) fun t ht => ?_
    refine (ih _ (n + 1) t).mono (fun u hu => ?_) ?_
    · rw [hu, ht, filed]
    · rintro f ⟨i, batch', hbatch, hf⟩
      refine ⟨i + 1, batch', hbatch, ?_⟩
      rw [ht, show n + 1 + i = n + (i + 1) by omega] at hf
      exact hf

end Outcome

variable {host : WriterHost ε} {args : WriterArgs} {disk : Disk} {payloads : List Payload}

/-- The groups the records are cut into. -/
abbrev shardGroups (order : ByteOrder) (args : WriterArgs) (payloads : List Payload) :
    List (List Payload) :=
  pack (recordSize order args.eosId) args.shardSizeBytes payloads

/-- What a run returns and leaves behind. -/
theorem pretokenizeDataset_ends (hdir : (host.io 0).result = .ok ()) (args : WriterArgs)
    (disk : Disk) (payloads : List Payload) :
    Ends (fun out => out =
        ((List.range (shardGroups host.order args payloads).length).map (shardPath args.saveDir),
          filed args.saveDir host.order args.eosId 0 (shardGroups host.order args payloads) disk))
      (fun f => ∃ n batch, (shardGroups host.order args payloads)[n]? = some batch ∧
        Broken args.saveDir n (records host.order args.eosId batch)
          (filed args.saveDir host.order args.eosId 0
            ((shardGroups host.order args payloads).take n) disk) f)
      (pretokenizeDataset host args disk payloads) := by
  refine ((pretokenizeDataset_alike hdir args disk payloads).ends
    (perform_plan host 1 0 _ _)).mono ?_ ?_
  · rintro out ⟨t, rfl, ht⟩
    exact congrArg (Prod.mk _) ht
  · rintro f ⟨n, batch, hbatch, hf⟩
    rw [Nat.zero_add] at hf
    exact ⟨n, batch, hbatch, hf⟩

/-- A run succeeds exactly when every operation of its plan does. -/
theorem pretokenizeDataset_ok_iff (hdir : (host.io 0).result = .ok ()) (args : WriterArgs)
    (disk : Disk) (payloads : List Payload) :
    (∃ out, pretokenizeDataset host args disk payloads = .ok out) ↔
      ∀ j < (plan host.order args.eosId 0 (shardGroups host.order args payloads)).length,
        (host.io (1 + j)).result = .ok () :=
  (pretokenizeDataset_alike hdir args disk payloads).ok_iff.trans performAll_ok_iff

/-- A run fails at the first operation of its plan that does, and says which. -/
theorem pretokenizeDataset_error (hdir : (host.io 0).result = .ok ()) {f : Failure ε}
    (h : pretokenizeDataset host args disk payloads = .error f) :
    ∃ j op e, (plan host.order args.eosId 0 (shardGroups host.order args payloads))[j]? = some op ∧
      (∀ i < j, (host.io (1 + i)).result = .ok ()) ∧ (host.io (1 + j)).result = .error e ∧
      f.error = op.error args.saveDir e := by
  have hrun := (pretokenizeDataset_alike hdir args disk payloads).error_iff.1 h
  obtain ⟨j, op, t, hop, hbefore, hfail⟩ := perform_error hrun
  have hgood := performAll_ok_iff.1 ⟨t, hbefore⟩
  have hj : j ≤ (plan host.order args.eosId 0 (shardGroups host.order args payloads)).length :=
    (List.getElem?_eq_some_iff.1 hop).1.le
  rw [List.length_take_of_le hj] at hgood
  cases hio : (host.io (1 + j)).result with
  | ok u => cases (Operation.act_ok hio args.saveDir op t).symm.trans hfail
  | error e =>
    have heq := Except.error.inj ((Operation.act_error hio args.saveDir op t).symm.trans hfail)
    exact ⟨j, op, e, hop, hgood, hio, by rw [← heq]⟩

end Plast
