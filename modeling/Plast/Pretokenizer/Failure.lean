/-
# A failing writer

When an operation of the writer fails, `pretokenize_dataset` returns its error, and
the shards before the one it works on are what they are without the failure: every
file is flushed before the next is created (`failure_keeps_finished_shards`).  The
operations are those of `plan`, in that order; the file of the failing one holds the
front of what it was to hold, or has not been created.
-/

import Plast.Pretokenizer.Shards

namespace Plast

open FailStop

variable {ε : Type} {host ideal : WriterHost ε} {args : WriterArgs} {disk : Disk}
  {payloads : List Payload}

/-- How the disk `left` of a run that failed at `op` compares with the disk `whole` of the
run that did not fail, when both started from `disk`. -/
structure Survives (saveDir : PathBuf) (op : Operation) (disk whole left : Disk) : Prop where
  /-- The shards before that of `op` are finished. -/
  finished : ∀ i < op.shard, left (shardPath saveDir i) = whole (shardPath saveDir i)
  /-- A file whose creation failed is not touched. -/
  missing : (∃ m, op = .create m) → left (shardPath saveDir op.shard) =
    disk (shardPath saveDir op.shard)
  /-- A file that was created holds the front of what it was to hold. -/
  front : (¬∃ m, op = .create m) → ∃ bytes all,
    left (shardPath saveDir op.shard) = some bytes ∧
    whole (shardPath saveDir op.shard) = some all ∧ bytes <+: all
  /-- No later shard is created, and no other file is touched. -/
  others : ∀ p, (∀ i ≤ op.shard, p ≠ shardPath saveDir i) → left p = disk p

section Survives

variable {saveDir : PathBuf} {order : Endian.ByteOrder} {eosId : UInt32} {n : ℕ}
  {groups : List (List Payload)} {batch : List Payload}

/-- The shards of a run, numbered from `0`. -/
theorem filed_zero (hbatch : groups[n]? = some batch) :
    filed saveDir order eosId 0 groups disk (shardPath saveDir n) =
      some (records order eosId batch) := by
  have hfile := @filed_shard saveDir order eosId 0 n groups disk batch hbatch
  rwa [Nat.zero_add] at hfile

theorem filed_take {i : ℕ} (hi : i < n) (hn : n ≤ groups.length) :
    filed saveDir order eosId 0 (groups.take n) disk (shardPath saveDir i) =
      filed saveDir order eosId 0 groups disk (shardPath saveDir i) := by
  obtain ⟨group, hget⟩ : ∃ group, groups[i]? = some group :=
    ⟨_, List.getElem?_eq_getElem (Nat.lt_of_lt_of_le hi hn)⟩
  have htake : (groups.take n)[i]? = some group := by
    rw [List.getElem?_take_of_lt hi, hget]
  rw [filed_zero htake, filed_zero hget]

theorem filed_take_other {p : PathBuf} (hp : ∀ i < n, p ≠ shardPath saveDir i) :
    filed saveDir order eosId 0 (groups.take n) disk p = disk p := by
  refine filed_other fun i hi => ?_
  rw [Nat.zero_add]
  exact hp i (Nat.lt_of_lt_of_le hi (List.length_take_le _ _))

/-- A broken shard leaves the others as they are. -/
theorem Broken.survives {f : Failure ε} {op : Operation} {e : ε} (hbatch : groups[n]? = some batch)
    (h : Broken saveDir n (records order eosId batch)
      (filed saveDir order eosId 0 (groups.take n) disk) f)
    (herror : f.error = op.error saveDir e) :
    Survives saveDir op disk (filed saveDir order eosId 0 groups disk) f.disk := by
  have hn : n < groups.length := (List.getElem?_eq_some_iff.1 hbatch).1
  rcases h with ⟨e', herror', hdisk⟩ | ⟨op', e', bytes, hshard, hop, herror', hbytes, hdisk⟩
  · obtain ⟨hshard, hkind⟩ := Operation.error_inj (herror'.symm.trans herror)
    have hcreate : ∃ m, op = .create m := hkind.1 ⟨_, rfl⟩
    obtain rfl : n = op.shard := hshard
    have hbefore : ∀ {p}, (∀ i < op.shard, p ≠ shardPath saveDir i) → f.disk p = disk p :=
      fun hp => by rw [hdisk, filed_take_other hp]
    refine ⟨fun i hi => ?_, fun _ => ?_, fun hc => absurd hcreate hc, fun p hp => ?_⟩
    · rw [hdisk, filed_take hi hn.le]
    · exact hbefore fun i hi => (shardPath_ne saveDir hi).symm
    · exact hbefore fun i hi => hp i hi.le
  · obtain ⟨hsame, hkind⟩ := Operation.error_inj (herror'.symm.trans herror)
    obtain rfl : n = op.shard := hshard.symm.trans hsame
    have hcreated : ¬∃ m, op = .create m := fun hc => by
      obtain ⟨m, hm⟩ := hkind.2 hc
      exact hop m hm
    refine ⟨fun i hi => ?_, fun hc => absurd hc hcreated, fun _ => ?_, fun p hp => ?_⟩
    · rw [hdisk, Disk.write_other _ _ (shardPath_ne saveDir hi), filed_take hi hn.le]
    · exact ⟨bytes, _, by rw [hdisk, Disk.write_same], filed_zero hbatch, hbytes⟩
    · rw [hdisk, Disk.write_other _ _ (hp _ le_rfl)]
      exact filed_take_other fun i hi => hp i hi.le

end Survives

/-- The operation that is the first to fail ends the run with its error. -/
theorem pretokenizeDataset_error_at {j : ℕ} {op : Operation} {e : ε}
    (hop : (plan host.order args.eosId 0 (shardGroups host.order args payloads))[j]? = some op)
    (hbefore : ∀ i ≤ j, (host.io i).result = .ok ()) (hfail : (host.io (j + 1)).result = .error e) :
    ∃ left, pretokenizeDataset host args disk payloads =
      .error ⟨op.error args.saveDir e, left⟩ := by
  have hdir := hbefore 0 (Nat.zero_le j)
  cases hrun : pretokenizeDataset host args disk payloads with
  | ok out =>
    have hj := (List.getElem?_eq_some_iff.1 hop).1
    have hgood := (pretokenizeDataset_ok_iff hdir args disk payloads).1 ⟨out, hrun⟩ j hj
    rw [Nat.add_comm 1 j, hfail] at hgood
    cases hgood
  | error f =>
    obtain ⟨j', op', e', hop', hbefore', hfail', herror⟩ := pretokenizeDataset_error hdir hrun
    obtain rfl : j = j' := by
      rcases lt_trichotomy j j' with hlt | heq | hgt
      · have hgood := hbefore' j hlt
        rw [Nat.add_comm 1 j, hfail] at hgood
        cases hgood
      · exact heq
      · have hgood := hbefore (1 + j') (by omega)
        rw [hfail'] at hgood
        cases hgood
    obtain rfl : op = op' := Option.some.inj (hop.symm.trans hop')
    rw [Nat.add_comm 1 j] at hfail'
    obtain rfl : e = e' := Except.error.inj (hfail.symm.trans hfail')
    exact ⟨f.disk, by rw [← herror]⟩

/-- Against the run without a failure, on the same payloads and the same limit: the first
operation that fails makes the run fail with its error, the shards before its own are
finished, its own shard holds a front of what it was to hold or was not created, and
nothing else has been touched.  A run that succeeds has made every operation, and leaves
what the run without a failure leaves. -/
theorem failure_keeps_finished_shards (hideal : ∀ k, (ideal.io k).result = .ok ())
    (horder : ideal.order = host.order) (args : WriterArgs) (disk : Disk)
    (payloads : List Payload) :
    ∃ paths whole, pretokenizeDataset ideal args disk payloads = .ok (paths, whole) ∧
      ShardFiles host.order args payloads paths whole (shardGroups host.order args payloads) ∧
      (∀ e, (host.io 0).result = .error e → pretokenizeDataset host args disk payloads =
        .error ⟨.directoryCreationFailed e args.saveDir, disk⟩) ∧
      (∀ j op e, (plan host.order args.eosId 0 (shardGroups host.order args payloads))[j]? =
          some op → (∀ i ≤ j, (host.io i).result = .ok ()) →
        (host.io (j + 1)).result = .error e →
        ∃ left, pretokenizeDataset host args disk payloads =
            .error ⟨op.error args.saveDir e, left⟩ ∧
          Survives args.saveDir op disk whole left) ∧
      ∀ out, pretokenizeDataset host args disk payloads = .ok out → out = (paths, whole) ∧
        ∀ i ≤ (plan host.order args.eosId 0 (shardGroups host.order args payloads)).length,
          (host.io i).result = .ok () := by
  obtain ⟨v, hv, hfiled⟩ := pretokenizeDataset_eq hideal args disk payloads
  have hwhole := (pretokenizeDataset_ends (hideal 0) args disk payloads).of_ok hv
  have hfiles := hfiled.shardFiles
  rw [horder] at hwhole hfiles
  obtain ⟨hpaths, hdisk⟩ := Prod.mk.inj hwhole
  refine ⟨_, _, hv, hfiles, fun e he => ?_, fun j op e hop hbefore hfail => ?_, fun out hout => ?_⟩
  · simp only [pretokenizeDataset, he]
  · obtain ⟨left, hrun⟩ := pretokenizeDataset_error_at hop hbefore hfail
    obtain ⟨n, batch, hbatch, hbroken⟩ :=
      (pretokenizeDataset_ends (hbefore 0 (Nat.zero_le j)) args disk payloads).of_error hrun
    refine ⟨left, hrun, ?_⟩
    rw [hdisk]
    exact hbroken.survives hbatch rfl
  · cases hdir : (host.io 0).result with
    | error e => simp only [pretokenizeDataset, hdir, reduceCtorEq] at hout
    | ok u =>
      have hsame := (pretokenizeDataset_ends hdir args disk payloads).of_ok hout
      have hgood := (pretokenizeDataset_ok_iff hdir args disk payloads).1 ⟨out, hout⟩
      refine ⟨hsame.trans (Prod.ext hpaths hdisk).symm, fun i hi => ?_⟩
      rcases i with _ | i
      · exact hdir
      · have hi := hgood i hi
        rwa [Nat.add_comm 1 i] at hi

/-- Two shards, and the last flush fails: the first shard is finished. -/
theorem failure_keeps_finished_shards_flush :
    let host : WriterHost Unit := ⟨.little, fun k => ⟨if k = 10 then .error () else .ok (), 0⟩⟩
    ∃ whole left, pretokenizeDataset host ⟨"out", 16, 7⟩ (fun _ => none) [[1, 2], [3], []] =
        .error ⟨.flushFailed () (shardPath "out" 1), left⟩ ∧
      left (shardPath "out" 0) = whole (shardPath "out" 0) ∧
      ∃ paths, pretokenizeDataset (WriterHost.reliable .little : WriterHost Unit) ⟨"out", 16, 7⟩
        (fun _ => none) [[1, 2], [3], []] = .ok (paths, whole) := by
  intro host
  obtain ⟨paths, whole, hrun, -, -, hfail, -⟩ := @failure_keeps_finished_shards Unit host
    (WriterHost.reliable .little) (fun _ => rfl) rfl ⟨"out", 16, 7⟩ (fun _ => none)
    [[1, 2], [3], []]
  have hbefore : ∀ i ≤ 9, (host.io i).result = .ok () := fun i hi => if_neg (by omega)
  obtain ⟨left, hleft, hsurvives⟩ := hfail 9 (.flush 1) () (by decide +kernel) hbefore rfl
  exact ⟨whole, left, hleft, hsurvives.finished 0 (by decide), paths, hrun⟩

end Plast
