/-
# Runs that are killed, and runs after them

`pretokenize_dataset` may be killed at any moment of any interleaving.  What is on the
disk then (`Pipeline.onDisk`) is always a part of what a complete run would have left:
whole shards, the front of one more, and nothing else (`pipeline_crash_consistent`).
Bytes that a `BufWriter` still held are lost, so nothing is assumed of the last shard
but that it is a front.  A step of the caller takes one record through all its operations; a
run that is killed between two of them is one whose next operation fails, at which the
step ends, since the answers of the operating system are arbitrary.

A complete run on such a disk, after any number of killed ones (`Crashes`), returns
what it returns on the clean disk.  It writes its own shards anew and looks at nothing
else, so a shard of an earlier run stays behind only if the rows came in an order that
was cut into more shards (`rerun_after_crashes`).
-/

import Plast.Pretokenizer.Refinement

namespace Plast

open Transition Machine FanIn Batches FailStop

variable {ε δ E : Type}

/-! ### The disk in the middle of a run -/

namespace Writer

variable {host : WriterHost ε} {args : WriterArgs} {w : Writer} {s : Session} {disk : Disk}
  {k n : ℕ} {batch : List Payload}

/-- A record that goes to the open shard. -/
theorem writeRecord_writing (h : w.Follows host args k n batch s)
    (hs : s.Writing args.saveDir disk n) (payload : Payload) :
    Ends (fun v => ∃ t, v.Follows host args (k + 2) n (batch ++ [payload]) t ∧
        t.Writing args.saveDir disk n) (fun _ => True)
      (w.writeRecord host (host.order.encode payload) (Endian.toLeBytes args.eosId)) := by
  have hwrites := @perform_writes _ _ _ host
    [host.order.encode payload, Endian.toLeBytes args.eosId] _ k _ hs
  refine ((writeRecord_alike h payload).ends hwrites).mono ?_ fun _ _ => trivial
  rintro v ⟨t, hv, -, ht⟩
  exact ⟨t, hv, ht⟩

/-- The next shard is opened, and the one before it is whole. -/
theorem rollover_writing (h : w.Follows host args k n batch s)
    (hs : s.Writing args.saveDir disk n) :
    Ends (fun v => ∃ t, v.Follows host args (k + 2) (n + 1) [] t ∧
        t.Writing args.saveDir (disk.write (shardPath args.saveDir n)
          (records host.order args.eosId batch)) (n + 1)) (fun _ => True)
      (w.rollover host args) := by
  have hops : Ends (fun t => t.Writing args.saveDir (disk.write (shardPath args.saveDir n)
      (records host.order args.eosId batch)) (n + 1)) (fun _ => True)
      (performAll host args.saveDir k [.flush n, .create (n + 1)] s) := by
    rw [performAll, perform]
    refine (act_flush hs host k).bind (fun _ _ => trivial) fun t ht => ?_
    rw [perform_one, ← h.written, ← ht]
    exact (act_create host args.saveDir (k + 1) (n + 1) t []).mono (fun u hu => hu.2)
      fun _ _ => trivial
  refine ((rollover_alike h.toTracks).ends hops).mono ?_ fun _ _ => trivial
  rintro v ⟨t, hv, ht⟩
  exact ⟨t, hv, ht⟩

/-- Between two payloads the shards before the open one are whole. -/
theorem foldlM_writing (payloads : List Payload) (h : w.Follows host args k n batch s)
    (hs : s.Writing args.saveDir disk n) :
    Ends (fun v => ∃ init last k' t,
        packFrom (recordSize host.order args.eosId) args.shardSizeBytes batch payloads =
          init ++ [last] ∧
        v.Follows host args k' (n + init.length) last t ∧
        t.Writing args.saveDir (filed args.saveDir host.order args.eosId n init disk)
          (n + init.length)) (fun _ => True)
      (payloads.foldlM (receive host args) w) := by
  induction payloads generalizing w s k n batch disk with
  | nil => exact ⟨[], batch, k, s, rfl, h, hs⟩
  | cons payload payloads ih =>
    rw [List.foldlM_cons]
    rcases Nat.lt_or_ge (weight (recordSize host.order args.eosId) batch) args.shardSizeBytes
      with hlt | hle
    · rw [packFrom_of_lt hlt, receive_open h hlt]
      refine (writeRecord_writing h hs payload).bind (fun _ _ => trivial) fun v hv => ?_
      obtain ⟨t, hv, ht⟩ := hv
      exact ih hv ht
    · rw [packFrom_of_le hle, receive_rollover (Or.inr (h.currentShardBytes ▸ hle)), bind_assoc]
      refine (rollover_writing h hs).bind (fun _ _ => trivial) fun u hu => ?_
      obtain ⟨t, hu, ht⟩ := hu
      refine (writeRecord_writing hu ht payload).bind (fun _ _ => trivial) fun v hv => ?_
      obtain ⟨t', hv, ht'⟩ := hv
      refine (ih hv ht').mono ?_ fun _ _ => trivial
      rintro v' ⟨init, last, k', t'', hpack, hv', ht''⟩
      have hplace : n + (batch :: init).length = n + 1 + init.length := by
        rw [List.length_cons]
        omega
      refine ⟨batch :: init, last, k', t'', congrArg (batch :: ·) hpack, ?_, ?_⟩
      · rwa [hplace]
      · rwa [hplace]

end Writer

/-- The disk `left` in the middle of filing the groups on `disk`, with `n` shards done. -/
structure Partly (saveDir : PathBuf) (order : Endian.ByteOrder) (eosId : UInt32)
    (groups : List (List Payload)) (disk left : Disk) (n : ℕ) : Prop where
  le : n ≤ groups.length
  /-- The shards before shard `n` are whole. -/
  finished : ∀ i < n, ∀ group, groups[i]? = some group →
    left (shardPath saveDir i) = some (records order eosId group)
  /-- Shard `n` is as it was, or holds the front of what it is to hold. -/
  front : left (shardPath saveDir n) = disk (shardPath saveDir n) ∨
    ∃ group bytes, groups[n]? = some group ∧ left (shardPath saveDir n) = some bytes ∧
      bytes <+: records order eosId group
  /-- Nothing else has been touched. -/
  others : ∀ p, (∀ i, i ≤ n → i < groups.length → p ≠ shardPath saveDir i) → left p = disk p

section Partly

variable {host : WriterHost ε} {args : WriterArgs} {disk : Disk} {payloads received : List Payload}
  {w : Writer} {n : ℕ}

theorem Partly.untouched (saveDir : PathBuf) (order : Endian.ByteOrder) (eosId : UInt32)
    (groups : List (List Payload)) (disk : Disk) :
    Partly saveDir order eosId groups disk disk 0 where
  le := Nat.zero_le _
  finished := fun i hi => absurd hi (Nat.not_lt_zero i)
  front := Or.inl rfl
  others := fun _ _ => rfl

/-- Whole groups, and the front of the next. -/
theorem Partly.of_write {saveDir : PathBuf} {order : Endian.ByteOrder} {eosId : UInt32}
    {groups : List (List Payload)} {batch : List Payload} {bytes : Bytes}
    (hbatch : groups[n]? = some batch) (hbytes : bytes <+: records order eosId batch) :
    Partly saveDir order eosId groups disk
      ((filed saveDir order eosId 0 (groups.take n) disk).write (shardPath saveDir n) bytes) n where
  le := (List.getElem?_eq_some_iff.1 hbatch).1.le
  finished := by
    intro i hi group hgroup
    rw [Disk.write_other _ _ (shardPath_ne saveDir hi)]
    exact filed_zero (by rw [List.getElem?_take_of_lt hi, hgroup])
  front := Or.inr ⟨batch, bytes, hbatch, Disk.write_same _ _ _, hbytes⟩
  others := by
    intro p hp
    have hn := (List.getElem?_eq_some_iff.1 hbatch).1
    rw [Disk.write_other _ _ (hp n le_rfl hn)]
    exact filed_take_other fun i hi => hp i hi.le (hi.trans hn)

/-- While the loop runs, the disk holds a part of what it will hold, whatever comes. -/
theorem Writer.partly
    (hfold : received.foldlM (Writer.receive host args) (Writer.start disk 1) = .ok w)
    (hpre : received <+: payloads) :
    ∃ n, Partly args.saveDir host.order args.eosId (shardGroups host.order args payloads) disk
      w.disk n := by
  obtain ⟨later, rfl⟩ := hpre
  rcases received with _ | ⟨payload, received⟩
  · obtain rfl : Writer.start disk 1 = w := Except.ok.inj hfold
    exact ⟨0, Partly.untouched _ _ _ _ _⟩
  · have hstart : (Writer.start disk 1).Between args 1 0 ⟨[], 0, disk⟩ := ⟨rfl, rfl, rfl, rfl, rfl⟩
    have hopen : Ends (fun v => ∃ t, v.Follows host args 2 0 [] t ∧ t.Writing args.saveDir disk 0)
        (fun _ => True) ((Writer.start disk 1).rollover host args) := by
      refine ((Writer.rollover_between host hstart).ends
        (act_create host args.saveDir 1 0 _ [])).mono ?_ fun _ _ => trivial
      rintro v ⟨t, hv, -, ht⟩
      exact ⟨t, hv, ht⟩
    rw [List.foldlM_cons, Writer.receive_rollover (Or.inl rfl), bind_assoc] at hfold
    obtain ⟨u, hu, hfold⟩ := bind_eq_ok.1 hfold
    obtain ⟨t, hfollows, hwriting⟩ := hopen.of_ok hu
    obtain ⟨v, hv, hfold⟩ := bind_eq_ok.1 hfold
    obtain ⟨t', hfollows, hwriting⟩ :=
      (Writer.writeRecord_writing hfollows hwriting payload).of_ok hv
    obtain ⟨init, last, k, t'', hpack, hfollows, hwriting⟩ :=
      (Writer.foldlM_writing received hfollows hwriting).of_ok hfold
    rw [List.nil_append] at hpack
    rw [Nat.zero_add] at hfollows hwriting
    have hgroups : shardGroups host.order args (payload :: received) = init ++ [last] := hpack
    obtain ⟨more, hbatch, htake⟩ := pack_append hgroups later
    have hbytes : t''.written.take t''.reached <+: records host.order args.eosId (last ++ more) := by
      rw [hfollows.written]
      refine (List.take_prefix _ _).trans ?_
      rw [records, records, List.flatMap_append]
      exact List.prefix_append _ _
    have hpart := @Partly.of_write disk _ args.saveDir _ _ _ _ _ hbatch hbytes
    rw [htake] at hpart
    exact ⟨init.length, (hfollows.disk.trans hwriting).symm ▸ hpart⟩

/-- The disk that a result leaves behind. -/
def leftBy : Except (Failure ε) (List PathBuf × Disk) → Disk
  | .ok (_, disk) => disk
  | .error f => f.disk

/-- So does the disk that a run leaves behind. -/
theorem pretokenizeDataset_partly (host : WriterHost ε) (args : WriterArgs) (disk : Disk)
    (payloads : List Payload) :
    ∃ n, Partly args.saveDir host.order args.eosId (shardGroups host.order args payloads) disk
      (leftBy (pretokenizeDataset host args disk payloads)) n := by
  cases hdir : (host.io 0).result with
  | error e =>
    rw [pretokenizeDataset, hdir]
    exact ⟨0, Partly.untouched _ _ _ _ _⟩
  | ok u =>
    have hends := pretokenizeDataset_ends hdir args disk payloads
    cases hrun : pretokenizeDataset host args disk payloads with
    | ok out =>
      obtain rfl := hends.of_ok hrun
      refine ⟨(shardGroups host.order args payloads).length, le_rfl, fun i _ group hgroup => ?_,
        Or.inl ?_, fun p hp => ?_⟩
      · exact filed_zero hgroup
      · refine filed_other fun i hi => ?_
        rw [Nat.zero_add]
        exact (shardPath_ne _ hi).symm
      · refine filed_other fun i hi => ?_
        rw [Nat.zero_add]
        exact hp i hi.le hi
    | error f =>
      obtain ⟨n, batch, hbatch, hbroken⟩ := hends.of_error hrun
      refine ⟨n, ?_⟩
      change Partly _ _ _ _ _ f.disk n
      rcases hbroken with ⟨e, -, hdisk⟩ | ⟨op, e, bytes, -, -, -, hbytes, hdisk⟩
      · rw [hdisk]
        refine ⟨(List.getElem?_eq_some_iff.1 hbatch).1.le, fun i hi group hgroup => ?_, Or.inl ?_,
          fun p hp => ?_⟩
        · exact filed_zero (by rw [List.getElem?_take_of_lt hi, hgroup])
        · exact filed_take_other fun i hi => (shardPath_ne _ hi).symm
        · exact filed_take_other fun i hi =>
            hp i hi.le (hi.trans (List.getElem?_eq_some_iff.1 hbatch).1)
      · rw [hdisk]
        exact Partly.of_write hbatch hbytes

end Partly

/-! ### Runs that are killed -/

namespace Pipeline

/-- The disk at this moment. -/
def onDisk (sys : Pipeline ε δ) : Disk :=
  match sys.caller with
  | .receiving w => w.disk
  | .returned result => leftBy result

theorem Sound.partly {next : δ → Option (Except E StringChunked) × δ}
    {encode : String → Option Payload} {host : WriterHost ε} {args : WriterArgs} {disk : Disk}
    {items : List (Except E StringChunked)} {sys : Pipeline ε δ}
    (h : sys.Sound next encode host args disk items)
    (hf : sys.Foreseen (Orders encode items) host args disk) :
    ∃ payloads n, Orders encode items payloads ∧ Partly args.saveDir host.order args.eosId
      (shardGroups host.order args payloads) disk sys.onDisk n := by
  unfold onDisk
  cases hc : sys.caller with
  | receiving w =>
    obtain ⟨rest, -, htrack⟩ := h.onTrack
    obtain ⟨payloads, horder, hpre⟩ := (htrack fun f hf => by cases hc.symm.trans hf).completes
    obtain ⟨n, hpart⟩ := Writer.partly (h.written.receiving hc).2 hpre
    exact ⟨payloads, n, horder, hpart⟩
  | returned result =>
    obtain ⟨payloads, horder, rfl⟩ := hf result hc
    obtain ⟨n, hpart⟩ := pretokenizeDataset_partly host args disk payloads
    exact ⟨payloads, n, horder, hpart⟩

end Pipeline

/-- **A killed run leaves a part of a complete one.**  Between any two steps of every
interleaving, whatever the operating system answers, and so also inside a step of the
caller, as a step whose next operation fails: for some order in which the records may
arrive, the disk holds some of its shards whole, perhaps the front of the next, and is
otherwise as it was. -/
theorem pipeline_crash_consistent {next : δ → Option (Except E StringChunked) × δ} {dataset t : δ}
    {items : List (Except E StringChunked)}
    (hdrain : Drains (fun s y => next s = y) dataset items t) {encode : String → Option Payload}
    {host : WriterHost ε} {args : WriterArgs} {disk : Disk} {writeQueueSize : ℕ}
    {sys : Pipeline ε δ} (hreach : Reaches (Pipeline.step next encode host args)
      (Pipeline.start host args disk dataset writeQueueSize) sys) :
    ∃ payloads n, Orders encode items payloads ∧ Partly args.saveDir host.order args.eosId
      (shardGroups host.order args payloads) disk sys.onDisk n := by
  obtain ⟨hsound, hforeseen⟩ := Pipeline.sound_foreseen hdrain hreach
  exact hsound.partly hforeseen

/-- One row, killed after its record was written: half of it has reached the file. -/
theorem pipeline_crash_consistent_one :
    let read : String → PathBuf → Except Unit StringChunked := fun _ _ => .ok [some "a"]
    let encode : String → Option Payload := fun text => some [UInt32.ofNat text.length]
    let host : WriterHost Unit := ⟨.little, fun _ => ⟨.ok (), 4⟩⟩
    ∃ sys n, Reaches (Pipeline.step (ShardLoader.next read) encode host ⟨"out", 16, 7⟩)
        (Pipeline.start host ⟨"out", 16, 7⟩ (fun _ => none) (ShardLoader.new ["a.csv"] "text") 1)
        sys ∧
      sys.onDisk (shardPath "out" 0) = some [1, 0, 0, 0] ∧
      Partly "out" .little 7 [[[1]]] (fun _ => none) sys.onDisk n := by
  intro read encode host
  obtain ⟨t, ht⟩ := ShardLoader.drains read ["a.csv"] "text"
  have hreach : Reaches (Pipeline.step (ShardLoader.next read) encode host ⟨"out", 16, 7⟩)
      (Pipeline.start host ⟨"out", 16, 7⟩ (fun _ => none) (ShardLoader.new ["a.csv"] "text") 1) _ :=
    .head ⟨.producer, rfl⟩ <| .head ⟨.row 0, rfl⟩ <| .head ⟨.row 0, rfl⟩ <| .single ⟨.caller, rfl⟩
  obtain ⟨payloads, n, horders, hpart⟩ := pipeline_crash_consistent ht hreach
  obtain rfl : payloads = [[1]] := List.perm_singleton.1 (Arrives.perm horders)
  exact ⟨_, n, hreach, by decide +kernel, hpart⟩

/-! ### A complete run after them -/

/-- Any number of killed runs, one after the other. -/
def Crashes (ε : Type) (next : δ → Option (Except E StringChunked) × δ)
    (encode : String → Option Payload) (order : Endian.ByteOrder) (args : WriterArgs)
    (dataset : δ) : Disk → Disk → Prop :=
  Relation.ReflTransGen fun disk left => ∃ (host : WriterHost ε) (writeQueueSize : ℕ)
    (sys : Pipeline ε δ), host.order = order ∧
      Reaches (Pipeline.step next encode host args)
        (Pipeline.start host args disk dataset writeQueueSize) sys ∧ sys.onDisk = left

section Rerun

variable {next : δ → Option (Except E StringChunked) × δ} {dataset t : δ}
  {items : List (Except E StringChunked)} {encode : String → Option Payload}
  {args : WriterArgs} {disk left : Disk} {order : Endian.ByteOrder}

/-- Killed runs touch no shard that no order of the records has. -/
theorem Crashes.others (hdrain : Drains (fun s y => next s = y) dataset items t)
    (h : Crashes ε next encode order args dataset disk left) {p : PathBuf}
    (hp : ∀ payloads, Orders encode items payloads →
      ∀ i < (shardGroups order args payloads).length, p ≠ shardPath args.saveDir i) :
    left p = disk p := by
  induction h with
  | refl => rfl
  | tail _ hcrash ih =>
    obtain ⟨host, q, sys, rfl, hreach, rfl⟩ := hcrash
    obtain ⟨payloads, n, horder, hpart⟩ := pipeline_crash_consistent hdrain hreach
    exact (hpart.others p fun i _ hi => hp payloads horder i hi).trans ih

/-- What a complete run leaves is what it leaves on another disk, where it has written. -/
theorem pretokenizeDataset_overwrites {host : WriterHost ε} {payloads : List Payload}
    {paths : List PathBuf} {disk' : Disk}
    (h : pretokenizeDataset host args left payloads = .ok (paths, disk')) (disk : Disk) :
    ∃ clean, pretokenizeDataset host args disk payloads = .ok (paths, clean) ∧
      paths = (List.range (shardGroups host.order args payloads).length).map
        (shardPath args.saveDir) ∧
      (∀ p ∈ paths, disk' p = clean p) ∧ ∀ p, p ∉ paths → disk' p = left p ∧ clean p = disk p := by
  have hdir : (host.io 0).result = .ok () := by
    cases hdir : (host.io 0).result with
    | ok u => rfl
    | error e =>
      rw [pretokenizeDataset, hdir] at h
      cases h
  have hgood := (pretokenizeDataset_ok_iff hdir args left payloads).1 ⟨_, h⟩
  obtain ⟨out, hclean⟩ := (pretokenizeDataset_ok_iff hdir args disk payloads).2 hgood
  obtain ⟨hpaths, hdisk⟩ := Prod.mk.inj
    ((pretokenizeDataset_ends hdir args left payloads).of_ok h)
  obtain rfl := (pretokenizeDataset_ends hdir args disk payloads).of_ok hclean
  have hother : ∀ p, p ∉ paths → ∀ i < (shardGroups host.order args payloads).length,
      p ≠ shardPath args.saveDir (0 + i) := by
    rintro p hp i hi rfl
    rw [Nat.zero_add, hpaths] at hp
    exact hp (List.mem_map.2 ⟨i, List.mem_range.2 hi, rfl⟩)
  refine ⟨_, hpaths ▸ hclean, hpaths, fun p hp => ?_, fun p hp => ⟨?_, ?_⟩⟩
  · rw [hpaths] at hp
    obtain ⟨i, hi, rfl⟩ := List.mem_map.1 hp
    have hgroup := List.getElem?_eq_getElem (List.mem_range.1 hi)
    rw [hdisk, filed_zero hgroup, filed_zero hgroup]
  · rw [hdisk]
    exact filed_other (hother p hp)
  · exact filed_other (hother p hp)

end Rerun

/-- **A complete run after killed ones.**  After any number of killed runs of the same
function on the same dataset, a run that succeeds returns paths that a run on the
original disk also returns; what it leaves at these paths is what that run leaves, and
everything else is as the killed runs left it.  If no order of the records is cut into
more shards than were returned, the whole disk is that of the one run. -/
theorem rerun_after_crashes {next : δ → Option (Except E StringChunked) × δ} {dataset t : δ}
    {items : List (Except E StringChunked)}
    (hdrain : Drains (fun s y => next s = y) dataset items t) {encode : String → Option Payload}
    {host : WriterHost ε} {args : WriterArgs} {disk left : Disk}
    (hcrash : Crashes ε next encode host.order args dataset disk left) {writeQueueSize : ℕ}
    {sys : Pipeline ε δ} (hreach : Reaches (Pipeline.step next encode host args)
      (Pipeline.start host args left dataset writeQueueSize) sys)
    {paths : List PathBuf} {disk' : Disk} (hc : sys.caller = .returned (.ok (paths, disk'))) :
    ∃ clean, (∃ sys', Reaches (Pipeline.step next encode host args)
          (Pipeline.start host args disk dataset writeQueueSize) sys' ∧
          sys'.caller = .returned (.ok (paths, clean))) ∧
      (∀ p ∈ paths, disk' p = clean p) ∧
      (∀ p, p ∉ paths → disk' p = left p ∧ clean p = disk p) ∧
      ((∀ payloads, Orders encode items payloads →
        (shardGroups host.order args payloads).length ≤ paths.length) → disk' = clean) := by
  obtain ⟨payloads, horder, hresult⟩ := (Pipeline.sound_foreseen hdrain hreach).2 _ hc
  obtain ⟨clean, hclean, hpaths, hsame, hother⟩ :=
    pretokenizeDataset_overwrites hresult.symm disk
  obtain ⟨sys', hreach', hc'⟩ :=
    Pipeline.reaches_of_orders hdrain host args disk writeQueueSize horder
  refine ⟨clean, ⟨sys', hreach', hclean ▸ hc'⟩, hsame, hother, fun hshards => ?_⟩
  funext p
  by_cases hp : p ∈ paths
  · exact hsame p hp
  · obtain ⟨hleft, hdisk⟩ := hother p hp
    rw [hleft, hdisk]
    refine hcrash.others hdrain fun payloads' horder' i hi heq => hp ?_
    have hi' := hi.trans_le (hshards payloads' horder')
    rw [hpaths, List.length_map, List.length_range] at hi'
    rw [heq, hpaths]
    exact List.mem_map.2 ⟨i, List.mem_range.2 hi', rfl⟩

/-- The run of one row, killed and started again. -/
theorem rerun_after_crashes_one :
    let read : String → PathBuf → Except Unit StringChunked := fun _ _ => .ok [some "a"]
    let encode : String → Option Payload := fun text => some [UInt32.ofNat text.length]
    let host : WriterHost Unit := ⟨.little, fun _ => ⟨.ok (), 4⟩⟩
    let step := Pipeline.step (ShardLoader.next read) encode host ⟨"out", 16, 7⟩
    let start := fun disk => Pipeline.start host ⟨"out", 16, 7⟩ disk
      (ShardLoader.new ["a.csv"] "text") 1
    ∃ left disk' sys sys', left (shardPath "out" 0) = some [1, 0, 0, 0] ∧
      Reaches step (start left) sys ∧ Reaches step (start fun _ => none) sys' ∧
      sys.caller = .returned (.ok ([shardPath "out" 0], disk')) ∧
      sys'.caller = .returned (.ok ([shardPath "out" 0], disk')) := by
  intro read encode host step start
  obtain ⟨t, ht⟩ := ShardLoader.drains read ["a.csv"] "text"
  have hreach : Reaches step (start fun _ => none) _ :=
    .head ⟨.producer, rfl⟩ <| .head ⟨.row 0, rfl⟩ <| .head ⟨.row 0, rfl⟩ <| .single ⟨.caller, rfl⟩
  have hcrash : Crashes Unit (ShardLoader.next read) encode host.order ⟨"out", 16, 7⟩
      (ShardLoader.new ["a.csv"] "text") (fun _ => none) _ :=
    Relation.ReflTransGen.single ⟨host, 1, _, rfl, hreach, rfl⟩
  have horders : ∀ payloads, Orders encode [read "text" "a.csv"] payloads → payloads = [[1]] :=
    fun _ h => List.perm_singleton.1 (Arrives.perm h)
  have horder : Orders encode [read "text" "a.csv"] [[1]] :=
    ⟨[[[1]]], List.Forall₂.cons (List.Perm.refl _) List.Forall₂.nil, rfl⟩
  obtain ⟨sys, hrun, hc⟩ := Pipeline.reaches_of_orders ht host ⟨"out", 16, 7⟩ _ 1 horder
  obtain ⟨clean, ⟨sys', hrun', hc'⟩, -, -, hsame⟩ := rerun_after_crashes ht hcrash hrun hc
  obtain rfl := hsame fun payloads horder => by
    rw [horders payloads horder]
    decide +kernel
  exact ⟨_, _, sys, sys', by decide +kernel, hrun, hrun', hc, hc'⟩

end Plast
