/-
# The worker protocol over epochs

Every call of `clear_state` begins an epoch: the receiver is dropped, the worker
is joined, and a new worker sends the files again over a new channel.  To tell
whose shard the consumer receives, the system is run with the history of its
messages (`Traced`): a `Parcel` is a shard under way, with the epoch of the
worker that sent it and the place of its file in the list.  The history changes
no run (`Traced.reaches_iff`).

`Traced.Intact` is the invariant, in every build profile and also after a panic
of the consumer.  While the consumer waits in `join` nothing is received and
nothing is queued; otherwise the worker is the one of this epoch, and what was
received, followed by what is queued, is what it has sent (`Worker.Sent`).
`worker_protocol_safe` reads off that no shard is lost, repeated or left over from
an earlier epoch, and that the consumer never waits for ever.
-/

import Plast.Storage.BufferReader

namespace Plast

open Machine Transition

variable {ε : Type} {host : Host ε} {files : List PathBuf} {a : Arith}

/-! ### Parcels -/

/-- A shard under way. -/
structure Parcel where
  /-- The epoch of the worker that sent it. -/
  epoch : ℕ
  /-- The place of its file in the list. -/
  index : ℕ
  bytes : Bytes
  deriving DecidableEq, Repr

/-- What a worker of this epoch sends of these shards. -/
def parcels (epoch : ℕ) (shards : List Bytes) : List Parcel :=
  shards.mapIdx fun index bytes => ⟨epoch, index, bytes⟩

theorem parcels_append (epoch : ℕ) (shards : List Bytes) (bytes : Bytes) :
    parcels epoch (shards ++ [bytes]) = parcels epoch shards ++ [⟨epoch, shards.length, bytes⟩] :=
  List.mapIdx_concat

theorem parcels_prefix (epoch : ℕ) {shards all : List Bytes} (h : shards <+: all) :
    parcels epoch shards <+: parcels epoch all := by
  obtain ⟨rest, rfl⟩ := h
  unfold parcels
  rw [List.mapIdx_append]
  exact List.prefix_append _ _

/-- The places of what a worker sends count up from `0`. -/
theorem map_index_of_prefix {epoch : ℕ} {shards : List Bytes} {sent : List Parcel}
    (h : sent <+: parcels epoch shards) :
    sent.map Parcel.index = List.range sent.length := by
  refine List.ext_getElem (by simp) fun i hi hi' => ?_
  rw [List.length_map] at hi
  have hget := h.getElem hi
  rw [List.getElem_map, List.getElem_range, hget]
  simp [parcels]

theorem epoch_of_mem_parcels {epoch : ℕ} {shards : List Bytes} {p : Parcel}
    (h : p ∈ parcels epoch shards) : p.epoch = epoch := by
  obtain ⟨i, hi, rfl⟩ := List.mem_mapIdx.1 h
  rfl

/-- The parcels a worker has sent, given the place its loop has reached. -/
def Worker.Sent (host : Host ε) (files : List PathBuf) (epoch : ℕ) (sent : List Parcel) :
    Worker → Prop
  | .running rest => ∃ done, files = done ++ rest ∧ sent = parcels epoch (host.shards done)
  | .sending bytes rest => ∃ done path, files = done ++ path :: rest ∧
    (host path).contents = some bytes ∧ sent = parcels epoch (host.shards done)
  | .exited => sent = parcels epoch (host.shards files)

/-- A worker has sent a part of the list. -/
theorem Worker.Sent.prefix_parcels {epoch : ℕ} {sent : List Parcel} {worker : Worker}
    (h : worker.Sent host files epoch sent) : sent <+: parcels epoch (host.shards files) := by
  cases worker with
  | running rest =>
    obtain ⟨done, rfl, rfl⟩ := h
    rw [Host.shards_append]
    exact parcels_prefix epoch (List.prefix_append _ _)
  | sending bytes rest =>
    obtain ⟨done, path, rfl, -, rfl⟩ := h
    rw [Host.shards_append]
    exact parcels_prefix epoch (List.prefix_append _ _)
  | exited =>
    obtain rfl : sent = _ := h
    exact List.prefix_rfl

/-- The file in a worker's hands is the next one of the list. -/
theorem Worker.Sent.send {epoch : ℕ} {sent : List Parcel} {bytes : Bytes} {rest : List PathBuf}
    (hread : host.Readable files) (h : (Worker.sending bytes rest).Sent host files epoch sent) :
    (Worker.running rest).Sent host files epoch
      (sent ++ [⟨epoch, files.length - rest.length - 1, bytes⟩]) := by
  obtain ⟨done, path, rfl, hbytes, rfl⟩ := h
  have hdone : (host.shards done).length = done.length :=
    Host.Readable.length_shards fun p hp => hread p (List.mem_append_left _ hp)
  have hindex : (done ++ path :: rest).length - rest.length - 1 = (host.shards done).length := by
    rw [hdone, List.length_append, List.length_cons]
    omega
  have hshards : host.shards (done ++ [path]) = host.shards done ++ [bytes] := by
    rw [Host.shards_append, Host.shards_cons, hbytes]
    rfl
  refine ⟨done ++ [path], List.append_cons _ _ _, ?_⟩
  rw [hindex, hshards, parcels_append]

/-- The body of the loop moves the cursor and touches nothing else, in any profile. -/
theorem BufferStorage.callHead_moves {s s' : BufferStorage} {c : Call} {w : Option Window}
    (h : s.callHead a c = .ok (w, s')) : ∃ o, s' = { s with localCursor := o } := by
  have hfits : ∀ {found t}, s.fits a c.reqLen c.lookahead = .ok (found, t) →
      ∃ o, t = { s with localCursor := o } := by
    intro found t hf
    unfold BufferStorage.fits at hf
    split at hf
    · obtain ⟨-, rfl⟩ := Prod.mk.inj (Except.ok.inj hf)
      exact ⟨s.localCursor, rfl⟩
    · obtain ⟨stop, -, hf⟩ := bind_eq_ok.1 hf
      split at hf
      · obtain ⟨cursor, -, hf⟩ := bind_eq_ok.1 hf
        obtain ⟨-, rfl⟩ := Prod.mk.inj (Except.ok.inj hf)
        exact ⟨cursor, rfl⟩
      · obtain ⟨-, rfl⟩ := Prod.mk.inj (Except.ok.inj hf)
        exact ⟨s.localCursor, rfl⟩
  rw [BufferSystem.callHead_eq_fits] at h
  obtain ⟨⟨_ | ⟨b, start⟩, t⟩, hf, h⟩ := bind_eq_ok.1 h
  · obtain ⟨-, rfl⟩ := Prod.mk.inj (Except.ok.inj h)
    exact hfits hf
  · obtain ⟨window, -, h⟩ := bind_eq_ok.1 h
    obtain ⟨-, rfl⟩ := Prod.mk.inj (Except.ok.inj h)
    exact hfits hf

/-- The head of the loop touches the cursor, the consumer and the log only, and does not
wait in `join`. -/
theorem BufferSystem.loopHead_frame (a : Arith) (c : Call) (sys : BufferSystem) :
    ∃ cursor consumer log, consumer ≠ .joining ∧ loopHead a c sys = { sys with
      storage := { sys.storage with localCursor := cursor }
      consumer := consumer
      log := log } := by
  unfold loopHead
  split
  · split
    · rename_i w s' hcall
      obtain ⟨cursor, rfl⟩ := BufferStorage.callHead_moves hcall
      exact ⟨cursor, .idle, _, by simp, rfl⟩
    · exact ⟨sys.storage.localCursor, .receiving c, sys.log, by simp, rfl⟩
    · rename_i p hcall
      exact ⟨sys.storage.localCursor, .panicked p, sys.log, by simp, rfl⟩
  · exact ⟨sys.storage.localCursor, .idle, _, by simp, rfl⟩

/-! ### History -/

/-- A system with the history of its messages. -/
structure Traced where
  sys : BufferSystem
  /-- How many times `clear_state` has been called. -/
  epoch : ℕ
  /-- The epoch in which the worker was spawned. -/
  workerEpoch : ℕ
  /-- What is in the channel. -/
  queue : List Parcel
  /-- What the consumer has received in this epoch. -/
  received : List Parcel

namespace Traced

/-- No message has been sent yet. -/
def start (sys : BufferSystem) : Traced := ⟨sys, 0, 0, [], []⟩

/-- The parcel in the hands of the worker. -/
def parcel (tr : Traced) (bytes : Bytes) (rest : List PathBuf) : Parcel :=
  ⟨tr.workerEpoch, tr.sys.storage.dataFiles.length - rest.length - 1, bytes⟩

/-- What a step of the worker adds to the history. -/
def afterWorker (tr : Traced) (sys : BufferSystem) : Traced :=
  match tr.sys.worker, tr.sys.rxAlive with
  | .sending bytes rest, true => { tr with sys := sys, queue := tr.queue ++ [tr.parcel bytes rest] }
  | _, _ => { tr with sys := sys }

/-- What a step of the consumer adds to the history. -/
def afterConsumer (tr : Traced) (sys : BufferSystem) : Traced :=
  match tr.sys.consumer, tr.sys.todo with
  -- `clear_state` drops the receiver
  | .idle, .restart :: _ => { tr with sys := sys, epoch := tr.epoch + 1, queue := [], received := [] }
  | .receiving _, _ =>
    match tr.queue, tr.sys.worker with
    | p :: queue, _ => { tr with sys := sys, queue := queue, received := tr.received ++ [p] }
    | [], .sending bytes rest =>
      { tr with sys := sys, received := tr.received ++ [tr.parcel bytes rest] }
    | [], _ => { tr with sys := sys }
  -- `clear_state` spawns a worker
  | .joining, _ => { tr with sys := sys, workerEpoch := tr.epoch }
  | _, _ => { tr with sys := sys }

/-- A step of the system, with its history. -/
def step (host : Host ε) (a : Arith) : ThreadId → Traced → Option Traced
  | .consumer, tr => (BufferSystem.consumerStep a tr.sys).map tr.afterConsumer
  | .worker, tr => (BufferSystem.workerStep host tr.sys).map tr.afterWorker

variable {tr : Traced}

theorem afterWorker_sys (tr : Traced) (sys : BufferSystem) : (tr.afterWorker sys).sys = sys := by
  unfold afterWorker
  split <;> rfl

theorem afterConsumer_sys (tr : Traced) (sys : BufferSystem) :
    (tr.afterConsumer sys).sys = sys := by
  unfold afterConsumer
  split
  · rfl
  · split <;> rfl
  · rfl
  · rfl

theorem afterWorker_sends {bytes : Bytes} {rest : List PathBuf} (sys : BufferSystem)
    (hw : tr.sys.worker = .sending bytes rest) (halive : tr.sys.rxAlive = true) :
    tr.afterWorker sys = { tr with sys := sys, queue := tr.queue ++ [tr.parcel bytes rest] } := by
  simp only [afterWorker, hw, halive]

theorem afterWorker_running {rest : List PathBuf} (sys : BufferSystem)
    (hw : tr.sys.worker = .running rest) : tr.afterWorker sys = { tr with sys := sys } := by
  simp only [afterWorker, hw]

theorem afterWorker_fails (sys : BufferSystem) (halive : tr.sys.rxAlive = false) :
    tr.afterWorker sys = { tr with sys := sys } := by
  cases hw : tr.sys.worker <;> simp only [afterWorker, hw, halive]

theorem afterConsumer_disconnected {c : Call} (sys : BufferSystem)
    (hc : tr.sys.consumer = .receiving c) (hempty : tr.queue = [])
    (hw : tr.sys.worker = .exited) : tr.afterConsumer sys = { tr with sys := sys } := by
  simp only [afterConsumer, hc, hempty, hw]

/-- The history changes no run. -/
theorem reaches_iff (host : Host ε) (a : Arith) (tr : Traced) {sys : BufferSystem} :
    Reaches (BufferSystem.step host a) tr.sys sys ↔
      ∃ tr', Reaches (step host a) tr tr' ∧ tr'.sys = sys := by
  refine reaches_view_iff fun i tr => ?_
  cases i with
  | consumer =>
    refine (Option.map_map _ _ _).trans ((Option.map_congr fun sys _ => ?_).trans Option.map_id')
    exact tr.afterConsumer_sys sys
  | worker =>
    refine (Option.map_map _ _ _).trans ((Option.map_congr fun sys _ => ?_).trans Option.map_id')
    exact tr.afterWorker_sys sys

/-! ### The invariant -/

/-- The history is that of the channel, and it is told by the worker of this epoch. -/
structure Intact (host : Host ε) (files : List PathBuf) (tr : Traced) : Prop where
  dataFiles : tr.sys.storage.dataFiles = files
  queue : tr.queue.map Parcel.bytes = tr.sys.channel.queue
  joining : tr.sys.consumer = .joining →
    tr.sys.rxAlive = false ∧ tr.queue = [] ∧ tr.received = []
  alive : tr.sys.consumer ≠ .joining → tr.sys.rxAlive = true
  worker : tr.sys.consumer ≠ .joining → tr.workerEpoch = tr.epoch
  received : tr.sys.consumer ≠ .joining → tr.received.map Parcel.bytes = tr.sys.channel.received
  sent : tr.sys.consumer ≠ .joining →
    tr.sys.worker.Sent host files tr.epoch (tr.received ++ tr.queue)

/-- What the worker does on its own: it opens the next file, skips it, or exits. -/
theorem Intact.workerAdvance {worker : Worker} (h : tr.Intact host files)
    (hsent : tr.sys.consumer ≠ .joining →
      worker.Sent host files tr.epoch (tr.received ++ tr.queue)) :
    Intact host files { tr with sys := { tr.sys with worker := worker } } :=
  ⟨h.dataFiles, h.queue, h.joining, h.alive, h.worker, h.received, hsent⟩

/-- What the worker of this epoch has sent, given where it is. -/
theorem Intact.sent_of {worker : Worker} (h : tr.Intact host files)
    (hj : tr.sys.consumer ≠ .joining) (hw : tr.sys.worker = worker) :
    worker.Sent host files tr.epoch (tr.received ++ tr.queue) :=
  hw ▸ h.sent hj

/-- The parcel in the hands of the worker of this epoch is the next one. -/
theorem Intact.sent_parcel {bytes : Bytes} {rest : List PathBuf} (hread : host.Readable files)
    (h : tr.Intact host files) (hj : tr.sys.consumer ≠ .joining)
    (hw : tr.sys.worker = .sending bytes rest) :
    (Worker.running rest).Sent host files tr.epoch
      (tr.received ++ tr.queue ++ [tr.parcel bytes rest]) := by
  have hnext := (h.sent_of hj hw).send hread
  rwa [← h.dataFiles, ← h.worker hj] at hnext ⊢

theorem Intact.workerStep (hread : host.Readable files) (h : tr.Intact host files)
    {sys : BufferSystem} (hs : BufferSystem.workerStep host tr.sys = some sys) :
    (tr.afterWorker sys).Intact host files := by
  -- a readable file has contents, so a worker that finds none is the one being joined
  have hjoin : ∀ {path rest}, tr.sys.worker = .running (path :: rest) →
      (host path).contents = none → tr.sys.consumer = .joining := by
    intro path rest hw hc
    by_contra hj
    obtain ⟨done, hdone, -⟩ := h.sent_of hj hw
    obtain ⟨b, hb, -⟩ := hread path (hdone ▸ List.mem_append_right _ List.mem_cons_self)
    cases hb.symm.trans hc
  cases BufferSystem.workerStep_move hs with
  | finishes hw =>
    rw [afterWorker_running _ hw]
    refine h.workerAdvance fun hj => ?_
    obtain ⟨done, hdone, hsent⟩ := h.sent_of hj hw
    rw [List.append_nil] at hdone
    exact hdone ▸ hsent
  | opens hw hc =>
    rw [afterWorker_running _ hw]
    refine h.workerAdvance fun hj => ?_
    obtain ⟨done, hdone, hsent⟩ := h.sent_of hj hw
    exact ⟨done, _, hdone, hc, hsent⟩
  | stops hw hc _ =>
    rw [afterWorker_running _ hw]
    exact h.workerAdvance fun hj => absurd (hjoin hw hc) hj
  | skips hw hc _ =>
    rw [afterWorker_running _ hw]
    exact h.workerAdvance fun hj => absurd (hjoin hw hc) hj
  | sends hw halive =>
    have hj : tr.sys.consumer ≠ .joining := fun hj => by
      cases halive.symm.trans (h.joining hj).1
    have hsent := h.sent_parcel hread hj hw
    rw [List.append_assoc] at hsent
    rw [afterWorker_sends _ hw halive]
    refine ⟨h.dataFiles, ?_, fun hj' => absurd hj' hj, fun _ => halive, h.worker, h.received,
      fun _ => hsent⟩
    simp only [Channel.send, List.map_append, h.queue]
    rfl
  | fails _ halive =>
    rw [afterWorker_fails _ halive]
    exact h.workerAdvance fun hj => by cases halive.symm.trans (h.alive hj)

/-- The consumer goes on with its loop. -/
theorem Intact.loopHead (h : tr.Intact host files) (hj : tr.sys.consumer ≠ .joining) (c : Call) :
    Intact host files { tr with sys := BufferSystem.loopHead a c tr.sys } := by
  obtain ⟨cursor, consumer, log, hconsumer, heq⟩ := BufferSystem.loopHead_frame a c tr.sys
  rw [heq]
  exact ⟨h.dataFiles, h.queue, fun hc => absurd hc hconsumer, fun _ => h.alive hj,
    fun _ => h.worker hj, fun _ => h.received hj, fun _ => h.sent hj⟩

/-- The consumer goes on with a buffer it has just received. -/
theorem Intact.receive {c : Call} {channel : Channel Bytes} {worker : Worker} {p : Parcel}
    {queue : List Parcel} (h : tr.Intact host files) (hc : tr.sys.consumer = .receiving c)
    (hqueue : queue.map Parcel.bytes = channel.queue)
    (hreceived : channel.received = tr.sys.channel.received ++ [p.bytes])
    (hsent : worker.Sent host files tr.epoch (tr.received ++ [p] ++ queue)) :
    Intact host files { tr with
      sys := BufferSystem.received a c
        { tr.sys with channel := channel, worker := worker } p.bytes
      queue := queue
      received := tr.received ++ [p] } := by
  have hj : tr.sys.consumer ≠ .joining := by simp [hc]
  have hintact : Intact host files { tr with
      sys := { tr.sys with
        storage := tr.sys.storage.activate p.bytes, channel := channel, worker := worker }
      queue := queue
      received := tr.received ++ [p] } := by
    refine ⟨h.dataFiles, hqueue, fun hc => absurd hc hj, fun _ => h.alive hj,
      fun _ => h.worker hj, fun _ => ?_, fun _ => hsent⟩
    simp only [hreceived, List.map_append, h.received hj, List.map_cons, List.map_nil]
  exact hintact.loopHead hj c

/-- A buffer arrives, and the history says which parcel it is. -/
theorem Intact.arrival {c : Call} {channel : Channel Bytes} {worker : Worker} {bytes : Bytes}
    (hread : host.Readable files) (h : tr.Intact host files)
    (hc : tr.sys.consumer = .receiving c)
    (harrival : BufferSystem.Arrival tr.sys channel worker bytes) :
    (tr.afterConsumer (BufferSystem.received a c
      { tr.sys with channel := channel, worker := worker } bytes)).Intact host files := by
  have hj : tr.sys.consumer ≠ .joining := by simp [hc]
  have hqueue := h.queue
  cases harrival with
  | queued hq hreceived =>
    cases hparcels : tr.queue with
    | nil =>
      rw [hparcels, hq] at hqueue
      cases hqueue
    | cons p queue =>
      rw [hparcels, hq] at hqueue
      obtain ⟨rfl, hrest⟩ := List.cons.inj hqueue
      have hsent := h.sent hj
      rw [hparcels, List.append_cons] at hsent
      simp only [afterConsumer, hc, hparcels]
      exact h.receive hc hrest hreceived hsent
  | handed hq hw =>
    have hempty : tr.queue = [] := List.map_eq_nil_iff.1 (hqueue.trans hq)
    have hsent := h.sent_parcel hread hj hw
    rw [hempty, List.append_nil, ← List.append_nil (_ ++ _)] at hsent
    simp only [afterConsumer, hc, hempty, hw]
    exact h.receive (p := tr.parcel _ _) hc hq.symm rfl hsent

theorem Intact.consumerStep (hread : host.Readable files) (h : tr.Intact host files)
    {sys : BufferSystem} (hs : BufferSystem.consumerStep a tr.sys = some sys) :
    (tr.afterConsumer sys).Intact host files := by
  cases BufferSystem.consumerStep_action hs with
  | @read c ops hc ht =>
    have hj : tr.sys.consumer ≠ .joining := by simp [hc]
    have hintact : Intact host files { tr with sys := { tr.sys with todo := ops } } :=
      ⟨h.dataFiles, h.queue, h.joining, h.alive, h.worker, h.received, h.sent⟩
    simp only [afterConsumer, hc, ht]
    exact hintact.loopHead hj c
  | restart hc ht =>
    simp only [afterConsumer, hc, ht]
    exact ⟨h.dataFiles, rfl, fun _ => ⟨rfl, rfl, rfl⟩, fun hn => absurd rfl hn,
      fun hn => absurd rfl hn, fun hn => absurd rfl hn, fun hn => absurd rfl hn⟩
  | receive hc harrival => exact h.arrival hread hc harrival
  | disconnected hc hq hw =>
    have hj : tr.sys.consumer ≠ .joining := by simp [hc]
    have hempty : tr.queue = [] := List.map_eq_nil_iff.1 (h.queue.trans hq)
    rw [afterConsumer_disconnected _ hc hempty hw]
    exact ⟨h.dataFiles, h.queue, fun hn => absurd hn (by simp), fun _ => h.alive hj,
      fun _ => h.worker hj, fun _ => h.received hj, fun _ => h.sent hj⟩
  | joined hc hw =>
    obtain ⟨-, hqueue, hreceived⟩ := h.joining hc
    simp only [afterConsumer, hc]
    refine ⟨h.dataFiles, ?_, fun hn => absurd hn (by simp), fun _ => rfl, fun _ => rfl,
      fun _ => ?_, fun _ => ⟨[], h.dataFiles.symm, ?_⟩⟩
    · rw [hqueue]
      rfl
    · rw [hreceived]
      rfl
    · rw [hqueue, hreceived]
      rfl

/-- The invariant holds on in every run. -/
theorem Intact.of_reaches (hread : host.Readable files) (h : tr.Intact host files) {tr' : Traced}
    (ht : Reaches (step host a) tr tr') : tr'.Intact host files := by
  refine ht.invariant (fun i s t hs hst => ?_) h
  cases i with
  | consumer =>
    obtain ⟨sys, hsys, rfl⟩ := Option.map_eq_some_iff.1 hst
    exact hs.consumerStep hread hsys
  | worker =>
    obtain ⟨sys, hsys, rfl⟩ := Option.map_eq_some_iff.1 hst
    exact hs.workerStep hread hsys

theorem start_intact (host : Host ε) (files : List PathBuf) (bufferSize totalSize : ℕ)
    (ops : List Op) :
    (start ((BufferSystem.loaded files bufferSize totalSize).issue ops)).Intact host files :=
  ⟨rfl, rfl, fun hn => Consumer.noConfusion hn, fun _ => rfl, fun _ => rfl, fun _ => rfl,
    fun _ => ⟨[], rfl, rfl⟩⟩

/-! ### Safety -/

/-- What the protocol guarantees in a state. -/
structure Safe (host : Host ε) (files : List PathBuf) (a : Arith) (tr : Traced) : Prop where
  /-- The consumer has received the first shards of the list, in order. -/
  in_order : tr.received <+: parcels tr.epoch (host.shards files)
  /-- No place of the list is received twice. -/
  once : tr.received.map Parcel.index = List.range tr.received.length
  /-- Nothing comes from a worker of an earlier epoch. -/
  own_epoch : ∀ p ∈ tr.received, p.epoch = tr.epoch
  /-- The history is what has come out of the channel of this epoch. -/
  observed : tr.sys.consumer ≠ .joining → tr.received.map Parcel.bytes = tr.sys.channel.received
  /-- A `recv` fails only when all files have been received. -/
  end_last : ∀ c, tr.sys.consumer = .receiving c → tr.sys.channel.recv? = none →
    tr.sys.worker = .exited → tr.received = parcels tr.epoch (host.shards files)
  /-- While the consumer waits, a thread can move. -/
  no_deadlock : (∃ c, tr.sys.consumer = .receiving c) ∨ tr.sys.consumer = .joining →
    ∃ i sys, BufferSystem.step host a i tr.sys = some sys

theorem Intact.in_order (h : tr.Intact host files) :
    tr.received <+: parcels tr.epoch (host.shards files) := by
  by_cases hj : tr.sys.consumer = .joining
  · rw [(h.joining hj).2.2]
    exact List.nil_prefix
  · exact (List.prefix_append _ _).trans (h.sent hj).prefix_parcels

theorem Intact.safe (a : Arith) (h : tr.Intact host files) : tr.Safe host files a where
  in_order := h.in_order
  once := map_index_of_prefix h.in_order
  own_epoch := fun _ hp => epoch_of_mem_parcels (h.in_order.subset hp)
  observed := h.received
  end_last := fun c hc hr hw => by
    have hqueue := h.queue
    rw [Channel.recv?_eq_none.1 hr, List.map_eq_nil_iff] at hqueue
    have hsent := h.sent (by simp [hc])
    rw [hw, hqueue, List.append_nil] at hsent
    exact hsent
  no_deadlock := by
    rintro (⟨c, hc⟩ | hc)
    · exact BufferSystem.progress_receiving host a hc (h.alive (by simp [hc]))
    · exact BufferSystem.progress_joining host a hc (h.joining hc).1

end Traced

/-- The worker protocol is safe over epochs, whatever the calls, the buffer size, the
build and the interleaving: the traced runs are the runs of the system, and every state
of them is safe. -/
theorem worker_protocol_safe {bufferSize : ℕ} {sys : BufferSystem} (hread : host.Readable files)
    (hload : BufferSystem.loadData host files bufferSize = .ok sys) (a : Arith) (ops : List Op) :
    (∀ sys', Reaches (BufferSystem.step host a) (sys.issue ops) sys' ↔
      ∃ tr, Reaches (Traced.step host a) (Traced.start (sys.issue ops)) tr ∧ tr.sys = sys') ∧
    ∀ tr, Reaches (Traced.step host a) (Traced.start (sys.issue ops)) tr →
      tr.Safe host files a := by
  obtain ⟨lens, -, rfl⟩ := BufferSystem.loadData_eq_ok.1 hload
  refine ⟨fun sys' => Traced.reaches_iff host a (Traced.start _), fun tr htr => ?_⟩
  exact (Traced.Intact.of_reaches hread (Traced.start_intact host files _ _ ops) htr).safe a

/-- Two files, a channel without capacity, and a `clear_state` while the worker of the
first epoch still holds the second file. -/
theorem worker_protocol_safe_restart :
    let host : Host Unit := fun _ => File.ofBytes [1, 2, 3, 4]
    let files := ["a.bin", "b.bin"]
    ∃ sys, BufferSystem.loadData host files 0 = .ok sys ∧
      ∀ tr, Reaches (Traced.step host .debug) (Traced.start
          (sys.issue [.read (.sliceSequential 4), .restart, .read (.sliceSequential 4)])) tr →
        tr.received <+: [⟨tr.epoch, 0, [1, 2, 3, 4]⟩, ⟨tr.epoch, 1, [1, 2, 3, 4]⟩] := by
  intro host files
  have hread : host.Readable files := fun path _ => File.ofBytes_readable _
  have hload : BufferSystem.loadData host files 0 = .ok (BufferSystem.loaded files 0 8) := rfl
  exact ⟨_, hload, fun tr htr => ((worker_protocol_safe hread hload .debug _).2 tr htr).in_order⟩

end Plast
