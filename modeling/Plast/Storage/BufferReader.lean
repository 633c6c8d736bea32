/-
# The prefetching storage is a block reader

Whatever the schedule, a `BufferSystem` returns what a block reader returns that
keeps its last block (`BufferSystem.outcome_of_reaches`).  The blocks still to
come are those in the channel and those the worker is going to send
(`BufferSystem.pending`), so a send moves a block from the one to the other and
changes nothing for the reader.  `BufferSystem.outcome` is what has been
returned followed by what the reader will return: every step keeps it.

The same invariant shows that no thread waits for ever
(`BufferSystem.completes`): each step lowers `BufferSystem.measure`, and a
system that has not finished has a step.
-/

import Plast.Storage.Buffer

namespace Plast

open Machine BlockReader Transition

variable {ε : Type}

/-! ### What a worker delivers -/

/-- The files a worker delivers: the worker of `load_data` stops at one that
fails, the worker of `clear_state` skips it. -/
def Spawn.delivered (host : Host ε) (spawn : Spawn) : List PathBuf → List Bytes
  | [] => []
  | path :: files =>
    match (host path).contents with
    | some bytes => bytes :: spawn.delivered host files
    | none =>
      match spawn with
      | .loadData => []
      | .clearState => spawn.delivered host files

theorem Spawn.delivered_cons (host : Host ε) (spawn : Spawn) (path : PathBuf)
    (files : List PathBuf) :
    spawn.delivered host (path :: files) =
      (host path).contents.elim (if spawn = .loadData then [] else spawn.delivered host files)
        (· :: spawn.delivered host files) := by
  rw [delivered.eq_def]
  cases hc : (host path).contents <;> cases spawn <;> simp [hc]

/-- What the worker is still going to send if nobody stops it. -/
def Worker.stream (host : Host ε) (spawn : Spawn) : Worker → List Bytes
  | .running files => spawn.delivered host files
  | .sending bytes files => bytes :: spawn.delivered host files
  | .exited => []

theorem Spawn.delivered_clearState (host : Host ε) (files : List PathBuf) :
    Spawn.clearState.delivered host files = host.shards files := by
  induction files with
  | nil => rfl
  | cons path files ih =>
    rw [Host.shards_cons, delivered_cons, ih]
    rfl

/-- Both workers deliver the same of readable files. -/
theorem Spawn.delivered_of_readable {host : Host ε} {files : List PathBuf}
    (h : host.Readable files) (spawn : Spawn) : spawn.delivered host files = host.shards files := by
  induction files with
  | nil => rfl
  | cons path files ih =>
    obtain ⟨bytes, hbytes, -⟩ := h path List.mem_cons_self
    rw [Host.shards_cons, delivered_cons, ih fun p hp => h p (List.mem_cons_of_mem _ hp), hbytes]
    rfl

theorem Spawn.length_delivered_le (host : Host ε) (spawn : Spawn) (files : List PathBuf) :
    (spawn.delivered host files).length ≤ files.length := by
  induction files with
  | nil => exact Nat.le_refl _
  | cons path files ih =>
    rw [delivered_cons]
    cases (host path).contents with
    | some bytes => exact Nat.succ_le_succ ih
    | none =>
      cases spawn with
      | loadData => exact Nat.zero_le _
      | clearState => exact Nat.le_succ_of_le ih

/-- The steps a worker has left, counting a sent file until it is received. -/
def Worker.weight : Worker → ℕ
  | .running files => 3 * files.length + 1
  | .sending _ files => 3 * files.length + 3
  | .exited => 0

namespace BufferSystem

variable {host : Host ε} {sys sys' : BufferSystem}

/-- The files the consumer has still to receive, oldest first. -/
def pending (host : Host ε) (sys : BufferSystem) : List Bytes :=
  sys.channel.queue ++ sys.worker.stream host sys.spawn

/-- The steps left before the worker is gone and the channel is empty. -/
def backlog (sys : BufferSystem) : ℕ := sys.channel.queue.length + sys.worker.weight

/-- The consumer as a block reader. -/
def held (host : Host ε) (sys : BufferSystem) : State UInt8 :=
  ⟨sys.storage.activeBuffer, sys.storage.localCursor, sys.pending host⟩

/-- The epoch is intact: what was received and what is pending are the files in
order, and the shard counter counts what was received. -/
structure Live (host : Host ε) (sys : BufferSystem) : Prop where
  total : sys.storage.totalShardCount = sys.storage.dataFiles.length
  alive : sys.rxAlive = true
  history : sys.channel.received ++ sys.pending host =
    sys.spawn.delivered host sys.storage.dataFiles
  counted : sys.storage.currentShardIdx = sys.channel.received.length

/-- The invariant, by what the consumer is doing. -/
def Sound (host : Host ε) (sys : BufferSystem) : Prop :=
  match sys.consumer with
  | .idle => sys.Live host
  | .receiving c => sys.Live host ∧ (sys.held host).hit? c.request = none
  | .joining => sys.storage.totalShardCount = sys.storage.dataFiles.length ∧ sys.rxAlive = false
  | .panicked _ => False

/-- The reader that answers the calls still to come. -/
def reader (host : Host ε) (sys : BufferSystem) : State UInt8 :=
  match sys.consumer with
  | .joining => (sys.held host).restart true (host.shards sys.storage.dataFiles)
  | _ => sys.held host

/-- The calls that have not returned. -/
def remaining (sys : BufferSystem) : List Op :=
  match sys.consumer with
  | .receiving c => .read c :: sys.todo
  | _ => sys.todo

/-- What `log` becomes when a reader that keeps its last block answers `ops`, and
where the reader ends. -/
def answers (log : List (Option Window)) (blocks : List Bytes) (ops : List Op) (r : State UInt8) :
    List (Option Window) × State UInt8 :=
  let (ws, r') := r.run Call.request Call.view true blocks ops
  (log ++ ws, r')

/-- What the calls have returned and what the reader will return, and where it
ends. -/
def outcome (host : Host ε) (sys : BufferSystem) : List (Option Window) × State UInt8 :=
  answers sys.log (host.shards sys.storage.dataFiles) sys.remaining (sys.reader host)

/-- The steps the system has left. -/
def measure (sys : BufferSystem) : ℕ :=
  sys.todo.length * (3 * sys.storage.dataFiles.length + 4) + sys.backlog +
    match sys.consumer with
    | .receiving _ => 1
    | .joining => 3 * sys.storage.dataFiles.length + 2
    | _ => 0

/-! ### The worker -/

/-- What a step of the worker can do. -/
inductive WorkerMove (host : Host ε) (sys : BufferSystem) : BufferSystem → Prop
  | finishes :
    sys.worker = .running [] → WorkerMove host sys { sys with worker := .exited }
  | opens {path : PathBuf} {files : List PathBuf} {bytes : Bytes} :
    sys.worker = .running (path :: files) → (host path).contents = some bytes →
    WorkerMove host sys { sys with worker := .sending bytes files }
  /-- The worker of `load_data` unwraps. -/
  | stops {path : PathBuf} {files : List PathBuf} :
    sys.worker = .running (path :: files) → (host path).contents = none →
    sys.spawn = .loadData → WorkerMove host sys { sys with worker := .exited }
  /-- The worker of `clear_state` goes on. -/
  | skips {path : PathBuf} {files : List PathBuf} :
    sys.worker = .running (path :: files) → (host path).contents = none →
    sys.spawn = .clearState → WorkerMove host sys { sys with worker := .running files }
  | sends {bytes : Bytes} {files : List PathBuf} :
    sys.worker = .sending bytes files → sys.rxAlive = true →
    WorkerMove host sys
      { sys with channel := sys.channel.send bytes, worker := .running files }
  | fails {bytes : Bytes} {files : List PathBuf} :
    sys.worker = .sending bytes files → sys.rxAlive = false →
    WorkerMove host sys { sys with worker := .exited }

theorem workerStep_move (h : workerStep host sys = some sys') : WorkerMove host sys sys' := by
  unfold workerStep at h
  cases hw : sys.worker with
  | running files =>
    cases files with
    | nil =>
      simp only [hw, Option.some.injEq] at h
      exact h ▸ .finishes hw
    | cons path files =>
      simp only [hw] at h
      cases hc : (host path).contents with
      | some bytes =>
        simp only [hc, Option.some.injEq] at h
        exact h ▸ .opens hw hc
      | none =>
        cases hs : sys.spawn with
        | loadData =>
          simp only [hc, hs, Option.some.injEq] at h
          subst h
          have hmove := WorkerMove.stops hw hc hs
          rwa [hs] at hmove
        | clearState =>
          simp only [hc, hs, Option.some.injEq] at h
          subst h
          have hmove := WorkerMove.skips hw hc hs
          rwa [hs] at hmove
  | sending bytes files =>
    simp only [hw] at h
    cases halive : sys.rxAlive with
    | true =>
      rw [if_pos halive] at h
      split at h
      · exact Option.some.inj h ▸ .sends hw halive
      · cases h
    | false =>
      rw [if_neg (by rw [halive]; decide)] at h
      exact Option.some.inj h ▸ .fails hw halive
  | exited => simp [hw] at h

/-- A step of the worker moves on, without any effect on what the consumer will receive
while the receiver is alive. -/
theorem workerStep_spec (h : workerStep host sys = some sys') :
    ∃ channel worker, sys' = { sys with channel := channel, worker := worker } ∧
      channel.received = sys.channel.received ∧
      (sys.rxAlive = true → sys'.pending host = sys.pending host) ∧
      sys'.backlog < sys.backlog := by
  cases workerStep_move h with
  | finishes hw =>
    exact ⟨_, _, rfl, rfl, fun _ => by simp [pending, hw, Worker.stream, Spawn.delivered],
      by simp [backlog, hw, Worker.weight]⟩
  | opens hw hc =>
    exact ⟨_, _, rfl, rfl, fun _ => by simp [pending, hw, Worker.stream, Spawn.delivered_cons, hc],
      by simp [backlog, hw, Worker.weight]; omega⟩
  | stops hw hc hs =>
    exact ⟨_, _, rfl, rfl,
      fun _ => by simp [pending, hw, hs, Worker.stream, Spawn.delivered_cons, hc],
      by simp [backlog, hw, Worker.weight]⟩
  | skips hw hc hs =>
    exact ⟨_, _, rfl, rfl,
      fun _ => by simp [pending, hw, hs, Worker.stream, Spawn.delivered_cons, hc],
      by simp [backlog, hw, Worker.weight]⟩
  | sends hw halive =>
    exact ⟨_, _, rfl, rfl, fun _ => by simp [pending, hw, Worker.stream, Channel.send],
      by simp [backlog, hw, Worker.weight, Channel.send]; omega⟩
  | fails hw halive =>
    exact ⟨_, _, rfl, rfl, fun ha => absurd (ha.symm.trans halive) (by decide),
      by simp [backlog, hw, Worker.weight]⟩

/-! ### The consumer -/

/-- The body of the loop is the fit test and then the slices of the window. -/
theorem callHead_eq_fits (a : Arith) (s : BufferStorage) (c : Call) :
    s.callHead a c = s.fits a c.reqLen c.lookahead >>= c.served a := by
  cases c with
  | sliceSequential n =>
    simp only [BufferStorage.callHead, BufferStorage.sliceSequentialHead, Call.reqLen,
      Call.lookahead]
    cases s.fits a n 0 with
    | error p => rfl
    | ok found =>
      rcases found with ⟨_ | ⟨b, o⟩, s'⟩
      · rfl
      · simp only [bind, Except.bind, Call.served, Call.window]
        cases plainWindow a b o n <;> rfl
  | sliceTfSequential n =>
    simp only [BufferStorage.callHead, BufferStorage.sliceTfSequentialHead, Call.reqLen,
      Call.lookahead]
    cases s.fits a n 4 with
    | error p => rfl
    | ok found =>
      rcases found with ⟨_ | ⟨b, o⟩, s'⟩
      · rfl
      · simp only [bind, Except.bind, Call.served, Call.window]
        cases tfWindow a b o n <;> rfl

/-- The body of the loop is the part of a request that the active buffer answers. -/
theorem callHead_eq (s : BufferStorage) (c : Call) (pending : List Bytes) :
    s.callHead .unbounded c =
      match State.hit? c.request ⟨s.activeBuffer, s.localCursor, pending⟩ with
      | some h => .ok (some (c.view h), { s with localCursor := s.localCursor + c.reqLen })
      | none => .ok (none, s) := by
  rw [callHead_eq_fits]
  unfold BufferStorage.fits State.hit?
  cases s.activeBuffer with
  | none => rfl
  | some b =>
    simp only [windowEnd, Arith.add_unbounded, bind, Except.bind]
    by_cases hle : s.localCursor + c.reqLen + c.lookahead ≤ b.length
    · have hneed : s.localCursor + c.request.need ≤ b.length := by
        rw [Request.need, ← Nat.add_assoc]
        exact hle
      simp only [hle, hneed, ↓reduceIte, pure, Except.pure, Call.served,
        Call.window_unbounded hle, bind, Except.bind]
    · have hneed : ¬s.localCursor + c.request.need ≤ b.length := by
        rw [Request.need, ← Nat.add_assoc]
        exact hle
      simp only [hle, hneed, ↓reduceIte, pure, Except.pure, Call.served]

/-- The shard counter never passes the number of files. -/
theorem Live.currentShardIdx_le (h : sys.Live host) :
    sys.storage.currentShardIdx ≤ sys.storage.totalShardCount := by
  have hle := sys.spawn.length_delivered_le host sys.storage.dataFiles
  rw [← h.history, List.length_append] at hle
  rw [h.counted, h.total]
  omega

/-- What the head of the loop can do in an intact epoch: return a window of the
active buffer, or go on to the `recv`. -/
theorem loopHead_spec (h : sys.Live host) (c : Call) :
    (∃ hit, (sys.held host).hit? c.request = some hit ∧
      loopHead .unbounded c sys = { sys with
        storage := { sys.storage with localCursor := sys.storage.localCursor + c.reqLen }
        consumer := .idle
        log := sys.log ++ [some (c.view hit)] }) ∨
    ((sys.held host).hit? c.request = none ∧
      loopHead .unbounded c sys = { sys with consumer := .receiving c }) := by
  have hcall := callHead_eq sys.storage c (sys.pending host)
  unfold loopHead
  rw [if_pos h.currentShardIdx_le, hcall]
  change (∃ hit, State.hit? c.request ⟨_, _, sys.pending host⟩ = some hit ∧ _) ∨ _
  cases hhit : State.hit? c.request ⟨sys.storage.activeBuffer, sys.storage.localCursor,
      sys.pending host⟩ with
  | some hit => exact Or.inl ⟨hit, rfl, rfl⟩
  | none => exact Or.inr ⟨hhit, rfl⟩

theorem loopHead_sound (h : sys.Live host) (c : Call) : (loopHead .unbounded c sys).Sound host := by
  rcases loopHead_spec h c with ⟨hit, -, heq⟩ | ⟨hmiss, heq⟩
  · rw [heq]
    exact ⟨h.total, h.alive, h.history, h.counted⟩
  · rw [heq]
    exact ⟨⟨h.total, h.alive, h.history, h.counted⟩, hmiss⟩

theorem loopHead_outcome (h : sys.Live host) (c : Call) :
    (loopHead .unbounded c sys).outcome host =
      answers sys.log (host.shards sys.storage.dataFiles) (.read c :: sys.todo)
        (sys.held host) := by
  rcases loopHead_spec h c with ⟨hit, hhit, heq⟩ | ⟨-, heq⟩
  · rw [heq, answers, State.run_read, State.seek_hit hhit]
    exact Prod.ext (List.append_assoc _ _ _) rfl
  · rw [heq]
    rfl

theorem loopHead_measure (h : sys.Live host) (c : Call) :
    (loopHead .unbounded c sys).measure ≤
      sys.todo.length * (3 * sys.storage.dataFiles.length + 4) + sys.backlog + 1 := by
  rcases loopHead_spec h c with ⟨hit, -, heq⟩ | ⟨-, heq⟩
  · rw [heq]
    exact Nat.le_succ _
  · rw [heq]
    exact Nat.le_refl _

theorem loopHead_dataFiles (h : sys.Live host) (c : Call) :
    (loopHead .unbounded c sys).storage.dataFiles = sys.storage.dataFiles := by
  rcases loopHead_spec h c with ⟨hit, -, heq⟩ | ⟨-, heq⟩ <;> rw [heq]

/-- How a buffer gets to the consumer, and what is left of the channel and the worker. -/
inductive Arrival (sys : BufferSystem) : Channel Bytes → Worker → Bytes → Prop
  | queued {channel : Channel Bytes} {bytes : Bytes} :
    sys.channel.queue = bytes :: channel.queue →
    channel.received = sys.channel.received ++ [bytes] → Arrival sys channel sys.worker bytes
  | handed {bytes : Bytes} {files : List PathBuf} :
    sys.channel.queue = [] → sys.worker = .sending bytes files →
    Arrival sys (sys.channel.handOff bytes) (.running files) bytes

/-- What a step of the consumer can do. -/
inductive ConsumerAction (a : Arith) (sys : BufferSystem) : BufferSystem → Prop
  | read {c : Call} {ops : List Op} :
    sys.consumer = .idle → sys.todo = .read c :: ops →
    ConsumerAction a sys (loopHead a c { sys with todo := ops })
  | restart {ops : List Op} :
    sys.consumer = .idle → sys.todo = .restart :: ops →
    ConsumerAction a sys { sys with
      channel := { sys.channel with queue := [] }
      rxAlive := false
      consumer := .joining
      todo := ops }
  | receive {c : Call} {channel : Channel Bytes} {worker : Worker} {bytes : Bytes} :
    sys.consumer = .receiving c → Arrival sys channel worker bytes →
    ConsumerAction a sys
      (received a c { sys with channel := channel, worker := worker } bytes)
  | disconnected {c : Call} :
    sys.consumer = .receiving c → sys.channel.queue = [] → sys.worker = .exited →
    ConsumerAction a sys { sys with consumer := .idle, log := sys.log ++ [none] }
  | joined :
    sys.consumer = .joining → sys.worker = .exited →
    ConsumerAction a sys { sys with
      storage := sys.storage.clearState
      channel := Channel.bounded sys.channel.capacity
      rxAlive := true
      spawn := .clearState
      worker := .running sys.storage.dataFiles
      consumer := .idle }

theorem consumerStep_action {a : Arith} (h : consumerStep a sys = some sys') :
    ConsumerAction a sys sys' := by
  unfold consumerStep at h
  cases hc : sys.consumer with
  | idle =>
    simp only [hc] at h
    cases ht : sys.todo with
    | nil => simp [ht] at h
    | cons op ops =>
      cases op with
      | read c =>
        simp only [ht, Option.some.injEq] at h
        exact h ▸ .read hc ht
      | restart =>
        simp only [ht, Option.some.injEq] at h
        exact h ▸ .restart hc ht
  | receiving c =>
    simp only [hc] at h
    cases hr : sys.channel.recv? with
    | some found =>
      obtain ⟨bytes, channel⟩ := found
      obtain ⟨hq, hreceived, -⟩ := Channel.recv?_eq_some hr
      simp only [hr, Option.some.injEq] at h
      exact h ▸ .receive hc (.queued hq hreceived)
    | none =>
      have hq := Channel.recv?_eq_none.1 hr
      cases hw : sys.worker with
      | running files => simp [hr, hw] at h
      | sending bytes files =>
        simp only [hr, hw] at h
        split at h
        · exact Option.some.inj h ▸ .receive hc (.handed hq hw)
        · cases h
      | exited =>
        have heq : sys' = { sys with consumer := .idle, log := sys.log ++ [none] } := by
          simp only [hr, hw, Option.some.injEq] at h
          rw [← h, hw]
        exact heq ▸ .disconnected hc hq hw
  | joining =>
    cases hw : sys.worker with
    | running files => simp [hc, hw] at h
    | sending bytes files => simp [hc, hw] at h
    | exited =>
      simp only [hc, hw, Option.some.injEq] at h
      exact h ▸ .joined hc hw
  | panicked p => simp [hc] at h

/-- What a step of the consumer does to what it has still to receive. -/
inductive ConsumerMove (host : Host ε) (a : Arith) (sys : BufferSystem) : BufferSystem → Prop
  | read {c : Call} {ops : List Op} :
    sys.consumer = .idle → sys.todo = .read c :: ops →
    ConsumerMove host a sys (loopHead a c { sys with todo := ops })
  | restart {ops : List Op} :
    sys.consumer = .idle → sys.todo = .restart :: ops →
    ConsumerMove host a sys { sys with
      channel := { sys.channel with queue := [] }
      rxAlive := false
      consumer := .joining
      todo := ops }
  /-- The oldest pending buffer arrives, out of the queue or from the worker's hands. -/
  | receive {c : Call} {channel : Channel Bytes} {worker : Worker} {bytes : Bytes} :
    sys.consumer = .receiving c →
    channel.received = sys.channel.received ++ [bytes] →
    sys.pending host = bytes :: ({ sys with channel := channel, worker := worker }).pending host →
    ({ sys with channel := channel, worker := worker }).backlog < sys.backlog →
    ConsumerMove host a sys
      (received a c { sys with channel := channel, worker := worker } bytes)
  | disconnected {c : Call} :
    sys.consumer = .receiving c → sys.pending host = [] →
    ConsumerMove host a sys { sys with consumer := .idle, log := sys.log ++ [none] }
  | joined :
    sys.consumer = .joining → sys.worker = .exited →
    ConsumerMove host a sys { sys with
      storage := sys.storage.clearState
      channel := Channel.bounded sys.channel.capacity
      rxAlive := true
      spawn := .clearState
      worker := .running sys.storage.dataFiles
      consumer := .idle }

theorem consumerStep_move (host : Host ε) {a : Arith} (h : consumerStep a sys = some sys') :
    ConsumerMove host a sys sys' := by
  cases consumerStep_action h with
  | read hc ht => exact .read hc ht
  | restart hc ht => exact .restart hc ht
  | receive hc harrival =>
    cases harrival with
    | queued hq hreceived =>
      exact .receive hc hreceived (by simp [pending, hq]) (by simp [backlog, hq])
    | handed hq hw =>
      refine .receive hc rfl ?_ ?_
      · simp [pending, hw, hq, Worker.stream, Channel.handOff]
      · simp [backlog, hw, Worker.weight, Channel.handOff]
  | disconnected hc hq hw => exact .disconnected hc (by simp [pending, hq, hw, Worker.stream])
  | joined hc hw => exact .joined hc hw

/-! ### Every step keeps the outcome -/

theorem Sound.idle (h : sys.Sound host) (hc : sys.consumer = .idle) : sys.Live host := by
  unfold Sound at h
  rwa [hc] at h

theorem Sound.receiving {c : Call} (h : sys.Sound host) (hc : sys.consumer = .receiving c) :
    sys.Live host ∧ (sys.held host).hit? c.request = none := by
  unfold Sound at h
  rwa [hc] at h

theorem Sound.joining (h : sys.Sound host) (hc : sys.consumer = .joining) :
    sys.storage.totalShardCount = sys.storage.dataFiles.length ∧ sys.rxAlive = false := by
  unfold Sound at h
  rwa [hc] at h

/-- Receiving the oldest pending buffer keeps the epoch intact. -/
theorem Live.receive {channel : Channel Bytes} {worker : Worker} {bytes : Bytes}
    (h : sys.Live host) (hr : channel.received = sys.channel.received ++ [bytes])
    (hp : sys.pending host =
      bytes :: ({ sys with channel := channel, worker := worker }).pending host) :
    Live host { sys with
      storage := sys.storage.activate bytes, channel := channel, worker := worker } := by
  refine ⟨h.total, h.alive, ?_, ?_⟩
  · have hhist := h.history
    rw [hp, List.append_cons, ← hr] at hhist
    exact hhist
  · change sys.storage.currentShardIdx + 1 = channel.received.length
    rw [hr, List.length_append, h.counted]
    rfl

/-- A step of the worker leaves an intact epoch intact, and nothing it does shows in what
the consumer has still to receive. -/
theorem Live.workerStep (h : sys.Live host) (hs : workerStep host sys = some sys') :
    ∃ channel worker, sys' = { sys with channel := channel, worker := worker } ∧
      sys'.Live host ∧ sys'.pending host = sys.pending host := by
  obtain ⟨channel, worker, rfl, hr, hp, -⟩ := workerStep_spec hs
  exact ⟨channel, worker, rfl, ⟨h.total, h.alive,
    (congrArg₂ (· ++ ·) hr (hp h.alive)).trans h.history,
    h.counted.trans (congrArg List.length hr.symm)⟩, hp h.alive⟩

/-- A step of the worker keeps the invariant and the outcome and lowers the measure. -/
theorem workerStep_keeps (h : sys.Sound host) (hs : workerStep host sys = some sys') :
    sys'.Sound host ∧ sys'.outcome host = sys.outcome host ∧ sys'.measure < sys.measure ∧
      sys'.storage.dataFiles = sys.storage.dataFiles := by
  have hlive : sys.Live host → sys'.Live host ∧ sys'.pending host = sys.pending host := fun hl => by
    obtain ⟨-, -, -, hl', hp⟩ := hl.workerStep hs
    exact ⟨hl', hp⟩
  obtain ⟨channel, worker, rfl, -, -, hb⟩ := workerStep_spec hs
  have hmeasure : measure { sys with channel := channel, worker := worker } < sys.measure :=
    Nat.add_lt_add_right (Nat.add_lt_add_left hb _) _
  have hheld : sys.Live host →
      held host { sys with channel := channel, worker := worker } = sys.held host :=
    fun hl => congrArg (State.mk _ _) (hlive hl).2
  clear hs hb
  obtain ⟨storage, channel₀, rxAlive, spawn, worker₀, consumer, todo, log⟩ := sys
  cases consumer with
  | idle => exact ⟨(hlive h).1, congrArg (answers _ _ _) (hheld h), hmeasure, rfl⟩
  | receiving c =>
    obtain ⟨hl, hmiss⟩ := h
    exact ⟨⟨(hlive hl).1, (congrArg (State.hit? _) (hheld hl)).trans hmiss⟩,
      congrArg (answers _ _ _) (hheld hl), hmeasure, rfl⟩
  | joining => exact ⟨h, rfl, hmeasure, rfl⟩
  | panicked p => exact h.elim

/-- A step of the consumer keeps the invariant and the outcome and lowers the measure. -/
theorem ConsumerMove.keeps (hm : ConsumerMove host .unbounded sys sys') (h : sys.Sound host) :
    sys'.Sound host ∧ sys'.outcome host = sys.outcome host ∧ sys'.measure < sys.measure ∧
      sys'.storage.dataFiles = sys.storage.dataFiles := by
  cases hm with
  | @read c ops hc ht =>
    have hl := h.idle hc
    have hl' : Live host { sys with todo := ops } := ⟨hl.total, hl.alive, hl.history, hl.counted⟩
    have hle := loopHead_measure hl' c
    refine ⟨loopHead_sound hl' c, ?_, Nat.lt_of_le_of_lt hle ?_, loopHead_dataFiles hl' c⟩
    · rw [loopHead_outcome hl']
      simp only [outcome, reader, remaining, hc, ht]
      rfl
    · simp only [measure, hc, ht, List.length_cons, Nat.succ_mul]
      change ops.length * _ + sys.backlog + 1 < _
      omega
  | @restart ops hc ht =>
    have hl := h.idle hc
    refine ⟨⟨hl.total, rfl⟩, ?_, ?_, rfl⟩
    · simp only [outcome, reader, remaining, hc, ht]
      rfl
    · simp only [measure, hc, ht, List.length_cons, Nat.succ_mul, backlog, List.length_nil]
      omega
  | @receive c channel worker bytes hc hr hp hb =>
    obtain ⟨hl, hmiss⟩ := h.receiving hc
    have hl' := hl.receive hr hp
    have hle := loopHead_measure hl' c
    refine ⟨loopHead_sound hl' c, ?_, Nat.lt_of_le_of_lt hle ?_, loopHead_dataFiles hl' c⟩
    · have hnext : (sys.held host).seek true c.request = _ := State.seek_next hmiss hp
      rw [received, loopHead_outcome hl']
      simp only [outcome, answers, reader, remaining, hc, State.run_read, hnext]
      rfl
    · simp only [measure, hc]
      change sys.todo.length * (3 * sys.storage.dataFiles.length + 4) +
        ({ sys with channel := channel, worker := worker }).backlog + 1 < _
      omega
  | @disconnected c hc hp =>
    obtain ⟨hl, hmiss⟩ := h.receiving hc
    refine ⟨⟨hl.total, hl.alive, hl.history, hl.counted⟩, ?_, ?_, rfl⟩
    · have hlast : (sys.held host).seek true c.request = _ := State.seek_last hmiss hp
      simp only [outcome, answers, reader, remaining, hc, State.run_read, hlast]
      exact Prod.ext (List.append_assoc _ _ _) rfl
    · simp only [measure, hc]
      exact Nat.lt_succ_self _
  | joined hc hw =>
    obtain ⟨htotal, -⟩ := h.joining hc
    refine ⟨⟨htotal, rfl, rfl, rfl⟩, ?_, ?_, rfl⟩
    · have hstream := Spawn.delivered_clearState host sys.storage.dataFiles
      simp only [outcome, reader, remaining, hc]
      exact congrArg (answers _ _ _) (congrArg (State.mk _ 0) hstream)
    · simp only [measure, hc, hw, backlog, Worker.weight, BufferStorage.clearState]
      change _ + (0 + _) + 0 < _
      omega

/-- A step of either thread. -/
theorem step_keeps {i : ThreadId} (h : sys.Sound host)
    (hs : step host .unbounded i sys = some sys') :
    sys'.Sound host ∧ sys'.outcome host = sys.outcome host ∧ sys'.measure < sys.measure ∧
      sys'.storage.dataFiles = sys.storage.dataFiles := by
  cases i with
  | consumer => exact (consumerStep_move host hs).keeps h
  | worker => exact workerStep_keeps h hs

/-- The invariant and the outcome hold on in every reachable state. -/
theorem outcome_of_reaches (h : sys.Sound host) (ht : Reaches (step host .unbounded) sys sys') :
    sys'.Sound host ∧ sys'.outcome host = sys.outcome host ∧
      sys'.storage.dataFiles = sys.storage.dataFiles := by
  refine ht.invariant (I := fun t => t.Sound host ∧ t.outcome host = sys.outcome host ∧
    t.storage.dataFiles = sys.storage.dataFiles) (fun i s t hs hst => ?_) ⟨h, rfl, rfl⟩
  obtain ⟨hsound, hout, hfiles⟩ := hs
  obtain ⟨ht, hkeep, -, hsame⟩ := step_keeps hsound hst
  exact ⟨ht, hkeep.trans hout, hsame.trans hfiles⟩

/-! ### No thread waits for ever -/

/-- A worker that is not sending and has not exited is never blocked. -/
theorem workerStep_of_running (host : Host ε) {files : List PathBuf} (hw : sys.worker = .running files) :
    ∃ t, workerStep host sys = some t := by
  unfold workerStep
  cases files with
  | nil => exact ⟨_, by rw [hw]⟩
  | cons path files =>
    simp only [hw]
    cases (host path).contents with
    | some bytes => exact ⟨_, rfl⟩
    | none => cases sys.spawn <;> exact ⟨_, rfl⟩

/-- A consumer in `recv` waits for a message or for the end of the worker. -/
theorem progress_receiving (host : Host ε) (a : Arith) {c : Call} (hc : sys.consumer = .receiving c)
    (halive : sys.rxAlive = true) : ∃ i t, step host a i sys = some t := by
  cases hr : sys.channel.recv? with
  | some found => exact ⟨.consumer, _, by simp only [step, consumerStep, hc, hr]; rfl⟩
  | none =>
    have hq := Channel.recv?_eq_none.1 hr
    cases hw : sys.worker with
    | running files =>
      obtain ⟨t, ht⟩ := workerStep_of_running host hw
      exact ⟨.worker, t, ht⟩
    | sending bytes files =>
      rcases Nat.eq_zero_or_pos sys.channel.capacity with hcap | hcap
      · exact ⟨.consumer, _, by simp only [step, consumerStep, hc, hr, hw, hcap, ↓reduceIte]; rfl⟩
      · have hroom : sys.channel.HasRoom := by
          unfold Channel.HasRoom
          rw [hq]
          exact hcap
        exact ⟨.worker, _, by simp only [step, workerStep, hw, halive, hroom, ↓reduceIte]; rfl⟩
    | exited => exact ⟨.consumer, _, by simp only [step, consumerStep, hc, hr, hw]; rfl⟩

/-- A consumer in `join` waits for a worker whose next send fails. -/
theorem progress_joining (host : Host ε) (a : Arith) (hc : sys.consumer = .joining) (halive : sys.rxAlive = false) :
    ∃ i t, step host a i sys = some t := by
  cases hw : sys.worker with
  | running files =>
    obtain ⟨t, ht⟩ := workerStep_of_running host hw
    exact ⟨.worker, t, ht⟩
  | sending bytes files =>
    exact ⟨.worker, _, by
      simp only [step, workerStep, hw, halive, Bool.false_eq_true, ↓reduceIte]; rfl⟩
  | exited => exact ⟨.consumer, _, by simp only [step, consumerStep, hc, hw]; rfl⟩

/-- A system that has not finished has a step. -/
theorem progress (a : Arith) (h : sys.Sound host) :
    sys.Finished ∨ ∃ i t, step host a i sys = some t := by
  cases hc : sys.consumer with
  | idle =>
    cases ht : sys.todo with
    | nil => exact Or.inl ⟨hc, ht⟩
    | cons op ops =>
      refine Or.inr ⟨.consumer, ?_⟩
      cases op with
      | read c => exact ⟨_, by simp only [step, consumerStep, hc, ht]; rfl⟩
      | restart => exact ⟨_, by simp only [step, consumerStep, hc, ht]; rfl⟩
  | receiving c => exact Or.inr (progress_receiving host a hc (h.receiving hc).1.alive)
  | joining => exact Or.inr (progress_joining host a hc (h.joining hc).2)
  | panicked p =>
    unfold Sound at h
    rw [hc] at h
    exact h.elim

/-- Every schedule ends, and none ends before the consumer has made its calls. -/
theorem completes (h : sys.Sound host) : Completes (step host .unbounded) Finished sys :=
  Completes.of_measure measure (fun _ _ _ hs hst => (step_keeps hs hst).1)
    (fun _ _ _ hs hst => (step_keeps hs hst).2.2.1) (fun _ hs => progress _ hs) h

/-! ### Scripts -/

/-- A freshly loaded system. -/
def loaded (dataFiles : List PathBuf) (bufferSize totalSize : ℕ) : BufferSystem where
  storage := {
    activeBuffer := none
    dataFiles := dataFiles
    totalShardCount := dataFiles.length
    currentShardIdx := 0
    localCursor := 0
    totalSize := totalSize }
  channel := Channel.bounded bufferSize
  rxAlive := true
  spawn := .loadData
  worker := .running dataFiles
  consumer := .idle
  todo := []
  log := []

/-- Loading succeeds when the length of every file can be read, and adds them up. -/
theorem loadData_eq_ok {files : List PathBuf} {bufferSize : ℕ} :
    loadData host files bufferSize = .ok sys ↔
      ∃ lens, List.Forall₂ (fun path len => (host path).metadata = .ok len) files lens ∧
        sys = loaded files bufferSize lens.sum := by
  have hsum := @sumM_eq_ok _ _ (fun path => (host path).metadata.mapError fun source =>
    DataLoaderError.shardOpenFailed source path) files 0
  simp only [mapError_eq_ok, Nat.zero_add] at hsum
  unfold loadData
  constructor
  · intro h
    obtain ⟨total, htotal, hsys⟩ := bind_eq_ok.1 h
    obtain ⟨lens, hlens, rfl⟩ := hsum.1 htotal
    exact ⟨lens, hlens, (Except.ok.inj hsys).symm⟩
  · rintro ⟨lens, hlens, rfl⟩
    exact bind_eq_ok.2 ⟨lens.sum, hsum.2 ⟨lens, hlens, rfl⟩, rfl⟩

/-- Calls issued to a loaded system find the invariant in place, and a fresh reader. -/
theorem issue_loaded (files : List PathBuf) (bufferSize totalSize : ℕ) (ops : List Op) :
    ((loaded files bufferSize totalSize).issue ops).Sound host ∧
      ((loaded files bufferSize totalSize).issue ops).outcome host =
        (fresh (Spawn.loadData.delivered host files)).run Call.request Call.view true
          (host.shards files) ops :=
  ⟨⟨rfl, rfl, rfl, rfl⟩, rfl⟩

/-- Calls issued to a system that has finished its earlier ones. -/
theorem issue_finished (h : sys.Sound host) (hfin : sys.Finished) (ops : List Op) :
    (sys.issue ops).Sound host ∧
      (sys.issue ops).outcome host =
        answers sys.log (host.shards sys.storage.dataFiles) ops (sys.held host) := by
  obtain ⟨storage, channel, rxAlive, spawn, worker, consumer, todo, log⟩ := sys
  obtain ⟨rfl, rfl⟩ := hfin
  have hl := h.idle rfl
  exact ⟨⟨hl.total, hl.alive, hl.history, hl.counted⟩, rfl⟩

/-- Once the calls are made, the outcome is what they returned. -/
theorem outcome_of_finished (host : Host ε) (hfin : sys.Finished) :
    sys.outcome host = (sys.log, sys.held host) := by
  obtain ⟨storage, channel, rxAlive, spawn, worker, consumer, todo, log⟩ := sys
  obtain ⟨rfl, rfl⟩ := hfin
  exact Prod.ext (List.append_nil _) rfl

end BufferSystem

end Plast
