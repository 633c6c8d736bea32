/-
# Files that go bad

`load_data` checks only that the length of every file can be read; its worker opens and maps
the files later, and so does the worker of each `clear_state`.  A file that a worker
cannot open or map ends the worker of `load_data`, which unwraps, and is skipped by the
worker of `clear_state`; the consumer sees no difference between a worker that has
died and one that is done.

The history of the channel is at any time a part of what its worker delivers
(`BufferSystem.Told`), so when the channel disconnects an epoch has delivered
`Spawn.delivered`, whatever the calls and the schedule.  The first epoch and the later
ones deliver the same exactly if no good file comes after a bad one
(`epochs_agree_iff`).
-/

import Plast.Storage.Protocol

namespace Plast

open Machine Transition

variable {ε : Type} {host : Host ε} {files : List PathBuf} {a : Arith}

/-- The worker that stops at a bad file delivers what the one that skips it does, if
nothing good follows. -/
theorem Spawn.delivered_loadData_eq_iff :
    Spawn.loadData.delivered host files = host.shards files ↔
      files.Pairwise fun p q => (host p).contents = none → (host q).contents = none := by
  induction files with
  | nil => exact iff_of_true rfl List.Pairwise.nil
  | cons path files ih =>
    rw [Spawn.delivered_cons, Host.shards_cons, List.pairwise_cons]
    cases hc : (host path).contents with
    | some b =>
      have hhead : ∀ q ∈ files, some b = none → (host q).contents = none :=
        fun q _ h => by cases h
      rw [and_iff_right hhead, ← ih]
      exact ⟨fun h => (List.cons.inj h).2, congrArg (b :: ·)⟩
    | none =>
      have hnil : ([] = host.shards files) ↔ ∀ q ∈ files, (host q).contents = none :=
        eq_comm.trans List.filterMap_eq_nil_iff
      refine hnil.trans ⟨fun h => ⟨fun q hq _ => h q hq, ?_⟩, fun h q hq => h.1 q hq rfl⟩
      exact List.pairwise_of_forall_mem_list fun p _ q hq _ => h q hq

namespace BufferSystem

variable {sys sys' : BufferSystem} {bufferSize : ℕ}

/-- A `recv` fails: nothing is queued and the worker is gone. -/
def Disconnected (sys : BufferSystem) : Prop :=
  sys.rxAlive = true ∧ sys.channel.queue = [] ∧ sys.worker = .exited

/-- In some run of calls, the channel of a worker of this kind has delivered these shards
when it disconnects. -/
def Delivers (host : Host ε) (a : Arith) (sys : BufferSystem) (spawn : Spawn)
    (shards : List Bytes) : Prop :=
  ∃ ops sys', Reaches (step host a) (sys.issue ops) sys' ∧ sys'.spawn = spawn ∧
    sys'.Disconnected ∧ sys'.channel.received = shards

/-! ### What an epoch has delivered -/

/-- What was received, and what is pending, is what the worker of this epoch delivers. -/
structure Told (host : Host ε) (files : List PathBuf) (sys : BufferSystem) : Prop where
  dataFiles : sys.storage.dataFiles = files
  history : sys.rxAlive = true →
    sys.channel.received ++ sys.pending host = sys.spawn.delivered host files

theorem Told.loopHead (h : sys.Told host files) (c : Call) :
    (loopHead a c sys).Told host files := by
  obtain ⟨cursor, consumer, log, -, heq⟩ := loopHead_frame a c sys
  rw [heq]
  exact ⟨h.dataFiles, h.history⟩

theorem Told.workerStep (h : sys.Told host files) (hs : workerStep host sys = some sys') :
    sys'.Told host files := by
  obtain ⟨channel, worker, rfl, hreceived, hpending, -⟩ := workerStep_spec hs
  refine ⟨h.dataFiles, fun halive => ?_⟩
  exact (congrArg₂ (· ++ ·) hreceived (hpending halive)).trans (h.history halive)

theorem Told.consumerStep (h : sys.Told host files) (hs : consumerStep a sys = some sys') :
    sys'.Told host files := by
  cases consumerStep_move host hs with
  | @read c ops hc ht =>
    have htold : Told host files { sys with todo := ops } := ⟨h.dataFiles, h.history⟩
    exact htold.loopHead c
  | restart hc ht => exact ⟨h.dataFiles, fun halive => Bool.noConfusion halive⟩
  | @receive c channel worker bytes hc hr hp hb =>
    have htold : Told host files { sys with
        storage := sys.storage.activate bytes, channel := channel, worker := worker } := by
      refine ⟨h.dataFiles, fun halive => ?_⟩
      have hhist := h.history halive
      rw [hp, List.append_cons, ← hr] at hhist
      exact hhist
    exact htold.loopHead c
  | disconnected hc hp => exact ⟨h.dataFiles, h.history⟩
  | joined hc hw =>
    refine ⟨h.dataFiles, fun _ => ?_⟩
    rw [← h.dataFiles]
    rfl

theorem Told.of_reaches (h : sys.Told host files) (ht : Reaches (step host a) sys sys') :
    sys'.Told host files := by
  refine ht.invariant (fun i s t hs hst => ?_) h
  cases i with
  | consumer => exact hs.consumerStep hst
  | worker => exact hs.workerStep hst

/-- When the channel disconnects, the worker has delivered everything it ever will. -/
theorem delivered_of_delivers {spawn : Spawn} {shards : List Bytes}
    (hload : loadData host files bufferSize = .ok sys) (h : sys.Delivers host a spawn shards) :
    shards = spawn.delivered host files := by
  obtain ⟨lens, -, rfl⟩ := loadData_eq_ok.1 hload
  obtain ⟨ops, sys', hreach, rfl, ⟨halive, hqueue, hworker⟩, rfl⟩ := h
  have hstart : ((loaded files bufferSize lens.sum).issue ops).Told host files :=
    ⟨rfl, fun _ => rfl⟩
  have hhist := (hstart.of_reaches hreach).history halive
  simpa [pending, hqueue, hworker, Worker.stream] using hhist

/-! ### Every epoch can be delivered -/

/-- A request that no file can hold. -/
def huge : Call := .sliceSequential (2 ^ 63)

/-- The consumer asks for it without a buffer, or at the start of one. -/
theorem loopHead_huge (hidx : sys.storage.currentShardIdx ≤ sys.storage.totalShardCount)
    (hcursor : sys.storage.localCursor = 0)
    (hbuffer : ∀ b, sys.storage.activeBuffer = some b → b.length < 2 ^ 63) :
    loopHead a huge sys = { sys with consumer := .receiving huge } := by
  have hcall : sys.storage.callHead a huge = .ok (none, sys.storage) := by
    rw [callHead_eq_fits, BufferStorage.fits]
    cases hactive : sys.storage.activeBuffer with
    | none => rfl
    | some b =>
      have hmiss : ¬2 ^ 63 ≤ b.length := Nat.not_le.2 (hbuffer b hactive)
      have hend : windowEnd a sys.storage.localCursor huge.reqLen huge.lookahead =
          .ok (2 ^ 63) := by
        rw [hcursor]
        exact windowEnd_of_exact (Or.inr (by decide))
      simp only [hend, bind, Except.bind, if_neg hmiss]
      rfl
  simp only [loopHead, if_pos hidx, hcall]

/-- A file in the hands of the worker arrives at a consumer that waits for it. -/
theorem reaches_arrival (host : Host ε) (a : Arith) {c : Call} {bytes : Bytes}
    {rest : List PathBuf} (hc : sys.consumer = .receiving c) (halive : sys.rxAlive = true)
    (hqueue : sys.channel.queue = []) (hw : sys.worker = .sending bytes rest) :
    ∃ channel, channel.queue = [] ∧ Reaches (step host a) sys
      (received a c { sys with channel := channel, worker := .running rest } bytes) := by
  have hnone : sys.channel.recv? = none := Channel.recv?_eq_none.2 hqueue
  rcases Nat.eq_zero_or_pos sys.channel.capacity with hcap | hcap
  · refine ⟨sys.channel.handOff bytes, hqueue, .single ⟨.consumer, ?_⟩⟩
    simp only [step, consumerStep, hc, hnone, hw, if_pos hcap]
  · have hroom : sys.channel.HasRoom := by
      unfold Channel.HasRoom
      rwa [hqueue]
    let channel : Channel Bytes :=
      { sys.channel with received := sys.channel.received ++ [bytes], queue := [] }
    have hrecv : (sys.channel.send bytes).recv? = some (bytes, channel) := by
      simp only [Channel.send, Channel.recv?, hqueue, List.nil_append]
      rfl
    have hsend : step host a .worker sys =
        some { sys with channel := sys.channel.send bytes, worker := .running rest } := by
      simp only [step, workerStep, hw, if_pos halive, if_pos hroom]
    refine ⟨channel, rfl, .tail (.single ⟨.worker, hsend⟩) ⟨.consumer, ?_⟩⟩
    simp only [step, consumerStep, hc, hrecv]

/-- The consumer waits for what no file can hold, and the worker has `rest` before it. -/
structure Awaiting (sys : BufferSystem) (rest : List PathBuf) : Prop where
  consumer : sys.consumer = .receiving huge
  alive : sys.rxAlive = true
  queue : sys.channel.queue = []
  worker : sys.worker = .running rest
  count : sys.storage.currentShardIdx + rest.length ≤ sys.storage.totalShardCount

/-- The next file, if it is good, arrives and is not enough. -/
theorem Awaiting.arrives {path : PathBuf} {rest : List PathBuf} {b : Bytes}
    (h : sys.Awaiting (path :: rest)) (hcontents : (host path).contents = some b)
    (hb : b.length < 2 ^ 63) (a : Arith) :
    ∃ sys', Reaches (step host a) sys sys' ∧ sys'.spawn = sys.spawn ∧ sys'.Awaiting rest := by
  have hcount := h.count
  rw [List.length_cons] at hcount
  let sys₁ : BufferSystem := { sys with worker := .sending b rest }
  have hopen : step host a .worker sys = some sys₁ := by
    simp only [step, workerStep, h.worker, hcontents]
    rfl
  obtain ⟨channel, hempty, harrive⟩ :=
    @reaches_arrival _ sys₁ host a _ _ _ h.consumer h.alive h.queue rfl
  let sys₂ : BufferSystem := { sys₁ with
    storage := sys.storage.activate b, channel := channel, worker := .running rest }
  have hcount' : sys₂.storage.currentShardIdx + rest.length ≤ sys₂.storage.totalShardCount := by
    change sys.storage.currentShardIdx + 1 + rest.length ≤ sys.storage.totalShardCount
    omega
  have hhead : loopHead a huge sys₂ = { sys₂ with consumer := .receiving huge } := by
    refine loopHead_huge (by omega) rfl fun b' hactive => ?_
    obtain rfl := Option.some.inj hactive
    exact hb
  refine ⟨{ sys₂ with consumer := .receiving huge }, .head ⟨.worker, hopen⟩ ?_, rfl,
    rfl, h.alive, hempty, rfl, hcount'⟩
  rw [received] at harrive
  exact hhead ▸ harrive

/-- The worker of `clear_state` skips a bad file. -/
theorem Awaiting.skips {path : PathBuf} {rest : List PathBuf} (h : sys.Awaiting (path :: rest))
    (hcontents : (host path).contents = none) (hspawn : sys.spawn = .clearState) (a : Arith) :
    ∃ sys', Reaches (step host a) sys sys' ∧ sys'.spawn = sys.spawn ∧ sys'.Awaiting rest := by
  have hcount := h.count
  rw [List.length_cons] at hcount
  have hskip : step host a .worker sys = some { sys with worker := .running rest } := by
    simp only [step, workerStep, h.worker, hcontents, hspawn]
  exact ⟨_, .single ⟨.worker, hskip⟩, rfl, h.consumer, h.alive, h.queue, rfl, by
    change sys.storage.currentShardIdx + rest.length ≤ sys.storage.totalShardCount
    omega⟩

/-- Such a consumer receives all that the worker delivers. -/
theorem Awaiting.reaches_disconnected {rest : List PathBuf} (h : sys.Awaiting rest)
    (hsize : ∀ path ∈ rest, ∀ b, (host path).contents = some b → b.length < 2 ^ 63) (a : Arith) :
    ∃ sys', Reaches (step host a) sys sys' ∧ sys'.spawn = sys.spawn ∧ sys'.Disconnected := by
  induction rest generalizing sys with
  | nil =>
    refine ⟨{ sys with worker := .exited }, .single ⟨.worker, ?_⟩, rfl, h.alive, h.queue, rfl⟩
    simp only [step, workerStep, h.worker]
  | cons path rest ih =>
    have hrest : ∀ p ∈ rest, ∀ b, (host p).contents = some b → b.length < 2 ^ 63 :=
      fun p hp => hsize p (List.mem_cons_of_mem _ hp)
    have hgo : (∃ next, Reaches (step host a) sys next ∧ next.spawn = sys.spawn ∧
        next.Awaiting rest) →
        ∃ sys', Reaches (step host a) sys sys' ∧ sys'.spawn = sys.spawn ∧ sys'.Disconnected := by
      rintro ⟨next, hnext, hspawn, hawait⟩
      obtain ⟨sys', hreach, hsame, hdone⟩ := ih hawait hrest
      exact ⟨sys', hnext.trans hreach, hsame.trans hspawn, hdone⟩
    cases hcontents : (host path).contents with
    | some b => exact hgo (h.arrives hcontents (hsize path List.mem_cons_self b hcontents) a)
    | none =>
      cases hspawn : sys.spawn with
      | loadData =>
        refine ⟨{ sys with worker := .exited }, .single ⟨.worker, ?_⟩, hspawn, h.alive, h.queue,
          rfl⟩
        simp only [step, workerStep, h.worker, hcontents, hspawn]
      | clearState => exact hspawn ▸ hgo (h.skips hcontents hspawn a)

/-- An epoch over `files` has begun, and its one request is `huge`. -/
structure Begun (sys : BufferSystem) (files : List PathBuf) : Prop where
  consumer : sys.consumer = .idle
  todo : sys.todo = [.read huge]
  alive : sys.rxAlive = true
  queue : sys.channel.queue = []
  worker : sys.worker = .running files
  activeBuffer : sys.storage.activeBuffer = none
  localCursor : sys.storage.localCursor = 0
  currentShardIdx : sys.storage.currentShardIdx = 0
  totalShardCount : sys.storage.totalShardCount = files.length

/-- It can be delivered. -/
theorem Begun.reaches_disconnected (h : sys.Begun files)
    (hsize : ∀ path ∈ files, ∀ b, (host path).contents = some b → b.length < 2 ^ 63) (a : Arith) :
    ∃ sys', Reaches (step host a) sys sys' ∧ sys'.spawn = sys.spawn ∧ sys'.Disconnected := by
  let asked : BufferSystem := { sys with todo := [], consumer := .receiving huge }
  have hhead : loopHead a huge { sys with consumer := .idle, todo := [] } = asked := by
    refine loopHead_huge ?_ h.localCursor fun b hb => ?_
    · change sys.storage.currentShardIdx ≤ _
      rw [h.currentShardIdx]
      exact Nat.zero_le _
    · cases h.activeBuffer.symm.trans hb
  have hask : step host a .consumer sys = some asked := by
    simp only [step, consumerStep, h.consumer, h.todo, hhead]
  have hawait : asked.Awaiting files := by
    refine ⟨rfl, h.alive, h.queue, h.worker, ?_⟩
    change sys.storage.currentShardIdx + files.length ≤ sys.storage.totalShardCount
    rw [h.currentShardIdx, h.totalShardCount, Nat.zero_add]
  obtain ⟨sys', hreach, hsame, hdone⟩ := hawait.reaches_disconnected hsize a
  exact ⟨sys', .head ⟨.consumer, hask⟩ hreach, hsame, hdone⟩

/-- The first worker exits once its receiver is gone. -/
theorem reaches_exited (host : Host ε) (a : Arith) {rest : List PathBuf}
    (hw : sys.worker = .running rest) (halive : sys.rxAlive = false)
    (hspawn : sys.spawn = .loadData) :
    Reaches (step host a) sys { sys with worker := .exited } := by
  cases rest with
  | nil =>
    refine .single ⟨.worker, ?_⟩
    simp only [step, workerStep, hw]
  | cons path rest =>
    cases hcontents : (host path).contents with
    | none =>
      refine .single ⟨.worker, ?_⟩
      simp only [step, workerStep, hw, hcontents, hspawn]
    | some b =>
      have hopen : step host a .worker sys = some { sys with worker := .sending b rest } := by
        simp only [step, workerStep, hw, hcontents]
      refine .tail (.single ⟨.worker, hopen⟩) ⟨.worker, ?_⟩
      simp only [step, workerStep, halive, Bool.false_eq_true, ↓reduceIte]

theorem exists_delivers (hload : loadData host files bufferSize = .ok sys)
    (hsize : ∀ path ∈ files, ∀ b, (host path).contents = some b → b.length < 2 ^ 63) (a : Arith)
    (spawn : Spawn) : ∃ shards, sys.Delivers host a spawn shards := by
  obtain ⟨lens, -, rfl⟩ := loadData_eq_ok.1 hload
  cases spawn with
  | loadData =>
    have hbegun : ((loaded files bufferSize lens.sum).issue [.read huge]).Begun files :=
      ⟨rfl, rfl, rfl, rfl, rfl, rfl, rfl, rfl, rfl⟩
    obtain ⟨sys', hreach, hspawn, hdone⟩ := hbegun.reaches_disconnected hsize a
    exact ⟨_, _, sys', hreach, hspawn, hdone, rfl⟩
  | clearState =>
    let start := (loaded files bufferSize lens.sum).issue [.restart, .read huge]
    let dropped : BufferSystem := { start with
      rxAlive := false, consumer := .joining, todo := [.read huge] }
    have hdrop : step host a .consumer start = some dropped := rfl
    have hexit := @reaches_exited _ dropped host a files rfl rfl rfl
    let joined : BufferSystem := { dropped with
      rxAlive := true, spawn := .clearState, worker := .running files, consumer := .idle }
    have hjoin : step host a .consumer { dropped with worker := .exited } = some joined := rfl
    have hbegun : joined.Begun files := ⟨rfl, rfl, rfl, rfl, rfl, rfl, rfl, rfl, rfl⟩
    obtain ⟨sys', hreach, hspawn, hdone⟩ := hbegun.reaches_disconnected hsize a
    exact ⟨_, _, sys', .head ⟨.consumer, hdrop⟩ (hexit.trans (.head ⟨.consumer, hjoin⟩ hreach)),
      hspawn, hdone, rfl⟩

end BufferSystem

/-- Each kind of worker can deliver all that it ever will before its channel disconnects,
and the first epoch and a later one then deliver the same exactly if every file after one
that cannot be opened or mapped cannot be either.  The bound is that of a slice. -/
theorem epochs_agree_iff {sys : BufferSystem} {bufferSize : ℕ}
    (hload : BufferSystem.loadData host files bufferSize = .ok sys)
    (hsize : ∀ path ∈ files, ∀ b, (host path).contents = some b → b.length < 2 ^ 63) (a : Arith) :
    ((∃ first, sys.Delivers host a .loadData first) ∧
      ∃ later, sys.Delivers host a .clearState later) ∧
    ((∀ first later, sys.Delivers host a .loadData first → sys.Delivers host a .clearState later →
        first = later) ↔
      files.Pairwise fun p q => (host p).contents = none → (host q).contents = none) := by
  have hexists := BufferSystem.exists_delivers hload hsize a
  refine ⟨⟨hexists .loadData, hexists .clearState⟩, ?_⟩
  rw [← Spawn.delivered_loadData_eq_iff, ← Spawn.delivered_clearState]
  constructor
  · intro h
    obtain ⟨first, hfirst⟩ := hexists .loadData
    obtain ⟨later, hlater⟩ := hexists .clearState
    rw [← BufferSystem.delivered_of_delivers hload hfirst,
      ← BufferSystem.delivered_of_delivers hload hlater]
    exact h first later hfirst hlater
  · intro h first later hfirst hlater
    rw [BufferSystem.delivered_of_delivers hload hfirst,
      BufferSystem.delivered_of_delivers hload hlater, h]

/-- Both kinds of worker deliver the good file in front of two bad ones. -/
theorem epochs_agree_iff_front :
    let host : Host Unit := fun path =>
      if path = "a.bin" then File.ofBytes [1, 2, 3, 4]
      else { File.ofBytes [5, 6, 7, 8] with openFile := .error () }
    ∃ sys first, BufferSystem.loadData host ["a.bin", "b.bin", "c.bin"] 1 = .ok sys ∧
      sys.Delivers host .debug .loadData first ∧
      ∀ later, sys.Delivers host .debug .clearState later → first = later := by
  intro host
  have hload : BufferSystem.loadData host ["a.bin", "b.bin", "c.bin"] 1 =
      .ok (BufferSystem.loaded ["a.bin", "b.bin", "c.bin"] 1 12) := rfl
  have hsize : ∀ path ∈ ["a.bin", "b.bin", "c.bin"], ∀ b, (host path).contents = some b →
      b.length < 2 ^ 63 := by decide +kernel
  obtain ⟨⟨⟨first, hfirst⟩, -⟩, hagree⟩ := epochs_agree_iff hload hsize .debug
  exact ⟨_, first, hload, hfirst, fun later hlater =>
    hagree.2 (by decide +kernel) first later hfirst hlater⟩

/-- The worker of `load_data` delivers nothing of a list that starts with a bad file, and the
worker of `clear_state` delivers the good file behind it. -/
theorem epochs_differ :
    let host : Host Unit := fun path =>
      if path = "a.bin" then File.ofBytes [1, 2, 3, 4]
      else { File.ofBytes [5, 6, 7, 8] with openFile := .error () }
    ∃ sys, BufferSystem.loadData host ["b.bin", "a.bin"] 1 = .ok sys ∧ ∀ a,
      sys.Delivers host a .loadData [] ∧ sys.Delivers host a .clearState [[1, 2, 3, 4]] ∧
      ¬∀ first later, sys.Delivers host a .loadData first → sys.Delivers host a .clearState later →
        first = later := by
  intro host
  have hload : BufferSystem.loadData host ["b.bin", "a.bin"] 1 =
      .ok (BufferSystem.loaded ["b.bin", "a.bin"] 1 8) := rfl
  have hsize : ∀ path ∈ ["b.bin", "a.bin"], ∀ b, (host path).contents = some b →
      b.length < 2 ^ 63 := by decide +kernel
  refine ⟨_, hload, fun a => ?_⟩
  obtain ⟨first, hfirst⟩ := BufferSystem.exists_delivers hload hsize a .loadData
  obtain rfl : first = [] := BufferSystem.delivered_of_delivers hload hfirst
  obtain ⟨later, hlater⟩ := BufferSystem.exists_delivers hload hsize a .clearState
  obtain rfl : later = [[1, 2, 3, 4]] := BufferSystem.delivered_of_delivers hload hlater
  exact ⟨hfirst, hlater, fun h => absurd (h _ _ hfirst hlater) (by simp)⟩

end Plast
