/-
# How many shards are mapped at once

`BufferStorage::load_data` documents `buffer_size` as the maximum number of shards
to keep mapped.  It is the capacity of the channel, and two more shards are held
outside it: the active one, and the one the worker waits to send.

`BufferSystem.Bounded` is kept by every step in every build profile, also by those
that lead to a panic, so `buffer_size + 2` is never passed, nor the number of files
and one (`BufferSystem.Bounded.resident_le`).  The smaller of the two is reached between
two calls (`BufferSystem.resident_max`): `clear_state` keeps the active shard while the
new worker fills the channel.

`clear_state` waits for the worker, which may map one more file once the receiver is gone.
Counting from the start of an epoch (`BufferSystem.Maps`), up to and including that wait,
at most `buffer_size + 1` files are mapped in vain (`BufferSystem.mapped_le`).
-/

import Plast.Storage.Backends

namespace Plast

open Machine BlockReader Transition

variable {ε : Type}

namespace Worker

/-- The shards in the worker's hands. -/
def inHand : Worker → ℕ
  | .sending _ _ => 1
  | _ => 0

/-- The files that the worker has not got rid of. -/
def left : Worker → ℕ
  | .running files => files.length
  | .sending _ files => files.length + 1
  | .exited => 0

/-- The files that the worker may still map once the receiver is gone. -/
def opening : Worker → ℕ
  | .running _ => 1
  | _ => 0

theorem inHand_le (w : Worker) : w.inHand ≤ 1 := by
  cases w <;> simp [inHand]

theorem inHand_le_left (w : Worker) : w.inHand ≤ w.left := by
  cases w <;> simp [inHand, left]

end Worker

namespace BufferSystem

variable {host : Host ε} {a : Arith} {sys sys' : BufferSystem} {files : List PathBuf} {n : ℕ}

/-! ### What every step keeps -/

/-- The shards in `active_buffer`, in the channel and in the worker's hands.  Receiving and
storing in `active_buffer` are one step of the model, so the shard that `recv` has just
returned is not counted beside the one it replaces. -/
def resident (sys : BufferSystem) : ℕ :=
  sys.storage.activeBuffer.toList.length + sys.channel.queue.length + sys.worker.inHand

/-- The storage reads `files` through a channel of capacity `n`, whose queue is within it;
what is queued and what the worker has left are not more than the files. -/
structure Bounded (files : List PathBuf) (n : ℕ) (sys : BufferSystem) : Prop where
  dataFiles : sys.storage.dataFiles = files
  capacity : sys.channel.capacity = n
  queue : sys.channel.queue.length ≤ n
  left : sys.channel.queue.length + sys.worker.left ≤ files.length

/-- The channel and the worker hold at most `n + 1` shards, and at most one of each file;
one more is active. -/
theorem Bounded.resident_le (h : sys.Bounded files n) :
    sys.resident ≤ min files.length (n + 1) + 1 := by
  have hactive : sys.storage.activeBuffer.toList.length ≤ 1 := by
    cases sys.storage.activeBuffer <;> simp
  have hhand := sys.worker.inHand_le
  have hleft := sys.worker.inHand_le_left
  have hqueue := h.queue
  have hfiles := h.left
  unfold resident
  omega

/-- Only the list of files, the channel and the worker matter. -/
theorem Bounded.congr (h : sys.Bounded files n)
    (hfiles : sys'.storage.dataFiles = sys.storage.dataFiles) (hch : sys'.channel = sys.channel)
    (hw : sys'.worker.left ≤ sys.worker.left) : sys'.Bounded files n := by
  have hleft := h.left
  constructor
  · rw [hfiles, h.dataFiles]
  · rw [hch, h.capacity]
  · rw [hch]
    exact h.queue
  · rw [hch]
    omega

/-- The body of the loop moves the cursor. -/
theorem callHead_dataFiles {s s' : BufferStorage} {c : Call} {w : Option Window}
    (h : s.callHead a c = .ok (w, s')) : s'.dataFiles = s.dataFiles := by
  rw [callHead_eq_fits] at h
  obtain ⟨⟨found, s''⟩, hfits, hserved⟩ := bind_eq_ok.1 h
  have hmoved : s''.dataFiles = s.dataFiles := by
    unfold BufferStorage.fits at hfits
    split at hfits
    · cases hfits
      rfl
    · obtain ⟨stop, -, hfits⟩ := bind_eq_ok.1 hfits
      split at hfits
      · obtain ⟨cursor, -, hfits⟩ := bind_eq_ok.1 hfits
        cases hfits
        rfl
      · cases hfits
        rfl
  rw [← hmoved]
  cases found with
  | none =>
    cases hserved
    rfl
  | some found =>
    obtain ⟨window, -, hserved⟩ := bind_eq_ok.1 hserved
    cases hserved
    rfl

/-- A loop that is taken up leaves both ends of the channel and the worker alone. -/
theorem loopHead_keeps (a : Arith) (c : Call) (sys : BufferSystem) :
    (loopHead a c sys).storage.dataFiles = sys.storage.dataFiles ∧
      (loopHead a c sys).channel = sys.channel ∧ (loopHead a c sys).worker = sys.worker ∧
      (loopHead a c sys).rxAlive = sys.rxAlive := by
  unfold loopHead
  split
  · split
    · rename_i hcall
      exact ⟨callHead_dataFiles hcall, rfl, rfl, rfl⟩
    · exact ⟨rfl, rfl, rfl, rfl⟩
    · exact ⟨rfl, rfl, rfl, rfl⟩
  · exact ⟨rfl, rfl, rfl, rfl⟩

theorem Bounded.loopHead (h : sys.Bounded files n) (c : Call) :
    (loopHead a c sys).Bounded files n := by
  obtain ⟨hfiles, hch, hw, -⟩ := loopHead_keeps a c sys
  exact h.congr hfiles hch (Nat.le_of_eq (congrArg Worker.left hw))

theorem workerStep_bounded (h : sys.Bounded files n) (hs : workerStep host sys = some sys') :
    sys'.Bounded files n := by
  have hroom : ∀ bytes rest, sys.worker = .sending bytes rest → sys.rxAlive = true →
      sys.channel.HasRoom := by
    intro bytes rest hw halive
    unfold workerStep at hs
    simp only [hw, halive, ↓reduceIte] at hs
    by_contra hfull
    rw [if_neg hfull] at hs
    cases hs
  cases workerStep_move hs with
  | finishes hw => exact h.congr rfl rfl (Nat.zero_le _)
  | opens hw => exact h.congr rfl rfl (by simp [hw, Worker.left])
  | stops hw => exact h.congr rfl rfl (Nat.zero_le _)
  | skips hw => exact h.congr rfl rfl (by simp [hw, Worker.left])
  | sends hw halive =>
    have hlt : sys.channel.queue.length < sys.channel.capacity := hroom _ _ hw halive
    have hcap := h.capacity
    have hleft := h.left
    rw [hw] at hleft
    refine ⟨h.dataFiles, hcap, ?_, ?_⟩
    · simp only [Channel.send, List.length_append, List.length_singleton]
      omega
    · simp only [Channel.send, Worker.left, List.length_append, List.length_singleton] at hleft ⊢
      omega
  | fails hw => exact h.congr rfl rfl (Nat.zero_le _)

/-- Receiving takes out of the queue, or out of the worker's hands. -/
theorem Bounded.arrival {channel : Channel Bytes} {worker : Worker} {bytes : Bytes}
    (h : sys.Bounded files n) (harrival : Arrival sys channel worker bytes)
    (hcap : channel.capacity = sys.channel.capacity) :
    Bounded files n { sys with channel := channel, worker := worker } := by
  have hqueue := h.queue
  have hleft := h.left
  refine ⟨h.dataFiles, hcap.trans h.capacity, ?_, ?_⟩
  · cases harrival with
    | queued hq =>
      rw [hq, List.length_cons] at hqueue
      exact Nat.le_of_succ_le hqueue
    | handed => exact hqueue
  · cases harrival with
    | queued hq =>
      rw [hq, List.length_cons] at hleft
      simp only
      omega
    | handed hq hw =>
      rw [hw] at hleft
      simp only [Worker.left, Channel.handOff] at hleft ⊢
      omega

/-- The consumer never changes the capacity. -/
theorem consumerStep_capacity (hs : consumerStep a sys = some sys') :
    sys'.channel.capacity = sys.channel.capacity := by
  unfold consumerStep at hs
  cases hc : sys.consumer with
  | idle =>
    simp only [hc] at hs
    split at hs
    · cases hs
    · exact Option.some.inj hs ▸ congrArg Channel.capacity (loopHead_keeps ..).2.1
    · exact Option.some.inj hs ▸ rfl
  | receiving c =>
    simp only [hc] at hs
    split at hs
    · rename_i bytes channel hrecv
      obtain ⟨-, -, hcap⟩ := Channel.recv?_eq_some hrecv
      rw [← Option.some.inj hs, received, (loopHead_keeps ..).2.1, hcap]
    · split at hs
      · cases hs
      · split at hs
        · rw [← Option.some.inj hs, received, (loopHead_keeps ..).2.1]
          rfl
        · cases hs
      · exact Option.some.inj hs ▸ rfl
  | joining =>
    simp only [hc] at hs
    split at hs
    · exact Option.some.inj hs ▸ rfl
    · cases hs
  | panicked p =>
    simp only [hc] at hs
    cases hs

theorem consumerStep_bounded (h : sys.Bounded files n) (hs : consumerStep a sys = some sys') :
    sys'.Bounded files n := by
  have hkept := consumerStep_capacity hs
  cases consumerStep_action hs with
  | @read c ops hc ht =>
    have hb : Bounded files n { sys with todo := ops } := h.congr rfl rfl (Nat.le_refl _)
    exact hb.loopHead c
  | restart hc ht =>
    have hleft := h.left
    exact ⟨h.dataFiles, h.capacity, Nat.zero_le _, by simp only [List.length_nil]; omega⟩
  | @receive c channel worker bytes hc harrival =>
    rw [received, (loopHead_keeps ..).2.1] at hkept
    have hb := h.arrival harrival hkept
    have hb' : Bounded files n { sys with
        storage := sys.storage.activate bytes, channel := channel, worker := worker } :=
      ⟨hb.dataFiles, hb.capacity, hb.queue, hb.left⟩
    exact hb'.loopHead c
  | disconnected hc hq hw => exact h.congr rfl rfl (Nat.le_refl _)
  | joined hc hw =>
    refine ⟨h.dataFiles, h.capacity, Nat.zero_le _, ?_⟩
    simp only [Channel.bounded, Worker.left, h.dataFiles, List.length_nil, Nat.zero_add, Nat.le_refl]

theorem step_bounded {i : ThreadId} (h : sys.Bounded files n) (hs : step host a i sys = some sys') :
    sys'.Bounded files n := by
  cases i with
  | consumer => exact consumerStep_bounded h hs
  | worker => exact workerStep_bounded h hs

theorem loaded_bounded (files : List PathBuf) (bufferSize totalSize : ℕ) (ops : List Op) :
    ((loaded files bufferSize totalSize).issue ops).Bounded files bufferSize :=
  ⟨rfl, rfl, Nat.zero_le _, by simp [loaded, issue, Channel.bounded, Worker.left]⟩

theorem bounded_of_reaches (h : sys.Bounded files n) (ht : Reaches (step host a) sys sys') :
    sys'.Bounded files n :=
  ht.invariant (fun _ _ _ hs hst => step_bounded hs hst) h

/-! ### The worker alone -/

/-- The worker is blocked or has exited. -/
def Stalled (host : Host ε) (sys : BufferSystem) : Prop := workerStep host sys = none

/-- A worker that has no step has exited, or waits for room in the channel. -/
theorem Stalled.cases (h : sys.Stalled host) (halive : sys.rxAlive = true) :
    sys.worker = .exited ∨ (sys.worker.inHand = 1 ∧ ¬sys.channel.HasRoom) := by
  cases hw : sys.worker with
  | running files =>
    obtain ⟨t, ht⟩ := workerStep_of_running host hw
    exact absurd (h.symm.trans ht) (by simp)
  | sending bytes files =>
    refine Or.inr ⟨rfl, fun hroom => ?_⟩
    unfold Stalled workerStep at h
    simp only [hw, halive, hroom, ↓reduceIte] at h
    cases h
  | exited => exact Or.inl rfl

/-- Left to itself the worker stalls, and nothing of what it does shows in what the consumer
will receive. -/
theorem exists_stalled (h : sys.Live host) :
    ∃ channel worker, Reaches (step host .unbounded) sys
        { sys with channel := channel, worker := worker } ∧
      Stalled host { sys with channel := channel, worker := worker } ∧
      pending host { sys with channel := channel, worker := worker } = sys.pending host := by
  have halone : Completes (fun _ : Unit => workerStep host) (Stalled host) sys := by
    refine Completes.of_measure (I := fun _ => True) backlog (fun _ _ _ _ _ => trivial)
      (fun _ s t _ hst => ?_) (fun s _ => ?_) trivial
    · obtain ⟨-, -, -, -, -, hless⟩ := workerStep_spec hst
      exact hless
    · cases hs : workerStep host s with
      | none => exact Or.inl hs
      | some t => exact Or.inr ⟨(), t, rfl⟩
  obtain ⟨t, hreach, hstall⟩ := halone.exists_final
  have hkeep : ∃ channel worker, t = { sys with channel := channel, worker := worker } ∧
      t.Live host ∧ t.pending host = sys.pending host := by
    refine hreach.invariant (I := fun t => ∃ channel worker,
      t = { sys with channel := channel, worker := worker } ∧ t.Live host ∧
        t.pending host = sys.pending host) (fun _ s u hs hsu => ?_) ⟨_, _, rfl, h, rfl⟩
    obtain ⟨channel, worker, rfl, hlive, hpending⟩ := hs
    obtain ⟨channel', worker', rfl, hlive', hpending'⟩ := hlive.workerStep hsu
    exact ⟨channel', worker', rfl, hlive', hpending'.trans hpending⟩
  obtain ⟨channel, worker, rfl, -, hpending⟩ := hkeep
  refine ⟨channel, worker, ?_, hstall, hpending⟩
  exact hreach.of_part fun _ s u hsu => ⟨.worker, hsu⟩

/-- A stalled worker has filled the channel, or got rid of every file. -/
theorem Stalled.resident_eq (h : sys.Stalled host) (halive : sys.rxAlive = true)
    (hb : sys.Bounded files n) (hactive : sys.storage.activeBuffer.isSome)
    (hpending : (sys.pending host).length = files.length) :
    sys.resident = min files.length (n + 1) + 1 := by
  have hone : sys.storage.activeBuffer.toList.length = 1 := by
    cases hs : sys.storage.activeBuffer with
    | none => rw [hs] at hactive; cases hactive
    | some b => rfl
  have hqueue := hb.queue
  have hleft := hb.left
  have hhand := sys.worker.inHand_le_left
  have hcap := hb.capacity
  unfold resident
  rcases h.cases halive with hw | ⟨hw, hfull⟩
  · rw [pending, hw, Worker.stream, List.append_nil] at hpending
    rw [hw]
    simp only [Worker.inHand]
    omega
  · rw [Channel.HasRoom] at hfull
    omega

/-- An empty request takes the first block in hand, and a restart keeps it. -/
theorem run_restart_first (b : Bytes) (rest : List Bytes) :
    ((fresh (b :: rest)).run Call.request Call.view true (b :: rest)
      [.read (.sliceSequential 0), .restart]).2 = ⟨some b, 0, b :: rest⟩ := by
  have hnext : (fresh (b :: rest)).seek true (Call.sliceSequential 0).request =
      State.seek true (Call.sliceSequential 0).request ⟨some b, 0, rest⟩ := State.seek_next rfl rfl
  have hhit : State.hit? (Call.sliceSequential 0).request ⟨some b, 0, rest⟩ = some (b, 0) :=
    State.hit?_eq_some.2 ⟨rfl, rfl, Nat.zero_le _⟩
  rw [State.run_read, hnext, State.seek_hit hhit]
  rfl

/-- **The bound of a prefetching storage.**  On every schedule of every script, in every
build profile, the active buffer, the channel and the worker hold at most `buffer_size + 2`
shards, and at most one more than there are files, a shard between `recv` and its assignment
to `active_buffer` not counted.  With readable files that many are held at some moment
between two calls. -/
theorem resident_max {bufferSize : ℕ} (hload : loadData host files bufferSize = .ok sys) :
    (∀ a ops t, Reaches (step host a) (sys.issue ops) t →
      t.resident ≤ min files.length (bufferSize + 1) + 1) ∧
    (host.Readable files → files ≠ [] →
      ∃ ops t, Reaches (step host .unbounded) (sys.issue ops) t ∧ t.Finished ∧
        t.resident = min files.length (bufferSize + 1) + 1) := by
  obtain ⟨lens, -, rfl⟩ := loadData_eq_ok.1 hload
  refine ⟨fun a ops t ht => ?_, fun hread hfiles => ?_⟩
  · exact (bounded_of_reaches (loaded_bounded _ _ _ _) ht).resident_le
  · -- receive the first shard, and start over: the worker begins with it again
    obtain ⟨hsound, hout⟩ := @issue_loaded _ host files bufferSize lens.sum
      [.read (.sliceSequential 0), .restart]
    obtain ⟨t, hreach, hfin⟩ := (completes hsound).exists_final
    obtain ⟨hsound', hkeep, hsame⟩ := outcome_of_reaches hsound hreach
    have hheld := (outcome_of_finished host hfin).symm.trans (hkeep.trans hout)
    rw [Spawn.delivered_of_readable hread] at hheld
    have hlen := hread.length_shards
    cases hshards : host.shards files with
    | nil =>
      rw [hshards] at hlen
      exact absurd (List.eq_nil_of_length_eq_zero hlen.symm) hfiles
    | cons b rest =>
      rw [hshards] at hheld hlen
      have hstate : t.held host = ⟨some b, 0, b :: rest⟩ :=
        (congrArg Prod.snd hheld).trans (run_restart_first b rest)
      obtain ⟨channel, worker, halone, hstall, hpending⟩ := exists_stalled (hsound'.idle hfin.1)
      refine ⟨_, _, hreach.trans halone, hfin, ?_⟩
      have hb := bounded_of_reaches (loaded_bounded files bufferSize lens.sum _)
        (hreach.trans halone)
      refine hstall.resident_eq (hsound'.idle hfin.1).alive hb ?_ ?_
      · have hactive : t.storage.activeBuffer = some b := congrArg State.active hstate
        rw [hactive]
        rfl
      · rw [hpending, show t.pending host = b :: rest from congrArg State.pending hstate, hlen]

/-- Three files and a buffer of one shard: up to three shards are held. -/
theorem resident_max_three :
    let host : Host Unit := fun _ => File.ofBytes [1, 2, 3, 4]
    let files := ["a.bin", "b.bin", "c.bin"]
    ∃ sys, loadData host files 1 = .ok sys ∧
      (∀ a ops t, Reaches (step host a) (sys.issue ops) t → t.resident ≤ 3) ∧
      ∃ ops t, Reaches (step host .unbounded) (sys.issue ops) t ∧ t.Finished ∧ t.resident = 3 := by
  intro host files
  have hread : host.Readable files := fun path _ => File.ofBytes_readable _
  have hload := loadData_of_readable hread 1
  obtain ⟨hle, hreached⟩ := resident_max hload
  exact ⟨_, hload, hle, hreached hread (by decide)⟩

/-! ### Reading ahead -/

/-- What an epoch has come to: a run in which no `join` completes, and the number of files
it has mapped.  A file is mapped by the step that takes it into the worker's hands. -/
inductive Maps (host : Host ε) (a : Arith) (sys : BufferSystem) : ℕ → BufferSystem → Prop
  | start : Maps host a sys 0 sys
  | worker {k : ℕ} {t u : BufferSystem} :
    Maps host a sys k t → workerStep host t = some u →
    Maps host a sys (k + u.worker.inHand) u
  | consumer {k : ℕ} {t u : BufferSystem} :
    Maps host a sys k t → t.consumer ≠ .joining → consumerStep a t = some u → Maps host a sys k u

/-- How many files an epoch with a channel of capacity `n` has mapped: those received and
those on the way, and one more at most once the receiver is gone. -/
structure Counted (n k : ℕ) (sys : BufferSystem) : Prop where
  receiver : sys.consumer ≠ .joining → sys.rxAlive = true
  total : k + sys.worker.opening ≤ sys.channel.received.length + n + 1
  alive : sys.rxAlive = true →
    k = sys.channel.received.length + sys.channel.queue.length + sys.worker.inHand

/-- While the receiver is there, what is on the way bounds the total. -/
theorem Counted.of_alive {k : ℕ} (halive : sys.rxAlive = true)
    (hqueue : sys.channel.queue.length ≤ n)
    (hk : k = sys.channel.received.length + sys.channel.queue.length + sys.worker.inHand) :
    sys.Counted n k := by
  refine ⟨fun _ => halive, ?_, fun _ => hk⟩
  have hbusy : sys.worker.inHand + sys.worker.opening ≤ 1 := by
    cases sys.worker <;> simp [Worker.inHand, Worker.opening]
  omega

/-- A worker that neither maps nor sends keeps the count. -/
theorem Counted.worker {k : ℕ} (h : sys.Counted n k) {worker : Worker}
    (hhand : sys.rxAlive = true → worker.inHand = sys.worker.inHand)
    (hopen : worker.opening ≤ sys.worker.opening) : Counted n k { sys with worker := worker } := by
  have htotal := h.total
  refine ⟨h.receiver, ?_, fun ha => (h.alive ha).trans (congrArg _ (hhand ha).symm)⟩
  change k + worker.opening ≤ sys.channel.received.length + n + 1
  omega

theorem counted_workerStep {k : ℕ} (h : sys.Counted n k) (hb : sys'.Bounded files n)
    (hs : workerStep host sys = some sys') : sys'.Counted n (k + sys'.worker.inHand) := by
  have htotal := h.total
  have hcount := h.alive
  have hqueue := hb.queue
  cases workerStep_move hs with
  | finishes hw => exact h.worker (fun _ => by rw [hw]; rfl) (Nat.zero_le _)
  | stops hw => exact h.worker (fun _ => by rw [hw]; rfl) (Nat.zero_le _)
  | skips hw => exact h.worker (fun _ => by rw [hw]; rfl) (by rw [hw]; exact Nat.le_refl _)
  | fails hw hdead => exact h.worker (fun ha => by simp [hdead] at ha) (Nat.zero_le _)
  | opens hw =>
    rw [hw] at htotal hcount
    exact ⟨h.receiver, htotal, fun ha => congrArg (· + 1) (hcount ha)⟩
  | sends hw halive =>
    have hk := hcount halive
    rw [hw] at hk
    refine Counted.of_alive halive hqueue ?_
    simp only [Worker.inHand, Channel.send, List.length_append, List.length_singleton] at hk ⊢
    omega

theorem counted_consumerStep {k : ℕ} (h : sys.Counted n k) (hb : sys'.Bounded files n)
    (hc : sys.consumer ≠ .joining) (hs : consumerStep a sys = some sys') : sys'.Counted n k := by
  have halive := h.receiver hc
  have hk := h.alive halive
  have hqueue := hb.queue
  cases consumerStep_action hs with
  | @read c ops =>
    obtain ⟨-, hch, hw, hrx⟩ := loopHead_keeps a c { sys with todo := ops }
    exact Counted.of_alive (hrx.trans halive) hqueue (by rw [hch, hw]; exact hk)
  | restart => exact ⟨fun hj => absurd rfl hj, h.total, fun ha => by cases ha⟩
  | @receive c channel worker bytes hrecv harrival =>
    obtain ⟨-, hch, hw, hrx⟩ := loopHead_keeps a c { sys with
      storage := sys.storage.activate bytes, channel := channel, worker := worker }
    refine Counted.of_alive (hrx.trans halive) hqueue ?_
    rw [received, hch, hw]
    cases harrival with
    | queued hq hreceived =>
      rw [hq, List.length_cons] at hk
      simp only [hreceived, List.length_append, List.length_singleton]
      omega
    | handed hq hsend =>
      rw [hsend] at hk
      simp only [Channel.handOff, Worker.inHand, List.length_append, List.length_singleton] at hk ⊢
      omega
  | disconnected => exact Counted.of_alive halive hqueue hk
  | joined hj => exact absurd hj hc

/-- An epoch begins: nothing is queued or received, and the worker is at the first file. -/
structure Begins (files : List PathBuf) (n : ℕ) (sys : BufferSystem) : Prop where
  dataFiles : sys.storage.dataFiles = files
  channel : sys.channel = Channel.bounded n
  alive : sys.rxAlive = true
  worker : sys.worker = .running files

/-- A storage that was just loaded begins an epoch, whatever it is asked for. -/
theorem loaded_begins (files : List PathBuf) (bufferSize totalSize : ℕ) (ops : List Op) :
    ((loaded files bufferSize totalSize).issue ops).Begins files bufferSize :=
  ⟨rfl, rfl, rfl, rfl⟩

/-- So does a storage whose `clear_state` returns. -/
theorem begins_of_joined (h : sys.Bounded files n) (hc : sys.consumer = .joining)
    (hs : consumerStep a sys = some sys') : sys'.Begins files n := by
  cases consumerStep_action hs with
  | joined => exact ⟨h.dataFiles, congrArg Channel.bounded h.capacity, rfl, congrArg _ h.dataFiles⟩
  | read hi => cases hi.symm.trans hc
  | restart hi => cases hi.symm.trans hc
  | receive hr => cases hr.symm.trans hc
  | disconnected hr => cases hr.symm.trans hc

/-- The count is kept in the whole epoch. -/
theorem Begins.counted {k : ℕ} (h : sys.Begins files n) (hrun : Maps host a sys k sys') :
    sys'.Counted n k := by
  have hstart : sys.Bounded files n ∧ sys.Counted n 0 := by
    refine ⟨⟨h.dataFiles, by rw [h.channel]; rfl, by rw [h.channel]; exact Nat.zero_le _, ?_⟩,
      Counted.of_alive h.alive (by rw [h.channel]; exact Nat.zero_le _) ?_⟩
    · rw [h.channel, h.worker]
      simp [Channel.bounded, Worker.left]
    · rw [h.channel, h.worker]
      rfl
  have hkeep : sys'.Bounded files n ∧ sys'.Counted n k := by
    induction hrun with
    | start => exact hstart
    | worker _ hs ih =>
      have hb := workerStep_bounded ih.1 hs
      exact ⟨hb, counted_workerStep ih.2 hb hs⟩
    | consumer _ hc hs ih =>
      have hb := consumerStep_bounded ih.1 hs
      exact ⟨hb, counted_consumerStep ih.2 hb hc hs⟩
  exact hkeep.2

/-- An epoch maps little more than it delivers. -/
theorem Begins.counts {k : ℕ} (h : sys.Begins files n) (hrun : Maps host a sys k sys') :
    k ≤ sys'.channel.received.length + n + 1 :=
  Nat.le_trans (Nat.le_add_right _ _) (h.counted hrun).total

/-- **Reading ahead is bounded.**  On every schedule of every script, from the start and from
every return of `clear_state` on, and up to and including the wait for the worker in the
next `clear_state`, at most `buffer_size + 1` files more have been mapped than received. -/
theorem mapped_le {bufferSize : ℕ} (hload : loadData host files bufferSize = .ok sys)
    (a : Arith) (ops : List Op) :
    (∀ k u, Maps host a (sys.issue ops) k u → k ≤ u.channel.received.length + bufferSize + 1) ∧
    ∀ s t, Reaches (step host a) (sys.issue ops) s → s.consumer = .joining →
      consumerStep a s = some t →
        ∀ k u, Maps host a t k u → k ≤ u.channel.received.length + bufferSize + 1 := by
  obtain ⟨lens, -, rfl⟩ := loadData_eq_ok.1 hload
  refine ⟨fun k u => (loaded_begins _ _ _ _).counts, fun s t hs hc hst k u => ?_⟩
  have hb := bounded_of_reaches (loaded_bounded files bufferSize lens.sum ops) hs
  exact (begins_of_joined hb hc hst).counts

/-- With room for one shard, `clear_state` right after loading waits for two files at most. -/
theorem mapped_le_one :
    let host : Host Unit := fun _ => File.ofBytes [1, 2, 3, 4]
    ∃ sys, loadData host ["a.bin", "b.bin", "c.bin"] 1 = .ok sys ∧
      ∀ k u, Maps host .release (sys.issue [.restart]) k u → k ≤ u.channel.received.length + 2 := by
  intro host
  have hread : host.Readable ["a.bin", "b.bin", "c.bin"] := fun path _ => File.ofBytes_readable _
  have hload := loadData_of_readable hread 1
  exact ⟨_, hload, (mapped_le hload .release [.restart]).1⟩

/-! ### Dropping the storage -/

/-- The storage is dropped: its fields are, so what is queued is discarded with the receiver
and the worker is detached.  No call is made any more. -/
def dropped (sys : BufferSystem) : BufferSystem :=
  { sys with
    channel := { sys.channel with queue := [] }
    rxAlive := false
    consumer := .idle
    todo := [] }

/-- The storage `t` was dropped, and only the worker has moved since. -/
def Detached (t sys : BufferSystem) : Prop := sys = { t.dropped with worker := sys.worker }

/-- After that only the worker moves.  It has one file at most to map, and every step brings
it closer to its end. -/
theorem detached_step {t : BufferSystem} {i : ThreadId} (h : t.Detached sys)
    (hs : step host a i sys = some sys') :
    t.Detached sys' ∧ sys'.worker.inHand + sys'.worker.opening ≤ sys.worker.opening ∧
      sys'.worker.left + sys'.worker.opening < sys.worker.left + sys.worker.opening := by
  rw [Detached] at h
  cases i with
  | consumer =>
    rw [h] at hs
    cases hs
  | worker =>
    have hdead : sys.rxAlive = false := by rw [h]; rfl
    cases workerStep_move hs with
    | finishes hw =>
      exact ⟨by rw [h]; rfl, Nat.zero_le _, by rw [hw]; exact Nat.one_pos⟩
    | opens hw =>
      refine ⟨by rw [h]; rfl, by rw [hw]; exact Nat.le_refl 1, ?_⟩
      rw [hw]
      exact Nat.lt_succ_self _
    | stops hw =>
      exact ⟨by rw [h]; rfl, Nat.zero_le _, by rw [hw]; exact Nat.succ_pos _⟩
    | skips hw =>
      refine ⟨by rw [h]; rfl, by rw [hw]; exact Nat.le_refl 1, ?_⟩
      rw [hw]
      exact Nat.lt_succ_self _
    | sends hw halive => cases hdead.symm.trans halive
    | fails hw =>
      exact ⟨by rw [h]; rfl, Nat.zero_le _, by rw [hw]; exact Nat.succ_pos _⟩

/-- A detached worker that has not exited has a step. -/
theorem detached_progress {t : BufferSystem} (h : t.Detached sys) :
    sys.worker = .exited ∨ ∃ sys', step host a .worker sys = some sys' := by
  rw [Detached] at h
  cases hw : sys.worker with
  | exited => exact Or.inl rfl
  | sending bytes files =>
    refine Or.inr ⟨{ sys with worker := .exited }, ?_⟩
    have hdead : sys.rxAlive = false := by rw [h]; rfl
    simp [step, workerStep, hw, hdead]
  | running files =>
    cases files with
    | nil => exact Or.inr ⟨{ sys with worker := .exited }, by simp [step, workerStep, hw]⟩
    | cons path files =>
      refine Or.inr (Option.isSome_iff_exists.1 ?_)
      cases hc : (host path).contents with
      | some bytes => simp [step, workerStep, hw, hc]
      | none => cases hspawn : sys.spawn <;> simp [step, workerStep, hw, hc, hspawn]

theorem detached_of_reaches {t : BufferSystem} (h : Reaches (step host a) t.dropped sys) :
    t.Detached sys :=
  h.invariant (fun _ _ _ hd hs => (detached_step hd hs).1) rfl

/-- What is mapped after the drop was still to be opened then. -/
theorem detached_maps {t : BufferSystem} {j : ℕ} (h : Maps host a t.dropped j sys) :
    t.Detached sys ∧ j + sys.worker.opening ≤ t.worker.opening := by
  induction h with
  | start => exact ⟨rfl, Nat.le_of_eq (Nat.zero_add _)⟩
  | worker _ hs ih =>
    obtain ⟨hd, hmapped, -⟩ := detached_step (i := .worker) (a := a) ih.1 hs
    exact ⟨hd, by omega⟩
  | consumer _ _ hs ih =>
    rw [ih.1] at hs
    cases hs

/-- **A dropped storage lets its worker go.**  Whenever in an epoch it is dropped, whatever is
queued and whatever files are left: on every schedule the worker exits, nothing else moves
any more, and one file at most is mapped, within the bound on reading ahead. -/
theorem dropped_exits {bufferSize : ℕ} (hload : loadData host files bufferSize = .ok sys)
    (a : Arith) (ops : List Op) {begin : BufferSystem}
    (hbegin : begin = sys.issue ops ∨ ∃ s, Reaches (step host a) (sys.issue ops) s ∧
      s.consumer = .joining ∧ consumerStep a s = some begin) {k : ℕ} {t : BufferSystem}
    (hrun : Maps host a begin k t) :
    Completes (step host a) (fun u => u.worker = .exited) t.dropped ∧
    (∀ u, Reaches (step host a) t.dropped u → u = { t.dropped with worker := u.worker }) ∧
    ∀ j u, Maps host a t.dropped j u →
      j ≤ 1 ∧ k + j ≤ t.channel.received.length + bufferSize + 1 := by
  obtain ⟨lens, -, rfl⟩ := loadData_eq_ok.1 hload
  have hbegins : begin.Begins files bufferSize := by
    rcases hbegin with rfl | ⟨s, hs, hc, hst⟩
    · exact loaded_begins _ _ _ _
    · exact begins_of_joined (bounded_of_reaches (loaded_bounded files bufferSize lens.sum ops) hs)
        hc hst
  refine ⟨?_, fun u => detached_of_reaches, fun j u hmaps => ?_⟩
  · refine Completes.of_measure (I := t.Detached) (fun u => u.worker.left + u.worker.opening)
      (fun i u v hd hs => (detached_step hd hs).1) (fun i u v hd hs => (detached_step hd hs).2.2)
      (fun u hd => ?_) rfl
    exact (detached_progress hd).imp_right fun ⟨v, hv⟩ => ⟨.worker, v, hv⟩
  · have htotal := (hbegins.counted hrun).total
    have hmapped := (detached_maps hmaps).2
    have hone : t.worker.opening ≤ 1 := by cases t.worker <;> simp [Worker.opening]
    exact ⟨by omega, by omega⟩

/-- A storage of three files that is dropped after one read: the second file is queued, and
the worker waits to send the third. -/
theorem dropped_exits_blocked :
    let host : Host Unit := fun _ => File.ofBytes [1, 2, 3, 4]
    ∃ sys t, loadData host ["a.bin", "b.bin", "c.bin"] 1 = .ok sys ∧
      Maps host .release (sys.issue [.read (.sliceSequential 4)]) 3 t ∧
      t.log = [some (.plain [1, 2, 3, 4])] ∧ t.channel.queue = [[1, 2, 3, 4]] ∧
      t.worker = .sending [1, 2, 3, 4] [] ∧ workerStep host t = none ∧
      Completes (step host .release) (fun u => u.worker = .exited) t.dropped ∧
      ∀ j u, Maps host .release t.dropped j u → j = 0 := by
  intro host
  have hread : host.Readable ["a.bin", "b.bin", "c.bin"] := fun path _ => File.ofBytes_readable _
  have hload := loadData_of_readable hread 1
  have hstart : Maps host .release ((loaded ["a.bin", "b.bin", "c.bin"] 1 12).issue
    [.read (.sliceSequential 4)]) 0 _ := .start
  have hwaiting := (hstart.worker rfl).consumer (by decide) rfl
  -- the call waits for the first file and takes it
  have hactive := (hwaiting.worker rfl).consumer (by decide) rfl
  -- the worker fills the channel and takes up the third file
  have hfull := ((hactive.worker rfl).worker rfl).worker rfl
  obtain ⟨hcompletes, -, hmaps⟩ := dropped_exits hload .release _ (Or.inl rfl) hfull
  refine ⟨_, _, hload, hfull, rfl, rfl, rfl, rfl, hcompletes, fun j u h => ?_⟩
  have hle : 3 + j ≤ 1 + 1 + 1 := (hmaps j u h).2
  omega

end BufferSystem

end Plast
