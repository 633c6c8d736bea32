/-
# Closures that block the threads of a pool

The closures of a chunk run on the threads of a pool, and a closure that waits in `send`
keeps its thread.  Which rows a pool starts next is its own affair; what is asked of it
(`Pool`) is that no more closures wait than it has threads, and that it starts some row of
a chunk when none of them waits.  A row of the chunk may be left behind one that waits, as
with a pool that hands out the rows in parts.

All threads of a pool may block at once, with rows of the chunk left that nobody can start.
No pool deadlocks, since the receiver is not one of its threads: every interleaving ends with
no thread left, after what the concurrent function may return on any other pool.  At most
`write_queue_size` records are in the channel, and one for each thread is on its way there.
A pool that has no preference among the rows returns all of it
(`pooled_returns`).

A pool of one thread that takes the rows in order keeps the order of the dataset, so what it
writes is reproducible (`single_returns`).
-/

import Plast.Pretokenizer.Refinement

namespace Plast

open Transition Machine FanIn

variable {ε δ E : Type}

/-- A pool of threads: which rows of a chunk it may start. -/
structure Pool where
  threads : ℕ
  /-- A thread may start row `i`. -/
  starts : List Row → ℕ → Bool
  /-- A thread that starts a row was not waiting in `send`. -/
  free : ∀ rows i, starts rows i → rows.countP Row.inSend < threads
  /-- When no thread waits, the pool goes on with the chunk. -/
  live : ∀ rows, rows ≠ [] → rows.countP Row.inSend = 0 → ∃ i < rows.length, starts rows i

namespace Pool

/-- A pool whose threads take any row. -/
def any (threads : ℕ) (h : 0 < threads) : Pool where
  threads := threads
  starts rows _ := decide (rows.countP Row.inSend < threads)
  free _ _ := of_decide_eq_true
  live rows hrows hnone := ⟨0, List.length_pos_iff.2 hrows, by simpa [hnone] using h⟩

/-- A pool of one thread, which takes the rows in order. -/
def single : Pool where
  threads := 1
  starts rows i := decide (i = 0 ∧ rows.countP Row.inSend = 0)
  free rows i h := by
    have hnone := (of_decide_eq_true h).2
    omega
  live rows hrows hnone := ⟨0, List.length_pos_iff.2 hrows, decide_eq_true ⟨rfl, hnone⟩⟩

/-- A pool that has no preference: when no thread waits, it may start any row. -/
def Unbiased (pool : Pool) : Prop :=
  ∀ rows, rows.countP Row.inSend = 0 → ∀ i < rows.length, pool.starts rows i

theorem any_unbiased (threads : ℕ) (h : 0 < threads) : (any threads h).Unbiased :=
  fun _ hnone _ _ => decide_eq_true (hnone.symm ▸ h)

end Pool

namespace Pipeline

/-- A step of the system with its closures on a pool. -/
def pooledStep (pool : Pool) (next : δ → Option (Except E StringChunked) × δ)
    (encode : String → Option Payload) (host : WriterHost ε) (args : WriterArgs) :
    PipelineThread → Pipeline ε δ → Option (Pipeline ε δ)
  | .row i, sys =>
    -- a closure in `send` goes on with the thread it has
    if sys.producer.rows[i]?.any Row.inSend ∨ pool.starts sys.producer.rows i then
      sys.rowStep encode host args i
    else
      none
  | .producer, sys => sys.producerStep next
  | .caller, sys => sys.callerStep host args

variable {next : δ → Option (Except E StringChunked) × δ} {encode : String → Option Payload}
  {host : WriterHost ε} {args : WriterArgs} {disk : Disk} {sys sys' : Pipeline ε δ}
  {items : List (Except E StringChunked)} {pool : Pool} {dataset t : δ}

/-- The pool only holds steps back. -/
theorem step_of_pooledStep {i : PipelineThread}
    (h : pooledStep pool next encode host args i sys = some sys') :
    step next encode host args i sys = some sys' := by
  cases i with
  | producer => exact h
  | caller => exact h
  | row i =>
    rw [pooledStep] at h
    split at h
    · exact h
    · cases h

theorem reaches_of_pooled (h : Reaches (pooledStep pool next encode host args) sys sys') :
    Reaches (step next encode host args) sys sys' :=
  h.of_part fun i _ _ hstep => ⟨i, step_of_pooledStep hstep⟩

theorem sendStep_producer {rows : List Row} {i : ℕ} {ids : Payload}
    (h : sys.sendStep host args rows i ids = some sys') :
    sys'.producer = .tokenizing (rows.eraseIdx i) := by
  unfold sendStep at h
  cases hc : sys.caller with
  | returned result =>
    simp only [hc, Option.some.injEq] at h
    rw [← h]
    rfl
  | receiving w =>
    simp only [hc] at h
    split at h
    · rw [← Option.some.inj h]
      rfl
    · split at h
      · rw [← Option.some.inj h, received_producer]
        rfl
      · cases h

/-- What a step does to the rows: row `i` returns, or gets to its `send`. -/
theorem rowStep_rows {i : ℕ} (h : sys.rowStep encode host args i = some sys') :
    ∃ rows row, sys.producer = .tokenizing rows ∧ rows[i]? = some row ∧
      (sys'.producer = .tokenizing (rows.eraseIdx i) ∨
        row.inSend = false ∧ ∃ ids, sys'.producer = .tokenizing (rows.set i (.sending ids))) := by
  unfold rowStep at h
  split at h
  · rename_i rows hp
    cases hi : rows[i]? with
    | none => simp only [hi] at h; cases h
    | some row =>
      refine ⟨rows, row, hp, hi, ?_⟩
      cases row with
      | sending ids =>
        simp only [hi] at h
        exact Or.inl (sendStep_producer h)
      | waiting optText =>
        simp only [hi] at h
        split at h
        · rw [← Option.some.inj h]
          exact Or.inr ⟨rfl, _, rfl⟩
        · rw [← Option.some.inj h]
          exact Or.inl rfl
  · cases h

/-! ### No deadlock -/

/-- A closure in `send` gets through, or the caller makes room for it. -/
theorem pooled_send {rows : List Row} {j : ℕ} {ids : Payload}
    (hp : sys.producer = .tokenizing rows) (hj : rows[j]? = some (.sending ids)) :
    ∃ i sys', pooledStep pool next encode host args i sys = some sys' := by
  have hkeep : pooledStep pool next encode host args (.row j) sys =
      sys.rowStep encode host args j := by
    refine if_pos (Or.inl ?_)
    rw [hp]
    simp only [Producer.rows, hj]
    rfl
  cases hc : sys.caller with
  | returned result =>
    refine ⟨.row j, sys.rowDone rows j, hkeep.trans ?_⟩
    simp only [rowStep, hp, hj, sendStep, hc]
  | receiving w =>
    cases hrecv : sys.channel.recv? with
    | some found =>
      refine ⟨.caller, ?_⟩
      simp only [pooledStep, callerStep, hc, hrecv]
      exact ⟨_, rfl⟩
    | none =>
      obtain ⟨u, hu⟩ := row_progress encode host args hc (Channel.recv?_eq_none.1 hrecv) hp hj
      exact ⟨.row j, u, hkeep.trans hu⟩

/-- A closure that has not started returns at once, or gets to its `send`. -/
theorem pooled_waiting {rows : List Row} {i : ℕ} (hp : sys.producer = .tokenizing rows)
    (hnone : rows.countP Row.inSend = 0) (hi : i < rows.length) (hstarts : pool.starts rows i) :
    ∃ sys', pooledStep pool next encode host args (.row i) sys = some sys' := by
  have hrow : rows[i]? = some rows[i] := List.getElem?_eq_getElem hi
  have hidle : ¬rows[i].inSend = true :=
    List.countP_eq_zero.1 hnone rows[i] (List.getElem_mem hi)
  have hstart : pooledStep pool next encode host args (.row i) sys =
      sys.rowStep encode host args i := by
    refine if_pos (Or.inr ?_)
    rw [hp]
    exact hstarts
  rw [hstart]
  cases hwait : rows[i] with
  | sending ids => exact absurd (congrArg Row.inSend hwait) hidle
  | waiting optText =>
    rw [hwait] at hrow
    simp only [rowStep, hp, hrow]
    cases optText.bind encode <;> exact ⟨_, rfl⟩

/-- Until every thread has ended, some thread can move. -/
theorem pooled_progress (pool : Pool) (sys : Pipeline ε δ) :
    sys.Quiet ∨ ∃ i sys', pooledStep pool next encode host args i sys = some sys' := by
  rcases progress_quiet next encode host args sys with hquiet | ⟨i, sys', hstep⟩
  · exact Or.inl hquiet
  refine Or.inr ?_
  cases i with
  | producer => exact ⟨.producer, sys', hstep⟩
  | caller => exact ⟨.caller, sys', hstep⟩
  | row i =>
    obtain ⟨rows, row, hp, hi, -⟩ := rowStep_rows hstep
    by_cases hnone : rows.countP Row.inSend = 0
    · obtain ⟨k, hk, hstarts⟩ := pool.live rows
        (List.ne_nil_of_mem (List.mem_of_getElem? hi)) hnone
      exact ⟨.row k, pooled_waiting hp hnone hk hstarts⟩
    · obtain ⟨row, hmem, hrow⟩ := List.countP_pos_iff.1 (Nat.pos_of_ne_zero hnone)
      obtain ⟨j, hj⟩ := List.mem_iff_getElem?.1 hmem
      cases row with
      | waiting optText => cases hrow
      | sending ids => exact pooled_send hp hj

theorem pooled_completes (pool : Pool) (h : sys.Sound next encode host args disk items) :
    Completes (pooledStep pool next encode host args) Quiet sys :=
  h.quiet.of_part (fun i _ _ hstep => ⟨i, step_of_pooledStep hstep⟩) fun t _ =>
    pooled_progress pool t

/-! ### What is in flight -/

/-- A step of a closure in `send` takes it out of there, and a step of another one adds one
at most. -/
theorem rowStep_inSend {i : ℕ} (h : sys.rowStep encode host args i = some sys') :
    ∃ rows row, sys.producer = .tokenizing rows ∧ rows[i]? = some row ∧
      if row.inSend then sys.producer.inSend = sys'.producer.inSend + 1
      else sys.producer.inSend ≤ sys'.producer.inSend ∧
        sys'.producer.inSend ≤ sys.producer.inSend + 1 := by
  obtain ⟨rows, row, hp, hi, hrows⟩ := rowStep_rows h
  refine ⟨rows, row, hp, hi, ?_⟩
  rw [hp, inSend_eraseIdx hi]
  rcases hrows with hp' | ⟨hrow, ids, hp'⟩
  · rw [hp']
    split
    · rfl
    · exact ⟨Nat.le_refl _, Nat.le_succ _⟩
  · rw [hp', inSend_set hi, hrow]
    exact ⟨Nat.le_succ _, Nat.le_refl _⟩

/-- No closure waits when a chunk is started, or when the producer is outside of them. -/
theorem producerStep_inSend (h : sys.producerStep next = some sys') :
    sys'.producer.inSend = 0 := by
  have hshard : ∀ shard : StringChunked,
      (Producer.tokenizing (shard.map .waiting)).inSend = 0 := fun shard =>
    List.countP_eq_zero.2 (List.forall_mem_map.2 fun _ _ => Bool.false_ne_true)
  unfold producerStep at h
  split at h
  · rename_i hp
    split at h <;> rw [← Option.some.inj h]
    · exact hshard _
    · simp only [hp]
      rfl
    · rfl
  · rw [← Option.some.inj h]
    rfl
  · cases h
  · cases h

theorem callerStep_producer (h : sys.callerStep host args = some sys') :
    sys'.producer = sys.producer := by
  unfold callerStep at h
  split at h
  · split at h
    · rw [← Option.some.inj h, received_producer]
    · split at h
      · rw [← Option.some.inj h]
      · cases h
  · cases h

/-- No more closures wait than the pool has threads. -/
theorem pooledStep_inSend {i : PipelineThread}
    (h : pooledStep pool next encode host args i sys = some sys')
    (hle : sys.producer.inSend ≤ pool.threads) : sys'.producer.inSend ≤ pool.threads := by
  cases i with
  | producer => exact (producerStep_inSend h).le.trans (Nat.zero_le _)
  | caller => exact (callerStep_producer h).symm ▸ hle
  | row i =>
    rw [pooledStep] at h
    split at h
    · rename_i hguard
      obtain ⟨rows, row, hp, hi, hmoved⟩ := rowStep_inSend h
      rw [hp, Producer.rows, hi] at hguard
      split at hmoved
      · omega
      · rename_i hrow
        have hstarts : pool.starts rows i := hguard.resolve_left hrow
        have hfree : sys.producer.inSend < pool.threads := by
          rw [hp]
          exact pool.free rows i hstarts
        omega
    · cases h

/-- The channel keeps its size. -/
theorem Move.capacity_eq (hm : Move next encode host args sys sys') :
    sys'.channel.capacity = sys.channel.capacity := by
  cases hm with
  | receive hc hrecv =>
    rw [received_channel]
    exact (Channel.recv?_eq_some hrecv).2.2
  | handOff => rw [received_channel]; rfl
  | _ => rfl

/-! ### No order is lost -/

/-- A pool without a preference lets closures take turns in any order. -/
theorem Alone.fires (hunbiased : pool.Unbiased)
    (h : Alone next encode host args sys sys') :
    Fires (pooledStep pool next encode host args) sys sys' := by
  obtain ⟨hmove, hturns⟩ := h
  obtain ⟨i, hstep⟩ := hmove.fires
  refine ⟨i, ?_⟩
  cases i with
  | producer => exact hstep
  | caller => exact hstep
  | row i =>
    obtain ⟨rows, row, hp, hi, hmoved⟩ := rowStep_inSend hstep
    refine (if_pos ?_).trans hstep
    rw [hp, Producer.rows, hi]
    split at hmoved
    · exact Or.inl ‹_›
    · have hnone : sys.producer.inSend = 0 := by omega
      rw [hp] at hnone
      exact Or.inr (hunbiased rows hnone i (List.getElem?_eq_some_iff.1 hi).1)

/-! ### One thread -/

section Single

variable {rest : List (Except E StringChunked)} {all : List Payload} {rows : List Row} {i : ℕ}

/-- Only the first of the rows may be in `send`. -/
def InFront (sys : Pipeline ε δ) : Prop := sys.producer.rows.tail.countP Row.inSend = 0

/-- A row in `send` is the first one. -/
theorem InFront.eq_zero {row : Row} (h : sys.InFront) (hp : sys.producer = .tokenizing rows)
    (hi : rows[i]? = some row) (hrow : row.inSend = true) : i = 0 := by
  unfold InFront at h
  rw [hp, Producer.rows, List.countP_eq_zero] at h
  by_contra hne
  obtain ⟨j, rfl⟩ := Nat.exists_eq_succ_of_ne_zero hne
  exact h row (List.mem_of_getElem? (i := j) (List.getElem?_tail.trans hi)) hrow

theorem inFront_of_inSend (h : sys.producer.inSend = 0) : sys.InFront :=
  Nat.le_zero.1 (h ▸ (List.tail_sublist _).countP_le)

/-- A thread that takes the rows in order keeps the row it has in front. -/
theorem InFront.pooledStep {i : PipelineThread}
    (h : pooledStep .single next encode host args i sys = some sys') (hfront : sys.InFront) :
    sys'.InFront := by
  cases i with
  | producer => exact inFront_of_inSend (producerStep_inSend h)
  | caller =>
    unfold InFront
    rw [callerStep_producer h]
    exact hfront
  | row i =>
    rw [Pipeline.pooledStep] at h
    split at h
    · rename_i hguard
      obtain ⟨rows, row, hp, hi, hrows⟩ := rowStep_rows h
      rw [hp, Producer.rows, hi] at hguard
      obtain rfl : i = 0 := by
        rcases hguard with hrow | hstarts
        · exact hfront.eq_zero hp hi hrow
        · exact (of_decide_eq_true hstarts).1
      unfold InFront at hfront ⊢
      rw [hp, Producer.rows] at hfront
      rcases hrows with hp' | ⟨-, ids, hp'⟩
      · rw [hp', Producer.rows, List.eraseIdx_zero]
        exact Nat.le_zero.1 (hfront ▸ (List.tail_sublist _).countP_le)
      · rw [hp', Producer.rows]
        cases rows with
        | nil => cases hi
        | cons first others => exact hfront
    · cases h

/-- What has been sent and what is to come are the records in the order of the dataset. -/
def Follows (encode : String → Option Payload) (all : List Payload)
    (rest : List (Except E StringChunked)) (sys : Pipeline ε δ) : Prop :=
  sys.channel.sent ++ sys.pending encode ++ (chunks rest).flatMap (encodings encode) = all

/-- The caller receives the records in the order of the dataset. -/
def InOrder (next : δ → Option (Except E StringChunked) × δ) (encode : String → Option Payload)
    (all : List Payload) (sys : Pipeline ε δ) : Prop :=
  ∃ rest, sys.Remaining next rest ∧ ∀ w, sys.caller = .receiving w → sys.Follows encode all rest

/-- The first row that sends is the one whose closure is in `send`. -/
theorem InFront.ids_eq {ids : Payload} (h : sys.InFront)
    (hp : sys.producer = .tokenizing rows) (hi : rows[i]? = some (.sending ids)) :
    rows.filterMap (Row.ids? encode) =
      ids :: (rows.eraseIdx i).filterMap (Row.ids? encode) := by
  obtain rfl := h.eq_zero hp hi rfl
  cases rows with
  | nil => cases hi
  | cons row rows =>
    obtain rfl := Option.some.inj hi
    rfl

/-- A row that sends nothing is not missed. -/
theorem ids_drop {row : Row} (hi : rows[i]? = some row) (hrow : row.ids? encode = none) :
    (rows.eraseIdx i).filterMap (Row.ids? encode) = rows.filterMap (Row.ids? encode) := by
  obtain ⟨hlt, rfl⟩ := List.getElem?_eq_some_iff.1 hi
  conv_rhs => rw [← List.take_append_drop i rows, List.drop_eq_getElem_cons hlt]
  rw [List.eraseIdx_eq_take_drop_succ, List.filterMap_append, List.filterMap_append,
    List.filterMap_cons_none hrow]

/-- A step of a closure: the records of the chunk that are sent or to come stay the same. -/
theorem follows_row {rows' : List Row} (h : sys.Remaining next rest)
    (hp : sys.producer = .tokenizing rows) (hp' : sys'.producer = .tokenizing rows')
    (hd : sys'.dataset = sys.dataset)
    (hall : ∀ w, sys.caller = .receiving w → sys.Follows encode all rest)
    (hkeep : ∀ w, sys.caller = .receiving w →
      sys'.channel.sent ++ rows'.filterMap (Row.ids? encode) =
        sys.channel.sent ++ rows.filterMap (Row.ids? encode)) :
    ∃ rest, sys'.Remaining next rest ∧
      ∀ w, sys.caller = .receiving w → sys'.Follows encode all rest := by
  refine ⟨rest, h.congr (by simp [hp]) (by simp [hp']) hd, fun w hc => ?_⟩
  have hbefore := hall w hc
  simp only [Follows, pending, hp, hp', Producer.rows] at hbefore ⊢
  rw [hkeep w hc, hbefore]

theorem InOrder.follows (hm : Move next encode host args sys sys') (ho : sys.Orderly)
    (hfront : sys.InFront) (h : sys.InOrder next encode all) :
    ∃ rest, sys'.Remaining next rest ∧
      ∀ w, sys.caller = .receiving w → sys'.Follows encode all rest := by
  obtain ⟨rest, hrest, hall⟩ := h
  cases hm with
  | skip hp hnext =>
    obtain ⟨t, hd⟩ := hrest.drains (by simp [hp])
    obtain ⟨rest', rfl, hd'⟩ := hd.of_some hnext
    exact ⟨rest', .of_drains (by simp [hp]) hd', hall⟩
  | @load shard dataset hp hnext =>
    obtain ⟨t, hd⟩ := hrest.drains (by simp [hp])
    obtain ⟨rest', rfl, hd'⟩ := hd.of_some hnext
    refine ⟨rest', .of_drains (by simp) hd', fun w hc => ?_⟩
    have hids : (shard.map Row.waiting).filterMap (Row.ids? encode) = encodings encode shard := by
      rw [List.filterMap_map]
      rfl
    rw [Follows, ← hall w hc]
    simp [pending, hp, Producer.rows, hids, chunks, Except.toOption]
  | exit hp hnext =>
    obtain ⟨t, hd⟩ := hrest.drains (by simp [hp])
    obtain rfl := hd.of_none hnext
    refine ⟨[], rfl, fun w hc => ?_⟩
    rw [Follows, ← hall w hc]
    simp [pending, hp, Producer.rows]
  | join hp =>
    refine ⟨rest, hrest.congr (by simp [hp]) (by simp) rfl, fun w hc => ?_⟩
    rw [Follows, ← hall w hc]
    simp [pending, hp, Producer.rows]
  | @encode rows i optText ids hp hi hids =>
    refine follows_row hrest hp rfl rfl hall fun _ _ => ?_
    rw [ids_set encode hi (show (Row.sending ids).ids? encode = _ from hids.symm)]
  | drop hp hi hids =>
    refine follows_row hrest hp rfl rfl hall fun _ _ => ?_
    rw [ids_drop hi hids]
    rfl
  | discard hp hi hc =>
    refine follows_row hrest hp rfl rfl hall fun w hw => ?_
    cases hc.symm.trans hw
  | send hp hi _ _ =>
    refine follows_row hrest hp rfl rfl hall fun _ _ => ?_
    rw [hfront.ids_eq hp hi]
    simp [rowDone]
  | handOff hp hi _ hcap =>
    have hq : sys.channel.queue = [] :=
      List.eq_nil_of_length_eq_zero (Nat.le_zero.1 (hcap ▸ ho.bounded))
    refine follows_row hrest hp (received_producer ..) (received_dataset ..) hall fun _ _ => ?_
    rw [hfront.ids_eq hp hi]
    simp [rowDone, Channel.sent_handOff hq]
  | receive _ hrecv =>
    refine ⟨rest, ?_, fun w hc => ?_⟩
    · simpa only [Remaining, received_producer, received_dataset] using hrest
    · rw [Follows, ← hall w hc, pending, received_producer, received_channel,
        Channel.sent_recv hrecv]
      rfl
  | finish hc => exact ⟨rest, hrest, hall⟩

theorem InOrder.move (hm : Move next encode host args sys sys') (ho : sys.Orderly)
    (hfront : sys.InFront) (h : sys.InOrder next encode all) : sys'.InOrder next encode all := by
  obtain ⟨rest, hrest, hfollows⟩ := h.follows hm ho hfront
  refine ⟨rest, hrest, fun w hc => ?_⟩
  cases hcaller : sys.caller with
  | receiving w' => exact hfollows w' hcaller
  | returned result => cases (returned_of_move hm hcaller).symm.trans hc

/-- What the caller has received comes first among the records. -/
theorem Follows.received_le (h : sys.Follows encode all rest) : sys.channel.received <+: all := by
  rw [← h, Channel.sent, List.append_assoc, List.append_assoc]
  exact List.prefix_append _ _

/-- After the producer has exited, it is all of them. -/
theorem Follows.received_eq (h : sys.Follows encode all rest) (hrest : sys.Remaining next rest)
    (hp : sys.producer = .exited) (hq : sys.channel.queue = []) :
    sys.channel.received = all := by
  obtain rfl : rest = [] := hrest.eq_nil hp
  simpa [Follows, Channel.sent, pending, hp, hq, Producer.rows, chunks] using h

/-- What one thread returns, it returns for the records in the order of the dataset. -/
theorem InOrder.foreseen (h : sys.InOrder next encode all)
    (hs : sys.Sound next encode host args disk items) (hfront : sys.InFront)
    (hm : Move next encode host args sys sys')
    (hforeseen : sys.Foreseen (· = all) host args disk) :
    sys'.Foreseen (· = all) host args disk := by
  refine hforeseen.move hm hs.written (fun w hc => ?_) fun hp hq w hc => ?_
  · obtain ⟨rest, -, hfollows⟩ := h.follows hm hs.orderly hfront
    exact ⟨all, rfl, Follows.received_le (hfollows w hc)⟩
  · obtain ⟨rest, hrest, hfollows⟩ := h
    exact Follows.received_eq (hfollows w hc) hrest hp hq

theorem start_single (encode : String → Option Payload) (host : WriterHost ε) (args : WriterArgs)
    (disk : Disk) (hdrain : Drains (fun s y => next s = y) dataset items t) (writeQueueSize : ℕ) :
    let start := Pipeline.start host args disk dataset writeQueueSize
    let all := (chunks items).flatMap (encodings encode)
    start.InFront ∧ start.InOrder next encode all ∧ start.Foreseen (· = all) host args disk := by
  unfold start
  cases hdir : (host.io 0).result with
  | ok u =>
    refine ⟨rfl, ⟨items, ⟨t, hdrain⟩, fun _ _ => rfl⟩, fun result hc => ?_⟩
    cases hc
  | error e =>
    refine ⟨rfl, ⟨[], rfl, fun w hc => ?_⟩, fun result hc => ?_⟩
    · cases hc
    · obtain rfl := Caller.returned.inj hc
      exact ⟨_, rfl, by rw [pretokenizeDataset, hdir]⟩

end Single

end Pipeline

/-- **No pool deadlocks, or returns what no other pool does.**  For every dataset, tokenizer,
queue and pool, and whatever the operating system answers: every interleaving ends with
`pretokenize_dataset` returned and no thread left; at every moment the channel holds at most
`write_queue_size` records, and each thread of the pool at most one more; what is returned
is what the writer alone returns on one of the orders of the records.  A pool without
a preference among the rows may return each of these. -/
theorem pooled_returns {next : δ → Option (Except E StringChunked) × δ} {dataset t : δ}
    {items : List (Except E StringChunked)}
    (hdrain : Drains (fun s y => next s = y) dataset items t) (encode : String → Option Payload)
    (host : WriterHost ε) (args : WriterArgs) (disk : Disk) (writeQueueSize : ℕ) (pool : Pool) :
    let start := Pipeline.start host args disk dataset writeQueueSize
    let step := Pipeline.pooledStep pool next encode host args
    Completes step Pipeline.Quiet start ∧
      (∀ sys, Reaches step start sys → sys.channel.queue.length ≤ writeQueueSize ∧
        sys.producer.inSend ≤ pool.threads ∧
        ∀ result, sys.caller = .returned result → ∃ payloads, Orders encode items payloads ∧
          result = pretokenizeDataset host args disk payloads) ∧
      (pool.Unbiased → ∀ payloads, Orders encode items payloads →
        ∃ sys, Reaches step start sys ∧
          sys.caller = .returned (pretokenizeDataset host args disk payloads)) := by
  intro start step
  have hsound := Pipeline.start_sound encode host args disk hdrain writeQueueSize
  have hempty : start.channel = Channel.bounded writeQueueSize ∧ start.producer.inSend = 0 := by
    unfold start Pipeline.start
    cases (host.io 0).result <;> exact ⟨rfl, rfl⟩
  refine ⟨Pipeline.pooled_completes pool hsound, fun sys hreach => ⟨?_, ?_, ?_⟩, ?_⟩
  · have hcap : sys.channel.capacity = writeQueueSize :=
      hreach.invariant (I := fun sys => sys.channel.capacity = writeQueueSize)
        (fun i s u hs hstep =>
          (Pipeline.step_move (Pipeline.step_of_pooledStep hstep)).capacity_eq.trans hs)
        (hempty.1 ▸ rfl)
    have hsound := (Pipeline.sound_foreseen hdrain (Pipeline.reaches_of_pooled hreach)).1
    exact hcap ▸ hsound.orderly.bounded
  · exact hreach.invariant (I := fun sys => sys.producer.inSend ≤ pool.threads)
      (fun i s u hs hstep => Pipeline.pooledStep_inSend hstep hs)
      (hempty.2 ▸ Nat.zero_le _)
  · intro result hc
    exact (Pipeline.sound_foreseen hdrain (Pipeline.reaches_of_pooled hreach)).2 result hc
  · intro hunbiased payloads horder
    obtain ⟨sys, hturns, hc⟩ :=
      Pipeline.alone_of_orders hdrain host args disk writeQueueSize horder
    exact ⟨sys, Relation.ReflTransGen.mono (fun _ _ hmove => hmove.fires hunbiased) _ _ hturns,
      hc⟩

/-- One thread for two rows and a queue of one record: both records are written. -/
theorem pooled_returns_one :
    let read : String → PathBuf → Except Unit StringChunked := fun _ _ => .ok [some "a", some "bc"]
    let encode : String → Option Payload := fun text => some [UInt32.ofNat text.length]
    let host : WriterHost Unit := ⟨.little, fun _ => ⟨.ok (), 0⟩⟩
    let args : WriterArgs := ⟨"out", 64, 7⟩
    let start := Pipeline.start host args (fun _ => none) (ShardLoader.new ["a.csv"] "text") 1
    let step := Pipeline.pooledStep (.any 1 Nat.one_pos) (ShardLoader.next read) encode host args
    Completes step Pipeline.Quiet start ∧
      ∃ sys written, Reaches step start sys ∧ sys.caller = .returned (.ok written) ∧
        written.1 = [shardPath "out" 0] ∧
        written.2 (shardPath "out" 0) = some [2, 0, 0, 0, 7, 0, 0, 0, 1, 0, 0, 0, 7, 0, 0, 0] := by
  intro read encode host args start step
  obtain ⟨t, ht⟩ := ShardLoader.drains read ["a.csv"] "text"
  obtain ⟨hends, -, hall⟩ := pooled_returns ht encode host args (fun _ => none) 1
    (.any 1 Nat.one_pos)
  have horder : Orders encode [read "text" "a.csv"] [[2], [1]] :=
    ⟨[[[2], [1]]], List.Forall₂.cons (List.Perm.swap _ _ _) List.Forall₂.nil,
      (List.flatten_singleton).symm⟩
  obtain ⟨sys, hreach, hc⟩ := hall (Pool.any_unbiased 1 Nat.one_pos) _ horder
  exact ⟨hends, sys, _, hreach, hc, rfl, by decide +kernel⟩

/-- **One thread keeps the order.**  With a pool of one thread that takes the rows in order,
every interleaving ends, and it returns what the writer alone returns on the records in the
order of the dataset, whatever the operating system answers: the output is reproducible. -/
theorem single_returns {next : δ → Option (Except E StringChunked) × δ} {dataset t : δ}
    {items : List (Except E StringChunked)}
    (hdrain : Drains (fun s y => next s = y) dataset items t) (encode : String → Option Payload)
    (host : WriterHost ε) (args : WriterArgs) (disk : Disk) (writeQueueSize : ℕ) :
    Completes (Pipeline.pooledStep .single next encode host args)
      (fun sys => sys.producer = .exited ∧ sys.caller = .returned
        (pretokenizeDataset host args disk ((chunks items).flatMap (encodings encode))))
      (Pipeline.start host args disk dataset writeQueueSize) := by
  have hsound := Pipeline.start_sound encode host args disk hdrain writeQueueSize
  obtain ⟨hends, hstops⟩ := Pipeline.pooled_completes .single hsound
  refine ⟨hends, fun sys hreach => ?_⟩
  obtain ⟨-, -, -, hforeseen⟩ := hreach.invariant
    (I := fun sys => sys.Sound next encode host args disk items ∧ sys.InFront ∧
      sys.InOrder next encode ((chunks items).flatMap (encodings encode)) ∧
      sys.Foreseen (· = (chunks items).flatMap (encodings encode)) host args disk)
    (fun i s u ⟨hs, hfront, horder, hforeseen⟩ hstep => by
      have hm := Pipeline.step_move (Pipeline.step_of_pooledStep hstep)
      exact ⟨hs.move hm, hfront.pooledStep hstep, horder.move hm hs.orderly hfront,
        horder.foreseen hs hfront hm hforeseen⟩)
    ⟨hsound, Pipeline.start_single encode host args disk hdrain writeQueueSize⟩
  rcases hstops sys hreach with ⟨⟨result, hc⟩, hp⟩ | hmove
  · obtain ⟨payloads, rfl, rfl⟩ := hforeseen result hc
    exact Or.inl ⟨hp, hc⟩
  · exact Or.inr hmove

/-- One thread writes the first row first, and then the second. -/
theorem single_returns_two :
    let read : String → PathBuf → Except Unit StringChunked := fun _ _ => .ok [some "a", some "bc"]
    let encode : String → Option Payload := fun text => some [UInt32.ofNat text.length]
    let host : WriterHost Unit := ⟨.little, fun _ => ⟨.ok (), 0⟩⟩
    let args : WriterArgs := ⟨"out", 64, 7⟩
    let start := Pipeline.start host args (fun _ => none) (ShardLoader.new ["a.csv"] "text") 0
    let step := Pipeline.pooledStep .single (ShardLoader.next read) encode host args
    ∃ sys written, Reaches step start sys ∧ sys.caller = .returned (.ok written) ∧
      written.2 (shardPath "out" 0) = some [1, 0, 0, 0, 7, 0, 0, 0, 2, 0, 0, 0, 7, 0, 0, 0] := by
  intro read encode host args start step
  obtain ⟨t, ht⟩ := ShardLoader.drains read ["a.csv"] "text"
  obtain ⟨sys, hreach, -, hc⟩ :=
    (single_returns ht encode host args (fun _ => none) 0).exists_final
  exact ⟨sys, _, hreach, hc, by decide +kernel⟩

end Plast
