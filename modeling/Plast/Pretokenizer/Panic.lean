/-
# A producer that panics

The comment in `src/pretokenizer/pretokenize.rs` says that the channel closes when the
producer exits or panics, and that the receive loop ends cleanly then.  Here the dataset
may panic when it is asked for a chunk, and `encode_fast` may panic on any row: the
closures that run go on, the rows that have not been started may be given up, and no
chunk is taken after that.

Every interleaving still ends with `pretokenize_dataset` returned.  What it returns is
what the writer alone returns on a front of some order of the records: a panic cuts
the stream short and does nothing else to it, and the caller is not told
(`pipeline_survives_panic`).

A row that was given up is a row whose closure is never scheduled, so until the
caller finishes a run with panics is one of the plain pipeline (`Pipeline.Lags`).
-/

import Plast.Pretokenizer.Refinement

namespace Plast

open Transition Machine FanIn

variable {ε δ E : Type}

namespace Pipeline

/-- The dataset of a producer that may have panicked: no chunk is taken then. -/
def nextUnlessPanicked (next : δ → Option (Except E StringChunked) × δ) :
    Option δ → Option (Except E StringChunked) × Option δ
  | some dataset => ((next dataset).1, some (next dataset).2)
  | none => (none, none)

/-- Who takes a step: a thread, or a panic in it. -/
inductive Actor
  | thread (i : PipelineThread)
  /-- `dataset.next()` panics. -/
  | dataset
  /-- The closure of row `i` panics, or is given up after a panic. -/
  | row (i : ℕ)
  deriving DecidableEq, Repr

/-- The dataset panics, and the producer unwinds. -/
def datasetPanics (sys : Pipeline ε (Option δ)) : Option (Pipeline ε (Option δ)) :=
  match sys.producer with
  | .idle => some { sys with dataset := none, producer := .exited }
  | _ => none

/-- Row `i` is lost to a panic, before it sends. -/
def rowPanics (i : ℕ) (sys : Pipeline ε (Option δ)) : Option (Pipeline ε (Option δ)) :=
  match sys.producer with
  | .tokenizing rows =>
    match rows[i]? with
    | some (.waiting _) => some ({ sys with dataset := none }.rowDone rows i)
    | _ => none
  | _ => none

/-- A step of a system in which the producer may panic. -/
def panickingStep (next : δ → Option (Except E StringChunked) × δ)
    (encode : String → Option Payload) (host : WriterHost ε) (args : WriterArgs) :
    Actor → Pipeline ε (Option δ) → Option (Pipeline ε (Option δ))
  | .thread i, sys => step (nextUnlessPanicked next) encode host args i sys
  | .dataset, sys => sys.datasetPanics
  | .row i, sys => sys.rowPanics i

variable {next : δ → Option (Except E StringChunked) × δ} {encode : String → Option Payload}
  {host : WriterHost ε} {args : WriterArgs} {disk : Disk}
  {items rest : List (Except E StringChunked)} {sys sys' : Pipeline ε (Option δ)}
  {plain plain' : Pipeline ε δ}

theorem datasetPanics_eq (h : sys.datasetPanics = some sys') :
    sys.producer = .idle ∧ sys' = { sys with dataset := none, producer := .exited } := by
  unfold datasetPanics at h
  split at h
  · exact ⟨‹_›, (Option.some.inj h).symm⟩
  · cases h

theorem rowPanics_eq {i : ℕ} (h : sys.rowPanics i = some sys') :
    ∃ rows optText, sys.producer = .tokenizing rows ∧ rows[i]? = some (.waiting optText) ∧
      sys' = { sys with dataset := none }.rowDone rows i := by
  unfold rowPanics at h
  split at h
  · split at h
    · exact ⟨_, _, ‹_›, ‹_›, (Option.some.inj h).symm⟩
    · cases h
  · cases h

/-! ### Every run ends -/

/-- The answers of the dataset, until it panics. -/
theorem drains_unlessPanicked {dataset t : δ}
    (h : Drains (fun s y => next s = y) dataset items t) :
    Drains (fun s y => nextUnlessPanicked next s = y) (some dataset) items (some t) := by
  induction h with
  | stop hs => exact .stop (by rw [nextUnlessPanicked, hs])
  | item hs _ ih => exact .item (by rw [nextUnlessPanicked, hs]) ih

theorem drains_panicked : Drains (fun s y => nextUnlessPanicked next s = y) none [] none :=
  .stop rfl

/-- A panic only shortens what is left. -/
theorem panic_shortens (hstep : sys.datasetPanics = some sys' ∨ ∃ i, sys.rowPanics i = some sys')
    (horderly : sys.Orderly) (rest : List (Except E StringChunked)) :
    sys'.Orderly ∧ sys'.Remaining (nextUnlessPanicked next) [] ∧
      cost ([] : List (Except E StringChunked)) sys' < cost rest sys := by
  rcases hstep with h | ⟨i, h⟩
  · obtain ⟨hp, rfl⟩ := datasetPanics_eq h
    refine ⟨horderly.congr (by simp [hp]) rfl rfl, rfl, ?_⟩
    simp only [cost, hp, Producer.cost, List.map_nil, List.sum_nil]
    omega
  · obtain ⟨rows, optText, hp, hi, rfl⟩ := rowPanics_eq h
    refine ⟨horderly.congr (by simp [hp]) rfl rfl,
      Remaining.of_drains (by simp [rowDone]) drains_panicked, ?_⟩
    have hcost := cost_eraseIdx hi
    simp only [Row.cost] at hcost
    simp only [cost, hp, rowDone, List.map_nil, List.sum_nil]
    omega

theorem panicking_completes (horderly : sys.Orderly)
    (hrest : sys.Remaining (nextUnlessPanicked next) rest) :
    Completes (panickingStep next encode host args) Returned sys := by
  refine Completes.of_rank (R := fun n sys => sys.Orderly ∧ ∃ rest,
    sys.Remaining (nextUnlessPanicked next) rest ∧ cost rest sys = n) ?_ (fun _ sys _ => ?_)
    ⟨horderly, rest, hrest, rfl⟩
  · rintro n i s t ⟨horderly, rest, hrest, rfl⟩ hstep
    cases i with
    | thread i =>
      have hm := step_move hstep
      obtain ⟨rest', hrest', hless, -⟩ := hm.advances horderly hrest
      exact ⟨_, hless, horderly.move hm, rest', hrest', rfl⟩
    | dataset =>
      obtain ⟨ho, hr, hless⟩ := panic_shortens (Or.inl hstep) horderly rest
      exact ⟨_, hless, ho, [], hr, rfl⟩
    | row i =>
      obtain ⟨ho, hr, hless⟩ := panic_shortens (Or.inr ⟨i, hstep⟩) horderly rest
      exact ⟨_, hless, ho, [], hr, rfl⟩
  · rcases progress (nextUnlessPanicked next) encode host args sys with hret | ⟨i, t, hstep⟩
    · exact Or.inl hret
    · exact Or.inr ⟨.thread i, t, hstep⟩

/-! ### A lost row is a row that is never scheduled -/

/-- The plain pipeline at the same point: before a panic the same state, and after it one
in which the lost rows are still to be run. -/
structure Lags (plain : Pipeline ε δ) (sys : Pipeline ε (Option δ)) : Prop where
  channel : plain.channel = sys.channel
  caller : plain.caller = sys.caller
  producer : (sys.dataset = some plain.dataset ∧ sys.producer = plain.producer) ∨
    sys.dataset = none ∧ ∃ lost, plain.producer.rows.Perm (sys.producer.rows ++ lost)

/-- A row that is left is a row of the plain pipeline too. -/
theorem exists_row {rows rows' lost : List Row} {i : ℕ} {row : Row}
    (hperm : rows'.Perm (rows ++ lost)) (hi : rows[i]? = some row) :
    ∃ j, rows'[j]? = some row ∧ (rows'.eraseIdx j).Perm (rows.eraseIdx i ++ lost) ∧
      ∀ row', (rows'.set j row').Perm (rows.set i row' ++ lost) := by
  have hmem : row ∈ rows' := by
    rw [hperm.mem_iff]
    exact List.mem_append_left _ (List.mem_of_getElem? hi)
  obtain ⟨j, hj⟩ := List.mem_iff_getElem?.1 hmem
  have herase : (rows'.eraseIdx j).Perm (rows.eraseIdx i ++ lost) :=
    ((perm_eraseIdx hj).symm.trans (hperm.trans ((perm_eraseIdx hi).append_right lost))).cons_inv
  refine ⟨j, hj, herase, fun row' => ?_⟩
  have hset := List.set_perm_cons_eraseIdx (List.getElem?_eq_some_iff.1 hi).1 row'
  exact ((List.set_perm_cons_eraseIdx (List.getElem?_eq_some_iff.1 hj).1 row').trans
    (herase.cons row')).trans (hset.append_right lost).symm

/-- With rows left, the plain pipeline is in the same chunk. -/
theorem tokenizing_of_perm {producer : Producer} {rows lost : List Row} {i : ℕ} {row : Row}
    (hperm : producer.rows.Perm (rows ++ lost)) (hi : rows[i]? = some row) :
    producer = .tokenizing producer.rows := by
  cases producer with
  | tokenizing rows' => rfl
  | _ =>
    have hnil := hperm.nil_eq
    rw [(List.append_eq_nil_iff.1 hnil.symm).1] at hi
    cases hi

/-- A panic leaves the plain pipeline where it is. -/
theorem Lags.panic (h : Lags plain sys)
    (hstep : sys.datasetPanics = some sys' ∨ ∃ i, sys.rowPanics i = some sys') :
    Lags plain sys' := by
  obtain ⟨hchannel, hcaller, hproducer⟩ := h
  have hrows : ∃ lost, plain.producer.rows.Perm (sys.producer.rows ++ lost) := by
    rcases hproducer with ⟨-, hp⟩ | ⟨-, h⟩
    · exact ⟨[], by rw [hp, List.append_nil]⟩
    · exact h
  obtain ⟨lost, hperm⟩ := hrows
  rcases hstep with h | ⟨i, h⟩
  · obtain ⟨hp, rfl⟩ := datasetPanics_eq h
    refine ⟨hchannel, hcaller, Or.inr ⟨rfl, lost, ?_⟩⟩
    rwa [hp] at hperm
  · obtain ⟨rows, optText, hp, hi, rfl⟩ := rowPanics_eq h
    refine ⟨hchannel, hcaller, Or.inr ⟨rfl, .waiting optText :: lost, hperm.trans ?_⟩⟩
    rw [hp]
    exact ((perm_eraseIdx hi).append_right lost).trans List.perm_middle.symm

/-- A row of the system is one of the plain pipeline, and the two stay together when it is
done or replaced. -/
theorem Lags.row {rows : List Row} {i : ℕ} {row : Row} (h : Lags plain sys)
    (hp : sys.producer = .tokenizing rows) (hi : rows[i]? = some row) :
    ∃ rows' j, plain.producer = .tokenizing rows' ∧ rows'[j]? = some row ∧
      (∀ channel, Lags ({ plain with channel := channel }.rowDone rows' j)
        ({ sys with channel := channel }.rowDone rows i)) ∧
      ∀ row', Lags { plain with producer := .tokenizing (rows'.set j row') }
        { sys with producer := .tokenizing (rows.set i row') } := by
  obtain ⟨hchannel, hcaller, ⟨hd, heq⟩ | ⟨hd, lost, hperm⟩⟩ := h
  · exact ⟨rows, i, heq.symm.trans hp, hi, fun _ => ⟨rfl, hcaller, Or.inl ⟨hd, rfl⟩⟩,
      fun _ => ⟨hchannel, hcaller, Or.inl ⟨hd, rfl⟩⟩⟩
  · rw [hp] at hperm
    obtain ⟨j, hj, herase, hset⟩ := exists_row hperm hi
    exact ⟨_, j, tokenizing_of_perm hperm hi, hj,
      fun _ => ⟨rfl, hcaller, Or.inr ⟨hd, lost, herase⟩⟩,
      fun row' => ⟨hchannel, hcaller, Or.inr ⟨hd, lost, hset row'⟩⟩⟩

/-- Both write what they receive. -/
theorem Lags.received (h : Lags plain sys) (host : WriterHost ε) (args : WriterArgs) (w : Writer)
    (payload : Payload) :
    Lags (plain.received host args w payload) (sys.received host args w payload) := by
  unfold Pipeline.received
  cases w.receive host args payload with
  | ok w' => exact ⟨h.channel, rfl, h.producer⟩
  | error f => exact ⟨h.channel, rfl, h.producer⟩

/-- The producer takes the next chunk in both, or there was a panic. -/
theorem Lags.item {x : Option (Except E StringChunked)} {d : Option δ} (h : Lags plain sys)
    (hp : sys.producer = .idle) (hnext : nextUnlessPanicked next sys.dataset = (x, d)) :
    (plain.producer = .idle ∧ ∃ d', d = some d' ∧ next plain.dataset = (x, d')) ∨
      x = none ∧ d = none ∧ ∃ lost, plain.producer.rows.Perm lost := by
  obtain ⟨-, -, ⟨hd, heq⟩ | ⟨hd, lost, hperm⟩⟩ := h
  · rw [hd] at hnext
    obtain ⟨hx, rfl⟩ := Prod.mk.inj hnext
    exact Or.inl ⟨heq.symm.trans hp, _, rfl, Prod.ext hx rfl⟩
  · rw [hd] at hnext
    obtain ⟨rfl, rfl⟩ := Prod.mk.inj hnext
    rw [hp] at hperm
    exact Or.inr ⟨rfl, rfl, lost, hperm⟩

/-- A step of a thread is a step of the plain pipeline or none, unless the caller
finishes. -/
theorem Lags.move {w : Writer} (h : Lags plain sys) (hc : sys.caller = .receiving w)
    (hm : Move (nextUnlessPanicked next) encode host args sys sys') :
    (∃ plain', (plain' = plain ∨ Move next encode host args plain plain') ∧ Lags plain' sys') ∨
      sys.channel.queue = [] ∧ sys'.caller = .returned (w.finish host) := by
  have hc' : plain.caller = .receiving w := h.caller.trans hc
  cases hm with
  | skip hp hnext =>
    rcases h.item hp hnext with ⟨hp', d, rfl, hnext'⟩ | ⟨hx, -⟩
    · exact Or.inl ⟨_, Or.inr (.skip hp' hnext'), h.channel, h.caller,
        Or.inl ⟨rfl, hp.trans hp'.symm⟩⟩
    · cases hx
  | load hp hnext =>
    rcases h.item hp hnext with ⟨hp', d, rfl, hnext'⟩ | ⟨hx, -⟩
    · exact Or.inl ⟨_, Or.inr (.load hp' hnext'), h.channel, h.caller, Or.inl ⟨rfl, rfl⟩⟩
    · cases hx
  | exit hp hnext =>
    rcases h.item hp hnext with ⟨hp', d, rfl, hnext'⟩ | ⟨-, rfl, hlost⟩
    · exact Or.inl ⟨_, Or.inr (.exit hp' hnext'), h.channel, h.caller, Or.inl ⟨rfl, rfl⟩⟩
    · exact Or.inl ⟨plain, Or.inl rfl, h.channel, h.caller, Or.inr ⟨rfl, hlost⟩⟩
  | join hp =>
    obtain ⟨hchannel, hcaller, ⟨hd, heq⟩ | ⟨hd, hlost⟩⟩ := h
    · exact Or.inl ⟨_, Or.inr (.join (heq.symm.trans hp)), hchannel, hcaller, Or.inl ⟨hd, rfl⟩⟩
    · rw [hp] at hlost
      exact Or.inl ⟨plain, Or.inl rfl, hchannel, hcaller, Or.inr ⟨hd, hlost⟩⟩
  | encode hp hi hids =>
    obtain ⟨rows', j, hp', hj, -, hset⟩ := h.row hp hi
    exact Or.inl ⟨_, Or.inr (.encode hp' hj hids), hset _⟩
  | drop hp hi hids =>
    obtain ⟨rows', j, hp', hj, hdone, -⟩ := h.row hp hi
    exact Or.inl ⟨_, Or.inr (.drop hp' hj hids), h.channel, h.caller, (hdone sys.channel).producer⟩
  | discard _ _ hret => cases hc.symm.trans hret
  | send hp hi _ hroom =>
    obtain ⟨rows', j, hp', hj, hdone, -⟩ := h.row hp hi
    refine Or.inl ⟨_, Or.inr (.send hp' hj hc' (h.channel ▸ hroom)), ?_⟩
    rw [h.channel]
    exact hdone _
  | handOff hp hi hcw hcap =>
    obtain rfl := Caller.receiving.inj (hc.symm.trans hcw)
    obtain ⟨rows', j, hp', hj, hdone, -⟩ := h.row hp hi
    refine Or.inl ⟨_, Or.inr (.handOff hp' hj hc' (h.channel ▸ hcap)), ?_⟩
    rw [h.channel]
    exact (hdone _).received host args _ _
  | @receive w' payload channel hcw hrecv =>
    obtain rfl := Caller.receiving.inj (hc.symm.trans hcw)
    have hlags : Lags { plain with channel := channel } { sys with channel := channel } :=
      ⟨rfl, h.caller, h.producer⟩
    exact Or.inl ⟨_, Or.inr (.receive hc' (h.channel ▸ hrecv)), hlags.received host args w payload⟩
  | finish hcw hq _ =>
    obtain rfl := Caller.receiving.inj (hc.symm.trans hcw)
    exact Or.inr ⟨hq, rfl⟩

/-! ### What is returned -/

/-- While the function runs the plain pipeline could be at the same point; what it has
returned is what the writer returns on a front of some order of the records. -/
def Fronted (next : δ → Option (Except E StringChunked) × δ) (encode : String → Option Payload)
    (host : WriterHost ε) (args : WriterArgs) (disk : Disk) (items : List (Except E StringChunked))
    (sys : Pipeline ε (Option δ)) : Prop :=
  match sys.caller with
  | .receiving _ => ∃ plain, plain.Sound next encode host args disk items ∧ Lags plain sys
  | .returned result => ∃ payloads front, Orders encode items payloads ∧ front <+: payloads ∧
      result = pretokenizeDataset host args disk front

/-- What the plain pipeline has received is a front of some order, if it was still
receiving before its last step. -/
theorem Sound.front (h : plain.Sound next encode host args disk items)
    {w : Writer} (hc : plain.caller = .receiving w)
    (hm : plain' = plain ∨ Move next encode host args plain plain') :
    plain'.Sound next encode host args disk items ∧
      ∃ payloads, Orders encode items payloads ∧ plain'.channel.received <+: payloads := by
  obtain ⟨rest, hrest, hfine⟩ := h.onTrack
  have htrack := hfine fun f hf => by cases hc.symm.trans hf
  rcases hm with rfl | hm
  · exact ⟨h, htrack.completes⟩
  · obtain ⟨rest', -, -, hkeep⟩ := hm.advances h.orderly hrest
    refine ⟨h.move hm, (hkeep (fun result hr => ?_) items htrack).completes⟩
    cases hc.symm.trans hr

/-- A panic or a step of a thread keeps it. -/
theorem Fronted.step {actor : Actor} (h : sys.Fronted next encode host args disk items)
    (hstep : panickingStep next encode host args actor sys = some sys') :
    sys'.Fronted next encode host args disk items := by
  have hpanic : (sys.datasetPanics = some sys' ∨ ∃ i, sys.rowPanics i = some sys') →
      sys'.Fronted next encode host args disk items := by
    intro hp
    have hcaller : sys'.caller = sys.caller := by
      rcases hp with hp | ⟨i, hp⟩
      · rw [(datasetPanics_eq hp).2]
      · obtain ⟨-, -, -, -, rfl⟩ := rowPanics_eq hp
        rfl
    unfold Fronted at h ⊢
    rw [hcaller]
    split at h
    · obtain ⟨plain, hsound, hlags⟩ := h
      exact ⟨plain, hsound, hlags.panic hp⟩
    · exact h
  cases actor with
  | dataset => exact hpanic (Or.inl hstep)
  | row i => exact hpanic (Or.inr ⟨i, hstep⟩)
  | thread i =>
    have hm := step_move hstep
    cases hc : sys.caller with
    | returned result =>
      unfold Fronted at h ⊢
      rw [returned_of_move hm hc]
      rwa [hc] at h
    | receiving w =>
      unfold Fronted at h
      rw [hc] at h
      obtain ⟨plain, hsound, hlags⟩ := h
      have hcp : plain.caller = .receiving w := hlags.caller.trans hc
      rcases hlags.move hc hm with ⟨plain', hplain, hlags'⟩ | ⟨-, hret⟩
      · obtain ⟨hsound', payloads, horder, hfront⟩ := hsound.front hcp hplain
        unfold Fronted
        cases hc' : sys'.caller with
        | receiving w' => exact ⟨plain', hsound', hlags'⟩
        | returned result =>
          exact ⟨payloads, _, horder, hfront, hsound'.written.returned (hlags'.caller.trans hc')⟩
      · obtain ⟨-, payloads, horder, hfront⟩ := hsound.front hcp (Or.inl rfl)
        obtain ⟨hdir, hfold⟩ := hsound.written.receiving hcp
        unfold Fronted
        rw [hret]
        refine ⟨payloads, _, horder, hfront, ?_⟩
        unfold pretokenizeDataset
        rw [hdir]
        exact (congrArg (· >>= (Writer.finish host ·)) hfold).symm

theorem start_fronted (encode : String → Option Payload) (host : WriterHost ε) (args : WriterArgs)
    (disk : Disk) {dataset t : δ} (hdrain : Drains (fun s y => next s = y) dataset items t)
    (writeQueueSize : ℕ) :
    (start host args disk (some dataset) writeQueueSize).Fronted next encode host args disk
      items := by
  have hsound := start_sound encode host args disk hdrain writeQueueSize
  unfold Fronted start
  unfold start at hsound
  cases hdir : (host.io 0).result with
  | ok u =>
    rw [hdir] at hsound
    exact ⟨_, hsound, rfl, rfl, Or.inl ⟨rfl, rfl⟩⟩
  | error e =>
    obtain ⟨payloads, horder⟩ := exists_order encode items
    exact ⟨payloads, [], horder, List.nil_prefix, by rw [pretokenizeDataset, hdir]⟩

end Pipeline

/-- **A panic cuts the stream and does nothing else.**  For every dataset, tokenizer and
queue size, whatever the operating system answers and wherever the producer panics: every
interleaving ends with `pretokenize_dataset` returned, and it returns what the writer alone
returns on a front of the records in some order in which they might have arrived.  Without
an I/O failure that is a success, with shards that hold the records of that front. -/
theorem pipeline_survives_panic {next : δ → Option (Except E StringChunked) × δ} {dataset t : δ}
    {items : List (Except E StringChunked)}
    (hdrain : Drains (fun s y => next s = y) dataset items t) (encode : String → Option Payload)
    (host : WriterHost ε) (args : WriterArgs) (disk : Disk) (writeQueueSize : ℕ) :
    Completes (Pipeline.panickingStep next encode host args) Pipeline.Returned
        (Pipeline.start host args disk (some dataset) writeQueueSize) ∧
      ∀ sys result, Reaches (Pipeline.panickingStep next encode host args)
          (Pipeline.start host args disk (some dataset) writeQueueSize) sys →
        sys.caller = .returned result →
        ∃ payloads front, Orders encode items payloads ∧ front <+: payloads ∧
          result = pretokenizeDataset host args disk front ∧
          ((∀ k, (host.io k).result = .ok ()) → ∃ paths disk' groups,
            result = .ok (paths, disk') ∧ ShardFiles host.order args front paths disk' groups) := by
  constructor
  · obtain ⟨horderly, -, rest, hrest, -⟩ := Pipeline.start_sound encode host args disk
      (Pipeline.drains_unlessPanicked hdrain) writeQueueSize
    exact Pipeline.panicking_completes horderly hrest
  · intro sys result hreach hc
    have hfronted := hreach.invariant
      (I := fun sys => sys.Fronted next encode host args disk items)
      (fun i s t hs hstep => hs.step hstep)
      (Pipeline.start_fronted encode host args disk hdrain writeQueueSize)
    unfold Pipeline.Fronted at hfronted
    rw [hc] at hfronted
    obtain ⟨payloads, front, horder, hfront, hresult⟩ := hfronted
    refine ⟨payloads, front, horder, hfront, hresult, fun hio => ?_⟩
    obtain ⟨v, hv, hfiled⟩ := pretokenizeDataset_eq hio args disk front
    exact ⟨_, _, _, hresult.trans hv, hfiled.shardFiles⟩

/-- One file of one row: it is written, or a panic has lost it. -/
theorem pipeline_survives_panic_one :
    let read : String → PathBuf → Except Unit StringChunked := fun _ _ => .ok [some "a"]
    let encode : String → Option Payload := fun text => some [UInt32.ofNat text.length]
    let host : WriterHost Unit := WriterHost.reliable .little
    let step := Pipeline.panickingStep (ShardLoader.next read) encode host ⟨"out", 16, 7⟩
    let start := Pipeline.start host ⟨"out", 16, 7⟩ (fun _ => none)
      (some (ShardLoader.new ["a.csv"] "text")) 1
    Completes step Pipeline.Returned start ∧
      ∀ sys result, Reaches step start sys → sys.caller = .returned result →
        ∃ front, (front = [] ∨ front = [[1]]) ∧ ∃ paths disk' groups, result = .ok (paths, disk') ∧
          ShardFiles .little ⟨"out", 16, 7⟩ front paths disk' groups := by
  intro read encode host step start
  obtain ⟨t, ht⟩ := ShardLoader.drains read ["a.csv"] "text"
  obtain ⟨hcompletes, hruns⟩ := pipeline_survives_panic ht encode host ⟨"out", 16, 7⟩
    (fun _ => none) 1
  refine ⟨hcompletes, fun sys result hreach hc => ?_⟩
  obtain ⟨payloads, front, horders, hfront, -, hok⟩ := hruns sys result hreach hc
  obtain rfl : payloads = [[1]] := List.perm_singleton.1 (Arrives.perm horders)
  refine ⟨front, ?_, hok fun _ => rfl⟩
  rcases front with _ | ⟨p, front⟩
  · exact Or.inl rfl
  · obtain ⟨rfl, hnil⟩ := List.cons_prefix_cons.1 hfront
    rw [List.prefix_nil.1 hnil]
    exact Or.inr rfl

end Plast
