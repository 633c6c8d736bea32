/-
# Every row is written exactly once

Every interleaving of the pipeline ends, and without an I/O failure the records in
the shards are those of the rows that encode, chunk after chunk, in some order
within each chunk (`pipeline_exactly_once`).

`Move` lists what one step can do, and three invariants follow from it: the caller
has done to the received payloads what `pretokenizeDataset` does (`Written`), it
returns the paths only when nothing is left behind (`Orderly`), and what has been
sent can be completed to all rows (`OnTrack`).  The last is carried by a lemma for
each move (`Advances`), which also says that the number of steps left falls.
-/

import Plast.Pretokenizer.Pipeline
import Plast.Pretokenizer.Shards
import Plast.Library.FanIn

namespace Plast

open Transition Machine FanIn

variable {ε δ E : Type}

/-! ### The loader of dataset files -/

/-- Draining a `ShardLoader` tries every file once, in order. -/
theorem ShardLoader.drains (getChunkedArray : String → PathBuf → Except E StringChunked)
    (files : List PathBuf) (column : String) :
    ∃ t, Drains (fun s y => ShardLoader.next getChunkedArray s = y) (ShardLoader.new files column)
      (files.map (getChunkedArray column)) t := by
  have hfrom : ∀ rest done, done ++ rest = files →
      Drains (fun s y => ShardLoader.next getChunkedArray s = y) ⟨files, column, done.length⟩
        (rest.map (getChunkedArray column)) ⟨files, column, files.length⟩ := by
    intro rest
    induction rest with
    | nil =>
      rintro done rfl
      exact .stop (by simp [next])
    | cons path rest ih =>
      rintro done rfl
      refine .item (t := ⟨done ++ path :: rest, column, done.length + 1⟩) (by simp [next]) ?_
      have := ih (done ++ [path]) (by simp)
      rwa [List.length_append] at this
  exact ⟨_, hfrom files [] rfl⟩

namespace Pipeline

/-! ### What one step can do -/

@[simp] theorem received_producer (host : WriterHost ε) (args : WriterArgs) (w : Writer)
    (payload : Payload) (sys : Pipeline ε δ) :
    (sys.received host args w payload).producer = sys.producer := by
  unfold received
  split <;> rfl

@[simp] theorem received_dataset (host : WriterHost ε) (args : WriterArgs) (w : Writer)
    (payload : Payload) (sys : Pipeline ε δ) :
    (sys.received host args w payload).dataset = sys.dataset := by
  unfold received
  split <;> rfl

@[simp] theorem received_channel (host : WriterHost ε) (args : WriterArgs) (w : Writer)
    (payload : Payload) (sys : Pipeline ε δ) :
    (sys.received host args w payload).channel = sys.channel := by
  unfold received
  split <;> rfl

variable (next : δ → Option (Except E StringChunked) × δ) (encode : String → Option Payload)
  (host : WriterHost ε) (args : WriterArgs)

/-- The moves of the threads. -/
inductive Move : Pipeline ε δ → Pipeline ε δ → Prop
  /-- The producer skips a chunk that failed to load. -/
  | skip {sys : Pipeline ε δ} {e : E} {dataset : δ} :
      sys.producer = .idle → next sys.dataset = (some (.error e), dataset) →
      Move sys { sys with dataset := dataset }
  /-- The producer starts a chunk. -/
  | load {sys : Pipeline ε δ} {shard : StringChunked} {dataset : δ} :
      sys.producer = .idle → next sys.dataset = (some (.ok shard), dataset) →
      Move sys { sys with dataset := dataset, producer := .tokenizing (shard.map .waiting) }
  /-- The producer exits. -/
  | exit {sys : Pipeline ε δ} {dataset : δ} :
      sys.producer = .idle → next sys.dataset = (none, dataset) →
      Move sys { sys with dataset := dataset, producer := .exited }
  /-- All closures of a chunk have returned. -/
  | join {sys : Pipeline ε δ} :
      sys.producer = .tokenizing [] → Move sys { sys with producer := .idle }
  /-- A row encodes. -/
  | encode {sys : Pipeline ε δ} {rows : List Row} {i : ℕ} {optText : Option String}
      {ids : Payload} :
      sys.producer = .tokenizing rows → rows[i]? = some (.waiting optText) →
      optText.bind encode = some ids →
      Move sys { sys with producer := .tokenizing (rows.set i (.sending ids)) }
  /-- A row is null or does not encode. -/
  | drop {sys : Pipeline ε δ} {rows : List Row} {i : ℕ} {optText : Option String} :
      sys.producer = .tokenizing rows → rows[i]? = some (.waiting optText) →
      optText.bind encode = none → Move sys (sys.rowDone rows i)
  /-- A send fails, since the receiver is gone. -/
  | discard {sys : Pipeline ε δ} {rows : List Row} {i : ℕ} {ids : Payload}
      {result : Except (Failure ε) (List PathBuf × Disk)} :
      sys.producer = .tokenizing rows → rows[i]? = some (.sending ids) →
      sys.caller = .returned result → Move sys (sys.rowDone rows i)
  /-- A send finds room. -/
  | send {sys : Pipeline ε δ} {rows : List Row} {i : ℕ} {ids : Payload} {w : Writer} :
      sys.producer = .tokenizing rows → rows[i]? = some (.sending ids) →
      sys.caller = .receiving w → sys.channel.HasRoom →
      Move sys ({ sys with channel := sys.channel.send ids }.rowDone rows i)
  /-- A send hands over to the waiting caller. -/
  | handOff {sys : Pipeline ε δ} {rows : List Row} {i : ℕ} {ids : Payload} {w : Writer} :
      sys.producer = .tokenizing rows → rows[i]? = some (.sending ids) →
      sys.caller = .receiving w → sys.channel.capacity = 0 →
      Move sys (({ sys with channel := sys.channel.handOff ids }.rowDone rows i).received host args
        w ids)
  /-- The caller receives and writes. -/
  | receive {sys : Pipeline ε δ} {w : Writer} {payload : Payload} {channel : Channel Payload} :
      sys.caller = .receiving w → sys.channel.recv? = some (payload, channel) →
      Move sys ({ sys with channel := channel }.received host args w payload)
  /-- The caller finds the channel empty and its senders gone. -/
  | finish {sys : Pipeline ε δ} {w : Writer} :
      sys.caller = .receiving w → sys.channel.queue = [] → sys.producer = .exited →
      Move sys { sys with caller := .returned (w.finish host) }

variable {next encode host args} {sys sys' : Pipeline ε δ}

theorem producerStep_move (h : sys.producerStep next = some sys') :
    Move next encode host args sys sys' := by
  unfold producerStep at h
  split at h
  · rename_i hp
    split at h
    · rename_i hnext
      exact Option.some.inj h ▸ .load hp hnext
    · rename_i hnext
      exact Option.some.inj h ▸ .skip hp hnext
    · rename_i hnext
      exact Option.some.inj h ▸ .exit hp hnext
  · rename_i hp
    exact Option.some.inj h ▸ .join hp
  · cases h
  · cases h

theorem sendStep_move {rows : List Row} {i : ℕ} {ids : Payload}
    (hp : sys.producer = .tokenizing rows) (hi : rows[i]? = some (.sending ids))
    (h : sys.sendStep host args rows i ids = some sys') : Move next encode host args sys sys' := by
  unfold sendStep at h
  split at h
  · rename_i hc
    exact Option.some.inj h ▸ .discard hp hi hc
  · rename_i hc
    split at h
    · rename_i hroom
      exact Option.some.inj h ▸ .send hp hi hc hroom
    · split at h
      · rename_i hcap
        exact Option.some.inj h ▸ .handOff hp hi hc hcap
      · cases h

theorem rowStep_move {i : ℕ} (h : sys.rowStep encode host args i = some sys') :
    Move next encode host args sys sys' := by
  unfold rowStep at h
  split at h
  · rename_i hp
    split at h
    · rename_i hi
      split at h
      · rename_i hids
        exact Option.some.inj h ▸ .encode hp hi hids
      · rename_i hids
        exact Option.some.inj h ▸ .drop hp hi hids
    · rename_i hi
      exact sendStep_move hp hi h
    · cases h
  · cases h

theorem callerStep_move (h : sys.callerStep host args = some sys') :
    Move next encode host args sys sys' := by
  unfold callerStep at h
  split at h
  · rename_i hc
    split at h
    · rename_i hrecv
      exact Option.some.inj h ▸ .receive hc hrecv
    · rename_i hrecv
      split at h
      · rename_i hp
        exact Option.some.inj h ▸ .finish hc (Channel.recv?_eq_none.1 hrecv) hp
      · cases h
  · cases h

/-- A step of any thread is one of the moves. -/
theorem step_move {i : PipelineThread} (h : step next encode host args i sys = some sys') :
    Move next encode host args sys sys' := by
  cases i with
  | producer => exact producerStep_move h
  | row i => exact rowStep_move h
  | caller => exact callerStep_move h

/-! ### The caller writes what it receives -/

/-- The caller has done to the received payloads what `pretokenizeDataset` does. -/
def Written (host : WriterHost ε) (args : WriterArgs) (disk : Disk) (sys : Pipeline ε δ) : Prop :=
  match sys.caller with
  | .receiving w => (host.io 0).result = .ok () ∧
      sys.channel.received.foldlM (Writer.receive host args) (Writer.start disk 1) = .ok w
  | .returned result => result = pretokenizeDataset host args disk sys.channel.received

variable {disk : Disk}

theorem Written.receiving {w : Writer} (h : sys.Written host args disk)
    (hc : sys.caller = .receiving w) : (host.io 0).result = .ok () ∧
      sys.channel.received.foldlM (Writer.receive host args) (Writer.start disk 1) = .ok w := by
  unfold Written at h
  rwa [hc] at h

theorem Written.returned {result : Except (Failure ε) (List PathBuf × Disk)}
    (h : sys.Written host args disk) (hc : sys.caller = .returned result) :
    result = pretokenizeDataset host args disk sys.channel.received := by
  unfold Written at h
  rwa [hc] at h

/-- Only the caller and what it has received matter. -/
theorem Written.congr (h : sys.Written host args disk) (hc : sys'.caller = sys.caller)
    (hr : sys'.channel.received = sys.channel.received) : sys'.Written host args disk := by
  unfold Written at h ⊢
  rwa [hc, hr]

/-- One payload more is received and written. -/
theorem Written.received {w : Writer} {payload : Payload} (h : sys.Written host args disk)
    (hc : sys.caller = .receiving w)
    (hr : sys'.channel.received = sys.channel.received ++ [payload]) :
    (sys'.received host args w payload).Written host args disk := by
  obtain ⟨hdir, hw⟩ := h.receiving hc
  have hrun : sys'.channel.received.foldlM (Writer.receive host args) (Writer.start disk 1) =
      w.receive host args payload := by
    rw [hr, List.foldlM_append, hw]
    exact bind_pure (w.receive host args payload)
  unfold Pipeline.received
  cases hres : w.receive host args payload with
  | ok w' => exact ⟨hdir, hrun.trans hres⟩
  | error f =>
    change _ = pretokenizeDataset host args disk sys'.channel.received
    simp only [pretokenizeDataset, hdir, hrun, hres, bind, Except.bind]

theorem Written.move (hm : Move next encode host args sys sys')
    (h : sys.Written host args disk) : sys'.Written host args disk := by
  cases hm with
  | skip => exact h.congr rfl rfl
  | load => exact h.congr rfl rfl
  | exit => exact h.congr rfl rfl
  | join => exact h.congr rfl rfl
  | encode => exact h.congr rfl rfl
  | drop => exact h.congr rfl rfl
  | discard => exact h.congr rfl rfl
  | send => exact h.congr rfl rfl
  | handOff _ _ hc => exact h.received hc rfl
  | receive hc hrecv => exact h.received hc (Channel.recv?_eq_some hrecv).2.1
  | finish hc =>
    obtain ⟨hdir, hw⟩ := h.receiving hc
    change _ = pretokenizeDataset host args disk sys.channel.received
    simp only [pretokenizeDataset, hdir, hw, bind, Except.bind]

/-! ### The channel and the end -/

/-- The queue is within its capacity, and a caller that has returned the paths has
left nothing behind: the producer has exited and the queue is empty. -/
structure Orderly (sys : Pipeline ε δ) : Prop where
  bounded : sys.channel.queue.length ≤ sys.channel.capacity
  ended : ∀ r, sys.caller = .returned (.ok r) → sys.producer = .exited ∧ sys.channel.queue = []

/-- A caller that has just received has not returned the paths. -/
theorem received_ne_ok {w : Writer} {payload : Payload} {r : List PathBuf × Disk} :
    (sys.received host args w payload).caller ≠ .returned (.ok r) := by
  unfold received
  split <;> simp

/-- While the producer has not exited, the order is kept by a step that leaves the
caller and the channel alone. -/
theorem Orderly.congr (h : sys.Orderly) (hp : sys.producer ≠ .exited)
    (hc : sys'.caller = sys.caller) (hch : sys'.channel = sys.channel) : sys'.Orderly := by
  refine ⟨hch ▸ h.bounded, fun r hr => ?_⟩
  exact absurd (h.ended r (hc ▸ hr)).1 hp

theorem Orderly.move (hm : Move next encode host args sys sys') (h : sys.Orderly) :
    sys'.Orderly := by
  cases hm with
  | skip hp => exact h.congr (by simp [hp]) rfl rfl
  | load hp => exact h.congr (by simp [hp]) rfl rfl
  | exit hp => exact h.congr (by simp [hp]) rfl rfl
  | join hp => exact h.congr (by simp [hp]) rfl rfl
  | encode hp => exact h.congr (by simp [hp]) rfl rfl
  | drop hp => exact h.congr (by simp [hp]) rfl rfl
  | discard hp => exact h.congr (by simp [hp]) rfl rfl
  | send hp _ hc hroom =>
    refine ⟨?_, fun r hr => absurd (hc.symm.trans hr) (by simp)⟩
    simpa [Channel.send, rowDone] using Nat.succ_le_of_lt hroom
  | handOff _ _ _ hcap =>
    refine ⟨?_, fun r hr => absurd hr received_ne_ok⟩
    simpa [Channel.handOff, rowDone] using h.bounded
  | receive _ hrecv =>
    obtain ⟨hq, -, hcap⟩ := Channel.recv?_eq_some hrecv
    have hle := h.bounded
    refine ⟨?_, fun r hr => absurd hr received_ne_ok⟩
    rw [hq, ← hcap, List.length_cons] at hle
    simpa using Nat.le_of_succ_le hle
  | finish _ hq hp => exact ⟨h.bounded, fun _ _ => ⟨hp, hq⟩⟩

/-! ### What is still to come -/

end Pipeline

/-- The ids that the closure of a row will send, if any. -/
def Row.ids? (encode : String → Option Payload) : Row → Option Payload
  | .waiting optText => optText.bind encode
  | .sending ids => some ids

/-- The steps that are left for a row and its message. -/
def Row.cost : Row → ℕ
  | .waiting _ => 3
  | .sending _ => 2

/-- The rows whose closure has not returned. -/
def Producer.rows : Producer → List Row
  | .tokenizing rows => rows
  | _ => []

/-- The steps that are left for the chunk in hand. -/
def Producer.cost : Producer → ℕ
  | .idle => 1
  | .tokenizing rows => 2 + (rows.map Row.cost).sum
  | .exited => 0

def Caller.cost : Caller ε → ℕ
  | .receiving _ => 1
  | .returned _ => 0

/-- The records of a chunk: its rows that are not null and encode. -/
def encodings (encode : String → Option Payload) (shard : StringChunked) : List Payload :=
  shard.filterMap fun optText => optText.bind encode

/-- The steps that a chunk not yet started takes. -/
def itemCost : Except E StringChunked → ℕ
  | .ok shard => 2 + 3 * shard.length
  | .error _ => 1

/-- The chunks among the items of a dataset. -/
def chunks (items : List (Except E StringChunked)) : List StringChunked :=
  items.filterMap Except.toOption

/-! Taking out row `i`, and replacing it. -/

section Rows

variable {rows : List Row} {i : ℕ} {row : Row}

theorem perm_eraseIdx (h : rows[i]? = some row) : rows.Perm (row :: rows.eraseIdx i) := by
  obtain ⟨hi, rfl⟩ := List.getElem?_eq_some_iff.1 h
  exact (List.getElem_cons_eraseIdx_perm hi).symm

theorem cost_eraseIdx (h : rows[i]? = some row) :
    (Producer.tokenizing rows).cost = row.cost + (Producer.tokenizing (rows.eraseIdx i)).cost := by
  have hsum := ((perm_eraseIdx h).map Row.cost).sum_nat
  rw [List.map_cons, List.sum_cons] at hsum
  rw [Producer.cost, Producer.cost, hsum, Nat.add_left_comm]

theorem ids_eraseIdx (encode : String → Option Payload) (h : rows[i]? = some row) :
    (rows.filterMap (Row.ids? encode)).Perm
      ((row.ids? encode).toList ++ (rows.eraseIdx i).filterMap (Row.ids? encode)) := by
  refine ((perm_eraseIdx h).filterMap _).trans (List.Perm.of_eq ?_)
  rw [List.filterMap_cons]
  cases row.ids? encode <;> rfl

theorem cost_set (h : rows[i]? = some row) (row' : Row) :
    (Producer.tokenizing (rows.set i row')).cost + row.cost =
      row'.cost + (Producer.tokenizing rows).cost := by
  have hperm : (rows.set i row').Perm (row' :: rows.eraseIdx i) :=
    List.set_perm_cons_eraseIdx (List.getElem?_eq_some_iff.1 h).1 row'
  have hsum := (hperm.map Row.cost).sum_nat
  rw [List.map_cons, List.sum_cons] at hsum
  rw [cost_eraseIdx h, Producer.cost, Producer.cost, hsum]
  omega

theorem ids_set (encode : String → Option Payload) (h : rows[i]? = some row) {row' : Row}
    (hrow : row'.ids? encode = row.ids? encode) :
    (rows.set i row').filterMap (Row.ids? encode) = rows.filterMap (Row.ids? encode) := by
  obtain ⟨hi, rfl⟩ := List.getElem?_eq_some_iff.1 h
  have hmap : (rows.set i row').map (Row.ids? encode) = rows.map (Row.ids? encode) := by
    rw [List.map_set, hrow]
    refine List.ext_getElem? fun j => ?_
    rcases eq_or_ne i j with rfl | hne
    · simp [hi]
    · simp [List.getElem?_set_ne hne]
  have hid : ∀ l : List Row, l.filterMap (Row.ids? encode) = (l.map (Row.ids? encode)).filterMap id :=
    fun l => by rw [List.filterMap_map]; rfl
  rw [hid, hmap, ← hid]

end Rows

namespace Pipeline

/-- What the producer will still take from its dataset. -/
def Remaining (next : δ → Option (Except E StringChunked) × δ) (sys : Pipeline ε δ)
    (rest : List (Except E StringChunked)) : Prop :=
  match sys.producer with
  | .exited => rest = []
  | _ => ∃ t, Drains (fun s y => next s = y) sys.dataset rest t

/-- The steps that are left. -/
def cost (rest : List (Except E StringChunked)) (sys : Pipeline ε δ) : ℕ :=
  (rest.map itemCost).sum + sys.producer.cost + sys.channel.queue.length + sys.caller.cost

/-- The payloads that the chunk in hand will still send. -/
def pending (encode : String → Option Payload) (sys : Pipeline ε δ) : List Payload :=
  sys.producer.rows.filterMap (Row.ids? encode)

/-- What has been sent can be completed to all rows. -/
def OnTrack (encode : String → Option Payload) (items rest : List (Except E StringChunked))
    (sys : Pipeline ε δ) : Prop :=
  FanIn.OnTrack ((chunks items).map (encodings encode)) sys.channel.sent (sys.pending encode)
    ((chunks rest).map (encodings encode))

variable {next : δ → Option (Except E StringChunked) × δ} {encode : String → Option Payload}
  {host : WriterHost ε} {args : WriterArgs} {sys sys' : Pipeline ε δ}
  {items rest : List (Except E StringChunked)}

theorem received_cost (host : WriterHost ε) (args : WriterArgs) (w : Writer) (payload : Payload)
    (sys : Pipeline ε δ) : (sys.received host args w payload).caller.cost ≤ 1 := by
  unfold received
  split
  · exact Nat.le_refl _
  · exact Nat.zero_le _

theorem Remaining.drains (h : sys.Remaining next rest) (hp : sys.producer ≠ .exited) :
    ∃ t, Drains (fun s y => next s = y) sys.dataset rest t := by
  unfold Remaining at h
  split at h
  · exact absurd ‹_› hp
  · exact h

theorem Remaining.of_drains {t : δ} (hp : sys.producer ≠ .exited)
    (h : Drains (fun s y => next s = y) sys.dataset rest t) : sys.Remaining next rest := by
  unfold Remaining
  split
  · exact absurd ‹_› hp
  · exact ⟨t, h⟩

theorem Remaining.congr (h : sys.Remaining next rest) (hp : sys.producer ≠ .exited)
    (hp' : sys'.producer ≠ .exited) (hd : sys'.dataset = sys.dataset) :
    sys'.Remaining next rest := by
  obtain ⟨t, ht⟩ := h.drains hp
  exact Remaining.of_drains hp' (hd ▸ ht)

/-- What a step owes: it lowers the cost, and it keeps what has been sent on track
unless it discards a message. -/
def Advances (next : δ → Option (Except E StringChunked) × δ) (encode : String → Option Payload)
    (rest : List (Except E StringChunked)) (sys sys' : Pipeline ε δ) : Prop :=
  ∃ rest', sys'.Remaining next rest' ∧ cost rest' sys' < cost rest sys ∧
    ((∀ result, sys.caller = .returned result → sys.producer = .exited) →
      ∀ items, sys.OnTrack encode items rest → sys'.OnTrack encode items rest')

theorem advances_skip {e : E} {dataset : δ} (h : sys.Remaining next rest)
    (hp : sys.producer = .idle) (hnext : next sys.dataset = (some (.error e), dataset)) :
    sys.Advances next encode rest { sys with dataset := dataset } := by
  obtain ⟨t, hd⟩ := h.drains (by simp [hp])
  obtain ⟨rest', rfl, hd'⟩ := hd.of_some hnext
  refine ⟨rest', .of_drains (by simp [hp]) hd', ?_, fun _ _ ht => ht⟩
  simp [cost, itemCost]

theorem advances_load {shard : StringChunked} {dataset : δ} (h : sys.Remaining next rest)
    (hp : sys.producer = .idle) (hnext : next sys.dataset = (some (.ok shard), dataset)) :
    sys.Advances next encode rest
      { sys with dataset := dataset, producer := .tokenizing (shard.map .waiting) } := by
  obtain ⟨t, hd⟩ := h.drains (by simp [hp])
  obtain ⟨rest', rfl, hd'⟩ := hd.of_some hnext
  refine ⟨rest', .of_drains (by simp) hd', ?_, fun _ _ ht => ?_⟩
  · have hrows : ((shard.map Row.waiting).map Row.cost).sum = 3 * shard.length := by
      simp [Function.comp_def, Row.cost, Nat.mul_comm]
    simp only [cost, hp, Producer.cost, hrows, List.map_cons, List.sum_cons, itemCost]
    omega
  · have hids : (shard.map Row.waiting).filterMap (Row.ids? encode) = encodings encode shard := by
      rw [List.filterMap_map]
      rfl
    simp only [OnTrack, pending, hp, Producer.rows, hids] at ht ⊢
    exact ht.next

theorem advances_exit {dataset : δ} (h : sys.Remaining next rest) (hp : sys.producer = .idle)
    (hnext : next sys.dataset = (none, dataset)) :
    sys.Advances next encode rest { sys with dataset := dataset, producer := .exited } := by
  obtain ⟨t, hd⟩ := h.drains (by simp [hp])
  obtain rfl := hd.of_none hnext
  refine ⟨[], rfl, ?_, fun _ _ ht => ?_⟩
  · simp [cost, hp, Producer.cost]
  · simp only [OnTrack, pending, hp, Producer.rows] at ht ⊢
    exact ht

theorem advances_join (h : sys.Remaining next rest) (hp : sys.producer = .tokenizing []) :
    sys.Advances next encode rest { sys with producer := .idle } := by
  refine ⟨rest, h.congr (by simp [hp]) (by simp) rfl, ?_, fun _ _ ht => ?_⟩
  · simp [cost, hp, Producer.cost]
  · simp only [OnTrack, pending, hp, Producer.rows] at ht ⊢
    exact ht

/-- A step of a closure: the rows, the channel and the caller change. -/
theorem advances_row {rows rows' : List Row} (h : sys.Remaining next rest)
    (hp : sys.producer = .tokenizing rows) (hp' : sys'.producer = .tokenizing rows')
    (hd : sys'.dataset = sys.dataset)
    (hcost : (Producer.tokenizing rows').cost + sys'.channel.queue.length + sys'.caller.cost <
      (Producer.tokenizing rows).cost + sys.channel.queue.length + sys.caller.cost)
    (htrack : (∀ result, sys.caller ≠ .returned result) → ∀ all chunks,
      FanIn.OnTrack all sys.channel.sent (rows.filterMap (Row.ids? encode)) chunks →
        FanIn.OnTrack all sys'.channel.sent (rows'.filterMap (Row.ids? encode)) chunks) :
    sys.Advances next encode rest sys' := by
  refine ⟨rest, h.congr (by simp [hp]) (by simp [hp']) hd, ?_, fun hlive items ht => ?_⟩
  · simp only [cost, hp, hp']
    omega
  · simp only [OnTrack, pending, hp, hp', Producer.rows] at ht ⊢
    exact htrack (fun result hc => by simpa [hp] using hlive result hc) _ _ ht

theorem advances_encode {rows : List Row} {i : ℕ} {optText : Option String} {ids : Payload}
    (h : sys.Remaining next rest) (hp : sys.producer = .tokenizing rows)
    (hi : rows[i]? = some (.waiting optText)) (hids : optText.bind encode = some ids) :
    sys.Advances next encode rest { sys with producer := .tokenizing (rows.set i (.sending ids)) } := by
  refine advances_row h hp rfl rfl ?_ fun _ all chunks ht => ?_
  · have hcost := cost_set hi (.sending ids)
    simp only [Row.cost] at hcost
    dsimp only
    omega
  · rwa [ids_set encode hi (show (Row.sending ids).ids? encode = _ from hids.symm)]

theorem advances_drop {rows : List Row} {i : ℕ} {optText : Option String}
    (h : sys.Remaining next rest) (hp : sys.producer = .tokenizing rows)
    (hi : rows[i]? = some (.waiting optText)) (hids : optText.bind encode = none) :
    sys.Advances next encode rest (sys.rowDone rows i) := by
  refine advances_row h hp rfl rfl ?_ fun _ all chunks ht => ?_
  · have hcost := cost_eraseIdx hi
    simp only [Row.cost] at hcost
    simp only [rowDone]
    omega
  · have hrows := ids_eraseIdx encode hi
    simp only [Row.ids?, hids, Option.toList_none, List.nil_append] at hrows
    exact ht.of_perm hrows.symm

theorem advances_discard {rows : List Row} {i : ℕ} {ids : Payload}
    {result : Except (Failure ε) (List PathBuf × Disk)} (h : sys.Remaining next rest)
    (hp : sys.producer = .tokenizing rows) (hi : rows[i]? = some (.sending ids))
    (hc : sys.caller = .returned result) : sys.Advances next encode rest (sys.rowDone rows i) := by
  refine advances_row h hp rfl rfl ?_ fun hlive => absurd hc (hlive result)
  have hcost := cost_eraseIdx hi
  simp only [Row.cost] at hcost
  simp only [rowDone]
  omega

theorem advances_send {rows : List Row} {i : ℕ} {ids : Payload} (h : sys.Remaining next rest)
    (hp : sys.producer = .tokenizing rows) (hi : rows[i]? = some (.sending ids)) :
    sys.Advances next encode rest
      ({ sys with channel := sys.channel.send ids }.rowDone rows i) := by
  refine advances_row h hp rfl rfl ?_ fun _ all chunks ht => ?_
  · have hcost := cost_eraseIdx hi
    simp only [Row.cost] at hcost
    simp only [rowDone, Channel.send, List.length_append, List.length_singleton]
    omega
  · simp only [rowDone, Channel.sent_send]
    exact ht.send (ids_eraseIdx encode hi)

theorem advances_handOff {rows : List Row} {i : ℕ} {ids : Payload} {w : Writer}
    (h : sys.Remaining next rest) (hp : sys.producer = .tokenizing rows)
    (hi : rows[i]? = some (.sending ids)) (hc : sys.caller = .receiving w)
    (hq : sys.channel.queue = []) :
    sys.Advances next encode rest
      (({ sys with channel := sys.channel.handOff ids }.rowDone rows i).received host args w
        ids) := by
  refine advances_row h hp (received_producer ..) (received_dataset ..) ?_ fun _ all chunks ht => ?_
  · have hcost := cost_eraseIdx hi
    simp only [Row.cost] at hcost
    have hcaller := received_cost host args w ids
      ({ sys with channel := sys.channel.handOff ids }.rowDone rows i)
    simp only [received_channel, rowDone, hc, Caller.cost, Channel.handOff] at hcaller ⊢
    omega
  · simp only [received_channel, rowDone, Channel.sent_handOff hq]
    exact ht.send (ids_eraseIdx encode hi)

theorem advances_receive {w : Writer} {payload : Payload} {channel : Channel Payload}
    (h : sys.Remaining next rest) (hc : sys.caller = .receiving w)
    (hrecv : sys.channel.recv? = some (payload, channel)) :
    sys.Advances next encode rest
      ({ sys with channel := channel }.received host args w payload) := by
  obtain ⟨hq, -, -⟩ := Channel.recv?_eq_some hrecv
  refine ⟨rest, ?_, ?_, fun _ _ ht => ?_⟩
  · simpa only [Remaining, received_producer, received_dataset] using h
  · have hcaller := received_cost host args w payload { sys with channel := channel }
    simp only [cost, received_producer, received_channel, hq, hc, Caller.cost,
      List.length_cons] at hcaller ⊢
    omega
  · simpa only [OnTrack, pending, received_producer, received_channel,
      Channel.sent_recv hrecv] using ht

theorem advances_finish {w : Writer} (h : sys.Remaining next rest)
    (hc : sys.caller = .receiving w) :
    sys.Advances next encode rest { sys with caller := .returned (w.finish host) } := by
  refine ⟨rest, h, ?_, fun _ _ ht => ht⟩
  simp [cost, hc, Caller.cost]

/-- Every move advances. -/
theorem Move.advances (hm : Move next encode host args sys sys') (ho : sys.Orderly)
    (h : sys.Remaining next rest) : sys.Advances next encode rest sys' := by
  cases hm with
  | skip hp hnext => exact advances_skip h hp hnext
  | load hp hnext => exact advances_load h hp hnext
  | exit hp hnext => exact advances_exit h hp hnext
  | join hp => exact advances_join h hp
  | encode hp hi hids => exact advances_encode h hp hi hids
  | drop hp hi hids => exact advances_drop h hp hi hids
  | discard hp hi hc => exact advances_discard h hp hi hc
  | send hp hi => exact advances_send h hp hi
  | handOff hp hi hc hcap =>
    exact advances_handOff h hp hi hc
      (List.eq_nil_of_length_eq_zero (Nat.le_zero.1 (hcap ▸ ho.bounded)))
  | receive hc hrecv => exact advances_receive h hc hrecv
  | finish hc => exact advances_finish h hc

/-! ### Every run -/

/-- A caller that has returned stays so. -/
theorem returned_of_move (hm : Move next encode host args sys sys')
    {result : Except (Failure ε) (List PathBuf × Disk)} (h : sys.caller = .returned result) :
    sys'.caller = .returned result := by
  cases hm with
  | handOff _ _ hc => cases hc.symm.trans h
  | receive hc => cases hc.symm.trans h
  | finish hc => cases hc.symm.trans h
  | _ => exact h

/-- The invariant of all interleavings. -/
structure Sound (next : δ → Option (Except E StringChunked) × δ)
    (encode : String → Option Payload) (host : WriterHost ε) (args : WriterArgs) (disk : Disk)
    (items : List (Except E StringChunked)) (sys : Pipeline ε δ) : Prop where
  orderly : sys.Orderly
  written : sys.Written host args disk
  onTrack : ∃ rest, sys.Remaining next rest ∧
    ((∀ f, sys.caller ≠ .returned (.error f)) → sys.OnTrack encode items rest)

theorem Sound.move {disk : Disk} (hm : Move next encode host args sys sys')
    (h : sys.Sound next encode host args disk items) :
    sys'.Sound next encode host args disk items := by
  obtain ⟨horderly, hwritten, rest, hrest, htrack⟩ := h
  obtain ⟨rest', hrest', -, hkeep⟩ := hm.advances horderly hrest
  refine ⟨horderly.move hm, hwritten.move hm, rest', hrest', fun hfine => ?_⟩
  have hfine₀ : ∀ f, sys.caller ≠ .returned (.error f) := fun f hf =>
    hfine f (returned_of_move hm hf)
  refine hkeep (fun result hc => ?_) items (htrack hfine₀)
  cases result with
  | ok r => exact (horderly.ended r hc).1
  | error f => exact absurd hc (hfine₀ f)

theorem start_sound (encode : String → Option Payload) (host : WriterHost ε) (args : WriterArgs)
    (disk : Disk) {dataset t : δ} (hdrain : Drains (fun s y => next s = y) dataset items t)
    (writeQueueSize : ℕ) :
    (start host args disk dataset writeQueueSize).Sound next encode host args disk items := by
  unfold start
  cases hdir : (host.io 0).result with
  | ok u =>
    refine ⟨⟨Nat.zero_le _, fun r hr => by cases hr⟩, ⟨hdir, rfl⟩, items, ⟨t, hdrain⟩, fun _ => ?_⟩
    exact OnTrack.start _
  | error e =>
    refine ⟨⟨Nat.zero_le _, fun r hr => by cases hr⟩, ?_, [], rfl, fun hfine => ?_⟩
    · change _ = pretokenizeDataset host args disk []
      simp only [pretokenizeDataset, hdir]
    · exact absurd rfl (hfine _)

/-- While the caller waits at an empty queue, the closure of a row can move: a send
can only block on a channel without capacity, and there it hands over. -/
theorem row_progress (encode : String → Option Payload) (host : WriterHost ε) (args : WriterArgs)
    {w : Writer} {rows : List Row} {i : ℕ} {row : Row} (hc : sys.caller = .receiving w)
    (hq : sys.channel.queue = []) (hp : sys.producer = .tokenizing rows)
    (hi : rows[i]? = some row) : ∃ sys', sys.rowStep encode host args i = some sys' := by
  cases row with
  | waiting optText =>
    simp only [rowStep, hp, hi]
    cases optText.bind encode with
    | none => exact ⟨_, rfl⟩
    | some ids => exact ⟨_, rfl⟩
  | sending ids =>
    simp only [rowStep, hp, hi, sendStep, hc]
    by_cases hroom : sys.channel.HasRoom
    · exact ⟨_, if_pos hroom⟩
    · have hcap : sys.channel.capacity = 0 := by
        rw [Channel.HasRoom, hq] at hroom
        simpa using hroom
      exact ⟨_, (if_neg hroom).trans (if_pos hcap)⟩

/-- Until the function has returned, some thread can move. -/
theorem progress (next : δ → Option (Except E StringChunked) × δ)
    (encode : String → Option Payload) (host : WriterHost ε) (args : WriterArgs)
    (sys : Pipeline ε δ) :
    sys.Returned ∨ ∃ i sys', step next encode host args i sys = some sys' := by
  cases hc : sys.caller with
  | returned result => exact Or.inl ⟨result, hc⟩
  | receiving w =>
    refine Or.inr ?_
    cases hrecv : sys.channel.recv? with
    | some found =>
      refine ⟨.caller, ?_⟩
      simp only [step, callerStep, hc, hrecv]
      exact ⟨_, rfl⟩
    | none =>
      cases hp : sys.producer with
      | exited =>
        refine ⟨.caller, ?_⟩
        simp only [step, callerStep, hc, hrecv, hp]
        exact ⟨_, rfl⟩
      | idle =>
        refine ⟨.producer, ?_⟩
        simp only [step, producerStep, hp]
        split <;> exact ⟨_, rfl⟩
      | tokenizing rows =>
        rcases rows with _ | ⟨row, rows⟩
        · refine ⟨.producer, ?_⟩
          simp only [step, producerStep, hp]
          exact ⟨_, rfl⟩
        · exact ⟨.row 0, row_progress encode host args hc (Channel.recv?_eq_none.1 hrecv) hp rfl⟩

/-- Every interleaving is finite and ends with the function returning. -/
theorem Sound.completes {disk : Disk} (h : sys.Sound next encode host args disk items) :
    Completes (step next encode host args) Returned sys := by
  obtain ⟨horderly, -, rest, hrest, -⟩ := h
  refine Completes.of_rank (R := fun n sys => sys.Orderly ∧ ∃ rest, sys.Remaining next rest ∧
    cost rest sys = n) ?_ (fun _ sys _ => progress next encode host args sys)
    ⟨horderly, rest, hrest, rfl⟩
  rintro n i s t ⟨horderly, rest, hrest, rfl⟩ hstep
  have hm := step_move hstep
  obtain ⟨rest', hrest', hless, -⟩ := hm.advances horderly hrest
  exact ⟨_, hless, horderly.move hm, rest', hrest', rfl⟩

end Pipeline

/-- **Every row is written exactly once.**  For every dataset and tokenizer, every
interleaving of the threads ends with `pretokenize_dataset` returning, and without
an I/O failure it returns shards that hold the records of the rows that encode: the
chunks that load in dataset order, the rows of each in some order. -/
theorem pipeline_exactly_once {next : δ → Option (Except E StringChunked) × δ} {dataset t : δ}
    {items : List (Except E StringChunked)}
    (hdrain : Drains (fun s y => next s = y) dataset items t) (encode : String → Option Payload)
    {host : WriterHost ε} (hio : ∀ k, (host.io k).result = .ok ()) (args : WriterArgs) (disk : Disk)
    (writeQueueSize : ℕ) :
    Completes (Pipeline.step next encode host args) Pipeline.Returned
        (Pipeline.start host args disk dataset writeQueueSize) ∧
      ∀ sys result, Reaches (Pipeline.step next encode host args)
          (Pipeline.start host args disk dataset writeQueueSize) sys →
        sys.caller = .returned result →
        ∃ cs : List (List Payload),
          List.Forall₂ List.Perm cs ((chunks items).map (encodings encode)) ∧
          sys.channel.received = cs.flatten ∧
          ∃ paths disk' groups, result = .ok (paths, disk') ∧
            ShardFiles host.order args cs.flatten paths disk' groups := by
  have hstart := Pipeline.start_sound encode host args disk hdrain writeQueueSize
  refine ⟨hstart.completes, fun sys result hreach hc => ?_⟩
  obtain ⟨horderly, hwritten, rest, hrest, htrack⟩ := hreach.invariant
    (fun i s t hs hst => hs.move (Pipeline.step_move hst)) hstart
  have hresult := hwritten.returned hc
  obtain ⟨v, hv, hfiled⟩ := pretokenizeDataset_eq hio args disk sys.channel.received
  have hok := hc.trans (congrArg Caller.returned (hresult.trans hv))
  -- the producer has exited and the queue is empty, so nothing is left to come
  obtain ⟨hp, hq⟩ := horderly.ended _ hok
  have htrack := htrack fun f hf => by cases hf.symm.trans hok
  unfold Pipeline.Remaining at hrest
  rw [hp] at hrest
  subst hrest
  have harrives : Arrives ((chunks items).map (encodings encode)) sys.channel.received := by
    have hsent : sys.channel.sent = sys.channel.received := by
      rw [Channel.sent, hq, List.append_nil]
    simp only [Pipeline.OnTrack, Pipeline.pending, hp, hsent] at htrack
    exact htrack.arrives
  obtain ⟨cs, hcs, hflat⟩ := harrives
  have hfiles := hfiled.shardFiles
  rw [hflat] at hfiles
  exact ⟨cs, hcs, hflat, _, _, _, hresult.trans hv, hfiles⟩

/-- Three files of which the second does not load, with one row each that encodes, and
a queue without capacity. -/
theorem pipeline_exactly_once_three :
    let read : String → PathBuf → Except Unit StringChunked := fun _ path =>
      if path = "b.csv" then .error () else .ok [some path, none, some ""]
    let encode : String → Option Payload := fun text =>
      if text = "" then none else some [UInt32.ofNat text.length]
    let host : WriterHost Unit := WriterHost.reliable .little
    let step := Pipeline.step (ShardLoader.next read) encode host ⟨"out", 16, 7⟩
    let start := Pipeline.start host ⟨"out", 16, 7⟩ (fun _ => none)
      (ShardLoader.new ["a.csv", "b.csv", "c.parquet"] "text") 0
    Completes step Pipeline.Returned start ∧
      ∀ sys result, Reaches step start sys → sys.caller = .returned result →
        ∃ paths disk' groups, result = .ok (paths, disk') ∧
          ShardFiles .little ⟨"out", 16, 7⟩ [[5], [9]] paths disk' groups := by
  intro read encode host step start
  obtain ⟨t, ht⟩ := ShardLoader.drains read ["a.csv", "b.csv", "c.parquet"] "text"
  obtain ⟨hcompletes, hruns⟩ := pipeline_exactly_once ht encode
    (show ∀ k, (host.io k).result = .ok () from fun _ => rfl) ⟨"out", 16, 7⟩ (fun _ => none) 0
  refine ⟨hcompletes, fun sys result hreach hc => ?_⟩
  obtain ⟨cs, hcs, -, paths, disk', groups, hresult, hfiles⟩ := hruns sys result hreach hc
  have hchunks : (chunks (["a.csv", "b.csv", "c.parquet"].map (read "text"))).map
      (encodings encode) = [[[5]], [[9]]] := by
    decide +kernel
  rw [hchunks] at hcs
  have hflat : cs.flatten = [[5], [9]] := by
    rcases hcs with _ | ⟨h₁, _ | ⟨h₂, _ | _⟩⟩
    rw [List.perm_singleton.1 h₁, List.perm_singleton.1 h₂]
    rfl
  exact ⟨paths, disk', groups, hresult, hflat ▸ hfiles⟩

end Plast
