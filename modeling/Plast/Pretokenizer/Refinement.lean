/-
# The concurrent pretokenizer refines the sequential one

`pretokenize_dataset` runs a producer, one closure per row and the writer at the same
time.  What it may return is exactly what the writer alone returns for the rows that
encode, handed over chunk after chunk and in any order within a chunk
(`pipeline_returns_iff`).  That holds for every answer of the operating system: a run
that fails, fails like the writer alone on one of those orders, so what is known of a
failing writer (`Survives`) is known of the concurrent function.

For the one inclusion, what the caller has received can be completed to such an order
until the function returns (`Pipeline.Foreseen`).  For the other, each row is encoded,
sent and received before the next (`Pipeline.Alone`, `Pipeline.alone_chunk`).

After the function has returned the producer goes on, with sends that fail, until the
dataset is used up: no thread stays behind (`Pipeline.Quiet`).
-/

import Plast.Pretokenizer.ExactlyOnce
import Plast.Pretokenizer.Failure

namespace Plast

open Transition Machine FanIn

variable {ε δ E : Type}

/-- The closure of the row is in `send`. -/
def Row.inSend : Row → Bool
  | .waiting _ => false
  | .sending _ => true

/-- How many closures are in `send`. -/
def Producer.inSend (producer : Producer) : ℕ := producer.rows.countP Row.inSend

/-- The orders in which the records of a dataset may arrive. -/
def Orders (encode : String → Option Payload) (items : List (Except E StringChunked))
    (payloads : List Payload) : Prop :=
  Arrives ((chunks items).map (encodings encode)) payloads

namespace Pipeline

variable {next : δ → Option (Except E StringChunked) × δ} {encode : String → Option Payload}
  {host : WriterHost ε} {args : WriterArgs} {disk : Disk} {sys sys' : Pipeline ε δ}
  {items rest : List (Except E StringChunked)}

/-! ### Every thread ends -/

/-- The function has returned, and the producer has exited. -/
def Quiet (sys : Pipeline ε δ) : Prop := sys.Returned ∧ sys.producer = .exited

/-- Until every thread has ended, some thread can move. -/
theorem progress_quiet (next : δ → Option (Except E StringChunked) × δ)
    (encode : String → Option Payload) (host : WriterHost ε) (args : WriterArgs)
    (sys : Pipeline ε δ) :
    sys.Quiet ∨ ∃ i sys', step next encode host args i sys = some sys' := by
  rcases progress next encode host args sys with ⟨result, hc⟩ | hstep
  · cases hp : sys.producer with
    | exited => exact Or.inl ⟨⟨result, hc⟩, hp⟩
    | idle =>
      refine Or.inr ⟨.producer, ?_⟩
      simp only [step, producerStep, hp]
      split <;> exact ⟨_, rfl⟩
    | tokenizing rows =>
      cases rows with
      | nil =>
        refine Or.inr ⟨.producer, ?_⟩
        simp only [step, producerStep, hp]
        exact ⟨_, rfl⟩
      | cons row rows =>
        refine Or.inr ⟨.row 0, ?_⟩
        cases row with
        | waiting optText =>
          simp only [step, rowStep, hp, List.getElem?_cons_zero]
          cases optText.bind encode <;> exact ⟨_, rfl⟩
        | sending ids =>
          simp only [step, rowStep, hp, List.getElem?_cons_zero, sendStep, hc]
          exact ⟨_, rfl⟩
  · exact Or.inr hstep

/-- Every interleaving is finite and ends with no thread left. -/
theorem Sound.quiet (h : sys.Sound next encode host args disk items) :
    Completes (step next encode host args) Quiet sys := by
  obtain ⟨horderly, -, rest, hrest, -⟩ := h
  refine Completes.of_rank (R := fun n sys => sys.Orderly ∧ ∃ rest, sys.Remaining next rest ∧
    cost rest sys = n) ?_ (fun _ sys _ => progress_quiet next encode host args sys)
    ⟨horderly, rest, hrest, rfl⟩
  rintro n i s t ⟨horderly, rest, hrest, rfl⟩ hstep
  have hm := step_move hstep
  obtain ⟨rest', hrest', hless, -⟩ := hm.advances horderly hrest
  exact ⟨_, hless, horderly.move hm, rest', hrest', rfl⟩

/-! ### What is returned was to be returned -/

/-- What is on track can be completed to an order of all records. -/
theorem OnTrack.completes (h : sys.OnTrack encode items rest) :
    ∃ payloads, Orders encode items payloads ∧ sys.channel.received <+: payloads := by
  refine ⟨_, h (sys.pending encode) _ (List.Perm.refl _) ⟨_, List.forall₂_same.2
    fun _ _ => List.Perm.refl _, rfl⟩, ?_⟩
  rw [Channel.sent, List.append_assoc, List.append_assoc]
  exact List.prefix_append _ _

/-- A payload that cannot be written makes the run fail, whatever would come after it. -/
theorem pretokenizeDataset_of_front {w : Writer} {payload : Payload} {f : Failure ε}
    {received payloads : List Payload} (hdir : (host.io 0).result = .ok ())
    (hfold : received.foldlM (Writer.receive host args) (Writer.start disk 1) = .ok w)
    (hfail : w.receive host args payload = .error f) (hpre : received ++ [payload] <+: payloads) :
    pretokenizeDataset host args disk payloads = .error f := by
  obtain ⟨later, rfl⟩ := hpre
  unfold pretokenizeDataset
  rw [hdir, List.foldlM_append, List.foldlM_append, hfold]
  simp only [List.foldlM_cons, bind, Except.bind, hfail]

/-- What the function has returned, it returns for one of the orders. -/
def Foreseen (orders : List Payload → Prop) (host : WriterHost ε) (args : WriterArgs)
    (disk : Disk) (sys : Pipeline ε δ) : Prop :=
  ∀ result, sys.caller = .returned result →
    ∃ payloads, orders payloads ∧ result = pretokenizeDataset host args disk payloads

variable {orders : List Payload → Prop}

/-- The caller returns after a payload it could not write. -/
theorem foreseen_received {w : Writer} {payload : Payload} {received : List Payload}
    (hdir : (host.io 0).result = .ok ())
    (hfold : received.foldlM (Writer.receive host args) (Writer.start disk 1) = .ok w)
    (hsent : ∃ payloads, orders payloads ∧ received ++ [payload] <+: payloads) :
    (sys.received host args w payload).Foreseen orders host args disk := by
  intro result hresult
  obtain ⟨payloads, horder, hpre⟩ := hsent
  unfold Pipeline.received at hresult
  cases hw : w.receive host args payload with
  | ok w' =>
    rw [hw] at hresult
    cases hresult
  | error f =>
    rw [hw] at hresult
    obtain rfl := Caller.returned.inj hresult
    exact ⟨payloads, horder, (pretokenizeDataset_of_front hdir hfold hw hpre).symm⟩

/-- A step that leaves the caller alone leaves what it has returned alone. -/
theorem Foreseen.congr (h : sys.Foreseen orders host args disk)
    (hc : sys'.caller = sys.caller) : sys'.Foreseen orders host args disk :=
  fun result hresult => h result (hc.symm.trans hresult)

/-- What is returned is foreseen if, while the caller receives, what it has received can be
completed to one of the orders. -/
theorem Foreseen.move (hm : Move next encode host args sys sys')
    (hw : sys.Written host args disk)
    (htrack : ∀ w, sys.caller = .receiving w → ∃ payloads, orders payloads ∧
      sys'.channel.received <+: payloads)
    (hall : sys.producer = .exited → sys.channel.queue = [] → ∀ w, sys.caller = .receiving w →
      orders sys.channel.received)
    (h : sys.Foreseen orders host args disk) : sys'.Foreseen orders host args disk := by
  cases hm with
  | skip => exact h.congr rfl
  | load => exact h.congr rfl
  | exit => exact h.congr rfl
  | join => exact h.congr rfl
  | encode => exact h.congr rfl
  | drop => exact h.congr rfl
  | discard => exact h.congr rfl
  | send => exact h.congr rfl
  | @handOff rows i ids w hp hi hc =>
    obtain ⟨hdir, hfold⟩ := hw.receiving hc
    have hsent := htrack w hc
    rw [received_channel] at hsent
    exact foreseen_received hdir hfold hsent
  | @receive w payload channel hc hrecv =>
    obtain ⟨hdir, hfold⟩ := hw.receiving hc
    obtain ⟨-, hreceived, -⟩ := Channel.recv?_eq_some hrecv
    have hsent := htrack w hc
    rw [received_channel, hreceived] at hsent
    exact foreseen_received hdir hfold hsent
  | @finish w hc hq hp =>
    intro result hresult
    obtain rfl := Caller.returned.inj hresult
    obtain ⟨hdir, hfold⟩ := hw.receiving hc
    refine ⟨sys.channel.received, hall hp hq w hc, ?_⟩
    unfold pretokenizeDataset
    rw [hdir]
    exact (congrArg (· >>= (Writer.finish host ·)) hfold).symm

/-- A caller that receives is on track before the step, and after it. -/
theorem Sound.track (hs : sys.Sound next encode host args disk items)
    (hm : Move next encode host args sys sys') {w : Writer} (hc : sys.caller = .receiving w) :
    ∃ rest, sys'.Remaining next rest ∧ sys'.OnTrack encode items rest := by
  obtain ⟨rest, hrest, hfine⟩ := hs.onTrack
  obtain ⟨rest', hrest', -, hkeep⟩ := hm.advances hs.orderly hrest
  refine ⟨rest', hrest', hkeep (fun result hr => ?_) items (hfine fun f hf => ?_)⟩
  · cases hc.symm.trans hr
  · cases hc.symm.trans hf

theorem Remaining.eq_nil (h : sys.Remaining next rest) (hp : sys.producer = .exited) :
    rest = [] := by
  unfold Pipeline.Remaining at h
  simpa only [hp] using h

/-- After the producer has exited, what has been sent is all. -/
theorem OnTrack.all (h : sys.OnTrack encode items rest) (hrest : sys.Remaining next rest)
    (hp : sys.producer = .exited) (hq : sys.channel.queue = []) :
    Orders encode items sys.channel.received := by
  obtain rfl := hrest.eq_nil hp
  simp only [Pipeline.OnTrack, Pipeline.pending, hp, Channel.sent, hq, List.append_nil] at h
  exact h.arrives

theorem Sound.foreseen (hs : sys.Sound next encode host args disk items)
    (hm : Move next encode host args sys sys')
    (h : sys.Foreseen (Orders encode items) host args disk) :
    sys'.Foreseen (Orders encode items) host args disk := by
  refine Foreseen.move hm hs.written (fun w hc => ?_) (fun hp hq w hc => ?_) h
  · obtain ⟨rest, -, htrack⟩ := hs.track hm hc
    exact htrack.completes
  · obtain ⟨rest, hrest, hfine⟩ := hs.onTrack
    refine (hfine fun f hf => ?_).all hrest hp hq
    cases hc.symm.trans hf

/-! ### What is to be returned can be -/

/-- Every move is a step of some thread. -/
theorem Move.fires (hm : Move next encode host args sys sys') :
    Fires (step next encode host args) sys sys' := by
  cases hm with
  | skip hp hnext => exact ⟨.producer, by simp only [step, producerStep, hp, hnext]⟩
  | load hp hnext => exact ⟨.producer, by simp only [step, producerStep, hp, hnext]⟩
  | exit hp hnext => exact ⟨.producer, by simp only [step, producerStep, hp, hnext]⟩
  | join hp => exact ⟨.producer, by simp only [step, producerStep, hp]⟩
  | @encode rows i optText ids hp hi hids =>
    exact ⟨.row i, by simp only [step, rowStep, hp, hi, hids]⟩
  | @drop rows i optText hp hi hids => exact ⟨.row i, by simp only [step, rowStep, hp, hi, hids]⟩
  | @discard rows i ids result hp hi hc =>
    exact ⟨.row i, by simp only [step, rowStep, hp, hi, sendStep, hc]⟩
  | @send rows i ids w hp hi hc hroom =>
    refine ⟨.row i, ?_⟩
    simp only [step, rowStep, hp, hi, sendStep, hc]
    exact if_pos hroom
  | @handOff rows i ids w hp hi hc hcap =>
    refine ⟨.row i, ?_⟩
    have hroom : ¬sys.channel.HasRoom := by
      rw [Channel.HasRoom, hcap]
      omega
    simp only [step, rowStep, hp, hi, sendStep, hc]
    exact (if_neg hroom).trans (if_pos hcap)
  | receive hc hrecv => exact ⟨.caller, by simp only [step, callerStep, hc, hrecv]⟩
  | finish hc hq hp =>
    exact ⟨.caller, by simp only [step, callerStep, hc, Channel.recv?_eq_none.2 hq, hp]⟩

/-- Where the caller stands after the result of writing a payload. -/
def after : Except (Failure ε) Writer → Caller ε
  | .ok w => .receiving w
  | .error f => .returned (.error f)

@[simp] theorem received_caller (host : WriterHost ε) (args : WriterArgs) (w : Writer)
    (payload : Payload) (sys : Pipeline ε δ) :
    (sys.received host args w payload).caller = after (w.receive host args payload) := by
  unfold received
  cases w.receive host args payload <;> rfl

theorem inSend_eraseIdx {rows : List Row} {i : ℕ} {row : Row} (hi : rows[i]? = some row) :
    (Producer.tokenizing rows).inSend =
      (Producer.tokenizing (rows.eraseIdx i)).inSend + if row.inSend then 1 else 0 :=
  ((perm_eraseIdx hi).countP_eq _).trans List.countP_cons

theorem inSend_set {rows : List Row} {i : ℕ} {row : Row} (hi : rows[i]? = some row) (row' : Row) :
    (Producer.tokenizing (rows.set i row')).inSend =
      (Producer.tokenizing (rows.eraseIdx i)).inSend + if row'.inSend then 1 else 0 := by
  have hset : (rows.set i row')[i]? = some row' :=
    List.getElem?_set_self (List.getElem?_eq_some_iff.1 hi).1
  rw [inSend_eraseIdx hset, List.eraseIdx_set_eq]

/-- A move of closures that take turns: one is in `send` before or after it, or none. -/
def Alone (next : δ → Option (Except E StringChunked) × δ) (encode : String → Option Payload)
    (host : WriterHost ε) (args : WriterArgs) (sys sys' : Pipeline ε δ) : Prop :=
  Move next encode host args sys sys' ∧ sys.producer.inSend + sys'.producer.inSend ≤ 1

/-- The threads between two messages: nothing is in the channel, or on its way there. -/
structure Rests (sys : Pipeline ε δ) (dataset : δ) (stage : Producer) (caller : Caller ε) :
    Prop where
  dataset : sys.dataset = dataset
  producer : sys.producer = stage
  queue : sys.channel.queue = []
  caller : sys.caller = caller
  inSend : stage.inSend = 0

variable {dataset t : δ} {rows : List Row} {w : Writer}

/-- A closure in `send` hands its ids to the caller, through the channel or without it. -/
theorem alone_sent {i : ℕ} {ids : Payload} (hd : sys.dataset = dataset)
    (hp : sys.producer = .tokenizing rows) (hq : sys.channel.queue = [])
    (hc : sys.caller = .receiving w) (hi : rows[i]? = some (.sending ids))
    (hothers : (Producer.tokenizing (rows.eraseIdx i)).inSend = 0) :
    ∃ sys', Relation.ReflTransGen (Alone next encode host args) sys sys' ∧
      sys'.Rests dataset (.tokenizing (rows.eraseIdx i)) (after (w.receive host args ids)) := by
  have hone : sys.producer.inSend + (Producer.tokenizing (rows.eraseIdx i)).inSend ≤ 1 := by
    rw [hp, inSend_eraseIdx hi, hothers]
    exact Nat.le_refl 1
  by_cases hroom : sys.channel.HasRoom
  · have hsend : Alone next encode host args sys
        ({ sys with channel := sys.channel.send ids }.rowDone rows i) :=
      ⟨.send hp hi hc hroom, hone⟩
    have hrecv : (sys.channel.send ids).recv? =
        some (ids, ⟨sys.channel.capacity, sys.channel.received ++ [ids], []⟩) := by
      simp only [Channel.recv?, Channel.send, hq, List.nil_append]
    have hreceive : Move next encode host args
        ({ sys with channel := sys.channel.send ids }.rowDone rows i) _ := .receive hc hrecv
    refine ⟨_, (Relation.ReflTransGen.single hsend).tail ⟨hreceive, ?_⟩, ?_⟩
    · rw [received_producer]
      simp [rowDone, hothers]
    · constructor <;> simp [rowDone, hd, hothers]
  · have hcap : sys.channel.capacity = 0 := by
      rw [Channel.HasRoom, hq] at hroom
      simpa using hroom
    refine ⟨_, Relation.ReflTransGen.single ⟨Move.handOff hp hi hc hcap, ?_⟩, ?_⟩
    · rw [received_producer]
      exact hone
    · constructor <;> simp [rowDone, Channel.handOff, hd, hq, hothers]

/-- The closure of a row runs, and the caller receives what it sends. -/
theorem alone_row {i : ℕ} {row : Row} {ids : Payload}
    (h : sys.Rests dataset (.tokenizing rows) (.receiving w)) (hi : rows[i]? = some row)
    (hids : row.ids? encode = some ids) :
    ∃ sys', Relation.ReflTransGen (Alone next encode host args) sys sys' ∧
      sys'.Rests dataset (.tokenizing (rows.eraseIdx i)) (after (w.receive host args ids)) := by
  have hothers : (Producer.tokenizing (rows.eraseIdx i)).inSend = 0 := by
    have hnone := h.inSend
    rw [inSend_eraseIdx hi] at hnone
    omega
  cases row with
  | sending ids' =>
    obtain rfl := Option.some.inj hids
    exact alone_sent h.dataset h.producer h.queue h.caller hi hothers
  | waiting optText =>
    have hlt := (List.getElem?_eq_some_iff.1 hi).1
    have hencode : Alone next encode host args sys
        { sys with producer := .tokenizing (rows.set i (.sending ids)) } := by
      refine ⟨.encode h.producer hi hids, ?_⟩
      rw [h.producer, h.inSend, inSend_set hi, hothers]
      exact Nat.le_refl 1
    obtain ⟨sys', hreach, hrests⟩ := @alone_sent ε δ E next encode host args
      { sys with producer := .tokenizing (rows.set i (.sending ids)) } dataset
      (rows.set i (.sending ids)) w i ids h.dataset rfl h.queue h.caller
      (List.getElem?_set_self hlt) (by rw [List.eraseIdx_set_eq]; exact hothers)
    rw [List.eraseIdx_set_eq] at hrests
    exact ⟨sys', Relation.ReflTransGen.head hencode hreach, hrests⟩

/-- Rows that send nothing return. -/
theorem alone_idle (h : sys.Rests dataset (.tokenizing rows) (.receiving w))
    (hnone : rows.filterMap (Row.ids? encode) = []) :
    ∃ sys', Relation.ReflTransGen (Alone next encode host args) sys sys' ∧
      sys'.Rests dataset .idle (.receiving w) := by
  induction rows generalizing sys with
  | nil =>
    have hjoin : Alone next encode host args sys { sys with producer := .idle } :=
      ⟨.join h.producer, by rw [h.producer]; exact Nat.zero_le _⟩
    exact ⟨_, Relation.ReflTransGen.single hjoin, h.dataset, rfl, h.queue, h.caller, rfl⟩
  | cons row rows ih =>
    rw [List.filterMap_eq_nil_iff] at hnone
    have hrow := hnone row List.mem_cons_self
    cases row with
    | sending ids => cases hrow
    | waiting optText =>
      have hdrop : Alone next encode host args sys
          (sys.rowDone (.waiting optText :: rows) 0) := by
        refine ⟨.drop h.producer rfl hrow, ?_⟩
        rw [h.producer, h.inSend, Nat.zero_add]
        exact Nat.le_succ_of_le (Nat.le_of_eq h.inSend)
      obtain ⟨sys', hreach, hrests⟩ := @ih (sys.rowDone (.waiting optText :: rows) 0)
        ⟨h.dataset, rfl, h.queue, h.caller, h.inSend⟩
        (List.filterMap_eq_nil_iff.2 fun r hr => hnone r (List.mem_cons_of_mem _ hr))
      exact ⟨sys', Relation.ReflTransGen.head hdrop hreach, hrests⟩

/-- The rows of a chunk can arrive in any order; then the next chunk is taken, unless one
of them could not be written. -/
theorem alone_chunk {c : List Payload}
    (h : sys.Rests dataset (.tokenizing rows) (.receiving w))
    (hc : c.Perm (rows.filterMap (Row.ids? encode))) :
    ∃ sys', Relation.ReflTransGen (Alone next encode host args) sys sys' ∧
      match c.foldlM (Writer.receive host args) w with
      | .ok w' => sys'.Rests dataset .idle (.receiving w')
      | .error f => sys'.caller = .returned (.error f) := by
  induction c generalizing sys rows w with
  | nil => exact alone_idle h hc.nil_eq.symm
  | cons ids c ih =>
    obtain ⟨row, hrow, hids⟩ := List.mem_filterMap.1 (hc.subset List.mem_cons_self)
    obtain ⟨i, hi⟩ := List.mem_iff_getElem?.1 hrow
    have hrest : c.Perm ((rows.eraseIdx i).filterMap (Row.ids? encode)) := by
      have hperm := ids_eraseIdx encode hi
      rw [hids] at hperm
      exact (hc.trans hperm).cons_inv
    obtain ⟨sys₁, hreach₁, h₁⟩ := @alone_row ε δ E next encode host args sys dataset rows w i
      row ids h hi hids
    rw [List.foldlM_cons]
    cases hw : w.receive host args ids with
    | error f =>
      rw [hw] at h₁
      exact ⟨sys₁, hreach₁, h₁.caller⟩
    | ok w' =>
      rw [hw] at h₁
      obtain ⟨sys₂, hreach₂, h₂⟩ := ih h₁ hrest
      exact ⟨sys₂, hreach₁.trans hreach₂, h₂⟩

/-- The whole dataset can arrive in any of its orders. -/
theorem alone_returned {payloads : List Payload}
    (hdrain : Drains (fun s y => next s = y) dataset rest t)
    (h : sys.Rests dataset .idle (.receiving w)) (horder : Orders encode rest payloads) :
    ∃ sys', Relation.ReflTransGen (Alone next encode host args) sys sys' ∧
      sys'.caller = .returned (payloads.foldlM (Writer.receive host args) w >>=
        (Writer.finish host ·)) := by
  induction hdrain generalizing sys w payloads with
  | @stop s s' hs =>
    obtain rfl := horder.eq_nil
    have hexit : Alone next encode host args sys { sys with dataset := s', producer := .exited } :=
      ⟨.exit h.producer (h.dataset ▸ hs), by rw [h.producer]; exact Nat.zero_le _⟩
    have hfinish : Alone next encode host args { sys with dataset := s', producer := .exited }
        { sys with dataset := s', producer := .exited, caller := .returned (w.finish host) } :=
      ⟨.finish h.caller h.queue rfl, Nat.zero_le _⟩
    exact ⟨_, (Relation.ReflTransGen.single hexit).tail hfinish, rfl⟩
  | @item s s' u x xs hs _ ih =>
    cases x with
    | error e =>
      have hskip : Alone next encode host args sys { sys with dataset := s' } := by
        refine ⟨.skip h.producer (h.dataset ▸ hs), ?_⟩
        simp only [h.producer]
        exact Nat.zero_le _
      obtain ⟨sys', hreach, hret⟩ := @ih { sys with dataset := s' } w payloads
        ⟨rfl, h.producer, h.queue, h.caller, rfl⟩ horder
      exact ⟨sys', Relation.ReflTransGen.head hskip hreach, hret⟩
    | ok shard =>
      obtain ⟨c, ys, hperm, hys, rfl⟩ := horder.of_cons
      have hwaiting : (Producer.tokenizing (shard.map .waiting)).inSend = 0 := by
        refine List.countP_eq_zero.2 (List.forall_mem_map.2 fun optText _ => ?_)
        exact Bool.false_ne_true
      have hload : Alone next encode host args sys
          { sys with dataset := s', producer := .tokenizing (shard.map .waiting) } := by
        refine ⟨.load h.producer (h.dataset ▸ hs), ?_⟩
        rw [h.producer, hwaiting]
        exact Nat.zero_le _
      have hids : (shard.map Row.waiting).filterMap (Row.ids? encode) = encodings encode shard := by
        rw [List.filterMap_map]
        rfl
      obtain ⟨sys₁, hreach₁, h₁⟩ := @alone_chunk ε δ E next encode host args
        { sys with dataset := s', producer := .tokenizing (shard.map .waiting) } s'
        (shard.map .waiting) w c ⟨rfl, rfl, h.queue, h.caller, hwaiting⟩ (hids ▸ hperm)
      have hreach := Relation.ReflTransGen.head hload hreach₁
      rw [List.foldlM_append]
      cases hw : c.foldlM (Writer.receive host args) w with
      | error f =>
        rw [hw] at h₁
        exact ⟨sys₁, hreach, h₁⟩
      | ok w' =>
        rw [hw] at h₁
        obtain ⟨sys₂, hreach₂, h₂⟩ := ih h₁ hys
        exact ⟨sys₂, hreach.trans hreach₂, h₂⟩

/-- The chunks arrive in one order at least. -/
theorem exists_order (encode : String → Option Payload) (items : List (Except E StringChunked)) :
    ∃ payloads, Orders encode items payloads :=
  exists_arrives _

theorem start_foreseen (encode : String → Option Payload) (host : WriterHost ε)
    (args : WriterArgs) (disk : Disk) (items : List (Except E StringChunked)) (dataset : δ)
    (writeQueueSize : ℕ) :
    (start host args disk dataset writeQueueSize).Foreseen (Orders encode items) host args disk := by
  intro result hresult
  unfold start at hresult
  cases hdir : (host.io 0).result with
  | ok u =>
    rw [hdir] at hresult
    cases hresult
  | error e =>
    rw [hdir] at hresult
    obtain rfl := Caller.returned.inj hresult
    obtain ⟨payloads, horder⟩ := exists_order encode items
    exact ⟨payloads, horder, by rw [pretokenizeDataset, hdir]⟩

/-- Both hold at every moment of every run. -/
theorem sound_foreseen (hdrain : Drains (fun s y => next s = y) dataset items t)
    {writeQueueSize : ℕ} (hreach : Reaches (step next encode host args)
      (start host args disk dataset writeQueueSize) sys) :
    sys.Sound next encode host args disk items ∧ sys.Foreseen (Orders encode items) host args disk :=
  hreach.invariant
    (I := fun sys => sys.Sound next encode host args disk items ∧
      sys.Foreseen (Orders encode items) host args disk)
    (fun _ _ _ hs hstep => ⟨hs.1.move (step_move hstep), hs.1.foreseen (step_move hstep) hs.2⟩)
    ⟨start_sound encode host args disk hdrain writeQueueSize,
      start_foreseen encode host args disk items dataset writeQueueSize⟩

/-- Every order of the records is that of a run in which the closures take turns. -/
theorem alone_of_orders (hdrain : Drains (fun s y => next s = y) dataset items t)
    (host : WriterHost ε) (args : WriterArgs) (disk : Disk) (writeQueueSize : ℕ)
    {payloads : List Payload} (horder : Orders encode items payloads) :
    ∃ sys, Relation.ReflTransGen (Alone next encode host args)
        (start host args disk dataset writeQueueSize) sys ∧
      sys.caller = .returned (pretokenizeDataset host args disk payloads) := by
  unfold start pretokenizeDataset
  cases hdir : (host.io 0).result with
  | error e => exact ⟨_, Relation.ReflTransGen.refl, rfl⟩
  | ok u => exact alone_returned hdrain ⟨rfl, rfl, rfl, rfl, rfl⟩ horder

theorem reaches_of_orders (hdrain : Drains (fun s y => next s = y) dataset items t)
    (host : WriterHost ε) (args : WriterArgs) (disk : Disk) (writeQueueSize : ℕ)
    {payloads : List Payload} (horder : Orders encode items payloads) :
    ∃ sys, Reaches (step next encode host args) (start host args disk dataset writeQueueSize) sys ∧
      sys.caller = .returned (pretokenizeDataset host args disk payloads) :=
  (alone_of_orders hdrain host args disk writeQueueSize horder).imp fun _ h =>
    ⟨Relation.ReflTransGen.mono (fun _ _ hmove => hmove.1.fires) _ _ h.1, h.2⟩

end Pipeline

/-- **The concurrent function refines the sequential one.**  For every dataset, tokenizer
and queue size, and whatever the operating system answers: every interleaving ends with
`pretokenize_dataset` returned and no thread left, and the results that some interleaving
returns are those of the writer alone on the records of the rows that encode, chunk after
chunk and in any order within a chunk. -/
theorem pipeline_returns_iff {next : δ → Option (Except E StringChunked) × δ} {dataset t : δ}
    {items : List (Except E StringChunked)}
    (hdrain : Drains (fun s y => next s = y) dataset items t) (encode : String → Option Payload)
    (host : WriterHost ε) (args : WriterArgs) (disk : Disk) (writeQueueSize : ℕ) :
    Completes (Pipeline.step next encode host args) Pipeline.Quiet
        (Pipeline.start host args disk dataset writeQueueSize) ∧
      ∀ result, (∃ sys, Reaches (Pipeline.step next encode host args)
          (Pipeline.start host args disk dataset writeQueueSize) sys ∧
          sys.caller = .returned result) ↔
        ∃ payloads, Orders encode items payloads ∧
          result = pretokenizeDataset host args disk payloads := by
  have hsound := Pipeline.start_sound encode host args disk hdrain writeQueueSize
  refine ⟨hsound.quiet, fun result => ⟨?_, ?_⟩⟩
  · rintro ⟨sys, hreach, hc⟩
    exact (Pipeline.sound_foreseen hdrain hreach).2 result hc
  · rintro ⟨payloads, horder, rfl⟩
    exact Pipeline.reaches_of_orders hdrain host args disk writeQueueSize horder

/-- Two rows of one file, shards of one record, and the fourth operation fails: the file
of the first shard holds either record, without its separator. -/
theorem pipeline_returns_iff_two :
    let read : String → PathBuf → Except Unit StringChunked := fun _ _ => .ok [some "a", some "bc"]
    let encode : String → Option Payload := fun text => some [UInt32.ofNat text.length]
    let host : WriterHost Unit := ⟨.little, fun k => ⟨if k = 3 then .error () else .ok (), 4⟩⟩
    let step := Pipeline.step (ShardLoader.next read) encode host ⟨"out", 1, 7⟩
    let start := Pipeline.start host ⟨"out", 1, 7⟩ (fun _ => none) (ShardLoader.new ["a.csv"] "text") 1
    ∀ n ∈ [1, 2], ∃ sys f, Reaches step start sys ∧ sys.caller = .returned (.error f) ∧
      f.error = .writeFailed () (shardPath "out" 0) ∧
      f.disk (shardPath "out" 0) = some [UInt8.ofNat n, 0, 0, 0] := by
  intro read encode host step start
  obtain ⟨t, ht⟩ := ShardLoader.drains read ["a.csv"] "text"
  have hreturns := (pipeline_returns_iff ht encode host ⟨"out", 1, 7⟩ (fun _ => none) 1).2
  have horder : ∀ c : List Payload, c.Perm [[1], [2]] → Orders encode [read "text" "a.csv"] c :=
    fun c hc => ⟨[c], List.Forall₂.cons hc List.Forall₂.nil, (List.flatten_singleton).symm⟩
  intro n hn
  rcases List.mem_cons.1 hn with rfl | hn
  · obtain ⟨sys, hreach, hc⟩ := (hreturns _).2 ⟨_, horder [[1], [2]] (List.Perm.refl _), rfl⟩
    exact ⟨sys, _, hreach, hc, rfl, by decide +kernel⟩
  · obtain rfl := List.mem_singleton.1 hn
    obtain ⟨sys, hreach, hc⟩ := (hreturns _).2 ⟨_, horder [[2], [1]] (List.Perm.swap _ _ _), rfl⟩
    exact ⟨sys, _, hreach, hc, rfl, by decide +kernel⟩

end Plast
