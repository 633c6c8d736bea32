/-
# Requests of any size

A storage in a build that has not panicked is one that calls without overflow
reach as well (`MmapStorage.run_of_ok`, `BufferSystem.sound_of_reaches`).
There the sum of the first test decides: later shards are tested from their
start, and a shard the prefetching storage receives is tested from `0`.
If no sum overflows, the call does what it does in `ℕ`, and so it does if every
test answers no all the same (`BufferSystem.Serving.completes`); if a test
traps, the call panics on every schedule (`BufferSystem.Doomed`).

So a checked build refuses a request exactly if no shard is left to test or the
first sum fits the word.  A build that wraps also refuses it if every wrapped sum
is past the end of its shard, which takes a request for all but 3 bytes of the
word or more and less than 4 bytes left in every shard (`oversized_refused_iff`).
-/

import Plast.Storage.Backends
import Plast.Storage.FitTests

namespace Plast

open Machine BlockReader Transition

variable {ε : Type} {host : Host ε} {files : List PathBuf} {a : Arith} {c : Call}

/-! ### The memory-mapped storage -/

namespace MmapStorage

variable {s : MmapStorage} {b : Bytes}

/-- A test that traps is a panic of the call. -/
theorem call_of_traps (hb : s.shards[s.currentShardIdx]? = some b)
    (h : Traps a c b s.localCursor) : ∃ p, s.call a c = .error p := by
  rcases h with ⟨p, hp⟩ | ⟨stop, cursor, hstop, hpass, hcursor, hslice⟩
  · refine ⟨p, ?_⟩
    rw [call_eq_loop, sequentialLoop, dif_pos (List.getElem?_eq_some_iff.1 hb).1]
    simp only [hp, bind, Except.bind]
  · refine ⟨.slice, ?_⟩
    rw [call_eq_loop, sequentialLoop_hit hb hstop hpass hcursor]
    simp only [bind, Except.bind, Call.served, Call.window_panics hcursor hslice]

/-- In every profile a call panics or does what it does without overflow. -/
theorem call_or_panics (a : Arith) (hreq : c.reqLen < 2 ^ 64)
    (hsize : ∀ b ∈ s.shards, b.length < 2 ^ 63) (hin : s.InRange) :
    (∃ p, s.call a c = .error p) ∨ s.call a c = s.call .unbounded c := by
  induction hn : s.shards.length - s.currentShardIdx using Nat.strongRecOn generalizing s with
  | _ n ih =>
    rcases Nat.lt_or_ge s.currentShardIdx s.shards.length with hlt | hge
    · have hb := List.getElem?_eq_getElem hlt
      have hle := hin.2
      rw [hb, Option.getD_some] at hle
      have hlen := hsize _ (List.getElem_mem hlt)
      rcases fitTest a hreq hlen hle with htraps | ⟨⟨stop, hstop, hmiss⟩, hlong⟩ | hfit
      · exact Or.inl (call_of_traps hb htraps)
      · rw [call_skip hb hstop hmiss, call_skip (a := .unbounded) hb rfl hlong]
        refine ih _ ?_ hsize ⟨hlt, Nat.zero_le _⟩ rfl
        change s.shards.length - (s.currentShardIdx + 1) < n
        omega
      · exact Or.inr (call_of_exact (Or.inr (by omega)))
    · exact Or.inr ((call_end hge a c).trans (call_end hge _ c).symm)

/-- The current shard, the cursor and what comes after, as long as there is a shard. -/
theorem lt_of_pending {rest : List Bytes} (hp : s.reader.pending = b :: rest) :
    s.currentShardIdx < s.shards.length ∧
      (s.moveTo (s.currentShardIdx + 1) 0).reader = ⟨some b, 0, rest⟩ := by
  rcases Nat.lt_or_ge s.currentShardIdx s.shards.length with hlt | hge
  · rw [reader_of_lt hlt] at hp
    refine ⟨hlt, (reader_of_cursor_zero rfl).trans ?_⟩
    change State.settle ⟨none, 0, s.shards.drop (s.currentShardIdx + 1)⟩ = _
    rw [show s.shards.drop (s.currentShardIdx + 1) = b :: rest from hp]
    rfl
  · rw [reader_of_ge hge] at hp
    cases hp

/-- If a test traps, the call panics. -/
theorem call_of_trapsIn (h : TrapsIn a c s.reader) : ∃ p, s.call a c = .error p := by
  generalize hr : s.reader = r at h
  induction h generalizing s with
  | here hb htraps =>
    subst hr
    obtain ⟨hget, hcursor⟩ := getElem?_of_reader hb
    exact call_of_traps hget (hcursor ▸ htraps)
  | next hmiss hp _ ih =>
    subst hr
    obtain ⟨hlt, hnext⟩ := lt_of_pending hp
    have hactive : s.reader.active = some s.shards[s.currentShardIdx] := by rw [reader_of_lt hlt]
    obtain ⟨stop, hstop, hshort⟩ := hmiss _ hactive
    rw [(getElem?_of_reader hactive).2] at hstop
    rw [call_skip (List.getElem?_eq_getElem hlt) hstop hshort]
    exact ih hnext

/-- What is read in the next shard and after it was pending. -/
theorem mem_pending_of_next (hlt : s.currentShardIdx < s.shards.length) :
    (∀ b, (s.moveTo (s.currentShardIdx + 1) 0).reader.active = some b →
      b ∈ s.reader.pending ∧ (s.moveTo (s.currentShardIdx + 1) 0).reader.cursor = 0) ∧
    ∀ b ∈ (s.moveTo (s.currentShardIdx + 1) 0).reader.pending, b ∈ s.reader.pending := by
  cases hp : s.reader.pending with
  | nil =>
    rw [reader_of_lt hlt] at hp
    rw [reader_of_ge (List.drop_eq_nil_iff.1 hp)]
    exact ⟨fun b hb => absurd hb.symm (Option.some_ne_none b), fun b hb => hb⟩
  | cons b' rest =>
    rw [(lt_of_pending hp).2]
    refine ⟨fun b hb => ⟨?_, rfl⟩, fun b hb => List.mem_cons_of_mem _ hb⟩
    obtain rfl := Option.some.inj hb
    exact List.mem_cons_self

/-- If every test answers no, the call returns `None`. -/
theorem call_of_allMiss (h : AllMiss a c s.reader) : ∃ s', s.call a c = .ok (none, s') := by
  induction hn : s.shards.length - s.currentShardIdx using Nat.strongRecOn generalizing s with
  | _ n ih =>
    rcases Nat.lt_or_ge s.currentShardIdx s.shards.length with hlt | hge
    · have hactive : s.reader.active = some s.shards[s.currentShardIdx] := by
        rw [reader_of_lt hlt]
      obtain ⟨⟨stop, hstop, hshort⟩, -⟩ := h.active _ hactive
      rw [(getElem?_of_reader hactive).2] at hstop
      rw [call_skip (List.getElem?_eq_getElem hlt) hstop hshort]
      obtain ⟨hnext, hlater⟩ := mem_pending_of_next hlt
      refine ih _ ?_ ⟨fun b hb => ?_, fun b hb => h.pending b (hlater b hb)⟩ rfl
      · change s.shards.length - (s.currentShardIdx + 1) < n
        omega
      · obtain ⟨hmem, hzero⟩ := hnext b hb
        rw [hzero]
        exact h.pending b hmem
    · exact ⟨s, call_end hge a c⟩

/-- A script that does not panic does what it does without overflow. -/
theorem run_of_ok {ops : List Op} {x : List (Option Window) × MmapStorage}
    (hreq : ∀ c, .read c ∈ ops → c.reqLen < 2 ^ 64)
    (hsize : ∀ b ∈ s.shards, b.length < 2 ^ 63) (hin : s.InRange) (h : s.run a ops = .ok x) :
    s.run .unbounded ops = .ok x := by
  induction ops generalizing s x with
  | nil => exact h
  | cons op ops ih =>
    have hrest : ∀ c, .read c ∈ ops → c.reqLen < 2 ^ 64 := fun c hc =>
      hreq c (List.mem_cons_of_mem _ hc)
    cases op with
    | read c =>
      obtain ⟨⟨w, t⟩, hcall, h⟩ := bind_eq_ok.1 h
      obtain ⟨y, hrun, hret⟩ := bind_eq_ok.1 h
      rcases call_or_panics a (hreq c List.mem_cons_self) hsize hin with ⟨p, hp⟩ | heq
      · cases hp.symm.trans hcall
      · obtain ⟨i, o, hcall', -, hin'⟩ := s.call_eq c
        rw [heq] at hcall
        obtain ⟨-, rfl⟩ := Prod.mk.inj (Except.ok.inj (hcall.symm.trans hcall'))
        exact bind_eq_ok.2 ⟨_, hcall, bind_eq_ok.2 ⟨y, ih hrest hsize (hin' hin) hrun, hret⟩⟩
    | restart => exact ih hrest hsize ⟨Nat.zero_le _, Nat.zero_le _⟩ h

end MmapStorage

/-! ### The prefetching storage -/

/-- A worker delivers nothing but the files. -/
theorem Spawn.mem_shards_of_delivered {spawn : Spawn} {b : Bytes}
    (h : b ∈ spawn.delivered host files) : b ∈ host.shards files := by
  induction files with
  | nil => exact absurd h List.not_mem_nil
  | cons path files ih =>
    rw [delivered_cons] at h
    rw [Host.shards_cons]
    cases hc : (host path).contents with
    | some bytes =>
      rw [hc] at h
      rcases List.mem_cons.1 h with rfl | hrest
      · exact List.mem_cons_self
      · exact List.mem_cons_of_mem _ (ih hrest)
    | none =>
      rw [hc] at h
      change b ∈ if spawn = .loadData then [] else spawn.delivered host files at h
      split at h
      · exact absurd h List.not_mem_nil
      · exact ih h

namespace BufferSystem

variable {sys sys' : BufferSystem}

/-- Without overflow the body of the loop is the same in every profile. -/
theorem callHead_of_exact {s : BufferStorage}
    (h : s.activeBuffer ≠ none → a.Exact (s.localCursor + c.reqLen + c.lookahead)) :
    s.callHead a c = s.callHead .unbounded c := by
  rw [callHead_eq_fits, callHead_eq_fits]
  unfold BufferStorage.fits
  cases hb : s.activeBuffer with
  | none => rfl
  | some b =>
    have hexact := h (by rw [hb]; exact Option.some_ne_none b)
    have hend : windowEnd .unbounded s.localCursor c.reqLen c.lookahead =
        .ok (s.localCursor + c.reqLen + c.lookahead) := rfl
    simp only [windowEnd_of_exact hexact, hend, bind, Except.bind,
      (hexact.mono (Nat.le_add_right _ _)).add, Arith.add_unbounded]
    by_cases hle : s.localCursor + c.reqLen + c.lookahead ≤ b.length
    · simp only [if_pos hle, pure, Except.pure, Call.served, Call.window_of_exact hexact]
    · simp only [if_neg hle, pure, Except.pure, Call.served]

/-- A test that answers no leads to the `recv`. -/
theorem callHead_of_misses {s : BufferStorage}
    (h : ∀ b, s.activeBuffer = some b → Misses a c b s.localCursor) :
    s.callHead a c = .ok (none, s) := by
  rw [callHead_eq_fits]
  cases hb : s.activeBuffer with
  | none =>
    simp only [BufferStorage.fits, hb, bind, Except.bind]
    rfl
  | some b =>
    obtain ⟨stop, hstop, hmiss⟩ := h b hb
    simp only [BufferStorage.fits, hb, hstop, bind, Except.bind, if_neg (Nat.not_le.2 hmiss)]
    rfl

/-- A test that traps is a panic. -/
theorem callHead_of_traps {s : BufferStorage} {b : Bytes} (hb : s.activeBuffer = some b)
    (h : Traps a c b s.localCursor) : ∃ p, s.callHead a c = .error p := by
  rw [callHead_eq_fits]
  rcases h with ⟨p, hp⟩ | ⟨stop, cursor, hstop, hpass, hcursor, hslice⟩
  · exact ⟨p, by simp only [BufferStorage.fits, hb, hp, bind, Except.bind]⟩
  · refine ⟨.slice, ?_⟩
    simp only [BufferStorage.fits, hb, hstop, bind, Except.bind, if_pos hpass, hcursor, pure,
      Except.pure, Call.served, Call.window_panics hcursor hslice]

/-- A test that answers no rightly does so without overflow. -/
theorem callHead_of_short {s : BufferStorage} (h : ∀ b, s.activeBuffer = some b →
    Misses a c b s.localCursor ∧ b.length < s.localCursor + c.reqLen + c.lookahead) :
    s.callHead a c = s.callHead .unbounded c :=
  (callHead_of_misses fun b hb => (h b hb).1).trans
    (callHead_of_misses (a := .unbounded) fun b hb => ⟨_, rfl, (h b hb).2⟩).symm

/-- In every profile the body of the loop panics or does what it does without overflow. -/
theorem callHead_or_panics (a : Arith) {s : BufferStorage} (hreq : c.reqLen < 2 ^ 64)
    (hbuf : ∀ b, s.activeBuffer = some b → b.length < 2 ^ 63 ∧ s.localCursor ≤ b.length) :
    (∃ p, s.callHead a c = .error p) ∨ s.callHead a c = s.callHead .unbounded c := by
  cases hb : s.activeBuffer with
  | none => exact Or.inr (callHead_of_exact fun h => absurd hb h)
  | some b =>
    obtain ⟨hlen, hle⟩ := hbuf b hb
    rcases fitTest a hreq hlen hle with htraps | hmiss | hfit
    · exact Or.inl (callHead_of_traps hb htraps)
    · refine Or.inr (callHead_of_short fun b' hb' => ?_)
      obtain rfl := Option.some.inj (hb.symm.trans hb')
      exact hmiss
    · exact Or.inr (callHead_of_exact fun _ => Or.inr (by omega))

/-- The buffer in hand is one of the files and the cursor is inside it, or there is none
and the cursor is at `0`. -/
structure InHand (host : Host ε) (sys : BufferSystem) : Prop where
  mem : ∀ b, sys.storage.activeBuffer = some b → b ∈ host.shards sys.storage.dataFiles
  cursor_le : ∀ b, sys.storage.activeBuffer = some b → sys.storage.localCursor ≤ b.length
  cursor_zero : sys.storage.activeBuffer = none → sys.storage.localCursor = 0

/-- The head of the loop goes as its body does. -/
theorem loopHead_or_panics {a : Arith} (h : (∃ p, sys.storage.callHead a c = .error p) ∨
    sys.storage.callHead a c = sys.storage.callHead .unbounded c) :
    (∃ p, (loopHead a c sys).consumer = .panicked p) ∨
      loopHead a c sys = loopHead .unbounded c sys := by
  unfold loopHead
  by_cases hidx : sys.storage.currentShardIdx ≤ sys.storage.totalShardCount
  · rcases h with ⟨p, hp⟩ | heq
    · exact Or.inl ⟨p, by rw [if_pos hidx, hp]⟩
    · exact Or.inr (by rw [heq])
  · exact Or.inr (by rw [if_neg hidx, if_neg hidx])

/-- What is still to come are files. -/
theorem Live.mem_of_pending (h : sys.Live host) {b : Bytes} (hb : b ∈ sys.pending host) :
    b ∈ host.shards sys.storage.dataFiles :=
  Spawn.mem_shards_of_delivered (h.history ▸ List.mem_append_right _ hb)

/-- The head of the loop leaves the cursor inside the buffer in hand. -/
theorem loopHead_inHand (h : sys.Live host) (hin : sys.InHand host) (c : Call) :
    (loopHead .unbounded c sys).InHand host := by
  rcases loopHead_spec h c with ⟨hit, hhit, heq⟩ | ⟨-, heq⟩
  · obtain ⟨hactive, -, hfit⟩ := State.hit?_eq_some.1 hhit
    rw [heq]
    refine ⟨hin.mem, fun b hb => ?_, fun hn => ?_⟩
    · obtain rfl : hit.1 = b := Option.some.inj (hactive.symm.trans hb)
      have hfit : sys.storage.localCursor + (c.reqLen + c.lookahead) ≤ hit.1.length := hfit
      change sys.storage.localCursor + c.reqLen ≤ hit.1.length
      omega
    · exact absurd (hactive.symm.trans hn) (Option.some_ne_none _)
  · rw [heq]
    exact ⟨hin.mem, hin.cursor_le, hin.cursor_zero⟩

/-- A move of the consumer is a move without overflow if the loop head it evaluates is,
and otherwise has the property `Q` that such a head gives it. -/
theorem ConsumerMove.unbounded_or {Q : BufferSystem → Prop} {t : BufferSystem}
    (hm : ConsumerMove host a sys t)
    (hread : ∀ c ops, sys.consumer = .idle → sys.todo = .read c :: ops →
      Q (loopHead a c { sys with todo := ops }) ∨
        loopHead a c { sys with todo := ops } = loopHead .unbounded c { sys with todo := ops })
    (hreceive : ∀ c channel worker bytes, sys.consumer = .receiving c →
      bytes ∈ sys.pending host →
      Q (received a c { sys with channel := channel, worker := worker } bytes) ∨
        received a c { sys with channel := channel, worker := worker } bytes =
          received .unbounded c { sys with channel := channel, worker := worker } bytes) :
    Q t ∨ ConsumerMove host .unbounded sys t := by
  cases hm with
  | @read c ops hc ht =>
    rcases hread c ops hc ht with hQ | heq
    · exact Or.inl hQ
    · exact Or.inr (heq ▸ .read hc ht)
  | restart hc ht => exact Or.inr (.restart hc ht)
  | @receive c channel worker bytes hc hr hp hb =>
    rcases hreceive c channel worker bytes hc (hp ▸ List.mem_cons_self) with hQ | heq
    · exact Or.inl hQ
    · exact Or.inr (heq ▸ .receive hc hr hp hb)
  | disconnected hc hp => exact Or.inr (.disconnected hc hp)
  | joined hc hw => exact Or.inr (.joined hc hw)

/-- Every file is a slice, and every request of the calls to come is a `usize`. -/
structure Sized (host : Host ε) (sys : BufferSystem) : Prop where
  files : ∀ b ∈ host.shards sys.storage.dataFiles, b.length < 2 ^ 63
  requests : ∀ c, .read c ∈ sys.remaining → c.reqLen < 2 ^ 64

/-- In every profile a move of the consumer panics or is a move without overflow. -/
theorem ConsumerMove.panics_or {t : BufferSystem} (hm : ConsumerMove host a sys t)
    (h : sys.Sound host) (hin : sys.InHand host) (hsized : sys.Sized host) :
    (∃ p, t.consumer = .panicked p) ∨ ConsumerMove host .unbounded sys t := by
  refine hm.unbounded_or (Q := fun t => ∃ p, t.consumer = .panicked p)
    (fun c ops hc ht => ?_) fun c channel worker bytes hc hp => ?_
  · have hreq : c.reqLen < 2 ^ 64 :=
      hsized.requests c (by simp only [remaining, hc, ht]; exact List.mem_cons_self)
    exact loopHead_or_panics (callHead_or_panics a hreq fun b hb =>
      ⟨hsized.files b (hin.mem b hb), hin.cursor_le b hb⟩)
  · have hreq : c.reqLen < 2 ^ 64 :=
      hsized.requests c (by simp only [remaining, hc]; exact List.mem_cons_self)
    refine loopHead_or_panics (callHead_or_panics a hreq fun b hb => ?_)
    obtain rfl : bytes = b := Option.some.inj hb
    exact ⟨hsized.files _ ((h.receiving hc).1.mem_of_pending hp), Nat.zero_le _⟩

/-- A move without overflow leaves the cursor inside the buffer in hand. -/
theorem ConsumerMove.inHand {t : BufferSystem} (hm : ConsumerMove host .unbounded sys t)
    (h : sys.Sound host) (hin : sys.InHand host) : t.InHand host := by
  cases hm with
  | @read c ops hc ht =>
    have hl := h.idle hc
    have hl' : Live host { sys with todo := ops } := ⟨hl.total, hl.alive, hl.history, hl.counted⟩
    have hin' : InHand host { sys with todo := ops } := ⟨hin.mem, hin.cursor_le, hin.cursor_zero⟩
    exact loopHead_inHand hl' hin' c
  | restart hc ht => exact ⟨hin.mem, hin.cursor_le, hin.cursor_zero⟩
  | @receive c channel worker bytes hc hr hp hb =>
    have hl := (h.receiving hc).1
    refine loopHead_inHand (hl.receive hr hp) ⟨fun b hb => ?_, fun b hb => Nat.zero_le _,
      fun hn => absurd hn (Option.some_ne_none _)⟩ c
    obtain rfl : bytes = b := Option.some.inj hb
    exact hl.mem_of_pending (hp ▸ List.mem_cons_self)
  | disconnected hc hp => exact ⟨hin.mem, hin.cursor_le, hin.cursor_zero⟩
  | joined hc hw => exact ⟨hin.mem, fun b hb => Nat.zero_le _, fun _ => rfl⟩

/-- The calls that have not returned only get fewer. -/
theorem loopHead_remaining (h : sys.Live host) (c : Call) :
    ∀ op ∈ (loopHead .unbounded c sys).remaining, op = .read c ∨ op ∈ sys.todo := by
  rcases loopHead_spec h c with ⟨hit, -, heq⟩ | ⟨-, heq⟩
  · rw [heq]
    exact fun op hop => Or.inr hop
  · rw [heq]
    exact fun op hop => List.mem_cons.1 hop

theorem ConsumerMove.remaining {t : BufferSystem} (hm : ConsumerMove host .unbounded sys t)
    (h : sys.Sound host) : ∀ op ∈ t.remaining, op ∈ sys.remaining := by
  cases hm with
  | @read c ops hc ht =>
    have hl := h.idle hc
    have hl' : Live host { sys with todo := ops } := ⟨hl.total, hl.alive, hl.history, hl.counted⟩
    intro op hop
    simp only [BufferSystem.remaining, hc, ht]
    exact List.mem_cons.2 (loopHead_remaining hl' c op hop)
  | @restart ops hc ht =>
    intro op hop
    simp only [BufferSystem.remaining, hc, ht]
    exact List.mem_cons_of_mem _ hop
  | @receive c channel worker bytes hc hr hp hb =>
    intro op hop
    simp only [BufferSystem.remaining, hc]
    exact List.mem_cons.2 (loopHead_remaining ((h.receiving hc).1.receive hr hp) c op hop)
  | @disconnected c hc hp =>
    intro op hop
    simp only [BufferSystem.remaining, hc]
    exact List.mem_cons_of_mem _ hop
  | joined hc hw =>
    intro op hop
    simp only [BufferSystem.remaining, hc]
    exact hop

/-- The consumer has panicked, or the calls reach the state over these files without
overflow. -/
def SoundUnlessPanicked (host : Host ε) (files : List PathBuf) (sys : BufferSystem) : Prop :=
  (∃ p, sys.consumer = .panicked p) ∨
    (sys.Sound host ∧ sys.InHand host ∧ sys.Sized host ∧ sys.storage.dataFiles = files)

/-- No step leads out of these states. -/
theorem SoundUnlessPanicked.step {t : BufferSystem} {i : ThreadId}
    (h : sys.SoundUnlessPanicked host files) (hstep : step host a i sys = some t) :
    t.SoundUnlessPanicked host files := by
  rcases h with ⟨p, hp⟩ | ⟨hs, hi, hz, hf⟩
  · cases i with
    | consumer => simp [BufferSystem.step, consumerStep, hp] at hstep
    | worker =>
      obtain ⟨channel, worker, rfl, -⟩ := workerStep_spec hstep
      exact Or.inl ⟨p, hp⟩
  · cases i with
    | consumer =>
      rcases (consumerStep_move host hstep).panics_or hs hi hz with hp | hm
      · exact Or.inl hp
      · obtain ⟨hs', -, -, hf'⟩ := hm.keeps hs
        refine Or.inr ⟨hs', hm.inHand hs hi, ⟨?_, fun c hc => ?_⟩, hf'.trans hf⟩
        · rw [hf']
          exact hz.files
        · exact hz.requests c (hm.remaining hs _ hc)
    | worker =>
      obtain ⟨hs', -, -, -⟩ := workerStep_keeps hs hstep
      obtain ⟨channel, worker, rfl, -⟩ := workerStep_spec hstep
      exact Or.inr ⟨hs', ⟨hi.mem, hi.cursor_le, hi.cursor_zero⟩, ⟨hz.files, hz.requests⟩, hf⟩

/-- In every profile, a state that the calls reach without a panic is one that they
reach without overflow. -/
theorem sound_of_reaches {t : BufferSystem} (h : sys.Sound host) (hin : sys.InHand host)
    (hsized : sys.Sized host) (ht : Reaches (step host a) sys t) :
    (∃ p, t.consumer = .panicked p) ∨
      (t.Sound host ∧ t.InHand host ∧ t.storage.dataFiles = sys.storage.dataFiles) := by
  have hkept : t.SoundUnlessPanicked host sys.storage.dataFiles :=
    ht.invariant (fun _ _ _ hu hstep => hu.step hstep) (Or.inr ⟨h, hin, hsized, rfl⟩)
  exact hkept.imp_right fun ⟨hs, hi, _, hf⟩ => ⟨hs, hi, hf⟩

/-! ### One call -/

/-- No sum of the call overflows, if there is anything to test, or every test answers no. -/
def Tame (a : Arith) (c : Call) (r : State UInt8) : Prop :=
  (r.active ≠ none ∨ r.pending ≠ [] → a.Exact (r.cursor + c.reqLen + c.lookahead)) ∨
    AllMiss a c r

/-- Later shards are tested from their start. -/
theorem Tame.later {r : State UInt8} {pending : List Bytes} (h : Tame a c r)
    (hsub : ∀ b ∈ pending, b ∈ r.pending) : Tame a c ⟨none, 0, pending⟩ := by
  rcases h with hexact | hmiss
  · refine Or.inl fun hsome => ?_
    obtain ⟨b, rest, hp⟩ := List.exists_cons_of_ne_nil (hsome.resolve_left fun hne => hne rfl)
    have hmem := hsub b ((show pending = b :: rest from hp) ▸ List.mem_cons_self)
    refine (hexact (Or.inr (List.ne_nil_of_mem hmem))).mono ?_
    change 0 + c.reqLen + c.lookahead ≤ _
    omega
  · exact Or.inr ⟨fun b hb => absurd hb.symm (Option.some_ne_none b),
      fun b hb => hmiss.pending b (hsub b hb)⟩

/-- The body of the loop does what it does without overflow. -/
theorem Tame.callHead {s : BufferStorage} {pending : List Bytes}
    (h : Tame a c ⟨s.activeBuffer, s.localCursor, pending⟩) :
    s.callHead a c = s.callHead .unbounded c := by
  rcases h with hexact | hmiss
  · exact callHead_of_exact fun hne => hexact (Or.inl hne)
  · exact callHead_of_short hmiss.active

/-- So it does with a shard that has been received. -/
theorem Tame.activate {s : BufferStorage} {pending : List Bytes} {b : Bytes}
    (h : Tame a c ⟨none, 0, pending⟩) (hb : b ∈ pending) :
    (s.activate b).callHead a c = (s.activate b).callHead .unbounded c := by
  rcases h with hexact | hmiss
  · exact callHead_of_exact fun _ => hexact (Or.inr (List.ne_nil_of_mem hb))
  · refine callHead_of_short fun b' hb' => ?_
    obtain rfl : b = b' := Option.some.inj hb'
    exact hmiss.pending b hb

/-- A call that can go on as without overflow. -/
inductive Serving (host : Host ε) (a : Arith) (c : Call) (sys : BufferSystem) : Prop
  | start : sys.consumer = .idle → sys.todo = [.read c] → Tame a c (sys.held host) →
    Serving host a c sys
  | waiting : sys.consumer = .receiving c → sys.todo = [] →
    Tame a c ⟨none, 0, sys.pending host⟩ → Serving host a c sys
  | done : sys.Finished → Serving host a c sys

/-- Such a call moves as without overflow. -/
theorem Serving.unbounded {t : BufferSystem} (hs : sys.Serving host a c)
    (hm : ConsumerMove host a sys t) : ConsumerMove host .unbounded sys t := by
  refine (hm.unbounded_or (Q := fun _ => False) (fun c' ops hc ht => Or.inr ?_)
    fun c' channel worker bytes hc hp => Or.inr ?_).resolve_left id
  · have hhead : sys.storage.callHead a c' = sys.storage.callHead .unbounded c' := by
      cases hs with
      | start _ ht' htame =>
        obtain ⟨hop, -⟩ := List.cons.inj (ht.symm.trans ht')
        obtain rfl : c' = c := by simpa using hop
        exact htame.callHead
      | waiting hc' _ _ => cases hc.symm.trans hc'
      | done hfin => cases ht.symm.trans hfin.2
    simp only [loopHead, hhead]
  · have hhead : (sys.storage.activate bytes).callHead a c' =
        (sys.storage.activate bytes).callHead .unbounded c' := by
      cases hs with
      | start hc' _ _ => cases hc.symm.trans hc'
      | waiting hc' _ htame =>
        obtain rfl : c' = c := by simpa using hc.symm.trans hc'
        exact htame.activate hp
      | done hfin => cases hc.symm.trans hfin.1
    simp only [received, loopHead, hhead]

/-- A call that can go on as without overflow keeps so. -/
theorem Serving.keeps {i : ThreadId} {t : BufferSystem} (hs : sys.Serving host a c)
    (h : sys.Sound host) (hstep : step host a i sys = some t) :
    t.Serving host a c ∧ t.Sound host ∧ t.outcome host = sys.outcome host ∧
      t.measure < sys.measure := by
  cases i with
  | consumer =>
    have hm := hs.unbounded (consumerStep_move host hstep)
    obtain ⟨h', hout, hless, -⟩ := hm.keeps h
    refine ⟨?_, h', hout, hless⟩
    clear hstep h' hout hless
    cases hs with
    | start hc ht htame =>
      cases hm with
      | @read c' ops _ ht' =>
        obtain ⟨hop, rfl⟩ := List.cons.inj (ht'.symm.trans ht)
        obtain rfl : c' = c := by simpa using hop
        have hl := h.idle hc
        have hl' : Live host { sys with todo := [] } :=
          ⟨hl.total, hl.alive, hl.history, hl.counted⟩
        rcases loopHead_spec hl' c' with ⟨hit, -, heq⟩ | ⟨-, heq⟩
        · rw [heq]
          exact .done ⟨rfl, rfl⟩
        · rw [heq]
          exact .waiting rfl rfl (htame.later fun _ hb => hb)
      | restart _ ht' => cases ht'.symm.trans ht
      | receive hc' _ _ _ => cases hc'.symm.trans hc
      | disconnected hc' _ => cases hc'.symm.trans hc
      | joined hc' _ => cases hc'.symm.trans hc
    | waiting hc ht htame =>
      cases hm with
      | read hc' _ => cases hc'.symm.trans hc
      | restart hc' _ => cases hc'.symm.trans hc
      | @receive c' channel worker bytes hc' hr hp hb =>
        obtain rfl : c' = c := by simpa using hc'.symm.trans hc
        have hl' := (h.receiving hc).1.receive hr hp
        have hrest := htame.later fun b hb => hp ▸ List.mem_cons_of_mem bytes hb
        rcases loopHead_spec hl' c' with ⟨hit, -, heq⟩ | ⟨-, heq⟩
        · rw [received, heq]
          exact .done ⟨rfl, ht⟩
        · rw [received, heq]
          exact .waiting rfl ht hrest
      | disconnected _ _ => exact .done ⟨rfl, ht⟩
      | joined hc' _ => cases hc'.symm.trans hc
    | done hfin =>
      cases hm with
      | read _ ht' => cases ht'.symm.trans hfin.2
      | restart _ ht' => cases ht'.symm.trans hfin.2
      | receive hc' _ _ _ => cases hc'.symm.trans hfin.1
      | disconnected hc' _ => cases hc'.symm.trans hfin.1
      | joined hc' _ => cases hc'.symm.trans hfin.1
  | worker =>
    obtain ⟨h', hout, hless, -⟩ := workerStep_keeps h hstep
    refine ⟨?_, h', hout, hless⟩
    have hpending : sys.Live host → t.pending host = sys.pending host := fun hl => by
      obtain ⟨-, -, -, -, hp⟩ := hl.workerStep hstep
      exact hp
    obtain ⟨channel, worker, rfl, -⟩ := workerStep_spec hstep
    cases hs with
    | start hc ht htame =>
      refine .start hc ht ?_
      rwa [show BufferSystem.held host { sys with channel := channel, worker := worker } =
        sys.held host from congrArg (State.mk _ _) (hpending (h.idle hc))]
    | waiting hc ht htame => exact .waiting hc ht (by rwa [hpending (h.receiving hc).1])
    | done hfin => exact .done hfin

/-- What every schedule of such a call does: it goes on to the end without a panic, and
returns what the reader returns. -/
theorem Serving.completes (hs : sys.Serving host a c) (h : sys.Sound host) :
    Completes (step host a) Finished sys ∧
      ∀ t, Reaches (step host a) sys t → (∀ p, t.consumer ≠ .panicked p) ∧
        t.Sound host ∧ t.outcome host = sys.outcome host := by
  constructor
  · exact Completes.of_measure (I := fun t => t.Serving host a c ∧ t.Sound host) measure
      (fun _ _ _ ht hstep => ⟨(ht.1.keeps ht.2 hstep).1, (ht.1.keeps ht.2 hstep).2.1⟩)
      (fun _ _ _ ht hstep => (ht.1.keeps ht.2 hstep).2.2.2) (fun _ ht => progress a ht.2) ⟨hs, h⟩
  · intro t ht
    have hkeep : t.Serving host a c ∧ t.Sound host ∧ t.outcome host = sys.outcome host := by
      refine ht.invariant (I := fun u => u.Serving host a c ∧ u.Sound host ∧
        u.outcome host = sys.outcome host) (fun i u v hu hstep => ?_) ⟨hs, h, rfl⟩
      obtain ⟨hv, hv', hout, -⟩ := hu.1.keeps hu.2.1 hstep
      exact ⟨hv, hv', hout.trans hu.2.2⟩
    refine ⟨fun p hp => ?_, hkeep.2⟩
    have hsound := hkeep.2.1
    unfold Sound at hsound
    rw [hp] at hsound
    exact hsound

/-! ### A call that traps -/

/-- A call that traps on its way. -/
inductive Doomed (host : Host ε) (a : Arith) (c : Call) (sys : BufferSystem) : Prop
  | start : sys.Live host → sys.consumer = .idle → sys.todo = [.read c] →
    TrapsIn a c (sys.held host) → Doomed host a c sys
  | waiting : sys.Live host → sys.consumer = .receiving c →
    TrapsIn a c ⟨none, 0, sys.pending host⟩ → Doomed host a c sys
  | panicked (p : Panic) : sys.consumer = .panicked p → Doomed host a c sys

/-- At the head of the loop the call panics, or what traps is still to come. -/
theorem Doomed.loopHead (hl : sys.Live host) (h : TrapsIn a c (sys.held host)) :
    (BufferSystem.loopHead a c sys).Doomed host a c := by
  cases h with
  | here hb htraps =>
    obtain ⟨p, hp⟩ := callHead_of_traps hb htraps
    refine .panicked p ?_
    unfold BufferSystem.loopHead
    rw [if_pos hl.currentShardIdx_le, hp]
  | next hmiss hp hrest =>
    have heq : BufferSystem.loopHead a c sys = { sys with consumer := .receiving c } := by
      unfold BufferSystem.loopHead
      rw [if_pos hl.currentShardIdx_le, callHead_of_misses hmiss]
    rw [heq]
    exact .waiting ⟨hl.total, hl.alive, hl.history, hl.counted⟩ rfl
      (.next (fun b hb => absurd hb.symm (Option.some_ne_none b)) hp hrest)

theorem Doomed.not_finished (h : sys.Doomed host a c) : ¬sys.Finished := by
  rintro ⟨hidle, htodo⟩
  rcases h with ⟨-, -, ht, -⟩ | ⟨-, hc, -⟩ | ⟨p, hp⟩
  · cases htodo.symm.trans ht
  · cases hidle.symm.trans hc
  · cases hidle.symm.trans hp

/-- Neither thread averts the panic. -/
theorem Doomed.keeps {i : ThreadId} {t : BufferSystem} (h : sys.Doomed host a c)
    (hstep : step host a i sys = some t) : t.Doomed host a c := by
  cases i with
  | consumer =>
    have hm := consumerStep_move host hstep
    rcases h with ⟨hl, hc, ht, htraps⟩ | ⟨hl, hc, htraps⟩ | ⟨p, hp⟩
    · cases hm with
      | @read c' ops _ ht' =>
        obtain ⟨hop, rfl⟩ := List.cons.inj (ht'.symm.trans ht)
        obtain rfl : c' = c := by simpa using hop
        have hl' : Live host { sys with todo := [] } :=
          ⟨hl.total, hl.alive, hl.history, hl.counted⟩
        exact .loopHead hl' htraps
      | restart _ ht' => cases ht'.symm.trans ht
      | receive hc' _ _ _ => cases hc'.symm.trans hc
      | disconnected hc' _ => cases hc'.symm.trans hc
      | joined hc' _ => cases hc'.symm.trans hc
    · cases htraps with
      | here hb _ => cases hb
      | @next _ b rest _ hp hrest =>
        change sys.pending host = b :: rest at hp
        cases hm with
        | read hc' _ => cases hc'.symm.trans hc
        | restart hc' _ => cases hc'.symm.trans hc
        | @receive c' channel worker bytes hc' hr hp' hb =>
          obtain rfl : c' = c := by simpa using hc'.symm.trans hc
          obtain ⟨rfl, rfl⟩ := List.cons.inj (hp.symm.trans hp')
          exact .loopHead (hl.receive hr hp') hrest
        | disconnected hc' hp' => cases hp.symm.trans hp'
        | joined hc' _ => cases hc'.symm.trans hc
    · simp [step, consumerStep, hp] at hstep
  | worker =>
    rcases h with ⟨hl, hc, ht, htraps⟩ | ⟨hl, hc, htraps⟩ | ⟨p, hp⟩
    · obtain ⟨channel, worker, rfl, hl', hpending⟩ := hl.workerStep hstep
      refine .start hl' hc ht ?_
      rwa [show BufferSystem.held host { sys with channel := channel, worker := worker } =
        sys.held host from congrArg (State.mk _ _) hpending]
    · obtain ⟨channel, worker, rfl, hl', hpending⟩ := hl.workerStep hstep
      exact .waiting hl' hc (by rwa [hpending])
    · obtain ⟨channel, worker, rfl, -⟩ := workerStep_spec hstep
      exact .panicked p hp

/-- On no schedule does such a call return. -/
theorem Doomed.not_completes (h : sys.Doomed host a c) :
    ¬Completes (step host a) Finished sys := by
  intro hcompletes
  obtain ⟨t, ht, hfin⟩ := hcompletes.exists_final
  exact (ht.invariant (fun _ _ _ hu hstep => hu.keeps hstep) h).not_finished hfin

end BufferSystem

/-! ### Refusal -/

namespace Storage

/-- In a build with this arithmetic, the script `ops` returns and leaves `st'`. -/
inductive ReachedIn (host : Host ε) (a : Arith) : Storage → List Op → Storage → Prop
  | mmap {s s' : MmapStorage} {ops : List Op} {ws : List (Option Window)} :
    s.run a ops = .ok (ws, s') → ReachedIn host a (.mmap s) ops (.mmap s')
  /-- On some schedule. -/
  | buffer {sys sys' : BufferSystem} {ops : List Op} :
    Reaches (BufferSystem.step host a) (sys.issue ops) sys' → sys'.Finished →
    ReachedIn host a (.buffer sys) ops (.buffer sys')

/-- Some remaining shard can hold the window of the call. -/
def CanServe (host : Host ε) (c : Call) : Storage → Prop
  | .mmap s => s.reader.Serves c.request
  | .buffer sys => (sys.held host).Serves c.request

/-- The call does not panic, and it returns `None` if no remaining shard can hold its
window; for the prefetching storage on every schedule, and every schedule ends. -/
def Refuses (host : Host ε) (a : Arith) (c : Call) : Storage → Prop
  | .mmap s => ∃ w s', s.call a c = .ok (w, s') ∧
    (¬(Storage.mmap s).CanServe host c → w = none)
  | .buffer sys =>
    Completes (BufferSystem.step host a) BufferSystem.Finished (sys.issue [.read c]) ∧
      ∀ t, Reaches (BufferSystem.step host a) (sys.issue [.read c]) t →
        (∀ p, t.consumer ≠ .panicked p) ∧
        (t.Finished → ¬(Storage.buffer sys).CanServe host c → t.log = sys.log ++ [none])

/-- There is no shard left to test, or the sum of the first test fits the word. -/
def FitsWord (host : Host ε) (c : Call) : Storage → Prop
  | .mmap s => s.currentShardIdx < s.shards.length →
    s.localCursor + c.reqLen + c.lookahead < 2 ^ 64
  | .buffer sys => sys.storage.activeBuffer ≠ none ∨ sys.pending host ≠ [] →
    sys.storage.localCursor + c.reqLen + c.lookahead < 2 ^ 64

/-- Every sum of the call leaves the word, and wrapped it is past the end of its shard. -/
def WrapsPast (host : Host ε) (c : Call) : Storage → Prop
  | .mmap s => Plast.WrapsPast c s.reader
  | .buffer sys => Plast.WrapsPast c (sys.held host)

end Storage

namespace MmapStorage

variable {s : MmapStorage}

/-- In every profile a call that fits the word is refused as it should be. -/
theorem refuses_of_fitsWord (h : (Storage.mmap s).FitsWord host c) (a : Arith) :
    (Storage.mmap s).Refuses host a c := by
  have hcall : s.call a c = s.call .unbounded c := by
    rcases Nat.lt_or_ge s.currentShardIdx s.shards.length with hlt | hge
    · exact call_of_exact (Or.inr (h hlt))
    · exact (call_end hge a c).trans (call_end hge _ c).symm
  obtain ⟨i, o, heq, -, -⟩ := s.call_eq c
  refine ⟨_, _, hcall.trans heq, fun hno => ?_⟩
  rw [State.seek_eq_none_iff.2 hno]
  rfl

/-- So is one on which every test answers no. -/
theorem refuses_of_allMiss (h : AllMiss a c s.reader) : (Storage.mmap s).Refuses host a c := by
  obtain ⟨s', hcall⟩ := call_of_allMiss h
  exact ⟨none, s', hcall, fun _ => rfl⟩

/-- A call that traps panics. -/
theorem not_refuses_of_trapsIn (h : TrapsIn a c s.reader) :
    ¬(Storage.mmap s).Refuses host a c := by
  rintro ⟨w, s', hcall, -⟩
  obtain ⟨p, hp⟩ := call_of_trapsIn h
  cases hp.symm.trans hcall

/-- What a storage in range over slices reads. -/
theorem overSlices_reader (hsize : ∀ b ∈ s.shards, b.length < 2 ^ 63) (hin : s.InRange) :
    OverSlices s.reader := by
  rcases Nat.lt_or_ge s.currentShardIdx s.shards.length with hlt | hge
  · have hle := hin.2
    rw [List.getElem?_eq_getElem hlt, Option.getD_some] at hle
    rw [reader_of_lt hlt]
    refine ⟨fun b hb => ?_, fun b hb => hsize b (List.mem_of_mem_drop hb),
      fun h => absurd h (Option.some_ne_none _)⟩
    obtain rfl := Option.some.inj hb
    exact ⟨hsize _ (List.getElem_mem hlt), hle⟩
  · rw [reader_of_ge hge]
    exact ⟨fun b hb => absurd hb.symm (Option.some_ne_none b),
      fun b hb => absurd hb List.not_mem_nil, fun _ => rfl⟩

/-- A call that does not fit the word has a first test whose sum overflows. -/
theorem overflows_of_not_fitsWord (h : ¬(Storage.mmap s).FitsWord host c) :
    (s.reader.active ≠ none ∨ s.reader.pending ≠ []) ∧
      2 ^ 64 ≤ s.reader.cursor + c.reqLen + c.lookahead := by
  obtain ⟨hlt, hover⟩ := Classical.not_imp.1 h
  rw [reader_of_lt hlt]
  exact ⟨Or.inl (Option.some_ne_none _), Nat.not_lt.1 hover⟩

end MmapStorage

namespace BufferSystem

variable {sys : BufferSystem}

/-- In every profile a call that goes on as without overflow is refused as it should be. -/
theorem refuses_of_tame (h : sys.Sound host) (hfin : sys.Finished)
    (htame : Tame a c (sys.held host)) : (Storage.buffer sys).Refuses host a c := by
  obtain ⟨hissue, hout⟩ := issue_finished h hfin [.read c]
  have hserving : (sys.issue [.read c]).Serving host a c :=
    .start hfin.1 (by rw [issue, hfin.2]; rfl) htame
  obtain ⟨hcompletes, hsafe⟩ := hserving.completes hissue
  refine ⟨hcompletes, fun t ht => ⟨(hsafe t ht).1, fun hfin' hno => ?_⟩⟩
  have hlog := (outcome_of_finished host hfin').symm.trans ((hsafe t ht).2.2.trans hout)
  have hnone : ((sys.held host).seek true c.request).1 = none := State.seek_eq_none_iff.2 hno
  rw [answers, State.run_read, hnone] at hlog
  exact (Prod.mk.inj hlog).1

/-- A call that traps does not return. -/
theorem not_refuses_of_trapsIn (h : sys.Sound host) (hfin : sys.Finished)
    (htraps : TrapsIn a c (sys.held host)) : ¬(Storage.buffer sys).Refuses host a c := by
  intro hrefuses
  have hl := (issue_finished h hfin [.read c]).1.idle hfin.1
  have hdoomed : (sys.issue [.read c]).Doomed host a c :=
    .start hl hfin.1 (by rw [issue, hfin.2]; rfl) htraps
  exact hdoomed.not_completes hrefuses.1

/-- What a storage with a buffer in hand still reads. -/
theorem overSlices_held (h : sys.Live host) (hin : sys.InHand host)
    (hsize : ∀ b ∈ host.shards sys.storage.dataFiles, b.length < 2 ^ 63) :
    OverSlices (sys.held host) where
  active := fun b hb => ⟨hsize b (hin.mem b hb), hin.cursor_le b hb⟩
  pending := fun b hb => hsize b (h.mem_of_pending hb)
  cursor_zero := hin.cursor_zero

end BufferSystem

/-! ### Both backends -/

namespace Storage

/-- Between two calls: a storage over slices, in range or with a buffer in hand. -/
def Settled (host : Host ε) : Storage → Prop
  | .mmap s => OverSlices s.reader
  | .buffer sys => sys.Sound host ∧ sys.Finished ∧ OverSlices (sys.held host)

variable {st : Storage}

theorem Settled.refuses_of_fitsWord (h : st.Settled host) (hword : st.FitsWord host c)
    (a : Arith) : st.Refuses host a c := by
  cases st with
  | mmap => exact MmapStorage.refuses_of_fitsWord hword a
  | buffer =>
    exact BufferSystem.refuses_of_tame h.1 h.2.1 (Or.inl fun hsome => Or.inr (hword hsome))

/-- A call whose first sum overflows is not refused by a build in which it traps. -/
theorem Settled.not_refuses (h : st.Settled host) (hword : ¬st.FitsWord host c)
    (htraps : ∀ r, (st.WrapsPast host c ↔ Plast.WrapsPast c r) → OverSlices r →
      r.active ≠ none ∨ r.pending ≠ [] → 2 ^ 64 ≤ r.cursor + c.reqLen + c.lookahead →
      TrapsIn a c r) : ¬st.Refuses host a c := by
  cases st with
  | mmap s =>
    obtain ⟨hsome, hover⟩ := MmapStorage.overflows_of_not_fitsWord hword
    exact MmapStorage.not_refuses_of_trapsIn (htraps s.reader Iff.rfl h hsome hover)
  | buffer sys =>
    obtain ⟨hsound, hfin, hslices⟩ := h
    obtain ⟨hsome, hover⟩ := Classical.not_imp.1 hword
    exact BufferSystem.not_refuses_of_trapsIn hsound hfin
      (htraps (sys.held host) Iff.rfl hslices hsome (Nat.not_lt.1 hover))

/-- A checked build does not refuse what does not fit the word. -/
theorem Settled.fitsWord_of_debug (h : st.Settled host) (hrefuses : st.Refuses host .debug c) :
    st.FitsWord host c := by
  by_contra hword
  exact h.not_refuses hword
    (fun _ _ hslices hsome hover => trapsIn_debug hslices.cursor_zero hsome hover) hrefuses

/-- A build that wraps also refuses what wraps past the end of every shard, and no more. -/
theorem Settled.release_iff (h : st.Settled host) (hreq : c.reqLen < 2 ^ 64) :
    st.Refuses host .release c ↔ st.FitsWord host c ∨ st.WrapsPast host c := by
  constructor
  · intro hrefuses
    refine or_iff_not_imp_left.2 fun hword => ?_
    by_contra hpast
    exact h.not_refuses hword (fun _ hreader hslices _ hover =>
      trapsIn_release hreq hslices hover fun hwraps => hpast (hreader.2 hwraps)) hrefuses
  · rintro (hword | hpast)
    · exact h.refuses_of_fitsWord hword _
    · cases st with
      | mmap => exact MmapStorage.refuses_of_allMiss (hpast.allMiss hreq h)
      | buffer =>
        obtain ⟨hsound, hfin, hslices⟩ := h
        exact BufferSystem.refuses_of_tame hsound hfin (Or.inr (hpast.allMiss hreq hslices))

/-- Every reached storage is settled. -/
theorem ReachedIn.settled {backend : Backend} {st₀ : Storage} {a₀ : Arith} {ops : List Op}
    (hreach : st₀.ReachedIn host a₀ ops st) (hload : backend.load host files = .ok st₀)
    (hsize : ∀ b ∈ host.shards files, b.length < 2 ^ 63)
    (hops : ∀ c, .read c ∈ ops → c.reqLen < 2 ^ 64) : st.Settled host := by
  cases hreach with
  | mmap hrun =>
    cases backend with
    | mmap adviceSet =>
      obtain ⟨s₀, hs, hst⟩ := map_eq_ok.1 hload
      obtain rfl := Storage.mmap.inj hst
      have hshards := (MmapStorage.loadData_eq_ok.1 hs).2
      have hrun' := MmapStorage.run_of_ok hops (by rw [hshards]; exact hsize)
        (by rw [hshards]; exact ⟨Nat.zero_le _, Nat.zero_le _⟩) hrun
      obtain ⟨i, o, rfl, hin⟩ := MmapStorage.run_of_load hs hrun'
      exact MmapStorage.overSlices_reader hsize hin
    | buffer bufferSize =>
      obtain ⟨s, -, hs⟩ := map_eq_ok.1 hload
      cases hs
  | @buffer _ sys _ hsteps hfin =>
    cases backend with
    | mmap adviceSet =>
      obtain ⟨s, -, hs⟩ := map_eq_ok.1 hload
      cases hs
    | buffer bufferSize =>
      obtain ⟨sys₀, hs, hsys⟩ := map_eq_ok.1 hload
      obtain ⟨lens, -, rfl⟩ := BufferSystem.loadData_eq_ok.1 hs
      obtain rfl := Storage.buffer.inj hsys
      have hissue := (@BufferSystem.issue_loaded _ host files bufferSize lens.sum ops).1
      have hin : ((BufferSystem.loaded files bufferSize lens.sum).issue ops).InHand host :=
        ⟨fun _ hb => absurd hb.symm (Option.some_ne_none _),
          fun _ hb => absurd hb.symm (Option.some_ne_none _), fun _ => rfl⟩
      rcases BufferSystem.sound_of_reaches hissue hin ⟨hsize, hops⟩ hsteps with
        ⟨p, hp⟩ | ⟨hsound, hin', hfiles⟩
      · cases hfin.1.symm.trans hp
      · refine ⟨hsound, hfin, BufferSystem.overSlices_held (hsound.idle hfin.1) hin' ?_⟩
        rw [hfiles]
        exact hsize

end Storage

/-- A sequential call on a reached storage is served or refused without a panic in every
build exactly when no shard is left to test or the sum of the first test fits the word.
That is when a checked build does so; a build that wraps does so too when every wrapped sum
is past the end of its shard. -/
theorem oversized_refused_iff {backend : Backend} {st₀ st : Storage} {a₀ : Arith} {ops : List Op}
    (hsize : ∀ b ∈ host.shards files, b.length < 2 ^ 63)
    (hops : ∀ c, .read c ∈ ops → c.reqLen < 2 ^ 64) (hload : backend.load host files = .ok st₀)
    (hreach : st₀.ReachedIn host a₀ ops st) (c : Call) :
    ((∀ a, a ≠ .unbounded → st.Refuses host a c) ↔ st.FitsWord host c) ∧
    (st.Refuses host .debug c ↔ st.FitsWord host c) ∧
    (c.reqLen < 2 ^ 64 →
      (st.Refuses host .release c ↔ st.FitsWord host c ∨ st.WrapsPast host c)) := by
  have h := hreach.settled hload hsize hops
  exact ⟨⟨fun hall => h.fitsWord_of_debug (hall .debug (by decide)),
      fun hword a _ => h.refuses_of_fitsWord hword a⟩,
    ⟨h.fitsWord_of_debug, fun hword => h.refuses_of_fitsWord hword _⟩, h.release_iff⟩

/-- Half of a file is read, and the largest request that the word still holds is refused.
When the file has been read to its end, a build that wraps refuses the largest request with
a target, and a checked build does not. -/
theorem oversized_refused_iff_half :
    let host : Host Unit := fun _ => File.ofBytes [1, 2, 3, 4, 5, 6, 7, 8]
    let st := fun o => Storage.mmap ((MmapStorage.ofShards (host.shards ["a.bin"])).moveTo 0 o)
    (∀ a, a ≠ .unbounded → (st 4).Refuses host a (.sliceSequential (2 ^ 64 - 5))) ∧
      (st 8).Refuses host .release (.sliceTfSequential (2 ^ 64 - 1)) ∧
      ¬(st 8).Refuses host .debug (.sliceTfSequential (2 ^ 64 - 1)) := by
  intro host st
  have hload : (Backend.mmap AdviceSet.default).load host ["a.bin"] =
      .ok (.mmap (MmapStorage.ofShards (host.shards ["a.bin"]))) := rfl
  have hreach : ∀ n, n = 4 ∨ n = 8 → (Storage.mmap
      (MmapStorage.ofShards (host.shards ["a.bin"]))).ReachedIn host .release
      [.read (.sliceSequential n)] (st n) := by
    rintro n (rfl | rfl)
    · exact .mmap (show _ = Except.ok ([some (.plain [1, 2, 3, 4])], _) by decide +kernel)
    · exact .mmap (show _ = Except.ok ([some (.plain [1, 2, 3, 4, 5, 6, 7, 8])], _) by
        decide +kernel)
  have hops : ∀ n, n = 4 ∨ n = 8 → ∀ c, Op.read c ∈ [Op.read (Call.sliceSequential n)] →
      c.reqLen < 2 ^ 64 := by
    rintro n hn c hc
    obtain rfl : c = .sliceSequential n := by simpa using hc
    change n < 2 ^ 64
    omega
  have hsize : ∀ b ∈ host.shards ["a.bin"], b.length < 2 ^ 63 := by decide
  have hhalf := oversized_refused_iff hsize (hops 4 (Or.inl rfl)) hload
    (hreach 4 (Or.inl rfl)) (.sliceSequential (2 ^ 64 - 5))
  have hend := oversized_refused_iff hsize (hops 8 (Or.inr rfl)) hload
    (hreach 8 (Or.inr rfl)) (.sliceTfSequential (2 ^ 64 - 1))
  refine ⟨hhalf.1.2 fun _ => by decide, (hend.2.2 (by decide)).2 (Or.inr ⟨?_, ?_⟩), fun h => ?_⟩
  · intro b hb
    obtain rfl : ([1, 2, 3, 4, 5, 6, 7, 8] : Bytes) = b := Option.some.inj hb
    decide
  · exact fun b hb => absurd hb List.not_mem_nil
  · exact absurd (hend.2.1.1 h (by decide)) (by decide)

/-- Half of a file is read, and the next request overflows: a checked build panics in the
fit test, and a wrapping build passes it and panics at the slice. -/
theorem oversized_panics :
    let host : Host Unit := fun _ => File.ofBytes [1, 2, 3, 4, 5, 6, 7, 8]
    let s₀ := MmapStorage.ofShards (host.shards ["a.bin"])
    (Backend.mmap AdviceSet.default).load host ["a.bin"] = .ok (.mmap s₀) ∧
      (∀ a, (Storage.mmap s₀).ReachedIn host a [.read (.sliceSequential 4)]
        (.mmap (s₀.moveTo 0 4))) ∧
      (s₀.moveTo 0 4).call .debug (.sliceSequential (2 ^ 64 - 4)) = .error .overflow ∧
      (s₀.moveTo 0 4).call .release (.sliceSequential (2 ^ 64 - 4)) = .error .slice := by
  intro host s₀
  have hrun : ∀ a, s₀.run a [.read (.sliceSequential 4)] =
      .ok ([some (.plain [1, 2, 3, 4])], s₀.moveTo 0 4) := by
    intro a
    cases a <;> decide +kernel
  refine ⟨rfl, fun a => .mmap (hrun a), ?_, ?_⟩
  · decide +kernel
  · decide +kernel

end Plast
