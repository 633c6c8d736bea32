/-
# An epoch of right-sized batches

Which batch sizes give a finite epoch of batches of the right size, on a
memory-mapped storage and with the wrapping arithmetic of a release build?

`Dataloader` accepts every `num_elements` and asks the storage for
`num_elements * 4` bytes modulo `2^64`.  As long as the cursor, that length and
the lookahead add up to a word, the storage behaves as in `ℕ`, and it yields the
consecutive windows of every shard (`MmapStorage.drains_windows`).  What remains
are the lengths that wrap: `0`, which is served for ever, `2^64 - 4`, which
passes the fit test of a teacher-forcing request by wrapping to `0`, and batch
sizes from `2^62` on, whose windows are too short if any shard is long enough to
serve one.  `epoch_iff` is the exact condition.
-/

import Plast.Dataloader.Loader

namespace Plast

open Machine BlockReader

/-- The window is `n` bytes long, and so is its target. -/
def Window.Sized (n : ℕ) : Window → Prop
  | .plain bytes => bytes.length = n
  | .tf input target => input.length = n ∧ target.length = n

@[simp] theorem Window.sized_plain {n : ℕ} {bytes : Bytes} :
    (Window.plain bytes).Sized n ↔ bytes.length = n := Iff.rfl

@[simp] theorem Window.sized_tf {n : ℕ} {input target : Bytes} :
    (Window.tf input target).Sized n ↔ input.length = n ∧ target.length = n := Iff.rfl

/-- A served call shows a window of the length it asked for. -/
theorem Call.sized_view {c : Call} {h : Hit UInt8} (hfit : h.2 + c.request.need ≤ h.1.length) :
    (c.view h).Sized c.reqLen := by
  obtain ⟨b, o⟩ := h
  have hlen : ∀ p n, p + n ≤ b.length → (b.extract p (p + n)).length = n := by
    intro p n hp
    simp only [List.extract_eq_take_drop, List.length_take, List.length_drop]
    omega
  cases c with
  | sliceSequential n => exact hlen o n hfit
  | sliceTfSequential n =>
    change o + (n + 4) ≤ b.length at hfit
    refine ⟨hlen o n (by omega), ?_⟩
    rw [Nat.add_right_comm]
    exact hlen (o + 4) n (by omega)

/-- A request that fits the word does not overflow on shards that are slices. -/
theorem Call.noOverflow_of_lt (a : Arith) {c : Call} {shards : List Bytes}
    (hsize : ∀ b ∈ shards, b.length < 2 ^ 63) (hword : c.reqLen + c.lookahead < 2 ^ 64) :
    c.NoOverflow a shards :=
  ⟨Or.inr hword, fun b hb => Or.inr (by have := hsize b hb; omega)⟩

/-- There are at most as many windows of 4 bytes or more as tokens. -/
theorem length_windows_le {q : Request} (hq : 4 ≤ q.take) (shards : List Bytes) :
    (shards.flatMap (windows q · 0)).length ≤ (shards.map List.length).sum / 4 := by
  induction shards with
  | nil => exact Nat.zero_le _
  | cons b rest ih =>
    have hb : (windows q b 0).length ≤ b.length / 4 := by
      rw [length_windows]
      exact (Nat.div_le_div_left hq (by decide)).trans (Nat.div_le_div_right (by omega))
    rw [List.flatMap_cons, List.length_append, List.map_cons, List.sum_cons]
    omega

/-! ### The epoch of a loader -/

/-- Draining `s` by the call `c` ends, after at most one window for every 4 bytes of
data, and every window is `n` bytes long. -/
def MmapStorage.Epoch (a : Arith) (c : Call) (n : ℕ) (s : MmapStorage) : Prop :=
  ∃ ws s', Drains (Answers a c) s ws s' ∧ ws.length ≤ (s.shards.map List.length).sum / 4 ∧
    ∀ w ∈ ws, w.Sized n

/-- Draining `iter_bytes` and draining `tf_iter_bytes` each end, after at most one
item for every 4 bytes of data, and every item consists of windows of exactly
`num_elements * 4` bytes. -/
def Dataloader.FiniteEpoch {α : Type} (a : Arith) (d : Dataloader α) : Prop :=
  (∃ it items it', d.iterBytes a = .ok it ∧ Drains (DataloaderIter.Answers a) it items it' ∧
    items.length ≤ (d.storage.shards.map List.length).sum / 4 ∧
    ∀ bytes ∈ items, bytes.length = d.numElements * 4) ∧
  (∃ it items it', d.tfIterBytes a = .ok it ∧ Drains (TFDataloaderIter.Answers a) it items it' ∧
    items.length ≤ (d.storage.shards.map List.length).sum / 4 ∧
    ∀ p ∈ items, p.1.length = d.numElements * 4 ∧ p.2.length = d.numElements * 4)

/-- The epoch of a loader is an epoch of its storage, for the two calls. -/
theorem Dataloader.finiteEpoch_iff {α : Type} {a : Arith} {d : Dataloader α} {n : ℕ}
    (hn : a.mul d.numElements bytesPerToken = .ok n) :
    d.FiniteEpoch a ↔
      d.storage.Epoch a (.sliceSequential n) (d.numElements * 4) ∧
        d.storage.Epoch a (.sliceTfSequential n) (d.numElements * 4) := by
  have hiter : d.iterBytes a = .ok ⟨d.storage, n, bytesConverter⟩ := by
    simp only [iterBytes, hn, bind, Except.bind, pure, Except.pure]
  have htf : d.tfIterBytes a = .ok ⟨d.storage, n, bytesConverter⟩ := by
    simp only [tfIterBytes, hn, bind, Except.bind, pure, Except.pure]
  refine and_congr ⟨?_, ?_⟩ ⟨?_, ?_⟩
  · rintro ⟨it, items, it', hit, hdrain, hcount, hlen⟩
    obtain rfl := Except.ok.inj (hit.symm.trans hiter)
    obtain ⟨chunks, t, hchunks, rfl, -⟩ := DataloaderIter.drains_iff.1 hdrain
    refine ⟨_, _, MmapStorage.drains_plain.2 ⟨chunks, t, hchunks, rfl, rfl⟩, ?_, ?_⟩
    · simpa using hcount
    · simpa only [List.forall_mem_map, bytesConverter, Window.sized_plain] using hlen
  · rintro ⟨ws, s', hdrain, hcount, hlen⟩
    obtain ⟨chunks, t, hchunks, rfl, -⟩ := MmapStorage.drains_plain.1 hdrain
    refine ⟨_, _, _, hiter, DataloaderIter.drains_iff.2 ⟨chunks, t, hchunks, rfl, rfl⟩, ?_, ?_⟩
    · simpa using hcount
    · simpa only [List.forall_mem_map, bytesConverter, Window.sized_plain] using hlen
  · rintro ⟨it, items, it', hit, hdrain, hcount, hlen⟩
    obtain rfl := Except.ok.inj (hit.symm.trans htf)
    obtain ⟨pairs, t, hpairs, rfl, -⟩ := TFDataloaderIter.drains_iff.1 hdrain
    refine ⟨_, _, MmapStorage.drains_tf.2 ⟨pairs, t, hpairs, rfl, rfl⟩, ?_, ?_⟩
    · simpa using hcount
    · simpa only [List.forall_mem_map, bytesConverter, Window.sized_tf] using hlen
  · rintro ⟨ws, s', hdrain, hcount, hlen⟩
    obtain ⟨pairs, t, hpairs, rfl, -⟩ := MmapStorage.drains_tf.1 hdrain
    refine ⟨_, _, _, htf, TFDataloaderIter.drains_iff.2 ⟨pairs, t, hpairs, rfl, rfl⟩, ?_, ?_⟩
    · simpa using hcount
    · simpa only [List.forall_mem_map, bytesConverter, Window.sized_tf] using hlen

namespace MmapStorage

/-- With nothing loaded, every call returns `None` at once. -/
theorem epoch_nil (a : Arith) (c : Call) (n : ℕ) : (ofShards []).Epoch a c n := by
  have hcall : (ofShards []).call a c = .ok (none, ofShards []) := by
    cases c with
    | sliceSequential k =>
      simp [call, sliceSequential, sequentialLoop, ofShards]
      rfl
    | sliceTfSequential k =>
      simp [call, sliceTfSequential, sequentialLoop, ofShards]
      rfl
  exact ⟨[], _, .stop hcall, Nat.zero_le _, fun _ h => absurd h List.not_mem_nil⟩

/-- A length that is a multiple of 4, does not wrap and is either the right one or
longer than every shard gives an epoch. -/
theorem epoch_of_reqLen (a : Arith) {c : Call} {n : ℕ} {shards : List Bytes}
    (hsize : ∀ b ∈ shards, b.length < 2 ^ 63) (hpos : 4 ≤ c.reqLen)
    (hword : c.reqLen + c.lookahead < 2 ^ 64)
    (hright : c.reqLen = n ∨ ∀ b ∈ shards, b.length < c.reqLen) :
    (ofShards shards).Epoch a c n := by
  obtain ⟨s', hdrain⟩ := drains_windows (by omega) (Call.noOverflow_of_lt a hsize hword)
  refine ⟨_, s', hdrain, ?_, ?_⟩
  · rw [List.length_map]
    exact length_windows_le hpos shards
  · intro w hw
    obtain ⟨x, hx, rfl⟩ := List.mem_map.1 hw
    obtain ⟨b, hb, hxb⟩ := List.mem_flatMap.1 hx
    have hpos' : 0 < c.request.take := by
      change 0 < c.reqLen
      omega
    obtain ⟨hxb, hfit⟩ := fits_of_mem_windows hpos' hxb
    rcases hright with rfl | hlong
    · exact Call.sized_view (hxb ▸ hfit)
    · have hlt := hlong b hb
      change x.2 + (c.reqLen + c.lookahead) ≤ b.length at hfit
      omega

/-- An empty request is served for ever by the first shard. -/
theorem not_epoch_zero (a : Arith) (b : Bytes) (rest : List Bytes) (n : ℕ) :
    ¬(ofShards (b :: rest)).Epoch a (.sliceSequential 0) n := by
  rintro ⟨ws, s', hdrain, -, -⟩
  have hcall : (ofShards (b :: rest)).call .unbounded (.sliceSequential 0) =
      .ok (some (.plain []), ofShards (b :: rest)) := by
    simp [call, sliceSequential, sequentialLoop, ofShards, windowEnd, plainWindow, slice, bind,
      Except.bind, pure, Except.pure]
  have hword : (ofShards (b :: rest)).call a (.sliceSequential 0) = _ :=
    call_of_exact (Or.inr (show 0 + 0 + 0 < 2 ^ 64 by decide))
  exact hdrain.false_of_loop fun y hy => Except.ok.inj ((Eq.symm hy).trans (hword.trans hcall))

/-- A request for all but 4 bytes of the word wraps to `0` with its lookahead, passes
the fit test, and its window is out of bounds. -/
theorem not_epoch_wrapped {b : Bytes} (hb : b.length < 2 ^ 63) (rest : List Bytes) (n : ℕ) :
    ¬(ofShards (b :: rest)).Epoch .release (.sliceTfSequential (2 ^ 64 - 4)) n := by
  rintro ⟨ws, s', hdrain, -, -⟩
  have hend : windowEnd .release 0 (2 ^ 64 - 4) 4 = .ok 0 := rfl
  have hcursor : Arith.release.add 0 (2 ^ 64 - 4) = .ok (2 ^ 64 - 4) := rfl
  have hslice : slice b 0 (2 ^ 64 - 4) = .error .slice := slice_of_gt (by omega)
  have hloop : (ofShards (b :: rest)).sequentialLoop .release (2 ^ 64 - 4) 4 =
      .ok (some (b, 0), (ofShards (b :: rest)).moveTo 0 (2 ^ 64 - 4)) :=
    sequentialLoop_hit rfl hend (Nat.zero_le _) hcursor
  have hcall : (ofShards (b :: rest)).call .release (.sliceTfSequential (2 ^ 64 - 4)) =
      .error .slice := by
    simp only [call, sliceTfSequential, hloop, bind, Except.bind, tfWindow, hcursor, hslice]
  cases hdrain with
  | stop h => cases hcall.symm.trans h
  | item h _ => cases hcall.symm.trans h

/-- A shard long enough for a request yields a window of its length, so the request
has the right length. -/
theorem reqLen_of_epoch {a : Arith} {c : Call} {n : ℕ} {shards : List Bytes}
    (hsize : ∀ b ∈ shards, b.length < 2 ^ 63) (hpos : 0 < c.reqLen)
    (hword : c.reqLen + c.lookahead < 2 ^ 64) (h : (ofShards shards).Epoch a c n) {b : Bytes}
    (hb : b ∈ shards) (hfit : c.request.need ≤ b.length) : c.reqLen = n := by
  obtain ⟨ws, s', hdrain, -, hsized⟩ := h
  obtain ⟨t, hwindows⟩ := drains_windows hpos (Call.noOverflow_of_lt a hsize hword)
  have hfun : ∀ s y y', Answers a c s y → Answers a c s y' → y = y' := fun s y y' hy hy' =>
    Except.ok.inj ((Eq.symm hy).trans hy')
  obtain ⟨rfl, -⟩ := hdrain.unique hfun hwindows
  have hmem : (b, 0) ∈ windows c.request b 0 := by
    rw [windows_of_le hpos (by rwa [Nat.zero_add])]
    exact List.mem_cons_self
  have hview := hsized _ (List.mem_map_of_mem (List.mem_flatMap.2 ⟨b, hb, hmem⟩))
  have hlen : (c.view (b, 0)).Sized c.reqLen := Call.sized_view (by rwa [Nat.zero_add])
  cases c with
  | sliceSequential k => exact Eq.trans hlen.symm hview
  | sliceTfSequential k => exact Eq.trans hlen.1.symm hview.1

end MmapStorage

/-- Exactly when is an epoch finite and right-sized?  For every batch size from `1`
up to, not including, `2^62 - 1`; for every batch size if no file is loaded; and else if the
wrapped length is not `2^64 - 4` and longer than every shard, so that nothing is
ever served.  (A mapped file is shorter than `2^63` bytes, as every Rust slice is.) -/
theorem epoch_iff {ε α : Type} {host : Host ε} {setup : MmapSetup} {s : MmapStorage} {num : ℕ}
    (marker : DataloaderType α) (hload : MmapStorage.loadData host setup = .ok s)
    (hsize : ∀ b ∈ s.shards, b.length < 2 ^ 63) (hnum : num < 2 ^ 64) :
    (Dataloader.new s num marker).FiniteEpoch .release ↔
      (1 ≤ num ∧ num < 2 ^ 62 - 1) ∨ s.shards = [] ∨
        (num * 4 % 2 ^ 64 ≠ 2 ^ 64 - 4 ∧ ∀ b ∈ s.shards, b.length < num * 4 % 2 ^ 64) := by
  obtain ⟨-, rfl⟩ := MmapStorage.loadData_eq_ok.1 hload
  generalize host.shards setup.dataFiles = shards at hsize ⊢
  rw [Dataloader.finiteEpoch_iff (Arith.mul_release num 4)]
  change ∀ b ∈ shards, _ at hsize
  change (MmapStorage.ofShards shards).Epoch _ _ (num * 4) ∧
    (MmapStorage.ofShards shards).Epoch _ _ (num * 4) ↔ _ ∨ shards = [] ∨ (_ ∧ ∀ b ∈ shards, _)
  obtain ⟨n, hn⟩ : ∃ n, n = num * 4 % 2 ^ 64 := ⟨_, rfl⟩
  rw [← hn]
  have hword : n < 2 ^ 64 := hn ▸ Nat.mod_lt _ (by decide)
  have halign : n % 4 = 0 := by omega
  constructor
  · rintro ⟨hplain, htf⟩
    cases shards with
    | nil => exact Or.inr (Or.inl rfl)
    | cons b rest =>
      have hzero : n ≠ 0 := by
        rintro rfl
        exact MmapStorage.not_epoch_zero _ b rest _ hplain
      have hwrap : n ≠ 2 ^ 64 - 4 := by
        rintro rfl
        exact MmapStorage.not_epoch_wrapped (hsize b List.mem_cons_self) rest _ htf
      rcases Nat.lt_or_ge num (2 ^ 62) with hsmall | hlarge
      · exact Or.inl (by omega)
      · refine Or.inr (Or.inr ⟨hwrap, fun b' hb' => Nat.lt_of_not_le fun hle => ?_⟩)
        have hright : (Call.sliceSequential n).reqLen = num * 4 :=
          MmapStorage.reqLen_of_epoch hsize (Nat.pos_of_ne_zero hzero) hword hplain hb' hle
        change n = num * 4 at hright
        omega
  · have hepoch (hpos : 4 ≤ n) (hlt : n + 4 < 2 ^ 64)
        (hright : n = num * 4 ∨ ∀ b ∈ shards, b.length < n) :
        (MmapStorage.ofShards shards).Epoch .release (.sliceSequential n) (num * 4) ∧
          (MmapStorage.ofShards shards).Epoch .release (.sliceTfSequential n) (num * 4) :=
      ⟨MmapStorage.epoch_of_reqLen .release hsize hpos hword hright,
        MmapStorage.epoch_of_reqLen .release hsize hpos hlt hright⟩
    rintro (⟨hpos, hsmall⟩ | rfl | ⟨hwrap, hlong⟩)
    · exact hepoch (by omega) (by omega) (Or.inl (by omega))
    · exact ⟨MmapStorage.epoch_nil _ _ _, MmapStorage.epoch_nil _ _ _⟩
    · cases shards with
      | nil => exact ⟨MmapStorage.epoch_nil _ _ _, MmapStorage.epoch_nil _ _ _⟩
      | cons b rest =>
        have hb := hlong b List.mem_cons_self
        exact hepoch (by omega) (by omega) (Or.inr hlong)

/-- Batches of one token from one file of two. -/
theorem epoch_iff_one :
    let host : Host Unit := fun _ => File.ofBytes [1, 2, 3, 4, 5, 6, 7, 8]
    ∃ s, MmapStorage.loadData host (MmapSetup.new ["a.bin"]) = .ok s ∧
      (Dataloader.new s 1 bytesConverter).FiniteEpoch .release := by
  intro host
  have hload : MmapStorage.loadData host (MmapSetup.new ["a.bin"]) =
      .ok (MmapStorage.ofShards (host.shards ["a.bin"])) := rfl
  have hsize : ∀ b ∈ (MmapStorage.ofShards (host.shards ["a.bin"])).shards, b.length < 2 ^ 63 := by
    decide +kernel
  exact ⟨_, hload, (epoch_iff bytesConverter hload hsize (by decide)).2
    (Or.inl ⟨by decide, by decide⟩)⟩

/-- Batches of no tokens from the same file: the epoch does not end. -/
theorem epoch_zero_endless :
    let host : Host Unit := fun _ => File.ofBytes [1, 2, 3, 4, 5, 6, 7, 8]
    ∃ s, MmapStorage.loadData host (MmapSetup.new ["a.bin"]) = .ok s ∧
      ¬(Dataloader.new s 0 bytesConverter).FiniteEpoch .release := by
  intro host
  have hload : MmapStorage.loadData host (MmapSetup.new ["a.bin"]) =
      .ok (MmapStorage.ofShards [[1, 2, 3, 4, 5, 6, 7, 8]]) := rfl
  refine ⟨_, hload, fun h => ?_⟩
  have hplain := ((Dataloader.finiteEpoch_iff (Arith.mul_release 0 4)).1 h).1
  exact MmapStorage.not_epoch_zero .release _ _ _ hplain

end Plast
