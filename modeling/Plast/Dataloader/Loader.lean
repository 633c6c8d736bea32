/-
# The data loader

`src/dataloader/loader.rs`, `src/dataloader/iterators.rs` and
`src/dataloader/datatypes.rs`, over a memory-mapped storage.

A `Dataloader` multiplies its number of elements by `BYTES_PER_TOKEN` once, when
an iterator is created, and the iterator asks the storage for that many bytes on
every `next`.  A converter only maps what comes out, so draining an iterator of
raw bytes is draining the storage by one sequential call
(`DataloaderIter.drains_iff`, `TFDataloaderIter.drains_iff`).  As long as nothing overflows
(`Call.NoOverflow`) that yields the consecutive windows of every shard
(`MmapStorage.drains_windows`).
-/

import Plast.Storage.MmapReader
import Plast.Library.Endian

namespace Plast

open Machine BlockReader

/-- The constant `BYTES_PER_TOKEN`. -/
def bytesPerToken : ℕ := 4

variable {α : Type}

/-- The trait `DataloaderType`. -/
structure DataloaderType (α : Type) where
  convert : Bytes → α

/-- `BytesConverter`. -/
def bytesConverter : DataloaderType Bytes := ⟨fun bytes => bytes⟩

/-- `U32Converter`, the converter that the documentation of the trait gives. -/
def u32Converter : DataloaderType (List UInt32) := ⟨Endian.decode⟩

/-- The struct `Dataloader`. -/
structure Dataloader (α : Type) where
  storage : MmapStorage
  numElements : ℕ
  marker : DataloaderType α

/-- The struct `DataloaderIter`; here `numElements` is a number of bytes. -/
structure DataloaderIter (α : Type) where
  storage : MmapStorage
  numElements : ℕ
  marker : DataloaderType α

/-- The struct `TFDataloaderIter`; here `numElements` is a number of bytes. -/
structure TFDataloaderIter (α : Type) where
  storage : MmapStorage
  numElements : ℕ
  marker : DataloaderType α

namespace Dataloader

/-- `Dataloader::new`. -/
def new (storage : MmapStorage) (numElements : ℕ) (marker : DataloaderType α) : Dataloader α :=
  ⟨storage, numElements, marker⟩

/-- `Dataloader::clear_state`. -/
def clearState (d : Dataloader α) : Dataloader α := { d with storage := d.storage.clearState }

/-- `Dataloader::iter`. -/
def iter (a : Arith) (d : Dataloader α) : Except Panic (DataloaderIter α) := do
  return ⟨d.storage, ← a.mul d.numElements bytesPerToken, d.marker⟩

/-- `Dataloader::iter_bytes`. -/
def iterBytes (a : Arith) (d : Dataloader α) : Except Panic (DataloaderIter Bytes) := do
  return ⟨d.storage, ← a.mul d.numElements bytesPerToken, bytesConverter⟩

/-- `Dataloader::tf_iter`. -/
def tfIter (a : Arith) (d : Dataloader α) : Except Panic (TFDataloaderIter α) := do
  return ⟨d.storage, ← a.mul d.numElements bytesPerToken, d.marker⟩

/-- `Dataloader::tf_iter_bytes`. -/
def tfIterBytes (a : Arith) (d : Dataloader α) : Except Panic (TFDataloaderIter Bytes) := do
  return ⟨d.storage, ← a.mul d.numElements bytesPerToken, bytesConverter⟩

end Dataloader

/-- `DataloaderIter::next`. -/
def DataloaderIter.next (a : Arith) (it : DataloaderIter α) :
    Except Panic (Option α × DataloaderIter α) := do
  let (bytes, storage) ← it.storage.sliceSequential a it.numElements
  return (bytes.map it.marker.convert, { it with storage := storage })

/-- `TFDataloaderIter::next`. -/
def TFDataloaderIter.next (a : Arith) (it : TFDataloaderIter α) :
    Except Panic (Option (α × α) × TFDataloaderIter α) := do
  let (pair, storage) ← it.storage.sliceTfSequential a it.numElements
  return (pair.map fun p => (it.marker.convert p.1, it.marker.convert p.2),
    { it with storage := storage })

/-! ### Draining -/

/-- What one `next` of an iterator answers. -/
def DataloaderIter.Answers (a : Arith) (it : DataloaderIter α)
    (y : Option α × DataloaderIter α) : Prop :=
  it.next a = .ok y

/-- What one `next` of a teacher-forcing iterator answers. -/
def TFDataloaderIter.Answers (a : Arith) (it : TFDataloaderIter α)
    (y : Option (α × α) × TFDataloaderIter α) : Prop :=
  it.next a = .ok y

/-- No sum that a drain by this call computes overflows: not the request with its
lookahead, and not a request that starts inside a shard that can serve it.  In a
word that means that no shard is longer than `2^63` bytes, as every Rust slice is. -/
def Call.NoOverflow (a : Arith) (c : Call) (shards : List Bytes) : Prop :=
  a.Exact (c.reqLen + c.lookahead) ∧ ∀ b ∈ shards, a.Exact (2 * b.length)

theorem Call.noOverflow_unbounded (c : Call) (shards : List Bytes) :
    c.NoOverflow .unbounded shards :=
  ⟨Or.inl rfl, fun _ _ => Or.inl rfl⟩

namespace MmapStorage

/-- What one `slice_sequential` answers. -/
def Slices (a : Arith) (reqLen : ℕ) (s : MmapStorage) (y : Option Bytes × MmapStorage) : Prop :=
  s.sliceSequential a reqLen = .ok y

/-- What one `slice_tf_sequential` answers. -/
def SlicesTf (a : Arith) (reqLen : ℕ) (s : MmapStorage)
    (y : Option (Bytes × Bytes) × MmapStorage) : Prop :=
  s.sliceTfSequential a reqLen = .ok y

/-- What one sequential call answers. -/
def Answers (a : Arith) (c : Call) (s : MmapStorage) (y : Option Window × MmapStorage) : Prop :=
  s.call a c = .ok y

/-- A storage whose calls, while it keeps `Q`, do what a block reader does yields,
when it is drained by one call, what the reader yields. -/
theorem drains_of_repeated {a : Arith} {c : Call} {Q : MmapStorage → Prop}
    (hcall : ∀ t, Q t → ∃ i o, t.call a c =
      .ok ((t.reader.seek false c.request).1.map c.view, t.moveTo i o) ∧
      (t.moveTo i o).reader = (t.reader.seek false c.request).2 ∧ Q (t.moveTo i o))
    {s : MmapStorage} {r r' : State UInt8} {hits : List (Hit UInt8)} (hs : Q s)
    (hr : s.reader = r.settle) (h : Drains (repeated false c.request) r hits r') :
    ∃ s', Drains (Answers a c) s (hits.map c.view) s' := by
  have hstep : ∀ r t y, t.reader = r.settle ∧ Q t → repeated false c.request r y →
      ∃ t', Answers a c t (y.1.map c.view, t') ∧ t'.reader = y.2.settle ∧ Q t' := by
    rintro r t y ⟨hr, hQ⟩ rfl
    obtain ⟨i, o, heq, hreader, hQ'⟩ := hcall t hQ
    rw [hr, State.seek_settle] at heq hreader
    exact ⟨_, heq, hreader.trans (State.settle_seek r).symm, hQ'⟩
  obtain ⟨s', hs', -⟩ := h.map hstep ⟨hr, hs⟩
  exact ⟨s', hs'⟩

/-- The sums of the next call are exact, and so are those of all calls after it. -/
def Callable (t : MmapStorage) (a : Arith) (c : Call) : Prop :=
  t.InRange ∧ a.Exact (t.localCursor + c.reqLen + c.lookahead) ∧
    ∀ b ∈ t.shards, a.Exact (2 * b.length)

/-- Draining a fresh storage by one call that asks for something yields the
consecutive windows of every shard. -/
theorem drains_windows {a : Arith} {c : Call} {shards : List Bytes} (hpos : 0 < c.reqLen)
    (hword : c.NoOverflow a shards) :
    ∃ s', Drains (Answers a c) (ofShards shards)
      ((shards.flatMap (windows c.request · 0)).map c.view) s' := by
  obtain ⟨r', hr'⟩ := drain_blocks false (show 0 < c.request.take from hpos) shards
  have hfresh : (ofShards shards).Callable a c :=
    ⟨⟨Nat.zero_le _, Nat.zero_le _⟩, hword.1.mono (Nat.le_of_eq (by simp [ofShards])), hword.2⟩
  have hcall : ∀ t : MmapStorage, t.Callable a c → ∃ i o, t.call a c =
      .ok ((t.reader.seek false c.request).1.map c.view, t.moveTo i o) ∧
      (t.moveTo i o).reader = (t.reader.seek false c.request).2 ∧ (t.moveTo i o).Callable a c := by
    rintro t ⟨hin, hend, hsize⟩
    obtain ⟨i, o, hcall, hreader, hkeep⟩ := t.call_eq c
    exact ⟨i, o, (call_of_exact hend).trans hcall, hreader, hkeep hin,
      call_keeps hsize hend hreader (hkeep hin), hsize⟩
  exact drains_of_repeated hcall hfresh (reader_ofShards shards) hr'

/-- Draining by a plain call is draining by `slice_sequential`. -/
theorem drains_plain {a : Arith} {n : ℕ} {s s' : MmapStorage} {ws : List Window} :
    Drains (Answers a (.sliceSequential n)) s ws s' ↔
      ∃ chunks t, Drains (Slices a n) s chunks t ∧ ws = chunks.map .plain ∧ s' = t := by
  refine Drains.map_iff (fun s => s) Window.plain fun s y => ?_
  simp only [Answers, call, bind_eq_ok, pure, Except.pure, Except.ok.injEq, Slices]

/-- Draining by a teacher-forcing call is draining by `slice_tf_sequential`. -/
theorem drains_tf {a : Arith} {n : ℕ} {s s' : MmapStorage} {ws : List Window} :
    Drains (Answers a (.sliceTfSequential n)) s ws s' ↔
      ∃ pairs t, Drains (SlicesTf a n) s pairs t ∧ ws = pairs.map (fun p => .tf p.1 p.2) ∧
        s' = t := by
  refine Drains.map_iff (fun s => s) (fun p : Bytes × Bytes => Window.tf p.1 p.2) fun s y => ?_
  simp only [Answers, call, bind_eq_ok, pure, Except.pure, Except.ok.injEq, SlicesTf]

end MmapStorage

/-- Draining an iterator converts what draining the storage yields. -/
theorem DataloaderIter.drains_iff {a : Arith} {s : MmapStorage} {n : ℕ} {marker : DataloaderType α}
    {items : List α} {it' : DataloaderIter α} :
    Drains (Answers a) ⟨s, n, marker⟩ items it' ↔
      ∃ chunks t, Drains (MmapStorage.Slices a n) s chunks t ∧ items = chunks.map marker.convert ∧
        it' = ⟨t, n, marker⟩ := by
  refine Drains.map_iff (fun s => DataloaderIter.mk s n marker) marker.convert fun s y => ?_
  simp only [Answers, next, bind_eq_ok, pure, Except.pure, Except.ok.injEq, MmapStorage.Slices]

/-- Draining a teacher-forcing iterator converts what draining the storage yields. -/
theorem TFDataloaderIter.drains_iff {a : Arith} {s : MmapStorage} {n : ℕ}
    {marker : DataloaderType α} {items : List (α × α)} {it' : TFDataloaderIter α} :
    Drains (Answers a) ⟨s, n, marker⟩ items it' ↔
      ∃ pairs t, Drains (MmapStorage.SlicesTf a n) s pairs t ∧
        items = pairs.map (fun p => (marker.convert p.1, marker.convert p.2)) ∧
        it' = ⟨t, n, marker⟩ := by
  refine Drains.map_iff (fun s => TFDataloaderIter.mk s n marker)
    (fun p : Bytes × Bytes => (marker.convert p.1, marker.convert p.2)) fun s y => ?_
  simp only [Answers, next, bind_eq_ok, pure, Except.pure, Except.ok.injEq, MmapStorage.SlicesTf]

end Plast
