/-
# Training over several epochs

`src/dataloader/loader.rs` and `src/dataloader/iterators.rs` are generic in the
storage.  Here a loader wraps either backend, and `next` is one call of the storage
on some schedule (`StorageLoader.IterNext`, `StorageLoader.TfIterNext`).

An epoch drains an iterator and then clears the state.  Whatever the schedule, the
first epoch yields the same on both backends: the chunks of every shard, or the
pairs.  `BufferStorage::clear_state` leaves the active shard in place, so every later
epoch over it begins with those of the last shard, and only then come those of all
shards (`training_epochs`).
-/

import Plast.Storage.Backends
import Plast.Dataloader.Reference

namespace Plast

open Machine BlockReader Chunks

variable {ε α : Type} {host : Host ε} {files : List PathBuf}

/-! ### Draining a storage -/

/-- The windows of several shards are what the windows of each show. -/
theorem map_flatMap_windows {ω γ : Type} {c : Call} {pack : ω → Window} {place : Hit UInt8 → ω}
    (hpack : Function.Injective pack) (hview : ∀ x, c.view x = pack (place x))
    {cut : Bytes → List ω} (hcut : ∀ b, (windows c.request b 0).map c.view = (cut b).map pack)
    (convert : ω → γ) (shards : List Bytes) :
    (shards.flatMap (windows c.request · 0)).map (fun x => convert (place x)) =
      (shards.flatMap cut).map convert := by
  have hone : ∀ b, (windows c.request b 0).map place = cut b := by
    intro b
    refine List.map_injective_iff.2 hpack ?_
    rw [List.map_map, ← hcut b]
    exact congrArg (List.map · _) (funext fun x => (hview x).symm)
  have hsplit : (fun x => convert (place x)) = convert ∘ place := rfl
  rw [hsplit, ← List.map_map, List.map_flatMap]
  simp only [hone]

namespace Storage

variable {st st' : Storage} {r r' : State UInt8}

/-- What one call answers, on some schedule. -/
def Answers (host : Host ε) (c : Call) (st : Storage) (y : Option Window × Storage) : Prop :=
  st.Runs host [.read c] [y.1] y.2

/-- One call answers what the reader does. -/
theorem Reads.answers {c : Call} {y : Option Window × Storage} (h : st.Reads host files r)
    (hy : st.Answers host c y) :
    y.1 = (r.seek st.keepLast c.request).1.map c.view ∧
      y.2.Reads host files (r.seek st.keepLast c.request).2 ∧ y.2.keepLast = st.keepLast := by
  obtain ⟨hws, hreads, hkeep⟩ := h.runs hy
  exact ⟨(List.cons.inj hws).1, hreads, hkeep⟩

/-- Every call returns. -/
theorem Reads.exists_answers (h : st.Reads host files r) (c : Call) : ∃ y, st.Answers host c y := by
  obtain ⟨ws, st', hrun⟩ := h.exists_run [.read c]
  have hws := (h.runs hrun).1
  rw [State.run_read] at hws
  exact ⟨(_, st'), hws ▸ hrun⟩

/-- The storage answers as the reader, and keeps its last shard or not as `keepLast` says. -/
def ReadsAs (host : Host ε) (files : List PathBuf) (keepLast : Bool) (r : State UInt8)
    (st : Storage) : Prop :=
  st.Reads host files r ∧ st.keepLast = keepLast

/-- `clear_state` on some schedule. -/
def Clears (host : Host ε) (st st' : Storage) : Prop := st.Runs host [.restart] [] st'

theorem ReadsAs.clears {keepLast : Bool} (h : st.ReadsAs host files keepLast r)
    (hclear : st.Clears host st') :
    st'.ReadsAs host files keepLast (r.restart keepLast (host.shards files)) := by
  obtain ⟨hreads, rfl⟩ := h
  obtain ⟨-, hreads', hkeep⟩ := hreads.runs hclear
  exact ⟨hreads', hkeep⟩

theorem ReadsAs.exists_clears {keepLast : Bool} (h : st.ReadsAs host files keepLast r) :
    ∃ st', st.Clears host st' := by
  obtain ⟨ws, st', hrun⟩ := h.1.exists_run [.restart]
  have hws := (h.1.runs hrun).1
  rw [State.run_restart, State.run_nil] at hws
  obtain rfl : ws = [] := hws
  exact ⟨st', hrun⟩

/-- What an iterator answers that makes the call `c` and converts what it returns: `pack` is
the window of what the method returns. -/
def Converts {ω γ : Type} (host : Host ε) (c : Call) (pack : ω → Window) (convert : ω → γ)
    (st : Storage) (y : Option γ × Storage) : Prop :=
  ∃ w : Option ω, st.Answers host c (w.map pack, y.2) ∧ y.1 = w.map convert

/-- An epoch: drain such an iterator, and clear the state. -/
def Epoch {ω γ : Type} (host : Host ε) (c : Call) (pack : ω → Window) (convert : ω → γ)
    (st : Storage) (items : List γ) (st' : Storage) : Prop :=
  ∃ t, Drains (Converts host c pack convert) st items t ∧ t.Clears host st'

section Converts

variable {ω γ : Type} {c : Call} {pack : ω → Window} {convert : ω → γ} {place : Hit UInt8 → ω}
  {keepLast : Bool}

/-- Every `next` of such an iterator returns, the conversion of what the reader does. -/
theorem Reads.exists_converts (h : st.Reads host files r) (hview : ∀ x, c.view x = pack (place x)) :
    ∃ t, Converts host c pack convert st
      ((r.seek st.keepLast c.request).1.map (fun x => convert (place x)), t) := by
  obtain ⟨⟨w, t⟩, hans⟩ := h.exists_answers c
  obtain ⟨rfl, -, -⟩ := h.answers hans
  refine ⟨t, (r.seek st.keepLast c.request).1.map place, ?_, (Option.map_map ..).symm⟩
  rw [Option.map_map]
  exact (congrArg (Option.map · (r.seek st.keepLast c.request).1) (funext hview)) ▸ hans

/-- Draining such an iterator yields the conversions of what the reader yields, on every
schedule. -/
theorem ReadsAs.drains (h : st.ReadsAs host files keepLast r) (hpack : Function.Injective pack)
    (hview : ∀ x, c.view x = pack (place x)) {hits : List (Hit UInt8)}
    (hdrain : Drains (repeated keepLast c.request) r hits r') :
    (∀ items t, Drains (Converts host c pack convert) st items t →
      items = hits.map (fun x => convert (place x)) ∧ t.ReadsAs host files keepLast r') ∧
    ∃ t, Drains (Converts host c pack convert) st (hits.map fun x => convert (place x)) t := by
  refine Drains.of_refines (R := fun (r : State UInt8) (t : Storage) =>
      t.ReadsAs host files keepLast r)
    (fun _ _ _ hy hy' => hy.symm.trans hy') ?_ ?_ hdrain h
  · rintro r t ⟨x, t'⟩ ⟨hreads, rfl⟩ ⟨w, hans, hx⟩
    obtain ⟨hw, hreads', hkeep⟩ := hreads.answers hans
    have hw : w.map pack = ((r.seek t.keepLast c.request).1.map place).map pack := by
      rw [Option.map_map]
      exact hw.trans (congrArg (Option.map · _) (funext hview))
    obtain rfl := Option.map_injective hpack hw
    exact ⟨_, rfl, hx.trans (Option.map_map ..), hreads', hkeep⟩
  · rintro r t ⟨hreads, rfl⟩
    obtain ⟨t', ht'⟩ := hreads.exists_converts hview
    exact ⟨_, ht'⟩

/-- Epoch `k` yields the windows of the shards that the reader goes through in it, and leads
to the next epoch; on some schedule it does, and on all it does nothing else. -/
theorem ReadsAs.epoch {first : List Bytes} (hfirst : host.shards files = [] → first = []) {k : ℕ}
    (h : st.ReadsAs host files keepLast (atEpoch keepLast first (host.shards files) k))
    (hpos : 0 < c.reqLen) (hpack : Function.Injective pack)
    (hview : ∀ x, c.view x = pack (place x)) :
    (∀ items t, st.Epoch host c pack convert items t →
      items = ((epochBlocks keepLast first (host.shards files) k).flatMap
        (windows c.request · 0)).map (fun x => convert (place x)) ∧
      t.ReadsAs host files keepLast (atEpoch keepLast first (host.shards files) (k + 1))) ∧
    ∃ items t, st.Epoch host c pack convert items t := by
  obtain ⟨r', hdrain⟩ := drains_epoch keepLast (show 0 < c.request.take from hpos) first
    (host.shards files) k
  obtain ⟨hall, t, ht⟩ := @ReadsAs.drains _ host files st _ r' _ _ c pack convert place keepLast
    h hpack hview _ hdrain
  constructor
  · rintro items t ⟨u, hu, hclear⟩
    obtain ⟨hitems, hreads⟩ := hall items u hu
    have hnext := hreads.clears hclear
    rw [restart_of_drains hfirst hdrain] at hnext
    exact ⟨hitems, hnext⟩
  · obtain ⟨-, hreads⟩ := hall _ t ht
    obtain ⟨u, hu⟩ := hreads.exists_clears
    exact ⟨_, u, t, ht, hu⟩

/-- Epoch after epoch, on every schedule. -/
theorem ReadsAs.epochs_iff {cut : Bytes → List ω} {first : List Bytes}
    (hfirst : host.shards files = [] → first = [])
    (h : st.ReadsAs host files keepLast (fresh first)) (hpos : 0 < c.reqLen)
    (hpack : Function.Injective pack) (hview : ∀ x, c.view x = pack (place x))
    (hcut : ∀ b, (windows c.request b 0).map c.view = (cut b).map pack)
    (epochs : List (List γ)) :
    (∃ t, Repeats (Epoch host c pack convert) st epochs t) ↔
      epochs = (List.range epochs.length).map fun k =>
        ((epochBlocks keepLast first (host.shards files) k).flatMap cut).map convert := by
  rw [List.range_eq_range']
  refine Repeats.iff_of_known (R := fun k t => t.ReadsAs host files keepLast
    (atEpoch keepLast first (host.shards files) k)) (fun k s items t hs ht => ?_)
    (fun k s hs => ?_) h epochs
  · obtain ⟨hitems, hnext⟩ := (hs.epoch hfirst hpos hpack hview).1 items t ht
    exact ⟨hitems.trans (map_flatMap_windows hpack hview hcut convert _), hnext⟩
  · exact (hs.epoch hfirst hpos hpack hview).2

end Converts

end Storage

/-! ### Loaders over a storage -/

/-- The struct `Dataloader` over either backend. -/
structure StorageLoader (α : Type) where
  storage : Storage
  numElements : ℕ
  marker : DataloaderType α

/-- The shards that epoch `k` over a backend goes through. -/
def Backend.epochShards : Backend → List Bytes → ℕ → List Bytes
  | .mmap _, shards, _ => shards
  | .buffer _, shards, 0 => shards
  | .buffer _, shards, _ + 1 => shards.getLast?.toList ++ shards

namespace StorageLoader

/-- `next` of the iterator that `Dataloader::iter` returns.  Its state is the storage that it
borrows.  The length of a window is taken not to overflow. -/
def IterNext (host : Host ε) (d : StorageLoader α) : Storage → Option α × Storage → Prop :=
  Storage.Converts host (.sliceSequential (d.numElements * bytesPerToken)) .plain d.marker.convert

/-- `next` of the iterator that `Dataloader::tf_iter` returns. -/
def TfIterNext (host : Host ε) (d : StorageLoader α) :
    Storage → Option (α × α) × Storage → Prop :=
  Storage.Converts host (.sliceTfSequential (d.numElements * bytesPerToken))
    (fun p : Bytes × Bytes => .tf p.1 p.2)
    (fun p : Bytes × Bytes => (d.marker.convert p.1, d.marker.convert p.2))

/-- An epoch of a loader: drain an iterator, and call `clear_state`. -/
def Epoch {γ : Type} (host : Host ε)
    (next : StorageLoader α → Storage → Option γ × Storage → Prop) (d : StorageLoader α)
    (items : List γ) (d' : StorageLoader α) : Prop :=
  ∃ t storage, Drains (next d) d.storage items t ∧ t.Clears host storage ∧
    d' = { d with storage := storage }

/-- The loaders over one storage after the other. -/
def wrap (numElements : ℕ) (marker : DataloaderType α) (storage : Storage) : StorageLoader α :=
  ⟨storage, numElements, marker⟩

theorem iterNext_wrap (host : Host ε) (n : ℕ) (marker : DataloaderType α) (st : Storage) :
    IterNext host (wrap n marker st) =
      Storage.Converts host (.sliceSequential (n * 4)) .plain marker.convert := rfl

theorem tfIterNext_wrap (host : Host ε) (n : ℕ) (marker : DataloaderType α) (st : Storage) :
    TfIterNext host (wrap n marker st) = Storage.Converts host (.sliceTfSequential (n * 4))
      (fun p : Bytes × Bytes => .tf p.1 p.2)
      (fun p : Bytes × Bytes => (marker.convert p.1, marker.convert p.2)) := rfl

/-- Epochs of a loader are epochs of its storage. -/
theorem repeats_iff {ω γ : Type} {c : Call} {pack : ω → Window} {convert : ω → γ}
    {next : StorageLoader α → Storage → Option γ × Storage → Prop} {n : ℕ}
    {marker : DataloaderType α}
    (hnext : ∀ st, next (wrap n marker st) = Storage.Converts host c pack convert) (st : Storage)
    (epochs : List (List γ)) :
    (∃ d', Repeats (Epoch host next) (wrap n marker st) epochs d') ↔
      ∃ t, Repeats (Storage.Epoch host c pack convert) st epochs t := by
  have hepoch : ∀ s items d', Epoch host next (wrap n marker s) items d' ↔
      ∃ t, s.Epoch host c pack convert items t ∧ d' = wrap n marker t := by
    intro s items d'
    unfold Epoch
    rw [hnext s]
    constructor
    · rintro ⟨t, storage, ht, hclear, rfl⟩
      exact ⟨storage, ⟨t, ht, hclear⟩, rfl⟩
    · rintro ⟨storage, ⟨t, ht, hclear⟩, rfl⟩
      exact ⟨t, storage, ht, hclear, rfl⟩
  constructor
  · rintro ⟨d', h⟩
    obtain ⟨t, ht, -⟩ := (Repeats.map_iff (wrap n marker) hepoch).1 h
    exact ⟨t, ht⟩
  · rintro ⟨t, ht⟩
    exact ⟨_, (Repeats.map_iff (wrap n marker) hepoch).2 ⟨t, ht, rfl⟩⟩

section Epochs

variable {st : Storage} {keepLast : Bool} {first : List Bytes} {n : ℕ}

/-- The epochs of `iter` over a storage that has not started. -/
theorem iter_epochs_iff (hfirst : host.shards files = [] → first = [])
    (h : st.ReadsAs host files keepLast (fresh first)) (hn : 1 ≤ n) (marker : DataloaderType α)
    (epochs : List (List α)) :
    (∃ d', Repeats (Epoch host (IterNext host)) ⟨st, n, marker⟩ epochs d') ↔
      epochs = (List.range epochs.length).map fun k =>
        ((epochBlocks keepLast first (host.shards files) k).flatMap (chunksExact (n * 4))).map
          marker.convert := by
  have hpos : 0 < n * 4 := by omega
  have hplain : Function.Injective Window.plain := fun b b' h => Window.plain.inj h
  have hview : ∀ x : Hit UInt8, (Call.sliceSequential (n * 4)).view x =
      .plain (x.1.extract x.2 (x.2 + n * 4)) := fun _ => rfl
  rw [show StorageLoader.mk st n marker = wrap n marker st from rfl,
    repeats_iff (iterNext_wrap host n marker),
    h.epochs_iff hfirst (show 0 < (Call.sliceSequential (n * 4)).reqLen from hpos) hplain hview
      (plainWindows_eq hpos)]

/-- The epochs of `tf_iter` over a storage that has not started. -/
theorem tfIter_epochs_iff (hfirst : host.shards files = [] → first = [])
    (h : st.ReadsAs host files keepLast (fresh first)) (hn : 1 ≤ n) (marker : DataloaderType α)
    (epochs : List (List (α × α))) :
    (∃ d', Repeats (Epoch host (TfIterNext host)) ⟨st, n, marker⟩ epochs d') ↔
      epochs = (List.range epochs.length).map fun k =>
        ((epochBlocks keepLast first (host.shards files) k).flatMap
          (shiftedChunks (n * 4) 4)).map fun p => (marker.convert p.1, marker.convert p.2) := by
  have hpos : 0 < n * 4 := by omega
  have hview : ∀ x : Hit UInt8, (Call.sliceTfSequential (n * 4)).view x =
      (fun p : Bytes × Bytes => Window.tf p.1 p.2) (x.1.extract x.2 (x.2 + n * 4),
        x.1.extract (x.2 + 4) (x.2 + n * 4 + 4)) := fun _ => rfl
  rw [show StorageLoader.mk st n marker = wrap n marker st from rfl,
    repeats_iff (tfIterNext_wrap host n marker),
    h.epochs_iff hfirst (show 0 < (Call.sliceTfSequential (n * 4)).reqLen from hpos)
      Window.tf_injective hview (tfWindows_eq hpos)]

end Epochs

end StorageLoader

/-- What a loaded storage goes through in epoch `k`. -/
theorem Backend.epochBlocks_eq {backend : Backend} {st : Storage}
    (hload : backend.load host files = .ok st) (shards : List Bytes) (k : ℕ) :
    epochBlocks st.keepLast shards shards k = backend.epochShards shards k := by
  cases backend with
  | mmap adviceSet =>
    obtain ⟨s, -, rfl⟩ := map_eq_ok.1 hload
    cases k <;> rfl
  | buffer bufferSize =>
    obtain ⟨sys, -, rfl⟩ := map_eq_ok.1 hload
    cases k with
    | zero => rfl
    | succ k => simp only [epochBlocks, atEpoch, Storage.keepLast, epochShards, ite_self, ↓reduceIte]

/-- **Epoch after epoch.**  Over readable files, for windows of at least one element and on
every schedule, a training run that drains `iter` again and again, with `clear_state` in
between, yields in every epoch the full chunks of the shards that the backend goes through in
it, converted; and likewise `tf_iter` the pairs.  The first epoch is the same on both
backends; over the prefetching one every later epoch first repeats the last shard. -/
theorem training_epochs {backend : Backend} {st : Storage} (hread : host.Readable files)
    (hload : backend.load host files = .ok st) {n : ℕ} (hn : 1 ≤ n) (marker : DataloaderType α) :
    (∀ epochs, (∃ d', Repeats (StorageLoader.Epoch host (StorageLoader.IterNext host))
        ⟨st, n, marker⟩ epochs d') ↔
      epochs = (List.range epochs.length).map fun k =>
        ((backend.epochShards (host.shards files) k).flatMap (chunksExact (n * 4))).map
          marker.convert) ∧
    ∀ epochs, (∃ d', Repeats (StorageLoader.Epoch host (StorageLoader.TfIterNext host))
        ⟨st, n, marker⟩ epochs d') ↔
      epochs = (List.range epochs.length).map fun k =>
        ((backend.epochShards (host.shards files) k).flatMap (shiftedChunks (n * 4) 4)).map
          fun p => (marker.convert p.1, marker.convert p.2) := by
  have hreads : st.ReadsAs host files st.keepLast (fresh (host.shards files)) :=
    ⟨backend.load_reads hread hload, rfl⟩
  constructor
  · intro epochs
    rw [StorageLoader.iter_epochs_iff id hreads hn]
    simp only [Backend.epochBlocks_eq hload]
  · intro epochs
    rw [StorageLoader.tfIter_epochs_iff id hreads hn]
    simp only [Backend.epochBlocks_eq hload]

/-- Two epochs over two files of one token each, prefetched: the second begins with the last
file. -/
theorem training_epochs_two :
    let host : Host Unit := fun path =>
      File.ofBytes (if path = "a.bin" then [1, 0, 0, 0] else [2, 0, 0, 0])
    ∃ st, (Backend.buffer 1).load host ["a.bin", "b.bin"] = .ok st ∧
      ∃ d', Repeats (StorageLoader.Epoch host (StorageLoader.IterNext host))
        ⟨st, 1, u32Converter⟩ [[[1], [2]], [[2], [1], [2]]] d' := by
  intro host
  have hread : host.Readable ["a.bin", "b.bin"] := fun path _ => File.ofBytes_readable _
  obtain ⟨st, hst⟩ : ∃ st, (Backend.buffer 1).load host ["a.bin", "b.bin"] = .ok st := ⟨_, rfl⟩
  refine ⟨st, hst, ((training_epochs hread hst (Nat.le_refl 1) u32Converter).1 _).2 ?_⟩
  have hchunks : ∀ b : Bytes, b.length = 4 → chunksExact 4 b = [b] := fun b hb =>
    chunksExact_of_length_eq (by decide) hb
  have hshards : host.shards ["a.bin", "b.bin"] = [[1, 0, 0, 0], [2, 0, 0, 0]] := rfl
  simp only [List.length_cons, List.length_nil, List.range_succ, List.range_zero, hshards,
    Backend.epochShards, List.map_append, List.map_cons, List.map_nil, List.flatMap_append,
    List.flatMap_cons, List.flatMap_nil, Nat.one_mul, Nat.zero_add,
    hchunks [1, 0, 0, 0] rfl, hchunks [2, 0, 0, 0] rfl]
  decide +kernel

end Plast
