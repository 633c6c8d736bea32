/-
# How large a dataset is

The trait `Storage` documents `len` as the number of elements.  `MmapStorage` adds up
elements of 4 bytes and refuses a file that is not a whole number of them;
`BufferStorage` adds up the lengths that `fs::metadata` reports and refuses nothing.

The elements of a storage are the items of a `Dataloader` with `num_elements = 1`, and
both backends have the same number of them, whatever the schedule
(`Storage.Counts.of_load`).  `MmapStorage::len` is that number, `BufferStorage::len` the
number of bytes, so the backends agree only on empty files (`backends_agree_iff`).
-/

import Plast.Storage.Backends
import Plast.Dataloader.Loader

namespace Plast

open Machine BlockReader

variable {ε : Type} {host : Host ε} {files : List PathBuf}

namespace Storage

/-- `Storage::len`. -/
def len : Storage → ℕ
  | .mmap s => s.len
  | .buffer sys => sys.storage.len

/-- One `next` of a `Dataloader` iterator with `n` elements over the storage, on some
schedule. -/
def Next (host : Host ε) (n : ℕ) (st : Storage) (y : Option Window × Storage) : Prop :=
  st.Runs host [.read (.sliceSequential (n * bytesPerToken))] [y.1] y.2

/-- Draining by items of one element ends, and on every schedule there are `k` of them. -/
def Counts (host : Host ε) (st : Storage) (k : ℕ) : Prop :=
  (∃ ws st', Drains (Next host 1) st ws st') ∧ ∀ ws st', Drains (Next host 1) st ws st' → ws.length = k

variable {st st' : Storage} {r r' : State UInt8} {n : ℕ}

/-- One `next` returns what the reader returns. -/
theorem Reads.next (h : st.Reads host files r) {w : Option Window} (hnext : st.Next host n (w, st')) :
    w = (r.seek st.keepLast (Call.sliceSequential (n * bytesPerToken)).request).1.map
        (Call.sliceSequential (n * bytesPerToken)).view ∧
      st'.Reads host files
        (r.seek st.keepLast (Call.sliceSequential (n * bytesPerToken)).request).2 ∧
      st'.keepLast = st.keepLast := by
  obtain ⟨hws, hreads, hkeep⟩ := h.runs hnext
  exact ⟨(List.cons.inj hws).1, hreads, hkeep⟩

/-- Every `next` returns. -/
theorem Reads.exists_next (h : st.Reads host files r) (n : ℕ) : ∃ y, st.Next host n y := by
  obtain ⟨ws, st', hrun⟩ := h.exists_run [.read (.sliceSequential (n * bytesPerToken))]
  have hws := (h.runs hrun).1
  rw [State.run_read] at hws
  exact ⟨(_, st'), hws ▸ hrun⟩

/-- What one request shows of a reader, as the window of its call. -/
def Shows (keepLast : Bool) (c : Call) (r : State UInt8) (y : Option Window × State UInt8) : Prop :=
  ((r.seek keepLast c.request).1.map c.view, (r.seek keepLast c.request).2) = y

theorem drains_shows {keepLast : Bool} {c : Call} {hits : List (Hit UInt8)}
    (h : Drains (repeated keepLast c.request) r hits r') :
    Drains (Shows keepLast c) r (hits.map c.view) r' := by
  refine (Drains.map_iff (fun r => r) c.view fun r y => ?_).2 ⟨hits, r', h, rfl, rfl⟩
  refine ⟨fun hy => ⟨_, rfl, hy⟩, ?_⟩
  rintro ⟨z, rfl, rfl⟩
  rfl

/-- Draining a storage is draining the reader it is read as, on every schedule. -/
theorem Reads.drains_iff (h : st.Reads host files r) {hits : List (Hit UInt8)}
    (hdrain : Drains (repeated st.keepLast (Call.sliceSequential (n * bytesPerToken)).request)
      r hits r') (ws : List Window) :
    (∃ st', Drains (Next host n) st ws st') ↔
      ws = hits.map (Call.sliceSequential (n * bytesPerToken)).view := by
  let c := Call.sliceSequential (n * bytesPerToken)
  constructor
  · rintro ⟨st', hst⟩
    have hstep : ∀ t r y, t.Reads host files r ∧ t.keepLast = st.keepLast → Next host n t y →
        ∃ r'', Shows st.keepLast c r (y.1.map id, r'') ∧ y.2.Reads host files r'' ∧
          y.2.keepLast = st.keepLast := by
      rintro t r ⟨w, t'⟩ ⟨hreads, hkeep⟩ hnext
      obtain ⟨rfl, hreads', hkeep'⟩ := hreads.next hnext
      rw [hkeep] at hreads' hkeep' ⊢
      exact ⟨_, by rw [Option.map_id]; rfl, hreads', hkeep'⟩
    obtain ⟨u, hu, -⟩ := hst.map hstep ⟨h, rfl⟩
    rw [List.map_id] at hu
    exact (hu.unique (fun _ _ _ hy hy' => hy.symm.trans hy') (drains_shows hdrain)).1
  · rintro rfl
    have hstep : ∀ r t y, t.Reads host files r ∧ t.keepLast = st.keepLast →
        repeated st.keepLast c.request r y →
        ∃ t', Next host n t (y.1.map c.view, t') ∧ t'.Reads host files y.2 ∧
          t'.keepLast = st.keepLast := by
      rintro r t _ ⟨hreads, hkeep⟩ rfl
      obtain ⟨⟨w, t'⟩, hnext⟩ := hreads.exists_next n
      obtain ⟨rfl, hreads', hkeep'⟩ := hreads.next hnext
      rw [hkeep] at hnext hreads' hkeep'
      exact ⟨t', hnext, hreads', hkeep'⟩
    obtain ⟨st', hst, -⟩ := hdrain.map hstep ⟨h, rfl⟩
    exact ⟨st', hst⟩

end Storage

/-- What both backends count of readable files: the whole elements of each. -/
theorem Storage.counts_of_load {backend : Backend} {st : Storage} (hread : host.Readable files)
    (hload : backend.load host files = .ok st) :
    st.Counts host ((host.shards files).map fun b => b.length / 4).sum := by
  have hreads := backend.load_reads hread hload
  obtain ⟨r', hdrain⟩ := drain_blocks (q := (Call.sliceSequential (1 * bytesPerToken)).request)
    st.keepLast (by decide) (host.shards files)
  have hiff := hreads.drains_iff hdrain
  refine ⟨⟨_, (hiff _).2 rfl⟩, fun ws st' hst => ?_⟩
  rw [(hiff ws).1 ⟨st', hst⟩, List.length_map, List.length_flatMap]
  refine congrArg List.sum (List.map_congr_left fun b _ => ?_)
  rw [length_windows]
  rfl

/-- The backends agree on what a dataset is and how large it is: they accept the same
lists of files, and the `len` of each is the number of its elements. -/
structure BackendsAgree (host : Host ε) (files : List PathBuf) (adviceSet : AdviceSet)
    (bufferSize : ℕ) : Prop where
  accept : (∃ st, (Backend.buffer bufferSize).load host files = .ok st) ↔
    ∃ st, (Backend.mmap adviceSet).load host files = .ok st
  size : ∀ st st', (Backend.buffer bufferSize).load host files = .ok st →
    (Backend.mmap adviceSet).load host files = .ok st' →
      st.len = st'.len ∧ st.Counts host st.len ∧ st'.Counts host st'.len

/-- Loading measures readable files by their bytes, whatever they hold. -/
theorem Backend.load_buffer (hread : host.Readable files) (bufferSize : ℕ) :
    ∃ st, (Backend.buffer bufferSize).load host files = .ok st ∧
      st.len = ((host.shards files).map List.length).sum :=
  ⟨_, map_eq_ok.2 ⟨_, BufferSystem.loadData_of_readable hread bufferSize, rfl⟩, rfl⟩

/-- Mapping accepts whole numbers of elements, and counts them. -/
theorem Backend.load_mmap_iff {adviceSet : AdviceSet} (hread : host.Readable files)
    (hadvice : ∀ path ∈ files, adviceSet.apply (host path) = .ok ()) {st : Storage} :
    (Backend.mmap adviceSet).load host files = .ok st ↔
      (∀ b ∈ host.shards files, b.length % 4 = 0) ∧
        st = .mmap (MmapStorage.ofShards (host.shards files)) := by
  constructor
  · intro h
    obtain ⟨s, hs, rfl⟩ := map_eq_ok.1 h
    have halign := MmapStorage.aligned_of_loadData hs
    obtain ⟨-, rfl⟩ := MmapStorage.loadData_eq_ok.1 hs
    exact ⟨halign, rfl⟩
  · rintro ⟨halign, rfl⟩
    exact map_eq_ok.2 ⟨_, MmapStorage.loadData_of_readable hread hadvice halign, rfl⟩

/-- There are at most as many elements as bytes. -/
theorem sum_elements_le (shards : List Bytes) :
    (shards.map fun b => b.length / 4).sum ≤ (shards.map List.length).sum := by
  induction shards with
  | nil => exact Nat.le_refl 0
  | cons b shards ih => exact Nat.add_le_add (Nat.div_le_self b.length 4) ih

/-- There are as many only if there are none. -/
theorem sum_elements_eq_iff (shards : List Bytes) :
    (shards.map List.length).sum = (shards.map fun b => b.length / 4).sum ↔
      ∀ b ∈ shards, b = [] := by
  induction shards with
  | nil => exact ⟨fun _ b hb => absurd hb List.not_mem_nil, fun _ => rfl⟩
  | cons b shards ih =>
    have hrest := sum_elements_le shards
    have hb : b = [] ↔ b.length = 0 := List.length_eq_zero_iff.symm
    rw [List.forall_mem_cons, hb, List.map_cons, List.map_cons, List.sum_cons, List.sum_cons]
    constructor
    · intro h
      exact ⟨by omega, ih.1 (by omega)⟩
    · rintro ⟨hzero, hall⟩
      have hsum := ih.2 hall
      omega

/-- Of files that can be opened, mapped, advised and measured the backends agree on
exactly the empty ones: one refuses what is no whole number of elements, and the other
gives its length in bytes. -/
theorem backends_agree_iff {adviceSet : AdviceSet} (hread : host.Readable files)
    (hadvice : ∀ path ∈ files, adviceSet.apply (host path) = .ok ()) (bufferSize : ℕ) :
    BackendsAgree host files adviceSet bufferSize ↔ ∀ b ∈ host.shards files, b = [] := by
  obtain ⟨st, hst, hlen⟩ := Backend.load_buffer hread bufferSize
  have hmmap := @Backend.load_mmap_iff _ _ _ adviceSet hread hadvice
  constructor
  · intro h
    obtain ⟨st', hst'⟩ := h.accept.1 ⟨st, hst⟩
    obtain ⟨heq, -⟩ := h.size st st' hst hst'
    obtain ⟨-, rfl⟩ := hmmap.1 hst'
    exact (sum_elements_eq_iff _).1 (hlen.symm.trans heq)
  · intro h
    have halign : ∀ b ∈ host.shards files, b.length % 4 = 0 := fun b hb => by
      rw [h b hb]
      rfl
    have hsum := (sum_elements_eq_iff _).2 h
    refine ⟨⟨fun _ => ⟨_, hmmap.2 ⟨halign, rfl⟩⟩, fun _ => ⟨st, hst⟩⟩, fun t t' ht ht' => ?_⟩
    obtain rfl := Except.ok.inj (hst.symm.trans ht)
    have hcounts := Storage.counts_of_load hread hst
    have hcounts' := Storage.counts_of_load hread ht'
    obtain ⟨-, rfl⟩ := hmmap.1 ht'
    rw [hlen, hsum]
    exact ⟨rfl, hcounts, hcounts'⟩

/-- On two empty files they agree. -/
theorem backends_agree_iff_empty :
    BackendsAgree (fun _ => File.ofBytes [] : Host Unit) ["a.bin", "b.bin"] AdviceSet.default 1 :=
  (backends_agree_iff (fun path _ => File.ofBytes_readable _) (fun _ _ => rfl) 1).2 (by decide)

/-- A file of two elements has length 8 for one backend and 2 for the other, and both
yield two items; a file of five bytes is accepted by one and refused by the other. -/
theorem backends_disagree :
    let host : Host Unit := fun path =>
      File.ofBytes (if path = "a.bin" then [1, 0, 0, 0, 2, 0, 0, 0] else [1, 0, 0, 0, 2])
    (∃ st st', (Backend.buffer 1).load host ["a.bin"] = .ok st ∧
      (Backend.mmap AdviceSet.default).load host ["a.bin"] = .ok st' ∧
      st.len = 8 ∧ st'.len = 2 ∧ st.Counts host 2 ∧ st'.Counts host 2) ∧
    (∃ st, (Backend.buffer 1).load host ["b.bin"] = .ok st) ∧
    (Backend.mmap AdviceSet.default).load host ["b.bin"] =
      .error (.invalidByteAlignment 5 "b.bin") ∧
    ¬ BackendsAgree host ["a.bin"] AdviceSet.default 1 ∧
    ¬ BackendsAgree host ["b.bin"] AdviceSet.default 1 := by
  intro host
  have hread : ∀ files, host.Readable files := fun files path _ => File.ofBytes_readable _
  obtain ⟨st, hst, hlen⟩ := Backend.load_buffer (hread ["a.bin"]) 1
  have hst' := (@Backend.load_mmap_iff _ _ _ AdviceSet.default (hread ["a.bin"])
    (fun _ _ => rfl) _).2 ⟨by decide +kernel, rfl⟩
  have hlen : st.len = 8 := hlen
  have hrefuse : (Backend.mmap AdviceSet.default).load host ["b.bin"] =
      .error (.invalidByteAlignment 5 "b.bin") := rfl
  refine ⟨⟨st, _, hst, hst', hlen, rfl, Storage.counts_of_load (hread _) hst,
    Storage.counts_of_load (hread _) hst'⟩, ⟨_, rfl⟩, hrefuse, fun h => ?_, fun h => ?_⟩
  · have heq := (h.size _ _ hst hst').1
    rw [hlen] at heq
    exact absurd heq (by decide)
  · obtain ⟨st', hst'⟩ := h.accept.1 ⟨_, rfl⟩
    cases hrefuse.symm.trans hst'

end Plast
