/-
# The two backends side by side

A `Storage` is a loaded `MmapStorage`, or a loaded `BufferStorage` together with
its threads.  `Storage.Runs` is the meaning of a script: the calls `ops` return
`ws` and leave the storage in a state; for the prefetching backend it allows
every schedule.  Both are block readers over the same shards
(`Storage.Reads.runs_iff`) that differ in what they do with the last one.

Three results follow from that view.

* `buffer_refines_mmap`: up to the first `None` the two return the same.
* `sequential_ordered`: without `clear_state`, the windows follow each other in
  the data, each inside one shard.
* `clearState_restarts_iff`: `BufferStorage::clear_state` leaves `active_buffer`
  in place, so it restarts the dataset exactly when there is nothing in it.
-/

import Plast.Storage.MmapReader
import Plast.Storage.BufferReader

namespace Plast

open Machine BlockReader Transition

variable {ε : Type} {host : Host ε} {files : List PathBuf}

/-- How files are loaded. -/
inductive Backend
  /-- `MmapStorage::load_data` with these hints. -/
  | mmap (adviceSet : AdviceSet)
  /-- `BufferStorage::load_data` with this many buffered shards. -/
  | buffer (bufferSize : ℕ)
  deriving DecidableEq, Repr

/-- A loaded storage, with its threads. -/
inductive Storage
  | mmap (s : MmapStorage)
  | buffer (sys : BufferSystem)
  deriving DecidableEq

/-- Load the files. -/
def Backend.load (host : Host ε) (files : List PathBuf) :
    Backend → Except (DataLoaderError ε) Storage
  | .mmap adviceSet => (MmapStorage.loadData host ⟨files, adviceSet⟩).map .mmap
  | .buffer bufferSize => (BufferSystem.loadData host files bufferSize).map .buffer

namespace Storage

/-- The script `ops` returns `ws` and leaves `st'`. -/
inductive Runs (host : Host ε) : Storage → List Op → List (Option Window) → Storage → Prop
  | mmap {s s' : MmapStorage} {ops : List Op} {ws : List (Option Window)} :
    s.run .unbounded ops = .ok (ws, s') → Runs host (.mmap s) ops ws (.mmap s')
  /-- On some schedule. -/
  | buffer {sys sys' : BufferSystem} {ops : List Op} {ws : List (Option Window)} :
    Reaches (BufferSystem.step host .unbounded) (sys.issue ops) sys' → sys'.Finished →
    sys'.log = sys.log ++ ws → Runs host (.buffer sys) ops ws (.buffer sys')

/-- At some moment of the script `ops` its calls have returned `ws`. -/
inductive Logs (host : Host ε) : Storage → List Op → List (Option Window) → Prop
  | mmap {s s' : MmapStorage} {ops : List Op} {ws : List (Option Window)} :
    s.run .unbounded ops = .ok (ws, s') → Logs host (.mmap s) ops ws
  | buffer {sys sys' : BufferSystem} {ops : List Op} {ws : List (Option Window)} :
    Reaches (BufferSystem.step host .unbounded) (sys.issue ops) sys' →
    sys'.log = sys.log ++ ws → Logs host (.buffer sys) ops ws

/-- When a script has ended, its calls have returned what it returns. -/
theorem Runs.logs {st st' : Storage} {ops : List Op} {ws : List (Option Window)}
    (h : st.Runs host ops ws st') : st.Logs host ops ws := by
  cases h with
  | mmap hrun => exact .mmap hrun
  | buffer hreach _ hlog => exact .buffer hreach hlog

/-- Whether the last shard is kept when the data ends. -/
def keepLast : Storage → Bool
  | .mmap _ => false
  | .buffer _ => true

/-- Between two calls, the storage answers as the block reader `r` over the files. -/
def Reads (host : Host ε) (files : List PathBuf) (r : State UInt8) : Storage → Prop
  | .mmap s => s.shards = host.shards files ∧ s.reader = r.settle
  | .buffer sys => sys.Sound host ∧ sys.Finished ∧ sys.storage.dataFiles = files ∧ sys.held host = r

variable {st st' : Storage} {r : State UInt8}

/-- A finished script returns what the reader returns. -/
theorem Reads.runs {ops : List Op} {ws : List (Option Window)} (h : st.Reads host files r)
    (hrun : st.Runs host ops ws st') :
    ws = (r.run Call.request Call.view st.keepLast (host.shards files) ops).1 ∧
      st'.Reads host files (r.run Call.request Call.view st.keepLast (host.shards files) ops).2 ∧
      st'.keepLast = st.keepLast := by
  cases hrun with
  | mmap hrun =>
    obtain ⟨hshards, hreader⟩ := h
    obtain ⟨i, o, heq, hreader', -⟩ := MmapStorage.run_eq ops hreader
    obtain ⟨rfl, rfl⟩ := Prod.mk.inj (Except.ok.inj (hrun.symm.trans heq))
    rw [hshards] at hreader' ⊢
    exact ⟨rfl, ⟨hshards, hreader'⟩, rfl⟩
  | @buffer sys sys' _ _ hreach hfin hlog =>
    obtain ⟨hsound, hidle, rfl, rfl⟩ := h
    obtain ⟨hissue, hout⟩ := BufferSystem.issue_finished hsound hidle ops
    obtain ⟨hsound', hkeep, hfiles⟩ := BufferSystem.outcome_of_reaches hissue hreach
    have heq : (sys'.log, sys'.held host) = BufferSystem.answers sys.log
        (host.shards sys.storage.dataFiles) ops (sys.held host) :=
      (BufferSystem.outcome_of_finished host hfin).symm.trans (hkeep.trans hout)
    obtain ⟨hlog', hheld⟩ := Prod.mk.inj heq
    exact ⟨List.append_cancel_left (hlog.symm.trans hlog'), ⟨hsound', hfin, hfiles, hheld⟩, rfl⟩

/-- A script whose last call returns `None` leaves a reader at its end. -/
theorem Reads.ended {ops : List Op} {c : Call} {ws : List (Option Window)}
    (h : st.Reads host files r) (hrun : st.Runs host (ops ++ [.read c]) (ws ++ [none]) st') :
    ∃ r' : State UInt8, st'.Reads host files r' ∧ r'.Ended st'.keepLast := by
  obtain ⟨hws, hreads, hkeep⟩ := h.runs hrun
  rw [State.run_append, State.run_read] at hws hreads
  refine ⟨_, hreads, ?_⟩
  have hlast := (List.append_inj' hws rfl).2
  rw [List.cons.injEq, eq_comm, Option.map_eq_none_iff] at hlast
  rw [hkeep]
  exact State.ended_of_seek_none hlast.1

/-- Every script can be run. -/
theorem Reads.exists_run (h : st.Reads host files r) (ops : List Op) :
    ∃ ws st', st.Runs host ops ws st' := by
  cases st with
  | mmap s =>
    obtain ⟨i, o, heq, -, -⟩ := MmapStorage.run_eq ops h.2
    exact ⟨_, _, .mmap heq⟩
  | buffer sys =>
    obtain ⟨hsound, hidle, -, -⟩ := h
    obtain ⟨hissue, hout⟩ := BufferSystem.issue_finished hsound hidle ops
    obtain ⟨sys', hreach, hfin⟩ := (BufferSystem.completes hissue).exists_final
    obtain ⟨-, hkeep, -⟩ := BufferSystem.outcome_of_reaches hissue hreach
    have heq := (BufferSystem.outcome_of_finished host hfin).symm.trans (hkeep.trans hout)
    exact ⟨_, _, .buffer hreach hfin (Prod.mk.inj heq).1⟩

/-- What a script may return is what the reader returns, whatever the schedule. -/
theorem Reads.runs_iff {ops : List Op} {ws : List (Option Window)} (h : st.Reads host files r) :
    (∃ st', st.Runs host ops ws st') ↔
      ws = (r.run Call.request Call.view st.keepLast (host.shards files) ops).1 := by
  constructor
  · rintro ⟨st', hrun⟩
    exact (h.runs hrun).1
  · rintro rfl
    obtain ⟨ws, st', hrun⟩ := h.exists_run ops
    exact ⟨st', (h.runs hrun).1 ▸ hrun⟩

/-- At any moment the calls made so far have returned what the reader returns. -/
theorem Reads.logs {ops : List Op} {ws : List (Option Window)} (h : st.Reads host files r)
    (hlogs : st.Logs host ops ws) :
    ws <+: (r.run Call.request Call.view st.keepLast (host.shards files) ops).1 := by
  cases hlogs with
  | mmap hrun => exact (h.runs (.mmap hrun)).1 ▸ List.prefix_refl _
  | @buffer sys sys' _ _ hreach hlog =>
    obtain ⟨hsound, hidle, rfl, rfl⟩ := h
    obtain ⟨hissue, hout⟩ := BufferSystem.issue_finished hsound hidle ops
    obtain ⟨-, hkeep, -⟩ := BufferSystem.outcome_of_reaches hissue hreach
    have hpre : sys.log ++ ws <+: (BufferSystem.answers sys.log
        (host.shards sys.storage.dataFiles) ops (sys.held host)).1 := by
      rw [← hout, ← hkeep, ← hlog]
      exact List.prefix_append _ _
    exact (List.prefix_append_right_inj _).1 hpre

end Storage

/-- Readable files that take the hints and are whole numbers of elements are mapped. -/
theorem MmapStorage.loadData_of_readable {adviceSet : AdviceSet} (hread : host.Readable files)
    (hadvice : ∀ path ∈ files, adviceSet.apply (host path) = .ok ())
    (halign : ∀ b ∈ host.shards files, b.length % 4 = 0) :
    loadData host ⟨files, adviceSet⟩ = .ok (ofShards (host.shards files)) := by
  refine loadData_eq_ok.2 ⟨fun path hpath => ?_, rfl⟩
  obtain ⟨b, hb, -⟩ := hread path hpath
  exact ⟨b, hb, hadvice path hpath, halign b (List.mem_filterMap.2 ⟨path, hpath, hb⟩)⟩

/-- Readable files are prefetched, whatever they hold. -/
theorem BufferSystem.loadData_of_readable (hread : host.Readable files) (bufferSize : ℕ) :
    loadData host files bufferSize =
      .ok (loaded files bufferSize ((host.shards files).map List.length).sum) :=
  loadData_eq_ok.2 ⟨_, hread.metadata, rfl⟩

/-- A storage loaded from readable files is a reader that has not started. -/
theorem Backend.load_reads (backend : Backend) {st : Storage} (hread : host.Readable files)
    (hload : backend.load host files = .ok st) :
    st.Reads host files (fresh (host.shards files)) := by
  cases backend with
  | mmap adviceSet =>
    obtain ⟨s, hs, rfl⟩ := map_eq_ok.1 hload
    obtain ⟨-, rfl⟩ := MmapStorage.loadData_eq_ok.1 hs
    exact ⟨rfl, MmapStorage.reader_ofShards _⟩
  | buffer bufferSize =>
    obtain ⟨sys, hs, rfl⟩ := map_eq_ok.1 hload
    obtain ⟨lens, -, rfl⟩ := BufferSystem.loadData_eq_ok.1 hs
    exact ⟨⟨rfl, rfl, rfl, rfl⟩, ⟨rfl, rfl⟩, rfl,
      congrArg (State.mk none 0) (Spawn.delivered_of_readable hread _)⟩

/-! ### Up to the first `None` -/

/-- The prefetching storage refines the memory-mapped one: over the same readable,
aligned files, at every moment of every schedule, the calls made so far have
returned what the memory-mapped storage returns, up to and including the first
`None`; and every schedule goes on until all calls are made. -/
theorem buffer_refines_mmap {adviceSet : AdviceSet} (hread : host.Readable files)
    (halign : ∀ b ∈ host.shards files, b.length % 4 = 0)
    (hadvice : ∀ path ∈ files, adviceSet.apply (host path) = .ok ()) (bufferSize : ℕ) :
    ∃ s₀ sys, MmapStorage.loadData host ⟨files, adviceSet⟩ = .ok s₀ ∧
      BufferSystem.loadData host files bufferSize = .ok sys ∧
      ∀ calls : List Call, ∃ ws s, s₀.run .unbounded (calls.map .read) = .ok (ws, s) ∧
        Completes (BufferSystem.step host .unbounded) BufferSystem.Finished
          (sys.issue (calls.map .read)) ∧
        ∀ t, Reaches (BufferSystem.step host .unbounded) (sys.issue (calls.map .read)) t →
          upToNone t.log = upToNone (ws.take t.log.length) ∧
          (t.Finished → t.log.length = calls.length) := by
  have hmmap := MmapStorage.loadData_of_readable hread hadvice halign
  have hbuffer := BufferSystem.loadData_of_readable hread bufferSize
  refine ⟨_, _, hmmap, hbuffer, fun calls => ?_⟩
  have hreads := Backend.load_reads (.mmap adviceSet) hread (map_eq_ok.2 ⟨_, hmmap, rfl⟩)
  have hreads' := Backend.load_reads (.buffer bufferSize) hread (map_eq_ok.2 ⟨_, hbuffer, rfl⟩)
  obtain ⟨i, o, hrun, -, -⟩ := MmapStorage.run_eq (calls.map .read) hreads.2
  refine ⟨_, _, hrun, BufferSystem.completes (BufferSystem.issue_loaded files _ _ _).1,
    fun t ht => ?_⟩
  constructor
  · have hpre := hreads'.logs (.buffer ht (List.nil_append _).symm)
    calc upToNone t.log = upToNone (List.take t.log.length _) := by
          rw [← List.prefix_iff_eq_take.1 hpre]
      _ = (upToNone _).take t.log.length := upToNone_take _ _
      _ = (upToNone _).take t.log.length := by
          rw [show Storage.keepLast (.buffer _) = true from rfl, State.run_agree]
          rfl
      _ = upToNone (List.take t.log.length _) := (upToNone_take _ _).symm
  · intro hfin
    have hlog := (hreads'.runs (.buffer ht hfin (List.nil_append _).symm)).1
    rw [hlog, State.length_run_reads]

/-- Three files, one of them empty, and a channel without capacity: on every schedule a pair
comes from the first, a window that only fits the last from there, and then the data has
ended for a third call of four bytes and their target. -/
theorem buffer_refines_mmap_rendezvous :
    let host : Host Unit := fun path => File.ofBytes
      (if path = "a.bin" then [1, 2, 3, 4, 5, 6, 7, 8]
        else if path = "b.bin" then [] else [9, 10, 11, 12, 13, 14, 15, 16, 17, 18, 19, 20])
    ∃ sys, BufferSystem.loadData host ["a.bin", "b.bin", "c.bin"] 0 = .ok sys ∧
      ∀ t, Reaches (BufferSystem.step host .unbounded)
          (sys.issue ([Call.sliceTfSequential 4, .sliceSequential 8, .sliceTfSequential 4].map
            .read)) t → t.Finished →
        upToNone t.log = [some (.tf [1, 2, 3, 4] [5, 6, 7, 8]),
          some (.plain [9, 10, 11, 12, 13, 14, 15, 16]), none] := by
  intro host
  have hread : host.Readable ["a.bin", "b.bin", "c.bin"] := fun path _ => File.ofBytes_readable _
  have hadvice : ∀ path ∈ ["a.bin", "b.bin", "c.bin"],
      AdviceSet.default.apply (host path) = .ok () := fun _ _ => rfl
  obtain ⟨s₀, sys, hs₀, hsys, hcalls⟩ := buffer_refines_mmap hread (by decide +kernel) hadvice 0
  obtain rfl : MmapStorage.ofShards (host.shards ["a.bin", "b.bin", "c.bin"]) = s₀ :=
    Except.ok.inj hs₀
  obtain ⟨ws, s, hws, -, hlogs⟩ :=
    hcalls [.sliceTfSequential 4, .sliceSequential 8, .sliceTfSequential 4]
  have hrun : (MmapStorage.ofShards (host.shards ["a.bin", "b.bin", "c.bin"])).run .unbounded
      ([Call.sliceTfSequential 4, .sliceSequential 8, .sliceTfSequential 4].map .read) =
        .ok ([some (.tf [1, 2, 3, 4] [5, 6, 7, 8]),
          some (.plain [9, 10, 11, 12, 13, 14, 15, 16]), none],
          (MmapStorage.ofShards (host.shards ["a.bin", "b.bin", "c.bin"])).moveTo 3 0) := by
    decide +kernel
  obtain ⟨rfl, -⟩ := Prod.mk.inj (Except.ok.inj (hws.symm.trans hrun))
  refine ⟨sys, hsys, fun t ht hfin => ?_⟩
  obtain ⟨hlog, hlen⟩ := hlogs t ht
  rw [hlog, hlen hfin]
  rfl

/-! ### In order, inside one shard -/

/-- Window `w`, returned by call `c`, is what lies at position `o` of shard `i`: it
has the length asked for, and a target starts 4 bytes after its input. -/
def Window.LiesAt (shards : List Bytes) : Call → Window → ℕ → ℕ → Prop
  | .sliceSequential n, .plain bytes, i, o =>
    ∃ shard, shards[i]? = some shard ∧ o + n ≤ shard.length ∧ bytes.length = n ∧
      bytes = shard.extract o (o + n)
  | .sliceTfSequential n, .tf input target, i, o =>
    ∃ shard, shards[i]? = some shard ∧ o + 4 + n ≤ shard.length ∧
      input.length = n ∧ input = shard.extract o (o + n) ∧
      target.length = n ∧ target = shard.extract (o + 4) (o + 4 + n)
  | _, _, _, _ => False

/-- What a block reader places somewhere lies there. -/
theorem Window.liesAt_of_placed {shards : List Bytes} {c : Call} {w : Window} {i o : ℕ}
    (h : Placed Call.request Call.view shards c w i o) : w.LiesAt shards c i o := by
  obtain ⟨shard, hshard, hfit, rfl⟩ := h
  have hlen : ∀ p n, p + n ≤ shard.length → (shard.extract p (p + n)).length = n := by
    intro p n hp
    simp only [List.extract_eq_take_drop, List.length_take, List.length_drop]
    omega
  cases c with
  | sliceSequential n => exact ⟨shard, hshard, hfit, hlen o n hfit, rfl⟩
  | sliceTfSequential n =>
    have hfit : o + 4 + n ≤ shard.length := by
      change o + (n + 4) ≤ _ at hfit
      omega
    have htarget : shard.extract (o + 4) (o + n + 4) = shard.extract (o + 4) (o + 4 + n) := by
      rw [Nat.add_right_comm]
    refine ⟨shard, hshard, hfit, hlen o n (by omega), rfl, ?_, htarget⟩
    rw [htarget, hlen _ _ hfit]

/-- The byte offset of position `o` of shard `i` in the data. -/
def globalOffset (shards : List Bytes) (i o : ℕ) : ℕ := ((shards.take i).map List.length).sum + o

/-- Sequential reading on a freshly loaded storage, without `clear_state`: every
window returned lies inside one shard, and starts at or after the end of every
(input) window returned before it. -/
theorem sequential_ordered {backend : Backend} {st : Storage} {calls : List Call}
    {ws : List (Option Window)} (hread : host.Readable files)
    (hload : backend.load host files = .ok st) (hlogs : st.Logs host (calls.map .read) ws) :
    ∃ place : ℕ → ℕ × ℕ, ∀ k c w, calls[k]? = some c → ws[k]? = some (some w) →
      w.LiesAt (host.shards files) c (place k).1 (place k).2 ∧
      ∀ j c' w', j < k → calls[j]? = some c' → ws[j]? = some (some w') →
        globalOffset (host.shards files) (place j).1 (place j).2 + c'.reqLen ≤
          globalOffset (host.shards files) (place k).1 (place k).2 := by
  obtain ⟨later, hresults⟩ := (backend.load_reads hread hload).logs hlogs
  obtain ⟨place, hplace⟩ := @State.run_ordered _ _ _ st.keepLast _ Call.request Call.view _ _
    (fresh_along (host.shards files)) calls
  have hstart : ∀ i o, start (host.shards files) i o = globalOffset (host.shards files) i o :=
    fun i o => by rw [start, globalOffset, List.length_flatten]
  have hget : ∀ {k : ℕ} {w : Window}, ws[k]? = some (some w) → ((fresh (host.shards files)).run Call.request
      Call.view st.keepLast (host.shards files) (calls.map .read)).1[k]? = some (some w) := by
    intro k w hk
    rw [← hresults, List.getElem?_append_left (List.getElem?_eq_some_iff.1 hk).1, hk]
  refine ⟨place, fun k c w hc hw => ?_⟩
  obtain ⟨hplaced, -, hprev⟩ := hplace k c w hc (hget hw)
  refine ⟨Window.liesAt_of_placed hplaced, fun j c' w' hj hc' hw' => ?_⟩
  rw [← hstart, ← hstart]
  exact hprev j c' w' hj hc' (hget hw')

/-- A pair and a window of a file of two elements, and a window that only fits the next
file. -/
theorem sequential_ordered_three :
    let host : Host Unit := fun path => File.ofBytes
      (if path = "a.bin" then [1, 2, 3, 4, 5, 6, 7, 8] else [9, 10, 11, 12, 13, 14, 15, 16])
    let files := ["a.bin", "b.bin"]
    ∃ place : ℕ → ℕ × ℕ,
      (Window.tf [1, 2, 3, 4] [5, 6, 7, 8]).LiesAt (host.shards files) (.sliceTfSequential 4)
        (place 0).1 (place 0).2 ∧
      (Window.plain [5, 6, 7, 8]).LiesAt (host.shards files) (.sliceSequential 4)
        (place 1).1 (place 1).2 ∧
      (Window.plain [9, 10, 11, 12, 13, 14, 15, 16]).LiesAt (host.shards files)
        (.sliceSequential 8) (place 2).1 (place 2).2 ∧
      globalOffset (host.shards files) (place 0).1 (place 0).2 + 4 ≤
        globalOffset (host.shards files) (place 1).1 (place 1).2 ∧
      globalOffset (host.shards files) (place 1).1 (place 1).2 + 4 ≤
        globalOffset (host.shards files) (place 2).1 (place 2).2 := by
  intro host files
  have hread : host.Readable files := fun path _ => File.ofBytes_readable _
  have hload : (Backend.buffer 1).load host files =
      .ok (.buffer (BufferSystem.loaded files 1 16)) := rfl
  obtain ⟨st, hrun⟩ := ((Backend.buffer 1).load_reads hread hload).runs_iff.2
    (show [some (.tf [1, 2, 3, 4] [5, 6, 7, 8]), some (.plain [5, 6, 7, 8]),
        some (.plain [9, 10, 11, 12, 13, 14, 15, 16])] =
      (State.run Call.request Call.view _ _ ([Call.sliceTfSequential 4, .sliceSequential 4,
        .sliceSequential 8].map .read) _).1 by decide +kernel)
  obtain ⟨place, hplace⟩ := sequential_ordered hread hload hrun.logs
  obtain ⟨hfirst, -⟩ := hplace 0 _ _ rfl rfl
  obtain ⟨hsecond, hprev⟩ := hplace 1 _ _ rfl rfl
  obtain ⟨hthird, hprev'⟩ := hplace 2 _ _ rfl rfl
  exact ⟨place, hfirst, hsecond, hthird, hprev 0 _ _ (by decide) rfl rfl,
    hprev' 1 _ _ (by decide) rfl rfl⟩

/-! ### Starting over -/

/-- The storage holds no bytes of an earlier epoch: `active_buffer` is `None` or
empty. -/
def Storage.HoldsNothing : Storage → Prop
  | .mmap _ => True
  | .buffer sys => sys.storage.activeBuffer.getD [] = []

/-- After any script, `clear_state` makes a storage answer all further calls like a
freshly loaded one exactly when it holds nothing at that moment. -/
theorem clearState_restarts_iff {backend : Backend} {st₀ st : Storage} {history : List Op}
    {ws : List (Option Window)} (hread : host.Readable files)
    (hload : backend.load host files = .ok st₀) (hrun : st₀.Runs host history ws st) :
    (∀ (calls : List Call) (rs : List (Option Window)),
      (∃ st', st.Runs host (.restart :: calls.map .read) rs st') ↔
        ∃ st', st₀.Runs host (calls.map .read) rs st') ↔
      st.HoldsNothing := by
  have hreads := backend.load_reads hread hload
  obtain ⟨-, hreads', -⟩ := hreads.runs hrun
  generalize hr : (State.run _ _ _ _ history _).2 = r at hreads'
  -- both sides are runs of the reader, restarted where the script left it or from the start
  have hcalls : (∀ (calls : List Call) (rs : List (Option Window)),
      (∃ st', st.Runs host (.restart :: calls.map .read) rs st') ↔
        ∃ st', st₀.Runs host (calls.map .read) rs st') ↔
      ∀ calls : List Call,
        (State.run Call.request Call.view st.keepLast (host.shards files) (calls.map .read)
          (r.restart st.keepLast (host.shards files))).1 =
        (State.run Call.request Call.view st₀.keepLast (host.shards files) (calls.map .read)
          (fresh (host.shards files))).1 := by
    constructor
    · intro h calls
      exact hreads.runs_iff.1 ((h calls _).1 (hreads'.runs_iff.2 rfl))
    · intro h calls rs
      rw [hreads'.runs_iff, hreads.runs_iff, State.run_restart, h calls]
  rw [hcalls]
  cases hrun with
  | mmap => exact ⟨fun _ => trivial, fun _ _ => rfl⟩
  | buffer =>
    obtain ⟨-, -, -, rfl⟩ := hreads'
    refine State.run_stale_iff Call.view_of_span (fun n => ⟨.sliceSequential n, rfl⟩)
      fun hnil => ?_
    rw [← hr, hnil]
    exact congrArg State.active (State.run_no_blocks history)

/-- A window, and a pair that fits no shard any more: what was received last is an empty
file, and `clear_state` restarts the dataset. -/
theorem clearState_restarts_iff_empty_last :
    let host : Host Unit := fun path =>
      File.ofBytes (if path = "a.bin" then [1, 2, 3, 4, 5, 6, 7, 8] else [])
    ∃ st₀ st, (Backend.buffer 1).load host ["a.bin", "b.bin"] = .ok st₀ ∧
      st₀.Runs host [.read (.sliceSequential 4), .read (.sliceTfSequential 4)]
        [some (.plain [1, 2, 3, 4]), none] st ∧
      ∀ (calls : List Call) (rs : List (Option Window)),
        (∃ st', st.Runs host (.restart :: calls.map .read) rs st') ↔
          ∃ st', st₀.Runs host (calls.map .read) rs st' := by
  intro host
  have hread : host.Readable ["a.bin", "b.bin"] := fun path _ => File.ofBytes_readable _
  have hload : (Backend.buffer 1).load host ["a.bin", "b.bin"] =
      .ok (.buffer (BufferSystem.loaded ["a.bin", "b.bin"] 1 8)) := rfl
  have hreads := (Backend.buffer 1).load_reads hread hload
  obtain ⟨st, hrun⟩ := hreads.runs_iff.2 (show [some (.plain [1, 2, 3, 4]), none] =
    (State.run Call.request Call.view _ _
      [.read (.sliceSequential 4), .read (.sliceTfSequential 4)] _).1 by decide +kernel)
  refine ⟨_, st, hload, hrun, (clearState_restarts_iff hread hload hrun).2 ?_⟩
  obtain ⟨-, hreads', -⟩ := hreads.runs hrun
  cases hrun with
  | buffer =>
    obtain ⟨-, -, -, hheld⟩ := hreads'
    have hactive := congrArg (fun r => r.active.getD []) hheld
    exact hactive.trans (show _ = ([] : Bytes) by decide +kernel)

/-- After a whole epoch over two files, `clear_state` is followed by the second file. -/
theorem clearState_keeps_active_buffer :
    let host : Host Unit := fun path =>
      File.ofBytes (if path = "a.bin" then [1, 2, 3, 4, 5, 6, 7, 8] else [9, 10, 11, 12])
    ∃ st₀ st, (Backend.buffer 1).load host ["a.bin", "b.bin"] = .ok st₀ ∧
      st₀.Runs host [.read (.sliceSequential 8), .read (.sliceSequential 4)]
        [some (.plain [1, 2, 3, 4, 5, 6, 7, 8]), some (.plain [9, 10, 11, 12])] st ∧
      (∃ st', st.Runs host [.restart, .read (.sliceSequential 4)]
        [some (.plain [9, 10, 11, 12])] st') ∧
      ¬∃ st', st₀.Runs host [.read (.sliceSequential 4)] [some (.plain [9, 10, 11, 12])] st' := by
  intro host
  have hread : host.Readable ["a.bin", "b.bin"] := fun path _ => File.ofBytes_readable _
  have hload : (Backend.buffer 1).load host ["a.bin", "b.bin"] =
      .ok (.buffer (BufferSystem.loaded ["a.bin", "b.bin"] 1 12)) := rfl
  have hreads := (Backend.buffer 1).load_reads hread hload
  obtain ⟨st, hrun⟩ := hreads.runs_iff.2 (show [some (.plain [1, 2, 3, 4, 5, 6, 7, 8]),
    some (.plain [9, 10, 11, 12])] = (State.run Call.request Call.view _ _
      [.read (.sliceSequential 8), .read (.sliceSequential 4)] _).1 by decide +kernel)
  obtain ⟨-, hreads', hkeep⟩ := hreads.runs hrun
  refine ⟨_, st, hload, hrun, hreads'.runs_iff.2 ?_, fun h => ?_⟩
  · rw [hkeep]
    decide +kernel
  · exact absurd (hreads.runs_iff.1 h) (by decide +kernel)

end Plast
