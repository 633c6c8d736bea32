/-
# What the storage backends share

`src/storage/mod.rs` and `src/storage/error.rs`: the bytes a backend hands out,
the windows of the two kinds of sequential request, the errors of loading, and
the answers of the operating system that loading depends on.

The crate never looks behind `File::open`, `MmapOptions::map`, `Mmap::advise`
and `fs::metadata`, so a file is its answers to these four (`File`).  A `Host`
gives every path its answers.  They do not change during a run, but a loading loop may be
given a host for each of its rounds, so that a file that is listed twice answers twice.

`slice_sequential` and `slice_tf_sequential` differ in the four bytes of
lookahead that the shifted target needs.  `Call.request` states a call as a
request to a block reader and `Call.view` what it returns when it is served.
-/

import Plast.Library.BlockReader
import Plast.Library.Machine

namespace Plast

open Machine

/-- The type `bytes::Bytes`, an immutable run of bytes. -/
abbrev Bytes := List UInt8

/-- The type `PathBuf`. -/
abbrev PathBuf := String

/-- The hints of `memmap2::Advice`; those the crate never names are `other`. -/
inductive Advice
  | sequential
  | hugePage
  | random
  | willNeed
  | other (code : ℕ)
  deriving DecidableEq, Repr

/-- How a file is mapped: `MmapOptions::map` or `MmapOptions::map_mut`. -/
inductive MapMode
  | map
  | mapMut
  deriving DecidableEq, Repr

/-- The answers of the operating system for one path, in one round of a loading loop. -/
structure File (ε : Type) where
  /-- The length reported by `fs::metadata(path)?.len()`. -/
  metadata : Except ε ℕ
  /-- The result of `File::open(path)`. -/
  openFile : Except ε Unit
  /-- The mapped bytes. -/
  mmap : MapMode → Except ε Bytes
  /-- The result of `mmap.advise(advice)` for the hint at a position of the set. -/
  advise : ℕ → Advice → Except ε Unit

/-- The files of a run. -/
abbrev Host (ε : Type) := PathBuf → File ε

variable {ε : Type}

/-- The bytes of a file that opens and maps, as a prefetching worker reads them. -/
def File.contents (f : File ε) : Option Bytes :=
  match f.openFile, f.mmap .map with
  | .ok _, .ok b => some b
  | _, _ => none

theorem File.mmap_of_contents {f : File ε} {b : Bytes} (h : f.contents = some b) :
    f.mmap .map = .ok b := by
  unfold File.contents at h
  split at h
  · rename_i hmap
    rw [hmap, Option.some.inj h]
  · cases h

/-- A file that opens, maps and reports the length of what it maps. -/
def File.Readable (f : File ε) : Prop :=
  ∃ b, f.contents = some b ∧ f.metadata = .ok b.length

/-- A file with these bytes, for which every system call succeeds. -/
def File.ofBytes (b : Bytes) : File ε :=
  ⟨.ok b.length, .ok (), fun _ => .ok b, fun _ _ => .ok ()⟩

theorem File.ofBytes_readable (b : Bytes) : (File.ofBytes b : File ε).Readable := ⟨b, rfl, rfl⟩

/-- Every file of the list is readable. -/
def Host.Readable (host : Host ε) (files : List PathBuf) : Prop :=
  ∀ path ∈ files, (host path).Readable

/-- The contents of the readable files of a list, in list order. -/
def Host.shards (host : Host ε) (files : List PathBuf) : List Bytes :=
  files.filterMap fun path => (host path).contents

theorem Host.shards_cons (host : Host ε) (path : PathBuf) (files : List PathBuf) :
    host.shards (path :: files) =
      (host path).contents.elim (host.shards files) (· :: host.shards files) := by
  unfold Host.shards
  rw [List.filterMap_cons]
  cases (host path).contents <;> rfl

theorem Host.shards_append (host : Host ε) (files files' : List PathBuf) :
    host.shards (files ++ files') = host.shards files ++ host.shards files' :=
  List.filterMap_append

/-- A list of readable files gives as many shards. -/
theorem Host.Readable.length_shards {host : Host ε} {files : List PathBuf}
    (h : host.Readable files) :
    (host.shards files).length = files.length := by
  induction files with
  | nil => rfl
  | cons path files ih =>
    obtain ⟨b, hb, -⟩ := h path List.mem_cons_self
    rw [Host.shards_cons, hb]
    exact congrArg (· + 1) (ih fun p hp => h p (List.mem_cons_of_mem _ hp))

/-- The lengths that readable files report are those of their contents. -/
theorem Host.Readable.metadata {host : Host ε} {files : List PathBuf} (h : host.Readable files) :
    List.Forall₂ (fun path len => (host path).metadata = .ok len) files
      ((host.shards files).map List.length) := by
  induction files with
  | nil => exact List.Forall₂.nil
  | cons path files ih =>
    obtain ⟨b, hb, hlen⟩ := h path List.mem_cons_self
    rw [Host.shards_cons, hb]
    exact List.Forall₂.cons hlen (ih fun p hp => h p (List.mem_cons_of_mem _ hp))

/-- The enumeration `DataLoaderError` of `src/storage/error.rs`. -/
inductive DataLoaderError (ε : Type)
  | shardOpenFailed (source : ε) (path : PathBuf)
  | memoryMappingFailed (source : ε) (path : PathBuf)
  | adviseFailed (source : ε) (advice : Advice)
  | readMetaDataFailed (source : ε) (path : PathBuf)
  | invalidByteAlignment (size : ℕ) (path : PathBuf)
  deriving DecidableEq, Repr

/-! ### Windows -/

/-- Where a window that starts at `cursor` ends, with its lookahead: the left
side of the fit tests. -/
def windowEnd (a : Arith) (cursor reqLen lookahead : ℕ) : Except Panic ℕ := do
  a.add (← a.add cursor reqLen) lookahead

/-- The expression `shard.slice(start..start + req_len)`. -/
def plainWindow (a : Arith) (shard : Bytes) (start reqLen : ℕ) : Except Panic Bytes := do
  slice shard start (← a.add start reqLen)

/-- The pair `(shard.slice(start..start + req_len),
shard.slice(start + 4..start + req_len + 4))`. -/
def tfWindow (a : Arith) (shard : Bytes) (start reqLen : ℕ) : Except Panic (Bytes × Bytes) := do
  let input ← slice shard start (← a.add start reqLen)
  let target ← slice shard (← a.add start 4) (← a.add (← a.add start reqLen) 4)
  return (input, target)

/-- As long as no sum overflows, a window ends and is sliced the same in every profile. -/
theorem windowEnd_of_exact {a : Arith} {cursor reqLen lookahead : ℕ}
    (h : a.Exact (cursor + reqLen + lookahead)) :
    windowEnd a cursor reqLen lookahead = .ok (cursor + reqLen + lookahead) := by
  have hsum : a.add cursor reqLen = .ok (cursor + reqLen) := (h.mono (Nat.le_add_right _ _)).add
  simp only [windowEnd, hsum, bind, Except.bind, h.add]

theorem plainWindow_of_exact {a : Arith} (shard : Bytes) {start reqLen : ℕ}
    (h : a.Exact (start + reqLen)) :
    plainWindow a shard start reqLen = plainWindow .unbounded shard start reqLen := by
  simp only [plainWindow, h.add, Arith.add_unbounded]

theorem tfWindow_of_exact {a : Arith} (shard : Bytes) {start reqLen : ℕ}
    (h : a.Exact (start + reqLen + 4)) :
    tfWindow a shard start reqLen = tfWindow .unbounded shard start reqLen := by
  have hstop : a.add start reqLen = .ok (start + reqLen) := (h.mono (by omega)).add
  have hstart : a.add start 4 = .ok (start + 4) := (h.mono (by omega)).add
  simp only [tfWindow, hstop, hstart, bind, Except.bind, h.add, Arith.add_unbounded]

/-- A window that fits is sliced without panic. -/
theorem plainWindow_unbounded {shard : Bytes} {start reqLen : ℕ}
    (h : start + reqLen ≤ shard.length) :
    plainWindow .unbounded shard start reqLen = .ok (shard.extract start (start + reqLen)) :=
  slice_of_le (Nat.le_add_right _ _) h

/-- A window that fits with its lookahead is sliced without panic. -/
theorem tfWindow_unbounded {shard : Bytes} {start reqLen : ℕ}
    (h : start + reqLen + 4 ≤ shard.length) :
    tfWindow .unbounded shard start reqLen =
      .ok (shard.extract start (start + reqLen), shard.extract (start + 4) (start + reqLen + 4)) := by
  have hin : slice shard start (start + reqLen) = .ok (shard.extract start (start + reqLen)) :=
    slice_of_le (Nat.le_add_right _ _) (by omega)
  have hout : slice shard (start + 4) (start + reqLen + 4) =
      .ok (shard.extract (start + 4) (start + reqLen + 4)) := slice_of_le (by omega) h
  simp only [tfWindow, Arith.add_unbounded, bind, Except.bind, hin, hout]
  rfl

/-! ### Sequential calls -/

/-- A sequential call of the trait `Storage`. -/
inductive Call
  | sliceSequential (reqLen : ℕ)
  | sliceTfSequential (reqLen : ℕ)
  deriving DecidableEq, Repr

/-- What a sequential call returns when it returns `Some`. -/
inductive Window
  | plain (bytes : Bytes)
  | tf (input target : Bytes)
  deriving DecidableEq, Repr

theorem Window.tf_injective : Function.Injective fun p : Bytes × Bytes => Window.tf p.1 p.2 := by
  rintro ⟨x, y⟩ ⟨x', y'⟩ h
  obtain ⟨rfl, rfl⟩ := Window.tf.inj h
  rfl

/-- A line of a script against a storage: a sequential call, or `clear_state`. -/
abbrev Op := BlockReader.Op Call

/-- The length argument of a call. -/
def Call.reqLen : Call → ℕ
  | .sliceSequential reqLen => reqLen
  | .sliceTfSequential reqLen => reqLen

/-- The bytes a call needs past the ones it consumes. -/
def Call.lookahead : Call → ℕ
  | .sliceSequential _ => 0
  | .sliceTfSequential _ => 4

/-- The call as a request to a block reader. -/
def Call.request (c : Call) : BlockReader.Request := ⟨c.reqLen, c.lookahead⟩

/-- What the call returns when it is served at a position of a shard. -/
def Call.view : Call → BlockReader.Hit UInt8 → Window
  | .sliceSequential n, (b, o) => .plain (b.extract o (o + n))
  | .sliceTfSequential n, (b, o) => .tf (b.extract o (o + n)) (b.extract (o + 4) (o + n + 4))

/-- The slices of the window that a call is served at a position of a shard. -/
def Call.window (a : Arith) : Call → Bytes → ℕ → Except Panic Window
  | .sliceSequential n, b, o => return .plain (← plainWindow a b o n)
  | .sliceTfSequential n, b, o => do
    let (input, target) ← tfWindow a b o n
    return .tf input target

/-- As long as no sum overflows, the window of a call is the same in every profile. -/
theorem Call.window_of_exact {a : Arith} {c : Call} {b : Bytes} {o : ℕ}
    (h : a.Exact (o + c.reqLen + c.lookahead)) : c.window a b o = c.window .unbounded b o := by
  cases c with
  | sliceSequential n => simp only [window, plainWindow_of_exact b (show a.Exact (o + n) from h)]
  | sliceTfSequential n => simp only [window, tfWindow_of_exact b (show a.Exact (o + n + 4) from h)]

/-- A window that fits is what the call shows. -/
theorem Call.window_unbounded {c : Call} {b : Bytes} {o : ℕ}
    (h : o + c.reqLen + c.lookahead ≤ b.length) :
    c.window .unbounded b o = .ok (c.view (b, o)) := by
  cases c with
  | sliceSequential n =>
    have h : o + n ≤ b.length := h
    simp only [window, plainWindow_unbounded h]
    rfl
  | sliceTfSequential n =>
    have h : o + n + 4 ≤ b.length := h
    simp only [window, tfWindow_unbounded h]
    rfl

/-- A call panics if the first of its slices does. -/
theorem Call.window_panics {a : Arith} {c : Call} {b : Bytes} {o stop : ℕ}
    (hstop : a.add o c.reqLen = .ok stop) (hslice : slice b o stop = .error .slice) :
    c.window a b o = .error .slice := by
  cases c with
  | sliceSequential n =>
    have hstop : a.add o n = .ok stop := hstop
    simp only [window, plainWindow, hstop, bind, Except.bind, hslice]
  | sliceTfSequential n =>
    have hstop : a.add o n = .ok stop := hstop
    simp only [window, tfWindow, hstop, bind, Except.bind, hslice]

/-- A call that returns a window has checked where its first slice ends. -/
theorem Call.stop_le_of_window {a : Arith} {c : Call} {b : Bytes} {o stop : ℕ} {w : Window}
    (hstop : a.add o c.reqLen = .ok stop) (h : c.window a b o = .ok w) : stop ≤ b.length := by
  by_contra hlt
  cases (window_panics hstop (slice_of_gt (Nat.not_le.1 hlt))).symm.trans h

/-- What a call returns once its loop has found a position, or none. -/
def Call.served {σ : Type} (a : Arith) (c : Call) :
    Option (Bytes × ℕ) × σ → Except Panic (Option Window × σ)
  | (some (b, o), s) => return (some (← c.window a b o), s)
  | (none, s) => return (none, s)

/-- A call shows nothing but the bytes it reaches. -/
theorem Call.view_of_span (c : Call) (h h' : BlockReader.Hit UInt8)
    (hs : BlockReader.span c.request h = BlockReader.span c.request h') : c.view h = c.view h' := by
  obtain ⟨b, o⟩ := h
  obtain ⟨b', o'⟩ := h'
  cases c with
  | sliceSequential n => exact congrArg Window.plain hs
  | sliceTfSequential n =>
    -- the target is the reached bytes without the first four, the input without the last four
    have hin : ∀ (l : Bytes) p, l.extract p (p + n) = (l.extract p (p + (n + 4))).take n := by
      intro l p
      simp [List.take_take]
    have hout : ∀ (l : Bytes) p,
        l.extract (p + 4) (p + n + 4) = (l.extract p (p + (n + 4))).drop 4 := by
      intro l p
      simp only [List.extract_eq_take_drop, List.drop_take, List.drop_drop]
      congr 1
    have hs : b.extract o (o + (n + 4)) = b'.extract o' (o' + (n + 4)) := hs
    simp only [Call.view, hin, hout, hs]

end Plast
