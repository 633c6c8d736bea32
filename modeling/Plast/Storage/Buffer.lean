/-
# The prefetching storage

`src/storage/buffer/storage.rs`: a worker thread opens and maps the files in
order and sends each mapped file over a bounded channel; the methods of
`BufferStorage` receive the next one when the active one is used up.

The two threads and the channel are one state (`BufferSystem`), and a step is
one atomic action of one thread (`BufferSystem.step`): the worker opens a file,
sends it or exits; the consumer makes a call, completes a `recv` or completes a
`join`.  A thread that cannot act has no step.  The consumer works through the
calls `todo` and appends what each returned to `log`.

`load_data` and `clear_state` spawn different closures: the first unwraps the
results of opening and mapping, the second skips a file that fails (`Spawn`).
`clear_state` replaces the receiver and the worker and resets the counters; it
does not assign `active_buffer`.

The lengths summed by `load_data` are added in `ℕ`.
-/

import Plast.Storage.Basic
import Plast.Library.Channel
import Plast.Library.Transition

namespace Plast

open Machine

variable {ε : Type}

/-- The struct `BufferStorage`; its receiver and its worker handle are the rest
of `BufferSystem`. -/
structure BufferStorage where
  activeBuffer : Option Bytes
  dataFiles : List PathBuf
  totalShardCount : ℕ
  currentShardIdx : ℕ
  localCursor : ℕ
  totalSize : ℕ
  deriving DecidableEq, Repr

namespace BufferStorage

/-- `Storage::len`. -/
def len (s : BufferStorage) : ℕ := s.totalSize

/-- `Storage::slice_random`: not supported. -/
def sliceRandom (_ : BufferStorage) (_start _stop : ℕ) : Option Bytes := none

/-- `Storage::slice_tf_random`: not supported. -/
def sliceTfRandom (_ : BufferStorage) (_start _stop : ℕ) : Option (Bytes × Bytes) := none

/-- The `if let Some(active_buffer) = ..` of the loops in `slice_sequential` and
`slice_tf_sequential`, which differ in the lookahead of the test: the active
buffer, the start of a request that fits, and the storage with its cursor moved
past it. -/
def fits (a : Arith) (s : BufferStorage) (reqLen lookahead : ℕ) :
    Except Panic (Option (Bytes × ℕ) × BufferStorage) := do
  match s.activeBuffer with
  | none => return (none, s)
  | some activeBuffer =>
    if (← windowEnd a s.localCursor reqLen lookahead) ≤ activeBuffer.length then
      let start := s.localCursor
      return (some (activeBuffer, start), { s with localCursor := ← a.add s.localCursor reqLen })
    else
      return (none, s)

/-- The body of the loop of `slice_sequential` up to the `recv`. -/
def sliceSequentialHead (a : Arith) (s : BufferStorage) (reqLen : ℕ) :
    Except Panic (Option Bytes × BufferStorage) := do
  match ← s.fits a reqLen 0 with
  | (some (activeBuffer, start), s') => return (some (← plainWindow a activeBuffer start reqLen), s')
  | (none, s') => return (none, s')

/-- The body of the loop of `slice_tf_sequential` up to the `recv`. -/
def sliceTfSequentialHead (a : Arith) (s : BufferStorage) (reqLen : ℕ) :
    Except Panic (Option (Bytes × Bytes) × BufferStorage) := do
  match ← s.fits a reqLen 4 with
  | (some (activeBuffer, start), s') => return (some (← tfWindow a activeBuffer start reqLen), s')
  | (none, s') => return (none, s')

/-- The body of the loop of a sequential call up to the `recv`. -/
def callHead (a : Arith) (s : BufferStorage) : Call → Except Panic (Option Window × BufferStorage)
  | .sliceSequential reqLen => do
    let (w, s') ← s.sliceSequentialHead a reqLen
    return (w.map .plain, s')
  | .sliceTfSequential reqLen => do
    let (w, s') ← s.sliceTfSequentialHead a reqLen
    return (w.map fun p => .tf p.1 p.2, s')

/-- The assignments after a successful `recv`. -/
def activate (s : BufferStorage) (nextBuffer : Bytes) : BufferStorage :=
  { s with
    activeBuffer := some nextBuffer
    currentShardIdx := s.currentShardIdx + 1
    localCursor := 0 }

/-- The assignments at the end of `clear_state`. -/
def clearState (s : BufferStorage) : BufferStorage := { s with currentShardIdx := 0, localCursor := 0 }

end BufferStorage

/-! ### The threads -/

/-- The two closures a worker thread may run. -/
inductive Spawn
  | loadData
  | clearState
  deriving DecidableEq, Repr

/-- The worker thread, with the paths its loop has not reached yet. -/
inductive Worker
  /-- At the head of the loop. -/
  | running (files : List PathBuf)
  /-- In `tx.send(bytes)`. -/
  | sending (bytes : Bytes) (files : List PathBuf)
  /-- Returned or panicked; the sender is dropped. -/
  | exited
  deriving DecidableEq, Repr

/-- The consumer thread. -/
inductive Consumer
  /-- Between two calls. -/
  | idle
  /-- In the `rx.recv()` of a call. -/
  | receiving (c : Call)
  /-- In the `handle.join()` of `clear_state`. -/
  | joining
  | panicked (p : Panic)
  deriving DecidableEq, Repr

/-- A storage, the channel and the worker behind it, and the thread that uses it. -/
structure BufferSystem where
  storage : BufferStorage
  channel : Channel Bytes
  /-- The receiver has not been dropped. -/
  rxAlive : Bool
  spawn : Spawn
  worker : Worker
  consumer : Consumer
  /-- The calls still to be made. -/
  todo : List Op
  /-- What the finished calls returned, oldest first. -/
  log : List (Option Window)
  deriving DecidableEq

/-- The threads that take steps. -/
inductive ThreadId
  | consumer
  | worker
  deriving DecidableEq, Repr

namespace BufferSystem

/-- `BufferStorage::load_data`. -/
def loadData (host : Host ε) (dataFiles : List PathBuf) (bufferSize : ℕ) :
    Except (DataLoaderError ε) BufferSystem := do
  let totalSize ← dataFiles.foldlM (fun (totalSize : ℕ) path => do
    let fileLen ← (host path).metadata.mapError fun source => .shardOpenFailed source path
    return totalSize + fileLen) 0
  return {
    storage := {
      activeBuffer := none
      dataFiles := dataFiles
      totalShardCount := dataFiles.length
      currentShardIdx := 0
      localCursor := 0
      totalSize := totalSize }
    channel := Channel.bounded bufferSize
    rxAlive := true
    spawn := .loadData
    worker := .running dataFiles
    consumer := .idle
    todo := []
    log := [] }

/-- Further calls for the consumer to make. -/
def issue (sys : BufferSystem) (ops : List Op) : BufferSystem :=
  { sys with todo := sys.todo ++ ops }

/-- The head of the loop of a sequential call: return a window of the active
buffer, go on to the `recv`, or leave the loop. -/
def loopHead (a : Arith) (c : Call) (sys : BufferSystem) : BufferSystem :=
  if sys.storage.currentShardIdx ≤ sys.storage.totalShardCount then
    match sys.storage.callHead a c with
    | .ok (some w, s') => { sys with storage := s', consumer := .idle, log := sys.log ++ [some w] }
    | .ok (none, _) => { sys with consumer := .receiving c }
    | .error p => { sys with consumer := .panicked p }
  else
    { sys with consumer := .idle, log := sys.log ++ [none] }

/-- The loop goes on with the buffer just received. -/
def received (a : Arith) (c : Call) (sys : BufferSystem) (nextBuffer : Bytes) : BufferSystem :=
  loopHead a c { sys with storage := sys.storage.activate nextBuffer }

/-- A step of the consumer. -/
def consumerStep (a : Arith) (sys : BufferSystem) : Option BufferSystem :=
  match sys.consumer with
  | .idle =>
    match sys.todo with
    | [] => none
    | .read c :: ops => some (loopHead a c { sys with todo := ops })
    | .restart :: ops =>
      -- `drop` of the receiver discards what is still queued
      some { sys with
        channel := { sys.channel with queue := [] }
        rxAlive := false
        consumer := .joining
        todo := ops }
  | .receiving c =>
    match sys.channel.recv? with
    | some (nextBuffer, channel) => some (received a c { sys with channel := channel } nextBuffer)
    | none =>
      match sys.worker with
      | .running _ => none
      | .sending bytes files =>
        -- without capacity a message passes only while both sides are waiting
        if sys.channel.capacity = 0 then
          some (received a c
            { sys with channel := sys.channel.handOff bytes, worker := .running files } bytes)
        else
          none
      | .exited => some { sys with consumer := .idle, log := sys.log ++ [none] }
  | .joining =>
    match sys.worker with
    | .exited => some { sys with
        storage := sys.storage.clearState
        channel := Channel.bounded sys.channel.capacity
        rxAlive := true
        spawn := .clearState
        worker := .running sys.storage.dataFiles
        consumer := .idle }
    | _ => none
  | .panicked _ => none

/-- A step of the worker. -/
def workerStep (host : Host ε) (sys : BufferSystem) : Option BufferSystem :=
  match sys.worker with
  | .running [] => some { sys with worker := .exited }
  | .running (path :: files) =>
    match (host path).contents with
    | some bytes => some { sys with worker := .sending bytes files }
    | none =>
      match sys.spawn with
      | .loadData => some { sys with worker := .exited }
      | .clearState => some { sys with worker := .running files }
  | .sending bytes files =>
    if sys.rxAlive then
      if sys.channel.HasRoom then
        some { sys with channel := sys.channel.send bytes, worker := .running files }
      else
        none
    else
      some { sys with worker := .exited }
  | .exited => none

/-- A step of the system. -/
def step (host : Host ε) (a : Arith) : ThreadId → BufferSystem → Option BufferSystem
  | .consumer, sys => consumerStep a sys
  | .worker, sys => workerStep host sys

/-- The consumer has made all its calls. -/
def Finished (sys : BufferSystem) : Prop := sys.consumer = .idle ∧ sys.todo = []

end BufferSystem

end Plast
