/-
# The shard writer

The receive loop of `pretokenize_dataset` in `src/pretokenizer/pretokenize.rs`, with
`finalize_shard` and the errors of `src/pretokenizer/error.rs` it can return.

The loop carries five variables (`Writer`) and works on the files through system
calls that may fail.  `WriterHost.io` answers the operations in the order they
are made: creating the directory, creating a file, each `write_all`, each `flush`.
What a `BufWriter` has passed on to its file is always the front of what was
written to it (`BufWriter.reached`), and all of it once `flush` has succeeded; how
much of the rest gets through is part of the answer.  On the way out of a failed
operation the writer is dropped, which may pass on more; the answer counts that
too.

The ids of a payload are stored in the byte order of the machine
(`bytemuck::cast_slice`), the separator as little-endian (`to_le_bytes`).

What only the log lines read is left out: the start time, the token counter and
the shard index of `finalize_shard`.  Byte counters are natural numbers.
-/

import Plast.Storage.Basic
import Plast.Library.Endian

namespace Plast

open Endian

variable {ε : Type}

/-- The enumeration `PretokenizerError`. -/
inductive PretokenizerError (ε : Type)
  | directoryCreationFailed (source : ε) (path : PathBuf)
  | shardCreationFailed (source : ε) (path : PathBuf)
  | writeFailed (source : ε) (path : PathBuf)
  | flushFailed (source : ε) (path : PathBuf)
  deriving DecidableEq, Repr

/-- The files and their contents. -/
abbrev Disk := PathBuf → Option Bytes

/-- The disk after `path` got the contents `bytes`. -/
def Disk.write (disk : Disk) (path : PathBuf) (bytes : Bytes) : Disk :=
  fun p => if p = path then some bytes else disk p

/-- The answer of the operating system to one operation. -/
structure IoAnswer (ε : Type) where
  result : Except ε Unit
  /-- How many of the bytes written to the open file have reached it, at most. -/
  reached : ℕ

/-- The machine the writer runs on. -/
structure WriterHost (ε : Type) where
  order : ByteOrder
  io : ℕ → IoAnswer ε

/-- The arguments of `pretokenize_dataset` that the writer uses. -/
structure WriterArgs where
  saveDir : PathBuf
  shardSizeBytes : ℕ
  eosId : UInt32
  deriving DecidableEq

/-- The struct `BufWriter<File>`. -/
structure BufWriter where
  path : PathBuf
  written : Bytes
  /-- How many of the written bytes have reached the file. -/
  reached : ℕ
  deriving DecidableEq, Repr

/-- One payload: the ids of an encoded text. -/
abbrev Payload := List UInt32

/-- `PathBuf::join` with a plain file name. -/
def join (dir : PathBuf) (name : String) : PathBuf :=
  if dir.isEmpty || dir.endsWith "/" then dir ++ name else dir ++ "/" ++ name

/-- The path of shard `n`. -/
def shardPath (saveDir : PathBuf) (n : ℕ) : PathBuf :=
  join saveDir ("pretokenized_shard_" ++ n.repr ++ ".bin")

/-- The variables of the receive loop, the disk, and the number of operations made. -/
structure Writer where
  shardCount : ℕ
  currentShardBytes : ℕ
  buf : Option BufWriter
  currentFilePath : PathBuf
  generatedShards : List PathBuf
  disk : Disk
  operations : ℕ

/-- An error, and the disk it leaves behind. -/
structure Failure (ε : Type) where
  error : PretokenizerError ε
  disk : Disk

namespace Writer

/-- The loop variables before the loop. -/
def start (disk : Disk) (operations : ℕ) : Writer where
  shardCount := 0
  currentShardBytes := 0
  buf := none
  currentFilePath := ""
  generatedShards := []
  disk := disk
  operations := operations

/-- `finalize_shard`: flush the open file, if there is one. -/
def finalizeShard (host : WriterHost ε) (w : Writer) : Except (Failure ε) Writer :=
  match w.buf with
  | some writer =>
    match (host.io w.operations).result with
    | .ok () => .ok { w with
        buf := none
        disk := w.disk.write writer.path writer.written
        operations := w.operations + 1 }
    | .error e =>
      let reached := max writer.reached (host.io w.operations).reached
      .error ⟨.flushFailed e w.currentFilePath,
        w.disk.write writer.path (writer.written.take reached)⟩
  | none => .ok w

/-- The rollover to a new shard. -/
def rollover (host : WriterHost ε) (args : WriterArgs) (w : Writer) :
    Except (Failure ε) Writer := do
  let w ← w.finalizeShard host
  let currentFilePath := shardPath args.saveDir w.shardCount
  match (host.io w.operations).result with
  | .ok () => .ok {
      shardCount := w.shardCount + 1
      currentShardBytes := 0
      buf := some ⟨currentFilePath, [], 0⟩
      currentFilePath := currentFilePath
      generatedShards := w.generatedShards ++ [currentFilePath]
      disk := w.disk.write currentFilePath []
      operations := w.operations + 1 }
  | .error e => .error ⟨.shardCreationFailed e currentFilePath, w.disk⟩

/-- `buff.write_all(bytes)`. -/
def writeAll (host : WriterHost ε) (buff : BufWriter) (bytes : Bytes) (w : Writer) :
    Except (Failure ε) (BufWriter × Writer) :=
  let written := buff.written ++ bytes
  let reached := max buff.reached (min (host.io w.operations).reached written.length)
  let disk := w.disk.write buff.path (written.take reached)
  match (host.io w.operations).result with
  | .ok () =>
    let buff := { buff with written := written, reached := reached }
    .ok (buff, { w with buf := some buff, disk := disk, operations := w.operations + 1 })
  | .error e => .error ⟨.writeFailed e w.currentFilePath, disk⟩

/-- The last part of the loop body: write the ids and the separator of one payload to
the open file. -/
def writeRecord (host : WriterHost ε) (idsBytes eosBytes : Bytes) (w : Writer) :
    Except (Failure ε) Writer :=
  match w.buf with
  | some buff => do
    let payloadBytesLen := idsBytes.length + eosBytes.length
    let (buff, w) ← w.writeAll host buff idsBytes
    let (_, w) ← w.writeAll host buff eosBytes
    return { w with currentShardBytes := w.currentShardBytes + payloadBytesLen }
  | none => return w

/-- The body of the receive loop. -/
def receive (host : WriterHost ε) (args : WriterArgs) (w : Writer) (payload : Payload) :
    Except (Failure ε) Writer := do
  let idsBytes := host.order.encode payload
  let eosBytes := toLeBytes args.eosId
  let w ←
    if w.buf.isNone ∨ args.shardSizeBytes ≤ w.currentShardBytes then
      w.rollover host args
    else
      .ok w
  w.writeRecord host idsBytes eosBytes

/-- What follows the receive loop: flush the last shard, and return the paths. -/
def finish (host : WriterHost ε) (w : Writer) : Except (Failure ε) (List PathBuf × Disk) := do
  let w ← w.finalizeShard host
  return (w.generatedShards, w.disk)

end Writer

/-- `pretokenize_dataset` on the payloads it receives from its channel: the paths it
returns, and the disk it leaves. -/
def pretokenizeDataset (host : WriterHost ε) (args : WriterArgs) (disk : Disk)
    (payloads : List Payload) : Except (Failure ε) (List PathBuf × Disk) :=
  match (host.io 0).result with
  | .error e => .error ⟨.directoryCreationFailed e args.saveDir, disk⟩
  | .ok () => do
    let w ← payloads.foldlM (Writer.receive host args) (Writer.start disk 1)
    w.finish host

end Plast
