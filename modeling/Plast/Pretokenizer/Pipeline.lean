/-
# The pretokenizing pipeline

The threads of `pretokenize_dataset` in `src/pretokenizer/pretokenize.rs`, and the
`Iterator` of `src/pretokenizer/shard_loader.rs` that feeds them.

The producer thread takes one chunk after the other from the dataset and skips
those that failed to load.  For a chunk it runs one closure per row, in parallel
and in any order, and goes on when all of them have returned.  A closure encodes
its text and sends the ids, unless the row is null or does not encode.  The thread
that called `pretokenize_dataset` receives the ids and writes them
(`Writer.receive`) until the channel is empty and its senders are gone: they are
dropped when the producer exits.

`Pipeline.step` is one move of one thread.  A send into a full channel blocks; on
a channel of capacity `0` it is a hand-over to the waiting receiver; after the
receiver is gone it fails, and the error is discarded.

The dataset is any iterator (`next`), and the tokenizer is what `encode_fast` gives
for a text (`encode`).  How Polars reads a file is a parameter of `ShardLoader.next`.
Warnings are left out.
-/

import Plast.Pretokenizer.Writer
import Plast.Library.Channel
import Plast.Library.Transition
import Plast.Library.Drain

namespace Plast

variable {ε δ E : Type}

/-- The type `StringChunked`: a column of texts, some of them null. -/
abbrev StringChunked := List (Option String)

/-! ### The loader of dataset files -/

/-- The struct `ShardLoader`. -/
structure ShardLoader where
  datasetFiles : List PathBuf
  textColumnName : String
  currentFileIdx : ℕ
  deriving DecidableEq, Repr

namespace ShardLoader

/-- `ShardLoader::new`. -/
def new (datasetFiles : List PathBuf) (textColumnName : String) : ShardLoader :=
  ⟨datasetFiles, textColumnName, 0⟩

/-- `ShardLoader::next`. -/
def next (getChunkedArray : String → PathBuf → Except E StringChunked) (loader : ShardLoader) :
    Option (Except E StringChunked) × ShardLoader :=
  match loader.datasetFiles[loader.currentFileIdx]? with
  | none => (none, loader)
  | some filePath =>
    (some (getChunkedArray loader.textColumnName filePath),
      { loader with currentFileIdx := loader.currentFileIdx + 1 })

end ShardLoader

/-! ### The threads -/

/-- The closure of one row. -/
inductive Row
  /-- Not started. -/
  | waiting (optText : Option String)
  /-- In `tx_channel.send(ids)`. -/
  | sending (ids : Payload)
  deriving DecidableEq, Repr

/-- The producer thread. -/
inductive Producer
  /-- At the head of the loop over the dataset. -/
  | idle
  /-- In `for_each_with`, with the rows whose closure has not returned. -/
  | tokenizing (rows : List Row)
  /-- Returned; the senders are dropped. -/
  | exited
  deriving DecidableEq, Repr

/-- The thread that called `pretokenize_dataset`. -/
inductive Caller (ε : Type)
  /-- In `rx.recv()`. -/
  | receiving (w : Writer)
  /-- Returned; the receiver is dropped. -/
  | returned (result : Except (Failure ε) (List PathBuf × Disk))

/-- The threads, the dataset and the channel between them. -/
structure Pipeline (ε δ : Type) where
  dataset : δ
  producer : Producer
  channel : Channel Payload
  caller : Caller ε

/-- The threads that take steps. -/
inductive PipelineThread
  | producer
  | row (i : ℕ)
  | caller
  deriving DecidableEq, Repr

namespace Pipeline

/-- `pretokenize_dataset` up to the receive loop: create the directory, and spawn the
producer. -/
def start (host : WriterHost ε) (args : WriterArgs) (disk : Disk) (dataset : δ)
    (writeQueueSize : ℕ) : Pipeline ε δ :=
  match (host.io 0).result with
  | .ok () => ⟨dataset, .idle, Channel.bounded writeQueueSize, .receiving (Writer.start disk 1)⟩
  | .error e => ⟨dataset, .exited, Channel.bounded writeQueueSize,
      .returned (.error ⟨.directoryCreationFailed e args.saveDir, disk⟩)⟩

/-- The body of the receive loop. -/
def received (host : WriterHost ε) (args : WriterArgs) (w : Writer) (payload : Payload)
    (sys : Pipeline ε δ) : Pipeline ε δ :=
  match w.receive host args payload with
  | .ok w' => { sys with caller := .receiving w' }
  | .error f => { sys with caller := .returned (.error f) }

/-- A step of the producer outside the closures. -/
def producerStep (next : δ → Option (Except E StringChunked) × δ) (sys : Pipeline ε δ) :
    Option (Pipeline ε δ) :=
  match sys.producer with
  | .idle =>
    match next sys.dataset with
    | (some (.ok shard), dataset) =>
      some { sys with dataset := dataset, producer := .tokenizing (shard.map .waiting) }
    | (some (.error _), dataset) => some { sys with dataset := dataset }
    | (none, dataset) => some { sys with dataset := dataset, producer := .exited }
  | .tokenizing [] => some { sys with producer := .idle }
  | .tokenizing (_ :: _) => none
  | .exited => none

/-- The closure of row `i` returns. -/
def rowDone (rows : List Row) (i : ℕ) (sys : Pipeline ε δ) : Pipeline ε δ :=
  { sys with producer := .tokenizing (rows.eraseIdx i) }

/-- The closure of row `i` sends `ids`. -/
def sendStep (host : WriterHost ε) (args : WriterArgs) (rows : List Row) (i : ℕ) (ids : Payload)
    (sys : Pipeline ε δ) : Option (Pipeline ε δ) :=
  match sys.caller with
  | .returned _ => some (sys.rowDone rows i)
  | .receiving w =>
    if sys.channel.HasRoom then
      some ({ sys with channel := sys.channel.send ids }.rowDone rows i)
    else if sys.channel.capacity = 0 then
      some (({ sys with channel := sys.channel.handOff ids }.rowDone rows i).received host args w
        ids)
    else
      none

/-- A step of the closure of row `i`. -/
def rowStep (encode : String → Option Payload) (host : WriterHost ε) (args : WriterArgs) (i : ℕ)
    (sys : Pipeline ε δ) : Option (Pipeline ε δ) :=
  match sys.producer with
  | .tokenizing rows =>
    match rows[i]? with
    | some (.waiting optText) =>
      match optText.bind encode with
      | some ids => some { sys with producer := .tokenizing (rows.set i (.sending ids)) }
      | none => some (sys.rowDone rows i)
    | some (.sending ids) => sys.sendStep host args rows i ids
    | none => none
  | _ => none

/-- A step of the caller. -/
def callerStep (host : WriterHost ε) (args : WriterArgs) (sys : Pipeline ε δ) :
    Option (Pipeline ε δ) :=
  match sys.caller with
  | .receiving w =>
    match sys.channel.recv? with
    | some (payload, channel) =>
      some ({ sys with channel := channel }.received host args w payload)
    | none =>
      match sys.producer with
      | .exited => some { sys with caller := .returned (w.finish host) }
      | _ => none
  | .returned _ => none

/-- A step of the system. -/
def step (next : δ → Option (Except E StringChunked) × δ) (encode : String → Option Payload)
    (host : WriterHost ε) (args : WriterArgs) :
    PipelineThread → Pipeline ε δ → Option (Pipeline ε δ)
  | .producer, sys => sys.producerStep next
  | .row i, sys => sys.rowStep encode host args i
  | .caller, sys => sys.callerStep host args

/-- `pretokenize_dataset` has returned. -/
def Returned (sys : Pipeline ε δ) : Prop := ∃ result, sys.caller = .returned result

end Pipeline

end Plast
