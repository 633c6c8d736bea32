/-
# When the shards are reproducible

The rows of a chunk arrive in any order, so two runs of `pretokenize_dataset` over the
same dataset may write different files.  They never do if the records of each chunk are
all the same.  Otherwise some two runs do, as long as no record contains the separator and
nothing fails: the files together determine the stream of the records
(`records_injective`), and some two orders give two streams (`pipeline_reproducible_iff`).

With the separator in a record the files may agree although the streams do not: an empty
record and one that is the separator alone give three separators in either order.
-/

import Plast.Pretokenizer.Documents
import Plast.Pretokenizer.Refinement

namespace Plast

open Transition Endian FanIn

variable {ε δ E : Type} {eosId : UInt32} {order : ByteOrder} {payloads payloads' : List Payload}

/-! ### What the files determine -/

/-- Streams of records without the separator are cut at the separators only. -/
theorem tokenStream_injective (h : ∀ payload ∈ payloads, eosId ∉ payload)
    (h' : ∀ payload ∈ payloads', eosId ∉ payload)
    (hstream : tokenStream eosId payloads = tokenStream eosId payloads') :
    payloads = payloads' := by
  have hpieces := congrArg (documents eosId) hstream
  rwa [documents_tokenStream, documents_tokenStream, (flatMap_splitOn_eq_iff payloads).2 h,
    (flatMap_splitOn_eq_iff payloads').2 h'] at hpieces

/-- So are the bytes of their records, with the separator as the machine reads it. -/
theorem records_injective (h : ∀ payload ∈ payloads, order.fromLe eosId ∉ payload)
    (h' : ∀ payload ∈ payloads', order.fromLe eosId ∉ payload)
    (hbytes : records order eosId payloads = records order eosId payloads') :
    payloads = payloads' := by
  rw [records_native, records_native] at hbytes
  exact tokenStream_injective h h' (encode_injective order hbytes)

/-- Without an I/O failure the files determine the records. -/
theorem pretokenizeDataset_injective {host : WriterHost ε} (hio : ∀ k, (host.io k).result = .ok ())
    {args : WriterArgs} {disk : Disk}
    (h : ∀ payload ∈ payloads, host.order.fromLe args.eosId ∉ payload)
    (h' : ∀ payload ∈ payloads', host.order.fromLe args.eosId ∉ payload)
    (hresult : pretokenizeDataset host args disk payloads =
      pretokenizeDataset host args disk payloads') : payloads = payloads' := by
  obtain ⟨v, hv, hfiled⟩ := pretokenizeDataset_eq hio args disk payloads
  obtain ⟨v', hv', hfiled'⟩ := pretokenizeDataset_eq hio args disk payloads'
  rw [hv, hv', Except.ok.injEq, Prod.mk.injEq] at hresult
  have hbytes := hfiled.concat
  rw [hresult.1, hresult.2, hfiled'.concat, Batches.flatten_pack, Batches.flatten_pack] at hbytes
  exact records_injective h h' hbytes.symm

example : records .little 7 [[], [7]] = records .little 7 [[7], []] := by decide

/-! ### The runs -/

/-- All interleavings of the threads return the same. -/
def Pipeline.Reproducible (next : δ → Option (Except E StringChunked) × δ)
    (encode : String → Option Payload) (host : WriterHost ε) (args : WriterArgs)
    (start : Pipeline ε δ) : Prop :=
  ∀ sys sys' result result', Reaches (step next encode host args) start sys →
    Reaches (step next encode host args) start sys' → sys.caller = .returned result →
    sys'.caller = .returned result' → result = result'

/-- The records of each chunk are all the same. -/
def Uniform (encode : String → Option Payload) (items : List (Except E StringChunked)) : Prop :=
  ∀ chunk ∈ chunks items, ∀ ids ∈ encodings encode chunk, ∀ ids' ∈ encodings encode chunk,
    ids = ids'

variable {encode : String → Option Payload} {items : List (Except E StringChunked)}

theorem orders_unique_iff :
    (∀ payloads payloads', Orders encode items payloads → Orders encode items payloads' →
      payloads = payloads') ↔ Uniform encode items :=
  Arrives.unique_iff.trans List.forall_mem_map

/-- A record that arrives comes from a row. -/
theorem Orders.exists_chunk (h : Orders encode items payloads) {payload : Payload}
    (hmem : payload ∈ payloads) : ∃ chunk ∈ chunks items, payload ∈ encodings encode chunk := by
  obtain ⟨c, hc, hpayload⟩ := List.mem_flatten.1 (h.perm.subset hmem)
  obtain ⟨chunk, hchunk, rfl⟩ := List.mem_map.1 hc
  exact ⟨chunk, hchunk, hpayload⟩

/-- **When the output is reproducible.**  If the records of each chunk are all the same,
then all interleavings return the same, whatever the operating system answers.  Without an
I/O failure, and if no record contains the separator as the machine reads it, this is the
only case in which they do. -/
theorem pipeline_reproducible_iff {next : δ → Option (Except E StringChunked) × δ} {dataset t : δ}
    (hdrain : Drains (fun s y => next s = y) dataset items t) (encode : String → Option Payload)
    (host : WriterHost ε) (args : WriterArgs) (disk : Disk) (writeQueueSize : ℕ) :
    (Uniform encode items → Pipeline.Reproducible next encode host args
      (Pipeline.start host args disk dataset writeQueueSize)) ∧
    ((∀ k, (host.io k).result = .ok ()) →
      (∀ chunk ∈ chunks items, ∀ ids ∈ encodings encode chunk,
        host.order.fromLe args.eosId ∉ ids) →
      (Pipeline.Reproducible next encode host args
        (Pipeline.start host args disk dataset writeQueueSize) ↔ Uniform encode items)) := by
  have hsame : Uniform encode items → Pipeline.Reproducible next encode host args
      (Pipeline.start host args disk dataset writeQueueSize) := by
    intro huniform sys sys' result result' hreach hreach' hc hc'
    obtain ⟨payloads, horder, rfl⟩ := (Pipeline.sound_foreseen hdrain hreach).2 result hc
    obtain ⟨payloads', horder', rfl⟩ := (Pipeline.sound_foreseen hdrain hreach').2 result' hc'
    rw [orders_unique_iff.2 huniform payloads payloads' horder horder']
  refine ⟨hsame, fun hio hsep => ⟨fun hall => ?_, hsame⟩⟩
  refine orders_unique_iff.1 fun payloads payloads' horder horder' => ?_
  have hclear : ∀ {ps : List Payload}, Orders encode items ps →
      ∀ payload ∈ ps, host.order.fromLe args.eosId ∉ payload := by
    intro ps hps payload hmem
    obtain ⟨chunk, hchunk, hpayload⟩ := hps.exists_chunk hmem
    exact hsep chunk hchunk payload hpayload
  obtain ⟨sys, hreach, hc⟩ :=
    Pipeline.reaches_of_orders hdrain host args disk writeQueueSize horder
  obtain ⟨sys', hreach', hc'⟩ :=
    Pipeline.reaches_of_orders hdrain host args disk writeQueueSize horder'
  exact pretokenizeDataset_injective hio (hclear horder) (hclear horder')
    (hall sys sys' _ _ hreach hreach' hc hc')

/-- A file of two different rows gives different shards, one of two equal rows does not. -/
theorem pipeline_reproducible_iff_two :
    let read : String → PathBuf → Except Unit StringChunked := fun _ path =>
      .ok (if path = "a.csv" then [some "a", some "bc"] else [some "a", some "a"])
    let encode : String → Option Payload := fun text => some [UInt32.ofNat text.length]
    let host : WriterHost Unit := WriterHost.reliable .little
    let start := fun path => Pipeline.start host ⟨"out", 16, 7⟩ (fun _ => none)
      (ShardLoader.new [path] "text") 1
    ¬Pipeline.Reproducible (ShardLoader.next read) encode host ⟨"out", 16, 7⟩ (start "a.csv") ∧
      Pipeline.Reproducible (ShardLoader.next read) encode host ⟨"out", 16, 7⟩
        (start "b.csv") := by
  intro read encode host start
  obtain ⟨t, hdrain⟩ := ShardLoader.drains read ["a.csv"] "text"
  obtain ⟨t', hdrain'⟩ := ShardLoader.drains read ["b.csv"] "text"
  constructor
  · intro h
    have huniform := ((pipeline_reproducible_iff hdrain encode host ⟨"out", 16, 7⟩ (fun _ => none)
      1).2 (fun _ => rfl) (by decide +kernel)).1 h
    have hdiffer : ¬Uniform encode (["a.csv"].map (read "text")) := by
      unfold Uniform
      decide +kernel
    exact hdiffer huniform
  · refine (pipeline_reproducible_iff hdrain' encode host ⟨"out", 16, 7⟩ (fun _ => none) 1).1 ?_
    unfold Uniform
    decide +kernel

end Plast
