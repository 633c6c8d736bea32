/-
# Reading dataset files

`ShardLoader::get_chunked_array` in `src/pretokenizer/shard_loader.rs`: the extension of
the file picks a reader of Polars, and the text column is taken from what it reads.  A
file with one of the two Arrow extensions that is not in the file format is read again as
a stream.

Polars is a parameter (`Polars`): its readers, its frames, and the texts of its errors,
which the function searches for the names of two conditions.

`fetch_data_files` has a list of extensions of its own.  It takes exactly the files that
this function has a reader for, so the loader never skips a file of the scan for its
extension, and every error it gives names the file and the column it was asked for
(`fetched_iff_readable`).
-/

import Plast.Pretokenizer.HandOver
import Plast.Pretokenizer.Pipeline

namespace Plast

open Machine

variable {ε ε' P : Type}

/-! ### Paths -/

/-- The method `Path::file_name`: the last component, unless there is none or it is `..`. -/
def fileName (path : PathBuf) : Option String :=
  match ((path.toList.splitOn '/').filter fun c => c ≠ [] ∧ c ≠ ['.']).getLast? with
  | some c => if c = ['.', '.'] then none else some (String.ofList c)
  | none => none

/-- The method `Path::extension` on a path. -/
def pathExtension (path : PathBuf) : Option String := (fileName path).bind extension

theorem toList_of_endsWith {dir : String} (h : dir.endsWith "/" = true) :
    ∃ before, dir.toList = before ++ ['/'] := by
  unfold String.endsWith at h
  rw [String.Slice.endsWith_string_iff, String.copy_toSlice] at h
  obtain ⟨before, hbefore⟩ := h
  exact ⟨before, hbefore.symm⟩

/-- The components of a joined path end with the name. -/
theorem splitOn_join (dir : PathBuf) {name : String} (h : '/' ∉ name.toList) :
    ∃ before, (join dir name).toList.splitOn '/' = before ++ [name.toList] := by
  rw [← List.splitOn_eq_singleton h]
  unfold join
  split
  · rename_i hdir
    rw [String.toList_append]
    rcases Bool.or_eq_true_iff.1 hdir with hempty | hslash
    · obtain rfl : dir = "" := by simpa using hempty
      exact ⟨[], rfl⟩
    · obtain ⟨before, hbefore⟩ := toList_of_endsWith hslash
      refine ⟨before.splitOn '/', ?_⟩
      rw [hbefore, List.append_assoc]
      exact List.splitOn_append_cons_self _ _
  · refine ⟨dir.toList.splitOn '/', ?_⟩
    rw [String.toList_append, String.toList_append, List.append_assoc]
    exact List.splitOn_append_cons_self _ _

/-- The name of a file in a directory. -/
theorem fileName_join (dir : PathBuf) {name : String} (h : PlainName name) (hdot : name ≠ ".")
    (hdots : name ≠ "..") : fileName (join dir name) = some name := by
  obtain ⟨before, hsplit⟩ := splitOn_join dir h.2
  have hne : name.toList ≠ [] := fun hnil => h.1 (String.toList_eq_nil_iff.1 hnil)
  have hone : ∀ other : String, name ≠ other → name.toList ≠ other.toList :=
    fun other hother heq => hother (String.toList_inj.1 heq)
  have hlast : (((join dir name).toList.splitOn '/').filter
      fun c => c ≠ [] ∧ c ≠ ['.']).getLast? = some name.toList := by
    rw [hsplit, List.filter_append, List.filter_cons_of_pos]
    · simp
    · exact decide_eq_true ⟨hne, hone "." hdot⟩
  rw [fileName, hlast]
  exact (if_neg (hone ".." hdots)).trans (congrArg some String.ofList_toList)

/-- Its extension is that of its name, if the name is one that is read. -/
theorem pathExtension_join (dir : PathBuf) {name : String} (h : PlainName name)
    (hdot : name ≠ ".") (hdots : name ≠ "..") :
    pathExtension (join dir name) = extension name := by
  rw [pathExtension, fileName_join dir h hdot hdots, Option.bind_some]

/-! ### Polars -/

/-- The enumeration `ShardLoaderError`, with `P` for `PolarsError`. -/
inductive ShardLoaderError (ε P : Type)
  | fileOpenFailed (source : ε) (path : PathBuf)
  | polarsParseFailed (source : P) (path : PathBuf)
  | columnMissing (column : String) (path : PathBuf)
  | invalidColumnType (column : String) (path : PathBuf)
  | unsupportedExtension (path : PathBuf)
  | invalidPath (path : PathBuf)
  deriving DecidableEq, Repr

namespace ShardLoaderError

/-- The file that an error names. -/
def path : ShardLoaderError ε P → PathBuf
  | .fileOpenFailed _ path | .polarsParseFailed _ path | .columnMissing _ path
  | .invalidColumnType _ path | .unsupportedExtension path | .invalidPath path => path

/-- The column that an error names, if any. -/
def column? : ShardLoaderError ε P → Option String
  | .columnMissing column _ | .invalidColumnType column _ => some column
  | _ => none

end ShardLoaderError

/-- What the function uses of Polars and of the file system. -/
structure Polars (ε P : Type) where
  LazyFrame : Type
  DataFrame : Type
  Column : Type
  /-- Does `PlRefPath::try_from_path` accept the path? -/
  validPath : PathBuf → Bool
  scanParquet : PathBuf → Except P LazyFrame
  scanIpc : PathBuf → Except P LazyFrame
  collectSchema : LazyFrame → Except P Unit
  openFile : PathBuf → Except ε Unit
  /-- `IpcStreamReader::new(file).finish()`, on the open file. -/
  readIpcStream : PathBuf → Except P DataFrame
  lazy : DataFrame → LazyFrame
  scanJsonLines : PathBuf → Except P LazyFrame
  scanCsv : PathBuf → Except P LazyFrame
  /-- `select([col(name)]).collect()`. -/
  selectCollect : String → LazyFrame → Except P DataFrame
  column : String → DataFrame → Except P Column
  str : Column → Except P StringChunked
  /-- The text of an error. -/
  message : P → String

/-- The method `str::contains`. -/
def contains (text part : String) : Bool := text.toList.tails.any (part.toList.isPrefixOf ·)

namespace Polars

variable (polars : Polars ε P)

/-- The readers fail with `PolarsParseFailed`. -/
def parse {α : Type} (path : PathBuf) (x : Except P α) : Except (ShardLoaderError ε P) α :=
  x.mapError (.polarsParseFailed · path)

/-- The branch of the two Arrow extensions. -/
def readIpc (path : PathBuf) : Except (ShardLoaderError ε P) polars.LazyFrame :=
  match polars.scanIpc path with
  | .error source => .error (.polarsParseFailed source path)
  | .ok lf =>
    match polars.collectSchema lf with
    | .ok () => .ok lf
    | .error source =>
      let errorMsg := polars.message source
      if contains errorMsg "InvalidFooter" || contains errorMsg "out-of-spec" then
        match polars.openFile path with
        | .error source => .error (.fileOpenFailed source path)
        | .ok () => (parse path (polars.readIpcStream path)).map polars.lazy
      else
        .error (.polarsParseFailed source path)

/-- The first stage: the reader for the extension. -/
def lazyFrame (extension : Option String) (path : PathBuf) :
    Except (ShardLoaderError ε P) polars.LazyFrame :=
  match extension with
  | some "parquet" => parse path (polars.scanParquet path)
  | some "arrow" | some "ipc" => polars.readIpc path
  | some "jsonl" | some "ndjson" => parse path (polars.scanJsonLines path)
  | some "csv" | some "txt" => parse path (polars.scanCsv path)
  | _ => .error (.unsupportedExtension path)

/-- The second stage: the column, as texts. -/
def extract (textColumnName : String) (path : PathBuf) (lf : polars.LazyFrame) :
    Except (ShardLoaderError ε P) StringChunked :=
  match polars.selectCollect textColumnName lf with
  | .error source =>
    let errMsg := polars.message source
    if contains errMsg "ColumnNotFound" || contains errMsg "not found" then
      .error (.columnMissing textColumnName path)
    else
      .error (.polarsParseFailed source path)
  | .ok df =>
    match polars.column textColumnName df with
    | .error _ => .error (.columnMissing textColumnName path)
    | .ok series => (polars.str series).mapError fun _ => .invalidColumnType textColumnName path

/-- `ShardLoader::get_chunked_array`. -/
def getChunkedArray (textColumnName : String) (path : PathBuf) :
    Except (ShardLoaderError ε P) StringChunked := do
  let extension := (pathExtension path).map String.toLower
  if polars.validPath path then
    let lf ← polars.lazyFrame extension path
    polars.extract textColumnName path lf
  else
    .error (.invalidPath path)

/-! ### What it reads, and what it says -/

variable {polars} {textColumnName : String} {path path' : PathBuf}

/-- An error names the file it was met in, and the column if it is about one. -/
def Names (textColumnName : String) (path : PathBuf) (e : ShardLoaderError ε P) : Prop :=
  e.path = path ∧ ∀ column, e.column? = some column → column = textColumnName

theorem parse_error {α : Type} {x : Except P α} {e : ShardLoaderError ε P}
    (h : parse path x = .error e) :
    Names textColumnName path e ∧ e ≠ .unsupportedExtension path' := by
  cases x with
  | ok a => cases h
  | error source =>
    obtain rfl := Except.error.inj h
    exact ⟨⟨rfl, fun _ hc => by cases hc⟩, fun he => by cases he⟩

theorem readIpc_error {e : ShardLoaderError ε P} (h : polars.readIpc path = .error e) :
    Names textColumnName path e ∧ e ≠ .unsupportedExtension path' := by
  unfold readIpc at h
  split at h
  · obtain rfl := Except.error.inj h
    exact ⟨⟨rfl, fun _ hc => by cases hc⟩, fun he => by cases he⟩
  · split at h
    · cases h
    · dsimp only at h
      split at h
      · split at h
        · obtain rfl := Except.error.inj h
          exact ⟨⟨rfl, fun _ hc => by cases hc⟩, fun he => by cases he⟩
        · cases hparse : (parse path (polars.readIpcStream path) :
              Except (ShardLoaderError ε P) polars.DataFrame) with
          | ok df =>
            rw [hparse] at h
            cases h
          | error e' =>
            rw [hparse] at h
            obtain rfl := Except.error.inj h
            exact parse_error hparse
      · obtain rfl := Except.error.inj h
        exact ⟨⟨rfl, fun _ hc => by cases hc⟩, fun he => by cases he⟩

theorem extract_error {lf : polars.LazyFrame} {e : ShardLoaderError ε P}
    (h : polars.extract textColumnName path lf = .error e) :
    Names textColumnName path e ∧ e ≠ .unsupportedExtension path' := by
  unfold extract at h
  split at h
  · dsimp only at h
    split at h
    · obtain rfl := Except.error.inj h
      exact ⟨⟨rfl, fun _ hc => (Option.some.inj hc).symm⟩, fun he => by cases he⟩
    · obtain rfl := Except.error.inj h
      exact ⟨⟨rfl, fun _ hc => by cases hc⟩, fun he => by cases he⟩
  · split at h
    · obtain rfl := Except.error.inj h
      exact ⟨⟨rfl, fun _ hc => (Option.some.inj hc).symm⟩, fun he => by cases he⟩
    · rename_i series _
      cases hstr : polars.str series with
      | ok texts =>
        rw [hstr] at h
        cases h
      | error source =>
        rw [hstr] at h
        obtain rfl := Except.error.inj h
        exact ⟨⟨rfl, fun _ hc => (Option.some.inj hc).symm⟩, fun he => by cases he⟩

/-- The extension is one that `fetch_data_files` looks for. -/
def Supported (extension : Option String) : Prop :=
  ∃ ext ∈ supportedExtensions, extension = some ext

/-- There is no reader for other extensions. -/
theorem lazyFrame_unsupported {extension : Option String} (h : ¬Supported extension)
    (path : PathBuf) : polars.lazyFrame extension path = .error (.unsupportedExtension path) := by
  unfold lazyFrame
  split
  · exact absurd ⟨"parquet", by decide, rfl⟩ h
  · exact absurd ⟨"arrow", by decide, rfl⟩ h
  · exact absurd ⟨"ipc", by decide, rfl⟩ h
  · exact absurd ⟨"jsonl", by decide, rfl⟩ h
  · exact absurd ⟨"ndjson", by decide, rfl⟩ h
  · exact absurd ⟨"csv", by decide, rfl⟩ h
  · exact absurd ⟨"txt", by decide, rfl⟩ h
  · rfl

/-- There is one for each of the list. -/
theorem lazyFrame_error {ext : String} (hext : ext ∈ supportedExtensions)
    {e : ShardLoaderError ε P} (h : polars.lazyFrame (some ext) path = .error e) :
    Names textColumnName path e ∧ e ≠ .unsupportedExtension path' := by
  simp only [supportedExtensions, List.mem_cons, List.not_mem_nil, or_false] at hext
  rcases hext with rfl | rfl | rfl | rfl | rfl | rfl | rfl
  · exact parse_error h
  · exact readIpc_error h
  · exact readIpc_error h
  · exact parse_error h
  · exact parse_error h
  · exact parse_error h
  · exact parse_error h

/-- An error names what it is about; it is about the extension exactly if that is not in
the list. -/
theorem getChunkedArray_error {e : ShardLoaderError ε P}
    (h : polars.getChunkedArray textColumnName path = .error e) :
    Names textColumnName path e ∧
      ∀ path', e = .unsupportedExtension path' →
        ¬Supported ((pathExtension path).map String.toLower) := by
  unfold getChunkedArray at h
  dsimp only at h
  split at h
  · by_cases hext : Supported ((pathExtension path).map String.toLower)
    · obtain ⟨ext, hmem, hlower⟩ := hext
      rw [hlower] at h ⊢
      have hnames : ∀ path', Names textColumnName path e ∧ e ≠ .unsupportedExtension path' := by
        intro path'
        cases hlf : polars.lazyFrame (some ext) path with
        | error e' =>
          rw [hlf] at h
          obtain rfl := Except.error.inj h
          exact lazyFrame_error hmem hlf
        | ok lf =>
          rw [hlf] at h
          exact extract_error h
      exact ⟨(hnames path).1, fun path' he => absurd he (hnames path').2⟩
    · rw [lazyFrame_unsupported hext] at h
      obtain rfl := Except.error.inj h
      exact ⟨⟨rfl, fun _ hc => by cases hc⟩, fun _ _ => hext⟩
  · obtain rfl := Except.error.inj h
    exact ⟨⟨rfl, fun _ hc => by cases hc⟩, fun _ he => by cases he⟩

theorem getChunkedArray_unsupported (hvalid : polars.validPath path = true)
    (h : ¬Supported ((pathExtension path).map String.toLower)) :
    polars.getChunkedArray textColumnName path = .error (.unsupportedExtension path) := by
  rw [getChunkedArray, if_pos hvalid, lazyFrame_unsupported h]
  rfl

end Polars

/-- **The scan and the reader agree.**  Of the files of a directory, `fetch_data_files`
collects exactly those for which `get_chunked_array` has a reader, whatever Polars does;
and what the reader says of any file, its error names that file, and the column if it is
about one. -/
theorem fetched_iff_readable {dirs : DirHost ε'} {dir : PathBuf} {entries : List DirEntry}
    (hdir : dirs dir = .ok (entries.map .ok))
    (hplain : ∀ e ∈ entries, PlainName e.name ∧ e.name ≠ "." ∧ e.name ≠ "..")
    (polars : Polars ε P) (textColumnName : String) :
    ∃ found, fetchDataFiles dirs dir = .ok found ∧
      (∀ e ∈ entries, e.isFile = true → polars.validPath (e.path dir) = true →
        (e.path dir ∈ found ↔ ∀ path', polars.getChunkedArray textColumnName (e.path dir) ≠
          .error (.unsupportedExtension path'))) ∧
      ∀ path error, polars.getChunkedArray textColumnName path = .error error →
        error.path = path ∧ ∀ column, error.column? = some column → column = textColumnName := by
  refine ⟨_, fetchFiles_eq hdir, fun e he hfile hvalid => ?_, fun path error h =>
    (Polars.getChunkedArray_error h).1⟩
  obtain ⟨hname, hdot, hdots⟩ := hplain e he
  -- the test of the scan, in the reader's words
  have haccepts : (extension e.name).any (fun ext => ext.toLower ∈ supportedExtensions) = true ↔
      Polars.Supported ((pathExtension (e.path dir)).map String.toLower) := by
    rw [DirEntry.path, pathExtension_join dir hname hdot hdots]
    unfold Polars.Supported
    cases extension e.name with
    | none => simp
    | some ext => simp
  have hmem : e.path dir ∈ (entries.filter fun e => e.isFile &&
      (extension e.name).any fun ext => ext.toLower ∈ supportedExtensions).map
        (DirEntry.path dir) ↔ Polars.Supported ((pathExtension (e.path dir)).map String.toLower) := by
    rw [← haccepts]
    constructor
    · intro h
      obtain ⟨e', he', heq⟩ := List.mem_map.1 h
      have hsame : e'.name = e.name := join_injective dir heq
      have htest := (List.mem_filter.1 he').2
      rw [hsame] at htest
      exact (Bool.and_eq_true_iff.1 htest).2
    · intro h
      exact List.mem_map.2 ⟨e, List.mem_filter.2 ⟨he, by rw [hfile, h]; rfl⟩, rfl⟩
  rw [hmem]
  constructor
  · exact fun hsupp path' h => (Polars.getChunkedArray_error h).2 path' rfl hsupp
  · intro h
    by_contra hno
    exact h _ (Polars.getChunkedArray_unsupported hvalid hno)

/-- An upper-case extension, and one that is not for the loader. -/
theorem fetched_iff_readable_two :
    let dirs : DirHost Unit := fun _ => .ok [.ok ⟨"a.CSV", true⟩, .ok ⟨"b.bin", true⟩]
    let polars : Polars Unit String := {
      LazyFrame := StringChunked
      DataFrame := StringChunked
      Column := StringChunked
      validPath := fun _ => true
      scanParquet := fun _ => .error "not a parquet file"
      scanIpc := fun _ => .error "not an ipc file"
      collectSchema := fun _ => .ok ()
      openFile := fun _ => .ok ()
      readIpcStream := fun _ => .error "not a stream"
      lazy := id
      scanJsonLines := fun _ => .error "not a line of json"
      scanCsv := fun _ => .ok [some "hello"]
      selectCollect := fun _ lf => .ok lf
      column := fun _ df => .ok df
      str := .ok
      message := id }
    polars.getChunkedArray "text" "data/a.CSV" = .ok [some "hello"] ∧
      ∃ found, fetchDataFiles dirs "data" = .ok found ∧ "data/a.CSV" ∈ found ∧
        "data/b.bin" ∉ found := by
  intro dirs polars
  have hread : polars.getChunkedArray "text" "data/a.CSV" = .ok [some "hello"] := by
    decide +kernel
  have hskip : polars.getChunkedArray "text" "data/b.bin" =
      .error (.unsupportedExtension "data/b.bin") := by
    decide +kernel
  have hcsv : DirEntry.path "data" ⟨"a.CSV", true⟩ = "data/a.CSV" := by decide +kernel
  have hbin : DirEntry.path "data" ⟨"b.bin", true⟩ = "data/b.bin" := by decide +kernel
  have hplain : ∀ e ∈ [DirEntry.mk "a.CSV" true, ⟨"b.bin", true⟩],
      PlainName e.name ∧ e.name ≠ "." ∧ e.name ≠ ".." := by
    intro e he
    simp only [List.mem_cons, List.not_mem_nil, or_false] at he
    rcases he with rfl | rfl
    · exact ⟨⟨by decide, by decide⟩, by decide, by decide⟩
    · exact ⟨⟨by decide, by decide⟩, by decide, by decide⟩
  obtain ⟨found, hfound, hiff, -⟩ := @fetched_iff_readable _ _ _ dirs "data"
    [⟨"a.CSV", true⟩, ⟨"b.bin", true⟩] rfl hplain polars "text"
  have hmem := hiff ⟨"a.CSV", true⟩ (by simp) rfl rfl
  have hnot := hiff ⟨"b.bin", true⟩ (by simp) rfl rfl
  rw [hcsv] at hmem
  rw [hbin] at hnot
  refine ⟨hread, found, hfound, hmem.2 fun path' h => ?_, fun h => hnot.1 h _ hskip⟩
  cases hread.symm.trans h

end Plast
