/-
# Random access

`MmapStorage::slice_random` and `MmapStorage::slice_tf_random` recompute the
shard of a global byte range by a binary search over the offsets.  The search finds
the one shard a byte lies in and its place there, so it inverts the global numbering of
bytes (`MmapStorage.locate_inverts`).  A range is answered in that shard or
not at all (`MmapStorage.findRange_at`), so random access is exact: it returns what
the concatenation of all shards holds if one shard holds the range, and `None`
otherwise (`MmapStorage.sliceRandom_exact`).

The sequential methods walk a cursor instead.  Their loop leaves it at the end of
the window they found (`MmapStorage.findRange_of_sequentialLoop`), so random access
at the range that ends there returns the window just read
(`MmapStorage.sliceRandom_of_sequential`).
-/

import Plast.Storage.MmapReader
import Plast.Library.ShiftedPairs

namespace Plast

open Machine BlockReader PrefixSums

namespace MmapStorage

/-- The total byte length of the shards before the current one. -/
def bytesBefore (s : MmapStorage) : ℕ := ((s.shards.take s.currentShardIdx).map List.length).sum

/-- The numbers that random access on a range up to `stop` computes with are exact:
there is no word, or it holds them. -/
structure Representable (a : Arith) (s : MmapStorage) (stop : ℕ) : Prop where
  stop : a.Exact stop
  total : a.Exact ((s.shards.map List.length).sum + 4)
  count : a.Exact s.shards.length

/-- The count of the shards and their offsets are exact: there is no word, or it holds
them, as it does for files that are mapped at the same time. -/
structure Addressable (a : Arith) (shards : List Bytes) : Prop where
  count : a.Exact shards.length
  total : a.Exact ((shards.map List.length).sum + 4)

theorem addressable_unbounded (shards : List Bytes) : Addressable .unbounded shards :=
  ⟨Or.inl rfl, Or.inl rfl⟩

section Search

variable {a : Arith} {shards : List Bytes} {p q i o stop : ℕ} {s : MmapStorage} {b : Bytes}

theorem Representable.addressable (h : Representable a s stop) : Addressable a s.shards :=
  ⟨h.count, h.total⟩

/-- The shards up to and including one are no longer than all of them. -/
theorem sum_take_add_le (hi : shards[i]? = some b) :
    ((shards.map List.length).take i).sum + b.length ≤ (shards.map List.length).sum := by
  have hlen : (shards.map List.length)[i]? = some b.length := by simp [hi]
  have hle := sum_take_mono (shards.map List.length)
    (Nat.succ_le_of_lt (List.getElem?_eq_some_iff.1 hlen).1)
  rwa [sum_take_succ hlen, List.take_length] at hle

/-- A byte of the data lies in a shard. -/
theorem exists_shard_of_lt {g : ℕ} (h : g < (shards.map List.length).sum) :
    ∃ i b o, shards[i]? = some b ∧ o < b.length ∧
      g = ((shards.map List.length).take i).sum + o := by
  obtain ⟨i, m, o, hm, ho, hg⟩ := exists_of_lt_sum h
  rw [List.getElem?_map] at hm
  obtain ⟨b, hi, rfl⟩ := Option.map_eq_some_iff.1 hm
  exact ⟨i, b, o, hi, ho, hg⟩

/-- A byte of the data lies in one shard only. -/
theorem shard_unique {g j : ℕ} {c : Bytes} (hi : shards[i]? = some b) (hj : shards[j]? = some c)
    (hin : ((shards.map List.length).take i).sum ≤ g)
    (hin' : g < ((shards.map List.length).take i).sum + b.length)
    (hjn : ((shards.map List.length).take j).sum ≤ g)
    (hjn' : g < ((shards.map List.length).take j).sum + c.length) : i = j ∧ b = c := by
  have hm : (shards.map List.length)[i]? = some b.length := by simp [hi]
  have hjm : (shards.map List.length)[j]? = some c.length := by simp [hj]
  obtain rfl := index_unique hm hjm hin hin' hjn hjn'
  exact ⟨rfl, Option.some.inj (hi.symm.trans hj)⟩

/-- The binary search finds the shard of a byte it holds. -/
theorem locate_eq (hs : s = (ofShards shards).moveTo p q) (haddr : Addressable a shards)
    (hi : shards[i]? = some b) (ho : o < b.length) :
    s.locate a (((shards.map List.length).take i).sum + o) = .ok (i, o) := by
  subst hs
  have hlen : (shards.map List.length)[i]? = some b.length := by simp [hi]
  obtain ⟨hlt, -⟩ := List.getElem?_eq_some_iff.1 hi
  have hpart := partitionPoint_offsets hlen ho
  have hidx : index (offsets (shards.map List.length)) i =
      .ok ((shards.map List.length).take i).sum :=
    index_of_getElem? (getElem?_offsets (by rw [List.length_map]; exact hlt.le))
  have hsub : a.sub (i + 1) 1 = .ok i := (haddr.count.mono hlt).sub (Nat.succ_pos i)
  have htotal := sum_take_add_le hi
  have hoff : a.sub (((shards.map List.length).take i).sum + o)
      ((shards.map List.length).take i).sum = .ok o := by
    rw [(haddr.total.mono (by omega)).sub (Nat.le_add_right _ _), Nat.add_sub_cancel_left]
  simp only [locate, moveTo, ofShards, hpart, hsub, bind, Except.bind, hidx, hoff]
  rfl

/-- The last offset is the length of the data. -/
theorem getLast_shardOffsets (hs : s = (ofShards shards).moveTo p q) :
    s.shardOffsets.getLast?.getD 0 = (shards.map List.length).sum := by
  subst hs
  simp only [moveTo, ofShards, getLast?_offsets, Option.getD_some]

/-- A range without length, or that ends after the data, is not searched for. -/
theorem findRange_none (hs : s = (ofShards shards).moveTo p q) {start n : ℕ}
    (hreq : a.sub stop start = .ok n) (hout : n = 0 ∨ (shards.map List.length).sum < stop)
    (lookahead : ℕ) : s.findRange a start stop lookahead = .ok none := by
  simp only [findRange, hreq, bind, Except.bind, getLast_shardOffsets hs, if_pos hout]
  rfl

/-- Any other range is tested in the shard that the search finds. -/
theorem findRange_located (hs : s = (ofShards shards).moveTo p q) {start n lookahead last : ℕ}
    (hreq : a.sub stop start = .ok n) (hin : ¬(n = 0 ∨ (shards.map List.length).sum < stop))
    (hloc : s.locate a start = .ok (i, o)) (hi : shards[i]? = some b)
    (hend : windowEnd a o n lookahead = .ok last) :
    s.findRange a start stop lookahead =
      .ok (if last ≤ b.length then some (b, o, n) else none) := by
  have hshard : index s.shards i = .ok b := by
    subst hs
    exact index_of_getElem? hi
  simp only [findRange, hreq, bind, Except.bind, getLast_shardOffsets hs, if_neg hin, pure,
    Except.pure, hloc, hshard, hend]
  split
  · rfl
  · rfl

/-- A search that ends behind the last shard panics. -/
theorem findRange_unlocated (hs : s = (ofShards shards).moveTo p q) {start n : ℕ}
    (hreq : a.sub stop start = .ok n) (hin : ¬(n = 0 ∨ (shards.map List.length).sum < stop))
    (hloc : s.locate a start = .ok (shards.length, o)) (lookahead : ℕ) :
    s.findRange a start stop lookahead = .error .index := by
  have hshard : index s.shards shards.length = .error .index := by
    subst hs
    exact index_of_length_le le_rfl
  simp only [findRange, hreq, bind, Except.bind, getLast_shardOffsets hs, if_neg hin, hloc, hshard]

/-- A range of the data is found when it lies, with its lookahead, in the shard it
starts in. -/
theorem findRange_at (hs : s = (ofShards shards).moveTo p q) (haddr : Addressable a shards)
    (hword : a.Exact stop) (hi : shards[i]? = some b) (ho : o < b.length) {n lookahead : ℕ}
    (hn : 0 < n) (hahead : lookahead ≤ 4) (hstop : stop = ((shards.map List.length).take i).sum + o + n)
    (htotal : stop ≤ (shards.map List.length).sum) :
    s.findRange a (((shards.map List.length).take i).sum + o) stop lookahead =
      .ok (if o + n + lookahead ≤ b.length then some (b, o, n) else none) := by
  have hreq : a.sub stop (((shards.map List.length).take i).sum + o) = .ok n := by
    rw [hword.sub (by omega)]
    refine congrArg Except.ok ?_
    omega
  have hend : windowEnd a o n lookahead = .ok (o + n + lookahead) :=
    windowEnd_of_exact (haddr.total.mono (by omega))
  exact findRange_located hs hreq (by omega) (locate_eq hs haddr hi ho) hi hend

/-- A range that lies in one shard with its lookahead is found. -/
theorem findRange_eq (hs : s = (ofShards shards).moveTo p q) {n lookahead : ℕ}
    (hi : shards[i]? = some b) (hn : 0 < n) (hahead : lookahead ≤ 4)
    (hfit : o + n + lookahead ≤ b.length) :
    s.findRange .unbounded (((shards.map List.length).take i).sum + o)
      (((shards.map List.length).take i).sum + o + n) lookahead = .ok (some (b, o, n)) := by
  have htotal := sum_take_add_le hi
  rw [findRange_at hs (addressable_unbounded shards) (Or.inl rfl) hi (by omega) hn hahead rfl
    (by omega), if_pos hfit]

end Search

/-! ### The global numbering -/

/-- `locate` inverts the global numbering of bytes, also where empty shards repeat an
offset: it takes the number of a byte to its shard and its place there, and the number of
every byte of the data is that of a place in a shard. -/
theorem locate_inverts {ε : Type} {host : Host ε} {setup : MmapSetup} {s₀ s : MmapStorage}
    {a : Arith} {ops : List Op} {ws : List (Option Window)} (hload : loadData host setup = .ok s₀)
    (hrun : s₀.run a ops = .ok (ws, s)) (haddr : Addressable a s.shards) :
    (∀ i b o, s.shards[i]? = some b → o < b.length →
      s.locate a (((s.shards.map List.length).take i).sum + o) = .ok (i, o)) ∧
    ∀ g < (s.shards.map List.length).sum, ∃ i b o, s.locate a g = .ok (i, o) ∧
      s.shards[i]? = some b ∧ o < b.length ∧ g = ((s.shards.map List.length).take i).sum + o := by
  obtain ⟨-, rfl⟩ := loadData_eq_ok.1 hload
  obtain ⟨p, q, hs, -⟩ := run_moves hrun
  have hshards : s.shards = host.shards setup.dataFiles := by rw [hs]; rfl
  rw [hshards] at haddr ⊢
  refine ⟨fun i b o hi ho => locate_eq hs haddr hi ho, fun g hg => ?_⟩
  obtain ⟨i, b, o, hi, ho, rfl⟩ := exists_shard_of_lt hg
  exact ⟨i, b, o, locate_eq hs haddr hi ho, hi, ho, rfl⟩

/-- With empty shards in front, between and behind, the fifth byte is the first of the
second shard that is not empty. -/
theorem locate_inverts_empty :
    let host : Host Unit := fun path =>
      File.ofBytes (if path = "a.bin" then [1, 2, 3, 4] else [])
    let files := ["b.bin", "a.bin", "b.bin", "a.bin", "b.bin"]
    ∃ s, loadData host (MmapSetup.new files) = .ok s ∧ s.locate .release 4 = .ok (3, 0) := by
  intro host files
  have hload : loadData host (MmapSetup.new files) =
      .ok (ofShards [[], [1, 2, 3, 4], [], [1, 2, 3, 4], []]) := rfl
  have hrun : (ofShards [[], [1, 2, 3, 4], [], [1, 2, 3, 4], []]).run .release [] =
      .ok ([], ofShards [[], [1, 2, 3, 4], [], [1, 2, 3, 4], []]) := rfl
  have hinv := locate_inverts hload hrun ⟨Or.inr (by decide), Or.inr (by decide)⟩
  exact ⟨_, hload, hinv.1 3 [1, 2, 3, 4] 0 rfl (by decide)⟩

/-! ### Exactness -/

/-- The bytes of one block lie in the concatenation of all blocks where the lengths
before it say. -/
theorem extract_flatten {blocks : List Bytes} {i : ℕ} {b : Bytes} (hi : blocks[i]? = some b)
    {o n : ℕ} (hle : o + n ≤ b.length) :
    blocks.flatten.extract (((blocks.map List.length).take i).sum + o)
      (((blocks.map List.length).take i).sum + o + n) = b.extract o (o + n) := by
  obtain ⟨hlt, rfl⟩ := List.getElem?_eq_some_iff.1 hi
  have hsplit : blocks.flatten =
      (blocks.take i).flatten ++ blocks[i] ++ (blocks.drop (i + 1)).flatten := by
    rw [List.append_assoc, ← List.flatten_cons, ← List.drop_eq_getElem_cons hlt,
      ← List.flatten_append, List.take_append_drop]
  rw [← List.map_take, ← List.length_flatten, hsplit, Nat.add_assoc,
    ShiftedPairs.extract_middle _ _ _ hle]

/-- The same for a window that is moved on by `k`. -/
theorem extract_flatten_add {blocks : List Bytes} {i : ℕ} {b : Bytes} (hi : blocks[i]? = some b)
    {o n k : ℕ} (hle : o + n + k ≤ b.length) :
    blocks.flatten.extract (((blocks.map List.length).take i).sum + o + k)
      (((blocks.map List.length).take i).sum + o + n + k) = b.extract (o + k) (o + n + k) := by
  have hplace := extract_flatten hi (show o + k + n ≤ b.length by omega)
  rw [Nat.add_right_comm o n k, ← hplace, Nat.add_right_comm _ n k, Nat.add_assoc _ o k]

/-- Some single shard holds the bytes `start..stop` of the data. -/
def InOneShard (shards : List Bytes) (start stop : ℕ) : Prop :=
  ∃ i b, shards[i]? = some b ∧ ((shards.map List.length).take i).sum ≤ start ∧
    stop ≤ ((shards.map List.length).take i).sum + b.length

/-- The shard to look at is the one that the first byte lies in. -/
theorem inOneShard_iff {shards : List Bytes} {i o stop : ℕ} {b : Bytes} (hi : shards[i]? = some b)
    (ho : o < b.length) (hlt : ((shards.map List.length).take i).sum + o < stop) :
    InOneShard shards (((shards.map List.length).take i).sum + o) stop ↔
      stop ≤ ((shards.map List.length).take i).sum + b.length := by
  refine ⟨?_, fun hstop => ⟨i, b, hi, Nat.le_add_right _ _, hstop⟩⟩
  rintro ⟨j, c, hj, hstart, hstop⟩
  obtain ⟨rfl, rfl⟩ := shard_unique hi hj (Nat.le_add_right _ o) (by omega) hstart (by omega)
  exact hstop

/-- The data end with the last shard. -/
theorem not_inOneShard {shards : List Bytes} {start stop : ℕ}
    (h : (shards.map List.length).sum < stop) : ¬InOneShard shards start stop := by
  rintro ⟨i, b, hi, -, hstop⟩
  have := sum_take_add_le hi
  omega

/-- The call returns `Some` of `value` if `inside` holds, and otherwise `None`. -/
def ReturnsIf {β : Type} (inside : Prop) (value : β) (result : Except Panic (Option β)) : Prop :=
  (inside → result = .ok (some value)) ∧ (¬inside → result = .ok none)

/-- A range is found exactly when it is not empty and one shard holds it with its
lookahead; the shard then shows what the data hold there. -/
theorem findRange_exact {a : Arith} {shards : List Bytes} {p q start stop lookahead : ℕ}
    {s : MmapStorage} (hs : s = (ofShards shards).moveTo p q) (haddr : Addressable a shards)
    (hword : a.Exact stop) (hahead : lookahead ≤ 4) (hle : start ≤ stop) :
    (start < stop ∧ InOneShard shards start (stop + lookahead) ∧
      ∃ b o n, s.findRange a start stop lookahead = .ok (some (b, o, n)) ∧
        o + n + lookahead ≤ b.length ∧ a.Exact (o + n + lookahead) ∧
        (∀ k ≤ lookahead, shards.flatten.extract (start + k) (stop + k) =
          b.extract (o + k) (o + n + k))) ∨
    (¬(start < stop ∧ InOneShard shards start (stop + lookahead)) ∧
      s.findRange a start stop lookahead = .ok none) := by
  rcases Nat.eq_or_lt_of_le hle with heq | hlt
  · exact Or.inr ⟨fun h => absurd h.1 (by omega),
      findRange_none hs (hword.sub hle) (Or.inl (by omega)) lookahead⟩
  rcases Nat.lt_or_ge (shards.map List.length).sum stop with hout | hin
  · exact Or.inr ⟨fun h => not_inOneShard (by omega) h.2,
      findRange_none hs (hword.sub hle) (Or.inr hout) lookahead⟩
  obtain ⟨i, b, o, hi, ho, rfl⟩ :=
    exists_shard_of_lt (show start < (shards.map List.length).sum by omega)
  obtain ⟨n, rfl⟩ := Nat.exists_eq_add_of_lt hlt
  rw [findRange_at hs haddr hword hi ho (Nat.succ_pos n) hahead rfl hin,
    inOneShard_iff hi ho (by omega)]
  by_cases hfit : o + (n + 1) + lookahead ≤ b.length
  · have htotal := sum_take_add_le hi
    refine Or.inl ⟨hlt, by omega, b, o, n + 1, by rw [if_pos hfit], hfit,
      haddr.total.mono (by omega), fun k hk => ?_⟩
    exact @extract_flatten_add shards i b hi o (n + 1) k (by omega)
  · exact Or.inr ⟨fun h => by omega, by rw [if_neg hfit]⟩

section Slices

variable {β : Type} {a : Arith} {shards : List Bytes} {p q start stop lookahead : ℕ}
  {s : MmapStorage} {window : Bytes → ℕ → ℕ → Except Panic β}

/-- The search, and then the slices of what it found. -/
def sliceRange (a : Arith) (s : MmapStorage) (start stop lookahead : ℕ)
    (window : Bytes → ℕ → ℕ → Except Panic β) : Except Panic (Option β) := do
  match ← s.findRange a start stop lookahead with
  | some (shard, localOffset, reqLen) => return some (← window shard localOffset reqLen)
  | none => return none

theorem sliceRandom_eq (a : Arith) (s : MmapStorage) (start stop : ℕ) :
    s.sliceRandom a start stop = s.sliceRange a start stop 0 (plainWindow a) := rfl

theorem sliceTfRandom_eq (a : Arith) (s : MmapStorage) (start stop : ℕ) :
    s.sliceTfRandom a start stop = s.sliceRange a start stop 4 (tfWindow a) := rfl

theorem sliceRange_none (h : s.findRange a start stop lookahead = .ok none) :
    s.sliceRange a start stop lookahead window = .ok none := by
  simp only [sliceRange, h, bind, Except.bind, pure, Except.pure]

theorem sliceRange_some {b : Bytes} {o n : ℕ}
    (h : s.findRange a start stop lookahead = .ok (some (b, o, n))) :
    s.sliceRange a start stop lookahead window = (window b o n).map some := by
  simp only [sliceRange, h, bind, Except.bind]
  cases window b o n <;> rfl

theorem sliceRange_error {e : Panic} (h : s.findRange a start stop lookahead = .error e) :
    s.sliceRange a start stop lookahead window = .error e := by
  simp only [sliceRange, h, bind, Except.bind]

/-- A method that slices what the search found returns what the data hold there. -/
theorem sliceRange_returns {value : β} (hs : s = (ofShards shards).moveTo p q)
    (haddr : Addressable a shards) (hword : a.Exact stop) (hahead : lookahead ≤ 4)
    (hle : start ≤ stop)
    (hwindow : ∀ b o n, o + n + lookahead ≤ b.length → a.Exact (o + n + lookahead) →
      (∀ k ≤ lookahead, shards.flatten.extract (start + k) (stop + k) =
        b.extract (o + k) (o + n + k)) → window b o n = .ok value) :
    ReturnsIf (start < stop ∧ InOneShard shards start (stop + lookahead)) value
      (s.sliceRange a start stop lookahead window) := by
  rcases findRange_exact hs haddr hword hahead hle with
    ⟨hlt, hin, b, o, n, hfind, hfit, hexact, hplace⟩ | ⟨hout, hfind⟩
  · refine ⟨fun _ => ?_, fun hnot => absurd ⟨hlt, hin⟩ hnot⟩
    rw [sliceRange_some hfind, hwindow b o n hfit hexact hplace]
    rfl
  · exact ⟨fun hin => absurd hin hout, fun _ => sliceRange_none hfind⟩

theorem sliceRandom_returns (hs : s = (ofShards shards).moveTo p q)
    (haddr : Addressable a shards) (hword : a.Exact stop) (hle : start ≤ stop) :
    ReturnsIf (start < stop ∧ InOneShard shards start stop) (shards.flatten.extract start stop)
      (s.sliceRandom a start stop) := by
  rw [sliceRandom_eq]
  refine sliceRange_returns hs haddr hword (Nat.zero_le 4) hle fun b o n hfit hexact hplace => ?_
  have hexact : a.Exact (o + n) := hexact
  have hfit : o + n ≤ b.length := hfit
  have hdata : shards.flatten.extract start stop = b.extract o (o + n) := hplace 0 le_rfl
  rw [plainWindow_of_exact b hexact, plainWindow_unbounded hfit, hdata]

theorem sliceTfRandom_returns (hs : s = (ofShards shards).moveTo p q)
    (haddr : Addressable a shards) (hword : a.Exact stop) (hle : start ≤ stop) :
    ReturnsIf (start < stop ∧ InOneShard shards start (stop + 4))
      (shards.flatten.extract start stop, shards.flatten.extract (start + 4) (stop + 4))
      (s.sliceTfRandom a start stop) := by
  rw [sliceTfRandom_eq]
  refine sliceRange_returns hs haddr hword le_rfl hle fun b o n hfit hexact hplace => ?_
  have hinput : shards.flatten.extract start stop = b.extract o (o + n) := hplace 0 (Nat.zero_le 4)
  rw [tfWindow_of_exact b hexact, tfWindow_unbounded hfit, hinput, hplace 4 le_rfl]

end Slices

/-- Random access is exact.  On every range that does not run backwards, in every state
of a loaded storage, `slice_random` returns what the data hold there if one shard holds
the whole range and it is not empty, and `slice_tf_random` if one shard holds it with
the 4 bytes that follow; both return `None` otherwise, and neither panics. -/
theorem sliceRandom_exact {ε : Type} {host : Host ε} {setup : MmapSetup} {s₀ s : MmapStorage}
    {a : Arith} {ops : List Op} {ws : List (Option Window)} (hload : loadData host setup = .ok s₀)
    (hrun : s₀.run a ops = .ok (ws, s)) {start stop : ℕ} (hle : start ≤ stop)
    (hword : Representable a s stop) :
    ReturnsIf (start < stop ∧ InOneShard s.shards start stop)
      (s.shards.flatten.extract start stop) (s.sliceRandom a start stop) ∧
    ReturnsIf (start < stop ∧ InOneShard s.shards start (stop + 4))
      (s.shards.flatten.extract start stop, s.shards.flatten.extract (start + 4) (stop + 4))
      (s.sliceTfRandom a start stop) := by
  obtain ⟨-, rfl⟩ := loadData_eq_ok.1 hload
  obtain ⟨i, o, hs, -⟩ := run_moves hrun
  have hshards : s.shards = host.shards setup.dataFiles := by rw [hs]; rfl
  have haddr := hword.addressable
  rw [hshards] at haddr ⊢
  exact ⟨sliceRandom_returns hs haddr hword.stop hle, sliceTfRandom_returns hs haddr hword.stop hle⟩

/-- The front of the third of three shards, the second one empty, in a debug build: there
is room for 4 bytes, but not for a target as well. -/
theorem sliceRandom_exact_seam :
    let host : Host Unit := fun path =>
      File.ofBytes (if path = "b.bin" then [] else [1, 2, 3, 4])
    ∃ s, loadData host (MmapSetup.new ["a.bin", "b.bin", "c.bin"]) = .ok s ∧
      s.sliceRandom .debug 4 8 = .ok (some [1, 2, 3, 4]) ∧
      s.sliceTfRandom .debug 4 8 = .ok none := by
  intro host
  have hload : loadData host (MmapSetup.new ["a.bin", "b.bin", "c.bin"]) =
      .ok (ofShards [[1, 2, 3, 4], [], [1, 2, 3, 4]]) := rfl
  have hrun : (ofShards [[1, 2, 3, 4], [], [1, 2, 3, 4]]).run .debug [] =
      .ok ([], ofShards [[1, 2, 3, 4], [], [1, 2, 3, 4]]) := rfl
  obtain ⟨hplain, htf⟩ := sliceRandom_exact hload hrun (show 4 ≤ 8 by decide)
    ⟨Or.inr (by decide), Or.inr (by decide), Or.inr (by decide)⟩
  exact ⟨_, hload, hplain.1 ⟨by decide, 2, [1, 2, 3, 4], rfl, by decide, by decide⟩,
    htf.2 fun h => not_inOneShard (by decide) h.2⟩

/-! ### The range just read -/

/-- What the loop of the sequential methods found lies right before the cursor it
leaves, and the search finds it there. -/
theorem findRange_of_sequentialLoop {shards : List Bytes} {p q : ℕ} {s s' : MmapStorage}
    (hs : s = (ofShards shards).moveTo p q) {r lookahead : ℕ} (hr : 0 < r) (hahead : lookahead ≤ 4)
    {b : Bytes} {start : ℕ}
    (h : s.sequentialLoop .unbounded r lookahead = .ok (some (b, start), s')) :
    s'.findRange .unbounded (s'.bytesBefore + s'.localCursor - r)
      (s'.bytesBefore + s'.localCursor) lookahead = .ok (some (b, start, r)) := by
  obtain ⟨i, o, hloop, hreader, -⟩ := s.sequentialLoop_eq ⟨r, lookahead⟩
  obtain ⟨hseek, rfl⟩ := Prod.mk.inj (Except.ok.inj (hloop.symm.trans h))
  obtain ⟨hactive, hcursor, hfit⟩ := State.active_of_seek hseek
  rw [← hreader] at hactive hcursor
  obtain ⟨hb, ho⟩ := getElem?_of_reader hactive
  obtain rfl : start + r = o := hcursor.symm.trans ho
  have hfit : start + r + lookahead ≤ b.length := by rw [Nat.add_assoc]; exact hfit
  have hb : shards[i]? = some b := by rw [hs] at hb; exact hb
  have hs' : s.moveTo i (start + r) = (ofShards shards).moveTo i (start + r) := by rw [hs]; rfl
  have hfind := findRange_eq hs' hb hr hahead hfit
  -- the global range ends at the cursor and is `r` bytes long
  have hstop : (s.moveTo i (start + r)).bytesBefore + (s.moveTo i (start + r)).localCursor =
      ((shards.map List.length).take i).sum + start + r := by
    rw [hs', List.map_take.symm, Nat.add_assoc]
    rfl
  rw [hstop, Nat.add_sub_cancel]
  exact hfind

/-- The loop of the sequential methods, and then the slices of what it found. -/
def sliceNext {β : Type} (a : Arith) (s : MmapStorage) (reqLen lookahead : ℕ)
    (window : Bytes → ℕ → ℕ → Except Panic β) : Except Panic (Option β × MmapStorage) := do
  match ← s.sequentialLoop a reqLen lookahead with
  | (some (shard, start), s') => return (some (← window shard start reqLen), s')
  | (none, s') => return (none, s')

theorem sliceSequential_eq (a : Arith) (s : MmapStorage) (reqLen : ℕ) :
    s.sliceSequential a reqLen = s.sliceNext a reqLen 0 (plainWindow a) := rfl

theorem sliceTfSequential_eq (a : Arith) (s : MmapStorage) (reqLen : ℕ) :
    s.sliceTfSequential a reqLen = s.sliceNext a reqLen 4 (tfWindow a) := rfl

/-- Random access slices the same place. -/
theorem sliceRange_of_sliceNext {β : Type} {shards : List Bytes} {p q : ℕ} {s s' : MmapStorage}
    (hs : s = (ofShards shards).moveTo p q) {r lookahead : ℕ} (hr : 0 < r) (hahead : lookahead ≤ 4)
    {window : Bytes → ℕ → ℕ → Except Panic β} {w : β}
    (hread : s.sliceNext .unbounded r lookahead window = .ok (some w, s')) :
    s'.sliceRange .unbounded (s'.bytesBefore + s'.localCursor - r)
      (s'.bytesBefore + s'.localCursor) lookahead window = .ok (some w) := by
  obtain ⟨⟨found, s''⟩, hloop, hslice⟩ := bind_eq_ok.1 hread
  cases found with
  | none => cases Prod.mk.inj (Except.ok.inj hslice) |>.1
  | some hit =>
    obtain ⟨b, start⟩ := hit
    obtain ⟨w', hwindow, hret⟩ := bind_eq_ok.1 hslice
    obtain ⟨hw, rfl⟩ := Prod.mk.inj (Except.ok.inj hret)
    rw [sliceRange_some (findRange_of_sequentialLoop hs hr hahead hloop), hwindow]
    exact congrArg Except.ok hw

/-- Reading on and addressing the same bytes by their global range agree: in
every state that a script of sequential calls and `clear_state` reaches, what a
sequential call returns is what random access returns on the range that ends at
the cursor the call leaves. -/
theorem sliceRandom_of_sequential {ε : Type} {host : Host ε} {setup : MmapSetup}
    {s₀ s : MmapStorage} {ops : List Op} {ws : List (Option Window)}
    (hload : loadData host setup = .ok s₀) (hrun : s₀.run .unbounded ops = .ok (ws, s))
    {r : ℕ} (hr : 1 ≤ r) :
    (∀ w s', s.sliceSequential .unbounded r = .ok (some w, s') →
      s'.sliceRandom .unbounded (s'.bytesBefore + s'.localCursor - r)
        (s'.bytesBefore + s'.localCursor) = .ok (some w)) ∧
    (∀ x y s', s.sliceTfSequential .unbounded r = .ok (some (x, y), s') →
      s'.sliceTfRandom .unbounded (s'.bytesBefore + s'.localCursor - r)
        (s'.bytesBefore + s'.localCursor) = .ok (some (x, y))) := by
  obtain ⟨p, q, hs, -⟩ := run_of_load hload hrun
  constructor
  · intro w s' hread
    rw [sliceSequential_eq] at hread
    rw [sliceRandom_eq]
    exact sliceRange_of_sliceNext hs hr (Nat.zero_le 4) hread
  · intro x y s' hread
    rw [sliceTfSequential_eq] at hread
    rw [sliceTfRandom_eq]
    exact sliceRange_of_sliceNext hs hr le_rfl hread

/-- After the first of two shards is read, a read at the front of the second one
and the global range `8..12` return the same. -/
theorem sliceRandom_of_sequential_two :
    let host : Host Unit := fun _ => File.ofBytes [1, 2, 3, 4, 5, 6, 7, 8]
    ∃ s₀, loadData host (MmapSetup.new ["a.bin", "b.bin"]) = .ok s₀ ∧
      (s₀.moveTo 1 4).sliceRandom .unbounded 8 12 = .ok (some [1, 2, 3, 4]) := by
  intro host
  have hload : loadData host (MmapSetup.new ["a.bin", "b.bin"]) =
      .ok (ofShards (host.shards ["a.bin", "b.bin"])) := rfl
  have hrun : (ofShards (host.shards ["a.bin", "b.bin"])).run .unbounded
      [.read (.sliceSequential 8)] = .ok ([some (.plain [1, 2, 3, 4, 5, 6, 7, 8])],
        (ofShards (host.shards ["a.bin", "b.bin"])).moveTo 0 8) := by
    decide +kernel
  exact ⟨_, hload, (sliceRandom_of_sequential hload hrun (show 1 ≤ 4 by decide)).1 _
    ((ofShards (host.shards ["a.bin", "b.bin"])).moveTo 1 4) (by decide +kernel)⟩

end MmapStorage

end Plast
