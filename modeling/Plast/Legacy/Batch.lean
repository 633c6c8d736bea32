/-
# Indexed batches

`MmapPretokenizedDataLoader::get_tf_batch_u8` computes a byte offset from a batch index
and searches for its shard.  On the shard that holds the offset it tests and slices
as the random access of the new storage does (`getTfBatchU8_of_hit`), but an exact match
may be any of the shards that start at the offset, and in an empty one nothing fits
(`getTfBatchU8_of_miss`).  The products before the search are not checked.

`getTfBatchU8_eq_iff` is the exact condition under which the two loaders agree, and
`getTfBatchU8_unaliased_iff` the one under which a build that wraps returns no other data
than what was asked for.
-/

import Plast.Legacy.Loader
import Plast.Storage.RandomAccess

namespace Plast
namespace Legacy

open Machine PrefixSums PretokenizedDataLoader
open MmapStorage (Addressable InOneShard ReturnsIf sum_take_add_le extract_flatten
  extract_flatten_add inOneShard_iff not_inOneShard run_moves sliceTfRandom_returns)

variable {a : Arith} {search : List ℕ → ℕ → Except ℕ ℕ} {shards : List Bytes} {b : Bytes}
  {idx batchElements i j o n g : ℕ}

/-! ### Windows in a shard -/

theorem tfWindow?_of_le (hlen : a.Exact b.length) (hfit : o + n + 4 ≤ b.length) :
    tfWindow? a b o n = .ok (some (b.extract o (o + n), b.extract (o + 4) (o + n + 4))) := by
  have hstop : a.add o n = .ok (o + n) := (hlen.mono (by omega)).add
  have hstart : a.add o 4 = .ok (o + 4) := (hlen.mono (by omega)).add
  have hend : windowEnd a o n 4 = .ok (o + n + 4) := windowEnd_of_exact (hlen.mono hfit)
  have hinput : slice? b o (o + n) = some (b.extract o (o + n)) :=
    slice?_of_le (Nat.le_add_right _ _) (by omega)
  have htarget : slice? b (o + 4) (o + n + 4) = some (b.extract (o + 4) (o + n + 4)) :=
    slice?_of_le (by omega) hfit
  simp only [tfWindow?, hstop, hstart, hend, hinput, htarget, bind, Except.bind]
  rfl

/-- The sums of the fit test are exact, or they wrap. -/
def SumsTo (a : Arith) (o n : ℕ) : Prop := a.Exact (o + n + 4) ∨ a = .release ∧ n < 2 ^ 64

/-- A window that does not fit fails the test, or a wrapped sum passes it and is out
of bounds. -/
theorem windowEnd_of_gt (hlen : a.Exact (b.length + 4)) (ho : o ≤ b.length) (hword : SumsTo a o n)
    (hout : b.length < o + n + 4) :
    ∃ last, windowEnd a o n 4 = .ok last ∧ (last ≤ b.length → tfWindow? a b o n = .ok none) := by
  by_cases hexact : a.Exact (o + n + 4)
  · exact ⟨_, windowEnd_of_exact hexact, fun hle => absurd hle (Nat.not_le.2 hout)⟩
  · obtain ⟨rfl, hn⟩ := hword.resolve_left hexact
    have hlen : b.length + 4 < 2 ^ 64 := hlen.lt (by decide)
    have hwrap : 2 ^ 64 ≤ o + n + 4 := Nat.not_lt.1 fun hlt => hexact (Or.inr hlt)
    have hslice : slice? b o ((o + n) % 2 ^ 64) = none := if_neg (by omega)
    refine ⟨_, rfl, fun _ => ?_⟩
    simp only [tfWindow?, Arith.add_release, bind, Except.bind, hslice]
    rfl

/-! ### The call -/

/-- The global offset `g` and the byte length `n` of a batch, as the call computes them. -/
structure Computes (a : Arith) (idx batchElements g n : ℕ) : Prop where
  length : a.mul batchElements 4 = .ok n
  offset : a.mul idx n = .ok g
  sums : a.Exact (g + n + 4) ∨ a = .release ∧ g < 2 ^ 64 ∧ n < 2 ^ 64

theorem Computes.exact (h : Computes a idx batchElements g n) : a.Exact g :=
  h.sums.elim (fun hsum => hsum.mono (by omega)) fun hwrap => Or.inr hwrap.2.1

/-- The loader over aligned shards that fit the word. -/
structure Indexable (a : Arith) (shards : List Bytes) : Prop where
  addressable : Addressable a shards
  aligned : ∀ b ∈ shards, b.length % 4 = 0

/-- A search that ends behind the last shard is refused. -/
theorem getTfBatchU8_past (hbatch : Computes a idx batchElements g n)
    (hsearch : shardIdx (search (offsets (shards.map List.length)) g) = some shards.length) :
    (ofShards shards).getTfBatchU8 a search idx batchElements = .ok none := by
  simp only [getTfBatchU8, hbatch.length, hbatch.offset, bind, Except.bind, ofShards, hsearch,
    le_refl, if_true]
  rfl

/-- Any other search ends at a shard, and the batch is tested there. -/
theorem getTfBatchU8_at (hindex : Indexable a shards) (hbatch : Computes a idx batchElements g n)
    (hsearch : shardIdx (search (offsets (shards.map List.length)) g) = some j)
    (hj : shards[j]? = some b) (ho : o ≤ b.length)
    (hg : g = ((shards.map List.length).take j).sum + o) :
    (ofShards shards).getTfBatchU8 a search idx batchElements =
      .ok (if o + n + 4 ≤ b.length then
        some (b.extract o (o + n), b.extract (o + 4) (o + n + 4)) else none) := by
  obtain ⟨hlt, -⟩ := List.getElem?_eq_some_iff.1 hj
  have htotal := sum_take_add_le hj
  have hword : a.Exact (b.length + 4) := hindex.addressable.total.mono (by omega)
  have hlen : a.Exact b.length := hword.mono (Nat.le_add_right _ _)
  have hbase : index (offsets (shards.map List.length)) j =
      .ok ((shards.map List.length).take j).sum :=
    index_of_getElem? (getElem?_offsets (by rw [List.length_map]; exact hlt.le))
  have hsub : a.sub g ((shards.map List.length).take j).sum = .ok o := by
    rw [hbatch.exact.sub (by omega), hg, Nat.add_sub_cancel_left]
  have helems : index (shards.map fun b => b.length / 4) j = .ok (b.length / 4) :=
    index_of_getElem? (by rw [List.getElem?_map, hj]; rfl)
  have hdiv : b.length / 4 * 4 = b.length :=
    Nat.div_mul_cancel (Nat.dvd_of_mod_eq_zero (hindex.aligned b (List.mem_of_getElem? hj)))
  have hmul : a.mul (b.length / 4) 4 = .ok b.length := by
    rw [Arith.Exact.mul (by rwa [hdiv]), hdiv]
  have hshard : index shards j = .ok b := index_of_getElem? hj
  have hsums : SumsTo a o n := hbatch.sums.imp (fun h => h.mono (by omega)) fun h => ⟨h.1, h.2.2⟩
  simp only [getTfBatchU8, hbatch.length, hbatch.offset, bind, Except.bind, ofShards, hsearch,
    if_neg (Nat.not_le.2 hlt), hbase, hsub, helems, hmul, pure, Except.pure]
  by_cases hfit : o + n + 4 ≤ b.length
  · have hend : windowEnd a o n 4 = .ok (o + n + 4) := windowEnd_of_exact (hlen.mono hfit)
    simp only [hend, if_pos hfit, hshard, tfWindow?_of_le hlen hfit]
  · obtain ⟨last, hend, hnone⟩ := windowEnd_of_gt hword ho hsums (Nat.not_le.1 hfit)
    simp only [hend, if_neg hfit, hshard]
    split
    · exact hnone ‹_›
    · rfl

/-! ### The answer of the search -/

/-- The search answers with an exact match that is an empty shard. -/
def Misses (shards : List Bytes) (answer : Except ℕ ℕ) : Prop :=
  ∃ j, answer = .ok j ∧ shards[j]? = some []

theorem found_ok_iff (hj : shards[j]? = some b) :
    Found (offsets (shards.map List.length)) g (.ok j) ↔
      ((shards.map List.length).take j).sum = g := by
  have hle : j ≤ (shards.map List.length).length := by
    rw [List.length_map]
    exact (List.getElem?_eq_some_iff.1 hj).1.le
  rw [Found, getElem?_offsets hle, Option.some.injEq]

/-- Any other answer is the shard that the offset lies in, or the end of the data. -/
theorem shardIdx_of_hit {answer : Except ℕ ℕ}
    (hfound : Found (offsets (shards.map List.length)) g answer) (hhit : ¬Misses shards answer) :
    (∃ j b o, shards[j]? = some b ∧ o < b.length ∧ g = ((shards.map List.length).take j).sum + o ∧
      shardIdx answer = some j) ∨
    (shardIdx answer = some shards.length ∧ (shards.map List.length).sum ≤ g) := by
  obtain ⟨j, hle, hanswer⟩ := found_offsets hfound
  rw [List.length_map] at hle
  have hidx : shardIdx answer = some j := by
    rcases hanswer with ⟨rfl, -⟩ | ⟨rfl, -⟩
    · rfl
    · rfl
  have hstart : ((shards.map List.length).take j).sum ≤ g := by
    rcases hanswer with ⟨-, hg⟩ | ⟨-, hg, -⟩
    · exact hg.le
    · exact hg.le
  rcases Nat.eq_or_lt_of_le hle with rfl | hlt
  · rw [List.take_of_length_le (by rw [List.length_map])] at hstart
    exact Or.inr ⟨hidx, hstart⟩
  have hj : shards[j]? = some shards[j] := List.getElem?_eq_getElem hlt
  obtain ⟨o, rfl⟩ := Nat.exists_eq_add_of_le hstart
  refine Or.inl ⟨j, shards[j], o, hj, ?_, rfl, hidx⟩
  rcases hanswer with ⟨hok, hg⟩ | ⟨-, -, hin⟩
  · have hne : shards[j] ≠ [] := fun hempty => hhit ⟨j, hok, hempty ▸ hj⟩
    have := List.length_pos_iff.2 hne
    omega
  · have := hin shards[j].length (by rw [List.getElem?_map, hj]; rfl)
    omega

/-- A search that hits returns what the data hold in the batch and 4 bytes later if one
shard holds both, and otherwise `None`. -/
theorem getTfBatchU8_of_hit (hindex : Indexable a shards)
    (hbatch : Computes a idx batchElements g n)
    (hfound : Found (offsets (shards.map List.length)) g
      (search (offsets (shards.map List.length)) g))
    (hhit : ¬Misses shards (search (offsets (shards.map List.length)) g)) :
    ReturnsIf (InOneShard shards g (g + n + 4))
      (shards.flatten.extract g (g + n), shards.flatten.extract (g + 4) (g + n + 4))
      ((ofShards shards).getTfBatchU8 a search idx batchElements) := by
  rcases shardIdx_of_hit hfound hhit with ⟨j, b, o, hj, ho, rfl, hidx⟩ | ⟨hidx, hpast⟩
  · rw [ReturnsIf, inOneShard_iff hj ho (by omega), getTfBatchU8_at hindex hbatch hidx hj ho.le rfl]
    refine ⟨fun hin => ?_, fun hout => by rw [if_neg (by omega)]⟩
    have hinput := extract_flatten hj (show o + n ≤ b.length by omega)
    have htarget := extract_flatten_add hj (show o + n + 4 ≤ b.length by omega)
    rw [if_pos (by omega), hinput, htarget]
  · rw [getTfBatchU8_past hbatch hidx]
    exact ⟨fun hin => absurd hin (not_inOneShard (by omega)), fun _ => rfl⟩

/-- In an empty shard no batch fits. -/
theorem getTfBatchU8_of_miss (hindex : Indexable a shards)
    (hbatch : Computes a idx batchElements g n)
    (hfound : Found (offsets (shards.map List.length)) g
      (search (offsets (shards.map List.length)) g))
    (hmiss : Misses shards (search (offsets (shards.map List.length)) g)) :
    (ofShards shards).getTfBatchU8 a search idx batchElements = .ok none := by
  obtain ⟨j, hok, hj⟩ := hmiss
  have hidx : shardIdx (search (offsets (shards.map List.length)) g) = some j := by rw [hok]; rfl
  rw [hok] at hfound
  have hg := (found_ok_iff hj).1 hfound
  rw [getTfBatchU8_at hindex hbatch hidx hj le_rfl hg.symm, if_neg (by simp)]

/-! ### Empty shards -/

/-- An empty shard starts at the offset. -/
def EmptyAt (shards : List Bytes) (g : ℕ) : Prop :=
  ∃ j, shards[j]? = some [] ∧ ((shards.map List.length).take j).sum = g

theorem Misses.emptyAt {answer : Except ℕ ℕ} (h : Misses shards answer)
    (hfound : Found (offsets (shards.map List.length)) g answer) : EmptyAt shards g := by
  obtain ⟨j, rfl, hj⟩ := h
  exact ⟨j, hj, (found_ok_iff hj).1 hfound⟩

/-- Where an empty shard starts, some implementation of the search answers with it. -/
theorem EmptyAt.exists_search (h : EmptyAt shards g) :
    ∃ search, BinarySearches search ∧
      Misses shards (search (offsets (shards.map List.length)) g) := by
  obtain ⟨j, hj, hg⟩ := h
  obtain ⟨search, hsearch, hanswer⟩ := PrefixSums.exists_search ((found_ok_iff hj).2 hg)
  exact ⟨search, hsearch, j, hanswer, hj⟩

/-- Where a shard has a byte, some implementation of the search answers with that shard. -/
theorem exists_search_hit {stop : ℕ} (hin : InOneShard shards g stop) (hlt : g < stop) :
    ∃ search, BinarySearches search ∧
      ¬Misses shards (search (offsets (shards.map List.length)) g) := by
  obtain ⟨i, b, hi, hstart, hstop⟩ := hin
  by_cases hg : ((shards.map List.length).take i).sum = g
  · obtain ⟨search, hsearch, hanswer⟩ := PrefixSums.exists_search ((found_ok_iff hi).2 hg)
    refine ⟨search, hsearch, ?_⟩
    rintro ⟨j, hj, hempty⟩
    obtain rfl := Except.ok.inj (hanswer.symm.trans hj)
    obtain rfl := Option.some.inj (hi.symm.trans hempty)
    rw [List.length_nil] at hstop
    omega
  · -- no offset is `g`, so there is nothing to match
    refine ⟨searchFirst, binarySearches_searchFirst, fun hmiss => hg ?_⟩
    obtain ⟨j, -, rfl⟩ := hmiss.emptyAt (binarySearches_searchFirst _ _ (sorted_offsets _))
    have hlen : (shards.map List.length)[i]? = some b.length := by simp [hi]
    exact sum_take_of_offset hlen hstart (by omega)

/-- With every implementation of the search the call returns what one shard holds, exactly
when no empty shard starts where a batch is to be found. -/
theorem returns_iff (hindex : Indexable a shards) (hbatch : Computes a idx batchElements g n) :
    (∀ search, BinarySearches search → ReturnsIf (InOneShard shards g (g + n + 4))
      (shards.flatten.extract g (g + n), shards.flatten.extract (g + 4) (g + n + 4))
      ((ofShards shards).getTfBatchU8 a search idx batchElements)) ↔
    ¬(InOneShard shards g (g + n + 4) ∧ EmptyAt shards g) := by
  constructor
  · rintro hreturns ⟨hin, hempty⟩
    obtain ⟨search, hsearch, hmiss⟩ := hempty.exists_search
    have hsome := (hreturns search hsearch).1 hin
    rw [getTfBatchU8_of_miss hindex hbatch (hsearch _ _ (sorted_offsets _)) hmiss] at hsome
    cases hsome
  · intro hclear search hsearch
    have hfound := hsearch _ g (sorted_offsets (shards.map List.length))
    by_cases hmiss : Misses shards (search (offsets (shards.map List.length)) g)
    · have hempty := hmiss.emptyAt hfound
      exact ⟨fun hin => absurd ⟨hin, hempty⟩ hclear, fun _ =>
        getTfBatchU8_of_miss hindex hbatch hfound hmiss⟩
    · exact getTfBatchU8_of_hit hindex hbatch hfound hmiss

/-! ### Agreement with random access -/

/-- Two calls that return under the same condition return the same. -/
theorem returnsIf_iff {β : Type} {inside : Prop} {value : β}
    {result result' : Except Panic (Option β)} (h : ReturnsIf inside value result') :
    ReturnsIf inside value result ↔
      result = result' ∧ ((∃ found, result = .ok (some found)) ↔ inside) := by
  constructor
  · intro hresult
    by_cases hin : inside
    · rw [hresult.1 hin, h.1 hin]
      exact ⟨rfl, iff_of_true ⟨_, rfl⟩ hin⟩
    · rw [hresult.2 hin, h.2 hin]
      exact ⟨rfl, iff_of_false (fun ⟨_, hfound⟩ => by cases hfound) hin⟩
  · rintro ⟨rfl, -⟩
    exact h

theorem batch_stop (idx batchElements : ℕ) :
    (idx + 1) * 4 * batchElements = idx * 4 * batchElements + batchElements * 4 := by
  rw [Nat.add_mul, Nat.add_mul, Nat.one_mul, Nat.mul_comm 4 batchElements]

/-- A batch is one range of the data, in a build that computes its end exactly. -/
theorem computes_of_exact (hword : a.Exact ((idx + 1) * 4 * batchElements + 4)) :
    Computes a idx batchElements (idx * 4 * batchElements) (batchElements * 4) := by
  have hstart : idx * (batchElements * 4) = idx * 4 * batchElements := by
    rw [Nat.mul_comm batchElements 4, Nat.mul_assoc]
  rw [batch_stop] at hword
  refine ⟨(hword.mono (by omega)).mul, ?_, Or.inl hword⟩
  rw [Arith.Exact.mul (by rw [hstart]; exact hword.mono (by omega)), hstart]

/-- Indexed batches of the legacy loader agree with random access to the same files, in
every state of the storage and with every implementation of the search, exactly when no
empty shard starts where a batch is to be found. -/
theorem getTfBatchU8_eq_iff {ε : Type} {host : Host ε} {setup : MmapSetup} {s₀ s : MmapStorage}
    {ops : List Op} {ws : List (Option Window)}
    (hload : MmapStorage.loadData host setup = .ok s₀) (hrun : s₀.run a ops = .ok (ws, s))
    (haddr : Addressable a s.shards) (hn : 1 ≤ batchElements)
    (hword : a.Exact ((idx + 1) * 4 * batchElements + 4)) :
    ∃ l, MmapPretokenizedDataLoader.mapData host setup.dataFiles = .ok l ∧
      ((∀ search, BinarySearches search →
        l.getTfBatchU8 a search idx batchElements =
          s.sliceTfRandom a (idx * 4 * batchElements) ((idx + 1) * 4 * batchElements) ∧
        ((∃ pair, l.getTfBatchU8 a search idx batchElements = .ok (some pair)) ↔
          InOneShard s.shards (idx * 4 * batchElements)
            (idx * 4 * batchElements + (4 * batchElements + 4)))) ↔
      ¬(InOneShard s.shards (idx * 4 * batchElements)
          (idx * 4 * batchElements + (4 * batchElements + 4)) ∧
        EmptyAt s.shards (idx * 4 * batchElements))) := by
  have hbatch := computes_of_exact hword
  have hend : idx * 4 * batchElements + (4 * batchElements + 4) =
      idx * 4 * batchElements + batchElements * 4 + 4 := by
    rw [Nat.mul_comm 4 batchElements, Nat.add_assoc]
  have halign := MmapStorage.aligned_of_loadData hload
  have hmap := mapData_of_loadData hload
  obtain ⟨-, rfl⟩ := MmapStorage.loadData_eq_ok.1 hload
  obtain ⟨p, q, hs, -⟩ := run_moves hrun
  have hshards : s.shards = host.shards setup.dataFiles := by rw [hs]; rfl
  rw [hshards] at haddr ⊢
  have hother := sliceTfRandom_returns hs haddr (hword.mono (Nat.le_add_right _ 4))
    (show idx * 4 * batchElements ≤ (idx + 1) * 4 * batchElements by rw [batch_stop]; omega)
  rw [and_iff_right (by rw [batch_stop]; omega)] at hother
  refine ⟨_, hmap, ?_⟩
  rw [hend, ← returns_iff ⟨haddr, halign⟩ hbatch]
  rw [batch_stop] at hother ⊢
  exact forall_congr' fun search => imp_congr_right fun _ => (returnsIf_iff hother).symm

/-- An empty file behind the first one does not matter for a batch in the first one. -/
theorem getTfBatchU8_eq_iff_front :
    let host : Host Unit := fun path =>
      File.ofBytes (if path = "a.bin" then [1, 2, 3, 4, 5, 6, 7, 8] else [])
    ∃ s l, MmapStorage.loadData host (MmapSetup.new ["a.bin", "b.bin"]) = .ok s ∧
      MmapPretokenizedDataLoader.mapData host ["a.bin", "b.bin"] = .ok l ∧
      ∀ search, BinarySearches search →
        l.getTfBatchU8 .release search 0 1 = s.sliceTfRandom .release 0 4 := by
  intro host
  have hload : MmapStorage.loadData host (MmapSetup.new ["a.bin", "b.bin"]) =
      .ok (.ofShards [[1, 2, 3, 4, 5, 6, 7, 8], []]) := rfl
  have hrun : (MmapStorage.ofShards [[1, 2, 3, 4, 5, 6, 7, 8], []]).run .release [] =
      .ok ([], .ofShards [[1, 2, 3, 4, 5, 6, 7, 8], []]) := rfl
  have hword : Arith.release.Exact ((0 + 1) * 4 * 1 + 4) := Or.inr (by decide)
  have hclear : ¬EmptyAt [[1, 2, 3, 4, 5, 6, 7, 8], []] 0 := by
    rintro ⟨j, hj, hstart⟩
    match j with
    | 0 => cases hj
    | 1 => cases hstart
    | j + 2 => cases hj
  obtain ⟨l, hmap, hagree⟩ := getTfBatchU8_eq_iff hload hrun
    ⟨Or.inr (by decide), Or.inr (by decide)⟩ (le_refl 1) hword
  exact ⟨_, l, hload, hmap, fun search hsearch =>
    (hagree.2 (fun h => hclear h.2) search hsearch).1⟩

/-- Between two files of 8 bytes lies an empty one.  A search that answers with the empty
shard where the third file starts makes the call refuse the front of the third file, which
random access returns. -/
theorem getTfBatchU8_misses :
    let host : Host Unit := fun path =>
      File.ofBytes (if path = "b.bin" then [] else [1, 2, 3, 4, 5, 6, 7, 8])
    ∃ s l, MmapStorage.loadData host (MmapSetup.new ["a.bin", "b.bin", "c.bin"]) = .ok s ∧
      MmapPretokenizedDataLoader.mapData host ["a.bin", "b.bin", "c.bin"] = .ok l ∧
      BinarySearches searchFirst ∧ searchFirst l.shardOffsets 8 = .ok 1 ∧
      (∀ a, l.getTfBatchU8 a searchFirst 2 1 = .ok none ∧
        s.sliceTfRandom a (2 * 4 * 1) ((2 + 1) * 4 * 1) =
          .ok (some ([1, 2, 3, 4], [5, 6, 7, 8]))) ∧
      ∀ a, ¬∀ search, BinarySearches search →
        l.getTfBatchU8 a search 2 1 = s.sliceTfRandom a (2 * 4 * 1) ((2 + 1) * 4 * 1) := by
  intro host
  have hcalls : ∀ a,
      (ofShards [[1, 2, 3, 4, 5, 6, 7, 8], [], [1, 2, 3, 4, 5, 6, 7, 8]]).getTfBatchU8 a
        searchFirst 2 1 = .ok none ∧
      (MmapStorage.ofShards [[1, 2, 3, 4, 5, 6, 7, 8], [], [1, 2, 3, 4, 5, 6, 7, 8]]).sliceTfRandom a
        (2 * 4 * 1) ((2 + 1) * 4 * 1) = .ok (some ([1, 2, 3, 4], [5, 6, 7, 8])) := by
    intro a
    cases a <;> decide +kernel
  refine ⟨_, _, rfl, rfl, binarySearches_searchFirst, by decide, hcalls, fun a hagree => ?_⟩
  have hsome := (hcalls a).1.symm.trans
    ((hagree searchFirst binarySearches_searchFirst).trans (hcalls a).2)
  cases hsome

/-! ### Indices past the data -/

/-- The call refuses a batch that does not lie in one shard, with the 4 bytes that
follow, and what it returns is the batch with the given index. -/
structure Unaliased (shards : List Bytes) (idx batchElements : ℕ)
    (result : Except Panic (Option (Bytes × Bytes))) : Prop where
  places : ∀ input target, result = .ok (some (input, target)) →
    input.length = 4 * batchElements ∧ ∃ i b o, shards[i]? = some b ∧
      ((shards.map List.length).take i).sum + o = idx * batchElements * 4 ∧
      o + 4 * batchElements + 4 ≤ b.length ∧ input = b.extract o (o + 4 * batchElements) ∧
      target = b.extract (o + 4) (o + 4 * batchElements + 4)
  refuses : ¬InOneShard shards (idx * batchElements * 4)
    (idx * batchElements * 4 + 4 * batchElements + 4) → result = .ok none

/-- A build that wraps computes the offset modulo the word. -/
theorem computes_release (idx batchElements : ℕ) :
    Computes .release idx batchElements (idx * (batchElements * 4) % 2 ^ 64)
      (batchElements * 4 % 2 ^ 64) :=
  ⟨rfl, congrArg Except.ok (Nat.mul_mod_mod _ _ _),
    Or.inr ⟨rfl, Nat.mod_lt _ (by decide), Nat.mod_lt _ (by decide)⟩⟩

theorem Unaliased.none : Unaliased shards idx batchElements (.ok none) :=
  ⟨fun _ _ h => absurd h (by simp), fun _ => rfl⟩

/-- What one shard holds at the true offset is the batch. -/
theorem Unaliased.some {g : ℕ} (hg : g = idx * batchElements * 4)
    (hin : InOneShard shards g (g + batchElements * 4 + 4)) :
    Unaliased shards idx batchElements (.ok (.some
      (shards.flatten.extract g (g + batchElements * 4),
        shards.flatten.extract (g + 4) (g + batchElements * 4 + 4)))) := by
  subst hg
  rw [Nat.mul_comm batchElements 4] at hin ⊢
  refine ⟨fun input target h => ?_, fun hout => absurd hin hout⟩
  obtain ⟨rfl, rfl⟩ := Prod.mk.inj (Option.some.inj (Except.ok.inj h))
  obtain ⟨i, b, hi, hstart, hstop⟩ := hin
  obtain ⟨o, ho⟩ := Nat.exists_eq_add_of_le hstart
  have hfit : o + 4 * batchElements + 4 ≤ b.length := by omega
  have hinput := extract_flatten hi (show o + 4 * batchElements ≤ b.length by omega)
  rw [ho, hinput, extract_flatten_add hi hfit]
  refine ⟨?_, i, b, o, hi, rfl, hfit, rfl, rfl⟩
  rw [List.extract_eq_take_drop, List.length_take, List.length_drop]
  omega

/-- Where a product overflows and the window it wraps to lies in one shard, some
implementation of the search makes the call return that window. -/
theorem exists_aliased (hindex : Indexable .release shards)
    (hwrap : 2 ^ 64 ≤ batchElements * 4 ∨ 2 ^ 64 ≤ idx * (batchElements * 4))
    (hin : InOneShard shards (idx * (batchElements * 4) % 2 ^ 64)
      (idx * (batchElements * 4) % 2 ^ 64 + batchElements * 4 % 2 ^ 64 + 4)) :
    ∃ search, BinarySearches search ∧ ¬Unaliased shards idx batchElements
      ((ofShards shards).getTfBatchU8 .release search idx batchElements) := by
  -- the true window ends past the word, and so past the data
  have hout : ¬InOneShard shards (idx * batchElements * 4)
      (idx * batchElements * 4 + 4 * batchElements + 4) := by
    have htotal : (shards.map List.length).sum + 4 < 2 ^ 64 :=
      hindex.addressable.total.lt (by decide)
    rw [← Nat.mul_assoc] at hwrap
    exact not_inOneShard (by omega)
  obtain ⟨search, hsearch, hhit⟩ := exists_search_hit hin (by omega)
  refine ⟨search, hsearch, fun h => ?_⟩
  have hsome := (getTfBatchU8_of_hit hindex (computes_release idx batchElements)
    (hsearch _ _ (sorted_offsets _)) hhit).1 hin
  rw [h.refuses hout] at hsome
  cases hsome

/-- Elsewhere no implementation of the search does. -/
theorem unaliased_of_clear (hindex : Indexable .release shards)
    (hclear : (batchElements * 4 < 2 ^ 64 ∧ idx * (batchElements * 4) < 2 ^ 64) ∨
      ¬InOneShard shards (idx * (batchElements * 4) % 2 ^ 64)
        (idx * (batchElements * 4) % 2 ^ 64 + batchElements * 4 % 2 ^ 64 + 4))
    (hsearch : BinarySearches search) :
    Unaliased shards idx batchElements
      ((ofShards shards).getTfBatchU8 .release search idx batchElements) := by
  have hbatch := computes_release idx batchElements
  have hfound := hsearch _ (idx * (batchElements * 4) % 2 ^ 64)
    (sorted_offsets (shards.map List.length))
  by_cases hmiss : Misses shards (search (offsets (shards.map List.length))
      (idx * (batchElements * 4) % 2 ^ 64))
  · rw [getTfBatchU8_of_miss hindex hbatch hfound hmiss]
    exact .none
  have hreturns := getTfBatchU8_of_hit hindex hbatch hfound hmiss
  by_cases hin : InOneShard shards (idx * (batchElements * 4) % 2 ^ 64)
    (idx * (batchElements * 4) % 2 ^ 64 + batchElements * 4 % 2 ^ 64 + 4)
  · obtain ⟨hlen, hoff⟩ := hclear.resolve_right (not_not.2 hin)
    rw [hreturns.1 hin]
    rw [Nat.mod_eq_of_lt hlen, Nat.mod_eq_of_lt hoff] at hin ⊢
    exact .some (Nat.mul_assoc _ _ _).symm hin
  · rw [hreturns.2 hin]
    exact .none

/-- In a build that wraps, no batch is aliased to other data, with every implementation of
the search, exactly when the products do not overflow or the window they wrap to does not
lie in one shard. -/
theorem getTfBatchU8_unaliased_iff {ε : Type} {host : Host ε} {dataFiles : List PathBuf}
    {l : MmapPretokenizedDataLoader}
    (hmap : MmapPretokenizedDataLoader.mapData host dataFiles = .ok l)
    (haddr : Addressable .release l.shards) (idx batchElements : ℕ) :
    (∀ search, BinarySearches search →
      Unaliased l.shards idx batchElements (l.getTfBatchU8 .release search idx batchElements)) ↔
    (batchElements * 4 < 2 ^ 64 ∧ idx * (batchElements * 4) < 2 ^ 64) ∨
      ¬InOneShard l.shards (idx * (batchElements * 4) % 2 ^ 64)
        (idx * (batchElements * 4) % 2 ^ 64 + batchElements * 4 % 2 ^ 64 + 4) := by
  obtain ⟨hl, halign⟩ := eq_of_mapData hmap
  obtain ⟨shards, rfl⟩ : ∃ shards, l = ofShards shards := ⟨_, hl⟩
  have hindex : Indexable .release shards := ⟨haddr, halign⟩
  refine ⟨fun hall => ?_, fun hclear search hsearch => unaliased_of_clear hindex hclear hsearch⟩
  by_contra hnot
  obtain ⟨hwrap, hin⟩ := not_or.1 hnot
  obtain ⟨search, hsearch, haliased⟩ := exists_aliased hindex (by omega) (not_not.1 hin)
  exact haliased (hall search hsearch)

/-- Batches past a file of two tokens are refused: the one of index 3, and that of index
`2 ^ 62 + 2`, whose offset wraps to the end of the file. -/
theorem getTfBatchU8_unaliased_iff_past :
    let host : Host Unit := fun _ => File.ofBytes [1, 2, 3, 4, 5, 6, 7, 8]
    ∃ l, MmapPretokenizedDataLoader.mapData host ["a.bin"] = .ok l ∧
      ∀ search, BinarySearches search →
        l.getTfBatchU8 .release search 3 1 = .ok none ∧
        l.getTfBatchU8 .release search (2 ^ 62 + 2) 1 = .ok none := by
  intro host
  have hmap : MmapPretokenizedDataLoader.mapData host ["a.bin"] =
      .ok (ofShards [[1, 2, 3, 4, 5, 6, 7, 8]]) := rfl
  have hiff := getTfBatchU8_unaliased_iff hmap ⟨Or.inr (by decide), Or.inr (by decide)⟩
  refine ⟨_, hmap, fun search hsearch => ⟨?_, ?_⟩⟩
  · have hexact := (hiff 3 1).2 (Or.inl ⟨by decide, by decide⟩) search hsearch
    exact hexact.refuses (not_inOneShard (by decide))
  · have hwrapped := (hiff (2 ^ 62 + 2) 1).2 (Or.inr (not_inOneShard (by decide))) search hsearch
    exact hwrapped.refuses (not_inOneShard (by decide))

/-- Over a file of two tokens, the batch of one token with index `2 ^ 62` starts at byte
`2 ^ 64`, and a build that wraps returns the front of the file for it; it also returns
empty slices for a batch of `2 ^ 62` tokens. -/
theorem getTfBatchU8_aliased :
    let host : Host Unit := fun _ => File.ofBytes [1, 2, 3, 4, 5, 6, 7, 8]
    ∃ l, MmapPretokenizedDataLoader.mapData host ["a.bin"] = .ok l ∧
      l.getTfBatchU8 .release searchFirst (2 ^ 62) 1 =
        .ok (some ([1, 2, 3, 4], [5, 6, 7, 8])) ∧
      l.getTfBatchU8 .release searchFirst 1 (2 ^ 62) = .ok (some ([], [])) ∧
      (¬∀ search, BinarySearches search →
        Unaliased l.shards (2 ^ 62) 1 (l.getTfBatchU8 .release search (2 ^ 62) 1)) ∧
      ¬∀ search, BinarySearches search →
        Unaliased l.shards 1 (2 ^ 62) (l.getTfBatchU8 .release search 1 (2 ^ 62)) := by
  intro host
  have hindex : (ofShards [[1, 2, 3, 4, 5, 6, 7, 8]]).getTfBatchU8 .release searchFirst (2 ^ 62) 1 =
      .ok (some ([1, 2, 3, 4], [5, 6, 7, 8])) := by decide +kernel
  have hlength :
      (ofShards [[1, 2, 3, 4, 5, 6, 7, 8]]).getTfBatchU8 .release searchFirst 1 (2 ^ 62) =
        .ok (some ([], [])) := by decide +kernel
  refine ⟨_, rfl, hindex, hlength, fun h => ?_, fun h => ?_⟩
  · have hnone := (h searchFirst binarySearches_searchFirst).refuses (not_inOneShard (by decide))
    cases hnone.symm.trans hindex
  · have hnone := (h searchFirst binarySearches_searchFirst).refuses (not_inOneShard (by decide))
    cases hnone.symm.trans hlength

end Legacy
end Plast
