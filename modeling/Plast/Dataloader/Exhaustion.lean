/-
# How long exhaustion lasts

A storage that has answered `None` has no shard left to go on to.  `MmapStorage` has let
its last shard go, and `BufferStorage` keeps it: a later call is served from what is left
of it, if it fits there.  So exhaustion lasts exactly as long as no call fits, and a loader
whose iterator has ended yields nothing more exactly if neither of the two calls that its
iterators make does (`exhaustion_final_iff`).
-/

import Plast.Dataloader.Training

namespace Plast

open Machine BlockReader

variable {ε : Type} {host : Host ε} {files : List PathBuf}

/-- No request fits what the storage still holds after the data has ended. -/
def Storage.NoRoom (c : Call) : Storage → Prop
  | .mmap _ => True
  | .buffer sys => ∀ b, sys.storage.activeBuffer = some b →
    b.length < sys.storage.localCursor + c.reqLen + c.lookahead

/-- At its end, a storage has no room for the calls that miss what its reader holds. -/
theorem Storage.Reads.noRoom_iff {st : Storage} {r : State UInt8} (h : st.Reads host files r)
    (hend : r.Ended st.keepLast) (c : Call) : st.NoRoom c ↔ r.hit? c.request = none := by
  cases st with
  | mmap =>
    rw [hend.gone rfl]
    exact ⟨fun _ => rfl, fun _ => trivial⟩
  | buffer =>
    obtain ⟨-, -, -, hheld⟩ := h
    rw [State.hit?_eq_none, ← hheld, Request.need, ← Nat.add_assoc]
    rfl

/-! ### The iterators of a loader -/

namespace StorageLoader

variable {α : Type} {d : StorageLoader α} {yields : Bool} {st st' : Storage} {r : State UInt8}

/-- One `next` of an iterator that the loader has created, by `iter` or `iter_bytes`, by
`tf_iter` or `tf_iter_bytes`.  The iterators borrow the storage, and `yields` says whether
this one returned an item. -/
def Next (host : Host ε) (d : StorageLoader α) (yields : Bool) (st st' : Storage) : Prop :=
  (∃ x, IterNext host d st (x, st') ∧ x.isSome = yields) ∨
    (∃ x, IterNext host ⟨d.storage, d.numElements, bytesConverter⟩ st (x, st') ∧
      x.isSome = yields) ∨
    (∃ x, TfIterNext host d st (x, st') ∧ x.isSome = yields) ∨
    ∃ x, TfIterNext host ⟨d.storage, d.numElements, bytesConverter⟩ st (x, st') ∧
      x.isSome = yields

/-- Whatever iterators are created and however often each of them is asked, in any order and
on any schedule, no item is yielded. -/
def Silent (host : Host ε) (d : StorageLoader α) : Prop :=
  ∀ st, Relation.ReflTransGen (fun s s' => ∃ yields, d.Next host yields s s') d.storage st →
    ∀ st', ¬d.Next host true st st'

/-- A `next` makes one of two calls, and yields what it returns. -/
theorem Next.answers (h : d.Next host yields st st') :
    ∃ (c : Call) (w : Option Window), (c = .sliceSequential (d.numElements * 4) ∨
      c = .sliceTfSequential (d.numElements * 4)) ∧
      st.Answers host c (w, st') ∧ w.isSome = yields := by
  rcases h with ⟨_, ⟨w, hans, rfl⟩, rfl⟩ | ⟨_, ⟨w, hans, rfl⟩, rfl⟩ | ⟨_, ⟨w, hans, rfl⟩, rfl⟩ |
    ⟨_, ⟨w, hans, rfl⟩, rfl⟩
  · exact ⟨_, _, Or.inl rfl, hans, by simp only [Option.isSome_map]⟩
  · exact ⟨_, _, Or.inl rfl, hans, by simp only [Option.isSome_map]⟩
  · exact ⟨_, _, Or.inr rfl, hans, by simp only [Option.isSome_map]⟩
  · exact ⟨_, _, Or.inr rfl, hans, by simp only [Option.isSome_map]⟩

/-- A call that hits gives an item. -/
theorem exists_next_of_hit {c : Call} (hc : c = .sliceSequential (d.numElements * 4) ∨
    c = .sliceTfSequential (d.numElements * 4)) (h : st.Reads host files r)
    (hhit : (r.seek st.keepLast c.request).1.isSome) : ∃ st', d.Next host true st st' := by
  rcases hc with rfl | rfl
  · obtain ⟨st', hnext⟩ := @Storage.Reads.exists_converts _ host files st r Bytes α
      (.sliceSequential (d.numElements * 4)) .plain d.marker.convert
      (fun x => x.1.extract x.2 (x.2 + d.numElements * 4)) h fun _ => rfl
    exact ⟨st', Or.inl ⟨_, hnext, by rwa [Option.isSome_map]⟩⟩
  · obtain ⟨st', hnext⟩ := @Storage.Reads.exists_converts _ host files st r (Bytes × Bytes) (α × α)
      (.sliceTfSequential (d.numElements * 4)) (fun p => .tf p.1 p.2)
      (fun p => (d.marker.convert p.1, d.marker.convert p.2))
      (fun x => (x.1.extract x.2 (x.2 + d.numElements * 4),
        x.1.extract (x.2 + 4) (x.2 + d.numElements * 4 + 4))) h fun _ => rfl
    exact ⟨st', Or.inr <| Or.inr <| Or.inl ⟨_, hnext, by rwa [Option.isSome_map]⟩⟩

/-- At the end of the data a loader is silent exactly if neither of its calls has room. -/
theorem silent_iff (h : d.storage.Reads host files r) (hend : r.Ended d.storage.keepLast) :
    d.Silent host ↔ d.storage.NoRoom (.sliceSequential (d.numElements * 4)) ∧
      d.storage.NoRoom (.sliceTfSequential (d.numElements * 4)) := by
  rw [h.noRoom_iff hend, h.noRoom_iff hend]
  constructor
  · intro hsilent
    have hmiss : ∀ c : Call, c = .sliceSequential (d.numElements * 4) ∨
        c = .sliceTfSequential (d.numElements * 4) → r.hit? c.request = none := by
      intro c hc
      by_contra hhit
      rw [← hend.seek.1] at hhit
      obtain ⟨st', hnext⟩ := exists_next_of_hit hc h (Option.isSome_iff_ne_none.2 hhit)
      exact hsilent _ .refl st' hnext
    exact ⟨hmiss _ (Or.inl rfl), hmiss _ (Or.inr rfl)⟩
  · rintro ⟨hplain, htf⟩
    -- a call that finds no room answers `None` and leaves the reader as it is
    have hstep : ∀ {s s' : Storage} {yields : Bool}, s.Reads host files r ∧
        s.keepLast = d.storage.keepLast → d.Next host yields s s' →
        yields = false ∧ s'.Reads host files r ∧ s'.keepLast = d.storage.keepLast := by
      rintro s s' yields ⟨hs, hkeep⟩ hnext
      obtain ⟨c, w, hc, hans, rfl⟩ := hnext.answers
      have hmiss : r.hit? c.request = none := by
        rcases hc with rfl | rfl
        · exact hplain
        · exact htf
      obtain ⟨hw, hs', hkeep'⟩ := hs.answers hans
      obtain ⟨hnone, hsame⟩ := hend.seek (q := c.request)
      rw [hkeep, hnone, hmiss] at hw
      rw [hkeep, hsame hmiss] at hs'
      exact ⟨by rw [show w = none from hw]; rfl, hs', hkeep'.trans hkeep⟩
    have hrun : ∀ st, Relation.ReflTransGen (fun s s' => ∃ yields, d.Next host yields s s')
        d.storage st → st.Reads host files r ∧ st.keepLast = d.storage.keepLast := by
      intro st hreach
      induction hreach with
      | refl => exact ⟨h, rfl⟩
      | tail _ hlast ih =>
        obtain ⟨yields, hlast⟩ := hlast
        exact (hstep ih hlast).2
    intro st hreach st' hnext
    exact Bool.noConfusion (hstep (hrun st hreach) hnext).1

end StorageLoader

/-! ### After a `None` -/

/-- After a script whose last call returned `None`, further calls all return `None`
exactly when none of them fits what the storage still holds.  A loader over the storage
yields nothing more, from any iterator, exactly when neither a window of its `num_elements`
fits nor a window and its target. -/
theorem exhaustion_final_iff {backend : Backend} {st₀ st : Storage} {history : List Op} {c : Call}
    {ws : List (Option Window)} (hread : host.Readable files)
    (hload : backend.load host files = .ok st₀)
    (hrun : st₀.Runs host (history ++ [.read c]) (ws ++ [none]) st) :
    (∀ calls : List Call,
      (∀ rs st', st.Runs host (calls.map .read) rs st' → ∀ w ∈ rs, w = none) ↔
        ∀ c ∈ calls, st.NoRoom c) ∧
    ∀ {α : Type} (numElements : ℕ) (marker : DataloaderType α),
      StorageLoader.Silent host ⟨st, numElements, marker⟩ ↔
        st.NoRoom (.sliceSequential (numElements * 4)) ∧
          st.NoRoom (.sliceTfSequential (numElements * 4)) := by
  obtain ⟨r, hreads, hend⟩ := (backend.load_reads hread hload).ended hrun
  refine ⟨fun calls => ?_, fun numElements marker => StorageLoader.silent_iff hreads hend⟩
  simp only [hreads.noRoom_iff hend]
  rw [← @State.Ended.run_iff _ _ _ st.keepLast r Call.request Call.view (host.shards files) hend]
  constructor
  · intro h
    obtain ⟨st', hst'⟩ := hreads.runs_iff.2 rfl
    exact h _ st' hst'
  · intro h rs st' hst'
    rw [(hreads.runs hst').1]
    exact h

/-- Half of a file is left, too little for the second request.  Nor does it hold another
window of 8 bytes, or 4 bytes and their target, and a loader of 2 elements is silent. -/
theorem exhaustion_final_iff_half :
    let host : Host Unit := fun _ => File.ofBytes [1, 2, 3, 4, 5, 6, 7, 8]
    ∃ st₀ st, (Backend.buffer 1).load host ["a.bin"] = .ok st₀ ∧
      st₀.Runs host [.read (.sliceSequential 4), .read (.sliceSequential 8)]
        [some (.plain [1, 2, 3, 4]), none] st ∧
      (∀ rs st', st.Runs host ([Call.sliceTfSequential 4, .sliceSequential 8].map .read) rs st' →
        ∀ w ∈ rs, w = none) ∧
      StorageLoader.Silent host ⟨st, 2, u32Converter⟩ := by
  intro host
  have hread : host.Readable ["a.bin"] := fun path _ => File.ofBytes_readable _
  have hload : (Backend.buffer 1).load host ["a.bin"] =
      .ok (.buffer (BufferSystem.loaded ["a.bin"] 1 8)) := rfl
  have hreads := (Backend.buffer 1).load_reads hread hload
  obtain ⟨st, hrun⟩ := hreads.runs_iff.2 (show [some (.plain [1, 2, 3, 4]), none] =
    (State.run Call.request Call.view _ _
      [.read (.sliceSequential 4), .read (.sliceSequential 8)] _).1 by decide +kernel)
  have hroom : ∀ c : Call, 4 < c.reqLen + c.lookahead → st.NoRoom c := by
    obtain ⟨-, hreads', -⟩ := hreads.runs hrun
    intro c hc
    cases hrun with
    | @buffer _ sys =>
      obtain ⟨-, -, -, hheld⟩ := hreads'
      have hheld := hheld.trans (show _ = State.mk (some [1, 2, 3, 4, 5, 6, 7, 8]) 4 [] by
        decide +kernel)
      intro b hb
      obtain rfl := Option.some.inj (hb.symm.trans (congrArg State.active hheld))
      have hcursor : sys.storage.localCursor = 4 := congrArg State.cursor hheld
      change 8 < _
      omega
  obtain ⟨hcalls, hloader⟩ :=
    @exhaustion_final_iff Unit host ["a.bin"] _ _ st [.read (.sliceSequential 4)]
      (.sliceSequential 8) [some (.plain [1, 2, 3, 4])] hread hload hrun
  refine ⟨_, st, hload, hrun, (hcalls _).2 ?_, (hloader 2 u32Converter).2 ⟨?_, ?_⟩⟩
  · intro c hc
    rcases List.mem_pair.1 hc with rfl | rfl
    · exact hroom _ (by decide)
    · exact hroom _ (by decide)
  · exact hroom _ (by decide)
  · exact hroom _ (by decide)

/-- Half of a file is left, too little for the second request and enough for the
third. -/
theorem exhaustion_not_final :
    let host : Host Unit := fun _ => File.ofBytes [1, 2, 3, 4, 5, 6, 7, 8]
    ∃ st₀ st, (Backend.buffer 1).load host ["a.bin"] = .ok st₀ ∧
      st₀.Runs host
        [.read (.sliceSequential 4), .read (.sliceSequential 8), .read (.sliceSequential 4)]
        [some (.plain [1, 2, 3, 4]), none, some (.plain [5, 6, 7, 8])] st := by
  intro host
  have hread : host.Readable ["a.bin"] := fun path _ => File.ofBytes_readable _
  have hload : (Backend.buffer 1).load host ["a.bin"] =
      .ok (.buffer (BufferSystem.loaded ["a.bin"] 1 8)) := rfl
  obtain ⟨st, hrun⟩ := ((Backend.buffer 1).load_reads hread hload).runs_iff.2
    (show [some (.plain [1, 2, 3, 4]), none, some (.plain [5, 6, 7, 8])] =
      (State.run Call.request Call.view _ _
        [.read (.sliceSequential 4), .read (.sliceSequential 8), .read (.sliceSequential 4)] _).1
      by decide +kernel)
  exact ⟨_, st, hload, hrun⟩

end Plast
