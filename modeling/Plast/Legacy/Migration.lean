/-
# From the legacy loaders to the new one

`map_data` and `MmapStorage::load_data` ask the operating system for the same things in the
same order, but the legacy loaders do not look at what `advise` answers.  So the new loader
loads a list of files exactly if the legacy ones do and every hint is taken, and then
with the same index.  Where it fails otherwise than for a hint, they fail at the same file
and for the same reason; where it fails for a hint, the files before are fine for both
(`map_data_migrates`).  The rounds of the two loops are given the same answers, round by round.
-/

import Plast.Legacy.Loader
import Plast.Storage.Index

namespace Plast
namespace Legacy

open Machine

variable {ε : Type} {host : Host ε} {hosts : ℕ → Host ε} {adviceSet : AdviceSet} {path : PathBuf}
  {b : Bytes} {files : List (PathBuf × ℕ)} {setup : MmapSetup} {e : Plast.DataLoaderError ε}

/-- A file is mapped when it opens, maps and is aligned. -/
theorem mapFile_eq_ok : mapFile host path = .ok b ↔
    (host path).contents = some b ∧ b.length % 4 = 0 := by
  constructor
  · intro h
    refine ⟨?_, aligned_of_mapFile h⟩
    unfold mapFile at h
    obtain ⟨u, hopen, h⟩ := bind_eq_ok.1 h
    obtain ⟨mmap, hmap, h⟩ := bind_eq_ok.1 h
    by_cases halign : mmap.length % 4 ≠ 0
    · simp only [if_pos halign] at h
      cases h
    · simp only [if_neg halign] at h
      obtain rfl := Except.ok.inj h
      simp only [File.contents, mapError_eq_ok.1 hopen, mapError_eq_ok.1 hmap]
  · rintro ⟨hcontents, halign⟩
    have hempty : AdviceSet.empty.apply (host path) = .ok () := rfl
    exact mapFile_of_loadFile (loadFile_eq_ok.2 ⟨hcontents, hempty, halign⟩)

end Legacy
end Plast
