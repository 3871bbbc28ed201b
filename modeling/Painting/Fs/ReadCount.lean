import Painting.Fs.SequentialRead

/-!
# How much one call of `fileread` delivers

`fileread` looks at one cluster more than `m` bytes fill, wherever in its cluster the range starts.
A range that touches yet another cluster is cut off at the end of the clusters looked at, although
the file goes on.
-/

namespace Painting.SysRead

open Painting.Memory
open Painting.Fat32 (Filesystem Geometry readSpan)

variable {fs : Filesystem} {disk : Mem} {file : Fat32.Dirent} {chain : List ℕ}

/-- The range of `m` bytes from `off` on ends in the last cluster that `fileread` looks at. -/
def EndsInSight (fs : Filesystem) (off m : ℕ) : Prop :=
  off % fs.sbinfo.bytesPerClus + (m - 1) % fs.sbinfo.bytesPerClus < fs.sbinfo.bytesPerClus

instance (fs : Filesystem) (off m : ℕ) : Decidable (EndsInSight fs off m) :=
  inferInstanceAs (Decidable (_ < _))

theorem le_readSpan_iff (hgeo : Geometry fs) {off m : ℕ} (hm : 0 < m) :
    m ≤ readSpan fs off m ↔ EndsInSight fs off m := by
  have hmod := Nat.mod_lt off (Fat32.bytesPerClus_pos hgeo)
  have hsplit := Nat.div_add_mod (m - 1) fs.sbinfo.bytesPerClus
  rw [Nat.mul_comm] at hsplit
  rw [readSpan, EndsInSight]
  omega

/-- The bytes of a range inside the file. -/
theorem content_range (hgeo : Geometry fs) (hcovers : Covers fs disk file chain) (off n : ℕ) :
    ((Fat32.content fs disk chain file.size).drop off).take n =
      (List.range (min n (file.size - off))).map fun k => byteAt fs disk chain (off + k) := by
  rw [content_eq hgeo hcovers, ← List.map_drop, ← List.map_take]
  apply List.ext_getElem
  · simp
  · intro i hi hi'
    simp

/-- A file of 1000 bytes in the clusters 2 and 3. -/
def grownFile : Fat32.Dirent := ⟨2, 1000⟩

theorem grownFile_covers :
    Covers Fat32.smallVolume Fat32.rootGrown.disk grownFile [2, 3] := by
  have hlinked := Fat32.clusalloc_rootGrown.1.linked [2, 3] (List.mem_singleton.mpr rfl)
  refine ⟨hlinked.inRange, hlinked.next, ?_, by decide⟩
  intro c hc
  exact (Option.some.inj hc).symm

end Painting.SysRead
