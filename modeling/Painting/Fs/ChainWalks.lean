import Painting.Fs.Directory
import Painting.Fs.FileWrite

/-!
# Walks along a chain

`fileExtend`, `file_get_clusNo`, `count_clusters` and `find_dirent_entry` follow the FAT from the
first cluster on, until they meet an end mark.  An empty file has first cluster 0, for which
`fatread` returns 0 again.
-/

namespace Painting.Fat32

open Painting.Memory
open Painting.Strings (Buffer)

section Code

variable (fs : Filesystem) (disk : Mem)

/-- The loop of `count_clusters`; `none` when it takes more rounds. -/
def countClustersLoop (clus i : ℕ) : ℕ → Option ℕ
  | 0 => none
  | rounds + 1 =>
      if IsEof clus then some i else countClustersLoop (fatread fs disk clus) (i + 1) rounds

/-- `count_clusters`. -/
def countClusters (file : Dirent) (rounds : ℕ) : Option ℕ :=
  if file.firstCluster = 0 then some 0 else countClustersLoop fs disk file.firstCluster 0 rounds

/-- The number of clusters whose entry `file_get_clusNo` reads. -/
def clusNoVisits (clus : ℕ) : ℕ → ℕ
  | 0 => 0
  | count + 1 =>
      let next := fatread fs disk clus
      if IsEof next then 1 else 1 + clusNoVisits next count

end Code

/-- Every walk from the first cluster of the file ends, and visits no more clusters than the chain
has: with a round for each and, where the end is tested first, one more, it is done. -/
structure WalksEnd (fs : Filesystem) (disk : Mem) (file : Dirent) (chain : List ℕ) : Prop where
  last : (lastClusLoop fs disk file.firstCluster 0 (chain.length + 1)).isSome
  extend : ∀ newSize, (fileExtend fs disk file newSize).isSome
  write : ∀ src off n, (filewrite fs disk file src off n).isSome
  lookup : ∀ index, clusNoVisits fs disk file.firstCluster index ≤ chain.length
  count : ∃ clusters ≤ chain.length, countClusters fs disk file (chain.length + 1) = some clusters
  find : ∀ dirents name dir entry stale, (Directory.findLoop fs disk dirents name dir entry stale
    file.firstCluster 0 chain.length).isSome

/-- The chain of a file; an empty one has none. -/
def ChainOf (chains : List (List ℕ)) (file : Dirent) (chain : List ℕ) : Prop :=
  (chain ∈ chains ∧ chain.head? = some file.firstCluster) ∨
    (chain = [] ∧ file.firstCluster = 0)

variable {fs : Filesystem} {disk : Mem} {file : Dirent} {chain : List ℕ}

/-! ## Chains that end -/

theorem clusNoVisits_le {first : ℕ} (hlinked : Linked fs disk chain)
    (hhead : chain.head? = some first) (count : ℕ) :
    clusNoVisits fs disk first count ≤ chain.length := by
  induction count generalizing chain first with
  | zero => exact Nat.zero_le _
  | succ count ih =>
      obtain ⟨rest, rfl⟩ : ∃ rest, chain = first :: rest := List.head?_eq_some_iff.mp hhead
      simp only [clusNoVisits]
      cases rest with
      | nil =>
          rw [if_pos (hlinked.last first rfl)]
          exact le_rfl
      | cons second rest =>
          obtain ⟨hnext, htail⟩ := hlinked.tail
          rw [hnext]
          split
          · simp
          · have hrest := ih htail rfl
            rw [List.length_cons]
            omega

theorem countClustersLoop_eq (hgeo : Geometry fs) {first i rounds : ℕ}
    (hlinked : Linked fs disk chain) (hhead : chain.head? = some first)
    (hrounds : chain.length < rounds) :
    countClustersLoop fs disk first i rounds = some (i + chain.length) := by
  induction rounds generalizing chain first i with
  | zero => omega
  | succ rounds ih =>
      obtain ⟨rest, rfl⟩ : ∃ rest, chain = first :: rest := List.head?_eq_some_iff.mp hhead
      have hin := hlinked.inRange first (by simp)
      rw [countClustersLoop, if_neg (not_isEof hgeo hin)]
      cases rest with
      | nil =>
          obtain ⟨rounds, rfl⟩ : ∃ r, rounds = r + 1 :=
            ⟨rounds - 1, by rw [List.length_singleton] at hrounds; omega⟩
          rw [countClustersLoop, if_pos (hlinked.last first rfl), List.length_singleton]
      | cons second rest =>
          obtain ⟨hnext, htail⟩ := hlinked.tail
          rw [hnext, ih htail rfl (by simpa using hrounds), Nat.add_right_comm, Nat.add_assoc]
          rfl

theorem findLoop_isSome {dirents : Directory.Dirents} {name : List UInt8} {dir entry first k : ℕ}
    {stale : ℕ → ℕ → Buffer} {rounds : ℕ} (hlinked : Linked fs disk chain)
    (hhead : chain.head? = some first) (hrounds : chain.length ≤ rounds) :
    (Directory.findLoop fs disk dirents name dir entry stale first k rounds).isSome := by
  induction rounds generalizing chain first dirents k with
  | zero => exact absurd (List.eq_nil_of_length_eq_zero (by omega)) hlinked.nonempty
  | succ rounds ih =>
      obtain ⟨rest, rfl⟩ : ∃ rest, chain = first :: rest := List.head?_eq_some_iff.mp hhead
      rw [Directory.findLoop]
      dsimp only
      split
      · rfl
      · split
        · rfl
        · cases rest with
          | nil =>
              rw [if_pos (hlinked.last first rfl)]
              rfl
          | cons second rest =>
              obtain ⟨hnext, htail⟩ := hlinked.tail
              rw [hnext]
              split
              · rfl
              · exact ih htail rfl (by simpa using hrounds)

theorem filewrite_isSome {src : ℕ → UInt8} {off n : ℕ}
    (hextend : ∀ newSize, (fileExtend fs disk file newSize).isSome) :
    (filewrite fs disk file src off n).isSome := by
  rw [filewrite]
  split
  · rfl
  · split
    · rfl
    · rw [Option.isSome_map]
      split
      · exact hextend _
      · rfl

theorem walksEnd_of_linked (hgeo : Geometry fs) (hlinked : Linked fs disk chain)
    (hnodup : chain.Nodup) (hhead : chain.head? = some file.firstCluster) :
    WalksEnd fs disk file chain := by
  obtain ⟨last, hlast⟩ := Option.ne_none_iff_exists'.mp
    (mt List.getLast?_eq_none_iff.mp hlinked.nonempty)
  have hlength := chain_length_le hlinked hnodup
  have hmarks := hgeo.marks
  have hwalk : ∀ rounds, chain.length < rounds →
      lastClusLoop fs disk file.firstCluster 0 rounds = some last :=
    fun rounds => lastClusLoop_eq hgeo hlinked hhead hlast
  have hextend : ∀ newSize, (fileExtend fs disk file newSize).isSome := by
    intro newSize
    rw [fileExtend]
    split
    · rfl
    · rw [hwalk walkRounds (by rw [walkRounds]; omega)]
      rfl
  have hfirst : file.firstCluster ≠ 0 := by
    have hin := hlinked.inRange _ (List.mem_of_head? hhead)
    have hlo := hin.1
    omega
  refine ⟨?_, hextend, fun _ _ _ => filewrite_isSome hextend, clusNoVisits_le hlinked hhead, ?_, ?_⟩
  · rw [hwalk _ (Nat.lt_succ_self _)]
    rfl
  · refine ⟨chain.length, le_rfl, ?_⟩
    rw [countClusters, if_neg hfirst, countClustersLoop_eq hgeo hlinked hhead (Nat.lt_succ_self _),
      Nat.zero_add]
  · intro dirents name dir entry stale
    exact findLoop_isSome hlinked hhead le_rfl

/-! ## The chain of an empty file -/

/-- From cluster 0 the walk to the last cluster stays at cluster 0. -/
theorem lastClusLoop_zero (hgeo : Geometry fs) (lastClus rounds : ℕ) :
    lastClusLoop fs disk 0 lastClus rounds = none := by
  induction rounds generalizing lastClus with
  | zero => rfl
  | succ rounds ih =>
      have hnext : fatread fs disk 0 = 0 := if_pos (.inl (by rw [hgeo.root]; decide))
      rw [lastClusLoop, if_neg (by decide), hnext]
      exact ih 0

end Painting.Fat32
