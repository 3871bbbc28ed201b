import Painting.Fs.FatChains

/-!
# Freeing along the links

The loop of `file_remove` reads the link of a cluster, frees the cluster and goes on with the link.
It visits the clusters that the FAT led to before the loop, although it clears their entries on the
way: a cluster that it meets again reads as free, and from 0 on nothing happens.

A cluster number may be past the data, where `fatread` still reads.  Numbers that differ by a
multiple of 2^30 have the same entry.
-/

namespace Painting.Fat32

open Painting.Memory

variable {fs : Filesystem} {disk disk' : Mem}

/-- The two numbers are in range of `fatread` and have one entry. -/
def SameEntry (fs : Filesystem) (c x : ℕ) : Prop :=
  ¬ OutOfRange fs c ∧ ¬ OutOfRange fs x ∧ c * 4 % 2 ^ 32 = x * 4 % 2 ^ 32

/-- The loop of `file_remove` over `count` clusters: what it returns, and the disk. -/
def removeLoop (fs : Filesystem) (disk : Mem) (clus : ℕ) : ℕ → Bool × Mem
  | 0 => (true, disk)
  | count + 1 =>
      if IsEof clus then (false, disk)
      else removeLoop fs (clusfree fs disk clus 0) (fatread fs disk clus) count

/-- The clusters that the links lead to from `clus` on. -/
def walked (fs : Filesystem) (disk : Mem) (clus : ℕ) : ℕ → List ℕ
  | 0 => []
  | count + 1 => clus :: walked fs disk (fatread fs disk clus) count

/-- The entries of the clusters in the set have been cleared, and no others. -/
def Cleared (fs : Filesystem) (disk disk' : Mem) (cleared : Set ℕ) : Prop :=
  ∀ x, ((∃ c ∈ cleared, SameEntry fs c x) → fatread fs disk' x = 0) ∧
    ((∀ c ∈ cleared, ¬ SameEntry fs c x) → fatread fs disk' x = fatread fs disk x)

/-! ## One entry -/

theorem SameEntry.symm {c x : ℕ} (hsame : SameEntry fs c x) : SameEntry fs x c :=
  ⟨hsame.2.1, hsame.1, hsame.2.2.symm⟩

theorem SameEntry.trans {c x y : ℕ} (hleft : SameEntry fs c x) (hright : SameEntry fs x y) :
    SameEntry fs c y :=
  ⟨hleft.1, hright.2.1, hleft.2.2.trans hright.2.2⟩

/-- Where the entry of a number is. -/
theorem fatread_place (hsector : fs.superblock.bytesPerSector = bsize) (disk : Mem) {x : ℕ}
    (hin : ¬ OutOfRange fs x) :
    fatread fs disk x = load disk
      (bsize * ((fs.superblock.reservedSectors + x * 4 % 2 ^ 32 / bsize) % 2 ^ 32) +
        x * 4 % 2 ^ 32 % bsize) 4 := by
  have hoffset : x * 4 % 2 ^ 32 % bsize / 4 * 4 = x * 4 % 2 ^ 32 % bsize := by
    simp only [bsize]
    omega
  rw [fatread, if_neg hin, load_bread, sectorNum, fatEntOffset, hsector, hoffset, Nat.zero_mul,
    Nat.add_zero]

theorem fatread_congr (hsector : fs.superblock.bytesPerSector = bsize) (disk : Mem) {c x : ℕ}
    (hsame : SameEntry fs c x) : fatread fs disk c = fatread fs disk x := by
  rw [fatread_place hsector disk hsame.1, fatread_place hsector disk hsame.2.1, hsame.2.2]

theorem fatwrite_place (hsector : fs.superblock.bytesPerSector = bsize) (disk : Mem) {x : ℕ}
    (hin : ¬ OutOfRange fs x) (value : ℕ) :
    fatwrite fs disk x value = store disk
      (bsize * ((fs.superblock.reservedSectors + x * 4 % 2 ^ 32 / bsize) % 2 ^ 32) +
        x * 4 % 2 ^ 32 % bsize) 4 value := by
  have hoffset : x * 4 % 2 ^ 32 % bsize / 4 * 4 = x * 4 % 2 ^ 32 % bsize := by
    simp only [bsize]
    omega
  have hfit : x * 4 % 2 ^ 32 % bsize + 4 ≤ bsize := by
    simp only [bsize]
    omega
  rw [fatwrite, if_neg hin]
  simp only [bwrite_bread]
  rw [sectorNum, fatEntOffset, hsector, hoffset, bwrite_store disk hfit, Nat.zero_mul, Nat.add_zero]

/-- Clearing an entry clears it for all its numbers and for no other. -/
theorem fatread_clusfree (hsector : fs.superblock.bytesPerSector = bsize) (disk : Mem) (c x : ℕ) :
    (SameEntry fs c x → fatread fs (clusfree fs disk c 0) x = 0) ∧
      (¬ SameEntry fs c x → fatread fs (clusfree fs disk c 0) x = fatread fs disk x) := by
  rw [clusfree, if_neg (not_not.mpr rfl)]
  constructor
  · rintro ⟨hc, hx, hentry⟩
    rw [fatwrite_place hsector disk hc, fatread_place hsector _ hx, hentry,
      load_store_of_lt _ (by decide)]
  · intro hother
    by_cases hc : OutOfRange fs c
    · rw [fatwrite, if_pos hc]
    by_cases hx : OutOfRange fs x
    · rw [fatread, fatread, if_pos hx, if_pos hx]
    have hentry : c * 4 % 2 ^ 32 ≠ x * 4 % 2 ^ 32 := fun heq => hother ⟨hc, hx, heq⟩
    rw [fatwrite_place hsector disk hc, fatread_place hsector _ hx, fatread_place hsector _ hx]
    apply load_store_of_disjoint
    simp only [bsize]
    omega

/-! ## The walk -/

section Walk

variable {clus count : ℕ} {cleared cleared' : Set ℕ}

theorem cleared_empty (fs : Filesystem) (disk : Mem) : Cleared fs disk disk ∅ := fun _ =>
  ⟨fun hsome => hsome.elim fun _ hc => hc.1.elim, fun _ => rfl⟩

/-- One more cluster. -/
theorem Cleared.insert (hsector : fs.superblock.bytesPerSector = bsize)
    (hcleared : Cleared fs disk disk' cleared) (clus : ℕ) :
    Cleared fs disk (clusfree fs disk' clus 0) (insert clus cleared) := by
  intro x
  obtain ⟨hzero, hkept⟩ := hcleared x
  obtain ⟨hnew, hother⟩ := fatread_clusfree hsector disk' clus x
  constructor
  · rintro ⟨c, rfl | hc, hsame⟩
    · exact hnew hsame
    · by_cases hnow : SameEntry fs clus x
      · exact hnew hnow
      · rw [hother hnow]
        exact hzero ⟨c, hc, hsame⟩
  · intro hnone
    rw [hother (hnone clus (Set.mem_insert _ _))]
    exact hkept fun c hc => hnone c (Set.mem_insert_of_mem _ hc)

/-- Nothing happens from 0 on. -/
theorem removeLoop_zero (hroot : 0 < fs.superblock.clusterRootDirectory) (disk : Mem) (count : ℕ) :
    removeLoop fs disk 0 count = (true, disk) := by
  have hout : OutOfRange fs 0 := .inl hroot
  induction count with
  | zero => rfl
  | succ count ih =>
      rw [removeLoop, if_neg (by decide), clusfree, if_neg (not_not.mpr rfl), fatwrite, if_pos hout,
        fatread, if_pos hout]
      exact ih

/-- Links that stay in a set. -/
theorem walked_subset (hclosed : ∀ c ∈ cleared, fatread fs disk c ∈ cleared) (hclus : clus ∈ cleared) :
    ∀ c ∈ walked fs disk clus count, c ∈ cleared := by
  induction count generalizing clus with
  | zero => exact fun c hc => absurd hc List.not_mem_nil
  | succ count ih => exact List.forall_mem_cons.mpr ⟨hclus, ih (hclosed clus hclus)⟩

/-- The loop after it has cleared a set of clusters whose links lead into the set or on to the next
cluster. -/
theorem removeLoop_cleared (hsector : fs.superblock.bytesPerSector = bsize)
    (hroot : 0 < fs.superblock.clusterRootDirectory) (hcleared : Cleared fs disk disk' cleared)
    (hclosed : ∀ c ∈ cleared, fatread fs disk c ∈ cleared ∨ fatread fs disk c = clus)
    (hlive : ∀ c ∈ cleared, ¬ IsEof c) :
    ((∃ c ∈ walked fs disk clus count, IsEof c) ∧ (removeLoop fs disk' clus count).1 = false) ∨
      ((∀ c ∈ walked fs disk clus count, ¬ IsEof c) ∧
        (removeLoop fs disk' clus count).1 = true ∧
        Cleared fs disk (removeLoop fs disk' clus count).2
          (cleared ∪ {c | c ∈ walked fs disk clus count})) := by
  induction count generalizing disk' clus cleared with
  | zero =>
      refine .inr ⟨fun c hc => absurd hc List.not_mem_nil, rfl, ?_⟩
      have hnone : {c | c ∈ walked fs disk clus 0} = ∅ :=
        Set.eq_empty_of_forall_notMem fun c hc => List.not_mem_nil hc
      rwa [hnone, Set.union_empty]
  | succ count ih =>
      rw [removeLoop]
      by_cases heof : IsEof clus
      · rw [if_pos heof]
        exact .inl ⟨⟨clus, List.mem_cons_self, heof⟩, rfl⟩
      rw [if_neg heof]
      have hnext := hcleared.insert hsector clus
      have hlive' : ∀ c ∈ insert clus cleared, ¬ IsEof c := by
        rintro c (rfl | hc)
        · exact heof
        · exact hlive c hc
      have hset : ∀ next, cleared ∪ {c | c ∈ clus :: walked fs disk next count} =
          insert clus cleared ∪ {c | c ∈ walked fs disk next count} := by
        intro next
        ext c
        simp only [Set.mem_union, Set.mem_ofPred_eq, List.mem_cons, Set.mem_insert_iff]
        tauto
      by_cases hmet : ∃ c ∈ cleared, SameEntry fs c clus
      · -- the cluster has been met: its entry reads 0, and its links stay in what has been cleared
        obtain ⟨c, hc, hsame⟩ := hmet
        have hclosed' : ∀ x ∈ insert clus cleared, fatread fs disk x ∈ insert clus cleared := by
          have hold : ∀ x ∈ cleared, fatread fs disk x ∈ insert clus cleared := fun x hx =>
            (hclosed x hx).elim (Set.mem_insert_of_mem _) fun heq => heq ▸ Set.mem_insert _ _
          rintro x (rfl | hx)
          · rw [← fatread_congr hsector disk hsame]
            exact hold c hc
          · exact hold x hx
        have hinside : ∀ x ∈ walked fs disk clus (count + 1), x ∈ insert clus cleared :=
          walked_subset hclosed' (Set.mem_insert _ _)
        rw [(hcleared clus).1 ⟨c, hc, hsame⟩, removeLoop_zero hroot]
        refine .inr ⟨fun x hx => hlive' x (hinside x hx), rfl, ?_⟩
        have hall : cleared ∪ {x | x ∈ walked fs disk clus (count + 1)} = insert clus cleared := by
          apply Set.Subset.antisymm
          · rintro x (hx | hx)
            · exact Set.mem_insert_of_mem _ hx
            · exact hinside x hx
          · rintro x (rfl | hx)
            · exact .inr List.mem_cons_self
            · exact .inl hx
        rw [hall]
        exact hnext
      · -- a new cluster: the link is the one before the loop
        have hlink : fatread fs disk' clus = fatread fs disk clus :=
          (hcleared clus).2 fun c hc hsame => hmet ⟨c, hc, hsame⟩
        have hclosed' : ∀ x ∈ insert clus cleared,
            fatread fs disk x ∈ insert clus cleared ∨ fatread fs disk x = fatread fs disk clus := by
          rintro x (rfl | hx)
          · exact .inr rfl
          · exact .inl ((hclosed x hx).elim (Set.mem_insert_of_mem _) fun heq =>
              heq ▸ Set.mem_insert _ _)
        rw [hlink, walked, hset]
        obtain ⟨⟨x, hx, hend⟩, hfalse⟩ | ⟨hnone, htrue, hdone⟩ := ih hnext hclosed' hlive'
        · exact .inl ⟨⟨x, List.mem_cons_of_mem _ hx, hend⟩, hfalse⟩
        · exact .inr ⟨List.forall_mem_cons.mpr ⟨heof, hnone⟩, htrue, hdone⟩

/-- The loop from the start. -/
theorem removeLoop_walked (hsector : fs.superblock.bytesPerSector = bsize)
    (hroot : 0 < fs.superblock.clusterRootDirectory) (disk : Mem) (clus count : ℕ) :
    ((removeLoop fs disk clus count).1 = true ↔ ∀ c ∈ walked fs disk clus count, ¬ IsEof c) ∧
      ((removeLoop fs disk clus count).1 = true →
        Cleared fs disk (removeLoop fs disk clus count).2 {c | c ∈ walked fs disk clus count}) := by
  obtain ⟨⟨c, hc, hend⟩, hfalse⟩ | ⟨hnone, htrue, hdone⟩ :=
    @removeLoop_cleared fs disk disk clus count ∅ hsector hroot (cleared_empty fs disk)
      (fun c hc => hc.elim) fun c hc => hc.elim
  · rw [hfalse]
    exact ⟨iff_of_false Bool.false_ne_true fun hall => hall c hc hend,
      fun h => absurd h Bool.false_ne_true⟩
  · rw [htrue]
    rw [Set.empty_union] at hdone
    exact ⟨iff_of_true rfl hnone, fun _ => hdone⟩

/-- The walk over a chain. -/
theorem walked_chain {chain : List ℕ} (hlinked : Linked fs disk chain)
    (hhead : chain.head? = some clus) : walked fs disk clus chain.length = chain := by
  induction chain generalizing clus with
  | nil => cases hhead
  | cons first rest ih =>
      obtain rfl : first = clus := Option.some.inj hhead
      cases rest with
      | nil => rfl
      | cons second rest =>
          obtain ⟨hnext, htail⟩ := hlinked.tail
          rw [List.length_cons, walked, hnext, ih htail rfl]

theorem sameEntry_iff (hgeo : Geometry fs) {c x : ℕ} (hc : InRange fs c) (hx : InRange fs x) :
    SameEntry fs c x ↔ c = x := by
  have hmarks := hgeo.marks
  have hcHi := hc.2
  have hxHi := hx.2
  constructor
  · rintro ⟨-, -, hentry⟩
    omega
  · rintro rfl
    exact ⟨not_outOfRange hgeo hc, not_outOfRange hgeo hc, rfl⟩

end Walk

end Painting.Fat32
