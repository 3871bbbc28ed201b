import Painting.Core.Transition
import Painting.Fs.FatVolume

/-!
# Chains of clusters

A file is a chain of clusters linked by the entries of the first FAT.  The FAT is
consistent when all chains are disjoint and every cluster outside them is free;
`clusalloc` keeps it so.
-/

namespace Painting.Fat32

open Painting.Memory Painting.Transition

variable {fs : Filesystem}

/-! ## Places on the disk -/

theorem entryAddr_le (hgeo : Geometry fs) {cluster : ℕ} (hin : InRange fs cluster) :
    entryAddr fs cluster + 4 ≤
      bsize * (fs.superblock.reservedSectors + fs.superblock.fatSize) := by
  have hroom := hgeo.room
  obtain ⟨_, hhi⟩ := hin
  rw [entryAddr, Nat.mul_add, Nat.mul_comm bsize fs.superblock.fatSize]
  omega

theorem fat_le_data (hgeo : Geometry fs) :
    bsize * (fs.superblock.reservedSectors + fs.superblock.fatSize) ≤
      bsize * fs.sbinfo.firstDataSector :=
  Nat.mul_le_mul_left _ hgeo.fat

theorem data_le_clusAddr (fs : Filesystem) (cluster : ℕ) :
    bsize * fs.sbinfo.firstDataSector ≤ clusAddr fs cluster :=
  Nat.le_add_right _ _

theorem clusAddr_apart {left right : ℕ} (hleft : 2 ≤ left) (hlt : left < right) :
    clusAddr fs left + fs.sbinfo.bytesPerClus ≤ clusAddr fs right := by
  have hstep : fs.sbinfo.bytesPerClus * (left - 2 + 1) ≤ fs.sbinfo.bytesPerClus * (right - 2) :=
    Nat.mul_le_mul_left _ (by omega)
  rw [Nat.mul_succ] at hstep
  rw [clusAddr, clusAddr]
  omega

/-! ## Entries -/

theorem fatread_lt (hgeo : Geometry fs) {cluster : ℕ} (hin : InRange fs cluster) (disk : Mem) :
    fatread fs disk cluster < 2 ^ 32 := by
  rw [fatread_eq hgeo hin]
  exact load_lt disk _ 4

/-- `fatread` returns what `fatwrite` wrote, for the cluster written, and the old entry
for any other. -/
theorem fatread_fatwrite (hgeo : Geometry fs) {cluster other value : ℕ}
    (hin : InRange fs cluster) (hother : InRange fs other) (hvalue : value < 2 ^ 32)
    (disk : Mem) :
    fatread fs (fatwrite fs disk cluster value) other =
      if other = cluster then value else fatread fs disk other := by
  rw [fatread_eq hgeo hother, fatread_eq hgeo hother, fatwrite_eq hgeo hin]
  split
  · rename_i heq
    rw [heq]
    exact load_store_of_lt disk hvalue
  · apply load_store_of_disjoint
    simp only [entryAddr]
    omega

/-- A change to the data leaves the entries alone. -/
theorem fatread_of_data (hgeo : Geometry fs) {cluster : ℕ} (hin : InRange fs cluster)
    {disk disk' : Mem} (hagree : AgreeOn disk disk' 0 (bsize * fs.sbinfo.firstDataSector)) :
    fatread fs disk' cluster = fatread fs disk cluster := by
  have hentry := entryAddr_le hgeo hin
  have hdata := fat_le_data hgeo
  rw [fatread_eq hgeo hin, fatread_eq hgeo hin]
  exact (hagree.mono (Nat.zero_le _) (by omega)).load_eq

/-- A change to an entry leaves the data alone. -/
theorem fatwrite_data (hgeo : Geometry fs) {cluster : ℕ} (hin : InRange fs cluster) (disk : Mem)
    (value : ℕ) {x : ℕ} (hx : bsize * fs.sbinfo.firstDataSector ≤ x) :
    fatwrite fs disk cluster value x = disk x := by
  have hentry := entryAddr_le hgeo hin
  have hdata := fat_le_data hgeo
  rw [fatwrite_eq hgeo hin]
  exact store_apply_of_out disk (by omega)

theorem cluszero_fat (hgeo : Geometry fs) {cluster : ℕ} (hin : InRange fs cluster)
    (disk : Mem) :
    AgreeOn disk (cluszero fs disk cluster) 0 (bsize * fs.sbinfo.firstDataSector) := by
  rw [cluszero_eq hgeo hin]
  exact fill_agreeOn disk (.inl (data_le_clusAddr fs cluster))

/-! ## Chains -/

/-- The clusters of a file or directory, in order. -/
structure Linked (fs : Filesystem) (disk : Mem) (chain : List ℕ) : Prop where
  nonempty : chain ≠ []
  inRange : ∀ c ∈ chain, InRange fs c
  next : chain.IsChain fun a b => fatread fs disk a = b
  last : ∀ c ∈ chain.getLast?, IsEof (fatread fs disk c)

theorem Linked.tail {disk : Mem} {a b : ℕ} {rest : List ℕ}
    (hlinked : Linked fs disk (a :: b :: rest)) :
    fatread fs disk a = b ∧ Linked fs disk (b :: rest) := by
  obtain ⟨_, hin, hnext, hlast⟩ := hlinked
  rw [List.isChain_cons_cons] at hnext
  refine ⟨hnext.1, by simp, fun c hc => hin c (List.mem_cons_of_mem a hc), hnext.2, ?_⟩
  rwa [List.getLast?_cons_cons] at hlast

/-- The entry of a cluster in a chain is not 0. -/
theorem Linked.ne_zero {disk : Mem} {chain : List ℕ} (hlinked : Linked fs disk chain) :
    ∀ c ∈ chain, fatread fs disk c ≠ 0 := by
  induction chain with
  | nil => simp
  | cons a rest ih =>
      intro c hc
      cases rest with
      | nil =>
          obtain rfl : c = a := by simpa using hc
          have heof := hlinked.last c (by simp)
          rw [IsEof] at heof
          omega
      | cons b rest =>
          obtain ⟨hnext, htail⟩ := hlinked.tail
          obtain rfl | hc := List.mem_cons.mp hc
          · have hb := (htail.inRange b (by simp)).1
            omega
          · exact ih htail c hc

theorem Linked.frame {disk disk' : Mem} {chain : List ℕ} (hlinked : Linked fs disk chain)
    (hsame : ∀ c ∈ chain, fatread fs disk' c = fatread fs disk c) : Linked fs disk' chain := by
  obtain ⟨hne, hin, hnext, hlast⟩ := hlinked
  refine ⟨hne, hin, ?_, ?_⟩
  · refine hnext.imp_of_mem_imp ?_
    intro a b ha _ hab
    rw [hsame a ha]
    exact hab
  · intro c hc
    rw [hsame c (List.mem_of_getLast? hc)]
    exact hlast c hc

/-- A chain grows by a cluster that its last one is made to point to. -/
theorem Linked.snoc {disk disk' : Mem} {chain : List ℕ} {last n : ℕ}
    (hlinked : Linked fs disk chain) (hnodup : chain.Nodup)
    (hlast : chain.getLast? = some last) (hn : InRange fs n)
    (hlink : fatread fs disk' last = n) (heof : IsEof (fatread fs disk' n))
    (hsame : ∀ c ∈ chain, c ≠ last → fatread fs disk' c = fatread fs disk c) :
    Linked fs disk' (chain ++ [n]) := by
  obtain ⟨front, rfl⟩ := List.getLast?_eq_some_iff.mp hlast
  obtain ⟨_, hin, hnext, _⟩ := hlinked
  rw [List.isChain_append] at hnext
  obtain ⟨hfront, _, hedge⟩ := hnext
  have hne : ∀ c ∈ front, c ≠ last := by
    intro c hc
    exact (List.nodup_append.mp hnodup).2.2 c hc last (by simp)
  have hsame' : ∀ c ∈ front, fatread fs disk' c = fatread fs disk c := by
    intro c hc
    exact hsame c (by simp [hc]) (hne c hc)
  refine ⟨by simp, ?_, ?_, ?_⟩
  · intro c hc
    obtain hc | hc := List.mem_append.mp hc
    · exact hin c hc
    · obtain rfl := List.mem_singleton.mp hc
      exact hn
  · rw [List.isChain_append, List.isChain_append]
    refine ⟨⟨?_, List.isChain_singleton last, ?_⟩, List.isChain_singleton n, ?_⟩
    · refine hfront.imp_of_mem_imp ?_
      intro a b ha _ hab
      rw [hsame' a ha]
      exact hab
    · intro a ha b hb
      rw [hsame' a (List.mem_of_getLast? ha)]
      exact hedge a ha b hb
    · intro a ha b hb
      obtain rfl : a = last := by simpa using ha.symm
      obtain rfl : b = n := by simpa using hb.symm
      exact hlink
  · intro c hc
    obtain rfl : c = n := by simpa using hc.symm
    exact heof

theorem linked_singleton {disk : Mem} {n : ℕ} (hn : InRange fs n)
    (heof : IsEof (fatread fs disk n)) : Linked fs disk [n] := by
  refine ⟨by simp, ?_, List.isChain_singleton n, ?_⟩
  · intro c hc
    obtain rfl := List.mem_singleton.mp hc
    exact hn
  · intro c hc
    obtain rfl : c = n := by simpa using hc.symm
    exact heof

/-! ## Allocation -/

theorem findFree_some {disk : Mem} {nextNo count n : ℕ}
    (hfound : findFree fs disk nextNo count = some n) :
    nextNo ≤ n ∧ n < nextNo + count ∧ fatread fs disk n = 0 := by
  induction count generalizing nextNo with
  | zero => cases hfound
  | succ count ih =>
      rw [findFree] at hfound
      split at hfound
      · rename_i hfree
        obtain rfl := Option.some.inj hfound
        exact ⟨le_rfl, by omega, hfree⟩
      · obtain ⟨hlo, hhi, hfree⟩ := ih hfound
        exact ⟨by omega, by omega, hfree⟩

theorem findFree_none {disk : Mem} {nextNo count : ℕ}
    (hnone : findFree fs disk nextNo count = none) {c : ℕ} (hlo : nextNo ≤ c)
    (hhi : c < nextNo + count) : fatread fs disk c ≠ 0 := by
  induction count generalizing nextNo with
  | zero => omega
  | succ count ih =>
      rw [findFree] at hnone
      split at hnone
      · cases hnone
      · rename_i hused
        obtain rfl | hlt := Nat.eq_or_lt_of_le hlo
        · exact hused
        · exact ih hnone hlt (by omega)

theorem scan_count (hgeo : Geometry fs) :
    (fs.sbinfo.clusterCnt + 2) % 2 ^ 32 - 2 = fs.sbinfo.clusterCnt := by
  have hmarks := hgeo.marks
  rw [Nat.mod_eq_of_lt (by omega)]
  omega

/-- `clusalloc` without a free cluster. -/
theorem clusalloc_full (hgeo : Geometry fs) {disk : Mem}
    (hfull : ∀ c, InRange fs c → fatread fs disk c ≠ 0) (prevNo : ℕ) :
    clusalloc fs disk prevNo = (0, disk) := by
  rw [clusalloc, scan_count hgeo]
  cases hfound : findFree fs disk 2 fs.sbinfo.clusterCnt with
  | none => rfl
  | some n =>
      obtain ⟨hlo, hhi, hfree⟩ := findFree_some hfound
      exact absurd hfree (hfull n ⟨hlo, by omega⟩)

/-- What `clusalloc` does with the first free cluster `n`. -/
structure Allocated (fs : Filesystem) (disk disk' : Mem) (prevNo n : ℕ) : Prop where
  inRange : InRange fs n
  wasFree : fatread fs disk n = 0
  entries : ∀ c, InRange fs c → fatread fs disk' c =
    if c = n then eof else if c = prevNo then n else fatread fs disk c
  zero : ∀ k, k < fs.sbinfo.bytesPerClus → disk' (clusAddr fs n + k) = 0
  data : ∀ c, InRange fs c → c ≠ n → ∀ k, k < fs.sbinfo.bytesPerClus →
    disk' (clusAddr fs c + k) = disk (clusAddr fs c + k)

theorem clusalloc_spec (hgeo : Geometry fs) {disk : Mem} {prevNo : ℕ}
    (hprev : prevNo = 0 ∨ InRange fs prevNo) {c : ℕ} (hc : InRange fs c)
    (hfree : fatread fs disk c = 0) :
    ∃ n disk', clusalloc fs disk prevNo = (n, disk') ∧ Allocated fs disk disk' prevNo n := by
  rw [clusalloc, scan_count hgeo]
  cases hfound : findFree fs disk 2 fs.sbinfo.clusterCnt with
  | none => exact absurd hfree (findFree_none hfound hc.1 (by have := hc.2; omega))
  | some n =>
      obtain ⟨hlo, hhi, hwas⟩ := findFree_some hfound
      have hn : InRange fs n := ⟨hlo, by omega⟩
      have hvalue : n < 2 ^ 32 := by
        have hmarks := hgeo.marks
        omega
      refine ⟨n, _, rfl, hn, hwas, ?_, ?_, ?_⟩
      · intro c hc
        rw [fatread_of_data hgeo hc (cluszero_fat hgeo hn _),
          fatread_fatwrite hgeo hn hc (by decide)]
        split
        · rfl
        · obtain rfl | hprev := hprev
          · rw [if_neg (by simp), if_neg (by have := hc.1; omega)]
          · rw [if_pos (by have := hprev.1; omega), fatread_fatwrite hgeo hprev hc hvalue]
      · intro k hk
        rw [cluszero_eq hgeo hn]
        exact fill_apply_of_in _ (by omega) (by omega)
      · intro c hc hne k hk
        have hdata := data_le_clusAddr fs c
        rw [cluszero_eq hgeo hn, fill_apply_of_out, fatwrite_data hgeo hn _ _ (by omega)]
        · obtain rfl | hprev := hprev
          · rw [if_neg (by simp)]
          · rw [if_pos (by have := hprev.1; omega), fatwrite_data hgeo hprev _ _ (by omega)]
        · obtain hlt | hlt := Nat.lt_or_gt_of_ne hne
          · have hapart : clusAddr fs c + fs.sbinfo.bytesPerClus ≤ clusAddr fs n :=
              clusAddr_apart hc.1 hlt
            omega
          · have hapart : clusAddr fs n + fs.sbinfo.bytesPerClus ≤ clusAddr fs c :=
              clusAddr_apart hn.1 hlt
            omega

/-! ## Consistency -/

/-- `chains` are all the chains of the volume: they do not meet, and every other cluster
is free. -/
structure Consistent (fs : Filesystem) (disk : Mem) (chains : List (List ℕ)) : Prop where
  linked : ∀ chain ∈ chains, Linked fs disk chain
  apart : chains.flatten.Nodup
  free : ∀ c, InRange fs c → c ∉ chains.flatten → fatread fs disk c = 0

/-- The chains after `clusalloc(prevNo)` has returned `n`. -/
def extendChains (chains : List (List ℕ)) (prevNo n : ℕ) : List (List ℕ) :=
  if prevNo = 0 then [n] :: chains
  else chains.map fun chain => if chain.getLast? = some prevNo then chain ++ [n] else chain

/-- What `clusalloc` may be called with: 0, or the last cluster of a chain. -/
def LastOrZero (chains : List (List ℕ)) (prevNo : ℕ) : Prop :=
  prevNo = 0 ∨ ∃ chain ∈ chains, chain.getLast? = some prevNo

/-- The chain of a cluster is unique. -/
theorem eq_of_mem_flatten {chains : List (List ℕ)} (hnodup : chains.flatten.Nodup)
    {left right : List ℕ} (hleft : left ∈ chains) (hright : right ∈ chains) {c : ℕ}
    (hc : c ∈ left) (hc' : c ∈ right) : left = right := by
  by_contra hne
  have hsymm : Std.Symm (List.Disjoint (α := ℕ)) := ⟨fun _ _ h => h.symm⟩
  have hdisjoint := (List.nodup_flatten.mp hnodup).2
  exact hdisjoint.forall hleft hright hne hc hc'

/-- Only the chain that ends in `prevNo` grows. -/
theorem extendChains_eq {chains : List (List ℕ)} (hnodup : chains.flatten.Nodup)
    {before after : List (List ℕ)} {chain : List ℕ} (hsplit : chains = before ++ chain :: after)
    {prevNo : ℕ} (hprev : prevNo ≠ 0) (hlast : chain.getLast? = some prevNo) (n : ℕ) :
    extendChains chains prevNo n = before ++ (chain ++ [n]) :: after := by
  have hflat := hnodup
  rw [hsplit, List.flatten_append, List.flatten_cons] at hflat
  have hmem : prevNo ∈ chain := List.mem_of_getLast? hlast
  have hbefore : ∀ other ∈ before, other.getLast? ≠ some prevNo := by
    intro other hother heq
    exact (List.nodup_append.mp hflat).2.2 prevNo
      (List.mem_flatten.mpr ⟨other, hother, List.mem_of_getLast? heq⟩) prevNo
      (List.mem_append_left _ hmem) rfl
  have hafter : ∀ other ∈ after, other.getLast? ≠ some prevNo := by
    intro other hother heq
    exact (List.nodup_append.mp (List.nodup_append.mp hflat).2.1).2.2 prevNo hmem prevNo
      (List.mem_flatten.mpr ⟨other, hother, List.mem_of_getLast? heq⟩) rfl
  rw [extendChains, if_neg hprev, hsplit, List.map_append, List.map_cons, if_pos hlast]
  have hkeep : ∀ list : List (List ℕ), (∀ other ∈ list, other.getLast? ≠ some prevNo) →
      (list.map fun chain => if chain.getLast? = some prevNo then chain ++ [n] else chain) =
        list := by
    intro list hlist
    calc (list.map fun chain => if chain.getLast? = some prevNo then chain ++ [n] else chain)
        = list.map id := List.map_congr_left fun other hother => if_neg (hlist other hother)
      _ = list := List.map_id list
  rw [hkeep before hbefore, hkeep after hafter]

/-- The clusters in use are the old ones and the new one. -/
theorem flatten_extendChains {chains : List (List ℕ)} (hnodup : chains.flatten.Nodup)
    {prevNo : ℕ} (hprev : LastOrZero chains prevNo) (n : ℕ) :
    (extendChains chains prevNo n).flatten.Perm (n :: chains.flatten) := by
  by_cases hzero : prevNo = 0
  · rw [extendChains, if_pos hzero, List.flatten_cons, List.singleton_append]
  · obtain hprev | ⟨chain, hchain, hlast⟩ := hprev
    · exact absurd hprev hzero
    · obtain ⟨before, after, hsplit⟩ := List.append_of_mem hchain
      rw [extendChains_eq hnodup hsplit hzero hlast, hsplit, List.flatten_append,
        List.flatten_cons, List.flatten_append, List.flatten_cons, List.append_assoc,
        List.singleton_append, ← List.append_assoc, ← List.append_assoc]
      exact List.perm_middle

/-- The entries after an allocation make the extended chains consistent. -/
theorem Allocated.consistent {disk disk' : Mem} {chains : List (List ℕ)} {prevNo n : ℕ}
    (halloc : Allocated fs disk disk' prevNo n) (hcons : Consistent fs disk chains)
    (hprev : LastOrZero chains prevNo) :
    Consistent fs disk' (extendChains chains prevNo n) := by
  have hperm := flatten_extendChains hcons.apart hprev n
  have hin : ∀ chain ∈ chains, ∀ c ∈ chain, InRange fs c := fun chain hchain =>
    (hcons.linked chain hchain).inRange
  have hnew : n ∉ chains.flatten := by
    intro hmem
    obtain ⟨chain, hchain, hn⟩ := List.mem_flatten.mp hmem
    exact (hcons.linked chain hchain).ne_zero n hn halloc.wasFree
  have hold : ∀ chain ∈ chains, ∀ c ∈ chain, c ≠ prevNo →
      fatread fs disk' c = fatread fs disk c := by
    intro chain hchain c hc hne
    have hcn : c ≠ n := by
      rintro rfl
      exact hnew (List.mem_flatten.mpr ⟨chain, hchain, hc⟩)
    rw [halloc.entries c (hin chain hchain c hc), if_neg hcn, if_neg hne]
  have heof : IsEof (fatread fs disk' n) := by
    rw [halloc.entries n halloc.inRange, if_pos rfl]
    exact ⟨by decide, by decide⟩
  refine ⟨?_, ?_, ?_⟩
  · intro chain hchain
    by_cases hzero : prevNo = 0
    · rw [extendChains, if_pos hzero] at hchain
      obtain rfl | hchain := List.mem_cons.mp hchain
      · exact linked_singleton halloc.inRange heof
      · apply (hcons.linked chain hchain).frame
        intro c hc
        apply hold chain hchain c hc
        have hlo := (hin chain hchain c hc).1
        omega
    · rw [extendChains, if_neg hzero] at hchain
      obtain ⟨old, hold', rfl⟩ := List.mem_map.mp hchain
      have hlinked := hcons.linked old hold'
      split
      · rename_i hlast
        have hmem := List.mem_of_getLast? hlast
        have hlink : fatread fs disk' prevNo = n := by
          have hne : prevNo ≠ n := by
            rintro rfl
            exact hnew (List.mem_flatten.mpr ⟨old, hold', hmem⟩)
          rw [halloc.entries prevNo (hin old hold' prevNo hmem), if_neg hne, if_pos rfl]
        exact hlinked.snoc ((List.nodup_flatten.mp hcons.apart).1 old hold') hlast
          halloc.inRange hlink heof (hold old hold')
      · rename_i hlast
        apply hlinked.frame
        intro c hc
        apply hold old hold' c hc
        rintro rfl
        obtain hprev | ⟨chain', hchain', hlast'⟩ := hprev
        · exact hzero hprev
        · rw [← eq_of_mem_flatten hcons.apart hold' hchain' hc (List.mem_of_getLast? hlast')]
            at hlast'
          exact hlast hlast'
  · exact hperm.nodup_iff.mpr (List.nodup_cons.mpr ⟨hnew, hcons.apart⟩)
  · intro c hc hnot
    rw [hperm.mem_iff, List.mem_cons, not_or] at hnot
    rw [halloc.entries c hc, if_neg hnot.1]
    have hne : c ≠ prevNo := by
      rintro rfl
      obtain hprev | ⟨chain', hchain', hlast'⟩ := hprev
      · have hlo := hc.1
        omega
      · exact hnot.2 (List.mem_flatten.mpr ⟨chain', hchain', List.mem_of_getLast? hlast'⟩)
    rw [if_neg hne]
    exact hcons.free c hc hnot.2

/-- The outcome of one call of `clusalloc` on a consistent volume. -/
structure AllocOk (fs : Filesystem) (disk : Mem) (chains : List (List ℕ)) (prevNo : ℕ) : Prop where
  full : (clusalloc fs disk prevNo).1 = 0 ↔ ∀ c, InRange fs c → fatread fs disk c ≠ 0
  unchanged : (clusalloc fs disk prevNo).1 = 0 → (clusalloc fs disk prevNo).2 = disk
  found : (clusalloc fs disk prevNo).1 ≠ 0 →
    Allocated fs disk (clusalloc fs disk prevNo).2 prevNo (clusalloc fs disk prevNo).1 ∧
      Consistent fs (clusalloc fs disk prevNo).2
        (extendChains chains prevNo (clusalloc fs disk prevNo).1)

theorem clusalloc_ok (hgeo : Geometry fs) {disk : Mem} {chains : List (List ℕ)}
    (hcons : Consistent fs disk chains) {prevNo : ℕ} (hprev : LastOrZero chains prevNo) :
    AllocOk fs disk chains prevNo := by
  have hrange : prevNo = 0 ∨ InRange fs prevNo := by
    obtain hprev | ⟨chain, hchain, hlast⟩ := hprev
    · exact .inl hprev
    · exact .inr ((hcons.linked chain hchain).inRange prevNo (List.mem_of_getLast? hlast))
  by_cases hfull : ∀ c, InRange fs c → fatread fs disk c ≠ 0
  · have hnone := clusalloc_full hgeo hfull prevNo
    refine ⟨?_, ?_, ?_⟩
    · rw [hnone]
      exact ⟨fun _ => hfull, fun _ => rfl⟩
    · intro _
      rw [hnone]
    · intro hne
      rw [hnone] at hne
      exact absurd rfl hne
  · have hfree := hfull
    push Not at hfree
    obtain ⟨c, hc, hfree⟩ := hfree
    obtain ⟨n, disk', halloc, hspec⟩ := clusalloc_spec hgeo hrange hc hfree
    have hn : n ≠ 0 := by
      have hlo := hspec.inRange.1
      omega
    refine ⟨?_, ?_, ?_⟩
    · rw [halloc]
      exact ⟨fun hzero => absurd hzero hn, fun h => absurd h hfull⟩
    · intro hzero
      rw [halloc] at hzero
      exact absurd hzero hn
    · intro _
      rw [halloc]
      exact ⟨hspec, hspec.consistent hcons hprev⟩

/-! ## Sequences of allocations -/

/-- The volume, its chains, and for each cluster the value last given to `fatwrite`. -/
structure Volume where
  disk : Mem
  chains : List (List ℕ)
  written : ℕ → ℕ

/-- One call of `clusalloc`.  It calls `fatwrite(prevNo, n)` unless `prevNo` is 0, and
`fatwrite(n, FAT32_EOF)`. -/
def AllocStep (fs : Filesystem) (volume : Volume) (prevNo : ℕ) (after : Volume) : Prop :=
  LastOrZero volume.chains prevNo ∧
    after =
      match clusalloc fs volume.disk prevNo with
      | (0, disk) => { volume with disk := disk }
      | (n + 1, disk) =>
          { disk := disk
            chains := extendChains volume.chains prevNo (n + 1)
            written := Function.update
              (if prevNo ≠ 0 then Function.update volume.written prevNo (n + 1)
                else volume.written) (n + 1) eof }

/-- The chains are consistent and the entries are those last written. -/
structure VolumeOk (fs : Filesystem) (volume : Volume) : Prop where
  consistent : Consistent fs volume.disk volume.chains
  written : ∀ c, InRange fs c → fatread fs volume.disk c = volume.written c

theorem allocStep_ok (hgeo : Geometry fs) {volume after : Volume} {prevNo : ℕ}
    (hok : VolumeOk fs volume) (hstep : AllocStep fs volume prevNo after) :
    VolumeOk fs after := by
  obtain ⟨hprev, rfl⟩ := hstep
  obtain ⟨_, hsame, hfound⟩ := clusalloc_ok hgeo hok.consistent hprev
  rcases halloc : clusalloc fs volume.disk prevNo with ⟨n, disk⟩
  rw [halloc] at hsame hfound
  cases n with
  | zero =>
      obtain rfl := hsame rfl
      exact hok
  | succ n =>
      obtain ⟨hspec, hcons⟩ := hfound (by simp)
      refine ⟨hcons, ?_⟩
      intro c hc
      have hentry := hspec.entries c hc
      have hold := hok.written c hc
      have hc0 : c ≠ 0 := by
        have hlo := hc.1
        omega
      dsimp only at hentry ⊢
      rw [hentry, Function.update_apply]
      split
      · rfl
      · by_cases hzero : prevNo = 0
        · rw [if_neg (by omega), if_neg (by simpa using hzero)]
          exact hold
        · rw [if_pos hzero, Function.update_apply, hold]

/-- In every sequence of calls the FAT stays consistent, its entries are those last
written, and the next call does what it should. -/
theorem clusalloc_of_reach (hgeo : Geometry fs) {disk : Mem} {chains : List (List ℕ)}
    (hcons : Consistent fs disk chains) {volume : Volume}
    (hreach : Reach (AllocStep fs) Unguarded ⟨disk, chains, fatread fs disk⟩ volume) :
    Consistent fs volume.disk volume.chains ∧
      (∀ c, InRange fs c → fatread fs volume.disk c = volume.written c) ∧
      ∀ prevNo, LastOrZero volume.chains prevNo →
        AllocOk fs volume.disk volume.chains prevNo := by
  have hok : VolumeOk fs volume := by
    apply hreach.invariant ⟨hcons, fun _ _ => rfl⟩
    intro before prevNo after hok _ hstep
    exact allocStep_ok hgeo hok hstep
  exact ⟨hok.consistent, hok.written, fun _ hprev => clusalloc_ok hgeo hok.consistent hprev⟩

/-- A volume of four clusters of one sector, with one FAT of one sector. -/
def smallVolume : Filesystem where
  superblock := ⟨512, 1, 1, 2, 1⟩
  sbinfo := ⟨2, 4, 4, 512⟩

theorem smallVolume_geometry : Geometry smallVolume := by
  constructor <;> decide

/-- Cluster 2 is the root directory; the others are free. -/
def smallDisk : Mem := store (fun _ => 0) 520 4 eof

theorem smallDisk_consistent : Consistent smallVolume smallDisk [[2]] := by
  refine ⟨?_, by decide, ?_⟩
  · intro chain hchain
    obtain rfl := List.mem_singleton.mp hchain
    exact linked_singleton ⟨by decide, by decide⟩ (by decide +kernel)
  · intro c hc hnot
    obtain ⟨hlo, hhi⟩ := hc
    have hhi : c < 6 := hhi
    have hne : c ≠ 2 := by simpa using hnot
    interval_cases c
    · exact absurd rfl hne
    all_goals decide +kernel

/-- The root directory has grown by cluster 3. -/
def rootGrown : Volume where
  disk := (clusalloc smallVolume smallDisk 2).2
  chains := [[2, 3]]
  written := Function.update (Function.update (fatread smallVolume smallDisk) 2 3) 3 eof

theorem clusalloc_rootGrown :
    Consistent smallVolume rootGrown.disk [[2, 3]] ∧
      AllocOk smallVolume rootGrown.disk [[2, 3]] 3 := by
  have hprev : LastOrZero [[2]] 2 := .inr ⟨[2], by decide, by decide⟩
  have hfirst : (clusalloc smallVolume smallDisk 2).1 = 3 := by decide +kernel
  have hstep : AllocStep smallVolume ⟨smallDisk, [[2]], fatread smallVolume smallDisk⟩ 2
      rootGrown := by
    refine ⟨hprev, ?_⟩
    rcases halloc : clusalloc smallVolume smallDisk 2 with ⟨n, disk⟩
    rw [halloc] at hfirst
    obtain rfl : n = 3 := hfirst
    rw [rootGrown, halloc]
    rfl
  have hok := clusalloc_of_reach smallVolume_geometry smallDisk_consistent
    (Reach.refl.tail trivial hstep)
  exact ⟨hok.1, hok.2.2 3 (.inr ⟨[2, 3], List.mem_singleton.mpr rfl, by decide⟩)⟩

end Painting.Fat32
