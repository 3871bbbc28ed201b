import Painting.Mm.Mapping
import Painting.Mm.Uvm

/-!
# Who owns a page

The pages that `kpmalloc` may hand out to one address space, with those it has handed
out already, form a region.  Each page of the region is free, or a table, or a frame
that exactly one entry maps for the user; a page in the hands of the code, between
`kpmalloc` and the entry that takes it, is outside the region.
-/

namespace Painting.PageTable

open Painting.Memory

/-! ## Ownership -/

def IsTable (tables : ℕ → Set ℕ) (page : ℕ) : Prop := ∃ level ≤ 2, page ∈ tables level

/-- A page of the table at `root`, whatever its level. -/
def TablePage (mem : Mem) (root page : ℕ) : Prop :=
  ∃ tables, WellFormed mem root tables ∧ IsTable tables page

/-- The entry `slot` of a lowest-level table maps `page` for the user. -/
structure UserLeaf (mem : Mem) (tables : ℕ → Set ℕ) (slot : ℕ × ℕ) (page : ℕ) : Prop where
  points : PointsTo mem (tables 0) slot page
  user : entry mem slot.1 slot.2 &&& pteU ≠ 0

def Frame (mem : Mem) (tables : ℕ → Set ℕ) (page : ℕ) : Prop :=
  ∃ slot, UserLeaf mem tables slot page

/-- A page that `kpmfree` takes back. -/
structure Allocatable (kernelEnd page : ℕ) : Prop where
  aligned : page % pgSize = 0
  lo : kernelEnd ≤ page
  hi : page < physTop

/-- The entries of the upper tables have no flags but V, and the region is divided into
free pages, tables and frames. -/
structure Owned (kernelEnd : ℕ) (region : Set ℕ) (pm : Pm) (root : ℕ) (tables : ℕ → Set ℕ) :
    Prop where
  tree : WellFormed pm.mem root tables
  plain : ∀ level < 2, ∀ slot target, PointsTo pm.mem (tables (level + 1)) slot target →
    entry pm.mem slot.1 slot.2 &&& (pteR ||| pteW ||| pteX) = 0
  inj : ∀ slot slot' page, UserLeaf pm.mem tables slot page → UserLeaf pm.mem tables slot' page →
    slot = slot'
  nodup : pm.freelist.Nodup
  freeTable : ∀ page ∈ pm.freelist, ¬ IsTable tables page
  freeFrame : ∀ page ∈ pm.freelist, ¬ Frame pm.mem tables page
  frameTable : ∀ page, Frame pm.mem tables page → ¬ IsTable tables page
  region_iff : ∀ page, page ∈ region ↔
    page ∈ pm.freelist ∨ IsTable tables page ∨ Frame pm.mem tables page
  good : ∀ page ∈ region, Allocatable kernelEnd page

theorem Allocatable.small {kernelEnd page : ℕ} (hgood : Allocatable kernelEnd page) :
    page < 2 ^ 56 :=
  hgood.hi.trans (by decide)

section Owned

variable {kernelEnd root : ℕ} {region : Set ℕ} {pm : Pm} {tables : ℕ → Set ℕ}

theorem Owned.mem_of_free (hown : Owned kernelEnd region pm root tables) {page : ℕ}
    (hpage : page ∈ pm.freelist) : page ∈ region :=
  (hown.region_iff page).mpr (.inl hpage)

theorem Owned.mem_of_table (hown : Owned kernelEnd region pm root tables) {page : ℕ}
    (hpage : IsTable tables page) : page ∈ region :=
  (hown.region_iff page).mpr (.inr (.inl hpage))

theorem Owned.mem_of_frame (hown : Owned kernelEnd region pm root tables) {page : ℕ}
    (hpage : Frame pm.mem tables page) : page ∈ region :=
  (hown.region_iff page).mpr (.inr (.inr hpage))

theorem Owned.fresh (hown : Owned kernelEnd region pm root tables) : Fresh pm.freelist tables :=
  ⟨hown.nodup, fun page hpage => (hown.good page (hown.mem_of_free hpage)).aligned,
    fun page hpage => (hown.good page (hown.mem_of_free hpage)).small,
    fun page hpage level hlevel htable => hown.freeTable page hpage ⟨level, hlevel, htable⟩⟩

theorem outside_iff {x : ℕ} : Outside tables x ↔ ¬ IsTable tables (pgRoundDown x) := by
  simp only [Outside, IsTable, not_exists, not_and]

/-- The memory determines the pages of each level. -/
theorem WellFormed.level_subset {mem : Mem} {tables' : ℕ → Set ℕ} (hwf : WellFormed mem root tables)
    (hwf' : WellFormed mem root tables') :
    tables 2 ⊆ tables' 2 ∧ tables 1 ⊆ tables' 1 ∧ tables 0 ⊆ tables' 0 := by
  have hdown : ∀ level < 2, tables (level + 1) ⊆ tables' (level + 1) →
      tables level ⊆ tables' level := by
    intro level hlevel hsub table htable
    obtain ⟨slot, hpoints, -⟩ := hwf.parent level hlevel table htable
    exact hwf'.child level hlevel slot table { hpoints with table := hsub hpoints.table }
  have htop : tables 2 ⊆ tables' 2 := by
    rw [hwf.top, hwf'.top]
  exact ⟨htop, hdown 1 (by decide) htop, hdown 0 (by decide) (hdown 1 (by decide) htop)⟩

theorem WellFormed.tablePage_iff {mem : Mem} (hwf : WellFormed mem root tables) {page : ℕ} :
    TablePage mem root page ↔ IsTable tables page := by
  constructor
  · rintro ⟨tables', hwf', level, hlevel, hpage⟩
    obtain ⟨htop, hmiddle, hlow⟩ := hwf'.level_subset hwf
    refine ⟨level, hlevel, ?_⟩
    interval_cases level
    · exact hlow hpage
    · exact hmiddle hpage
    · exact htop hpage
  · exact fun hpage => ⟨tables, hwf, hpage⟩

/-- The leaves are determined by the tables' bytes. -/
theorem WellFormed.userLeaf_frame {mem mem' : Mem} (hwf : WellFormed mem root tables)
    (hsame : ∀ x, ¬ Outside tables x → mem' x = mem x) (slot : ℕ × ℕ) (page : ℕ) :
    UserLeaf mem' tables slot page ↔ UserLeaf mem tables slot page := by
  constructor
  · rintro ⟨hpoints, huser⟩
    have hold := (hwf.pointsTo_frame hsame (by omega) slot page).mp hpoints
    rw [hwf.entry_frame hsame (by omega) hold.table hold.index] at huser
    exact ⟨hold, huser⟩
  · rintro ⟨hpoints, huser⟩
    rw [← hwf.entry_frame hsame (by omega) hpoints.table hpoints.index] at huser
    exact ⟨(hwf.pointsTo_frame hsame (by omega) slot page).mpr hpoints, huser⟩

/-- A change outside the tables. -/
theorem Owned.write (hown : Owned kernelEnd region pm root tables) {mem' : Mem}
    (hsame : ∀ x, ¬ Outside tables x → mem' x = pm.mem x) :
    Owned kernelEnd region ⟨mem', pm.freelist⟩ root tables := by
  have hleaf := hown.tree.userLeaf_frame hsame
  have hframe : ∀ page, Frame mem' tables page ↔ Frame pm.mem tables page := fun page =>
    exists_congr fun slot => hleaf slot page
  refine ⟨hown.tree.frame hsame, ?_, ?_, hown.nodup, hown.freeTable, ?_, ?_, ?_, hown.good⟩
  · intro level hlevel slot target hpoints
    have hold := (hown.tree.pointsTo_frame hsame (by omega) slot target).mp hpoints
    rw [hown.tree.entry_frame hsame (by omega) hold.table hold.index]
    exact hown.plain level hlevel slot target hold
  · intro slot slot' page hslot hslot'
    exact hown.inj slot slot' page ((hleaf slot page).mp hslot) ((hleaf slot' page).mp hslot')
  · intro page hpage hframe'
    exact hown.freeFrame page hpage ((hframe page).mp hframe')
  · intro page hframe'
    exact hown.frameTable page ((hframe page).mp hframe')
  · intro page
    rw [hframe page]
    exact hown.region_iff page

/-! ## `kpmalloc` and `kpmfree` -/

theorem outside_of_page {page x : ℕ} (haligned : page % pgSize = 0) (hnot : ¬ IsTable tables page)
    (hlo : page ≤ x) (hhi : x < page + pgSize) : Outside tables x := by
  rw [outside_iff]
  have hround : pgRoundDown x = page := by
    simp only [pgRoundDown, pgSize] at *
    omega
  rwa [hround]

/-- Filling a page that is no table. -/
theorem fill_outside {mem : Mem} {page : ℕ} (value : UInt8) (haligned : page % pgSize = 0)
    (hnot : ¬ IsTable tables page) {x : ℕ} (hx : ¬ Outside tables x) :
    fill mem page value pgSize x = mem x := by
  rw [fill, if_neg]
  rintro ⟨hlo, hhi⟩
  exact hx (outside_of_page haligned hnot hlo hhi)

/-- A page in hand leaves the region. -/
theorem Owned.take {mem : Mem} {page : ℕ} {rest : List ℕ}
    (hown : Owned kernelEnd region ⟨mem, page :: rest⟩ root tables) :
    Owned kernelEnd (region \ {page}) ⟨fill mem page 5 pgSize, rest⟩ root tables ∧
      page ∈ region ∧ ¬ IsTable tables page := by
  have hmem : page ∈ region := hown.mem_of_free List.mem_cons_self
  have hnot := hown.freeTable page List.mem_cons_self
  obtain ⟨hnew, hnodup⟩ := List.nodup_cons.mp hown.nodup
  have hrest : Owned kernelEnd (region \ {page}) ⟨mem, rest⟩ root tables := by
    refine ⟨hown.tree, hown.plain, hown.inj, hnodup,
      fun other hother => hown.freeTable other (List.mem_cons_of_mem _ hother),
      fun other hother => hown.freeFrame other (List.mem_cons_of_mem _ hother),
      hown.frameTable, fun other => ?_, fun other hother => hown.good other hother.1⟩
    rw [Set.mem_sdiff, Set.mem_singleton_iff, hown.region_iff]
    constructor
    · rintro ⟨hfree | hother, hne⟩
      · exact .inl ((List.mem_cons.mp hfree).resolve_left hne)
      · exact .inr hother
    · rintro (hfree | htable | hframe)
      · exact ⟨.inl (List.mem_cons_of_mem _ hfree), fun heq => hnew (heq ▸ hfree)⟩
      · exact ⟨.inr (.inl htable), fun heq => hnot (heq ▸ htable)⟩
      · exact ⟨.inr (.inr hframe), fun heq =>
          hown.freeFrame page List.mem_cons_self (heq ▸ hframe)⟩
  exact ⟨hrest.write fun x hx => fill_outside 5 (hown.good page hmem).aligned hnot hx, hmem, hnot⟩

theorem kpmfree_eq {page : ℕ} (hgood : Allocatable kernelEnd page) (pm : Pm) :
    kpmfree kernelEnd pm page = .ok ⟨store (fill pm.mem page 1 pgSize) page 8
      (pm.freelist.headD 0), page :: pm.freelist⟩ := by
  rw [kpmfree, if_neg]
  have hlo := hgood.lo
  have hhi := hgood.hi
  have haligned := hgood.aligned
  omega

/-- A page that is given back joins the region. -/
theorem Owned.giveBack (hown : Owned kernelEnd region pm root tables) {page : ℕ}
    (hgood : Allocatable kernelEnd page) (hnot : page ∉ region) :
    ∃ mem', kpmfree kernelEnd pm page = .ok ⟨mem', page :: pm.freelist⟩ ∧
      Owned kernelEnd (insert page region) ⟨mem', page :: pm.freelist⟩ root tables ∧
      ∀ x, pgRoundDown x ≠ page → mem' x = pm.mem x := by
  have htable : ¬ IsTable tables page := fun h => hnot (hown.mem_of_table h)
  have hsame : ∀ x, pgRoundDown x ≠ page → store (fill pm.mem page 1 pgSize) page 8
      (pm.freelist.headD 0) x = pm.mem x := by
    intro x hx
    have haligned := hgood.aligned
    simp only [pgRoundDown, pgSize] at hx haligned ⊢
    rw [store_apply_of_out _ (by omega), fill_apply_of_out _ (by omega)]
  refine ⟨_, kpmfree_eq hgood pm, ?_, hsame⟩
  · have hwrite := hown.write fun x hx => hsame x fun heq =>
      hx (outside_iff.mpr (heq ▸ htable))
    refine ⟨hwrite.tree, hwrite.plain, hwrite.inj,
      List.nodup_cons.mpr ⟨fun h => hnot (hown.mem_of_free h), hown.nodup⟩, ?_, ?_,
      hwrite.frameTable, ?_, ?_⟩
    · intro other hother
      obtain rfl | hother := List.mem_cons.mp hother
      · exact htable
      · exact hown.freeTable other hother
    · intro other hother
      obtain rfl | hother := List.mem_cons.mp hother
      · exact fun hframe => hnot (hwrite.mem_of_frame hframe)
      · exact hwrite.freeFrame other hother
    · intro other
      rw [Set.mem_insert_iff, hwrite.region_iff, List.mem_cons, or_assoc]
    · intro other hother
      obtain rfl | hother := Set.mem_insert_iff.mp hother
      · exact hgood
      · exact hown.good other hother

/-! ## New tables -/

section Link

variable {mem : Mem} {rest : List ℕ} {level table i page : ℕ}

theorem isTable_addTable (hlow : level < 2) (other : ℕ) :
    IsTable (addTable tables level page) other ↔ IsTable tables other ∨ other = page := by
  constructor
  · rintro ⟨level', hlevel', hother⟩
    obtain hold | ⟨-, rfl⟩ := mem_addTable.mp hother
    · exact .inl ⟨level', hlevel', hold⟩
    · exact .inr rfl
  · rintro (⟨level', hlevel', hold⟩ | rfl)
    · exact ⟨level', hlevel', mem_addTable.mpr (.inl hold)⟩
    · exact ⟨level, by omega, mem_addTable.mpr (.inr ⟨rfl, rfl⟩)⟩

/-- A new table maps nothing. -/
theorem userLeaf_link (hwf : WellFormed mem root tables)
    (hlink : Linkable mem tables level table i page) (slot : ℕ × ℕ) (target : ℕ) :
    UserLeaf (link mem table i page) (addTable tables level page) slot target ↔
      UserLeaf mem tables slot target := by
  obtain ⟨other, j⟩ := slot
  have hlow := hlink.low
  have hkeep : other ∈ tables 0 → j < 512 →
      entry (link mem table i page) other j = entry mem other j := by
    intro hother hj
    have hne := hwf.ne_of_level (by omega) (by omega) (by omega) hother hlink.table_mem
    exact entry_link_other hwf hlink (by omega) hother hj (.inl hne)
  constructor
  · rintro ⟨⟨hmem, hj, hvalid, htarget⟩, huser⟩
    obtain hold | ⟨-, rfl⟩ := mem_addTable.mp hmem
    · have hsame := hkeep hold hj
      exact ⟨⟨hold, hj, hsame ▸ hvalid, hsame ▸ htarget⟩, hsame ▸ huser⟩
    · exact absurd hvalid (not_valid_link_page hwf hlink hj)
  · rintro ⟨⟨hmem, hj, hvalid, htarget⟩, huser⟩
    have hsame := hkeep hmem hj
    exact ⟨⟨mem_addTable.mpr (.inl hmem), hj, hsame.symm ▸ hvalid, hsame.symm ▸ htarget⟩,
      hsame.symm ▸ huser⟩

/-- Linking the first free page as a table keeps the region. -/
theorem Owned.linkTable (hown : Owned kernelEnd region ⟨mem, page :: rest⟩ root tables)
    (hlink : Linkable mem tables level table i page) :
    Owned kernelEnd region ⟨link mem table i page, rest⟩ root
      (addTable tables level page) := by
  have hleaf := userLeaf_link hown.tree hlink
  have hframe : ∀ other, Frame (link mem table i page) (addTable tables level page) other ↔
      Frame mem tables other := fun other => exists_congr fun slot => hleaf slot other
  have htable := fun other => @isTable_addTable tables level page hlink.low other
  obtain ⟨hnew, hnodup⟩ := List.nodup_cons.mp hown.nodup
  refine ⟨wellFormed_link hown.tree hlink, ?_, ?_, hnodup, ?_, ?_, ?_, ?_, hown.good⟩
  · intro level' hlevel' slot target hpoints
    obtain hold | ⟨rfl, rfl, -⟩ :=
      (pointsTo_link_iff hown.tree hlink hlevel' slot target).mp hpoints
    · rw [entry_link_of_valid hown.tree hlink (by omega) hold.table hold.index hold.valid]
      exact hown.plain level' hlevel' slot target hold
    · dsimp only
      have hflags := (leaf_word (by have := hlink.small; omega) hlink.aligned
        (show pteV < 1024 by decide)).2.2
      rw [entry_link_same hlink, ← pteFlags_and (by decide), hflags]
      decide
  · intro slot slot' target hslot hslot'
    exact hown.inj slot slot' target ((hleaf slot target).mp hslot) ((hleaf slot' target).mp hslot')
  · intro other hother hmem
    obtain hold | rfl := (htable other).mp hmem
    · exact hown.freeTable other (List.mem_cons_of_mem _ hother) hold
    · exact hnew hother
  · intro other hother hmem
    exact hown.freeFrame other (List.mem_cons_of_mem _ hother) ((hframe other).mp hmem)
  · intro other hother hmem
    obtain hold | rfl := (htable other).mp hmem
    · exact hown.frameTable other ((hframe other).mp hother) hold
    · exact hown.freeFrame other List.mem_cons_self ((hframe other).mp hother)
  · intro other
    rw [hframe, htable, hown.region_iff, List.mem_cons]
    tauto

end Link

/-! ## Entries of the lowest level -/

section Leaf

variable {va leaf pte : ℕ}

/-- The leaves after the entry of `va` is set. -/
theorem userLeaf_setLeaf (hwf : WellFormed pm.mem root tables)
    (hlookup : lookup pm.mem va 2 root = some leaf) (hpte : pte < 2 ^ 64) (slot : ℕ × ℕ)
    (target : ℕ) :
    UserLeaf (store pm.mem (leaf + 8 * idx 0 va) 8 pte) tables slot target ↔
      slot ≠ (leaf, idx 0 va) ∧ UserLeaf pm.mem tables slot target ∨
        slot = (leaf, idx 0 va) ∧ Valid pte ∧ pte &&& pteU ≠ 0 ∧ pte2pa pte = target := by
  have hleaf := hwf.lookup_mem le_rfl hwf.root_mem hlookup
  by_cases hslot : slot = (leaf, idx 0 va)
  · subst hslot
    have hentry : entry (store pm.mem (leaf + 8 * idx 0 va) 8 pte) leaf (idx 0 va) = pte :=
      entry_store_same hpte
    constructor
    · rintro ⟨⟨-, -, hvalid, htarget⟩, huser⟩
      dsimp only at hvalid htarget huser
      rw [hentry] at hvalid htarget huser
      exact .inr ⟨rfl, hvalid, huser, htarget⟩
    · rintro (⟨hne, -⟩ | ⟨-, hvalid, huser, htarget⟩)
      · exact absurd rfl hne
      · refine ⟨⟨hleaf, idx_lt _ _, ?_, ?_⟩, ?_⟩
        all_goals
          dsimp only
          rw [hentry]
          assumption
  · have hkeep : slot.1 ∈ tables 0 → slot.2 < 512 →
        entry (store pm.mem (leaf + 8 * idx 0 va) 8 pte) slot.1 slot.2 =
          entry pm.mem slot.1 slot.2 := by
      intro hmem hindex
      refine entry_setLeaf_other hwf hlookup (by omega) hmem hindex ?_
      rw [← not_and_or]
      rintro ⟨hfst, hsnd⟩
      exact hslot (Prod.ext hfst hsnd)
    simp only [hslot, ne_eq, not_false_eq_true, true_and, false_and, or_false]
    constructor
    · rintro ⟨⟨hmem, hindex, hvalid, htarget⟩, huser⟩
      rw [hkeep hmem hindex] at hvalid htarget huser
      exact ⟨⟨hmem, hindex, hvalid, htarget⟩, huser⟩
    · rintro ⟨⟨hmem, hindex, hvalid, htarget⟩, huser⟩
      rw [← hkeep hmem hindex] at hvalid htarget huser
      exact ⟨⟨hmem, hindex, hvalid, htarget⟩, huser⟩

/-- Setting an entry gives up the frame it mapped and takes the one it maps. -/
theorem Owned.setLeaf (hown : Owned kernelEnd region pm root tables)
    (hlookup : lookup pm.mem va 2 root = some leaf) (hpte : pte < 2 ^ 64) {region' : Set ℕ}
    (hnew : Valid pte → pte &&& pteU ≠ 0 →
      pte2pa pte ∉ region ∧ Allocatable kernelEnd (pte2pa pte))
    (hregion : ∀ page, page ∈ region' ↔
      page ∈ region ∧ ¬ UserLeaf pm.mem tables (leaf, idx 0 va) page ∨
        Valid pte ∧ pte &&& pteU ≠ 0 ∧ pte2pa pte = page) :
    Owned kernelEnd region' ⟨store pm.mem (leaf + 8 * idx 0 va) 8 pte, pm.freelist⟩ root tables := by
  have hleaf := userLeaf_setLeaf hown.tree hlookup hpte
  have hupper : ∀ level < 2, ∀ other ∈ tables (level + 1), ∀ j < 512,
      entry (store pm.mem (leaf + 8 * idx 0 va) 8 pte) other j = entry pm.mem other j :=
    fun level hlevel other hother j hj =>
      entry_setLeaf_upper hown.tree hlookup pte hlevel hother hj
  have hframe : ∀ page, Frame (store pm.mem (leaf + 8 * idx 0 va) 8 pte) tables page ↔
      Frame pm.mem tables page ∧ ¬ UserLeaf pm.mem tables (leaf, idx 0 va) page ∨
        Valid pte ∧ pte &&& pteU ≠ 0 ∧ pte2pa pte = page := by
    intro page
    constructor
    · rintro ⟨slot, hslot⟩
      obtain ⟨hne, hold⟩ | ⟨-, hset⟩ := (hleaf slot page).mp hslot
      · exact .inl ⟨⟨slot, hold⟩, fun hthis => hne (hown.inj _ _ page hold hthis)⟩
      · exact .inr hset
    · rintro (⟨⟨slot, hold⟩, hnot⟩ | hset)
      · exact ⟨slot, (hleaf slot page).mpr (.inl ⟨fun heq => hnot (heq ▸ hold), hold⟩)⟩
      · exact ⟨_, (hleaf _ page).mpr (.inr ⟨rfl, hset⟩)⟩
  refine ⟨wellFormed_setLeaf hown.tree hlookup, ?_, ?_, hown.nodup, hown.freeTable, ?_, ?_, ?_, ?_⟩
  · rintro level hlevel slot target ⟨hmem, hindex, hvalid, htarget⟩
    rw [hupper level hlevel _ hmem _ hindex] at hvalid htarget ⊢
    exact hown.plain level hlevel slot target ⟨hmem, hindex, hvalid, htarget⟩
  · intro slot slot' page hslot hslot'
    obtain ⟨-, hold⟩ | ⟨heq, hvalid, huser, htarget⟩ := (hleaf slot page).mp hslot
    · obtain ⟨-, hold'⟩ | ⟨-, hvalid, huser, rfl⟩ := (hleaf slot' page).mp hslot'
      · exact hown.inj slot slot' page hold hold'
      · exact absurd (hown.mem_of_frame ⟨slot, hold⟩) (hnew hvalid huser).1
    · obtain ⟨-, hold'⟩ | ⟨heq', -⟩ := (hleaf slot' page).mp hslot'
      · exact absurd (hown.mem_of_frame ⟨slot', hold'⟩) (htarget ▸ (hnew hvalid huser).1)
      · rw [heq, heq']
  · intro page hpage hmem
    obtain ⟨hold, -⟩ | ⟨hvalid, huser, rfl⟩ := (hframe page).mp hmem
    · exact hown.freeFrame page hpage hold
    · exact (hnew hvalid huser).1 (hown.mem_of_free hpage)
  · intro page hmem htable
    obtain ⟨hold, -⟩ | ⟨hvalid, huser, rfl⟩ := (hframe page).mp hmem
    · exact hown.frameTable page hold htable
    · exact (hnew hvalid huser).1 (hown.mem_of_table htable)
  · intro page
    rw [hframe, hregion, hown.region_iff]
    constructor
    · rintro (⟨hfree | htable | hold, hnot⟩ | hset)
      · exact .inl hfree
      · exact .inr (.inl htable)
      · exact .inr (.inr (.inl ⟨hold, hnot⟩))
      · exact .inr (.inr (.inr hset))
    · rintro (hfree | htable | ⟨hold, hnot⟩ | hset)
      · exact .inl ⟨.inl hfree, fun hthis => hown.freeFrame page hfree ⟨_, hthis⟩⟩
      · exact .inl ⟨.inr (.inl htable), fun hthis => hown.frameTable page ⟨_, hthis⟩ htable⟩
      · exact .inl ⟨.inr (.inr hold), hnot⟩
      · exact .inr hset
  · intro page hpage
    obtain ⟨hold, -⟩ | ⟨hvalid, huser, rfl⟩ := (hregion page).mp hpage
    · exact hown.good page hold
    · exact (hnew hvalid huser).2

end Leaf

end Owned

end Painting.PageTable
