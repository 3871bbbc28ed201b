import Painting.Mm.PageTable

/-!
# Well-formed tables and their translation

The table pages are sorted by level.  Every valid entry of a table points to a
table one level down, and every table but the root has exactly one entry that
points to it, so a table page is reached by the addresses of one region only.
Two operations change a tree: a fresh zeroed page is linked at an empty entry,
which changes no translation, and an entry of a lowest-level table is set, which
changes the translation of one page.
-/

namespace Painting.PageTable

open Painting.Memory

/-! ## Entries -/

/-- Entry `i` of the table at `table`. -/
def entry (mem : Mem) (table i : ℕ) : ℕ := readPte mem (table + 8 * i)

def Valid (pte : ℕ) : Prop := pte &&& pteV ≠ 0

instance (pte : ℕ) : Decidable (Valid pte) := inferInstanceAs (Decidable (_ ≠ _))

theorem not_valid_zero : ¬ Valid 0 := by decide

theorem valid_or_one (word : ℕ) : Valid (word ||| pteV) := by
  rw [Valid, pteV, Nat.and_one_is_mod]
  have hbit : (word ||| 1) % 2 = 1 := by
    rw [← Nat.and_one_is_mod, Nat.and_or_distrib_right]
    rcases Nat.mod_two_eq_zero_or_one word with hzero | hone
    · simp [Nat.and_one_is_mod, hzero]
    · simp [Nat.and_one_is_mod, hone]
  omega

theorem idx_eq (level va : ℕ) : idx level va = va / 2 ^ (12 + level * 9) % 512 := by
  rw [idx, Nat.shiftRight_eq_div_pow]
  exact Nat.and_two_pow_sub_one_eq_mod _ 9

theorem idx_lt (level va : ℕ) : idx level va < 512 := by
  rw [idx_eq]
  exact Nat.mod_lt _ (by decide)

/-- The three indices determine the page. -/
theorem page_eq_of_idx {va va' : ℕ} (hva : va < maxVa) (hva' : va' < maxVa)
    (hzero : idx 0 va = idx 0 va') (hone : idx 1 va = idx 1 va') (htwo : idx 2 va = idx 2 va') :
    va / pgSize = va' / pgSize := by
  simp only [idx_eq, maxVa, pgSize] at *
  norm_num at *
  omega

theorem idx_page {level va va' : ℕ} (hpage : va / pgSize = va' / pgSize) :
    idx level va = idx level va' := by
  rw [idx_eq, idx_eq, pow_add, ← Nat.div_div_eq_div_mul, ← Nat.div_div_eq_div_mul]
  have htwelve : 2 ^ 12 = pgSize := rfl
  rw [htwelve, hpage]

theorem pa2pte_eq {pa : ℕ} (hpa : pa < 2 ^ 64) : pa2pte pa = pa / pgSize * 1024 := by
  rw [pa2pte, Nat.shiftRight_eq_div_pow, Nat.shiftLeft_eq, pgSize]
  norm_num at *
  omega

/-- Flag bits below the frame number. -/
theorem or_flags {frame flags : ℕ} (hflags : flags < 1024) :
    frame * 1024 ||| flags = frame * 1024 + flags := by
  rw [mul_comm]
  exact (Nat.two_pow_add_eq_or_of_lt (i := 10) hflags frame).symm

theorem pte2pa_eq (pte : ℕ) : pte2pa pte = pte / 1024 * pgSize % 2 ^ 64 := by
  rw [pte2pa, Nat.shiftRight_eq_div_pow, Nat.shiftLeft_eq, pgSize]

theorem pte2pa_aligned (pte : ℕ) : pte2pa pte % pgSize = 0 := by
  rw [pte2pa_eq, pgSize]
  omega

theorem pteFlags_eq (pte : ℕ) : pteFlags pte = pte % 1024 :=
  Nat.and_two_pow_sub_one_eq_mod pte 10

theorem pteFlags_and {pte flag : ℕ} (hflag : 0x3ff &&& flag = flag) :
    pteFlags pte &&& flag = pte &&& flag := by
  rw [pteFlags, Nat.and_assoc, hflag]

/-- The word that `mappages` writes, and what it stands for. -/
theorem leaf_word {pa flags : ℕ} (hpa : pa < 2 ^ 64) (haligned : pa % pgSize = 0)
    (hflags : flags < 1024) :
    pa2pte pa ||| flags < 2 ^ 64 ∧ pte2pa (pa2pte pa ||| flags) = pa ∧
      pteFlags (pa2pte pa ||| flags) = flags := by
  rw [pa2pte_eq hpa, or_flags hflags, pte2pa_eq, pteFlags_eq]
  simp only [pgSize] at *
  omega

section Entries

variable {mem : Mem} {table table' i i' : ℕ}

theorem entry_lt (mem : Mem) (table i : ℕ) : entry mem table i < 2 ^ 64 :=
  load_lt mem (table + 8 * i) 8

theorem entry_store_same {value : ℕ} (hvalue : value < 2 ^ 64) :
    entry (store mem (table + 8 * i) 8 value) table i = value :=
  load_store_of_lt mem hvalue

theorem entry_store_other {value : ℕ} (htable : table % pgSize = 0) (htable' : table' % pgSize = 0)
    (hi : i < 512) (hi' : i' < 512) (hne : table ≠ table' ∨ i ≠ i') :
    entry (store mem (table' + 8 * i') 8 value) table i = entry mem table i := by
  apply load_store_of_disjoint
  simp only [pgSize] at htable htable'
  omega

theorem entry_fill_other {page : ℕ} {value : UInt8} (htable : table % pgSize = 0)
    (hpage : page % pgSize = 0) (hi : i < 512) (hne : table ≠ page) :
    entry (fill mem page value pgSize) table i = entry mem table i := by
  apply AgreeOn.load_eq
  apply fill_agreeOn
  simp only [pgSize] at *
  omega

theorem entry_fill_zero (hi : i < 512) : entry (fill mem table 0 pgSize) table i = 0 := by
  apply load_fill_zero
  · omega
  · simp only [pgSize]
    omega

end Entries

/-! ## Translation -/

/-- The lowest-level table for `va` below a table of the given level. -/
def lookup (mem : Mem) (va : ℕ) : ℕ → ℕ → Option ℕ
  | 0, table => some table
  | level + 1, table =>
      let pte := entry mem table (idx (level + 1) va)
      if Valid pte then lookup mem va level (pte2pa pte) else none

/-- What a lowest-level entry says about an address of its page. -/
def meaning (pte va : ℕ) : Option (ℕ × ℕ) :=
  if Valid pte then some (pte2pa pte + va % pgSize, pteFlags pte) else none

theorem meaning_zero (va : ℕ) : meaning 0 va = none :=
  if_neg not_valid_zero

/-- The physical address and the flags of a virtual address. -/
def translate (mem : Mem) (root va : ℕ) : Option (ℕ × ℕ) :=
  (lookup mem va 2 root).bind fun table => meaning (entry mem table (idx 0 va)) va

theorem lookup_page {mem : Mem} {va va' : ℕ} (hpage : va / pgSize = va' / pgSize)
    (level table : ℕ) : lookup mem va level table = lookup mem va' level table := by
  induction level generalizing table with
  | zero => rfl
  | succ level ih =>
      rw [lookup, lookup, idx_page hpage]
      split
      · exact ih _
      · rfl

theorem translate_page {mem : Mem} {root va va' : ℕ} (hpage : va / pgSize = va' / pgSize) {pa flags : ℕ}
    (hpa : translate mem root va = some (pa, flags)) :
    translate mem root va' = some (pa - va % pgSize + va' % pgSize, flags) := by
  rw [translate, lookup_page hpage, idx_page hpage] at hpa
  rw [translate]
  obtain ⟨leaf, hlookup, hleaf⟩ := Option.bind_eq_some_iff.mp hpa
  rw [hlookup, Option.bind_some]
  rw [meaning] at hleaf ⊢
  split at hleaf
  · rename_i hvalid
    obtain ⟨rfl, rfl⟩ := Prod.mk.injEq .. ▸ Option.some.inj hleaf
    rw [if_pos hvalid, Nat.add_sub_cancel]
  · cases hleaf

/-- `walk` without allocation is the lookup. -/
theorem walkLoop_lookup (va level : ℕ) (pm : Pm) (table : ℕ) :
    walkLoop va false level pm table =
      ((lookup pm.mem va level table).map fun leaf => leaf + 8 * idx 0 va, pm) := by
  induction level generalizing table with
  | zero => rfl
  | succ level ih =>
      simp only [walkLoop, lookup, Bool.false_eq_true, if_false]
      change (if Valid (entry pm.mem table (idx (level + 1) va)) then _ else _) = _
      split
      · exact ih _
      · rfl

theorem walk_lookup {pm : Pm} {root va : ℕ} (hva : va < maxVa) :
    walk pm root va false =
      .ok ((lookup pm.mem va 2 root).map fun leaf => leaf + 8 * idx 0 va, pm) := by
  rw [walk, if_neg (not_le.mpr hva), walkLoop_lookup]

/-! ## Well-formed trees -/

/-- The valid entry `slot.2` of table `slot.1`, one of `upper`, points to `target`. -/
structure PointsTo (mem : Mem) (upper : Set ℕ) (slot : ℕ × ℕ) (target : ℕ) : Prop where
  table : slot.1 ∈ upper
  index : slot.2 < 512
  valid : Valid (entry mem slot.1 slot.2)
  target : pte2pa (entry mem slot.1 slot.2) = target

/-- The table pages of each level: valid entries point to tables one level down,
and every table below the root has exactly one entry that points to it. -/
structure WellFormed (mem : Mem) (root : ℕ) (tables : ℕ → Set ℕ) : Prop where
  top : tables 2 = {root}
  aligned : ∀ level ≤ 2, ∀ table ∈ tables level, table % pgSize = 0
  child : ∀ level < 2, ∀ slot target, PointsTo mem (tables (level + 1)) slot target →
    target ∈ tables level
  parent : ∀ level < 2, ∀ table ∈ tables level,
    ∃! slot, PointsTo mem (tables (level + 1)) slot table
  disjoint : ∀ level ≤ 2, ∀ level' ≤ 2, level ≠ level' → Disjoint (tables level) (tables level')

/-- Pages that may still be handed out: distinct, and none of them a table. -/
structure Fresh (pages : List ℕ) (tables : ℕ → Set ℕ) : Prop where
  nodup : pages.Nodup
  aligned : ∀ page ∈ pages, page % pgSize = 0
  small : ∀ page ∈ pages, page < 2 ^ 56
  notTable : ∀ page ∈ pages, ∀ level ≤ 2, page ∉ tables level

/-- The byte at `x` belongs to no table. -/
def Outside (tables : ℕ → Set ℕ) (x : ℕ) : Prop := ∀ level ≤ 2, pgRoundDown x ∉ tables level

section Trees

variable {mem : Mem} {root : ℕ} {tables : ℕ → Set ℕ}

theorem WellFormed.root_mem (hwf : WellFormed mem root tables) : root ∈ tables 2 := by
  rw [hwf.top]
  rfl

theorem WellFormed.ne_of_level (hwf : WellFormed mem root tables) {level level' table table' : ℕ}
    (hlevel : level ≤ 2) (hlevel' : level' ≤ 2) (hne : level ≠ level')
    (htable : table ∈ tables level) (htable' : table' ∈ tables level') : table ≠ table' := by
  rintro rfl
  exact Set.disjoint_left.mp (hwf.disjoint level hlevel level' hlevel' hne) htable htable'

theorem WellFormed.level_eq (hwf : WellFormed mem root tables) {level level' table : ℕ}
    (hlevel : level ≤ 2) (hlevel' : level' ≤ 2) (htable : table ∈ tables level)
    (htable' : table ∈ tables level') : level = level' := by
  by_contra hne
  exact hwf.ne_of_level hlevel hlevel' hne htable htable' rfl

theorem WellFormed.child_mem (hwf : WellFormed mem root tables) {level table i : ℕ}
    (hlevel : level < 2) (htable : table ∈ tables (level + 1)) (hi : i < 512)
    (hvalid : Valid (entry mem table i)) : pte2pa (entry mem table i) ∈ tables level :=
  hwf.child level hlevel (table, i) _ ⟨htable, hi, hvalid, rfl⟩

theorem WellFormed.lookup_mem (hwf : WellFormed mem root tables) {va level table leaf : ℕ}
    (hlevel : level ≤ 2) (htable : table ∈ tables level)
    (hlookup : lookup mem va level table = some leaf) : leaf ∈ tables 0 := by
  induction level generalizing table with
  | zero =>
      obtain rfl := Option.some.inj hlookup
      exact htable
  | succ level ih =>
      rw [lookup] at hlookup
      split at hlookup
      · rename_i hvalid
        exact ih (by omega) (hwf.child_mem (by omega) htable (idx_lt _ _) hvalid) hlookup
      · simp at hlookup

/-- Two addresses that reach the same table share the indices above it. -/
theorem WellFormed.lookup_inj (hwf : WellFormed mem root tables)
    {va va' level table table' leaf : ℕ} (hlevel : level ≤ 2) (htable : table ∈ tables level)
    (htable' : table' ∈ tables level) (hlookup : lookup mem va level table = some leaf)
    (hlookup' : lookup mem va' level table' = some leaf) :
    table = table' ∧ ∀ j, 1 ≤ j → j ≤ level → idx j va = idx j va' := by
  induction level generalizing table table' with
  | zero =>
      obtain rfl := Option.some.inj hlookup
      obtain rfl := Option.some.inj hlookup'
      exact ⟨rfl, fun j hlo hhi => by omega⟩
  | succ level ih =>
      rw [lookup] at hlookup hlookup'
      split at hlookup
      · rename_i hvalid
        split at hlookup'
        · rename_i hvalid'
          have hchild := hwf.child_mem (by omega) htable (idx_lt _ _) hvalid
          have hchild' := hwf.child_mem (by omega) htable' (idx_lt _ _) hvalid'
          obtain ⟨hsame, hidx⟩ := ih (by omega) hchild hchild' hlookup hlookup'
          obtain ⟨slot, -, hunique⟩ := hwf.parent level (by omega) _ hchild
          have hslot := hunique (table, idx (level + 1) va) ⟨htable, idx_lt _ _, hvalid, rfl⟩
          have hslot' := hunique (table', idx (level + 1) va')
            ⟨htable', idx_lt _ _, hvalid', hsame.symm⟩
          obtain ⟨heq, htop⟩ := Prod.mk.inj (hslot.trans hslot'.symm)
          refine ⟨heq, fun j hlo hhi => ?_⟩
          by_cases hj : j = level + 1
          · rw [hj]
            exact htop
          · exact hidx j hlo (by omega)
        · simp at hlookup'
      · simp at hlookup

/-- A lowest-level entry belongs to one page. -/
theorem WellFormed.slot_inj (hwf : WellFormed mem root tables) {va va' leaf : ℕ}
    (hva : va < maxVa) (hva' : va' < maxVa) (hlookup : lookup mem va 2 root = some leaf)
    (hlookup' : lookup mem va' 2 root = some leaf) (hidx : idx 0 va = idx 0 va') :
    va / pgSize = va' / pgSize := by
  obtain ⟨-, hall⟩ := hwf.lookup_inj le_rfl hwf.root_mem hwf.root_mem hlookup hlookup'
  exact page_eq_of_idx hva hva' hidx (hall 1 le_rfl (by omega)) (hall 2 (by omega) le_rfl)

end Trees

/-! ## The empty tree -/

/-- The root alone. -/
def rootOnly (root : ℕ) : ℕ → Set ℕ := fun level => if level = 2 then {root} else ∅

/-- A zeroed page, as `uvmcreate` returns it, is a well-formed tree. -/
theorem wellFormed_rootOnly {mem : Mem} {root : ℕ} (haligned : root % pgSize = 0)
    (hzero : ∀ i < 512, entry mem root i = 0) : WellFormed mem root (rootOnly root) := by
  have hempty : ∀ level < 2, rootOnly root level = ∅ := fun level hlevel =>
    if_neg (by omega)
  have htop : rootOnly root 2 = {root} := if_pos rfl
  constructor
  · exact htop
  · intro level _ table htable
    simp only [rootOnly] at htable
    split at htable
    · rw [Set.mem_singleton_iff.mp htable, haligned]
    · exact absurd htable (Set.notMem_empty _)
  · intro level hlevel slot target hpoints
    have htable := hpoints.table
    simp only [rootOnly] at htable
    split at htable
    · have hvalid := hpoints.valid
      rw [Set.mem_singleton_iff.mp htable, hzero _ hpoints.index] at hvalid
      exact absurd hvalid not_valid_zero
    · exact absurd htable (Set.notMem_empty _)
  · intro level hlevel table htable
    rw [hempty level hlevel] at htable
    exact absurd htable (Set.notMem_empty _)
  · intro level hlevel level' hlevel' hne
    by_cases hlow : level < 2
    · rw [hempty level hlow]
      exact Set.empty_disjoint _
    · rw [hempty level' (by omega)]
      exact Set.disjoint_empty _

/-- Nothing is mapped in it. -/
theorem translate_rootOnly {mem : Mem} {root : ℕ} (hzero : ∀ i < 512, entry mem root i = 0)
    (va : ℕ) : translate mem root va = none := by
  rw [translate, lookup, hzero _ (idx_lt _ _)]
  simp [not_valid_zero]

/-! ## Linking a fresh page -/

/-- A zeroed page at entry `i` of `table`. -/
def link (mem : Mem) (table i page : ℕ) : Mem :=
  store (fill mem page 0 pgSize) (table + 8 * i) 8 (pa2pte page ||| pteV)

/-- The tables with one more page at `level`. -/
def addTable (tables : ℕ → Set ℕ) (level page : ℕ) : ℕ → Set ℕ :=
  Function.update tables level (insert page (tables level))

section Linking

variable {mem : Mem} {root : ℕ} {tables : ℕ → Set ℕ} {level table i page : ℕ}

theorem mem_addTable {level' other : ℕ} :
    other ∈ addTable tables level page level' ↔
      other ∈ tables level' ∨ level' = level ∧ other = page := by
  by_cases heq : level' = level
  · subst heq
    simp [addTable, or_comm]
  · simp [addTable, heq]

/-- What a link needs: an empty entry of a table above `level`, and a page that is
no table. -/
structure Linkable (mem : Mem) (tables : ℕ → Set ℕ) (level table i page : ℕ) : Prop where
  low : level < 2
  table_mem : table ∈ tables (level + 1)
  index : i < 512
  empty : ¬ Valid (entry mem table i)
  aligned : page % pgSize = 0
  small : page < 2 ^ 56
  notTable : ∀ level ≤ 2, page ∉ tables level

section Facts

variable (hwf : WellFormed mem root tables) (hlink : Linkable mem tables level table i page)
include hlink

theorem entry_link_same : entry (link mem table i page) table i = pa2pte page ||| pteV :=
  entry_store_same (leaf_word (by have := hlink.small; omega) hlink.aligned (by decide)).1

theorem pte2pa_link_same : pte2pa (entry (link mem table i page) table i) = page := by
  rw [entry_link_same hlink]
  exact (leaf_word (by have := hlink.small; omega) hlink.aligned (by decide)).2.1

include hwf

theorem entry_link_page {j : ℕ} (hj : j < 512) : entry (link mem table i page) page j = 0 := by
  have hne : page ≠ table := by
    rintro rfl
    exact hlink.notTable _ (by have := hlink.low; omega) hlink.table_mem
  have htable := hwf.aligned _ (by have := hlink.low; omega) table hlink.table_mem
  rw [link, entry_store_other hlink.aligned htable hj hlink.index (.inl hne), entry_fill_zero hj]

theorem entry_link_other {level' other j : ℕ} (hlevel : level' ≤ 2) (hother : other ∈ tables level')
    (hj : j < 512) (hne : other ≠ table ∨ j ≠ i) :
    entry (link mem table i page) other j = entry mem other j := by
  have hpage : other ≠ page := by
    rintro rfl
    exact hlink.notTable level' hlevel hother
  have haligned := hwf.aligned level' hlevel other hother
  have htable := hwf.aligned _ (by have := hlink.low; omega) table hlink.table_mem
  rw [link, entry_store_other haligned htable hj hlink.index hne,
    entry_fill_other haligned hlink.aligned hj hpage]

theorem entry_link_of_valid {level' other j : ℕ} (hlevel : level' ≤ 2)
    (hother : other ∈ tables level') (hj : j < 512) (hvalid : Valid (entry mem other j)) :
    entry (link mem table i page) other j = entry mem other j := by
  apply entry_link_other hwf hlink hlevel hother hj
  rw [← not_and_or]
  rintro ⟨rfl, rfl⟩
  exact hlink.empty hvalid

theorem not_valid_link_page {j : ℕ} (hj : j < 512) :
    ¬ Valid (entry (link mem table i page) page j) := by
  rw [entry_link_page hwf hlink hj]
  exact not_valid_zero

/-- The pointers after the link: the old ones and the new one. -/
theorem pointsTo_link_iff {level' : ℕ} (hlevel : level' < 2) (slot : ℕ × ℕ) (target : ℕ) :
    PointsTo (link mem table i page) (addTable tables level page (level' + 1)) slot target ↔
      PointsTo mem (tables (level' + 1)) slot target ∨
        level' = level ∧ slot = (table, i) ∧ target = page := by
  obtain ⟨other, j⟩ := slot
  constructor
  · rintro ⟨hmem, hj, hvalid, htarget⟩
    obtain hold | ⟨-, rfl⟩ := mem_addTable.mp hmem
    · by_cases hsame : other = table ∧ j = i
      · obtain ⟨rfl, rfl⟩ := hsame
        have hlev := hwf.level_eq (by omega) (by have := hlink.low; omega) hold hlink.table_mem
        exact .inr ⟨by omega, rfl, htarget.symm.trans (pte2pa_link_same hlink)⟩
      · have hkeep := entry_link_other hwf hlink (by omega) hold hj (not_and_or.mp hsame)
        exact .inl ⟨hold, hj, hkeep ▸ hvalid, hkeep ▸ htarget⟩
    · exact absurd hvalid (not_valid_link_page hwf hlink hj)
  · rintro (⟨hmem, hj, hvalid, htarget⟩ | ⟨rfl, hslot, rfl⟩)
    · have hkeep := entry_link_of_valid hwf hlink (by omega) hmem hj hvalid
      exact ⟨mem_addTable.mpr (.inl hmem), hj, hkeep.symm ▸ hvalid, hkeep.symm ▸ htarget⟩
    · obtain ⟨rfl, rfl⟩ := Prod.mk.inj hslot
      refine ⟨mem_addTable.mpr (.inl hlink.table_mem), hlink.index, ?_, pte2pa_link_same hlink⟩
      change Valid (entry _ other j)
      rw [entry_link_same hlink]
      exact valid_or_one _

/-- The link keeps the tree well formed. -/
theorem wellFormed_link :
    WellFormed (link mem table i page) root (addTable tables level page) := by
  have hlow := hlink.low
  constructor
  · rw [addTable, Function.update_of_ne (by omega), hwf.top]
  · intro level' hlevel' other hother
    obtain hold | ⟨-, rfl⟩ := mem_addTable.mp hother
    · exact hwf.aligned level' hlevel' other hold
    · exact hlink.aligned
  · intro level' hlevel' slot target hpoints
    rw [mem_addTable]
    obtain hold | ⟨rfl, -, rfl⟩ := (pointsTo_link_iff hwf hlink hlevel' slot target).mp hpoints
    · exact .inl (hwf.child level' hlevel' slot target hold)
    · exact .inr ⟨rfl, rfl⟩
  · intro level' hlevel' other hother
    have hiff := fun slot => pointsTo_link_iff hwf hlink hlevel' slot other
    obtain hold | ⟨rfl, rfl⟩ := mem_addTable.mp hother
    · obtain ⟨slot, hslot, hunique⟩ := hwf.parent level' hlevel' other hold
      refine ⟨slot, (hiff slot).mpr (.inl hslot), fun slot' hslot' => ?_⟩
      obtain hbefore | ⟨-, -, rfl⟩ := (hiff slot').mp hslot'
      · exact hunique slot' hbefore
      · exact absurd hold (hlink.notTable level' (by omega))
    · refine ⟨(table, i), (hiff (table, i)).mpr (.inr ⟨rfl, rfl, rfl⟩), fun slot' hslot' => ?_⟩
      obtain hbefore | ⟨-, hslot, -⟩ := (hiff slot').mp hslot'
      · exact absurd (hwf.child level' hlevel' slot' _ hbefore)
          (hlink.notTable level' (by omega))
      · exact hslot
  · intro level₁ hlevel₁ level₂ hlevel₂ hne
    rw [Set.disjoint_left]
    intro other hother hother'
    obtain hold | ⟨rfl, rfl⟩ := mem_addTable.mp hother
    · obtain hold' | ⟨rfl, rfl⟩ := mem_addTable.mp hother'
      · exact hwf.ne_of_level hlevel₁ hlevel₂ hne hold hold' rfl
      · exact hlink.notTable level₁ hlevel₁ hold
    · obtain hold' | ⟨rfl, -⟩ := mem_addTable.mp hother'
      · exact hlink.notTable level₂ hlevel₂ hold'
      · exact hne rfl

/-- The only lookups a link changes are those that now end in the new page. -/
theorem lookup_link {level' other : ℕ} (va : ℕ) (hlevel : level' ≤ 2) (hother : other ∈ tables level') :
    lookup (link mem table i page) va level' other = lookup mem va level' other ∨
      lookup mem va level' other = none ∧
        (lookup (link mem table i page) va level' other = none ∨
          lookup (link mem table i page) va level' other = some page) := by
  induction level' generalizing other with
  | zero => exact .inl rfl
  | succ level' ih =>
      have hidx := idx_lt (level' + 1) va
      simp only [lookup]
      by_cases hsame : other = table ∧ idx (level' + 1) va = i
      · obtain ⟨rfl, hi⟩ := hsame
        rw [hi, if_neg hlink.empty, pte2pa_link_same hlink, entry_link_same hlink,
          if_pos (valid_or_one _)]
        refine .inr ⟨rfl, ?_⟩
        cases level' with
        | zero => exact .inr rfl
        | succ level' =>
            left
            rw [lookup, if_neg (not_valid_link_page hwf hlink (idx_lt _ _))]
      · rw [entry_link_other hwf hlink hlevel hother hidx (not_and_or.mp hsame)]
        split
        · rename_i hvalid
          exact ih (by omega) (hwf.child_mem (by omega) hother hidx hvalid)
        · exact .inl rfl

/-- A link changes no translation. -/
theorem translate_link (va : ℕ) : translate (link mem table i page) root va = translate mem root va := by
  have hlow := hlink.low
  rw [translate, translate]
  obtain hsame | ⟨hnone, hnone' | hpage⟩ := lookup_link hwf hlink va le_rfl hwf.root_mem
  · rw [hsame]
    cases hlookup : lookup mem va 2 root with
    | none => rw [Option.bind_none, Option.bind_none]
    | some leaf =>
        have hleaf := hwf.lookup_mem le_rfl hwf.root_mem hlookup
        have hne := hwf.ne_of_level (by omega) (by omega) (by omega) hleaf hlink.table_mem
        rw [Option.bind_some, Option.bind_some,
          entry_link_other hwf hlink (by omega) hleaf (idx_lt _ _) (.inl hne)]
  · rw [hnone, hnone', Option.bind_none, Option.bind_none]
  · rw [hnone, hpage, Option.bind_some, Option.bind_none, entry_link_page hwf hlink (idx_lt _ _),
      meaning_zero]

/-- A link writes into tables only. -/
theorem link_apply {x : ℕ} (hout : Outside (addTable tables level page) x) :
    link mem table i page x = mem x := by
  have hlow := hlink.low
  have hpage : pgRoundDown x ≠ page := fun heq =>
    hout level (by omega) (mem_addTable.mpr (.inr ⟨rfl, heq⟩))
  have htable : pgRoundDown x ≠ table := fun heq =>
    hout (level + 1) (by omega) (mem_addTable.mpr (.inl (heq ▸ hlink.table_mem)))
  have hpa := hlink.aligned
  have hta := hwf.aligned _ (by omega) table hlink.table_mem
  have hindex := hlink.index
  simp only [pgRoundDown, pgSize] at hpage htable hpa hta
  rw [link, store_apply_of_out _ (by omega), fill_apply_of_out _ (by simp only [pgSize]; omega)]

end Facts

end Linking

/-! ## Setting a lowest-level entry -/

section Leaves

variable {mem : Mem} {root : ℕ} {tables : ℕ → Set ℕ} {va leaf pte : ℕ}

section Facts

variable (hwf : WellFormed mem root tables) (hlookup : lookup mem va 2 root = some leaf)
include hwf hlookup

theorem entry_setLeaf_other {level other j : ℕ} (hlevel : level ≤ 2) (hother : other ∈ tables level)
    (hj : j < 512) (hne : other ≠ leaf ∨ j ≠ idx 0 va) :
    entry (store mem (leaf + 8 * idx 0 va) 8 pte) other j = entry mem other j := by
  have hleaf := hwf.lookup_mem le_rfl hwf.root_mem hlookup
  exact entry_store_other (hwf.aligned level hlevel other hother)
    (hwf.aligned 0 (by omega) leaf hleaf) hj (idx_lt _ _) hne

theorem entry_setLeaf_upper {level other j : ℕ} (pte : ℕ) (hlevel : level < 2)
    (hother : other ∈ tables (level + 1)) (hj : j < 512) :
    entry (store mem (leaf + 8 * idx 0 va) 8 pte) other j = entry mem other j := by
  have hleaf := hwf.lookup_mem le_rfl hwf.root_mem hlookup
  have hne := hwf.ne_of_level (by omega) (by omega) (by omega) hother hleaf
  exact entry_setLeaf_other hwf hlookup (by omega) hother hj (.inl hne)

theorem wellFormed_setLeaf : WellFormed (store mem (leaf + 8 * idx 0 va) 8 pte) root tables := by
  have hiff : ∀ level < 2, ∀ slot target,
      PointsTo (store mem (leaf + 8 * idx 0 va) 8 pte) (tables (level + 1)) slot target ↔
        PointsTo mem (tables (level + 1)) slot target := by
    intro level hlevel slot target
    constructor
    · rintro ⟨hmem, hindex, hvalid, htarget⟩
      have hkeep := entry_setLeaf_upper hwf hlookup pte hlevel hmem hindex
      exact ⟨hmem, hindex, hkeep ▸ hvalid, hkeep ▸ htarget⟩
    · rintro ⟨hmem, hindex, hvalid, htarget⟩
      have hkeep := entry_setLeaf_upper hwf hlookup pte hlevel hmem hindex
      exact ⟨hmem, hindex, hkeep.symm ▸ hvalid, hkeep.symm ▸ htarget⟩
  refine ⟨hwf.top, hwf.aligned, ?_, ?_, hwf.disjoint⟩
  · intro level hlevel slot target hpoints
    exact hwf.child level hlevel slot target ((hiff level hlevel slot target).mp hpoints)
  · intro level hlevel table htable
    obtain ⟨slot, hslot, hunique⟩ := hwf.parent level hlevel table htable
    exact ⟨slot, (hiff level hlevel slot table).mpr hslot, fun slot' hslot' =>
      hunique slot' ((hiff level hlevel slot' table).mp hslot')⟩

theorem lookup_setLeaf {level other : ℕ} (va' : ℕ) (hlevel : level ≤ 2)
    (hother : other ∈ tables level) :
    lookup (store mem (leaf + 8 * idx 0 va) 8 pte) va' level other = lookup mem va' level other := by
  induction level generalizing other with
  | zero => rfl
  | succ level ih =>
      have hidx := idx_lt (level + 1) va'
      simp only [lookup]
      rw [entry_setLeaf_upper hwf hlookup pte (by omega) hother hidx]
      split
      · rename_i hvalid
        exact ih (by omega) (hwf.child_mem (by omega) hother hidx hvalid)
      · rfl

/-- Setting the entry of a page changes the translation of that page only. -/
theorem translate_setLeaf (hva : va < maxVa) (hpte : pte < 2 ^ 64) {va' : ℕ} (hva' : va' < maxVa) :
    translate (store mem (leaf + 8 * idx 0 va) 8 pte) root va' =
      if va' / pgSize = va / pgSize then meaning pte va' else translate mem root va' := by
  rw [translate, lookup_setLeaf hwf hlookup va' le_rfl hwf.root_mem]
  split
  · rename_i hpage
    have hsame : lookup mem va' 2 root = some leaf := by
      rw [← hlookup]
      simp only [lookup, idx_page hpage]
    rw [hsame, Option.bind_some, idx_page hpage, entry_store_same hpte]
  · rename_i hpage
    rw [translate]
    cases hother : lookup mem va' 2 root with
    | none => rw [Option.bind_none, Option.bind_none]
    | some leaf' =>
        have hleaf' := hwf.lookup_mem le_rfl hwf.root_mem hother
        have hne : leaf' ≠ leaf ∨ idx 0 va' ≠ idx 0 va := by
          rw [← not_and_or]
          rintro ⟨rfl, hidx⟩
          exact hpage (hwf.slot_inj hva' hva hother hlookup hidx)
        rw [Option.bind_some, Option.bind_some,
          entry_setLeaf_other hwf hlookup (by omega) hleaf' (idx_lt _ _) hne]

theorem setLeaf_apply {x : ℕ} (hout : Outside tables x) :
    store mem (leaf + 8 * idx 0 va) 8 pte x = mem x := by
  have hleaf := hwf.lookup_mem le_rfl hwf.root_mem hlookup
  have hne : pgRoundDown x ≠ leaf := fun heq => hout 0 (by omega) (heq ▸ hleaf)
  have haligned := hwf.aligned 0 (by omega) leaf hleaf
  have hidx := idx_lt 0 va
  simp only [pgRoundDown, pgSize] at hne haligned
  exact store_apply_of_out _ (by omega)

end Facts

/-- The entry that `walk` finds, and the translation of its page. -/
theorem translate_of_lookup (hlookup : lookup mem va 2 root = some leaf) :
    translate mem root va = meaning (entry mem leaf (idx 0 va)) va := by
  rw [translate, hlookup, Option.bind_some]

theorem not_valid_of_translate (hlookup : lookup mem va 2 root = some leaf)
    (hnone : translate mem root va = none) : ¬ Valid (entry mem leaf (idx 0 va)) := by
  rw [translate_of_lookup hlookup, meaning] at hnone
  intro hvalid
  rw [if_pos hvalid] at hnone
  simp at hnone

end Leaves

/-! ## `walk` with allocation -/

/-- A tree after pages of the free list have been linked into it. -/
structure Grown (root : ℕ) (pm pm' : Pm) (tables tables' : ℕ → Set ℕ) : Prop where
  wf : WellFormed pm'.mem root tables'
  fresh : Fresh pm'.freelist tables'
  suffix : pm'.freelist <:+ pm.freelist
  source : ∀ level, ∀ table ∈ tables' level, table ∈ tables level ∨ table ∈ pm.freelist
  keeps : ∀ level ≤ 2, ∀ table ∈ tables level, table ∈ tables' level
  frame : ∀ x, Outside tables' x → pm'.mem x = pm.mem x

theorem Grown.refl {root : ℕ} {pm : Pm} {tables : ℕ → Set ℕ} (hwf : WellFormed pm.mem root tables)
    (hfresh : Fresh pm.freelist tables) : Grown root pm pm tables tables :=
  ⟨hwf, hfresh, List.suffix_refl _, fun _ _ htable => .inl htable, fun _ _ _ htable => htable,
    fun _ _ => rfl⟩

theorem Grown.trans {root : ℕ} {pm pm' pm'' : Pm} {tables tables' tables'' : ℕ → Set ℕ}
    (hleft : Grown root pm pm' tables tables') (hright : Grown root pm' pm'' tables' tables'') :
    Grown root pm pm'' tables tables'' := by
  refine ⟨hright.wf, hright.fresh, hright.suffix.trans hleft.suffix, ?_, ?_, ?_⟩
  · intro level table htable
    obtain hmid | hfree := hright.source level table htable
    · exact hleft.source level table hmid
    · exact .inr (hleft.suffix.subset hfree)
  · intro level hlevel table htable
    exact hright.keeps level hlevel table (hleft.keeps level hlevel table htable)
  · intro x hout
    have hmid : Outside tables' x := fun level hlevel htable =>
      hout level hlevel (hright.keeps level hlevel _ htable)
    exact (hright.frame x hout).trans (hleft.frame x hmid)

theorem fill_fill (mem : Mem) (addr count : ℕ) (value value' : UInt8) :
    fill (fill mem addr value count) addr value' count = fill mem addr value' count := by
  funext x
  simp only [fill]
  split <;> rfl

theorem Fresh.head_linkable {mem : Mem} {tables : ℕ → Set ℕ} {page level table i : ℕ}
    {rest : List ℕ} (hfresh : Fresh (page :: rest) tables) (hlow : level < 2)
    (htable : table ∈ tables (level + 1)) (hi : i < 512) (hempty : ¬ Valid (entry mem table i)) :
    Linkable mem tables level table i page :=
  ⟨hlow, htable, hi, hempty, hfresh.aligned page List.mem_cons_self,
    hfresh.small page List.mem_cons_self, hfresh.notTable page List.mem_cons_self⟩

/-- Taking the first page as a table leaves the others fresh. -/
theorem Fresh.addTable {tables : ℕ → Set ℕ} {page level : ℕ} {rest : List ℕ}
    (hfresh : Fresh (page :: rest) tables) : Fresh rest (addTable tables level page) := by
  obtain ⟨hnot, hnodup⟩ := List.nodup_cons.mp hfresh.nodup
  refine ⟨hnodup, fun other hother => hfresh.aligned other (List.mem_cons_of_mem _ hother),
    fun other hother => hfresh.small other (List.mem_cons_of_mem _ hother), ?_⟩
  intro other hother level' hlevel' hmem
  obtain hold | ⟨-, rfl⟩ := mem_addTable.mp hmem
  · exact hfresh.notTable other (List.mem_cons_of_mem _ hother) level' hlevel' hold
  · exact hnot hother

theorem grown_link {root : ℕ} {mem : Mem} {tables : ℕ → Set ℕ} {page level table i : ℕ}
    {rest : List ℕ} (hwf : WellFormed mem root tables) (hfresh : Fresh (page :: rest) tables)
    (hlink : Linkable mem tables level table i page) :
    Grown root ⟨mem, page :: rest⟩ ⟨link mem table i page, rest⟩ tables
      (addTable tables level page) := by
  refine ⟨wellFormed_link hwf hlink, hfresh.addTable, List.suffix_cons _ _, ?_, ?_, ?_⟩
  · intro level' other hother
    obtain hold | ⟨-, rfl⟩ := mem_addTable.mp hother
    · exact .inl hold
    · exact .inr List.mem_cons_self
  · intro level' _ other hother
    exact mem_addTable.mpr (.inl hother)
  · intro x hout
    exact link_apply hwf hlink hout

/-- What `walk` with allocation does below a table: valid entries and translations
stay, and unless memory runs out it finds the lowest-level table.  What every link keeps
is kept too. -/
theorem walkLoop_keeps {root : ℕ} {Keeps : Pm → (ℕ → Set ℕ) → Prop}
    (hkeeps : ∀ mem tables level table i page rest, WellFormed mem root tables →
      Fresh (page :: rest) tables → Linkable mem tables level table i page →
      Keeps ⟨mem, page :: rest⟩ tables →
      Keeps ⟨link mem table i page, rest⟩ (addTable tables level page))
    (va level : ℕ) {pm : Pm} {tables : ℕ → Set ℕ} {table : ℕ}
    (hwf : WellFormed pm.mem root tables) (hfresh : Fresh pm.freelist tables) (hlevel : level ≤ 2)
    (htable : table ∈ tables level) (hstart : Keeps pm tables) :
    ∃ result pm' tables', walkLoop va true level pm table = (result, pm') ∧
      Keeps pm' tables' ∧ Grown root pm pm' tables tables' ∧
      (∀ va', translate pm'.mem root va' = translate pm.mem root va') ∧
      (∀ level' ≤ 2, ∀ other ∈ tables level', ∀ i < 512, Valid (entry pm.mem other i) →
        entry pm'.mem other i = entry pm.mem other i) ∧
      (result = none ∧ pm'.freelist = [] ∨
        ∃ leaf, result = some (leaf + 8 * idx 0 va) ∧
          lookup pm'.mem va level table = some leaf) := by
  induction level generalizing pm tables table with
  | zero =>
      exact ⟨_, pm, tables, rfl, hstart, Grown.refl hwf hfresh, fun _ => rfl,
        fun _ _ _ _ _ _ _ => rfl, .inr ⟨table, rfl, rfl⟩⟩
  | succ level ih =>
      have hidx := idx_lt (level + 1) va
      by_cases hvalid : Valid (entry pm.mem table (idx (level + 1) va))
      · have hchild := hwf.child_mem (by omega) htable hidx hvalid
        obtain ⟨result, pm', tables', hwalk, hend, hgrown, htranslate, hkeep, hresult⟩ :=
          ih hwf hfresh (by omega) hchild hstart
        refine ⟨result, pm', tables', ?_, hend, hgrown, htranslate, hkeep, ?_⟩
        · rw [walkLoop]
          exact (if_pos hvalid).trans hwalk
        · refine hresult.imp id fun ⟨leaf, hslot, hlookup⟩ => ⟨leaf, hslot, ?_⟩
          have hsame := hkeep (level + 1) hlevel table htable _ hidx hvalid
          simp only [lookup]
          rw [hsame, if_pos hvalid, hlookup]
      · obtain ⟨mem, freelist⟩ := pm
        cases freelist with
        | nil =>
            refine ⟨none, ⟨mem, []⟩, tables, ?_, hstart, Grown.refl hwf hfresh, fun _ => rfl,
              fun _ _ _ _ _ _ _ => rfl, .inl ⟨rfl, rfl⟩⟩
            rw [walkLoop]
            exact (if_neg hvalid).trans (if_pos rfl)
        | cons page rest =>
            have hlink : Linkable mem tables level table (idx (level + 1) va) page :=
              hfresh.head_linkable (by omega) htable hidx hvalid
            have hgrown₁ := grown_link hwf hfresh hlink
            have hpage : page ∈ addTable tables level page level :=
              mem_addTable.mpr (.inr ⟨rfl, rfl⟩)
            obtain ⟨result, pm', tables', hwalk, hend, hgrown, htranslate, hkeep, hresult⟩ :=
              ih hgrown₁.wf hgrown₁.fresh (by omega) hpage
                (hkeeps _ _ _ _ _ _ _ hwf hfresh hlink hstart)
            have hentry := entry_link_same hlink
            refine ⟨result, pm', tables', ?_, hend, hgrown₁.trans hgrown, ?_, ?_, ?_⟩
            · rw [walkLoop]
              refine (if_neg hvalid).trans ((if_pos rfl).trans ?_)
              rw [kpmalloc]
              simp only [fill_fill]
              exact hwalk
            · intro va'
              exact (htranslate va').trans (translate_link hwf hlink va')
            · intro level' hlevel' other hother j hj hold
              have hfirst := entry_link_of_valid hwf hlink hlevel' hother hj hold
              have hsecond := hkeep level' hlevel' other (hgrown₁.keeps level' hlevel' other hother)
                j hj (by rw [hfirst]; exact hold)
              exact hsecond.trans hfirst
            · refine hresult.imp id fun ⟨leaf, hslot, hlookup⟩ => ⟨leaf, hslot, ?_⟩
              have hlinked := hkeep (level + 1) hlevel table
                (hgrown₁.keeps (level + 1) hlevel table htable) _ hidx
                (by rw [hentry]; exact valid_or_one _)
              simp only [lookup]
              rw [hlinked, pte2pa_link_same hlink, hentry, if_pos (valid_or_one _), hlookup]

/-- `walk` with allocation in a well-formed tree, with something that every link keeps. -/
theorem walk_keeps {root va : ℕ} {Keeps : Pm → (ℕ → Set ℕ) → Prop}
    (hkeeps : ∀ mem tables level table i page rest, WellFormed mem root tables →
      Fresh (page :: rest) tables → Linkable mem tables level table i page →
      Keeps ⟨mem, page :: rest⟩ tables →
      Keeps ⟨link mem table i page, rest⟩ (addTable tables level page))
    {pm : Pm} {tables : ℕ → Set ℕ} (hwf : WellFormed pm.mem root tables)
    (hfresh : Fresh pm.freelist tables) (hva : va < maxVa) (hstart : Keeps pm tables) :
    ∃ result pm' tables', walk pm root va true = .ok (result, pm') ∧
      Keeps pm' tables' ∧ Grown root pm pm' tables tables' ∧
      (∀ va', translate pm'.mem root va' = translate pm.mem root va') ∧
      (result = none ∧ pm'.freelist = [] ∨
        ∃ leaf, result = some (leaf + 8 * idx 0 va) ∧ lookup pm'.mem va 2 root = some leaf) := by
  obtain ⟨result, pm', tables', hwalk, hend, hgrown, htranslate, -, hresult⟩ :=
    walkLoop_keeps hkeeps va 2 hwf hfresh le_rfl hwf.root_mem hstart
  refine ⟨result, pm', tables', ?_, hend, hgrown, htranslate, hresult⟩
  rw [walk, if_neg (not_le.mpr hva), hwalk]

/-- `walk` with allocation in a well-formed tree. -/
theorem walk_alloc {root va : ℕ} {pm : Pm} {tables : ℕ → Set ℕ}
    (hwf : WellFormed pm.mem root tables) (hfresh : Fresh pm.freelist tables) (hva : va < maxVa) :
    ∃ result pm' tables', walk pm root va true = .ok (result, pm') ∧
      Grown root pm pm' tables tables' ∧
      (∀ va', translate pm'.mem root va' = translate pm.mem root va') ∧
      (result = none ∧ pm'.freelist = [] ∨
        ∃ leaf, result = some (leaf + 8 * idx 0 va) ∧ lookup pm'.mem va 2 root = some leaf) := by
  obtain ⟨result, pm', tables', hwalk, -, hgrown, htranslate, hresult⟩ :=
    @walk_keeps root va (fun _ _ => True) (fun _ _ _ _ _ _ _ _ _ _ _ => trivial) pm tables hwf
      hfresh hva trivial
  exact ⟨result, pm', tables', hwalk, hgrown, htranslate, hresult⟩

/-! ## Changes outside the tables -/

theorem pgRoundDown_le (a : ℕ) : pgRoundDown a ≤ a := Nat.div_mul_le_self _ _

theorem lt_pgRoundDown_add (a : ℕ) : a < pgRoundDown a + pgSize := by
  simp only [pgRoundDown, pgSize]
  omega

theorem pgRoundDown_aligned (a : ℕ) : pgRoundDown a % pgSize = 0 := Nat.mul_mod_left _ _

theorem pgRoundDown_of_aligned {a : ℕ} (ha : a % pgSize = 0) : pgRoundDown a = a :=
  Nat.div_mul_cancel (Nat.dvd_of_mod_eq_zero ha)

section Frame

variable {mem mem' : Mem} {root : ℕ} {tables : ℕ → Set ℕ}

/-- An entry of a table is determined by the tables' bytes. -/
theorem WellFormed.entry_frame (hwf : WellFormed mem root tables)
    (hsame : ∀ x, ¬ Outside tables x → mem' x = mem x) {level table i : ℕ} (hlevel : level ≤ 2)
    (htable : table ∈ tables level) (hi : i < 512) : entry mem' table i = entry mem table i := by
  have haligned := hwf.aligned level hlevel table htable
  apply AgreeOn.load_eq
  intro x hlo hhi
  apply hsame
  intro hout
  have hround : pgRoundDown x = table := by
    simp only [pgRoundDown, pgSize] at *
    omega
  exact hout level hlevel (hround ▸ htable)

theorem WellFormed.pointsTo_frame (hwf : WellFormed mem root tables)
    (hsame : ∀ x, ¬ Outside tables x → mem' x = mem x) {level : ℕ} (hlevel : level ≤ 2)
    (slot : ℕ × ℕ) (target : ℕ) :
    PointsTo mem' (tables level) slot target ↔ PointsTo mem (tables level) slot target := by
  constructor
  · rintro ⟨htable, hi, hvalid, htarget⟩
    rw [hwf.entry_frame hsame hlevel htable hi] at hvalid htarget
    exact ⟨htable, hi, hvalid, htarget⟩
  · rintro ⟨htable, hi, hvalid, htarget⟩
    rw [← hwf.entry_frame hsame hlevel htable hi] at hvalid htarget
    exact ⟨htable, hi, hvalid, htarget⟩

/-- A change outside the tables leaves them well formed. -/
theorem WellFormed.frame (hwf : WellFormed mem root tables)
    (hsame : ∀ x, ¬ Outside tables x → mem' x = mem x) : WellFormed mem' root tables := by
  refine ⟨hwf.top, hwf.aligned, ?_, ?_, hwf.disjoint⟩
  · intro level hlevel slot target hpoints
    exact hwf.child level hlevel slot target
      ((hwf.pointsTo_frame hsame (by omega) slot target).mp hpoints)
  · intro level hlevel table htable
    simp only [hwf.pointsTo_frame hsame (show level + 1 ≤ 2 by omega)]
    exact hwf.parent level hlevel table htable

theorem WellFormed.lookup_frame (hwf : WellFormed mem root tables)
    (hsame : ∀ x, ¬ Outside tables x → mem' x = mem x) (va : ℕ) {level table : ℕ}
    (hlevel : level ≤ 2) (htable : table ∈ tables level) :
    lookup mem' va level table = lookup mem va level table := by
  induction level generalizing table with
  | zero => rfl
  | succ level ih =>
      rw [lookup, lookup, hwf.entry_frame hsame hlevel htable (idx_lt _ _)]
      split
      · rename_i hvalid
        exact ih (by omega) (hwf.child_mem (by omega) htable (idx_lt _ _) hvalid)
      · rfl

theorem WellFormed.translate_frame (hwf : WellFormed mem root tables)
    (hsame : ∀ x, ¬ Outside tables x → mem' x = mem x) (va : ℕ) :
    translate mem' root va = translate mem root va := by
  rw [translate, translate, hwf.lookup_frame hsame va le_rfl hwf.root_mem]
  cases hlookup : lookup mem va 2 root with
  | none => rfl
  | some leaf =>
      have hleaf := hwf.lookup_mem le_rfl hwf.root_mem hlookup
      rw [Option.bind_some, Option.bind_some,
        hwf.entry_frame hsame (Nat.zero_le _) hleaf (idx_lt _ _)]

end Frame

end Painting.PageTable
