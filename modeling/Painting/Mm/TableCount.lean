import Painting.Mm.SpaceLife

/-!
# How many pages the tables take

`walk` with allocation takes one page for every table that is missing on the way, and fails when
there are fewer.  So `mappages` of one page and `process_pagetable` take a number of pages
that is known beforehand.
-/

namespace Painting.PageTable

open Painting.Memory

/-- The tables that are missing for `va` below a table of the given level. -/
def missing (mem : Mem) (va : ℕ) : ℕ → ℕ → ℕ
  | 0, _ => 0
  | level + 1, table =>
      let pte := entry mem table (idx (level + 1) va)
      if Valid pte then missing mem va level (pte2pa pte) else level + 1

theorem missing_eq_zero {mem : Mem} {va : ℕ} (level table : ℕ) :
    missing mem va level table = 0 ↔ (lookup mem va level table).isSome := by
  induction level generalizing table with
  | zero => simp [missing, lookup]
  | succ level ih =>
      rw [missing, lookup]
      split
      · exact ih _
      · simp

section Tree

variable {mem mem' : Mem} {root : ℕ} {tables : ℕ → Set ℕ}

/-- The count depends on the bytes of the tables only. -/
theorem WellFormed.missing_frame (hwf : WellFormed mem root tables)
    (hsame : ∀ x, ¬ Outside tables x → mem' x = mem x) (va : ℕ) {level table : ℕ}
    (hlevel : level ≤ 2) (htable : table ∈ tables level) :
    missing mem' va level table = missing mem va level table := by
  induction level generalizing table with
  | zero => rfl
  | succ level ih =>
      rw [missing, missing, hwf.entry_frame hsame hlevel htable (idx_lt _ _)]
      split
      · rename_i hvalid
        exact ih (by omega) (hwf.child_mem (by omega) htable (idx_lt _ _) hvalid)
      · rfl

/-- Below a table without valid entries all tables are missing. -/
theorem missing_of_empty {va level table : ℕ}
    (hempty : ∀ i < 512, ¬ Valid (entry mem table i)) : missing mem va level table = level := by
  cases level with
  | zero => rfl
  | succ level =>
      rw [missing]
      exact if_neg (hempty _ (idx_lt _ _))

end Tree

/-- `walk` takes the missing tables from the front of the free list. -/
theorem walkLoop_missing {root : ℕ} (va level : ℕ) {pm : Pm} {tables : ℕ → Set ℕ} {table : ℕ}
    (hwf : WellFormed pm.mem root tables) (hfresh : Fresh pm.freelist tables) (hlevel : level ≤ 2)
    (htable : table ∈ tables level) :
    (walkLoop va true level pm table).2.freelist =
        pm.freelist.drop (missing pm.mem va level table) ∧
      ((walkLoop va true level pm table).1.isSome ↔
        missing pm.mem va level table ≤ pm.freelist.length) := by
  induction level generalizing pm tables table with
  | zero => simp [walkLoop, missing]
  | succ level ih =>
      have hidx := idx_lt (level + 1) va
      by_cases hvalid : Valid (entry pm.mem table (idx (level + 1) va))
      · have hchild := hwf.child_mem (by omega) htable hidx hvalid
        have hwalk : walkLoop va true (level + 1) pm table =
            walkLoop va true level pm (pte2pa (entry pm.mem table (idx (level + 1) va))) := by
          rw [walkLoop]
          exact if_pos hvalid
        have hmissing : missing pm.mem va (level + 1) table =
            missing pm.mem va level (pte2pa (entry pm.mem table (idx (level + 1) va))) := by
          rw [missing]
          exact if_pos hvalid
        rw [hwalk, hmissing]
        exact ih hwf hfresh (by omega) hchild
      · have hmissing : missing pm.mem va (level + 1) table = level + 1 := by
          rw [missing]
          exact if_neg hvalid
        rw [hmissing]
        obtain ⟨mem, freelist⟩ := pm
        cases freelist with
        | nil =>
            have hwalk : walkLoop va true (level + 1) ⟨mem, []⟩ table = (none, ⟨mem, []⟩) := by
              rw [walkLoop]
              exact (if_neg hvalid).trans (if_pos rfl)
            rw [hwalk]
            simp
        | cons page rest =>
            have hlink : Linkable mem tables level table (idx (level + 1) va) page :=
              hfresh.head_linkable (by omega) htable hidx hvalid
            have hgrown := grown_link hwf hfresh hlink
            have hpage : page ∈ addTable tables level page level :=
              mem_addTable.mpr (.inr ⟨rfl, rfl⟩)
            have hwalk : walkLoop va true (level + 1) ⟨mem, page :: rest⟩ table =
                walkLoop va true level ⟨link mem table (idx (level + 1) va) page, rest⟩ page := by
              rw [walkLoop]
              refine (if_neg hvalid).trans ((if_pos rfl).trans ?_)
              rw [kpmalloc]
              simp only [fill_fill]
              rfl
            have hbelow : missing (link mem table (idx (level + 1) va) page) va level page =
                level := missing_of_empty fun _ hj => not_valid_link_page hwf hlink hj
            obtain ⟨hlist, hsome⟩ := ih hgrown.wf hgrown.fresh (by omega) hpage
            rw [hwalk, hlist, hsome, hbelow, List.drop_succ_cons, List.length_cons]
            exact ⟨rfl, Nat.add_le_add_iff_right.symm⟩

section Owned

variable {kernelEnd root : ℕ} {region : Set ℕ} {pm : Pm} {tables : ℕ → Set ℕ}

/-- `mappages` of one page takes the missing tables. -/
theorem Owned.mappages_missing (hown : Owned kernelEnd region pm root tables) {va pa mode : ℕ}
    (hva : va % pgSize = 0) (hlt : va < maxVa) {ret : ℤ} {pm' : Pm}
    (hmap : mappages pm root va pa pgSize mode = .ok (ret, pm')) :
    pm'.freelist = pm.freelist.drop (missing pm.mem va 2 root) ∧
      (ret = 0 ↔ missing pm.mem va 2 root ≤ pm.freelist.length) := by
  have hstop : (va + pgSize + 2 ^ 64 - pgSize) % 2 ^ 64 = va := by
    simp only [pgSize, maxVa] at *
    omega
  obtain ⟨hlist, hsome⟩ :=
    walkLoop_missing va 2 hown.tree hown.fresh le_rfl hown.tree.root_mem
  rw [mappages, if_neg (not_not.mpr hva), if_neg (by decide), hstop, mapLoop, walk,
    if_neg (not_le.mpr hlt)] at hmap
  rcases hwalk : walkLoop va true 2 pm root with ⟨slot, pm₁⟩
  rw [hwalk] at hlist hsome hmap
  cases slot with
  | none =>
      simp only [Except.ok.injEq, Prod.mk.injEq] at hmap
      obtain ⟨rfl, rfl⟩ := hmap
      exact ⟨hlist, iff_of_false (by decide) fun hle => by simpa using hsome.mpr hle⟩
  | some slot =>
      dsimp only at hmap
      split at hmap
      · cases hmap
      · rw [if_pos rfl] at hmap
        simp only [Except.ok.injEq, Prod.mk.injEq] at hmap
        obtain ⟨rfl, rfl⟩ := hmap
        exact ⟨hlist, iff_of_true rfl (hsome.mp rfl)⟩

/-- `mappages` of a page that is mapped panics. -/
theorem Owned.mappages_remap (hown : Owned kernelEnd region pm root tables) {va pa mode : ℕ}
    (hva : va % pgSize = 0) (hlt : va < maxVa) {frame : ℕ × ℕ}
    (htranslate : translate pm.mem root va = some frame) :
    mappages pm root va pa pgSize mode = .error .remap := by
  have hstop : (va + pgSize + 2 ^ 64 - pgSize) % 2 ^ 64 = va := by
    simp only [pgSize, maxVa] at *
    omega
  obtain ⟨pa', flags⟩ := frame
  obtain ⟨leaf, hlookup, hvalid, -⟩ := lookup_of_translate htranslate
  obtain ⟨result, pm', tables', hwalk, hown', -, -, htranslate', hresult⟩ := hown.walkAlloc hlt
  obtain ⟨rfl, -⟩ | ⟨leaf', rfl, hlookup'⟩ := hresult
  · have hzero : missing pm.mem va 2 root = 0 := by
      rw [missing_eq_zero, hlookup]
      rfl
    have hsome := (walkLoop_missing va 2 hown.tree hown.fresh le_rfl hown.tree.root_mem).2
    rw [walk, if_neg (not_le.mpr hlt), Except.ok.injEq] at hwalk
    rw [hwalk, hzero] at hsome
    exact absurd (hsome.mpr (Nat.zero_le _)) (by simp)
  · have hstill : Valid (entry pm'.mem leaf' (idx 0 va)) := by
      have htranslate'' := (htranslate' va).trans htranslate
      obtain ⟨leaf'', hlookup'', hvalid'', -⟩ := lookup_of_translate htranslate''
      rw [hlookup'] at hlookup''
      exact Option.some.inj hlookup'' ▸ hvalid''
    rw [mappages, if_neg (not_not.mpr hva), if_neg (by decide), hstop, mapLoop, hwalk]
    exact if_pos hstill

/-- A page in hand is only mapped where nothing is. -/
theorem Owned.unmapped_of_mappages (hown : Owned kernelEnd region pm root tables) {page : ℕ}
    {rest : List ℕ} (hlist : pm.freelist = page :: rest) {mem₁ : Mem}
    (hfill : ∀ x, pgRoundDown x ≠ page → mem₁ x = pm.mem x) {va mode : ℕ}
    (hva : va % pgSize = 0) (hlt : va < maxVa) {result : ℤ × Pm}
    (hmap : mappages ⟨mem₁, rest⟩ root va page pgSize mode = .ok result) :
    translate pm.mem root va = none := by
  obtain ⟨mem, freelist⟩ := pm
  obtain rfl : freelist = page :: rest := hlist
  obtain ⟨htake, hregion, htable⟩ := hown.take
  have hsame : ∀ x, ¬ Outside tables x → mem₁ x = mem x := fun x hx =>
    hfill x fun heq => hx (outside_iff.mpr (heq ▸ htable))
  have hown₁ := htake.write fun x hx =>
    (hsame x hx).trans (fill_outside 5 (hown.good page hregion).aligned htable hx).symm
  cases hframe : translate mem root va with
  | none => rfl
  | some frame =>
      have hremap : mappages ⟨mem₁, rest⟩ root va page pgSize mode = .error .remap :=
        hown₁.mappages_remap hva hlt ((hown.tree.translate_frame hsame va).trans hframe)
      cases hremap.symm.trans hmap

end Owned

/-- The two pages of the kernel share their tables. -/
theorem missing_trapFrame (mem : Mem) (root : ℕ) :
    missing mem trapFrame 2 root = missing mem trampoline 2 root := by
  have hupper : idx 2 trapFrame = idx 2 trampoline := by decide
  have hmiddle : idx 1 trapFrame = idx 1 trampoline := by decide
  simp only [missing, Nat.reduceAdd, hupper, hmiddle]

/-- Below a new root all tables are missing. -/
theorem uvmcreate_missing {pm pm' : Pm} {root : ℕ} (hmem : root ∈ pm.freelist)
    (hcreate : uvmcreate pm = (root, pm')) :
    (∀ va, missing pm'.mem va 2 root = 2) ∧ pm'.freelist.length + 1 = pm.freelist.length := by
  obtain ⟨mem, freelist⟩ := pm
  cases freelist with
  | nil => cases hmem
  | cons page rest =>
      simp only [uvmcreate, kpmalloc, fill_fill, Prod.mk.injEq] at hcreate
      obtain ⟨rfl, rfl⟩ := hcreate
      refine ⟨fun va => missing_of_empty fun i hi => ?_, rfl⟩
      rw [entry_fill_zero hi]
      exact not_valid_zero

/-- `process_pagetable` takes a root and the two tables below it. -/
theorem processPagetable_missing {kernelEnd trampolinePa trapframe root : ℕ} {pm pm' : Pm}
    (hpool : Pool kernelEnd pm) (hpos : 0 < kernelEnd) (htramp : trampolinePa % pgSize = 0)
    (htramp' : trampolinePa < 2 ^ 56)
    (hcall : processPagetable kernelEnd trampolinePa pm trapframe = .ok (root, pm')) :
    root ≠ 0 ↔ 3 ≤ pm.freelist.length := by
  rw [processPagetable] at hcall
  obtain ⟨hempty, hcreate⟩ | ⟨root₀, pm₀, hmem, hcreate, hown₀, -, hnone₀⟩ := hpool.create
  · rw [hcreate] at hcall
    dsimp only at hcall
    rw [if_pos rfl] at hcall
    simp only [Except.ok.injEq, Prod.mk.injEq] at hcall
    simp [← hcall.1, hempty]
  have hroot : root₀ ≠ 0 := by
    have hlo := (hpool.good root₀ hmem).lo
    omega
  have hfirst := uvmcreate_missing hmem hcreate
  rw [hcreate] at hcall
  dsimp only at hcall
  rw [if_neg hroot] at hcall
  obtain ⟨ret, pm₁, tables₁, hmap, -, -, hown₁, hresult⟩ := hown₀.mapKernel
    (show trampoline % pgSize = 0 by decide) (by decide) htramp htramp'
    (show pteR ||| pteX < 1024 by decide) (by decide) (hnone₀ trampoline)
  have hcount := (hown₀.mappages_missing (by decide) (by decide) hmap).2
  rw [hmap] at hcall
  dsimp only at hcall
  rw [hfirst.1] at hcount
  obtain ⟨rfl, -⟩ | ⟨rfl, htranslate⟩ := hresult
  · rw [if_pos (by decide)] at hcall
    have hshort : ¬ 2 ≤ pm₀.freelist.length := fun hle => absurd (hcount.mpr hle) (by decide)
    cases hfree : uvmfree kernelEnd pm₁ root₀ with
    | error panic =>
        rw [hfree] at hcall
        cases hcall
    | ok pm₂ =>
        rw [hfree] at hcall
        simp only [Except.map, Except.ok.injEq, Prod.mk.injEq] at hcall
        exact iff_of_false (fun hne => hne hcall.1.symm) (by omega)
  · rw [if_neg (by decide)] at hcall
    have hlong : 2 ≤ pm₀.freelist.length := hcount.mp rfl
    have hmapped := htranslate trampoline (by decide)
    rw [if_pos rfl] at hmapped
    obtain ⟨leaf, hlookup, -⟩ := lookup_of_translate hmapped
    have hnone : missing pm₁.mem trapFrame 2 root₀ = 0 := by
      rw [missing_trapFrame, missing_eq_zero, hlookup]
      rfl
    cases hmap' : mappages pm₁ root₀ trapFrame trapframe pgSize (pteR ||| pteW) with
    | error panic =>
        rw [hmap'] at hcall
        cases hcall
    | ok result =>
        obtain ⟨ret, pm₂⟩ := result
        have hret := (hown₁.mappages_missing (by decide) (by decide) hmap').2
        rw [hnone] at hret
        obtain rfl := hret.mpr (Nat.zero_le _)
        rw [hmap'] at hcall
        dsimp only at hcall
        rw [if_neg (by decide)] at hcall
        simp only [Except.ok.injEq, Prod.mk.injEq] at hcall
        exact iff_of_true (hcall.1 ▸ hroot) (by omega)

end Painting.PageTable
