import Painting.Core.Transition
import Painting.Mm.SpaceFree

/-!
# The life of a user page table

A user page table begins in `process_pagetable`, is changed by the operations on its
address space while others take, return and write their own pages, and ends in
`free_user_pagetable`.  Over the whole run the pages that were handed out for it are
exactly its tables and frames, so the end gives all of them back.
-/

namespace Painting.PageTable

open Painting.Memory Painting.Transition

/-- A free list that `kpmalloc` may hand out. -/
structure Pool (kernelEnd : ℕ) (pm : Pm) : Prop where
  nodup : pm.freelist.Nodup
  good : ∀ page ∈ pm.freelist, Allocatable kernelEnd page

/-- The pages that are free. -/
def Pm.free (pm : Pm) : Set ℕ := {page | page ∈ pm.freelist}

/-! ## Pages of the kernel in a user table -/

section Kernel

variable {kernelEnd root : ℕ} {region : Set ℕ} {pm : Pm} {tables : ℕ → Set ℕ}

/-- `mappages` of a page that is not for the user. -/
theorem Owned.mapKernel (hown : Owned kernelEnd region pm root tables) {va pa mode : ℕ}
    (hva : va % pgSize = 0) (hlt : va < maxVa) (hpa : pa % pgSize = 0) (hsmall : pa < 2 ^ 56)
    (hmode : mode < 1024) (hkernel : mode &&& pteU = 0) (hnone : translate pm.mem root va = none) :
    ∃ ret pm' tables', mappages pm root va pa pgSize mode = .ok (ret, pm') ∧
      Allocates pm pm' tables tables' ∧ OnlyTables pm pm' tables tables' ∧
      Owned kernelEnd region pm' root tables' ∧
      (ret = -1 ∧ (∀ va', translate pm'.mem root va' = translate pm.mem root va') ∨
        ret = 0 ∧ ∀ va' < maxVa, translate pm'.mem root va' =
          if va' / pgSize = va / pgSize then some (pa + va' % pgSize, mode ||| pteV)
          else translate pm.mem root va') := by
  obtain ⟨ret, pm', tables', hmap, halloc, honly, hresult⟩ := @Owned.mapPage _ _ _ _ _ hown va pa mode
    hva hlt hpa hsmall hmode hnone region (fun huser => absurd hkernel huser)
    (fun page => ⟨.inl, fun h => h.elim id fun h => absurd hkernel h.1⟩)
  refine ⟨ret, pm', tables', hmap, halloc, honly, ?_⟩
  obtain ⟨rfl, -, hown', htranslate⟩ | ⟨rfl, hown', htranslate⟩ := hresult
  · exact ⟨hown', .inl ⟨rfl, htranslate⟩⟩
  · exact ⟨hown', .inr ⟨rfl, htranslate⟩⟩

/-- `uvmunmap` of such a page without freeing. -/
theorem Owned.unmapKernel (hown : Owned kernelEnd region pm root tables) {va pa flags : ℕ}
    (hva : va % pgSize = 0) (hlt : va < maxVa)
    (htranslate : translate pm.mem root va = some (pa, flags)) (hkernel : flags &&& pteU = 0)
    (hleaf : flags ≠ pteV) :
    ∃ pm', uvmunmap kernelEnd pm root va 1 false = .ok pm' ∧
      Owned kernelEnd region pm' root tables ∧ pm'.freelist = pm.freelist ∧
      (∀ x, ¬ IsTable tables (pgRoundDown x) → pm'.mem x = pm.mem x) ∧
      ∀ va' < maxVa, translate pm'.mem root va' =
        if va' / pgSize = va / pgSize then none else translate pm.mem root va' := by
  obtain ⟨leaf, hlookup, hvalid, -, rfl⟩ := lookup_of_translate htranslate
  have hnot : ∀ page, ¬ UserLeaf pm.mem tables (leaf, idx 0 va) page := fun page h =>
    pteFlags_user.mpr h.user hkernel
  have hclear : Owned kernelEnd region
      ⟨store pm.mem (leaf + 8 * idx 0 va) 8 0, pm.freelist⟩ root tables := by
    refine hown.setLeaf hlookup (by decide) (fun h => absurd h not_valid_zero) fun page => ?_
    exact ⟨fun h => .inl ⟨h, hnot page⟩, fun h => h.elim And.left fun h => absurd h.1 not_valid_zero⟩
  refine ⟨_, ?_, hclear, rfl, fun x hx => setLeaf_apply hown.tree hlookup (outside_iff.mpr hx),
    fun va' hva' => ?_⟩
  · have hstop : (va + 1 * pgSize) % 2 ^ 64 = va + pgSize := by
      simp only [maxVa, pgSize] at *
      omega
    have hrounds : (va + pgSize - va + (pgSize - 1)) / pgSize = 1 := by
      rw [Nat.add_sub_cancel_left]
      rfl
    have hread : readPte pm.mem (leaf + 8 * idx 0 va) = entry pm.mem leaf (idx 0 va) := rfl
    have hv : entry pm.mem leaf (idx 0 va) &&& pteV ≠ 0 := hvalid
    rw [uvmunmap, if_neg (not_not.mpr hva)]
    dsimp only
    rw [hstop, hrounds, unmapLoop, walk_lookup hlt, hlookup, Option.map_some]
    dsimp only
    rw [hread, if_neg hv, if_neg hleaf]
    rfl
  · rw [translate_setLeaf hown.tree hlookup hlt (by decide) hva', meaning_zero]

end Kernel

/-! ## `process_pagetable` -/

section Create

variable {kernelEnd trampolinePa trapframe : ℕ} {pm : Pm}

theorem isTable_rootOnly {root page : ℕ} : IsTable (rootOnly root) page ↔ page = root := by
  constructor
  · rintro ⟨level, -, hpage⟩
    rw [rootOnly] at hpage
    split at hpage
    · exact Set.mem_singleton_iff.mp hpage
    · exact absurd hpage (Set.notMem_empty page)
  · rintro rfl
    exact ⟨2, le_rfl, Set.mem_singleton page⟩

/-- `uvmcreate`. -/
theorem Pool.create (hpool : Pool kernelEnd pm) :
    pm.freelist = [] ∧ uvmcreate pm = (0, pm) ∨
      ∃ root pm', root ∈ pm.freelist ∧ uvmcreate pm = (root, pm') ∧
        Owned kernelEnd pm.free pm' root (rootOnly root) ∧
        Untouched pm.free pm.mem pm'.mem ∧ ∀ va, translate pm'.mem root va = none := by
  obtain ⟨mem, freelist⟩ := pm
  cases freelist with
  | nil => exact .inl ⟨rfl, rfl⟩
  | cons root rest =>
      have hzero : ∀ i < 512, entry (fill mem root 0 pgSize) root i = 0 := fun i hi =>
        entry_fill_zero hi
      have hgood := hpool.good root List.mem_cons_self
      obtain ⟨hnew, hnodup⟩ := List.nodup_cons.mp hpool.nodup
      have hnone : ∀ level slot target,
          ¬ PointsTo (fill mem root 0 pgSize) (rootOnly root level) slot target := by
        rintro level slot target ⟨hmem, hindex, hvalid, -⟩
        rw [rootOnly] at hmem
        split at hmem
        · rw [Set.mem_singleton_iff.mp hmem, hzero _ hindex] at hvalid
          exact not_valid_zero hvalid
        · exact hmem
      have hframe : ∀ page, ¬ Frame (fill mem root 0 pgSize) (rootOnly root) page :=
        fun page hpage => hpage.elim fun _ hleaf => hnone _ _ _ hleaf.points
      refine .inr ⟨root, ⟨fill mem root 0 pgSize, rest⟩, List.mem_cons_self, ?_, ?_, ?_,
        translate_rootOnly hzero⟩
      · simp only [uvmcreate, kpmalloc, fill_fill]
      · refine ⟨wellFormed_rootOnly hgood.aligned hzero, ?_, ?_, hnodup, ?_, ?_, ?_, ?_, hpool.good⟩
        · exact fun level _ slot target hpoints => absurd hpoints (hnone _ _ _)
        · exact fun slot slot' page hleaf => absurd hleaf.points (hnone _ _ _)
        · exact fun page hpage htable => hnew (isTable_rootOnly.mp htable ▸ hpage)
        · exact fun page _ => hframe page
        · exact fun page h => absurd h (hframe page)
        · intro page
          have hno : Frame (fill mem root 0 pgSize) (rootOnly root) page ↔ False :=
            iff_false_intro (hframe page)
          rw [hno, isTable_rootOnly, or_false]
          exact List.mem_cons.trans or_comm
      · intro x hx
        have hne : pgRoundDown x ≠ root := fun heq => hx (heq ▸ List.mem_cons_self)
        have haligned := hgood.aligned
        apply fill_apply_of_out
        simp only [pgRoundDown, pgSize] at *
        omega

/-- What a table maps right after `process_pagetable`. -/
def freshMap (trampolinePa trapframe va : ℕ) : Option (ℕ × ℕ) :=
  if va / pgSize = trapFrame / pgSize then
    some (trapframe + va % pgSize, pteR ||| pteW ||| pteV)
  else if va / pgSize = trampoline / pgSize then
    some (trampolinePa + va % pgSize, pteR ||| pteX ||| pteV)
  else none

/-- `process_pagetable` makes a table with the two pages of the kernel, or it gives back all that
it took. -/
theorem processPagetable_spec (hpool : Pool kernelEnd pm) (hpos : 0 < kernelEnd)
    (htramp : trampolinePa % pgSize = 0) (htramp' : trampolinePa < 2 ^ 56)
    (hframe : trapframe % pgSize = 0) (hframe' : trapframe < 2 ^ 56) :
    ∃ root pm', processPagetable kernelEnd trampolinePa pm trapframe = .ok (root, pm') ∧
      Untouched pm.free pm.mem pm'.mem ∧
      (root = 0 ∧ pm'.freelist.Nodup ∧ (∀ page, page ∈ pm'.freelist ↔ page ∈ pm.freelist) ∨
        root ≠ 0 ∧ ∃ tables, Owned kernelEnd pm.free pm' root tables ∧
          ∀ va < maxVa, translate pm'.mem root va = freshMap trampolinePa trapframe va) := by
  rw [processPagetable]
  obtain ⟨hempty, hcreate⟩ | ⟨root, pm₀, hmem, hcreate, hown₀, hsame₀, hnone₀⟩ := hpool.create
  · rw [hcreate]
    exact ⟨0, pm, rfl, fun _ _ => rfl, .inl ⟨rfl, hpool.nodup, fun _ => Iff.rfl⟩⟩
  have hroot : root ≠ 0 := by
    have hlo := (hpool.good root hmem).lo
    omega
  -- what `uvmfree` leaves in the failing branches
  have hundo : ∀ {pm₁ : Pm} {tables₁ : ℕ → Set ℕ}, Owned kernelEnd pm.free pm₁ root tables₁ →
      Untouched pm.free pm.mem pm₁.mem → ∃ pm', uvmfree kernelEnd pm₁ root = .ok pm' ∧
        Untouched pm.free pm.mem pm'.mem ∧ pm'.freelist.Nodup ∧
        ∀ page, page ∈ pm'.freelist ↔ page ∈ pm.freelist := by
    intro pm₁ tables₁ hown₁ hsame₁
    obtain ⟨pm', hfree, -, hnodup, hback, hsame'⟩ := hown₁.free
    exact ⟨pm', hfree, fun x hx => (hsame' x hx).trans (hsame₁ x hx), hnodup, hback⟩
  rw [hcreate]
  dsimp only
  rw [if_neg hroot]
  obtain ⟨ret, pm₁, tables₁, hmap, halloc₁, -, hown₁, hresult⟩ := hown₀.mapKernel
    (show trampoline % pgSize = 0 by decide) (by decide) htramp htramp'
    (show pteR ||| pteX < 1024 by decide) (by decide) (hnone₀ trampoline)
  have hsame₁ : Untouched pm.free pm.mem pm₁.mem := fun x hx =>
    (hown₀.allocates_untouched halloc₁ x hx).trans (hsame₀ x hx)
  rw [hmap]
  dsimp only
  obtain ⟨rfl, -⟩ | ⟨rfl, htranslate₁⟩ := hresult
  · obtain ⟨pm', hfree, hsame', hback⟩ := hundo hown₁ hsame₁
    rw [if_pos (by decide), hfree]
    exact ⟨0, pm', rfl, hsame', .inl ⟨rfl, hback⟩⟩
  rw [if_neg (by decide)]
  have hnone₁ : translate pm₁.mem root trapFrame = none := by
    rw [htranslate₁ trapFrame (by decide), if_neg (by decide), hnone₀]
  obtain ⟨ret, pm₂, tables₂, hmap, halloc₂, -, hown₂, hresult⟩ := hown₁.mapKernel
    (show trapFrame % pgSize = 0 by decide) (by decide) hframe hframe'
    (show pteR ||| pteW < 1024 by decide) (by decide) hnone₁
  have hsame₂ : Untouched pm.free pm.mem pm₂.mem := fun x hx =>
    (hown₁.allocates_untouched halloc₂ x hx).trans (hsame₁ x hx)
  rw [hmap]
  dsimp only
  obtain ⟨rfl, htranslate₂⟩ | ⟨rfl, htranslate₂⟩ := hresult
  · have hmapped : translate pm₂.mem root trampoline =
        some (trampolinePa + trampoline % pgSize, pteR ||| pteX ||| pteV) := by
      rw [htranslate₂, htranslate₁ trampoline (by decide), if_pos rfl]
    obtain ⟨pm₃, hunmap, hown₃, -, hsame₃, -⟩ := hown₂.unmapKernel
      (show trampoline % pgSize = 0 by decide) (by decide) hmapped (by decide) (by decide)
    obtain ⟨pm', hfree, hsame', hback⟩ := hundo hown₃ fun x hx =>
      (hsame₃ x fun h => hx (hown₂.mem_of_table h)).trans (hsame₂ x hx)
    rw [if_pos (by decide), hunmap]
    dsimp only [bind, Except.bind]
    rw [hfree]
    exact ⟨0, pm', rfl, hsame', .inl ⟨rfl, hback⟩⟩
  · rw [if_neg (by decide)]
    refine ⟨root, pm₂, rfl, hsame₂, .inr ⟨hroot, tables₂, hown₂, fun va hva => ?_⟩⟩
    rw [freshMap, htranslate₂ va hva, htranslate₁ va hva, hnone₀]

end Create

/-! ## `free_user_pagetable` -/

/-- The two pages of the kernel in a user table. -/
structure KernelPages (mem : Mem) (root trampolinePa trapframe : ℕ) : Prop where
  trampoline : translate mem root trampoline = some (trampolinePa, pteR ||| pteX ||| pteV)
  trapFrame : translate mem root trapFrame = some (trapframe, pteR ||| pteW ||| pteV)

/-- The pages of the kernel in a table are not for the user. -/
theorem notUser_of_kernelPages {mem : Mem} {root trampolinePa trapframe va : ℕ}
    (hpages : KernelPages mem root trampolinePa trapframe)
    (hva : va / pgSize = trapFrame / pgSize ∨ va / pgSize = trampoline / pgSize) :
    ¬ UserMapped mem root va := by
  rintro ⟨pa, flags, htranslate, huser⟩
  obtain hva | hva := hva
  · rw [translate_page hva.symm hpages.trapFrame] at htranslate
    obtain ⟨-, rfl⟩ := Prod.mk.inj (Option.some.inj htranslate)
    exact huser (by decide)
  · rw [translate_page hva.symm hpages.trampoline] at htranslate
    obtain ⟨-, rfl⟩ := Prod.mk.inj (Option.some.inj htranslate)
    exact huser (by decide)

section End

variable {kernelEnd root trampolinePa trapframe : ℕ} {region : Set ℕ} {pm : Pm}
  {tables : ℕ → Set ℕ}

/-- `free_user_pagetable` gives back the tables and the frames, each of them once. -/
theorem Owned.freeUserPagetable (hown : Owned kernelEnd region pm root tables)
    (hkernel : KernelPages pm.mem root trampolinePa trapframe) :
    ∃ pm' given, PageTable.freeUserPagetable kernelEnd pm root = .ok pm' ∧
      pm'.freelist = given ++ pm.freelist ∧ pm'.freelist.Nodup ∧
      (∀ page, page ∈ given ↔ IsTable tables page ∨ Frame pm.mem tables page) ∧
      (∀ page, page ∈ pm'.freelist ↔ page ∈ region) ∧ Untouched region pm.mem pm'.mem := by
  obtain ⟨pm₁, hunmap₁, hown₁, hfree₁, hsame₁, htranslate₁⟩ := hown.unmapKernel
    (show PageTable.trampoline % pgSize = 0 by decide) (by decide) hkernel.trampoline (by decide)
    (by decide)
  have hmapped : translate pm₁.mem root PageTable.trapFrame =
      some (trapframe, pteR ||| pteW ||| pteV) := by
    rw [htranslate₁ _ (by decide), if_neg (by decide)]
    exact hkernel.trapFrame
  obtain ⟨pm₂, hunmap₂, hown₂, hfree₂, hsame₂, -⟩ := hown₁.unmapKernel
    (show PageTable.trapFrame % pgSize = 0 by decide) (by decide) hmapped (by decide) (by decide)
  obtain ⟨pm', hfree, hlist, hnodup, hback, hsame'⟩ := hown₂.free
  have hlist' : pm'.freelist = (pagesBelow pm₂.mem 2 root).reverse ++ pm.freelist := by
    rw [hlist, hfree₂, hfree₁]
  refine ⟨pm', _, ?_, hlist', hnodup, fun page => ?_, hback, fun x hx => ?_⟩
  · rw [PageTable.freeUserPagetable, hunmap₁]
    dsimp only [bind, Except.bind]
    rw [hunmap₂]
    exact hfree
  · -- both say: a page of the region that was not free
    have hdisjoint := (List.nodup_append.mp (hlist' ▸ hnodup)).2.2
    have hnew := hback page
    have hold := hown.region_iff page
    rw [hlist', List.mem_append] at hnew
    constructor
    · intro hgiven
      have hbusy : page ∉ pm.freelist := fun h => hdisjoint page hgiven page h rfl
      exact (hold.mp (hnew.mp (.inl hgiven))).resolve_left hbusy
    · intro howned
      refine (hnew.mpr (hold.mpr (.inr howned))).resolve_right fun h => ?_
      exact howned.elim (hown.freeTable page h) (hown.freeFrame page h)
  · have hnot : ¬ IsTable tables (pgRoundDown x) := fun h => hx (hown.mem_of_table h)
    exact (hsame' x hx).trans ((hsame₂ x hnot).trans (hsame₁ x hnot))

end End

/-! ## Runs -/

/-- The state of a run: memory, the pages that `kpmalloc` has handed out for the table and that are
not freed, and those that others have taken from the same pool. -/
structure Life where
  pm : Pm
  held : Set ℕ
  others : List ℕ

/-- The operations on the table, and what others do to the pool and to memory. -/
inductive Change
  | uvmalloc (oldsz newsz xperm : ℕ)
  | setupStack
  | uvmcopy (old sz : ℕ)
  | uvmdealloc (oldsz newsz : ℕ)
  | kpmalloc
  | kpmfree (page : ℕ)
  | write (mem : Mem)

/-- The state after an operation on the table. -/
def Life.became (life : Life) (pm : Pm) : Life :=
  ⟨pm, {page | (page ∈ life.held ∨ page ∈ life.pm.freelist) ∧ page ∉ pm.freelist}, life.others⟩

def Life.next (kernelEnd root : ℕ) (life : Life) : Change → Except Panic Life
  | .uvmalloc oldsz newsz xperm =>
      (PageTable.uvmalloc kernelEnd life.pm root oldsz newsz xperm).map fun r => life.became r.2
  | .setupStack => (PageTable.setupStack kernelEnd life.pm root).map fun r => life.became r.2
  | .uvmcopy old sz => (PageTable.uvmcopy kernelEnd life.pm old root sz).map fun r => life.became r.2
  | .uvmdealloc oldsz newsz =>
      (PageTable.uvmdealloc kernelEnd life.pm root oldsz newsz).map fun r => life.became r.2
  | .kpmalloc =>
      match PageTable.kpmalloc life.pm with
      | (none, pm) => .ok ⟨pm, life.held, life.others⟩
      | (some page, pm) => .ok ⟨pm, life.held, page :: life.others⟩
  | .kpmfree page =>
      (PageTable.kpmfree kernelEnd life.pm page).map fun pm =>
        ⟨pm, life.held, life.others.erase page⟩
  | .write mem => .ok ⟨⟨mem, life.pm.freelist⟩, life.held, life.others⟩

/-- The table's pages with the free ones. -/
def Life.region (life : Life) : Set ℕ := {page | page ∈ life.held ∨ page ∈ life.pm.freelist}

/-- The targets of the allocating operations are not mapped and lie below `TRAPFRAME`, a copied
table belongs to somebody else, a freed range is mapped, and others keep to their own pages. -/
def Life.Allows (root : ℕ) (life : Life) : Change → Prop
  | .uvmalloc oldsz newsz xperm => xperm < 1024 ∧ newsz ≤ trapFrame ∧
      ∀ va, pgRoundUp oldsz ≤ va → va < pgRoundUp newsz → translate life.pm.mem root va = none
  | .setupStack => translate life.pm.mem root (ustack - pgSize) = none
  | .uvmcopy old sz => sz ≤ trapFrame ∧ (∃ tables, Apart life.pm.mem life.region old tables) ∧
      ∀ va < pgRoundUp sz, UserMapped life.pm.mem old va → translate life.pm.mem root va = none
  | .uvmdealloc oldsz newsz => oldsz ≤ trapFrame ∧ ∀ va, pgRoundUp newsz ≤ va →
      va < pgRoundUp oldsz → newsz < oldsz → translate life.pm.mem root va ≠ none
  | .kpmalloc => True
  | .kpmfree page => page ∈ life.others
  | .write mem => ∀ tables, WellFormed life.pm.mem root tables →
      ∀ x, ¬ Outside tables x → mem x = life.pm.mem x

def Life.Step (kernelEnd root : ℕ) (before : Life) (change : Change) (after : Life) : Prop :=
  before.next kernelEnd root change = .ok after

/-- The start: from `pm₀` to `pm` the table has been made. -/
def Life.start (pm₀ pm : Pm) : Life := ⟨pm, {page | page ∈ pm₀.freelist ∧ page ∉ pm.freelist}, []⟩

/-- The invariant of the run of a table that was made with the pages of `pool` free. -/
structure Life.Inv (kernelEnd root trampolinePa trapframe : ℕ) (pool : Set ℕ) (life : Life) :
    Prop where
  own : ∃ tables, Owned kernelEnd life.region life.pm root tables
  kernel : KernelPages life.pm.mem root trampolinePa trapframe
  user : ∀ va < trapFrame, translate life.pm.mem root va ≠ none → UserMapped life.pm.mem root va
  busy : ∀ page ∈ life.held, page ∉ life.pm.freelist
  others : life.others.Nodup
  apart : ∀ page ∈ life.others, page ∉ life.region
  whole : ∀ page, page ∈ pool ↔ page ∈ life.region ∨ page ∈ life.others
  good : ∀ page ∈ pool, Allocatable kernelEnd page

section Run

variable {kernelEnd root trampolinePa trapframe : ℕ} {pool : Set ℕ} {life : Life}

/-- An operation on the table that keeps its pages and what it maps above. -/
theorem Life.Inv.became (hinv : life.Inv kernelEnd root trampolinePa trapframe pool) {pm : Pm}
    {tables : ℕ → Set ℕ} (hown : Owned kernelEnd life.region pm root tables)
    (hkernel : ∀ va < maxVa, trapFrame ≤ va →
      translate pm.mem root va = translate life.pm.mem root va)
    (huser : ∀ va < trapFrame, translate pm.mem root va = translate life.pm.mem root va ∨
      translate pm.mem root va = none ∨ UserMapped pm.mem root va) :
    (life.became pm).Inv kernelEnd root trampolinePa trapframe pool := by
  have hregion : (life.became pm).region = life.region := by
    ext page
    constructor
    · rintro (⟨hold, -⟩ | hfree)
      · exact hold
      · exact hown.mem_of_free hfree
    · intro hold
      by_cases hfree : page ∈ pm.freelist
      · exact .inr hfree
      · exact .inl ⟨hold, hfree⟩
  refine ⟨⟨tables, hregion ▸ hown⟩, ⟨?_, ?_⟩, fun va hva hmapped => ?_, fun page hpage => hpage.2,
    hinv.others, ?_, ?_, hinv.good⟩
  · exact (hkernel _ (by decide) (by decide)).trans hinv.kernel.trampoline
  · exact (hkernel _ (by decide) le_rfl).trans hinv.kernel.trapFrame
  · obtain hsame | hnone | hnew := huser va hva
    · have hold := hinv.user va hva fun h => hmapped (hsame.trans h)
      rwa [UserMapped, ← hsame] at hold
    · exact absurd hnone hmapped
    · exact hnew
  · rw [hregion]
    exact hinv.apart
  · rw [hregion]
    exact hinv.whole

/-- A change of the pool or of memory that is not one of the table. -/
theorem Life.Inv.other (hinv : life.Inv kernelEnd root trampolinePa trapframe pool) {after : Life}
    {tables : ℕ → Set ℕ} (hown : Owned kernelEnd after.region after.pm root tables)
    (htranslate : ∀ va, translate after.pm.mem root va = translate life.pm.mem root va)
    (hbusy : ∀ page ∈ after.held, page ∉ after.pm.freelist) (hnodup : after.others.Nodup)
    (hapart : ∀ page ∈ after.others, page ∉ after.region)
    (hpool : ∀ page, page ∈ after.region ∨ page ∈ after.others ↔
      page ∈ life.region ∨ page ∈ life.others) :
    after.Inv kernelEnd root trampolinePa trapframe pool := by
  refine ⟨⟨tables, hown⟩, ⟨?_, ?_⟩, fun va hva hmapped => ?_, hbusy, hnodup, hapart,
    fun page => (hinv.whole page).trans (hpool page).symm, hinv.good⟩
  · exact (htranslate _).trans hinv.kernel.trampoline
  · exact (htranslate _).trans hinv.kernel.trapFrame
  · have hold := hinv.user va hva fun h => hmapped ((htranslate va).trans h)
    rwa [UserMapped, ← htranslate va] at hold

theorem pgRoundUp_trapFrame {sz : ℕ} (hsz : sz ≤ trapFrame) : pgRoundUp sz ≤ trapFrame := by
  rw [pgRoundUp_eq (hsz.trans (by decide))]
  simp only [trapFrame, trampoline, maxVa, pgSize] at *
  omega

/-- Every step that is allowed succeeds and keeps the invariant. -/
theorem Life.Inv.step (hinv : life.Inv kernelEnd root trampolinePa trapframe pool)
    {change : Change} (hallows : life.Allows root change) :
    ∃ after, life.next kernelEnd root change = .ok after ∧
      after.Inv kernelEnd root trampolinePa trapframe pool := by
  obtain ⟨tables, hown⟩ := hinv.own
  have hbound : trapFrame ≤ maxVa := by decide
  cases change with
  | uvmalloc oldsz newsz xperm =>
      obtain ⟨hxperm, hnew, hnone⟩ := hallows
      have hup := pgRoundUp_trapFrame hnew
      obtain ⟨ret, pm, tables', halloc, hresult⟩ := hown.alloc hxperm (hnew.trans hbound) hnone
      refine ⟨life.became pm, by rw [Life.next, halloc]; rfl, ?_⟩
      obtain ⟨-, -, rfl, rfl⟩ | ⟨-, -, hown', -, hzero, hsame⟩ | ⟨-, -, hundone, -⟩ :=
        hresult
      · exact hinv.became hown (fun _ _ _ => rfl) fun _ _ => .inl rfl
      · refine hinv.became hown' (fun va hva hlo => hsame va hva (by omega)) fun va hva => ?_
        by_cases hin : pgRoundUp oldsz ≤ va ∧ va < pgRoundUp newsz
        · obtain ⟨page, -, -, htranslate, -⟩ := hzero va hin.1 hin.2
          exact .inr (.inr ⟨_, _, htranslate, user_flags (user_mode xperm)⟩)
        · exact .inl (hsame va (by omega) (by omega))
      · exact hinv.became hundone.own (fun va hva _ => hundone.same va hva) fun va hva =>
          .inl (hundone.same va (by omega))
  | setupStack =>
      obtain ⟨sp, pm, tables', hstack, hresult⟩ := hown.stack hallows
      have htop : ustack = trapFrame - pgSize := rfl
      refine ⟨life.became pm, by rw [Life.next, hstack]; rfl, ?_⟩
      obtain ⟨-, hown', -, ⟨page, -, -, hmapped⟩, hsame⟩ | ⟨-, hundone⟩ := hresult
      · refine hinv.became hown' (fun va hva hlo => hsame va hva (by omega)) fun va hva => ?_
        by_cases hin : ustack - pgSize ≤ va ∧ va < ustack
        · exact .inr (.inr ⟨_, _, hmapped va hin.1 hin.2, by decide⟩)
        · exact .inl (hsame va (by omega) (by omega))
      · exact hinv.became hundone.own (fun va hva _ => hundone.same va hva) fun va hva =>
          .inl (hundone.same va (by omega))
  | uvmcopy old sz =>
      obtain ⟨hsz, ⟨oldTables, hapart⟩, hnone⟩ := hallows
      have hup := pgRoundUp_trapFrame hsz
      obtain ⟨ret, pm, tables', hcopy, hown', -, habove, hchanged, -⟩ :=
        hown.copy hapart (hsz.trans hbound) hnone
      refine ⟨life.became pm, by rw [Life.next, hcopy]; rfl, ?_⟩
      exact hinv.became hown' (fun va hva hlo => habove va hva (by omega)) fun va hva =>
        (hchanged va (by omega)).imp_right fun h => .inr h.2
  | uvmdealloc oldsz newsz =>
      obtain ⟨hold, hmapped⟩ := hallows
      have hup := pgRoundUp_trapFrame hold
      obtain ⟨pm, hdealloc, hown', -, -, htranslate⟩ := hown.dealloc (hold.trans hbound)
        fun va hlo hhi hlt => hinv.user va (by omega) (hmapped va hlo hhi hlt)
      refine ⟨life.became pm, by rw [Life.next, hdealloc]; rfl, ?_⟩
      refine hinv.became hown' (fun va hva hlo => ?_) fun va hva => ?_
      · rw [htranslate va hva, if_neg (by omega)]
      · rw [htranslate va (by omega)]
        split
        · exact .inr (.inl rfl)
        · exact .inl rfl
  | kpmalloc =>
      obtain ⟨⟨mem, freelist⟩, held, others⟩ := life
      cases freelist with
      | nil => exact ⟨_, rfl, hinv⟩
      | cons page rest =>
          obtain ⟨htake, hpage, htable⟩ := hown.take
          obtain ⟨hnew, hnodup⟩ := List.nodup_cons.mp hown.nodup
          have haligned := (hown.good page hpage).aligned
          have hregion : Life.region ⟨⟨fill mem page 5 pgSize, rest⟩, held, page :: others⟩ =
              Life.region ⟨⟨mem, page :: rest⟩, held, others⟩ \ {page} := by
            ext other
            simp only [Life.region, Set.mem_sdiff, Set.mem_ofPred_eq, Set.mem_singleton_iff,
              List.mem_cons]
            constructor
            · rintro (hheld | hfree)
              · exact ⟨.inl hheld, fun heq => hinv.busy other hheld (heq ▸ List.mem_cons_self)⟩
              · exact ⟨.inr (.inr hfree), fun heq => hnew (heq ▸ hfree)⟩
            · rintro ⟨hheld | rfl | hfree, hne⟩
              · exact .inl hheld
              · exact absurd rfl hne
              · exact .inr hfree
          refine ⟨_, rfl, hinv.other (hregion ▸ htake) ?_ ?_ ?_ ?_ ?_⟩
          · exact hown.tree.translate_frame fun x hx => fill_outside 5 haligned htable hx
          · exact fun other hheld hfree => hinv.busy other hheld (List.mem_cons_of_mem _ hfree)
          · exact List.nodup_cons.mpr ⟨fun h => hinv.apart page h hpage, hinv.others⟩
          · intro other hother hin
            rw [hregion] at hin
            obtain rfl | hother := List.mem_cons.mp hother
            · exact hin.2 rfl
            · exact hinv.apart other hother hin.1
          · intro other
            rw [hregion, Set.mem_sdiff, Set.mem_singleton_iff, List.mem_cons]
            constructor
            · rintro (⟨hin, -⟩ | rfl | hin)
              · exact .inl hin
              · exact .inl hpage
              · exact .inr hin
            · rintro (hin | hin)
              · by_cases heq : other = page
                · exact .inr (.inl heq)
                · exact .inl ⟨hin, heq⟩
              · exact .inr (.inr hin)
  | kpmfree page =>
      have hpage : page ∈ life.others := hallows
      have hnot := hinv.apart page hpage
      have hgood := hinv.good page ((hinv.whole page).mpr (.inr hpage))
      obtain ⟨mem', hfree, hown', hsame⟩ := hown.giveBack hgood hnot
      have htable : ¬ IsTable tables page := fun h => hnot (hown.mem_of_table h)
      have hregion : Life.region ⟨⟨mem', page :: life.pm.freelist⟩, life.held,
          life.others.erase page⟩ = insert page life.region := by
        ext other
        simp only [Life.region, Set.mem_insert_iff, Set.mem_ofPred_eq, List.mem_cons]
        exact or_left_comm
      refine ⟨_, by rw [Life.next, hfree]; rfl, hinv.other (hregion ▸ hown') ?_ ?_ ?_ ?_ ?_⟩
      · exact hown.tree.translate_frame fun x hx => hsame x fun heq =>
          hx (outside_iff.mpr (heq ▸ htable))
      · intro other hheld hfree'
        obtain rfl | hfree' := List.mem_cons.mp hfree'
        · exact hnot (.inl hheld)
        · exact hinv.busy other hheld hfree'
      · exact hinv.others.erase page
      · intro other hother hin
        rw [hregion] at hin
        obtain ⟨hne, hother⟩ := (hinv.others.mem_erase_iff).mp hother
        obtain heq | hin := Set.mem_insert_iff.mp hin
        · exact hne heq
        · exact hinv.apart other hother hin
      · intro other
        rw [hregion, Set.mem_insert_iff, hinv.others.mem_erase_iff]
        constructor
        · rintro ((rfl | hin) | ⟨-, hin⟩)
          · exact .inr hpage
          · exact .inl hin
          · exact .inr hin
        · rintro (hin | hin)
          · exact .inl (.inr hin)
          · by_cases heq : other = page
            · exact .inl (.inl heq)
            · exact .inr ⟨heq, hin⟩
  | write mem =>
      have hsame := hallows tables hown.tree
      have hown' : Owned kernelEnd (Life.region ⟨⟨mem, life.pm.freelist⟩, life.held, life.others⟩)
          ⟨mem, life.pm.freelist⟩ root tables := hown.write hsame
      exact ⟨_, rfl, hinv.other hown' (hown.tree.translate_frame hsame) hinv.busy hinv.others
        hinv.apart fun _ => Iff.rfl⟩

end Run

/-- The kernel's own pages are not in the pool. -/
structure Boot (kernelEnd trampolinePa trapframe : ℕ) (pm : Pm) : Prop where
  pool : Pool kernelEnd pm
  pos : 0 < kernelEnd
  below : kernelEnd ≤ physTop
  aligned : trampolinePa % pgSize = 0
  text : trampolinePa < kernelEnd
  frame : Allocatable kernelEnd trapframe
  taken : trapframe ∉ pm.freelist

section Conservation

variable {kernelEnd root trampolinePa trapframe : ℕ} {pm₀ pm : Pm} {life : Life}

/-- The invariant holds of a table that `process_pagetable` has made. -/
theorem Boot.inv (hboot : Boot kernelEnd trampolinePa trapframe pm₀)
    (hcreate : processPagetable kernelEnd trampolinePa pm₀ trapframe = .ok (root, pm))
    (hroot : root ≠ 0) :
    (Life.start pm₀ pm).Inv kernelEnd root trampolinePa trapframe pm₀.free := by
  have hsmall : trampolinePa < 2 ^ 56 :=
    (hboot.text.trans_le hboot.below).trans (by decide)
  obtain ⟨root', pm', hcreate', -, hresult⟩ := processPagetable_spec hboot.pool hboot.pos
    hboot.aligned hsmall hboot.frame.aligned hboot.frame.small
  rw [hcreate] at hcreate'
  obtain ⟨rfl, rfl⟩ := Prod.mk.injEq .. ▸ Except.ok.inj hcreate'
  obtain ⟨hzero, -⟩ | ⟨-, tables, hown, htranslate⟩ := hresult
  · exact absurd hzero hroot
  have hregion : (Life.start pm₀ pm).region = pm₀.free := by
    ext page
    constructor
    · rintro (⟨hold, -⟩ | hfree)
      · exact hold
      · exact hown.mem_of_free hfree
    · intro hold
      by_cases hfree : page ∈ pm.freelist
      · exact .inr hfree
      · exact .inl ⟨hold, hfree⟩
  refine ⟨⟨tables, hregion ▸ hown⟩, ⟨?_, ?_⟩, fun va hva hmapped => ?_, fun page hpage => hpage.2,
    List.nodup_nil, fun page hpage => absurd hpage List.not_mem_nil, fun page => ?_,
    hboot.pool.good⟩
  · rw [Life.start, htranslate _ (by decide), freshMap, if_neg (by decide), if_pos rfl]
    rfl
  · rw [Life.start, htranslate _ (by decide), freshMap, if_pos rfl]
    rfl
  · refine absurd ?_ hmapped
    rw [Life.start, htranslate va (hva.trans (by decide)), freshMap, if_neg, if_neg]
    all_goals
      simp only [trapFrame, trampoline, maxVa, pgSize] at *
      omega
  · rw [hregion]
    exact (or_iff_left List.not_mem_nil).symm

/-- In every run of a table that `process_pagetable` has made no operation panics, and
`free_user_pagetable` gives back exactly the pages that were handed out for the table, each of
them once: its tables and the frames of the user.  With the pages that others hold, the pool is
then as before. -/
theorem freeUserPagetable_conserves (hboot : Boot kernelEnd trampolinePa trapframe pm₀)
    (hcreate : processPagetable kernelEnd trampolinePa pm₀ trapframe = .ok (root, pm))
    (hroot : root ≠ 0)
    (hreach : Reach (Life.Step kernelEnd root) (Life.Allows root) (Life.start pm₀ pm) life) :
    (∀ change, life.Allows root change → ∃ after, life.next kernelEnd root change = .ok after) ∧
      ∃ pm' given tables, freeUserPagetable kernelEnd life.pm root = .ok pm' ∧
        pm'.freelist = given ++ life.pm.freelist ∧ pm'.freelist.Nodup ∧
        (∀ page, page ∈ given ↔ page ∈ life.held) ∧ WellFormed life.pm.mem root tables ∧
        (∀ page, page ∈ given ↔ IsTable tables page ∨ Frame life.pm.mem tables page) ∧
        trampolinePa ∉ given ∧ trapframe ∉ given ∧
        (∀ page, page ∈ pm'.freelist ∨ page ∈ life.others ↔ page ∈ pm₀.freelist) ∧
        ∀ page ∈ pm'.freelist, page ∉ life.others := by
  have hinv : life.Inv kernelEnd root trampolinePa trapframe pm₀.free :=
    hreach.invariant (hboot.inv hcreate hroot) fun before change after hinv hallows hstep => by
      obtain ⟨after', hnext, hinv'⟩ := hinv.step hallows
      obtain rfl := Except.ok.inj (hstep.symm.trans hnext)
      exact hinv'
  refine ⟨fun change hallows => ?_, ?_⟩
  · obtain ⟨after, hnext, -⟩ := hinv.step hallows
    exact ⟨after, hnext⟩
  obtain ⟨tables, hown⟩ := hinv.own
  obtain ⟨pm', given, hfree, hlist, hnodup, hgiven, hback, -⟩ := hown.freeUserPagetable hinv.kernel
  have hheld : ∀ page, page ∈ given ↔ page ∈ life.held := by
    intro page
    have hdisjoint := (List.nodup_append.mp (hlist ▸ hnodup)).2.2
    have hpage := hback page
    rw [hlist, List.mem_append] at hpage
    constructor
    · intro hin
      exact (hpage.mp (.inl hin)).resolve_right fun h => hdisjoint page hin page h rfl
    · intro hin
      exact (hpage.mpr (.inl hin)).resolve_right (hinv.busy page hin)
  have hpool : ∀ page ∈ given, page ∈ pm₀.freelist := fun page hpage =>
    (hinv.whole page).mpr (.inl (.inl ((hheld page).mp hpage)))
  refine ⟨pm', given, tables, hfree, hlist, hnodup, hheld, hown.tree, hgiven, fun h => ?_,
    fun h => hboot.taken (hpool _ h), fun page => ?_, fun page hpage hother => ?_⟩
  · have hlo := (hboot.pool.good _ (hpool _ h)).lo
    exact absurd hboot.text (not_lt.mpr hlo)
  · rw [hback]
    exact (hinv.whole page).symm
  · exact hinv.apart page hother ((hback page).mp hpage)

end Conservation

/-- Zeroed memory with seven free pages. -/
def sevenPages : Pm :=
  ⟨fun _ => 0, [0x80301000, 0x80302000, 0x80303000, 0x80304000, 0x80305000, 0x80306000, 0x80307000]⟩

theorem boot_sevenPages : Boot 0x80300000 0x80201000 0x80400000 sevenPages := by
  refine ⟨⟨by decide, ?_⟩, by decide, by decide, by decide, by decide,
    ⟨by decide, by decide, by decide⟩, by decide⟩
  intro page hpage
  have hall : ∀ page ∈ sevenPages.freelist,
      page % pgSize = 0 ∧ 0x80300000 ≤ page ∧ page < physTop := by decide
  obtain ⟨haligned, hlo, hhi⟩ := hall page hpage
  exact ⟨haligned, hlo, hhi⟩

/-- The first of them becomes the root of a new table. -/
theorem processPagetable_sevenPages : ∃ pm,
    processPagetable 0x80300000 0x80201000 sevenPages 0x80400000 = .ok (0x80301000, pm) ∧
      ∀ va < maxVa, translate pm.mem 0x80301000 va = freshMap 0x80201000 0x80400000 va := by
  have hboot := boot_sevenPages
  obtain ⟨root, pm, hcreate, -, hresult⟩ := processPagetable_spec hboot.pool hboot.pos
    hboot.aligned (show 0x80201000 < 2 ^ 56 by decide) hboot.frame.aligned hboot.frame.small
  have hroot : root = 0x80301000 := by
    have hcode : (processPagetable 0x80300000 0x80201000 sevenPages 0x80400000).toOption.map
        Prod.fst = some 0x80301000 := by decide +kernel
    rw [hcreate] at hcode
    exact Option.some.inj hcode
  subst hroot
  obtain ⟨hzero, -⟩ | ⟨-, tables, -, htranslate⟩ := hresult
  · exact absurd hzero (by decide)
  · exact ⟨pm, hcreate, htranslate⟩

/-- A table with a stack, freed again. -/
theorem freeUserPagetable_conserves_stack : ∃ pm life pm',
    processPagetable 0x80300000 0x80201000 sevenPages 0x80400000 = .ok (0x80301000, pm) ∧
    Reach (Life.Step 0x80300000 0x80301000) (Life.Allows 0x80301000) (Life.start sevenPages pm) life ∧
    freeUserPagetable 0x80300000 life.pm 0x80301000 = .ok pm' ∧
    ∀ page, page ∈ pm'.freelist ↔ page ∈ sevenPages.freelist := by
  obtain ⟨pm, hcreate, htranslate⟩ := processPagetable_sevenPages
  have hne : 0x80301000 ≠ 0 := by decide
  have hallows : (Life.start sevenPages pm).Allows 0x80301000 .setupStack :=
    (htranslate (ustack - pgSize) (by decide)).trans (by decide)
  obtain ⟨life, hnext⟩ :=
    (freeUserPagetable_conserves boot_sevenPages hcreate hne .refl).1 _ hallows
  have hreach : Reach (Life.Step 0x80300000 0x80301000) (Life.Allows 0x80301000)
      (Life.start sevenPages pm) life := Reach.refl.tail hallows hnext
  obtain ⟨-, pm', given, tables', hfree, -, -, -, -, -, -, -, hback, -⟩ :=
    freeUserPagetable_conserves boot_sevenPages hcreate hne hreach
  refine ⟨pm, life, pm', hcreate, hreach, hfree, fun page => ?_⟩
  have hothers : life.others = [] := by
    rw [Life.next] at hnext
    cases hstack : setupStack 0x80300000 (Life.start sevenPages pm).pm 0x80301000 with
    | error panic =>
        rw [hstack] at hnext
        cases hnext
    | ok result =>
        rw [hstack] at hnext
        obtain rfl := Except.ok.inj hnext
        rfl
  rw [← hback, hothers]
  exact (or_iff_left List.not_mem_nil).symm

end Painting.PageTable
