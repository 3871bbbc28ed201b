import Painting.Mm.SlabRunsInvariant
import Painting.Mm.TableCount
import Painting.Proc.Kernel

/-!
# The resources of a new process

`process_create` takes a structure, a page for the trapframe, a kernel stack, a process number, a
mapping for the stack and a user page table, in this order.  It unwinds correctly when there is no
trapframe page.  Later failures end in a panic of `kpmfree`, or go unnoticed.
-/

namespace Painting.Process

open Painting.Memory Painting.PageTable

/-! ## What the kernel relies on -/

structure Image.Ok (image : Image) : Prop where
  kernelEnd : 0 < image.kernelEnd
  aligned : image.trampolinePa % pgSize = 0
  small : image.trampolinePa < 2 ^ 56
  rounds : 0 < image.rounds

/-- The kernel's page table is a tree on its own pages; it maps the trampoline, and no kernel stack
of a free process number. -/
structure TableOk (image : Image) (k : Kernel) (region : Set ℕ) (tables : ℕ → Set ℕ) : Prop where
  owned : Owned image.kernelEnd region k.pm k.kernelPagetable tables
  trampoline : ∃ frame, translate k.pm.mem k.kernelPagetable trampoline = some frame
  kstacks : ∀ pid < maxPid, ¬ Bitmap.Marked k.pidBitmap pid →
    translate k.pm.mem k.kernelPagetable (kstackVa pid) = none

/-- Besides, the slab pages of processes are in order, and not free. -/
structure KernelOk (image : Image) (k : Kernel) (region : Set ℕ) (tables : ℕ → Set ℕ)
    (pages : List ℕ) : Prop where
  symbols : image.Ok
  table : TableOk image k region tables
  slab : Slab.CacheOk Slab.procMode k.procCache pages
  apart : ∀ page ∈ k.pm.freelist, page + 24 ∉ pages

/-! ## What `process_create` should do -/

/-- Nothing has changed but contents of free pages and objects, and tables of the kernel. -/
structure Restored (k k' : Kernel) (tables : ℕ → Set ℕ) (pages : List ℕ) : Prop where
  newest : k'.procCache.heapList = k.procCache.heapList
  bitmaps : ∀ list ∈ pages, ∀ i < 128,
    (Slab.Taken k'.procCache.mem list i ↔ Slab.Taken k.procCache.mem list i)
  free : ∃ tables', WellFormed k'.pm.mem k.kernelPagetable tables' ∧ ∀ page,
    page ∈ k'.pm.freelist ∨ IsTable tables' page ↔ page ∈ k.pm.freelist ∨ IsTable tables page
  pids : k'.pidBitmap = k.pidBitmap
  translations : ∀ va < maxVa,
    translate k'.pm.mem k.kernelPagetable va = translate k.pm.mem k.kernelPagetable va
  list : k'.processList = k.processList

/-- The resources of the process `p` besides its structure. -/
structure Equipped (image : Image) (k k' : Kernel) (p : ℕ) : Prop where
  trapframe : (k'.procs p).trapframe ∈ k.pm.freelist ∧ (k'.procs p).trapframe ∉ k'.pm.freelist
  kstack : ∃ kstack ∈ k.pm.freelist, kstack ∉ k'.pm.freelist ∧
    kstack ≠ (k'.procs p).trapframe ∧
    translate k'.pm.mem k.kernelPagetable (k'.procs p).kstack =
      some (kstack, pteR ||| pteW ||| pteV)
  pid : ∃ pid : ℕ, pid < maxPid ∧ (k'.procs p).pid = pid ∧ ¬ Bitmap.Marked k.pidBitmap pid ∧
    Bitmap.Marked k'.pidBitmap pid ∧ (k'.procs p).kstack = kstackVa pid
  pagetable : (k'.procs p).pagetable ≠ 0 ∧
    (∃ tables', WellFormed k'.pm.mem (k'.procs p).pagetable tables') ∧
    ∀ va < maxVa, translate k'.pm.mem (k'.procs p).pagetable va =
      freshMap image.trampolinePa (k'.procs p).trapframe va

/-- All six resources of the process `p` are there. -/
structure Created (image : Image) (k k' : Kernel) (p : ℕ) (pages : List ℕ) : Prop where
  object : p ≠ 0 ∧ ¬ Slab.InUse Slab.procMode k.procCache.mem pages p ∧
    ∃ pages', Slab.CacheOk Slab.procMode k'.procCache pages' ∧
      Slab.InUse Slab.procMode k'.procCache.mem pages' p
  equipped : Equipped image k k' p

/-- `process_create` returns `NULL` and restores the resources, or returns a process that has all of
them. -/
def CreatesOrRestores (image : Image) (k : Kernel) (cur : ℕ) (tables : ℕ → Set ℕ)
    (pages : List ℕ) : Prop :=
  (∃ k', processCreate image k cur = .ok (0, k') ∧ Restored k k' tables pages) ∨
    ∃ p k', processCreate image k cur = .ok (p, k') ∧ Created image k k' p pages

/-- The newest slab page has a clear bit. -/
def NewestRoom (k : Kernel) : Prop :=
  ∃ i < 128, ¬ Slab.Taken k.procCache.mem k.procCache.heapList i

/-- A process number is free, and there are pages for the trapframe, the stack, the tables that map
it and the three tables of the process, with `extra` more. -/
def Enough (k : Kernel) (extra : ℕ) : Prop :=
  ∃ pid, Bitmap.firstClear k.pidBitmap 0 maxPid = some pid ∧
    5 + missing k.pm.mem (kstackVa pid) 2 k.kernelPagetable + extra ≤ k.pm.freelist.length

/-! ## After the structure is allocated -/

theorem kstackVa_eq {pid : ℕ} (hpid : pid < maxPid) :
    kstackVa pid = trampoline - (pid + 1) * 2 * pgSize := by
  simp only [kstackVa, trampoline, maxVa, pgSize, maxPid] at *
  omega

theorem kstackVa_aligned {pid : ℕ} (hpid : pid < maxPid) : kstackVa pid % pgSize = 0 := by
  rw [kstackVa_eq hpid]
  simp only [trampoline, maxVa, pgSize, maxPid] at *
  omega

theorem kstackVa_lt {pid : ℕ} (hpid : pid < maxPid) : kstackVa pid < maxVa := by
  rw [kstackVa_eq hpid]
  simp only [trampoline, maxVa, pgSize, maxPid] at *
  omega

/-- `pid_alloc` returns a free number, or -1. -/
theorem pidAlloc_some {k : Kernel} {pid : ℕ}
    (hpid : Bitmap.firstClear k.pidBitmap 0 maxPid = some pid) :
    pidAlloc k = ((pid : ℤ), { k with pidBitmap := Bitmap.mark k.pidBitmap pid }) := by
  rw [pidAlloc, hpid]

theorem pidAlloc_none {k : Kernel} (hpid : Bitmap.firstClear k.pidBitmap 0 maxPid = none) :
    pidAlloc k = (-1, k) := by
  rw [pidAlloc, hpid]

section Tables

variable {kernelEnd root : ℕ} {region : Set ℕ} {tables : ℕ → Set ℕ} {mem : Mem} {page : ℕ}
  {rest : List ℕ}

/-- A page in hand is not part of the tree. -/
theorem take_same (hown : Owned kernelEnd region ⟨mem, page :: rest⟩ root tables) :
    (∀ va, translate (fill mem page 5 pgSize) root va = translate mem root va) ∧
      ∀ va, missing (fill mem page 5 pgSize) va 2 root = missing mem va 2 root := by
  have hgood := hown.good page (hown.mem_of_free List.mem_cons_self)
  have hsame : ∀ x, ¬ Outside tables x → fill mem page 5 pgSize x = mem x := fun x hx =>
    fill_outside 5 hgood.aligned (hown.freeTable page List.mem_cons_self) hx
  exact ⟨hown.tree.translate_frame hsame,
    fun va => hown.tree.missing_frame hsame va le_rfl hown.tree.root_mem⟩

theorem pool_of_owned {pm : Pm} (hown : Owned kernelEnd region pm root tables) :
    Pool kernelEnd pm :=
  ⟨hown.nodup, fun page hpage => hown.good page (hown.mem_of_free hpage)⟩

end Tables

/-- `kpmfree` of an object panics. -/
theorem kpmfree_object (kernelEnd : ℕ) (pm : Pm) {p : ℕ} (hp : p % pgSize ≠ 0) :
    kpmfree kernelEnd pm p = .error .kpmfree := by
  rw [kpmfree, if_pos (.inl hp)]

section With

variable {image : Image} {k : Kernel} {region : Set ℕ} {tables : ℕ → Set ℕ} {cur p : ℕ}

/-- Without a page for the trapframe the structure is freed. -/
theorem createWith_nil (hempty : k.pm.freelist = []) :
    createWith image k cur p =
      ((k.setProc p fun proc => { proc with trapframe := 0 }).kfreeProc image p).map
        fun k => (0, k) := by
  have hnone : kpmalloc k.pm = (none, k.pm) := by
    rw [kpmalloc, hempty]
  rw [createWith, hnone]
  rfl

/-- Without a page for the stack `kpmfree` is called on the structure. -/
theorem createWith_one {trapframe : ℕ} (hone : k.pm.freelist = [trapframe])
    (hp : p % pgSize ≠ 0) :
    createWith image k cur p = .error (.panic .kpmfree) := by
  have htake : kpmalloc k.pm = (some trapframe, ⟨fill k.pm.mem trapframe 5 pgSize, []⟩) := by
    rw [kpmalloc, hone]
  rw [createWith, htake]
  dsimp only [Kernel.setPm, Kernel.setProc, kpmalloc]
  rw [kpmfree_object _ _ hp]
  rfl

variable {trapframe kstack : ℕ} {rest : List ℕ}

/-- The pages for the trapframe and the stack are in hand. -/
def twoTaken (mem : Mem) (trapframe kstack : ℕ) (rest : List ℕ) : Pm :=
  ⟨fill (fill mem trapframe 5 pgSize) kstack 5 pgSize, rest⟩

theorem twoTaken_owned (htable : TableOk image k region tables)
    (hlist : k.pm.freelist = trapframe :: kstack :: rest) :
    Owned image.kernelEnd ((region \ {trapframe}) \ {kstack})
        (twoTaken k.pm.mem trapframe kstack rest) k.kernelPagetable tables ∧
      (∀ va, translate (twoTaken k.pm.mem trapframe kstack rest).mem k.kernelPagetable va =
        translate k.pm.mem k.kernelPagetable va) ∧
      ∀ va, missing (twoTaken k.pm.mem trapframe kstack rest).mem va 2 k.kernelPagetable =
        missing k.pm.mem va 2 k.kernelPagetable := by
  have hown : Owned image.kernelEnd region ⟨k.pm.mem, trapframe :: kstack :: rest⟩
      k.kernelPagetable tables := by
    rw [← hlist]
    exact htable.owned
  obtain ⟨htranslate, hmissing⟩ := take_same hown
  obtain ⟨htranslate', hmissing'⟩ := take_same hown.take.1
  exact ⟨hown.take.1.take.1, fun va => (htranslate' va).trans (htranslate va),
    fun va => (hmissing' va).trans (hmissing va)⟩

/-- The kernel after both pages are taken. -/
def Kernel.withPages (k : Kernel) (p trapframe kstack : ℕ) (rest : List ℕ) : Kernel :=
  (k.setPm (twoTaken k.pm.mem trapframe kstack rest)).setProc p fun proc =>
    { proc with trapframe := trapframe }

theorem createWith_two (image : Image) (cur p : ℕ)
    (hlist : k.pm.freelist = trapframe :: kstack :: rest) :
    createWith image k cur p =
      createStack image (k.withPages p trapframe kstack rest) cur p trapframe kstack := by
  rw [createWith, kpmalloc, hlist]
  rfl

/-- Without a free number the stack would be mapped over the trampoline. -/
theorem createWith_noPid (htable : TableOk image k region tables)
    (hlist : k.pm.freelist = trapframe :: kstack :: rest)
    (hpid : Bitmap.firstClear k.pidBitmap 0 maxPid = none) :
    createWith image k cur p = .error (.panic .remap) := by
  obtain ⟨hown, htranslate, -⟩ := twoTaken_owned htable hlist
  obtain ⟨frame, hframe⟩ := htable.trampoline
  have hremap : mappages (twoTaken k.pm.mem trapframe kstack rest) k.kernelPagetable
      (kstackVa (-1)) kstack pgSize (pteR ||| pteW) = .error .remap :=
    hown.mappages_remap (by decide) (by decide) ((htranslate _).trans hframe)
  have hnone : pidAlloc (k.withPages p trapframe kstack rest) =
      (-1, k.withPages p trapframe kstack rest) := pidAlloc_none hpid
  rw [createWith_two image cur p hlist, createStack, hnone]
  dsimp only [Kernel.setProc, Kernel.withPages, Kernel.setPm]
  rw [hremap]
  rfl

/-- The kernel after the stack is mapped. -/
theorem mapStack_cases (htable : TableOk image k region tables)
    (hlist : k.pm.freelist = trapframe :: kstack :: rest) {pid : ℕ}
    (hpid : Bitmap.firstClear k.pidBitmap 0 maxPid = some pid) :
    ∃ ret pm tables', mappages (twoTaken k.pm.mem trapframe kstack rest) k.kernelPagetable
        (kstackVa pid) kstack pgSize (pteR ||| pteW) = .ok (ret, pm) ∧
      Owned image.kernelEnd ((region \ {trapframe}) \ {kstack}) pm k.kernelPagetable tables' ∧
      pm.freelist = rest.drop (missing k.pm.mem (kstackVa pid) 2 k.kernelPagetable) ∧
      (ret = -1 ∧ rest.length < missing k.pm.mem (kstackVa pid) 2 k.kernelPagetable ∨
        ret = 0 ∧ missing k.pm.mem (kstackVa pid) 2 k.kernelPagetable ≤ rest.length ∧
          translate pm.mem k.kernelPagetable (kstackVa pid) =
            some (kstack, pteR ||| pteW ||| pteV)) := by
  obtain ⟨hown, htranslate, hmissing⟩ := twoTaken_owned htable hlist
  obtain ⟨-, hlt, hclear⟩ := Bitmap.firstClear_some hpid
  have hlt : pid < maxPid := by omega
  have hgood : Allocatable image.kernelEnd kstack :=
    htable.owned.good _ (htable.owned.mem_of_free (by rw [hlist]; simp))
  obtain ⟨ret, pm, tables', hmap, -, -, hown', hresult⟩ := hown.mapKernel (kstackVa_aligned hlt)
    (kstackVa_lt hlt) hgood.aligned hgood.small (show pteR ||| pteW < 1024 by decide) (by decide)
    ((htranslate _).trans (htable.kstacks pid hlt hclear))
  obtain ⟨hdrop, hret⟩ := hown.mappages_missing (kstackVa_aligned hlt) (kstackVa_lt hlt) hmap
  rw [hmissing] at hdrop hret
  refine ⟨ret, pm, tables', hmap, hown', hdrop, ?_⟩
  obtain ⟨rfl, -⟩ | ⟨rfl, hmapped⟩ := hresult
  · exact .inl ⟨rfl, not_le.mp fun hle => absurd (hret.mpr hle) (by decide)⟩
  · refine .inr ⟨rfl, hret.mp rfl, ?_⟩
    rw [hmapped _ (kstackVa_lt hlt), if_pos rfl, kstackVa_aligned hlt, Nat.add_zero]

/-- The kernel after the number is taken. -/
def Kernel.withPid (k : Kernel) (p pid : ℕ) : Kernel :=
  { k with pidBitmap := Bitmap.mark k.pidBitmap pid }.setProc p fun proc => { proc with pid := pid }

/-- With a number, the rest depends on the mapping of the stack. -/
theorem createStack_some {pid : ℕ} (hpid : Bitmap.firstClear k.pidBitmap 0 maxPid = some pid)
    {ret : ℤ} {pm : Pm} (hmap : mappages k.pm k.kernelPagetable (kstackVa pid) kstack pgSize
      (pteR ||| pteW) = .ok (ret, pm)) :
    createStack image k cur p trapframe kstack =
      if ret ≠ 0 then do
        let pm ← panics (kpmfree image.kernelEnd pm kstack)
        let pm ← panics (kpmfree image.kernelEnd pm p)
        .ok (0, (k.withPid p pid).setPm pm)
      else createTable image ((k.withPid p pid).setPm pm) cur p trapframe (kstackVa pid) := by
  rw [createStack, pidAlloc_some hpid]
  dsimp only [Kernel.setProc]
  rw [hmap]
  rfl

/-- Without pages for the tables that map the stack `kpmfree` is called on the structure. -/
theorem createWith_short (htable : TableOk image k region tables) (hp : p % pgSize ≠ 0)
    (hlist : k.pm.freelist = trapframe :: kstack :: rest) {pid : ℕ}
    (hpid : Bitmap.firstClear k.pidBitmap 0 maxPid = some pid)
    (hshort : rest.length < missing k.pm.mem (kstackVa pid) 2 k.kernelPagetable) :
    createWith image k cur p = .error (.panic .kpmfree) := by
  obtain ⟨ret, pm, tables', hmap, -, -, hret⟩ := mapStack_cases htable hlist hpid
  obtain ⟨rfl, -⟩ | ⟨-, hlong, -⟩ := hret
  · have hgood : Allocatable image.kernelEnd kstack :=
      htable.owned.good _ (htable.owned.mem_of_free (by rw [hlist]; simp))
    rw [createWith_two image cur p hlist, createStack_some (by exact hpid) (by exact hmap),
      if_pos (by decide), kpmfree_eq hgood]
    dsimp only [panics, Except.mapError, bind, Except.bind]
    rw [kpmfree_object _ _ hp]
  · omega

/-- The kernel when `process_create` returns. -/
def Kernel.withTable (k : Kernel) (pm : Pm) (cur p va pagetable : ℕ) : Kernel :=
  let k := (k.setPm pm).setProc p fun proc =>
    { proc with
      kstack := va
      pagetable := pagetable
      status := .initial
      cwd := 0
      parent := cur
      fileList := [] }
  { k with processList := k.processList ++ [p] }

theorem Kernel.withTable_self (k : Kernel) (pm : Pm) (cur p va pagetable : ℕ) :
    (k.withTable pm cur p va pagetable).procs p = { k.procs p with
      kstack := va
      pagetable := pagetable
      status := .initial
      cwd := 0
      parent := cur
      fileList := [] } :=
  Function.update_self _ _ _

theorem createTable_ok {va pagetable : ℕ} {pm : Pm}
    (hcreate : processPagetable image.kernelEnd image.trampolinePa k.pm trapframe =
      .ok (pagetable, pm)) :
    createTable image k cur p trapframe va = .ok (p, k.withTable pm cur p va pagetable) := by
  rw [createTable, hcreate]
  rfl

/-- With the stack mapped a process is returned, with a page table if there are three pages. -/
theorem createWith_mapped (cur p : ℕ) (hsymbols : image.Ok) (htable : TableOk image k region tables)
    (hlist : k.pm.freelist = trapframe :: kstack :: rest) {pid : ℕ}
    (hpid : Bitmap.firstClear k.pidBitmap 0 maxPid = some pid)
    (hlong : missing k.pm.mem (kstackVa pid) 2 k.kernelPagetable ≤ rest.length) :
    ∃ k', createWith image k cur p = .ok (p, k') ∧ k'.procCache = k.procCache ∧
      (rest.length - missing k.pm.mem (kstackVa pid) 2 k.kernelPagetable < 3 ∧
          (k'.procs p).pagetable = 0 ∨
        3 ≤ rest.length - missing k.pm.mem (kstackVa pid) 2 k.kernelPagetable ∧
          Equipped image k k' p) := by
  obtain ⟨ret, pm, tables', hmap, hown, hdrop, hret⟩ := mapStack_cases htable hlist hpid
  obtain ⟨-, hshort⟩ | ⟨rfl, -, hmapped⟩ := hret
  · omega
  obtain ⟨-, hlt, hclear⟩ := Bitmap.firstClear_some hpid
  have hlt : pid < maxPid := by omega
  have hframe : Allocatable image.kernelEnd trapframe :=
    htable.owned.good _ (htable.owned.mem_of_free (by rw [hlist]; simp))
  have hpool := pool_of_owned hown
  obtain ⟨root, pm', hcreate, hsame, hroot⟩ := processPagetable_spec hpool hsymbols.kernelEnd
    hsymbols.aligned hsymbols.small hframe.aligned hframe.small
  have hcount := processPagetable_missing hpool hsymbols.kernelEnd hsymbols.aligned
    hsymbols.small hcreate
  rw [hdrop, List.length_drop] at hcount
  have hsub : ∀ page ∈ pm'.freelist, page ∈ rest := by
    intro page hpage
    have hfree : page ∈ pm.freelist := by
      obtain ⟨-, -, hback⟩ | ⟨-, tables₄, hown₄, -⟩ := hroot
      · exact (hback page).mp hpage
      · exact hown₄.mem_of_free hpage
    rw [hdrop] at hfree
    exact List.mem_of_mem_drop hfree
  obtain ⟨hnotFrame, hnodup⟩ := List.nodup_cons.mp (hlist ▸ htable.owned.nodup)
  have hnotStack := (List.nodup_cons.mp hnodup).1
  have hkernel : ∀ x, ¬ Outside tables' x → pm'.mem x = pm.mem x := by
    intro x hx
    refine hsame x fun hfree => ?_
    rw [outside_iff, not_not] at hx
    exact hown.freeTable _ hfree hx
  refine ⟨(((k.withPages p trapframe kstack rest).withPid p pid).setPm pm).withTable pm' cur p
    (kstackVa pid) root, ?_, rfl, ?_⟩
  · rw [createWith_two image cur p hlist, createStack_some (by exact hpid) (by exact hmap),
      if_neg (by decide)]
    exact createTable_ok hcreate
  · simp only [Kernel.withTable, Kernel.withPid, Kernel.withPages, Kernel.setPm, Kernel.setProc,
      Function.update_self]
    obtain ⟨rfl, -⟩ | ⟨hne, tables₄, hown₄, htranslate⟩ := hroot
    · exact .inl ⟨by omega, rfl⟩
    · refine .inr ⟨hcount.mp hne, ?_, ?_, ?_, ?_⟩
      · simp only [Function.update_self]
        exact ⟨by rw [hlist]; simp, fun hfree =>
          hnotFrame (List.mem_cons_of_mem _ (hsub _ hfree))⟩
      · refine ⟨kstack, by rw [hlist]; simp, fun hfree => hnotStack (hsub _ hfree), ?_, ?_⟩
        · simp only [Function.update_self]
          exact fun heq => hnotFrame (heq ▸ List.mem_cons_self)
        · simp only [Function.update_self]
          rw [hown.tree.translate_frame hkernel, hmapped]
      · refine ⟨pid, hlt, ?_, hclear, ?_, ?_⟩
        · simp only [Function.update_self]
        · exact Bitmap.marked_mark.mpr (.inl rfl)
        · simp only [Function.update_self]
      · simp only [Function.update_self]
        exact ⟨hne, ⟨tables₄, hown₄.tree⟩, htranslate⟩

/-- All of it, when there is a page for the trapframe. -/
theorem createWith_cases (cur : ℕ) (hsymbols : image.Ok) (htable : TableOk image k region tables)
    (hp : p % pgSize ≠ 0) (hsome : k.pm.freelist ≠ []) :
    (Enough k 0 ∧ ∃ k', createWith image k cur p = .ok (p, k') ∧
      k'.procCache = k.procCache ∧ Equipped image k k' p) ∨
    ¬ Enough k 0 ∧ ((∃ stop, createWith image k cur p = .error stop) ∨
      ∃ k', createWith image k cur p = .ok (p, k') ∧ (k'.procs p).pagetable = 0) := by
  rcases hlist : k.pm.freelist with _ | ⟨trapframe, _ | ⟨kstack, rest⟩⟩
  · exact absurd hlist hsome
  · refine .inr ⟨?_, .inl ⟨_, createWith_one hlist hp⟩⟩
    rintro ⟨pid, -, hle⟩
    rw [hlist, List.length_singleton] at hle
    omega
  · have hlength : k.pm.freelist.length = rest.length + 2 := by
      rw [hlist, List.length_cons, List.length_cons]
    cases hpid : Bitmap.firstClear k.pidBitmap 0 maxPid with
    | none =>
        refine .inr ⟨?_, .inl ⟨_, createWith_noPid htable hlist hpid⟩⟩
        rintro ⟨pid, hsome, -⟩
        rw [hpid] at hsome
        cases hsome
    | some pid =>
        have henough : Enough k 0 ↔
            5 + missing k.pm.mem (kstackVa pid) 2 k.kernelPagetable ≤ rest.length + 2 := by
          rw [Enough, hpid, hlength]
          constructor
          · rintro ⟨pid', heq, hle⟩
            obtain rfl := Option.some.inj heq
            exact hle
          · exact fun hle => ⟨pid, rfl, hle⟩
        rw [henough]
        by_cases hlong : missing k.pm.mem (kstackVa pid) 2 k.kernelPagetable ≤ rest.length
        · obtain ⟨k', hcreate, hcache, ⟨hfew, hnull⟩ | ⟨hmany, hequipped⟩⟩ :=
            createWith_mapped cur p hsymbols htable hlist hpid hlong
          · exact .inr ⟨by omega, .inr ⟨k', hcreate, hnull⟩⟩
          · exact .inl ⟨by omega, k', hcreate, hcache, hequipped⟩
        · exact .inr ⟨by omega, .inl ⟨_, createWith_short htable hp hlist hpid (by omega)⟩⟩

end With

/-! ## The structure -/

theorem procMode_sized : Slab.procMode.Sized := Slab.sized_of_mem (by simp [Slab.slabModes])

section Structure

variable {k : Kernel} {pages : List ℕ}

/-- A slot of a slab page is not a page. -/
theorem slot_unaligned {cache : Slab.Cache} (hslab : Slab.CacheOk Slab.procMode cache pages)
    {list i : ℕ} (hlist : list ∈ pages) (hi : i < Slab.procMode.blockNum) :
    (list + i * Slab.procMode.size) % pgSize ≠ 0 := by
  have haligned := hslab.aligned list hlist
  have hend := Slab.slot_end Slab.procMode_fits hi
  have hsize := Slab.procMode_fits.size
  simp only [Slab.pageAllocSize, Slab.pgSize, Slab.align, pgSize] at *
  omega

theorem object_unaligned {cache : Slab.Cache} (hslab : Slab.CacheOk Slab.procMode cache pages)
    {p : ℕ} (hused : Slab.InUse Slab.procMode cache.mem pages p) : p % pgSize ≠ 0 := by
  obtain ⟨list, hlist, i, hi, rfl, -⟩ := hused
  exact slot_unaligned hslab hlist hi

/-- With a clear bit in the newest page its slot is taken. -/
theorem kallocProc_room (hslab : Slab.CacheOk Slab.procMode k.procCache pages)
    (hroom : NewestRoom k) :
    ∃ i < Slab.procMode.blockNum, ∃ mem',
      k.kallocProc = .ok (some (k.procCache.heapList + i * Slab.procMode.size),
        { k with procCache := ⟨mem', k.procCache.heapList⟩ }) ∧
      ¬ Slab.Taken k.procCache.mem k.procCache.heapList i ∧
      ∀ other ∈ pages, ∀ j < 128, Slab.Taken mem' other j ↔
        Slab.Taken k.procCache.mem other j ∨ other = k.procCache.heapList ∧ j = i := by
  have hlist := hslab.heapList_mem
  obtain ⟨i, hi, hclear, hfound, hchanges, htaken⟩ | ⟨-, hfull⟩ :=
    Slab.findMatchSpace_spec k.procCache.mem Slab.procMode.size (hslab.le hlist)
  · rcases hfind : Slab.findMatchSpace k.procCache.mem k.procCache.heapList
      Slab.procMode.size with ⟨bp, mem'⟩
    rw [hfind] at hfound hchanges htaken
    obtain rfl : bp = some _ := hfound
    have hslot : i < Slab.procMode.blockNum := by
      by_contra hlarge
      exact hclear (hslab.spare _ hlist i hi (not_lt.mp hlarge))
    refine ⟨i, hslot, mem', ?_, hclear, fun other hother j hj => ?_⟩
    · rw [Kernel.kallocProc, kallocFrom, hfind]
      rfl
    · by_cases hsame : other = k.procCache.heapList
      · rw [hsame, htaken j hj]
        simp only [true_and]
      · rw [hslab.taken_other hlist hchanges hother hsame hj]
        simp only [hsame, false_and, or_false]
  · obtain ⟨i, hi, hclear⟩ := hroom
    exact absurd (hfull i hi) hclear

/-- Otherwise a page is needed. -/
theorem kallocProc_full (hslab : Slab.CacheOk Slab.procMode k.procCache pages)
    (hfull : ¬ NewestRoom k)
    (hnew : ∀ page ∈ k.pm.freelist, page % pgSize = 0 ∧ page + 24 ∉ pages) :
    k.pm.freelist = [] ∧ k.kallocProc = .error .nullPointer ∨
      ∃ page rest, k.pm.freelist = page :: rest ∧ ∃ p cache' pages',
        k.kallocProc = .ok (some p, { k with
          procCache := cache'
          pm := ⟨fill k.pm.mem page 5 pgSize, rest⟩ }) ∧
        cache'.heapList ≠ k.procCache.heapList ∧
        Slab.Allocated Slab.procMode k.procCache cache' pages pages' p := by
  have hlist := hslab.heapList_mem
  obtain ⟨i, hi, hclear, -⟩ | ⟨hfind, hall⟩ :=
    Slab.findMatchSpace_spec k.procCache.mem Slab.procMode.size (hslab.le hlist)
  · exact absurd ⟨i, hi, hclear⟩ hfull
  cases hfree : k.pm.freelist with
  | nil =>
      refine .inl ⟨rfl, ?_⟩
      rw [Kernel.kallocProc, kallocFrom, hfind]
      dsimp only
      rw [kpmalloc, hfree]
      rfl
  | cons page rest =>
      obtain ⟨haligned, hapart⟩ := hnew page (by rw [hfree]; exact List.mem_cons_self)
      have hpage : Slab.Page.New ⟨page, fun _ => 5⟩ pages := ⟨haligned, hapart⟩
      obtain ⟨p, cache', pages', hkalloc, -, halloc⟩ :=
        Slab.kalloc_spec hslab Slab.procMode_fits hpage
      refine .inr ⟨page, rest, rfl, p, cache', pages', ?_, ?_, halloc⟩
      · rw [Kernel.kallocProc, kallocFrom, hfind]
        dsimp only
        rw [kpmalloc, hfree]
        dsimp only
        rw [hkalloc]
        rfl
      · have hspare := hslab.spare _ hlist
        obtain ⟨i, hi, -, -, hclear, -⟩ | ⟨-, i, -, mem', hkalloc', -⟩ :=
          Slab.kalloc_cases hslab procMode_sized hspare ⟨page, fun _ => 5⟩
        · exact absurd (hall i (hi.trans (by decide))) hclear
        · rw [hkalloc] at hkalloc'
          rw [(Prod.mk.inj hkalloc').2]
          intro heq
          exact hapart (by rw [show page + 24 = k.procCache.heapList from heq]; exact hlist)

end Structure

/-! ## All of `process_create` -/

/-- When `process_create` does what it should: the newest slab page has a clear bit and no page is
free, or there are enough pages, with one more for the slab if it has no clear bit. -/
def CanCreate (k : Kernel) : Prop :=
  NewestRoom k ∧ (k.pm.freelist = [] ∨ Enough k 0) ∨ ¬ NewestRoom k ∧ Enough k 1

section Create

variable {image : Image} {k k₁ : Kernel} {region : Set ℕ} {tables : ℕ → Set ℕ} {pages : List ℕ}
  {cur p : ℕ}

theorem processCreate_eq (hkalloc : k.kallocProc = .ok (some p, k₁)) :
    processCreate image k cur = createWith image k₁ cur p := by
  rw [processCreate, hkalloc]
  rfl

/-- After the structure is allocated, with a page left. -/
theorem creates_iff_enough (hsymbols : image.Ok) (htable : TableOk image k₁ region tables)
    (hkalloc : k.kallocProc = .ok (some p, k₁)) (hsome : k₁.pm.freelist ≠ [])
    (hnew : ¬ Slab.InUse Slab.procMode k.procCache.mem pages p) {pages' : List ℕ}
    (hslab : Slab.CacheOk Slab.procMode k₁.procCache pages')
    (hused : Slab.InUse Slab.procMode k₁.procCache.mem pages' p)
    (hsub : ∀ page ∈ k₁.pm.freelist, page ∈ k.pm.freelist)
    (hpids : k₁.pidBitmap = k.pidBitmap) (hroot : k₁.kernelPagetable = k.kernelPagetable) :
    CreatesOrRestores image k cur tables pages ↔ Enough k₁ 0 := by
  have hp := object_unaligned hslab hused
  have hne : p ≠ 0 := by
    rintro rfl
    exact hp rfl
  rw [CreatesOrRestores, processCreate_eq hkalloc]
  obtain ⟨henough, k', hcreate, hcache, hequipped⟩ | ⟨hshort, hbad⟩ :=
    createWith_cases cur hsymbols htable hp hsome
  · refine iff_of_true (.inr ⟨p, k', hcreate, ⟨hne, hnew, pages', ?_, ?_⟩, ?_, ?_, ?_, ?_⟩) henough
    · rw [hcache]
      exact hslab
    · rw [hcache]
      exact hused
    · exact ⟨hsub _ hequipped.trapframe.1, hequipped.trapframe.2⟩
    · obtain ⟨kstack, hmem, hkstack⟩ := hequipped.kstack
      exact ⟨kstack, hsub _ hmem, hroot ▸ hkstack⟩
    · exact hpids ▸ hequipped.pid
    · exact hequipped.pagetable
  · refine iff_of_false ?_ hshort
    obtain ⟨stop, hstop⟩ | ⟨k', hcreate, hnull⟩ := hbad
    · rw [hstop]
      rintro (⟨k', heq, -⟩ | ⟨p', k', heq, -⟩) <;> cases heq
    · rw [hcreate]
      rintro (⟨k'', heq, -⟩ | ⟨p', k'', heq, hcreated⟩)
      · exact hne (Prod.mk.inj (Except.ok.inj heq)).1
      · obtain ⟨rfl, rfl⟩ := Prod.mk.inj (Except.ok.inj heq)
        exact hcreated.equipped.pagetable.1 hnull

/-- `kfree` of the structure that `kalloc` has taken from the newest page restores the bitmaps. -/
theorem kfreeTo_kallocProc (hslab : Slab.CacheOk Slab.procMode k.procCache pages)
    (hrounds : 0 < image.rounds) (hroom : NewestRoom k)
    (hkalloc : k.kallocProc = .ok (some p, k₁)) :
    ∃ mem mem', k₁ = { k with procCache := ⟨mem, k.procCache.heapList⟩ } ∧
      kfreeTo image Slab.procMode k₁.procCache p = .ok ⟨mem', k.procCache.heapList⟩ ∧
      (∃ i < Slab.procMode.blockNum, p = k.procCache.heapList + i * Slab.procMode.size ∧
        ¬ Slab.Taken mem' k.procCache.heapList i) ∧
      ∀ list ∈ pages, ∀ j < 128,
        (Slab.Taken mem' list j ↔ Slab.Taken k.procCache.mem list j) := by
  obtain ⟨i, hi, mem, hkalloc', hclear, htaken⟩ := kallocProc_room hslab hroom
  obtain ⟨hsome, rfl⟩ := Prod.mk.inj (Except.ok.inj (hkalloc.symm.trans hkalloc'))
  obtain rfl := Option.some.inj hsome
  obtain ⟨rounds, hsucc⟩ := Nat.exists_eq_succ_of_ne_zero hrounds.ne'
  have hmid : Slab.CacheOk Slab.procMode ⟨mem, k.procCache.heapList⟩ pages :=
    ⟨hslab.head, hslab.aligned, hslab.nodup, fun other hother j hj hlarge =>
      (htaken other hother j hj).mpr (.inl (hslab.spare other hother j hj hlarge))⟩
  obtain ⟨mem', hfree, hback⟩ := Slab.kfree_newest hmid Slab.procMode_fits hi rounds
  have hbits : ∀ list ∈ pages, ∀ j < 128,
      (Slab.Taken mem' list j ↔ Slab.Taken k.procCache.mem list j) := by
    intro other hother j hj
    rw [hback other hother j hj, htaken other hother j hj]
    constructor
    · rintro ⟨hold | hslot, hother'⟩
      · exact hold
      · exact absurd hslot hother'
    · intro hold
      refine ⟨.inl hold, ?_⟩
      rintro ⟨rfl, rfl⟩
      exact hclear hold
  refine ⟨mem, mem', rfl, ?_, ⟨i, hi, rfl, fun hused => hclear ?_⟩, hbits⟩
  · rw [kfreeTo, hsucc, hfree]
  · exact (hbits _ hslab.heapList_mem i (hi.trans_le Slab.procMode_fits.bits)).mp hused

/-- With a clear bit and no free page the structure is freed again. -/
theorem restores_of_nil (hok : KernelOk image k region tables pages) (hroom : NewestRoom k)
    (hempty : k.pm.freelist = []) : CreatesOrRestores image k cur tables pages := by
  obtain ⟨i, hi, mem₁, hkalloc, -, -⟩ := kallocProc_room hok.slab hroom
  obtain ⟨mem, mem', honly, hkfree, -, hbits⟩ :=
    kfreeTo_kallocProc hok.slab hok.symbols.rounds hroom hkalloc
  refine .inl ⟨{ k.setProc (k.procCache.heapList + i * Slab.procMode.size) fun proc =>
    { proc with trapframe := 0 } with procCache := ⟨mem', k.procCache.heapList⟩ }, ?_,
    ⟨rfl, hbits, ⟨tables, hok.table.owned.tree, fun _ => Iff.rfl⟩, rfl, fun _ _ => rfl, rfl⟩⟩
  rw [processCreate_eq hkalloc, createWith_nil (by exact hempty), Kernel.kfreeProc]
  dsimp only [Kernel.setProc]
  rw [hkfree]
  rfl

/-- `kfree` leaves the pages of the cache. -/
theorem kfreeTo_heapList {mode : Slab.Mode} {cache cache' : Slab.Cache} {addr : ℕ}
    (hkfree : kfreeTo image mode cache addr = .ok cache') : cache'.heapList = cache.heapList := by
  rw [kfreeTo] at hkfree
  split at hkfree
  · cases hkfree
  · rename_i hfree
    obtain rfl := Except.ok.inj hkfree
    exact Slab.kfree_heapList hfree
  · cases hkfree

/-- A page that the slab has taken is not given back. -/
theorem not_restores_of_newPage (hkalloc : k.kallocProc = .ok (some p, k₁))
    (hempty : k₁.pm.freelist = []) (hnewest : k₁.procCache.heapList ≠ k.procCache.heapList) :
    ¬ CreatesOrRestores image k cur tables pages := by
  rw [CreatesOrRestores, processCreate_eq hkalloc, createWith_nil hempty, Kernel.kfreeProc]
  cases hkfree : kfreeTo image Slab.procMode k₁.procCache p with
  | error stop =>
      dsimp only [Kernel.setProc]
      rw [hkfree]
      rintro (⟨k', heq, -⟩ | ⟨p', k', heq, -⟩) <;> cases heq
  | ok cache =>
      have hkeep := kfreeTo_heapList hkfree
      dsimp only [Kernel.setProc]
      rw [hkfree]
      rintro (⟨k', heq, hrestored⟩ | ⟨p', k', heq, hcreated⟩)
      · obtain ⟨-, rfl⟩ := Prod.mk.inj (Except.ok.inj heq)
        exact hnewest (hkeep.symm.trans hrestored.newest)
      · obtain ⟨rfl, -⟩ := Prod.mk.inj (Except.ok.inj heq)
        exact hcreated.object.1 rfl

/-- `process_create` returns `NULL` with the resources restored or returns a process with all of
them if and only if the newest slab page has a clear bit and no page is free, or there are enough
pages and a process number. -/
theorem createsOrRestores_iff (hok : KernelOk image k region tables pages) (cur : ℕ) :
    CreatesOrRestores image k cur tables pages ↔ CanCreate k := by
  by_cases hroom : NewestRoom k
  · by_cases hempty : k.pm.freelist = []
    · exact iff_of_true (restores_of_nil hok hroom hempty) (.inl ⟨hroom, .inl hempty⟩)
    · obtain ⟨i, hi, mem', hkalloc, hclear, htaken⟩ := kallocProc_room hok.slab hroom
      have hlist := hok.slab.heapList_mem
      have hbits := hi.trans_le Slab.procMode_fits.bits
      have hslab : Slab.CacheOk Slab.procMode ⟨mem', k.procCache.heapList⟩ pages :=
        ⟨hok.slab.head, hok.slab.aligned, hok.slab.nodup, fun other hother j hj hlarge =>
          (htaken other hother j hj).mpr (.inl (hok.slab.spare other hother j hj hlarge))⟩
      have hnew : ¬ Slab.InUse Slab.procMode k.procCache.mem pages
          (k.procCache.heapList + i * Slab.procMode.size) := by
        rintro ⟨other, hother, j, hj, heq, hused⟩
        obtain ⟨rfl, rfl⟩ := hok.slab.slot_inj Slab.procMode_fits hlist hother hi hj heq
        exact hclear hused
      have hused : Slab.InUse Slab.procMode mem' pages
          (k.procCache.heapList + i * Slab.procMode.size) :=
        ⟨_, hlist, i, hi, rfl, (htaken _ hlist i hbits).mpr (.inr ⟨rfl, rfl⟩)⟩
      have htable : TableOk image { k with procCache := ⟨mem', k.procCache.heapList⟩ } region
          tables := ⟨hok.table.owned, hok.table.trampoline, hok.table.kstacks⟩
      rw [creates_iff_enough hok.symbols htable hkalloc hempty hnew hslab hused (fun _ h => h) rfl
        rfl]
      rw [CanCreate]
      constructor
      · exact fun henough => .inl ⟨hroom, .inr henough⟩
      · rintro (⟨-, hnone | henough⟩ | ⟨hfull, -⟩)
        · exact absurd hnone hempty
        · exact henough
        · exact absurd hroom hfull
  · have hcan : CanCreate k ↔ Enough k 1 := by
      rw [CanCreate]
      constructor
      · rintro (⟨hroom', -⟩ | ⟨-, henough⟩)
        · exact absurd hroom' hroom
        · exact henough
      · exact fun henough => .inr ⟨hroom, henough⟩
    rw [hcan]
    have hfree : ∀ page ∈ k.pm.freelist, page % pgSize = 0 ∧ page + 24 ∉ pages :=
      fun page hpage => ⟨(hok.table.owned.good page (hok.table.owned.mem_of_free hpage)).aligned,
        hok.apart page hpage⟩
    obtain ⟨hempty, hkalloc⟩ | ⟨page, rest, hlist, p, cache', pages', hkalloc, hnewest, halloc⟩ :=
      kallocProc_full hok.slab hroom hfree
    · refine iff_of_false ?_ ?_
      · rw [CreatesOrRestores, processCreate, hkalloc]
        rintro (⟨k', heq, -⟩ | ⟨p', k', heq, -⟩) <;> cases heq
      · rintro ⟨pid, -, hle⟩
        rw [hempty, List.length_nil] at hle
        omega
    · have hown : Owned image.kernelEnd region ⟨k.pm.mem, page :: rest⟩ k.kernelPagetable
          tables := by
        rw [← hlist]
        exact hok.table.owned
      obtain ⟨htranslate, hmissing⟩ := take_same hown
      cases rest with
      | nil =>
          refine iff_of_false (not_restores_of_newPage hkalloc rfl hnewest) ?_
          rintro ⟨pid, -, hle⟩
          rw [hlist, List.length_singleton] at hle
          omega
      | cons next rest =>
          obtain ⟨frame, hframe⟩ := hok.table.trampoline
          have htable : TableOk image { k with
              procCache := cache'
              pm := ⟨fill k.pm.mem page 5 pgSize, next :: rest⟩ } (region \ {page}) tables :=
            ⟨hown.take.1, ⟨frame, (htranslate _).trans hframe⟩, fun pid hpid hclear =>
              (htranslate _).trans (hok.table.kstacks pid hpid hclear)⟩
          rw [creates_iff_enough hok.symbols htable hkalloc (List.cons_ne_nil _ _) halloc.new
            halloc.ok halloc.taken (fun other hother => by
              rw [hlist]
              exact List.mem_cons_of_mem _ hother) rfl rfl]
          simp only [Enough, hmissing, hlist, List.length_cons]
          exact exists_congr fun pid => and_congr_right fun _ => by omega

end Create

/-! ## Small kernels -/

def smallImage : Image := ⟨0x80280000, 0x80201000, 1⟩

/-- The page table of a kernel that maps only the trampoline, built from the pages of a pool. -/
def bootTable (pool : List ℕ) : ℕ × Pm :=
  let (root, pm) := uvmcreate ⟨fun _ => 0, pool⟩
  match mappages pm root trampoline smallImage.trampolinePa pgSize (pteR ||| pteX) with
  | .ok (_, pm) => (root, pm)
  | .error _ => (root, pm)

/-- A kernel without processes, and with what is left of the pool. -/
def bootKernel (pool : List ℕ) : Kernel where
  pm := (bootTable pool).2
  kernelPagetable := (bootTable pool).1
  procs := fun _ => ⟨.initial, 0, 0, 0, [], 0, 0, 0, 0, 0, 0, fun _ => 0⟩
  procCache := Slab.slabInit Slab.procMode (fun _ => 0) ⟨0x80300000, fun _ => 5⟩
  files := fun _ => ⟨0, none, 0, false, 0, .none, 0⟩
  fileCache := Slab.slabInit Slab.fileMode (fun _ => 0) ⟨0x80301000, fun _ => 5⟩
  pidBitmap := fun _ => 0
  processList := []
  fdBitmap := fun _ => 0
  direntList := []
  dirents := fun _ => ⟨0, 0, 0, 0, 0⟩

/-- The page table of such a kernel, when the pool has pages for it. -/
theorem bootKernel_table {pool : List ℕ}
    (hpool : Pool smallImage.kernelEnd ⟨fun _ => 0, pool⟩) (hlong : 3 ≤ pool.length) :
    ∃ tables, Owned smallImage.kernelEnd {page | page ∈ pool} (bootKernel pool).pm
        (bootKernel pool).kernelPagetable tables ∧
      ∀ va < maxVa, translate (bootKernel pool).pm.mem (bootKernel pool).kernelPagetable va =
        if va / pgSize = trampoline / pgSize then
          some (smallImage.trampolinePa + va % pgSize, pteR ||| pteX ||| pteV)
        else none := by
  obtain ⟨hempty, -⟩ | ⟨root, pm₀, hmem, hcreate, hown₀, -, hnone₀⟩ := hpool.create
  · rw [show pool = [] from hempty] at hlong
    exact absurd hlong (by decide)
  obtain ⟨hmissing, hlength⟩ := uvmcreate_missing hmem hcreate
  obtain ⟨ret, pm₁, tables, hmap, -, -, hown, hresult⟩ := hown₀.mapKernel
    (show trampoline % pgSize = 0 by decide) (by decide)
    (show smallImage.trampolinePa % pgSize = 0 by decide) (by decide)
    (show pteR ||| pteX < 1024 by decide) (by decide) (hnone₀ trampoline)
  have hcount := (hown₀.mappages_missing (by decide) (by decide) hmap).2
  have hlength : pm₀.freelist.length + 1 = pool.length := hlength
  rw [hmissing] at hcount
  obtain ⟨rfl, -⟩ | ⟨rfl, htranslate⟩ := hresult
  · exact absurd (hcount.mpr (by omega)) (by decide)
  have htable : bootTable pool = (root, pm₁) := by
    rw [bootTable, hcreate]
    dsimp only
    rw [hmap]
  have hpm : (bootKernel pool).pm = pm₁ := congrArg Prod.snd htable
  have hroot : (bootKernel pool).kernelPagetable = root := congrArg Prod.fst htable
  rw [hpm, hroot]
  refine ⟨tables, hown, fun va hva => ?_⟩
  rw [htranslate va hva, hnone₀]

/-- Such a kernel is in order. -/
theorem bootKernel_ok {pool : List ℕ} (hpool : Pool smallImage.kernelEnd ⟨fun _ => 0, pool⟩)
    (hlong : 3 ≤ pool.length) (hslab : 0x80300000 ∉ pool) :
    ∃ tables, KernelOk smallImage (bootKernel pool) {page | page ∈ pool} tables
      [0x80300000 + 24] := by
  obtain ⟨tables, hown, htranslate⟩ := bootKernel_table hpool hlong
  refine ⟨tables, ⟨by decide, by decide, by decide, by decide⟩, ⟨hown, ?_, fun pid hpid _ => ?_⟩,
    Slab.slabInit_ok _ (by decide), fun page hpage => ?_⟩
  · exact ⟨_, (htranslate trampoline (by decide)).trans (if_pos rfl)⟩
  · rw [htranslate _ (kstackVa_lt hpid), if_neg]
    rw [kstackVa_eq hpid]
    simp only [trampoline, maxVa, pgSize, maxPid] at *
    omega
  · have hfree : page ∈ pool := hown.mem_of_free hpage
    rw [List.mem_singleton]
    intro heq
    rw [show page = 0x80300000 by omega] at hfree
    exact hslab hfree

/-- The four pages from 0x80302000 on: three for the table of the kernel and one more. -/
def fourPages : List ℕ := [0x80302000, 0x80303000, 0x80304000, 0x80305000]

theorem fourPages_pool : Pool smallImage.kernelEnd ⟨fun _ => 0, fourPages⟩ := by
  refine ⟨by decide, fun page hpage => ?_⟩
  simp only [fourPages, List.mem_cons, List.not_mem_nil, or_false] at hpage
  obtain rfl | rfl | rfl | rfl := hpage <;> exact ⟨by decide, by decide, by decide⟩

/-- One page is left. -/
theorem fourPages_left : (bootKernel fourPages).pm.freelist = [0x80305000] := by decide +kernel

theorem fourPages_room : NewestRoom (bootKernel fourPages) := by
  refine ⟨0, by decide, ?_⟩
  rw [Slab.Taken]
  decide +kernel

/-- With one page left for a trapframe, `kpmfree` panics on the structure. -/
theorem exists_not_createsOrRestores : ¬ ∀ k region tables pages cur,
    KernelOk smallImage k region tables pages →
      CreatesOrRestores smallImage k cur tables pages := by
  intro hall
  obtain ⟨tables, hok⟩ := bootKernel_ok fourPages_pool (by decide) (by decide)
  obtain ⟨i, hi, mem', hkalloc, -, -⟩ := kallocProc_room hok.slab fourPages_room
  have hstop : processCreate smallImage (bootKernel fourPages) 0 = .error (.panic .kpmfree) := by
    rw [processCreate_eq hkalloc]
    exact createWith_one fourPages_left (slot_unaligned hok.slab hok.slab.heapList_mem hi)
  obtain ⟨k', heq, -⟩ | ⟨p, k', heq, -⟩ := hall _ _ _ _ 0 hok
  · rw [hstop] at heq
    cases heq
  · rw [hstop] at heq
    cases heq

/-- In that kernel nothing can be created. -/
theorem createsOrRestores_fourPages : ∃ tables,
    CreatesOrRestores smallImage (bootKernel fourPages) 0 tables [0x80300000 + 24] ↔
      CanCreate (bootKernel fourPages) := by
  obtain ⟨tables, hok⟩ := bootKernel_ok fourPages_pool (by decide) (by decide)
  exact ⟨tables, createsOrRestores_iff hok 0⟩

end Painting.Process
