import Painting.Core.Threaded
import Painting.Core.Transition
import Painting.Mm.Ownership

/-!
# The free list inside the free pages

`pm.c` links the free pages through their first eight bytes, and fills a page with junk when it is
given out or taken back.  This module has the allocator with that list, and shows that it refines
the one of the page tables, whose free list is a list of pages.

Between two calls the owners of allocated pages may write these as they like, and everything outside
the allocator's memory may change.
-/

namespace Painting.FreePages

open Painting.Memory Painting.Transition
open Painting.LinkedList (Threaded)
open Painting.PageTable (Panic Pm Allocatable pgSize physTop kernBase pgRoundUp)

/-! ## The code -/

/-- Memory and `kmem.freelist`, 0 for `NULL`. -/
structure Kmem where
  mem : Mem
  freelist : ℕ

/-- `r->next`. -/
def next (mem : Mem) (r : ℕ) : ℕ := load mem r 8

/-- `kpmfree`, where `kernelEnd` is the symbol `end`. -/
def kpmfree (kernelEnd : ℕ) (kmem : Kmem) (pa : ℕ) : Except Panic Kmem :=
  if pa % pgSize ≠ 0 ∨ pa < kernelEnd ∨ physTop ≤ pa then .error .kpmfree
  else .ok ⟨store (fill kmem.mem pa 1 pgSize) pa 8 kmem.freelist, pa⟩

/-- `kpmalloc`. -/
def kpmalloc (kmem : Kmem) : ℕ × Kmem :=
  let r := kmem.freelist
  if r ≠ 0 then (r, ⟨fill kmem.mem r 5 pgSize, next kmem.mem r⟩) else (r, kmem)

/-- The loop of `freerange` from `p` on; the rounds are counted so that it ends by itself. -/
def freerangeLoop (kernelEnd paEnd : ℕ) : ℕ → ℕ → Kmem → Except Panic Kmem
  | 0, _, kmem => .ok kmem
  | rounds + 1, p, kmem =>
      if p + pgSize ≤ paEnd then
        (kpmfree kernelEnd kmem p).bind (freerangeLoop kernelEnd paEnd rounds (p + pgSize))
      else .ok kmem

/-- `freerange`. -/
def freerange (kernelEnd paStart paEnd : ℕ) (kmem : Kmem) : Except Panic Kmem :=
  let p := pgRoundUp paStart
  freerangeLoop kernelEnd paEnd ((paEnd - p) / pgSize + 1) p kmem

/-- `kpminit` in the memory at boot, where `kmem.freelist` is 0. -/
def kpminit (kernelEnd : ℕ) (mem : Mem) : Except Panic Kmem :=
  freerange kernelEnd kernelEnd physTop ⟨mem, 0⟩

/-! ## Runs -/

/-- The allocator and the pages that have been returned and not since freed. -/
structure State where
  kmem : Kmem
  allocated : Finset ℕ

inductive Action
  | kpmalloc
  | kpmfree (pa : ℕ)
  | write

/-- A change of memory that leaves the free pages alone: in an allocated page, or outside the
allocator's memory. -/
def Writes (kernelEnd : ℕ) (allocated : Finset ℕ) (mem mem' : Mem) : Prop :=
  ∀ x, mem' x ≠ mem x →
    (∃ page ∈ allocated, page ≤ x ∧ x < page + pgSize) ∨ x < pgRoundUp kernelEnd ∨ physTop ≤ x

def Step (kernelEnd : ℕ) (before : State) (action : Action) (after : State) : Prop :=
  match action with
  | .kpmalloc =>
      after.kmem = (kpmalloc before.kmem).2 ∧
        after.allocated = if (kpmalloc before.kmem).1 = 0 then before.allocated
          else insert (kpmalloc before.kmem).1 before.allocated
  | .kpmfree pa =>
      pa ∈ before.allocated ∧ kpmfree kernelEnd before.kmem pa = .ok after.kmem ∧
        after.allocated = before.allocated.erase pa
  | .write =>
      Writes kernelEnd before.allocated before.kmem.mem after.kmem.mem ∧
        after.kmem.freelist = before.kmem.freelist ∧ after.allocated = before.allocated

/-! ## Conservation -/

/-- The whole pages of `[PGROUNDUP(end), PHYSTOP)`. -/
structure WholePage (kernelEnd page : ℕ) : Prop where
  aligned : page % pgSize = 0
  lo : pgRoundUp kernelEnd ≤ page
  hi : page + pgSize ≤ physTop

/-- `free` is the free list, it ends and has no page twice; its pages are aligned and inside
`[end, PHYSTOP)`, none of them is allocated, and the free and the allocated pages together are all
there are. -/
structure Conserved (kernelEnd : ℕ) (state : State) (free : List ℕ) : Prop where
  threaded : Threaded (next state.kmem.mem) 0 state.kmem.freelist free
  nodup : free.Nodup
  inside : ∀ page ∈ free, Allocatable kernelEnd page
  apart : ∀ page ∈ free, page ∉ state.allocated
  whole : ∀ page, page ∈ free ∨ page ∈ state.allocated ↔ WholePage kernelEnd page

/-! ## Refinement -/

section Links

variable {mem : Mem} {kernelEnd page other head : ℕ} {free : List ℕ} {kmem : Kmem} {pm : Pm}

theorem pages_apart (hpage : page % pgSize = 0) (hother : other % pgSize = 0) (hne : page ≠ other) :
    other + pgSize ≤ page ∨ page + pgSize ≤ other := by
  simp only [pgSize] at *
  omega

/-- Junk in a page leaves the links of the others. -/
theorem next_fill (hpage : page % pgSize = 0) (hother : other % pgSize = 0) (hne : page ≠ other)
    (value : UInt8) : next (fill mem page value pgSize) other = next mem other := by
  have hapart := pages_apart hpage hother hne
  apply (fill_agreeOn mem _).load_eq
  simp only [pgSize] at *
  omega

/-- A page put in front of the list. -/
theorem threaded_cons (hlist : Threaded (next mem) 0 head free) (hpage : page % pgSize = 0)
    (hne : page ≠ 0) (hnot : page ∉ free) (haligned : ∀ other ∈ free, other % pgSize = 0)
    (hhead : head < 2 ^ 64) (value : UInt8) :
    Threaded (next (store (fill mem page value pgSize) page 8 head)) 0 page (page :: free) := by
  have hlink : next (store (fill mem page value pgSize) page 8 head) page = head :=
    load_store_of_lt _ hhead
  refine ⟨rfl, hne, ?_⟩
  rw [hlink]
  apply hlist.congr
  intro other hother
  have hdistinct : page ≠ other := fun heq => hnot (heq ▸ hother)
  have hapart := pages_apart hpage (haligned other hother) hdistinct
  rw [next, load_store_of_disjoint _ (by simp only [pgSize] at *; omega)]
  exact next_fill hpage (haligned other hother) hdistinct value

/-- The list after its first page has been given out and filled. -/
theorem threaded_tail (hlist : Threaded (next mem) 0 head (page :: free))
    (haligned : ∀ other ∈ page :: free, other % pgSize = 0) (value : UInt8) :
    Threaded (next (fill mem page value pgSize)) 0 (next mem page) free := by
  have hnodup := List.nodup_cons.mp hlist.nodup
  apply hlist.2.2.congr
  intro other hother
  have hdistinct : page ≠ other := fun heq => hnodup.1 (heq ▸ hother)
  exact next_fill (haligned page List.mem_cons_self)
    (haligned other (List.mem_cons_of_mem _ hother)) hdistinct value

/-- The allocator of the page tables has the same memory, and the threaded list as a list. -/
structure Represents (kmem : Kmem) (pm : Pm) : Prop where
  mem : pm.mem = kmem.mem
  threaded : Threaded (next kmem.mem) 0 kmem.freelist pm.freelist

theorem Represents.freelist (hrep : Represents kmem pm) : pm.freelist.headD 0 = kmem.freelist := by
  obtain ⟨pmMem, list⟩ := pm
  cases list with
  | nil => exact hrep.threaded.symm
  | cons first rest => exact hrep.threaded.1.symm

/-- `kpmalloc` refines the one with a list of pages. -/
theorem kpmalloc_refines (hrep : Represents kmem pm)
    (haligned : ∀ other ∈ pm.freelist, other % pgSize = 0) :
    (kpmalloc kmem).1 = (PageTable.kpmalloc pm).1.getD 0 ∧
      Represents (kpmalloc kmem).2 (PageTable.kpmalloc pm).2 := by
  obtain ⟨mem, list⟩ := pm
  obtain ⟨rfl, hlist⟩ := hrep
  cases list with
  | nil =>
      have hnull : kmem.freelist = 0 := hlist
      rw [kpmalloc, PageTable.kpmalloc, if_neg (not_not.mpr hnull)]
      exact ⟨hnull, rfl, hlist⟩
  | cons first rest =>
      obtain ⟨hfirst, hne, -⟩ := id hlist
      rw [kpmalloc, PageTable.kpmalloc, hfirst, if_pos hne]
      exact ⟨rfl, rfl, threaded_tail hlist haligned 5⟩

/-- `kpmfree` refines the one with a list of pages, and takes every page of the allocator's
memory. -/
theorem kpmfree_refines (hrep : Represents kmem pm) (hkernel : kernBase ≤ kernelEnd)
    (hinside : ∀ other ∈ pm.freelist, Allocatable kernelEnd other)
    (hpage : Allocatable kernelEnd page) (hnot : page ∉ pm.freelist) :
    ∃ kmem' pm', kpmfree kernelEnd kmem page = .ok kmem' ∧
      PageTable.kpmfree kernelEnd pm page = .ok pm' ∧ Represents kmem' pm' ∧
        pm'.freelist = page :: pm.freelist := by
  obtain ⟨hpageAligned, hlo, hhi⟩ := id hpage
  have hok : ¬ (page % pgSize ≠ 0 ∨ page < kernelEnd ∨ physTop ≤ page) := by
    rintro (hodd | hlow | hhigh)
    · exact hodd hpageAligned
    · exact absurd hlo (not_le.mpr hlow)
    · exact absurd hhi (not_lt.mpr hhigh)
  have hhead : kmem.freelist < 2 ^ 64 := by
    rw [← hrep.freelist]
    cases hlist : pm.freelist with
    | nil => decide
    | cons first rest =>
        exact (hinside first (hlist ▸ List.mem_cons_self)).hi.trans (by decide)
  have hne : page ≠ 0 := by
    rintro rfl
    have hbase : (0 : ℕ) < kernBase := by decide
    omega
  refine ⟨_, _, if_neg hok, if_neg hok, ⟨?_, ?_⟩, rfl⟩
  · dsimp only
    rw [hrep.mem, hrep.freelist]
  · exact threaded_cons hrep.threaded hpageAligned hne hnot
      (fun other hother => (hinside other hother).aligned) hhead 1

end Links

/-! ## Steps -/

section Steps

variable {kernelEnd : ℕ} {state : State} {free : List ℕ}

theorem wholePage_iff (hram : kernelEnd ≤ physTop) (page : ℕ) :
    WholePage kernelEnd page ↔ Allocatable kernelEnd page := by
  have htop : physTop = 2 ^ 31 + 2 ^ 27 := by decide
  constructor
  · rintro ⟨haligned, hlo, hhi⟩
    refine ⟨haligned, ?_, ?_⟩ <;> simp only [pgRoundUp, pgSize] at * <;> omega
  · rintro ⟨haligned, hlo, hhi⟩
    refine ⟨haligned, ?_, ?_⟩ <;> simp only [pgRoundUp, pgSize] at * <;> omega

theorem Conserved.represents (hok : Conserved kernelEnd state free) :
    Represents state.kmem ⟨state.kmem.mem, free⟩ := ⟨rfl, hok.threaded⟩

theorem Conserved.kpmalloc (hok : Conserved kernelEnd state free) {after : State}
    (hstep : Step kernelEnd state .kpmalloc after) : ∃ free', Conserved kernelEnd after free' := by
  obtain ⟨hkmem, hallocated⟩ := hstep
  obtain ⟨hresult, hrep⟩ := kpmalloc_refines hok.represents fun page hpage =>
    (hok.inside page hpage).aligned
  cases free with
  | nil =>
      rw [show (FreePages.kpmalloc state.kmem).1 = 0 from hresult, if_pos rfl] at hallocated
      refine ⟨[], ?_, List.nodup_nil, hok.inside, fun page hpage => absurd hpage List.not_mem_nil,
        ?_⟩
      · rw [hkmem]
        exact hrep.threaded
      · rw [hallocated]
        exact hok.whole
  | cons first rest =>
      have hfirst : (FreePages.kpmalloc state.kmem).1 = first := hresult
      have hne := hok.threaded.ne_null first List.mem_cons_self
      obtain ⟨hnot, hnodup⟩ := List.nodup_cons.mp hok.nodup
      rw [hfirst, if_neg hne] at hallocated
      refine ⟨rest, ?_, hnodup, fun page hpage => hok.inside page (List.mem_cons_of_mem _ hpage),
        fun page hpage => ?_, fun page => ?_⟩
      · rw [hkmem]
        exact hrep.threaded
      · rw [hallocated, Finset.mem_insert, not_or]
        exact ⟨fun heq => hnot (heq ▸ hpage), hok.apart page (List.mem_cons_of_mem _ hpage)⟩
      · rw [← hok.whole, hallocated, Finset.mem_insert, List.mem_cons]
        tauto

theorem Conserved.allocatable (hok : Conserved kernelEnd state free) (hram : kernelEnd ≤ physTop)
    {page : ℕ} (hpage : page ∈ state.allocated) : Allocatable kernelEnd page :=
  (wholePage_iff hram page).mp ((hok.whole page).mp (.inr hpage))

theorem Conserved.kpmfree (hok : Conserved kernelEnd state free) (hkernel : kernBase ≤ kernelEnd)
    (hram : kernelEnd ≤ physTop) {pa : ℕ} (hpa : pa ∈ state.allocated) :
    ∃ kmem, FreePages.kpmfree kernelEnd state.kmem pa = .ok kmem ∧
      Conserved kernelEnd ⟨kmem, state.allocated.erase pa⟩ (pa :: free) := by
  have hgood := hok.allocatable hram hpa
  have hnot : pa ∉ free := fun hmem => hok.apart pa hmem hpa
  obtain ⟨kmem, pm, hfree, -, hrep, hlist⟩ :=
    kpmfree_refines hok.represents hkernel hok.inside hgood hnot
  have hlist : pm.freelist = pa :: free := hlist
  refine ⟨kmem, hfree, hlist ▸ hrep.threaded, List.nodup_cons.mpr ⟨hnot, hok.nodup⟩,
    List.forall_mem_cons.mpr ⟨hgood, hok.inside⟩, fun page hpage hmem => ?_, fun page => ?_⟩
  · obtain ⟨hne, hmem⟩ := Finset.mem_erase.mp hmem
    obtain heq | hpage := List.mem_cons.mp hpage
    · exact hne heq
    · exact hok.apart page hpage hmem
  · rw [← hok.whole, List.mem_cons, Finset.mem_erase]
    by_cases heq : page = pa
    · subst heq
      exact iff_of_true (.inl (.inl rfl)) (.inr hpa)
    · simp [heq]

theorem Conserved.write (hok : Conserved kernelEnd state free) (hram : kernelEnd ≤ physTop)
    {after : State} (hstep : Step kernelEnd state .write after) : Conserved kernelEnd after free := by
  obtain ⟨hwrites, hhead, hallocated⟩ := hstep
  refine ⟨?_, hok.nodup, hok.inside, hallocated ▸ hok.apart, hallocated ▸ hok.whole⟩
  rw [hhead]
  apply hok.threaded.congr
  intro page hpage
  have hagree : AgreeOn state.kmem.mem after.kmem.mem page (page + 8) := by
    intro x hlo hhi
    by_contra hchanged
    have hfree := (hok.whole page).mp (.inl hpage)
    obtain ⟨other, hother, hin⟩ | hbelow | habove := hwrites x hchanged
    · have hapart := pages_apart (hok.inside page hpage).aligned
        (hok.allocatable hram hother).aligned fun heq => hok.apart page hpage (heq ▸ hother)
      simp only [pgSize] at *
      omega
    · have hpageLo := hfree.lo
      omega
    · have hpageHi := hfree.hi
      simp only [pgSize] at *
      omega
  exact hagree.load_eq

theorem Conserved.step (hok : Conserved kernelEnd state free) (hkernel : kernBase ≤ kernelEnd)
    (hram : kernelEnd ≤ physTop) {action : Action} {after : State}
    (hstep : Step kernelEnd state action after) : ∃ free', Conserved kernelEnd after free' := by
  cases action with
  | kpmalloc => exact hok.kpmalloc hstep
  | kpmfree pa =>
      obtain ⟨hpa, hfree, hallocated⟩ := hstep
      obtain ⟨kmem, hfree', hafter⟩ := hok.kpmfree hkernel hram hpa
      obtain ⟨kmem', allocated⟩ := after
      obtain rfl : allocated = state.allocated.erase pa := hallocated
      obtain rfl : kmem = kmem' := Except.ok.inj (hfree'.symm.trans hfree)
      exact ⟨pa :: free, hafter⟩
  | write => exact ⟨free, hok.write hram hstep⟩

end Steps

/-! ## The allocator from boot on -/

section Boot

variable {kernelEnd : ℕ}

/-- `freerange` takes every page from `p` on. -/
theorem freerangeLoop_spec (hkernel : kernBase ≤ kernelEnd) {start : ℕ} (hstart : kernelEnd ≤ start)
    {rounds p : ℕ} {kmem : Kmem} {free : List ℕ} (hp : p % pgSize = 0) (hle : start ≤ p)
    (hrounds : (physTop - p) / pgSize < rounds)
    (hlist : Threaded (next kmem.mem) 0 kmem.freelist free)
    (hfree : ∀ page, page ∈ free ↔
      page % pgSize = 0 ∧ start ≤ page ∧ page < p ∧ page + pgSize ≤ physTop) :
    ∃ kmem' free', freerangeLoop kernelEnd physTop rounds p kmem = .ok kmem' ∧
      Threaded (next kmem'.mem) 0 kmem'.freelist free' ∧
      ∀ page, page ∈ free' ↔ page % pgSize = 0 ∧ start ≤ page ∧ page + pgSize ≤ physTop := by
  induction rounds generalizing p kmem free with
  | zero => exact absurd hrounds (Nat.not_lt_zero _)
  | succ rounds ih =>
      rw [freerangeLoop]
      by_cases hmore : p + pgSize ≤ physTop
      · have hgood : Allocatable kernelEnd p :=
          ⟨hp, hstart.trans hle, by simp only [pgSize] at hmore; omega⟩
        have hinside : ∀ other ∈ free, Allocatable kernelEnd other := by
          intro other hother
          obtain ⟨haligned, hlo, -, hhi⟩ := (hfree other).mp hother
          exact ⟨haligned, hstart.trans hlo, by simp only [pgSize] at hhi; omega⟩
        have hnot : p ∉ free := fun hmem => lt_irrefl p ((hfree p).mp hmem).2.2.1
        obtain ⟨kmem', pm, hkpmfree, -, hrep, hpm⟩ :=
          kpmfree_refines (⟨rfl, hlist⟩ : Represents kmem ⟨kmem.mem, free⟩) hkernel hinside hgood
            hnot
        have hpm : pm.freelist = p :: free := hpm
        rw [if_pos hmore, hkpmfree]
        apply ih (by simp only [pgSize] at *; omega) (by omega)
          (by simp only [pgSize] at *; omega) (hpm ▸ hrep.threaded)
        intro page
        rw [List.mem_cons, hfree]
        constructor
        · rintro (rfl | ⟨haligned, hlo, hhi, htop⟩)
          · exact ⟨hp, hle, by simp only [pgSize]; omega, hmore⟩
          · exact ⟨haligned, hlo, by omega, htop⟩
        · rintro ⟨haligned, hlo, hhi, htop⟩
          by_cases heq : page = p
          · exact .inl heq
          · refine .inr ⟨haligned, hlo, ?_, htop⟩
            simp only [pgSize] at *
            omega
      · rw [if_neg hmore]
        refine ⟨kmem, free, rfl, hlist, fun page => ?_⟩
        rw [hfree]
        constructor
        · exact fun hpage => ⟨hpage.1, hpage.2.1, hpage.2.2.2⟩
        · rintro ⟨haligned, hlo, htop⟩
          exact ⟨haligned, hlo, by omega, htop⟩

theorem kpminit_conserved (hkernel : kernBase ≤ kernelEnd) (hram : kernelEnd ≤ physTop)
    (mem : Mem) :
    ∃ kmem free, kpminit kernelEnd mem = .ok kmem ∧ Conserved kernelEnd ⟨kmem, ∅⟩ free := by
  have htop : physTop = 2 ^ 31 + 2 ^ 27 := by decide
  have hround : pgRoundUp kernelEnd % pgSize = 0 ∧ kernelEnd ≤ pgRoundUp kernelEnd := by
    simp only [pgRoundUp, pgSize]
    omega
  obtain ⟨kmem, free, hinit, hlist, hfree⟩ :=
    @freerangeLoop_spec kernelEnd hkernel (pgRoundUp kernelEnd) hround.2
      ((physTop - pgRoundUp kernelEnd) / pgSize + 1) (pgRoundUp kernelEnd) ⟨mem, 0⟩ [] hround.1
      le_rfl (Nat.lt_succ_self _) rfl fun page => iff_of_false List.not_mem_nil (by omega)
  have hwhole : ∀ page, page ∈ free ↔ WholePage kernelEnd page := fun page =>
    (hfree page).trans ⟨fun h => ⟨h.1, h.2.1, h.2.2⟩, fun h => ⟨h.aligned, h.lo, h.hi⟩⟩
  refine ⟨kmem, free, hinit, hlist, hlist.nodup, fun page hpage => ?_, by simp, by simp [hwhole]⟩
  exact (wholePage_iff hram page).mp ((hwhole page).mp hpage)

theorem exists_conserved (hkernel : kernBase ≤ kernelEnd) (hram : kernelEnd ≤ physTop) {mem : Mem}
    {kmem : Kmem} {state : State} (hinit : kpminit kernelEnd mem = .ok kmem)
    (hreach : Reach (Step kernelEnd) Unguarded ⟨kmem, ∅⟩ state) :
    ∃ free, Conserved kernelEnd state free := by
  obtain ⟨booted, free, hbooted, hstart⟩ := kpminit_conserved hkernel hram mem
  obtain rfl : booted = kmem := Except.ok.inj (hbooted.symm.trans hinit)
  apply hreach.invariant ⟨free, hstart⟩
  rintro before action after ⟨free, hok⟩ - hstep
  exact hok.step hkernel hram hstep

/-- After `kpminit`, in every run: the free pages and the allocated pages are all the pages there
are, `kpmalloc` fails only when all of them are allocated, and `kpmfree` takes every allocated
page. -/
theorem pages_conserved (hkernel : kernBase ≤ kernelEnd) (hram : kernelEnd ≤ physTop) (mem : Mem) :
    ∃ kmem, kpminit kernelEnd mem = .ok kmem ∧
      ∀ state, Reach (Step kernelEnd) Unguarded ⟨kmem, ∅⟩ state →
        (∃ free, Conserved kernelEnd state free) ∧
        ((kpmalloc state.kmem).1 = 0 → ∀ page, WholePage kernelEnd page → page ∈ state.allocated) ∧
        ∀ pa ∈ state.allocated, ∃ after, kpmfree kernelEnd state.kmem pa = .ok after := by
  obtain ⟨kmem, -, hinit, -⟩ := kpminit_conserved hkernel hram mem
  refine ⟨kmem, hinit, fun state hreach => ?_⟩
  obtain ⟨free, hok⟩ := exists_conserved hkernel hram hinit hreach
  refine ⟨⟨free, hok⟩, fun hnull page hpage => ?_, fun pa hpa => ?_⟩
  · have hempty : free = [] := by
      rw [← hok.threaded.eq_nil_iff]
      by_contra hne
      rw [kpmalloc, if_pos hne] at hnull
      exact hne hnull
    obtain hfree | hallocated := (hok.whole page).mpr hpage
    · exact absurd hfree (hempty ▸ List.not_mem_nil)
    · exact hallocated
  · obtain ⟨after, hafter, -⟩ := hok.kpmfree hkernel hram hpa
    exact ⟨after, hafter⟩

/-- A kernel that leaves two pages. -/
theorem pages_conserved_two : ∃ kmem, kpminit 0x87ffdfff (fun _ => 0) = .ok kmem ∧
    ∀ state, Reach (Step 0x87ffdfff) Unguarded ⟨kmem, ∅⟩ state →
      (∃ free, Conserved 0x87ffdfff state free) ∧
      ((kpmalloc state.kmem).1 = 0 →
        ∀ page, WholePage 0x87ffdfff page → page ∈ state.allocated) ∧
      ∀ pa ∈ state.allocated, ∃ after, kpmfree 0x87ffdfff state.kmem pa = .ok after :=
  pages_conserved (by decide) (by decide) fun _ => 0

end Boot

end Painting.FreePages
