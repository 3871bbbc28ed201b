import Painting.Mm.FreePages

/-!
# Several pages at once

`kpm_multiple_alloc` takes the first pages of the free list for a range, and follows the list
further than it goes.  `kpm_multiple_free` fills the range with junk and then follows the links in
it, which the junk has overwritten.
-/

namespace Painting.FreePages

open Painting.Memory Painting.Transition
open Painting.LinkedList (Threaded)
open Painting.PageTable (Panic Allocatable pgSize physTop kernBase pgRoundUp)

/-! ## The code -/

/-- The addresses that the kernel can write: the memory up to `PHYSTOP`.  `NULL` and what the junk
reads as a pointer are not mapped. -/
def Mapped (addr count : ℕ) : Prop := kernBase ≤ addr ∧ addr + count ≤ physTop

instance (addr count : ℕ) : Decidable (Mapped addr count) := inferInstanceAs (Decidable (_ ∧ _))

/-- `r->next`, or a page fault. -/
def readNext (mem : Mem) (r : ℕ) : Option ℕ := if Mapped r 8 then some (next mem r) else none

/-- `memset`, or a page fault. -/
def memset (mem : Mem) (addr : ℕ) (value : UInt8) (count : ℕ) : Option Mem :=
  if Mapped addr count then some (fill mem addr value count) else none

/-- The loop of `kpm_multiple_alloc`: `r` and `kmem.freelist` at its end. -/
def takeLoop (mem : Mem) : ℕ → ℕ → ℕ → Option (ℕ × ℕ)
  | 0, r, freelist => some (r, freelist)
  | rounds + 1, r, freelist =>
      if r ≠ 0 then (readNext mem freelist).bind (takeLoop mem rounds r) else some (0, r)

/-- `kpm_multiple_alloc`; `none` is a page fault. -/
def kpmMultipleAlloc (kmem : Kmem) (pageNum : ℕ) : Option (ℕ × Kmem) :=
  (takeLoop kmem.mem pageNum kmem.freelist kmem.freelist).bind fun (r, freelist) =>
    if r ≠ 0 then (memset kmem.mem r 5 (pgSize * pageNum)).map fun mem => (r, ⟨mem, freelist⟩)
    else some (r, ⟨kmem.mem, freelist⟩)

/-- The loop of `kpm_multiple_free`. -/
def followLoop (mem : Mem) : ℕ → ℕ → Option ℕ
  | 0, tmp => some tmp
  | rounds + 1, tmp => (readNext mem tmp).bind (followLoop mem rounds)

/-- `kpm_multiple_free`; `none` is a page fault. -/
def kpmMultipleFree (kernelEnd : ℕ) (kmem : Kmem) (pa pageNum : ℕ) : Option (Except Panic Kmem) :=
  if pa % pgSize ≠ 0 ∨ pa < kernelEnd ∨ physTop ≤ pa then some (.error .kpmfree)
  else
    (memset kmem.mem pa 1 (pgSize * pageNum)).bind fun mem =>
      (followLoop mem pageNum pa).bind fun tmp =>
        if Mapped tmp 8 then some (.ok ⟨store mem tmp 8 kmem.freelist, pa⟩) else none

/-! ## What a range is for -/

/-- The pages `r`, `r + PGSIZE` and so on have left the free list, and nothing else has changed. -/
structure TookRange (before after : Kmem) (free : List ℕ) (r k : ℕ) : Prop where
  taken : ∀ i < k, r + i * pgSize ∈ free
  rest : ∃ free', Threaded (next after.mem) 0 after.freelist free' ∧
    ∀ page, page ∈ free' ↔ page ∈ free ∧ ∀ i < k, page ≠ r + i * pgSize
  contents : ∀ x, x < r ∨ r + k * pgSize ≤ x → after.mem x = before.mem x

/-- The pages of the range have come to the free list. -/
def GaveRange (after : Kmem) (free : List ℕ) (r k : ℕ) : Prop :=
  ∃ free', Threaded (next after.mem) 0 after.freelist free' ∧
    ∀ page, page ∈ free' ↔ page ∈ free ∨ ∃ i < k, page = r + i * pgSize

/-- `kpm_multiple_alloc(k)` takes a range or returns `NULL`, with the free list as it was. -/
def AllocOk (kmem : Kmem) (free : List ℕ) (k : ℕ) : Prop :=
  ∃ r after, kpmMultipleAlloc kmem k = some (r, after) ∧
    (r = 0 ∧ after = kmem ∨ r ≠ 0 ∧ TookRange kmem after free r k)

/-- Both functions do their work: a range that has been taken can be given back. -/
structure MultipleOk (kernelEnd : ℕ) (kmem : Kmem) (free : List ℕ) (k : ℕ) : Prop where
  alloc : AllocOk kmem free k
  giveBack : ∀ r after rest, kpmMultipleAlloc kmem k = some (r, after) → r ≠ 0 →
    Threaded (next after.mem) 0 after.freelist rest →
    ∃ given, kpmMultipleFree kernelEnd after r k = some (.ok given) ∧ GaveRange given rest r k

/-! ## Taking -/

section Taking

variable {mem : Mem} {head r k : ℕ} {free : List ℕ} {kernelEnd : ℕ}

theorem mapped_of_allocatable (hkernel : kernBase ≤ kernelEnd) {page : ℕ}
    (hpage : Allocatable kernelEnd page) : Mapped page 8 := by
  have htop : physTop % pgSize = 0 := by decide
  obtain ⟨haligned, hlo, hhi⟩ := hpage
  refine ⟨hkernel.trans hlo, ?_⟩
  simp only [pgSize] at *
  omega

/-- The loop follows the list as far as it goes, and faults behind its end. -/
theorem takeLoop_eq (hr : r ≠ 0) (hlist : Threaded (next mem) 0 head free)
    (hmapped : ∀ page ∈ free, Mapped page 8) :
    (k ≤ free.length ∧ ∃ head', takeLoop mem k r head = some (r, head') ∧
      Threaded (next mem) 0 head' (free.drop k)) ∨
    (free.length < k ∧ takeLoop mem k r head = none) := by
  induction k generalizing head free with
  | zero => exact .inl ⟨Nat.zero_le _, head, rfl, hlist⟩
  | succ k ih =>
      rw [takeLoop, if_pos hr]
      cases free with
      | nil =>
          obtain rfl : head = 0 := hlist
          exact .inr ⟨Nat.succ_pos k, by rw [readNext, if_neg (by decide), Option.bind_none]⟩
      | cons first rest =>
          obtain ⟨rfl, -, hrest⟩ := hlist
          rw [readNext, if_pos (hmapped head List.mem_cons_self), Option.bind_some]
          obtain ⟨hle, hfound⟩ | ⟨hlt, hnone⟩ :=
            ih hrest fun page hpage => hmapped page (List.mem_cons_of_mem _ hpage)
          · exact .inl ⟨Nat.succ_le_succ hle, hfound⟩
          · exact .inr ⟨Nat.succ_lt_succ hlt, hnone⟩

/-- `k` different pages inside a range of `k` pages are all of its pages. -/
theorem mem_iff_of_inside {taken : List ℕ} (hnodup : taken.Nodup) (hlength : taken.length = k)
    (haligned : ∀ page ∈ taken, page % pgSize = r % pgSize)
    (hinside : ∀ page ∈ taken, r ≤ page ∧ page < r + k * pgSize) (page : ℕ) :
    page ∈ taken ↔ ∃ i < k, page = r + i * pgSize := by
  have hsub : taken.toFinset ⊆ (Finset.range k).image fun i => r + i * pgSize := by
    intro page hpage
    have hpage := List.mem_toFinset.mp hpage
    obtain ⟨hlo, hhi⟩ := hinside page hpage
    have hsame := haligned page hpage
    refine Finset.mem_image.mpr ⟨(page - r) / pgSize, Finset.mem_range.mpr ?_, ?_⟩ <;>
      simp only [pgSize] at * <;> omega
  have hcard : ((Finset.range k).image fun i => r + i * pgSize).card ≤ taken.toFinset.card := by
    rw [List.toFinset_card_of_nodup hnodup, hlength]
    exact Finset.card_image_le.trans_eq (Finset.card_range k)
  rw [← List.mem_toFinset, Finset.eq_of_subset_of_card_le hsub hcard]
  simp only [Finset.mem_image, Finset.mem_range, eq_comm]

/-- Junk in a range leaves the link of a page outside it. -/
theorem next_fillRange {page : ℕ} (hsame : page % pgSize = r % pgSize)
    (hout : ∀ i < k, page ≠ r + i * pgSize) (value : UInt8) :
    next (fill mem r value (pgSize * k)) page = next mem page := by
  have hapart : page + 8 ≤ r ∨ r + pgSize * k ≤ page := by
    by_contra hinside
    rw [not_or, not_le, not_le] at hinside
    refine hout ((page - r) / pgSize) ?_ ?_ <;> simp only [pgSize] at * <;> omega
  exact (fill_agreeOn mem (by omega)).load_eq

variable {kmem : Kmem}

theorem kpmMultipleAlloc_null (hnull : kmem.freelist = 0) (hk : 0 < k) :
    kpmMultipleAlloc kmem k = some (0, kmem) := by
  obtain ⟨k, rfl⟩ := Nat.exists_eq_add_of_lt hk
  obtain ⟨mem, freelist⟩ := kmem
  obtain rfl : freelist = 0 := hnull
  rw [kpmMultipleAlloc, Nat.zero_add, takeLoop, if_neg (not_not.mpr rfl)]
  rfl

/-- A list that is not empty is taken from its first page on, or it is too short, or the range does
not fit in the memory. -/
theorem kpmMultipleAlloc_cases (hne : kmem.freelist ≠ 0)
    (hlist : Threaded (next kmem.mem) 0 kmem.freelist free)
    (hmapped : ∀ page ∈ free, Mapped page 8) :
    (k ≤ free.length ∧ Mapped kmem.freelist (pgSize * k) ∧ ∃ head,
      kpmMultipleAlloc kmem k =
        some (kmem.freelist, ⟨fill kmem.mem kmem.freelist 5 (pgSize * k), head⟩) ∧
      Threaded (next kmem.mem) 0 head (free.drop k)) ∨
    (¬ (k ≤ free.length ∧ Mapped kmem.freelist (pgSize * k)) ∧
      kpmMultipleAlloc kmem k = none) := by
  rw [kpmMultipleAlloc]
  obtain ⟨hle, head, htake, hrest⟩ | ⟨hlt, hnone⟩ := takeLoop_eq (k := k) hne hlist hmapped
  · rw [htake, Option.bind_some]
    dsimp only
    rw [if_pos hne, memset]
    by_cases hfits : Mapped kmem.freelist (pgSize * k)
    · rw [if_pos hfits]
      exact .inl ⟨hle, hfits, head, rfl, hrest⟩
    · rw [if_neg hfits]
      exact .inr ⟨fun hboth => hfits hboth.2, rfl⟩
  · rw [hnone]
    exact .inr ⟨fun hboth => absurd hboth.1 (by omega), rfl⟩

/-- The pages taken are the range exactly when they lie in it. -/
theorem tookRange_iff (hlist : Threaded (next kmem.mem) 0 kmem.freelist free)
    (haligned : ∀ page ∈ free, page % pgSize = kmem.freelist % pgSize) (hle : k ≤ free.length)
    (hrest : Threaded (next kmem.mem) 0 head (free.drop k)) :
    TookRange kmem ⟨fill kmem.mem kmem.freelist 5 (pgSize * k), head⟩ free kmem.freelist k ↔
      ∀ page ∈ free.take k, kmem.freelist ≤ page ∧ page < kmem.freelist + k * pgSize := by
  have hnodup := hlist.nodup
  have hapart : ∀ page ∈ free.take k, page ∉ free.drop k :=
    List.disjoint_take_drop hnodup le_rfl
  constructor
  · rintro ⟨-, ⟨free', hthreaded, hmem⟩, -⟩ page hpage
    have hback : Threaded (next kmem.mem) 0 head free' := by
      apply hthreaded.congr
      intro other hother
      obtain ⟨hfree, hout⟩ := (hmem other).mp hother
      exact (next_fillRange (haligned other hfree) hout 5).symm
    obtain rfl := hback.unique hrest
    have hfree := List.mem_of_mem_take hpage
    have hsame := haligned page hfree
    obtain ⟨i, hi, rfl⟩ : ∃ i < k, page = kmem.freelist + i * pgSize := by
      by_contra hnone
      exact hapart page hpage ((hmem page).mpr ⟨hfree, fun i hi heq => hnone ⟨i, hi, heq⟩⟩)
    simp only [pgSize]
    omega
  · intro hinside
    have hrange := mem_iff_of_inside (hnodup.sublist (List.take_sublist k free))
      (List.length_take_of_le hle) (fun page hpage => haligned page (List.mem_of_mem_take hpage))
      hinside
    have hmem : ∀ page, page ∈ free.drop k ↔
        page ∈ free ∧ ∀ i < k, page ≠ kmem.freelist + i * pgSize := by
      intro page
      rw [← List.take_append_drop k free, List.mem_append]
      constructor
      · intro hpage
        refine ⟨.inr (by simpa using hpage), fun i hi heq => ?_⟩
        exact hapart page ((hrange page).mpr ⟨i, hi, heq⟩) (by simpa using hpage)
      · rintro ⟨htaken | hpage, hout⟩
        · obtain ⟨i, hi, heq⟩ := (hrange page).mp (by simpa using htaken)
          exact absurd heq (hout i hi)
        · simpa using hpage
    refine ⟨fun i hi => List.mem_of_mem_take ((hrange _).mpr ⟨i, hi, rfl⟩),
      ⟨free.drop k, ?_, hmem⟩, fun x hx => fill_apply_of_out _ (by rwa [Nat.mul_comm pgSize k])⟩
    apply hrest.congr
    intro page hpage
    obtain ⟨hfree, hout⟩ := (hmem page).mp hpage
    exact next_fillRange (haligned page hfree) hout 5

/-- `kpm_multiple_alloc` on a list of pages. -/
theorem allocOk_iff (hkernel : kernBase ≤ kernelEnd) (hk : 0 < k)
    (hlist : Threaded (next kmem.mem) 0 kmem.freelist free)
    (hinside : ∀ page ∈ free, Allocatable kernelEnd page) :
    AllocOk kmem free k ↔ kmem.freelist = 0 ∨ k ≤ free.length ∧
      ∀ page ∈ free.take k, kmem.freelist ≤ page ∧ page < kmem.freelist + k * pgSize := by
  by_cases hne : kmem.freelist = 0
  · exact iff_of_true ⟨0, kmem, kpmMultipleAlloc_null hne hk, .inl ⟨rfl, rfl⟩⟩ (.inl hne)
  rw [or_iff_right hne]
  have hmapped : ∀ page ∈ free, Mapped page 8 := fun page hpage =>
    mapped_of_allocatable hkernel (hinside page hpage)
  have hhead : kmem.freelist ∈ free := by
    cases free with
    | nil => exact absurd hlist hne
    | cons first rest => exact hlist.1 ▸ List.mem_cons_self
  have haligned : ∀ page ∈ free, page % pgSize = kmem.freelist % pgSize := fun page hpage =>
    (hinside page hpage).aligned.trans (hinside _ hhead).aligned.symm
  obtain ⟨hle, hfits, head, halloc, hrest⟩ | ⟨hnot, hnone⟩ :=
    kpmMultipleAlloc_cases (k := k) hne hlist hmapped
  · rw [and_iff_right hle, ← tookRange_iff hlist haligned hle hrest]
    constructor
    · rintro ⟨r, after, hresult, hcase⟩
      obtain ⟨rfl, rfl⟩ := Prod.mk.inj (Option.some.inj (halloc.symm.trans hresult))
      exact hcase.elim (fun hnull => absurd hnull.1 hne) And.right
    · exact fun htook => ⟨_, _, halloc, .inr ⟨hne, htook⟩⟩
  · refine iff_of_false ?_ fun hrange => ?_
    · rintro ⟨r, after, hresult, -⟩
      rw [hnone] at hresult
      cases hresult
    · obtain ⟨hle, htaken⟩ := hrange
      refine hnot ⟨hle, (mapped_of_allocatable hkernel (hinside _ hhead)).1, ?_⟩
      have hlast := (mem_iff_of_inside (hlist.nodup.sublist (List.take_sublist k free))
        (List.length_take_of_le hle) (fun page hpage => haligned page (List.mem_of_mem_take hpage))
        htaken (kmem.freelist + (k - 1) * pgSize)).mpr ⟨k - 1, by omega, rfl⟩
      obtain ⟨hlastAligned, -, hlastHi⟩ := hinside _ (List.mem_of_mem_take hlast)
      have htop : physTop % pgSize = 0 := by decide
      simp only [pgSize] at *
      omega

end Taking

/-! ## Giving back -/

section Giving

variable {kmem : Kmem} {kernelEnd pa k : ℕ}

/-- The link in a page of junk. -/
theorem next_junk (mem : Mem) {count : ℕ} (hcount : 8 ≤ count) :
    next (fill mem pa 1 count) pa = 0x0101010101010101 := by
  have hagree : AgreeOn (fun _ => 1) (fill mem pa 1 count) pa (pa + 8) := fun x hlo hhi =>
    fill_apply_of_in mem hlo (by omega)
  rw [next, hagree.load_eq]
  simp [load]

/-- `kpm_multiple_free` gives nothing back: it follows the junk. -/
theorem kpmMultipleFree_ne_ok (hk : 0 < k) (given : Kmem) :
    kpmMultipleFree kernelEnd kmem pa k ≠ some (.ok given) := by
  rw [kpmMultipleFree]
  split
  · exact fun hresult => by cases hresult
  · intro hresult
    obtain ⟨mem, hfill, hresult⟩ := Option.bind_eq_some_iff.mp hresult
    obtain ⟨tmp, hfollow, hresult⟩ := Option.bind_eq_some_iff.mp hresult
    rw [memset] at hfill
    split at hfill
    · obtain rfl := Option.some.inj hfill
      have hjunk := @next_junk pa kmem.mem (pgSize * k) (by simp only [pgSize]; omega)
      obtain ⟨k, rfl⟩ := Nat.exists_eq_add_of_lt hk
      rw [Nat.zero_add] at *
      rw [followLoop, readNext] at hfollow
      split at hfollow
      · rw [Option.bind_some, hjunk] at hfollow
        cases k with
        | zero =>
            obtain rfl := Option.some.inj hfollow
            rw [if_neg (by decide)] at hresult
            cases hresult
        | succ k =>
            rw [followLoop, readNext, if_neg (by decide)] at hfollow
            cases hfollow
      · cases hfollow
    · cases hfill

end Giving

/-! ## Reachable free lists -/

section Reachable

variable {kernelEnd k : ℕ} {mem : Mem} {kmem : Kmem} {state : State}

/-- In every run: both functions do their work only while there is nothing to take, and what is
taken is a range exactly when the first `k` pages of the list lie in the `k` pages from its first
on. -/
theorem multipleOk_iff (hkernel : kernBase ≤ kernelEnd) (hram : kernelEnd ≤ physTop)
    (hinit : kpminit kernelEnd mem = .ok kmem)
    (hreach : Reach (Step kernelEnd) Unguarded ⟨kmem, ∅⟩ state) (hk : 0 < k) :
    ∃ free, Conserved kernelEnd state free ∧
      (MultipleOk kernelEnd state.kmem free k ↔ state.kmem.freelist = 0) ∧
      (AllocOk state.kmem free k ↔ state.kmem.freelist = 0 ∨ k ≤ free.length ∧
        ∀ page ∈ free.take k,
          state.kmem.freelist ≤ page ∧ page < state.kmem.freelist + k * pgSize) := by
  obtain ⟨free, hok⟩ := exists_conserved hkernel hram hinit hreach
  have halloc := allocOk_iff hkernel hk hok.threaded hok.inside
  refine ⟨free, hok, ⟨fun hboth => ?_, fun hnull => ⟨halloc.mpr (.inl hnull), ?_⟩⟩, halloc⟩
  · by_contra hne
    obtain ⟨r, after, hresult, hcase⟩ := hboth.alloc
    obtain ⟨rfl, rfl⟩ | ⟨hr, htook⟩ := hcase
    · obtain ⟨-, -, head, hfound, -⟩ | ⟨-, hnone⟩ :=
        kpmMultipleAlloc_cases (k := k) hne hok.threaded fun page hpage =>
          mapped_of_allocatable hkernel (hok.inside page hpage)
      · exact hne (Prod.mk.inj (Option.some.inj (hfound.symm.trans hresult))).1
      · rw [hnone] at hresult
        cases hresult
    · obtain ⟨rest, hrest, -⟩ := htook.rest
      obtain ⟨given, hgiven, -⟩ := hboth.giveBack r after rest hresult hr hrest
      exact kpmMultipleFree_ne_ok hk given hgiven
  · intro r after rest hresult hr
    rw [kpmMultipleAlloc_null hnull hk] at hresult
    exact absurd (Prod.mk.inj (Option.some.inj hresult)).1.symm hr

/-- A kernel that leaves two pages. -/
theorem multipleOk_twoPages : ∃ kmem, kpminit 0x87ffdfff (fun _ => 0) = .ok kmem ∧
    ∃ free, Conserved 0x87ffdfff ⟨kmem, ∅⟩ free ∧
      (MultipleOk 0x87ffdfff kmem free 1 ↔ kmem.freelist = 0) ∧
      (AllocOk kmem free 1 ↔ kmem.freelist = 0 ∨ 1 ≤ free.length ∧
        ∀ page ∈ free.take 1, kmem.freelist ≤ page ∧ page < kmem.freelist + 1 * pgSize) := by
  obtain ⟨kmem, free, hinit, -⟩ := kpminit_conserved (show kernBase ≤ 0x87ffdfff by decide)
    (show 0x87ffdfff ≤ physTop by decide) fun _ => 0
  exact ⟨kmem, hinit, multipleOk_iff (by decide) (by decide) hinit .refl Nat.one_pos⟩

/-- Two pages asked of that kernel: the first of the list is the last of the memory, so that the
range ends behind it. -/
theorem not_multipleOk_twoPages : ∃ kmem, kpminit 0x87ffdfff (fun _ => 0) = .ok kmem ∧
    ∀ free, ¬ AllocOk kmem free 2 ∧ ¬ MultipleOk 0x87ffdfff kmem free 2 := by
  obtain ⟨kmem, free, hinit, -⟩ := kpminit_conserved (show kernBase ≤ 0x87ffdfff by decide)
    (show 0x87ffdfff ≤ physTop by decide) fun _ => 0
  have hfault : (kpminit 0x87ffdfff fun _ => 0).map
      (fun kmem => (kpmMultipleAlloc kmem 2).isNone) = .ok true := by decide +kernel
  rw [hinit] at hfault
  have hnone : kpmMultipleAlloc kmem 2 = none := Option.isNone_iff_eq_none.mp (Except.ok.inj hfault)
  have hnot : ∀ free, ¬ AllocOk kmem free 2 := by
    rintro free ⟨r, after, hresult, -⟩
    rw [hnone] at hresult
    cases hresult
  exact ⟨kmem, hinit, fun free => ⟨hnot free, fun hboth => hnot free hboth.alloc⟩⟩

end Reachable

end Painting.FreePages
