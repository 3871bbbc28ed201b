import Painting.Mm.SpaceLife
import Painting.Mm.UserCopy

/-!
# Growing an address space

`uvmalloc` grows a user table or leaves it as it was: wherever `kpmalloc` fails, in
`uvmalloc` itself or in `walk` below `mappages`, the pages that were already mapped are
given back.  Only tables that `walk` has linked stay.
-/

namespace Painting.PageTable

open Painting.Memory

variable {kernelEnd root : ℕ} {region : Set ℕ} {pm : Pm} {tables : ℕ → Set ℕ}

/-- Two addresses whose frames coincide lie in one page. -/
theorem Owned.page_inj (hown : Owned kernelEnd region pm root tables) {va va' page flags flags' : ℕ}
    (hva : va < maxVa) (hva' : va' < maxVa)
    (htranslate : translate pm.mem root va = some (page + va % pgSize, flags))
    (huser : flags &&& pteU ≠ 0)
    (htranslate' : translate pm.mem root va' = some (page + va' % pgSize, flags'))
    (huser' : flags' &&& pteU ≠ 0) : va / pgSize = va' / pgSize := by
  obtain ⟨leaf, hlookup, hpa, -, hleaf⟩ := hown.tree.userLeaf htranslate huser
  obtain ⟨leaf', hlookup', hpa', -, hleaf'⟩ := hown.tree.userLeaf htranslate' huser'
  rw [← Nat.add_right_cancel hpa] at hleaf
  rw [← Nat.add_right_cancel hpa'] at hleaf'
  obtain ⟨rfl, hidx⟩ := Prod.mk.inj (hown.inj _ _ _ hleaf hleaf')
  exact hown.tree.slot_inj hva hva' hlookup hlookup' hidx

/-- Nothing is mapped up to the end of a page when nothing is mapped in it. -/
theorem unmapped_roundUp {mem : Mem} {lo hi : ℕ} (haligned : lo % pgSize = 0) (hhi : hi ≤ maxVa)
    (hnone : ∀ va, lo ≤ va → va < hi → translate mem root va = none) {va : ℕ} (hlo : lo ≤ va)
    (hva : va < pgRoundUp hi) : translate mem root va = none := by
  have hup := pgRoundUp_eq hhi
  have hbase : lo ≤ pgRoundDown va ∧ pgRoundDown va < hi := by
    simp only [pgRoundDown, pgSize] at haligned ⊢
    omega
  cases htranslate : translate mem root va with
  | none => rfl
  | some found =>
      have hpage := translate_page (pgRoundDown_div va).symm htranslate
      rw [hnone _ hbase.1 hbase.2] at hpage
      cases hpage

/-- Exactly the pages of `[lo, hi)` were added, each mapped to a zeroed frame of its own that
was free. -/
structure Added (pm pm' : Pm) (root lo hi flags : ℕ) : Prop where
  pages : ZeroPages pm pm' root lo hi flags
  distinct : ∀ va va' page, lo ≤ va → va < hi → lo ≤ va' → va' < hi →
    translate pm'.mem root va = some (page + va % pgSize, flags) →
    translate pm'.mem root va' = some (page + va' % pgSize, flags) → va / pgSize = va' / pgSize
  others : SameOutside pm.mem pm'.mem root lo hi

/-- Every translation is as before, and every page that was taken from the free list is on it
again, once, or is a table. -/
structure RolledBack (pm pm' : Pm) (root : ℕ) (tables' : ℕ → Set ℕ) : Prop where
  same : ∀ va < maxVa, translate pm'.mem root va = translate pm.mem root va
  free : ∀ page ∈ pm'.freelist, page ∈ pm.freelist
  back : ∀ page ∈ pm.freelist, pm'.freelist.count page = 1 ∨ IsTable tables' page

/-- `uvmalloc` of pages that are not mapped, however much memory there is. -/
theorem uvmalloc_adds_or_rollsBack (hown : Owned kernelEnd region pm root tables)
    {oldsz newsz xperm : ℕ} (hxperm : xperm < 1024) (hle : oldsz ≤ newsz) (hnew : newsz ≤ trapFrame)
    (hnone : ∀ va, pgRoundUp oldsz ≤ va → va < newsz → translate pm.mem root va = none) :
    ∃ ret pm' tables', uvmalloc kernelEnd pm root oldsz newsz xperm = .ok (ret, pm') ∧
      Owned kernelEnd region pm' root tables' ∧ (ret = 0 ∨ ret = newsz) ∧
      (ret = 0 → 0 < newsz → RolledBack pm pm' root tables') ∧
      (ret = newsz → Added pm pm' root (pgRoundUp oldsz) (pgRoundUp newsz)
        (pteR ||| pteU ||| xperm ||| pteV)) := by
  have hmax : newsz ≤ maxVa := hnew.trans (by decide)
  have hup := pgRoundUp_eq hmax
  have hup' := pgRoundUp_eq (hle.trans hmax)
  have haligned : pgRoundUp oldsz % pgSize = 0 := by
    simp only [pgSize]
    omega
  have hlimit : pgRoundUp newsz ≤ maxVa := by
    simp only [maxVa] at hmax ⊢
    omega
  have huser := user_flags (user_mode xperm)
  obtain ⟨ret, pm', tables', halloc, hresult⟩ := hown.alloc hxperm hmax
    fun va hlo hhi => unmapped_roundUp haligned hmax hnone hlo hhi
  obtain ⟨hlt, -⟩ | ⟨-, rfl, hown', -, hzero, hsame⟩ | ⟨-, rfl, hundone, honly⟩ := hresult
  · exact absurd hle (not_le.mpr hlt)
  · have hadded : Added pm pm' root (pgRoundUp oldsz) (pgRoundUp ret)
        (pteR ||| pteU ||| xperm ||| pteV) :=
      ⟨hzero, fun va va' page _ hhi _ hhi' htranslate htranslate' =>
        hown'.page_inj (by omega) (by omega) htranslate huser htranslate' huser, hsame⟩
    exact ⟨ret, pm', tables', halloc, hown', .inr rfl, fun hzero hpos => by omega,
      fun _ => hadded⟩
  · have hback : RolledBack pm pm' root tables' := by
      refine ⟨hundone.same, hundone.allocates.free, fun page hpage => ?_⟩
      exact (honly page (.inl hpage)).imp_left (List.count_eq_one_of_mem hundone.own.nodup)
    refine ⟨0, pm', tables', halloc, hundone.own, .inl rfl, fun _ _ => hback, ?_⟩
    rintro rfl
    have hempty : pgRoundUp 0 ≤ pgRoundUp oldsz := by omega
    exact ⟨fun va hlo hhi => by omega, fun va va' page hlo hhi => by omega,
      fun va hva _ => hundone.same va hva⟩

/-- A table that was just created from seven free pages. -/
theorem exists_sevenPages : ∃ pm, uvmcreate sevenPages = (0x80301000, pm) ∧
    Owned 0x80300000 sevenPages.free pm 0x80301000 (rootOnly 0x80301000) ∧
    ∀ va, translate pm.mem 0x80301000 va = none := by
  obtain ⟨hempty, -⟩ | ⟨root, pm, -, hcreate, hown, -, hnone⟩ := boot_sevenPages.pool.create
  · cases hempty
  · obtain rfl : root = 0x80301000 := (congrArg Prod.fst hcreate).symm
    exact ⟨pm, hcreate, hown, hnone⟩

/-- It has room for two pages and their tables. -/
theorem uvmalloc_sevenPages : (uvmalloc 0x80300000 (uvmcreate sevenPages).2 0x80301000 0 8000
    pteW).toOption.map Prod.fst = some 8000 := by decide +kernel

/-- A table with two pages. -/
theorem exists_twoPages : ∃ pm tables, Owned 0x80300000 sevenPages.free pm 0x80301000 tables ∧
    ∀ va, 0 ≤ va → va < 8192 → ∃ page ∈ sevenPages.freelist, page % pgSize = 0 ∧
      translate pm.mem 0x80301000 va =
        some (page + va % pgSize, pteR ||| pteU ||| pteW ||| pteV) ∧
      ∀ k < pgSize, pm.mem (page + k) = 0 := by
  obtain ⟨pm, hcreate, hown, hnone⟩ := exists_sevenPages
  obtain ⟨ret, pm', tables', halloc, hresult⟩ :=
    @Owned.alloc _ _ _ _ _ hown 0 8000 pteW (by decide) (by decide) fun va _ _ => hnone va
  have hret := uvmalloc_sevenPages
  rw [hcreate, halloc] at hret
  obtain rfl := Option.some.inj hret
  obtain ⟨hlt, -⟩ | ⟨-, -, hown', -, hzero, -⟩ | ⟨-, hfail, -⟩ := hresult
  · cases hlt
  · refine ⟨pm', tables', hown', fun va hlo hhi => ?_⟩
    obtain ⟨page, hfree, hpage⟩ := hzero va hlo hhi
    exact ⟨page, hown.mem_of_free hfree, hpage⟩
  · cases hfail

/-- Two pages in a table that was just created. -/
theorem uvmalloc_adds_two : ∃ pm pm', uvmcreate sevenPages = (0x80301000, pm) ∧
    uvmalloc 0x80300000 pm 0x80301000 0 8000 pteW = .ok (8000, pm') ∧
    Added pm pm' 0x80301000 0 8192 (pteR ||| pteU ||| pteW ||| pteV) := by
  obtain ⟨pm, hcreate, hown, hnone⟩ := exists_sevenPages
  obtain ⟨ret, pm', tables', halloc, -, -, -, hadded⟩ :=
    @uvmalloc_adds_or_rollsBack _ _ _ _ _ hown 0 8000 pteW (by decide) (by decide) (by decide)
      fun va _ _ => hnone va
  have hret := uvmalloc_sevenPages
  rw [hcreate, halloc] at hret
  obtain rfl := Option.some.inj hret
  exact ⟨pm, pm', hcreate, halloc, hadded rfl⟩

end Painting.PageTable
