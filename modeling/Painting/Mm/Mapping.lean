import Painting.Mm.PageTableInvariant

/-!
# Mapping and unmapping ranges

`mappages` sets one lowest-level entry per page and lets `walk` link the tables
it needs; `uvmunmap` clears the entries again.  Both are followed here through
the translation they leave behind, for ranges of any length.
-/

namespace Painting.PageTable

open Painting.Memory

/-! ## One page -/

theorem or_valid_lt {mode : ℕ} (hmode : mode < 1024) : mode ||| pteV < 1024 :=
  Nat.or_lt_two_pow (n := 10) hmode (by decide)

/-- The entry that `mappages` writes, as a translation. -/
theorem meaning_leaf_word {pa mode : ℕ} (hpa : pa < 2 ^ 64) (haligned : pa % pgSize = 0)
    (hmode : mode < 1024) (va : ℕ) :
    meaning (pa2pte pa ||| mode ||| pteV) va = some (pa + va % pgSize, mode ||| pteV) := by
  obtain ⟨-, hframe, hflags⟩ := leaf_word hpa haligned (or_valid_lt hmode)
  rw [meaning, if_pos (valid_or_one _), Nat.or_assoc, hframe, hflags]

theorem grown_setLeaf {root va leaf pte : ℕ} {pm : Pm} {tables : ℕ → Set ℕ}
    (hwf : WellFormed pm.mem root tables) (hfresh : Fresh pm.freelist tables)
    (hlookup : lookup pm.mem va 2 root = some leaf) :
    Grown root pm ⟨store pm.mem (leaf + 8 * idx 0 va) 8 pte, pm.freelist⟩ tables tables := by
  refine ⟨wellFormed_setLeaf hwf hlookup, hfresh, List.suffix_refl _, fun _ _ htable => .inl htable,
    fun _ _ _ htable => htable, fun x hout => ?_⟩
  exact setLeaf_apply hwf hlookup hout

/-- The addresses of one page. -/
theorem same_page_iff {a va : ℕ} (ha : a % pgSize = 0) :
    va / pgSize = a / pgSize ↔ a ≤ va ∧ va < a + pgSize := by
  simp only [pgSize] at *
  omega

/-! ## `mappages` -/

/-- The loop of `mappages` from `a` on: the pages up to `upto` are mapped, all of
them or as many as memory allowed. -/
theorem mapLoop_spec {root stop mode : ℕ} (hmode : mode < 1024) (hstop : stop + pgSize ≤ maxVa)
    (haligned : stop % pgSize = 0) (rounds : ℕ) {pm : Pm} {tables : ℕ → Set ℕ} {a pa : ℕ}
    (hwf : WellFormed pm.mem root tables) (hfresh : Fresh pm.freelist tables)
    (ha : a % pgSize = 0) (hle : a ≤ stop) (hrounds : (stop - a) / pgSize < rounds)
    (hpa : pa % pgSize = 0) (hsmall : pa + (stop - a) < 2 ^ 63)
    (hnone : ∀ va, a ≤ va → va < stop + pgSize → translate pm.mem root va = none) :
    ∃ ret pm' tables' upto, mapLoop root stop mode rounds pm a pa = .ok (ret, pm') ∧
      Grown root pm pm' tables tables' ∧ upto % pgSize = 0 ∧ a ≤ upto ∧
      (ret = 0 ∧ upto = stop + pgSize ∨ ret = -1 ∧ upto ≤ stop ∧ pm'.freelist = []) ∧
      ∀ va < maxVa, translate pm'.mem root va =
        if a ≤ va ∧ va < upto then some (pa + (va - a), mode ||| pteV)
        else translate pm.mem root va := by
  induction rounds generalizing pm tables a pa with
  | zero => exact absurd hrounds (Nat.not_lt_zero _)
  | succ rounds ih =>
      have hva : a < maxVa := by
        simp only [pgSize] at hstop
        omega
      obtain ⟨result, pm₁, tables₁, hwalk, hgrown₁, htranslate₁, hresult⟩ :=
        walk_alloc hwf hfresh hva
      obtain ⟨rfl, hempty⟩ | ⟨leaf, rfl, hlookup⟩ := hresult
      · refine ⟨-1, pm₁, tables₁, a, ?_, hgrown₁, ha, le_rfl, .inr ⟨rfl, hle, hempty⟩, ?_⟩
        · rw [mapLoop, hwalk]
        · intro va _
          rw [htranslate₁, if_neg (by omega)]
      · have hunmapped : translate pm₁.mem root a = none := by
          rw [htranslate₁]
          exact hnone a le_rfl (by simp only [pgSize]; omega)
        have hinvalid := not_valid_of_translate hlookup hunmapped
        have hword := (leaf_word (show pa < 2 ^ 64 by omega) hpa (or_valid_lt hmode)).1
        rw [← Nat.or_assoc] at hword
        let pm₂ : Pm := ⟨store pm₁.mem (leaf + 8 * idx 0 a) 8 (pa2pte pa ||| mode ||| pteV),
          pm₁.freelist⟩
        have hgrown₂ : Grown root pm pm₂ tables tables₁ :=
          hgrown₁.trans (grown_setLeaf hgrown₁.wf hgrown₁.fresh hlookup)
        have htranslate₂ : ∀ va < maxVa, translate pm₂.mem root va =
            if a ≤ va ∧ va < a + pgSize then some (pa + (va - a), mode ||| pteV)
            else translate pm.mem root va := by
          intro va hlt
          rw [translate_setLeaf hgrown₁.wf hlookup hva hword hlt, htranslate₁,
            meaning_leaf_word (by omega) hpa hmode]
          simp only [same_page_iff ha]
          split
          · rename_i hin
            have hoffset : va % pgSize = va - a := by
              simp only [pgSize] at *
              omega
            rw [hoffset]
          · rfl
        have hloop : mapLoop root stop mode (rounds + 1) pm a pa =
            if a = stop then .ok (0, pm₂)
            else mapLoop root stop mode rounds pm₂ (a + pgSize) ((pa + pgSize) % 2 ^ 64) := by
          rw [mapLoop, hwalk]
          exact if_neg hinvalid
        rw [hloop]
        by_cases hlast : a = stop
        · refine ⟨0, pm₂, tables₁, stop + pgSize, if_pos hlast, hgrown₂, ?_, by omega,
            .inl ⟨rfl, rfl⟩, ?_⟩
          · simp only [pgSize] at *
            omega
          · intro va hlt
            rw [htranslate₂ va hlt, hlast]
        · have hnext : a + pgSize ≤ stop := by
            simp only [pgSize] at *
            omega
          have hwrap : (pa + pgSize) % 2 ^ 64 = pa + pgSize := by
            apply Nat.mod_eq_of_lt
            simp only [pgSize] at *
            omega
          have hnone₂ : ∀ va, a + pgSize ≤ va → va < stop + pgSize →
              translate pm₂.mem root va = none := by
            intro va hlo hhi
            rw [htranslate₂ va (by omega), if_neg (by omega)]
            exact hnone va (by omega) hhi
          have ha₂ : (a + pgSize) % pgSize = 0 := by rw [Nat.add_mod_right, ha]
          have hpa₂ : (pa + pgSize) % pgSize = 0 := by rw [Nat.add_mod_right, hpa]
          have hrounds₂ : (stop - (a + pgSize)) / pgSize < rounds := by
            simp only [pgSize] at *
            omega
          obtain ⟨ret, pm', tables', upto, hmap, hgrown, hupto, hge, hret, htranslate⟩ :=
            ih hgrown₂.wf hgrown₂.fresh ha₂ hnext hrounds₂ hpa₂ (by omega) hnone₂
          refine ⟨ret, pm', tables', upto, ?_, hgrown₂.trans hgrown, hupto, by omega, hret, ?_⟩
          · rw [if_neg hlast, hwrap]
            exact hmap
          · intro va hlt
            rw [htranslate va hlt, htranslate₂ va hlt]
            by_cases hhere : va < a + pgSize
            · rw [if_neg (by omega)]
              by_cases hlo : a ≤ va
              · rw [if_pos ⟨hlo, hhere⟩, if_pos ⟨hlo, by omega⟩]
              · rw [if_neg (by omega), if_neg (by omega)]
            · by_cases hin : va < upto
              · rw [if_pos ⟨by omega, hin⟩, if_pos ⟨by omega, hin⟩,
                  show pa + pgSize + (va - (a + pgSize)) = pa + (va - a) by omega]
              · rw [if_neg (by omega), if_neg (by omega), if_neg (by omega)]

/-- `mappages` of an unmapped range returns, and maps it from the start up to where
memory runs out. -/
theorem mappages_spec {root va pa sz mode : ℕ} {pm : Pm} {tables : ℕ → Set ℕ}
    (hwf : WellFormed pm.mem root tables) (hfresh : Fresh pm.freelist tables)
    (hva : va % pgSize = 0) (hpa : pa % pgSize = 0) (hsmall : pa < 2 ^ 56)
    (hsz : sz % pgSize = 0) (hpos : 0 < sz) (hmax : va + sz ≤ maxVa) (hmode : mode < 1024)
    (hnone : ∀ k < sz, translate pm.mem root (va + k) = none) :
    ∃ ret pm' tables' upto, mappages pm root va pa sz mode = .ok (ret, pm') ∧
      Grown root pm pm' tables tables' ∧ upto % pgSize = 0 ∧ va ≤ upto ∧
      (ret = 0 ∧ upto = va + sz ∨ ret = -1 ∧ upto < va + sz ∧ pm'.freelist = []) ∧
      ∀ va' < maxVa, translate pm'.mem root va' =
        if va ≤ va' ∧ va' < upto then some (pa + (va' - va), mode ||| pteV)
        else translate pm.mem root va' := by
  have hpage : pgSize = 4096 := rfl
  have hlimit : va + sz ≤ 2 ^ 38 := hmax
  have hone : pgSize ≤ sz := Nat.le_of_dvd hpos (Nat.dvd_of_mod_eq_zero hsz)
  have hend : (va + sz + 2 ^ 64 - pgSize) % 2 ^ 64 = va + sz - pgSize := by
    rw [show va + sz + 2 ^ 64 - pgSize = va + sz - pgSize + 2 ^ 64 by omega, Nat.add_mod_right]
    exact Nat.mod_eq_of_lt (by omega)
  have haligned : (va + sz - pgSize) % pgSize = 0 := by
    simp only [pgSize] at hva hsz hone ⊢
    omega
  obtain ⟨ret, pm', tables', upto, hmap, hgrown, hupto, hge, hret, htranslate⟩ :=
    mapLoop_spec hmode (show va + sz - pgSize + pgSize ≤ maxVa by omega) haligned
      ((maxVa - va) / pgSize + 1) hwf hfresh hva (by omega)
      (Nat.lt_succ_of_le (Nat.div_le_div_right (by omega))) hpa (by omega)
      (fun other hlo hhi => by
        have hcell := hnone (other - va) (by omega)
        rwa [show va + (other - va) = other by omega] at hcell)
  refine ⟨ret, pm', tables', upto, ?_, hgrown, hupto, hge, ?_, htranslate⟩
  · rw [mappages, if_neg (not_not.mpr hva), if_neg (not_not.mpr hsz), hend, hmap]
  · obtain ⟨hzero, hdone⟩ | ⟨hfail, hpart, hempty⟩ := hret
    · exact .inl ⟨hzero, by omega⟩
    · exact .inr ⟨hfail, by omega, hempty⟩

/-! ## `uvmunmap` -/

/-- The loop of `uvmunmap` without freeing: the entries of the range are cleared. -/
theorem unmapLoop_keep (kernelEnd : ℕ) {root : ℕ} (rounds : ℕ) {pm : Pm} {tables : ℕ → Set ℕ} {a : ℕ}
    (hwf : WellFormed pm.mem root tables) (ha : a % pgSize = 0)
    (hmax : a + rounds * pgSize ≤ maxVa)
    (hmapped : ∀ j < rounds, ∃ pa flags,
      translate pm.mem root (a + j * pgSize) = some (pa, flags) ∧ flags ≠ pteV) :
    ∃ pm', unmapLoop kernelEnd root false rounds pm a = .ok pm' ∧
      WellFormed pm'.mem root tables ∧ pm'.freelist = pm.freelist ∧
      ∀ va < maxVa, translate pm'.mem root va =
        if a ≤ va ∧ va < a + rounds * pgSize then none else translate pm.mem root va := by
  induction rounds generalizing pm a with
  | zero =>
      refine ⟨pm, rfl, hwf, rfl, fun va _ => ?_⟩
      rw [if_neg (by omega)]
  | succ rounds ih =>
      have hpage : 0 < pgSize := by decide
      rw [Nat.succ_mul] at hmax
      have hva : a < maxVa := by omega
      obtain ⟨pa, flags, htranslate, hflags⟩ := hmapped 0 (by omega)
      rw [Nat.zero_mul, Nat.add_zero] at htranslate
      cases hlookup : lookup pm.mem a 2 root with
      | none =>
          rw [translate, hlookup, Option.bind_none] at htranslate
          simp at htranslate
      | some leaf =>
          rw [translate_of_lookup hlookup, meaning] at htranslate
          split at htranslate
          · rename_i hvalid
            obtain ⟨-, hword⟩ := Prod.mk.inj (Option.some.inj htranslate)
            let pm₁ : Pm := ⟨store pm.mem (leaf + 8 * idx 0 a) 8 0, pm.freelist⟩
            have htranslate₁ : ∀ va < maxVa, translate pm₁.mem root va =
                if a ≤ va ∧ va < a + pgSize then none else translate pm.mem root va := by
              intro va hlt
              rw [translate_setLeaf hwf hlookup hva (by decide) hlt, meaning_zero]
              simp only [same_page_iff ha]
            have hloop : unmapLoop kernelEnd root false (rounds + 1) pm a =
                unmapLoop kernelEnd root false rounds pm₁ (a + pgSize) := by
              rw [unmapLoop, walk_lookup hva, hlookup, Option.map_some]
              change (if entry pm.mem leaf (idx 0 a) &&& pteV = 0 then _ else
                if pteFlags (entry pm.mem leaf (idx 0 a)) = pteV then _ else _) = _
              rw [if_neg hvalid, if_neg (by rw [hword]; exact hflags)]
              rfl
            have hmapped₁ : ∀ j < rounds, ∃ pa flags,
                translate pm₁.mem root (a + pgSize + j * pgSize) = some (pa, flags) ∧
                  flags ≠ pteV := by
              intro j hj
              obtain ⟨pa, flags, hold, hne⟩ := hmapped (j + 1) (by omega)
              have hin : (j + 1) * pgSize ≤ rounds * pgSize := Nat.mul_le_mul_right _ hj
              rw [show a + (j + 1) * pgSize = a + pgSize + j * pgSize by ring] at hold
              rw [Nat.succ_mul] at hin
              refine ⟨pa, flags, ?_, hne⟩
              rw [htranslate₁ _ (by omega), if_neg (by omega)]
              exact hold
            obtain ⟨pm', hunmap, hwf', hfree, htranslate'⟩ :=
              ih (show WellFormed pm₁.mem root tables from wellFormed_setLeaf hwf hlookup)
                (by rw [Nat.add_mod_right, ha]) (by omega) hmapped₁
            refine ⟨pm', hloop.trans hunmap, hwf', hfree, fun va hlt => ?_⟩
            rw [htranslate' va hlt, htranslate₁ va hlt, Nat.succ_mul]
            by_cases hhere : a ≤ va ∧ va < a + pgSize
            · rw [if_pos hhere, if_neg (by omega), if_pos (by omega)]
            · rw [if_neg hhere]
              by_cases hlater : a + pgSize ≤ va ∧ va < a + pgSize + rounds * pgSize
              · rw [if_pos hlater, if_pos (by omega)]
              · rw [if_neg hlater, if_neg (by omega)]
          · simp at htranslate

theorem uvmunmap_keep (kernelEnd npages : ℕ) {root va : ℕ} {pm : Pm} {tables : ℕ → Set ℕ}
    (hwf : WellFormed pm.mem root tables) (hva : va % pgSize = 0)
    (hmax : va + npages * pgSize ≤ maxVa)
    (hmapped : ∀ j < npages, ∃ pa flags,
      translate pm.mem root (va + j * pgSize) = some (pa, flags) ∧ flags ≠ pteV) :
    ∃ pm', uvmunmap kernelEnd pm root va npages false = .ok pm' ∧
      WellFormed pm'.mem root tables ∧ pm'.freelist = pm.freelist ∧
      ∀ va' < maxVa, translate pm'.mem root va' =
        if va ≤ va' ∧ va' < va + npages * pgSize then none else translate pm.mem root va' := by
  have hstop : (va + npages * pgSize) % 2 ^ 64 = va + npages * pgSize := by
    apply Nat.mod_eq_of_lt
    simp only [maxVa] at hmax
    omega
  have hrounds : (va + npages * pgSize - va + (pgSize - 1)) / pgSize = npages := by
    simp only [pgSize]
    omega
  rw [uvmunmap, if_neg (not_not.mpr hva)]
  simp only [hstop, hrounds]
  exact unmapLoop_keep kernelEnd npages hwf hva hmax hmapped

/-! ## Map and unmap -/

/-- Mapping an unmapped range adds exactly the range to the translation, and
unmapping it again restores the translation of every page. -/
theorem mappages_uvmunmap (kernelEnd : ℕ) {root va pa sz mode : ℕ} {pm : Pm} {tables : ℕ → Set ℕ}
    (hwf : WellFormed pm.mem root tables) (hfresh : Fresh pm.freelist tables)
    (hva : va % pgSize = 0) (hpa : pa % pgSize = 0) (hsmall : pa < 2 ^ 56)
    (hsz : sz % pgSize = 0) (hpos : 0 < sz) (hmax : va + sz ≤ maxVa) (hmode : mode < 1024)
    (hleaf : mode &&& (pteR ||| pteW ||| pteX) ≠ 0)
    (hnone : ∀ k < sz, translate pm.mem root (va + k) = none) :
    ∃ ret pm', mappages pm root va pa sz mode = .ok (ret, pm') ∧ (ret = 0 ∨ ret = -1) ∧
      (ret = 0 →
        (∃ tables', WellFormed pm'.mem root tables') ∧
        (∀ k < sz, translate pm'.mem root (va + k) = some (pa + k, mode ||| pteV)) ∧
        (∀ va' < maxVa, va' < va ∨ va + sz ≤ va' →
          translate pm'.mem root va' = translate pm.mem root va') ∧
        ∃ pm'', uvmunmap kernelEnd pm' root va (sz / pgSize) false = .ok pm'' ∧
          ∀ va' < maxVa, translate pm''.mem root va' = translate pm.mem root va') := by
  obtain ⟨ret, pm', tables', upto, hmap, hgrown, -, -, hret, htranslate⟩ :=
    mappages_spec hwf hfresh hva hpa hsmall hsz hpos hmax hmode hnone
  have hcode : ret = 0 ∨ ret = -1 := hret.imp And.left And.left
  refine ⟨ret, pm', hmap, hcode, fun hzero => ?_⟩
  obtain rfl : upto = va + sz := by
    obtain ⟨-, hupto⟩ | ⟨hfail, -⟩ := hret
    · exact hupto
    · omega
  have hinside : ∀ k < sz, translate pm'.mem root (va + k) = some (pa + k, mode ||| pteV) := by
    intro k hk
    rw [htranslate (va + k) (by omega), if_pos (by omega), Nat.add_sub_cancel_left]
  have hflags : mode ||| pteV ≠ pteV := by
    intro heq
    have hbits : mode &&& (pteR ||| pteW ||| pteX) = 0 := by
      have hand := congrArg (· &&& (pteR ||| pteW ||| pteX)) heq
      simpa [Nat.and_or_distrib_right, pteV, pteR, pteW, pteX] using hand
    exact hleaf hbits
  have hcount : sz / pgSize * pgSize = sz := Nat.div_mul_cancel (Nat.dvd_of_mod_eq_zero hsz)
  obtain ⟨pm'', hunmap, -, -, htranslate'⟩ :=
    uvmunmap_keep kernelEnd (sz / pgSize) hgrown.wf hva (by omega)
      (fun j hj => ⟨_, _, hinside (j * pgSize) (by
        have hlt : (j + 1) * pgSize ≤ sz / pgSize * pgSize := Nat.mul_le_mul_right _ hj
        have hpage : 0 < pgSize := by decide
        rw [Nat.succ_mul] at hlt
        omega), hflags⟩)
  refine ⟨⟨tables', hgrown.wf⟩, hinside, ?_, pm'', hunmap, ?_⟩
  · intro va' hlt hout
    rw [htranslate va' hlt, if_neg (by omega)]
  · intro va' hlt
    rw [htranslate' va' hlt, hcount]
    split
    · rename_i hin
      have hcell := hnone (va' - va) (by omega)
      rw [show va + (va' - va) = va' by omega] at hcell
      exact hcell.symm
    · rename_i hout
      rw [htranslate va' hlt, if_neg hout]

/-- Zeroed memory with two pages left. -/
def twoPages : Pm := ⟨fun _ => 0, [0x80301000, 0x80302000]⟩

/-- One page mapped readable at address 0 of an empty table. -/
theorem mappages_uvmunmap_emptyTable :
    ∃ pm', mappages twoPages 0x80300000 0 0x80303000 4096 pteR = .ok (0, pm') ∧
      translate pm'.mem 0x80300000 8 = some (0x80303000 + 8, pteR ||| pteV) ∧
      ∃ pm'', uvmunmap 0x80300000 pm' 0x80300000 0 (4096 / pgSize) false = .ok pm'' ∧
        translate pm''.mem 0x80300000 8 = none := by
  have hzero : ∀ i < 512, entry twoPages.mem 0x80300000 i = 0 := fun _ _ => rfl
  have hwf := wellFormed_rootOnly (show 0x80300000 % pgSize = 0 from rfl) hzero
  have hfresh : Fresh twoPages.freelist (rootOnly 0x80300000) := by
    refine ⟨by simp [twoPages], by simp [twoPages, pgSize], by simp [twoPages], ?_⟩
    intro page hpage level _ htable
    simp only [rootOnly] at htable
    split at htable
    · rw [Set.mem_singleton_iff.mp htable] at hpage
      simp [twoPages] at hpage
    · exact htable
  obtain ⟨ret, pm', hmap, -, hdone⟩ := mappages_uvmunmap 0x80300000 hwf hfresh
    (show 0 % pgSize = 0 from rfl) (show 0x80303000 % pgSize = 0 from rfl) (by decide)
    (show 4096 % pgSize = 0 from rfl) (by decide) (by decide) (show pteR < 1024 by decide)
    (by decide) (fun k _ => translate_rootOnly hzero _)
  have hret : ret = 0 := by
    have hcode : (mappages twoPages 0x80300000 0 0x80303000 4096 pteR).toOption.map Prod.fst =
        some 0 := by decide +kernel
    rw [hmap] at hcode
    exact Option.some.inj hcode
  subst hret
  obtain ⟨-, hinside, -, pm'', hunmap, hback⟩ := hdone rfl
  have hcell := hinside 8 (by decide)
  rw [Nat.zero_add] at hcell
  refine ⟨pm', hmap, hcell, pm'', hunmap, ?_⟩
  rw [hback 8 (by decide)]
  exact translate_rootOnly hzero 8

end Painting.PageTable
