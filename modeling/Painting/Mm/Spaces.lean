import Painting.Mm.Ownership

/-!
# What the operations do to an address space

`mappages` of one page and `uvmunmap` keep the ownership of pages, and from them
`uvmalloc`, `uvmdealloc`, `uvmcopy` and `setup_stack` do, whether memory runs out or
not.  Each is described by its result, the translations it leaves and the memory it may
have written.
-/

namespace Painting.PageTable

open Painting.Memory

/-- Pages are only taken: what is written are tables and free pages. -/
structure Allocates (pm pm' : Pm) (tables tables' : ℕ → Set ℕ) : Prop where
  free : ∀ page ∈ pm'.freelist, page ∈ pm.freelist
  source : ∀ page, IsTable tables' page → IsTable tables page ∨ page ∈ pm.freelist
  same : ∀ x, ¬ IsTable tables (pgRoundDown x) → pgRoundDown x ∉ pm.freelist →
    pm'.mem x = pm.mem x

/-- Pages are only given back: what is written are tables and the pages given back. -/
structure Releases (pm pm' : Pm) (tables : ℕ → Set ℕ) : Prop where
  free : ∀ page ∈ pm.freelist, page ∈ pm'.freelist
  same : ∀ x, ¬ IsTable tables (pgRoundDown x) → pgRoundDown x ∉ pm'.freelist →
    pm'.mem x = pm.mem x

/-- Every page that was free or a table is so still: if pages were taken, they became
tables. -/
def OnlyTables (pm pm' : Pm) (tables tables' : ℕ → Set ℕ) : Prop :=
  ∀ page, page ∈ pm.freelist ∨ IsTable tables page → page ∈ pm'.freelist ∨ IsTable tables' page

/-- The user may access the page. -/
def UserMapped (mem : Mem) (root va : ℕ) : Prop :=
  ∃ pa flags, translate mem root va = some (pa, flags) ∧ flags &&& pteU ≠ 0

section Relations

variable {pm pm' pm'' : Pm} {tables tables' tables'' : ℕ → Set ℕ}

theorem Allocates.refl (pm : Pm) (tables : ℕ → Set ℕ) : Allocates pm pm tables tables :=
  ⟨fun _ h => h, fun _ h => .inl h, fun _ _ _ => rfl⟩

theorem Allocates.trans (hleft : Allocates pm pm' tables tables')
    (hright : Allocates pm' pm'' tables' tables'') : Allocates pm pm'' tables tables'' := by
  refine ⟨fun page h => hleft.free page (hright.free page h), fun page h => ?_,
    fun x htable hfree => ?_⟩
  · obtain htable | hfree := hright.source page h
    · exact hleft.source page htable
    · exact .inr (hleft.free page hfree)
  · have hmid : pm''.mem x = pm'.mem x := by
      refine hright.same x (fun h => ?_) fun h => hfree (hleft.free _ h)
      obtain hold | hnew := hleft.source _ h
      · exact htable hold
      · exact hfree hnew
    exact hmid.trans (hleft.same x htable hfree)

/-- Pages that were taken before are given back. -/
theorem Allocates.release (hleft : Allocates pm pm' tables tables')
    (hright : Releases pm' pm'' tables') (hfree : ∀ page ∈ pm''.freelist, page ∈ pm.freelist) :
    Allocates pm pm'' tables tables' := by
  refine ⟨hfree, hleft.source, fun x htable hx => ?_⟩
  have hmid : pm''.mem x = pm'.mem x := by
    refine hright.same x (fun h => ?_) fun h => hx (hfree _ h)
    obtain hold | hnew := hleft.source _ h
    · exact htable hold
    · exact hx hnew
  exact hmid.trans (hleft.same x htable hx)

theorem Releases.refl (pm : Pm) (tables : ℕ → Set ℕ) : Releases pm pm tables :=
  ⟨fun _ h => h, fun _ _ _ => rfl⟩

theorem Releases.trans (hleft : Releases pm pm' tables) (hright : Releases pm' pm'' tables) :
    Releases pm pm'' tables := by
  refine ⟨fun page h => hright.free page (hleft.free page h), fun x htable hfree => ?_⟩
  exact (hright.same x htable hfree).trans
    (hleft.same x htable fun h => hfree (hright.free _ h))

end Relations

section Operations

variable {kernelEnd root : ℕ} {region : Set ℕ} {pm : Pm} {tables : ℕ → Set ℕ}

/-! ## One page -/

/-- The entry behind a translation. -/
theorem lookup_of_translate {mem : Mem} {va pa flags : ℕ}
    (htranslate : translate mem root va = some (pa, flags)) :
    ∃ leaf, lookup mem va 2 root = some leaf ∧ Valid (entry mem leaf (idx 0 va)) ∧
      pa = pte2pa (entry mem leaf (idx 0 va)) + va % pgSize ∧
      flags = pteFlags (entry mem leaf (idx 0 va)) := by
  cases hlookup : lookup mem va 2 root with
  | none =>
      rw [translate, hlookup] at htranslate
      cases htranslate
  | some leaf =>
      rw [translate_of_lookup hlookup, meaning] at htranslate
      split at htranslate
      · rename_i hvalid
        obtain ⟨rfl, rfl⟩ := Prod.mk.injEq .. ▸ Option.some.inj htranslate
        exact ⟨leaf, rfl, hvalid, rfl, rfl⟩
      · cases htranslate

theorem pteFlags_user {pte : ℕ} : pteFlags pte &&& pteU ≠ 0 ↔ pte &&& pteU ≠ 0 := by
  rw [pteFlags_and (by decide)]

/-- A page that is mapped for the user has a leaf. -/
theorem WellFormed.userLeaf (hwf : WellFormed pm.mem root tables) {va pa flags : ℕ}
    (htranslate : translate pm.mem root va = some (pa, flags)) (huser : flags &&& pteU ≠ 0) :
    ∃ leaf, lookup pm.mem va 2 root = some leaf ∧
      pa = pte2pa (entry pm.mem leaf (idx 0 va)) + va % pgSize ∧
      flags = pteFlags (entry pm.mem leaf (idx 0 va)) ∧
      UserLeaf pm.mem tables (leaf, idx 0 va) (pte2pa (entry pm.mem leaf (idx 0 va))) := by
  obtain ⟨leaf, hlookup, hvalid, rfl, rfl⟩ := lookup_of_translate htranslate
  exact ⟨leaf, hlookup, rfl, rfl,
    ⟨hwf.lookup_mem le_rfl hwf.root_mem hlookup, idx_lt _ _, hvalid, rfl⟩, pteFlags_user.mp huser⟩

theorem Owned.frame_of_translate (hown : Owned kernelEnd region pm root tables) {va page flags : ℕ}
    (htranslate : translate pm.mem root va = some (page + va % pgSize, flags))
    (huser : flags &&& pteU ≠ 0) : Frame pm.mem tables page := by
  obtain ⟨leaf, -, hpa, -, hleaf⟩ := hown.tree.userLeaf htranslate huser
  obtain rfl := Nat.add_right_cancel hpa
  exact ⟨_, hleaf⟩

/-- Every entry of a lowest-level table is reached by an address. -/
theorem WellFormed.exists_va {mem : Mem} (hwf : WellFormed mem root tables) {leaf i : ℕ}
    (hleaf : leaf ∈ tables 0) (hi : i < 512) :
    ∃ va, lookup mem va 2 root = some leaf ∧ idx 0 va = i ∧ va % pgSize = 0 := by
  obtain ⟨⟨middle, j⟩, hmiddle, -⟩ := hwf.parent 0 (by omega) leaf hleaf
  obtain ⟨⟨top, k⟩, htop, -⟩ := hwf.parent 1 (by omega) middle hmiddle.table
  obtain rfl : top = root := by simpa [hwf.top] using htop.table
  have hj := hmiddle.index
  have hk := htop.index
  dsimp only at hj hk
  have hidx : idx 0 (k * 2 ^ 30 + j * 2 ^ 21 + i * 2 ^ 12) = i ∧
      idx 1 (k * 2 ^ 30 + j * 2 ^ 21 + i * 2 ^ 12) = j ∧
      idx 2 (k * 2 ^ 30 + j * 2 ^ 21 + i * 2 ^ 12) = k := by
    simp only [idx_eq]
    omega
  refine ⟨_, ?_, hidx.1, by simp only [pgSize]; omega⟩
  rw [lookup, hidx.2.2, if_pos htop.valid, htop.target, lookup, hidx.2.1, if_pos hmiddle.valid,
    hmiddle.target, lookup]

/-- A frame is found by translating some address. -/
theorem WellFormed.exists_translate {mem : Mem} (hwf : WellFormed mem root tables) {page : ℕ}
    (hframe : Frame mem tables page) :
    ∃ va flags, translate mem root va = some (page + va % pgSize, flags) ∧ flags &&& pteU ≠ 0 := by
  obtain ⟨⟨leaf, i⟩, ⟨htable, hindex, hvalid, htarget⟩, huser⟩ := hframe
  obtain ⟨va, hlookup, hidx, -⟩ := hwf.exists_va htable hindex
  refine ⟨va, pteFlags (entry mem leaf i), ?_, pteFlags_user.mpr huser⟩
  rw [translate_of_lookup hlookup, hidx, meaning, if_pos hvalid, htarget]

/-- Without a change of translations no page becomes a frame. -/
theorem Owned.onlyTables {pm' : Pm} {tables' : ℕ → Set ℕ}
    (hown : Owned kernelEnd region pm root tables) (hown' : Owned kernelEnd region pm' root tables')
    (hsame : ∀ va, translate pm'.mem root va = translate pm.mem root va) :
    OnlyTables pm pm' tables tables' := by
  intro page hpage
  have hmem : page ∈ region := hpage.elim hown.mem_of_free hown.mem_of_table
  obtain hfree | htable | hframe := (hown'.region_iff page).mp hmem
  · exact .inl hfree
  · exact .inr htable
  · obtain ⟨va, flags, htranslate, huser⟩ := hown'.tree.exists_translate hframe
    obtain ⟨leaf, -, hpa, -, hleaf⟩ := hown.tree.userLeaf ((hsame va).symm.trans htranslate) huser
    obtain rfl := Nat.add_right_cancel hpa
    obtain hfree | htable := hpage
    · exact absurd ⟨_, hleaf⟩ (hown.freeFrame _ hfree)
    · exact absurd htable (hown.frameTable _ ⟨_, hleaf⟩)

theorem pgRoundDown_add {page k : ℕ} (haligned : page % pgSize = 0) (hk : k < pgSize) :
    pgRoundDown (page + k) = page := by
  simp only [pgRoundDown, pgSize] at *
  omega

theorem Owned.walkAlloc (hown : Owned kernelEnd region pm root tables) {va : ℕ} (hva : va < maxVa) :
    ∃ result pm' tables', walk pm root va true = .ok (result, pm') ∧
      Owned kernelEnd region pm' root tables' ∧ Allocates pm pm' tables tables' ∧
      OnlyTables pm pm' tables tables' ∧
      (∀ va', translate pm'.mem root va' = translate pm.mem root va') ∧
      (result = none ∧ pm'.freelist = [] ∨
        ∃ leaf, result = some (leaf + 8 * idx 0 va) ∧ lookup pm'.mem va 2 root = some leaf) := by
  obtain ⟨result, pm', tables', hwalk, hown', hgrown, htranslate, hresult⟩ :=
    @walk_keeps root va (fun pm tables => Owned kernelEnd region pm root tables)
      (fun _ _ _ _ _ _ _ _ _ hlink hown => hown.linkTable hlink) pm tables hown.tree hown.fresh hva hown
  have hsource : ∀ page, IsTable tables' page → IsTable tables page ∨ page ∈ pm.freelist := by
    rintro page ⟨level, hlevel, hpage⟩
    exact (hgrown.source level page hpage).imp_left fun hold => ⟨level, hlevel, hold⟩
  refine ⟨result, pm', tables', hwalk, hown', ⟨fun page hpage => hgrown.suffix.subset hpage,
    hsource, fun x htable hfree => ?_⟩, hown.onlyTables hown' htranslate, htranslate, hresult⟩
  apply hgrown.frame
  rw [outside_iff]
  intro hpage
  obtain hold | hnew := hsource _ hpage
  · exact htable hold
  · exact hfree hnew

/-- `mappages` of a page that is not mapped; a page for the user joins the region. -/
theorem Owned.mapPage (hown : Owned kernelEnd region pm root tables) {va pa mode : ℕ}
    (hva : va % pgSize = 0) (hlt : va < maxVa) (hpa : pa % pgSize = 0) (hsmall : pa < 2 ^ 56)
    (hmode : mode < 1024) (hnone : translate pm.mem root va = none) {region' : Set ℕ}
    (hnew : mode &&& pteU ≠ 0 → pa ∉ region ∧ Allocatable kernelEnd pa)
    (hregion : ∀ page, page ∈ region' ↔ page ∈ region ∨ mode &&& pteU ≠ 0 ∧ page = pa) :
    ∃ ret pm' tables', mappages pm root va pa pgSize mode = .ok (ret, pm') ∧
      Allocates pm pm' tables tables' ∧ OnlyTables pm pm' tables tables' ∧
      (ret = -1 ∧ pm'.freelist = [] ∧ Owned kernelEnd region pm' root tables' ∧
          (∀ va', translate pm'.mem root va' = translate pm.mem root va') ∨
        ret = 0 ∧ Owned kernelEnd region' pm' root tables' ∧
          ∀ va' < maxVa, translate pm'.mem root va' =
            if va' / pgSize = va / pgSize then some (pa + va' % pgSize, mode ||| pteV)
            else translate pm.mem root va') := by
  have hstop : (va + pgSize + 2 ^ 64 - pgSize) % 2 ^ 64 = va := by
    simp only [pgSize, maxVa] at *
    omega
  obtain ⟨result, pm', tables', hwalk, hown', halloc, honly, htranslate, hresult⟩ :=
    hown.walkAlloc hlt
  rw [mappages, if_neg (not_not.mpr hva), if_neg (by decide), hstop, mapLoop, hwalk]
  obtain ⟨rfl, hempty⟩ | ⟨leaf, rfl, hlookup⟩ := hresult
  · exact ⟨-1, pm', tables', rfl, halloc, honly, .inl ⟨rfl, hempty, hown', htranslate⟩⟩
  · have hinvalid : ¬ Valid (entry pm'.mem leaf (idx 0 va)) :=
      not_valid_of_translate hlookup ((htranslate va).trans hnone)
    have hflags := or_valid_lt hmode
    obtain ⟨hword, hframe, hbits⟩ := leaf_word (show pa < 2 ^ 64 by omega) hpa hflags
    rw [← Nat.or_assoc] at hword hframe hbits
    have huser : (pa2pte pa ||| mode ||| pteV) &&& pteU ≠ 0 ↔ mode &&& pteU ≠ 0 := by
      rw [← pteFlags_user, hbits, Nat.and_or_distrib_right, show pteV &&& pteU = 0 by decide,
        Nat.or_zero]
    have hleaf : ∀ page, ¬ UserLeaf pm'.mem tables' (leaf, idx 0 va) page := fun page h =>
      hinvalid h.points.valid
    have hown'' : Owned kernelEnd region'
        ⟨store pm'.mem (leaf + 8 * idx 0 va) 8 (pa2pte pa ||| mode ||| pteV), pm'.freelist⟩ root
        tables' := by
      refine hown'.setLeaf hlookup hword (fun _ hu => ?_) fun page => ?_
      · rw [hframe]
        exact hnew (huser.mp hu)
      · rw [hregion, huser, hframe]
        simp only [hleaf, not_false_eq_true, and_true]
        exact or_congr_right ⟨fun h => ⟨valid_or_one _, h.1, h.2.symm⟩, fun h => ⟨h.2.1, h.2.2.symm⟩⟩
    refine ⟨0, ⟨store pm'.mem (leaf + 8 * idx 0 va) 8 (pa2pte pa ||| mode ||| pteV), pm'.freelist⟩,
      tables', ?_, halloc.trans ⟨fun _ h => h, fun _ h => .inl h, fun x htable _ => ?_⟩, honly,
      .inr ⟨rfl, hown'', fun va' hva' => ?_⟩⟩
    · change (if Valid (entry pm'.mem leaf (idx 0 va)) then _ else _) = _
      rw [if_neg hinvalid, if_pos rfl]
    · exact setLeaf_apply hown'.tree hlookup (outside_iff.mpr htable)
    · rw [translate_setLeaf hown'.tree hlookup hlt hword hva', htranslate,
        meaning_leaf_word (by omega) hpa hmode]

/-! ## `uvmunmap` and `uvmdealloc` -/

/-- Freeing a page and clearing an entry elsewhere. -/
theorem free_store_comm (mem : Mem) {page slot : ℕ} (head : ℕ)
    (hout : slot + 8 ≤ page ∨ page + pgSize ≤ slot) :
    store (store (fill mem page 1 pgSize) page 8 head) slot 8 0 =
      store (fill (store mem slot 8 0) page 1 pgSize) page 8 head := by
  funext x
  simp only [pgSize] at hout
  by_cases hslot : slot ≤ x ∧ x < slot + 8
  · rw [store_apply_of_out (fill _ _ _ _) (by omega),
      fill_apply_of_out _ (by simp only [pgSize]; omega)]
    simp only [store, if_pos hslot]
  · rw [store_apply_of_out _ (by omega), store, store]
    by_cases hhead : page ≤ x ∧ x < page + 8
    · rw [if_pos hhead, if_pos hhead]
    · rw [if_neg hhead, if_neg hhead, fill, fill, store_apply_of_out _ (by omega)]

/-- One round of `uvmunmap` that frees. -/
theorem Owned.unmapPage (hown : Owned kernelEnd region pm root tables) {a : ℕ}
    (ha : a % pgSize = 0) (hlt : a < maxVa) (hmapped : UserMapped pm.mem root a) (rounds : ℕ) :
    ∃ page flags pm', translate pm.mem root a = some (page, flags) ∧
      unmapLoop kernelEnd root true (rounds + 1) pm a =
        unmapLoop kernelEnd root true rounds pm' (a + pgSize) ∧
      Owned kernelEnd region pm' root tables ∧ Releases pm pm' tables ∧
      pm'.freelist = page :: pm.freelist ∧
      ∀ va < maxVa, translate pm'.mem root va =
        if va / pgSize = a / pgSize then none else translate pm.mem root va := by
  obtain ⟨pa, flags, htranslate, huser⟩ := hmapped
  obtain ⟨leaf, hlookup, hpa, hflags, hleaf⟩ := hown.tree.userLeaf htranslate huser
  rw [ha, Nat.add_zero] at hpa
  rw [← hpa] at hleaf
  have hregion : pa ∈ region := hown.mem_of_frame ⟨_, hleaf⟩
  have hgood := hown.good pa hregion
  have htable : ¬ IsTable tables pa := hown.frameTable pa ⟨_, hleaf⟩
  have hmem := hown.tree.lookup_mem le_rfl hown.tree.root_mem hlookup
  have hclear : Owned kernelEnd (region \ {pa})
      ⟨store pm.mem (leaf + 8 * idx 0 a) 8 0, pm.freelist⟩ root tables := by
    refine hown.setLeaf hlookup (by decide) (fun h => absurd h not_valid_zero) fun page => ?_
    rw [Set.mem_sdiff, Set.mem_singleton_iff]
    constructor
    · exact fun ⟨hin, hne⟩ => .inl ⟨hin, fun h => hne (h.points.target.symm.trans hpa.symm)⟩
    · rintro (⟨hin, hnot⟩ | ⟨hvalid, -⟩)
      · exact ⟨hin, fun heq => hnot (heq ▸ hleaf)⟩
      · exact absurd hvalid not_valid_zero
  obtain ⟨mem', hfree, hown', hsame⟩ := hclear.giveBack hgood (fun h => h.2 rfl)
  have hinsert : insert pa (region \ {pa}) = region :=
    Set.insert_sdiff_self_of_mem hregion
  rw [hinsert] at hown'
  have hout : leaf + 8 * idx 0 a + 8 ≤ pa ∨ pa + pgSize ≤ leaf + 8 * idx 0 a := by
    have hne : pa ≠ leaf := fun heq => htable ⟨0, by omega, heq ▸ hmem⟩
    have hidx := idx_lt 0 a
    have haligned := hgood.aligned
    have haligned' := hown.tree.aligned 0 (by omega) leaf hmem
    simp only [pgSize] at haligned haligned' ⊢
    omega
  refine ⟨pa, flags, ⟨mem', pa :: pm.freelist⟩, htranslate, ?_, hown',
    ⟨fun page h => List.mem_cons_of_mem _ h, fun x hx hfree' => ?_⟩, rfl, fun va hva => ?_⟩
  · have hvalid : entry pm.mem leaf (idx 0 a) &&& pteV ≠ 0 := hleaf.points.valid
    have hword : pteFlags (entry pm.mem leaf (idx 0 a)) ≠ pteV := by
      intro heq
      rw [← hflags] at heq
      rw [heq] at huser
      exact huser rfl
    have hread : readPte pm.mem (leaf + 8 * idx 0 a) = entry pm.mem leaf (idx 0 a) := rfl
    have hmem' := congrArg Pm.mem (Except.ok.inj ((kpmfree_eq hgood _).symm.trans hfree))
    dsimp only at hmem'
    rw [unmapLoop, walk_lookup hlt, hlookup, Option.map_some]
    dsimp only
    rw [hread, if_neg hvalid, if_neg hword, if_pos rfl, ← hpa, kpmfree_eq hgood]
    dsimp only
    rw [free_store_comm _ _ hout, hmem']
  · have hne : pgRoundDown x ≠ pa := fun heq => hfree' (heq ▸ List.mem_cons_self)
    exact (hsame x hne).trans (setLeaf_apply hown.tree hlookup (outside_iff.mpr hx))
  · have htree := hclear.tree.translate_frame (fun x hx => hsame x fun heq =>
      hx (outside_iff.mpr (heq ▸ htable))) va
    rw [htree, translate_setLeaf hown.tree hlookup hlt (by decide) hva, meaning_zero]

/-- `uvmunmap` that frees a range which is mapped for the user. -/
theorem Owned.unmapRange (rounds : ℕ) {pm : Pm} (hown : Owned kernelEnd region pm root tables)
    {a : ℕ} (ha : a % pgSize = 0) (hmax : a + rounds * pgSize ≤ maxVa)
    (hmapped : ∀ j < rounds, UserMapped pm.mem root (a + j * pgSize)) :
    ∃ pm', unmapLoop kernelEnd root true rounds pm a = .ok pm' ∧
      Owned kernelEnd region pm' root tables ∧ Releases pm pm' tables ∧
      (∀ page, page ∈ pm'.freelist ↔ page ∈ pm.freelist ∨ ∃ va flags, va % pgSize = 0 ∧ a ≤ va ∧
        va < a + rounds * pgSize ∧ translate pm.mem root va = some (page, flags)) ∧
      ∀ va < maxVa, translate pm'.mem root va =
        if a ≤ va ∧ va < a + rounds * pgSize then none else translate pm.mem root va := by
  induction rounds generalizing pm a with
  | zero =>
      refine ⟨pm, rfl, hown, Releases.refl pm tables, fun page => ⟨.inl, ?_⟩, fun va _ => ?_⟩
      · rintro (hfree | ⟨va, flags, -, hlo, hhi, -⟩)
        · exact hfree
        · omega
      · rw [if_neg (by omega)]
  | succ rounds ih =>
      have hpage : 0 < pgSize := by decide
      rw [Nat.succ_mul] at hmax ⊢
      have hfirst := hmapped 0 (by omega)
      rw [Nat.zero_mul, Nat.add_zero] at hfirst
      obtain ⟨page, flags, pm₁, htranslate, hloop, hown₁, hrelease₁, hfree₁, htranslate₁⟩ :=
        hown.unmapPage ha (by omega) hfirst rounds
      have hmapped₁ : ∀ j < rounds, UserMapped pm₁.mem root (a + pgSize + j * pgSize) := by
        intro j hj
        have hin : (j + 1) * pgSize ≤ rounds * pgSize := Nat.mul_le_mul_right _ hj
        have hold := hmapped (j + 1) (by omega)
        rw [show a + (j + 1) * pgSize = a + pgSize + j * pgSize by ring] at hold
        rw [Nat.succ_mul] at hin
        rwa [UserMapped, htranslate₁ _ (by omega), if_neg]
        rw [same_page_iff ha]
        omega
      obtain ⟨pm', hunmap, hown', hrelease, hfreed, htranslate'⟩ :=
        ih hown₁ (by rw [Nat.add_mod_right, ha]) (by omega) hmapped₁
      refine ⟨pm', hloop.trans hunmap, hown', hrelease₁.trans hrelease, ?_, fun va hva => ?_⟩
      · intro other
        rw [hfreed other, hfree₁, List.mem_cons]
        constructor
        · rintro ((rfl | hold) | ⟨va, flags', haligned, hlo, hhi, hva⟩)
          · exact .inr ⟨a, flags, ha, le_rfl, by omega, htranslate⟩
          · exact .inl hold
          · rw [htranslate₁ va (by omega), if_neg (by rw [same_page_iff ha]; omega)] at hva
            exact .inr ⟨va, flags', haligned, by omega, by omega, hva⟩
        · rintro (hold | ⟨va, flags', haligned, hlo, hhi, hva⟩)
          · exact .inl (.inr hold)
          · by_cases hhere : va = a
            · rw [hhere, htranslate] at hva
              exact .inl (.inl (Prod.mk.inj (Option.some.inj hva)).1.symm)
            · have hnext : a + pgSize ≤ va := by
                simp only [pgSize] at ha haligned ⊢
                omega
              refine .inr ⟨va, flags', haligned, hnext, by omega, ?_⟩
              rw [htranslate₁ va (by omega), if_neg (by rw [same_page_iff ha]; omega)]
              exact hva
      · rw [htranslate' va hva, htranslate₁ va hva]
        simp only [same_page_iff ha]
        by_cases hhere : a ≤ va ∧ va < a + pgSize
        · rw [if_pos hhere, if_neg (by omega), if_pos (by omega)]
        · rw [if_neg hhere]
          by_cases hlater : a + pgSize ≤ va ∧ va < a + pgSize + rounds * pgSize
          · rw [if_pos hlater, if_pos (by omega)]
          · rw [if_neg hlater, if_neg (by omega)]

theorem pgRoundUp_eq {sz : ℕ} (hsz : sz ≤ maxVa) :
    pgRoundUp sz = (sz + 4095) / 4096 * 4096 := by
  simp only [pgRoundUp, pgSize, maxVa] at *
  rw [Nat.mod_eq_of_lt (by omega), Nat.add_sub_assoc (by decide)]

theorem asInt_of_lt {x : ℕ} (hx : x < 2 ^ 31) : asInt x = x := by
  have hmod : x % 2 ^ 32 = x := Nat.mod_eq_of_lt (by omega)
  rw [asInt, hmod, if_pos hx]

/-- `uvmdealloc` of pages that are mapped for the user. -/
theorem Owned.dealloc (hown : Owned kernelEnd region pm root tables) {oldsz newsz : ℕ}
    (hold : oldsz ≤ maxVa)
    (hmapped : ∀ va, pgRoundUp newsz ≤ va → va < pgRoundUp oldsz → newsz < oldsz →
      UserMapped pm.mem root va) :
    ∃ pm', uvmdealloc kernelEnd pm root oldsz newsz = .ok (min oldsz newsz, pm') ∧
      Owned kernelEnd region pm' root tables ∧ Releases pm pm' tables ∧
      (∀ page, page ∈ pm'.freelist ↔ page ∈ pm.freelist ∨ ∃ va flags, va % pgSize = 0 ∧
        pgRoundUp newsz ≤ va ∧ va < pgRoundUp oldsz ∧ newsz < oldsz ∧
        translate pm.mem root va = some (page, flags)) ∧
      ∀ va < maxVa, translate pm'.mem root va =
        if pgRoundUp newsz ≤ va ∧ va < pgRoundUp oldsz ∧ newsz < oldsz then none
        else translate pm.mem root va := by
  have hnothing : ∀ ret, pgRoundUp oldsz ≤ pgRoundUp newsz ∨ oldsz ≤ newsz →
      ∃ pm', Except.ok (ret, pm) = (.ok (ret, pm') : Except Panic (ℕ × Pm)) ∧
      Owned kernelEnd region pm' root tables ∧ Releases pm pm' tables ∧
      (∀ page, page ∈ pm'.freelist ↔ page ∈ pm.freelist ∨ ∃ va flags, va % pgSize = 0 ∧
        pgRoundUp newsz ≤ va ∧ va < pgRoundUp oldsz ∧ newsz < oldsz ∧
        translate pm.mem root va = some (page, flags)) ∧
      ∀ va < maxVa, translate pm'.mem root va =
        if pgRoundUp newsz ≤ va ∧ va < pgRoundUp oldsz ∧ newsz < oldsz then none
        else translate pm.mem root va := by
    intro ret hempty
    refine ⟨pm, rfl, hown, Releases.refl pm tables, fun page => ⟨.inl, ?_⟩, fun va _ => ?_⟩
    · rintro (hfree | ⟨va, flags, -, hlo, hhi, hlt, -⟩)
      · exact hfree
      · omega
    · rw [if_neg (by omega)]
  rw [uvmdealloc]
  split
  · rename_i hle
    rw [Nat.min_eq_left hle]
    exact hnothing _ (.inr hle)
  · rename_i hlt
    rw [Nat.min_eq_right (by omega)]
    split
    · rename_i hpages
      have hup := pgRoundUp_eq hold
      have hup' := pgRoundUp_eq (show newsz ≤ maxVa by omega)
      have hceil : pgRoundUp oldsz ≤ maxVa := by
        simp only [maxVa] at hold ⊢
        omega
      have hcount : asInt ((pgRoundUp oldsz - pgRoundUp newsz) / pgSize) =
          (pgRoundUp oldsz - pgRoundUp newsz) / pgSize := by
        apply asInt_of_lt
        simp only [maxVa, pgSize] at hceil ⊢
        omega
      generalize hn : (pgRoundUp oldsz - pgRoundUp newsz) / pgSize = npages at hcount ⊢
      have hend : pgRoundUp newsz + npages * pgSize = pgRoundUp oldsz := by
        simp only [pgSize] at hn ⊢
        omega
      have haligned : pgRoundUp newsz % pgSize = 0 := by
        simp only [pgSize]
        omega
      have hrounds : (pgRoundUp newsz + npages * pgSize - pgRoundUp newsz + (pgSize - 1)) /
          pgSize = npages := by
        simp only [pgSize]
        omega
      have hwrap : (pgRoundUp newsz + npages * pgSize) % 2 ^ 64 =
          pgRoundUp newsz + npages * pgSize := by
        apply Nat.mod_eq_of_lt
        rw [hend]
        exact hceil.trans_lt (by decide)
      obtain ⟨pm', hunmap, hown', hrelease, hfreed, htranslate⟩ :=
        Owned.unmapRange npages hown haligned (by omega) fun j hj => by
          have hin : (j + 1) * pgSize ≤ npages * pgSize := Nat.mul_le_mul_right _ hj
          have hpage : 0 < pgSize := by decide
          rw [Nat.succ_mul] at hin
          exact hmapped _ (by omega) (by omega) (by omega)
      refine ⟨pm', ?_, hown', hrelease, fun page => ?_, fun va hva => ?_⟩
      · dsimp only
        rw [hcount, uvmunmap, if_neg (not_not.mpr haligned)]
        dsimp only
        rw [hwrap, hrounds, hunmap]
        rfl
      · rw [hfreed page, hend]
        refine or_congr_right (exists_congr fun va => exists_congr fun flags => ?_)
        constructor
        · rintro ⟨hva, hlo, hhi, h⟩
          exact ⟨hva, hlo, hhi, by omega, h⟩
        · rintro ⟨hva, hlo, hhi, -, h⟩
          exact ⟨hva, hlo, hhi, h⟩
      · rw [htranslate va hva, hend]
        by_cases hin : pgRoundUp newsz ≤ va ∧ va < pgRoundUp oldsz
        · rw [if_pos hin, if_pos ⟨hin.1, hin.2, by omega⟩]
        · rw [if_neg hin, if_neg fun h => hin ⟨h.1, h.2.1⟩]
    · rename_i hpages
      exact hnothing _ (.inl (not_lt.mp hpages))

/-! ## A page in hand -/

/-- A page is taken and filled, and then mapped for the user; without memory for the tables
it is given back. -/
theorem Owned.placePage (hown : Owned kernelEnd region pm root tables) {page : ℕ}
    {rest : List ℕ} (hfree : pm.freelist = page :: rest) {mem₁ : Mem}
    (hfill : ∀ x, pgRoundDown x ≠ page → mem₁ x = pm.mem x) {va mode : ℕ}
    (hva : va % pgSize = 0) (hlt : va < maxVa) (hmode : mode < 1024) (huser : mode &&& pteU ≠ 0)
    (hnone : translate pm.mem root va = none) :
    ∃ ret pm' tables', mappages ⟨mem₁, rest⟩ root va page pgSize mode = .ok (ret, pm') ∧
      (ret = 0 ∧ Owned kernelEnd region pm' root tables' ∧ Allocates pm pm' tables tables' ∧
          OnlyTables ⟨mem₁, rest⟩ pm' tables tables' ∧
          (∀ va' < maxVa, translate pm'.mem root va' =
            if va' / pgSize = va / pgSize then some (page + va' % pgSize, mode ||| pteV)
            else translate pm.mem root va') ∧
          (∀ x, pgRoundDown x = page → pm'.mem x = mem₁ x) ∨
        ret = -1 ∧ ∃ pm'', kpmfree kernelEnd pm' page = .ok pm'' ∧
          Owned kernelEnd region pm'' root tables' ∧ Allocates pm pm'' tables tables' ∧
          OnlyTables pm pm'' tables tables' ∧
          ∀ va', translate pm''.mem root va' = translate pm.mem root va') := by
  obtain ⟨mem, freelist⟩ := pm
  obtain rfl : freelist = page :: rest := hfree
  obtain ⟨htake, hregion, htable⟩ := hown.take
  have hgood := hown.good page hregion
  have hsame : ∀ x, ¬ Outside tables x → mem₁ x = fill mem page 5 pgSize x := by
    intro x hx
    rw [fill_outside 5 hgood.aligned htable hx]
    exact hfill x fun heq => hx (outside_iff.mpr (heq ▸ htable))
  have hown₁ := htake.write hsame
  have htranslate₁ : ∀ va', translate mem₁ root va' = translate mem root va' :=
    hown.tree.translate_frame fun x hx => hfill x fun heq => hx (outside_iff.mpr (heq ▸ htable))
  have hback : ∀ other, other ∈ region ↔
      other ∈ region \ {page} ∨ mode &&& pteU ≠ 0 ∧ other = page := by
    intro other
    rw [Set.mem_sdiff, Set.mem_singleton_iff]
    constructor
    · intro hin
      by_cases heq : other = page
      · exact .inr ⟨huser, heq⟩
      · exact .inl ⟨hin, heq⟩
    · rintro (⟨hin, -⟩ | ⟨-, rfl⟩)
      · exact hin
      · exact hregion
  obtain ⟨ret, pm', tables', hmap, halloc, honly, hresult⟩ := hown₁.mapPage hva hlt hgood.aligned
    hgood.small hmode ((htranslate₁ va).trans hnone) (fun _ => ⟨fun h => h.2 rfl, hgood⟩) hback
  have hnotFree : page ∉ rest := (List.nodup_cons.mp hown.nodup).1
  have halloc' : Allocates ⟨mem, page :: rest⟩ pm' tables tables' := by
    refine ⟨fun other h => List.mem_cons_of_mem _ (halloc.free other h), fun other h => ?_,
      fun x hx hfree => ?_⟩
    · exact (halloc.source other h).imp_right (List.mem_cons_of_mem _)
    · have hne : pgRoundDown x ≠ page := fun heq => hfree (heq ▸ List.mem_cons_self)
      exact (halloc.same x hx fun h => hfree (List.mem_cons_of_mem _ h)).trans (hfill x hne)
  refine ⟨ret, pm', tables', hmap, ?_⟩
  obtain ⟨rfl, hempty, hown', htranslate⟩ | ⟨rfl, hown', htranslate⟩ := hresult
  · obtain ⟨mem'', hgive, hown'', hback⟩ := hown'.giveBack hgood (fun h => h.2 rfl)
    have htable' : ¬ IsTable tables' page := fun h => (hown'.mem_of_table h).2 rfl
    rw [Set.insert_sdiff_self_of_mem hregion] at hown''
    have htranslate' : ∀ va', translate mem'' root va' = translate mem root va' := by
      intro va'
      have htree := hown'.tree.translate_frame (fun x hx => hback x fun heq =>
        hx (outside_iff.mpr (heq ▸ htable'))) va'
      exact htree.trans ((htranslate va').trans (htranslate₁ va'))
    refine .inr ⟨rfl, _, hgive, hown'', halloc'.release ⟨fun other h => List.mem_cons_of_mem _ h,
      fun x _ hx => hback x fun heq => hx (heq ▸ List.mem_cons_self)⟩ ?_,
      hown.onlyTables hown'' htranslate', htranslate'⟩
    intro other hother
    rw [hempty] at hother
    rw [List.mem_singleton.mp hother]
    exact List.mem_cons_self
  · refine .inl ⟨rfl, hown', halloc', honly, fun va' hva' => ?_, fun x hx => ?_⟩
    · rw [htranslate va' hva', htranslate₁]
    · exact halloc.same x (hx ▸ htable) (hx ▸ hnotFree)

/-! ## `uvmalloc` -/

/-- The pages of `[lo, hi)` are mapped with the given flags to zeroed pages that were free. -/
def ZeroPages (pm₀ pm : Pm) (root lo hi flags : ℕ) : Prop :=
  ∀ va, lo ≤ va → va < hi → ∃ page ∈ pm₀.freelist, page % pgSize = 0 ∧
    translate pm.mem root va = some (page + va % pgSize, flags) ∧
    ∀ k < pgSize, pm.mem (page + k) = 0

/-- Translations outside `[lo, hi)` stay. -/
def SameOutside (mem mem' : Mem) (root lo hi : ℕ) : Prop :=
  ∀ va < maxVa, va < lo ∨ hi ≤ va → translate mem' root va = translate mem root va

/-- What an allocating operation leaves when it fails. -/
structure Undone (kernelEnd : ℕ) (region : Set ℕ) (pm pm' : Pm) (root : ℕ)
    (tables tables' : ℕ → Set ℕ) : Prop where
  own : Owned kernelEnd region pm' root tables'
  allocates : Allocates pm pm' tables tables'
  same : ∀ va < maxVa, translate pm'.mem root va = translate pm.mem root va

theorem user_mode (xperm : ℕ) : (pteR ||| pteU ||| xperm) &&& pteU ≠ 0 := by
  intro hzero
  have hbit := congrArg (fun word => word.testBit 4) hzero
  simp only [Nat.testBit_and, Nat.testBit_or] at hbit
  have hset : pteU.testBit 4 = true := by decide
  rw [hset, Bool.or_true, Bool.true_or, Bool.true_and] at hbit
  cases hbit

theorem user_flags {flags : ℕ} (huser : flags &&& pteU ≠ 0) : (flags ||| pteV) &&& pteU ≠ 0 := by
  rwa [Nat.and_or_distrib_right, show pteV &&& pteU = 0 by decide, Nat.or_zero]

/-- The loop of `uvmalloc`, from a state that it has reached from `pm₀`. -/
theorem Owned.allocLoop {pm₀ : Pm} {tables₀ : ℕ → Set ℕ} {oldsz newsz xperm : ℕ}
    (hxperm : xperm < 1024) (hold : oldsz % pgSize = 0) (hnew : newsz ≤ maxVa)
    (hnone : ∀ va, oldsz ≤ va → va < pgRoundUp newsz → translate pm₀.mem root va = none)
    (rounds : ℕ) {pm : Pm} {tables : ℕ → Set ℕ} {a : ℕ} (ha : a % pgSize = 0) (hle : oldsz ≤ a)
    (hrounds : pgRoundUp newsz < a + rounds * pgSize)
    (hbelow : a ≤ pgRoundUp newsz)
    (hown : Owned kernelEnd region pm root tables) (halloc : Allocates pm₀ pm tables₀ tables)
    (hzero : ZeroPages pm₀ pm root oldsz a (pteR ||| pteU ||| xperm ||| pteV))
    (hsame : SameOutside pm₀.mem pm.mem root oldsz a)
    (hkept : ∀ page, page ∈ pm₀.freelist ∨ IsTable tables₀ page →
      (page ∈ pm.freelist ∨ IsTable tables page) ∨ ∃ va flags, va % pgSize = 0 ∧ oldsz ≤ va ∧
        va < a ∧ translate pm.mem root va = some (page, flags)) :
    ∃ ret pm' tables',
      uvmallocLoop kernelEnd root oldsz newsz xperm rounds pm a = .ok (ret, pm') ∧
      (ret = newsz ∧ Owned kernelEnd region pm' root tables' ∧
          Allocates pm₀ pm' tables₀ tables' ∧
          ZeroPages pm₀ pm' root oldsz (pgRoundUp newsz) (pteR ||| pteU ||| xperm ||| pteV) ∧
          SameOutside pm₀.mem pm'.mem root oldsz (pgRoundUp newsz) ∨
        ret = 0 ∧ Undone kernelEnd region pm₀ pm' root tables₀ tables' ∧
          OnlyTables pm₀ pm' tables₀ tables') := by
  have hup := pgRoundUp_eq hnew
  have hlimit : pgRoundUp newsz ≤ maxVa := by
    simp only [maxVa] at hnew ⊢
    omega
  simp only [pgSize] at hold ha hrounds
  induction rounds generalizing pm tables a with
  | zero => omega
  | succ rounds ih =>
      -- what is left when the pages from `oldsz` to `a` are given back
      have hback : ∀ {pm₂ : Pm} {tables₂ : ℕ → Set ℕ}, a < newsz →
          Owned kernelEnd region pm₂ root tables₂ → Allocates pm pm₂ tables tables₂ →
          OnlyTables pm pm₂ tables tables₂ →
          (∀ va, translate pm₂.mem root va = translate pm.mem root va) →
          ∃ pm', (uvmdealloc kernelEnd pm₂ root a oldsz).map (fun result => (0, result.2)) =
              .ok (0, pm') ∧ Undone kernelEnd region pm₀ pm' root tables₀ tables₂ ∧
            OnlyTables pm₀ pm' tables₀ tables₂ := by
        intro pm₂ tables₂ hlt hown₂ halloc₂ honly₂ htranslate₂
        have ha' : pgRoundUp a = a := by
          rw [pgRoundUp_eq (by omega)]
          omega
        have hold' : pgRoundUp oldsz = oldsz := by
          rw [pgRoundUp_eq (by omega)]
          omega
        obtain ⟨pm', hdealloc, hown', hrelease, hfreed, htranslate'⟩ :=
          @Owned.dealloc kernelEnd root region pm₂ tables₂ hown₂ a oldsz (by omega)
            (by
              intro va hlo hhi _
              obtain ⟨page, -, -, htranslate, -⟩ := hzero va (by omega) (by omega)
              exact ⟨_, _, (htranslate₂ va).trans htranslate, user_flags (user_mode xperm)⟩)
        rw [ha', hold'] at hfreed htranslate'
        refine ⟨pm', by rw [hdealloc]; rfl,
          ⟨hown', (halloc.trans halloc₂).release hrelease ?_, ?_⟩, ?_⟩
        · intro page hfree
          obtain hfree | ⟨va, flags, hva', hlo, hhi, -, hva⟩ := (hfreed page).mp hfree
          · exact halloc.free page (halloc₂.free page hfree)
          · obtain ⟨page', hpage', -, htranslate, -⟩ := hzero va hlo hhi
            rw [htranslate₂, htranslate] at hva
            obtain ⟨rfl, -⟩ := Prod.mk.injEq .. ▸ Option.some.inj hva
            rwa [hva', Nat.add_zero]
        · intro va hva
          rw [htranslate' va hva, htranslate₂]
          split
          · rename_i hin
            exact (hnone va hin.1 (by omega)).symm
          · rename_i hout
            exact hsame va hva (by omega)
        · intro page hpage
          obtain hthere | ⟨va, flags, hva, hlo, hhi, htranslate⟩ := hkept page hpage
          · exact (honly₂ page hthere).imp_left (hrelease.free page)
          · exact .inl ((hfreed page).mpr (.inr ⟨va, flags, hva, hlo, hhi, by omega,
              (htranslate₂ va).trans htranslate⟩))
      rw [uvmallocLoop]
      split
      · rename_i hlt
        have halt : a < maxVa := by omega
        have hnone' : translate pm.mem root a = none :=
          (hsame a halt (.inr le_rfl)).trans (hnone a hle (by omega))
        obtain ⟨mem, freelist⟩ := pm
        cases freelist with
        | nil =>
            obtain ⟨pm', hdealloc, hundone⟩ :=
              hback hlt hown (Allocates.refl _ _) (fun _ h => h) fun _ => rfl
            exact ⟨0, pm', tables, hdealloc, .inr ⟨rfl, hundone⟩⟩
        | cons page rest =>
            have hgood := hown.good page (hown.mem_of_free List.mem_cons_self)
            have haligned := hgood.aligned
            have hfill : ∀ x, pgRoundDown x ≠ page → fill mem page 0 pgSize x = mem x := by
              intro x hx
              apply fill_apply_of_out
              simp only [pgRoundDown, pgSize] at *
              omega
            obtain ⟨ret, pm₁, tables₁, hmap, hresult⟩ := hown.placePage rfl hfill ha halt
              (show pteR ||| pteU ||| xperm < 1024 from Nat.or_lt_two_pow (n := 10) (by decide) hxperm)
              (user_mode xperm) hnone'
            simp only [kpmalloc, fill_fill, hmap]
            obtain ⟨rfl, hown₁, halloc₁, honly₁, htranslate₁, hcontent⟩ |
              ⟨rfl, pm₂, hgive, hown₂, halloc₂, honly₂, htranslate₂⟩ := hresult
            · rw [if_neg (by decide)]
              refine ih (by simp only [pgSize]; omega) (by omega) (by simp only [pgSize]; omega)
                (by simp only [pgSize]; omega) hown₁ (halloc.trans halloc₁) ?_ ?_ ?_
              · intro va hlo hhi
                rw [htranslate₁ va (by simp only [pgSize] at hhi; omega)]
                by_cases hhere : va / pgSize = a / pgSize
                · rw [if_pos hhere]
                  refine ⟨page, halloc.free page List.mem_cons_self, haligned, rfl, fun k hk => ?_⟩
                  rw [hcontent _ (pgRoundDown_add haligned hk)]
                  exact fill_apply_of_in _ (Nat.le_add_right _ _) (by omega)
                · rw [if_neg hhere]
                  have hbefore : va < a := by
                    rw [same_page_iff ha] at hhere
                    omega
                  obtain ⟨old, hfree, hold', htranslate, hcell⟩ := hzero va hlo hbefore
                  refine ⟨old, hfree, hold', htranslate, fun k hk => ?_⟩
                  have hframe := hown.frame_of_translate htranslate (user_flags (user_mode xperm))
                  rw [halloc₁.same _ (by rw [pgRoundDown_add hold' hk]; exact hown.frameTable _ hframe)
                    (by rw [pgRoundDown_add hold' hk]; exact fun h => hown.freeFrame _ h hframe)]
                  exact hcell k hk
              · intro va hva hout
                rw [htranslate₁ va hva, if_neg]
                · exact hsame va hva (by omega)
                · rw [same_page_iff ha]
                  omega
              · intro other hother
                have hnewest : translate pm₁.mem root a = some (page, pteR ||| pteU ||| xperm ||| pteV) := by
                  rw [htranslate₁ a halt, if_pos rfl, show a % pgSize = 0 from ha, Nat.add_zero]
                obtain (hfree | htable) | ⟨va, flags, hva, hlo, hhi, htranslate⟩ := hkept other hother
                · obtain rfl | hrest := List.mem_cons.mp hfree
                  · exact .inr ⟨a, _, ha, hle, by simp only [pgSize]; omega, hnewest⟩
                  · exact .inl (honly₁ other (.inl hrest))
                · exact .inl (honly₁ other (.inr htable))
                · refine .inr ⟨va, flags, hva, hlo, by omega, ?_⟩
                  rw [htranslate₁ va (by omega), if_neg (by rw [same_page_iff ha]; omega)]
                  exact htranslate
            · rw [if_pos (by decide), hgive]
              obtain ⟨pm', hdealloc, hundone⟩ := hback hlt hown₂ halloc₂ honly₂ htranslate₂
              exact ⟨0, pm', _, hdealloc, .inr ⟨rfl, hundone⟩⟩
      · rename_i hge
        refine ⟨newsz, pm, tables, rfl, .inl ⟨rfl, hown, halloc, ?_, ?_⟩⟩
        · exact fun va hlo hhi => hzero va hlo (by omega)
        · exact fun va hva hout => hsame va hva (by omega)

theorem ZeroPages.refl (pm : Pm) (lo flags : ℕ) : ZeroPages pm pm root lo lo flags :=
  fun _ hlo hhi => absurd hhi (not_lt.mpr hlo)

/-- `uvmalloc` of pages that are not mapped. -/
theorem Owned.alloc (hown : Owned kernelEnd region pm root tables) {oldsz newsz xperm : ℕ}
    (hxperm : xperm < 1024) (hnew : newsz ≤ maxVa)
    (hnone : ∀ va, pgRoundUp oldsz ≤ va → va < pgRoundUp newsz → translate pm.mem root va = none) :
    ∃ ret pm' tables', uvmalloc kernelEnd pm root oldsz newsz xperm = .ok (ret, pm') ∧
      (newsz < oldsz ∧ ret = oldsz ∧ pm' = pm ∧ tables' = tables ∨
        oldsz ≤ newsz ∧ ret = newsz ∧ Owned kernelEnd region pm' root tables' ∧
          Allocates pm pm' tables tables' ∧
          ZeroPages pm pm' root (pgRoundUp oldsz) (pgRoundUp newsz)
            (pteR ||| pteU ||| xperm ||| pteV) ∧
          SameOutside pm.mem pm'.mem root (pgRoundUp oldsz) (pgRoundUp newsz) ∨
        oldsz ≤ newsz ∧ ret = 0 ∧ Undone kernelEnd region pm pm' root tables tables' ∧
          OnlyTables pm pm' tables tables') := by
  rw [uvmalloc]
  split
  · rename_i hlt
    exact ⟨oldsz, pm, tables, rfl, .inl ⟨hlt, rfl, rfl, rfl⟩⟩
  · rename_i hge
    have hup := pgRoundUp_eq hnew
    have hup' := pgRoundUp_eq (show oldsz ≤ maxVa by omega)
    have hlimit : pgRoundUp newsz ≤ maxVa := by
      simp only [maxVa] at hnew ⊢
      omega
    have haligned : pgRoundUp oldsz % pgSize = 0 := by
      simp only [pgSize]
      omega
    have hrounds : pgRoundUp newsz <
        pgRoundUp oldsz + ((maxVa - pgRoundUp oldsz) / pgSize + 2) * pgSize := by
      simp only [pgSize]
      omega
    obtain ⟨ret, pm', tables', hloop, hresult⟩ := hown.allocLoop hxperm haligned hnew hnone _
      haligned le_rfl hrounds (by omega) (Allocates.refl pm tables) (ZeroPages.refl pm _ _)
      (fun _ _ _ => rfl) (fun _ h => .inl h)
    refine ⟨ret, pm', tables', hloop, .inr ?_⟩
    obtain ⟨rfl, hall⟩ | ⟨rfl, hundone⟩ := hresult
    · exact .inl ⟨not_lt.mp hge, rfl, hall⟩
    · exact .inr ⟨not_lt.mp hge, rfl, hundone⟩

/-! ## `setup_stack` -/

/-- `setup_stack` where the stack page is not mapped. -/
theorem Owned.stack (hown : Owned kernelEnd region pm root tables)
    (hnone : translate pm.mem root (ustack - pgSize) = none) :
    ∃ sp pm' tables', setupStack kernelEnd pm root = .ok (sp, pm') ∧
      (sp = some ustack ∧ Owned kernelEnd region pm' root tables' ∧
          Allocates pm pm' tables tables' ∧
          (∃ page ∈ pm.freelist, page % pgSize = 0 ∧ ∀ va, ustack - pgSize ≤ va → va < ustack →
            translate pm'.mem root va =
              some (page + va % pgSize, pteR ||| pteW ||| pteU ||| pteV)) ∧
          SameOutside pm.mem pm'.mem root (ustack - pgSize) ustack ∨
        sp = none ∧ Undone kernelEnd region pm pm' root tables tables') := by
  have hpage : ∀ va, va / pgSize = (ustack - pgSize) / pgSize ↔ ustack - pgSize ≤ va ∧ va < ustack :=
    fun va => same_page_iff (by decide)
  obtain ⟨mem, freelist⟩ := pm
  rw [setupStack]
  cases freelist with
  | nil =>
      exact ⟨none, _, tables, rfl, .inr ⟨rfl, hown, Allocates.refl _ _, fun _ _ => rfl⟩⟩
  | cons page rest =>
      have haligned := (hown.good page (hown.mem_of_free List.mem_cons_self)).aligned
      have hfill : ∀ x, pgRoundDown x ≠ page → fill mem page 5 pgSize x = mem x := by
        intro x hx
        apply fill_apply_of_out
        simp only [pgRoundDown, pgSize] at *
        omega
      obtain ⟨ret, pm₁, tables₁, hmap, hresult⟩ := hown.placePage rfl hfill (by decide) (by decide)
        (show pteR ||| pteW ||| pteU < 1024 by decide) (by decide) hnone
      simp only [kpmalloc, hmap]
      obtain ⟨rfl, hown₁, halloc₁, -, htranslate₁, -⟩ |
        ⟨rfl, pm₂, hgive, hown₂, halloc₂, -, htranslate₂⟩ := hresult
      · rw [if_neg (by decide)]
        refine ⟨some ustack, pm₁, tables₁, rfl, .inl ⟨rfl, hown₁, halloc₁, ⟨page,
          List.mem_cons_self, haligned, fun va hlo hhi => ?_⟩, fun va hva hout => ?_⟩⟩
        · rw [htranslate₁ va (hhi.trans (by decide)), if_pos ((hpage va).mpr ⟨hlo, hhi⟩)]
        · rw [htranslate₁ va hva, if_neg]
          rw [hpage]
          omega
      · rw [if_pos (by decide), hgive]
        exact ⟨none, pm₂, _, rfl, .inr ⟨rfl, hown₂, halloc₂, fun va _ => htranslate₂ va⟩⟩

end Operations

end Painting.PageTable
