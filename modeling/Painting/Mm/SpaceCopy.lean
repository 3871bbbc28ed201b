import Painting.Mm.Spaces

/-!
# Copying an address space

`uvmcopy` walks the pages below a size in the old table, skips those that the user may
not access and maps copies of the others in the new table.  The old table belongs to
somebody else: neither its tables nor its frames lie in the region of the new one.
-/

namespace Painting.PageTable

open Painting.Memory

/-- A table whose pages are outside the region. -/
structure Apart (mem : Mem) (region : Set ℕ) (root : ℕ) (tables : ℕ → Set ℕ) : Prop where
  tree : WellFormed mem root tables
  table : ∀ page, IsTable tables page → page ∉ region
  frame : ∀ page, Frame mem tables page → page ∉ region

/-- Memory outside the region stays. -/
def Untouched (region : Set ℕ) (mem mem' : Mem) : Prop :=
  ∀ x, pgRoundDown x ∉ region → mem' x = mem x

section Apart

variable {kernelEnd root : ℕ} {region : Set ℕ} {pm pm' : Pm} {tables tables' : ℕ → Set ℕ}

theorem Owned.allocates_untouched (hown : Owned kernelEnd region pm root tables)
    (halloc : Allocates pm pm' tables tables') : Untouched region pm.mem pm'.mem := fun x hx =>
  halloc.same x (fun h => hx (hown.mem_of_table h)) fun h => hx (hown.mem_of_free h)

theorem Owned.releases_untouched (hown : Owned kernelEnd region pm root tables)
    (hown' : Owned kernelEnd region pm' root tables) (hrelease : Releases pm pm' tables) :
    Untouched region pm.mem pm'.mem := fun x hx =>
  hrelease.same x (fun h => hx (hown.mem_of_table h)) fun h => hx (hown'.mem_of_free h)

variable {mem mem' : Mem}

theorem Apart.tables_same (hapart : Apart mem region root tables)
    (huntouched : Untouched region mem mem') : ∀ x, ¬ Outside tables x → mem' x = mem x := by
  intro x hx
  rw [outside_iff, not_not] at hx
  exact huntouched x (hapart.table _ hx)

theorem Apart.untouched (hapart : Apart mem region root tables)
    (huntouched : Untouched region mem mem') : Apart mem' region root tables := by
  have hsame := hapart.tables_same huntouched
  refine ⟨hapart.tree.frame hsame, hapart.table, fun page hframe => ?_⟩
  obtain ⟨slot, hslot⟩ := hframe
  exact hapart.frame page ⟨slot, (hapart.tree.userLeaf_frame hsame slot page).mp hslot⟩

theorem Apart.translate_same (hapart : Apart mem region root tables)
    (huntouched : Untouched region mem mem') (va : ℕ) :
    translate mem' root va = translate mem root va :=
  hapart.tree.translate_frame (hapart.tables_same huntouched) va

/-- What a user may access does not change. -/
theorem Apart.content_same (hapart : Apart mem region root tables)
    (huntouched : Untouched region mem mem') {va pa flags : ℕ}
    (htranslate : translate mem root va = some (pa, flags)) (huser : flags &&& pteU ≠ 0) :
    mem' pa = mem pa := by
  obtain ⟨leaf, hlookup, hvalid, rfl, rfl⟩ := lookup_of_translate htranslate
  apply huntouched
  have hframe := pte2pa_aligned (entry mem leaf (idx 0 va))
  rw [pgRoundDown_add hframe (Nat.mod_lt va (by decide))]
  exact hapart.frame _ ⟨(leaf, idx 0 va), ⟨hapart.tree.lookup_mem le_rfl hapart.tree.root_mem hlookup,
    idx_lt _ _, hvalid, rfl⟩, pteFlags_user.mp huser⟩

end Apart

/-! ## `uvmcopy` -/

/-- The permissions that `uvmcopy` keeps. -/
def permMask : ℕ := pteR ||| pteW ||| pteX ||| pteU

/-- Below `hi` the new table maps copies of the old table's user pages, on pages that were free,
and otherwise what it mapped before. -/
structure Copied (pm₀ pm : Pm) (old new hi : ℕ) : Prop where
  page : ∀ va < hi, ∀ pa flags, translate pm₀.mem old va = some (pa, flags) → flags &&& pteU ≠ 0 →
    ∃ page ∈ pm₀.freelist, page % pgSize = 0 ∧
      translate pm.mem new va = some (page + va % pgSize, flags &&& permMask ||| pteV) ∧
      pm.mem (page + va % pgSize) = pm₀.mem pa
  other : ∀ va < hi, ¬ UserMapped pm₀.mem old va →
    translate pm.mem new va = translate pm₀.mem new va

theorem permMask_lt (flags : ℕ) : flags &&& permMask < 1024 :=
  (Nat.and_le_right (n := flags)).trans_lt (by decide)

theorem permMask_user {flags : ℕ} (huser : flags &&& pteU ≠ 0) :
    (flags &&& permMask) &&& pteU ≠ 0 := by
  rwa [Nat.and_assoc, show permMask &&& pteU = pteU by decide]

section Copy

variable {kernelEnd new old : ℕ} {region : Set ℕ} {oldTables : ℕ → Set ℕ}

theorem userMapped_page {mem : Mem} {root va va' : ℕ} (hpage : va / pgSize = va' / pgSize)
    (hmapped : UserMapped mem root va) : UserMapped mem root va' := by
  obtain ⟨pa, flags, htranslate, huser⟩ := hmapped
  exact ⟨_, flags, translate_page hpage htranslate, huser⟩

/-- A page that is skipped. -/
theorem Copied.skip {pm₀ pm : Pm} {i : ℕ} (hi : i % pgSize = 0) (hcopied : Copied pm₀ pm old new i)
    (hnot : ¬ UserMapped pm₀.mem old i) (hmax : i + pgSize ≤ maxVa)
    (hsame : ∀ va < maxVa, i ≤ va → translate pm.mem new va = translate pm₀.mem new va) :
    Copied pm₀ pm old new (i + pgSize) := by
  refine ⟨fun va hva pa flags htranslate huser => ?_, fun va hva hother => ?_⟩
  · by_cases hbefore : va < i
    · exact hcopied.page va hbefore pa flags htranslate huser
    · refine absurd (userMapped_page ?_ ⟨pa, flags, htranslate, huser⟩) hnot
      rw [same_page_iff hi]
      omega
  · by_cases hbefore : va < i
    · exact hcopied.other va hbefore hother
    · exact hsame va (by omega) (by omega)

/-- A page that is copied. -/
theorem Copied.next {pm₀ pm pm₁ : Pm} {tables tables₁ : ℕ → Set ℕ} {i page pa flags : ℕ}
    (hi : i % pgSize = 0) (hmax : i + pgSize ≤ maxVa) (hcopied : Copied pm₀ pm old new i)
    (hown : Owned kernelEnd region pm new tables) (halloc : Allocates pm pm₁ tables tables₁)
    (hpage : page ∈ pm₀.freelist) (haligned : page % pgSize = 0)
    (hold : translate pm₀.mem old i = some (pa, flags))
    (htranslate : ∀ va < maxVa, translate pm₁.mem new va =
      if va / pgSize = i / pgSize then some (page + va % pgSize, flags &&& permMask ||| pteV)
      else translate pm.mem new va)
    (hcontent : ∀ k < pgSize, pm₁.mem (page + k) = pm₀.mem (pa + k)) (huser : flags &&& pteU ≠ 0) :
    Copied pm₀ pm₁ old new (i + pgSize) := by
  have hhere : ∀ va, va / pgSize = i / pgSize →
      translate pm₀.mem old va = some (pa + va % pgSize, flags) := by
    intro va hva
    have hpage := translate_page hva.symm hold
    rwa [hi, Nat.sub_zero] at hpage
  refine ⟨fun va hva pa' flags' htranslate' huser' => ?_, fun va hva hother => ?_⟩
  · rw [htranslate va (by omega)]
    by_cases hpos : va / pgSize = i / pgSize
    · rw [if_pos hpos]
      rw [hhere va hpos] at htranslate'
      obtain ⟨rfl, rfl⟩ := Prod.mk.injEq .. ▸ Option.some.inj htranslate'
      exact ⟨page, hpage, haligned, rfl, hcontent _ (Nat.mod_lt va (by decide))⟩
    · rw [if_neg hpos]
      rw [same_page_iff hi] at hpos
      obtain ⟨other, hfree, hother, hmap, hcell⟩ :=
        hcopied.page va (by omega) pa' flags' htranslate' huser'
      refine ⟨other, hfree, hother, hmap, ?_⟩
      have hframe := hown.frame_of_translate hmap (user_flags (permMask_user huser'))
      have hround := pgRoundDown_add hother (Nat.mod_lt va (show 0 < pgSize by decide))
      rw [halloc.same _ (by rw [hround]; exact hown.frameTable _ hframe)
        (by rw [hround]; exact fun h => hown.freeFrame _ h hframe)]
      exact hcell
  · rw [htranslate va (by omega)]
    by_cases hpos : va / pgSize = i / pgSize
    · exact absurd ⟨_, flags, hhere va hpos, huser⟩ hother
    · rw [if_neg hpos]
      rw [same_page_iff hi] at hpos
      exact hcopied.other va (by omega) hother

/-- A translation that has changed is one for the user, in both tables. -/
theorem Copied.sameOrUser {pm₀ pm : Pm} {i : ℕ} (hcopied : Copied pm₀ pm old new i)
    (hsame : ∀ va < maxVa, i ≤ va → translate pm.mem new va = translate pm₀.mem new va) :
    ∀ va < maxVa, translate pm.mem new va = translate pm₀.mem new va ∨
      UserMapped pm₀.mem old va ∧ UserMapped pm.mem new va := by
  intro va hva
  by_cases hbefore : va < i
  · by_cases hmapped : UserMapped pm₀.mem old va
    · obtain ⟨pa, flags, hold, huser⟩ := hmapped
      obtain ⟨page, -, -, htranslate, -⟩ := hcopied.page va hbefore pa flags hold huser
      exact .inr ⟨⟨pa, flags, hold, huser⟩, _, _, htranslate, user_flags (permMask_user huser)⟩
    · exact .inl (hcopied.other va hbefore hmapped)
  · exact .inl (hsame va hva (not_lt.mp hbefore))

/-- The loop of `uvmcopy`, from a state that it has reached from `pm₀`. -/
theorem Owned.copyLoop {pm₀ : Pm} {tables₀ : ℕ → Set ℕ} {sz : ℕ} (hsz : sz ≤ maxVa)
    (hown₀ : Owned kernelEnd region pm₀ new tables₀) (hapart : Apart pm₀.mem region old oldTables)
    (hnone : ∀ va < pgRoundUp sz, UserMapped pm₀.mem old va → translate pm₀.mem new va = none)
    (rounds : ℕ) {pm : Pm} {tables : ℕ → Set ℕ} {i : ℕ} (hi : i % pgSize = 0)
    (hle : i ≤ pgRoundUp sz) (hrounds : pgRoundUp sz < i + rounds * pgSize)
    (hown : Owned kernelEnd region pm new tables) (halloc : Allocates pm₀ pm tables₀ tables)
    (hcopied : Copied pm₀ pm old new i)
    (hsame : ∀ va < maxVa, i ≤ va → translate pm.mem new va = translate pm₀.mem new va) :
    ∃ ret pm' tables', uvmcopyLoop kernelEnd old new sz rounds pm i = .ok (ret, pm') ∧
      Owned kernelEnd region pm' new tables' ∧ Allocates pm₀ pm' tables₀ tables' ∧
      (∀ va < maxVa, pgRoundUp sz ≤ va →
        translate pm'.mem new va = translate pm₀.mem new va) ∧
      (∀ va < maxVa, translate pm'.mem new va = translate pm₀.mem new va ∨
        UserMapped pm₀.mem old va ∧ UserMapped pm'.mem new va) ∧
      (ret = 0 ∧ Copied pm₀ pm' old new (pgRoundUp sz) ∨ ret = -1) := by
  have hup := pgRoundUp_eq hsz
  have hlimit : pgRoundUp sz ≤ maxVa := by
    simp only [maxVa] at hsz ⊢
    omega
  simp only [pgSize] at hi hrounds
  induction rounds generalizing pm tables i with
  | zero => omega
  | succ rounds ih =>
      rw [uvmcopyLoop]
      split
      swap
      · rename_i hge
        obtain rfl : i = pgRoundUp sz := by omega
        exact ⟨0, pm, tables, rfl, hown, halloc, hsame, hcopied.sameOrUser hsame,
          .inl ⟨rfl, hcopied⟩⟩
      rename_i hlt
      have hmax : i + pgSize ≤ maxVa := by
        simp only [pgSize]
        omega
      have huntouched := hown₀.allocates_untouched halloc
      have hapart' := hapart.untouched huntouched
      have hold := hapart.translate_same huntouched i
      have hi' : (i + pgSize) % 4096 = 0 := by
        simp only [pgSize]
        omega
      have hle' : i + pgSize ≤ pgRoundUp sz := by
        simp only [pgSize]
        omega
      have hrounds' : pgRoundUp sz < i + pgSize + rounds * 4096 := by
        simp only [pgSize]
        omega
      -- the pages that are skipped
      have hskip : ¬ UserMapped pm₀.mem old i → ∃ ret pm' tables',
          uvmcopyLoop kernelEnd old new sz rounds pm (i + pgSize) = .ok (ret, pm') ∧
          Owned kernelEnd region pm' new tables' ∧ Allocates pm₀ pm' tables₀ tables' ∧
          (∀ va < maxVa, pgRoundUp sz ≤ va →
            translate pm'.mem new va = translate pm₀.mem new va) ∧
          (∀ va < maxVa, translate pm'.mem new va = translate pm₀.mem new va ∨
            UserMapped pm₀.mem old va ∧ UserMapped pm'.mem new va) ∧
          (ret = 0 ∧ Copied pm₀ pm' old new (pgRoundUp sz) ∨ ret = -1) := fun hnot =>
        ih hi' hle' hrounds' hown halloc (hcopied.skip hi hnot hmax hsame)
          (fun va hva hlo => hsame va hva (by omega))
      rw [walk_lookup (by omega)]
      cases hlookup : lookup pm.mem i 2 old with
      | none =>
          apply hskip
          rintro ⟨pa, flags, htranslate, -⟩
          rw [← hold, translate, hlookup] at htranslate
          cases htranslate
      | some leaf =>
          have hread : readPte pm.mem (leaf + 8 * idx 0 i) = entry pm.mem leaf (idx 0 i) := rfl
          rw [translate_of_lookup hlookup, meaning] at hold
          rw [Option.map_some]
          dsimp only
          rw [hread]
          split
          · rename_i hbad
            apply hskip
            rintro ⟨pa, flags, htranslate, huser⟩
            rw [htranslate] at hold
            split at hold
            · rename_i hvalid
              obtain ⟨rfl, rfl⟩ := Prod.mk.injEq .. ▸ Option.some.inj hold
              exact hbad.elim hvalid (pteFlags_user.mp huser)
            · cases hold
          · rename_i hgood
            obtain ⟨hvalid, huser⟩ := not_or.mp hgood
            have hv : Valid (entry pm.mem leaf (idx 0 i)) := hvalid
            rw [if_pos hv, show i % pgSize = 0 from hi, Nat.add_zero] at hold
            have huser' := pteFlags_user.mpr huser
            have hmapped : UserMapped pm₀.mem old i := ⟨_, _, hold.symm, huser'⟩
            obtain ⟨mem, freelist⟩ := pm
            cases freelist with
            | nil =>
                refine ⟨-1, ⟨mem, []⟩, tables, rfl, hown, halloc, ?_, hcopied.sameOrUser hsame,
                  .inr rfl⟩
                exact fun va hva hlo => hsame va hva (by omega)
            | cons page rest =>
                have hpageIn : page ∈ region := hown.mem_of_free List.mem_cons_self
                have haligned := (hown.good page hpageIn).aligned
                have hframe : Frame mem oldTables (pte2pa (entry mem leaf (idx 0 i))) :=
                  ⟨(leaf, idx 0 i), ⟨hapart'.tree.lookup_mem le_rfl hapart'.tree.root_mem hlookup,
                    idx_lt _ _, hvalid, rfl⟩, huser⟩
                have hne := hapart'.frame _ hframe
                have hround := fun k hk =>
                  @pgRoundDown_add _ k (pte2pa_aligned (entry mem leaf (idx 0 i))) hk
                have hflags : pteFlags (entry mem leaf (idx 0 i)) &&& permMask &&& pteU ≠ 0 :=
                  permMask_user huser'
                dsimp only at hsame hold hmapped hne hround hflags ⊢
                generalize pte2pa (entry mem leaf (idx 0 i)) = pa at *
                generalize pteFlags (entry mem leaf (idx 0 i)) = flags at *
                have hfill : ∀ x, pgRoundDown x ≠ page → blit (fill mem page 5 pgSize) page
                    (fun k => fill mem page 5 pgSize (pa + k)) pgSize x = mem x := by
                  intro x hx
                  rw [blit, if_neg, fill_apply_of_out]
                  all_goals
                    simp only [pgRoundDown, pgSize] at *
                    omega
                have hnew : translate mem new i = none :=
                  (hsame i (by omega) le_rfl).trans (hnone i (by omega) hmapped)
                obtain ⟨ret, pm₁, tables₁, hmap, hresult⟩ := hown.placePage rfl hfill hi
                  (by omega) (permMask_lt flags) hflags hnew
                simp only [kpmalloc]
                rw [show pteR ||| pteW ||| pteX ||| pteU = permMask from rfl, hmap]
                obtain ⟨rfl, hown₁, halloc₁, -, htranslate₁, hcontent⟩ |
                  ⟨rfl, pm₂, hgive, hown₂, halloc₂, -, htranslate₂⟩ := hresult
                · dsimp only
                  rw [if_neg (by decide)]
                  refine ih hi' hle' hrounds' hown₁ (halloc.trans halloc₁) ?_ ?_
                  · refine hcopied.next hi hmax hown halloc₁ (halloc.free _ List.mem_cons_self)
                      haligned hold.symm htranslate₁ (fun k hk => ?_) huser'
                    rw [hcontent _ (pgRoundDown_add haligned hk), blit, if_pos (by omega),
                      Nat.add_sub_cancel_left]
                    have hpa : pgRoundDown (pa + k) ≠ page := by
                      rw [hround k hk]
                      exact fun heq => hne (heq ▸ hpageIn)
                    rw [fill_apply_of_out]
                    · exact huntouched _ (by rw [hround k hk]; exact hne)
                    · simp only [pgRoundDown, pgSize] at *
                      omega
                  · intro va hva hlo
                    rw [htranslate₁ va hva, if_neg]
                    · exact hsame va hva (by omega)
                    · rw [same_page_iff hi]
                      omega
                · dsimp only
                  rw [if_pos (by decide), hgive]
                  refine ⟨-1, pm₂, _, rfl, hown₂, halloc.trans halloc₂, fun va hva hlo => ?_,
                    fun va hva => ?_, .inr rfl⟩
                  · exact (htranslate₂ va).trans (hsame va hva (by omega))
                  · refine (hcopied.sameOrUser hsame va hva).imp ?_ fun h => ⟨h.1, ?_⟩
                    · exact fun heq => (htranslate₂ va).trans heq
                    · rw [UserMapped, htranslate₂]
                      exact h.2

/-- `uvmcopy` onto pages that are not mapped. -/
theorem Owned.copy {pm : Pm} {tables : ℕ → Set ℕ} {sz : ℕ}
    (hown : Owned kernelEnd region pm new tables) (hapart : Apart pm.mem region old oldTables)
    (hsz : sz ≤ maxVa)
    (hnone : ∀ va < pgRoundUp sz, UserMapped pm.mem old va → translate pm.mem new va = none) :
    ∃ ret pm' tables', uvmcopy kernelEnd pm old new sz = .ok (ret, pm') ∧
      Owned kernelEnd region pm' new tables' ∧ Allocates pm pm' tables tables' ∧
      (∀ va < maxVa, pgRoundUp sz ≤ va → translate pm'.mem new va = translate pm.mem new va) ∧
      (∀ va < maxVa, translate pm'.mem new va = translate pm.mem new va ∨
        UserMapped pm.mem old va ∧ UserMapped pm'.mem new va) ∧
      (ret = 0 ∧ Copied pm pm' old new (pgRoundUp sz) ∨ ret = -1) := by
  have hup := pgRoundUp_eq hsz
  have hrounds : pgRoundUp sz < 0 + (maxVa / pgSize + 2) * pgSize := by
    simp only [maxVa, pgSize] at hsz ⊢
    omega
  exact Owned.copyLoop hsz hown hapart hnone _ rfl (Nat.zero_le _) hrounds hown
    (Allocates.refl pm tables)
    ⟨fun va hva => absurd hva (Nat.not_lt_zero va), fun va hva => absurd hva (Nat.not_lt_zero va)⟩
    fun _ _ _ => rfl

end Copy

/-! ## Copies that stop early -/

section Early

variable {kernelEnd old new sz : ℕ} {ret : ℤ} {pm pm' : Pm}

theorem walk_of_max {va : ℕ} (hva : maxVa ≤ va) (alloc : Bool) :
    walk pm old va alloc = .error .walk := by
  rw [walk, if_pos hva]

/-- A copy that returns never gets to `MAXVA`. -/
theorem uvmcopyLoop_limit (rounds : ℕ) {i : ℕ}
    (hcopy : uvmcopyLoop kernelEnd old new sz rounds pm i = .ok (ret, pm')) :
    uvmcopyLoop kernelEnd old new (min sz maxVa) rounds pm i = .ok (ret, pm') := by
  induction rounds generalizing pm i with
  | zero => cases hcopy
  | succ rounds ih =>
      rw [uvmcopyLoop] at hcopy ⊢
      by_cases hmax : maxVa ≤ i
      · rw [if_neg (by omega)]
        by_cases hlt : i < sz
        · rw [if_pos hlt, walk_of_max hmax] at hcopy
          cases hcopy
        · rwa [if_neg hlt] at hcopy
      · have hiff : i < min sz maxVa ↔ i < sz := by omega
        simp only [hiff]
        split at hcopy
        · rename_i hlt
          rw [if_pos hlt]
          rw [walk_lookup (not_le.mp hmax)] at hcopy ⊢
          cases hlookup : lookup pm.mem i 2 old with
          | none =>
              rw [hlookup] at hcopy
              exact ih hcopy
          | some leaf =>
              rw [hlookup, Option.map_some] at hcopy
              rw [Option.map_some]
              dsimp only at hcopy ⊢
              split at hcopy
              · rename_i hbad
                rw [if_pos hbad]
                exact ih hcopy
              · rename_i hgood
                rw [if_neg hgood]
                cases htake : kpmalloc pm with
                | mk taken pm₁ =>
                    rw [htake] at hcopy
                    cases taken with
                    | none => exact hcopy
                    | some page =>
                        dsimp only at hcopy ⊢
                        split at hcopy
                        · cases hcopy
                        · split at hcopy
                          · rename_i hret
                            rw [if_pos hret]
                            exact hcopy
                          · rename_i hret
                            rw [if_neg hret]
                            exact ih hcopy
        · rename_i hge
          rwa [if_neg hge]

/-- Without free pages, or without a page to copy, nothing happens. -/
theorem uvmcopyLoop_same (rounds : ℕ) {i : ℕ}
    (hdry : pm.freelist = [] ∨ ∀ ret' pm'',
      uvmcopyLoop 0 old 0 sz rounds ⟨pm.mem, []⟩ i = .ok (ret', pm'') → ret' = 0)
    (hcopy : uvmcopyLoop kernelEnd old new sz rounds pm i = .ok (ret, pm')) : pm' = pm := by
  induction rounds generalizing i with
  | zero => cases hcopy
  | succ rounds ih =>
      rw [uvmcopyLoop] at hcopy
      simp only [uvmcopyLoop] at hdry
      by_cases hmax : maxVa ≤ i
      · by_cases hlt : i < sz
        · rw [if_pos hlt, walk_of_max hmax] at hcopy
          cases hcopy
        · rw [if_neg hlt] at hcopy
          exact (Prod.mk.inj (Except.ok.inj hcopy)).2.symm
      · split at hcopy
        · rename_i hlt
          rw [if_pos hlt, walk_lookup (not_le.mp hmax)] at hdry
          rw [walk_lookup (not_le.mp hmax)] at hcopy
          cases hlookup : lookup pm.mem i 2 old with
          | none =>
              rw [hlookup] at hcopy hdry
              exact ih hdry hcopy
          | some leaf =>
              rw [hlookup, Option.map_some] at hcopy hdry
              dsimp only at hcopy hdry
              split at hcopy
              · rename_i hbad
                rw [if_pos hbad] at hdry
                exact ih hdry hcopy
              · rename_i hgood
                rw [if_neg hgood] at hdry
                obtain hempty | hdry := hdry
                · rw [kpmalloc, hempty] at hcopy
                  exact (Prod.mk.inj (Except.ok.inj hcopy)).2.symm
                · cases hdry (-1) _ rfl
        · exact (Prod.mk.inj (Except.ok.inj hcopy)).2.symm

end Early

end Painting.PageTable
