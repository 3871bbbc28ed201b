import Painting.Mm.SpaceLife

/-!
# Pages and their parties

Physical pages are shared out among parties: each page is free, belongs to one party,
or lies outside the pool.  Some parties hold a page table.  An operation of one party
takes free pages and returns its own, writes only to these, and so leaves the tables of
every other party as they are.
-/

namespace Painting.PageTable

open Painting.Memory

inductive Owner (Party : Type*)
  | free
  | outside
  | party (name : Party)

section Parties

variable {Party : Type*}

/-- The pages of a party with the free ones. -/
def share (owner : ℕ → Owner Party) (party : Party) : Set ℕ :=
  {page | owner page = .free ∨ owner page = .party party}

/-- The owners after an operation of `party` that leaves `freelist`. -/
def reown (owner : ℕ → Owner Party) (party : Party) (freelist : List ℕ) : ℕ → Owner Party :=
  fun page =>
    if page ∈ freelist then .free
    else
      match owner page with
      | .free => .party party
      | other => other

/-- Every party among `holders` has a table on its own pages. -/
structure Shared (kernelEnd : ℕ) (pm : Pm) (owner : ℕ → Owner Party) (root : Party → ℕ)
    (tables : Party → ℕ → Set ℕ) (holders : Set Party) : Prop where
  nodup : pm.freelist.Nodup
  free : ∀ page, page ∈ pm.freelist ↔ owner page = .free
  good : ∀ page, owner page ≠ .outside → Allocatable kernelEnd page
  owned : ∀ party ∈ holders, Owned kernelEnd (share owner party) pm (root party) (tables party)

/-- An operation of `party`: it returns only its own pages, and writes only to these and to the
free ones. -/
structure Moves (owner : ℕ → Owner Party) (party : Party) (pm pm' : Pm) : Prop where
  nodup : pm'.freelist.Nodup
  back : ∀ page ∈ pm'.freelist, page ∈ share owner party
  same : Untouched (share owner party) pm.mem pm'.mem

variable {kernelEnd : ℕ} {pm pm' : Pm} {owner : ℕ → Owner Party} {root root' : Party → ℕ}
  {tables tables' : Party → ℕ → Set ℕ} {holders holders' : Set Party} {party other : Party}

/-! ## The owners afterwards -/

section Reown

variable {freelist : List ℕ} {page : ℕ}

theorem reown_of_free (hpage : page ∈ freelist) : reown owner party freelist page = .free :=
  if_pos hpage

theorem reown_of_taken (hpage : page ∉ freelist) (hfree : owner page = .free) :
    reown owner party freelist page = .party party := by
  rw [reown, if_neg hpage, hfree]

theorem reown_of_other (hpage : page ∉ freelist) (hfree : owner page ≠ .free) :
    reown owner party freelist page = owner page := by
  rw [reown, if_neg hpage]
  cases howner : owner page with
  | free => exact absurd howner hfree
  | outside => rfl
  | party name => rfl

theorem reown_eq_free : reown owner party freelist page = .free ↔ page ∈ freelist := by
  constructor
  · intro heq
    by_contra hpage
    by_cases hfree : owner page = .free
    · rw [reown_of_taken hpage hfree] at heq
      cases heq
    · rw [reown_of_other hpage hfree] at heq
      exact hfree heq
  · exact reown_of_free

theorem reown_eq_self :
    reown owner party freelist page = .party party ↔
      page ∈ share owner party ∧ page ∉ freelist := by
  by_cases hpage : page ∈ freelist
  · rw [reown_of_free hpage]
    exact ⟨nofun, fun h => absurd hpage h.2⟩
  · by_cases hfree : owner page = .free
    · rw [reown_of_taken hpage hfree]
      exact ⟨fun _ => ⟨.inl hfree, hpage⟩, fun _ => rfl⟩
    · rw [reown_of_other hpage hfree]
      exact ⟨fun heq => ⟨.inr heq, hpage⟩, fun h => h.1.resolve_left hfree⟩

variable (hback : ∀ page ∈ freelist, page ∈ share owner party)
include hback

theorem reown_eq_outside : reown owner party freelist page = .outside ↔ owner page = .outside := by
  by_cases hpage : page ∈ freelist
  · rw [reown_of_free hpage]
    have hshare := hback page hpage
    constructor
    · exact nofun
    · intro heq
      rw [share, Set.mem_ofPred_eq, heq] at hshare
      obtain heq | heq := hshare <;> cases heq
  · by_cases hfree : owner page = .free
    · rw [reown_of_taken hpage hfree, hfree]
      exact ⟨nofun, nofun⟩
    · rw [reown_of_other hpage hfree]

theorem reown_eq_other (hne : other ≠ party) :
    reown owner party freelist page = .party other ↔ owner page = .party other := by
  by_cases hpage : page ∈ freelist
  · rw [reown_of_free hpage]
    have hshare := hback page hpage
    constructor
    · exact nofun
    · intro heq
      rw [share, Set.mem_ofPred_eq, heq] at hshare
      obtain heq | heq := hshare
      · cases heq
      · cases heq
        exact absurd rfl hne
  · by_cases hfree : owner page = .free
    · rw [reown_of_taken hpage hfree, hfree]
      constructor
      · intro heq
        cases heq
        exact absurd rfl hne
      · exact nofun
    · rw [reown_of_other hpage hfree]

theorem share_reown : share (reown owner party freelist) party = share owner party := by
  ext page
  rw [share, Set.mem_ofPred_eq, reown_eq_free, reown_eq_self]
  constructor
  · rintro (hpage | ⟨hpage, -⟩)
    · exact hback page hpage
    · exact hpage
  · intro hpage
    by_cases hfree : page ∈ freelist
    · exact .inl hfree
    · exact .inr ⟨hpage, hfree⟩

end Reown

/-- An operation that takes and returns no page. -/
theorem reown_same {freelist : List ℕ} (hfree : ∀ page, page ∈ freelist ↔ owner page = .free) :
    reown owner party freelist = owner := by
  funext page
  by_cases hpage : page ∈ freelist
  · rw [reown_of_free hpage, (hfree page).mp hpage]
  · exact reown_of_other hpage (mt (hfree page).mpr hpage)

/-! ## Other parties -/

theorem Shared.table_owner (hshared : Shared kernelEnd pm owner root tables holders)
    (hother : other ∈ holders) {page : ℕ} (hpage : IsTable (tables other) page) :
    owner page = .party other := by
  have hown := hshared.owned other hother
  refine (hown.mem_of_table hpage).resolve_left fun hfree => ?_
  exact hown.freeTable page ((hshared.free page).mpr hfree) hpage

theorem Shared.frame_owner (hshared : Shared kernelEnd pm owner root tables holders)
    (hother : other ∈ holders) {page : ℕ} (hpage : Frame pm.mem (tables other) page) :
    owner page = .party other := by
  have hown := hshared.owned other hother
  refine (hown.mem_of_frame hpage).resolve_left fun hfree => ?_
  exact hown.freeFrame page ((hshared.free page).mpr hfree) hpage

theorem not_mem_share {page : ℕ} (hne : other ≠ party) (hpage : owner page = .party other) :
    page ∉ share owner party := by
  rw [share, Set.mem_ofPred_eq, hpage]
  rintro (heq | heq)
  · cases heq
  · cases heq
    exact hne rfl

/-- Every other party is apart from the pages that an operation may touch. -/
theorem Shared.apart (hshared : Shared kernelEnd pm owner root tables holders)
    (hother : other ∈ holders) (hne : other ≠ party) :
    Apart pm.mem (share owner party) (root other) (tables other) :=
  ⟨(hshared.owned other hother).tree,
    fun _ hpage => not_mem_share hne (hshared.table_owner hother hpage),
    fun _ hpage => not_mem_share hne (hshared.frame_owner hother hpage)⟩

/-- A table that another party's operation leaves alone is owned as before. -/
theorem Shared.owned_other (hshared : Shared kernelEnd pm owner root tables holders)
    (hmoves : Moves owner party pm pm') (hother : other ∈ holders) (hne : other ≠ party) :
    Owned kernelEnd (share (reown owner party pm'.freelist) other) pm' (root other)
      (tables other) := by
  have hown := hshared.owned other hother
  have hapart := hshared.apart hother hne
  have hsame := hapart.tables_same hmoves.same
  have hkeep := hown.write hsame
  have hframe := fun page => exists_congr fun slot => hown.tree.userLeaf_frame hsame slot page
  have hregion : ∀ page, page ∈ share (reown owner party pm'.freelist) other ↔
      page ∈ pm'.freelist ∨ owner page = .party other := fun page =>
    or_congr reown_eq_free (reown_eq_other hmoves.back hne)
  refine ⟨hkeep.tree, hkeep.plain, hkeep.inj, hmoves.nodup, ?_, ?_, hkeep.frameTable, ?_, ?_⟩
  · exact fun page hpage htable => hapart.table page htable (hmoves.back page hpage)
  · intro page hpage hmem
    exact hapart.frame page ((hframe page).mp hmem) (hmoves.back page hpage)
  · intro page
    rw [hregion]
    refine or_congr_right ⟨fun howner => ?_, ?_⟩
    · obtain hfree | howned := (hkeep.region_iff page).mp (.inr howner)
      · rw [(hshared.free page).mp hfree] at howner
        cases howner
      · exact howned
    · rintro (htable | hmem)
      · exact hshared.table_owner hother htable
      · exact hshared.frame_owner hother ((hframe page).mp hmem)
  · intro page hpage
    obtain hfree | howner := (hregion page).mp hpage
    · refine hshared.good page fun hout => ?_
      have hback := hmoves.back page hfree
      rw [share, Set.mem_ofPred_eq, hout] at hback
      obtain heq | heq := hback <;> cases heq
    · exact hown.good page (.inr howner)

/-- Another party's table maps what it did. -/
theorem Shared.translate_other (hshared : Shared kernelEnd pm owner root tables holders)
    (hmoves : Moves owner party pm pm') (hother : other ∈ holders) (hne : other ≠ party) (va : ℕ) :
    translate pm'.mem (root other) va = translate pm.mem (root other) va :=
  (hshared.apart hother hne).translate_same hmoves.same va

theorem Moves.owner_other (hmoves : Moves owner party pm pm') (hne : other ≠ party) {page : ℕ} :
    reown owner party pm'.freelist page = .party other ↔ owner page = .party other :=
  reown_eq_other hmoves.back hne

/-! ## Parties that do not act -/

/-- The parties outside `acting` keep their pages, and what is in them; no page leaves the pool or
comes into it. -/
structure Spares (acting : Set Party) (owner owner' : ℕ → Owner Party) (mem mem' : Mem) : Prop where
  outside : ∀ page, owner' page = .outside ↔ owner page = .outside
  pages : ∀ other ∉ acting, ∀ page, owner' page = .party other ↔ owner page = .party other
  same : ∀ other ∉ acting, ∀ x, owner (pgRoundDown x) = .party other → mem' x = mem x

section Spares

variable {acting acting' : Set Party} {owner₁ owner₂ owner₃ : ℕ → Owner Party}
  {mem₁ mem₂ mem₃ : Mem}

theorem Spares.refl (acting : Set Party) (owner : ℕ → Owner Party) (mem : Mem) :
    Spares acting owner owner mem mem :=
  ⟨fun _ => Iff.rfl, fun _ _ _ => Iff.rfl, fun _ _ _ _ => rfl⟩

theorem Spares.trans (hleft : Spares acting owner₁ owner₂ mem₁ mem₂)
    (hright : Spares acting owner₂ owner₃ mem₂ mem₃) : Spares acting owner₁ owner₃ mem₁ mem₃ := by
  refine ⟨fun page => (hright.outside page).trans (hleft.outside page), fun other hother page => ?_,
    fun other hother x hx => ?_⟩
  · exact (hright.pages other hother page).trans (hleft.pages other hother page)
  · have hmid := hright.same other hother x ((hleft.pages other hother _).mpr hx)
    exact hmid.trans (hleft.same other hother x hx)

theorem Spares.mono (hspares : Spares acting owner₁ owner₂ mem₁ mem₂) (hsub : acting ⊆ acting') :
    Spares acting' owner₁ owner₂ mem₁ mem₂ :=
  ⟨hspares.outside, fun other hother => hspares.pages other fun h => hother (hsub h),
    fun other hother => hspares.same other fun h => hother (hsub h)⟩

theorem Spares.symm (hspares : Spares acting owner₁ owner₂ mem₁ mem₂) :
    Spares acting owner₂ owner₁ mem₂ mem₁ :=
  ⟨fun page => (hspares.outside page).symm,
    fun other hother page => (hspares.pages other hother page).symm,
    fun other hother x hx => (hspares.same other hother x ((hspares.pages other hother _).mp hx)).symm⟩

theorem Spares.mem_share {party : Party} (hspares : Spares {party} owner₁ owner₂ mem₁ mem₂)
    {page : ℕ} (hshare : page ∈ share owner₁ party) : page ∈ share owner₂ party := by
  cases howner : owner₂ page with
  | free => exact .inl howner
  | outside =>
      have hold := (hspares.outside page).mp howner
      rw [share, Set.mem_ofPred_eq, hold] at hshare
      obtain heq | heq := hshare <;> cases heq
  | party other =>
      by_cases hne : other = party
      · exact .inr (hne ▸ howner)
      · have hold := (hspares.pages other hne page).mp howner
        exact absurd hshare (not_mem_share hne hold)

/-- Pages pass only between the acting party and the free ones. -/
theorem Spares.share {party : Party} (hspares : Spares {party} owner₁ owner₂ mem₁ mem₂) (page : ℕ) :
    page ∈ share owner₂ party ↔ page ∈ share owner₁ party :=
  ⟨hspares.symm.mem_share, hspares.mem_share⟩

end Spares

theorem Moves.spares (hmoves : Moves owner party pm pm') :
    Spares {party} owner (reown owner party pm'.freelist) pm.mem pm'.mem :=
  ⟨fun _ => reown_eq_outside hmoves.back, fun _ hother _ => hmoves.owner_other hother,
    fun _ hother x hx => hmoves.same x (not_mem_share hother hx)⟩

/-- A spared table maps what it did. -/
theorem Shared.translate_spared (hshared : Shared kernelEnd pm owner root tables holders)
    {acting : Set Party} {owner' : ℕ → Owner Party} {mem' : Mem}
    (hspares : Spares acting owner owner' pm.mem mem') (hother : other ∈ holders)
    (hspared : other ∉ acting) (va : ℕ) :
    translate mem' (root other) va = translate pm.mem (root other) va := by
  refine (hshared.owned other hother).tree.translate_frame (fun x hx => ?_) va
  rw [outside_iff, not_not] at hx
  exact hspares.same other hspared x (hshared.table_owner hother hx)

/-! ## Steps -/

/-- After an operation of `party` the pages are shared as before, if its own table is. -/
theorem Shared.step (hshared : Shared kernelEnd pm owner root tables holders)
    (hmoves : Moves owner party pm pm')
    (hothers : ∀ other ∈ holders', other ≠ party →
      other ∈ holders ∧ root' other = root other ∧ tables' other = tables other)
    (hself : party ∈ holders' →
      Owned kernelEnd (share owner party) pm' (root' party) (tables' party)) :
    Shared kernelEnd pm' (reown owner party pm'.freelist) root' tables' holders' := by
  refine ⟨hmoves.nodup, fun page => reown_eq_free.symm, fun page hpage => ?_, fun other hother => ?_⟩
  · exact hshared.good page fun hout => hpage ((reown_eq_outside hmoves.back).mpr hout)
  · by_cases hne : other = party
    · subst hne
      rw [share_reown hmoves.back]
      exact hself hother
    · obtain ⟨hold, hroot, htables⟩ := hothers other hother hne
      rw [hroot, htables]
      exact hshared.owned_other hmoves hold hne

/-- The operations on the table of a party. -/
theorem Owned.moves_of_allocates {set set' : ℕ → Set ℕ} {r : ℕ}
    (hown : Owned kernelEnd (share owner party) pm r set)
    (hown' : Owned kernelEnd (share owner party) pm' r set') (halloc : Allocates pm pm' set set') :
    Moves owner party pm pm' :=
  ⟨hown'.nodup, fun _ hpage => hown'.mem_of_free hpage, hown.allocates_untouched halloc⟩

variable {freelist : List ℕ} {mem : Mem} {page : ℕ}

/-- `kpmalloc` by a party. -/
theorem Shared.moves_take (hshared : Shared kernelEnd ⟨mem, page :: freelist⟩ owner root tables holders)
    (party : Party) : Moves owner party ⟨mem, page :: freelist⟩ ⟨fill mem page 5 pgSize, freelist⟩ := by
  have hfree : ∀ other ∈ page :: freelist, owner other = .free := fun other hother =>
    (hshared.free other).mp hother
  refine ⟨(List.nodup_cons.mp hshared.nodup).2,
    fun other hother => .inl (hfree other (List.mem_cons_of_mem _ hother)), fun x hx => ?_⟩
  have hgood := hshared.good page (by rw [hfree page List.mem_cons_self]; exact nofun)
  have hne : pgRoundDown x ≠ page := fun heq =>
    hx (.inl (heq ▸ hfree page List.mem_cons_self))
  have haligned := hgood.aligned
  apply fill_apply_of_out
  simp only [pgRoundDown, pgSize] at *
  omega

/-- `kpmfree` by a party. -/
theorem Shared.moves_give (hshared : Shared kernelEnd pm owner root tables holders)
    (hpage : owner page = .party party) :
    ∃ pm', kpmfree kernelEnd pm page = .ok pm' ∧ pm'.freelist = page :: pm.freelist ∧
      Moves owner party pm pm' := by
  have hgood := hshared.good page (by rw [hpage]; exact nofun)
  refine ⟨_, kpmfree_eq hgood pm, rfl, List.nodup_cons.mpr ⟨fun h => ?_, hshared.nodup⟩, ?_, ?_⟩
  · rw [(hshared.free page).mp h] at hpage
    cases hpage
  · intro other hother
    obtain rfl | hother := List.mem_cons.mp hother
    · exact .inr hpage
    · exact .inl ((hshared.free other).mp hother)
  · intro x hx
    have hne : pgRoundDown x ≠ page := fun heq => hx (.inr (heq ▸ hpage))
    have haligned := hgood.aligned
    simp only [pgRoundDown, pgSize] at hne haligned
    dsimp only
    rw [store_apply_of_out _ (by omega), fill_apply_of_out _ (by simp only [pgSize]; omega)]

/-- Writes of a party to its own pages. -/
theorem Shared.moves_write (hshared : Shared kernelEnd pm owner root tables holders)
    {mem' : Mem} (hsame : ∀ x, owner (pgRoundDown x) ≠ .party party → mem' x = pm.mem x) :
    Moves owner party pm ⟨mem', pm.freelist⟩ :=
  ⟨hshared.nodup, fun page hpage => .inl ((hshared.free page).mp hpage),
    fun x hx => hsame x fun heq => hx (.inr heq)⟩

theorem Shared.pool (hshared : Shared kernelEnd pm owner root tables holders) :
    Pool kernelEnd pm :=
  ⟨hshared.nodup, fun page hpage => hshared.good page (by
    rw [(hshared.free page).mp hpage]
    exact nofun)⟩

end Parties

/-! ## Unmapping a page that is no frame of a user -/

/-- `uvmunmap` of one page frees it and then clears the entry. -/
theorem Owned.uvmunmap_freeing {kernelEnd root va page flags : ℕ} {region : Set ℕ} {pm pm' : Pm}
    {tables : ℕ → Set ℕ} (hown : Owned kernelEnd region pm root tables) (hva : va % pgSize = 0)
    (hlt : va < maxVa) (htranslate : translate pm.mem root va = some (page, flags))
    (hleaf : flags ≠ pteV) (hgive : kpmfree kernelEnd pm page = .ok pm')
    (hsame : ∀ x, ¬ Outside tables x → pm'.mem x = pm.mem x) :
    uvmunmap kernelEnd pm root va 1 true = uvmunmap kernelEnd pm' root va 1 false := by
  obtain ⟨leaf, hlookup, hvalid, rfl, rfl⟩ := lookup_of_translate htranslate
  have hmem := hown.tree.lookup_mem le_rfl hown.tree.root_mem hlookup
  have hlookup' : lookup pm'.mem va 2 root = some leaf :=
    (hown.tree.lookup_frame hsame va le_rfl hown.tree.root_mem).trans hlookup
  have hentry : readPte pm'.mem (leaf + 8 * idx 0 va) = readPte pm.mem (leaf + 8 * idx 0 va) :=
    hown.tree.entry_frame hsame (Nat.zero_le _) hmem (idx_lt _ _)
  have hstop : (va + 1 * pgSize) % 2 ^ 64 = va + pgSize := by
    simp only [maxVa, pgSize] at *
    omega
  have hrounds : (va + pgSize - va + (pgSize - 1)) / pgSize = 1 := by
    rw [Nat.add_sub_cancel_left]
    rfl
  have hv : readPte pm.mem (leaf + 8 * idx 0 va) &&& pteV ≠ 0 := hvalid
  have hflags : pteFlags (readPte pm.mem (leaf + 8 * idx 0 va)) ≠ pteV := hleaf
  have hgive' : kpmfree kernelEnd pm (pte2pa (readPte pm.mem (leaf + 8 * idx 0 va))) = .ok pm' := by
    rw [hva, Nat.add_zero] at hgive
    exact hgive
  rw [uvmunmap, uvmunmap, if_neg (not_not.mpr hva), if_neg (not_not.mpr hva)]
  dsimp only
  rw [hstop, hrounds, unmapLoop, unmapLoop, walk_lookup hlt, walk_lookup hlt, hlookup, hlookup',
    Option.map_some]
  dsimp only
  rw [hentry, if_neg hv, if_neg hflags, if_neg hv, if_neg hflags, if_pos rfl, hgive']
  rfl

end Painting.PageTable
