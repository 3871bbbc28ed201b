import Painting.Mm.SpaceCopy

/-!
# Freeing an address space

`uvmfree_recursive` gives back the pages below a table in a fixed order: those of each
entry, and then the table itself.  In a tree whose pages are owned this list has no
page twice, and it consists of the tables and the frames.
-/

namespace Painting.PageTable

open Painting.Memory

/-! ## The pages below a table -/

/-- The pages that are freed for one entry; `child` lists those below a table. -/
def entryPages (child : Option (ℕ → List ℕ)) (pte : ℕ) : List ℕ :=
  if Valid pte then
    match child with
    | some child =>
        if pte &&& (pteR ||| pteW ||| pteX) = 0 then child (pte2pa pte)
        else if pte &&& pteU ≠ 0 then [pte2pa pte] else []
    | none => if pte &&& pteU ≠ 0 then [pte2pa pte] else []
  else []

/-- The pages below a table, in the order in which they are freed. -/
def pagesBelow (mem : Mem) : ℕ → ℕ → List ℕ
  | 0, table =>
      (List.range' 0 512).flatMap (fun i => entryPages none (entry mem table i)) ++ [table]
  | level + 1, table =>
      (List.range' 0 512).flatMap
        (fun i => entryPages (some (pagesBelow mem level)) (entry mem table i)) ++ [table]

/-- `free` gives back the pages that `pages` lists, which are as in `mem`. -/
def Frees (kernelEnd : ℕ) (mem : Mem) (free : Pm → ℕ → Except Panic Pm) (pages : ℕ → List ℕ) :
    Prop :=
  ∀ pm page, (∀ x, pgRoundDown x ∈ pages page → pm.mem x = mem x) → (pages page).Nodup →
    (∀ other ∈ pages page, Allocatable kernelEnd other) →
    ∃ pm', free pm page = .ok pm' ∧ pm'.freelist = (pages page).reverse ++ pm.freelist ∧
      ∀ x, pgRoundDown x ∉ pages page → pm'.mem x = pm.mem x

/-- The freeing of the level below and its list. -/
def ChildFrees (kernelEnd : ℕ) (mem : Mem) :
    Option (Pm → ℕ → Except Panic Pm) → Option (ℕ → List ℕ) → Prop
  | none, none => True
  | some free, some pages => Frees kernelEnd mem free pages
  | _, _ => False

section Free

variable {kernelEnd : ℕ} {mem : Mem}

theorem frees_kpmfree (kernelEnd : ℕ) (mem : Mem) :
    Frees kernelEnd mem (kpmfree kernelEnd) fun page => [page] := by
  intro pm page _ _ hgood
  have hpage := hgood page (List.mem_singleton.mpr rfl)
  refine ⟨_, kpmfree_eq hpage pm, rfl, fun x hx => ?_⟩
  have hne : pgRoundDown x ≠ page := fun heq => hx (List.mem_singleton.mpr heq)
  have haligned := hpage.aligned
  simp only [pgRoundDown, pgSize] at hne haligned
  dsimp only
  rw [store_apply_of_out _ (by omega), fill_apply_of_out _ (by simp only [pgSize]; omega)]

/-- The freeing of one valid entry. -/
def freeEntry (kernelEnd : ℕ) (child : Option (Pm → ℕ → Except Panic Pm)) (pm : Pm) (pte : ℕ) :
    Except Panic Pm :=
  match child with
  | some child =>
      if pte &&& (pteR ||| pteW ||| pteX) = 0 then child pm (pte2pa pte)
      else if pte &&& pteU ≠ 0 then kpmfree kernelEnd pm (pte2pa pte)
      else .ok pm
  | none => if pte &&& pteU ≠ 0 then kpmfree kernelEnd pm (pte2pa pte) else .ok pm

theorem freeEntry_spec {child : Option (Pm → ℕ → Except Panic Pm)}
    {pages : Option (ℕ → List ℕ)} (hchild : ChildFrees kernelEnd mem child pages) {pm : Pm}
    {pte : ℕ} (hvalid : Valid pte)
    (hsame : ∀ x, pgRoundDown x ∈ entryPages pages pte → pm.mem x = mem x)
    (hnodup : (entryPages pages pte).Nodup)
    (hgood : ∀ other ∈ entryPages pages pte, Allocatable kernelEnd other) :
    ∃ pm', freeEntry kernelEnd child pm pte = .ok pm' ∧
      pm'.freelist = (entryPages pages pte).reverse ++ pm.freelist ∧
      ∀ x, pgRoundDown x ∉ entryPages pages pte → pm'.mem x = pm.mem x := by
  have hleaf : ∀ list : List ℕ, list = (if pte &&& pteU ≠ 0 then [pte2pa pte] else []) →
      (∀ x, pgRoundDown x ∈ list → pm.mem x = mem x) → list.Nodup →
      (∀ other ∈ list, Allocatable kernelEnd other) →
      ∃ pm', (if pte &&& pteU ≠ 0 then kpmfree kernelEnd pm (pte2pa pte) else .ok pm) = .ok pm' ∧
        pm'.freelist = list.reverse ++ pm.freelist ∧
        ∀ x, pgRoundDown x ∉ list → pm'.mem x = pm.mem x := by
    rintro list rfl hsame hnodup hgood
    split at hsame
    · rename_i huser
      rw [if_pos huser] at hnodup hgood ⊢
      rw [if_pos huser]
      exact frees_kpmfree kernelEnd mem pm (pte2pa pte) hsame hnodup hgood
    · rename_i huser
      rw [if_neg huser, if_neg huser]
      exact ⟨pm, rfl, rfl, fun _ _ => rfl⟩
  simp only [entryPages, if_pos hvalid] at hsame hnodup hgood ⊢
  cases child with
  | none =>
      cases pages with
      | none => exact hleaf _ rfl hsame hnodup hgood
      | some pages => exact hchild.elim
  | some free =>
      cases pages with
      | none => exact hchild.elim
      | some pages =>
          rw [freeEntry]
          dsimp only at hsame hnodup hgood ⊢
          by_cases hplain : pte &&& (pteR ||| pteW ||| pteX) = 0
          · simp only [if_pos hplain] at hsame hnodup hgood ⊢
            exact hchild pm (pte2pa pte) hsame hnodup hgood
          · simp only [if_neg hplain] at hsame hnodup hgood ⊢
            exact hleaf _ rfl hsame hnodup hgood

/-- The loop of `uvmfree_recursive`: the entries from `i` on are freed one after the other. -/
theorem freeLoop_spec {child : Option (Pm → ℕ → Except Panic Pm)} {pages : Option (ℕ → List ℕ)}
    (hchild : ChildFrees kernelEnd mem child pages) {table : ℕ} (haligned : table % pgSize = 0)
    (count : ℕ) {i : ℕ} {pm : Pm} (hcount : i + count ≤ 512)
    (hentry : ∀ j, i ≤ j → j < i + count → entry pm.mem table j = entry mem table j)
    (hsame : ∀ x, pgRoundDown x ∈ (List.range' i count).flatMap
      (fun j => entryPages pages (entry mem table j)) → pm.mem x = mem x)
    (hnodup : ((List.range' i count).flatMap
      (fun j => entryPages pages (entry mem table j))).Nodup)
    (hnot : table ∉ (List.range' i count).flatMap (fun j => entryPages pages (entry mem table j)))
    (hgood : ∀ other ∈ (List.range' i count).flatMap
      (fun j => entryPages pages (entry mem table j)), Allocatable kernelEnd other) :
    ∃ pm', freeLoop kernelEnd table child count i pm = .ok pm' ∧
      pm'.freelist = ((List.range' i count).flatMap
        (fun j => entryPages pages (entry mem table j))).reverse ++ pm.freelist ∧
      ∀ x, pgRoundDown x ≠ table → pgRoundDown x ∉ (List.range' i count).flatMap
        (fun j => entryPages pages (entry mem table j)) → pm'.mem x = pm.mem x := by
  induction count generalizing i pm with
  | zero => exact ⟨pm, rfl, rfl, fun _ _ _ => rfl⟩
  | succ count ih =>
      have ih := @ih (i + 1)
      simp only [List.range'_succ, List.flatMap_cons, Nat.add_one] at *
      generalize hrest : (List.range' (i + 1) count).flatMap
        (fun j => entryPages pages (entry mem table j)) = rest at *
      obtain ⟨hfirstNodup, hrestNodup, hdisjoint⟩ := List.nodup_append.mp hnodup
      have hnotFirst : table ∉ entryPages pages (entry mem table i) := fun h =>
        hnot (List.mem_append_left _ h)
      have hread : readPte pm.mem (table + 8 * i) = entry mem table i :=
        hentry i le_rfl (by omega)
      -- after the first entry, whatever it was, the others follow
      have hnext : ∀ pm₁ : Pm,
          pm₁.freelist = (entryPages pages (entry mem table i)).reverse ++ pm.freelist →
          (∀ x, (x < table + 8 * i ∨ table + 8 * i + 8 ≤ x) →
            pgRoundDown x ∉ entryPages pages (entry mem table i) → pm₁.mem x = pm.mem x) →
          ∃ pm', freeLoop kernelEnd table child count (i + 1) pm₁ = .ok pm' ∧
            pm'.freelist = (entryPages pages (entry mem table i) ++ rest).reverse ++ pm.freelist ∧
            ∀ x, pgRoundDown x ≠ table →
              pgRoundDown x ∉ entryPages pages (entry mem table i) ++ rest →
              pm'.mem x = pm.mem x := by
        intro pm₁ hfree₁ hmem₁
        have hinside : ∀ x, table ≤ x → x < table + pgSize →
            pgRoundDown x ∉ entryPages pages (entry mem table i) := by
          intro x hlo hhi hin
          have hround := pgRoundDown_add haligned (show x - table < pgSize by omega)
          rw [Nat.add_sub_cancel' hlo] at hround
          rw [hround] at hin
          exact hnotFirst hin
        have houtside : ∀ x, pgRoundDown x ≠ table → x < table + 8 * i ∨ table + 8 * i + 8 ≤ x := by
          intro x hx
          simp only [pgRoundDown, pgSize] at hx haligned
          omega
        have hentry₁ : ∀ j, i + 1 ≤ j → j < i + 1 + count →
            entry pm₁.mem table j = entry mem table j := by
          intro j hlo hhi
          rw [← hentry j (by omega) (by omega)]
          apply AgreeOn.load_eq
          intro x hx hx'
          exact hmem₁ x (by omega) (hinside x (by omega) (by simp only [pgSize]; omega))
        have hsame₁ : ∀ x, pgRoundDown x ∈ rest → pm₁.mem x = mem x := by
          intro x hx
          have hne : pgRoundDown x ≠ table := by
            intro heq
            rw [heq] at hx
            exact hnot (List.mem_append_right _ hx)
          rw [hmem₁ x (houtside x hne) fun h => hdisjoint _ h _ hx rfl]
          exact hsame x (List.mem_append_right _ hx)
        obtain ⟨pm', hloop, hfree', hmem'⟩ := @ih pm₁ (by omega) hentry₁ hsame₁ hrestNodup
          (fun h => hnot (List.mem_append_right _ h))
          fun other h => hgood other (List.mem_append_right _ h)
        refine ⟨pm', hloop, ?_, fun x hx hout => ?_⟩
        · rw [hfree', hfree₁, List.reverse_append, List.append_assoc]
        · have hout' := not_or.mp (fun h => hout (List.mem_append.mpr h))
          rw [hmem' x hx hout'.2, hmem₁ x (houtside x hx) hout'.1]
      by_cases hvalid : Valid (entry mem table i)
      · have hstore : ∀ x, pgRoundDown x ∈ entryPages pages (entry mem table i) →
            store pm.mem (table + 8 * i) 8 0 x = mem x := by
          intro x hx
          have hne : pgRoundDown x ≠ table := by
            intro heq
            rw [heq] at hx
            exact hnotFirst hx
          rw [store_apply_of_out _ (by simp only [pgRoundDown, pgSize] at hne haligned; omega)]
          exact hsame x (List.mem_append_left _ hx)
        obtain ⟨pm₁, hfreed, hfree₁, hmem₁⟩ := @freeEntry_spec kernelEnd mem child pages hchild
          ⟨store pm.mem (table + 8 * i) 8 0, pm.freelist⟩ _ hvalid hstore hfirstNodup
          fun other h => hgood other (List.mem_append_left _ h)
        obtain ⟨pm', hloop, hresult⟩ := hnext pm₁ hfree₁ fun x hx hout =>
          (hmem₁ x hout).trans (store_apply_of_out _ hx)
        refine ⟨pm', ?_, hresult⟩
        rw [freeLoop]
        dsimp only
        rw [hread, if_pos (show entry mem table i &&& pteV ≠ 0 from hvalid)]
        cases child with
        | none =>
            have hfreed' : (if entry mem table i &&& pteU ≠ 0 then kpmfree kernelEnd
              ⟨store pm.mem (table + 8 * i) 8 0, pm.freelist⟩ (pte2pa (entry mem table i))
              else .ok ⟨store pm.mem (table + 8 * i) 8 0, pm.freelist⟩) = .ok pm₁ := hfreed
            dsimp only
            rw [hfreed']
            exact hloop
        | some free =>
            rw [freeEntry] at hfreed
            dsimp only
            rw [hfreed]
            exact hloop
      · have hempty : entryPages pages (entry mem table i) = [] := by
          simp only [entryPages, if_neg hvalid]
        obtain ⟨pm', hloop, hresult⟩ := hnext pm (by rw [hempty]; rfl) fun _ _ _ => rfl
        refine ⟨pm', ?_, hresult⟩
        rw [freeLoop]
        dsimp only
        rw [hread, if_neg (show ¬ (entry mem table i &&& pteV ≠ 0) from hvalid)]
        exact hloop

/-- A table is freed with the pages of its entries. -/
theorem frees_table {child : Option (Pm → ℕ → Except Panic Pm)} {pages : Option (ℕ → List ℕ)}
    (hchild : ChildFrees kernelEnd mem child pages) :
    Frees kernelEnd mem
      (fun pm table =>
        match freeLoop kernelEnd table child 512 0 pm with
        | .error panic => .error panic
        | .ok pm => kpmfree kernelEnd pm table)
      fun table => (List.range' 0 512).flatMap
        (fun i => entryPages pages (entry mem table i)) ++ [table] := by
  intro pm table hsame hnodup hgood
  dsimp only at hsame hnodup hgood ⊢
  have htable := hgood table (List.mem_append_right _ (List.mem_singleton.mpr rfl))
  have haligned := htable.aligned
  generalize hlist : (List.range' 0 512).flatMap (fun i => entryPages pages (entry mem table i)) =
    list at hsame hnodup hgood ⊢
  obtain ⟨hlistNodup, -, hdisjoint⟩ := List.nodup_append.mp hnodup
  have hnot : table ∉ list := fun h => hdisjoint _ h _ (List.mem_singleton.mpr rfl) rfl
  have hentry : ∀ j, 0 ≤ j → j < 0 + 512 → entry pm.mem table j = entry mem table j := by
    intro j _ hj
    apply AgreeOn.load_eq
    intro x hlo hhi
    have hround := pgRoundDown_add haligned (show x - table < pgSize by simp only [pgSize]; omega)
    rw [Nat.add_sub_cancel' (by omega)] at hround
    refine hsame x ?_
    rw [hround]
    exact List.mem_append_right _ (List.mem_singleton.mpr rfl)
  have hloop := @freeLoop_spec kernelEnd mem child pages hchild table haligned 512 0 pm le_rfl hentry
  rw [hlist] at hloop
  obtain ⟨pm₁, hloop, hfree₁, hmem₁⟩ := hloop
    (fun x hx => hsame x (List.mem_append_left _ hx)) hlistNodup hnot
    fun other h => hgood other (List.mem_append_left _ h)
  rw [hloop]
  obtain ⟨pm', hfreed, hfree', hmem'⟩ := frees_kpmfree kernelEnd pm₁.mem pm₁ table (fun _ _ => rfl)
    (List.nodup_singleton table) fun other h => List.mem_singleton.mp h ▸ htable
  refine ⟨pm', hfreed, ?_, fun x hx => ?_⟩
  · rw [hfree', hfree₁, List.reverse_append, List.append_assoc]
  · have hout := not_or.mp fun h => hx (List.mem_append.mpr h)
    exact (hmem' x hout.2).trans (hmem₁ x (fun heq => hout.2 (List.mem_singleton.mpr heq)) hout.1)

/-- `uvmfree_recursive` frees the pages below the table. -/
theorem uvmfreeRecursive_frees (kernelEnd : ℕ) (mem : Mem) (level : ℕ) :
    Frees kernelEnd mem (uvmfreeRecursive kernelEnd level) (pagesBelow mem level) := by
  induction level with
  | zero => exact @frees_table kernelEnd mem none none trivial
  | succ level ih => exact @frees_table kernelEnd mem (some _) (some _) ih

end Free

/-! ## The pages of an owned tree -/

section Tree

variable {kernelEnd root : ℕ} {region : Set ℕ} {pm : Pm} {tables : ℕ → Set ℕ}

/-- What an entry of an upper table contributes. -/
theorem Owned.mem_entryPages_succ (hown : Owned kernelEnd region pm root tables)
    {level table i page : ℕ} (hlevel : level < 2) (htable : table ∈ tables (level + 1))
    (hi : i < 512) :
    page ∈ entryPages (some (pagesBelow pm.mem level)) (entry pm.mem table i) ↔
      ∃ child, PointsTo pm.mem (tables (level + 1)) (table, i) child ∧
        page ∈ pagesBelow pm.mem level child := by
  simp only [entryPages]
  constructor
  · intro hpage
    split at hpage
    · rename_i hvalid
      have hpoints : PointsTo pm.mem (tables (level + 1)) (table, i)
          (pte2pa (entry pm.mem table i)) := ⟨htable, hi, hvalid, rfl⟩
      rw [if_pos (hown.plain level hlevel _ _ hpoints)] at hpage
      exact ⟨_, hpoints, hpage⟩
    · cases hpage
  · rintro ⟨child, hpoints, hpage⟩
    have hplain := hown.plain level hlevel _ _ hpoints
    have hvalid := hpoints.valid
    have htarget := hpoints.target
    dsimp only at hplain hvalid htarget
    rw [if_pos hvalid, if_pos hplain, htarget]
    exact hpage

/-- What an entry of a lowest-level table contributes. -/
theorem mem_entryPages_zero {table i page : ℕ} (htable : table ∈ tables 0) (hi : i < 512) :
    page ∈ entryPages none (entry pm.mem table i) ↔ UserLeaf pm.mem tables (table, i) page := by
  simp only [entryPages]
  constructor
  · intro hpage
    split at hpage
    · rename_i hvalid
      split at hpage
      · rename_i huser
        rw [List.mem_singleton] at hpage
        exact ⟨⟨htable, hi, hvalid, hpage.symm⟩, huser⟩
      · cases hpage
    · cases hpage
  · rintro ⟨⟨-, -, hvalid, htarget⟩, huser⟩
    dsimp only at hvalid htarget huser
    rw [if_pos hvalid, if_pos huser, htarget, List.mem_singleton]

theorem Owned.mem_pagesBelow_succ (hown : Owned kernelEnd region pm root tables) {level table page : ℕ}
    (hlevel : level < 2) (htable : table ∈ tables (level + 1)) :
    page ∈ pagesBelow pm.mem (level + 1) table ↔ page = table ∨
      ∃ i child, PointsTo pm.mem (tables (level + 1)) (table, i) child ∧
        page ∈ pagesBelow pm.mem level child := by
  rw [pagesBelow, List.mem_append, List.mem_singleton, or_comm, List.mem_flatMap]
  refine or_congr_right ⟨?_, ?_⟩
  · rintro ⟨i, hi, hpage⟩
    rw [List.mem_range'_1] at hi
    exact ⟨i, (hown.mem_entryPages_succ hlevel htable (by omega)).mp hpage⟩
  · rintro ⟨i, child, hpoints, hpage⟩
    have hi : i < 512 := hpoints.index
    exact ⟨i, List.mem_range'_1.mpr ⟨Nat.zero_le i, by omega⟩,
      (hown.mem_entryPages_succ hlevel htable hi).mpr ⟨child, hpoints, hpage⟩⟩

theorem mem_pagesBelow_zero {table page : ℕ} (htable : table ∈ tables 0) :
    page ∈ pagesBelow pm.mem 0 table ↔ page = table ∨
      ∃ i, UserLeaf pm.mem tables (table, i) page := by
  rw [pagesBelow, List.mem_append, List.mem_singleton, or_comm, List.mem_flatMap]
  refine or_congr_right ⟨?_, ?_⟩
  · rintro ⟨i, hi, hpage⟩
    rw [List.mem_range'_1] at hi
    exact ⟨i, (mem_entryPages_zero htable (by omega)).mp hpage⟩
  · rintro ⟨i, hleaf⟩
    have hi : i < 512 := hleaf.points.index
    exact ⟨i, List.mem_range'_1.mpr ⟨Nat.zero_le i, by omega⟩,
      (mem_entryPages_zero htable hi).mpr hleaf⟩

/-- Below a table are tables and frames. -/
theorem Owned.pagesBelow_subset (hown : Owned kernelEnd region pm root tables) {level table page : ℕ}
    (hlevel : level ≤ 2) (htable : table ∈ tables level)
    (hpage : page ∈ pagesBelow pm.mem level table) :
    (∃ level' ≤ level, page ∈ tables level') ∨ Frame pm.mem tables page := by
  induction level generalizing table with
  | zero =>
      obtain rfl | ⟨i, hleaf⟩ := (mem_pagesBelow_zero htable).mp hpage
      · exact .inl ⟨0, le_rfl, htable⟩
      · exact .inr ⟨_, hleaf⟩
  | succ level ih =>
      obtain rfl | ⟨i, child, hpoints, hchild⟩ :=
        (hown.mem_pagesBelow_succ (by omega) htable).mp hpage
      · exact .inl ⟨level + 1, le_rfl, htable⟩
      · refine (ih (by omega) (hown.tree.child level (by omega) _ _ hpoints) hchild).imp_left ?_
        rintro ⟨level', hle, hmem⟩
        exact ⟨level', by omega, hmem⟩

/-- No table lies below a table of its own level or a lower one. -/
theorem Owned.not_mem_pagesBelow (hown : Owned kernelEnd region pm root tables)
    {level level' table other : ℕ} (hlevel : level < level') (hlevel' : level' ≤ 2)
    (htable : table ∈ tables level) (hother : other ∈ tables level') :
    other ∉ pagesBelow pm.mem level table := by
  intro hpage
  obtain ⟨low, hle, hmem⟩ | hframe := hown.pagesBelow_subset (by omega) htable hpage
  · exact hown.tree.ne_of_level (by omega) hlevel' (by omega) hmem hother rfl
  · exact hown.frameTable other hframe ⟨level', hlevel', hother⟩

/-- A page lies below one table of a level only. -/
theorem Owned.pagesBelow_inj (hown : Owned kernelEnd region pm root tables)
    {level table table' page : ℕ} (hlevel : level ≤ 2) (htable : table ∈ tables level)
    (htable' : table' ∈ tables level) (hpage : page ∈ pagesBelow pm.mem level table)
    (hpage' : page ∈ pagesBelow pm.mem level table') : table = table' := by
  induction level generalizing table table' with
  | zero =>
      obtain rfl | ⟨i, hleaf⟩ := (mem_pagesBelow_zero htable).mp hpage
      · obtain heq | ⟨i', hleaf'⟩ := (mem_pagesBelow_zero htable').mp hpage'
        · exact heq
        · exact absurd ⟨0, by omega, htable⟩ (hown.frameTable page ⟨_, hleaf'⟩)
      · obtain rfl | ⟨i', hleaf'⟩ := (mem_pagesBelow_zero htable').mp hpage'
        · exact absurd ⟨0, by omega, htable'⟩ (hown.frameTable page ⟨_, hleaf⟩)
        · exact (Prod.mk.inj (hown.inj _ _ page hleaf hleaf')).1
  | succ level ih =>
      obtain rfl | ⟨i, child, hpoints, hchild⟩ :=
        (hown.mem_pagesBelow_succ (by omega) htable).mp hpage
      · obtain heq | ⟨i', child', hpoints', hchild'⟩ :=
          (hown.mem_pagesBelow_succ (by omega) htable').mp hpage'
        · exact heq
        · exact absurd hchild' (hown.not_mem_pagesBelow (Nat.lt_succ_self level) hlevel
            (hown.tree.child level (by omega) _ _ hpoints') htable)
      · obtain rfl | ⟨i', child', hpoints', hchild'⟩ :=
          (hown.mem_pagesBelow_succ (by omega) htable').mp hpage'
        · exact absurd hchild (hown.not_mem_pagesBelow (Nat.lt_succ_self level) hlevel
            (hown.tree.child level (by omega) _ _ hpoints) htable')
        · have hmem := hown.tree.child level (by omega) _ _ hpoints
          have hmem' := hown.tree.child level (by omega) _ _ hpoints'
          obtain rfl := ih (by omega) hmem hmem' hchild hchild'
          exact (Prod.mk.inj ((hown.tree.parent level (by omega) child hmem).unique
            hpoints hpoints')).1

theorem nodup_table {pages : ℕ → List ℕ} {table : ℕ} (heach : ∀ i < 512, (pages i).Nodup)
    (hinj : ∀ i < 512, ∀ j < 512, ∀ page, page ∈ pages i → page ∈ pages j → i = j)
    (hnot : ∀ i < 512, table ∉ pages i) :
    ((List.range' 0 512).flatMap pages ++ [table]).Nodup := by
  have hrange : ∀ i ∈ List.range' 0 512, i < 512 := fun i hi => by
    rw [List.mem_range'_1] at hi
    omega
  rw [List.nodup_append]
  refine ⟨List.nodup_flatMap.mpr ⟨fun i hi => heach i (hrange i hi), ?_⟩,
    List.nodup_singleton table, ?_⟩
  · have hnodup : (List.range' 0 512).Nodup := List.nodup_range'
    refine hnodup.pairwise_of_forall_ne fun i hi j hj hne => ?_
    intro page hleft hright
    exact hne (hinj i (hrange i hi) j (hrange j hj) page hleft hright)
  · rintro page hpage other hother rfl
    obtain ⟨i, hi, hpage⟩ := List.mem_flatMap.mp hpage
    rw [List.mem_singleton.mp hother] at hpage
    exact hnot i (hrange i hi) hpage

/-- No page is listed twice. -/
theorem Owned.nodup_pagesBelow (hown : Owned kernelEnd region pm root tables) {level table : ℕ}
    (hlevel : level ≤ 2) (htable : table ∈ tables level) :
    (pagesBelow pm.mem level table).Nodup := by
  induction level generalizing table with
  | zero =>
      rw [pagesBelow]
      refine nodup_table (fun i _ => ?_) (fun i hi j hj page hleft hright => ?_) fun i hi hmem => ?_
      · simp only [entryPages]
        split
        · split
          · exact List.nodup_singleton _
          · exact List.nodup_nil
        · exact List.nodup_nil
      · exact (Prod.mk.inj (hown.inj _ _ page ((mem_entryPages_zero htable hi).mp hleft)
          ((mem_entryPages_zero htable hj).mp hright))).2
      · exact hown.frameTable table ⟨_, (mem_entryPages_zero htable hi).mp hmem⟩
          ⟨0, by omega, htable⟩
  | succ level ih =>
      have hentry := fun i hi page => @Owned.mem_entryPages_succ _ _ _ _ _ hown level table i page
        (by omega) htable hi
      rw [pagesBelow]
      refine nodup_table (fun i hi => ?_) (fun i hi j hj page hleft hright => ?_) fun i hi hmem => ?_
      · simp only [entryPages]
        split
        · rename_i hvalid
          have hpoints : PointsTo pm.mem (tables (level + 1)) (table, i)
              (pte2pa (entry pm.mem table i)) := ⟨htable, hi, hvalid, rfl⟩
          rw [if_pos (hown.plain level (by omega) _ _ hpoints)]
          exact ih (by omega) (hown.tree.child level (by omega) _ _ hpoints)
        · exact List.nodup_nil
      · obtain ⟨child, hpoints, hchild⟩ := (hentry i hi page).mp hleft
        obtain ⟨child', hpoints', hchild'⟩ := (hentry j hj page).mp hright
        have hmem := hown.tree.child level (by omega) _ _ hpoints
        obtain rfl := hown.pagesBelow_inj (by omega) hmem
          (hown.tree.child level (by omega) _ _ hpoints') hchild hchild'
        exact (Prod.mk.inj ((hown.tree.parent level (by omega) child hmem).unique
          hpoints hpoints')).2
      · obtain ⟨child, hpoints, hchild⟩ := (hentry i hi table).mp hmem
        exact hown.not_mem_pagesBelow (Nat.lt_succ_self level) hlevel
          (hown.tree.child level (by omega) _ _ hpoints) htable hchild

/-- A page below a table is below the root. -/
theorem Owned.pagesBelow_root (hown : Owned kernelEnd region pm root tables) {level table page : ℕ}
    (hlevel : level ≤ 2) (htable : table ∈ tables level)
    (hpage : page ∈ pagesBelow pm.mem level table) : page ∈ pagesBelow pm.mem 2 root := by
  obtain ⟨up, hup⟩ : ∃ up, level + up = 2 := ⟨2 - level, by omega⟩
  induction up generalizing level table with
  | zero =>
      obtain rfl : level = 2 := hup
      rw [hown.tree.top, Set.mem_singleton_iff] at htable
      rwa [← htable]
  | succ up ih =>
      obtain ⟨⟨parent, i⟩, hpoints, -⟩ := hown.tree.parent level (by omega) table htable
      exact ih (by omega) hpoints.table
        ((hown.mem_pagesBelow_succ (by omega) hpoints.table).mpr (.inr ⟨i, table, hpoints, hpage⟩))
        (by omega)

/-- Below the root are all tables and frames. -/
theorem Owned.mem_pagesBelow (hown : Owned kernelEnd region pm root tables) (page : ℕ) :
    page ∈ pagesBelow pm.mem 2 root ↔ IsTable tables page ∨ Frame pm.mem tables page := by
  constructor
  · exact hown.pagesBelow_subset le_rfl hown.tree.root_mem
  · rintro (⟨level, hlevel, htable⟩ | ⟨slot, hleaf⟩)
    · refine hown.pagesBelow_root hlevel htable ?_
      cases level with
      | zero => exact (mem_pagesBelow_zero htable).mpr (.inl rfl)
      | succ level => exact (hown.mem_pagesBelow_succ (by omega) htable).mpr (.inl rfl)
    · exact hown.pagesBelow_root (by omega) hleaf.points.table
        ((mem_pagesBelow_zero hleaf.points.table).mpr (.inr ⟨slot.2, hleaf⟩))

/-- `uvmfree` gives back all pages of the region, each of them once. -/
theorem Owned.free (hown : Owned kernelEnd region pm root tables) :
    ∃ pm', uvmfree kernelEnd pm root = .ok pm' ∧
      pm'.freelist = (pagesBelow pm.mem 2 root).reverse ++ pm.freelist ∧ pm'.freelist.Nodup ∧
      (∀ page, page ∈ pm'.freelist ↔ page ∈ region) ∧ Untouched region pm.mem pm'.mem := by
  have hmem := hown.mem_pagesBelow
  have hroot := hown.tree.root_mem
  obtain ⟨pm', hfree, hlist, hsame⟩ := uvmfreeRecursive_frees kernelEnd pm.mem 2 pm root
    (fun _ _ => rfl) (hown.nodup_pagesBelow le_rfl hroot) fun page hpage =>
      hown.good page ((hown.region_iff page).mpr (.inr ((hmem page).mp hpage)))
  refine ⟨pm', hfree, hlist, ?_, fun page => ?_, fun x hx => hsame x fun h => ?_⟩
  · rw [hlist, List.nodup_append]
    refine ⟨List.nodup_reverse.mpr (hown.nodup_pagesBelow le_rfl hroot), hown.nodup, ?_⟩
    rintro page hpage other hother rfl
    obtain htable | hframe := (hmem page).mp (List.mem_reverse.mp hpage)
    · exact hown.freeTable page hother htable
    · exact hown.freeFrame page hother hframe
  · rw [hlist, List.mem_append, List.mem_reverse, hmem, hown.region_iff]
    tauto
  · exact hx ((hown.region_iff _).mpr (.inr ((hmem _).mp h)))

end Tree

end Painting.PageTable
