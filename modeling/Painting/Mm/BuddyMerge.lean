import Painting.Mm.BuddyConservation

/-!
# Coalescing

`buddy_free` merges the freed block with its buddy for as long as the buddy is
on the list of the same level.  The merges themselves are right from every state
in which the blocks tile their pages.  When they reach a whole page, however,
`kpmfree` is handed the address that was freed and not the page.
-/

namespace Painting.Buddy

open Painting.Memory

/-! ## What coalescing should do -/

/-- Merge a block with its buddy until the buddy is not free or a whole page is
reached, and take each merged buddy off its list. -/
inductive Merges : (ℕ → List ℕ) → Block → (ℕ → List ℕ) → Block → Prop
  | stop {free : ℕ → List ℕ} {block level : ℕ}
      (hstop : level = maxLevel ∨ getBuddy block level ∉ free level) :
      Merges free (block, level) free (block, level)
  | merge {free free' : ℕ → List ℕ} {block level : ℕ} {top : Block}
      (hlevel : level < maxLevel) (hfree : getBuddy block level ∈ free level)
      (hrest : Merges
        (Function.update free level ((free level).erase (getBuddy block level)))
        (min block (getBuddy block level), level + 1) free' top) :
      Merges free (block, level) free' top

/-- The live and the free blocks tile the pages: `live` are the blocks below page
size, which carry their level, and `whole` the pages that were handed out. -/
structure Tiled (kernelEnd : ℕ) (heap : Heap) (live whole : List Block) (pages : List ℕ)
    (free : ℕ → List ℕ) : Prop where
  shape : Shape heap whole live pages free
  small : ∀ block ∈ live, block.2 < maxLevel
  covers : ∀ x, Covered (whole ++ (live ++ freeBlocks free)) x ↔
    ∃ page ∈ pages, page ≤ x ∧ x < page + pgSize
  managed : ∀ page ∈ pages, page % pgSize = 0 ∧ kernelEnd ≤ page ∧ page + pgSize ≤ physTop
  nodup : pages.Nodup

/-- Freeing the block merges it as far as possible.  Below page size the result
goes onto its list; a whole page goes to `kpmfree` under its own address. -/
def FreesRightly (kernelEnd : ℕ) (heap : Heap) (live whole : List Block) (pages : List ℕ)
    (free : ℕ → List ℕ) (freed : Block) : Prop :=
  ∃ bound free' top, Merges free freed free' top ∧ ∀ fuel, bound ≤ fuel →
    (top.2 < maxLevel ∧ ∃ after,
      buddyFree kernelEnd fuel heap freed.1 = some (.listed after) ∧
      Tiled kernelEnd after (live.erase freed) whole pages
        (Function.update free' top.2 (top.1 :: free' top.2))) ∨
    (top.2 = maxLevel ∧ top.1 = freed.1 / pgSize * pgSize ∧ ∃ merged after,
      buddyFree kernelEnd fuel heap freed.1 = some (kpmfree kernelEnd merged top.1) ∧
      kpmfree kernelEnd merged top.1 = .returned after ∧
      Tiled kernelEnd after (live.erase freed) whole (pages.erase top.1) free')

/-! ## How far the merges go -/

/-- The merged block always contains the freed address. -/
theorem Merges.around {free free' : ℕ → List ℕ} {start top : Block}
    (hmerges : Merges free start free' top) (haligned : 2 ^ start.2 ∣ start.1) {addr : ℕ}
    (hlo : start.1 ≤ addr) (hhi : addr < start.1 + 2 ^ start.2) :
    2 ^ top.2 ∣ top.1 ∧ top.1 ≤ addr ∧ addr < top.1 + 2 ^ top.2 := by
  induction hmerges with
  | stop hstop => exact ⟨haligned, hlo, hhi⟩
  | merge hlevel hfree hrest ih =>
      rename_i free free' block level top
      dsimp only at haligned hlo hhi ih
      obtain ⟨hdvd, hmax⟩ := min_getBuddy haligned
      refine ih hdvd ((min_le_left _ _).trans hlo) ?_
      have hle := le_max_left block (getBuddy block level)
      rw [pow_succ]
      omega

theorem block_eq {block level addr : ℕ} (haligned : 2 ^ level ∣ block) (hlo : block ≤ addr)
    (hhi : addr < block + 2 ^ level) : addr / 2 ^ level * 2 ^ level = block := by
  obtain ⟨index, rfl⟩ := haligned
  have hindex : addr / 2 ^ level = index := by
    rw [Nat.div_eq_iff (Nat.two_pow_pos _)]
    constructor
    · linarith
    · have hpos : 0 < 2 ^ level := Nat.two_pow_pos _
      have hcomm : index * 2 ^ level = 2 ^ level * index := Nat.mul_comm _ _
      omega
  rw [hindex, Nat.mul_comm]

/-- The buddies of all blocks around the address, from the given level up, are
free. -/
def RestIsFree (free : ℕ → List ℕ) (addr level : ℕ) : Prop :=
  ∀ i, level ≤ i → i < maxLevel → getBuddy (addr / 2 ^ i * 2 ^ i) i ∈ free i

theorem Merges.top_iff {free free' : ℕ → List ℕ} {start top : Block}
    (hmerges : Merges free start free' top) (hlevel : start.2 ≤ maxLevel)
    (haligned : 2 ^ start.2 ∣ start.1) {addr : ℕ} (hlo : start.1 ≤ addr)
    (hhi : addr < start.1 + 2 ^ start.2) :
    top.2 = maxLevel ↔ RestIsFree free addr start.2 := by
  induction hmerges with
  | stop hstop =>
      rename_i free block level
      dsimp only at *
      constructor
      · intro hmax i hle hlt
        omega
      · intro hrest
        obtain hmax | hnot := hstop
        · exact hmax
        · by_contra hne
          have hmem := hrest level le_rfl (by omega)
          rw [block_eq haligned hlo hhi] at hmem
          exact hnot hmem
  | merge hlt hfree hrest ih =>
      rename_i free free' block level top
      dsimp only at *
      obtain ⟨hdvd, hmax⟩ := min_getBuddy haligned
      have hinside : addr < min block (getBuddy block level) + 2 ^ (level + 1) := by
        have hle := le_max_left block (getBuddy block level)
        rw [pow_succ]
        omega
      rw [ih hlt hdvd ((min_le_left _ _).trans hlo) hinside]
      constructor
      · intro hafter i hle hi
        obtain rfl | hlt' := Nat.eq_or_lt_of_le hle
        · rw [block_eq haligned hlo hhi]
          exact hfree
        · have hmem := hafter i hlt' hi
          rwa [Function.update_of_ne (by omega)] at hmem
      · intro hall i hle hi
        have hmem := hall i (by omega) hi
        rwa [Function.update_of_ne (by omega)]

/-! ## The loop -/

/-- The search ends within the length of the list. -/
theorem searchList_total {heap : Heap} {buddy fuel : ℕ} {link : Link} {blocks : List ℕ}
    (hchain : Chain heap.mem (heap.deref link) blocks) (hfuel : blocks.length < fuel) :
    ∃ found, searchList heap buddy fuel link = some found := by
  induction blocks generalizing link fuel with
  | nil =>
      obtain ⟨fuel, rfl⟩ : ∃ rest, fuel = rest + 1 := ⟨fuel - 1, by omega⟩
      have hend : heap.deref link = 0 := hchain
      exact ⟨link, by rw [searchList, if_neg (by simp [hend])]⟩
  | cons first rest ih =>
      obtain ⟨hhead, hne, hrest⟩ := hchain
      obtain ⟨fuel, rfl⟩ : ∃ rest, fuel = rest + 1 := ⟨fuel - 1, by
        rw [List.length_cons] at hfuel
        omega⟩
      rw [searchList]
      split
      · rw [hhead]
        have hnext : Chain heap.mem (heap.deref (.next first)) rest := hrest
        exact ih hnext (Nat.succ_lt_succ_iff.mp hfuel)
      · exact ⟨link, rfl⟩

theorem covered_cons {first : Block} {blocks : List Block} {x : ℕ} :
    Covered (first :: blocks) x ↔
      first.1 ≤ x ∧ x < first.1 + 2 ^ first.2 ∨ Covered blocks x := by
  simp only [Covered, List.mem_cons, exists_eq_or_imp]

theorem covered_append {left right : List Block} {x : ℕ} :
    Covered (left ++ right) x ↔ Covered left x ∨ Covered right x := by
  simp only [Covered, List.mem_append, or_and_right, exists_or]

theorem Covered.perm {left right : List Block} {x : ℕ} (hcovered : Covered left x)
    (hperm : left.Perm right) : Covered right x := by
  obtain ⟨block, hblock, hin⟩ := hcovered
  exact ⟨block, hperm.mem_iff.mp hblock, hin⟩

theorem covered_perm {left right : List Block} {x : ℕ} (hperm : left.Perm right) :
    Covered left x ↔ Covered right x :=
  ⟨fun hcovered => hcovered.perm hperm, fun hcovered => hcovered.perm hperm.symm⟩

/-- Two buddies cover what the block around them covers. -/
theorem covered_merge {block level : ℕ} {blocks : List Block} {x : ℕ}
    (haligned : 2 ^ level ∣ block) :
    Covered ((min block (getBuddy block level), level + 1) :: blocks) x ↔
      Covered ((block, level) :: (getBuddy block level, level) :: blocks) x := by
  obtain ⟨-, hmax⟩ := min_getBuddy haligned
  have hpow : 2 ^ (level + 1) = 2 ^ level + 2 ^ level := by ring
  simp only [covered_cons, hpow, ← or_assoc]
  refine or_congr ?_ Iff.rfl
  rcases le_total block (getBuddy block level) with hle | hle
  · rw [min_eq_left hle]
    rw [max_eq_right hle, min_eq_left hle] at hmax
    omega
  · rw [min_eq_right hle]
    rw [max_eq_left hle, min_eq_right hle] at hmax
    omega

/-- The loop of `buddy_free` with enough fuel: it performs the merges, and only
the last step forgets the merged block. -/
theorem freeLoop_merges {kernelEnd addr fuel block level : ℕ} {heap : Heap}
    {hand live : List Block} {pages : List ℕ} {free : ℕ → List ℕ} (hlevel : level ≤ maxLevel)
    (hshape : Shape heap ((block, level) :: hand) live pages free)
    (hfuel : maxLevel - level < fuel)
    (hlists : ∀ i < maxLevel, (free i).length + (maxLevel - level) < fuel) :
    ∃ free' top merged, Merges free (block, level) free' top ∧ top.2 ≤ maxLevel ∧
      Shape merged (top :: hand) live pages free' ∧
      (∀ x, Covered (top :: freeBlocks free') x ↔ Covered ((block, level) :: freeBlocks free) x) ∧
      freeLoop kernelEnd addr fuel heap block level =
        some (if top.2 = maxLevel then kpmfree kernelEnd merged addr
          else .listed (merged.push top.2 top.1)) := by
  induction fuel generalizing heap free block level with
  | zero => omega
  | succ fuel ih =>
      rw [freeLoop]
      by_cases hmax : level = maxLevel
      · refine ⟨free, (block, level), heap, .stop (Or.inl hmax), hlevel, hshape,
          fun _ => Iff.rfl, ?_⟩
        rw [if_pos hmax, if_pos hmax]
      have hlt : level < maxLevel := lt_of_le_of_ne hlevel hmax
      have hchain : Chain heap.mem (heap.deref (.head level)) (free level) :=
        hshape.chain level hlt
      have hlength := hlists level hlt
      have hfound : ∃ link, searchList heap (getBuddy block level) fuel (.head level) = some link :=
        searchList_total hchain (by omega)
      obtain ⟨link, hsearch⟩ := hfound
      obtain ⟨passed, left, hsplit, hpassed, hlink, hleft, hend⟩ :=
        searchList_spec hchain hsearch
      rw [if_neg hmax]
      dsimp only
      rw [hsearch, Option.bind_some]
      by_cases hfound : heap.deref link = getBuddy block level
      · rw [if_neg (not_not.mpr hfound), hfound]
        have hback : ∃ back, left = getBuddy block level :: back := by
          cases left with
          | nil => exact absurd (hfound ▸ hleft) (hshape.getBuddy_ne_zero hlt)
          | cons first back => exact ⟨back, by rw [← hfound, hleft.1]⟩
        obtain ⟨back, rfl⟩ := hback
        have hmem : getBuddy block level ∈ free level := by simp [hsplit]
        have herase : (free level).erase (getBuddy block level) = passed ++ back := by
          rw [hsplit, List.erase_append_right _ hpassed, List.erase_cons_head]
        have hdvd : 2 ^ level ∣ block :=
          (hshape.sound.ok (block, level) List.mem_cons_self).aligned
        have hmerged := (hshape.unlink hlt hsplit).merge hlt
        rw [← hlink, ← herase] at hmerged
        have hshort : ∀ i < maxLevel, ((Function.update free level
            ((free level).erase (getBuddy block level))) i).length + (maxLevel - (level + 1)) <
              fuel := by
          intro i hi
          have hold := hlists i hi
          rcases eq_or_ne i level with rfl | hne
          · rw [Function.update_self]
            have hle : ((free i).erase (getBuddy block i)).length ≤ (free i).length :=
              List.length_erase_le
            omega
          · rw [Function.update_of_ne hne]
            omega
        obtain ⟨free', top, merged, hmerges, htop, hshape', hcovers, hloop⟩ :=
          ih hlt hmerged (by omega) hshort
        refine ⟨free', top, merged, .merge hlt hmem hmerges, htop, hshape', fun x => ?_, hloop⟩
        have hperm := freeBlocks_perm hlt (List.perm_cons_erase hmem)
        rw [hcovers, covered_merge hdvd]
        exact covered_perm (hperm.symm.cons _)
      · rw [if_pos hfound]
        have hnot : getBuddy block level ∉ free level := by
          rw [hsplit, hend.resolve_right hfound, List.append_nil]
          exact hpassed
        refine ⟨free, (block, level), heap, .stop (Or.inr hnot), hlevel, hshape,
          fun _ => Iff.rfl, ?_⟩
        rw [if_neg hmax]

/-! ## One call -/

/-- Before the loop the freed block passes from the live blocks to the hand. -/
theorem Tiled.take {kernelEnd : ℕ} {heap : Heap} {live whole : List Block} {pages : List ℕ}
    {free : ℕ → List ℕ} {freed : Block} (htiled : Tiled kernelEnd heap live whole pages free)
    (hlive : freed ∈ live) :
    Shape heap (freed :: whole) (live.erase freed) pages free := by
  refine ⟨htiled.shape.chain, htiled.shape.sound.perm ?_, fun block hblock =>
    htiled.shape.level block (List.mem_of_mem_erase hblock)⟩
  have hperm : live.Perm (freed :: live.erase freed) := List.perm_cons_erase hlive
  refine ((hperm.append_right _).append_left whole).trans ?_
  rw [List.cons_append, List.cons_append]
  exact List.perm_middle

theorem Tiled.covers_take {kernelEnd : ℕ} {heap : Heap} {live whole : List Block}
    {pages : List ℕ} {free free' : ℕ → List ℕ} {freed top : Block}
    (htiled : Tiled kernelEnd heap live whole pages free) (hlive : freed ∈ live)
    (hcovers : ∀ x, Covered (top :: freeBlocks free') x ↔ Covered (freed :: freeBlocks free) x)
    (x : ℕ) :
    Covered (top :: (whole ++ (live.erase freed ++ freeBlocks free'))) x ↔
      ∃ page ∈ pages, page ≤ x ∧ x < page + pgSize := by
  rw [← htiled.covers x]
  have htop := hcovers x
  have hsplit := covered_perm (x := x) (List.perm_cons_erase hlive)
  simp only [covered_cons, covered_append] at *
  tauto

/-- The address of `top` is a page of the allocator when the merges reach page
size. -/
theorem page_of_top {addr : ℕ} {top : Block} {pages : List ℕ} (hmax : top.2 = maxLevel)
    (hok : BlockOk pages top) (hlo : top.1 ≤ addr) (hhi : addr < top.1 + 2 ^ top.2) :
    top.1 = addr / pgSize * pgSize ∧ top.1 ∈ pages ∧ top.1 % pgSize = 0 := by
  obtain ⟨page, level⟩ := top
  dsimp only at *
  subst hmax
  have hdvd : pgSize ∣ page := hok.aligned
  have heq : addr / pgSize * pgSize = page := block_eq hok.aligned hlo hhi
  have hself : page / pgSize * pgSize = page := Nat.div_mul_cancel hdvd
  refine ⟨heq.symm, ?_, Nat.mod_eq_zero_of_dvd hdvd⟩
  have hin := hok.inPage
  dsimp only at hin
  rwa [hself] at hin

/-- The merged block goes onto its list. -/
theorem Tiled.listed {kernelEnd : ℕ} {heap merged : Heap} {live whole : List Block}
    {pages : List ℕ} {free free' : ℕ → List ℕ} {freed top : Block}
    (htiled : Tiled kernelEnd heap live whole pages free) (hlive : freed ∈ live)
    (hshape : Shape merged (top :: whole) (live.erase freed) pages free')
    (hcovers : ∀ x, Covered (top :: freeBlocks free') x ↔ Covered (freed :: freeBlocks free) x)
    (hlow : top.2 < maxLevel) :
    Tiled kernelEnd (merged.push top.2 top.1) (live.erase freed) whole pages
      (Function.update free' top.2 (top.1 :: free' top.2)) := by
  refine ⟨hshape.push hlow, fun block hblock => htiled.small block (List.mem_of_mem_erase hblock),
    fun x => ?_, htiled.managed, htiled.nodup⟩
  rw [← htiled.covers_take hlive hcovers x]
  have hself : (Function.update free' top.2 (top.1 :: free' top.2) top.2).Perm
      (top.1 :: free' top.2) := by
    rw [Function.update_self]
  have hperm := covered_perm (x := x) (freeBlocks_perm hlow hself)
  rw [Function.update_idem, Function.update_eq_self] at hperm
  simp only [covered_cons, covered_append] at *
  tauto

/-- The merged page leaves the allocator. -/
theorem Tiled.returned {kernelEnd : ℕ} {heap merged : Heap} {live whole : List Block}
    {pages : List ℕ} {free free' : ℕ → List ℕ} {freed top : Block}
    (htiled : Tiled kernelEnd heap live whole pages free) (hlive : freed ∈ live)
    (hshape : Shape merged (top :: whole) (live.erase freed) pages free')
    (hcovers : ∀ x, Covered (top :: freeBlocks free') x ↔ Covered (freed :: freeBlocks free) x)
    (hmax : top.2 = maxLevel) (hpage : top.1 ∈ pages) :
    Tiled kernelEnd { merged with mem := fill merged.mem top.1 1 pgSize } (live.erase freed) whole
      (pages.erase top.1) free' := by
  obtain ⟨page, level⟩ := top
  dsimp only at *
  subst hmax
  have haligned := (htiled.managed page hpage).1
  refine ⟨hshape.returnPage haligned,
    fun block hblock => htiled.small block (List.mem_of_mem_erase hblock), fun x => ?_,
    fun other hother => htiled.managed other (List.mem_of_mem_erase hother),
    htiled.nodup.erase page⟩
  have hall := htiled.covers_take hlive hcovers x
  have hbound : 2 ^ maxLevel = pgSize := rfl
  rw [covered_cons, hbound] at hall
  constructor
  · intro hrest
    obtain ⟨other, hother, hlo, hhi⟩ := hall.mp (Or.inr hrest)
    refine ⟨other, (List.mem_erase_of_ne ?_).mpr hother, hlo, hhi⟩
    rintro rfl
    exact not_covered_of_apart hshape.sound.head_apart hlo hhi hrest
  · rintro ⟨other, hother, hlo, hhi⟩
    have hmem := List.mem_of_mem_erase hother
    have hne : other ≠ page := by
      rintro rfl
      exact htiled.nodup.not_mem_erase hother
    refine (hall.mpr ⟨other, hmem, hlo, hhi⟩).resolve_left ?_
    rintro ⟨hlo', hhi'⟩
    have hother := (htiled.managed other hmem).1
    simp only [pgSize] at *
    omega

/-- The merges are determined by the lists. -/
theorem Merges.unique {free left right : ℕ → List ℕ} {start top top' : Block}
    (hleft : Merges free start left top) (hright : Merges free start right top') :
    left = right ∧ top = top' := by
  induction hleft with
  | stop hstop =>
      cases hright with
      | stop _ => exact ⟨rfl, rfl⟩
      | merge hlevel hfree _ =>
          obtain hmax | hnot := hstop
          · exact absurd hmax hlevel.ne
          · exact absurd hfree hnot
  | merge hlevel hfree _ ih =>
      cases hright with
      | stop hstop =>
          obtain hmax | hnot := hstop
          · exact absurd hmax hlevel.ne
          · exact absurd hfree hnot
      | merge _ _ hrest => exact ih hrest

/-- `buddy_free` with enough fuel, in terms of the merges. -/
theorem Tiled.buddyFree_eq {kernelEnd addr level fuel : ℕ} {heap : Heap}
    {live whole : List Block} {pages : List ℕ} {free : ℕ → List ℕ}
    (htiled : Tiled kernelEnd heap live whole pages free) (hlive : (addr, level) ∈ live)
    (hfuel : maxLevel < fuel) (hlists : ∀ i < maxLevel, (free i).length + maxLevel < fuel) :
    ∃ free' top merged, Merges free (addr, level) free' top ∧ top.2 ≤ maxLevel ∧
      Shape merged (top :: whole) (live.erase (addr, level)) pages free' ∧
      (∀ x, Covered (top :: freeBlocks free') x ↔ Covered ((addr, level) :: freeBlocks free) x) ∧
      buddyFree kernelEnd fuel heap addr =
        some (if top.2 = maxLevel then kpmfree kernelEnd merged addr
          else .listed (merged.push top.2 top.1)) := by
  have hlow : level < maxLevel := htiled.small _ hlive
  have hbyte : (heap.mem addr).toNat = level := by
    have hkept := htiled.shape.level _ hlive
    have hsmall : level < 256 := hlow.trans (by decide)
    rw [hkept, levelByte, if_neg hlow.ne, UInt8.toNat_ofNat', Nat.mod_eq_of_lt hsmall]
  rw [buddyFree, hbyte, if_neg hlow.ne]
  refine freeLoop_merges hlow.le (htiled.take hlive) (by omega) fun i hi => ?_
  have hlength := hlists i hi
  omega

/-- All lists are shorter than some bound. -/
theorem exists_listBound (free : ℕ → List ℕ) :
    ∃ bound, maxLevel < bound ∧ ∀ i < maxLevel, (free i).length + maxLevel < bound := by
  let longest := (Finset.range maxLevel).sup fun i => (free i).length
  refine ⟨longest + maxLevel + 1, by omega, fun i hi => ?_⟩
  have hle : (free i).length ≤ longest :=
    Finset.le_sup (f := fun i => (free i).length) (Finset.mem_range.mpr hi)
  omega

theorem Tiled.blockOk {kernelEnd : ℕ} {heap : Heap} {live whole : List Block}
    {pages : List ℕ} {free : ℕ → List ℕ} {freed : Block}
    (htiled : Tiled kernelEnd heap live whole pages free) (hlive : freed ∈ live) :
    BlockOk pages freed :=
  (htiled.take hlive).sound.ok _ List.mem_cons_self

/-- If the rest of the page is free, the call stops the kernel unless the freed
block is the first of the page. -/
theorem Tiled.not_freesRightly {kernelEnd addr level : ℕ} {heap : Heap}
    {live whole : List Block} {pages : List ℕ} {free : ℕ → List ℕ}
    (htiled : Tiled kernelEnd heap live whole pages free) (hlive : (addr, level) ∈ live)
    (hrest : RestIsFree free addr level) (hbase : addr % pgSize ≠ 0) :
    ¬ FreesRightly kernelEnd heap live whole pages free (addr, level) := by
  rintro ⟨bound', free', top, hmerges, hcall⟩
  obtain ⟨bound, hbound, hlists⟩ := exists_listBound free
  have hpos : addr < addr + 2 ^ level := Nat.lt_add_of_pos_right (Nat.two_pow_pos _)
  have hmax := (hmerges.top_iff (htiled.small _ hlive).le (htiled.blockOk hlive).aligned le_rfl
    hpos).mpr hrest
  have hlists' : ∀ i < maxLevel, (free i).length + maxLevel < max bound bound' :=
    fun i hi => (hlists i hi).trans_le (le_max_left _ _)
  obtain ⟨free'', top'', merged, hmerges', -, -, -, heq⟩ :=
    htiled.buddyFree_eq hlive (hbound.trans_le (le_max_left bound bound')) hlists'
  obtain ⟨rfl, rfl⟩ := hmerges.unique hmerges'
  have hpanic : kpmfree kernelEnd merged addr = .panicked := if_pos (Or.inl hbase)
  rw [if_pos hmax, hpanic] at heq
  obtain ⟨hlt, -⟩ | ⟨-, -, merged', after, hfree, hreturned, -⟩ := hcall _ (le_max_right _ _)
  · exact absurd hmax hlt.ne
  · rw [heq, hreturned] at hfree
    cases hfree

/-- Otherwise the merges and what is done with the merged block are right. -/
theorem Tiled.freesRightly {kernelEnd addr level : ℕ} {heap : Heap} {live whole : List Block}
    {pages : List ℕ} {free : ℕ → List ℕ} (htiled : Tiled kernelEnd heap live whole pages free)
    (hlive : (addr, level) ∈ live) (hcond : ¬ RestIsFree free addr level ∨ addr % pgSize = 0) :
    FreesRightly kernelEnd heap live whole pages free (addr, level) := by
  obtain ⟨bound, hbound, hlists⟩ := exists_listBound free
  have hlow : level < maxLevel := htiled.small _ hlive
  have haligned := (htiled.blockOk hlive).aligned
  have hpos : addr < addr + 2 ^ level := Nat.lt_add_of_pos_right (Nat.two_pow_pos _)
  obtain ⟨free', top, -, hmerges, htop, -⟩ := htiled.buddyFree_eq hlive hbound hlists
  refine ⟨bound, free', top, hmerges, fun fuel hfuel => ?_⟩
  have hlists' : ∀ i < maxLevel, (free i).length + maxLevel < fuel :=
    fun i hi => (hlists i hi).trans_le hfuel
  obtain ⟨free'', top'', merged, hmerges', -, hshape, hcovers, heq⟩ :=
    htiled.buddyFree_eq hlive (hbound.trans_le hfuel) hlists'
  obtain ⟨rfl, rfl⟩ := hmerges.unique hmerges'
  rcases Nat.lt_or_eq_of_le htop with hlt | hmax
  · rw [if_neg hlt.ne] at heq
    exact Or.inl ⟨hlt, _, heq, htiled.listed hlive hshape hcovers hlt⟩
  · obtain ⟨-, hlo, hhi⟩ := hmerges.around haligned le_rfl hpos
    obtain ⟨hpage, hin, -⟩ := page_of_top hmax (hshape.sound.ok _ List.mem_cons_self) hlo hhi
    have hrest := (hmerges.top_iff hlow.le haligned le_rfl hpos).mp hmax
    have hbase : addr % pgSize = 0 := hcond.resolve_left (not_not.mpr hrest)
    have haddr : addr = top.1 := by
      rw [hpage, Nat.div_mul_cancel (Nat.dvd_of_mod_eq_zero hbase)]
    rw [if_pos hmax, haddr] at heq
    refine Or.inr ⟨hmax, hpage, merged, _, haddr ▸ heq, if_neg ?_,
      htiled.returned hlive hshape hcovers hmax hin⟩
    have hmanaged := htiled.managed _ hin
    simp only [pgSize] at *
    omega

/-- A call frees rightly exactly when it stops before a whole page or was given
the first block of the page. -/
theorem freesRightly_iff {kernelEnd addr level : ℕ} {heap : Heap} {live whole : List Block}
    {pages : List ℕ} {free : ℕ → List ℕ} (htiled : Tiled kernelEnd heap live whole pages free)
    (hlive : (addr, level) ∈ live) :
    FreesRightly kernelEnd heap live whole pages free (addr, level) ↔
      ¬ RestIsFree free addr level ∨ addr % pgSize = 0 := by
  constructor
  · intro hrightly
    by_contra hnot
    rw [not_or, not_not] at hnot
    exact htiled.not_freesRightly hlive hnot.1 hnot.2 hrightly
  · exact htiled.freesRightly hlive

/-- One page in two halves, of which `held` is live and `other` is free. -/
def halves (held other : ℕ) : Heap where
  mem := fun x => if x = held then 11 else 0
  buddyList := fun level => if level = 11 then other else 0

def otherHalf (other : ℕ) (level : ℕ) : List ℕ := if level = 11 then [other] else []

theorem freeBlocks_otherHalf (other : ℕ) : freeBlocks (otherHalf other) = [(other, 11)] := rfl

theorem tiled_halves {held other : ℕ}
    (hhalves : held = firstPage ∧ other = firstPage + 2048 ∨
      held = firstPage + 2048 ∧ other = firstPage) :
    Tiled firstPage (halves held other) [(held, 11)] [] [firstPage] (otherHalf other) := by
  have hblocks : [] ++ ([(held, 11)] ++ freeBlocks (otherHalf other)) =
      [(held, 11), (other, 11)] := rfl
  have hpage : firstPage = 0x80300000 := rfl
  have hok : ∀ block ∈ [(held, 11), (other, 11)], BlockOk [firstPage] block := by
    have hlower : BlockOk [firstPage] (firstPage, 11) :=
      ⟨by decide, by decide, by decide, by decide, by decide, by decide⟩
    have hupper : BlockOk [firstPage] (firstPage + 2048, 11) :=
      ⟨by decide, by decide, by decide, by decide, by decide, by decide⟩
    obtain ⟨rfl, rfl⟩ | ⟨rfl, rfl⟩ := hhalves <;> simp [hlower, hupper]
  refine ⟨⟨fun level hlevel => ?_, ⟨?_, hblocks ▸ hok⟩, ?_⟩, ?_, fun x => ?_, ?_, ?_⟩
  · by_cases heleven : level = 11
    · subst heleven
      have hlink : load (halves held other).mem other 8 = 0 := by
        simp only [load, halves]
        obtain ⟨rfl, rfl⟩ | ⟨rfl, rfl⟩ := hhalves <;> rfl
      refine ⟨rfl, ?_, hlink⟩
      omega
    · have hhead : (halves held other).buddyList level = 0 := if_neg heleven
      have hlist : otherHalf other level = [] := if_neg heleven
      rw [hlist]
      exact hhead
  · rw [hblocks, List.pairwise_pair]
    simp only [Apart]
    omega
  · simp [halves, levelByte, maxLevel]
  · simp [maxLevel]
  · rw [hblocks]
    simp only [covered_cons, List.mem_singleton, exists_eq_left, pgSize]
    simp only [Covered, List.not_mem_nil, false_and, exists_false, or_false]
    omega
  · simp [pgSize, physTop, hpage]
  · exact List.nodup_singleton _

theorem freesRightly_lowerHalf :
    FreesRightly firstPage (halves firstPage (firstPage + 2048)) [(firstPage, 11)] []
      [firstPage] (otherHalf (firstPage + 2048)) (firstPage, 11) :=
  (freesRightly_iff (tiled_halves (Or.inl ⟨rfl, rfl⟩)) (List.mem_singleton_self _)).mpr
    (Or.inr (by decide))

/-- The upper half is freed last: `kpmfree` is handed an address inside the page
and stops the kernel. -/
theorem not_freesRightly_upperHalf :
    Tiled firstPage (halves (firstPage + 2048) firstPage) [(firstPage + 2048, 11)] []
        [firstPage] (otherHalf firstPage) ∧
      ¬ FreesRightly firstPage (halves (firstPage + 2048) firstPage) [(firstPage + 2048, 11)] []
        [firstPage] (otherHalf firstPage) (firstPage + 2048, 11) := by
  have htiled := tiled_halves (Or.inr ⟨rfl, rfl⟩)
  refine ⟨htiled, htiled.not_freesRightly (List.mem_singleton_self _) (fun i hlo hhi => ?_)
    (by decide)⟩
  obtain rfl : i = 11 := by
    simp only [maxLevel] at hhi
    omega
  decide

end Painting.Buddy
