import Painting.Mm.Buddy

/-!
# Disjointness of the buddy allocator's blocks

Every block is live, on a free list, or in the hands of the running call.  The
invariant says that all of them together are pairwise apart, aligned to their
size and inside the pages taken from `kpmalloc`.  It survives every call except
a `buddy_alloc` that splits a block popped from a list.
-/

namespace Painting.Buddy

open Painting.Memory Painting.Transition

/-! ## Blocks -/

/-- The byte ranges of two blocks do not meet. -/
def Apart (left right : Block) : Prop :=
  left.1 + 2 ^ left.2 ≤ right.1 ∨ right.1 + 2 ^ right.2 ≤ left.1

theorem Apart.symm {left right : Block} (hapart : Apart left right) : Apart right left :=
  Or.symm hapart

instance : Std.Symm Apart := ⟨fun _ _ => Apart.symm⟩

theorem Apart.ne {left right : Block} (hapart : Apart left right) : left ≠ right := by
  rintro rfl
  have hpos : 0 < 2 ^ left.2 := Nat.two_pow_pos _
  unfold Apart at hapart
  omega

/-- A block is apart from whatever the block around it is apart from. -/
theorem Apart.of_inside {inner outer other : Block} (hapart : Apart outer other)
    (hlo : outer.1 ≤ inner.1) (hhi : inner.1 + 2 ^ inner.2 ≤ outer.1 + 2 ^ outer.2) :
    Apart inner other := by
  unfold Apart at *
  omega

/-- A block of the allocator: of a level it manages, aligned to its size, and
inside one of its pages. -/
structure BlockOk (pages : List ℕ) (block : Block) : Prop where
  above : pgSize ≤ block.1
  below : block.1 < physTop
  low : 3 ≤ block.2
  high : block.2 ≤ 12
  aligned : 2 ^ block.2 ∣ block.1
  inPage : block.1 / pgSize * pgSize ∈ pages

theorem BlockOk.mono {pages pages' : List ℕ} {block : Block} (hok : BlockOk pages block)
    (hsub : pages ⊆ pages') : BlockOk pages' block :=
  { hok with inPage := hsub hok.inPage }

theorem two_pow_bounds {level : ℕ} (hlow : 3 ≤ level) (hhigh : level ≤ 12) :
    8 ≤ 2 ^ level ∧ 2 ^ level ≤ 4096 :=
  ⟨show 2 ^ 3 ≤ 2 ^ level from Nat.pow_le_pow_right (by omega) hlow,
    show 2 ^ level ≤ 2 ^ 12 from Nat.pow_le_pow_right (by omega) hhigh⟩

/-- An aligned block of at most a page does not cross a page boundary. -/
theorem offset_add_size_le {addr level : ℕ} (hhigh : level ≤ 12) (haligned : 2 ^ level ∣ addr) :
    addr % pgSize + 2 ^ level ≤ pgSize := by
  have hpage : 2 ^ level ∣ pgSize := Nat.pow_dvd_pow 2 hhigh
  obtain ⟨count, hcount⟩ := hpage
  obtain ⟨index, rfl⟩ := haligned
  rw [hcount, Nat.mul_mod_mul_left, ← Nat.mul_succ]
  have hpos : 0 < count := by
    rcases Nat.eq_zero_or_pos count with hzero | hpos
    · simp [hzero, pgSize] at hcount
    · exact hpos
  exact Nat.mul_le_mul_left _ (Nat.mod_lt _ hpos)

theorem BlockOk.end_le {pages : List ℕ} {block : Block} (hok : BlockOk pages block) :
    block.1 + 2 ^ block.2 ≤ block.1 / pgSize * pgSize + pgSize := by
  have hoffset := offset_add_size_le hok.high hok.aligned
  have hsplit := Nat.div_add_mod' block.1 pgSize
  omega

/-- Blocks of different pages are apart. -/
theorem BlockOk.apart_of_page_ne {pages pages' : List ℕ} {left right : Block}
    (hleft : BlockOk pages left) (hright : BlockOk pages' right)
    (hne : left.1 / pgSize * pgSize ≠ right.1 / pgSize * pgSize) : Apart left right := by
  have hl := hleft.end_le
  have hr := hright.end_le
  have hl' := Nat.div_mul_le_self left.1 pgSize
  have hr' := Nat.div_mul_le_self right.1 pgSize
  unfold Apart
  simp only [pgSize] at *
  omega

/-! ## Buddies -/

theorem xor_one_eq (index : ℕ) :
    index ^^^ 1 = if index % 2 = 0 then index + 1 else index - 1 := by
  have hdiv : (index ^^^ 1) / 2 = index / 2 := by simp [Nat.xor_div_two]
  have hmod : (index ^^^ 1) % 2 = (index + 1) % 2 := by simp [Nat.xor_mod_two_eq]
  split <;> omega

/-- The buddy of an aligned block is the other half of the block around it. -/
theorem getBuddy_eq {block level : ℕ} (haligned : 2 ^ level ∣ block) :
    getBuddy block level =
      if block / 2 ^ level % 2 = 0 then block + 2 ^ level else block - 2 ^ level := by
  obtain ⟨index, rfl⟩ := haligned
  have hpos : 0 < 2 ^ level := Nat.two_pow_pos _
  have hxor : getBuddy (2 ^ level * index) level = 2 ^ level * (index ^^^ 1) := by
    rw [getBuddy, Nat.mul_comm, Nat.mul_comm (2 ^ level), ← Nat.shiftLeft_eq, ← Nat.shiftLeft_eq,
      Nat.shiftLeft_xor_distrib]
  rw [hxor, xor_one_eq, Nat.mul_div_cancel_left _ hpos]
  split
  · rw [Nat.mul_add, Nat.mul_one]
  · rw [Nat.mul_sub, Nat.mul_one]

/-- The buddy of a page base is that many bytes above it. -/
theorem getBuddy_page {page level : ℕ} (haligned : 2 ^ (level + 1) ∣ page) :
    getBuddy page level = page + 2 ^ level := by
  obtain ⟨index, rfl⟩ := haligned
  have hpos : 0 < 2 ^ level := Nat.two_pow_pos _
  have hdvd : 2 ^ level ∣ 2 ^ (level + 1) * index := ⟨2 * index, by ring⟩
  rw [getBuddy_eq hdvd, if_pos]
  rw [pow_succ, Nat.mul_assoc, Nat.mul_div_cancel_left _ hpos]
  omega

/-- Merging two buddies gives the aligned block around both. -/
theorem min_getBuddy {block level : ℕ} (haligned : 2 ^ level ∣ block) :
    2 ^ (level + 1) ∣ min block (getBuddy block level) ∧
      max block (getBuddy block level) = min block (getBuddy block level) + 2 ^ level := by
  rw [getBuddy_eq haligned]
  obtain ⟨index, rfl⟩ := haligned
  have hpos : 0 < 2 ^ level := Nat.two_pow_pos _
  rw [Nat.mul_div_cancel_left _ hpos]
  split
  · rename_i heven
    rw [min_eq_left (by omega), max_eq_right (by omega)]
    obtain ⟨half, rfl⟩ := Nat.dvd_of_mod_eq_zero heven
    exact ⟨⟨half, by ring⟩, rfl⟩
  · rename_i hodd
    have hle : 2 ^ level ≤ 2 ^ level * index := Nat.le_mul_of_pos_right _ (by omega)
    rw [min_eq_right (by omega), max_eq_left (by omega)]
    obtain ⟨half, hhalf⟩ : ∃ half, index = 2 * half + 1 := ⟨index / 2, by omega⟩
    subst hhalf
    refine ⟨⟨half, ?_⟩, by omega⟩
    rw [Nat.mul_add, Nat.mul_one, Nat.add_sub_cancel]
    ring

/-! ## Free lists -/

/-- The links from `head` on spell out exactly the given blocks and then end. -/
def Chain (mem : Mem) : ℕ → List ℕ → Prop
  | head, [] => head = 0
  | head, block :: rest => head = block ∧ block ≠ 0 ∧ Chain mem (load mem block 8) rest

/-- A chain survives any change that leaves the links of its blocks alone. -/
theorem Chain.congr {mem mem' : Mem} {head : ℕ} {blocks : List ℕ} (hchain : Chain mem head blocks)
    (hagree : ∀ block ∈ blocks, AgreeOn mem mem' block (block + 8)) :
    Chain mem' head blocks := by
  induction blocks generalizing head with
  | nil => exact hchain
  | cons block rest ih =>
      obtain ⟨hhead, hne, hrest⟩ := hchain
      have hload := (hagree block List.mem_cons_self).load_eq
      exact ⟨hhead, hne, hload ▸ ih hrest fun b hb => hagree b (List.mem_cons_of_mem _ hb)⟩

/-- The blocks of all free lists with their levels. -/
def freeBlocks (free : ℕ → List ℕ) : List Block :=
  (List.range maxLevel).flatMap fun level => (free level).map fun block => (block, level)

theorem mem_freeBlocks {free : ℕ → List ℕ} {block : Block} :
    block ∈ freeBlocks free ↔ block.2 < maxLevel ∧ block.1 ∈ free block.2 := by
  obtain ⟨addr, level⟩ := block
  simp only [freeBlocks, List.mem_flatMap, List.mem_range, List.mem_map, Prod.mk.injEq]
  constructor
  · rintro ⟨index, hindex, other, hother, rfl, rfl⟩
    exact ⟨hindex, hother⟩
  · rintro ⟨hlevel, haddr⟩
    exact ⟨level, hlevel, addr, haddr, rfl, rfl⟩

/-- Taking one block off a list takes exactly that block off the whole. -/
theorem freeBlocks_perm {free : ℕ → List ℕ} {level block : ℕ} {rest : List ℕ}
    (hlevel : level < maxLevel) (hperm : (free level).Perm (block :: rest)) :
    (freeBlocks free).Perm
      ((block, level) :: freeBlocks (Function.update free level rest)) := by
  have hrange : (List.range maxLevel).Perm (level :: (List.range maxLevel).erase level) :=
    List.perm_cons_erase (List.mem_range.2 hlevel)
  have hsame : ∀ index ∈ (List.range maxLevel).erase level,
      (Function.update free level rest index).map (fun b => (b, index)) =
        (free index).map fun b => (b, index) := by
    intro index hindex
    have hne : index ≠ level := by
      rintro rfl
      exact (List.nodup_range.not_mem_erase) hindex
    rw [Function.update_of_ne hne]
  refine ((hrange.flatMap_right _).trans ?_).trans
    ((hrange.flatMap_right _).symm.cons _)
  rw [List.flatMap_cons, List.flatMap_cons, Function.update_self,
    List.flatMap_congr hsame, ← List.cons_append]
  exact (hperm.map _).append_right _

/-! ## The invariant -/

/-- Pairwise apart blocks of the allocator. -/
structure Sound (pages : List ℕ) (blocks : List Block) : Prop where
  apart : blocks.Pairwise Apart
  ok : ∀ block ∈ blocks, BlockOk pages block

theorem Sound.perm {pages : List ℕ} {blocks blocks' : List Block} (hsound : Sound pages blocks)
    (hperm : blocks.Perm blocks') : Sound pages blocks' :=
  ⟨(hperm.pairwise_iff Apart.symm).1 hsound.apart,
    fun block hblock => hsound.ok block (hperm.mem_iff.2 hblock)⟩

theorem Sound.head_apart {pages : List ℕ} {first : Block} {blocks : List Block}
    (hsound : Sound pages (first :: blocks)) : ∀ block ∈ blocks, Apart first block :=
  (List.pairwise_cons.1 hsound.apart).1

theorem Sound.tail {pages : List ℕ} {first : Block} {blocks : List Block}
    (hsound : Sound pages (first :: blocks)) : Sound pages blocks :=
  ⟨(List.pairwise_cons.1 hsound.apart).2,
    fun block hblock => hsound.ok block (List.mem_cons_of_mem _ hblock)⟩

theorem Sound.apart_of_ne {pages : List ℕ} {left right : Block} {blocks : List Block}
    (hsound : Sound pages blocks) (hleft : left ∈ blocks) (hright : right ∈ blocks)
    (hne : left ≠ right) : Apart left right :=
  hsound.apart.forall hleft hright hne

theorem Sound.cons {pages : List ℕ} {first : Block} {blocks : List Block}
    (hsound : Sound pages blocks) (hok : BlockOk pages first)
    (hapart : ∀ block ∈ blocks, Apart first block) : Sound pages (first :: blocks) :=
  ⟨List.pairwise_cons.2 ⟨hapart, hsound.apart⟩, by
    simpa only [List.forall_mem_cons] using ⟨hok, hsound.ok⟩⟩

/-- The first byte of a live block: its level, or `kpmalloc`'s filling when the
block is a whole page, which `buddy_alloc` does not mark. -/
def levelByte (block : Block) : UInt8 :=
  if block.2 = maxLevel then 5 else UInt8.ofNat block.2

/-- The shape of the heap while a call holds the blocks `hand`. -/
structure Shape (heap : Heap) (hand live : List Block) (pages : List ℕ)
    (free : ℕ → List ℕ) : Prop where
  chain : ∀ level < maxLevel, Chain heap.mem (heap.buddyList level) (free level)
  sound : Sound pages (hand ++ (live ++ freeBlocks free))
  level : ∀ block ∈ live, heap.mem block.1 = levelByte block

section Shape

variable {heap : Heap} {hand live : List Block} {pages : List ℕ} {free : ℕ → List ℕ}

/-- Memory may change wherever no live and no free block lies. -/
theorem Shape.congr {mem : Mem} (hshape : Shape heap hand live pages free)
    (hagree : ∀ block ∈ live ++ freeBlocks free,
      AgreeOn heap.mem mem block.1 (block.1 + 2 ^ block.2)) :
    Shape { heap with mem := mem } hand live pages free := by
  refine ⟨fun level hlevel => ?_, hshape.sound, fun block hblock => ?_⟩
  · refine (hshape.chain level hlevel).congr fun block hblock => ?_
    have hmem : (block, level) ∈ live ++ freeBlocks free :=
      List.mem_append_right _ (mem_freeBlocks.2 ⟨hlevel, hblock⟩)
    have hok := hshape.sound.ok _ (List.mem_append_right _ hmem)
    have hsize := (two_pow_bounds hok.low hok.high).1
    exact (hagree _ hmem).mono le_rfl (by simpa using hsize)
  · have hmem : block ∈ live ++ freeBlocks free := List.mem_append_left _ hblock
    have hpos : 0 < 2 ^ block.2 := Nat.two_pow_pos _
    exact (hagree block hmem block.1 le_rfl (by omega)).trans (hshape.level block hblock)

/-- A store inside the block in hand leaves all other blocks alone. -/
theorem Shape.store_hand {block : Block}
    (hshape : Shape heap (block :: hand) live pages free) (addr width value : ℕ)
    (hlo : block.1 ≤ addr) (hhi : addr + width ≤ block.1 + 2 ^ block.2) :
    Shape { heap with mem := store heap.mem addr width value } (block :: hand) live pages free := by
  refine hshape.congr fun other hother => store_agreeOn _ ?_
  have hapart := hshape.sound.head_apart other (List.mem_append_right _ hother)
  unfold Apart at hapart
  omega

theorem Shape.blockOk_of_free (hshape : Shape heap hand live pages free) {level block : ℕ}
    (hlevel : level < maxLevel) (hblock : block ∈ free level) : BlockOk pages (block, level) :=
  hshape.sound.ok _ (List.mem_append_right _ (List.mem_append_right _
    (mem_freeBlocks.2 ⟨hlevel, hblock⟩)))

/-- List heads are addresses of the managed memory, or null. -/
theorem Shape.head_lt (hshape : Shape heap hand live pages free) {level : ℕ}
    (hlevel : level < maxLevel) : heap.buddyList level < 256 ^ 8 := by
  have hchain := hshape.chain level hlevel
  cases hfree : free level with
  | nil =>
      rw [hfree] at hchain
      rw [show heap.buddyList level = 0 from hchain]
      norm_num
  | cons block rest =>
      rw [hfree] at hchain
      have hbelow := (hshape.blockOk_of_free hlevel (hfree ▸ List.mem_cons_self)).below
      rw [hchain.1]
      simp only [physTop] at hbelow
      omega

/-- Putting the block in hand onto its list. -/
theorem Shape.push {block level : ℕ} (hlevel : level < maxLevel)
    (hshape : Shape heap ((block, level) :: hand) live pages free) :
    Shape (heap.push level block) hand live pages
      (Function.update free level (block :: free level)) := by
  have hok := hshape.sound.ok _ List.mem_cons_self
  have hsize := (two_pow_bounds hok.low hok.high).1
  have hstored := hshape.store_hand block 8 (heap.buddyList level) le_rfl (by simpa using hsize)
  refine ⟨fun other hother => ?_, ?_, hstored.level⟩
  · rcases eq_or_ne other level with rfl | hne
    · simp only [Heap.push, Function.update_self]
      refine ⟨rfl, ?_, ?_⟩
      · have habove := hok.above
        simp only [pgSize] at habove
        omega
      · rw [load_store_of_lt _ (hshape.head_lt hlevel)]
        exact hstored.chain other hother
    · simp only [Heap.push, Function.update_of_ne hne]
      exact hstored.chain other hother
  · have hperm : (freeBlocks (Function.update free level (block :: free level))).Perm
        ((block, level) :: freeBlocks free) := by
      have htop : (Function.update free level (block :: free level) level).Perm
          (block :: free level) := by
        rw [Function.update_self]
      simpa using freeBlocks_perm hlevel htop
    refine hshape.sound.perm (List.Perm.trans ?_ ((hperm.symm.append_left _).append_left _))
    rw [List.cons_append, ← List.append_assoc, ← List.append_assoc]
    exact List.perm_middle.symm

/-- Taking a block off its list, whatever happens to the memory. -/
theorem Shape.sound_take (hshape : Shape heap hand live pages free) {level block : ℕ}
    {rest : List ℕ} (hlevel : level < maxLevel) (hperm : (free level).Perm (block :: rest)) :
    Sound pages ((block, level) :: hand ++
      (live ++ freeBlocks (Function.update free level rest))) := by
  refine hshape.sound.perm (List.Perm.trans
    (((freeBlocks_perm hlevel hperm).append_left _).append_left _) ?_)
  rw [List.cons_append, ← List.append_assoc, ← List.append_assoc]
  exact List.perm_middle

/-- Popping the head of a list. -/
theorem Shape.pop (hshape : Shape heap hand live pages free) {level block : ℕ}
    (hlevel : level < maxLevel) (hhead : heap.buddyList level = block) (hne : block ≠ 0) :
    ∃ rest, free level = block :: rest ∧
      Shape { heap with buddyList := Function.update heap.buddyList level (heap.next block) }
        ((block, level) :: hand) live pages (Function.update free level rest) := by
  have hchain := hshape.chain level hlevel
  cases hfree : free level with
  | nil =>
      rw [hfree, hhead] at hchain
      exact absurd hchain hne
  | cons first rest =>
      rw [hfree, hhead] at hchain
      obtain ⟨rfl, -, hrest⟩ := hchain
      refine ⟨rest, rfl, fun other hother => ?_,
        hshape.sound_take hlevel (by rw [hfree]), hshape.level⟩
      rcases eq_or_ne other level with rfl | hother'
      · simpa only [Function.update_self, Heap.next] using hrest
      · simpa only [Function.update_of_ne hother'] using hshape.chain other hother

/-- The block in hand may be regarded as any smaller block at its start. -/
theorem Shape.shrink {block level level' : ℕ} (hlow : 3 ≤ level') (hle : level' ≤ level)
    (hshape : Shape heap ((block, level) :: hand) live pages free) :
    Shape heap ((block, level') :: hand) live pages free := by
  have hok := hshape.sound.ok _ List.mem_cons_self
  have hpow : 2 ^ level' ≤ 2 ^ level := Nat.pow_le_pow_right (by omega) hle
  refine ⟨hshape.chain, hshape.sound.tail.cons ?_ fun other hother => ?_, hshape.level⟩
  · exact { hok with
      low := hlow
      high := hle.trans hok.high
      aligned := (Nat.pow_dvd_pow 2 hle).trans hok.aligned }
  · exact (hshape.sound.head_apart other hother).of_inside le_rfl (by simpa using hpow)

/-- Splitting the block in hand: its upper half joins the hand. -/
theorem Shape.halve {block level : ℕ} (hlow : 3 ≤ level)
    (hshape : Shape heap ((block, level + 1) :: hand) live pages free) :
    Shape heap ((block + 2 ^ level, level) :: (block, level) :: hand) live pages free := by
  have hok := hshape.sound.ok _ List.mem_cons_self
  have hhalf := hshape.shrink hlow (Nat.le_succ level)
  have hend := hok.end_le
  have hpow : 2 ^ (level + 1) = 2 ^ level + 2 ^ level := by ring
  have hpos : 0 < 2 ^ level := Nat.two_pow_pos _
  have hstart := Nat.div_mul_le_self block pgSize
  simp only [hpow] at hend
  refine ⟨hshape.chain, hhalf.sound.cons ?_ fun other hother => ?_, hshape.level⟩
  · have hpage : (block + 2 ^ level) / pgSize = block / pgSize := by
      simp only [pgSize] at *
      omega
    have habove := hok.above
    have hbelow : block + 2 ^ level < physTop := by
      have hblock := hok.below
      have halign : physTop % pgSize = 0 := rfl
      simp only [pgSize, physTop] at *
      omega
    refine ⟨Nat.le_add_right_of_le habove, hbelow, hlow, Nat.le_of_succ_le hok.high, ?_, ?_⟩
    · exact Nat.dvd_add ((Nat.pow_dvd_pow 2 (Nat.le_succ level)).trans hok.aligned) dvd_rfl
    · rw [hpage]
      exact hok.inPage
  · rcases List.mem_cons.1 hother with rfl | hother
    · exact Or.inr le_rfl
    · exact (hshape.sound.head_apart other hother).of_inside (Nat.le_add_right _ _)
        (by simp only [hpow]; omega)

/-- The split loop, run on a whole page, leaves the page's first block at the
level above the requested one. -/
theorem Shape.splitLoop {page level : ℕ} (hlow : 3 ≤ level) {i : ℕ} (hle : level ≤ i)
    (hi : i < maxLevel) (haligned : 2 ^ maxLevel ∣ page)
    (hshape : Shape heap ((page, i + 1) :: hand) live pages free) :
    ∃ free', Shape (splitLoop page level i heap) ((page, level + 1) :: hand) live pages free' := by
  induction i generalizing heap free with
  | zero => omega
  | succ i ih =>
      rw [Buddy.splitLoop]
      split
      · rename_i hlt
        have hbuddy : getBuddy page (i + 1) = page + 2 ^ (i + 1) :=
          getBuddy_page ((Nat.pow_dvd_pow 2 (by omega)).trans haligned)
        have hhalves := hshape.halve (by omega)
        rw [hbuddy]
        exact ih (by omega) (by omega) (hhalves.push hi)
      · obtain rfl : level = i + 1 := by omega
        exact ⟨free, hshape⟩

theorem Shape.nodup_free (hshape : Shape heap hand live pages free) {level : ℕ}
    (hlevel : level < maxLevel) : (free level).Nodup := by
  have hfree : (freeBlocks free).Pairwise Apart :=
    (List.pairwise_append.1 (List.pairwise_append.1 hshape.sound.apart).2.1).2.1
  have hlist := (List.pairwise_flatMap.1 hfree).1 level (List.mem_range.2 hlevel)
  refine (List.pairwise_map.1 hlist).imp fun hapart heq => ?_
  exact hapart.ne (by rw [heq])

/-! ## Searching and unlinking -/

/-- The link reached from `link` after passing the given blocks. -/
def linkAfter : Link → List ℕ → Link
  | link, [] => link
  | _, block :: rest => linkAfter (.next block) rest

theorem linkAfter_concat (link : Link) (passed : List ℕ) (block : ℕ) :
    linkAfter link (passed ++ [block]) = .next block := by
  induction passed generalizing link with
  | nil => rfl
  | cons first rest ih => exact ih (.next first)

/-- The search stops at the first occurrence of the buddy or at the end. -/
theorem searchList_spec {buddy fuel : ℕ} {link found : Link} {blocks : List ℕ}
    (hchain : Chain heap.mem (heap.deref link) blocks)
    (hsearch : searchList heap buddy fuel link = some found) :
    ∃ passed left, blocks = passed ++ left ∧ buddy ∉ passed ∧ found = linkAfter link passed ∧
      Chain heap.mem (heap.deref found) left ∧ (left = [] ∨ heap.deref found = buddy) := by
  induction fuel generalizing link blocks with
  | zero => simp [searchList] at hsearch
  | succ fuel ih =>
      rw [searchList] at hsearch
      cases blocks with
      | nil =>
          rw [if_neg (by simp [show heap.deref link = 0 from hchain])] at hsearch
          cases hsearch
          exact ⟨[], [], rfl, List.not_mem_nil, rfl, hchain, Or.inl rfl⟩
      | cons first rest =>
          obtain ⟨hhead, hne, hrest⟩ := hchain
          by_cases hbuddy : first = buddy
          · rw [if_neg (by simp [hhead, hbuddy])] at hsearch
            cases hsearch
            exact ⟨[], first :: rest, rfl, List.not_mem_nil, rfl, ⟨hhead, hne, hrest⟩,
              Or.inr (hhead.trans hbuddy)⟩
          · rw [if_pos (by simp [hhead, hne, hbuddy]), hhead] at hsearch
            have hnext : Chain heap.mem (heap.deref (.next first)) rest := hrest
            obtain ⟨passed, left, rfl, hnot, rfl, htail, hend⟩ := ih hnext hsearch
            refine ⟨first :: passed, left, rfl, ?_, rfl, htail, hend⟩
            simp [hnot, Ne.symm hbuddy]

/-- Overwriting the link before a block takes that block out of the chain. -/
theorem Chain.unlink {mem : Mem} {head prev block : ℕ} {front back : List ℕ}
    (hchain : Chain mem head (front ++ prev :: block :: back))
    (hfar : ∀ other ∈ front ++ back, other + 8 ≤ prev ∨ prev + 8 ≤ other) :
    Chain (store mem prev 8 (load mem block 8)) head (front ++ prev :: back) := by
  induction front generalizing head with
  | nil =>
      obtain ⟨hhead, hne, hblock, -, hback⟩ := hchain
      refine ⟨hhead, hne, ?_⟩
      rw [load_store_of_lt _ (load_lt mem block 8)]
      exact hback.congr fun other hother => store_agreeOn _ (hfar other (by simpa using hother))
  | cons first front ih =>
      obtain ⟨hhead, hne, hrest⟩ := hchain
      refine ⟨hhead, hne, ?_⟩
      rw [load_store_of_disjoint _ (hfar first List.mem_cons_self)]
      exact ih hrest fun other hother => hfar other (List.mem_cons_of_mem _ hother)

theorem Shape.mem_of_free {level block : ℕ} (hlevel : level < maxLevel)
    (hblock : block ∈ free level) : (block, level) ∈ hand ++ (live ++ freeBlocks free) :=
  List.mem_append_right _ (List.mem_append_right _ (mem_freeBlocks.2 ⟨hlevel, hblock⟩))

/-- Writing the link of a free block touches no other block. -/
theorem Shape.link_agreeOn (hshape : Shape heap hand live pages free) {level prev : ℕ}
    (hlevel : level < maxLevel) (hprev : prev ∈ free level) (value : ℕ) {other : Block}
    (hother : other ∈ hand ++ (live ++ freeBlocks free)) (hne : other ≠ (prev, level)) :
    AgreeOn heap.mem (store heap.mem prev 8 value) other.1 (other.1 + 2 ^ other.2) := by
  have hok := hshape.blockOk_of_free hlevel hprev
  have hsize : 8 ≤ 2 ^ level := (two_pow_bounds hok.low hok.high).1
  have hapart : Apart other (prev, level) :=
    hshape.sound.apart_of_ne hother (Shape.mem_of_free hlevel hprev) hne
  refine store_agreeOn _ ?_
  simp only [Apart] at hapart
  omega

theorem Shape.ne_free_of_live (hshape : Shape heap hand live pages free) {level block : ℕ}
    {held : Block} (hheld : held ∈ live) (hlevel : level < maxLevel)
    (hblock : block ∈ free level) : held ≠ (block, level) := by
  rintro rfl
  have hcross := (List.pairwise_append.1 (List.pairwise_append.1 hshape.sound.apart).2.1).2.2
  exact (hcross _ hheld _ (mem_freeBlocks.2 ⟨hlevel, hblock⟩)).ne rfl

/-- Unlinking behind a predecessor keeps every chain. -/
theorem Shape.chain_unlink (hshape : Shape heap hand live pages free) {level prev block : ℕ}
    {front back : List ℕ} (hlevel : level < maxLevel)
    (hfree : free level = front ++ prev :: block :: back) {other : ℕ} (hother : other < maxLevel) :
    Chain (store heap.mem prev 8 (heap.next block)) (heap.buddyList other)
      (Function.update free level (front ++ prev :: back) other) := by
  have hprev : prev ∈ free level := by simp [hfree]
  have hagree : ∀ addr ∈ free other, (addr, other) ≠ (prev, level) →
      AgreeOn heap.mem (store heap.mem prev 8 (heap.next block)) addr (addr + 8) := by
    intro addr haddr hne
    have hok := hshape.blockOk_of_free hother haddr
    have hsize : 8 ≤ 2 ^ other := (two_pow_bounds hok.low hok.high).1
    exact (hshape.link_agreeOn hlevel hprev _ (Shape.mem_of_free hother haddr) hne).mono le_rfl
      (by simpa using hsize)
  rcases eq_or_ne other level with rfl | hne
  · have hchain := hshape.chain other hother
    have hnodup := hshape.nodup_free hother
    rw [hfree] at hchain hnodup
    rw [Function.update_self]
    refine hchain.unlink fun addr haddr => ?_
    have hmem : addr ∈ free other := by
      rw [hfree]
      rcases List.mem_append.1 haddr with h | h <;> simp [h]
    have hne : addr ≠ prev := by
      rintro rfl
      simp only [List.nodup_append, List.nodup_cons, List.mem_cons] at hnodup
      rcases List.mem_append.1 haddr with h | h
      · exact hnodup.2.2 addr h addr (Or.inl rfl) rfl
      · exact hnodup.2.1.1 (Or.inr h)
    have hok := hshape.blockOk_of_free hother hmem
    have hsize : 8 ≤ 2 ^ other := (two_pow_bounds hok.low hok.high).1
    have hpair : (addr, other) ≠ (prev, other) := by simpa using hne
    have hapart : Apart (addr, other) (prev, other) := hshape.sound.apart_of_ne
      (Shape.mem_of_free hother hmem) (Shape.mem_of_free hother hprev) hpair
    simp only [Apart] at hapart
    omega
  · rw [Function.update_of_ne hne]
    exact (hshape.chain other hother).congr fun addr haddr =>
      hagree addr haddr (by simp [hne])

/-- `*list = (*list)->next` moves the found block from its list to the hand. -/
theorem Shape.unlink (hshape : Shape heap hand live pages free) {level block : ℕ}
    (hlevel : level < maxLevel) {front back : List ℕ}
    (hfree : free level = front ++ block :: back) :
    Shape (heap.assign (linkAfter (.head level) front) (heap.next block))
      ((block, level) :: hand) live pages (Function.update free level (front ++ back)) := by
  rcases List.eq_nil_or_concat front with rfl | ⟨front, prev, rfl⟩
  · have hchain := hshape.chain level hlevel
    rw [hfree] at hchain
    obtain ⟨rest, hrest, hpopped⟩ := hshape.pop hlevel hchain.1 hchain.2.1
    rw [hfree] at hrest
    obtain rfl : back = rest := (List.cons.inj hrest).2
    exact hpopped
  · have hsound := hshape.sound_take hlevel (by rw [hfree]; exact List.perm_middle)
    rw [List.concat_eq_append, List.append_assoc] at hfree hsound
    rw [List.concat_eq_append, List.append_assoc, linkAfter_concat]
    have hprev : prev ∈ free level := by simp [hfree]
    refine ⟨fun other hother => hshape.chain_unlink hlevel hfree hother, hsound,
      fun held hheld => ?_⟩
    have hpos : 0 < 2 ^ held.2 := Nat.two_pow_pos _
    have hagree := hshape.link_agreeOn hlevel hprev (heap.next block)
      (List.mem_append_right _ (List.mem_append_left _ hheld))
      (hshape.ne_free_of_live hheld hlevel hprev)
    exact (hagree held.1 le_rfl (by omega)).trans (hshape.level held hheld)

/-! ## `buddy_free` -/

/-- The two buddies in hand become the block around them. -/
theorem Shape.merge {block level : ℕ} (hlevel : level < maxLevel)
    (hshape : Shape heap ((getBuddy block level, level) :: (block, level) :: hand)
      live pages free) :
    Shape heap ((min block (getBuddy block level), level + 1) :: hand) live pages free := by
  have hblock := hshape.sound.ok (block, level) (by simp)
  have hbuddy := hshape.sound.ok (getBuddy block level, level) (by simp)
  have hdvd : 2 ^ level ∣ block := hblock.aligned
  obtain ⟨haligned, hmax⟩ := min_getBuddy hdvd
  have hpow : 2 ^ (level + 1) = 2 ^ level + 2 ^ level := by ring
  refine ⟨hshape.chain, hshape.sound.tail.tail.cons ?_ fun other hother => ?_, hshape.level⟩
  · rcases min_choice block (getBuddy block level) with hmin | hmin <;> rw [hmin] at haligned ⊢
    · exact { hblock with
        low := Nat.le_succ_of_le hblock.low, high := hlevel, aligned := haligned }
    · exact { hbuddy with
        low := Nat.le_succ_of_le hblock.low, high := hlevel, aligned := haligned }
  · have hleft := hshape.sound.tail.head_apart other hother
    have hright := hshape.sound.head_apart other (List.mem_cons_of_mem _ hother)
    have hpos : 0 < 2 ^ other.2 := Nat.two_pow_pos _
    simp only [Apart, hpow] at hleft hright ⊢
    omega

/-- A page taken back by `kpmfree` leaves the allocator with no block in it. -/
theorem Shape.returnPage {page : ℕ} (haligned : page % pgSize = 0)
    (hshape : Shape heap ((page, maxLevel) :: hand) live pages free) :
    Shape { heap with mem := fill heap.mem page 1 pgSize } hand live (pages.erase page) free := by
  have hagree : ∀ other ∈ live ++ freeBlocks free,
      AgreeOn heap.mem (fill heap.mem page 1 pgSize) other.1 (other.1 + 2 ^ other.2) := by
    intro other hother
    have hapart := hshape.sound.head_apart other (List.mem_append_right _ hother)
    refine fill_agreeOn _ ?_
    simp only [Apart, maxLevel, pgSize] at hapart ⊢
    omega
  have hcongr := hshape.congr hagree
  refine ⟨hcongr.chain, ⟨hshape.sound.tail.apart, fun other hother => ?_⟩, hcongr.level⟩
  have hok := hshape.sound.tail.ok other hother
  have hapart := hshape.sound.head_apart other hother
  refine { hok with inPage := (List.mem_erase_of_ne ?_).2 hok.inPage }
  have hend := hok.end_le
  have hstart := Nat.div_mul_le_self other.1 pgSize
  have hpos : 0 < 2 ^ other.2 := Nat.two_pow_pos _
  simp only [Apart, maxLevel, pgSize] at *
  omega

/-- The buddy of a managed block is never the null pointer. -/
theorem Shape.getBuddy_ne_zero {block level : ℕ} (hlevel : level < maxLevel)
    (hshape : Shape heap ((block, level) :: hand) live pages free) :
    getBuddy block level ≠ 0 := by
  intro hzero
  have hok := hshape.sound.ok _ List.mem_cons_self
  have habove := hok.above
  have hsize := (two_pow_bounds hok.low hok.high).2
  have hdvd : 2 ^ level ∣ block := hok.aligned
  have hmin := (min_getBuddy hdvd).2
  have hhalf : 2 ^ level ≤ 2 ^ 11 :=
    Nat.pow_le_pow_right (by omega) (Nat.le_of_lt_succ hlevel)
  simp only [hzero, pgSize] at habove hmin
  omega

/-- Whatever list or page the freed block ends up in, the shape is kept. -/
def FreeResult.Ok (addr : ℕ) (live : List Block) (pages : List ℕ) : FreeResult → Prop
  | .listed heap => ∃ free, Shape heap [] live pages free
  | .returned heap => ∃ free, Shape heap [] live (pages.erase addr) free
  | .panicked => True

/-- The loop of `buddy_free`, whose block in hand always contains the freed
address. -/
theorem freeLoop_ok {kernelEnd addr fuel block level : ℕ} {result : FreeResult}
    (hlevel : level ≤ maxLevel) (hshape : Shape heap [(block, level)] live pages free)
    (hlo : block ≤ addr) (hhi : addr < block + 2 ^ level)
    (hfree : freeLoop kernelEnd addr fuel heap block level = some result) :
    result.Ok addr live pages := by
  induction fuel generalizing heap free block level with
  | zero => simp [freeLoop] at hfree
  | succ fuel ih =>
      rw [freeLoop] at hfree
      split at hfree
      · rename_i hmax
        subst hmax
        cases hfree
        rw [kpmfree]
        split
        · trivial
        · rename_i hpage
          have hok := hshape.sound.ok _ (List.mem_cons_self)
          obtain rfl : addr = block := by
            have hdvd : pgSize ∣ block := hok.aligned
            simp only [maxLevel, pgSize] at *
            omega
          exact ⟨free, hshape.returnPage (by omega)⟩
      · rename_i hne
        have hlt : level < maxLevel := lt_of_le_of_ne hlevel hne
        rw [Option.bind_eq_some_iff] at hfree
        obtain ⟨link, hsearch, hfree⟩ := hfree
        obtain ⟨passed, left, hsplit, -, rfl, hchain, hend⟩ :=
          searchList_spec (hshape.chain level hlt) hsearch
        split at hfree
        · cases hfree
          exact ⟨_, hshape.push hlt⟩
        · rename_i hfound
          rw [not_not] at hfound
          have hleft : ∃ back, left = getBuddy block level :: back := by
            cases left with
            | nil => exact absurd (hfound ▸ hchain) (hshape.getBuddy_ne_zero hlt)
            | cons first back =>
                exact ⟨back, by rw [← hfound, hchain.1]⟩
          obtain ⟨back, rfl⟩ := hleft
          rw [hfound] at hfree
          have hmerged := (hshape.unlink hlt hsplit).merge hlt
          have hdvd : 2 ^ level ∣ block :=
            (hshape.sound.ok (block, level) List.mem_cons_self).aligned
          obtain ⟨-, hmaxmin⟩ := min_getBuddy hdvd
          refine ih hlt hmerged ((min_le_left _ _).trans hlo) ?_ hfree
          have hle := le_max_left block (getBuddy block level)
          rw [pow_succ]
          omega

/-! ## `buddy_alloc` -/

/-- A fresh page enters the allocator as one block. -/
theorem Shape.fillPage {kernelEnd page : ℕ} (hfresh : FreshPage kernelEnd ⟨heap, live, pages⟩ page)
    (hshape : Shape heap [] live pages free) :
    Shape (heap.fillPage page) [(page, maxLevel)] live (page :: pages) free := by
  have haligned := hfresh.aligned
  have hpageOk : BlockOk (page :: pages) (page, maxLevel) := by
    have hpos := hfresh.positive
    have hbelow := hfresh.below
    have hself : page / pgSize * pgSize = page := Nat.div_mul_cancel
      (Nat.dvd_of_mod_eq_zero haligned)
    refine ⟨?_, ?_, ?_, le_rfl, Nat.dvd_of_mod_eq_zero haligned, by simp [hself]⟩ <;>
      simp only [pgSize, physTop, maxLevel] at * <;> omega
  have happart : ∀ other ∈ live ++ freeBlocks free, Apart (page, maxLevel) other := by
    intro other hother
    have hok := hshape.sound.ok other hother
    refine hpageOk.apart_of_page_ne hok fun heq => hfresh.unused ?_
    rw [Nat.div_mul_cancel (Nat.dvd_of_mod_eq_zero haligned)] at heq
    exact heq ▸ hok.inPage
  have hagree : ∀ other ∈ live ++ freeBlocks free,
      AgreeOn heap.mem (fill heap.mem page 5 pgSize) other.1 (other.1 + 2 ^ other.2) := by
    intro other hother
    have hapart := happart other hother
    refine fill_agreeOn _ ?_
    simp only [Apart, maxLevel, pgSize] at hapart ⊢
    omega
  have hcongr := hshape.congr hagree
  refine ⟨hcongr.chain, Sound.cons ?_ hpageOk happart, hcongr.level⟩
  exact ⟨hshape.sound.apart, fun other hother =>
    (hshape.sound.ok other hother).mono (List.subset_cons_self _ _)⟩

/-- Handing the block in hand to the caller. -/
theorem Shape.settle {block : Block} (hshape : Shape heap [block] live pages free)
    (hlevel : heap.mem block.1 = levelByte block) :
    Shape heap [] (block :: live) pages free :=
  ⟨hshape.chain, hshape.sound, by
    simpa only [List.forall_mem_cons] using ⟨hlevel, hshape.level⟩⟩

theorem Shape.settle_putLevel {block level : ℕ} (hlevel : level < maxLevel)
    (hshape : Shape heap [(block, level)] live pages free) :
    Shape (heap.putLevel block level) [] ((block, level) :: live) pages free := by
  have hpos : block + 1 ≤ block + 2 ^ level := Nat.add_le_add_left (Nat.two_pow_pos _) _
  refine (hshape.store_hand block 1 level le_rfl hpos).settle ?_
  simp [store, levelByte, hlevel.ne]

end Shape

theorem levelOfBytesLoop_two_pow {level fuel : ℕ} (hfuel : level ≤ fuel) :
    levelOfBytesLoop fuel (2 ^ level) = level := by
  induction level generalizing fuel with
  | zero => cases fuel <;> simp [levelOfBytesLoop]
  | succ level ih =>
      obtain ⟨fuel, rfl⟩ : ∃ rest, fuel = rest + 1 := ⟨fuel - 1, by omega⟩
      have hlt : 1 < 2 ^ (level + 1) := Nat.one_lt_two_pow (by omega)
      have hhalf : 2 ^ (level + 1) >>> 1 = 2 ^ level := by
        rw [Nat.shiftRight_one, pow_succ, Nat.mul_div_cancel _ (by omega)]
      rw [levelOfBytesLoop, if_pos hlt, hhalf, ih (by omega)]

theorem levelOfBytes_two_pow {level : ℕ} (hlevel : level ≤ 63) :
    levelOfBytes (2 ^ level) = level :=
  levelOfBytesLoop_two_pow (by omega)

theorem popBlock_eq_none {heap : Heap} {count level : ℕ}
    (hempty : ∀ i, level ≤ i → i < level + count → heap.buddyList i = 0) :
    popBlock heap count level = none := by
  induction count generalizing level with
  | zero => rfl
  | succ count ih =>
      rw [popBlock, if_neg (by simp [hempty level le_rfl (by omega)])]
      exact ih fun i hlo hhi => hempty i (by omega) (by omega)

/-- The branch of `buddy_alloc` that splits correctly: below level eleven every
list it looks at is empty, so that the block it splits is a fresh page. -/
def SplitsOnlyPages (state : State) : Action → Prop
  | .alloc sz _ => levelOfBytes sz < maxLevel - 1 →
      ∀ i, levelOfBytes sz ≤ i → i < maxLevel → state.heap.buddyList i = 0
  | .free _ => True

def Inv (state : State) : Prop := ∃ free, Shape state.heap [] state.live state.pages free

theorem inv_buddyInit (mem : Mem) : Inv (buddyInit mem) := by
  have hfree : freeBlocks (fun _ => []) = [] := by simp [freeBlocks]
  refine ⟨fun _ => [], fun _ _ => rfl, ⟨?_, ?_⟩, ?_⟩ <;> simp [buddyInit, hfree]

/-- Splitting a fresh page. -/
theorem inv_splitPage {kernelEnd page level : ℕ} {state : State} (hlow : 3 ≤ level)
    (hlevel : level < maxLevel) (hfresh : FreshPage kernelEnd state page) (hinv : Inv state) :
    Inv ⟨splitBlock (state.heap.fillPage page) page level, (page, level) :: state.live,
      page :: state.pages⟩ := by
  obtain ⟨free, hshape⟩ := hinv
  obtain ⟨free', hsplit⟩ := (hshape.fillPage hfresh).splitLoop hlow
    (Nat.le_sub_one_of_lt hlevel) (by decide) (Nat.dvd_of_mod_eq_zero hfresh.aligned)
  exact ⟨free', (hsplit.shrink hlow (Nat.le_succ level)).settle_putLevel hlevel⟩

theorem inv_alloc {kernelEnd page level : ℕ} {state : State} (hlow : 3 ≤ level)
    (hhigh : level ≤ 12) (hfresh : FreshPage kernelEnd state page)
    (hguard : SplitsOnlyPages state (.alloc (2 ^ level) page)) (hinv : Inv state) :
    Inv (state.afterAlloc (2 ^ level) page) := by
  have hlevelOf : levelOfBytes (2 ^ level) = level := levelOfBytes_two_pow (by omega)
  simp only [SplitsOnlyPages, hlevelOf] at hguard
  simp only [State.afterAlloc, buddyAlloc, hlevelOf]
  by_cases hmax : level = maxLevel
  · subst hmax
    simp only [if_true]
    obtain ⟨free, hshape⟩ := hinv
    exact ⟨free, (hshape.fillPage hfresh).settle (fill_apply_of_in _ le_rfl (by simp [pgSize]))⟩
  have hlevel : level < maxLevel := lt_of_le_of_ne hhigh hmax
  rw [if_neg hmax]
  by_cases heleven : level = maxLevel - 1
  · subst heleven
    by_cases hhead : state.heap.buddyList (maxLevel - 1) = 0
    · rw [popBlock_eq_none fun i hlo hhi => by
        obtain rfl : i = maxLevel - 1 := by simp only [maxLevel] at *; omega
        exact hhead]
      exact inv_splitPage hlow hlevel hfresh hinv
    · obtain ⟨free, hshape⟩ := hinv
      obtain ⟨rest, -, hpopped⟩ := hshape.pop hlevel rfl hhead
      have hpop : popBlock state.heap (maxLevel - (maxLevel - 1)) (maxLevel - 1) =
          some (state.heap.buddyList (maxLevel - 1),
            { state.heap with
              buddyList := Function.update state.heap.buddyList (maxLevel - 1)
                (state.heap.next (state.heap.buddyList (maxLevel - 1))) }) :=
        if_pos hhead
      rw [hpop]
      exact ⟨_, hpopped.settle_putLevel hlevel⟩
  · have hempty := hguard (lt_of_le_of_ne (Nat.le_sub_one_of_lt hlevel) heleven)
    rw [popBlock_eq_none fun i hlo hhi => hempty i hlo (by omega)]
    exact inv_splitPage hlow hlevel hfresh hinv

/-- The level byte read back by `buddy_free`, and the block it stands for. -/
theorem Shape.freed {heap : Heap} {live : List Block} {pages : List ℕ} {free : ℕ → List ℕ}
    {addr level : ℕ} (hshape : Shape heap [] live pages free) (hlive : (addr, level) ∈ live) :
    (heap.mem addr).toNat < maxLevel ∧
      Shape heap [(addr, (heap.mem addr).toNat)] (live.erase (addr, level)) pages free := by
  have hok := hshape.sound.ok (addr, level) (by simp [hlive])
  have hhand : Shape heap [(addr, level)] (live.erase (addr, level)) pages free := by
    refine ⟨hshape.chain, hshape.sound.perm ?_, fun block hblock =>
      hshape.level block (List.mem_of_mem_erase hblock)⟩
    exact (List.perm_cons_erase hlive).append_right _
  have hbyte : heap.mem addr = levelByte (addr, level) := hshape.level _ hlive
  have hlow : 3 ≤ level := hok.low
  have hhigh : level ≤ 12 := hok.high
  by_cases hmax : level = maxLevel
  · have hfive : (heap.mem addr).toNat = 5 := by simp [hbyte, levelByte, hmax]
    rw [hfive]
    exact ⟨by decide, hhand.shrink (by omega) (by simp only [hmax, maxLevel]; omega)⟩
  · have hsame : (heap.mem addr).toNat = level := by
      simp only [hbyte, levelByte, hmax, if_false, UInt8.toNat_ofNat']
      omega
    rw [hsame]
    exact ⟨lt_of_le_of_ne hhigh hmax, hhand⟩

theorem buddyFree_ok {kernelEnd addr level fuel : ℕ} {state : State} {result : FreeResult}
    (hinv : Inv state) (hlive : (addr, level) ∈ state.live)
    (hfree : buddyFree kernelEnd fuel state.heap addr = some result) :
    result.Ok addr (state.live.erase (addr, level)) state.pages := by
  obtain ⟨free, hshape⟩ := hinv
  obtain ⟨hlt, hhand⟩ := hshape.freed hlive
  rw [buddyFree, if_neg hlt.ne] at hfree
  have hpos : 0 < 2 ^ (state.heap.mem addr).toNat := Nat.two_pow_pos _
  exact freeLoop_ok hlt.le hhand le_rfl (by omega) hfree

theorem inv_step {kernelEnd : ℕ} {before after : State} {action : Action} (hinv : Inv before)
    (hguard : SplitsOnlyPages before action) (hstep : Step kernelEnd before action after) :
    Inv after := by
  cases hstep with
  | alloc hsz hlow hhigh hfresh =>
      subst hsz
      exact inv_alloc hlow hhigh hfresh hguard hinv
  | listed hlive hfree => exact buddyFree_ok hinv hlive hfree
  | returned hlive hfree => exact buddyFree_ok hinv hlive hfree

/-! ## The claim about runs -/

/-- Live blocks are disjoint from each other and from every free block, and the
lists are finite duplicate-free chains of aligned, pairwise disjoint blocks. -/
def WellFormed (state : State) : Prop :=
  state.live.Pairwise Apart ∧
    ∃ free : ℕ → List ℕ,
      (∀ level < maxLevel,
        Chain state.heap.mem (state.heap.buddyList level) (free level) ∧
          (free level).Nodup ∧ ∀ block ∈ free level, 2 ^ level ∣ block) ∧
      (∀ held ∈ state.live, ∀ block ∈ freeBlocks free, Apart held block) ∧
      (freeBlocks free).Pairwise Apart

theorem Inv.wellFormed {state : State} (hinv : Inv state) : WellFormed state := by
  obtain ⟨free, hshape⟩ := hinv
  have hapart : (state.live ++ freeBlocks free).Pairwise Apart := hshape.sound.apart
  obtain ⟨hlive, hfree, hcross⟩ := List.pairwise_append.1 hapart
  exact ⟨hlive, free, fun level hlevel => ⟨hshape.chain level hlevel,
    hshape.nodup_free hlevel, fun block hblock =>
      (hshape.blockOk_of_free hlevel hblock).aligned⟩, hcross, hfree⟩

/-- As long as no popped block is split, every state of every run is well
formed. -/
theorem wellFormed_of_reach {kernelEnd : ℕ} {mem : Mem} {state : State}
    (hreach : Reach (Step kernelEnd) SplitsOnlyPages (buddyInit mem) state) :
    WellFormed state :=
  (hreach.invariant (inv_buddyInit mem) fun _ _ _ hinv hguard hstep =>
    inv_step hinv hguard hstep).wellFormed

/-- The first page of the managed memory in the runs below. -/
def firstPage : ℕ := 0x80300000

theorem wellFormed_oneAlloc :
    WellFormed ((buddyInit fun _ => 0).afterAlloc 8 firstPage) := by
  have hfresh : FreshPage firstPage (buddyInit fun _ => 0) firstPage :=
    ⟨by decide, by decide, by decide, by decide, by decide⟩
  have hstep : Step firstPage (buddyInit fun _ => 0) (.alloc 8 firstPage) _ :=
    Step.alloc (show 8 = 2 ^ 3 from rfl) le_rfl (by decide) hfresh
  have hguard : SplitsOnlyPages (buddyInit fun _ => 0) (.alloc 8 firstPage) :=
    fun _ _ _ _ => rfl
  exact wellFormed_of_reach (Reach.refl.tail hguard hstep)

/-- The run `buddy_alloc(8); buddy_alloc(8)` of one page. -/
def twoAllocs : State :=
  ((buddyInit fun _ => 0).afterAlloc 8 firstPage).afterAlloc 8 (firstPage + pgSize)

theorem reach_twoAllocs :
    Reach (Step firstPage) Unguarded (buddyInit fun _ => 0) twoAllocs := by
  refine (Reach.refl.tail trivial (Step.alloc (show 8 = 2 ^ 3 from rfl) le_rfl (by decide)
    ?_)).tail trivial (Step.alloc (show 8 = 2 ^ 3 from rfl) le_rfl (by decide) ?_)
  · exact ⟨by decide, by decide, by decide, by decide, by decide⟩
  · exact ⟨by decide, by decide, by decide, by decide, by decide⟩

/-- The second eight-byte block is popped from level four and split as if it
were a page: the first block, still live, lands on the list of level four. -/
theorem not_wellFormed_twoAllocs :
    ∃ state, Reach (Step firstPage) Unguarded (buddyInit fun _ => 0) state ∧
      ¬ WellFormed state := by
  refine ⟨twoAllocs, reach_twoAllocs, ?_⟩
  rintro ⟨-, free, hlists, hcross, -⟩
  have hhead : twoAllocs.heap.buddyList 4 = firstPage := by decide
  have hchain := (hlists 4 (by decide)).1
  rw [hhead] at hchain
  have hfree : firstPage ∈ free 4 := by
    cases hlist : free 4 with
    | nil =>
        rw [hlist] at hchain
        exact absurd hchain (show firstPage ≠ 0 by decide)
    | cons first rest =>
        rw [hlist] at hchain
        exact hchain.1 ▸ List.mem_cons_self
  have hlive : (firstPage, 3) ∈ twoAllocs.live := by decide
  have hapart := hcross _ hlive (firstPage, 4) (mem_freeBlocks.2 ⟨by decide, hfree⟩)
  simp [Apart] at hapart

end Painting.Buddy
