import Painting.Mm.BuddyInvariant

/-!
# `kalloc` and `kfree` on top of the buddy allocator

In `DEFAULT` mode `kalloc` adds a header of eight bytes to the request, rounds
the sum up to a power of two and asks `buddy_alloc` for that many bytes.  Only a
request for exactly one page takes the whole-page path, and a request for more
than that is neither refused nor recognised.  `kfree` finds the level of the
block in its header, where the whole-page path never put it.
-/

namespace Painting.Buddy

open Painting.Memory

/-! ## The code -/

/-- `ALIGN`: the size of the header. -/
def headerSize : ℕ := 8

/-- `is_pow_of_2` on a 64-bit argument, true of zero as well. -/
def IsPowOf2 (x : ℕ) : Prop := x &&& (x + (2 ^ 64 - 1)) % 2 ^ 64 = 0

instance (x : ℕ) : Decidable (IsPowOf2 x) := inferInstanceAs (Decidable (_ = _))

/-- `nbytes |= nbytes >> count`. -/
def smear (nbytes count : ℕ) : ℕ := nbytes ||| nbytes >>> count

/-- `next_pow_of_2` on a 64-bit argument. -/
def nextPowOf2 (nbytes : ℕ) : ℕ :=
  if IsPowOf2 nbytes then nbytes
  else
    (smear (smear (smear (smear (smear (smear nbytes 1) 2) 4) 8) 16) 32 + 1) % 2 ^ 64

/-- A store through a null pointer, which the kernel page table does not map. -/
inductive Fault
  | nullStore

/-- `buddy_alloc` together with the call of `kpmalloc`, which has no page left
when `page` is `none`.  The failed assertion about the page is only logged. -/
def buddyAllocFrom (heap : Heap) (sz : ℕ) : Option ℕ → Except Fault (ℕ × Heap)
  | some page => .ok ((buddyAlloc heap sz page).block, (buddyAlloc heap sz page).heap)
  | none =>
      if levelOfBytes sz = maxLevel then .ok (0, heap)
      else
        match popBlock heap (maxLevel - levelOfBytes sz) (levelOfBytes sz) with
        | some (block, popped) => .ok (block, splitBlock popped block (levelOfBytes sz))
        | none => .error .nullStore

/-- `if (ptr == NULL) return NULL; return FTRP(ptr);` -/
def pastHeader (result : ℕ × Heap) : ℕ × Heap :=
  if result.1 = 0 then result else (result.1 + headerSize, result.2)

/-- `kalloc(size, DEFAULT)`, with 0 for the null pointer. -/
def kallocDefault (heap : Heap) (size : ℕ) (page : Option ℕ) : Except Fault (ℕ × Heap) :=
  if size = 0 then .ok (0, heap)
  else
    let need := (size + headerSize) % 2 ^ 64
    if need < size then .ok (0, heap)
    else (buddyAllocFrom heap (nextPowOf2 need) page).map pastHeader

/-- `buddy_free` once it has read the level. -/
def buddyFreeAt (kernelEnd fuel : ℕ) (heap : Heap) (addr level : ℕ) : Option FreeResult :=
  if level = maxLevel then some (kpmfree kernelEnd heap addr)
  else freeLoop kernelEnd addr fuel heap addr level

inductive KfreeResult
  /-- A null pointer is not freed. -/
  | ignored
  /-- `panic("kfree: invalid buddy level")`. -/
  | invalidLevel
  | freed (result : FreeResult)

/-- The `memset` of `kfree`: nothing is scrubbed in a block that is all header. -/
def scrub (mem : Mem) (addr level : ℕ) : Mem :=
  if headerSize < 2 ^ level then fill mem addr 0xc (2 ^ level - headerSize) else mem

/-- `kfree(addr, DEFAULT)`. -/
def kfreeDefault (kernelEnd fuel : ℕ) (heap : Heap) (addr : ℕ) : Option KfreeResult :=
  if addr = 0 then some .ignored
  else
    let level := (heap.mem (addr - headerSize)).toNat
    if maxLevel < level then some .invalidLevel
    else
      (buddyFree kernelEnd fuel { heap with mem := scrub heap.mem addr level }
        (addr - headerSize)).map .freed

/-! ## Rounding up -/

/-- The bits from `top` down are set, `width` of them at least, and none above. -/
structure TopOnes (nbytes top width : ℕ) : Prop where
  lt : nbytes < 2 ^ (top + 1)
  ones : ∀ i ≤ top, top < i + width → nbytes.testBit i = true

theorem TopOnes.smear {nbytes top width count : ℕ} (hones : TopOnes nbytes top width)
    (hcount : count ≤ width) : TopOnes (smear nbytes count) top (width + count) := by
  refine ⟨Nat.or_lt_two_pow hones.lt ?_, fun i hi hwidth => ?_⟩
  · exact (Nat.shiftRight_le _ _).trans_lt hones.lt
  · rw [Buddy.smear, Nat.testBit_or, Nat.testBit_shiftRight, Bool.or_eq_true]
    by_cases hlow : top < i + width
    · exact Or.inl (hones.ones i hi hlow)
    · exact Or.inr (hones.ones (count + i) (by omega) (by omega))

theorem TopOnes.eq {nbytes top width : ℕ} (hones : TopOnes nbytes top width)
    (hwidth : top < width) : nbytes = 2 ^ (top + 1) - 1 := by
  apply Nat.eq_of_testBit_eq
  intro i
  rw [Nat.testBit_two_pow_sub_one]
  by_cases hi : i < top + 1
  · rw [hones.ones i (by omega) (by omega), decide_eq_true hi]
  · rw [decide_eq_false hi]
    refine Nat.testBit_lt_two_pow (hones.lt.trans_le ?_)
    exact Nat.pow_le_pow_right (by omega) (by omega)

theorem topOnes_log2 {nbytes : ℕ} (hne : nbytes ≠ 0) : TopOnes nbytes nbytes.log2 1 := by
  refine ⟨Nat.lt_log2_self, fun i hi hlow => ?_⟩
  obtain rfl : i = nbytes.log2 := by omega
  exact Nat.testBit_log2 hne

theorem isPowOf2_iff {x : ℕ} (hpos : 0 < x) (hlt : x < 2 ^ 64) :
    IsPowOf2 x ↔ x.isPowerOfTwo := by
  have hpred : (x + (2 ^ 64 - 1)) % 2 ^ 64 = x - 1 := by omega
  rw [IsPowOf2, hpred]
  exact Nat.and_sub_one_eq_zero_iff_isPowerOfTwo (by omega)

/-- `next_pow_of_2` rounds up to the next power of two, and to zero where that
does not fit. -/
theorem nextPowOf2_eq {nbytes : ℕ} (hpos : 0 < nbytes) (hlt : nbytes < 2 ^ 64) :
    nextPowOf2 nbytes = 2 ^ Nat.clog 2 nbytes % 2 ^ 64 := by
  rw [nextPowOf2]
  split
  · rename_i hpow
    rw [isPowOf2_iff hpos hlt] at hpow
    obtain ⟨level, rfl⟩ := hpow
    rw [Nat.clog_pow 2 level (by omega), Nat.mod_eq_of_lt hlt]
  · rename_i hpow
    rw [isPowOf2_iff hpos hlt] at hpow
    have hones := ((((((topOnes_log2 hpos.ne').smear le_rfl).smear le_rfl).smear le_rfl).smear
      le_rfl).smear le_rfl).smear le_rfl
    have htop : nbytes.log2 < 64 := (Nat.log2_lt hpos.ne').mpr hlt
    rw [hones.eq htop]
    have hclog : Nat.clog 2 nbytes = nbytes.log2 + 1 := by
      refine le_antisymm (Nat.clog_le_of_le_pow Nat.lt_log2_self.le) ?_
      rw [Nat.succ_le_iff, Nat.lt_clog_iff_pow_lt (by omega)]
      refine lt_of_le_of_ne (Nat.log2_self_le hpos.ne') fun heq => hpow ⟨_, heq.symm⟩
    rw [hclog, Nat.sub_add_cancel Nat.one_le_two_pow]

theorem levelOfBytes_zero : levelOfBytes 0 = 0 := rfl

theorem nextPowOf2_eq_clog {nbytes : ℕ} (hpos : 1 ≤ nbytes) (hle : nbytes ≤ 2 ^ 63) :
    nextPowOf2 nbytes = 2 ^ Nat.clog 2 nbytes := by
  have hpow : 2 ^ Nat.clog 2 nbytes ≤ 2 ^ 63 :=
    Nat.pow_le_pow_right (by decide) (Nat.clog_le_of_le_pow hle)
  rw [nextPowOf2_eq hpos (hle.trans_lt (by decide)), Nat.mod_eq_of_lt (hpow.trans_lt (by decide))]

theorem clog_isLeast (nbytes : ℕ) : IsLeast {level | nbytes ≤ 2 ^ level} (Nat.clog 2 nbytes) :=
  ⟨Nat.le_pow_clog (by decide) nbytes, fun _ hlevel => Nat.clog_le_of_le_pow hlevel⟩

/-- `next_pow_of_2` gives the least power of two that is not below its argument, its level is the
least one at which the argument fits, and `level_of_bytes` inverts the powers of two. -/
theorem nextPowOf2_isLeast {nbytes : ℕ} (hpos : 1 ≤ nbytes) (hle : nbytes ≤ 2 ^ 63) :
    IsLeast {power | power.isPowerOfTwo ∧ nbytes ≤ power} (nextPowOf2 nbytes) ∧
      (nbytes ≤ pgSize →
        IsLeast {level | nbytes ≤ 2 ^ level} (levelOfBytes (nextPowOf2 nbytes))) ∧
      ∀ level ≤ 63, levelOfBytes (2 ^ level) = level := by
  have hclog : Nat.clog 2 nbytes ≤ 63 := Nat.clog_le_of_le_pow hle
  rw [nextPowOf2_eq_clog hpos hle]
  refine ⟨⟨⟨⟨_, rfl⟩, (clog_isLeast nbytes).1⟩, ?_⟩, fun _ => ?_, fun level hlevel => ?_⟩
  · intro power hpower
    obtain ⟨⟨level, rfl⟩, hfits⟩ := hpower
    exact Nat.pow_le_pow_right (by decide) ((clog_isLeast nbytes).2 hfits)
  · rw [levelOfBytes_two_pow hclog]
    exact clog_isLeast nbytes
  · exact levelOfBytes_two_pow hlevel

theorem nextPowOf2_isLeast_elfHeader :
    nextPowOf2 72 = 128 ∧
      IsLeast {level | 72 ≤ 2 ^ level} (levelOfBytes (nextPowOf2 72)) :=
  ⟨by decide, (nextPowOf2_isLeast (by decide) (by decide)).2.1 (by decide)⟩

/-- The level at which `kalloc` asks for a request of `size` bytes. -/
def requestLevel (size : ℕ) : ℕ := levelOfBytes (nextPowOf2 (size + headerSize))

theorem requestLevel_eq {size : ℕ} (hlt : size + headerSize ≤ 2 ^ 63) :
    requestLevel size = Nat.clog 2 (size + headerSize) := by
  have hclog : Nat.clog 2 (size + headerSize) ≤ 63 := Nat.clog_le_of_le_pow hlt
  rw [requestLevel, nextPowOf2_eq_clog (by simp [headerSize]) hlt, levelOfBytes_two_pow hclog]

theorem requestLevel_of_huge {size : ℕ} (hlo : 2 ^ 63 < size + headerSize)
    (hhi : size + headerSize < 2 ^ 64) : requestLevel size = 0 := by
  have hclog : Nat.clog 2 (size + headerSize) = 64 := by
    refine le_antisymm (Nat.clog_le_of_le_pow hhi.le) ?_
    rwa [Nat.succ_le_iff, Nat.lt_clog_iff_pow_lt (by omega)]
  rw [requestLevel, nextPowOf2_eq (by omega) hhi, hclog, Nat.mod_self, levelOfBytes_zero]

theorem fits_requestLevel {size : ℕ} (hlt : size + headerSize ≤ 2 ^ 63) :
    size + headerSize ≤ 2 ^ requestLevel size := by
  rw [requestLevel_eq hlt]
  exact Nat.le_pow_clog (by omega) _

theorem requestLevel_le_iff {size : ℕ} (hlt : size + headerSize ≤ 2 ^ 63) :
    requestLevel size ≤ maxLevel ↔ size + headerSize ≤ pgSize := by
  rw [requestLevel_eq hlt]
  exact Nat.clog_le_iff_le_pow (by omega)

theorem requestLevel_lt_iff {size : ℕ} (hlt : size + headerSize ≤ 2 ^ 63) :
    requestLevel size < maxLevel ↔ size + headerSize ≤ pgSize / 2 := by
  rw [requestLevel_eq hlt, maxLevel, Nat.lt_succ_iff]
  exact Nat.clog_le_iff_le_pow (by omega)

/-! ## Requests and blocks -/

theorem popBlock_spec {heap popped : Heap} {count level block : ℕ}
    (hpop : popBlock heap count level = some (block, popped)) :
    ∃ i, level ≤ i ∧ i < level + count ∧ heap.buddyList i = block ∧ block ≠ 0 := by
  induction count generalizing level with
  | zero => cases hpop
  | succ count ih =>
      rw [popBlock] at hpop
      split at hpop
      · rename_i hne
        cases hpop
        exact ⟨level, le_rfl, by omega, rfl, hne⟩
      · obtain ⟨i, hlo, hhi, hhead⟩ := ih hpop
        exact ⟨i, by omega, by omega, hhead⟩

theorem popBlock_isSome {heap : Heap} {count level i : ℕ} (hlo : level ≤ i)
    (hhi : i < level + count) (hne : heap.buddyList i ≠ 0) :
    (popBlock heap count level).isSome := by
  induction count generalizing level with
  | zero => omega
  | succ count ih =>
      rw [popBlock]
      split
      · rfl
      · rename_i hempty
        rw [not_not] at hempty
        have hlt : level ≠ i := by
          rintro rfl
          exact hne hempty
        exact ih (by omega) (by omega)

/-- The block comes off a list of at least the given level, or is the page that
`kpmalloc` gives out. -/
def SetAside (heap : Heap) (page : Option ℕ) (level block : ℕ) : Prop :=
  (∃ i, level ≤ i ∧ i < maxLevel ∧ heap.buddyList i = block) ∨ page = some block

/-- Some list from the given level up has a block, or `kpmalloc` has a page. -/
def HasBlock (heap : Heap) (page : Option ℕ) (level : ℕ) : Prop :=
  page.isSome ∨ ∃ i, level ≤ i ∧ i < maxLevel ∧ heap.buddyList i ≠ 0

/-- What `buddy_alloc` comes back with, if it does. -/
theorem buddyAllocFrom_ok {heap after : Heap} {sz block : ℕ} {page : Option ℕ}
    (hpage : page ≠ some 0) (hok : buddyAllocFrom heap sz page = .ok (block, after)) :
    block = 0 ∧ levelOfBytes sz = maxLevel ∨
      block ≠ 0 ∧ SetAside heap page (levelOfBytes sz) block := by
  have hpopped : ∀ popped, popBlock heap (maxLevel - levelOfBytes sz) (levelOfBytes sz) =
      some (block, popped) → block ≠ 0 ∧ SetAside heap page (levelOfBytes sz) block := by
    intro popped hpop
    obtain ⟨i, hlo, hhi, hhead, hne⟩ := popBlock_spec hpop
    exact ⟨hne, Or.inl ⟨i, hlo, by omega, hhead⟩⟩
  cases page with
  | none =>
      rw [buddyAllocFrom] at hok
      split at hok
      · rename_i hmax
        cases hok
        exact Or.inl ⟨rfl, hmax⟩
      · split at hok
        · rename_i popped hpop
          cases hok
          exact Or.inr (hpopped popped hpop)
        · cases hok
  | some page =>
      have hne : page ≠ 0 := fun hzero => hpage (congrArg some hzero)
      simp only [buddyAllocFrom, Except.ok.injEq, Prod.mk.injEq, buddyAlloc] at hok
      obtain ⟨hblock, -⟩ := hok
      refine Or.inr ?_
      split at hblock
      · subst hblock
        exact ⟨hne, Or.inr rfl⟩
      · split at hblock
        · rename_i popped hpop
          subst hblock
          exact hpopped popped hpop
        · subst hblock
          exact ⟨hne, Or.inr rfl⟩

/-- `buddy_alloc` comes back unless it needs a page that is not there. -/
theorem buddyAllocFrom_isOk_iff {heap : Heap} {sz : ℕ} {page : Option ℕ} :
    (∃ result, buddyAllocFrom heap sz page = .ok result) ↔
      levelOfBytes sz = maxLevel ∨ HasBlock heap page (levelOfBytes sz) := by
  cases page with
  | some page =>
      constructor
      · intro _
        exact Or.inr (Or.inl rfl)
      · intro _
        exact ⟨_, rfl⟩
  | none =>
      rw [buddyAllocFrom]
      split
      · rename_i hmax
        exact ⟨fun _ => Or.inl hmax, fun _ => ⟨_, rfl⟩⟩
      · rename_i hmax
        constructor
        · rintro ⟨result, hok⟩
          split at hok
          · rename_i popped hpop
            obtain ⟨i, hlo, hhi, rfl, hne⟩ := popBlock_spec hpop
            exact Or.inr (Or.inr ⟨i, hlo, by omega, hne⟩)
          · cases hok
        · rintro (hmax' | hpage | ⟨i, hlo, hhi, hne⟩)
          · exact absurd hmax' hmax
          · cases hpage
          · have hsome : (popBlock heap (maxLevel - levelOfBytes sz) (levelOfBytes sz)).isSome :=
              popBlock_isSome hlo (by omega) hne
            obtain ⟨⟨block, popped⟩, hpop⟩ := Option.isSome_iff_exists.mp hsome
            rw [hpop]
            exact ⟨_, rfl⟩

/-- `kalloc` is past its two checks. -/
theorem kallocDefault_eq {heap : Heap} {size : ℕ} {page : Option ℕ} (hpos : 0 < size)
    (hlt : size + headerSize < 2 ^ 64) :
    kallocDefault heap size page =
      (buddyAllocFrom heap (nextPowOf2 (size + headerSize)) page).map pastHeader := by
  rw [kallocDefault, if_neg hpos.ne']
  dsimp only
  rw [Nat.mod_eq_of_lt hlt, if_neg (by omega)]

/-- A pointer from `kalloc` is eight bytes into the block that was set aside. -/
theorem kallocDefault_ok {heap after : Heap} {size p : ℕ} {page : Option ℕ}
    (hpage : page ≠ some 0) (hpos : 0 < size) (hlt : size + headerSize < 2 ^ 64)
    (hok : kallocDefault heap size page = .ok (p, after)) :
    ∃ block, buddyAllocFrom heap (nextPowOf2 (size + headerSize)) page = .ok (block, after) ∧
      (p = 0 ∧ requestLevel size = maxLevel ∨
        p = block + headerSize ∧ block ≠ 0 ∧
          SetAside heap page (requestLevel size) block) := by
  rw [kallocDefault_eq hpos hlt] at hok
  cases hres : buddyAllocFrom heap (nextPowOf2 (size + headerSize)) page with
  | error fault =>
      rw [hres] at hok
      cases hok
  | ok result =>
      obtain ⟨block, heap'⟩ := result
      rw [hres] at hok
      have hpair : pastHeader (block, heap') = (p, after) := Except.ok.inj hok
      rw [pastHeader] at hpair
      obtain ⟨rfl, hmax⟩ | ⟨hne, hset⟩ := buddyAllocFrom_ok hpage hres
      · rw [if_pos rfl] at hpair
        obtain ⟨rfl, rfl⟩ := Prod.mk.inj hpair
        exact ⟨0, rfl, Or.inl ⟨rfl, hmax⟩⟩
      · rw [if_neg hne] at hpair
        obtain ⟨rfl, rfl⟩ := Prod.mk.inj hpair
        exact ⟨block, rfl, Or.inr ⟨rfl, hne, hset⟩⟩

theorem kallocDefault_isOk_iff {heap : Heap} {size : ℕ} {page : Option ℕ} (hpos : 0 < size)
    (hlt : size + headerSize < 2 ^ 64) :
    (∃ result, kallocDefault heap size page = .ok result) ↔
      requestLevel size = maxLevel ∨ HasBlock heap page (requestLevel size) := by
  rw [requestLevel, ← buddyAllocFrom_isOk_iff, kallocDefault_eq hpos hlt]
  cases buddyAllocFrom heap (nextPowOf2 (size + headerSize)) page with
  | error fault =>
      constructor
      · rintro ⟨result, hok⟩
        cases hok
      · rintro ⟨result, hok⟩
        cases hok
  | ok result => exact ⟨fun _ => ⟨_, rfl⟩, fun _ => ⟨_, rfl⟩⟩

/-- The call returns NULL, or a pointer to `size` bytes inside one block, of at
most a page, that the allocator set aside for the request. -/
def InsideBlock (heap : Heap) (page : Option ℕ) (size : ℕ)
    (outcome : Except Fault (ℕ × Heap)) : Prop :=
  ∃ p after, outcome = .ok (p, after) ∧
    (p = 0 ∨ requestLevel size ≤ maxLevel ∧ ∃ block,
      SetAside heap page (requestLevel size) block ∧
        block ≤ p ∧ p + size ≤ block + 2 ^ requestLevel size)

theorem insideBlock_of_fits {heap : Heap} {size : ℕ} {page : Option ℕ} (hpage : page ≠ some 0)
    (hpos : 0 < size) (hfits : size + headerSize ≤ pgSize)
    (hblock : requestLevel size = maxLevel ∨ HasBlock heap page (requestLevel size)) :
    InsideBlock heap page size (kallocDefault heap size page) := by
  have hhalf : size + headerSize ≤ 2 ^ 63 := hfits.trans (by decide)
  have hlt : size + headerSize < 2 ^ 64 := hhalf.trans_lt (by decide)
  obtain ⟨⟨p, after⟩, hok⟩ := (kallocDefault_isOk_iff hpos hlt).mpr hblock
  refine ⟨p, after, hok, ?_⟩
  obtain ⟨block, -, ⟨rfl, -⟩ | ⟨rfl, -, hset⟩⟩ := kallocDefault_ok hpage hpos hlt hok
  · exact Or.inl rfl
  · refine Or.inr ⟨(requestLevel_le_iff hhalf).mpr hfits, block, hset, Nat.le_add_right _ _, ?_⟩
    have hroom := fits_requestLevel hhalf
    omega

/-- A request that does not fit in a page is not refused, and no block is large
enough for it. -/
theorem not_insideBlock_of_large {heap : Heap} {size : ℕ} {page : Option ℕ}
    (hpage : page ≠ some 0) (hlarge : pgSize < size + headerSize)
    (hlt : size + headerSize < 2 ^ 64) :
    ¬ InsideBlock heap page size (kallocDefault heap size page) := by
  rintro ⟨p, after, hok, hinside⟩
  have hpos : 0 < size := by
    simp only [pgSize, headerSize] at hlarge
    omega
  -- Requests above half the address space wrap around to level zero.
  have hlevel : requestLevel size ≤ maxLevel → requestLevel size = 0 := by
    intro hle
    rcases Nat.lt_or_ge (2 ^ 63) (size + headerSize) with hhuge | hhalf
    · exact requestLevel_of_huge hhuge hlt
    · exact absurd ((requestLevel_le_iff hhalf).mp hle) (by omega)
  obtain ⟨block, -, ⟨rfl, hmax⟩ | ⟨rfl, -, hset⟩⟩ := kallocDefault_ok hpage hpos hlt hok
  · rw [hlevel hmax.le] at hmax
    cases hmax
  · obtain hzero | ⟨hle, other, -, hlo, hhi⟩ := hinside
    · simp [headerSize] at hzero
    · rw [hlevel hle] at hhi
      simp only [pgSize, headerSize] at *
      omega

/-- The request is answered from one block exactly when it is empty, does not
leave room for the header in a word, or fits in a page with it and a block for
it is there: only whole pages are refused when memory is short. -/
theorem kalloc_insideBlock_iff {heap : Heap} {size : ℕ} {page : Option ℕ}
    (hsize : size < 2 ^ 64) (hpage : page ≠ some 0) :
    InsideBlock heap page size (kallocDefault heap size page) ↔
      size = 0 ∨ 2 ^ 64 ≤ size + 8 ∨
        size ≤ 4088 ∧ (2040 < size ∨ HasBlock heap page (Nat.clog 2 (size + 8))) := by
  rcases Nat.eq_zero_or_pos size with rfl | hpos
  · refine ⟨fun _ => Or.inl rfl, fun _ => ⟨0, heap, rfl, Or.inl rfl⟩⟩
  rcases Nat.lt_or_ge (size + 8) (2 ^ 64) with hlt | hover
  · have hiff : size ≤ 4088 ↔ size + headerSize ≤ pgSize := by
      simp only [headerSize, pgSize]
      omega
    constructor
    · intro hinside
      refine Or.inr (Or.inr ?_)
      have hfits : size + headerSize ≤ pgSize := by
        by_contra hlarge
        exact not_insideBlock_of_large hpage (not_le.mp hlarge) hlt hinside
      have hhalf : size + headerSize ≤ 2 ^ 63 := hfits.trans (by decide)
      refine ⟨hiff.mpr hfits, ?_⟩
      obtain ⟨p, after, hok, -⟩ := hinside
      obtain hmax | hblock := (kallocDefault_isOk_iff hpos hlt).mp ⟨_, hok⟩
      · left
        by_contra hsmall
        have := (requestLevel_lt_iff hhalf).mpr (by simp only [headerSize, pgSize]; omega)
        omega
      · rw [requestLevel_eq hhalf] at hblock
        exact Or.inr hblock
    · rintro (hzero | hover | ⟨hle, hblock⟩)
      · omega
      · omega
      · have hfits := hiff.mp hle
        have hhalf : size + headerSize ≤ 2 ^ 63 := hfits.trans (by decide)
        refine insideBlock_of_fits hpage hpos hfits ?_
        obtain hlarge | hblock := hblock
        · left
          refine le_antisymm ((requestLevel_le_iff hhalf).mpr hfits) (not_lt.mp fun hlow => ?_)
          have := (requestLevel_lt_iff hhalf).mp hlow
          simp only [headerSize, pgSize] at this
          omega
        · rw [requestLevel_eq hhalf]
          exact Or.inr hblock
  · refine ⟨fun _ => Or.inr (Or.inl hover), fun _ => ⟨0, heap, ?_, Or.inl rfl⟩⟩
    rw [kallocDefault, if_neg hpos.ne']
    dsimp only
    rw [if_pos (by simp only [headerSize]; omega)]

/-- No block is on any list. -/
def emptyHeap : Heap := ⟨fun _ => 0, fun _ => 0⟩

theorem insideBlock_argbuf :
    InsideBlock emptyHeap (some firstPage) 2048
      (kallocDefault emptyHeap 2048 (some firstPage)) :=
  (kalloc_insideBlock_iff (by decide) (by decide)).mpr
    (Or.inr (Or.inr ⟨by decide, Or.inl (by decide)⟩))

/-- One byte more than fits: the caller gets a page for 4089 bytes behind a
header of eight. -/
theorem not_insideBlock_largerThanPage :
    ¬ InsideBlock emptyHeap (some firstPage) 4089
      (kallocDefault emptyHeap 4089 (some firstPage)) :=
  not_insideBlock_of_large (by decide) (by decide) (by decide)

/-! ## Freeing what `kalloc` returned -/

/-- Whatever the owner wrote to its bytes, `kfree` and `buddy_free` read back the
level of the block, scrub only bytes of the block, and go on with exactly this
block. -/
def Undone (kernelEnd : ℕ) (after : Heap) (size p level : ℕ) : Prop :=
  ∀ mem, ChangesIn after.mem mem p (p + size) →
    (mem (p - headerSize)).toNat = level ∧
      ∃ scrubbed, ChangesIn mem scrubbed p (p - headerSize + 2 ^ level) ∧
        ∀ fuel, kfreeDefault kernelEnd fuel { after with mem := mem } p =
          (buddyFreeAt kernelEnd fuel { after with mem := scrubbed } (p - headerSize) level).map
            .freed

theorem scrub_changesIn (mem : Mem) (addr level : ℕ) :
    ChangesIn mem (scrub mem addr level) addr (addr - headerSize + 2 ^ level) := by
  intro x hx
  rw [scrub]
  split
  · rename_i hroom
    exact fill_apply_of_out mem (by omega)
  · rfl

/-- With the right level in the header `kfree` undoes `kalloc`. -/
theorem undone_of_header {kernelEnd size p level : ℕ} {after : Heap}
    (hp : headerSize < p) (hlevel : level ≤ maxLevel)
    (hheader : (after.mem (p - headerSize)).toNat = level) :
    Undone kernelEnd after size p level := by
  have height : headerSize = 8 := rfl
  intro mem hwrites
  have hbyte : (mem (p - headerSize)).toNat = level := by
    rw [hwrites _ (Or.inl (by omega)), hheader]
  refine ⟨hbyte, scrub mem p level, scrub_changesIn mem p level, fun fuel => ?_⟩
  have hkept : (scrub mem p level (p - headerSize)).toNat = level := by
    rw [scrub_changesIn mem p level _ (Or.inl (by omega)), hbyte]
  rw [kfreeDefault, if_neg (by omega)]
  dsimp only
  rw [hbyte, if_neg (not_lt.mpr hlevel), buddyFree]
  dsimp only
  rw [hkept, buddyFreeAt]

/-- Below a page `buddy_alloc` leaves the level in the header. -/
theorem buddyAllocFrom_header {heap after : Heap} {sz block : ℕ} {page : Option ℕ}
    (hlevel : levelOfBytes sz < maxLevel)
    (hok : buddyAllocFrom heap sz page = .ok (block, after)) :
    (after.mem block).toNat = levelOfBytes sz := by
  have hput : ∀ split : Heap, ((split.putLevel block (levelOfBytes sz)).mem block).toNat =
      levelOfBytes sz := by
    intro split
    have hsmall : levelOfBytes sz < 256 := hlevel.trans (by decide)
    simp [Heap.putLevel, store, Nat.mod_eq_of_lt hsmall]
  cases page with
  | none =>
      rw [buddyAllocFrom, if_neg hlevel.ne] at hok
      split at hok
      · cases hok
        exact hput _
      · cases hok
  | some page =>
      simp only [buddyAllocFrom, Except.ok.injEq, Prod.mk.injEq, buddyAlloc,
        if_neg hlevel.ne] at hok
      cases hpop : popBlock heap (maxLevel - levelOfBytes sz) (levelOfBytes sz) with
      | none =>
          rw [hpop] at hok
          obtain ⟨rfl, rfl⟩ := hok
          exact hput _
      | some result =>
          rw [hpop] at hok
          obtain ⟨rfl, rfl⟩ := hok
          exact hput _

/-- A whole page keeps the filling of `kpmalloc` in its header. -/
theorem buddyAllocFrom_page {heap after : Heap} {sz block : ℕ} {page : Option ℕ}
    (hlevel : levelOfBytes sz = maxLevel) (hne : block ≠ 0)
    (hok : buddyAllocFrom heap sz page = .ok (block, after)) :
    (after.mem block).toNat = 5 := by
  cases page with
  | none =>
      rw [buddyAllocFrom, if_pos hlevel] at hok
      cases hok
      exact absurd rfl hne
  | some page =>
      simp only [buddyAllocFrom, Except.ok.injEq, Prod.mk.injEq, buddyAlloc,
        if_pos hlevel] at hok
      obtain ⟨rfl, rfl⟩ := hok
      simp only [Heap.fillPage]
      rw [fill_apply_of_in _ le_rfl (by simp [pgSize])]
      rfl

/-- `kfree` undoes `kalloc` exactly for the blocks below page size. -/
theorem kfree_undoes_kalloc_iff {kernelEnd size p : ℕ} {heap after : Heap} {page : Option ℕ}
    (hpage : page ≠ some 0) (hpos : 0 < size) (hsize : size ≤ 4088)
    (halloc : kallocDefault heap size page = .ok (p, after)) (hp : p ≠ 0) :
    Undone kernelEnd after size p (requestLevel size) ↔ size ≤ 2040 := by
  have hfits : size + headerSize ≤ pgSize := by
    simp only [headerSize, pgSize]
    omega
  have hhalf : size + headerSize ≤ 2 ^ 63 := hfits.trans (by decide)
  have hlt : size + headerSize < 2 ^ 64 := hhalf.trans_lt (by decide)
  have hle := (requestLevel_le_iff hhalf).mpr hfits
  have hlow : requestLevel size < maxLevel ↔ size ≤ 2040 := by
    rw [requestLevel_lt_iff hhalf]
    simp only [headerSize, pgSize]
    omega
  obtain ⟨block, hblock, ⟨hzero, -⟩ | ⟨rfl, hne, -⟩⟩ := kallocDefault_ok hpage hpos hlt halloc
  · exact absurd hzero hp
  constructor
  · intro hundone
    rw [← hlow]
    refine lt_of_le_of_ne hle fun hmax => ?_
    have hread := (hundone after.mem (ChangesIn.refl _ _ _)).1
    rw [Nat.add_sub_cancel, buddyAllocFrom_page hmax hne hblock, hmax] at hread
    exact absurd hread (by decide)
  · intro hsmall
    have hheader := buddyAllocFrom_header (hlow.mpr hsmall) hblock
    refine undone_of_header (by omega) hle ?_
    rw [Nat.add_sub_cancel]
    exact hheader

theorem kalloc_small :
    kallocDefault emptyHeap 8 (some firstPage) =
      .ok (firstPage + 8, splitBlock (emptyHeap.fillPage firstPage) firstPage 4) := by
  rfl

theorem undone_small :
    Undone firstPage (splitBlock (emptyHeap.fillPage firstPage) firstPage 4) 8 (firstPage + 8)
      (requestLevel 8) :=
  (kfree_undoes_kalloc_iff (by decide) (by decide) (by decide) kalloc_small (by decide)).mpr
    (by decide)

/-- The buffer of `sys_exec` is a whole page, whose header `kfree` reads as level
five. -/
theorem not_undone_argbuf :
    kallocDefault emptyHeap 2048 (some firstPage) =
        .ok (firstPage + 8, emptyHeap.fillPage firstPage) ∧
      ¬ Undone firstPage (emptyHeap.fillPage firstPage) 2048 (firstPage + 8)
        (requestLevel 2048) := by
  refine ⟨rfl, fun hundone => ?_⟩
  have hread := (hundone _ (ChangesIn.refl _ _ _)).1
  exact absurd hread (by decide)

end Painting.Buddy
