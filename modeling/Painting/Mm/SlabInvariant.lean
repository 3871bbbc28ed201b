import Painting.Mm.Slab

/-!
# Objects of a slab cache

A slot whose bitmap bit is set is in use.  Allocation takes a slot that was not in use
and leaves the others, and freeing an object of the newest page clears its bit only.
The bits behind the last slot of a page are set from the start.
-/

namespace Painting.Slab

open Painting.Memory

/-! ## Bits -/

/-- Bit `i` of a loaded word lies in byte `i / 8`. -/
theorem testBit_load (mem : Mem) (addr : ℕ) {width i : ℕ} (hi : i < 8 * width) :
    (load mem addr width).testBit i = (mem (addr + i / 8)).toNat.testBit (i % 8) := by
  rw [← load_div mem addr (show i / 8 < width by omega), show 256 = 2 ^ 8 by rfl,
    Nat.testBit_mod_two_pow, ← pow_mul, Nat.testBit_div_two_pow]
  rw [decide_eq_true (Nat.mod_lt i (by decide)), Bool.true_and]
  congr 1
  omega

theorem and_one_shift {num pos : ℕ} : num &&& 1 <<< pos = 0 ↔ num.testBit pos = false := by
  rw [Nat.one_shiftLeft, Nat.and_two_pow]
  cases num.testBit pos <;> simp

theorem findLowestZeroBit_some {num pos width off : ℕ}
    (hfound : findLowestZeroBit num pos width = some off) :
    pos ≤ off ∧ off < pos + width ∧ num.testBit off = false := by
  induction width generalizing pos with
  | zero => cases hfound
  | succ width ih =>
      rw [findLowestZeroBit] at hfound
      split at hfound
      · rename_i hzero
        obtain rfl := Option.some.inj hfound
        exact ⟨le_rfl, by omega, and_one_shift.mp hzero⟩
      · obtain ⟨hlo, hhi, hbit⟩ := ih hfound
        exact ⟨by omega, by omega, hbit⟩

theorem findLowestZeroBit_none {num pos width : ℕ}
    (hnone : findLowestZeroBit num pos width = none) :
    ∀ i, pos ≤ i → i < pos + width → num.testBit i = true := by
  induction width generalizing pos with
  | zero =>
      intro i hlo hhi
      omega
  | succ width ih =>
      rw [findLowestZeroBit] at hnone
      split at hnone
      · cases hnone
      · rename_i hone
        rw [and_one_shift, Bool.not_eq_false] at hone
        intro i hlo hhi
        by_cases hi : i = pos
        · rw [hi, hone]
        · exact ih hnone i (by omega) (by omega)

theorem eq_ones {num : ℕ} (hnum : num < 2 ^ 64) (hall : ∀ i < 64, num.testBit i = true) :
    num = ones := by
  apply Nat.eq_of_testBit_eq
  intro i
  rw [ones, Nat.testBit_two_pow_sub_one]
  by_cases hi : i < 64
  · rw [hall i hi, decide_eq_true hi]
  · rw [Nat.testBit_lt_two_pow (hnum.trans_le (Nat.pow_le_pow_right (by decide) (by omega))),
      decide_eq_false hi]

theorem findLowestZeroBit_isSome {num : ℕ} (hnum : num < 2 ^ 64) (hne : num ≠ ones) :
    ∃ off, findLowestZeroBit num 0 64 = some off := by
  apply Option.ne_none_iff_exists'.mp
  intro hnone
  exact hne (eq_ones hnum fun i hi => findLowestZeroBit_none hnone i (Nat.zero_le i) (by omega))

theorem testBit_or_shift (word off i : ℕ) :
    (word ||| 1 <<< off).testBit i = (word.testBit i || decide (off = i)) := by
  rw [Nat.testBit_or, Nat.one_shiftLeft, Nat.testBit_two_pow]

theorem testBit_and_not_shift (word off : ℕ) {i : ℕ} (hi : i < 64) :
    (word &&& (ones ^^^ 1 <<< off)).testBit i = (word.testBit i && !decide (off = i)) := by
  rw [Nat.testBit_and, Nat.testBit_xor, Nat.one_shiftLeft, Nat.testBit_two_pow, ones,
    Nat.testBit_two_pow_sub_one, decide_eq_true hi, Bool.true_xor]

theorem or_shift_lt {word off : ℕ} (hword : word < 2 ^ 64) (hoff : off < 64) :
    word ||| 1 <<< off < 2 ^ 64 := by
  rw [Nat.one_shiftLeft]
  exact Nat.or_lt_two_pow hword (Nat.pow_lt_pow_right (by decide) hoff)

/-! ## Slots -/

/-- The bit of slot `i` of the page at `list`. -/
def Taken (mem : Mem) (list i : ℕ) : Prop :=
  (load mem (list - 16 + 8 * (i / 64)) 8).testBit (i % 64) = true

variable {mem mem' : Mem} {list : ℕ}

theorem taken_low (hlist : 16 ≤ list) {i : ℕ} (hi : i < 64) :
    Taken mem list i ↔ (load mem (hdrp (hdrp list)) 8).testBit i = true := by
  have haddr : list - 16 + 8 * (i / 64) = hdrp (hdrp list) := by
    simp only [hdrp, align]
    omega
  rw [Taken, haddr, Nat.mod_eq_of_lt hi]

theorem taken_high (hlist : 16 ≤ list) {i : ℕ} (hlo : 64 ≤ i) (hhi : i < 128) :
    Taken mem list i ↔ (load mem (hdrp list) 8).testBit (i - 64) = true := by
  have haddr : list - 16 + 8 * (i / 64) = hdrp list := by
    simp only [hdrp, align]
    omega
  rw [Taken, haddr, show i % 64 = i - 64 by omega]

theorem taken_congr (hagree : AgreeOn mem mem' (list - 16) list) (hlist : 16 ≤ list) {i : ℕ}
    (hi : i < 128) : Taken mem' list i ↔ Taken mem list i := by
  have hsame : load mem' (list - 16 + 8 * (i / 64)) 8 = load mem (list - 16 + 8 * (i / 64)) 8 :=
    (hagree.mono (by omega) (by omega)).load_eq
  rw [Taken, Taken, hsame]

/-- `find_match_space` takes a slot whose bit is clear, if there is one. -/
theorem findMatchSpace_spec (mem : Mem) (size : ℕ) (hlist : 16 ≤ list) :
    (∃ i < 128, ¬ Taken mem list i ∧
      (findMatchSpace mem list size).1 = some (list + i * size) ∧
      ChangesIn mem (findMatchSpace mem list size).2 (list - 16) list ∧
      ∀ j < 128, Taken (findMatchSpace mem list size).2 list j ↔ Taken mem list j ∨ j = i) ∨
    findMatchSpace mem list size = (none, mem) ∧ ∀ i < 128, Taken mem list i := by
  have hword := load_lt mem (hdrp (hdrp list)) 8
  have hextend := load_lt mem (hdrp list) 8
  have haddr : hdrp (hdrp list) = list - 16 ∧ hdrp list = list - 8 :=
    ⟨Nat.sub_sub list 8 8, rfl⟩
  rw [findMatchSpace]
  dsimp only
  by_cases hfull : load mem (hdrp (hdrp list)) 8 = ones
  · rw [if_pos hfull]
    by_cases hall : load mem (hdrp list) 8 = ones
    · rw [if_pos hall]
      refine .inr ⟨rfl, fun i hi => ?_⟩
      by_cases hlow : i < 64
      · rw [taken_low hlist hlow, hfull, ones, Nat.testBit_two_pow_sub_one, decide_eq_true hlow]
      · rw [taken_high hlist (by omega) hi, hall, ones, Nat.testBit_two_pow_sub_one,
          decide_eq_true (by omega)]
    · rw [if_neg hall]
      obtain ⟨off, hoff⟩ := findLowestZeroBit_isSome hextend hall
      obtain ⟨-, hlt, hbit⟩ := findLowestZeroBit_some hoff
      rw [hoff]
      dsimp only
      refine .inl ⟨off + 64, by omega, ?_, rfl, ?_, fun j hj => ?_⟩
      · rw [taken_high hlist (by omega) (by omega), Nat.add_sub_cancel, hbit]
        exact Bool.false_ne_true
      · rw [haddr.1, haddr.2]
        exact (store_changesIn mem (by omega) (by omega)).trans
          (store_changesIn _ le_rfl (by omega))
      · by_cases hlow : j < 64
        · rw [taken_low hlist hlow, taken_low hlist hlow, load_store_of_lt _ hword]
          have hne : j ≠ off + 64 := by omega
          simp only [hne, or_false]
        · rw [taken_high hlist (by omega) hj, taken_high hlist (by omega) hj,
            load_store_of_disjoint _ (by omega),
            load_store_of_lt _ (or_shift_lt hextend (by omega)), testBit_or_shift,
            Bool.or_eq_true, decide_eq_true_eq]
          exact or_congr_right (by omega)
  · rw [if_neg hfull]
    obtain ⟨off, hoff⟩ := findLowestZeroBit_isSome hword hfull
    obtain ⟨-, hlt, hbit⟩ := findLowestZeroBit_some hoff
    rw [hoff]
    dsimp only
    refine .inl ⟨off, by omega, ?_, rfl, ?_, fun j hj => ?_⟩
    · rw [taken_low hlist (by omega), hbit]
      exact Bool.false_ne_true
    · rw [haddr.1, haddr.2]
      exact (store_changesIn mem (by omega) (by omega)).trans
        (store_changesIn _ le_rfl (by omega))
    · by_cases hlow : j < 64
      · rw [taken_low hlist hlow, taken_low hlist hlow,
          load_store_of_lt _ (or_shift_lt hword (by omega)), testBit_or_shift,
          Bool.or_eq_true, decide_eq_true_eq]
        exact or_congr_right eq_comm
      · rw [taken_high hlist (by omega) hj, taken_high hlist (by omega) hj,
          load_store_of_disjoint _ (by omega), load_store_of_lt _ hextend]
        have hne : j ≠ off := by omega
        simp only [hne, or_false]

/-! ## A new page -/

/-- What `init_bitmap_helper` writes: the bits behind the last slot are set. -/
theorem testBit_initBitmap (mem : Mem) (ptr : ℕ) {blockNum i : ℕ} (hlo : blockNum ≤ i)
    (hi : i < 128) :
    (initBitmapHelper mem ptr blockNum (ptr + i / 8)).toNat.testBit (i % 8) = true := by
  have hshift : blockNum >>> 3 = blockNum / 8 := Nat.shiftRight_eq_div_pow _ _
  have hand : blockNum &&& 7 = blockNum % 8 := Nat.and_two_pow_sub_one_eq_mod _ 3
  have hmod : i % 8 < 8 := Nat.mod_lt i (by decide)
  have hall : ∀ k < 8, (0xff : UInt8).toNat.testBit k = true := by decide
  rw [initBitmapHelper, hshift, hand]
  by_cases hlater : min (blockNum / 8) 8 < i / 8
  · rw [fill_apply_of_in _ (by omega) (by omega)]
    exact hall _ hmod
  · have hsame : min (blockNum / 8) 8 = i / 8 := by omega
    have hmask : ∀ r < 8, ∀ k < 8, r ≤ k →
        (UInt8.ofNat ((0xff ^^^ (1 <<< r - 1)) / 256 ^ 0)).toNat.testBit k = true := by decide
    rw [hsame, fill_apply_of_out _ (by omega), store, if_pos (by omega), Nat.sub_self]
    exact hmask _ (Nat.mod_lt _ (by decide)) _ hmod (by omega)

theorem testBit_initBitmap_zero (mem : Mem) (ptr : ℕ) {blockNum : ℕ} (hpos : 0 < blockNum) :
    (initBitmapHelper mem ptr blockNum ptr).toNat.testBit 0 = false := by
  have hshift : blockNum >>> 3 = blockNum / 8 := Nat.shiftRight_eq_div_pow _ _
  have hand : blockNum &&& 7 = blockNum % 8 := Nat.and_two_pow_sub_one_eq_mod _ 3
  rw [initBitmapHelper, hshift, hand]
  rw [fill_apply_of_out _ (by omega)]
  by_cases hfew : blockNum / 8 = 0
  · have hmask : ∀ r < 8, 0 < r →
        (UInt8.ofNat ((0xff ^^^ (1 <<< r - 1)) / 256 ^ 0)).toNat.testBit 0 = false := by decide
    rw [hfew, Nat.zero_min, Nat.add_zero, store, if_pos (by omega), Nat.sub_self]
    exact hmask _ (Nat.mod_lt _ (by decide)) (by omega)
  · rw [store_apply_of_out _ (by omega), fill_apply_of_in _ le_rfl (by omega)]
    rfl

theorem initBitmapHelper_changesIn (mem : Mem) (ptr blockNum : ℕ) :
    ChangesIn mem (initBitmapHelper mem ptr blockNum) ptr (ptr + 16) := by
  intro x hx
  rw [initBitmapHelper]
  rw [fill_apply_of_out _ (by omega), store_apply_of_out _ (by omega),
    fill_apply_of_out _ (by omega)]

/-- `heap_list_init` lays out the page and links the old one to it. -/
theorem heapListInit_spec (mem : Mem) (ptr prev num : ℕ) :
    (heapListInit mem ptr prev num).1 = ptr + 24 ∧
      (∀ i < 128, num ≤ i → Taken (heapListInit mem ptr prev num).2 (ptr + 24) i) ∧
      (0 < num → ¬ Taken (heapListInit mem ptr prev num).2 (ptr + 24) 0) ∧
      ∀ x, (x < ptr ∨ ptr + 24 ≤ x) →
        (prev = 0 ∨ x < prev + pageAllocSize ∨ prev + pageAllocSize + 8 ≤ x) →
        (heapListInit mem ptr prev num).2 x = mem x := by
  refine ⟨rfl, fun i hi hnum => ?_, fun hpos => ?_, fun x hx hprev => ?_⟩
  · rw [heapListInit, Taken, testBit_load _ _ (by omega)]
    have haddr : ptr + 24 - 16 + 8 * (i / 64) + i % 64 / 8 = ftrp ptr + i / 8 := by
      simp only [ftrp, align]
      omega
    rw [haddr, show i % 64 % 8 = i % 8 by omega]
    exact testBit_initBitmap _ _ hnum hi
  · rw [heapListInit, Taken, testBit_load _ _ (by omega)]
    have hbit := testBit_initBitmap_zero (if prev ≠ 0 then store (store mem ptr 8
      (pack prev (mem ptr).toNat)) (prev + pageAllocSize) 8 (pack ptr (mem ptr).toNat)
      else store mem ptr 8 (pack prev (mem ptr).toNat)) (ftrp ptr) hpos
    exact ne_true_of_eq_false hbit
  · rw [heapListInit]
    dsimp only
    rw [initBitmapHelper_changesIn _ _ _ x (by simp only [ftrp, align]; omega)]
    split
    · rw [store_apply_of_out _ (by omega), store_apply_of_out _ (by omega)]
    · rw [store_apply_of_out _ (by omega)]

/-! ## Caches -/

/-- The objects fit into a page. -/
structure Mode.Fits (mode : Mode) : Prop where
  size : 0 < mode.size
  some : 0 < mode.blockNum
  bits : mode.blockNum ≤ 128
  room : mode.blockNum * mode.size ≤ pageAllocSize

theorem procMode_fits : procMode.Fits := by constructor <;> decide

/-- The pages of a cache, newest first: `buddy_alloc` has returned each of them once, and
the bits behind the last slot are set. -/
structure CacheOk (mode : Mode) (cache : Cache) (pages : List ℕ) : Prop where
  head : pages.head? = some cache.heapList
  aligned : ∀ list ∈ pages, list % pgSize = 24
  nodup : pages.Nodup
  spare : ∀ list ∈ pages, ∀ i < 128, mode.blockNum ≤ i → Taken cache.mem list i

/-- The object at `bp` is allocated. -/
def InUse (mode : Mode) (mem : Mem) (pages : List ℕ) (bp : ℕ) : Prop :=
  ∃ list ∈ pages, ∃ i < mode.blockNum, bp = list + i * mode.size ∧ Taken mem list i

/-- A page that is not part of the cache. -/
structure Page.New (page : Page) (pages : List ℕ) : Prop where
  aligned : page.addr % pgSize = 0
  new : page.addr + 24 ∉ pages

section Cache

variable {mode : Mode} {cache : Cache} {pages : List ℕ}

theorem CacheOk.heapList_mem (hok : CacheOk mode cache pages) : cache.heapList ∈ pages :=
  List.mem_of_mem_head? hok.head

theorem CacheOk.apart (hok : CacheOk mode cache pages) {left right : ℕ} (hleft : left ∈ pages)
    (hright : right ∈ pages) (hne : left ≠ right) :
    left + pgSize ≤ right ∨ right + pgSize ≤ left := by
  have hleft := hok.aligned left hleft
  have hright := hok.aligned right hright
  simp only [pgSize] at *
  omega

theorem CacheOk.le (hok : CacheOk mode cache pages) {list : ℕ} (hlist : list ∈ pages) :
    16 ≤ list := by
  have haligned := hok.aligned list hlist
  simp only [pgSize] at haligned
  omega

theorem slot_end (hfits : mode.Fits) {i : ℕ} (hi : i < mode.blockNum) :
    i * mode.size + mode.size ≤ pageAllocSize := by
  have hle : (i + 1) * mode.size ≤ mode.blockNum * mode.size := Nat.mul_le_mul_right _ hi
  rw [Nat.succ_mul] at hle
  exact hle.trans hfits.room

/-- An object determines its page and its slot. -/
theorem CacheOk.slot_inj (hok : CacheOk mode cache pages) (hfits : mode.Fits) {left right i j : ℕ}
    (hleft : left ∈ pages) (hright : right ∈ pages) (hi : i < mode.blockNum)
    (hj : j < mode.blockNum) (heq : left + i * mode.size = right + j * mode.size) :
    left = right ∧ i = j := by
  have hiend := slot_end hfits hi
  have hjend := slot_end hfits hj
  have hsize := hfits.size
  have hsame : left = right := by
    by_contra hne
    have hapart := hok.apart hleft hright hne
    simp only [pageAllocSize, pgSize, align] at *
    omega
  refine ⟨hsame, ?_⟩
  rw [hsame] at heq
  exact Nat.eq_of_mul_eq_mul_right hsize (Nat.add_left_cancel heq)

/-- A slot of the newest page has been taken. -/
structure Allocated (mode : Mode) (cache cache' : Cache) (pages pages' : List ℕ) (bp : ℕ) :
    Prop where
  ok : CacheOk mode cache' pages'
  new : ¬ InUse mode cache.mem pages bp
  taken : InUse mode cache'.mem pages' bp
  keeps : ∀ other, InUse mode cache.mem pages other → InUse mode cache'.mem pages' other
  newest : cache'.heapList ≤ bp ∧ bp < cache'.heapList + pageAllocSize

theorem CacheOk.taken_other (hok : CacheOk mode cache pages) {mem' : Mem} {list : ℕ}
    (hlist : list ∈ pages) (hchanges : ChangesIn cache.mem mem' (list - 16) list) {other i : ℕ}
    (hother : other ∈ pages) (hne : other ≠ list) (hi : i < 128) :
    Taken mem' other i ↔ Taken cache.mem other i := by
  have hapart := hok.apart hother hlist hne
  have hle := hok.le hother
  have hle' := hok.le hlist
  simp only [pgSize] at hapart
  exact taken_congr (hchanges.agreeOn (by omega)) hle hi

/-- `find_match_space` on the newest page. -/
theorem CacheOk.findMatchSpace (hok : CacheOk mode cache pages) (hfits : mode.Fits) :
    (∃ bp mem', findMatchSpace cache.mem cache.heapList mode.size = (some bp, mem') ∧
      Allocated mode cache ⟨mem', cache.heapList⟩ pages pages bp) ∨
    Slab.findMatchSpace cache.mem cache.heapList mode.size = (none, cache.mem) ∧
      ∀ i < 128, Taken cache.mem cache.heapList i := by
  have hlist := hok.heapList_mem
  obtain ⟨i, hi, hclear, hfound, hchanges, htaken⟩ | hfull :=
    findMatchSpace_spec cache.mem mode.size (hok.le hlist)
  · rcases hfind : Slab.findMatchSpace cache.mem cache.heapList mode.size with ⟨bp, mem'⟩
    rw [hfind] at hfound hchanges htaken
    have hslot : i < mode.blockNum := by
      by_contra hlarge
      exact hclear (hok.spare _ hlist i hi (not_lt.mp hlarge))
    have hkeep : ∀ other ∈ pages, ∀ j < 128, Taken cache.mem other j → Taken mem' other j := by
      intro other hother j hj hold
      by_cases hsame : other = cache.heapList
      · rw [hsame] at hold ⊢
        exact (htaken j hj).mpr (.inl hold)
      · exact (hok.taken_other hlist hchanges hother hsame hj).mpr hold
    have hend := slot_end hfits hslot
    have hsize := hfits.size
    refine .inl ⟨cache.heapList + i * mode.size, mem', by rw [← hfound], ?_, ?_, ?_, ?_, ?_⟩
    · exact ⟨hok.head, hok.aligned, hok.nodup,
        fun other hother j hj hlarge => hkeep other hother j hj (hok.spare other hother j hj hlarge)⟩
    · rintro ⟨other, hother, j, hj, heq, hused⟩
      obtain ⟨rfl, rfl⟩ := hok.slot_inj hfits hlist hother hslot hj heq
      exact hclear hused
    · exact ⟨_, hlist, i, hslot, rfl, (htaken i hi).mpr (.inr rfl)⟩
    · rintro bp ⟨other, hother, j, hj, rfl, hused⟩
      exact ⟨other, hother, j, hj, rfl, hkeep other hother j (hj.trans_le hfits.bits) hused⟩
    · exact ⟨Nat.le_add_right _ _, by dsimp only; omega⟩
  · exact .inr hfull

/-- A new page at the front of the cache. -/
theorem CacheOk.newPage (hok : CacheOk mode cache pages) (hfits : mode.Fits) {page : Page}
    (hnew : page.New pages) {list : ℕ} {mem' : Mem}
    (hinit : heapListInit (page.put cache.mem) page.addr cache.heapList mode.blockNum =
      (list, mem')) :
    CacheOk mode ⟨mem', list⟩ (list :: pages) ∧ ¬ Taken mem' list 0 ∧
      ∀ other, InUse mode cache.mem pages other → InUse mode mem' (list :: pages) other := by
  obtain ⟨hlist, hspare, hclear, hframe⟩ := heapListInit_spec (page.put cache.mem) page.addr
    cache.heapList mode.blockNum
  rw [hinit] at hlist hspare hclear hframe
  have hlist : list = page.addr + 24 := hlist
  have haligned := hnew.aligned
  have hhead := hok.aligned _ hok.heapList_mem
  have hkeep : ∀ other ∈ pages, ∀ i < 128, Taken mem' other i ↔ Taken cache.mem other i := by
    intro other hother i hi
    have hold := hok.aligned other hother
    have hne : other ≠ page.addr + 24 := fun heq => hnew.new (heq ▸ hother)
    refine taken_congr (fun x hlo hhi => ?_) (hok.le hother) hi
    simp only [pgSize] at haligned hhead hold
    have hsame := hframe x (by omega) (by simp only [pageAllocSize, pgSize, align]; omega)
    refine hsame.trans ?_
    rw [Page.put, blit, if_neg]
    simp only [pgSize]
    omega
  subst hlist
  refine ⟨⟨rfl, ?_, List.nodup_cons.mpr ⟨hnew.new, hok.nodup⟩, ?_⟩, hclear hfits.some, ?_⟩
  · intro other hother
    obtain rfl | hother := List.mem_cons.mp hother
    · simp only [pgSize] at *
      omega
    · exact hok.aligned other hother
  · intro other hother i hi hlarge
    obtain rfl | hother := List.mem_cons.mp hother
    · exact hspare i hi hlarge
    · exact (hkeep other hother i hi).mpr (hok.spare other hother i hi hlarge)
  · rintro bp ⟨other, hother, i, hi, rfl, hused⟩
    exact ⟨other, List.mem_cons_of_mem _ hother, i, hi, rfl,
      (hkeep other hother i (hi.trans_le hfits.bits)).mpr hused⟩

/-- `kalloc` returns an object that was not in use. -/
theorem kalloc_spec (hok : CacheOk mode cache pages) (hfits : mode.Fits) {page : Page}
    (hnew : page.New pages) :
    ∃ bp cache' pages', kalloc mode cache page = (some bp, cache') ∧
      (pages' = pages ∨ pages' = (page.addr + 24) :: pages) ∧
      Allocated mode cache cache' pages pages' bp := by
  rw [kalloc]
  obtain ⟨bp, mem', hfind, halloc⟩ | ⟨hfind, -⟩ := hok.findMatchSpace hfits
  · rw [hfind]
    exact ⟨bp, _, pages, rfl, .inl rfl, halloc⟩
  · rw [hfind]
    dsimp only
    have hlist := (heapListInit_spec (page.put cache.mem) page.addr cache.heapList mode.blockNum).1
    rcases hinit : heapListInit (page.put cache.mem) page.addr cache.heapList mode.blockNum with
      ⟨list, mem₁⟩
    rw [hinit] at hlist
    obtain ⟨hok₁, hclear, hkeep⟩ := hok.newPage hfits hnew hinit
    obtain ⟨bp, mem', hfind', halloc⟩ | ⟨-, hfull⟩ := hok₁.findMatchSpace hfits
    · dsimp only at hfind' ⊢
      rw [hfind']
      refine ⟨bp, _, list :: pages, rfl, .inr (by rw [← hlist]), halloc.ok, ?_, halloc.taken, ?_,
        halloc.newest⟩
      · exact fun hused => halloc.new (hkeep bp hused)
      · exact fun other hused => halloc.keeps other (hkeep other hused)
    · exact absurd (hfull 0 (by decide)) hclear

theorem clear_lt {word off : ℕ} (hword : word < 2 ^ 64) :
    word &&& (ones ^^^ 1 <<< off) < 2 ^ 64 :=
  Nat.and_le_left.trans_lt hword

theorem clear_ne_ones (word : ℕ) {off : ℕ} (hoff : off < 64) :
    word &&& (ones ^^^ 1 <<< off) ≠ ones := by
  intro heq
  have hbit := testBit_and_not_shift word off hoff
  rw [heq, ones, Nat.testBit_two_pow_sub_one, decide_eq_true hoff, decide_eq_true rfl] at hbit
  simp at hbit

/-- After the page is found `kfree` clears one bit; the page is never given back. -/
theorem kfreeAt_spec (mem : Mem) (hlist : 16 ≤ list) {off : ℕ} (hoff : off < 128) :
    ∃ mem', kfreeAt mem list off = (mem', none) ∧ ChangesIn mem mem' (list - 16) list ∧
      ∀ j < 128, Taken mem' list j ↔ Taken mem list j ∧ j ≠ off := by
  have haddr : hdrp (hdrp list) = list - 16 ∧ hdrp list = list - 8 :=
    ⟨Nat.sub_sub list 8 8, rfl⟩
  have hword := load_lt mem (hdrp (hdrp list)) 8
  have hextend := load_lt mem (hdrp list) 8
  rw [kfreeAt]
  dsimp only
  by_cases hhigh : 64 ≤ off
  · have hbit := fun i => testBit_and_not_shift (load mem (hdrp list) 8) (off - 64) (i := i)
    have hne := clear_ne_ones (load mem (hdrp list) 8) (show off - 64 < 64 by omega)
    have hlt := @clear_lt _ (off - 64) hextend
    generalize load mem (hdrp list) 8 &&& (ones ^^^ 1 <<< (off - 64)) = cleared at hbit hne hlt ⊢
    have hsame : load (store mem (hdrp list) 8 cleared) (hdrp list) 8 = cleared :=
      load_store_of_lt mem hlt
    rw [if_pos hhigh, hsame, if_neg fun hfull => hne hfull.2]
    refine ⟨_, rfl, store_changesIn mem (by omega) (by omega), fun j hj => ?_⟩
    by_cases hlow : j < 64
    · rw [taken_low hlist hlow, taken_low hlist hlow, load_store_of_disjoint _ (by omega)]
      have hother : j ≠ off := by omega
      simp only [hother, ne_eq, not_false_eq_true, and_true]
    · rw [taken_high hlist (by omega) hj, taken_high hlist (by omega) hj, hsame,
        hbit _ (by omega), Bool.and_eq_true, Bool.not_eq_true', decide_eq_false_iff_not]
      exact and_congr_right fun _ => by omega
  · have hbit := fun i => testBit_and_not_shift (load mem (hdrp (hdrp list)) 8) off (i := i)
    have hne := clear_ne_ones (load mem (hdrp (hdrp list)) 8) (show off < 64 by omega)
    have hlt := @clear_lt _ off hword
    generalize load mem (hdrp (hdrp list)) 8 &&& (ones ^^^ 1 <<< off) = cleared at hbit hne hlt ⊢
    have hsame : load (store mem (hdrp (hdrp list)) 8 cleared) (hdrp (hdrp list)) 8 = cleared :=
      load_store_of_lt mem hlt
    rw [if_neg hhigh, hsame, if_neg fun hfull => hne hfull.1]
    refine ⟨_, rfl, store_changesIn mem (by omega) (by omega), fun j hj => ?_⟩
    by_cases hlow : j < 64
    · rw [taken_low hlist hlow, taken_low hlist hlow, hsame, hbit _ hlow, Bool.and_eq_true,
        Bool.not_eq_true', decide_eq_false_iff_not]
      exact and_congr_right fun _ => by omega
    · rw [taken_high hlist (by omega) hj, taken_high hlist (by omega) hj,
        load_store_of_disjoint _ (by omega)]
      have hother : j ≠ off := by omega
      simp only [hother, ne_eq, not_false_eq_true, and_true]

theorem kfree_heapList {rounds bp : ℕ} {result : Cache × Option ℕ}
    (hfree : kfree mode rounds cache bp = some result) :
    result.1.heapList = cache.heapList := by
  rw [kfree] at hfree
  split at hfree
  · obtain rfl := Option.some.inj hfree
    rfl
  · obtain ⟨found, -, rfl⟩ := Option.map_eq_some_iff.mp hfree
    rfl

/-- `kfree` of an object of the newest page clears its bit and no other. -/
theorem kfree_newest (hok : CacheOk mode cache pages) (hfits : mode.Fits) {i : ℕ}
    (hi : i < mode.blockNum) (rounds : ℕ) :
    ∃ mem', kfree mode (rounds + 1) cache (cache.heapList + i * mode.size) =
        some (⟨mem', cache.heapList⟩, none) ∧
      ∀ other ∈ pages, ∀ j < 128, Taken mem' other j ↔
        Taken cache.mem other j ∧ ¬ (other = cache.heapList ∧ j = i) := by
  have hlist := hok.heapList_mem
  have hend := slot_end hfits hi
  have hsize := hfits.size
  have hle := hok.le hlist
  have hpages : ∀ other ∈ pages, ∀ j < 128,
      Taken (fill cache.mem (cache.heapList + i * mode.size) 0xc mode.size) other j ↔
        Taken cache.mem other j := by
    intro other hother j hj
    refine taken_congr (fill_agreeOn _ ?_) (hok.le hother) hj
    by_cases hsame : other = cache.heapList
    · rw [hsame]
      exact .inl (Nat.le_add_right _ _)
    · have hapart := hok.apart hother hlist hsame
      have hother' := hok.le hother
      simp only [pageAllocSize, pgSize, align] at *
      omega
  have hbits := hi.trans_le hfits.bits
  obtain ⟨mem', hfree, hchanges, hafter⟩ := kfreeAt_spec
    (fill cache.mem (cache.heapList + i * mode.size) 0xc mode.size) hle hbits
  have hoff : (cache.heapList + i * mode.size - cache.heapList) % 2 ^ 32 / mode.size = i := by
    rw [Nat.add_sub_cancel_left, Nat.mod_eq_of_lt, Nat.mul_div_cancel _ hsize]
    simp only [pageAllocSize, pgSize, align] at hend
    omega
  have hmid : CacheOk mode
      ⟨fill cache.mem (cache.heapList + i * mode.size) 0xc mode.size, cache.heapList⟩ pages :=
    ⟨hok.head, hok.aligned, hok.nodup, fun other hother j hj hlarge =>
      (hpages other hother j hj).mpr (hok.spare other hother j hj hlarge)⟩
  refine ⟨mem', ?_, fun other hother j hj => ?_⟩
  · rw [kfree, if_neg (by omega)]
    dsimp only
    rw [getBlockIndexHelper, if_pos ⟨Nat.le_add_right _ _, by omega⟩, Option.map_some, hoff]
    dsimp only
    rw [hfree]
  · by_cases hsame : other = cache.heapList
    · rw [hsame, hafter j hj, hpages _ hlist j hj]
      simp only [true_and, ne_eq]
    · rw [hmid.taken_other hlist hchanges hother hsame hj, hpages other hother j hj]
      simp only [hsame, false_and, not_false_eq_true, and_true]

/-- An object of the newest page. -/
theorem InUse.newest (hok : CacheOk mode cache pages) (hfits : mode.Fits) {bp : ℕ}
    (hused : InUse mode cache.mem pages bp) (hlo : cache.heapList ≤ bp)
    (hhi : bp < cache.heapList + pageAllocSize) :
    ∃ i < mode.blockNum, bp = cache.heapList + i * mode.size := by
  obtain ⟨list, hlist, i, hi, rfl, -⟩ := hused
  have hend := slot_end hfits hi
  have hsize := hfits.size
  obtain rfl : cache.heapList = list := by
    by_contra hne
    have hapart := hok.apart hok.heapList_mem hlist hne
    simp only [pageAllocSize, pgSize, align] at *
    omega
  exact ⟨i, hi, rfl⟩

/-- `kfree` of an object of the newest page frees it. -/
theorem kfree_spec (hok : CacheOk mode cache pages) (hfits : mode.Fits) {bp : ℕ}
    (hused : InUse mode cache.mem pages bp) (hlo : cache.heapList ≤ bp)
    (hhi : bp < cache.heapList + pageAllocSize) (rounds : ℕ) :
    ∃ mem', kfree mode (rounds + 1) cache bp = some (⟨mem', cache.heapList⟩, none) ∧
      CacheOk mode ⟨mem', cache.heapList⟩ pages ∧
      ∀ other, InUse mode mem' pages other ↔ InUse mode cache.mem pages other ∧ other ≠ bp := by
  obtain ⟨i, hi, rfl⟩ := hused.newest hok hfits hlo hhi
  have hlist := hok.heapList_mem
  obtain ⟨mem', hfree, hall⟩ := kfree_newest hok hfits hi rounds
  refine ⟨mem', hfree, ?_, fun other => ?_⟩
  · refine ⟨hok.head, hok.aligned, hok.nodup, fun other hother j hj hlarge => ?_⟩
    rw [hall other hother j hj]
    exact ⟨hok.spare other hother j hj hlarge, fun heq => by omega⟩
  · constructor
    · rintro ⟨page, hpage, j, hj, rfl, hused⟩
      obtain ⟨hused, hne⟩ := (hall page hpage j (hj.trans_le hfits.bits)).mp hused
      exact ⟨⟨page, hpage, j, hj, rfl, hused⟩, fun heq => hne (hok.slot_inj hfits hpage hlist hj hi heq)⟩
    · rintro ⟨⟨page, hpage, j, hj, rfl, hused⟩, hne⟩
      refine ⟨page, hpage, j, hj, rfl, (hall page hpage j (hj.trans_le hfits.bits)).mpr ⟨hused, ?_⟩⟩
      rintro ⟨rfl, rfl⟩
      exact hne rfl

/-- A new cache. -/
theorem slabInit_ok (mem : Mem) {page : Page} (hpage : page.addr % pgSize = 0) :
    CacheOk mode (slabInit mode mem page) [page.addr + 24] := by
  obtain ⟨hlist, hspare, -⟩ := heapListInit_spec (page.put mem) page.addr 0 mode.blockNum
  rw [slabInit]
  rcases hinit : heapListInit (page.put mem) page.addr 0 mode.blockNum with ⟨list, mem'⟩
  rw [hinit] at hlist hspare
  have hlist : list = page.addr + 24 := hlist
  subst hlist
  refine ⟨rfl, fun other hother => ?_, List.nodup_singleton _, fun other hother i hi hlarge => ?_⟩
  · rw [List.mem_singleton.mp hother]
    simp only [pgSize] at *
    omega
  · rw [List.mem_singleton.mp hother]
    exact hspare i hi hlarge

end Cache

end Painting.Slab
