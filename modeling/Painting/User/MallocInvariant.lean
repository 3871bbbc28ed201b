import Painting.User.Malloc

/-!
# The boundary-tag invariant

The heap is a list of blocks laid end to end.  A run of blocks occupies the
bytes from its first header up to the next header after it, so an operation
that rewrites the tags of a few neighbouring blocks changes bytes of that
stretch only, and the blocks to the left and right stay as they are.
-/

namespace Painting.Malloc

open Painting.Memory Painting.Transition

/-! ## Tag words -/

/-- A block of the heap: its size and whether it is allocated. -/
@[ext]
structure Blk where
  size : ℕ
  alloc : Bool
  aligned : size % 8 = 0
  large : 16 ≤ size

/-- The word in the block's header and footer. -/
def Blk.tag (blk : Blk) : ℕ := pack blk.size blk.alloc.toNat

theorem pack_eq_add {size bit : ℕ} (haligned : size % 8 = 0) (hbit : bit < 8) :
    pack size bit = size + bit := by
  obtain ⟨count, rfl⟩ := Nat.dvd_of_mod_eq_zero haligned
  exact (Nat.two_pow_add_eq_or_of_lt (i := 3) hbit count).symm

theorem and_size_mask {word : ℕ} (hword : word < 2 ^ 32) :
    word &&& 0xfffffff8 = word / 8 * 8 := by
  have hmask : (0xfffffff8 : ℕ) = (2 ^ 29 - 1) <<< 3 := rfl
  have hsplit : word / 8 * 8 = (word >>> 3) <<< 3 := by
    rw [Nat.shiftLeft_eq, Nat.shiftRight_eq_div_pow]
  rw [hmask, hsplit]
  apply Nat.eq_of_testBit_eq
  intro bit
  simp only [Nat.testBit_and, Nat.testBit_shiftLeft, Nat.testBit_two_pow_sub_one,
    Nat.testBit_shiftRight]
  by_cases hlow : 3 ≤ bit
  · by_cases hhigh : bit - 3 < 29
    · simp [hlow, hhigh, show 3 + (bit - 3) = bit by omega]
    · have hzero : word.testBit bit = false :=
        Nat.testBit_lt_two_pow (hword.trans_le (Nat.pow_le_pow_right (by omega) (by omega)))
      simp [hlow, hzero, show 3 + (bit - 3) = bit by omega]
  · simp [hlow]

theorem tag_size {size bit : ℕ} (haligned : size % 8 = 0) (hbit : bit < 8)
    (hsize : size < 2 ^ 32) : pack size bit &&& 0xfffffff8 = size := by
  rw [pack_eq_add haligned hbit, and_size_mask (by omega)]
  omega

theorem tag_alloc {size bit : ℕ} (haligned : size % 8 = 0) (hbit : bit < 2) :
    pack size bit &&& 1 = bit := by
  rw [pack_eq_add haligned (by omega), Nat.and_one_is_mod]
  omega

theorem pack_lt {size bit : ℕ} (haligned : size % 8 = 0) (hbit : bit < 2)
    (hsize : size < 2 ^ 32) : pack size bit < 2 ^ 32 := by
  rw [pack_eq_add haligned (by omega)]
  omega

theorem get_put_same (mem : Mem) {p value : ℕ} (hvalue : value < 2 ^ 32) :
    get (put mem p value) p = value :=
  load_store_of_lt mem hvalue

theorem get_put_far (mem : Mem) {p q value : ℕ} (hfar : p + 4 ≤ q ∨ q + 4 ≤ p) :
    get (put mem q value) p = get mem p :=
  load_store_of_disjoint mem hfar

theorem ChangesIn.get_eq {mem mem' : Mem} {lo hi p : ℕ} (hchanges : ChangesIn mem mem' lo hi)
    (hout : p + 4 ≤ lo ∨ hi ≤ p) : get mem' p = get mem p :=
  (hchanges.agreeOn hout).load_eq

/-- Header and footer of the block at `bp`. -/
structure BlockAt (mem : Mem) (bp size bit : ℕ) : Prop where
  header : get mem (bp - 4) = pack size bit
  footer : get mem (bp + size - 8) = pack size bit

/-- Header and footer written together. -/
def putTags (mem : Mem) (bp size bit : ℕ) : Mem :=
  put (put mem (bp - 4) (pack size bit)) (bp + size - 8) (pack size bit)

section Tags

variable {mem : Mem} {bp size bit : ℕ}

theorem BlockAt.getSize (hblock : BlockAt mem bp size bit) (haligned : size % 8 = 0)
    (hbit : bit < 2) (hsize : size < 2 ^ 32) : getSize mem (hdrp bp) = size := by
  rw [Malloc.getSize, hdrp, wsize, hblock.header, tag_size haligned (by omega) hsize]

theorem BlockAt.ftrp (hblock : BlockAt mem bp size bit) (haligned : size % 8 = 0)
    (hbit : bit < 2) (hsize : size < 2 ^ 32) : ftrp mem bp = bp + size - 8 := by
  rw [Malloc.ftrp, hblock.getSize haligned hbit hsize, dsize]

theorem BlockAt.nextBlkp (hblock : BlockAt mem bp size bit) (haligned : size % 8 = 0)
    (hbit : bit < 2) (hsize : size < 2 ^ 32) : nextBlkp mem bp = bp + size := by
  have hread := hblock.getSize haligned hbit hsize
  rw [hdrp] at hread
  rw [Malloc.nextBlkp, hread]

/-- The two `PUT`s that the code uses to tag a block. -/
theorem put_hdrp_ftrp (mem : Mem) {bp size bit : ℕ} (haligned : size % 8 = 0)
    (hbit : bit < 2) (hsize : size < 2 ^ 32) :
    put (put mem (hdrp bp) (pack size bit)) (ftrp (put mem (hdrp bp) (pack size bit)) bp)
      (pack size bit) = putTags mem bp size bit := by
  have hread : Malloc.getSize (put mem (hdrp bp) (pack size bit)) (hdrp bp) = size := by
    rw [Malloc.getSize, get_put_same _ (pack_lt haligned hbit hsize),
      tag_size haligned (by omega) hsize]
  rw [Malloc.ftrp, hread]
  rfl

theorem putTags_blockAt (mem : Mem) {bp size bit : ℕ} (hbp : 4 ≤ bp) (haligned : size % 8 = 0)
    (hlarge : 16 ≤ size) (hbit : bit < 2) (hsize : size < 2 ^ 32) :
    BlockAt (putTags mem bp size bit) bp size bit := by
  have hword := pack_lt haligned hbit hsize
  refine ⟨?_, get_put_same _ hword⟩
  rw [putTags, get_put_far _ (by omega), get_put_same _ hword]

theorem putTags_changesIn (mem : Mem) (bit : ℕ) (hbp : 4 ≤ bp) (hlarge : 16 ≤ size) :
    ChangesIn mem (putTags mem bp size bit) (bp - 4) (bp + size - 4) :=
  (store_changesIn _ le_rfl (by omega)).trans (store_changesIn _ (by omega) (by omega))

end Tags

/-! ## Splitting and merging -/

theorem sub32_eq {left right : ℕ} (hle : right ≤ left) (hleft : left < 2 ^ 32) :
    sub32 left right = left - right := by
  rw [sub32]
  omega

theorem add32_eq {left right : ℕ} (hsum : left + right < 2 ^ 32) :
    add32 left right = left + right :=
  Nat.mod_eq_of_lt hsum

section Local

variable {mem : Mem} {bp size bit : ℕ}

/-- `place` tags the block as a whole, or its first part and the rest. -/
theorem place_eq {asize : ℕ} (hblock : BlockAt mem bp size bit) (haligned : size % 8 = 0)
    (hbit : bit < 2) (hsize : size < 2 ^ 32) (hbp : 4 ≤ bp) (hasize : asize % 8 = 0)
    (hlow : 16 ≤ asize) (hfit : asize ≤ size) :
    place mem bp asize =
      if 16 ≤ size - asize then
        putTags (putTags mem bp asize 1) (bp + asize) (size - asize) 0
      else putTags mem bp size 1 := by
  have hdiff := sub32_eq hfit hsize
  simp only [place, hblock.getSize haligned hbit hsize, hdiff, dsize]
  split
  · have htags := putTags_blockAt mem hbp hasize hlow (show 1 < 2 by omega) (by omega)
    rw [put_hdrp_ftrp mem hasize (by omega) (by omega),
      htags.nextBlkp hasize (by omega) (by omega),
      put_hdrp_ftrp _ (by omega) (by omega) (by omega)]
  · rw [put_hdrp_ftrp mem haligned (by omega) hsize]

/-- `place` leaves an allocated block of the size asked for at least. -/
theorem place_blockAt {asize : ℕ} (hblock : BlockAt mem bp size bit) (haligned : size % 8 = 0)
    (hbit : bit < 2) (hsize : size < 2 ^ 32) (hbp : 4 ≤ bp) (hasize : asize % 8 = 0)
    (hlow : 16 ≤ asize) (hfit : asize ≤ size) :
    ∃ bsize, asize ≤ bsize ∧ bsize ≤ size ∧ bsize % 8 = 0 ∧
      BlockAt (place mem bp asize) bp bsize 1 := by
  rw [place_eq hblock haligned hbit hsize hbp hasize hlow hfit]
  split
  · have hfirst := putTags_blockAt mem hbp hasize hlow (show 1 < 2 by decide)
      (show asize < 2 ^ 32 by omega)
    have hchanges := putTags_changesIn (putTags mem bp asize 1) 0 (show 4 ≤ bp + asize by omega)
      (show 16 ≤ size - asize by assumption)
    exact ⟨asize, le_rfl, hfit, hasize, (ChangesIn.get_eq hchanges (by omega)).trans hfirst.header,
      (ChangesIn.get_eq hchanges (by omega)).trans hfirst.footer⟩
  · exact ⟨size, hfit, le_rfl, haligned,
      putTags_blockAt mem hbp haligned (by omega) (by decide) hsize⟩

/-- The footer before `bp`, and what it says about the block before. -/
structure PrevAt (mem : Mem) (bp size bit : ℕ) : Prop where
  footer : get mem (bp - 8) = pack size bit
  header : get mem (bp - size - 4) = pack size bit
  room : size + 8 ≤ bp
  aligned : size % 8 = 0
  positive : 8 ≤ size
  small : size < 2 ^ 32

theorem PrevAt.prevBlkp {psize pbit : ℕ} (hprev : PrevAt mem bp psize pbit) (hbit : pbit < 2) :
    prevBlkp mem bp = bp - psize := by
  rw [Malloc.prevBlkp, Malloc.getSize, dsize, hprev.footer,
    tag_size hprev.aligned (by omega) hprev.small]

theorem PrevAt.getSize {psize pbit : ℕ} (hprev : PrevAt mem bp psize pbit) (hbit : pbit < 2) :
    Malloc.getSize mem (hdrp (bp - psize)) = psize := by
  rw [Malloc.getSize, hdrp, wsize, hprev.header,
    tag_size hprev.aligned (by omega) hprev.small]

theorem PrevAt.getAlloc {psize pbit : ℕ} (hprev : PrevAt mem bp psize pbit) (hbit : pbit < 2) :
    getAlloc mem (Malloc.ftrp mem (Malloc.prevBlkp mem bp)) = pbit := by
  have hroom := hprev.room
  have haddr : Malloc.ftrp mem (bp - psize) = bp - 8 := by
    rw [Malloc.ftrp, hprev.getSize hbit, dsize]
    omega
  rw [hprev.prevBlkp hbit, haddr, Malloc.getAlloc, hprev.footer, tag_alloc hprev.aligned hbit]

variable {psize nsize nbit : ℕ}

/-- The tests at the head of `coalesce`. -/
theorem coalesce_tests {pbit : ℕ} (hprev : PrevAt mem bp psize pbit) (hpbit : pbit < 2)
    (hblock : BlockAt mem bp size bit) (haligned : size % 8 = 0) (hbit : bit < 2)
    (hsize : size < 2 ^ 32) (hnext : get mem (bp + size - 4) = pack nsize nbit)
    (hnaligned : nsize % 8 = 0) (hnbit : nbit < 2) :
    getAlloc mem (ftrp mem (prevBlkp mem bp)) = pbit ∧
      getAlloc mem (hdrp (nextBlkp mem bp)) = nbit := by
  refine ⟨hprev.getAlloc hpbit, ?_⟩
  rw [hblock.nextBlkp haligned hbit hsize, hdrp, wsize, getAlloc, hnext,
    tag_alloc hnaligned hnbit]

theorem coalesce_none (hprev : PrevAt mem bp psize 1) (hblock : BlockAt mem bp size bit)
    (haligned : size % 8 = 0) (hbit : bit < 2) (hsize : size < 2 ^ 32)
    (hnext : get mem (bp + size - 4) = pack nsize 1) (hnaligned : nsize % 8 = 0) :
    coalesce mem bp = (bp, mem) := by
  obtain ⟨hprevAlloc, hnextAlloc⟩ := coalesce_tests hprev (by omega) hblock haligned hbit hsize
    hnext hnaligned (by omega)
  simp [coalesce, hprevAlloc, hnextAlloc]

/-- The third branch of `coalesce`: the block joins its left neighbour. -/
theorem coalesce_left (hprev : PrevAt mem bp psize 0) (hplarge : 16 ≤ psize)
    (hblock : BlockAt mem bp size bit) (haligned : size % 8 = 0) (hlarge : 16 ≤ size)
    (hbit : bit < 2) (hnext : get mem (bp + size - 4) = pack nsize 1)
    (hnaligned : nsize % 8 = 0) (hsum : size + psize < 2 ^ 32) :
    ∃ mem', coalesce mem bp = (bp - psize, mem') ∧
      BlockAt mem' (bp - psize) (size + psize) 0 ∧
      ChangesIn mem mem' (bp - psize - 4) (bp + size - 4) := by
  have hroom := hprev.room
  have hsize : size < 2 ^ 32 := by omega
  have hpal := hprev.aligned
  obtain ⟨hprevAlloc, hnextAlloc⟩ := coalesce_tests hprev (by omega) hblock haligned hbit hsize
    hnext hnaligned (by omega)
  let word := pack (size + psize) 0
  have hword : word < 2 ^ 32 := pack_lt (by omega) (by omega) hsum
  let mem₁ := put mem (bp + size - 8) word
  let mem₂ := put mem₁ (bp - psize - 4) word
  have hback₁ : prevBlkp mem₁ bp = bp - psize := by
    rw [prevBlkp, getSize, dsize, get_put_far _ (by omega), hprev.footer,
      tag_size hpal (by omega) hprev.small]
  have hback₂ : prevBlkp mem₂ bp = bp - psize := by
    rw [prevBlkp, getSize, dsize, get_put_far _ (by omega), get_put_far _ (by omega),
      hprev.footer, tag_size hpal (by omega) hprev.small]
  refine ⟨mem₂, ?_, ⟨?_, ?_⟩, ?_⟩
  · simp only [coalesce, hprevAlloc, hnextAlloc, ne_eq, not_true_eq_false, false_and, if_false,
      one_ne_zero, not_false_eq_true, and_self, if_true]
    rw [hblock.getSize haligned hbit hsize, hprev.prevBlkp (by omega), hprev.getSize (by omega),
      add32_eq hsum, hblock.ftrp haligned hbit hsize]
    change (prevBlkp (put mem₁ (hdrp (prevBlkp mem₁ bp)) word) bp,
      put mem₁ (hdrp (prevBlkp mem₁ bp)) word) = _
    rw [hback₁]
    exact Prod.ext hback₂ rfl
  · exact get_put_same _ hword
  · rw [show bp - psize + (size + psize) - 8 = bp + size - 8 by omega,
      get_put_far _ (by omega)]
    exact get_put_same _ hword
  · exact (store_changesIn _ (by omega) (by omega)).trans
      (store_changesIn _ (by omega) (by omega))

/-- The last branch of `coalesce`: the block joins both neighbours. -/
theorem coalesce_both (hprev : PrevAt mem bp psize 0) (hplarge : 16 ≤ psize)
    (hblock : BlockAt mem bp size bit) (haligned : size % 8 = 0) (hlarge : 16 ≤ size)
    (hbit : bit < 2) (hnext : BlockAt mem (bp + size) nsize 0)
    (hnaligned : nsize % 8 = 0) (hnlarge : 16 ≤ nsize)
    (hsum : size + (psize + nsize) < 2 ^ 32) :
    ∃ mem', coalesce mem bp = (bp - psize, mem') ∧
      BlockAt mem' (bp - psize) (size + (psize + nsize)) 0 ∧
      ChangesIn mem mem' (bp - psize - 4) (bp + size + nsize - 4) := by
  have hroom := hprev.room
  have hsize : size < 2 ^ 32 := by omega
  have hnsize : nsize < 2 ^ 32 := by omega
  have hpal := hprev.aligned
  obtain ⟨hprevAlloc, hnextAlloc⟩ := coalesce_tests hprev (by omega) hblock haligned hbit hsize
    hnext.header hnaligned (by omega)
  let word := pack (size + (psize + nsize)) 0
  have hword : word < 2 ^ 32 := pack_lt (by omega) (by omega) hsum
  let mem₁ := put mem (bp - psize - 4) word
  let mem₂ := put mem₁ (bp + size + nsize - 8) word
  have hfoot : getSize mem (bp + size + nsize - 8) = nsize := by
    rw [getSize, hnext.footer, tag_size hnaligned (by omega) hnsize]
  have hblock₁ : BlockAt mem₁ bp size bit :=
    ⟨(get_put_far _ (by omega)).trans hblock.header, (get_put_far _ (by omega)).trans hblock.footer⟩
  have hnext₁ : BlockAt mem₁ (bp + size) nsize 0 :=
    ⟨(get_put_far _ (by omega)).trans hnext.header, (get_put_far _ (by omega)).trans hnext.footer⟩
  have hback₂ : prevBlkp mem₂ bp = bp - psize := by
    rw [prevBlkp, getSize, dsize, get_put_far _ (by omega), get_put_far _ (by omega),
      hprev.footer, tag_size hpal (by omega) hprev.small]
  refine ⟨mem₂, ?_, ⟨?_, ?_⟩, ?_⟩
  · simp only [coalesce, hprevAlloc, hnextAlloc, ne_eq, not_true_eq_false, false_and, and_false,
      if_false]
    rw [hblock.getSize haligned hbit hsize, hprev.prevBlkp (by omega), hprev.getSize (by omega),
      hblock.nextBlkp haligned hbit hsize, hnext.ftrp hnaligned (by omega) hnsize, hfoot,
      add32_eq (show psize + nsize < 2 ^ 32 by omega), add32_eq hsum]
    change (prevBlkp (put mem₁ (ftrp mem₁ (nextBlkp mem₁ bp)) word) bp,
      put mem₁ (ftrp mem₁ (nextBlkp mem₁ bp)) word) = _
    rw [hblock₁.nextBlkp haligned hbit hsize, hnext₁.ftrp hnaligned (by omega) hnsize]
    exact Prod.ext hback₂ rfl
  · rw [get_put_far _ (by omega)]
    exact get_put_same _ hword
  · rw [show bp - psize + (size + (psize + nsize)) - 8 = bp + size + nsize - 8 by omega]
    exact get_put_same _ hword
  · exact (store_changesIn _ (by omega) (by omega)).trans
      (store_changesIn _ (by omega) (by omega))

end Local

/-! ## Runs of blocks -/

/-- The blocks lie end to end from the payload address `bp` to `stop`. -/
def Seg (mem : Mem) : ℕ → List Blk → ℕ → Prop
  | bp, [], stop => bp = stop
  | bp, blk :: blocks, stop =>
      BlockAt mem bp blk.size blk.alloc.toNat ∧ Seg mem (bp + blk.size) blocks stop

/-- The payload addresses of the allocated blocks. -/
def allocPtrs : ℕ → List Blk → List ℕ
  | _, [] => []
  | bp, blk :: blocks =>
      if blk.alloc then bp :: allocPtrs (bp + blk.size) blocks
      else allocPtrs (bp + blk.size) blocks

section Segments

variable {mem mem' : Mem} {bp mid stop lo hi : ℕ} {xs ys blocks : List Blk}

theorem seg_append :
    Seg mem bp (xs ++ ys) stop ↔ ∃ mid, Seg mem bp xs mid ∧ Seg mem mid ys stop := by
  induction xs generalizing bp with
  | nil => simp [Seg]
  | cons blk xs ih => simp [Seg, ih, and_assoc]

theorem seg_singleton {blk : Blk} :
    Seg mem bp [blk] stop ↔ BlockAt mem bp blk.size blk.alloc.toNat ∧ bp + blk.size = stop :=
  Iff.rfl

theorem Seg.length_le (hseg : Seg mem bp blocks stop) : bp + 16 * blocks.length ≤ stop := by
  induction blocks generalizing bp with
  | nil => exact le_of_eq hseg
  | cons blk blocks ih =>
      have htail := ih hseg.2
      have hlarge := blk.large
      simp only [List.length_cons]
      omega

theorem Seg.le (hseg : Seg mem bp blocks stop) : bp ≤ stop :=
  (Nat.le_add_right _ _).trans hseg.length_le

/-- A change outside the bytes of a run keeps its tags. -/
theorem Seg.congr (hseg : Seg mem bp blocks stop) (hbp : 4 ≤ bp)
    (hchanges : ChangesIn mem mem' lo hi) (hout : stop ≤ lo + 4 ∨ hi + 4 ≤ bp) :
    Seg mem' bp blocks stop := by
  induction blocks generalizing bp with
  | nil => exact hseg
  | cons blk blocks ih =>
      obtain ⟨hblock, htail⟩ := hseg
      have hlarge := blk.large
      have hle := htail.le
      refine ⟨⟨?_, ?_⟩, ih htail (by omega) (by omega)⟩
      · rw [ChangesIn.get_eq hchanges (by omega), hblock.header]
      · rw [ChangesIn.get_eq hchanges (by omega), hblock.footer]

theorem Seg.allocPtrs_append (hseg : Seg mem bp xs mid) :
    allocPtrs bp (xs ++ ys) = allocPtrs bp xs ++ allocPtrs mid ys := by
  induction xs generalizing bp with
  | nil => simp [allocPtrs, show bp = mid from hseg]
  | cons blk xs ih =>
      simp only [List.cons_append, allocPtrs, ih hseg.2]
      split <;> rfl

/-- Where a pointer to an allocated block lies in the run. -/
theorem Seg.split_of_mem {ptr : ℕ} (hseg : Seg mem bp blocks stop)
    (hptr : ptr ∈ allocPtrs bp blocks) :
    ∃ xs blk ys, blocks = xs ++ blk :: ys ∧ blk.alloc = true ∧ Seg mem bp xs ptr ∧
      BlockAt mem ptr blk.size 1 ∧ Seg mem (ptr + blk.size) ys stop := by
  induction blocks generalizing bp with
  | nil => simp [allocPtrs] at hptr
  | cons blk blocks ih =>
      obtain ⟨hblock, htail⟩ := hseg
      by_cases hhere : blk.alloc = true ∧ ptr = bp
      · obtain ⟨halloc, rfl⟩ := hhere
        rw [halloc] at hblock
        exact ⟨[], blk, blocks, rfl, halloc, rfl, hblock, htail⟩
      · have hlater : ptr ∈ allocPtrs (bp + blk.size) blocks := by
          simp only [allocPtrs] at hptr
          split at hptr <;> simp_all
        obtain ⟨xs, found, ys, rfl, halloc, hleft, hfound, hright⟩ := ih htail hlater
        exact ⟨blk :: xs, found, ys, rfl, halloc, ⟨hblock, hleft⟩, hfound, hright⟩

theorem Seg.ptr_mem_bounds {ptr : ℕ} (hseg : Seg mem bp blocks stop)
    (hptr : ptr ∈ allocPtrs bp blocks) : bp ≤ ptr ∧ ptr + 16 ≤ stop := by
  obtain ⟨xs, blk, ys, -, -, hleft, -, hright⟩ := hseg.split_of_mem hptr
  have hlarge := blk.large
  have hle := hleft.le
  have hle' := hright.le
  omega

end Segments

/-! ## Payloads -/

/-- The payloads at `ptrs` have kept their length and their bytes. -/
def KeepsPayloads (ptrs : List ℕ) (mem mem' : Mem) : Prop :=
  ∀ ptr ∈ ptrs, payload mem' ptr = payload mem ptr ∧
    AgreeOn mem mem' ptr (ptr + payload mem ptr)

section Payloads

variable {mem mem' : Mem} {bp mid stop lo hi : ℕ} {blocks : List Blk} {ptrs : List ℕ}

theorem KeepsPayloads.trans {mem'' : Mem} (hleft : KeepsPayloads ptrs mem mem')
    (hright : KeepsPayloads ptrs mem' mem'') : KeepsPayloads ptrs mem mem'' := by
  intro ptr hptr
  obtain ⟨hsize, hbytes⟩ := hleft ptr hptr
  obtain ⟨hsize', hbytes'⟩ := hright ptr hptr
  rw [hsize] at hsize' hbytes'
  exact ⟨hsize', hbytes.trans hbytes'⟩

theorem KeepsPayloads.mono {ptrs' : List ℕ} (hkeeps : KeepsPayloads ptrs mem mem')
    (hsub : ∀ ptr ∈ ptrs', ptr ∈ ptrs) : KeepsPayloads ptrs' mem mem' := fun ptr hptr =>
  hkeeps ptr (hsub ptr hptr)

theorem KeepsPayloads.append {ptrs' : List ℕ} (hleft : KeepsPayloads ptrs mem mem')
    (hright : KeepsPayloads ptrs' mem mem') : KeepsPayloads (ptrs ++ ptrs') mem mem' := by
  intro ptr hptr
  cases List.mem_append.mp hptr with
  | inl hmem => exact hleft ptr hmem
  | inr hmem => exact hright ptr hmem

/-- The header gives the payload its length. -/
theorem BlockAt.payload_eq {size bit : ℕ} (hblock : BlockAt mem bp size bit)
    (haligned : size % 8 = 0) (hbit : bit < 2) (hsize : size < 2 ^ 32) :
    payload mem bp = size - 8 := by
  rw [payload, hblock.getSize haligned hbit hsize, dsize]

/-- A change outside the bytes of a run keeps the payloads in it. -/
theorem Seg.keepsPayloads (hseg : Seg mem bp blocks stop) (hbp : 4 ≤ bp)
    (hstop : stop - bp < 2 ^ 32) (hchanges : ChangesIn mem mem' lo hi)
    (hout : stop ≤ lo + 4 ∨ hi + 4 ≤ bp) : KeepsPayloads (allocPtrs bp blocks) mem mem' := by
  intro ptr hptr
  obtain ⟨xs, blk, ys, -, halloc, hleft, hblock, hright⟩ := hseg.split_of_mem hptr
  have hlarge := blk.large
  have hle := hleft.le
  have hle' := hright.le
  have hsize : blk.size < 2 ^ 32 := by omega
  have hblock' : BlockAt mem' ptr blk.size 1 := by
    refine ⟨?_, ?_⟩
    · rw [ChangesIn.get_eq hchanges (by omega), hblock.header]
    · rw [ChangesIn.get_eq hchanges (by omega), hblock.footer]
  rw [hblock.payload_eq blk.aligned (by omega) hsize,
    hblock'.payload_eq blk.aligned (by omega) hsize]
  exact ⟨rfl, hchanges.agreeOn (by omega)⟩

end Payloads

/-! ## The tiled heap -/

/-- The words around the blocks: prologue and epilogue. -/
structure Frame (heap : Heap) : Prop where
  start : 8 ≤ heap.heapStart
  prologue : get heap.mem (heap.heapStart - 4) = pack 8 1
  prologueFooter : get heap.mem heap.heapStart = pack 8 1
  epilogue : get heap.mem (heap.heapEnd - 4) = pack 0 1
  bounded : heap.heapEnd ≤ heap.heapStart + sbrkLimit

/-- The blocks fill the heap between prologue and epilogue. -/
structure Tiled (heap : Heap) (blocks : List Blk) : Prop extends Frame heap where
  seg : Seg heap.mem (heap.heapStart + 8) blocks heap.heapEnd

/-- A tiled heap seen around the run `mid`, which starts at `lo` and stops at `hi`. -/
structure Cut (heap : Heap) (xs mid ys : List Blk) (lo hi : ℕ) : Prop extends Frame heap where
  left : Seg heap.mem (heap.heapStart + 8) xs lo
  middle : Seg heap.mem lo mid hi
  right : Seg heap.mem hi ys heap.heapEnd

/-- No two neighbours are both free. -/
def Apart (blocks : List Blk) : Prop :=
  blocks.IsChain fun left right => left.alloc = true ∨ right.alloc = true

section Cuts

variable {heap : Heap} {xs mid mid' ys : List Blk} {lo hi : ℕ}

theorem Cut.tiled (hcut : Cut heap xs mid ys lo hi) : Tiled heap (xs ++ (mid ++ ys)) :=
  ⟨hcut.toFrame, seg_append.mpr ⟨lo, hcut.left, seg_append.mpr ⟨hi, hcut.middle, hcut.right⟩⟩⟩

theorem Cut.lo_ge (hcut : Cut heap xs mid ys lo hi) : 16 ≤ lo ∧ heap.heapStart + 8 ≤ lo := by
  have hstart := hcut.start
  have hle := hcut.left.le
  omega

theorem Cut.hi_le (hcut : Cut heap xs mid ys lo hi) :
    lo ≤ hi ∧ hi ≤ heap.heapEnd ∧ hi - lo < 2 ^ 32 ∧ heap.heapEnd - (heap.heapStart + 8) < 2 ^ 32 := by
  have hbounded := hcut.bounded
  have hle := hcut.left.le
  have hle' := hcut.middle.le
  have hle'' := hcut.right.le
  simp only [sbrkLimit] at hbounded
  omega

theorem Cut.allocPtrs_eq (hcut : Cut heap xs mid ys lo hi) :
    allocPtrs (heap.heapStart + 8) (xs ++ (mid ++ ys)) =
      allocPtrs (heap.heapStart + 8) xs ++ (allocPtrs lo mid ++ allocPtrs hi ys) := by
  rw [hcut.left.allocPtrs_append, hcut.middle.allocPtrs_append]

/-- An operation that rewrites the middle run only. -/
theorem Cut.replace (hcut : Cut heap xs mid ys lo hi) {mem' : Mem}
    (hchanges : ChangesIn heap.mem mem' (lo - 4) (hi - 4)) (hmid : Seg mem' lo mid' hi) :
    Cut { heap with mem := mem' } xs mid' ys lo hi := by
  have hstart := hcut.start
  have hlo := hcut.lo_ge
  have hhi := hcut.hi_le
  have hkeep : ∀ p, p + 4 ≤ lo - 4 ∨ hi - 4 ≤ p → get mem' p = get heap.mem p :=
    fun p hout => ChangesIn.get_eq hchanges hout
  constructor
  · exact ⟨hstart, (hkeep (heap.heapStart - 4) (by omega)).trans hcut.prologue,
      (hkeep heap.heapStart (by omega)).trans hcut.prologueFooter,
      (hkeep (heap.heapEnd - 4) (by omega)).trans hcut.epilogue, hcut.bounded⟩
  · exact hcut.left.congr (by omega) hchanges (by omega)
  · exact hmid
  · exact hcut.right.congr (by omega) hchanges (by omega)

theorem Cut.keepsPayloads (hcut : Cut heap xs mid ys lo hi) {mem' : Mem}
    (hchanges : ChangesIn heap.mem mem' (lo - 4) (hi - 4)) :
    KeepsPayloads (allocPtrs (heap.heapStart + 8) xs ++ allocPtrs hi ys) heap.mem mem' := by
  have hlo := hcut.lo_ge
  have hhi := hcut.hi_le
  apply KeepsPayloads.append
  · exact hcut.left.keepsPayloads (by omega) (by omega) hchanges (by omega)
  · exact hcut.right.keepsPayloads (by omega) (by omega) hchanges (by omega)

theorem Tiled.cut {blocks : List Blk} {blk : Blk} (htiled : Tiled heap blocks)
    (hleft : Seg heap.mem (heap.heapStart + 8) xs lo)
    (hblock : BlockAt heap.mem lo blk.size blk.alloc.toNat)
    (hright : Seg heap.mem (lo + blk.size) ys heap.heapEnd) :
    Cut heap xs [blk] ys lo (lo + blk.size) :=
  ⟨htiled.toFrame, hleft, ⟨hblock, rfl⟩, hright⟩

/-- What `coalesce` finds before a run that starts right after the prologue. -/
theorem Cut.prevAt_nil (hcut : Cut heap [] mid ys lo hi) : PrevAt heap.mem lo 8 1 := by
  have hlo : heap.heapStart + 8 = lo := hcut.left
  have hstart := hcut.start
  constructor
  · rw [show lo - 8 = heap.heapStart by omega, hcut.prologueFooter]
  · rw [show lo - 8 - 4 = heap.heapStart - 4 by omega, hcut.prologue]
  · omega
  · rfl
  · exact le_rfl
  · omega

/-- What `coalesce` finds before a run that follows a block. -/
theorem Cut.prevAt_concat {prev : Blk} (hcut : Cut heap (xs ++ [prev]) mid ys lo hi) :
    PrevAt heap.mem lo prev.size prev.alloc.toNat ∧
      Cut heap xs (prev :: mid) ys (lo - prev.size) hi := by
  obtain ⟨from_, hleft, hprev, hlo⟩ := seg_append.mp hcut.left
  change from_ + prev.size = lo at hlo
  have hlarge := prev.large
  have hfrom := hleft.le
  have hstart := hcut.start
  have hhi := hcut.hi_le
  have hback : lo - prev.size = from_ := by omega
  refine ⟨⟨?_, ?_, by omega, prev.aligned, by omega, by omega⟩, hcut.toFrame, ?_, ?_, hcut.right⟩
  · rw [← hprev.footer, hlo]
  · rw [hback, hprev.header]
  · rw [hback]
    exact hleft
  · rw [hback]
    refine ⟨hprev, ?_⟩
    rw [hlo]
    exact hcut.middle

end Cuts

section Neighbours

variable {xs ys : List Blk} {blk : Blk}

theorem apart_cons_free (hfree : blk.alloc = false) (hapart : Apart (blk :: ys)) :
    ∀ next ∈ ys.head?, next.alloc = true := by
  intro next hnext
  obtain ⟨rest, rfl⟩ : ∃ rest, ys = next :: rest := by
    cases ys with
    | nil => simp at hnext
    | cons head rest =>
        simp only [List.head?_cons, Option.mem_def, Option.some.injEq] at hnext
        exact ⟨rest, by rw [hnext]⟩
  have hor := (List.isChain_cons_cons.mp hapart).1
  simpa [hfree] using hor

theorem apart_concat_free (hfree : blk.alloc = false) (hapart : Apart (xs ++ [blk])) :
    ∀ prev ∈ xs.getLast?, prev.alloc = true := by
  intro prev hprev
  have hor := (List.isChain_append.mp hapart).2.2 prev hprev blk (by simp)
  simpa [hfree] using hor

/-- A block fits between two runs when it is allocated or both its neighbours are. -/
theorem apart_middle (hleft : Apart xs) (hright : Apart ys)
    (hprev : blk.alloc = true ∨ ∀ prev ∈ xs.getLast?, prev.alloc = true)
    (hnext : blk.alloc = true ∨ ∀ next ∈ ys.head?, next.alloc = true) :
    Apart (xs ++ blk :: ys) := by
  refine List.isChain_append.mpr ⟨hleft, ?_, ?_⟩
  · refine List.isChain_cons.mpr ⟨fun next hmem => ?_, hright⟩
    exact hnext.imp id fun hall => hall next hmem
  · intro prev hmem head hhead
    simp only [List.head?_cons, Option.mem_def, Option.some.injEq] at hhead
    subst hhead
    exact (hprev.imp id fun hall => hall prev hmem).symm

end Neighbours

/-! ## The operations on a tiled heap -/

/-- The branch of `coalesce` that joins a block with its right neighbour only. -/
def JoinsRight (mem : Mem) (ptr : ℕ) : Prop :=
  getAlloc mem (ftrp mem (prevBlkp mem ptr)) ≠ 0 ∧ getAlloc mem (hdrp (nextBlkp mem ptr)) = 0

/-- A free block of at least `size` bytes at `bp`, in a heap without free neighbours. -/
structure FreeAt (heap : Heap) (xs : List Blk) (blk : Blk) (ys : List Blk) (bp size : ℕ) :
    Prop where
  cut : Cut heap xs [blk] ys bp (bp + blk.size)
  free : blk.alloc = false
  apart : Apart (xs ++ blk :: ys)
  fits : size ≤ blk.size

section Operations

variable {heap : Heap} {xs mid ys : List Blk} {blk prev next : Blk} {bp hi : ℕ}

/-- The pointers held across a merge that ends in one free block. -/
structure Merged (heap : Heap) (mem' : Mem) (bp size : ℕ) (ptrs : List ℕ) : Prop where
  freeAt : ∃ xs blk ys, FreeAt { heap with mem := mem' } xs blk ys bp size ∧
    allocPtrs (heap.heapStart + 8) (xs ++ blk :: ys) = ptrs
  keeps : KeepsPayloads ptrs heap.mem mem'

/-- A stretch of free blocks replaced by one free block. -/
theorem Cut.merge (hcut : Cut heap xs mid ys bp hi) (hmid : allocPtrs bp mid = [])
    (hfree : blk.alloc = false) (hhi : bp + blk.size = hi) {mem' : Mem}
    (hchanges : ChangesIn heap.mem mem' (bp - 4) (hi - 4))
    (hblock : BlockAt mem' bp blk.size 0) (hxs : Apart xs) (hys : Apart ys)
    (hprev : ∀ prev ∈ xs.getLast?, prev.alloc = true)
    (hnext : ∀ next ∈ ys.head?, next.alloc = true) {size : ℕ} (hsize : size ≤ blk.size) :
    Merged heap mem' bp size (allocPtrs (heap.heapStart + 8) (xs ++ (mid ++ ys))) := by
  have hone : Seg mem' bp [blk] hi := ⟨by rw [hfree]; exact hblock, hhi⟩
  have hnew := hcut.replace hchanges hone
  have hptrs := hcut.allocPtrs_eq
  rw [hmid, List.nil_append] at hptrs
  have hptrs' := hnew.allocPtrs_eq
  rw [show allocPtrs bp [blk] = [] by simp [allocPtrs, hfree], List.nil_append] at hptrs'
  refine ⟨⟨xs, blk, ys, ⟨?_, hfree, apart_middle hxs hys (.inr hprev) (.inr hnext), hsize⟩, ?_⟩, ?_⟩
  · rw [hhi]
    exact hnew
  · rw [hptrs]
    exact hptrs'
  · rw [hptrs]
    exact hcut.keepsPayloads hchanges

/-- What lies before a block: something allocated, or a free block. -/
theorem Cut.prev_cases (hcut : Cut heap xs [blk] ys bp hi) :
    (∃ psize, PrevAt heap.mem bp psize 1 ∧ ∀ prev ∈ xs.getLast?, prev.alloc = true) ∨
      ∃ zs prev, xs = zs ++ [prev] ∧ prev.alloc = false ∧ PrevAt heap.mem bp prev.size 0 ∧
        Cut heap zs [prev, blk] ys (bp - prev.size) hi := by
  obtain rfl | ⟨zs, prev, rfl⟩ := List.eq_nil_or_concat' xs
  · exact .inl ⟨8, hcut.prevAt_nil, by simp⟩
  · obtain ⟨hprev, hwide⟩ := hcut.prevAt_concat
    cases hbit : prev.alloc with
    | true =>
        rw [hbit] at hprev
        exact .inl ⟨prev.size, hprev, by simp [hbit]⟩
    | false =>
        rw [hbit] at hprev
        exact .inr ⟨zs, prev, rfl, hbit, hprev, hwide⟩

/-- What lies after a block: something allocated, or a free block. -/
theorem Cut.next_cases (hcut : Cut heap xs mid ys bp hi) :
    (∃ nsize, nsize % 8 = 0 ∧ get heap.mem (hi - 4) = pack nsize 1 ∧
        ∀ next ∈ ys.head?, next.alloc = true) ∨
      ∃ next zs, ys = next :: zs ∧ next.alloc = false ∧ BlockAt heap.mem hi next.size 0 ∧
        Seg heap.mem (hi + next.size) zs heap.heapEnd := by
  have hright := hcut.right
  cases ys with
  | nil =>
      have hend : hi = heap.heapEnd := hright
      exact .inl ⟨0, rfl, by rw [hend, hcut.epilogue], by simp⟩
  | cons next zs =>
      obtain ⟨hnext, hrest⟩ := hright
      cases hbit : next.alloc with
      | true =>
          rw [hbit] at hnext
          exact .inl ⟨next.size, next.aligned, hnext.header, by simp [hbit]⟩
      | false =>
          rw [hbit] at hnext
          exact .inr ⟨next, zs, rfl, hbit, hnext, hrest⟩

/-- `coalesce` on a free block outside the branch that joins it to the right. -/
theorem Cut.coalesce (hcut : Cut heap xs [blk] ys bp hi) (hfree : blk.alloc = false)
    (hxs : Apart xs) (hys : Apart ys) (hjoins : ¬ JoinsRight heap.mem bp) :
    ∃ bp' mem', coalesce heap.mem bp = (bp', mem') ∧
      Merged heap mem' bp' blk.size (allocPtrs (heap.heapStart + 8) (xs ++ ([blk] ++ ys))) := by
  obtain ⟨hblock, rfl⟩ := seg_singleton.mp hcut.middle
  rw [hfree] at hblock
  have hlarge := blk.large
  have haligned := blk.aligned
  have hlo := hcut.lo_ge
  have hhi := hcut.hi_le
  have hsize : blk.size < 2 ^ 32 := by omega
  obtain ⟨psize, hprev, hlast⟩ | ⟨zs, prev, rfl, hpfree, hprev, hwide⟩ := hcut.prev_cases
  · obtain ⟨nsize, hnaligned, hnext, hhead⟩ | ⟨next, ws, rfl, -, hnext, -⟩ := hcut.next_cases
    · refine ⟨bp, heap.mem, coalesce_none hprev hblock haligned (by decide) hsize hnext hnaligned, ?_⟩
      exact hcut.merge (by simp [allocPtrs, hfree]) hfree rfl (ChangesIn.refl _ _ _) hblock hxs hys
        hlast hhead le_rfl
    · have htests := coalesce_tests hprev (by decide) hblock haligned (by decide) hsize
        hnext.header next.aligned (by decide)
      exact absurd ⟨by simp [htests.1], htests.2⟩ hjoins
  · have hplarge := prev.large
    have hpaligned := prev.aligned
    have hroom := hprev.room
    have hzs : Apart zs := (List.isChain_append.mp hxs).1
    have hzlast := apart_concat_free hpfree hxs
    have hwhi := hwide.hi_le
    obtain ⟨nsize, hnaligned, hnext, hhead⟩ | ⟨next, ws, rfl, hnfree, hnext, hrest⟩ :=
      hcut.next_cases
    · obtain ⟨mem', hcoalesce, hblock', hchanges⟩ := coalesce_left hprev hplarge hblock haligned
        hlarge (by decide) hnext hnaligned (by omega)
      have haligned' : (blk.size + prev.size) % 8 = 0 := by omega
      have hlarge' : 16 ≤ blk.size + prev.size := by omega
      have hmerge := hwide.merge (by simp [allocPtrs, hpfree, hfree])
        (show (Blk.mk _ false haligned' hlarge').alloc = false from rfl)
        (show bp - prev.size + (blk.size + prev.size) = bp + blk.size by omega) hchanges hblock'
        hzs hys hzlast hhead (show blk.size ≤ blk.size + prev.size by omega)
      exact ⟨_, mem', hcoalesce, by simpa using hmerge⟩
    · have hnlarge := next.large
      have hnaligned := next.aligned
      have hle := hrest.le
      have hnhi := hcut.hi_le
      have hall : Cut heap zs [prev, blk, next] ws (bp - prev.size) (bp + blk.size + next.size) := by
        refine ⟨hcut.toFrame, hwide.left, ?_, hrest⟩
        obtain ⟨hpblock, hmiddle, -⟩ := hwide.middle
        refine ⟨hpblock, hmiddle, ?_, ?_⟩
        · rw [hnfree, show bp - prev.size + prev.size + blk.size = bp + blk.size by omega]
          exact hnext
        · show bp - prev.size + prev.size + blk.size + next.size = bp + blk.size + next.size
          omega
      have hbound := hall.hi_le
      obtain ⟨mem', hcoalesce, hblock', hchanges⟩ := coalesce_both hprev hplarge hblock haligned
        hlarge (by decide) hnext hnaligned hnlarge (by omega)
      have haligned' : (blk.size + (prev.size + next.size)) % 8 = 0 := by omega
      have hlarge' : 16 ≤ blk.size + (prev.size + next.size) := by omega
      have hmerge := hall.merge (by simp [allocPtrs, hpfree, hfree, hnfree])
        (show (Blk.mk _ false haligned' hlarge').alloc = false from rfl)
        (show bp - prev.size + (blk.size + (prev.size + next.size)) = bp + blk.size + next.size by
          omega) hchanges hblock' hzs (List.isChain_cons.mp hys).2 hzlast
        (apart_cons_free hnfree hys) (show blk.size ≤ blk.size + (prev.size + next.size) by omega)
      exact ⟨_, mem', hcoalesce, by simpa using hmerge⟩

/-- `place` turns a free block into an allocated one, with the rest of it free. -/
theorem FreeAt.place {asize : ℕ} (hat : FreeAt heap xs blk ys bp asize)
    (hasize : asize % 8 = 0) (hlow : 16 ≤ asize) :
    ∃ blocks, Tiled { heap with mem := place heap.mem bp asize } blocks ∧ Apart blocks ∧
      (bp :: allocPtrs (heap.heapStart + 8) (xs ++ blk :: ys)).Perm
        (allocPtrs (heap.heapStart + 8) blocks) ∧
      KeepsPayloads (allocPtrs (heap.heapStart + 8) (xs ++ blk :: ys)) heap.mem
        (place heap.mem bp asize) := by
  have hcut := hat.cut
  have hfree := hat.free
  have hfits := hat.fits
  obtain ⟨hblock, -⟩ := seg_singleton.mp hcut.middle
  have haligned := blk.aligned
  have hlarge := blk.large
  have hlo := hcut.lo_ge
  have hhi := hcut.hi_le
  have hsize : blk.size < 2 ^ 32 := by omega
  obtain ⟨hxs, hrest, -⟩ := List.isChain_append.mp hat.apart
  have hys : Apart ys := (List.isChain_cons.mp hrest).2
  have hhead := apart_cons_free hfree hrest
  have hbefore : allocPtrs (heap.heapStart + 8) (xs ++ blk :: ys) =
      allocPtrs (heap.heapStart + 8) xs ++ allocPtrs (bp + blk.size) ys := by
    have hptrs := hcut.allocPtrs_eq
    simpa [allocPtrs, hfree] using hptrs
  suffices hmid : ∃ mid, Seg (Malloc.place heap.mem bp asize) bp mid (bp + blk.size) ∧
      Apart (xs ++ (mid ++ ys)) ∧ allocPtrs bp mid = [bp] ∧
      ChangesIn heap.mem (Malloc.place heap.mem bp asize) (bp - 4) (bp + blk.size - 4) by
    obtain ⟨mid, hseg, hapart, hptr, hchanges⟩ := hmid
    have hnew := hcut.replace hchanges hseg
    refine ⟨_, hnew.tiled, hapart, ?_, ?_⟩
    · have hafter := hnew.allocPtrs_eq
      rw [hptr] at hafter
      change allocPtrs (heap.heapStart + 8) (xs ++ (mid ++ ys)) = _ at hafter
      rw [hafter, hbefore]
      exact List.perm_middle.symm
    · rw [hbefore]
      exact hcut.keepsPayloads hchanges
  have hplace := place_eq hblock haligned blk.alloc.toNat_lt hsize (by omega) hasize hlow hfits
  by_cases hsplit : 16 ≤ blk.size - asize
  · rw [if_pos hsplit] at hplace
    have hraligned : (blk.size - asize) % 8 = 0 := by omega
    have hfirst := putTags_blockAt heap.mem (show 4 ≤ bp by omega) hasize hlow
      (show 1 < 2 by decide) (show asize < 2 ^ 32 by omega)
    have hchanges₁ := putTags_changesIn heap.mem 1 (show 4 ≤ bp by omega) hlow
    have hchanges₂ := putTags_changesIn (putTags heap.mem bp asize 1) 0
      (show 4 ≤ bp + asize by omega) hsplit
    have hhead' : BlockAt (putTags (putTags heap.mem bp asize 1) (bp + asize) (blk.size - asize) 0)
        bp asize 1 :=
      ⟨(ChangesIn.get_eq hchanges₂ (by omega)).trans hfirst.header,
        (ChangesIn.get_eq hchanges₂ (by omega)).trans hfirst.footer⟩
    refine ⟨[⟨asize, true, hasize, hlow⟩, ⟨blk.size - asize, false, hraligned, hsplit⟩],
      ?_, ?_, ?_, ?_⟩
    · rw [hplace]
      refine ⟨hhead', ?_, ?_⟩
      · exact putTags_blockAt _ (by omega) hraligned hsplit (by decide) (by omega)
      · show bp + asize + (blk.size - asize) = bp + blk.size
        omega
    · apply apart_middle hxs _ (.inl rfl) (.inl rfl)
      exact List.isChain_cons.mpr ⟨fun next hnext => .inr (hhead next hnext), hys⟩
    · simp [allocPtrs]
    · rw [hplace]
      exact (hchanges₁.mono (by omega) (by omega)).trans (hchanges₂.mono (by omega) (by omega))
  · rw [if_neg hsplit] at hplace
    refine ⟨[⟨blk.size, true, haligned, hlarge⟩], ?_, ?_, ?_, ?_⟩
    · rw [hplace]
      exact ⟨putTags_blockAt _ (by omega) haligned hlarge (by decide) hsize, rfl⟩
    · exact apart_middle hxs hys (.inl rfl) (.inl rfl)
    · simp [allocPtrs]
    · rw [hplace]
      exact putTags_changesIn _ _ (by omega) hlarge

/-- `extend_heap` up to its `coalesce`: the new block is the last one of the heap. -/
theorem Tiled.extendHeap_cut {blocks : List Blk} {size : ℕ} (htiled : Tiled heap blocks)
    (haligned : size % 8 = 0) (hlarge : 16 ≤ size)
    (hroom : heap.heapEnd + size ≤ heap.heapStart + sbrkLimit) :
    ∃ mem', Cut ⟨mem', heap.heapStart, heap.heapEnd + size⟩ blocks
        [⟨size, false, haligned, hlarge⟩] [] heap.heapEnd (heap.heapEnd + size) ∧
      ChangesIn heap.mem mem' (heap.heapEnd - 4) (heap.heapEnd + size) ∧
      extendHeap heap (size / wsize) true =
        some ((Malloc.coalesce mem' heap.heapEnd).1,
          ⟨(Malloc.coalesce mem' heap.heapEnd).2, heap.heapStart, heap.heapEnd + size⟩) := by
  have hstart := htiled.start
  have hle := htiled.seg.le
  have hlimit : size ≤ sbrkLimit := by omega
  simp only [sbrkLimit] at hlimit
  let mem₁ := putTags heap.mem heap.heapEnd size 0
  let mem₂ := put mem₁ (heap.heapEnd + size - 4) (pack 0 1)
  have htags : BlockAt mem₁ heap.heapEnd size 0 :=
    putTags_blockAt _ (by omega) haligned hlarge (by decide) (by omega)
  have hchanges : ChangesIn heap.mem mem₂ (heap.heapEnd - 4) (heap.heapEnd + size) :=
    ((putTags_changesIn _ _ (by omega) hlarge).mono le_rfl (by omega)).trans
      (store_changesIn _ (by omega) (by omega))
  have hblock : BlockAt mem₂ heap.heapEnd size 0 :=
    ⟨(get_put_far _ (by omega)).trans htags.header, (get_put_far _ (by omega)).trans htags.footer⟩
  have hkeep : ∀ p, p + 4 ≤ heap.heapEnd - 4 → get mem₂ p = get heap.mem p := fun p hout =>
    ChangesIn.get_eq hchanges (.inl hout)
  refine ⟨mem₂, ⟨⟨hstart, ?_, ?_, get_put_same _ (by decide), hroom⟩, ?_, ⟨hblock, rfl⟩, rfl⟩,
    hchanges, ?_⟩
  · exact (hkeep (heap.heapStart - 4) (by omega)).trans htiled.prologue
  · exact (hkeep heap.heapStart (by omega)).trans htiled.prologueFooter
  · exact htiled.seg.congr (by omega) hchanges (by omega)
  · have hwords : size / wsize % 2 = 0 := by
      rw [wsize]
      omega
    have hback : size / wsize * wsize % 2 ^ 32 = size := by
      rw [wsize]
      omega
    have hsbrk : memSbrk heap size true =
        some (heap.heapEnd, ⟨heap.mem, heap.heapStart, heap.heapEnd + size⟩) := by
      rw [memSbrk, if_neg (by omega), if_pos rfl]
    simp only [Malloc.extendHeap, hwords, zero_ne_one, if_false, hback, hsbrk, Option.map_some]
    rw [put_hdrp_ftrp heap.mem haligned (by decide) (by omega),
      htags.nextBlkp haligned (by decide) (by omega)]
    rfl

/-- `extend_heap` ends in a free block of the size asked for. -/
theorem Tiled.extendHeap {blocks : List Blk} {size : ℕ} (htiled : Tiled heap blocks)
    (hapart : Apart blocks) (haligned : size % 8 = 0) (hlarge : 16 ≤ size)
    (hroom : heap.heapEnd + size ≤ heap.heapStart + sbrkLimit) :
    ∃ bp heap' xs blk ys, extendHeap heap (size / wsize) true = some (bp, heap') ∧
      FreeAt heap' xs blk ys bp size ∧ heap'.heapStart = heap.heapStart ∧
      allocPtrs (heap.heapStart + 8) (xs ++ blk :: ys) =
        allocPtrs (heap.heapStart + 8) blocks ∧
      KeepsPayloads (allocPtrs (heap.heapStart + 8) blocks) heap.mem heap'.mem := by
  have hstart := htiled.start
  obtain ⟨mem₂, hcut, hchanges, hextend⟩ := htiled.extendHeap_cut haligned hlarge hroom
  have hjoins : ¬ JoinsRight mem₂ heap.heapEnd := by
    rintro ⟨-, hnext⟩
    have hsize := hcut.hi_le
    have hblock : BlockAt mem₂ heap.heapEnd size 0 := (seg_singleton.mp hcut.middle).1
    have hepilogue : get mem₂ (heap.heapEnd + size - 4) = pack 0 1 := hcut.epilogue
    rw [hblock.nextBlkp haligned (by decide) (by omega), hdrp, wsize, getAlloc, hepilogue,
      tag_alloc rfl (by decide)] at hnext
    exact absurd hnext (by decide)
  obtain ⟨bp, mem', hcoalesce, ⟨⟨xs, blk, ys, hat, hptrs⟩, hkeeps⟩⟩ :=
    hcut.coalesce rfl hapart List.isChain_nil hjoins
  have hsame : allocPtrs (heap.heapStart + 8) (blocks ++ ([⟨size, false, haligned, hlarge⟩] ++ [])) =
      allocPtrs (heap.heapStart + 8) blocks := by
    rw [htiled.seg.allocPtrs_append]
    simp [allocPtrs]
  have hgrow : KeepsPayloads (allocPtrs (heap.heapStart + 8) blocks) heap.mem mem₂ := by
    have hbounded := htiled.bounded
    simp only [sbrkLimit] at hbounded
    exact htiled.seg.keepsPayloads (by omega) (by omega) hchanges (by omega)
  change allocPtrs (heap.heapStart + 8) (xs ++ blk :: ys) = allocPtrs (heap.heapStart + 8) _
    at hptrs
  change KeepsPayloads (allocPtrs (heap.heapStart + 8) _) mem₂ mem' at hkeeps
  rw [hsame] at hptrs hkeeps
  refine ⟨bp, ⟨mem', heap.heapStart, heap.heapEnd + size⟩, xs, blk, ys, ?_, hat, rfl, hptrs,
    hgrow.trans hkeeps⟩
  rw [hextend, show Malloc.coalesce mem₂ heap.heapEnd = (bp, mem') from hcoalesce]

end Operations

end Painting.Malloc
