import Painting.User.MallocSafety

/-!
# Every size

`malloc` rounds its argument up in 32 bits.  For the last fifteen sizes the sum wraps, and a block
of zero or eight bytes is looked for: any free block is taken for one that fits, and when there is
none a chunk is added for it.
-/

namespace Painting.Malloc

open Painting.Memory

/-- Blocks end to end between prologue and epilogue, at addresses that are multiples of eight. -/
structure Valid (heap : Heap) : Prop where
  tiled : ∃ blocks, Tiled heap blocks
  aligned : heap.heapStart % 8 = 0

/-- `malloc(size)` returns null with a heap in order, or an aligned pointer into a block that is
large enough. -/
def Serves (heap : Heap) (size : ℕ) (grant : Bool) : Prop :=
  ∃ ptr heap', malloc heap size grant = some (ptr, heap') ∧
    (ptr = 0 ∧ Valid heap' ∨ ptr ≠ 0 ∧ ptr % 8 = 0 ∧ size ≤ payload heap'.mem ptr)

/-- Every block of the heap is allocated. -/
def Exhausted (heap : Heap) : Prop :=
  ∃ blocks, Tiled heap blocks ∧ ∀ blk ∈ blocks, blk.alloc = true

/-! ## Blocks -/

section Blocks

variable {heap : Heap} {blocks xs : List Blk} {blk : Blk} {mem : Mem} {bp stop size : ℕ}

theorem Seg.aligned (hseg : Seg mem bp blocks stop) (hbp : bp % 8 = 0) : stop % 8 = 0 := by
  induction blocks generalizing bp with
  | nil =>
      obtain rfl : bp = stop := hseg
      exact hbp
  | cons blk blocks ih =>
      have haligned := blk.aligned
      exact ih hseg.2 (by omega)

/-- No block is larger than a size that is a multiple of eight in 32 bits. -/
theorem payload_le (mem : Mem) (ptr : ℕ) : payload mem ptr ≤ 2 ^ 32 - 16 := by
  have hle : getSize mem (hdrp ptr) ≤ 0xfffffff8 := Nat.and_le_right
  rw [payload, dsize]
  omega

theorem adjustedSize_fits (hwrap : size + 15 < 2 ^ 32) : size + 8 ≤ adjustedSize size := by
  rw [adjustedSize, dsize]
  split_ifs <;> omega

theorem adjustedSize_wrapped (hsize : size < 2 ^ 32) (hwrap : ¬ size + 15 < 2 ^ 32) :
    adjustedSize size ≤ 8 := by
  rw [adjustedSize, dsize, if_neg (by omega)]
  omega

/-- `place` in a free block that fits. -/
theorem place_serves {asize : ℕ} (hblock : BlockAt heap.mem bp size 0) (haligned : size % 8 = 0)
    (hsize : size < 2 ^ 32) (hbp : 4 ≤ bp) (hasize : asize % 8 = 0) (hlow : 16 ≤ asize)
    (hfit : asize ≤ size) : asize - 8 ≤ payload (place heap.mem bp asize) bp := by
  obtain ⟨bsize, hlo, hhi, hbaligned, hplaced⟩ :=
    place_blockAt hblock haligned (by decide) hsize hbp hasize hlow hfit
  rw [hplaced.payload_eq hbaligned (by decide) (by omega)]
  omega

/-- `extend_heap` returns a free block that is large enough, next to whatever block. -/
theorem Tiled.extendHeap_blockAt (htiled : Tiled heap blocks) (haligned : size % 8 = 0)
    (hlarge : 16 ≤ size) (hroom : heap.heapEnd + size ≤ heap.heapStart + sbrkLimit)
    (hstart : heap.heapStart % 8 = 0) :
    ∃ bp heap' bsize, Malloc.extendHeap heap (size / wsize) true = some (bp, heap') ∧
      BlockAt heap'.mem bp bsize 0 ∧ size ≤ bsize ∧ bsize % 8 = 0 ∧ bsize < 2 ^ 32 ∧
      4 ≤ bp ∧ bp % 8 = 0 := by
  obtain ⟨mem, hcut, -, hextend⟩ := htiled.extendHeap_cut haligned hlarge hroom
  have hblock : BlockAt mem heap.heapEnd size 0 := (seg_singleton.mp hcut.middle).1
  have hend : heap.heapEnd % 8 = 0 := htiled.seg.aligned (by omega)
  have hlo := hcut.lo_ge
  have hhi := hcut.hi_le
  have hsmall : size < 2 ^ 32 := by omega
  have hnext : get mem (heap.heapEnd + size - 4) = pack 0 1 := hcut.epilogue
  obtain ⟨psize, hprev, -⟩ | ⟨zs, prev, -, -, hprev, hwide⟩ := hcut.prev_cases
  · have hnone := coalesce_none hprev hblock haligned (by decide) hsmall hnext rfl
    rw [hnone] at hextend
    exact ⟨_, _, size, hextend, hblock, le_rfl, haligned, hsmall, by omega, hend⟩
  · have hplarge := prev.large
    have hpaligned := prev.aligned
    have hroom := hprev.room
    have hwhi := hwide.hi_le
    obtain ⟨mem', hleft, hblock', -⟩ := coalesce_left hprev hplarge hblock haligned hlarge
      (by decide) hnext rfl (by omega)
    rw [hleft] at hextend
    exact ⟨_, _, size + prev.size, hextend, hblock', Nat.le_add_right _ _, by omega, by omega,
      by omega, by omega⟩

end Blocks

/-! ## Calls of `malloc` -/

section Calls

variable {heap : Heap} {blocks : List Blk} {size : ℕ} {grant : Bool}

theorem malloc_of_fit {bp : ℕ} (hsize : 0 < size)
    (hfit : findFit heap.mem (adjustedSize size) heap.heapEnd heap.heapStart = some (some bp)) :
    malloc heap size grant =
      some (bp, { heap with mem := place heap.mem bp (adjustedSize size) }) := by
  rw [malloc, if_neg hsize.ne']
  simp only [hfit, Option.map_some]

theorem malloc_of_grown {heap' : Heap} {bp : ℕ} (hsize : 0 < size)
    (hfit : findFit heap.mem (adjustedSize size) heap.heapEnd heap.heapStart = some none)
    (hextend : extendHeap heap (max (adjustedSize size) chunkSize / wsize) grant =
      some (bp, heap')) :
    malloc heap size grant =
      some (bp, { heap' with mem := place heap'.mem bp (adjustedSize size) }) := by
  rw [malloc, if_neg hsize.ne']
  simp only [hfit, Option.map_some, hextend]

theorem malloc_of_refused (hsize : 0 < size)
    (hfit : findFit heap.mem (adjustedSize size) heap.heapEnd heap.heapStart = some none)
    (hextend : extendHeap heap (max (adjustedSize size) chunkSize / wsize) grant = none) :
    malloc heap size grant = some (0, heap) := by
  rw [malloc, if_neg hsize.ne']
  simp only [hfit, Option.map_some, hextend]

theorem extendsize_aligned (hasize : adjustedSize size % 8 = 0) :
    max (adjustedSize size) chunkSize % 8 = 0 := by
  have hchunk : chunkSize % 8 = 0 := rfl
  rcases max_choice (adjustedSize size) chunkSize with hcase | hcase <;> omega

/-- Without a wrap the block that is found, or the one that is added, is large enough. -/
theorem Valid.serves (hvalid : Valid heap) (hsize : 0 < size) (hwrap : size + 15 < 2 ^ 32)
    (hgrant : grant = true → max (adjustedSize size) chunkSize < 2 ^ 31 →
      heap.heapEnd + max (adjustedSize size) chunkSize ≤ heap.heapStart + sbrkLimit) :
    Serves heap size grant := by
  obtain ⟨⟨blocks, htiled⟩, hstart⟩ := id hvalid
  obtain ⟨haligned, hlow, -⟩ := adjustedSize_spec hsize hwrap
  have hfits := adjustedSize_fits hwrap
  obtain ⟨hnone, -⟩ | ⟨xs, blk, ys, ptr, hfound, rfl, hcut, hfree, hblk⟩ :=
    htiled.findFit_cut (adjustedSize size)
  · have hmax := extendsize_aligned haligned
    by_cases hasked : grant = true ∧ max (adjustedSize size) chunkSize < 2 ^ 31
    · obtain ⟨rfl, hsmall⟩ := hasked
      obtain ⟨bp, heap', bsize, hextend, hblock, hbsize, hbaligned, hblt, hbp, hbp8⟩ :=
        htiled.extendHeap_blockAt hmax (le_max_of_le_left hlow) (hgrant rfl hsmall) hstart
      have hserves := place_serves hblock hbaligned hblt hbp haligned hlow
        ((le_max_left _ _).trans hbsize)
      refine ⟨bp, _, malloc_of_grown hsize hnone hextend, .inr ⟨by omega, hbp8, ?_⟩⟩
      exact (Nat.le_sub_of_add_le hfits).trans hserves
    · have hback : max (adjustedSize size) chunkSize / wsize * wsize % 2 ^ 32 =
          max (adjustedSize size) chunkSize := by
        have hlt : max (adjustedSize size) chunkSize < 2 ^ 32 :=
          max_lt (by rw [adjustedSize]; split_ifs <;> simp only [dsize] <;> omega) (by decide)
        rw [wsize]
        omega
      have hwords : max (adjustedSize size) chunkSize / wsize % 2 = 0 := by
        rw [wsize]
        omega
      have hsbrk : memSbrk heap (max (adjustedSize size) chunkSize) grant = none := by
        rw [memSbrk]
        by_cases hlarge : 2 ^ 31 ≤ max (adjustedSize size) chunkSize
        · rw [if_pos hlarge]
        · rw [if_neg hlarge, if_neg fun hgranted => hasked ⟨hgranted, not_le.mp hlarge⟩]
      have hextend : extendHeap heap (max (adjustedSize size) chunkSize / wsize) grant = none := by
        simp only [extendHeap, hwords, zero_ne_one, if_false, hback, hsbrk, Option.map_none]
      exact ⟨0, heap, malloc_of_refused hsize hnone hextend, .inl ⟨rfl, hvalid⟩⟩
  · have hblock : BlockAt heap.mem ptr blk.size 0 := by
      have hseg := (seg_singleton.mp hcut.middle).1
      rw [hfree] at hseg
      exact hseg
    have hlo := hcut.lo_ge
    have hhi := hcut.hi_le
    have hserves := place_serves hblock blk.aligned (by omega) (by omega) haligned hlow hblk
    have hptr : ptr % 8 = 0 := hcut.left.aligned (by omega)
    exact ⟨ptr, _, malloc_of_fit hsize hfound,
      .inr ⟨by omega, hptr, (Nat.le_sub_of_add_le hfits).trans hserves⟩⟩

/-- After a wrap a pointer is never good enough, so null is the only answer that serves. -/
theorem Valid.serves_wrapped (hvalid : Valid heap) (hsize : size < 2 ^ 32)
    (hwrap : ¬ size + 15 < 2 ^ 32)
    (hgrant : grant = true → max (adjustedSize size) chunkSize < 2 ^ 31 →
      heap.heapEnd + max (adjustedSize size) chunkSize ≤ heap.heapStart + sbrkLimit) :
    Serves heap size grant ↔ grant = false ∧ Exhausted heap := by
  have hpos : 0 < size := by omega
  have hwrapped := adjustedSize_wrapped hsize hwrap
  have hmax : max (adjustedSize size) chunkSize = chunkSize :=
    max_eq_right (hwrapped.trans (by decide))
  have hshort : ∀ {ptr : ℕ} {heap' : Heap}, malloc heap size grant = some (ptr, heap') →
      Serves heap size grant → ptr = 0 := by
    rintro ptr heap' hmalloc ⟨ptr', heap'', hmalloc', hcase⟩
    obtain ⟨rfl, rfl⟩ := Prod.mk.inj (Option.some.inj (hmalloc.symm.trans hmalloc'))
    refine hcase.elim And.left fun hptr => ?_
    have hle := hptr.2.2.trans (payload_le _ _)
    omega
  constructor
  · intro hserves
    obtain ⟨blocks, htiled⟩ := hvalid.tiled
    obtain ⟨hnone, hall⟩ | ⟨xs, blk, ys, ptr, hfound, -, hcut, -, -⟩ :=
      htiled.findFit_cut (adjustedSize size)
    · refine ⟨Bool.eq_false_iff.mpr fun hgranted => ?_, blocks, htiled, fun blk hblk => ?_⟩
      · subst hgranted
        have hroom := hgrant rfl (by rw [hmax]; decide)
        rw [hmax] at hroom
        obtain ⟨bp, heap', bsize, hextend, -, -, -, -, hbp, -⟩ :=
          htiled.extendHeap_blockAt (show chunkSize % 8 = 0 from rfl)
            (show 16 ≤ chunkSize by decide) hroom hvalid.aligned
        have hnull := hshort (malloc_of_grown hpos hnone (by rw [hmax]; exact hextend)) hserves
        omega
      · have hlarge := blk.large
        refine Bool.eq_true_of_not_eq_false fun hfree => ?_
        have hlt := hall blk hblk hfree
        omega
    · have hlo := hcut.lo_ge
      have hnull := hshort (malloc_of_fit hpos hfound) hserves
      omega
  · rintro ⟨rfl, blocks, htiled, hfull⟩
    obtain ⟨hnone, -⟩ | ⟨xs, blk, ys, ptr, -, rfl, -, hfree, -⟩ :=
      htiled.findFit_cut (adjustedSize size)
    · have hextend : extendHeap heap (max (adjustedSize size) chunkSize / wsize) false = none := by
        simp [extendHeap, memSbrk]
      exact ⟨0, heap, malloc_of_refused hpos hnone hextend, .inl ⟨rfl, hvalid⟩⟩
    · exact absurd hfree (by simp [hfull blk (by simp)])

/-- `malloc` serves every size but the last fifteen of 32 bits; on those it only does when it has
nothing to give. -/
theorem serves_iff (hvalid : Valid heap) (hpos : 0 < size) (hsize : size < 2 ^ 32)
    (hgrant : grant = true → max (adjustedSize size) chunkSize < 2 ^ 31 →
      heap.heapEnd + max (adjustedSize size) chunkSize ≤ heap.heapStart + sbrkLimit) :
    Serves heap size grant ↔ size + 15 < 2 ^ 32 ∨ grant = false ∧ Exhausted heap := by
  by_cases hwrap : size + 15 < 2 ^ 32
  · exact iff_of_true (hvalid.serves hpos hwrap hgrant) (.inl hwrap)
  · rw [hvalid.serves_wrapped hsize hwrap hgrant, or_iff_right hwrap]

end Calls

/-! ## The first heap -/

theorem memSbrk_heapStart {heap heap' : Heap} {incr ptr : ℕ} {grant : Bool}
    (hsbrk : memSbrk heap incr grant = some (ptr, heap')) : heap'.heapStart = heap.heapStart := by
  rw [memSbrk] at hsbrk
  split_ifs at hsbrk
  obtain ⟨-, rfl⟩ := Prod.mk.inj (Option.some.inj hsbrk)
  rfl

theorem extendHeap_heapStart {heap heap' : Heap} {words bp : ℕ} {grant : Bool}
    (hextend : extendHeap heap words grant = some (bp, heap')) :
    heap'.heapStart = heap.heapStart := by
  rw [extendHeap] at hextend
  obtain ⟨⟨ptr, grown⟩, hsbrk, hpair⟩ := Option.map_eq_some_iff.mp hextend
  have hsame := memSbrk_heapStart hsbrk
  obtain ⟨-, rfl⟩ := Prod.mk.inj hpair
  exact hsame

/-- `mm_init` on the page-aligned break that `exec` leaves. -/
theorem valid_mmInit {mem : Mem} {base : ℕ} {heap : Heap} (hbase : base % 8 = 0)
    (hinit : mmInit mem base = some heap) : Valid heap := by
  obtain ⟨blocks, htiled, -, -⟩ := inv_mmInit hinit
  refine ⟨⟨blocks, htiled⟩, ?_⟩
  rw [mmInit, Option.bind_eq_some_iff] at hinit
  obtain ⟨⟨bp, grown⟩, -, hinit⟩ := hinit
  obtain ⟨⟨ptr, extended⟩, hextend, rfl⟩ := Option.map_eq_some_iff.mp hinit
  rw [extendHeap_heapStart hextend]
  show (base + 2 * wsize) % 8 = 0
  rw [wsize]
  omega

/-- `malloc` of a whole chunk less the two tags. -/
theorem serves_wholeChunk : Serves firstHeap 4088 true := by
  have hvalid := valid_mmInit (show 4096 % 8 = 0 from rfl) mmInit_firstHeap
  refine (serves_iff hvalid (by decide) (by decide) fun _ _ => ?_).mpr (.inl (by decide))
  decide +kernel

/-- `malloc(UINT32_MAX)` hands out the first block of the heap. -/
theorem not_serves_lastSize : ¬ Serves firstHeap (2 ^ 32 - 1) true := by
  rintro ⟨ptr, heap', hmalloc, hcase⟩
  have hptr : (malloc firstHeap (2 ^ 32 - 1) true).map Prod.fst = some 4112 := by decide +kernel
  rw [hmalloc] at hptr
  obtain rfl : ptr = 4112 := Option.some.inj hptr
  obtain ⟨hnull, -⟩ | ⟨-, -, hroom⟩ := hcase
  · exact absurd hnull (by decide)
  · have hle := payload_le heap'.mem 4112
    omega

end Painting.Malloc
