import Painting.User.MallocInvariant

/-!
# Runs of the user-level allocator

Every call keeps the heap tiled and leaves the payloads of the other live
blocks alone, as long as no freed block has an allocated left neighbour and a
free right one.  One allocation followed by its release already takes that
branch, and the header and footer of the freed block then disagree.
-/

namespace Painting.Malloc

open Painting.Memory Painting.Transition

/-! ## The invariant -/

/-- The heap is tiled without free neighbours, and the pointers held are the
allocated blocks. -/
def Inv (heap : Heap) (live : List ℕ) : Prop :=
  ∃ blocks, Tiled heap blocks ∧ Apart blocks ∧
    live.Perm (allocPtrs (heap.heapStart + 8) blocks)

/-- The first fit, or none, is found before the fuel runs out. -/
theorem findFit_spec {mem : Mem} {asize bp stop fuel : ℕ} {blocks : List Blk}
    (hseg : Seg mem bp blocks stop) (hstop : stop - bp < 2 ^ 32)
    (hepilogue : get mem (stop - 4) = pack 0 1) (hfuel : blocks.length < fuel) :
    (findFit mem asize fuel bp = some none ∧
        ∀ blk ∈ blocks, blk.alloc = false → blk.size < asize) ∨
      ∃ xs blk ys ptr, findFit mem asize fuel bp = some (some ptr) ∧ blocks = xs ++ blk :: ys ∧
        blk.alloc = false ∧ asize ≤ blk.size ∧ Seg mem bp xs ptr ∧
        BlockAt mem ptr blk.size 0 ∧ Seg mem (ptr + blk.size) ys stop := by
  induction blocks generalizing bp fuel with
  | nil =>
      obtain ⟨fuel, rfl⟩ := Nat.exists_eq_succ_of_ne_zero (Nat.ne_of_gt hfuel)
      have hend : bp = stop := hseg
      have hzero : getSize mem (hdrp bp) = 0 := by
        rw [getSize, hdrp, wsize, hend, hepilogue, tag_size rfl (by decide) (by decide)]
      left
      exact ⟨by simp [findFit, hzero], fun blk hblk => absurd hblk List.not_mem_nil⟩
  | cons blk blocks ih =>
      obtain ⟨fuel, rfl⟩ := Nat.exists_eq_succ_of_ne_zero (Nat.ne_of_gt (Nat.zero_lt_of_lt hfuel))
      obtain ⟨hblock, htail⟩ := hseg
      have hle := htail.le
      have hlarge := blk.large
      have hbit := blk.alloc.toNat_lt
      have hsmall : blk.size < 2 ^ 32 := by omega
      have hsize := hblock.getSize blk.aligned hbit hsmall
      have halloc : getAlloc mem (hdrp bp) = blk.alloc.toNat := by
        rw [getAlloc, hdrp, wsize, hblock.header, tag_alloc blk.aligned hbit]
      have hnext := hblock.nextBlkp blk.aligned hbit hsmall
      have hpos : 0 < blk.size := by omega
      simp only [findFit, hsize, halloc, hpos, if_true]
      by_cases hfit : blk.alloc.toNat = 0 ∧ asize ≤ blk.size
      · have hfree : blk.alloc = false := by simpa using hfit.1
        rw [hfree] at hblock
        right
        refine ⟨[], blk, blocks, bp, if_pos hfit, rfl, hfree, hfit.2, rfl, hblock, htail⟩
      · rw [if_neg hfit, hnext]
        simp only [List.length_cons] at hfuel
        obtain ⟨hnone, hall⟩ | ⟨xs, found, ys, ptr, hfound, rfl, hfree, hsize', hleft, hat,
          hright⟩ := ih htail (by omega) (Nat.lt_of_succ_lt_succ hfuel)
        · refine .inl ⟨hnone, fun other hother hfree => ?_⟩
          obtain rfl | hother := List.mem_cons.mp hother
          · rw [hfree] at hfit
            exact not_le.mp fun hle => hfit ⟨rfl, hle⟩
          · exact hall other hother hfree
        · exact .inr ⟨blk :: xs, found, ys, ptr, hfound, rfl, hfree, hsize', ⟨hblock, hleft⟩, hat,
            hright⟩

/-- `find_fit` as `malloc` calls it: the walk starts at the prologue. -/
theorem Tiled.findFit_cut {heap : Heap} {blocks : List Blk} (htiled : Tiled heap blocks)
    (asize : ℕ) :
    (findFit heap.mem asize heap.heapEnd heap.heapStart = some none ∧
        ∀ blk ∈ blocks, blk.alloc = false → blk.size < asize) ∨
      ∃ xs blk ys ptr, findFit heap.mem asize heap.heapEnd heap.heapStart = some (some ptr) ∧
        blocks = xs ++ blk :: ys ∧ Cut heap xs [blk] ys ptr (ptr + blk.size) ∧
        blk.alloc = false ∧ asize ≤ blk.size := by
  have hstart := htiled.start
  have hbounded := htiled.bounded
  have hlength := htiled.seg.length_le
  simp only [sbrkLimit] at hbounded
  obtain ⟨fuel, hfuel⟩ : ∃ fuel, heap.heapEnd = fuel + 1 := ⟨heap.heapEnd - 1, by omega⟩
  have hprologue : BlockAt heap.mem heap.heapStart 8 1 :=
    ⟨htiled.prologue, by simpa using htiled.prologueFooter⟩
  have hwalk : Malloc.findFit heap.mem asize heap.heapEnd heap.heapStart =
      Malloc.findFit heap.mem asize fuel (heap.heapStart + 8) := by
    have halloc : getAlloc heap.mem (hdrp heap.heapStart) = 1 := by
      rw [getAlloc, hdrp, wsize, htiled.prologue, tag_alloc rfl (by decide)]
    rw [hfuel, Malloc.findFit, hprologue.getSize rfl (by decide) (by decide), halloc,
      hprologue.nextBlkp rfl (by decide) (by decide)]
    simp
  rw [hwalk]
  obtain hnone | ⟨xs, blk, ys, ptr, hfound, rfl, hfree, hfits, hleft, hblock, hright⟩ :=
    findFit_spec htiled.seg (by omega) htiled.epilogue (show blocks.length < fuel by omega)
  · exact .inl hnone
  · refine .inr ⟨xs, blk, ys, ptr, hfound, rfl, htiled.cut hleft ?_ hright, hfree, hfits⟩
    rw [hfree]
    exact hblock

theorem Tiled.findFit {heap : Heap} {blocks : List Blk} (htiled : Tiled heap blocks)
    (hapart : Apart blocks) (asize : ℕ) :
    findFit heap.mem asize heap.heapEnd heap.heapStart = some none ∨
      ∃ xs blk ys ptr, findFit heap.mem asize heap.heapEnd heap.heapStart = some (some ptr) ∧
        blocks = xs ++ blk :: ys ∧ FreeAt heap xs blk ys ptr asize := by
  obtain ⟨hnone, -⟩ | ⟨xs, blk, ys, ptr, hfound, rfl, hcut, hfree, hfits⟩ :=
    htiled.findFit_cut asize
  · exact .inl hnone
  · exact .inr ⟨xs, blk, ys, ptr, hfound, rfl, hcut, hfree, hapart, hfits⟩

theorem adjustedSize_spec {size : ℕ} (hsize : 0 < size) (hwrap : size + 15 < 2 ^ 32) :
    adjustedSize size % 8 = 0 ∧ 16 ≤ adjustedSize size ∧ adjustedSize size < size + 16 := by
  rw [adjustedSize, dsize]
  by_cases hsmall : size ≤ 8
  · rw [if_pos hsmall]
    omega
  · rw [if_neg hsmall]
    omega

/-- Tagging the block as allocated ends every successful `malloc`. -/
theorem FreeAt.inv_place {heap : Heap} {xs ys : List Blk} {blk : Blk} {bp asize : ℕ}
    {live : List ℕ} (hat : FreeAt heap xs blk ys bp asize) (hasize : asize % 8 = 0)
    (hlow : 16 ≤ asize)
    (hlive : live.Perm (allocPtrs (heap.heapStart + 8) (xs ++ blk :: ys))) :
    Inv { heap with mem := Malloc.place heap.mem bp asize } (if bp = 0 then live else bp :: live) ∧
      KeepsPayloads live heap.mem (Malloc.place heap.mem bp asize) := by
  obtain ⟨blocks, htiled, hapart, hperm, hkeeps⟩ := hat.place hasize hlow
  have hbp : bp ≠ 0 := by
    have hlo := hat.cut.lo_ge
    omega
  rw [if_neg hbp]
  exact ⟨⟨blocks, htiled, hapart, (hlive.cons bp).trans hperm⟩,
    hkeeps.mono fun ptr hptr => hlive.mem_iff.mp hptr⟩

theorem inv_malloc {heap heap' : Heap} {live : List ℕ} {size ptr : ℕ} {grant : Bool}
    (hinv : Inv heap live) (hsize : 0 < size) (hwrap : size + 15 < 2 ^ 32)
    (hgrant : grant = true →
      heap.heapEnd + max (adjustedSize size) chunkSize ≤ heap.heapStart + sbrkLimit)
    (hmalloc : malloc heap size grant = some (ptr, heap')) :
    Inv heap' (if ptr = 0 then live else ptr :: live) ∧
      KeepsPayloads live heap.mem heap'.mem := by
  have hsame : Inv heap (if 0 = 0 then live else 0 :: live) ∧
      KeepsPayloads live heap.mem heap.mem :=
    ⟨by simpa using hinv, fun ptr _ => ⟨rfl, AgreeOn.refl _ _ _⟩⟩
  obtain ⟨haligned, hlow, -⟩ := adjustedSize_spec hsize hwrap
  obtain ⟨blocks, htiled, hapart, hlive⟩ := hinv
  rw [malloc, if_neg hsize.ne'] at hmalloc
  obtain hnone | ⟨xs, blk, ys, bp, hfound, rfl, hat⟩ :=
    htiled.findFit hapart (adjustedSize size)
  · simp only [hnone, Option.map_some, Option.some.injEq] at hmalloc
    cases grant with
    | false =>
        have hrefused : extendHeap heap (max (adjustedSize size) chunkSize / wsize) false = none := by
          simp [extendHeap, memSbrk]
        rw [hrefused] at hmalloc
        obtain ⟨rfl, rfl⟩ := Prod.mk.inj hmalloc
        exact hsame
    | true =>
        have hchunk : chunkSize % 8 = 0 := rfl
        have hmax : max (adjustedSize size) chunkSize % 8 = 0 := by
          rcases max_choice (adjustedSize size) chunkSize with hcase | hcase <;> omega
        obtain ⟨bp, grown, xs, blk, ys, hextend, hat, hstart, hptrs, hkeeps⟩ :=
          htiled.extendHeap hapart hmax (by omega) (hgrant rfl)
        rw [hextend] at hmalloc
        obtain ⟨rfl, rfl⟩ := Prod.mk.inj hmalloc
        have hfits : FreeAt grown xs blk ys bp (adjustedSize size) :=
          ⟨hat.cut, hat.free, hat.apart, (le_max_left _ _).trans hat.fits⟩
        rw [← hptrs, ← hstart] at hlive
        obtain ⟨hinv, hplaced⟩ := hfits.inv_place haligned hlow hlive
        rw [← hptrs, ← hstart] at hkeeps
        exact ⟨hinv, (hkeeps.mono fun ptr hptr => hlive.mem_iff.mp hptr).trans hplaced⟩
  · simp only [hfound, Option.map_some, Option.some.injEq] at hmalloc
    obtain ⟨rfl, rfl⟩ := Prod.mk.inj hmalloc
    exact hat.inv_place haligned hlow hlive

/-- `malloc` returns: `find_fit` meets the epilogue. -/
theorem malloc_isSome {heap : Heap} {live : List ℕ} (hinv : Inv heap live) (size : ℕ)
    (grant : Bool) : (malloc heap size grant).isSome := by
  obtain ⟨blocks, htiled, hapart, -⟩ := hinv
  rw [malloc]
  split
  · rfl
  obtain hnone | ⟨xs, blk, ys, bp, hfound, -, -⟩ :=
    htiled.findFit hapart (adjustedSize size)
  · simp [hnone]
  · simp [hfound]

/-- Which branch `coalesce` takes depends on the neighbours only. -/
theorem Cut.joinsRight_iff {heap : Heap} {xs ys : List Blk} {blk : Blk} {bp hi : ℕ}
    (hcut : Cut heap xs [blk] ys bp hi) :
    JoinsRight heap.mem bp ↔ (∀ prev ∈ xs.getLast?, prev.alloc = true) ∧
      ∃ next ∈ ys.head?, next.alloc = false := by
  obtain ⟨hblock, rfl⟩ := seg_singleton.mp hcut.middle
  have hhi := hcut.hi_le
  have hsize : blk.size < 2 ^ 32 := by omega
  have hbit := blk.alloc.toNat_lt
  obtain ⟨psize, hprev, hlast⟩ | ⟨zs, prev, rfl, hpfree, hprev, -⟩ := hcut.prev_cases <;>
    obtain ⟨nsize, hnaligned, hnext, hhead⟩ | ⟨next, ws, rfl, hnfree, hnext, -⟩ :=
      hcut.next_cases
  · have htests := coalesce_tests hprev (by decide) hblock blk.aligned hbit hsize hnext hnaligned
      (by decide)
    rw [JoinsRight, htests.1, htests.2]
    constructor
    · rintro ⟨-, hzero⟩
      exact absurd hzero (by decide)
    · rintro ⟨-, next, hmem, hfree⟩
      exact absurd (hhead next hmem) (by simp [hfree])
  · have htests := coalesce_tests hprev (by decide) hblock blk.aligned hbit hsize hnext.header
      next.aligned (by decide)
    rw [JoinsRight, htests.1, htests.2]
    exact ⟨fun _ => ⟨hlast, next, rfl, hnfree⟩, fun _ => ⟨by decide, rfl⟩⟩
  · have htests := coalesce_tests hprev (by decide) hblock blk.aligned hbit hsize hnext hnaligned
      (by decide)
    rw [JoinsRight, htests.1, htests.2]
    constructor
    · rintro ⟨hzero, -⟩
      exact absurd rfl hzero
    · rintro ⟨-, next, hmem, hfree⟩
      exact absurd (hhead next hmem) (by simp [hfree])
  · have htests := coalesce_tests hprev (by decide) hblock blk.aligned hbit hsize hnext.header
      next.aligned (by decide)
    rw [JoinsRight, htests.1, htests.2]
    constructor
    · rintro ⟨hzero, -⟩
      exact absurd rfl hzero
    · rintro ⟨hlast, -⟩
      exact absurd (hlast prev (by simp)) (by simp [hpfree])

/-- A held pointer and the heap around its block. -/
theorem Tiled.cut_of_mem {heap : Heap} {blocks : List Blk} {ptr : ℕ} (htiled : Tiled heap blocks)
    (hptr : ptr ∈ allocPtrs (heap.heapStart + 8) blocks) :
    ∃ xs blk ys, blocks = xs ++ ([blk] ++ ys) ∧ blk.alloc = true ∧
      Cut heap xs [blk] ys ptr (ptr + blk.size) ∧ BlockAt heap.mem ptr blk.size 1 := by
  obtain ⟨xs, blk, ys, hblocks, halloc, hleft, hblock, hright⟩ := htiled.seg.split_of_mem hptr
  refine ⟨xs, blk, ys, hblocks, halloc, htiled.cut hleft ?_ hright, hblock⟩
  rw [halloc]
  exact hblock

theorem inv_free {heap : Heap} {live : List ℕ} {ptr : ℕ} (hinv : Inv heap live)
    (hmem : ptr ∈ live) (hjoins : ¬ JoinsRight heap.mem ptr) :
    Inv (free heap ptr) (live.erase ptr) ∧
      KeepsPayloads (live.erase ptr) heap.mem (free heap ptr).mem := by
  obtain ⟨blocks, htiled, hapart, hlive⟩ := hinv
  obtain ⟨xs, blk, ys, rfl, halloc, hcut, hblock⟩ := htiled.cut_of_mem (hlive.mem_iff.mp hmem)
  have hlo := hcut.lo_ge
  have hhi := hcut.hi_le
  have hlarge := blk.large
  have hsize : blk.size < 2 ^ 32 := by omega
  obtain ⟨hxs, hrest, -⟩ := List.isChain_append.mp hapart
  have hys : Apart ys := (List.isChain_cons.mp hrest).2
  let mem₁ := putTags heap.mem ptr blk.size 0
  let freed : Blk := ⟨blk.size, false, blk.aligned, hlarge⟩
  have hchanges : ChangesIn heap.mem mem₁ (ptr - 4) (ptr + blk.size - 4) :=
    putTags_changesIn _ _ (by omega) hlarge
  have htags : BlockAt mem₁ ptr blk.size 0 :=
    putTags_blockAt _ (by omega) blk.aligned hlarge (by decide) hsize
  have hcut₁ : Cut { heap with mem := mem₁ } xs [freed] ys ptr (ptr + blk.size) :=
    hcut.replace hchanges ⟨htags, rfl⟩
  have hjoins₁ : ¬ JoinsRight mem₁ ptr := by
    intro hjoins'
    exact hjoins (hcut.joinsRight_iff.mpr (hcut₁.joinsRight_iff.mp hjoins'))
  obtain ⟨bp, mem₂, hcoalesce, ⟨⟨xs', blk', ys', hat, hptrs⟩, hkeeps⟩⟩ :=
    hcut₁.coalesce rfl hxs hys hjoins₁
  have hfree : free heap ptr = { heap with mem := mem₂ } := by
    have hread := hblock.getSize blk.aligned (by decide) hsize
    rw [free, if_neg (by omega)]
    simp only [hread, put_hdrp_ftrp heap.mem blk.aligned (show 0 < 2 by decide) hsize]
    rw [show Malloc.coalesce (putTags heap.mem ptr blk.size 0) ptr = (bp, mem₂) from hcoalesce]
  have hbefore : allocPtrs (heap.heapStart + 8) (xs ++ ([blk] ++ ys)) =
      allocPtrs (heap.heapStart + 8) xs ++ ptr :: allocPtrs (ptr + blk.size) ys := by
    rw [hcut.allocPtrs_eq]
    simp [allocPtrs, halloc]
  have hafter : allocPtrs (heap.heapStart + 8) (xs ++ ([freed] ++ ys)) =
      allocPtrs (heap.heapStart + 8) xs ++ allocPtrs (ptr + blk.size) ys :=
    hcut₁.allocPtrs_eq
  have herase : (live.erase ptr).Perm (allocPtrs (heap.heapStart + 8) xs ++
      allocPtrs (ptr + blk.size) ys) := by
    rw [hbefore] at hlive
    simpa using (hlive.trans List.perm_middle).erase ptr
  have htail : allocPtrs (heap.heapStart + 8) (xs' ++ blk' :: ys') =
      allocPtrs (heap.heapStart + 8) xs ++ allocPtrs (ptr + blk.size) ys :=
    hptrs.trans hafter
  have hcoalesced : KeepsPayloads (allocPtrs (heap.heapStart + 8) xs ++
      allocPtrs (ptr + blk.size) ys) mem₁ mem₂ := by
    rw [← hafter]
    exact hkeeps
  rw [hfree]
  refine ⟨⟨_, hat.cut.tiled, hat.apart, ?_⟩, ?_⟩
  · change (live.erase ptr).Perm (allocPtrs (heap.heapStart + 8) (xs' ++ blk' :: ys'))
    rw [htail]
    exact herase
  · exact ((hcut.keepsPayloads hchanges).trans hcoalesced).mono fun q hq => herase.mem_iff.mp hq

/-- A store into a payload touches no tag. -/
theorem inv_write {heap : Heap} {live : List ℕ} {ptr addr : ℕ} {byte : UInt8}
    (hinv : Inv heap live) (hmem : ptr ∈ live) (hlo : ptr ≤ addr)
    (hhi : addr < ptr + payload heap.mem ptr) :
    Inv { heap with mem := Function.update heap.mem addr byte } live := by
  obtain ⟨blocks, htiled, hapart, hlive⟩ := hinv
  obtain ⟨xs, blk, ys, rfl, halloc, hcut, hblock⟩ := htiled.cut_of_mem (hlive.mem_iff.mp hmem)
  have hstart := hcut.lo_ge
  have hstop := hcut.hi_le
  have hlarge := blk.large
  rw [hblock.payload_eq blk.aligned (by decide) (by omega)] at hhi
  have hchanges : ChangesIn heap.mem (Function.update heap.mem addr byte) ptr
      (ptr + blk.size - 8) := by
    intro x hx
    exact Function.update_of_ne (by omega) _ _
  have hblock' : BlockAt (Function.update heap.mem addr byte) ptr blk.size 1 :=
    ⟨(ChangesIn.get_eq hchanges (by omega)).trans hblock.header,
      (ChangesIn.get_eq hchanges (by omega)).trans hblock.footer⟩
  have hseg : Seg (Function.update heap.mem addr byte) ptr [blk] (ptr + blk.size) := by
    refine ⟨?_, rfl⟩
    rw [halloc]
    exact hblock'
  exact ⟨_, (hcut.replace (hchanges.mono (by omega) (by omega)) hseg).tiled, hapart, hlive⟩

/-- `mm_init` leaves one free block of a chunk. -/
theorem inv_mmInit {mem : Mem} {base : ℕ} {heap : Heap} (hinit : mmInit mem base = some heap) :
    Inv heap [] := by
  let mem₁ := put (put (put (put mem base 0) (base + 1 * wsize) (pack dsize 1))
    (base + 2 * wsize) (pack dsize 1)) (base + 3 * wsize) (pack 0 1)
  let heap₁ : Heap := ⟨mem₁, base + 2 * wsize, base + 4 * wsize⟩
  have htiled : Tiled heap₁ [] := by
    simp only [heap₁, mem₁, wsize, dsize]
    refine ⟨⟨?_, ?_, ?_, ?_, ?_⟩, ?_⟩
    · show 8 ≤ base + 2 * 4
      omega
    · show get _ (base + 2 * 4 - 4) = _
      rw [get_put_far _ (by omega), get_put_far _ (by omega),
        show base + 2 * 4 - 4 = base + 1 * 4 by omega, get_put_same _ (by decide)]
    · show get _ (base + 2 * 4) = _
      rw [get_put_far _ (by omega), get_put_same _ (by decide)]
    · show get _ (base + 4 * 4 - 4) = _
      rw [show base + 4 * 4 - 4 = base + 3 * 4 by omega, get_put_same _ (by decide)]
    · show base + 4 * 4 ≤ base + 2 * 4 + sbrkLimit
      simp only [sbrkLimit]
      omega
    · show base + 2 * 4 + 8 = base + 4 * 4
      omega
  have hroom : heap₁.heapEnd + chunkSize ≤ heap₁.heapStart + sbrkLimit := by
    simp only [heap₁, wsize, chunkSize, sbrkLimit]
    omega
  obtain ⟨bp, grown, xs, blk, ys, hextend, hat, hstart, hptrs, -⟩ :=
    htiled.extendHeap List.isChain_nil (show chunkSize % 8 = 0 from rfl)
      (show 16 ≤ chunkSize by decide) hroom
  have hgrown : mmInit mem base = some grown := by
    have hsbrk : memSbrk ⟨mem, base, base⟩ (4 * wsize) true =
        some (base, ⟨mem, base, base + 4 * wsize⟩) := rfl
    rw [mmInit, hsbrk, Option.bind_some]
    exact congrArg (Option.map fun result : ℕ × Heap => result.2) hextend
  obtain rfl : grown = heap := Option.some.inj (hgrown.symm.trans hinit)
  refine ⟨_, hat.cut.tiled, hat.apart, ?_⟩
  rw [hstart]
  exact List.Perm.of_eq hptrs.symm

/-! ## The claim about runs -/

/-- The heap is tiled by well-tagged blocks, no two neighbours are free, and the
payloads held by the program are disjoint and inside the heap. -/
structure HeapOk (state : State) : Prop where
  tiled : ∃ blocks, Tiled state.heap blocks ∧ Apart blocks
  disjoint : state.live.Pairwise fun ptr ptr' =>
    ptr + payload state.heap.mem ptr ≤ ptr' ∨ ptr' + payload state.heap.mem ptr' ≤ ptr
  inside : ∀ ptr ∈ state.live, state.heap.heapStart ≤ ptr ∧
    ptr + payload state.heap.mem ptr ≤ state.heap.heapEnd

/-- No freed block has an allocated left neighbour and a free right one. -/
def FreesApart (state : State) : Action → Prop
  | .free ptr => ¬ JoinsRight state.heap.mem ptr
  | _ => True

/-- Calls of the allocator, as opposed to stores of the program. -/
def Action.IsCall : Action → Prop
  | .write _ _ => False
  | _ => True

theorem Seg.payload_le {mem : Mem} {bp stop ptr : ℕ} {blocks : List Blk}
    (hseg : Seg mem bp blocks stop) (hstop : stop - bp < 2 ^ 32)
    (hptr : ptr ∈ allocPtrs bp blocks) : bp ≤ ptr ∧ ptr + payload mem ptr ≤ stop := by
  obtain ⟨xs, blk, ys, -, -, hleft, hblock, hright⟩ := hseg.split_of_mem hptr
  have hle := hleft.le
  have hle' := hright.le
  have hlarge := blk.large
  rw [hblock.payload_eq blk.aligned (by decide) (by omega)]
  omega

theorem Seg.disjoint {mem : Mem} {bp stop : ℕ} {blocks : List Blk}
    (hseg : Seg mem bp blocks stop) (hstop : stop - bp < 2 ^ 32) :
    (allocPtrs bp blocks).Pairwise fun ptr ptr' =>
      ptr + payload mem ptr ≤ ptr' ∨ ptr' + payload mem ptr' ≤ ptr := by
  induction blocks generalizing bp with
  | nil => exact List.Pairwise.nil
  | cons blk blocks ih =>
      obtain ⟨hblock, htail⟩ := hseg
      have hle := htail.le
      have hrest := ih htail (by omega)
      have hlarge := blk.large
      rw [allocPtrs]
      split
      · refine List.Pairwise.cons (fun ptr hptr => ?_) hrest
        have hafter := (htail.ptr_mem_bounds hptr).1
        rw [hblock.payload_eq blk.aligned blk.alloc.toNat_lt (by omega)]
        left
        omega
      · exact hrest

theorem Inv.heapOk {state : State} (hinv : Inv state.heap state.live) : HeapOk state := by
  obtain ⟨blocks, htiled, hapart, hlive⟩ := hinv
  have hstart := htiled.start
  have hbounded := htiled.bounded
  simp only [sbrkLimit] at hbounded
  refine ⟨⟨blocks, htiled, hapart⟩, ?_, fun ptr hptr => ?_⟩
  · exact hlive.symm.pairwise (htiled.seg.disjoint (by omega)) Or.symm
  · have hin := htiled.seg.payload_le (by omega) (hlive.mem_iff.mp hptr)
    exact ⟨by omega, hin.2⟩

theorem inv_step {before after : State} {action : Action}
    (hinv : Inv before.heap before.live) (hguard : FreesApart before action)
    (hstep : Step before action after) : Inv after.heap after.live := by
  cases hstep with
  | malloc hsize hwrap hgrant hmalloc => exact (inv_malloc hinv hsize hwrap hgrant hmalloc).1
  | free hlive => exact (inv_free hinv hlive hguard).1
  | write hlive hlo hhi => exact inv_write hinv hlive hlo hhi

/-- A call writes into no payload that is live before and after it. -/
theorem keepsPayloads_step {before after : State} {action : Action}
    (hinv : Inv before.heap before.live) (hguard : FreesApart before action)
    (hcall : action.IsCall) (hstep : Step before action after) :
    ∀ ptr ∈ before.live, ptr ∈ after.live →
      payload after.heap.mem ptr = payload before.heap.mem ptr ∧
        AgreeOn before.heap.mem after.heap.mem ptr (ptr + payload before.heap.mem ptr) := by
  intro ptr hbefore hafter
  cases hstep with
  | malloc hsize hwrap hgrant hmalloc =>
      exact (inv_malloc hinv hsize hwrap hgrant hmalloc).2 ptr hbefore
  | free hlive => exact (inv_free hinv hlive hguard).2 ptr hafter
  | write => exact hcall.elim

/-- In every run that avoids the branch of `coalesce` with the missing header
update, the heap stays in order and live payloads are left alone. -/
theorem heapOk_of_reach {mem : Mem} {base : ℕ} {heap : Heap} {state : State}
    (hinit : mmInit mem base = some heap)
    (hreach : Reach Step FreesApart ⟨heap, []⟩ state) :
    HeapOk state ∧ ∀ action after, FreesApart state action → action.IsCall →
      Step state action after → ∀ ptr ∈ state.live, ptr ∈ after.live →
        payload after.heap.mem ptr = payload state.heap.mem ptr ∧
          AgreeOn state.heap.mem after.heap.mem ptr (ptr + payload state.heap.mem ptr) := by
  have hinv : Inv state.heap state.live :=
    hreach.invariant (inv_mmInit hinit)
      fun _ _ _ hinv hguard hstep => inv_step hinv hguard hstep
  exact ⟨hinv.heapOk, fun _ _ hguard hcall hstep => keepsPayloads_step hinv hguard hcall hstep⟩

/-- The heap that `mm_init` makes of zeroed memory with the break at one page. -/
def firstHeap : Heap := (mmInit (fun _ => 0) 4096).get rfl

theorem mmInit_firstHeap : mmInit (fun _ => 0) 4096 = some firstHeap :=
  (Option.some_get _).symm

/-- The heap after one `malloc(size)` on it. -/
def afterMalloc (size : ℕ) : Heap :=
  ((malloc firstHeap size true).get (malloc_isSome (inv_mmInit mmInit_firstHeap) size true)).2

theorem step_firstMalloc {size : ℕ} (hsize : 0 < size) (hwrap : size ≤ 4088)
    (hptr : (malloc firstHeap size true).map Prod.fst = some 4112) :
    Step ⟨firstHeap, []⟩ (.malloc size true) ⟨afterMalloc size, [4112]⟩ := by
  have hmalloc : malloc firstHeap size true = some (4112, afterMalloc size) := by
    obtain ⟨⟨ptr, heap⟩, hsome⟩ := Option.isSome_iff_exists.mp
      (malloc_isSome (inv_mmInit mmInit_firstHeap) size true)
    simp only [hsome, Option.map_some, Option.some.injEq] at hptr
    simp [afterMalloc, hsome, hptr]
  have hadjusted : adjustedSize size ≤ chunkSize := by
    have hspec := adjustedSize_spec hsize (show size + 15 < 2 ^ 32 by omega)
    rw [chunkSize]
    omega
  have hgrant : true = true → firstHeap.heapEnd + max (adjustedSize size) chunkSize ≤
      firstHeap.heapStart + sbrkLimit := by
    intro _
    rw [max_eq_right hadjusted]
    decide +kernel
  have hstep : Step ⟨firstHeap, []⟩ (.malloc size true)
      ⟨afterMalloc size, if 4112 = 0 then [] else [4112]⟩ :=
    Step.malloc hsize (by omega) hgrant hmalloc
  simpa using hstep

instance (mem : Mem) (ptr : ℕ) : Decidable (JoinsRight mem ptr) :=
  inferInstanceAs (Decidable (_ ∧ _))

theorem heapOk_wholeChunk : HeapOk ⟨free (afterMalloc 4088) 4112, []⟩ := by
  have hmalloc := step_firstMalloc (show 0 < 4088 by decide) le_rfl (by decide +kernel)
  have hjoins : ¬ JoinsRight (afterMalloc 4088).mem 4112 := by decide +kernel
  have hguard : FreesApart ⟨afterMalloc 4088, [4112]⟩ (.free 4112) := hjoins
  have hfree : Step ⟨afterMalloc 4088, [4112]⟩ (.free 4112) ⟨free (afterMalloc 4088) 4112, []⟩ :=
    Step.free (List.mem_singleton.mpr rfl)
  exact (heapOk_of_reach mmInit_firstHeap ((Reach.refl.tail trivial hmalloc).tail hguard hfree)).1

/-- `malloc(8)` followed by `free` of the block: the header still says 16 bytes,
the footer says 4096. -/
theorem not_heapOk_mallocFree :
    ∃ state, Reach Step Unguarded ⟨firstHeap, []⟩ state ∧ ¬ HeapOk state := by
  have hmalloc := step_firstMalloc (show 0 < 8 by decide) (by decide) (by decide +kernel)
  have hfree : Step ⟨afterMalloc 8, [4112]⟩ (.free 4112) ⟨free (afterMalloc 8) 4112, []⟩ :=
    Step.free (List.mem_singleton.mpr rfl)
  refine ⟨_, (Reach.refl.tail trivial hmalloc).tail trivial hfree, ?_⟩
  rintro ⟨⟨blocks, htiled, -⟩, -, -⟩
  have hstart : (free (afterMalloc 8) 4112).heapStart = 4104 := by decide +kernel
  have hstop : (free (afterMalloc 8) 4112).heapEnd = 8208 := by decide +kernel
  have hheader : get (free (afterMalloc 8) 4112).mem 4108 = 16 := by decide +kernel
  have hfooter : get (free (afterMalloc 8) 4112).mem 4120 = 4096 := by decide +kernel
  have hseg := htiled.seg
  change Seg (free (afterMalloc 8) 4112).mem ((free (afterMalloc 8) 4112).heapStart + 8) blocks
    (free (afterMalloc 8) 4112).heapEnd at hseg
  rw [hstart, hstop] at hseg
  cases blocks with
  | nil => exact absurd hseg (show ¬ 4104 + 8 = 8208 by decide)
  | cons blk blocks =>
      have hblock := hseg.1
      have haligned := blk.aligned
      have hbit := blk.alloc.toNat_lt
      have hword := hblock.header
      rw [pack_eq_add haligned (by omega), show 4104 + 8 - 4 = 4108 from rfl, hheader] at hword
      have hsize : blk.size = 16 := by omega
      have hfoot := hblock.footer
      rw [pack_eq_add haligned (by omega), hsize, show 4104 + 8 + 16 - 8 = 4120 from rfl,
        hfooter] at hfoot
      omega

end Painting.Malloc
