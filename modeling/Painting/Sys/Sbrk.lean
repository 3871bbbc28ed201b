import Painting.Mm.TableCount
import Painting.Mm.UvmGrow
import Painting.Core.Transition

/-!
# The heap of a process

`sys_sbrk` takes its increment for unsigned, so every call but that of 0 goes to `uvmalloc`.  A call
that would lower the end of the heap lowers it and leaves the pages mapped, and when the heap grows
again `mappages` finds the first of them.
-/

namespace Painting.Sbrk

open Painting.Memory Painting.PageTable
open Painting.Transition

/-! ## The code -/

/-- The memory and the end of the heap of the calling process. -/
structure Caller where
  pm : Pm
  heapEnd : ℕ

/-- Where `heap_end + incr` points. -/
def Caller.moved (p : Caller) (incr : ℕ) : ℕ := (p.heapEnd + incr) % 2 ^ 64

/-- `incr_heap_space`. -/
def incrHeapSpace (kernelEnd pagetable : ℕ) (p : Caller) (incr : ℕ) :
    Except Panic (ℕ × Caller) :=
  (uvmalloc kernelEnd p.pm pagetable p.heapEnd (p.moved incr) (pteW ||| pteV)).map fun (size, pm) =>
    if size = 0 then (2 ^ 64 - 1, { p with pm := pm }) else (p.heapEnd, ⟨pm, p.moved incr⟩)

/-- `desc_heap_space`. -/
def descHeapSpace (kernelEnd pagetable : ℕ) (p : Caller) (incr : ℕ) :
    Except Panic (ℕ × Caller) :=
  (uvmdealloc kernelEnd p.pm pagetable p.heapEnd (p.moved incr)).map fun (size, pm) =>
    if size = 0 then (2 ^ 64 - 1, { p with pm := pm })
    else (p.heapEnd, ⟨pm, (p.heapEnd + (2 ^ 64 - incr)) % 2 ^ 64⟩)

/-- `sys_sbrk` of an argument of 64 bits. -/
def sysSbrk (kernelEnd pagetable : ℕ) (p : Caller) (incr : ℕ) : Except Panic (ℕ × Caller) :=
  if incr = 0 then .ok (p.heapEnd, p)
  else if incr > 0 then incrHeapSpace kernelEnd pagetable p incr
  else descHeapSpace kernelEnd pagetable p ((2 ^ 64 - incr) % 2 ^ 64)

/-! ## The heap -/

/-- The permissions of the pages of the heap. -/
def heapFlags : ℕ := pteR ||| pteU ||| (pteW ||| pteV) ||| pteV

/-- The bounds of a heap, between the loaded segments and the stack page. -/
structure Bounds (start limit : ℕ) : Prop where
  pos : 0 < start
  start_aligned : start % pgSize = 0
  limit_aligned : limit % pgSize = 0
  limit_le : limit ≤ ustack - pgSize

/-- Exactly the pages from `start` to `top` are mapped below `limit`, and the others as in `mem₀`. -/
structure Heap (kernelEnd : ℕ) (region : Set ℕ) (root start limit : ℕ) (mem₀ : Mem) (p : Caller)
    (top : ℕ) : Prop where
  own : ∃ tables, Owned kernelEnd region p.pm root tables
  le_end : start ≤ p.heapEnd
  end_le : p.heapEnd ≤ top
  top_le : top ≤ limit
  aligned : top % pgSize = 0
  mapped : ∀ va, start ≤ va → va < top →
    ∃ page, translate p.pm.mem root va = some (page + va % pgSize, heapFlags)
  unmapped : ∀ va, top ≤ va → va < limit → translate p.pm.mem root va = none
  others : ∀ va < maxVa, va < start ∨ limit ≤ va →
    translate p.pm.mem root va = translate mem₀ root va

/-- The call moves the end of the heap within its bounds. -/
def Within (start limit : ℕ) (p : Caller) (incr : ℕ) : Prop :=
  incr < 2 ^ 64 ∧ start ≤ p.moved incr ∧ p.moved incr ≤ limit

/-- The first page that the call has to map is mapped, and there is a page to map. -/
def Blocked (p : Caller) (top incr : ℕ) : Prop :=
  pgRoundUp p.heapEnd < p.moved incr ∧ pgRoundUp p.heapEnd < top ∧ p.pm.freelist ≠ []

/-- What the user may read and write is as before. -/
def SameBytes (root : ℕ) (mem mem' : Mem) : Prop :=
  ∀ va pa flags, translate mem root va = some (pa, flags) → flags &&& pteU ≠ 0 → mem' pa = mem pa

section Calls

variable {kernelEnd root start limit top incr : ℕ} {region : Set ℕ} {mem₀ : Mem} {p : Caller}

/-! ## `uvmalloc` below the top -/

/-- A growth within the last page. -/
theorem uvmalloc_within {pm : Pm} {oldsz newsz xperm : ℕ} (hle : oldsz ≤ newsz)
    (hnew : newsz ≤ pgRoundUp oldsz) :
    uvmalloc kernelEnd pm root oldsz newsz xperm = .ok (newsz, pm) := by
  rw [uvmalloc, if_neg (not_lt.mpr hle), uvmallocLoop, if_neg (not_lt.mpr hnew)]

/-- A growth over a page that is mapped. -/
theorem uvmalloc_blocked {pm : Pm} {tables : ℕ → Set ℕ}
    (hown : Owned kernelEnd region pm root tables) {oldsz newsz xperm : ℕ} {frame : ℕ × ℕ}
    (hle : oldsz ≤ newsz) (hnew : newsz ≤ maxVa) (hgrow : pgRoundUp oldsz < newsz)
    (hmapped : translate pm.mem root (pgRoundUp oldsz) = some frame) :
    uvmalloc kernelEnd pm root oldsz newsz xperm =
      if pm.freelist = [] then .ok (0, pm) else .error .remap := by
  obtain ⟨mem, freelist⟩ := pm
  have haligned : pgRoundUp oldsz % pgSize = 0 := by
    rw [pgRoundUp_eq (hle.trans hnew), pgSize]
    omega
  rw [uvmalloc, if_neg (not_lt.mpr hle), uvmallocLoop, if_pos hgrow]
  cases freelist with
  | nil =>
      rw [kpmalloc]
      simp [uvmdealloc, Except.map]
  | cons page rest =>
      obtain ⟨htake, hregion, htable⟩ := hown.take
      have hsame : ∀ x, ¬ Outside tables x → fill (fill mem page 5 pgSize) page 0 pgSize x =
          fill mem page 5 pgSize x := fun x hx =>
        fill_outside 0 (hown.good page hregion).aligned htable hx
      have hsame' : ∀ x, ¬ Outside tables x → fill mem page 5 pgSize x = mem x := fun x hx =>
        fill_outside 5 (hown.good page hregion).aligned htable hx
      have hframe : translate (fill (fill mem page 5 pgSize) page 0 pgSize) root
          (pgRoundUp oldsz) = some frame := by
        rw [htake.tree.translate_frame hsame, hown.tree.translate_frame hsame', hmapped]
      have hremap : mappages ⟨fill (fill mem page 5 pgSize) page 0 pgSize, rest⟩ root
          (pgRoundUp oldsz) page pgSize (pteR ||| pteU ||| xperm) = .error .remap :=
        (htake.write hsame).mappages_remap haligned (hgrow.trans_le hnew) hframe
      rw [kpmalloc, if_neg (List.cons_ne_nil _ _)]
      simp only
      rw [hremap]

/-! ## Calls -/

theorem heapFlags_user : heapFlags &&& pteU ≠ 0 := by decide

/-- Pages that are taken from the free list are none of the user's. -/
theorem sameBytes_of_allocates {pm pm' : Pm} {tables tables' : ℕ → Set ℕ}
    (hown : Owned kernelEnd region pm root tables) (halloc : Allocates pm pm' tables tables') :
    SameBytes root pm.mem pm'.mem := by
  intro va pa flags htranslate huser
  obtain ⟨leaf, -, rfl, -, hleaf⟩ := hown.tree.userLeaf htranslate huser
  have haligned := pte2pa_aligned (entry pm.mem leaf (idx 0 va))
  have hpage := pgRoundDown_add haligned (Nat.mod_lt va (by decide))
  have hframe : Frame pm.mem tables (pte2pa (entry pm.mem leaf (idx 0 va))) := ⟨_, hleaf⟩
  refine halloc.same _ ?_ fun hfree => ?_
  · rw [hpage]
    exact hown.frameTable _ hframe
  · rw [hpage] at hfree
    exact hown.freeFrame _ hfree hframe

/-- What a call that returns has done. -/
structure Done (kernelEnd : ℕ) (region : Set ℕ) (root start limit : ℕ) (mem₀ : Mem) (p : Caller)
    (top incr ret : ℕ) (p' : Caller) : Prop where
  bytes : SameBytes root p.pm.mem p'.pm.mem
  result : (ret = p.heapEnd ∧ p'.heapEnd = p.moved incr ∧
      Heap kernelEnd region root start limit mem₀ p' (max top (pgRoundUp (p.moved incr))) ∧
      (p.moved incr ≤ top → p'.pm = p.pm) ∧
      ∀ va, top ≤ va → va < p.moved incr → ∃ page,
        translate p'.pm.mem root va = some (page + va % pgSize, heapFlags) ∧
        ∀ k < pgSize, p'.pm.mem (page + k) = 0) ∨
    (pgRoundUp p.heapEnd < p.moved incr ∧ ret = 2 ^ 64 - 1 ∧ p'.heapEnd = p.heapEnd ∧
      Heap kernelEnd region root start limit mem₀ p' top)

theorem Heap.roundUp_le (hbounds : Bounds start limit)
    (hheap : Heap kernelEnd region root start limit mem₀ p top) {sz : ℕ} (hsz : sz ≤ top) :
    pgRoundUp sz ≤ top ∧ pgRoundUp sz % pgSize = 0 ∧ sz ≤ pgRoundUp sz := by
  have htop := hheap.top_le.trans hbounds.limit_le
  have haligned := hheap.aligned
  have hup := pgRoundUp_eq (hsz.trans (htop.trans (by decide : ustack - pgSize ≤ maxVa)))
  simp only [pgSize] at *
  omega

/-- A call that changes no page. -/
theorem Heap.same (hbounds : Bounds start limit)
    (hheap : Heap kernelEnd region root start limit mem₀ p top)
    (hwithin : Within start limit p incr) (hle : p.moved incr ≤ top) :
    Done kernelEnd region root start limit mem₀ p top incr p.heapEnd ⟨p.pm, p.moved incr⟩ := by
  refine ⟨fun _ _ _ _ _ => rfl, .inl ⟨rfl, rfl, ?_, fun _ => rfl, fun va hlo hhi => by omega⟩⟩
  rw [max_eq_left (hheap.roundUp_le hbounds hle).1]
  exact ⟨hheap.own, hwithin.2.1, hle, hheap.top_le, hheap.aligned, hheap.mapped, hheap.unmapped,
    hheap.others⟩

/-- A call that fails changes no translation. -/
theorem Heap.failed (hheap : Heap kernelEnd region root start limit mem₀ p top) {pm' : Pm}
    {tables' : ℕ → Set ℕ} (hbounds : Bounds start limit)
    (hown : Owned kernelEnd region pm' root tables')
    (hsame : ∀ va < maxVa, translate pm'.mem root va = translate p.pm.mem root va) :
    Heap kernelEnd region root start limit mem₀ ⟨pm', p.heapEnd⟩ top := by
  have hlimit : limit ≤ maxVa := hbounds.limit_le.trans (by decide)
  refine ⟨⟨_, hown⟩, hheap.le_end, hheap.end_le, hheap.top_le, hheap.aligned, fun va hlo hhi => ?_,
    fun va hlo hhi => ?_, fun va hva hout => ?_⟩
  · rw [hsame va (hhi.trans_le (hheap.top_le.trans hlimit))]
    exact hheap.mapped va hlo hhi
  · rw [hsame va (hhi.trans_le hlimit)]
    exact hheap.unmapped va hlo hhi
  · rw [hsame va hva]
    exact hheap.others va hva hout

/-- A call that maps the pages from the top on. -/
theorem Heap.grown (hbounds : Bounds start limit)
    (hheap : Heap kernelEnd region root start limit mem₀ p top)
    (hwithin : Within start limit p incr) (hmore : top < p.moved incr) {pm' : Pm}
    {tables' : ℕ → Set ℕ} (hown : Owned kernelEnd region pm' root tables')
    (hzero : ZeroPages p.pm pm' root top (pgRoundUp (p.moved incr)) heapFlags)
    (hsame : SameOutside p.pm.mem pm'.mem root top (pgRoundUp (p.moved incr))) :
    Heap kernelEnd region root start limit mem₀ ⟨pm', p.moved incr⟩
      (max top (pgRoundUp (p.moved incr))) := by
  have hlimit : limit ≤ maxVa := hbounds.limit_le.trans (by decide)
  have hnew := hwithin.2.2
  have hup := pgRoundUp_eq (hnew.trans hlimit)
  have haligned := hbounds.limit_aligned
  simp only [pgSize] at haligned
  have htop : max top (pgRoundUp (p.moved incr)) = pgRoundUp (p.moved incr) :=
    max_eq_right (by omega)
  rw [htop]
  refine ⟨⟨_, hown⟩, hwithin.2.1, by show p.moved incr ≤ _; omega, by omega,
    by simp only [pgSize]; omega, fun va hlo hhi => ?_, fun va hlo hhi => ?_, fun va hva hout => ?_⟩
  · by_cases hva : va < top
    · rw [hsame va (by omega) (.inl hva)]
      exact hheap.mapped va hlo hva
    · obtain ⟨page, -, -, htranslate, -⟩ := hzero va (not_lt.mp hva) hhi
      exact ⟨page, htranslate⟩
  · rw [hsame va (by omega) (.inr hlo)]
    exact hheap.unmapped va (by omega) hhi
  · have htop' := hheap.top_le
    have hle := hheap.le_end.trans hheap.end_le
    rw [hsame va hva (by omega)]
    exact hheap.others va hva hout

theorem Heap.sysSbrk (hbounds : Bounds start limit)
    (hheap : Heap kernelEnd region root start limit mem₀ p top)
    (hwithin : Within start limit p incr) :
    (Blocked p top incr → Sbrk.sysSbrk kernelEnd root p incr = .error .remap) ∧
      (¬Blocked p top incr → ∃ ret p', Sbrk.sysSbrk kernelEnd root p incr = .ok (ret, p') ∧
        Done kernelEnd region root start limit mem₀ p top incr ret p') := by
  obtain ⟨tables, hown⟩ := hheap.own
  have hlimit : limit ≤ maxVa := hbounds.limit_le.trans (by decide)
  have hmax : maxVa = 2 ^ 38 := rfl
  have hend := hheap.end_le.trans hheap.top_le
  have hpos := hbounds.pos.trans_le hheap.le_end
  obtain ⟨hround, haligned, hle⟩ := hheap.roundUp_le hbounds hheap.end_le
  obtain ⟨hincr, hlow, hnew⟩ := id hwithin
  by_cases hzero : incr = 0
  · have hmoved : p.moved incr = p.heapEnd := by
      rw [Caller.moved, hzero, Nat.add_zero, Nat.mod_eq_of_lt (by omega)]
    refine ⟨fun hblocked => absurd hblocked.1 (by omega), fun _ => ⟨p.heapEnd, p, ?_, ?_⟩⟩
    · rw [Sbrk.sysSbrk, if_pos hzero]
    · have hdone := hheap.same hbounds hwithin (by omega)
      rwa [hmoved] at hdone
  rw [Sbrk.sysSbrk, if_neg hzero, if_pos (Nat.pos_of_ne_zero hzero), incrHeapSpace]
  have hreturns : ∀ {size : ℕ} {pm' : Pm}, size ≠ 0 →
      (Except.ok (size, pm') : Except Panic (ℕ × Pm)).map (fun (size, pm) =>
        if size = 0 then (2 ^ 64 - 1, { p with pm := pm }) else (p.heapEnd, ⟨pm, p.moved incr⟩)) =
      .ok (p.heapEnd, ⟨pm', p.moved incr⟩) := fun hsize => congrArg Except.ok (if_neg hsize)
  by_cases hlower : p.moved incr < p.heapEnd
  · refine ⟨fun hblocked => absurd hblocked.1 (by omega), fun _ => ⟨p.heapEnd, _, ?_,
      hheap.same hbounds hwithin (by omega)⟩⟩
    rw [uvmalloc, if_pos hlower]
    exact hreturns (by omega)
  by_cases hlast : p.moved incr ≤ pgRoundUp p.heapEnd
  · refine ⟨fun hblocked => absurd hblocked.1 (by omega), fun _ => ⟨p.heapEnd, _, ?_,
      hheap.same hbounds hwithin (by omega)⟩⟩
    rw [uvmalloc_within (not_lt.mp hlower) hlast]
    exact hreturns (by omega)
  rw [not_le] at hlast
  by_cases htop : pgRoundUp p.heapEnd < top
  · obtain ⟨page, hmapped⟩ := hheap.mapped _ (hheap.le_end.trans hle) htop
    rw [uvmalloc_blocked hown (not_lt.mp hlower) (hnew.trans hlimit) hlast hmapped]
    by_cases hfree : p.pm.freelist = []
    · refine ⟨fun hblocked => absurd hfree hblocked.2.2, fun _ => ⟨2 ^ 64 - 1, p, ?_, ?_⟩⟩
      · rw [if_pos hfree]
        rfl
      · exact ⟨fun _ _ _ _ _ => rfl, .inr ⟨hlast, rfl, rfl, hheap⟩⟩
    · refine ⟨fun _ => ?_, fun hblocked => absurd ⟨hlast, htop, hfree⟩ hblocked⟩
      rw [if_neg hfree]
      rfl
  · have heq : pgRoundUp p.heapEnd = top := by omega
    have hup := pgRoundUp_eq (hnew.trans hlimit)
    have hceil := hbounds.limit_aligned
    simp only [pgSize] at hceil
    refine ⟨fun hblocked => absurd hblocked.2.1 htop, fun _ => ?_⟩
    obtain ⟨ret, pm', tables', halloc, hresult⟩ := @Owned.alloc _ _ _ _ _ hown p.heapEnd
      (p.moved incr) (pteW ||| pteV) (by decide) (hnew.trans hlimit) fun va hlo hhi =>
        hheap.unmapped va (heq ▸ hlo) (by omega)
    rw [heq] at hresult
    rw [halloc]
    obtain ⟨hlt, -⟩ | ⟨-, rfl, hown', hallocates, hzeroed, hsame⟩ | ⟨-, rfl, hundone, -⟩ := hresult
    · exact absurd hlt hlower
    · refine ⟨p.heapEnd, ⟨pm', p.moved incr⟩, hreturns (by omega), ?_⟩
      refine ⟨sameBytes_of_allocates hown hallocates,
        .inl ⟨rfl, rfl, ?_, fun hle => by omega, ?_⟩⟩
      · exact hheap.grown hbounds hwithin (by omega) hown' hzeroed hsame
      · intro va hlo hhi
        obtain ⟨page, -, -, hpage⟩ := hzeroed va hlo (by omega)
        exact ⟨page, hpage⟩
    · refine ⟨2 ^ 64 - 1, ⟨pm', p.heapEnd⟩, rfl, ?_⟩
      exact ⟨sameBytes_of_allocates hown hundone.allocates,
        .inr ⟨hlast, rfl, rfl, hheap.failed hbounds hundone.own hundone.same⟩⟩

/-! ## Runs -/

/-- A call of `sys_sbrk` that returns. -/
def Step (kernelEnd root : ℕ) (p : Caller) (incr : ℕ) (p' : Caller) : Prop :=
  ∃ ret, Sbrk.sysSbrk kernelEnd root p incr = .ok (ret, p')

theorem heap_of_reach {p₀ : Caller} (hbounds : Bounds start limit)
    (hheap : Heap kernelEnd region root start limit mem₀ p₀ top)
    (hreach : Reach (Step kernelEnd root) (Within start limit) p₀ p) :
    ∃ top', top ≤ top' ∧ Heap kernelEnd region root start limit mem₀ p top' := by
  induction hreach with
  | refl => exact ⟨top, le_rfl, hheap⟩
  | @tail before after incr _ hwithin hstep ih =>
      obtain ⟨top', hle, hheap'⟩ := ih
      obtain ⟨ret, hreturn⟩ := hstep
      obtain ⟨hpanic, hdone⟩ := hheap'.sysSbrk hbounds hwithin
      by_cases hblocked : Blocked before top' incr
      · rw [hpanic hblocked] at hreturn
        cases hreturn
      · obtain ⟨ret', after', hreturn', hafter⟩ := hdone hblocked
        rw [hreturn] at hreturn'
        obtain ⟨-, rfl⟩ := Prod.mk.inj (Except.ok.inj hreturn')
        obtain ⟨-, -, hheap'', -⟩ | ⟨-, -, -, hheap''⟩ := hafter.result
        · exact ⟨_, hle.trans (le_max_left _ _), hheap''⟩
        · exact ⟨top', hle, hheap''⟩

end Calls

end Painting.Sbrk
