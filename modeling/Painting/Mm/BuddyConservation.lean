import Painting.Mm.BuddyInvariant

/-!
# What the buddy allocator loses

The live and the free blocks should cover the pages taken from `kpmalloc`.  The split
loop of `buddy_alloc` stops one level early, so that every split loses the half next to
the block it returns, and `buddy_free` finds no level in a block that is a whole page.
Only whole pages that are never freed are accounted for.
-/

namespace Painting.Buddy

open Painting.Memory Painting.Transition

/-- The address lies in one of the blocks. -/
def Covered (blocks : List Block) (x : ℕ) : Prop :=
  ∃ block ∈ blocks, block.1 ≤ x ∧ x < block.1 + 2 ^ block.2

/-- Nothing is lost: the live blocks and those on the lists cover exactly the pages, and
when no block is live all lists are empty and all pages given back. -/
def Conserved (state : State) : Prop :=
  (∃ free : ℕ → List ℕ,
    (∀ level < maxLevel, Chain state.heap.mem (state.heap.buddyList level) (free level)) ∧
    ∀ x, Covered (state.live ++ freeBlocks free) x ↔
      ∃ page ∈ state.pages, page ≤ x ∧ x < page + pgSize) ∧
  (state.live = [] →
    (∀ level < maxLevel, state.heap.buddyList level = 0) ∧ state.pages = [])

/-- The call asks for a whole page. -/
def WholePage (_ : State) : Action → Prop
  | .alloc sz _ => sz = pgSize
  | .free _ => False

theorem Chain.unique {mem : Mem} {head : ℕ} {left right : List ℕ} (hleft : Chain mem head left)
    (hright : Chain mem head right) : left = right := by
  induction left generalizing head right with
  | nil =>
      cases right with
      | nil => rfl
      | cons block rest => exact absurd (hright.1.symm.trans hleft) hright.2.1
  | cons block rest ih =>
      obtain ⟨rfl, hne, htail⟩ := hleft
      cases right with
      | nil => exact absurd hright hne
      | cons other rest' =>
          obtain ⟨rfl, _, htail'⟩ := hright
          rw [ih htail htail']

/-- The blocks on the lists are determined by the heap. -/
theorem freeBlocks_unique {heap : Heap} {free free' : ℕ → List ℕ}
    (hfree : ∀ level < maxLevel, Chain heap.mem (heap.buddyList level) (free level))
    (hfree' : ∀ level < maxLevel, Chain heap.mem (heap.buddyList level) (free' level)) :
    freeBlocks free = freeBlocks free' := by
  apply List.flatMap_congr
  intro level hlevel
  have hlt := List.mem_range.mp hlevel
  rw [(hfree level hlt).unique (hfree' level hlt)]

/-- A byte of a page that no block covers is lost. -/
theorem not_conserved {state : State} {free : ℕ → List ℕ} {page x : ℕ}
    (hchain : ∀ level < maxLevel, Chain state.heap.mem (state.heap.buddyList level) (free level))
    (hpage : page ∈ state.pages) (hlo : page ≤ x) (hhi : x < page + pgSize)
    (hlost : ¬ Covered (state.live ++ freeBlocks free) x) : ¬ Conserved state := by
  rintro ⟨⟨free', hchain', hcover⟩, _⟩
  rw [freeBlocks_unique hchain' hchain] at hcover
  exact hlost ((hcover x).mpr ⟨page, hpage, hlo, hhi⟩)

theorem not_covered_of_apart {outer : Block} {blocks : List Block} {x : ℕ}
    (hapart : ∀ block ∈ blocks, Apart outer block) (hlo : outer.1 ≤ x)
    (hhi : x < outer.1 + 2 ^ outer.2) : ¬ Covered blocks x := by
  rintro ⟨block, hblock, hlo', hhi'⟩
  have hout := hapart block hblock
  unfold Apart at hout
  omega

/-! ## Runs of whole pages -/

/-- All lists are empty and every page is live as a whole. -/
structure WholeOnly (state : State) : Prop where
  shape : Shape state.heap [] state.live state.pages fun _ => []
  live : state.live = state.pages.map fun page => (page, maxLevel)

theorem freeBlocks_nil : freeBlocks (fun _ => []) = [] := by
  simp [freeBlocks]

theorem wholeOnly_buddyInit (mem : Mem) : WholeOnly (buddyInit mem) := by
  refine ⟨⟨fun _ _ => rfl, ⟨?_, ?_⟩, ?_⟩, rfl⟩ <;> simp [buddyInit, freeBlocks_nil]

theorem WholeOnly.list {state : State} (hwhole : WholeOnly state) {level : ℕ}
    (hlevel : level < maxLevel) : state.heap.buddyList level = 0 :=
  hwhole.shape.chain level hlevel

theorem WholeOnly.conserved {state : State} (hwhole : WholeOnly state) : Conserved state := by
  refine ⟨⟨fun _ => [], hwhole.shape.chain, fun x => ?_⟩, fun hnone => ?_⟩
  · rw [freeBlocks_nil, List.append_nil, hwhole.live]
    constructor
    · rintro ⟨block, hblock, hlo, hhi⟩
      obtain ⟨page, hpage, rfl⟩ := List.mem_map.mp hblock
      exact ⟨page, hpage, hlo, hhi⟩
    · rintro ⟨page, hpage, hlo, hhi⟩
      exact ⟨_, List.mem_map.mpr ⟨page, hpage, rfl⟩, hlo, hhi⟩
  · refine ⟨fun level hlevel => hwhole.list hlevel, ?_⟩
    rw [hwhole.live, List.map_eq_nil_iff] at hnone
    exact hnone

theorem WholeOnly.allocPage {kernelEnd page : ℕ} {state : State} (hwhole : WholeOnly state)
    (hfresh : FreshPage kernelEnd state page) :
    WholeOnly (state.afterAlloc pgSize page) := by
  have hlevel : levelOfBytes pgSize = maxLevel := levelOfBytes_two_pow (show 12 ≤ 63 by decide)
  simp only [State.afterAlloc, buddyAlloc, hlevel, if_true]
  refine ⟨(hwhole.shape.fillPage hfresh).settle (fill_apply_of_in _ le_rfl (by simp [pgSize])), ?_⟩
  rw [List.map_cons, hwhole.live]

/-- A split loses the upper half of the block that it leaves. -/
theorem WholeOnly.allocSplit {kernelEnd page level : ℕ} {state : State}
    (hwhole : WholeOnly state) (hlow : 3 ≤ level) (hlevel : level < maxLevel)
    (hfresh : FreshPage kernelEnd state page) :
    ¬ Conserved (state.afterAlloc (2 ^ level) page) := by
  have hlevelOf : levelOfBytes (2 ^ level) = level :=
    levelOfBytes_two_pow (by simp only [maxLevel] at hlevel; omega)
  have hnone : popBlock state.heap (maxLevel - level) level = none :=
    popBlock_eq_none fun i _ hhi => hwhole.list (by omega)
  simp only [State.afterAlloc, buddyAlloc, hlevelOf, if_neg hlevel.ne, hnone, if_true]
  obtain ⟨free, hsplit⟩ := (hwhole.shape.fillPage hfresh).splitLoop hlow
    (Nat.le_sub_one_of_lt hlevel) (by decide) (Nat.dvd_of_mod_eq_zero hfresh.aligned)
  have hafter := (hsplit.shrink hlow (Nat.le_succ level)).settle_putLevel hlevel
  have hpow : 2 ^ (level + 1) = 2 ^ level + 2 ^ level := by ring
  have hpos : 0 < 2 ^ level := Nat.two_pow_pos _
  have hsize : 2 ^ (level + 1) ≤ 2 ^ 12 := Nat.pow_le_pow_right (by omega) hlevel
  have hlost : ¬ Covered (state.live ++ freeBlocks free) (page + 2 ^ level) := by
    apply not_covered_of_apart hsplit.sound.head_apart
    · exact Nat.le_add_right _ _
    · dsimp only
      omega
  refine not_conserved hafter.chain (List.mem_cons_self) (Nat.le_add_right page (2 ^ level)) ?_ ?_
  · simp only [pgSize]
    omega
  · rintro ⟨block, hblock, hlo, hhi⟩
    rw [List.cons_append, List.mem_cons] at hblock
    obtain rfl | hblock := hblock
    · exact absurd hhi (lt_irrefl _)
    · exact hlost ⟨block, hblock, hlo, hhi⟩

/-- The first byte of a whole page is the filling of `kpmalloc`, which `buddy_free` takes for
a level: the page goes onto the list of level 5. -/
theorem WholeOnly.buddyFree_eq {kernelEnd fuel addr level : ℕ} {state : State}
    {result : FreeResult} (hwhole : WholeOnly state) (hlive : (addr, level) ∈ state.live)
    (hfree : buddyFree kernelEnd fuel state.heap addr = some result) :
    level = maxLevel ∧ result = .listed (state.heap.push 5 addr) := by
  have hpage := hlive
  rw [hwhole.live] at hpage
  obtain ⟨page, _, heq⟩ := List.mem_map.mp hpage
  obtain ⟨rfl, rfl⟩ := Prod.mk.injEq .. ▸ heq
  refine ⟨rfl, ?_⟩
  have hbyte : (state.heap.mem page).toNat = 5 := by
    rw [hwhole.shape.level _ hlive]
    rfl
  have hok := hwhole.shape.sound.ok (page, maxLevel) (by simp [hlive])
  have hbuddy : getBuddy page 5 = page + 32 :=
    getBuddy_page ((Nat.pow_dvd_pow 2 (by decide : 6 ≤ 12)).trans hok.aligned)
  have hhead : state.heap.deref (.head 5) = 0 := hwhole.list (by decide)
  rw [buddyFree, hbyte, if_neg (by decide)] at hfree
  cases fuel with
  | zero => cases hfree
  | succ fuel =>
      cases fuel with
      | zero =>
          rw [freeLoop, if_neg (by decide)] at hfree
          simp only [searchList, Option.bind_none] at hfree
          cases hfree
      | succ fuel =>
          rw [freeLoop, if_neg (by decide)] at hfree
          simp only [searchList, hhead, hbuddy] at hfree
          rw [if_neg (by simp), Option.bind_some, hhead, if_pos (by omega)] at hfree
          exact (Option.some.inj hfree).symm

theorem WholeOnly.free {addr : ℕ} {state : State} (hwhole : WholeOnly state)
    (hlive : (addr, maxLevel) ∈ state.live) :
    ¬ Conserved { state with
      heap := state.heap.push 5 addr
      live := state.live.erase (addr, maxLevel) } := by
  have hbyte : (state.heap.mem addr).toNat = 5 := by
    rw [hwhole.shape.level _ hlive]
    rfl
  have hhand := (hwhole.shape.freed hlive).2
  rw [hbyte] at hhand
  have hafter := hhand.push (by decide)
  have hpage : addr ∈ state.pages := by
    have hmem := hlive
    rw [hwhole.live] at hmem
    obtain ⟨page, hpage, heq⟩ := List.mem_map.mp hmem
    obtain ⟨rfl, _⟩ := Prod.mk.injEq .. ▸ heq
    exact hpage
  have hsound := hwhole.shape.sound
  rw [freeBlocks_nil, List.nil_append, List.append_nil] at hsound
  have hothers := (hsound.perm (List.perm_cons_erase hlive)).head_apart
  refine not_conserved hafter.chain hpage (Nat.le_add_right addr 32) (by simp only [pgSize]; omega)
    ?_
  rintro ⟨block, hblock, hlo, hhi⟩
  obtain hblock | hblock := List.mem_append.mp hblock
  · exact not_covered_of_apart hothers (Nat.le_add_right addr 32)
      (show addr + 32 < addr + 4096 by omega) ⟨block, hblock, hlo, hhi⟩
  · obtain ⟨_, hmem⟩ := mem_freeBlocks.mp hblock
    by_cases hlevel : block.2 = 5
    · rw [hlevel, Function.update_self, List.mem_singleton] at hmem
      rw [hlevel, hmem] at hhi
      omega
    · rw [Function.update_of_ne hlevel] at hmem
      cases hmem

/-! ## Runs -/

/-- From whole pages alone, a step keeps everything accounted for exactly when it takes
another whole page. -/
theorem WholeOnly.step {kernelEnd : ℕ} {before after : State} {action : Action}
    (hwhole : WholeOnly before) (hstep : Step kernelEnd before action after) :
    (WholePage before action → WholeOnly after) ∧ (¬ WholePage before action → ¬ Conserved after) := by
  cases hstep with
  | alloc hsz hlow hhigh hfresh =>
      rename_i sz page level
      subst hsz
      refine ⟨?_, ?_⟩
      · intro hpage
        rw [show 2 ^ level = pgSize from hpage]
        exact hwhole.allocPage hfresh
      · intro hpart
        have hlevel : level ≠ 12 := by
          rintro rfl
          exact hpart rfl
        exact hwhole.allocSplit hlow (show level < 12 by omega) hfresh
  | listed hlive hfree =>
      refine ⟨fun hfalse => hfalse.elim, fun _ => ?_⟩
      obtain ⟨rfl, hresult⟩ := hwhole.buddyFree_eq hlive hfree
      cases hresult
      exact hwhole.free hlive
  | returned hlive hfree =>
      obtain ⟨_, hresult⟩ := hwhole.buddyFree_eq hlive hfree
      cases hresult

/-- In every run of whole-page allocations nothing is lost, and the next call keeps it so
exactly when it is one more of them. -/
theorem conserved_of_reach {kernelEnd : ℕ} {mem : Mem} {state : State}
    (hreach : Reach (Step kernelEnd) WholePage (buddyInit mem) state) :
    Conserved state ∧
      ∀ action after, Step kernelEnd state action after →
        (Conserved after ↔ WholePage state action) := by
  have hwhole : WholeOnly state := by
    apply hreach.invariant (wholeOnly_buddyInit mem)
    intro before action after hwhole hguard hstep
    exact (hwhole.step hstep).1 hguard
  refine ⟨hwhole.conserved, fun action after hstep => ⟨fun hconserved => ?_, fun hpage => ?_⟩⟩
  · by_contra hnot
    exact (hwhole.step hstep).2 hnot hconserved
  · exact ((hwhole.step hstep).1 hpage).conserved

theorem conserved_onePage :
    Conserved ((buddyInit fun _ => 0).afterAlloc pgSize firstPage) := by
  have hfresh : FreshPage firstPage (buddyInit fun _ => 0) firstPage :=
    ⟨by decide, by decide, by decide, by decide, by decide⟩
  have hstep : Step firstPage (buddyInit fun _ => 0) (.alloc pgSize firstPage) _ :=
    Step.alloc (show pgSize = 2 ^ 12 from rfl) (by decide) le_rfl hfresh
  exact (conserved_of_reach (Reach.refl.tail (show WholePage _ (.alloc pgSize firstPage) from rfl)
    hstep)).1

/-- The first `buddy_alloc(8)` loses the eight bytes after its block. -/
theorem not_conserved_oneAlloc :
    Reach (Step firstPage) Unguarded (buddyInit fun _ => 0)
        ((buddyInit fun _ => 0).afterAlloc 8 firstPage) ∧
      ¬ Conserved ((buddyInit fun _ => 0).afterAlloc 8 firstPage) := by
  have hfresh : FreshPage firstPage (buddyInit fun _ => 0) firstPage :=
    ⟨by decide, by decide, by decide, by decide, by decide⟩
  refine ⟨Reach.refl.tail trivial (Step.alloc (show 8 = 2 ^ 3 from rfl) le_rfl (by decide) hfresh),
    ?_⟩
  exact (wholeOnly_buddyInit _).allocSplit (show 3 ≤ 3 from le_rfl) (by decide) hfresh

end Painting.Buddy
