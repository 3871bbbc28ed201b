import Painting.Mm.SlabRunsInvariant

/-!
# Live objects of a slab cache

Along every run that frees objects of the newest page only, the live objects lie apart inside the
data areas of their pages, the bitmaps record them, and the words around the data areas belong to
the allocator.
-/

namespace Painting.Slab

open Painting.Memory Painting.Transition

/-- The live objects lie apart, each of them in a slot of a page, and the bits of live and freed
slots are right. -/
structure Separate (mode : Mode) (s : State) : Prop where
  disjoint : ∀ bp ∈ s.live, ∀ other ∈ s.live, bp ≠ other →
    bp + mode.size ≤ other ∨ other + mode.size ≤ bp
  inside : ∀ bp ∈ s.live, ∃ list ∈ s.pages, ∃ i, bp = list + i * mode.size ∧
    bp + mode.size ≤ list + pageAllocSize
  set : ∀ list ∈ s.pages, ∀ i < mode.blockNum, list + i * mode.size ∈ s.live →
    Taken s.cache.mem list i
  clear : ∀ list ∈ s.pages, ∀ i < mode.blockNum, list + i * mode.size ∈ s.freed →
    ¬ Taken s.cache.mem list i

variable {mode : Mode} {s : State}

theorem Ok.separate (hok : Ok mode s) (hsized : mode.Sized) : Separate mode s := by
  refine ⟨fun bp hbp other hother => hok.disjoint hsized hbp hother, fun bp hbp => ?_,
    fun list hlist i hi hlive => ?_, fun list hlist i hi hfreed => ?_⟩
  · obtain ⟨list, hlist, i, hi, rfl⟩ := hok.slot bp hbp
    have hend := Ok.inside hsized hi
    exact ⟨list, hlist, i, rfl, by omega⟩
  · obtain hless | hlarge := lt_or_ge i mode.capacity
    · exact (hok.taken list hlist i hless).mpr hlive
    · exact hok.full list hlist i (hi.trans_le hsized.fits.bits) hlarge
  · obtain ⟨hnot, other, hother, j, hj, heq⟩ := hok.freed _ hfreed
    obtain ⟨rfl, rfl⟩ := hok.cache.slot_inj hsized.fits hlist hother hi
      (hj.trans_le hsized.few) heq
    rw [hok.taken list hlist i hj]
    exact hnot

/-- In every run that frees objects of the newest page only, the live objects lie apart,
`kalloc` returns an object that is not live, and every step leaves the words of the pages but for
the bit of its object and the link to a new page. -/
theorem objects_of_reach (hmode : mode ∈ slabModes) (mem : Mem) {page : Page}
    (hpage : page.addr % pgSize = 0)
    (hreach : Reach (Step mode) FreesNewest (start mode mem page) s) :
    Separate mode s ∧
      (∀ page s', Step mode s (.kalloc page) s' → ∃ bp, bp ∉ s.live ∧
        (kalloc mode s.cache page).1 = some bp ∧ s'.live = insert bp s.live) ∧
      ∀ action s', FreesNewest s action → Step mode s action s' → Frame mode s action s' := by
  have hsized := sized_of_mem hmode
  have hok := ok_of_reach hsized hpage hreach
  refine ⟨hok.separate hsized, fun page s' hstep => ?_, fun action s' hguard hstep => ?_⟩
  · obtain ⟨rounds, hnext⟩ := hstep
    simp only [next] at hnext
    split at hnext
    · rename_i hnew
      obtain rfl := Option.some.inj hnext
      obtain ⟨bp, hnot, hresult, -⟩ := kalloc_step hok hsized (Page.New.mk hnew.1 hnew.2)
      refine ⟨bp, hnot, hresult, ?_⟩
      rw [State.allocated, hresult, Option.toFinset_some, Finset.singleton_union]
    · cases hnext
  · exact (next_step hok hsized (fun _ _ _ => rfl) (step_found hok hguard hstep)).2

/-- A step of the code that frees in the newest page only. -/
def nextNewest (mode : Mode) (s : State) : Action → Option State
  | .kfree bp =>
      if s.cache.heapList ≤ bp ∧ bp < s.cache.heapList + pageAllocSize then
        next (freeCode mode 1) mode s (.kfree bp)
      else none
  | action => next (freeCode mode 1) mode s action

theorem nextNewest_spec (before : State) (action : Action) (after : State)
    (hnext : nextNewest mode before action = some after) :
    FreesNewest before action ∧ Step mode before action after := by
  cases action with
  | kfree bp =>
      simp only [nextNewest] at hnext
      split at hnext
      · rename_i hnewest
        refine ⟨fun other hother => ?_, 1, hnext⟩
        obtain rfl := Action.kfree.inj hother
        exact hnewest
      · cases hnext
  | _ => exact ⟨nofun, 1, hnext⟩

/-- Two objects of `PROC_MODE` are allocated, the second one is written and the first one freed. -/
def twoObjects : List Action :=
  [.kalloc (zeroPage 0x80400000), .kalloc (zeroPage 0x80400000),
    .write (0x80300000 + 416) fun _ => 0xff, .kfree (0x80300000 + 24)]

def oneFreed : State :=
  (follow (nextNewest procMode) twoObjects
    (start procMode (fun _ => 5) (zeroPage 0x80300000))).get (by decide +kernel)

theorem objects_oneFreed :
    Separate procMode oneFreed ∧
      (∀ page s', Step procMode oneFreed (.kalloc page) s' → ∃ bp, bp ∉ oneFreed.live ∧
        (kalloc procMode oneFreed.cache page).1 = some bp ∧ s'.live = insert bp oneFreed.live) ∧
      ∀ action s', FreesNewest oneFreed action → Step procMode oneFreed action s' →
        Frame procMode oneFreed action s' := by
  have hreach : Reach (Step procMode) FreesNewest
      (start procMode (fun _ => 5) (zeroPage 0x80300000)) oneFreed :=
    reach_of_guarded nextNewest_spec (Option.some_get (by decide +kernel)).symm
  exact objects_of_reach (by simp [slabModes]) (fun _ => 5) (by decide) hreach

end Painting.Slab
