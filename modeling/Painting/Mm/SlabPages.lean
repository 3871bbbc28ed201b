import Painting.Mm.SlabRunsInvariant

/-!
# How many pages a slab cache takes

`kalloc` takes a page when the newest page has no clear bit.  That page need not be full, since
`init_bitmap_helper` sets the bits of usable slots in two of the modes, and an older page may
have slots that were freed.

`kfree` is taken to clear the bit of its object here, whichever page the object lies in.
-/

namespace Painting.Slab

open Painting.Memory Painting.Transition

/-- The live objects of the page at `list`. -/
def State.liveIn (s : State) (list : ℕ) : Finset ℕ :=
  s.live.filter fun bp => list ≤ bp ∧ bp < list + pageAllocSize

/-- Every page holds as many live objects as it has room for. -/
def AllFull (mode : Mode) (s : State) : Prop :=
  ∀ list ∈ s.pages, (s.liveIn list).card = mode.blockNum

/-- `kalloc` calls `buddy_alloc`. -/
def TakesPage (mode : Mode) (s : State) (page : Page) : Prop :=
  (kalloc mode s.cache page).2.heapList ≠ s.cache.heapList

/-- The newest page has a clear bit, or a new page has as many clear bits as slots and no page has
a clear bit. -/
def HasRoom (mode : Mode) (s : State) : Prop :=
  (∃ i < 128, ¬ Taken s.cache.mem s.cache.heapList i) ∨
    mode.capacity = mode.blockNum ∧ ∀ list ∈ s.pages, ∀ i < 128, Taken s.cache.mem list i

/-- `kalloc` is called in such states only. -/
def WithRoom (mode : Mode) (s : State) (action : Action) : Prop :=
  ∀ page, action = .kalloc page → HasRoom mode s

/-- The pages that the most objects ever live fill. -/
def pagesFor (mode : Mode) (peak : ℕ) : ℕ := max 1 ((peak + mode.blockNum - 1) / mode.blockNum)

variable {mode : Mode} {s : State}

/-! ## Counting -/

theorem liveIn_eq (hok : Ok mode s) (hsized : mode.Sized) {list : ℕ} (hlist : list ∈ s.pages) :
    s.liveIn list = ((Finset.range mode.capacity).filter fun i =>
      list + i * mode.size ∈ s.live).image fun i => list + i * mode.size := by
  ext bp
  simp only [State.liveIn, Finset.mem_filter, Finset.mem_image, Finset.mem_range]
  constructor
  · rintro ⟨hlive, hlo, hhi⟩
    obtain ⟨page, hpage, i, hi, rfl⟩ := hok.slot bp hlive
    have hend := Ok.inside hsized hi
    have hsize := hsized.fits.size
    obtain rfl : page = list := by
      by_contra hne
      have hapart := hok.cache.apart hpage hlist hne
      simp only [pageAllocSize, pgSize, align] at *
      omega
    exact ⟨i, ⟨hi, hlive⟩, rfl⟩
  · rintro ⟨i, ⟨hi, hlive⟩, rfl⟩
    have hend := Ok.inside hsized hi
    have hsize := hsized.fits.size
    exact ⟨hlive, by omega, by omega⟩

theorem card_liveIn (hok : Ok mode s) (hsized : mode.Sized) {list : ℕ} (hlist : list ∈ s.pages) :
    (s.liveIn list).card =
      ((Finset.range mode.capacity).filter fun i => list + i * mode.size ∈ s.live).card := by
  rw [liveIn_eq hok hsized hlist, Finset.card_image_of_injective]
  intro i j heq
  exact Nat.eq_of_mul_eq_mul_right hsized.fits.size (Nat.add_left_cancel heq)

/-- A page is full when no bit is clear and `init_bitmap_helper` set none too many. -/
theorem card_liveIn_eq (hok : Ok mode s) (hsized : mode.Sized) {list : ℕ}
    (hlist : list ∈ s.pages) : (s.liveIn list).card = mode.blockNum ↔
      mode.capacity = mode.blockNum ∧ ∀ i < 128, Taken s.cache.mem list i := by
  rw [card_liveIn hok hsized hlist]
  have hle : ((Finset.range mode.capacity).filter fun i =>
      list + i * mode.size ∈ s.live).card ≤ mode.capacity := by
    simpa using Finset.card_filter_le (Finset.range mode.capacity) fun i =>
      list + i * mode.size ∈ s.live
  have hfew := hsized.few
  constructor
  · intro hcard
    have hcapacity : mode.capacity = mode.blockNum := by omega
    have hall : ((Finset.range mode.capacity).filter fun i =>
        list + i * mode.size ∈ s.live).card = (Finset.range mode.capacity).card := by
      rw [hcard, Finset.card_range, hcapacity]
    refine ⟨hcapacity, fun i hi => ?_⟩
    obtain hless | hlarge := lt_or_ge i mode.capacity
    · exact (hok.taken list hlist i hless).mpr
        (Finset.card_filter_eq_iff.mp hall i (Finset.mem_range.mpr hless))
    · exact hok.full list hlist i hi hlarge
  · rintro ⟨hcapacity, htaken⟩
    have hbits := hsized.fits.bits
    have hall : ((Finset.range mode.capacity).filter fun i =>
        list + i * mode.size ∈ s.live).card = (Finset.range mode.capacity).card := by
      refine Finset.card_filter_eq_iff.mpr fun i hi => ?_
      have hless := Finset.mem_range.mp hi
      exact (hok.taken list hlist i hless).mp (htaken i (by omega))
    rw [hall, Finset.card_range, hcapacity]

/-- Full pages together hold as many objects as they have slots. -/
theorem le_card_live (hok : Ok mode s) (hfull : AllFull mode s) :
    s.pages.length * mode.blockNum ≤ s.live.card := by
  have hdisjoint : (s.pages.toFinset : Set ℕ).PairwiseDisjoint s.liveIn := by
    intro left hleft right hright hne
    rw [Function.onFun, Finset.disjoint_left]
    intro bp hbp hbp'
    have hapart := hok.cache.apart (List.mem_toFinset.mp hleft) (List.mem_toFinset.mp hright) hne
    have hin := (Finset.mem_filter.mp hbp).2
    have hin' := (Finset.mem_filter.mp hbp').2
    simp only [pageAllocSize, pgSize, align] at *
    omega
  calc s.pages.length * mode.blockNum = ∑ list ∈ s.pages.toFinset, (s.liveIn list).card := by
        rw [Finset.sum_const_nat fun list hlist => hfull list (List.mem_toFinset.mp hlist),
          List.toFinset_card_of_nodup hok.cache.nodup]
    _ = (s.pages.toFinset.biUnion s.liveIn).card := (Finset.card_biUnion hdisjoint).symm
    _ ≤ s.live.card := Finset.card_le_card
        (Finset.biUnion_subset.mpr fun list _ => Finset.filter_subset _ _)

/-! ## Taking a page -/

/-- `kalloc` takes a page if and only if no bit of the newest page is clear. -/
theorem takesPage_iff (hok : Ok mode s) (hsized : mode.Sized) {page : Page}
    (hnew : page.New s.pages) :
    TakesPage mode s page ↔ ∀ i < 128, Taken s.cache.mem s.cache.heapList i := by
  have hhead := hok.cache.heapList_mem
  have hbits := hsized.few.trans hsized.fits.bits
  unfold TakesPage
  obtain ⟨i, hi, mem', hkalloc, hclear, -⟩ | ⟨hfull, i, -, mem', hkalloc, -⟩ :=
    kalloc_cases hok.cache hsized (hok.full _ hhead) page
  · rw [hkalloc]
    simp only [ne_eq, not_true_eq_false, false_iff]
    exact fun hall => hclear (hall i (by omega))
  · rw [hkalloc]
    refine iff_of_true ?_ hfull
    intro heq
    have heq : page.addr + 24 = s.cache.heapList := heq
    rw [← heq] at hhead
    exact hnew.new hhead

theorem takesPage_allFull_iff (hok : Ok mode s) (hsized : mode.Sized) {page : Page}
    (hnew : page.New s.pages) :
    (TakesPage mode s page → AllFull mode s) ↔ HasRoom mode s := by
  have hhead := hok.cache.heapList_mem
  have hfull : AllFull mode s ↔ ∀ list ∈ s.pages,
      mode.capacity = mode.blockNum ∧ ∀ i < 128, Taken s.cache.mem list i :=
    forall₂_congr fun list hlist => card_liveIn_eq hok hsized hlist
  rw [takesPage_iff hok hsized hnew, hfull, HasRoom]
  constructor
  · intro hall
    by_cases hclear : ∃ i < 128, ¬ Taken s.cache.mem s.cache.heapList i
    · exact .inl hclear
    · push Not at hclear
      exact .inr ⟨(hall hclear _ hhead).1, fun list hlist => (hall hclear list hlist).2⟩
  · rintro (⟨i, hi, hclear⟩ | ⟨hcapacity, hall⟩) htaken
    · exact absurd (htaken i hi) hclear
    · exact fun list hlist => ⟨hcapacity, hall list hlist⟩

/-- A page that is taken while all others are full is needed for one more live object. -/
theorem pagesFor_succ (hsized : mode.Sized) {count live peak : ℕ}
    (hfull : count * mode.blockNum ≤ live) (hpeak : live + 1 ≤ peak) :
    count + 1 ≤ pagesFor mode peak := by
  have hpos := hsized.fits.some
  refine le_max_of_le_right ((Nat.le_div_iff_mul_le hpos).mpr ?_)
  calc (count + 1) * mode.blockNum = count * mode.blockNum + mode.blockNum := Nat.succ_mul _ _
    _ ≤ peak + mode.blockNum - 1 := by omega

theorem pagesFor_mono (mode : Mode) {peak peak' : ℕ} (hle : peak ≤ peak') :
    pagesFor mode peak ≤ pagesFor mode peak' :=
  max_le_max le_rfl (Nat.div_le_div_right (by omega))

theorem pages_step (hok : Ok mode s) (hsized : mode.Sized) {action : Action} {s' : State}
    (hguard : WithRoom mode s action) (hpages : s.pages.length ≤ pagesFor mode s.peak)
    (hstep : StepFound mode s action s') : s'.pages.length ≤ pagesFor mode s'.peak := by
  cases action with
  | kalloc page =>
      simp only [StepFound, next] at hstep
      split at hstep
      · rename_i hnew
        obtain rfl := Option.some.inj hstep
        have hnew : page.New s.pages := Page.New.mk hnew.1 hnew.2
        obtain ⟨bp, hnot, hresult, -⟩ := kalloc_step hok hsized hnew
        have hlive : ((kalloc mode s.cache page).1.toFinset ∪ s.live).card = s.live.card + 1 := by
          rw [hresult, Option.toFinset_some, Finset.singleton_union,
            Finset.card_insert_of_notMem hnot]
        simp only [State.allocated, hlive]
        split
        · exact hpages.trans (pagesFor_mono mode (le_max_left _ _))
        · rename_i htakes
          have hfull := (takesPage_allFull_iff hok hsized hnew).mpr (hguard page rfl) htakes
          exact pagesFor_succ hsized (le_card_live hok hfull) (le_max_right _ _)
      · cases hstep
  | kfree bp =>
      simp only [StepFound, next] at hstep
      split at hstep
      · rename_i hlive
        obtain ⟨mem', hfound, -⟩ := free_step hok hsized hlive
        rw [hfound, Option.map_some] at hstep
        obtain rfl := Option.some.inj hstep
        exact hpages
      · cases hstep
  | write bp bytes =>
      simp only [StepFound, next] at hstep
      split at hstep
      · obtain rfl := Option.some.inj hstep
        exact hpages
      · cases hstep

/-- In every run, `kalloc` takes a page only when all pages are full if and only if there is room
or a reason to; and in every run of such calls, the number of pages is no larger than the most
objects ever live require. -/
theorem pages_of_reach (hmode : mode ∈ slabModes) (mem : Mem) {page : Page}
    (hpage : page.addr % pgSize = 0) :
    (∀ s, Reach (StepFound mode) Unguarded (start mode mem page) s →
      ∀ new : Page, new.New s.pages →
        ((TakesPage mode s new → AllFull mode s) ↔ HasRoom mode s)) ∧
      ∀ s, Reach (StepFound mode) (WithRoom mode) (start mode mem page) s →
        s.pages.length ≤ pagesFor mode s.peak := by
  have hsized := sized_of_mem hmode
  refine ⟨fun s hreach new hnew => ?_, fun s hreach => ?_⟩
  · exact takesPage_allFull_iff (ok_of_reach_found hsized hpage hreach) hsized hnew
  · have hall : Ok mode s ∧ s.pages.length ≤ pagesFor mode s.peak := by
      apply hreach.invariant (And.intro (start_ok hsized mem hpage) (le_max_left _ _))
      rintro before action after ⟨hok, hpages⟩ hguard hstep
      exact ⟨(next_step hok hsized (fun _ _ _ => rfl) hstep).1,
        pages_step hok hsized hguard hpages hstep⟩
    exact hall.2

/-- The first page of `PROC_MODE`. -/
theorem pages_procMode :
    (∀ s, Reach (StepFound procMode) Unguarded
        (start procMode (fun _ => 5) (zeroPage 0x80300000)) s →
      ∀ new : Page, new.New s.pages →
        ((TakesPage procMode s new → AllFull procMode s) ↔ HasRoom procMode s)) ∧
      ∀ s, Reach (StepFound procMode) (WithRoom procMode)
          (start procMode (fun _ => 5) (zeroPage 0x80300000)) s →
        s.pages.length ≤ pagesFor procMode s.peak :=
  pages_of_reach (by simp [slabModes]) (fun _ => 5) (by decide)

/-- Ten objects of `PROC_MODE` fill the first page, the second page gets one and the first loses
one; nine more fill the second page, and one more is asked for. -/
def refilled : List Action :=
  List.replicate 11 (.kalloc (zeroPage 0x80400000)) ++ [.kfree (0x80300000 + 24)] ++
    List.replicate 10 (.kalloc (zeroPage 0x80500000))

def threePages : State :=
  (follow (next (freeFound procMode) procMode) refilled
    (start procMode (fun _ => 5) (zeroPage 0x80300000))).get (by decide +kernel)

/-- Twenty objects then take three pages, although a page holds ten. -/
theorem exists_threePages :
    ¬ ∀ s, Reach (StepFound procMode) Unguarded
      (start procMode (fun _ => 5) (zeroPage 0x80300000)) s →
      s.pages.length ≤ pagesFor procMode s.peak := by
  intro hpages
  have hreach : Reach (StepFound procMode) Unguarded
      (start procMode (fun _ => 5) (zeroPage 0x80300000)) threePages :=
    reach_of_follow (fun _ _ _ hnext => hnext) (Option.some_get (by decide +kernel)).symm
  have hmany : ¬ threePages.pages.length ≤ pagesFor procMode threePages.peak := by
    decide +kernel
  exact hmany (hpages threePages hreach)

end Painting.Slab
