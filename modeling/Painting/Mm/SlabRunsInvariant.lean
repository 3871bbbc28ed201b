import Painting.Mm.SlabRuns

/-!
# The invariant of a slab cache

Every step keeps the correspondence between bits and live objects, and changes no other word of a
page outside the objects.  This holds of the steps whose `kfree` has the page of the object at
hand, and so of the code as long as it frees objects of the newest page.
-/

namespace Painting.Slab

open Painting.Memory Painting.Transition

/-! ## What the operations change -/

/-- The first word of a page and its last. -/
def prevWord (mem : Mem) (list : ℕ) : ℕ := load mem (list - 24) 8
def nextWord (mem : Mem) (list : ℕ) : ℕ := load mem (list + pageAllocSize) 8

section Cache

variable {mode : Mode} {cache : Cache} {pages : List ℕ} {mem' : Mem} {list other : ℕ}

theorem CacheOk.ge (hok : CacheOk mode cache pages) (hlist : list ∈ pages) : 24 ≤ list := by
  have haligned := hok.aligned list hlist
  simp only [pgSize] at haligned
  omega

/-- A change in the bitmap and the data area of a page leaves the links of all pages. -/
theorem CacheOk.words_same (hok : CacheOk mode cache pages) (hlist : list ∈ pages)
    (hchanges : ChangesIn cache.mem mem' (list - 16) (list + pageAllocSize))
    (hother : other ∈ pages) :
    prevWord mem' other = prevWord cache.mem other ∧
      nextWord mem' other = nextWord cache.mem other := by
  have hge := hok.ge hlist
  have hge' := hok.ge hother
  have hapart : other = list ∨ other + pgSize ≤ list ∨ list + pgSize ≤ other :=
    or_iff_not_imp_left.mpr (hok.apart hother hlist)
  simp only [pageAllocSize, pgSize, align] at hchanges hapart
  constructor
  · exact (hchanges.agreeOn (by omega)).load_eq
  · refine (hchanges.agreeOn ?_).load_eq
    simp only [pageAllocSize, pgSize, align]
    omega

theorem CacheOk.taken_elsewhere (hok : CacheOk mode cache pages) (hlist : list ∈ pages)
    (hchanges : ChangesIn cache.mem mem' (list - 16) (list + pageAllocSize))
    (hother : other ∈ pages) (hne : other ≠ list) {i : ℕ} (hi : i < 128) :
    Taken mem' other i ↔ Taken cache.mem other i := by
  have hge := hok.ge hlist
  have hapart := hok.apart hother hlist hne
  simp only [pageAllocSize, pgSize, align] at hchanges hapart
  exact taken_congr (hchanges.agreeOn (by omega)) (hok.le hother) hi

/-- `kalloc` takes a slot of the newest page, or the first one of a new page when no bit of the
newest page is clear. -/
theorem kalloc_cases (hok : CacheOk mode cache pages) (hsized : mode.Sized)
    (hspare : ∀ i < 128, mode.capacity ≤ i → Taken cache.mem cache.heapList i) (page : Page) :
    (∃ i < mode.capacity, ∃ mem',
      kalloc mode cache page = (some (cache.heapList + i * mode.size), ⟨mem', cache.heapList⟩) ∧
        ¬ Taken cache.mem cache.heapList i ∧
        ChangesIn cache.mem mem' (cache.heapList - 16) cache.heapList ∧
        ∀ j < 128, Taken mem' cache.heapList j ↔ Taken cache.mem cache.heapList j ∨ j = i) ∨
    (∀ i < 128, Taken cache.mem cache.heapList i) ∧ ∃ i < mode.capacity, ∃ mem',
      kalloc mode cache page =
        (some (page.addr + 24 + i * mode.size), ⟨mem', page.addr + 24⟩) ∧
        (∀ x, (x < page.addr ∨ page.addr + pgSize ≤ x) →
          (x < cache.heapList + pageAllocSize ∨ cache.heapList + pageAllocSize + 8 ≤ x) →
          mem' x = cache.mem x) ∧
        ∀ j < 128, Taken mem' (page.addr + 24) j ↔ mode.capacity ≤ j ∨ j = i := by
  rw [kalloc]
  obtain ⟨i, hi, hclear, hfound, hchanges, htaken⟩ | ⟨hfound, hfull⟩ :=
    findMatchSpace_spec cache.mem mode.size (hok.le hok.heapList_mem)
  · rcases hfind : findMatchSpace cache.mem cache.heapList mode.size with ⟨bp, mem'⟩
    rw [hfind] at hfound hchanges htaken
    obtain rfl : bp = some _ := hfound
    have hcapacity : i < mode.capacity := by
      by_contra hlarge
      exact hclear (hspare i hi (not_lt.mp hlarge))
    exact .inl ⟨i, hcapacity, mem', rfl, hclear, hchanges, htaken⟩
  · refine .inr ⟨hfull, ?_⟩
    rw [hfound]
    dsimp only
    obtain ⟨hlist, -, -, hframe⟩ := heapListInit_spec (page.put cache.mem) page.addr
      cache.heapList mode.blockNum
    have hbits : ∀ j < 128, _ := fun j hj =>
      @heapListInit_taken (page.put cache.mem) page.addr cache.heapList mode j hj
    rcases hinit : heapListInit (page.put cache.mem) page.addr cache.heapList mode.blockNum with
      ⟨list, mem₁⟩
    rw [hinit] at hlist hframe hbits
    obtain rfl : list = page.addr + 24 := hlist
    dsimp only at hframe hbits ⊢
    obtain ⟨i, hi, hclear, hfound', hchanges, htaken⟩ | ⟨-, hfull'⟩ :=
      findMatchSpace_spec mem₁ mode.size (show 16 ≤ page.addr + 24 by omega)
    · rcases hfind : findMatchSpace mem₁ (page.addr + 24) mode.size with ⟨bp, mem'⟩
      rw [hfind] at hfound' hchanges htaken
      obtain rfl : bp = some _ := hfound'
      have hcapacity : i < mode.capacity := by
        rw [hbits i hi] at hclear
        omega
      refine ⟨i, hcapacity, mem', rfl, fun x hx hprev => ?_, fun j hj => ?_⟩
      · simp only [pgSize] at hx
        have hbitmap : mem' x = mem₁ x := hchanges x (by omega)
        have hput : page.put cache.mem x = cache.mem x := by
          rw [Page.put, blit, if_neg]
          simp only [pgSize]
          omega
        rw [hbitmap, hframe x (by omega) (.inr hprev), hput]
      · rw [htaken j hj, hbits j hj]
    · have hfirst := (hbits 0 (by decide)).mp (hfull' 0 (by decide))
      exact absurd hsized.clear (by omega)

end Cache

/-! ## The invariant -/

/-- The bits below the capacity say which objects are live, and the bits behind are set. -/
structure Ok (mode : Mode) (s : State) : Prop where
  cache : CacheOk mode s.cache s.pages
  full : ∀ list ∈ s.pages, ∀ i < 128, mode.capacity ≤ i → Taken s.cache.mem list i
  slot : ∀ bp ∈ s.live, ∃ list ∈ s.pages, ∃ i < mode.capacity, bp = list + i * mode.size
  taken : ∀ list ∈ s.pages, ∀ i < mode.capacity,
    (Taken s.cache.mem list i ↔ list + i * mode.size ∈ s.live)
  freed : ∀ bp ∈ s.freed, bp ∉ s.live ∧
    ∃ list ∈ s.pages, ∃ i < mode.capacity, bp = list + i * mode.size
  peak : s.live.card ≤ s.peak

/-- What a step makes of the bit of slot `i` of the page at `list`. -/
def BitAfter (mode : Mode) (s s' : State) (list i : ℕ) : Action → Prop
  | .kalloc _ => Taken s.cache.mem list i ∨
      i < mode.capacity ∧ list + i * mode.size ∈ s'.live \ s.live
  | .kfree bp => Taken s.cache.mem list i ∧ ¬ (i < mode.capacity ∧ bp = list + i * mode.size)
  | .write _ _ => Taken s.cache.mem list i

/-- A step changes the bit of its object, and the last word of the newest page when it links a new
page to it, but no other word of a page outside the objects. -/
structure Frame (mode : Mode) (s : State) (action : Action) (s' : State) : Prop where
  prev : ∀ list ∈ s.pages, prevWord s'.cache.mem list = prevWord s.cache.mem list
  next : ∀ list ∈ s.pages, s'.pages = s.pages ∨ list ≠ s.cache.heapList →
    nextWord s'.cache.mem list = nextWord s.cache.mem list
  bits : ∀ list ∈ s.pages, ∀ i < 128,
    (Taken s'.cache.mem list i ↔ BitAfter mode s s' list i action)

section Steps

variable {mode : Mode} {s : State}

theorem start_ok (hsized : mode.Sized) (mem : Mem) {page : Page}
    (hpage : page.addr % pgSize = 0) : Ok mode (start mode mem page) := by
  have hbits : ∀ list ∈ [page.addr + 24], ∀ i < 128,
      Taken (slabInit mode mem page).mem list i ↔ mode.capacity ≤ i := by
    intro list hlist i hi
    rw [List.mem_singleton.mp hlist]
    exact heapListInit_taken (page.put mem) page.addr 0 mode hi
  refine ⟨slabInit_ok mem hpage, ?_, nofun, ?_, nofun, le_rfl⟩
  · exact fun list hlist i hi hlarge => (hbits list hlist i hi).mpr hlarge
  · intro list hlist i hi
    have hfits := hsized.fits.bits
    have hfew := hsized.few
    have hset := hbits list hlist i (by omega)
    simp only [start, Finset.notMem_empty, iff_false]
    exact fun htaken => absurd (hset.mp htaken) (by omega)

theorem Ok.inside (hsized : mode.Sized) {i : ℕ} (hi : i < mode.capacity) :
    i * mode.size + mode.size ≤ pageAllocSize :=
  slot_end hsized.fits (hi.trans_le hsized.few)

theorem Ok.slot_inj (hok : Ok mode s) (hsized : mode.Sized) {left right i j : ℕ}
    (hleft : left ∈ s.pages) (hright : right ∈ s.pages) (hi : i < mode.capacity)
    (hj : j < mode.capacity) (heq : left + i * mode.size = right + j * mode.size) :
    left = right ∧ i = j :=
  hok.cache.slot_inj hsized.fits hleft hright (hi.trans_le hsized.few) (hj.trans_le hsized.few) heq

/-- Two live objects do not overlap. -/
theorem Ok.disjoint (hok : Ok mode s) (hsized : mode.Sized) {bp other : ℕ} (hbp : bp ∈ s.live)
    (hother : other ∈ s.live) (hne : bp ≠ other) :
    bp + mode.size ≤ other ∨ other + mode.size ≤ bp := by
  obtain ⟨list, hlist, i, hi, rfl⟩ := hok.slot bp hbp
  obtain ⟨page, hpage, j, hj, rfl⟩ := hok.slot other hother
  have hend := Ok.inside hsized hi
  have hend' := Ok.inside hsized hj
  by_cases hsame : list = page
  · subst hsame
    obtain hless | heq | hmore := Nat.lt_trichotomy i j
    · have hle := Nat.mul_le_mul_right mode.size (Nat.succ_le_of_lt hless)
      rw [Nat.succ_mul] at hle
      omega
    · exact absurd (by rw [heq]) hne
    · have hle := Nat.mul_le_mul_right mode.size (Nat.succ_le_of_lt hmore)
      rw [Nat.succ_mul] at hle
      omega
  · have hapart := hok.cache.apart hlist hpage hsame
    simp only [pageAllocSize, pgSize, align] at *
    omega

/-- The page that the search would have to find. -/
theorem Ok.pageOf_eq (hok : Ok mode s) (hsized : mode.Sized) {list i : ℕ}
    (hlist : list ∈ s.pages) (hi : i < mode.capacity) :
    s.pageOf (list + i * mode.size) = some list := by
  have hend := Ok.inside hsized hi
  have hsize := hsized.fits.size
  cases hfind : s.pageOf (list + i * mode.size) with
  | none =>
      have hout := List.find?_eq_none.mp hfind list hlist
      simp only [decide_eq_true_eq] at hout
      omega
  | some other =>
      have hother := List.mem_of_find?_eq_some hfind
      have hin := List.find?_some hfind
      simp only [decide_eq_true_eq] at hin
      by_contra hne
      have hapart := hok.cache.apart hother hlist fun heq => hne (by rw [heq])
      simp only [pageAllocSize, pgSize, align] at *
      omega

/-- With the page at hand `kfree` clears the bit of the object and writes into it. -/
theorem freeFound_spec (hok : Ok mode s) (hsized : mode.Sized) {list i : ℕ}
    (hlist : list ∈ s.pages) (hi : i < mode.capacity) :
    ∃ mem', freeFound mode s (list + i * mode.size) = some (⟨mem', s.cache.heapList⟩, none) ∧
      (∀ x, (x < list - 16 ∨ list ≤ x) →
        (x < list + i * mode.size ∨ list + i * mode.size + mode.size ≤ x) →
        mem' x = s.cache.mem x) ∧
      ∀ j < 128, Taken mem' list j ↔ Taken s.cache.mem list j ∧ j ≠ i := by
  have hend := Ok.inside hsized hi
  have hsize := hsized.fits.size
  have hbits := hi.trans_le (hsized.few.trans hsized.fits.bits)
  have hle := hok.cache.le hlist
  have hoff : (list + i * mode.size - list) % 2 ^ 32 / mode.size = i := by
    rw [Nat.add_sub_cancel_left, Nat.mod_eq_of_lt, Nat.mul_div_cancel _ hsize]
    simp only [pageAllocSize, pgSize, align] at hend
    omega
  obtain ⟨mem', hfree, hchanges, hafter⟩ := kfreeAt_spec
    (fill s.cache.mem (list + i * mode.size) 0xc mode.size) hle hbits
  refine ⟨mem', ?_, fun x hx hout => ?_, fun j hj => ?_⟩
  · rw [freeFound, hok.pageOf_eq hsized hlist hi, Option.map_some, hoff]
    dsimp only
    rw [hfree]
  · rw [hchanges x hx, fill_apply_of_out _ hout]
  · rw [hafter j hj, taken_congr (fill_agreeOn _ (.inl (Nat.le_add_right _ _))) hle hj]

/-- A change in one page that takes or frees slots there. -/
theorem Ok.change (hok : Ok mode s) {list : ℕ} {mem' : Mem} {live' : Finset ℕ}
    (hlist : list ∈ s.pages)
    (hchanges : ChangesIn s.cache.mem mem' (list - 16) (list + pageAllocSize))
    (hfull : ∀ i < 128, mode.capacity ≤ i → Taken mem' list i)
    (hslot : ∀ bp ∈ live', bp ∈ s.live ∨ ∃ i < mode.capacity, bp = list + i * mode.size)
    (htaken : ∀ i < mode.capacity, Taken mem' list i ↔ list + i * mode.size ∈ live')
    (hothers : ∀ other ∈ s.pages, other ≠ list → ∀ i < mode.capacity,
      (other + i * mode.size ∈ live' ↔ other + i * mode.size ∈ s.live))
    (hsized : mode.Sized) {freed' : Finset ℕ} {peak' : ℕ}
    (hfreed : ∀ bp ∈ freed', bp ∉ live' ∧ (bp ∈ s.live ∨ bp ∈ s.freed))
    (hpeak : live'.card ≤ peak') :
    Ok mode ⟨⟨mem', s.cache.heapList⟩, s.pages, live', freed', peak'⟩ := by
  have hbits := hsized.few.trans hsized.fits.bits
  have hall : ∀ other ∈ s.pages, ∀ i < 128, mode.capacity ≤ i → Taken mem' other i := by
    intro other hother i hi hlarge
    by_cases hsame : other = list
    · exact hsame ▸ hfull i hi hlarge
    · exact (hok.cache.taken_elsewhere hlist hchanges hother hsame hi).mpr
        (hok.full other hother i hi hlarge)
  refine ⟨⟨hok.cache.head, hok.cache.aligned, hok.cache.nodup, fun other hother i hi hlarge =>
    hall other hother i hi (hsized.few.trans hlarge)⟩, hall, fun bp hbp => ?_,
    fun other hother i hi => ?_, fun bp hbp => ⟨(hfreed bp hbp).1, ?_⟩, hpeak⟩
  · obtain hold | ⟨i, hi, rfl⟩ := hslot bp hbp
    · exact hok.slot bp hold
    · exact ⟨list, hlist, i, hi, rfl⟩
  · dsimp only at hother ⊢
    by_cases hsame : other = list
    · rw [hsame]
      exact htaken i hi
    · rw [hok.cache.taken_elsewhere hlist hchanges hother hsame (hi.trans_le hbits),
        hok.taken other hother i hi, hothers other hother hsame i hi]
  · obtain hlive | hold := (hfreed bp hbp).2
    · exact hok.slot bp hlive
    · exact (hok.freed bp hold).2

theorem State.allocated_same (s : State) (bp : ℕ) (mem' : Mem) :
    s.allocated (some bp, ⟨mem', s.cache.heapList⟩) =
      ⟨⟨mem', s.cache.heapList⟩, s.pages, insert bp s.live, s.freed \ {bp},
        max s.peak (insert bp s.live).card⟩ := by
  simp [State.allocated]

theorem State.allocated_new (s : State) (bp : ℕ) (mem' : Mem) {list : ℕ}
    (hlist : list ≠ s.cache.heapList) :
    s.allocated (some bp, ⟨mem', list⟩) =
      ⟨⟨mem', list⟩, list :: s.pages, insert bp s.live, s.freed \ {bp},
        max s.peak (insert bp s.live).card⟩ := by
  simp [State.allocated, hlist]

theorem Ok.freed_insert (hok : Ok mode s) (bp : ℕ) :
    ∀ other ∈ s.freed \ {bp}, other ∉ insert bp s.live ∧ other ∈ s.freed := by
  intro other hother
  obtain ⟨hfreed, hne⟩ := Finset.mem_sdiff.mp hother
  rw [Finset.mem_insert, not_or]
  exact ⟨⟨fun heq => hne (Finset.mem_singleton.mpr heq), (hok.freed other hfreed).1⟩, hfreed⟩

/-- A slot of the newest page becomes live. -/
theorem Ok.allocate (hok : Ok mode s) (hsized : mode.Sized) {i : ℕ} {mem' : Mem} (page : Page)
    (hi : i < mode.capacity) (hclear : ¬ Taken s.cache.mem s.cache.heapList i)
    (hchanges : ChangesIn s.cache.mem mem' (s.cache.heapList - 16) s.cache.heapList)
    (htaken : ∀ j < 128,
      (Taken mem' s.cache.heapList j ↔ Taken s.cache.mem s.cache.heapList j ∨ j = i)) :
    s.cache.heapList + i * mode.size ∉ s.live ∧
      Ok mode (s.allocated
        (some (s.cache.heapList + i * mode.size), ⟨mem', s.cache.heapList⟩)) ∧
      Frame mode s (.kalloc page) (s.allocated
        (some (s.cache.heapList + i * mode.size), ⟨mem', s.cache.heapList⟩)) := by
  have hhead := hok.cache.heapList_mem
  have hbits := hsized.few.trans hsized.fits.bits
  have hnotLive : s.cache.heapList + i * mode.size ∉ s.live :=
    fun hlive => hclear ((hok.taken _ hhead i hi).mpr hlive)
  have hwhole : ChangesIn s.cache.mem mem' (s.cache.heapList - 16)
      (s.cache.heapList + pageAllocSize) := hchanges.mono le_rfl (Nat.le_add_right _ _)
  have hslots : ∀ list ∈ s.pages, ∀ j < mode.capacity,
      list + j * mode.size = s.cache.heapList + i * mode.size ↔
        list = s.cache.heapList ∧ j = i := by
    intro list hlist j hj
    constructor
    · exact hok.slot_inj hsized hlist hhead hj hi
    · rintro ⟨rfl, rfl⟩
      rfl
  rw [State.allocated_same]
  refine ⟨hnotLive, ?_, ?_⟩
  · refine hok.change hhead hwhole ?_ ?_ ?_ ?_ hsized
      (fun other hother => (hok.freed_insert _ other hother).imp_right .inr) (le_max_right _ _)
    · exact fun j hj hlarge => (htaken j hj).mpr (.inl (hok.full _ hhead j hj hlarge))
    · intro bp hbp
      obtain rfl | hold := Finset.mem_insert.mp hbp
      · exact .inr ⟨i, hi, rfl⟩
      · exact .inl hold
    · intro j hj
      rw [htaken j (hj.trans_le hbits), hok.taken _ hhead j hj, Finset.mem_insert,
        hslots _ hhead j hj]
      tauto
    · intro other hother hne j hj
      rw [Finset.mem_insert, hslots other hother j hj]
      tauto
  · refine ⟨fun list hlist => ?_, fun list hlist _ => ?_, fun list hlist j hj => ?_⟩
    · exact (hok.cache.words_same hhead hwhole hlist).1
    · exact (hok.cache.words_same hhead hwhole hlist).2
    · have hlive : ∀ bp, bp ∈ insert (s.cache.heapList + i * mode.size) s.live \ s.live ↔
          bp = s.cache.heapList + i * mode.size := by
        intro bp
        rw [Finset.mem_sdiff, Finset.mem_insert]
        constructor
        · tauto
        · rintro rfl
          exact ⟨.inl rfl, hnotLive⟩
      simp only [BitAfter, hlive]
      by_cases hsame : list = s.cache.heapList
      · rw [hsame, htaken j hj]
        refine or_congr_right ⟨?_, fun hslot => ((hslots _ hhead j hslot.1).mp hslot.2).2⟩
        rintro rfl
        exact ⟨hi, rfl⟩
      · rw [hok.cache.taken_elsewhere hhead hwhole hlist hsame hj, iff_self_or]
        exact fun hslot => absurd ((hslots list hlist j hslot.1).mp hslot.2).1 hsame

/-- The first slot of a new page becomes live. -/
theorem Ok.allocateNew (hok : Ok mode s) (hsized : mode.Sized) {i : ℕ} {mem' : Mem} {page : Page}
    (hnew : page.New s.pages) (hi : i < mode.capacity)
    (hsame : ∀ x, (x < page.addr ∨ page.addr + pgSize ≤ x) →
      (x < s.cache.heapList + pageAllocSize ∨ s.cache.heapList + pageAllocSize + 8 ≤ x) →
      mem' x = s.cache.mem x)
    (htaken : ∀ j < 128, (Taken mem' (page.addr + 24) j ↔ mode.capacity ≤ j ∨ j = i)) :
    page.addr + 24 + i * mode.size ∉ s.live ∧
      Ok mode (s.allocated (some (page.addr + 24 + i * mode.size), ⟨mem', page.addr + 24⟩)) ∧
      Frame mode s (.kalloc page)
        (s.allocated (some (page.addr + 24 + i * mode.size), ⟨mem', page.addr + 24⟩)) := by
  have hhead := hok.cache.heapList_mem
  have hbits := hsized.few.trans hsized.fits.bits
  have hne : page.addr + 24 ≠ s.cache.heapList := fun heq => hnew.new (heq ▸ hhead)
  have haligned : ∀ list ∈ (page.addr + 24) :: s.pages, list % pgSize = 24 := by
    intro list hlist
    obtain rfl | hlist := List.mem_cons.mp hlist
    · have hpage := hnew.aligned
      simp only [pgSize] at *
      omega
    · exact hok.cache.aligned list hlist
  have hapart : ∀ list ∈ s.pages,
      list + pgSize ≤ page.addr + 24 ∨ page.addr + 24 + pgSize ≤ list := by
    intro list hlist
    have hleft := haligned _ List.mem_cons_self
    have hright := haligned _ (List.mem_cons_of_mem _ hlist)
    have hother : list ≠ page.addr + 24 := fun heq => hnew.new (heq ▸ hlist)
    simp only [pgSize] at *
    omega
  have hagree : ∀ list ∈ s.pages, AgreeOn s.cache.mem mem' (list - 24) (list + pageAllocSize) := by
    intro list hlist x hlo hhi
    have hge := hok.cache.ge hlist
    have hother := hapart list hlist
    have hlink : list = s.cache.heapList ∨ list + pgSize ≤ s.cache.heapList ∨
        s.cache.heapList + pgSize ≤ list := or_iff_not_imp_left.mpr (hok.cache.apart hlist hhead)
    simp only [pageAllocSize, pgSize, align] at *
    exact hsame x (by omega) (by omega)
  have hold : ∀ list ∈ s.pages, ∀ j < 128, Taken mem' list j ↔ Taken s.cache.mem list j := by
    intro list hlist j hj
    have hge := hok.cache.ge hlist
    exact taken_congr ((hagree list hlist).mono (by omega) (Nat.le_add_right _ _))
      (hok.cache.le hlist) hj
  have hfull : ∀ list ∈ (page.addr + 24) :: s.pages, ∀ j < 128, mode.capacity ≤ j →
      Taken mem' list j := by
    intro list hlist j hj hlarge
    obtain rfl | hlist := List.mem_cons.mp hlist
    · exact (htaken j hj).mpr (.inl hlarge)
    · exact (hold list hlist j hj).mpr (hok.full list hlist j hj hlarge)
  have hcache : CacheOk mode ⟨mem', page.addr + 24⟩ ((page.addr + 24) :: s.pages) :=
    ⟨rfl, haligned, List.nodup_cons.mpr ⟨hnew.new, hok.cache.nodup⟩,
      fun list hlist j hj hlarge => hfull list hlist j hj (hsized.few.trans hlarge)⟩
  have hinj : ∀ list ∈ (page.addr + 24) :: s.pages, ∀ j < mode.capacity, ∀ k < mode.capacity,
      list + j * mode.size = page.addr + 24 + k * mode.size →
        list = page.addr + 24 ∧ j = k := by
    intro list hlist j hj k hk
    exact hcache.slot_inj hsized.fits hlist List.mem_cons_self (hj.trans_le hsized.few)
      (hk.trans_le hsized.few)
  have hnotLive : ∀ j < mode.capacity, page.addr + 24 + j * mode.size ∉ s.live := by
    intro j hj hlive
    obtain ⟨list, hlist, k, hk, heq⟩ := hok.slot _ hlive
    have hsamePage := (hinj list (List.mem_cons_of_mem _ hlist) k hk j hj heq.symm).1
    exact hnew.new (hsamePage ▸ hlist)
  have hother : ∀ list ∈ s.pages, ∀ j < mode.capacity,
      list + j * mode.size ≠ page.addr + 24 + i * mode.size := fun list hlist j hj heq =>
    hnew.new ((hinj list (List.mem_cons_of_mem _ hlist) j hj i hi heq).1 ▸ hlist)
  rw [State.allocated_new s _ mem' hne]
  refine ⟨hnotLive i hi, ?_, ?_⟩
  · refine ⟨hcache, hfull, fun bp hbp => ?_, fun list hlist j hj => ?_, fun bp hbp => ?_,
      le_max_right _ _⟩
    · obtain rfl | hlive := Finset.mem_insert.mp hbp
      · exact ⟨_, List.mem_cons_self, i, hi, rfl⟩
      · obtain ⟨list, hlist, j, hj, rfl⟩ := hok.slot bp hlive
        exact ⟨list, List.mem_cons_of_mem _ hlist, j, hj, rfl⟩
    · dsimp only at hlist ⊢
      rw [Finset.mem_insert]
      obtain rfl | hlist := List.mem_cons.mp hlist
      · rw [htaken j (hj.trans_le hbits)]
        constructor
        · rintro (hlarge | rfl)
          · omega
          · exact .inl rfl
        · rintro (heq | hlive)
          · exact .inr (hinj _ List.mem_cons_self j hj i hi heq).2
          · exact absurd hlive (hnotLive j hj)
      · rw [hold list hlist j (hj.trans_le hbits), hok.taken list hlist j hj]
        exact ⟨.inr, fun hor => hor.resolve_left (hother list hlist j hj)⟩
    · obtain ⟨hnot, hfreed⟩ := hok.freed_insert _ bp hbp
      obtain ⟨list, hlist, hslot⟩ := (hok.freed bp hfreed).2
      exact ⟨hnot, list, List.mem_cons_of_mem _ hlist, hslot⟩
  · refine ⟨fun list hlist => ?_, fun list hlist hor => ?_, fun list hlist j hj => ?_⟩
    · have hge := hok.cache.ge hlist
      exact ((hagree list hlist).mono le_rfl (by omega)).load_eq
    · have hlink : list ≠ s.cache.heapList :=
        hor.resolve_left (List.cons_ne_self _ _)
      have hfar := hapart list hlist
      have hfar' := hok.cache.apart hlist hhead hlink
      refine AgreeOn.load_eq fun x hlo hhi => hsame x ?_ ?_
      · simp only [pageAllocSize, pgSize, align] at *
        omega
      · simp only [pageAllocSize, pgSize, align] at *
        omega
    · simp only [BitAfter]
      rw [hold list hlist j hj, iff_self_or]
      rintro ⟨hslot, hnewly⟩
      obtain ⟨hmem, hnot⟩ := Finset.mem_sdiff.mp hnewly
      obtain heq | hlive := Finset.mem_insert.mp hmem
      · exact absurd heq (hother list hlist j hslot)
      · exact absurd hlive hnot

/-- `kalloc` makes an object live that was not. -/
theorem kalloc_step (hok : Ok mode s) (hsized : mode.Sized) {page : Page}
    (hnew : page.New s.pages) :
    ∃ bp, bp ∉ s.live ∧ (kalloc mode s.cache page).1 = some bp ∧
      Ok mode (s.allocated (kalloc mode s.cache page)) ∧
      Frame mode s (.kalloc page) (s.allocated (kalloc mode s.cache page)) := by
  obtain ⟨i, hi, mem', hkalloc, hclear, hchanges, htaken⟩ |
    ⟨-, i, hi, mem', hkalloc, hsame, htaken⟩ :=
      kalloc_cases hok.cache hsized (hok.full _ hok.cache.heapList_mem) page
  · rw [hkalloc]
    obtain ⟨hnotLive, hafter, hframe⟩ := hok.allocate hsized page hi hclear hchanges htaken
    exact ⟨_, hnotLive, rfl, hafter, hframe⟩
  · rw [hkalloc]
    obtain ⟨hnotLive, hafter, hframe⟩ := hok.allocateNew hsized hnew hi hsame htaken
    exact ⟨_, hnotLive, rfl, hafter, hframe⟩

/-- A freed object is not live, and nothing else changes but its bit. -/
theorem free_step (hok : Ok mode s) (hsized : mode.Sized) {bp : ℕ} (hlive : bp ∈ s.live) :
    ∃ mem', freeFound mode s bp = some (⟨mem', s.cache.heapList⟩, none) ∧
      Ok mode (s.released bp (⟨mem', s.cache.heapList⟩, none)) ∧
      Frame mode s (.kfree bp) (s.released bp (⟨mem', s.cache.heapList⟩, none)) ∧
      ∀ other ∈ s.live, other ≠ bp →
        AgreeOn s.cache.mem mem' other (other + mode.size) := by
  obtain ⟨list, hlist, i, hi, rfl⟩ := hok.slot bp hlive
  obtain ⟨mem', hfree, hsame, htaken⟩ := freeFound_spec hok hsized hlist hi
  have hbits := hsized.few.trans hsized.fits.bits
  have hend := Ok.inside hsized hi
  have hwhole : ChangesIn s.cache.mem mem' (list - 16) (list + pageAllocSize) :=
    fun x hx => hsame x (by omega) (by omega)
  have hslots : ∀ other ∈ s.pages, ∀ j < mode.capacity,
      other + j * mode.size = list + i * mode.size ↔ other = list ∧ j = i := by
    intro other hother j hj
    constructor
    · exact hok.slot_inj hsized hother hlist hj hi
    · rintro ⟨rfl, rfl⟩
      rfl
  refine ⟨mem', hfree, ?_, ?_, ?_⟩
  · refine hok.change hlist hwhole ?_ ?_ ?_ ?_ hsized ?_ ?_
    · exact fun j hj hlarge => (htaken j hj).mpr ⟨hok.full _ hlist j hj hlarge, by omega⟩
    · exact fun other hother => .inl (Finset.mem_of_mem_erase hother)
    · intro j hj
      rw [htaken j (hj.trans_le hbits), hok.taken _ hlist j hj, Finset.mem_erase, ne_eq,
        ne_eq, hslots _ hlist j hj]
      tauto
    · intro other hother hne j hj
      rw [Finset.mem_erase, ne_eq, hslots other hother j hj]
      tauto
    · intro other hother
      obtain rfl | hfreed := Finset.mem_insert.mp hother
      · exact ⟨Finset.notMem_erase _ _, .inl hlive⟩
      · exact ⟨fun hmem => (hok.freed other hfreed).1 (Finset.mem_of_mem_erase hmem), .inr hfreed⟩
    · exact (Finset.card_erase_le).trans hok.peak
  · refine ⟨fun other hother => ?_, fun other hother _ => ?_, fun other hother j hj => ?_⟩
    · exact (hok.cache.words_same hlist hwhole hother).1
    · exact (hok.cache.words_same hlist hwhole hother).2
    · simp only [BitAfter, State.released]
      by_cases hpage : other = list
      · rw [hpage, htaken j hj]
        refine and_congr_right fun _ => not_congr ⟨?_, fun hslot => ?_⟩
        · rintro rfl
          exact ⟨hi, rfl⟩
        · exact ((hslots _ hlist j hslot.1).mp hslot.2.symm).2
      · rw [hok.cache.taken_elsewhere hlist hwhole hother hpage hj, iff_self_and]
        exact fun _ hslot => hpage ((hslots other hother j hslot.1).mp hslot.2.symm).1
  · intro other hother hne
    obtain ⟨page, hpage, j, hj, rfl⟩ := hok.slot other hother
    have hend' := Ok.inside hsized hj
    have hdisjoint := hok.disjoint hsized hlive hother (Ne.symm hne)
    have hge := hok.cache.ge hlist
    have hpages : page = list ∨ page + pgSize ≤ list ∨ list + pgSize ≤ page :=
      or_iff_not_imp_left.mpr (hok.cache.apart hpage hlist)
    intro x hlo hhi
    simp only [pageAllocSize, pgSize, align] at *
    exact hsame x (by omega) (by omega)

/-- The owner of an object writes into it only. -/
theorem write_step (hok : Ok mode s) (hsized : mode.Sized) {bp : ℕ} (bytes : ℕ → UInt8)
    (hlive : bp ∈ s.live) :
    Ok mode { s with cache := { s.cache with mem := blit s.cache.mem bp bytes mode.size } } ∧
      Frame mode s (.write bp bytes)
        { s with cache := { s.cache with mem := blit s.cache.mem bp bytes mode.size } } := by
  obtain ⟨list, hlist, i, hi, rfl⟩ := hok.slot bp hlive
  have hend := Ok.inside hsized hi
  have hbits := hsized.few.trans hsized.fits.bits
  have hsame : ∀ x, x < list ∨ list + pageAllocSize ≤ x →
      blit s.cache.mem (list + i * mode.size) bytes mode.size x = s.cache.mem x := by
    intro x hx
    rw [blit, if_neg]
    omega
  have hwhole : ChangesIn s.cache.mem
      (blit s.cache.mem (list + i * mode.size) bytes mode.size) (list - 16)
      (list + pageAllocSize) := fun x hx => hsame x (by omega)
  have htaken : ∀ other ∈ s.pages, ∀ j < 128,
      Taken (blit s.cache.mem (list + i * mode.size) bytes mode.size) other j ↔
        Taken s.cache.mem other j := by
    intro other hother j hj
    by_cases hpage : other = list
    · rw [hpage]
      exact taken_congr (fun x _ hhi => hsame x (.inl hhi)) (hok.cache.le hlist) hj
    · exact hok.cache.taken_elsewhere hlist hwhole hother hpage hj
  constructor
  · refine hok.change hlist hwhole ?_ (fun other hother => .inl hother) ?_ ?_ hsized
      (fun other hother => ⟨(hok.freed other hother).1, .inr hother⟩) hok.peak
    · exact fun j hj hlarge => (htaken _ hlist j hj).mpr (hok.full _ hlist j hj hlarge)
    · exact fun j hj => (htaken _ hlist j (hj.trans_le hbits)).trans (hok.taken _ hlist j hj)
    · exact fun _ _ _ _ _ => Iff.rfl
  · refine ⟨fun other hother => ?_, fun other hother _ => ?_, htaken⟩
    · exact (hok.cache.words_same hlist hwhole hother).1
    · exact (hok.cache.words_same hlist hwhole hother).2

/-- A step whose `kfree` has the page of the object at hand. -/
theorem next_step (hok : Ok mode s) (hsized : mode.Sized)
    {free : State → ℕ → Option (Cache × Option ℕ)} {action : Action} {s' : State}
    (hfree : ∀ bp, action = .kfree bp → bp ∈ s.live → free s bp = freeFound mode s bp)
    (hnext : next free mode s action = some s') : Ok mode s' ∧ Frame mode s action s' := by
  cases action with
  | kalloc page =>
      simp only [next] at hnext
      split at hnext
      · rename_i hnew
        obtain rfl := Option.some.inj hnext
        obtain ⟨-, -, -, hafter⟩ := kalloc_step hok hsized (Page.New.mk hnew.1 hnew.2)
        exact hafter
      · cases hnext
  | kfree bp =>
      simp only [next] at hnext
      split at hnext
      · rename_i hlive
        obtain ⟨mem', hfound, hafter, hframe, -⟩ := free_step hok hsized hlive
        rw [hfree bp rfl hlive, hfound, Option.map_some] at hnext
        obtain rfl := Option.some.inj hnext
        exact ⟨hafter, hframe⟩
      · cases hnext
  | write bp bytes =>
      simp only [next] at hnext
      split at hnext
      · rename_i hlive
        obtain rfl := Option.some.inj hnext
        exact write_step hok hsized bytes hlive
      · cases hnext

theorem ok_of_reach_found (hsized : mode.Sized) {mem : Mem} {page : Page}
    (hpage : page.addr % pgSize = 0) {guard : State → Action → Prop}
    (hreach : Reach (StepFound mode) guard (start mode mem page) s) : Ok mode s := by
  apply hreach.invariant (start_ok hsized mem hpage)
  intro before action after hok _ hstep
  exact (next_step hok hsized (fun _ _ _ => rfl) hstep).1

/-! ## The search for the page -/

/-- `bp` lies in the newest page. -/
def InNewest (s : State) (bp : ℕ) : Prop :=
  s.cache.heapList ≤ bp ∧ bp < s.cache.heapList + pageAllocSize

/-- `kfree` is called for objects of the newest page only. -/
def FreesNewest (s : State) (action : Action) : Prop :=
  ∀ bp, action = .kfree bp → InNewest s bp

/-- The search ends at once in the newest page. -/
theorem freeCode_newest (hok : Ok mode s) {bp : ℕ} (hnewest : InNewest s bp) (rounds : ℕ) :
    freeCode mode (rounds + 1) s bp = freeFound mode s bp := by
  have hge := hok.cache.ge hok.cache.heapList_mem
  have hpage : s.pageOf bp = some s.cache.heapList := by
    obtain ⟨rest, hrest⟩ := List.head?_eq_some_iff.mp hok.cache.head
    rw [State.pageOf, hrest, List.find?_cons_of_pos]
    exact decide_eq_true hnewest
  have hpos : bp ≠ 0 := by
    have hlo := hnewest.1
    omega
  rw [freeCode, kfree, if_neg hpos]
  dsimp only
  rw [getBlockIndexHelper, if_pos ⟨hnewest.1, hnewest.2⟩, freeFound, hpage, Option.map_some,
    Option.map_some]

theorem step_found (hok : Ok mode s) {action : Action} {s' : State}
    (hguard : FreesNewest s action) (hstep : Step mode s action s') :
    StepFound mode s action s' := by
  obtain ⟨rounds, hnext⟩ := hstep
  cases action with
  | kfree bp =>
      simp only [next] at hnext
      split at hnext
      · rename_i hlive
        cases rounds with
        | zero =>
            obtain ⟨after, hafter, -⟩ := Option.map_eq_some_iff.mp hnext
            have hge := hok.cache.ge hok.cache.heapList_mem
            have hlo := (hguard bp rfl).1
            rw [freeCode, kfree, if_neg (by omega)] at hafter
            cases hafter
        | succ rounds =>
            rw [freeCode_newest hok (hguard bp rfl)] at hnext
            rw [StepFound, next, if_pos hlive]
            exact hnext
      · cases hnext
  | _ => exact hnext

/-- A run of the code that frees in the newest page only is a run with the page at hand. -/
theorem ok_of_reach (hsized : mode.Sized) {mem : Mem} {page : Page}
    (hpage : page.addr % pgSize = 0)
    (hreach : Reach (Step mode) FreesNewest (start mode mem page) s) : Ok mode s := by
  apply hreach.invariant (start_ok hsized mem hpage)
  intro before action after hok hguard hstep
  exact (next_step hok hsized (fun _ _ _ => rfl) (step_found hok hguard hstep)).1

end Steps

end Painting.Slab
