import Painting.Mm.SlabObjects

/-!
# The search of `kfree` for the page of an object

`kfree` starts in the newest page and goes on to where the last word of a page leads.
`heap_list_init` stores page addresses there, which `UNPACK` then takes for the address of a link
word, and leaves that word of the newest page as `buddy_alloc` returned it.  Whatever the search
reads, it does not get to an older page: list pointers are not multiples of 256.
-/

namespace Painting.Slab

open Painting.Memory Painting.Transition

variable {mode : Mode} {s : State}

/-- `kfree` returns, clears the bit of the object and changes no other bit, no link word and no
other live object. -/
def FreesRightly (mode : Mode) (s : State) (bp : ℕ) : Prop :=
  ∃ rounds cache, freeCode mode rounds s bp = some (cache, none) ∧
    Frame mode s (.kfree bp) (s.released bp (cache, none)) ∧
    ∀ other ∈ s.live, other ≠ bp → AgreeOn s.cache.mem cache.mem other (other + mode.size)

theorem unpack_mod (mem : Mem) (addr : ℕ) : unpack mem addr % 256 = 0 := by
  rw [unpack, Nat.shiftLeft_eq, show 2 ^ 8 = 256 from rfl, Nat.mul_mod_left]

/-- The search ends in the page where it started or at a multiple of 256. -/
theorem getBlockIndexHelper_some {mem : Mem} {bp blockSize rounds first list off : ℕ}
    (hfound : getBlockIndexHelper mem bp blockSize rounds first = some (list, off)) :
    (list = first ∨ list % 256 = 0) ∧ list ≤ bp ∧ bp < list + pageAllocSize ∧
      off = (bp - list) % 2 ^ 32 / blockSize := by
  induction rounds generalizing first with
  | zero => cases hfound
  | succ rounds ih =>
      rw [getBlockIndexHelper] at hfound
      split at hfound
      · rename_i hin
        simp only [Option.some.injEq, Prod.mk.injEq] at hfound
        obtain ⟨rfl, rfl⟩ := hfound
        exact ⟨.inl rfl, hin.1, hin.2, rfl⟩
      · obtain ⟨hlist, hin⟩ := ih hfound
        refine ⟨.inr ?_, hin⟩
        obtain rfl | hmod := hlist
        · exact unpack_mod mem _
        · exact hmod

/-- Whatever page it is given, `kfree` writes to the two words before it. -/
theorem kfreeAt_changesIn (mem : Mem) (list : ℕ) {off : ℕ} (hoff : off < 128) :
    ChangesIn mem (kfreeAt mem list off).1 (list - 16) (list - 8 + 8) := by
  have haddr : hdrp (hdrp list) = list - 16 ∧ hdrp list = list - 8 :=
    ⟨Nat.sub_sub list 8 8, rfl⟩
  rw [kfreeAt]
  dsimp only
  by_cases hhigh : 64 ≤ off
  · have hne := clear_ne_ones (load mem (hdrp list) 8) (show off - 64 < 64 by omega)
    have hlt := @clear_lt _ (off - 64) (load_lt mem (hdrp list) 8)
    rw [if_pos hhigh, load_store_of_lt mem hlt, if_neg fun hfull => hne hfull.2]
    exact store_changesIn mem (by omega) (by omega)
  · have hne := clear_ne_ones (load mem (hdrp (hdrp list)) 8) (show off < 64 by omega)
    have hlt := @clear_lt _ off (load_lt mem (hdrp (hdrp list)) 8)
    rw [if_neg hhigh, load_store_of_lt mem hlt, if_neg fun hfull => hne hfull.1]
    exact store_changesIn mem (by omega) (by omega)

theorem offset_lt (hsized : mode.Sized) {bp list : ℕ} (hhi : bp < list + pageAllocSize) :
    (bp - list) % 2 ^ 32 / mode.size < 128 := by
  have hdistance : (bp - list) % 2 ^ 32 ≤ 4063 := by
    simp only [pageAllocSize, pgSize, align] at hhi
    omega
  calc (bp - list) % 2 ^ 32 / mode.size ≤ 4063 / mode.size := Nat.div_le_div_right hdistance
    _ ≤ 4063 / 40 := Nat.div_le_div_left hsized.large (by decide)
    _ < 128 := by decide

/-- A call of `kfree` that returns keeps every other object in use. -/
theorem kfree_some {cache cache' : Cache} {pages : List ℕ} (hok : CacheOk mode cache pages)
    (hsized : mode.Sized) {rounds bp : ℕ} (hused : InUse mode cache.mem pages bp)
    (hfree : kfree mode rounds cache bp = some (cache', none)) :
    CacheOk mode cache' pages ∧
      ∀ other, other ≠ bp → InUse mode cache.mem pages other → InUse mode cache'.mem pages other := by
  obtain ⟨page, hpage, i, hi, rfl, -⟩ := id hused
  have hge : 24 ≤ page := hok.ge hpage
  have hfree' := hfree
  rw [kfree, if_neg (by omega)] at hfree'
  dsimp only at hfree'
  obtain ⟨⟨list, off⟩, hfound, hresult⟩ := Option.map_eq_some_iff.mp hfree'
  obtain ⟨hlist, hlo, hhi, hoff⟩ := getBlockIndexHelper_some hfound
  obtain rfl | hmod := hlist
  · obtain ⟨rounds, rfl⟩ : ∃ n, rounds = n + 1 := by
      cases rounds with
      | zero => cases hfound
      | succ n => exact ⟨n, rfl⟩
    obtain ⟨mem', heq, hok', hafter⟩ := kfree_spec hok hsized.fits hused hlo hhi rounds
    obtain rfl := (Prod.mk.inj (Option.some.inj (hfree.symm.trans heq))).1
    exact ⟨hok', fun other hne hother => (hafter other).mpr ⟨hother, hne⟩⟩
  · have hmem : cache'.mem =
        (kfreeAt (fill cache.mem (page + i * mode.size) 0xc mode.size) list off).1 := by
      have hcache := (Prod.mk.inj hresult).1
      rw [← hcache]
    have hnewest : cache'.heapList = cache.heapList := kfree_heapList hfree
    have hend := slot_end hsized.fits hi
    have hfew : off < 128 := by
      rw [hoff]
      exact offset_lt hsized hhi
    have hsame : ∀ other ∈ pages, ∀ j < 128, (Taken cache'.mem other j ↔
        Taken cache.mem other j) := by
      intro other hother j hj
      have hother' := hok.ge hother
      have haligned := hok.aligned other hother
      refine taken_congr ?_ (hok.le hother) hj
      rw [hmem]
      refine (fill_agreeOn cache.mem ?_).trans ((kfreeAt_changesIn _ list hfew).agreeOn ?_)
      · by_cases hsame : other = page
        · rw [hsame]
          exact .inl (Nat.le_add_right _ _)
        · have hapart := hok.apart hother hpage hsame
          simp only [pageAllocSize, pgSize, align] at *
          omega
      · simp only [pgSize] at haligned
        omega
    refine ⟨⟨hnewest ▸ hok.head, hok.aligned, hok.nodup, fun other hother j hj hlarge =>
      (hsame other hother j hj).mpr (hok.spare other hother j hj hlarge)⟩, ?_⟩
    rintro other - ⟨page', hpage', j, hj, rfl, htaken⟩
    exact ⟨page', hpage', j, hj, rfl,
      (hsame page' hpage' j (hj.trans_le hsized.fits.bits)).mpr htaken⟩

theorem freeCode_some {rounds bp : ℕ} (hpos : bp ≠ 0) {result : Cache × Option ℕ}
    (hfree : freeCode mode rounds s bp = some result) :
    ∃ list off, getBlockIndexHelper (fill s.cache.mem bp 0xc mode.size) bp mode.size rounds
        s.cache.heapList = some (list, off) ∧
      result.1.mem = (kfreeAt (fill s.cache.mem bp 0xc mode.size) list off).1 := by
  rw [freeCode, kfree, if_neg hpos] at hfree
  dsimp only at hfree
  obtain ⟨⟨list, off⟩, hfound, hresult⟩ := Option.map_eq_some_iff.mp hfree
  refine ⟨list, off, hfound, ?_⟩
  rw [← hresult]

/-- The bit of an object in an older page stays set. -/
theorem freeCode_older (hok : Ok mode s) (hsized : mode.Sized) {list i rounds : ℕ}
    (hlist : list ∈ s.pages) (hi : i < mode.capacity)
    (holder : ¬ InNewest s (list + i * mode.size)) {result : Cache × Option ℕ}
    (hfree : freeCode mode rounds s (list + i * mode.size) = some result) :
    Taken result.1.mem list i ↔ Taken s.cache.mem list i := by
  have hge := hok.cache.ge hlist
  have haligned := hok.cache.aligned list hlist
  have hbits := hi.trans_le (hsized.few.trans hsized.fits.bits)
  obtain ⟨page, off, hfound, hmem⟩ := freeCode_some (by omega) hfree
  obtain ⟨hpage, hlo, hhi, hoff⟩ := getBlockIndexHelper_some hfound
  have hmod : page % 256 = 0 := by
    refine hpage.resolve_left fun heq => holder ?_
    rw [heq] at hlo hhi
    exact ⟨hlo, hhi⟩
  have hfew : off < 128 := by
    rw [hoff]
    exact offset_lt hsized hhi
  have hagree : AgreeOn s.cache.mem
      (kfreeAt (fill s.cache.mem (list + i * mode.size) 0xc mode.size) page off).1
      (list - 16) list := by
    refine (fill_agreeOn s.cache.mem (.inl (Nat.le_add_right _ _))).trans
      ((kfreeAt_changesIn _ page hfew).agreeOn ?_)
    simp only [pgSize] at haligned
    omega
  rw [hmem]
  exact taken_congr hagree (hok.cache.le hlist) hbits

theorem not_freesRightly (hok : Ok mode s) (hsized : mode.Sized) {bp : ℕ} (hlive : bp ∈ s.live)
    (holder : ¬ InNewest s bp) : ¬ FreesRightly mode s bp := by
  rintro ⟨rounds, cache, hfree, hframe, -⟩
  obtain ⟨list, hlist, i, hi, rfl⟩ := hok.slot bp hlive
  have hbits := hi.trans_le (hsized.few.trans hsized.fits.bits)
  have htaken := (hok.taken list hlist i hi).mpr hlive
  have hstays := (freeCode_older hok hsized hlist hi holder hfree).mpr htaken
  exact ((hframe.bits list hlist i hbits).mp hstays).2 ⟨hi, rfl⟩

/-- In every run that frees objects of the newest page only, `kfree` of a live object does what it
should if and only if the object lies in the newest page. -/
theorem freesRightly_iff_of_reach (hmode : mode ∈ slabModes) (mem : Mem) {page : Page}
    (hpage : page.addr % pgSize = 0)
    (hreach : Reach (Step mode) FreesNewest (start mode mem page) s) {bp : ℕ}
    (hlive : bp ∈ s.live) : FreesRightly mode s bp ↔ InNewest s bp := by
  have hsized := sized_of_mem hmode
  have hok := ok_of_reach hsized hpage hreach
  constructor
  · intro hright
    by_contra holder
    exact not_freesRightly hok hsized hlive holder hright
  · intro hnewest
    obtain ⟨mem', hfound, -, hframe, hobjects⟩ := free_step hok hsized hlive
    exact ⟨1, _, (freeCode_newest hok hnewest 0).trans hfound, hframe, hobjects⟩

/-- Eleven objects of `PROC_MODE`, ten in a first page and one in a second. -/
def elevenKallocs : List Action :=
  List.replicate 11 (.kalloc (zeroPage 0x80400000))

def elevenObjects : State :=
  (follow (nextNewest procMode) elevenKallocs
    (start procMode (fun _ => 5) (zeroPage 0x80300000))).get (by decide +kernel)

theorem freesRightly_elevenObjects :
    FreesRightly procMode elevenObjects (0x80400000 + 24) ↔
      InNewest elevenObjects (0x80400000 + 24) := by
  have hreach : Reach (Step procMode) FreesNewest
      (start procMode (fun _ => 5) (zeroPage 0x80300000)) elevenObjects :=
    reach_of_guarded nextNewest_spec (Option.some_get (by decide +kernel)).symm
  exact freesRightly_iff_of_reach (by simp [slabModes]) (fun _ => 5) (by decide) hreach
    (by decide +kernel)

/-- The first of the eleven objects is not freed. -/
theorem not_freesRightly_firstObject :
    ¬ ∀ s, Reach (Step procMode) Unguarded
      (start procMode (fun _ => 5) (zeroPage 0x80300000)) s →
      ∀ bp ∈ s.live, FreesRightly procMode s bp := by
  intro hright
  have hnewest : Reach (Step procMode) FreesNewest
      (start procMode (fun _ => 5) (zeroPage 0x80300000)) elevenObjects :=
    reach_of_guarded nextNewest_spec (Option.some_get (by decide +kernel)).symm
  have hreach : Reach (Step procMode) Unguarded
      (start procMode (fun _ => 5) (zeroPage 0x80300000)) elevenObjects :=
    reach_of_follow (fun before action after hnext =>
      (nextNewest_spec before action after hnext).2) (Option.some_get (by decide +kernel)).symm
  have hsized : procMode.Sized := sized_of_mem (by simp [slabModes])
  have holder : ¬ InNewest elevenObjects (0x80300000 + 24) := by
    unfold InNewest
    decide +kernel
  have hlive : 0x80300000 + 24 ∈ elevenObjects.live := by decide +kernel
  exact not_freesRightly (ok_of_reach hsized (by decide) hnewest) hsized hlive holder
    (hright elevenObjects hreach _ hlive)

end Painting.Slab
