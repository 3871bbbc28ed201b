import Painting.Proc.KernelStacks

/-!
# A `fork` that fails

Once `process_create` has returned a child, `fork` can fail in four places, with different pages of
the child in hand.  The label `bad` gives them all back.  Only a page that `kalloc` has taken for the
structure of the child stays with the slab, since `kfree` never finds a page empty.
-/

namespace Painting.Process

open Painting.Memory Painting.PageTable

/-! ## Where `fork` fails -/

/-- `uvmcopy` has copied the heap of `p` to its child `np`. -/
def HeapCopied (image : Image) (k : Kernel) (p np : ℕ) (pm : Pm) : Prop :=
  ∃ ret : ℤ, uvmcopyInto image k.pm (k.procs p).pagetable (k.procs np).pagetable
    (k.procs p).heapEnd = .ok (ret, pm) ∧ ¬ ret < 0

/-- The entry for the user stack of `p` is at `slot`, and is one for the user. -/
def StackEntry (k : Kernel) (p : ℕ) (pm : Pm) (slot : ℕ) (pm' : Pm) : Prop :=
  walk pm (k.procs p).pagetable stackVa false = .ok (some slot, pm') ∧
    readPte pm'.mem slot &&& (pteV ||| pteU) = pteV ||| pteU

/-- `fork` by `p` fails after `process_create` has returned the child `np`. -/
inductive Fails (image : Image) (k : Kernel) (p np : ℕ) : Prop
  | copy (ret : ℤ) (pm : Pm)
      (hcopy : uvmcopyInto image k.pm (k.procs p).pagetable (k.procs np).pagetable
        (k.procs p).heapEnd = .ok (ret, pm))
      (hret : ret < 0)
  | entry (pm : Pm) (hcopied : HeapCopied image k p np pm)
      (hnone : ∀ slot pm', ¬ StackEntry k p pm slot pm')
  | page (pm : Pm) (slot : ℕ) (pm' : Pm) (hcopied : HeapCopied image k p np pm)
      (hentry : StackEntry k p pm slot pm') (hnone : (kpmalloc pm').1 = none)
  | mapping (pm : Pm) (slot : ℕ) (pm' : Pm) (page : ℕ) (pm₁ : Pm) (ret : ℤ) (pm₂ : Pm)
      (hcopied : HeapCopied image k p np pm) (hentry : StackEntry k p pm slot pm')
      (hpage : kpmalloc pm' = (some page, pm₁))
      (hmap : mappagesInto
        ⟨blit pm₁.mem page (fun i => pm₁.mem (pte2pa (readPte pm'.mem slot) + i)) pgSize,
          pm₁.freelist⟩ (k.procs np).pagetable stackVa page pgSize
        (pteFlags (readPte pm'.mem slot) &&& (pteR ||| pteW ||| pteX ||| pteU)) = .ok (ret, pm₂))
      (hret : ret ≠ 0)

/-! ## The way to the label `bad` -/

section Bad

variable {image : Image} {k k₁ : Kernel} {ledger ledger₁ : Ledger} {p np : ℕ}

theorem StackEntry.lookup {k : Kernel} {pm pm' : Pm} {slot : ℕ}
    (hentry : StackEntry k p pm slot pm') :
    ∃ leaf, lookup pm.mem stackVa 2 (k.procs p).pagetable = some leaf ∧
      slot = leaf + 8 * idx 0 stackVa ∧ pm' = pm ∧
      entry pm.mem leaf (idx 0 stackVa) &&& (pteV ||| pteU) = pteV ||| pteU := by
  obtain ⟨hwalk, hflags⟩ := hentry
  rw [walk_lookup (by decide)] at hwalk
  obtain ⟨hslot, rfl⟩ := Prod.mk.inj (Except.ok.inj hwalk)
  obtain ⟨leaf, hlookup, rfl⟩ := Option.map_eq_some_iff.mp hslot
  exact ⟨leaf, hlookup, rfl, rfl, hflags⟩

/-- What is copied into a page changes nothing elsewhere. -/
theorem copied_elsewhere (mem : Mem) (pa : ℕ) {page x : ℕ} (hx : pgRoundDown x ≠ page)
    (haligned : page % pgSize = 0) :
    blit (fill mem page 5 pgSize) page (fun i => fill mem page 5 pgSize (pa + i)) pgSize x =
      mem x := by
  rw [blit, if_neg, fill_apply_of_out]
  all_goals
    simp only [pgRoundDown, pgSize] at *
    omega

/-- The label `bad` is reached, with nothing taken but for the child. -/
theorem Made.fork_fails (hmade : Made image k k₁ np ledger ledger₁)
    (hcreate : processCreate image k p = .ok (np, k₁)) (hnp : np ≠ 0) (hp : p ∈ k.processList)
    (hroot : (k₁.procs p).pagetable ≠ 0) (hfails : Fails image k₁ p np) :
    ∃ pid pm ledger₂,
      Departed image { k₁ with processList := k₁.processList.erase np } np pid
        { ledger₁ with transit := {pid} } ∧
      Filled image { k₁ with processList := k₁.processList.erase np } pm np pid
        { ledger₁ with transit := {pid} } ledger₂ ∧
      fork image k p = forkBad image (k₁.setPm pm) np := by
  have hchild : np ∈ k₁.processList := by
    rw [hmade.list]
    exact List.mem_append_right _ (List.mem_singleton_self np)
  have hparent : p ∈ k₁.processList := by
    rw [hmade.list]
    exact List.mem_append_left _ hp
  have hne : p ≠ np := by
    rintro rfl
    exact hmade.new hp
  obtain ⟨pid, hdeparted⟩ := hmade.keeps.departed hmade.settled hchild
  have huser : p ∈ ledger₁.users := (hmade.keeps.spaces.user p hparent).mpr hroot
  cases hfails with
  | copy ret pm hcopy hret =>
      obtain ⟨ledger₂, hfilled, -⟩ := hdeparted.copy huser hne hmade.fresh hcopy
      refine ⟨pid, pm, ledger₂, hdeparted, hfilled, ?_⟩
      refine (bind_of_ok hcreate).trans ?_
      refine (if_neg hnp).trans ((if_neg hroot).trans ?_)
      refine (bind_of_ok hcopy).trans ?_
      exact if_pos hret
  | entry pm hcopied hnone =>
      obtain ⟨ret, hcopy, hret⟩ := hcopied
      obtain ⟨ledger₂, hfilled, -⟩ := hdeparted.copy huser hne hmade.fresh hcopy
      refine ⟨pid, pm, ledger₂, hdeparted, hfilled, ?_⟩
      have hwalk := @walk_lookup pm (k₁.procs p).pagetable stackVa (by decide)
      refine (bind_of_ok hcreate).trans ?_
      refine (if_neg hnp).trans ((if_neg hroot).trans ?_)
      refine (bind_of_ok hcopy).trans ?_
      refine (if_neg hret).trans ?_
      refine (bind_of_ok (congrArg panics hwalk)).trans ?_
      cases hlookup : lookup pm.mem stackVa 2 (k₁.procs p).pagetable with
      | none => rfl
      | some leaf =>
          rw [hlookup] at hwalk
          exact if_pos fun hflags => hnone _ _ ⟨hwalk, hflags⟩
  | page pm slot pm' hcopied hentry hnone =>
      obtain ⟨ret, hcopy, hret⟩ := hcopied
      obtain ⟨ledger₂, hfilled, -⟩ := hdeparted.copy huser hne hmade.fresh hcopy
      obtain ⟨leaf, hlookup, rfl, rfl, hflags⟩ := hentry.lookup
      refine ⟨pid, pm', ledger₂, hdeparted, hfilled, ?_⟩
      refine (bind_of_ok hcreate).trans ?_
      refine (if_neg hnp).trans ((if_neg hroot).trans ?_)
      refine (bind_of_ok hcopy).trans ?_
      refine (if_neg hret).trans ?_
      refine (bind_of_ok (congrArg panics hentry.1)).trans ?_
      refine (if_neg (not_not.mpr hentry.2)).trans ?_
      cases hlist : pm'.freelist with
      | nil =>
          have hpage : kpmalloc ((k₁.setPm pm').setPm pm').pm = (none, pm') := by
            rw [kpmalloc, show ((k₁.setPm pm').setPm pm').pm.freelist = [] from hlist]
            rfl
          rw [hpage]
          rfl
      | cons page rest =>
          rw [kpmalloc, hlist] at hnone
          cases hnone
  | mapping pm slot pm' page pm₁ ret₁ pm₂ hcopied hentry hpage hmap hret₁ =>
      obtain ⟨ret, hcopy, hret⟩ := hcopied
      obtain ⟨ledger₂, hfilled, -⟩ := hdeparted.copy huser hne hmade.fresh hcopy
      obtain ⟨leaf, hlookup, rfl, rfl, hflags⟩ := hentry.lookup
      cases hlist : pm'.freelist with
      | nil =>
          rw [kpmalloc, hlist] at hpage
          cases (Prod.mk.inj hpage).1
      | cons page' rest =>
          have htake := hpage
          rw [kpmalloc, hlist] at htake
          obtain ⟨hsome, rfl⟩ := Prod.mk.inj htake
          obtain rfl := Option.some.inj hsome
          obtain ⟨-, hstackUser, hgood, -⟩ :=
            hfilled.parentStack hdeparted huser hne hlookup hflags hlist
          obtain ⟨-, ⟨rfl, -⟩ | ⟨rfl, pm₃, ledger₃, hgive, hfilled₃⟩⟩ :=
            hfilled.departed.stackPage hlist (fun x hx => copied_elsewhere _ _ hx hgood)
              (permMask_lt _) (permMask_user hstackUser) hmap
          · exact absurd rfl hret₁
          · refine ⟨pid, pm₃, ledger₃, hdeparted, hfilled.trans hfilled₃, ?_⟩
            refine (bind_of_ok hcreate).trans ?_
            refine (if_neg hnp).trans ((if_neg hroot).trans ?_)
            refine (bind_of_ok hcopy).trans ?_
            refine (if_neg hret).trans ?_
            refine (bind_of_ok (congrArg panics hentry.1)).trans ?_
            refine (if_neg (not_not.mpr hentry.2)).trans ?_
            rw [show kpmalloc ((k₁.setPm pm').setPm pm').pm = _ from hpage]
            refine (bind_of_ok hmap).trans ?_
            refine (if_pos hret₁).trans ?_
            exact bind_of_ok (congrArg panics hgive)

/-- The pages of the child are accounted for when the label is reached. -/
theorem Filled.accounted {k₀ : Kernel} {pid : ℕ} {pm : Pm} {ledger₂ : Ledger}
    (haccounted : Accounted k₀ k₁ np ledger₁)
    (hfilled : Filled image { k₁ with processList := k₁.processList.erase np } pm np pid
      { ledger₁ with transit := {pid} } ledger₂)
    (hdeparted : Departed image { k₁ with processList := k₁.processList.erase np } np pid
      { ledger₁ with transit := {pid} }) : Accounted k₀ (k₁.setPm pm) np ledger₂ := by
  have haway : Accounted k₀ { k₁ with processList := k₁.processList.erase np } np
      { ledger₁ with transit := {pid} } :=
    haccounted.congr rfl rfl rfl rfl rfl rfl rfl rfl
  have hend := haway.step hdeparted.keeps hfilled.departed.keeps.shared.free hfilled.spares
  exact hend.congr rfl rfl rfl rfl rfl rfl rfl rfl

/-- When they are given back, the rest has become tables of the kernel. -/
theorem Accounted.tookTables {k₀ k' : Kernel} {pid : ℕ} (haccounted : Accounted k₀ k₁ np ledger₁)
    (hkstack : (k₁.procs np).kstack = kstackVa pid)
    (hfree : ∀ page, page ∈ k'.pm.freelist ↔ page ∈ k₁.pm.freelist ∨
      (∃ flags, translate k₁.pm.mem k₁.kernelPagetable (kstackVa pid) = some (page, flags)) ∨
      ledger₁.owner page = .party (.space np) ∨ page = (k₁.procs np).trapframe)
    (htables : ∀ page, TablePage k'.pm.mem k'.kernelPagetable page ↔
      TablePage k₁.pm.mem k₁.kernelPagetable page) : TookTables k₀ k' := by
  refine ⟨fun page hpage => ?_, fun page hpage => ?_, fun page hpage => ?_⟩
  · obtain hnow | ⟨flags, hstack⟩ | hspace | rfl := (hfree page).mp hpage
    · exact haccounted.back page hnow
    · exact haccounted.stack page flags (hkstack ▸ hstack)
    · exact haccounted.space page hspace
    · exact haccounted.trapframe
  · obtain hnow | htable | hspace | hframe | ⟨flags, hstack⟩ := haccounted.spent page hpage
    · exact .inl ((hfree page).mpr (.inl hnow))
    · exact .inr ((htables page).mpr htable)
    · exact .inl ((hfree page).mpr (.inr (.inr (.inl hspace))))
    · exact .inl ((hfree page).mpr (.inr (.inr (.inr hframe))))
    · exact .inl ((hfree page).mpr (.inr (.inl ⟨flags, hkstack ▸ hstack⟩)))
  · exact haccounted.source page ((htables page).mp hpage)

end Bad

/-! ## Open files -/

/-- The open files are as before. -/
structure SameFiles (k k' : Kernel) : Prop where
  files : k'.files = k.files
  fileCache : k'.fileCache = k.fileCache
  fdBitmap : k'.fdBitmap = k.fdBitmap
  direntList : k'.direntList = k.direntList
  dirents : k'.dirents = k.dirents

section Files

variable {image : Image} {k k₁ k' : Kernel} {cur p q : ℕ}

theorem SameFiles.refl (k : Kernel) : SameFiles k k := ⟨rfl, rfl, rfl, rfl, rfl⟩

theorem SameFiles.trans (hleft : SameFiles k k₁) (hright : SameFiles k₁ k') : SameFiles k k' :=
  ⟨hright.files.trans hleft.files, hright.fileCache.trans hleft.fileCache,
    hright.fdBitmap.trans hleft.fdBitmap, hright.direntList.trans hleft.direntList,
    hright.dirents.trans hleft.dirents⟩

theorem pidAlloc_sameFiles (k : Kernel) : SameFiles k (pidAlloc k).2 := by
  cases hpid : Bitmap.firstClear k.pidBitmap 0 maxPid with
  | none =>
      rw [pidAlloc_none hpid]
      exact .refl k
  | some pid =>
      rw [pidAlloc_some hpid]
      exact ⟨rfl, rfl, rfl, rfl, rfl⟩

theorem kfreeProc_sameFiles (hkfree : k.kfreeProc image p = .ok k') : SameFiles k k' := by
  rw [Kernel.kfreeProc] at hkfree
  obtain ⟨cache, -, hkfree⟩ := bind_eq_ok hkfree
  obtain rfl := Except.ok.inj hkfree
  exact ⟨rfl, rfl, rfl, rfl, rfl⟩

theorem createStack_sameFiles {trapframe kstack : ℕ}
    (hcreate : createStack image k cur p trapframe kstack = .ok (q, k')) : SameFiles k k' := by
  refine (pidAlloc_sameFiles k).trans ?_
  rw [createStack] at hcreate
  obtain ⟨⟨ret, pm⟩, -, hcreate⟩ := bind_eq_ok hcreate
  dsimp only at hcreate
  split at hcreate
  · obtain ⟨pm₁, -, hcreate⟩ := bind_eq_ok hcreate
    obtain ⟨pm₂, -, hcreate⟩ := bind_eq_ok hcreate
    obtain ⟨-, rfl⟩ := Prod.mk.inj (Except.ok.inj hcreate)
    exact ⟨rfl, rfl, rfl, rfl, rfl⟩
  · rw [createTable] at hcreate
    obtain ⟨⟨root, pm₁⟩, -, hcreate⟩ := bind_eq_ok hcreate
    obtain ⟨-, rfl⟩ := Prod.mk.inj (Except.ok.inj hcreate)
    exact ⟨rfl, rfl, rfl, rfl, rfl⟩

theorem createWith_sameFiles (hcreate : createWith image k cur p = .ok (q, k')) :
    SameFiles k k' := by
  rw [createWith] at hcreate
  rcases htake : kpmalloc k.pm with ⟨_ | trapframe, pm⟩
  · rw [htake] at hcreate
    obtain ⟨k₂, hkfree, hcreate⟩ := bind_eq_ok hcreate
    obtain ⟨-, rfl⟩ := Prod.mk.inj (Except.ok.inj hcreate)
    have hrest := kfreeProc_sameFiles hkfree
    exact ⟨hrest.files, hrest.fileCache, hrest.fdBitmap, hrest.direntList, hrest.dirents⟩
  · rw [htake] at hcreate
    dsimp only at hcreate
    split at hcreate
    · obtain ⟨pm₁, -, hcreate⟩ := bind_eq_ok hcreate
      obtain ⟨-, rfl⟩ := Prod.mk.inj (Except.ok.inj hcreate)
      exact ⟨rfl, rfl, rfl, rfl, rfl⟩
    · have hrest := createStack_sameFiles hcreate
      exact ⟨hrest.files, hrest.fileCache, hrest.fdBitmap, hrest.direntList, hrest.dirents⟩

/-- `process_create` opens and closes no file. -/
theorem processCreate_sameFiles (hcreate : processCreate image k cur = .ok (q, k')) :
    SameFiles k k' := by
  rw [processCreate] at hcreate
  obtain ⟨⟨bp, k₁⟩, hkalloc, hcreate⟩ := bind_eq_ok hcreate
  rw [Kernel.kallocProc] at hkalloc
  obtain ⟨⟨bp', cache, pm⟩, -, hkalloc⟩ := bind_eq_ok hkalloc
  obtain ⟨rfl, rfl⟩ := Prod.mk.inj (Except.ok.inj hkalloc)
  cases bp' with
  | none =>
      obtain ⟨-, rfl⟩ := Prod.mk.inj (Except.ok.inj hcreate)
      exact ⟨rfl, rfl, rfl, rfl, rfl⟩
  | some p =>
      dsimp only at hcreate
      have hrest := createWith_sameFiles hcreate
      exact ⟨hrest.files, hrest.fileCache, hrest.fdBitmap, hrest.direntList, hrest.dirents⟩

end Files

/-! ## What is left of a failed `fork` -/

/-- A failed `fork` before it gives back the number `pid` and the structure `np`, which `kalloc` has
returned with `k₀`. -/
structure Unwound (image : Image) (k k₀ before : Kernel) (np pid : ℕ) (ledger ledger' : Ledger) :
    Prop where
  keeps : Keeps image before ledger'
  small : pid < maxPid
  clear : ¬ Bitmap.Marked k₀.pidBitmap pid
  marked : before.pidBitmap = Bitmap.mark k₀.pidBitmap pid
  cache : before.procCache = k₀.procCache
  list : before.processList = k.processList
  procs : ∀ q ≠ np, before.procs q = k.procs q
  files : SameFiles k before
  pages : TookTables k₀ before
  spares : Spares (Party.actors np) ledger.owner ledger'.owner k.pm.mem before.pm.mem

section Ends

variable {image : Image} {k k₁ : Kernel} {ledger : Ledger} {p np : ℕ}

/-- A `fork` that fails gives back all it took for the child, and ends with its number and its
structure. -/
theorem Keeps.fork_ends (hsymbols : image.Ok) (hkeeps : Keeps image k ledger)
    (hsettled : Settled k ledger) (hp : p ∈ k.processList) (hroot : (k.procs p).pagetable ≠ 0)
    (hcreate : Process.processCreate image k p = .ok (np, k₁)) (hnp : np ≠ 0)
    (hfails : Fails image k₁ p np) :
    ∃ k₀ before, ∃ pid : ℕ, ∃ ledger', k.kallocProc = .ok (some np, k₀) ∧
      Process.fork image k p = ((pidFree before pid).kfreeProc image np).map (fun k' => (-1, k')) ∧
      Unwound image k k₀ before np pid ledger ledger' := by
  obtain ⟨ledger₁, ⟨rfl, -⟩ | ⟨-, hmade, k₀, hkalloc, haccounted⟩⟩ :=
    hkeeps.processCreate hsymbols hsettled hcreate
  · exact absurd rfl hnp
  have hne : p ≠ np := by
    rintro rfl
    exact hmade.new hp
  have hroot₁ : (k₁.procs p).pagetable ≠ 0 := by
    rwa [hmade.others p hne]
  obtain ⟨pid, pm, ledger₂, hdeparted, hfilled, hfork⟩ :=
    hmade.fork_fails hcreate hnp hp hroot₁ hfails
  obtain ⟨pm', ledger', hbad, hkeep, -, -, -, -, hspares, hfree, htables⟩ :=
    @Departed.dismantle image (k₁.setPm pm) ledger₂ np pid hsymbols hfilled.departed
  have haccounted' := hfilled.accounted haccounted hdeparted
  obtain ⟨pid', hclear, hmarked, hnumber⟩ := haccounted.number
  have hpid : pid' = pid := Int.ofNat_inj.mp (hnumber.symm.trans hdeparted.has.number)
  subst hpid
  have herase : k₁.processList.erase np = k.processList := by
    rw [hmade.list, List.erase_append_right _ hmade.new, List.erase_cons_head, List.append_nil]
  refine ⟨k₀, _, pid', ledger', hkalloc, hfork.trans hbad, hkeep, hdeparted.small, hclear, hmarked,
    haccounted.cache, herase, fun q hq => hmade.others q hq, ?_, ?_, ?_⟩
  · exact (processCreate_sameFiles hcreate).trans ⟨rfl, rfl, rfl, rfl, rfl⟩
  · exact haccounted'.tookTables hdeparted.has.kstack hfree htables
  · refine (hmade.spares.trans (hfilled.spares.mono ?_)).trans hspares
    exact fun party hparty => .inr (.inr (.inr hparty))

/-- The parent `p` is as it was: its user table, what the user may reach through it, and its
trapframe. -/
structure SameParent (k k' : Kernel) (p : ℕ) : Prop where
  space : ∀ va, translate k'.pm.mem (k.procs p).pagetable va =
    translate k.pm.mem (k.procs p).pagetable va
  cells : ∀ va pa flags, translate k.pm.mem (k.procs p).pagetable va = some (pa, flags) →
    flags &&& pteU ≠ 0 → k'.pm.mem pa = k.pm.mem pa
  trapframe : ∀ i < pgSize, k'.pm.mem ((k.procs p).trapframe + i) =
    k.pm.mem ((k.procs p).trapframe + i)

/-- After a failed `fork` by `p` the child `np` is gone: each page is free once, but for those that
have become tables of the kernel, its number and its structure are free, and the processes are as
before. -/
structure Undone (k k' : Kernel) (p np : ℕ) : Prop where
  nodup : k'.pm.freelist.Nodup
  pages : TookTables k k'
  number : ∀ pid, Bitmap.Marked k'.pidBitmap pid ↔ Bitmap.Marked k.pidBitmap pid
  newest : k'.procCache.heapList = k.procCache.heapList
  slot : ∃ i < Slab.procMode.blockNum, np = k'.procCache.heapList + i * Slab.procMode.size ∧
    ¬ Slab.Taken k'.procCache.mem k'.procCache.heapList i
  bitmaps : ∀ pages, Slab.CacheOk Slab.procMode k.procCache pages → ∀ list ∈ pages, ∀ i < 128,
    (Slab.Taken k'.procCache.mem list i ↔ Slab.Taken k.procCache.mem list i)
  list : k'.processList = k.processList
  procs : ∀ q ≠ np, k'.procs q = k.procs q
  files : SameFiles k k'
  parent : SameParent k k' p

/-- `fork` by `p` returns -1 and leaves nothing of the child `np`. -/
def FailsCleanly (image : Image) (k : Kernel) (p np : ℕ) : Prop :=
  ∃ k', fork image k p = .ok (-1, k') ∧ Undone k k' p np

/-- A step of other parties leaves the parent as it was. -/
theorem Keeps.sameParent {k' : Kernel} {ledger' : Ledger} {acting : Set Party}
    (hkeeps : Keeps image k ledger) (hp : p ∈ k.processList) (hroot : (k.procs p).pagetable ≠ 0)
    (hspares : Spares acting ledger.owner ledger'.owner k.pm.mem k'.pm.mem)
    (hspace : .space p ∉ acting) (hbody : .body p ∉ acting) : SameParent k k' p := by
  have hholder : .space p ∈ ledger.holders := (hkeeps.spaces.user p hp).mpr hroot
  have hmaps := hkeeps.shared.translate_spared hspares hholder hspace
  refine ⟨hmaps, fun va pa flags hmap huser => ?_, fun i hi => ?_⟩
  · have hown : Owned image.kernelEnd (share ledger.owner (.space p)) k.pm (k.procs p).pagetable
        (ledger.tables (.space p)) := hkeeps.shared.owned _ hholder
    obtain ⟨leaf, -, rfl, -, hleaf⟩ := hown.tree.userLeaf hmap huser
    have howned := hkeeps.shared.frame_owner hholder ⟨_, hleaf⟩
    have hround := pgRoundDown_add (pte2pa_aligned (entry k.pm.mem leaf (idx 0 va)))
      (Nat.mod_lt va (show 0 < pgSize by decide))
    refine hspares.same _ hspace _ ?_
    rw [hround]
    exact howned
  · obtain ⟨pid, -, -, -, hhas⟩ := hkeeps.kstacks.body p hp
    have hframe := hhas.trapframe
    have hgood := hkeeps.shared.good _ (by
      rw [hframe]
      exact fun heq => by cases heq)
    have hround := pgRoundDown_add hgood.aligned hi
    refine hspares.same _ hbody _ ?_
    rw [hround]
    exact hframe

/-- With room in the newest slab page nothing is left of the child. -/
theorem Unwound.undone {k₀ before : Kernel} {pid : ℕ} {ledger' : Ledger} (hsymbols : image.Ok)
    (hkeeps : Keeps image k ledger) (hp : p ∈ k.processList) (hroot : (k.procs p).pagetable ≠ 0)
    (hne : p ≠ np) (hkalloc : k.kallocProc = .ok (some np, k₀)) (hroom : NewestRoom k)
    (hunwound : Unwound image k k₀ before np pid ledger ledger') :
    ∃ k', (pidFree before pid).kfreeProc image np = .ok k' ∧ Undone k k' p np := by
  have hslab := hkeeps.structures.slab
  obtain ⟨mem, mem', rfl, hkfree, ⟨i, hi, hslot, hclear⟩, -⟩ :=
    kfreeTo_kallocProc hslab hsymbols.rounds hroom hkalloc
  have hpidFree : pidFree before pid = { before with
      pidBitmap := Bitmap.clear before.pidBitmap pid } :=
    if_pos ⟨Int.natCast_nonneg _, Int.ofNat_lt.mpr hunwound.small⟩
  refine ⟨{ before with
    pidBitmap := Bitmap.clear before.pidBitmap pid
    procCache := ⟨mem', k.procCache.heapList⟩ }, ?_, ?_⟩
  · rw [Kernel.kfreeProc, hpidFree]
    dsimp only
    rw [hunwound.cache, hkfree]
    rfl
  · refine ⟨hunwound.keeps.shared.nodup, ⟨hunwound.pages.back, hunwound.pages.spent,
      hunwound.pages.source⟩, fun other => ?_, rfl, ⟨i, hi, hslot, hclear⟩,
      fun pages hpages list hlist j hj => ?_, hunwound.list, hunwound.procs, ?_, ?_⟩
    · dsimp only
      rw [hunwound.marked, Bitmap.marked_clear, Bitmap.marked_mark]
      constructor
      · rintro ⟨hother, heq | hmarked⟩
        · exact absurd heq hother
        · exact hmarked
      · intro hmarked
        refine ⟨?_, .inr hmarked⟩
        rintro rfl
        exact hunwound.clear hmarked
    · obtain ⟨_, mem'', -, hkfree', -, hbits⟩ :=
        kfreeTo_kallocProc hpages hsymbols.rounds hroom hkalloc
      have heq := Except.ok.inj (hkfree'.symm.trans hkfree)
      rw [← (Slab.Cache.mk.inj heq).1]
      exact hbits list hlist j hj
    · have hfiles := hunwound.files
      exact ⟨hfiles.files, hfiles.fileCache, hfiles.fdBitmap, hfiles.direntList, hfiles.dirents⟩
    · refine hkeeps.sameParent hp hroot hunwound.spares ?_ ?_
      all_goals simp [Party.actors, hne]

/-- A page that `kalloc` has taken for the structure of the child is neither free afterwards nor a
table of the kernel. -/
theorem Unwound.not_undone {k₀ before k' : Kernel} {pid : ℕ} {ledger' : Ledger}
    (hkeeps : Keeps image k ledger) (hkalloc : k.kallocProc = .ok (some np, k₀))
    (hfull : ¬ NewestRoom k) (hunwound : Unwound image k k₀ before np pid ledger ledger')
    (hkfree : (pidFree before pid).kfreeProc image np = .ok k') : ¬ Undone k k' p np := by
  have hkernel : .kernel ∉ ({.slab} : Set Party) := fun heq => by cases heq
  obtain ⟨_, ledger₀, -, hfresh⟩ := hkeeps.kallocProc hkalloc
  obtain ⟨-, hnone⟩ | ⟨page, rest, hlist, _, cache, slabs, hkalloc', -⟩ :=
    kallocProc_full hkeeps.structures.slab hfull hkeeps.newPage
  · rw [hnone] at hkalloc
    cases hkalloc
  obtain ⟨-, rfl⟩ := Prod.mk.inj (Except.ok.inj (hkalloc'.symm.trans hkalloc))
  intro hundone
  have hfree : page ∈ k.pm.freelist := by
    rw [hlist]
    exact List.mem_cons_self
  have hrest : page ∉ rest := by
    have hnodup := hkeeps.shared.nodup
    rw [hlist] at hnodup
    exact (List.nodup_cons.mp hnodup).1
  have hend : k'.pm = before.pm ∧ k'.kernelPagetable = before.kernelPagetable := by
    rw [Kernel.kfreeProc] at hkfree
    obtain ⟨cache', -, hkfree⟩ := bind_eq_ok hkfree
    obtain rfl := Except.ok.inj hkfree
    rw [pidFree]
    split
    all_goals exact ⟨rfl, rfl⟩
  obtain ⟨hpm, htable⟩ := hend
  obtain hback | hpage := hundone.pages.spent page hfree
  · rw [hpm] at hback
    exact hrest (hunwound.pages.back page hback)
  · rw [hpm, htable] at hpage
    obtain hold | hback := hunwound.pages.source page hpage
    · have hold := (hkeeps.tablePage_iff hfresh.spares hkernel page).mp hold
      have hown : Owned image.kernelEnd (share ledger.owner .kernel) k.pm k.kernelPagetable
          (ledger.tables .kernel) := hkeeps.shared.owned .kernel ledger.kernel_mem
      exact hown.freeTable page hfree (hown.tree.tablePage_iff.mp hold)
    · exact hrest hback

end Ends

/-! ## All of `fork` -/

section Fork

variable {image : Image} {k k₁ : Kernel} {ledger : Ledger} {p np : ℕ}

theorem Keeps.not_failsCleanly (hsymbols : image.Ok) (hkeeps : Keeps image k ledger)
    (hsettled : Settled k ledger) (hp : p ∈ k.processList) (hroot : (k.procs p).pagetable ≠ 0)
    (hcreate : Process.processCreate image k p = .ok (np, k₁)) (hnp : np ≠ 0)
    (hfails : Fails image k₁ p np) (hfull : ¬ NewestRoom k) : ¬ FailsCleanly image k p np := by
  rintro ⟨k', hfork', hundone⟩
  obtain ⟨k₀, before, pid, ledger', hkalloc, hfork, hunwound⟩ :=
    hkeeps.fork_ends hsymbols hsettled hp hroot hcreate hnp hfails
  rw [hfork] at hfork'
  cases hkfree : (pidFree before pid).kfreeProc image np with
  | error stop =>
      rw [hkfree] at hfork'
      cases hfork'
  | ok k₂ =>
      rw [hkfree] at hfork'
      obtain ⟨-, rfl⟩ := Prod.mk.inj (Except.ok.inj hfork')
      exact hunwound.not_undone hkeeps hkalloc hfull hkfree hundone

theorem Keeps.failsCleanly (hsymbols : image.Ok) (hkeeps : Keeps image k ledger)
    (hsettled : Settled k ledger) (hp : p ∈ k.processList) (hroot : (k.procs p).pagetable ≠ 0)
    (hcreate : Process.processCreate image k p = .ok (np, k₁)) (hnp : np ≠ 0)
    (hfails : Fails image k₁ p np) (hroom : NewestRoom k) : FailsCleanly image k p np := by
  obtain ⟨k₀, before, pid, ledger', hkalloc, hfork, hunwound⟩ :=
    hkeeps.fork_ends hsymbols hsettled hp hroot hcreate hnp hfails
  have hne : p ≠ np := by
    rintro rfl
    obtain ⟨_, _, hsome, hfresh⟩ := hkeeps.kallocProc hkalloc
    obtain rfl := Option.some.inj hsome
    exact hfresh.new hp
  obtain ⟨k', hkfree, hundone⟩ :=
    hunwound.undone hsymbols hkeeps hp hroot hne hkalloc hroom
  refine ⟨k', ?_, hundone⟩
  rw [hfork, hkfree]
  rfl

/-- A `fork` that fails after `process_create` has returned a child leaves nothing of it if and only
if the newest slab page has a clear bit when it begins. -/
theorem failsCleanly_iff (hsymbols : image.Ok) (horder : InOrder image k) (hp : p ∈ k.processList)
    (hroot : (k.procs p).pagetable ≠ 0) (hcreate : processCreate image k p = .ok (np, k₁))
    (hnp : np ≠ 0) (hfails : Fails image k₁ p np) : FailsCleanly image k p np ↔ NewestRoom k := by
  obtain ⟨ledger, hkeeps, hsettled⟩ := horder
  constructor
  · intro hclean
    by_contra hfull
    exact hkeeps.not_failsCleanly hsymbols hsettled hp hroot hcreate hnp hfails hfull hclean
  · exact hkeeps.failsCleanly hsymbols hsettled hp hroot hcreate hnp hfails

end Fork

/-! ## Kernels with processes -/

/-- `process_create` is called `n` times. -/
def createMany (image : Image) : ℕ → Kernel → Except Stop Kernel
  | 0, k => .ok k
  | n + 1, k => do
      let (_, k) ← processCreate image k 0
      createMany image n k

/-- Eighty pages. -/
def eightyPages : List ℕ := (List.range 80).map fun i => 0x80302000 + 4096 * i

/-- A kernel in which `n` processes have been made. -/
def withProcesses (n : ℕ) : Kernel :=
  ((createMany smallImage n (bootKernel eightyPages)).toOption).getD (bootKernel eightyPages)

theorem smallImage_ok : smallImage.Ok := ⟨by decide, by decide, by decide, by decide⟩

theorem InOrder.createMany {image : Image} {k k' : Kernel} (hsymbols : image.Ok)
    (horder : InOrder image k) {n : ℕ} (hcreate : createMany image n k = .ok k') :
    InOrder image k' := by
  induction n generalizing k with
  | zero =>
      obtain rfl := Except.ok.inj hcreate
      exact horder
  | succ n ih =>
      obtain ⟨⟨p, k₁⟩, hfirst, hrest⟩ := bind_eq_ok hcreate
      exact ih (horder.step hsymbols (show Step image k (.create 0) k₁ from ⟨p, hfirst⟩)) hrest

theorem eightyPages_inOrder : InOrder smallImage (bootKernel eightyPages) := by
  have hmem : ∀ page, page ∈ eightyPages ↔ ∃ i < 80, 0x80302000 + 4096 * i = page := by
    simp [eightyPages]
  have hinj : Function.Injective fun i : ℕ => 0x80302000 + 4096 * i := fun i j heq =>
    Nat.eq_of_mul_eq_mul_left (show 0 < 4096 by decide) (Nat.add_left_cancel heq)
  have hnodup : eightyPages.Nodup := List.nodup_range.map hinj
  have hpool : Pool smallImage.kernelEnd ⟨fun _ => 0, eightyPages⟩ := by
    refine ⟨hnodup, fun page hpage => ?_⟩
    obtain ⟨i, hi, heq⟩ := (hmem page).mp hpage
    have haligned : page % pgSize = 0 := by
      simp only [pgSize]
      omega
    have hlo : smallImage.kernelEnd ≤ page := by
      simp only [smallImage]
      omega
    have hhi : page < physTop := by
      have htop : 0x80352000 ≤ physTop := by decide
      omega
    exact ⟨haligned, hlo, hhi⟩
  refine bootKernel_inOrder hpool (by simp [eightyPages]) ?_
  rw [hmem]
  rintro ⟨i, -, heq⟩
  omega

theorem withProcesses_inOrder (n : ℕ) : InOrder smallImage (withProcesses n) := by
  rw [withProcesses]
  cases hcreate : createMany smallImage n (bootKernel eightyPages) with
  | error stop => exact eightyPages_inOrder
  | ok k => exact eightyPages_inOrder.createMany smallImage_ok hcreate

/-- The first process. -/
def firstProc : ℕ := 0x80300000 + 24

/-- The process `p` has no heap and no stack, and makes the child `np`. -/
def ForksInVain (k : Kernel) (p np : ℕ) : Prop :=
  p ∈ k.processList ∧ (k.procs p).pagetable ≠ 0 ∧
    (processCreate smallImage k p).toOption.map (fun made => (made.1, (made.2.procs p).heapEnd,
      (walk made.2.pm (made.2.procs p).pagetable stackVa false).toOption.map fun found =>
        found.1.map (readPte found.2.mem))) = some (np, 0, some (some 0)) ∧
    (processCreate smallImage k p).toOption.map (fun made => (made.2.procs np).pagetable) ≠ some 0

theorem ForksInVain.fails {k : Kernel} {p np : ℕ} (hvain : ForksInVain k p np) :
    ∃ k₁, processCreate smallImage k p = .ok (np, k₁) ∧ Fails smallImage k₁ p np := by
  obtain ⟨-, -, hmade, htable⟩ := hvain
  cases hcreate : processCreate smallImage k p with
  | error stop =>
      rw [hcreate] at hmade
      cases hmade
  | ok made =>
      obtain ⟨q, k₁⟩ := made
      rw [hcreate] at hmade htable
      have hmade := Option.some.inj hmade
      simp only [Prod.mk.injEq] at hmade
      obtain ⟨rfl, hend, hwalk⟩ := hmade
      have htable : (k₁.procs q).pagetable ≠ 0 := fun heq => htable (congrArg some heq)
      refine ⟨k₁, rfl, .entry k₁.pm ⟨0, ?_, by decide⟩ fun slot pm' hentry => ?_⟩
      · rw [uvmcopyInto, if_neg fun hnull => htable hnull.1, hend]
        rfl
      · obtain ⟨hslot, hflags⟩ := hentry
        rw [hslot] at hwalk
        rw [Option.some.inj (Option.some.inj hwalk)] at hflags
        exact absurd hflags (by decide)

instance (k : Kernel) (p np : ℕ) : Decidable (ForksInVain k p np) :=
  inferInstanceAs (Decidable (_ ∧ _ ∧ _ ∧ _))

theorem oneProcess_forks : ForksInVain (withProcesses 1) firstProc (firstProc + 392) := by
  decide +kernel

theorem failsCleanly_oneProcess :
    FailsCleanly smallImage (withProcesses 1) firstProc (firstProc + 392) ↔
      NewestRoom (withProcesses 1) := by
  have hvain := oneProcess_forks
  obtain ⟨k₁, hcreate, hfails⟩ := hvain.fails
  exact failsCleanly_iff smallImage_ok (withProcesses_inOrder 1) hvain.1 hvain.2.1 hcreate
    (by decide) hfails

/-- With ten processes the first slab page is full, and the child of the first lies in another. -/
theorem tenProcesses_forks : ForksInVain (withProcesses 10) firstProc 0x80337018 ∧
    (Slab.findMatchSpace (withProcesses 10).procCache.mem (withProcesses 10).procCache.heapList
      Slab.procMode.size).1 = none := by
  decide +kernel

/-- There the page of its structure is lost. -/
theorem not_failsCleanly_tenProcesses : ¬ ∀ image k p np k₁, image.Ok → InOrder image k →
    p ∈ k.processList → (k.procs p).pagetable ≠ 0 → processCreate image k p = .ok (np, k₁) →
      np ≠ 0 → Fails image k₁ p np → FailsCleanly image k p np := by
  intro hall
  obtain ⟨hvain, hfull⟩ := tenProcesses_forks
  obtain ⟨k₁, hcreate, hfails⟩ := hvain.fails
  have horder := withProcesses_inOrder 10
  have hclean := hall _ _ _ _ _ smallImage_ok horder hvain.1 hvain.2.1 hcreate (by decide) hfails
  obtain ⟨ledger, hkeeps, hsettled⟩ := horder
  refine hkeeps.not_failsCleanly smallImage_ok hsettled hvain.1 hvain.2.1 hcreate (by decide) hfails
    ?_ hclean
  rintro ⟨i, hi, hclear⟩
  have hslab := hkeeps.structures.slab
  obtain ⟨j, -, -, hfound, -⟩ | ⟨-, hall⟩ :=
    Slab.findMatchSpace_spec (withProcesses 10).procCache.mem Slab.procMode.size
      (hslab.le hslab.heapList_mem)
  · rw [hfull] at hfound
    cases hfound
  · exact hclear (hall i hi)

end Painting.Process
