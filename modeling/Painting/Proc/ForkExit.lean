import Painting.Proc.Lifecycle

/-!
# `fork`, `process_exit` and `process_wait`

The child of `fork` is filled while it is new: its user table takes copies of the parent's pages,
its trapframe and its files are written last.  A process that ends gives back its user table and
stays on the list until it is reaped.
-/

namespace Painting.Process

open Painting.Memory Painting.PageTable

/-! ## The memory of the child -/

section Fill

variable {image : Image} {k : Kernel} {ledger : Ledger} {p np pid : ℕ}

/-- The child has changed its user table and pages of its own, and nothing else. -/
structure Filled (image : Image) (k : Kernel) (pm : Pm) (np pid : ℕ) (ledger ledger' : Ledger) :
    Prop where
  departed : Departed image (k.setPm pm) np pid ledger'
  users : ledger'.users = ledger.users
  spares : Spares {.space np} ledger.owner ledger'.owner k.pm.mem pm.mem

theorem Filled.refl (hdeparted : Departed image k np pid ledger) :
    Filled image k k.pm np pid ledger ledger :=
  ⟨hdeparted, rfl, .refl _ _ _⟩

theorem Filled.trans {pm pm' : Pm} {ledger₁ ledger₂ : Ledger}
    (hleft : Filled image k pm np pid ledger ledger₁)
    (hright : Filled image (k.setPm pm) pm' np pid ledger₁ ledger₂) :
    Filled image k pm' np pid ledger ledger₂ :=
  ⟨hright.departed, hright.users.trans hleft.users, hleft.spares.trans hright.spares⟩

/-- A step of the user table of the child. -/
theorem Departed.space (hdeparted : Departed image k np pid ledger) (huser : np ∈ ledger.users)
    {pm : Pm} {set : ℕ → Set ℕ}
    (hown : Owned image.kernelEnd (share ledger.owner (.space np)) pm (k.procs np).pagetable set)
    (halloc : Allocates k.pm pm (ledger.tables (.space np)) set)
    (hpages : KernelPages pm.mem (k.procs np).pagetable image.trampolinePa
      (k.procs np).trapframe) :
    ∃ ledger', Filled image k pm np pid ledger ledger' := by
  have hold : Owned image.kernelEnd (share ledger.owner (.space np)) k.pm (k.procs np).pagetable
      (ledger.tables (.space np)) := hdeparted.keeps.shared.owned (.space np) huser
  have hmoves := hold.moves_of_allocates hown halloc
  have hkeep : Keeps image (k.setPm pm)
      (ledger.after (.space np) pm.freelist ledger.users set) := by
    refine @Keeps.elsewhere _ _ (k.setPm pm) _ _ _ _ hdeparted.keeps hdeparted.new hmoves
      (.setPm _ k _) (fun _ _ => Iff.rfl) (fun heq => by cases heq) (fun q heq _ => ?_)
      fun q heq hq => ?_
    · cases heq
      exact ⟨hown, hpages⟩
    · cases heq
      exact absurd huser hq
  refine ⟨_, hdeparted.move hkeep (.setPm _ k _) (hmoves.spares.mono ?_) (fun page howned => ?_)
    rfl rfl Iff.rfl, rfl, hmoves.spares⟩
  · rintro party rfl heq
    cases heq
  · exact (hmoves.owner_other fun heq => by cases heq).mpr howned

/-- `uvmcopy` from the table of `p` into the fresh table of the child. -/
theorem Departed.copy {ret : ℤ} {pm : Pm} {sz : ℕ} (hdeparted : Departed image k np pid ledger)
    (hp : p ∈ ledger.users) (hne : p ≠ np)
    (hfresh : (k.procs np).pagetable ≠ 0 → ∀ va < maxVa,
      translate k.pm.mem (k.procs np).pagetable va =
        freshMap image.trampolinePa (k.procs np).trapframe va)
    (hcopy : uvmcopyInto image k.pm (k.procs p).pagetable (k.procs np).pagetable sz =
      .ok (ret, pm)) :
    ∃ ledger', Filled image k pm np pid ledger ledger' ∧
      ((k.procs np).pagetable ≠ 0 → (∀ va < maxVa, pgRoundUp (min sz maxVa) ≤ va →
          translate pm.mem (k.procs np).pagetable va =
            translate k.pm.mem (k.procs np).pagetable va) ∧
        (∀ page ∈ pm.freelist, page ∈ k.pm.freelist) ∧
        (ret = 0 ∧ Copied k.pm pm (k.procs p).pagetable (k.procs np).pagetable
            (pgRoundUp (min sz maxVa)) ∨ ret = -1)) := by
  by_cases hroot : (k.procs np).pagetable = 0
  · rw [uvmcopyInto, hroot] at hcopy
    split at hcopy
    · cases hcopy
    · rename_i hdry
      have hok : uvmcopy image.kernelEnd k.pm (k.procs p).pagetable 0 sz = .ok (ret, pm) := by
        cases hresult : uvmcopy image.kernelEnd k.pm (k.procs p).pagetable 0 sz with
        | error panic =>
            rw [hresult] at hcopy
            cases hcopy
        | ok result =>
            rw [hresult] at hcopy
            exact congrArg _ (Except.ok.inj hcopy)
      have hsame : pm = k.pm := by
        refine uvmcopyLoop_same _ ?_ hok
        by_contra hneither
        obtain ⟨hfree, hcopies⟩ := not_or.mp hneither
        push Not at hcopies
        obtain ⟨ret', pm', hdry', hret⟩ := hcopies
        refine hdry ⟨rfl, hfree, ?_⟩
        rw [copies, uvmcopy, hdry']
        exact decide_eq_true hret
      rw [hsame]
      exact ⟨ledger, .refl hdeparted, fun hne => absurd hroot hne⟩
  · have hok : uvmcopy image.kernelEnd k.pm (k.procs p).pagetable (k.procs np).pagetable sz =
        .ok (ret, pm) := by
      rw [uvmcopyInto, if_neg fun h => hroot h.1] at hcopy
      cases hresult : uvmcopy image.kernelEnd k.pm (k.procs p).pagetable (k.procs np).pagetable sz
        with
      | error panic =>
          rw [hresult] at hcopy
          cases hcopy
      | ok result =>
          rw [hresult] at hcopy
          exact congrArg _ (Except.ok.inj hcopy)
    have huser : np ∈ ledger.users := hdeparted.user.mpr hroot
    have hparent := hdeparted.keeps.spaces.kernel p hp
    have hchild := hdeparted.keeps.spaces.kernel np huser
    have hapart := hdeparted.keeps.shared.apart (show .space p ∈ ledger.holders from hp)
      (show Party.space p ≠ .space np from fun heq => hne (Party.space.inj heq))
    have hold : Owned image.kernelEnd (share ledger.owner (.space np)) k.pm
        (k.procs np).pagetable (ledger.tables (.space np)) :=
      hdeparted.keeps.shared.owned (.space np) huser
    have hlimit : min sz maxVa ≤ maxVa := Nat.min_le_right _ _
    have hnone : ∀ va < pgRoundUp (min sz maxVa), UserMapped k.pm.mem (k.procs p).pagetable va →
        translate k.pm.mem (k.procs np).pagetable va = none := by
      intro va hva hmapped
      have hup := pgRoundUp_eq hlimit
      have hva : va < maxVa := by
        simp only [maxVa] at *
        omega
      rw [hfresh hroot va hva, freshMap, if_neg, if_neg]
      · exact fun hpage => notUser_of_kernelPages hparent (.inr hpage) hmapped
      · exact fun hpage => notUser_of_kernelPages hparent (.inl hpage) hmapped
    obtain ⟨ret', pm', set, hcopy', hown, halloc, habove, hchanged, hresult⟩ :=
      hold.copy hapart hlimit hnone
    have hsame := hcopy'.symm.trans (uvmcopyLoop_limit _ hok)
    obtain ⟨rfl, rfl⟩ := Prod.mk.inj (Except.ok.inj hsame)
    have hpages : KernelPages pm'.mem (k.procs np).pagetable image.trampolinePa
        (k.procs np).trapframe := by
      refine ⟨?_, ?_⟩
      · refine ((hchanged trampoline (by decide)).resolve_right fun h => ?_).trans hchild.trampoline
        exact notUser_of_kernelPages hparent (.inr rfl) h.1
      · refine ((hchanged trapFrame (by decide)).resolve_right fun h => ?_).trans hchild.trapFrame
        exact notUser_of_kernelPages hparent (.inl rfl) h.1
    obtain ⟨ledger', hfilled⟩ := hdeparted.space huser hown halloc hpages
    exact ⟨ledger', hfilled, fun _ => ⟨habove, halloc.free, hresult⟩⟩

/-- The user stack page of the child, which is in hand with its contents. -/
theorem Departed.stackPage {page : ℕ} {rest : List ℕ} {mem₁ : Mem} {pm : Pm} {mode : ℕ} {ret : ℤ}
    (hdeparted : Departed image k np pid ledger) (hlist : k.pm.freelist = page :: rest)
    (hfill : ∀ x, pgRoundDown x ≠ page → mem₁ x = k.pm.mem x) (hmode : mode < 1024)
    (hmodeUser : mode &&& pteU ≠ 0)
    (hmap : mappagesInto ⟨mem₁, rest⟩ (k.procs np).pagetable stackVa page pgSize mode =
      .ok (ret, pm)) :
    (k.procs np).pagetable ≠ 0 ∧
      (ret = 0 ∧ (∃ ledger', Filled image k pm np pid ledger ledger') ∧
          (∀ va < maxVa, translate pm.mem (k.procs np).pagetable va =
            if va / pgSize = stackVa / pgSize then some (page + va % pgSize, mode ||| pteV)
            else translate k.pm.mem (k.procs np).pagetable va) ∧
          (∀ x, pgRoundDown x = page → pm.mem x = mem₁ x) ∧
          (∀ va pa flags, translate k.pm.mem (k.procs np).pagetable va = some (pa, flags) →
            flags &&& pteU ≠ 0 → pm.mem pa = k.pm.mem pa) ∨
        ret = -1 ∧ ∃ pm' ledger', kpmfree image.kernelEnd pm page = .ok pm' ∧
          Filled image k pm' np pid ledger ledger') := by
  rw [mappagesInto] at hmap
  split at hmap
  · cases hmap
  · rename_i hroot
    have huser : np ∈ ledger.users := hdeparted.user.mpr hroot
    have hchild := hdeparted.keeps.spaces.kernel np huser
    have hown : Owned image.kernelEnd (share ledger.owner (.space np)) k.pm
        (k.procs np).pagetable (ledger.tables (.space np)) :=
      hdeparted.keeps.shared.owned (.space np) huser
    have hva : stackVa % pgSize = 0 := by decide
    have hlt : stackVa < maxVa := by decide
    cases hresult : mappages ⟨mem₁, rest⟩ (k.procs np).pagetable stackVa page pgSize mode with
    | error panic =>
        rw [hresult] at hmap
        cases hmap
    | ok result =>
        rw [hresult] at hmap
        obtain rfl := Except.ok.inj hmap
        have hnone := hown.unmapped_of_mappages hlist hfill hva hlt hresult
        obtain ⟨ret', pm', set, hmap', hplaced⟩ :=
          hown.placePage hlist hfill hva hlt hmode hmodeUser hnone
        obtain ⟨rfl, rfl⟩ := Prod.mk.inj (Except.ok.inj (hresult.symm.trans hmap'))
        refine ⟨hroot, ?_⟩
        obtain ⟨hret, hown', halloc, -, htranslate, hcontent⟩ |
          ⟨hret, pm'', hgive, hown', halloc, -, htranslate⟩ := hplaced
        · refine .inl ⟨hret, ?_, htranslate, hcontent, fun va pa flags hva hflags => ?_⟩
          · refine hdeparted.space huser hown' halloc ⟨?_, ?_⟩
            · exact (htranslate _ (by decide)).trans ((if_neg (by decide)).trans hchild.trampoline)
            · exact (htranslate _ (by decide)).trans ((if_neg (by decide)).trans hchild.trapFrame)
          · obtain ⟨leaf, -, rfl, -, hleaf⟩ := hown.tree.userLeaf hva hflags
            have hframe : Frame k.pm.mem _ _ := ⟨_, hleaf⟩
            have hround := pgRoundDown_add (pte2pa_aligned (entry k.pm.mem leaf (idx 0 va)))
              (Nat.mod_lt va (show 0 < pgSize by decide))
            refine halloc.same _ ?_ ?_
            · rw [hround]
              exact hown.frameTable _ hframe
            · rw [hround]
              exact fun hfree => hown.freeFrame _ hfree hframe
        · obtain ⟨ledger', hfilled⟩ := hdeparted.space huser hown' halloc
            ⟨(htranslate _).trans hchild.trampoline, (htranslate _).trans hchild.trapFrame⟩
          exact .inr ⟨hret, pm'', ledger', hgive, hfilled⟩

/-- The child's table maps copies of the parent's pages below `limit` and of its stack page, and
nothing else for the user. -/
structure ChildSpace (mem mem' : Mem) (free : List ℕ) (old new limit : ℕ) : Prop where
  page : ∀ va < maxVa, va < limit ∨ va / pgSize = stackVa / pgSize → ∀ pa flags,
    translate mem old va = some (pa, flags) → flags &&& pteU ≠ 0 →
      ∃ page ∈ free, page % pgSize = 0 ∧
        translate mem' new va = some (page + va % pgSize, flags &&& permMask ||| pteV) ∧
        mem' (page + va % pgSize) = mem pa
  only : ∀ va < maxVa, UserMapped mem' new va → UserMapped mem old va

/-- A fresh table maps nothing for the user. -/
theorem not_userMapped_of_fresh {mem : Mem} {root trampolinePa trapframe va : ℕ}
    (hfresh : translate mem root va = freshMap trampolinePa trapframe va) :
    ¬ UserMapped mem root va := by
  rintro ⟨pa, flags, htranslate, huser⟩
  rw [hfresh, freshMap] at htranslate
  split at htranslate
  · obtain ⟨-, rfl⟩ := Prod.mk.inj (Option.some.inj htranslate)
    exact huser (by decide)
  · split at htranslate
    · obtain ⟨-, rfl⟩ := Prod.mk.inj (Option.some.inj htranslate)
      exact huser (by decide)
    · cases htranslate

/-- The copies of the heap and of the stack page make the child's space. -/
theorem ChildSpace.of_copied {pm₀ pm₁ : Pm} {mem₂ : Mem} {old new limit page pa flags
    trampolinePa trapframe : ℕ} (hcopied : Copied pm₀ pm₁ old new limit)
    (hfresh : ∀ va < maxVa, translate pm₀.mem new va = freshMap trampolinePa trapframe va)
    (habove : ∀ va < maxVa, limit ≤ va → translate pm₁.mem new va = translate pm₀.mem new va)
    (hstack : translate pm₀.mem old stackVa = some (pa, flags)) (huser : flags &&& pteU ≠ 0)
    (hpage : page ∈ pm₀.freelist) (haligned : page % pgSize = 0)
    (htranslate : ∀ va < maxVa, translate mem₂ new va =
      if va / pgSize = stackVa / pgSize then some (page + va % pgSize, flags &&& permMask ||| pteV)
      else translate pm₁.mem new va)
    (hcontent : ∀ i < pgSize, mem₂ (page + i) = pm₀.mem (pa + i))
    (hkept : ∀ va pa flags, translate pm₁.mem new va = some (pa, flags) → flags &&& pteU ≠ 0 →
      mem₂ pa = pm₁.mem pa) :
    ChildSpace pm₀.mem mem₂ pm₀.freelist old new limit := by
  have hhere : ∀ va, va / pgSize = stackVa / pgSize →
      translate pm₀.mem old va = some (pa + va % pgSize, flags) := fun va hva =>
    translate_page hva.symm hstack
  refine ⟨fun va hva hin pa' flags' hold huser' => ?_, fun va hva hmapped => ?_⟩
  · rw [htranslate va hva]
    by_cases hpos : va / pgSize = stackVa / pgSize
    · rw [if_pos hpos]
      rw [hhere va hpos] at hold
      obtain ⟨rfl, rfl⟩ := Prod.mk.inj (Option.some.inj hold)
      exact ⟨page, hpage, haligned, rfl, hcontent _ (Nat.mod_lt va (by decide))⟩
    · rw [if_neg hpos]
      obtain ⟨other, hfree, hother, hmap, hcell⟩ :=
        hcopied.page va (hin.resolve_right hpos) pa' flags' hold huser'
      have hkeep := hkept va _ _ hmap (user_flags (permMask_user huser'))
      exact ⟨other, hfree, hother, hmap, hkeep.trans hcell⟩
  · by_cases hpos : va / pgSize = stackVa / pgSize
    · exact ⟨_, flags, hhere va hpos, huser⟩
    · rw [UserMapped, htranslate va hva, if_neg hpos] at hmapped
      have hfresh' : translate pm₁.mem new va ≠ translate pm₀.mem new va := fun heq =>
        not_userMapped_of_fresh (heq.trans (hfresh va hva)) hmapped
      by_contra hold
      by_cases hlow : va < limit
      · exact hfresh' (hcopied.other va hlow hold)
      · exact hfresh' (habove va hva (not_lt.mp hlow))

/-- The stack page of the parent, when another page has been taken to copy it. -/
theorem Filled.parentStack {pm₁ : Pm} {ledger₂ : Ledger} {leaf page : ℕ} {rest : List ℕ}
    (hdeparted : Departed image k np pid ledger) (hfilled : Filled image k pm₁ np pid ledger ledger₂)
    (hp : p ∈ ledger.users) (hne : p ≠ np)
    (hlookup : lookup pm₁.mem stackVa 2 (k.procs p).pagetable = some leaf)
    (hflags : entry pm₁.mem leaf (idx 0 stackVa) &&& (pteV ||| pteU) = pteV ||| pteU)
    (hlist : pm₁.freelist = page :: rest) :
    translate k.pm.mem (k.procs p).pagetable stackVa =
        some (pte2pa (entry pm₁.mem leaf (idx 0 stackVa)),
          pteFlags (entry pm₁.mem leaf (idx 0 stackVa))) ∧
      pteFlags (entry pm₁.mem leaf (idx 0 stackVa)) &&& pteU ≠ 0 ∧
      page % pgSize = 0 ∧
      ∀ i < pgSize, fill pm₁.mem page 5 pgSize (pte2pa (entry pm₁.mem leaf (idx 0 stackVa)) + i) =
        k.pm.mem (pte2pa (entry pm₁.mem leaf (idx 0 stackVa)) + i) := by
  have hholder : Party.space p ∈ ledger.holders := hp
  have hspared : Party.space p ∉ ({.space np} : Set Party) := fun heq => hne (Party.space.inj heq)
  have hmaps := hdeparted.keeps.shared.translate_spared hfilled.spares hholder hspared stackVa
  have hvalid : Valid (entry pm₁.mem leaf (idx 0 stackVa)) := by
    intro hzero
    have hand := congrArg (· &&& pteV) hflags
    simp only [Nat.and_assoc] at hand
    rw [show (pteV ||| pteU) &&& pteV = pteV by decide, hzero] at hand
    cases hand
  have huser : pteFlags (entry pm₁.mem leaf (idx 0 stackVa)) &&& pteU ≠ 0 := by
    refine pteFlags_user.mpr fun hzero => ?_
    have hand := congrArg (· &&& pteU) hflags
    simp only [Nat.and_assoc] at hand
    rw [show (pteV ||| pteU) &&& pteU = pteU by decide, hzero] at hand
    cases hand
  have htranslate : translate pm₁.mem (k.procs p).pagetable stackVa =
      some (pte2pa (entry pm₁.mem leaf (idx 0 stackVa)),
        pteFlags (entry pm₁.mem leaf (idx 0 stackVa))) := by
    rw [translate_of_lookup hlookup, meaning, if_pos hvalid]
    rfl
  have hold := hmaps.symm.trans htranslate
  have hfree : ledger₂.owner page = .free := by
    refine (hfilled.departed.keeps.shared.free page).mp ?_
    rw [show (k.setPm pm₁).pm.freelist = page :: rest from hlist]
    exact List.mem_cons_self
  have haligned := (hfilled.departed.keeps.shared.good page (by
    rw [hfree]
    exact fun heq => by cases heq)).aligned
  refine ⟨hold, huser, haligned, fun i hi => ?_⟩
  have hround := pgRoundDown_add (pte2pa_aligned (entry pm₁.mem leaf (idx 0 stackVa))) hi
  have hframe := (hdeparted.keeps.shared.owned _ hholder).frame_of_translate
    (show translate k.pm.mem (k.procs p).pagetable stackVa =
      some (pte2pa (entry pm₁.mem leaf (idx 0 stackVa)) + stackVa % pgSize, _) from hold) huser
  have howned := hdeparted.keeps.shared.frame_owner hholder hframe
  have hne' : pte2pa (entry pm₁.mem leaf (idx 0 stackVa)) ≠ page := by
    intro heq
    have howned' := (hfilled.spares.pages _ hspared _).mpr howned
    rw [heq, hfree] at howned'
    cases howned'
  rw [fill_apply_of_out]
  · refine hfilled.spares.same _ hspared _ ?_
    rw [hround]
    exact howned
  · have hpa := pte2pa_aligned (entry pm₁.mem leaf (idx 0 stackVa))
    simp only [pgSize] at *
    omega

/-- `fork` once the child is made: it fails with pages of the child filled, or ends with a copy of
the parent's memory. -/
theorem Made.fork_cases {k₁ k' : Kernel} {ledger₁ : Ledger} {ret : ℤ}
    (hmade : Made image k k₁ np ledger ledger₁) (hcreate : processCreate image k p = .ok (np, k₁))
    (hnp : np ≠ 0) (hp : p ∈ k.processList) (hfork : fork image k p = .ok (ret, k')) :
    ∃ pid pm ledger₂,
      Filled image { k₁ with processList := k₁.processList.erase np } pm np pid
        { ledger₁ with transit := {pid} } ledger₂ ∧
      (forkBad image (k₁.setPm pm) np = .ok (ret, k') ∨
        forkFinish (k₁.setPm pm) p np = .ok (ret, k') ∧
          ChildSpace k₁.pm.mem pm.mem k₁.pm.freelist (k₁.procs p).pagetable
            (k₁.procs np).pagetable (pgRoundUp (min (k₁.procs p).heapEnd maxVa))) := by
  have hchild : np ∈ k₁.processList := by
    rw [hmade.list]
    exact List.mem_append_right _ (List.mem_singleton_self np)
  have hparent : p ∈ k₁.processList := by
    rw [hmade.list]
    exact List.mem_append_left _ hp
  have hne : p ≠ np := by
    rintro rfl
    exact hmade.new hp
  obtain ⟨pid, hdeparted⟩ := hmade.keeps.departed hmade.settled hchild
  rw [Process.fork, hcreate] at hfork
  dsimp only [bind, Except.bind] at hfork
  rw [if_neg hnp] at hfork
  split at hfork
  · cases hfork
  rename_i hroot
  have huser : p ∈ ledger₁.users := (hmade.keeps.spaces.user p hparent).mpr hroot
  cases hcopy : uvmcopyInto image k₁.pm (k₁.procs p).pagetable (k₁.procs np).pagetable
    (k₁.procs p).heapEnd with
  | error stop =>
      rw [hcopy] at hfork
      cases hfork
  | ok result =>
      obtain ⟨ret₁, pm₁⟩ := result
      rw [hcopy] at hfork
      dsimp only at hfork
      obtain ⟨ledger₂, hfilled, hcopied⟩ := hdeparted.copy huser hne hmade.fresh hcopy
      split at hfork
      · exact ⟨pid, pm₁, ledger₂, hfilled, .inl hfork⟩
      rename_i hret
      have hwalk : walk (k₁.setPm pm₁).pm (k₁.procs p).pagetable stackVa false =
          .ok ((lookup pm₁.mem stackVa 2 (k₁.procs p).pagetable).map
            fun leaf => leaf + 8 * idx 0 stackVa, pm₁) := walk_lookup (by decide)
      rw [hwalk] at hfork
      cases hlookup : lookup pm₁.mem stackVa 2 (k₁.procs p).pagetable with
      | none =>
          rw [hlookup] at hfork
          exact ⟨pid, pm₁, ledger₂, hfilled, .inl hfork⟩
      | some leaf =>
          rw [hlookup] at hfork
          dsimp only [Option.map_some, panics, Except.mapError] at hfork
          split at hfork
          · exact ⟨pid, pm₁, ledger₂, hfilled, .inl hfork⟩
          rename_i hflags
          have hflags : entry pm₁.mem leaf (idx 0 stackVa) &&& (pteV ||| pteU) = pteV ||| pteU :=
            not_not.mp hflags
          have hread : readPte ((k₁.setPm pm₁).setPm pm₁).pm.mem (leaf + 8 * idx 0 stackVa) =
              entry pm₁.mem leaf (idx 0 stackVa) := rfl
          rw [hread] at hfork
          cases hlist : pm₁.freelist with
          | nil =>
              rw [show kpmalloc ((k₁.setPm pm₁).setPm pm₁).pm = (none, pm₁) by
                rw [kpmalloc, show ((k₁.setPm pm₁).setPm pm₁).pm.freelist = [] from hlist]
                rfl] at hfork
              exact ⟨pid, pm₁, ledger₂, hfilled, .inl hfork⟩
          | cons page rest =>
              rw [show kpmalloc ((k₁.setPm pm₁).setPm pm₁).pm =
                  (some page, ⟨fill pm₁.mem page 5 pgSize, rest⟩) by
                rw [kpmalloc, show ((k₁.setPm pm₁).setPm pm₁).pm.freelist = page :: rest from hlist]
                rfl] at hfork
              dsimp only at hfork
              obtain ⟨hstack, hstackUser, hgood, hcontent⟩ :=
                hfilled.parentStack hdeparted huser hne hlookup hflags hlist
              have hmask : pteR ||| pteW ||| pteX ||| pteU = permMask := rfl
              rw [hmask] at hfork
              generalize hpa : pte2pa (entry pm₁.mem leaf (idx 0 stackVa)) = pa at *
              generalize hfl : pteFlags (entry pm₁.mem leaf (idx 0 stackVa)) = flags at *
              cases hmap : mappagesInto ⟨blit (fill pm₁.mem page 5 pgSize) page
                  (fun i => fill pm₁.mem page 5 pgSize (pa + i)) pgSize, rest⟩
                (k₁.procs np).pagetable stackVa page pgSize (flags &&& permMask) with
              | error stop =>
                  rw [hmap] at hfork
                  cases hfork
              | ok result =>
                  obtain ⟨ret₃, pm₃⟩ := result
                  rw [hmap] at hfork
                  dsimp only at hfork
                  have hfill : ∀ x, pgRoundDown x ≠ page → blit (fill pm₁.mem page 5 pgSize) page
                      (fun i => fill pm₁.mem page 5 pgSize (pa + i)) pgSize x = pm₁.mem x := by
                    intro x hx
                    rw [blit, if_neg, fill_apply_of_out]
                    all_goals
                      simp only [pgRoundDown, pgSize] at *
                      omega
                  obtain ⟨htable, hresult⟩ := hfilled.departed.stackPage hlist hfill
                    (permMask_lt flags) (permMask_user hstackUser) hmap
                  obtain ⟨rfl, ⟨ledger₃, hfilled₃⟩, htranslate₃, hcell₃, hkept₃⟩ |
                    ⟨rfl, pm₄, ledger₃, hgive, hfilled₃⟩ := hresult
                  · rw [if_neg (by decide)] at hfork
                    refine ⟨pid, pm₃, ledger₃, hfilled.trans hfilled₃, .inr ⟨hfork, ?_⟩⟩
                    obtain ⟨habove, hsub, hcopied⟩ := hcopied htable
                    obtain ⟨-, hcopied⟩ := hcopied.resolve_right fun heq => hret (by omega)
                    refine .of_copied hcopied (hmade.fresh htable) habove hstack hstackUser
                      (hsub page (by rw [hlist]; exact List.mem_cons_self)) hgood htranslate₃
                      (fun i hi => ?_) hkept₃
                    rw [hcell₃ _ (pgRoundDown_add hgood hi), blit, if_pos (by omega),
                      Nat.add_sub_cancel_left]
                    exact hcontent i hi
                  · rw [if_pos (by decide), hgive] at hfork
                    exact ⟨pid, pm₄, ledger₃, hfilled.trans hfilled₃, .inl hfork⟩

end Fill

/-! ## The end of `fork` -/

section Finish

variable {image : Image} {k k' : Kernel} {ledger : Ledger} {p np : ℕ}

/-- The loop that copies open files takes pages for file structures. -/
theorem Keeps.copyFiles (files : List ℕ) (hkeeps : Keeps image k ledger)
    (hcopy : copyFiles np files k = .ok k') :
    ∃ ledger', Keeps image k' ledger' ∧ ledger'.users = ledger.users ∧
      ledger'.transit = ledger.transit ∧ k'.processList = k.processList ∧
      Spares {.slab} ledger.owner ledger'.owner k.pm.mem k'.pm.mem := by
  induction files generalizing k ledger with
  | nil =>
      obtain rfl := Except.ok.inj hcopy
      exact ⟨ledger, hkeeps, rfl, rfl, rfl, .refl _ _ _⟩
  | cons f rest ih =>
      rw [Process.copyFiles] at hcopy
      obtain ⟨⟨bp, k₁⟩, hkalloc, hcopy⟩ := bind_eq_ok hcopy
      obtain ⟨ledger₁, hkeep₁, husers₁, htransit₁, hspares₁, cache, pm, honly⟩ :=
        hkeeps.kallocFile hkalloc
      have hnext : ∀ k₂ : Kernel, k₂.pm = k₁.pm → SameProcs Set.univ k₁ k₂ →
          Process.copyFiles np rest k₂ = .ok k' →
          ∃ ledger', Keeps image k' ledger' ∧ ledger'.users = ledger.users ∧
            ledger'.transit = ledger.transit ∧ k'.processList = k.processList ∧
            Spares {.slab} ledger.owner ledger'.owner k.pm.mem k'.pm.mem := by
        intro k₂ hpm₂ hsame₂ hcopy₂
        obtain ⟨ledger', hkeep', husers', htransit', hlist', hspares'⟩ :=
          ih (hkeep₁.congr hpm₂ (hsame₂.mono (Set.subset_univ _))) hcopy₂
        rw [hpm₂] at hspares'
        have hlist₁ : k₁.processList = k.processList := by rw [honly]
        exact ⟨ledger', hkeep', husers'.trans husers₁, htransit'.trans htransit₁,
          hlist'.trans (hsame₂.list.trans hlist₁), hspares₁.trans hspares'⟩
      cases bp with
      | none => cases hcopy
      | some nf =>
          dsimp only at hcopy
          split at hcopy
          · refine hnext _ (by rfl) ?_ hcopy
            refine SameProcs.setProc ?_ np fun proc => ⟨rfl, rfl, rfl, rfl, id⟩
            exact ⟨rfl, rfl, rfl, rfl, fun q _ => .refl _⟩
          · refine hnext _ (by rfl) ?_ hcopy
            refine SameProcs.setProc ?_ np fun proc => ⟨rfl, rfl, rfl, rfl, id⟩
            exact ⟨rfl, rfl, rfl, rfl, fun q _ => .refl _⟩

/-- The end of `fork`, with the child on the list. -/
theorem Keeps.forkFinish {ret : ℤ} (hkeeps : Keeps image k ledger) (hnp : np ∈ k.processList)
    (hfinish : forkFinish k p np = .ok (ret, k')) :
    ∃ ledger', Keeps image k' ledger' ∧ ledger'.users = ledger.users ∧
      ledger'.transit = ledger.transit ∧ k'.processList = k.processList := by
  obtain ⟨pid, -, -, -, hhas⟩ := hkeeps.kstacks.body np hnp
  have hframe := hhas.trapframe
  have haligned := (hkeeps.shared.good (k.procs np).trapframe (by
    rw [hframe]
    exact fun heq => by cases heq)).aligned
  have hwrite : ∀ x, ledger.owner (pgRoundDown x) ≠ .party (.body np) →
      store (blit k.pm.mem (k.procs np).trapframe
        (fun i => k.pm.mem ((k.procs p).trapframe + i)) trapframeSize)
        ((k.procs np).trapframe + trapframeA0) 8 0 x = k.pm.mem x := by
    intro x hx
    have hne : pgRoundDown x ≠ (k.procs np).trapframe := fun heq => hx (heq ▸ hframe)
    have hout : x < (k.procs np).trapframe ∨ (k.procs np).trapframe + pgSize ≤ x := by
      simp only [pgRoundDown, pgSize] at *
      omega
    rw [store_apply_of_out, blit, if_neg]
    all_goals
      simp only [trapframeSize, trapframeA0, pgSize] at *
      omega
  have hkeep₁ := hkeeps.write hwrite
  rw [Process.forkFinish] at hfinish
  obtain ⟨k₂, hcopy, hfinish⟩ := bind_eq_ok hfinish
  obtain ⟨-, rfl⟩ := Prod.mk.inj (Except.ok.inj hfinish)
  have hbounds : ∀ proc : Proc, SameBody proc { proc with
      heapStart := (k.procs p).heapStart
      heapEnd := (k.procs p).heapEnd
      fileList := [] } := fun proc => ⟨rfl, rfl, rfl, rfl, id⟩
  have hkeep₂ := hkeep₁.congr (by rfl) (SameProcs.setProc (.refl _ _) np hbounds)
  obtain ⟨ledger', hkeep', husers, htransit, hlist, -⟩ := hkeep₂.copyFiles _ hcopy
  refine ⟨ledger', hkeep'.congr (by rfl) (SameProcs.setProc (.refl _ _) np fun proc => ?_), husers,
    htransit, hlist⟩
  exact ⟨rfl, rfl, rfl, rfl, fun heq => by cases heq⟩

theorem Gone.settled {image : Image} {k k' : Kernel} {p : ℕ} {ledger ledger' : Ledger}
    (hgone : Gone image { k with processList := k.processList.erase p } k' p ledger ledger')
    (hnodup : k.processList.Nodup) (husers : ∀ q ∈ ledger.users, q ∈ k.processList) :
    Settled k' ledger' := by
  refine ⟨hgone.transit, fun q hq => ?_⟩
  obtain ⟨hold, hne⟩ := hgone.users q hq
  rw [hgone.list]
  exact hnodup.mem_erase_iff.mpr ⟨hne, husers q hold⟩

/-- `fork` keeps a ledger, whether it succeeds or not. -/
theorem Keeps.fork {ret : ℤ} (hsymbols : image.Ok) (hkeeps : Keeps image k ledger)
    (hsettled : Settled k ledger) (hp : p ∈ k.processList)
    (hfork : fork image k p = .ok (ret, k')) :
    ∃ ledger', Keeps image k' ledger' ∧ Settled k' ledger' := by
  cases hcreate : Process.processCreate image k p with
  | error stop =>
      rw [Process.fork, hcreate] at hfork
      cases hfork
  | ok result =>
      obtain ⟨np, k₁⟩ := result
      obtain ⟨ledger₁, ⟨rfl, hkeep₁, hsettled₁, -⟩ | ⟨hne, hmade, -⟩⟩ :=
        hkeeps.processCreate hsymbols hsettled hcreate
      · rw [Process.fork, hcreate] at hfork
        obtain ⟨-, rfl⟩ := Prod.mk.inj (Except.ok.inj hfork)
        exact ⟨ledger₁, hkeep₁, hsettled₁⟩
      · obtain ⟨pid, pm, ledger₂, hfilled, hbad | ⟨hfinish, -⟩⟩ :=
          hmade.fork_cases hcreate hne hp hfork
        · obtain ⟨-, ledger', hgone⟩ := @Departed.forkBad _ (k₁.setPm pm) _ _ _ _ _
            hsymbols hfilled.departed hbad
          refine ⟨ledger', hgone.keeps, @Gone.settled _ (k₁.setPm pm) _ _ _ _ hgone
            hmade.keeps.structures.nodup ?_⟩
          rw [hfilled.users]
          exact hmade.settled.users
        · have hchild : np ∈ k₁.processList := by
            rw [hmade.list]
            exact List.mem_append_right _ (List.mem_singleton_self np)
          have harrive : Keeps image (k₁.setPm pm) { ledger₂ with transit := ∅ } := by
            refine hfilled.departed.arrive (fun q => ?_) hmade.keeps.structures.nodup
              (hmade.keeps.spaces.ended np hchild)
            by_cases hq : q = np
            · exact iff_of_true (hq ▸ hchild) (.inl hq)
            · rw [or_iff_right hq]
              exact (List.mem_erase_of_ne hq).symm
          obtain ⟨ledger', hkeep', husers', htransit', hlist'⟩ := harrive.forkFinish hchild hfinish
          refine ⟨ledger', hkeep', htransit', fun q hq => ?_⟩
          rw [hlist']
          rw [husers'] at hq
          exact hmade.settled.users q (hfilled.users ▸ hq)

end Finish

/-! ## `process_exit` -/

section Exit

variable {image : Image} {k k' : Kernel} {ledger : Ledger} {p : ℕ}

/-- Closing files changes only tables of files. -/
theorem closeFiles_same (files : List ℕ) (hclose : closeFiles image p files k = .ok k') :
    k'.pm = k.pm ∧ SameProcs Set.univ k k' := by
  induction files generalizing k with
  | nil =>
      obtain rfl := Except.ok.inj hclose
      exact ⟨rfl, .refl _ _⟩
  | cons f rest ih =>
      rw [closeFiles] at hclose
      obtain ⟨k₁, hkfree, hclose⟩ := bind_eq_ok hclose
      rw [Kernel.kfreeFile] at hkfree
      obtain ⟨cache, -, hkfree⟩ := bind_eq_ok hkfree
      obtain rfl := Except.ok.inj hkfree
      obtain ⟨hpm, hsame⟩ := ih hclose
      have hhead : SameProcs Set.univ k (k.setProc p fun proc => { proc with fileList := rest }) :=
        SameProcs.setProc (.refl _ _) p fun proc => ⟨rfl, rfl, rfl, rfl, id⟩
      refine ⟨hpm, SameProcs.trans ?_ hsame⟩
      exact ⟨hhead.list, hhead.pids, hhead.table, hhead.cache, hhead.procs⟩

/-- The user table is given back and the process has ended. -/
theorem Keeps.endProcess {state : ℕ} (hkeeps : Keeps image k ledger) (hsettled : Settled k ledger)
    (hp : p ∈ k.processList) (hend : (do
      let k ←
        if (k.procs p).pagetable ≠ 0 then do
          let pm ← panics (freeUserPagetable image.kernelEnd k.pm (k.procs p).pagetable)
          .ok ((k.setPm pm).setProc p fun proc => { proc with pagetable := 0 })
        else .ok k
      .ok (k.setProc p fun proc => { proc with exitState := state, status := .zimbie })) =
        .ok k') :
    ∃ ledger', Keeps image k' ledger' ∧ Settled k' ledger' := by
  obtain ⟨pid, hdeparted⟩ := hkeeps.departed hsettled hp
  obtain ⟨pm, ledger₁, hdrop, hkeep₁, husers₁, htransit₁, hslabs₁, hspares₁, -⟩ :=
    hdeparted.keeps.dropSpace hdeparted.new hdeparted.user
  have hgone : p ∉ ledger₁.users := by
    rw [husers₁]
    exact fun h => h.2 rfl
  -- the kernel with the process off the list
  let away : Kernel := ({ k with processList := k.processList.erase p }.setPm pm).setProc p
    fun proc => { proc with pagetable := 0, exitState := state, status := .zimbie }
  have hresult : k' = { away with processList := k.processList } := by
    by_cases hroot : (k.procs p).pagetable ≠ 0
    · rw [if_pos hroot] at hend hdrop
      rw [show panics (freeUserPagetable image.kernelEnd k.pm (k.procs p).pagetable) = .ok pm
        from hdrop] at hend
      obtain rfl := Except.ok.inj hend
      simp [away, Kernel.setProc, Kernel.setPm]
    · rw [if_neg hroot] at hend hdrop
      obtain rfl := Except.ok.inj hdrop
      obtain rfl := Except.ok.inj hend
      have hzero : (k.procs p).pagetable = 0 := not_not.mp hroot
      simp [away, Kernel.setProc, Kernel.setPm, hzero.symm]
  have hkeep₂ : Keeps image away ledger₁ := hkeep₁.setProc hdeparted.new hgone _
  have hproc : away.procs p = { k.procs p with
      pagetable := 0
      exitState := state
      status := .zimbie } := Kernel.setProc_self _ _ _
  have hmaps := hdeparted.keeps.shared.translate_spared hspares₁ (Ledger.kernel_mem _)
    (fun heq => by cases heq)
  have howner := hspares₁.pages (.body p) (fun heq => by cases heq)
  obtain ⟨frame, hframe, howned, hne⟩ := hdeparted.has.stack
  have hhas : HasBody away ledger₁.owner p pid := by
    refine ⟨?_, ?_, ?_, frame, (hmaps _).trans hframe, (howner frame).mpr howned, ?_⟩
    all_goals rw [hproc]
    · exact hdeparted.has.number
    · exact hdeparted.has.kstack
    · exact (howner _).mpr hdeparted.has.trapframe
    · exact hne
  have hback : Departed image away p pid ledger₁ := by
    refine ⟨hkeep₂, hdeparted.new, hdeparted.small, htransit₁.trans hdeparted.transit, hhas,
      hslabs₁ ▸ hdeparted.live, ?_, hdeparted.marked⟩
    rw [hproc]
    exact iff_of_false hgone fun h => h rfl
  have hlist : ∀ q, q ∈ k.processList ↔ q = p ∨ q ∈ away.processList := by
    intro q
    by_cases hq : q = p
    · exact iff_of_true (hq ▸ hp) (.inl hq)
    · rw [or_iff_right hq]
      exact (List.mem_erase_of_ne hq).symm
  have harrive := hback.arrive hlist hkeeps.structures.nodup (by
    rw [hproc]
    exact fun _ => rfl)
  rw [hresult]
  refine ⟨_, harrive, rfl, fun q hq => ?_⟩
  rw [husers₁] at hq
  exact hsettled.users q hq.1

/-- `process_exit` keeps a ledger. -/
theorem Keeps.processExit {state : ℕ} (hkeeps : Keeps image k ledger) (hsettled : Settled k ledger)
    (hp : p ∈ k.processList) (hexit : processExit image k p state = .ok k') :
    ∃ ledger', Keeps image k' ledger' ∧ Settled k' ledger' := by
  rw [Process.processExit] at hexit
  obtain ⟨k₁, hclose, hexit⟩ := bind_eq_ok hexit
  obtain ⟨hpm₁, hsame₁⟩ := closeFiles_same _ hclose
  have hkeep₁ := hkeeps.congr hpm₁ (hsame₁.mono (Set.subset_univ _))
  have hsettled₁ : Settled k₁ ledger := ⟨hsettled.pids, hsame₁.list ▸ hsettled.users⟩
  have hp₁ : p ∈ k₁.processList := hsame₁.list ▸ hp
  dsimp only at hexit
  split at hexit
  · obtain ⟨k₂, hcwd, hexit⟩ := bind_eq_ok hexit
    rw [Kernel.kfreeFile] at hcwd
    obtain ⟨cache, -, hcwd⟩ := bind_eq_ok hcwd
    obtain rfl := Except.ok.inj hcwd
    have hsame : SameProcs Set.univ k₁ ({ fileClose k₁ (k₁.files (k₁.procs p).cwd).dirent with
        fileCache := cache }.setProc p fun proc => { proc with cwd := 0 }) := by
      refine SameProcs.setProc ?_ p fun proc => ⟨rfl, rfl, rfl, rfl, id⟩
      exact ⟨rfl, rfl, rfl, rfl, fun _ _ => .refl _⟩
    have hkeep₂ := hkeep₁.congr (by rfl) (hsame.mono (Set.subset_univ _))
    exact hkeep₂.endProcess ⟨hsettled₁.pids, hsettled₁.users⟩ hp₁ hexit
  · exact hkeep₁.endProcess hsettled₁ hp₁ hexit

end Exit

/-! ## `process_wait` -/

/-- `process_wait` keeps a ledger. -/
theorem Keeps.processWait {image : Image} {k k' : Kernel} {ledger : Ledger} {p : ℕ} {pid : ℤ}
    {ret : Option ℤ} (hsymbols : image.Ok) (hkeeps : Keeps image k ledger)
    (hsettled : Settled k ledger) (hwait : processWait image k p pid = .ok (ret, k')) :
    ∃ ledger', Keeps image k' ledger' ∧ Settled k' ledger' := by
  rw [Process.processWait] at hwait
  dsimp only at hwait
  split at hwait
  · rename_i child hfind
    have hended := List.find?_some hfind
    have hchild := (List.mem_filter.mp (List.mem_of_find?_eq_some hfind)).1
    cases hreap : reap image k child with
    | error stop =>
        rw [hreap] at hwait
        cases hwait
    | ok result =>
        obtain ⟨number, k₁⟩ := result
        rw [hreap] at hwait
        obtain ⟨-, rfl⟩ := Prod.mk.inj (Except.ok.inj hwait)
        obtain ⟨pid', hdeparted⟩ := hkeeps.departed hsettled hchild
        have hroot := hkeeps.spaces.ended child hchild (of_decide_eq_true hended)
        obtain ⟨-, ledger', hgone⟩ := hdeparted.reap hsymbols hroot hreap
        exact ⟨ledger', hgone.keeps, hgone.settled hkeeps.structures.nodup hsettled.users⟩
  · obtain ⟨-, rfl⟩ := Prod.mk.inj (Except.ok.inj hwait)
    exact ⟨ledger, hkeeps, hsettled⟩

end Painting.Process
