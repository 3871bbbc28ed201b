import Painting.Mm.FlatCopy
import Painting.Proc.Families
import Painting.Sys.Sbrk

/-!
# Isolation

Processes make and destroy processes, move the ends of their heaps and store to their memory, in any
order.  No page that a process can reach is reached by another one or serves the kernel, and what a
process does is not seen by the others.
-/

namespace Painting.Isolation

open Painting.Memory Painting.PageTable
open Painting.Process
open Painting.Transition

/-! ## What a process sees -/

/-- The user address `va` of the process `p`. -/
def Sees (k : Kernel) (p va pa flags : ℕ) : Prop :=
  (k.procs p).pagetable ≠ 0 ∧ translate k.pm.mem (k.procs p).pagetable va = some (pa, flags) ∧
    flags &&& pteU ≠ 0

/-- The user pages of the processes on the list are apart from one another, and from what the kernel
uses. -/
structure Isolated (k : Kernel) : Prop where
  apart : ∀ p ∈ k.processList, ∀ q ∈ k.processList, p ≠ q → ∀ va pa flags va' pa' flags',
    Sees k p va pa flags → Sees k q va' pa' flags' → pgRoundDown pa ≠ pgRoundDown pa'
  once : ∀ p ∈ k.processList, ∀ va < maxVa, ∀ va' < maxVa, ∀ pa flags flags',
    Sees k p va pa flags → Sees k p va' pa flags' → va = va'
  free : ∀ p ∈ k.processList, ∀ va pa flags, Sees k p va pa flags →
    pgRoundDown pa ∉ k.pm.freelist
  kernel : ∀ p ∈ k.processList, ∀ va pa flags, Sees k p va pa flags →
    ¬ TablePage k.pm.mem k.kernelPagetable (pgRoundDown pa)
  bodies : ∀ p ∈ k.processList, ∀ va pa flags, Sees k p va pa flags → ∀ q ∈ k.processList,
    ((k.procs q).pagetable ≠ 0 →
      ¬ TablePage k.pm.mem (k.procs q).pagetable (pgRoundDown pa)) ∧
    pgRoundDown pa ≠ (k.procs q).trapframe ∧
    ∀ frame flags', translate k.pm.mem k.kernelPagetable (k.procs q).kstack = some (frame, flags') →
      pgRoundDown pa ≠ frame

/-- The process `q` sees what it saw, and its trapframe holds what it held. -/
structure SameView (k k' : Kernel) (q : ℕ) : Prop where
  pagetable : (k'.procs q).pagetable = (k.procs q).pagetable
  sees : ∀ va pa flags, Sees k' q va pa flags ↔ Sees k q va pa flags
  bytes : ∀ va pa flags, Sees k q va pa flags → k'.pm.mem pa = k.pm.mem pa
  trapframe : (k'.procs q).trapframe = (k.procs q).trapframe ∧
    ∀ i < pgSize, k'.pm.mem ((k.procs q).trapframe + i) = k.pm.mem ((k.procs q).trapframe + i)

section Ledger

variable {image : Image} {k k' : Kernel} {ledger : Ledger} {p q : ℕ}

theorem Sees.user (hkeeps : Keeps image k ledger) (hp : p ∈ k.processList) {va pa flags : ℕ}
    (hsees : Sees k p va pa flags) : Party.space p ∈ ledger.holders :=
  (hkeeps.spaces.user p hp).mpr hsees.1

theorem Sees.frame (hkeeps : Keeps image k ledger) (hp : p ∈ k.processList) {va pa flags : ℕ}
    (hsees : Sees k p va pa flags) :
    Frame k.pm.mem (ledger.tables (.space p)) (pgRoundDown pa) := by
  have hown := hkeeps.shared.owned _ (hsees.user hkeeps hp)
  obtain ⟨leaf, -, rfl, -, hleaf⟩ := hown.tree.userLeaf hsees.2.1 hsees.2.2
  rw [pgRoundDown_add (pte2pa_aligned _) (Nat.mod_lt _ (by decide))]
  exact ⟨_, hleaf⟩

/-- The page of a user address belongs to the process. -/
theorem Sees.owner (hkeeps : Keeps image k ledger) (hp : p ∈ k.processList) {va pa flags : ℕ}
    (hsees : Sees k p va pa flags) : ledger.owner (pgRoundDown pa) = .party (.space p) :=
  hkeeps.shared.frame_owner (hsees.user hkeeps hp) (hsees.frame hkeeps hp)

theorem isolated_of_keeps (hkeeps : Keeps image k ledger) : Isolated k := by
  refine ⟨fun p hp q hq hne va pa flags va' pa' flags' hsees hsees' heq => ?_,
    fun p hp va hva va' hva' pa flags flags' hsees hsees' => ?_,
    fun p hp va pa flags hsees hfree => ?_, fun p hp va pa flags hsees htable => ?_,
    fun p hp va pa flags hsees q hq => ⟨fun hroot htable => ?_, fun heq => ?_,
      fun frame flags' hframe heq => ?_⟩⟩
  all_goals have howner := hsees.owner hkeeps hp
  · have howner' := hsees'.owner hkeeps hq
    rw [← heq, howner] at howner'
    exact hne (Party.space.inj (Owner.party.inj howner'))
  · have hown := hkeeps.shared.owned _ (hsees.user hkeeps hp)
    exact hown.mappedOnce va va' pa flags flags' hva hva' hsees.2.1 hsees.2.2 hsees'.2.1 hsees'.2.2
  · rw [hkeeps.shared.free] at hfree
    rw [hfree] at howner
    cases howner
  · have htree : WellFormed k.pm.mem k.kernelPagetable (ledger.tables .kernel) :=
      (hkeeps.shared.owned .kernel ledger.kernel_mem).tree
    rw [hkeeps.shared.table_owner ledger.kernel_mem (htree.tablePage_iff.mp htable)] at howner
    cases howner
  · have hholder : Party.space q ∈ ledger.holders := (hkeeps.spaces.user q hq).mpr hroot
    have htree : WellFormed k.pm.mem (k.procs q).pagetable (ledger.tables (.space q)) :=
      (hkeeps.shared.owned _ hholder).tree
    have htable := htree.tablePage_iff.mp htable
    have howner' := hkeeps.shared.table_owner hholder htable
    rw [howner] at howner'
    obtain rfl : p = q := Party.space.inj (Owner.party.inj howner')
    exact (hkeeps.shared.owned _ hholder).frameTable _ (hsees.frame hkeeps hp) htable
  · obtain ⟨pid, -, -, -, hhas⟩ := hkeeps.kstacks.body q hq
    rw [heq, hhas.trapframe] at howner
    cases howner
  · obtain ⟨pid, -, -, -, hhas⟩ := hkeeps.kstacks.body q hq
    obtain ⟨page, hpage, howned, -⟩ := hhas.stack
    rw [hhas.kstack, hpage] at hframe
    obtain ⟨rfl, -⟩ := Prod.mk.inj (Option.some.inj hframe)
    rw [heq, howned] at howner
    cases howner

/-- A process sees what it saw after steps of other parties. -/
theorem sameView_of_spares (hkeeps : Keeps image k ledger) (hq : q ∈ k.processList)
    {acting : Set Party} {owner' : ℕ → Owner Party}
    (hspares : Spares acting ledger.owner owner' k.pm.mem k'.pm.mem)
    (hspace : .space q ∉ acting) (hbody : .body q ∉ acting)
    (hpagetable : (k'.procs q).pagetable = (k.procs q).pagetable)
    (htrapframe : (k'.procs q).trapframe = (k.procs q).trapframe) : SameView k k' q := by
  refine ⟨hpagetable, fun va pa flags => ?_, fun va pa flags hsees => ?_, htrapframe, fun i hi => ?_⟩
  · rw [Sees, Sees, hpagetable]
    refine and_congr_right fun hroot => ?_
    have hholder : Party.space q ∈ ledger.holders := (hkeeps.spaces.user q hq).mpr hroot
    have hsame : translate k'.pm.mem (k.procs q).pagetable va =
        translate k.pm.mem (k.procs q).pagetable va :=
      hkeeps.shared.translate_spared hspares hholder hspace va
    rw [hsame]
  · exact hspares.same _ hspace _ (hsees.owner hkeeps hq)
  · obtain ⟨pid, -, -, -, hhas⟩ := hkeeps.kstacks.body q hq
    have hgood := hkeeps.shared.good (k.procs q).trapframe (by
      rw [hhas.trapframe]
      exact fun heq => by cases heq)
    refine hspares.same _ hbody _ ?_
    rw [pgRoundDown_add hgood.aligned hi]
    exact hhas.trapframe

/-! ## Whose pages a call changes -/

/-- The parties of the process `np` spare the processes on the list. -/
theorem actors_spare {np : ℕ} {list : List ℕ} (hnp : np ∉ list) (hq : q ∈ list) :
    .space q ∉ Party.actors np ∧ .body q ∉ Party.actors np := by
  have hne : q ≠ np := fun heq => hnp (heq ▸ hq)
  simp [Party.actors, hne]

theorem create_spares {cur np : ℕ} (hsymbols : image.Ok) (hkeeps : Keeps image k ledger)
    (hsettled : Settled k ledger) (hcreate : processCreate image k cur = .ok (np, k')) :
    np ∉ k.processList ∧ ∃ owner',
      Spares (Party.actors np) ledger.owner owner' k.pm.mem k'.pm.mem := by
  obtain ⟨ledger', ⟨rfl, -⟩ | ⟨-, hmade, -⟩⟩ := hkeeps.processCreate hsymbols hsettled hcreate
  · refine ⟨fun hin => hkeeps.ne_zero hin rfl, ?_⟩
    cases hkalloc : k.kallocProc with
    | error stop =>
        rw [processCreate, hkalloc] at hcreate
        cases hcreate
    | ok result =>
        obtain ⟨bp, k₁⟩ := result
        obtain ⟨p, ledger₁, rfl, hfresh⟩ := hkeeps.kallocProc hkalloc
        rw [processCreate_eq hkalloc] at hcreate
        have hun := object_unaligned hfresh.keeps.structures.slab hfresh.live
        have hslab := hfresh.spares.mono (show {.slab} ⊆ Party.actors 0 from fun party hparty =>
          .inr (.inl hparty))
        refine ⟨ledger₁.owner, ?_⟩
        rcases hlist : k₁.pm.freelist with _ | ⟨trapframe, _ | ⟨kstack, rest⟩⟩
        · rw [createWith_nil hlist] at hcreate
          obtain ⟨k₂, hkfree, hcreate⟩ := bind_eq_ok hcreate
          obtain ⟨-, rfl⟩ := Prod.mk.inj (Except.ok.inj hcreate)
          rw [Kernel.kfreeProc] at hkfree
          obtain ⟨cache, -, hkfree⟩ := bind_eq_ok hkfree
          obtain rfl := Except.ok.inj hkfree
          exact hslab
        · rw [createWith_one hlist hun] at hcreate
          cases hcreate
        · have hprocs : k₁.processList = k.processList := by
            obtain ⟨cache, pm, honly⟩ := hfresh.only
            rw [honly]
          obtain ⟨rfl, -⟩ := hfresh.keeps.create_of_pages hsymbols
            (hfresh.transit.trans hsettled.pids) (hprocs ▸ hfresh.new)
            (fun h => hfresh.new (hsettled.users p (hfresh.users ▸ h))) hun hfresh.live hlist hcreate
          exact absurd rfl hun
  · exact ⟨hmade.new, ledger'.owner, hmade.spares⟩

theorem forkFinish_spares {np : ℕ} {ret : ℤ} (hkeeps : Keeps image k ledger)
    (hnp : np ∈ k.processList) (hfinish : forkFinish k p np = .ok (ret, k')) :
    ∃ owner', Spares (Party.actors np) ledger.owner owner' k.pm.mem k'.pm.mem := by
  obtain ⟨pid, -, -, -, hhas⟩ := hkeeps.kstacks.body np hnp
  have hframe := hhas.trapframe
  have haligned := (hkeeps.shared.good (k.procs np).trapframe (by
    rw [hframe]
    exact fun heq => by cases heq)).aligned
  have hwrite : ∀ x, ledger.owner (pgRoundDown x) ≠ .party (.body np) →
      store (blit k.pm.mem (k.procs np).trapframe
        (fun i => k.pm.mem ((k.procs p).trapframe + i)) trapframeSize)
        ((k.procs np).trapframe + trapframeA0) 8 0 x = k.pm.mem x := by
    intro x hx
    have hne : pgRoundDown x ≠ (k.procs np).trapframe := fun heq => hx (heq ▸ hframe)
    rw [store_apply_of_out, blit, if_neg]
    all_goals
      simp only [trapframeSize, trapframeA0, pgRoundDown, pgSize] at *
      omega
  have hkeep₁ := hkeeps.write hwrite
  rw [forkFinish] at hfinish
  obtain ⟨k₂, hcopy, hfinish⟩ := bind_eq_ok hfinish
  obtain ⟨-, rfl⟩ := Prod.mk.inj (Except.ok.inj hfinish)
  have hbounds : ∀ proc : Proc, SameBody proc { proc with
      heapStart := (k.procs p).heapStart
      heapEnd := (k.procs p).heapEnd
      fileList := [] } := fun proc => ⟨rfl, rfl, rfl, rfl, id⟩
  have hkeep₂ := hkeep₁.congr (by rfl) (SameProcs.setProc (.refl _ _) np hbounds)
  obtain ⟨ledger', -, -, -, -, hspares⟩ := hkeep₂.copyFiles _ hcopy
  refine ⟨ledger'.owner, Spares.trans ?_ (hspares.mono fun party hparty => .inr (.inl hparty))⟩
  refine ⟨fun _ => Iff.rfl, fun _ _ _ => Iff.rfl, fun other hother x hx => hwrite x ?_⟩
  rw [hx]
  rintro heq
  exact hother (Owner.party.inj heq ▸ .inr (.inr (.inl rfl)))

/-- `fork` changes pages of the child, and of the kernel. -/
theorem fork_spares {ret : ℤ} (hsymbols : image.Ok) (hkeeps : Keeps image k ledger)
    (hsettled : Settled k ledger) (hp : p ∈ k.processList)
    (hfork : fork image k p = .ok (ret, k')) :
    ∃ np owner', np ∉ k.processList ∧
      Spares (Party.actors np) ledger.owner owner' k.pm.mem k'.pm.mem := by
  cases hcreate : processCreate image k p with
  | error stop =>
      rw [fork, hcreate] at hfork
      cases hfork
  | ok result =>
      obtain ⟨np, k₁⟩ := result
      obtain ⟨hnew, owner', hspares⟩ := create_spares hsymbols hkeeps hsettled hcreate
      obtain ⟨ledger₁, ⟨rfl, -⟩ | ⟨hne, hmade, -⟩⟩ :=
        hkeeps.processCreate hsymbols hsettled hcreate
      · rw [fork, hcreate] at hfork
        obtain ⟨-, rfl⟩ := Prod.mk.inj (Except.ok.inj hfork)
        exact ⟨0, owner', hnew, hspares⟩
      · obtain ⟨pid, pm, ledger₂, hfilled, hend⟩ := hmade.fork_cases hcreate hne hp hfork
        have hfill : Spares (Party.actors np) ledger.owner ledger₂.owner k.pm.mem pm.mem :=
          hmade.spares.trans (hfilled.spares.mono fun party hparty => .inr (.inr (.inr hparty)))
        obtain hbad | ⟨hfinish, -⟩ := hend
        · obtain ⟨-, ledger', hgone⟩ := @Departed.forkBad _ (k₁.setPm pm) _ _ _ _ _
            hsymbols hfilled.departed hbad
          exact ⟨np, ledger'.owner, hnew, hfill.trans hgone.spares⟩
        · have hchild : np ∈ k₁.processList := by
            rw [hmade.list]
            exact List.mem_append_right _ (List.mem_singleton_self np)
          have harrive : Keeps image (k₁.setPm pm) { ledger₂ with transit := ∅ } := by
            refine hfilled.departed.arrive (fun q => ?_) hmade.keeps.structures.nodup
              (hmade.keeps.spaces.ended np hchild)
            by_cases hq : q = np
            · exact iff_of_true (hq ▸ hchild) (.inl hq)
            · rw [or_iff_right hq]
              exact (List.mem_erase_of_ne hq).symm
          obtain ⟨owner'', hspares'⟩ := forkFinish_spares harrive hchild hfinish
          exact ⟨np, owner'', hnew, hfill.trans hspares'⟩

/-- `process_exit` changes pages when it frees the page table. -/
theorem processExit_pm {state : ℕ} (hexit : processExit image k p state = .ok k') :
    ∃ k₁, k₁.pm = k.pm ∧ SameProcs Set.univ k k₁ ∧
      (if (k₁.procs p).pagetable ≠ 0 then
        panics (freeUserPagetable image.kernelEnd k₁.pm (k₁.procs p).pagetable)
      else .ok k₁.pm) = .ok k'.pm := by
  rw [processExit] at hexit
  obtain ⟨k₁, hclose, hexit⟩ := bind_eq_ok hexit
  obtain ⟨hpm, hsame⟩ := closeFiles_same _ hclose
  dsimp only at hexit
  have hend : ∀ {k₂ : Kernel}, (do
      let k ←
        if (k₂.procs p).pagetable ≠ 0 then do
          let pm ← panics (freeUserPagetable image.kernelEnd k₂.pm (k₂.procs p).pagetable)
          .ok ((k₂.setPm pm).setProc p fun proc => { proc with pagetable := 0 })
        else .ok k₂
      .ok (k.setProc p fun proc => { proc with exitState := state, status := .zimbie })) = .ok k' →
      (if (k₂.procs p).pagetable ≠ 0 then
        panics (freeUserPagetable image.kernelEnd k₂.pm (k₂.procs p).pagetable)
      else .ok k₂.pm) = .ok k'.pm := by
    intro k₂ hend
    split at hend
    · rename_i hroot
      obtain ⟨pm, hfree, hend⟩ := bind_eq_ok hend
      obtain rfl := Except.ok.inj hend
      rw [if_pos hroot, hfree]
      rfl
    · rename_i hroot
      obtain rfl := Except.ok.inj hend
      exact if_neg hroot
  split at hexit
  · obtain ⟨k₂, hcwd, hexit⟩ := bind_eq_ok hexit
    rw [Kernel.kfreeFile] at hcwd
    obtain ⟨cache, -, hcwd⟩ := bind_eq_ok hcwd
    obtain rfl := Except.ok.inj hcwd
    refine ⟨_, ?_, ?_, hend hexit⟩
    · exact hpm
    · refine hsame.trans (SameProcs.setProc ?_ p fun proc => ⟨rfl, rfl, rfl, rfl, id⟩)
      exact ⟨rfl, rfl, rfl, rfl, fun _ _ => .refl _⟩
  · exact ⟨k₁, hpm, hsame, hend hexit⟩

theorem exit_spares {state : ℕ} (hkeeps : Keeps image k ledger) (hsettled : Settled k ledger)
    (hp : p ∈ k.processList) (hexit : processExit image k p state = .ok k') :
    ∃ owner', Spares {.space p} ledger.owner owner' k.pm.mem k'.pm.mem := by
  obtain ⟨k₁, hpm, hsame, hfree⟩ := processExit_pm hexit
  have hkeeps₁ := hkeeps.congr hpm (hsame.mono (Set.subset_univ _))
  have hsettled₁ : Settled k₁ ledger := ⟨hsettled.pids, hsame.list ▸ hsettled.users⟩
  obtain ⟨pid, hdeparted⟩ := hkeeps₁.departed hsettled₁ (hsame.list ▸ hp)
  obtain ⟨pm, ledger', hdrop, -, -, -, -, hspares, -⟩ :=
    hdeparted.keeps.dropSpace hdeparted.new hdeparted.user
  have heq : k'.pm = pm := Except.ok.inj (hfree.symm.trans hdrop)
  have hmem : k₁.pm.mem = k.pm.mem := by rw [hpm]
  refine ⟨ledger'.owner, ?_⟩
  rw [heq, ← hmem]
  exact hspares

/-- `process_wait` changes pages of the child that it finds, which leaves the list. -/
theorem wait_spares {pid : ℤ} {ret : Option ℤ} (hsymbols : image.Ok) (hkeeps : Keeps image k ledger)
    (hsettled : Settled k ledger) (hwait : processWait image k p pid = .ok (ret, k')) :
    ∃ np owner', np ∉ k'.processList ∧
      Spares (Party.actors np) ledger.owner owner' k.pm.mem k'.pm.mem := by
  rw [processWait] at hwait
  dsimp only at hwait
  split at hwait
  · rename_i child hfind
    have hended := List.find?_some hfind
    have hchild := (List.mem_filter.mp (List.mem_of_find?_eq_some hfind)).1
    cases hreap : reap image k child with
    | error stop =>
        rw [hreap] at hwait
        cases hwait
    | ok result =>
        obtain ⟨number, k₁⟩ := result
        rw [hreap] at hwait
        obtain ⟨-, rfl⟩ := Prod.mk.inj (Except.ok.inj hwait)
        obtain ⟨pid', hdeparted⟩ := hkeeps.departed hsettled hchild
        have hroot := hkeeps.spaces.ended child hchild (of_decide_eq_true hended)
        obtain ⟨-, ledger', hgone⟩ := hdeparted.reap hsymbols hroot hreap
        refine ⟨child, ledger'.owner, ?_, hgone.spares⟩
        rw [hgone.list]
        exact hkeeps.structures.nodup.not_mem_erase
  · obtain ⟨-, rfl⟩ := Prod.mk.inj (Except.ok.inj hwait)
    exact ⟨0, ledger.owner, fun hin => hkeeps.ne_zero hin rfl, .refl _ _ _⟩

/-! ## Steps in the memory of a process -/

/-- The user table of a process on the list changes on pages of its own. -/
theorem inOrder_of_moves (hkeeps : Keeps image k ledger) (hsettled : Settled k ledger)
    (hp : p ∈ k.processList) (hroot : (k.procs p).pagetable ≠ 0) {pm : Pm} {set : ℕ → Set ℕ}
    (hmoves : Moves ledger.owner (.space p) k.pm pm)
    (hown : Owned image.kernelEnd (share ledger.owner (.space p)) pm (k.procs p).pagetable set)
    (hpages : KernelPages pm.mem (k.procs p).pagetable image.trampolinePa
      (k.procs p).trapframe) : InOrder image (k.setPm pm) := by
  obtain ⟨pid, hdeparted⟩ := hkeeps.departed hsettled hp
  have huser : p ∈ ledger.users := (hkeeps.spaces.user p hp).mpr hroot
  -- the kernel with the process off the list
  let away : Kernel := { k with processList := k.processList.erase p }
  have hkeep : Keeps image (away.setPm pm)
      (Ledger.after { ledger with transit := {pid} } (.space p) pm.freelist ledger.users set) := by
    refine @Keeps.elsewhere _ _ (away.setPm pm) _ _ _ _ hdeparted.keeps hdeparted.new hmoves
      (.setPm _ away _) (fun _ _ => Iff.rfl) (fun heq => by cases heq) (fun q heq _ => ?_)
      fun q heq hq => ?_
    · cases heq
      exact ⟨hown, hpages⟩
    · cases heq
      exact absurd huser hq
  have hback := hdeparted.move hkeep (.setPm _ away _) (hmoves.spares.mono (by
    rintro party rfl heq
    cases heq)) (fun page howned => (hmoves.owner_other fun heq => by cases heq).mpr howned) rfl rfl
    Iff.rfl
  have harrive : Keeps image (k.setPm pm) _ :=
    hback.arrive (fun q => ?_) hkeeps.structures.nodup (hkeeps.spaces.ended p hp)
  · exact ⟨_, harrive, rfl, hsettled.users⟩
  · by_cases hq : q = p
    · exact iff_of_true (hq ▸ hp) (.inl hq)
    · rw [or_iff_right hq]
      exact (List.mem_erase_of_ne hq).symm

end Ledger

/-! ## Runs -/

inductive Action
  | call (action : Process.Action)
  | store (p va : ℕ) (value : UInt8)
  | sbrk (p incr : ℕ)

/-- What `sys_sbrk` works on. -/
def caller (k : Kernel) (p : ℕ) : Sbrk.Caller := ⟨k.pm, (k.procs p).heapEnd⟩

/-- The pages that `sys_sbrk` has to map are not mapped. -/
def Room (k : Kernel) (p incr : ℕ) : Prop :=
  (caller k p).moved incr ≤ maxVa ∧ ∀ va, pgRoundUp (k.procs p).heapEnd ≤ va →
    va < pgRoundUp ((caller k p).moved incr) → translate k.pm.mem (k.procs p).pagetable va = none

/-- A call that returns, or a store to a page that the process may write. -/
def Step (image : Image) (before : Kernel) : Action → Kernel → Prop
  | .call action, after => Process.Step image before action after
  | .store p va value, after => p ∈ before.processList ∧ ∃ pa flags, Sees before p va pa flags ∧
      flags &&& pteW ≠ 0 ∧
      after = before.setPm ⟨Function.update before.pm.mem pa value, before.pm.freelist⟩
  | .sbrk p incr, after => p ∈ before.processList ∧ (before.procs p).pagetable ≠ 0 ∧
      Room before p incr ∧ ∃ ret caller',
        Sbrk.sysSbrk image.kernelEnd (before.procs p).pagetable (caller before p) incr =
          .ok (ret, caller') ∧
        after = (before.setPm caller'.pm).setProc p fun proc =>
          { proc with heapEnd := caller'.heapEnd }

/-- The process whose memory the action changes. -/
def Action.writer : Action → Option ℕ
  | .call (.exit p _) => some p
  | .call _ => none
  | .store p _ _ => some p
  | .sbrk p _ => some p

section Runs

variable {image : Image} {k before after start : Kernel} {ledger : Ledger} {p q : ℕ}

/-- What a store does. -/
theorem store_moves (hkeeps : Keeps image before ledger) (hp : p ∈ before.processList)
    {va pa flags : ℕ} (value : UInt8) (hsees : Sees before p va pa flags) :
    Moves ledger.owner (.space p) before.pm
        ⟨Function.update before.pm.mem pa value, before.pm.freelist⟩ ∧
      Owned image.kernelEnd (share ledger.owner (.space p))
        ⟨Function.update before.pm.mem pa value, before.pm.freelist⟩ (before.procs p).pagetable
        (ledger.tables (.space p)) := by
  have hown : Owned image.kernelEnd (share ledger.owner (.space p)) before.pm
      (before.procs p).pagetable (ledger.tables (.space p)) :=
    hkeeps.shared.owned _ (hsees.user hkeeps hp)
  have hsame : ∀ x, pgRoundDown x ≠ pgRoundDown pa →
      Function.update before.pm.mem pa value x = before.pm.mem x := fun x hx =>
    Function.update_of_ne (fun heq => hx (congrArg pgRoundDown heq)) _ _
  refine ⟨⟨hkeeps.shared.nodup, fun page hpage => .inl ((hkeeps.shared.free page).mp hpage),
    fun x hx => hsame x fun heq => hx ?_⟩, hown.write fun x hx => hsame x fun heq => hx ?_⟩
  · rw [heq]
    exact .inr (hsees.owner hkeeps hp)
  · rw [outside_iff, heq]
    exact hown.frameTable _ (hsees.frame hkeeps hp)

theorem sysSbrk_pm {kernelEnd root incr ret : ℕ} {c c' : Sbrk.Caller}
    (hsbrk : Sbrk.sysSbrk kernelEnd root c incr = .ok (ret, c')) :
    c' = c ∨ ∃ size, uvmalloc kernelEnd c.pm root c.heapEnd (c.moved incr) (pteW ||| pteV) =
      .ok (size, c'.pm) := by
  rw [Sbrk.sysSbrk] at hsbrk
  split at hsbrk
  · exact .inl (Prod.mk.inj (Except.ok.inj hsbrk)).2.symm
  · rename_i hzero
    rw [if_pos (Nat.pos_of_ne_zero hzero), Sbrk.incrHeapSpace] at hsbrk
    cases halloc : uvmalloc kernelEnd c.pm root c.heapEnd (c.moved incr) (pteW ||| pteV) with
    | error panic =>
        rw [halloc] at hsbrk
        cases hsbrk
    | ok result =>
        obtain ⟨size, pm⟩ := result
        rw [halloc] at hsbrk
        have hcaller := Except.ok.inj hsbrk
        refine .inr ⟨size, ?_⟩
        dsimp only at hcaller
        split at hcaller
        all_goals
          obtain ⟨-, rfl⟩ := Prod.mk.inj hcaller
          rfl

/-- What `sys_sbrk` does. -/
theorem sbrk_moves (hkeeps : Keeps image before ledger) (hp : p ∈ before.processList)
    {incr ret : ℕ} {caller' : Sbrk.Caller} (hroot : (before.procs p).pagetable ≠ 0)
    (hroom : Room before p incr)
    (hsbrk : Sbrk.sysSbrk image.kernelEnd (before.procs p).pagetable (caller before p) incr =
      .ok (ret, caller')) :
    ∃ set, Moves ledger.owner (.space p) before.pm caller'.pm ∧
      Owned image.kernelEnd (share ledger.owner (.space p)) caller'.pm (before.procs p).pagetable
        set ∧
      KernelPages caller'.pm.mem (before.procs p).pagetable image.trampolinePa
        (before.procs p).trapframe := by
  have huser : p ∈ ledger.users := (hkeeps.spaces.user p hp).mpr hroot
  have hpages := hkeeps.spaces.kernel p huser
  have hown : Owned image.kernelEnd (share ledger.owner (.space p)) before.pm
      (before.procs p).pagetable (ledger.tables (.space p)) := hkeeps.shared.owned (.space p) huser
  have hrefl : Moves ledger.owner (.space p) before.pm before.pm :=
    hown.moves_of_allocates hown (.refl _ _)
  obtain rfl | ⟨size, halloc⟩ := sysSbrk_pm hsbrk
  · exact ⟨_, hrefl, hown, hpages⟩
  · obtain ⟨hlimit, hnone⟩ := hroom
    obtain ⟨size', pm', set, halloc', hresult⟩ := hown.alloc (show pteW ||| pteV < 1024 by decide)
      hlimit hnone
    obtain ⟨rfl, rfl⟩ := Prod.mk.inj (Except.ok.inj (halloc.symm.trans halloc'))
    obtain ⟨-, -, hpm, -⟩ | ⟨-, -, hown', hallocates, -, hsame⟩ | ⟨-, -, hundone, -⟩ := hresult
    · rw [hpm]
      exact ⟨_, hrefl, hown, hpages⟩
    · refine ⟨set, hown.moves_of_allocates hown' hallocates, hown', ?_, ?_⟩
      · refine (hsame _ (by decide) ?_).trans hpages.trampoline
        by_contra hin
        rw [not_or, not_lt, not_le] at hin
        exact absurd ((hnone _ hin.1 hin.2).symm.trans hpages.trampoline) (fun heq => by cases heq)
      · refine (hsame _ (by decide) ?_).trans hpages.trapFrame
        by_contra hin
        rw [not_or, not_lt, not_le] at hin
        exact absurd ((hnone _ hin.1 hin.2).symm.trans hpages.trapFrame) (fun heq => by cases heq)
    · refine ⟨set, hown.moves_of_allocates hundone.own hundone.allocates, hundone.own, ?_, ?_⟩
      · exact (hundone.same _ (by decide)).trans hpages.trampoline
      · exact (hundone.same _ (by decide)).trans hpages.trapFrame

theorem inOrder_step {action : Action} (hsymbols : image.Ok) (horder : InOrder image before)
    (hstep : Step image before action after) : InOrder image after := by
  cases action with
  | call action => exact horder.step hsymbols hstep
  | store p va value =>
      obtain ⟨ledger, hkeeps, hsettled⟩ := horder
      obtain ⟨hp, pa, flags, hsees, -, rfl⟩ := hstep
      obtain ⟨hmoves, hown⟩ := store_moves hkeeps hp value hsees
      have huser := hsees.user hkeeps hp
      have hold : Owned image.kernelEnd (share ledger.owner (.space p)) before.pm
          (before.procs p).pagetable (ledger.tables (.space p)) := hkeeps.shared.owned _ huser
      have hpages := hkeeps.spaces.kernel p huser
      have hsame : ∀ va', translate (Function.update before.pm.mem pa value)
          (before.procs p).pagetable va' =
            translate before.pm.mem (before.procs p).pagetable va' := by
        refine hold.tree.translate_frame fun x hx => Function.update_of_ne ?_ _ _
        rintro rfl
        rw [outside_iff, not_not] at hx
        exact hold.frameTable _ (hsees.frame hkeeps hp) hx
      exact inOrder_of_moves hkeeps hsettled hp hsees.1 hmoves hown
        ⟨(hsame _).trans hpages.trampoline, (hsame _).trans hpages.trapFrame⟩
  | sbrk p incr =>
      obtain ⟨ledger, hkeeps, hsettled⟩ := horder
      obtain ⟨hp, hroot, hroom, ret, caller', hsbrk, rfl⟩ := hstep
      obtain ⟨set, hmoves, hown, hpages⟩ := sbrk_moves hkeeps hp hroot hroom hsbrk
      obtain ⟨ledger', hkeeps', hsettled'⟩ :=
        inOrder_of_moves hkeeps hsettled hp hroot hmoves hown hpages
      refine ⟨ledger', hkeeps'.congr rfl ?_, hsettled'.pids, hsettled'.users⟩
      exact SameProcs.setProc (.refl _ _) p fun proc => ⟨rfl, rfl, rfl, rfl, id⟩

/-- Whose pages an action changes. -/
theorem step_spares {action : Action} (hsymbols : image.Ok) (hkeeps : Keeps image before ledger)
    (hsettled : Settled before ledger) (hstep : Step image before action after) :
    ∃ acting owner', Spares acting ledger.owner owner' before.pm.mem after.pm.mem ∧
      ∀ q ∈ before.processList, q ∈ after.processList → action.writer ≠ some q →
        .space q ∉ acting ∧ .body q ∉ acting := by
  have hspace : ∀ {p q : ℕ}, some p ≠ some q →
      Party.space q ∉ ({.space p} : Set Party) ∧ Party.body q ∉ ({.space p} : Set Party) := by
    intro p q hne
    refine ⟨fun heq => hne (congrArg some (Party.space.inj heq).symm), fun heq => by cases heq⟩
  cases action with
  | call action =>
      cases action with
      | create cur =>
          obtain ⟨np, hcreate⟩ := hstep
          obtain ⟨hnew, owner', hspares⟩ := create_spares hsymbols hkeeps hsettled hcreate
          exact ⟨_, owner', hspares, fun q hq _ _ => actors_spare hnew hq⟩
      | fork p =>
          obtain ⟨hp, ret, hfork⟩ := hstep
          obtain ⟨np, owner', hnew, hspares⟩ := fork_spares hsymbols hkeeps hsettled hp hfork
          exact ⟨_, owner', hspares, fun q hq _ _ => actors_spare hnew hq⟩
      | exit p state =>
          obtain ⟨hp, hexit⟩ := hstep
          obtain ⟨owner', hspares⟩ := exit_spares hkeeps hsettled hp hexit
          exact ⟨_, owner', hspares, fun q _ _ hne => hspace hne⟩
      | wait p pid =>
          obtain ⟨ret, hwait⟩ := hstep
          obtain ⟨np, owner', hgone, hspares⟩ := wait_spares hsymbols hkeeps hsettled hwait
          exact ⟨_, owner', hspares, fun q _ hq _ => actors_spare hgone hq⟩
  | store p va value =>
      obtain ⟨hp, pa, flags, hsees, -, rfl⟩ := hstep
      obtain ⟨hmoves, -⟩ := store_moves hkeeps hp value hsees
      exact ⟨_, _, hmoves.spares, fun q _ _ hne => hspace hne⟩
  | sbrk p incr =>
      obtain ⟨hp, hroot, hroom, ret, caller', hsbrk, rfl⟩ := hstep
      obtain ⟨set, hmoves, -⟩ := sbrk_moves hkeeps hp hroot hroom hsbrk
      exact ⟨_, _, hmoves.spares, fun q _ _ hne => hspace hne⟩

/-- A process that an action does not write keeps its table and its trapframe. -/
theorem step_procs {action : Action} (hsymbols : image.Ok) (hkeeps : Keeps image before ledger)
    (hsettled : Settled before ledger) (hstep : Step image before action after)
    (hq : q ∈ before.processList) (hq' : q ∈ after.processList)
    (hwriter : action.writer ≠ some q) :
    (after.procs q).pagetable = (before.procs q).pagetable ∧
      (after.procs q).trapframe = (before.procs q).trapframe := by
  suffices hsame : after.procs q = before.procs q by
    rw [hsame]
    exact ⟨rfl, rfl⟩
  cases action with
  | call action =>
      cases action with
      | create cur =>
          obtain ⟨np, hcreate⟩ := hstep
          obtain ⟨-, hsame⟩ | ⟨-, hjoined⟩ := hkeeps.create_joined hsymbols hsettled hcreate
          · exact hsame.others q hq
          · exact hjoined.others q fun heq => hjoined.new (heq ▸ hq)
      | fork p =>
          obtain ⟨hp, ret, hfork⟩ := hstep
          obtain ⟨-, hsame⟩ | ⟨-, np, hjoined⟩ := hkeeps.fork_joined hsymbols hsettled hp hfork
          · exact hsame.others q hq
          · exact hjoined.others q fun heq => hjoined.new (heq ▸ hq)
      | exit p state =>
          obtain ⟨hp, hexit⟩ := hstep
          exact (processExit_only hexit).others q fun heq => hwriter (congrArg some heq.symm)
      | wait p pid =>
          obtain ⟨ret, hwait⟩ := hstep
          obtain ⟨-, rfl, -⟩ | ⟨child, -, -, hlist, hothers⟩ :=
            hkeeps.wait_found hsymbols hsettled hwait
          · rfl
          · refine hothers q fun heq => ?_
            rw [hlist, heq] at hq'
            exact hkeeps.structures.nodup.not_mem_erase hq'
  | store p va value =>
      obtain ⟨hp, pa, flags, -, -, rfl⟩ := hstep
      rfl
  | sbrk p incr =>
      obtain ⟨hp, hroot, hroom, ret, caller', -, rfl⟩ := hstep
      exact Kernel.setProc_of_ne _ _ fun heq => hwriter (congrArg some heq.symm)

/-- In every state of every run the user pages of the processes are apart, and the next action changes
nothing that a process sees but the one that the action is for. -/
theorem isolated_of_reach (hsymbols : image.Ok) (hstart : InOrder image start)
    (hreach : Reach (Step image) Unguarded start k) :
    Isolated k ∧ ∀ action after, Step image k action after →
      ∀ q ∈ k.processList, q ∈ after.processList → action.writer ≠ some q → SameView k after q := by
  have horder : InOrder image k :=
    hreach.invariant hstart fun _ _ _ horder _ hstep => inOrder_step hsymbols horder hstep
  obtain ⟨ledger, hkeeps, hsettled⟩ := horder
  refine ⟨isolated_of_keeps hkeeps, fun action after hstep q hq hq' hwriter => ?_⟩
  obtain ⟨acting, owner', hspares, hspared⟩ := step_spares hsymbols hkeeps hsettled hstep
  obtain ⟨hspace, hbody⟩ := hspared q hq hq' hwriter
  obtain ⟨hpagetable, htrapframe⟩ := step_procs hsymbols hkeeps hsettled hstep hq hq' hwriter
  exact sameView_of_spares hkeeps hq hspares hspace hbody hpagetable htrapframe

end Runs

/-- The child of the first process stores to its stack. -/
theorem isolated_child : ∃ k after,
    Step smallImage k (.store (firstProc + 392) stackVa 7) after ∧ firstProc ∈ k.processList ∧
      Isolated k ∧ SameView k after firstProc := by
  have hfork : (fork smallImage firstKernel firstProc).toOption.map (fun result =>
      (result.2.processList, decide ((result.2.procs (firstProc + 392)).pagetable ≠ 0),
        (translate result.2.pm.mem (result.2.procs (firstProc + 392)).pagetable stackVa).map
          Prod.snd)) =
      some ([firstProc, firstProc + 392], true, some (pteR ||| pteW ||| pteU ||| pteV)) := by
    decide +kernel
  cases hcall : fork smallImage firstKernel firstProc with
  | error stop =>
      rw [hcall] at hfork
      cases hfork
  | ok result =>
      obtain ⟨ret, k⟩ := result
      rw [hcall] at hfork
      have hfork := Option.some.inj hfork
      simp only [Prod.mk.injEq] at hfork
      obtain ⟨hlist, hroot, hmapped⟩ := hfork
      obtain ⟨⟨pa, flags⟩, htranslate, rfl⟩ := Option.map_eq_some_iff.mp hmapped
      have hfirst : firstProc ∈ k.processList := by
        rw [hlist]
        exact List.mem_cons_self
      have hreach : Reach (Step smallImage) Unguarded firstKernel k := by
        have hfirst' : firstProc ∈ firstKernel.processList := by decide +kernel
        have hstep : Step smallImage firstKernel (.call (.fork firstProc)) k := ⟨hfirst', ret, hcall⟩
        exact Reach.refl.tail trivial hstep
      obtain ⟨hisolated, hviews⟩ := isolated_of_reach smallImage_ok firstHistory_inOrder hreach
      have hstep : Step smallImage k (.store (firstProc + 392) stackVa 7)
          (k.setPm ⟨Function.update k.pm.mem pa 7, k.pm.freelist⟩) := by
        refine ⟨?_, pa, _, ⟨of_decide_eq_true hroot, htranslate, by decide⟩, by decide, rfl⟩
        rw [hlist]
        exact List.mem_cons_of_mem _ List.mem_cons_self
      refine ⟨k, _, hstep, hfirst, hisolated, hviews _ _ hstep _ hfirst hfirst ?_⟩
      exact fun heq => absurd (Option.some.inj heq) (by decide)

end Painting.Isolation
