import Painting.Core.Transition
import Painting.Proc.ForkExit

/-!
# Process numbers and kernel stacks

Along every run of the system calls that make and destroy processes, the processes on the list have
distinct numbers, the bitmap marks exactly these, and the page table of the kernel maps exactly
their stacks, with an unmapped page below each.
-/

namespace Painting.Process

open Painting.Memory Painting.PageTable
open Painting.Transition

/-! ## The laws -/

/-- The process `p` is on the list with the number `pid`. -/
def Lives (k : Kernel) (pid : ℕ) : Prop := ∃ p ∈ k.processList, (k.procs p).pid = pid

structure StackLaws (k : Kernel) : Prop where
  range : ∀ p ∈ k.processList, ∃ pid < maxPid, (k.procs p).pid = (pid : ℕ)
  distinct : (k.processList.map fun p => (k.procs p).pid).Nodup
  marked : ∀ pid < maxPid, Bitmap.Marked k.pidBitmap pid ↔ Lives k pid
  mapped : ∀ pid < maxPid, ∀ i < pgSize,
    translate k.pm.mem k.kernelPagetable (kstackVa pid + i) ≠ none ↔ Lives k pid
  frames : ∀ pid < maxPid, ∀ pid' < maxPid, pid ≠ pid' → ∀ frame flags frame' flags',
    translate k.pm.mem k.kernelPagetable (kstackVa pid) = some (frame, flags) →
      translate k.pm.mem k.kernelPagetable (kstackVa pid') = some (frame', flags') →
        frame ≠ frame'
  guard : ∀ pid < maxPid, ∀ i < pgSize,
    translate k.pm.mem k.kernelPagetable (kstackVa pid - pgSize + i) = none

/-! ## The laws follow from a ledger -/

section Laws

variable {image : Image} {k : Kernel} {ledger : Ledger}

theorem translate_none_page {mem : Mem} {root va va' : ℕ} (hpage : va / pgSize = va' / pgSize) :
    translate mem root va = none ↔ translate mem root va' = none := by
  constructor
  all_goals
    intro hnone
    by_contra hsome
    obtain ⟨⟨pa, flags⟩, hframe⟩ := Option.ne_none_iff_exists'.mp hsome
  · rw [translate_page hpage.symm hframe] at hnone
    cases hnone
  · rw [translate_page hpage hframe] at hnone
    cases hnone

theorem Keeps.lives_iff (hkeeps : Keeps image k ledger) (hsettled : Settled k ledger) {pid : ℕ}
    (hpid : pid < maxPid) : Bitmap.Marked k.pidBitmap pid ↔ Lives k pid := by
  constructor
  · intro hmarked
    exact hkeeps.kstacks.marked pid hpid (by rw [hsettled.pids]; exact Set.notMem_empty pid) hmarked
  · rintro ⟨p, hp, hnumber⟩
    obtain ⟨pid', -, -, hmarked, hhas⟩ := hkeeps.kstacks.body p hp
    have heq : pid' = pid := Int.ofNat_inj.mp (hhas.number.symm.trans hnumber)
    exact heq ▸ hmarked

/-- The stack of a process on the list. -/
theorem Keeps.stack_of_lives (hkeeps : Keeps image k ledger) {pid : ℕ} (hlives : Lives k pid) :
    ∃ p frame, translate k.pm.mem k.kernelPagetable (kstackVa pid) =
        some (frame, pteR ||| pteW ||| pteV) ∧
      ledger.owner frame = .party (.body p) ∧ (k.procs p).pid = pid := by
  obtain ⟨p, hp, hnumber⟩ := hlives
  obtain ⟨pid', -, -, -, hhas⟩ := hkeeps.kstacks.body p hp
  have heq : pid' = pid := Int.ofNat_inj.mp (hhas.number.symm.trans hnumber)
  obtain ⟨frame, hframe, howned, -⟩ := hhas.stack
  exact ⟨p, frame, heq ▸ hframe, howned, hnumber⟩

theorem Keeps.stack_iff (hkeeps : Keeps image k ledger) (hsettled : Settled k ledger) {pid : ℕ}
    (hpid : pid < maxPid) :
    translate k.pm.mem k.kernelPagetable (kstackVa pid) ≠ none ↔ Lives k pid := by
  constructor
  · intro hmapped
    rw [← hkeeps.lives_iff hsettled hpid]
    by_contra hclear
    refine hmapped (hkeeps.kstacks.free pid hpid ?_ hclear)
    rw [hsettled.pids]
    exact Set.notMem_empty pid
  · intro hlives
    obtain ⟨p, frame, hframe, -⟩ := hkeeps.stack_of_lives hlives
    rw [hframe]
    exact fun heq => by cases heq

theorem Keeps.stackLaws (hkeeps : Keeps image k ledger) (hsettled : Settled k ledger) :
    StackLaws k := by
  refine ⟨fun p hp => ?_, ?_, fun pid hpid => hkeeps.lives_iff hsettled hpid,
    fun pid hpid i hi => ?_, ?_, fun pid hpid i hi => ?_⟩
  · obtain ⟨pid, hpid, -, -, hhas⟩ := hkeeps.kstacks.body p hp
    exact ⟨pid, hpid, hhas.number⟩
  · refine (List.nodup_map_iff_inj_on hkeeps.structures.nodup).mpr fun p hp q hq heq => ?_
    exact hkeeps.kstacks.distinct p hp q hq heq
  · have hpage : (kstackVa pid + i) / pgSize = kstackVa pid / pgSize := by
      have haligned := kstackVa_aligned hpid
      simp only [pgSize] at *
      omega
    rw [← hkeeps.stack_iff hsettled hpid]
    exact not_congr (translate_none_page hpage)
  · intro pid hpid pid' hpid' hne frame flags frame' flags' hframe hframe'
    have hlives := (hkeeps.stack_iff hsettled hpid).mp (by
      rw [hframe]
      exact fun heq => by cases heq)
    have hlives' := (hkeeps.stack_iff hsettled hpid').mp (by
      rw [hframe']
      exact fun heq => by cases heq)
    obtain ⟨p, page, hpage, howned, hnumber⟩ := hkeeps.stack_of_lives hlives
    obtain ⟨p', page', hpage', howned', hnumber'⟩ := hkeeps.stack_of_lives hlives'
    obtain ⟨rfl, -⟩ := Prod.mk.inj (Option.some.inj (hpage.symm.trans hframe))
    obtain ⟨rfl, -⟩ := Prod.mk.inj (Option.some.inj (hpage'.symm.trans hframe'))
    rintro rfl
    have hparty := howned.symm.trans howned'
    cases hparty
    exact hne (Int.ofNat_inj.mp (hnumber.symm.trans hnumber'))
  · have hpage : (kstackVa pid - pgSize + i) / pgSize = (kstackVa pid - pgSize) / pgSize := by
      have haligned := kstackVa_aligned hpid
      simp only [pgSize] at *
      omega
    exact (translate_none_page hpage).mpr (hkeeps.kstacks.guard pid hpid)

/-! ## The stack of a new process -/

/-- With fewer than `MAX_PID` processes a number is free. -/
theorem Keeps.exists_clear (hkeeps : Keeps image k ledger) (hsettled : Settled k ledger)
    (hfew : k.processList.length < maxPid) :
    ∃ pid, Bitmap.firstClear k.pidBitmap 0 maxPid = some pid := by
  cases hpid : Bitmap.firstClear k.pidBitmap 0 maxPid with
  | some pid => exact ⟨pid, rfl⟩
  | none =>
      have hall := Bitmap.firstClear_eq_none.mp hpid
      have hsub : List.range maxPid ⊆ k.processList.map fun p => (k.procs p).pid.toNat := by
        intro pid hpid
        have hpid := List.mem_range.mp hpid
        obtain ⟨p, hp, hnumber⟩ :=
          (hkeeps.lives_iff hsettled hpid).mp (hall pid (Nat.zero_le _) (by omega))
        refine List.mem_map.mpr ⟨p, hp, ?_⟩
        rw [hnumber, Int.toNat_natCast]
      have hlength := (List.nodup_range.subperm hsub).length_le
      rw [List.length_range, List.length_map] at hlength
      omega

theorem kfreeProc_noRemap (k : Kernel) (p : ℕ) :
    k.kfreeProc image p ≠ .error (.panic .remap) := by
  rw [Kernel.kfreeProc, kfreeTo]
  rcases Slab.kfree Slab.procMode image.rounds k.procCache p with _ | ⟨cache, _ | page⟩
  all_goals exact fun heq => by cases heq

theorem kallocProc_noRemap (k : Kernel) : k.kallocProc ≠ .error (.panic .remap) := by
  rw [Kernel.kallocProc, kallocFrom]
  rcases Slab.findMatchSpace k.procCache.mem k.procCache.heapList Slab.procMode.size with
    ⟨_ | bp, mem⟩
  · dsimp only
    rcases kpmalloc k.pm with ⟨_ | page, pm⟩
    all_goals
      dsimp only [bind, Except.bind]
      exact fun heq => by cases heq
  · dsimp only [bind, Except.bind]
    exact fun heq => by cases heq

theorem kpmfree_noRemap (kernelEnd : ℕ) (pm : Pm) (page : ℕ) :
    kpmfree kernelEnd pm page ≠ .error .remap := by
  rw [kpmfree]
  split
  all_goals exact fun heq => by cases heq

/-- With a free number, `process_create` never maps a stack over a page that is mapped. -/
theorem Keeps.createWith_noRemap {cur p : ℕ} (hsymbols : image.Ok) (hkeeps : Keeps image k ledger)
    (htransit : ledger.transit = ∅) (hp : p ∉ k.processList) (huser : p ∉ ledger.users)
    (hun : p % pgSize ≠ 0) {pid : ℕ}
    (hpid : Bitmap.firstClear k.pidBitmap 0 maxPid = some pid) :
    createWith image k cur p ≠ .error (.panic .remap) := by
  rcases hlist : k.pm.freelist with _ | ⟨trapframe, _ | ⟨kstack, rest⟩⟩
  · rw [createWith_nil hlist]
    intro heq
    cases hkfree : (k.setProc p fun proc => { proc with trapframe := 0 }).kfreeProc image p with
    | error stop =>
        rw [hkfree] at heq
        obtain rfl := Except.error.inj heq
        exact kfreeProc_noRemap _ _ hkfree
    | ok k' =>
        rw [hkfree] at heq
        cases heq
  · rw [createWith_one hlist hun]
    exact fun heq => by cases heq
  · obtain ⟨ledger₁, hkeep₁, husers₁, htransit₁, -, -, -, hgood, hgood', -, -⟩ :=
      hkeeps.withPages hp huser hlist
    obtain ⟨ret, pm, hmap, hresult⟩ := hkeep₁.mapStack (htransit₁.trans htransit) hpid hp
      (husers₁ ▸ huser) hgood'
    rw [createWith_two image cur p hlist, createStack_some (by exact hpid) hmap]
    obtain rfl | ⟨rfl, ledger₂, hkeep₂, -⟩ := hresult
    · rw [if_pos (by decide)]
      intro heq
      cases hgive : kpmfree image.kernelEnd pm kstack with
      | error panic =>
          rw [hgive] at heq
          obtain rfl := Stop.panic.inj (Except.error.inj heq)
          exact kpmfree_noRemap _ _ _ hgive
      | ok pm' =>
          rw [hgive] at heq
          dsimp only [panics, Except.mapError, bind, Except.bind] at heq
          rw [kpmfree_object _ _ hun] at heq
          cases heq
    · rw [if_neg (by decide)]
      obtain ⟨root, pm', htable, -⟩ := processPagetable_spec hkeep₂.shared.pool
        hsymbols.kernelEnd hsymbols.aligned hsymbols.small hgood.aligned hgood.small
      rw [createTable_ok htable]
      exact fun heq => by cases heq

/-- `process_create` never maps a stack over a page that is mapped. -/
theorem Keeps.create_noRemap {cur : ℕ} (hsymbols : image.Ok) (hkeeps : Keeps image k ledger)
    (hsettled : Settled k ledger) (hfew : k.processList.length < maxPid) :
    Process.processCreate image k cur ≠ .error (.panic .remap) := by
  cases hkalloc : k.kallocProc with
  | error stop =>
      rw [Process.processCreate, hkalloc]
      intro heq
      obtain rfl := Except.error.inj heq
      exact kallocProc_noRemap k hkalloc
  | ok result =>
      obtain ⟨bp, k₁⟩ := result
      obtain ⟨p, ledger₁, rfl, hfresh⟩ := hkeeps.kallocProc hkalloc
      rw [processCreate_eq hkalloc]
      obtain ⟨cache, pm₁, honly⟩ := hfresh.only
      obtain ⟨pid, hpid⟩ := hkeeps.exists_clear hsettled hfew
      have hlist₁ : k₁.processList = k.processList := by rw [honly]
      refine hfresh.keeps.createWith_noRemap hsymbols (hfresh.transit.trans hsettled.pids)
        (hlist₁ ▸ hfresh.new) (fun h => hfresh.new (hsettled.users p (hfresh.users ▸ h)))
        (object_unaligned hfresh.keeps.structures.slab hfresh.live)
        (by rw [honly]; exact hpid)

end Laws

/-! ## Runs -/

inductive Action
  | create (cur : ℕ)
  | fork (p : ℕ)
  | exit (p state : ℕ)
  | wait (p : ℕ) (pid : ℤ)

/-- A call that returns. -/
def Step (image : Image) (before : Kernel) : Action → Kernel → Prop
  | .create cur, after => ∃ p, processCreate image before cur = .ok (p, after)
  | .fork p, after => p ∈ before.processList ∧ ∃ ret, fork image before p = .ok (ret, after)
  | .exit p state, after => p ∈ before.processList ∧ processExit image before p state = .ok after
  | .wait p pid, after => ∃ ret, processWait image before p pid = .ok (ret, after)

/-- The kernel has a ledger, and no call is under way. -/
def InOrder (image : Image) (k : Kernel) : Prop :=
  ∃ ledger, Keeps image k ledger ∧ Settled k ledger

section Runs

variable {image : Image} {k before after start : Kernel} {action : Action}

theorem InOrder.step (hsymbols : image.Ok) (horder : InOrder image before)
    (hstep : Step image before action after) : InOrder image after := by
  obtain ⟨ledger, hkeeps, hsettled⟩ := horder
  cases action with
  | create cur =>
      obtain ⟨p, hcreate⟩ := hstep
      obtain ⟨ledger', ⟨-, hkeeps', hsettled', -⟩ | ⟨-, hmade, -⟩⟩ :=
        hkeeps.processCreate hsymbols hsettled hcreate
      · exact ⟨ledger', hkeeps', hsettled'⟩
      · exact ⟨ledger', hmade.keeps, hmade.settled⟩
  | fork p =>
      obtain ⟨hp, ret, hfork⟩ := hstep
      exact hkeeps.fork hsymbols hsettled hp hfork
  | exit p state =>
      obtain ⟨hp, hexit⟩ := hstep
      exact hkeeps.processExit hsettled hp hexit
  | wait p pid =>
      obtain ⟨ret, hwait⟩ := hstep
      exact hkeeps.processWait hsymbols hsettled hwait

theorem inOrder_of_reach (hsymbols : image.Ok) (hstart : InOrder image start)
    (hreach : Reach (Step image) Unguarded start k) : InOrder image k :=
  hreach.invariant hstart fun _ _ _ horder _ hstep => horder.step hsymbols hstep

/-- A kernel without processes is in order. -/
theorem bootKernel_inOrder {pool : List ℕ} (hpool : Pool smallImage.kernelEnd ⟨fun _ => 0, pool⟩)
    (hlong : 3 ≤ pool.length) (hslab : 0x80300000 ∉ pool) :
    InOrder smallImage (bootKernel pool) := by
  classical
  obtain ⟨tables, hown, htranslate⟩ := bootKernel_table hpool hlong
  let owner : ℕ → Owner Party := fun page =>
    if page ∈ (bootKernel pool).pm.freelist then .free
    else if page ∈ pool then .party .kernel else .outside
  have hnobody : ∀ p, p ∉ (bootKernel pool).processList := fun p => List.not_mem_nil
  have hsub : ∀ page ∈ (bootKernel pool).pm.freelist, page ∈ pool := fun page hpage =>
    hown.mem_of_free hpage
  have hfree : ∀ page, page ∈ (bootKernel pool).pm.freelist ↔ owner page = .free := by
    intro page
    by_cases hpage : page ∈ (bootKernel pool).pm.freelist
    · exact iff_of_true hpage (if_pos hpage)
    · refine iff_of_false hpage ?_
      dsimp only [owner]
      rw [if_neg hpage]
      split
      all_goals exact fun heq => by cases heq
  have hshare : share owner .kernel = {page | page ∈ pool} := by
    ext page
    rw [share, Set.mem_ofPred_eq, Set.mem_ofPred_eq, ← hfree]
    by_cases hpage : page ∈ (bootKernel pool).pm.freelist
    · exact iff_of_true (.inl hpage) (hsub page hpage)
    · rw [or_iff_right hpage]
      dsimp only [owner]
      rw [if_neg hpage]
      split
      · rename_i hin
        exact iff_of_true rfl hin
      · rename_i hout
        exact iff_of_false (fun heq => by cases heq) hout
  have houtside : ∀ page, owner page ≠ .outside → page ∈ pool := by
    intro page hpage
    by_contra hout
    refine hpage ?_
    dsimp only [owner]
    rw [if_neg (mt (hsub page) hout), if_neg hout]
  refine ⟨⟨owner, fun _ => tables, ∅, [0x80300000 + 24], ∅⟩, ⟨?_, ?_, ?_, ?_⟩, rfl,
    fun p hp => hp.elim⟩
  · refine ⟨hown.nodup, hfree, fun page hpage => ?_, fun party hparty => ?_⟩
    · exact hown.good page (houtside page hpage)
    · cases party with
      | kernel =>
          rw [hshare]
          exact hown
      | space p => exact hparty.elim
      | body p => exact hparty.elim
      | slab => exact hparty.elim
  · refine ⟨fun p hp => (hnobody p hp).elim, fun pid _ _ hmarked => ?_, fun p hp => (hnobody p hp).elim,
      fun pid hpid _ _ => ?_, fun pid hpid => ?_, ?_⟩
    · exact absurd hmarked (by simp [Bitmap.Marked, bootKernel])
    · refine (htranslate _ (kstackVa_lt hpid)).trans (if_neg ?_)
      exact fun heq => trampoline_page hpid heq.symm
    · refine (htranslate _ (guard_lt hpid)).trans (if_neg ?_)
      rw [kstackVa_eq hpid]
      simp only [trampoline, maxVa, pgSize, maxPid] at *
      omega
    · exact ⟨_, (htranslate trampoline (by decide)).trans (if_pos rfl)⟩
  · refine ⟨Slab.slabInit_ok _ (by decide), fun page hpage => .inr ?_, fun p hp => (hnobody p hp).elim,
      List.nodup_nil⟩
    have heq : page = 0x80300000 := Nat.add_right_cancel (List.mem_singleton.mp hpage)
    by_contra hpage
    exact hslab (heq ▸ houtside page hpage)
  · refine ⟨fun p hp => (hnobody p hp).elim, fun p _ page heq => ?_, fun p hp => hp.elim,
      fun p hp => (hnobody p hp).elim⟩
    dsimp only [owner] at heq
    split at heq
    · cases heq
    · split at heq
      all_goals cases heq

end Runs

end Painting.Process
