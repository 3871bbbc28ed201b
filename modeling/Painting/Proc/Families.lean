import Painting.Proc.ForkFailure

/-!
# Families of processes

Who has forked whom, and who has waited for whom.  The slab gives the structure of a reaped process
to a new one, so a history counts the lives of each structure.  Along the runs in which a process
is reaped only when it has no child, the parent of a process is the one that has forked it, and
`process_wait` returns the number of each child once.
-/

namespace Painting.Process

open Painting.Memory Painting.PageTable
open Painting.Transition

/-! ## What the calls do to the processes on the list -/

section Members

variable {image : Image} {k k' : Kernel} {ledger : Ledger} {p np : ℕ} {ret : ℤ}

/-- What the family of a process is read from. -/
structure SameKin (proc proc' : Proc) : Prop where
  pid : proc'.pid = proc.pid
  parent : proc'.parent = proc.parent

theorem SameKin.trans {proc proc' proc'' : Proc} (hleft : SameKin proc proc')
    (hright : SameKin proc' proc'') : SameKin proc proc'' :=
  ⟨hright.pid.trans hleft.pid, hright.parent.trans hleft.parent⟩

/-- Only the process `p` is written, and it stays in its family. -/
structure OnlyProc (p : ℕ) (k k' : Kernel) : Prop where
  list : k'.processList = k.processList
  others : ∀ q ≠ p, k'.procs q = k.procs q
  kin : SameKin (k.procs p) (k'.procs p)

theorem OnlyProc.of_procs (hlist : k'.processList = k.processList) (hprocs : k'.procs = k.procs) :
    OnlyProc p k k' := by
  refine ⟨hlist, fun q _ => congrFun hprocs q, ?_⟩
  rw [hprocs]
  exact ⟨rfl, rfl⟩

theorem OnlyProc.trans {k'' : Kernel} (hleft : OnlyProc p k k') (hright : OnlyProc p k' k'') :
    OnlyProc p k k'' :=
  ⟨hright.list.trans hleft.list, fun q hq => (hright.others q hq).trans (hleft.others q hq),
    hleft.kin.trans hright.kin⟩

theorem OnlyProc.setProc {change : Proc → Proc} (honly : OnlyProc p k k')
    (hchange : ∀ proc, SameKin proc (change proc)) : OnlyProc p k (k'.setProc p change) := by
  refine ⟨honly.list, fun q hq => ?_, ?_⟩
  · rw [k'.setProc_of_ne change hq]
    exact honly.others q hq
  · rw [k'.setProc_self]
    exact honly.kin.trans (hchange _)

theorem OnlyProc.kin_all (honly : OnlyProc p k k') (q : ℕ) : SameKin (k.procs q) (k'.procs q) := by
  by_cases hq : q = p
  · exact hq ▸ honly.kin
  · rw [honly.others q hq]
    exact ⟨rfl, rfl⟩

theorem copyFiles_only (files : List ℕ) (hcopy : copyFiles np files k = .ok k') :
    OnlyProc np k k' := by
  induction files generalizing k with
  | nil =>
      obtain rfl := Except.ok.inj hcopy
      exact .of_procs rfl rfl
  | cons f rest ih =>
      rw [copyFiles] at hcopy
      obtain ⟨⟨bp, k₁⟩, hkalloc, hcopy⟩ := bind_eq_ok hcopy
      rw [Kernel.kallocFile] at hkalloc
      obtain ⟨⟨bp', cache, pm⟩, -, hkalloc⟩ := bind_eq_ok hkalloc
      obtain ⟨rfl, rfl⟩ := Prod.mk.inj (Except.ok.inj hkalloc)
      cases bp' with
      | none => cases hcopy
      | some nf =>
          dsimp only at hcopy
          split at hcopy
          all_goals
            refine OnlyProc.trans ?_ (ih hcopy)
            exact .setProc (.of_procs rfl rfl) fun proc => ⟨rfl, rfl⟩

theorem closeFiles_only (files : List ℕ) (hclose : closeFiles image p files k = .ok k') :
    OnlyProc p k k' := by
  induction files generalizing k with
  | nil =>
      obtain rfl := Except.ok.inj hclose
      exact .of_procs rfl rfl
  | cons f rest ih =>
      rw [closeFiles] at hclose
      obtain ⟨k₁, hkfree, hclose⟩ := bind_eq_ok hclose
      rw [Kernel.kfreeFile] at hkfree
      obtain ⟨cache, -, hkfree⟩ := bind_eq_ok hkfree
      obtain rfl := Except.ok.inj hkfree
      refine OnlyProc.trans ?_ (ih hclose)
      have hhead : OnlyProc p k (k.setProc p fun proc => { proc with fileList := rest }) :=
        .setProc (.of_procs rfl rfl) fun proc => ⟨rfl, rfl⟩
      exact ⟨hhead.list, hhead.others, hhead.kin⟩

theorem processExit_only {state : ℕ} (hexit : processExit image k p state = .ok k') :
    OnlyProc p k k' := by
  rw [processExit] at hexit
  obtain ⟨k₁, hclose, hexit⟩ := bind_eq_ok hexit
  refine (closeFiles_only _ hclose).trans ?_
  clear hclose
  dsimp only at hexit
  have hend : ∀ {k₂ : Kernel}, (do
      let k ←
        if (k₂.procs p).pagetable ≠ 0 then do
          let pm ← panics (freeUserPagetable image.kernelEnd k₂.pm (k₂.procs p).pagetable)
          .ok ((k₂.setPm pm).setProc p fun proc => { proc with pagetable := 0 })
        else .ok k₂
      .ok (k.setProc p fun proc => { proc with exitState := state, status := .zimbie })) = .ok k' →
      OnlyProc p k₂ k' := by
    intro k₂ hend
    split at hend
    · obtain ⟨pm, -, hend⟩ := bind_eq_ok hend
      obtain rfl := Except.ok.inj hend
      refine .setProc (.setProc ?_ fun proc => ⟨rfl, rfl⟩) fun proc => ⟨rfl, rfl⟩
      exact .of_procs rfl rfl
    · obtain rfl := Except.ok.inj hend
      exact .setProc (.of_procs rfl rfl) fun proc => ⟨rfl, rfl⟩
  split at hexit
  · obtain ⟨k₂, hcwd, hexit⟩ := bind_eq_ok hexit
    rw [Kernel.kfreeFile] at hcwd
    obtain ⟨cache, -, hcwd⟩ := bind_eq_ok hcwd
    obtain rfl := Except.ok.inj hcwd
    refine OnlyProc.trans ?_ (hend hexit)
    exact .setProc (.of_procs rfl rfl) fun proc => ⟨rfl, rfl⟩
  · exact hend hexit

/-- A process `np` has joined the list. -/
structure Joined (k k' : Kernel) (np cur : ℕ) (number : ℤ) : Prop where
  new : np ∉ k.processList
  list : k'.processList = k.processList ++ [np]
  others : ∀ q ≠ np, k'.procs q = k.procs q
  pid : (k'.procs np).pid = number
  pos : 0 ≤ number
  parent : (k'.procs np).parent = cur

/-- The list is as before, and so are the processes on it. -/
structure Unjoined (k k' : Kernel) : Prop where
  list : k'.processList = k.processList
  others : ∀ q ∈ k.processList, k'.procs q = k.procs q

theorem createTable_parent {cur trapframe va : ℕ}
    (hcreate : createTable image k cur p trapframe va = .ok (np, k')) :
    (k'.procs np).parent = cur := by
  rw [createTable] at hcreate
  obtain ⟨⟨root, pm⟩, -, hcreate⟩ := bind_eq_ok hcreate
  obtain ⟨rfl, rfl⟩ := Prod.mk.inj (Except.ok.inj hcreate)
  dsimp only
  rw [Kernel.setProc_self]

theorem processCreate_parent {cur : ℕ} (hcreate : processCreate image k cur = .ok (np, k'))
    (hnp : np ≠ 0) : (k'.procs np).parent = cur := by
  rw [processCreate] at hcreate
  obtain ⟨⟨bp, k₁⟩, -, hcreate⟩ := bind_eq_ok hcreate
  cases bp with
  | none => exact absurd (Prod.mk.inj (Except.ok.inj hcreate)).1.symm hnp
  | some p =>
      dsimp only at hcreate
      rw [createWith] at hcreate
      split at hcreate
      · obtain ⟨k₂, -, hcreate⟩ := bind_eq_ok hcreate
        exact absurd (Prod.mk.inj (Except.ok.inj hcreate)).1.symm hnp
      · dsimp only at hcreate
        split at hcreate
        · obtain ⟨pm, -, hcreate⟩ := bind_eq_ok hcreate
          exact absurd (Prod.mk.inj (Except.ok.inj hcreate)).1.symm hnp
        · rw [createStack] at hcreate
          obtain ⟨⟨ret, pm⟩, -, hcreate⟩ := bind_eq_ok hcreate
          dsimp only at hcreate
          split at hcreate
          · obtain ⟨pm₁, -, hcreate⟩ := bind_eq_ok hcreate
            obtain ⟨pm₂, -, hcreate⟩ := bind_eq_ok hcreate
            exact absurd (Prod.mk.inj (Except.ok.inj hcreate)).1.symm hnp
          · exact createTable_parent hcreate

theorem Keeps.number_pos (hkeeps : Keeps image k ledger) (hp : p ∈ k.processList) :
    0 ≤ (k.procs p).pid := by
  obtain ⟨pid, -, -, -, hhas⟩ := hkeeps.kstacks.body p hp
  rw [hhas.number]
  exact Int.natCast_nonneg pid

/-- `process_create` adds a process to the list, or leaves the list as it was. -/
theorem Keeps.create_joined {cur : ℕ} (hsymbols : image.Ok) (hkeeps : Keeps image k ledger)
    (hsettled : Settled k ledger) (hcreate : Process.processCreate image k cur = .ok (np, k')) :
    np = 0 ∧ Unjoined k k' ∨ np ≠ 0 ∧ Joined k k' np cur (k'.procs np).pid := by
  obtain ⟨ledger', ⟨rfl, -, -, hlist, hothers⟩ | ⟨hne, hmade, -⟩⟩ :=
    hkeeps.processCreate hsymbols hsettled hcreate
  · exact .inl ⟨rfl, hlist, hothers⟩
  · refine .inr ⟨hne, hmade.new, hmade.list, hmade.others, rfl, ?_,
      processCreate_parent hcreate hne⟩
    refine hmade.keeps.number_pos ?_
    rw [hmade.list]
    exact List.mem_append_right _ (List.mem_singleton_self np)

theorem forkFinish_joined (hfinish : forkFinish k p np = .ok (ret, k')) :
    k'.processList = k.processList ∧ (∀ q ≠ np, k'.procs q = k.procs q) ∧
      (k'.procs np).pid = ret ∧ (k.procs np).pid = ret ∧ (k'.procs np).parent = p := by
  rw [forkFinish] at hfinish
  obtain ⟨k₂, hcopy, hfinish⟩ := bind_eq_ok hfinish
  obtain ⟨hret, rfl⟩ := Prod.mk.inj (Except.ok.inj hfinish)
  have honly := copyFiles_only _ hcopy
  refine ⟨honly.list, fun q hq => ?_, hret, ?_, ?_⟩
  · rw [Kernel.setProc_of_ne _ _ hq, honly.others q hq, Kernel.setProc_of_ne _ _ hq]
    rfl
  · rw [← hret, Kernel.setProc_self]
    refine Eq.trans ?_ honly.kin.pid.symm
    rw [Kernel.setProc_self]
    rfl
  · rw [Kernel.setProc_self]

/-- `fork` adds a child of the caller to the list and returns its number, or it returns -1 and
leaves the list as it was. -/
theorem Keeps.fork_joined (hsymbols : image.Ok) (hkeeps : Keeps image k ledger)
    (hsettled : Settled k ledger) (hp : p ∈ k.processList)
    (hfork : Process.fork image k p = .ok (ret, k')) :
    ret = -1 ∧ Unjoined k k' ∨ ret ≠ -1 ∧ ∃ np, Joined k k' np p ret := by
  cases hcreate : Process.processCreate image k p with
  | error stop =>
      rw [Process.fork, hcreate] at hfork
      cases hfork
  | ok result =>
      obtain ⟨np, k₁⟩ := result
      obtain ⟨ledger₁, ⟨rfl, -, -, hlist, hothers⟩ | ⟨hne, hmade, -⟩⟩ :=
        hkeeps.processCreate hsymbols hsettled hcreate
      · rw [Process.fork, hcreate] at hfork
        obtain ⟨hret, rfl⟩ := Prod.mk.inj (Except.ok.inj hfork)
        exact .inl ⟨hret.symm, hlist, hothers⟩
      · obtain ⟨pid, pm, ledger₂, hfilled, hbad | ⟨hfinish, -⟩⟩ :=
          hmade.fork_cases hcreate hne hp hfork
        · obtain ⟨hret, ledger', hgone⟩ := @Departed.forkBad _ (k₁.setPm pm) _ _ _ _ _
            hsymbols hfilled.departed hbad
          refine .inl ⟨hret, ?_, fun q hq => ?_⟩
          · rw [hgone.list]
            change k₁.processList.erase np = k.processList
            rw [hmade.list, List.erase_append_right _ hmade.new]
            simp
          · have hq' : q ≠ np := fun heq => hmade.new (heq ▸ hq)
            exact (hgone.others q hq').trans (hmade.others q hq')
        · obtain ⟨hlist, hothers, hpid, hret, hparent⟩ := forkFinish_joined hfinish
          have hpos : 0 ≤ ret := by
            rw [← hret]
            refine hmade.keeps.number_pos ?_
            rw [hmade.list]
            exact List.mem_append_right _ (List.mem_singleton_self np)
          refine .inr ⟨by omega, np, hmade.new, hlist.trans hmade.list, fun q hq => ?_, hpid, hpos,
            hparent⟩
          exact (hothers q hq).trans (hmade.others q hq)

/-- The child that `process_wait` finds. -/
def Kernel.ended (k : Kernel) (p : ℕ) (pid : ℤ) : Option ℕ :=
  (k.processList.filter (k.waitsFor p pid)).find? fun child => (k.procs child).status = .zimbie

theorem Kernel.ended_spec {pid : ℤ} (hended : k.ended p pid = some np) :
    np ∈ k.processList ∧ (k.procs np).parent = p ∧ (pid = 0 ∨ (k.procs np).pid = pid) ∧
      (k.procs np).status = .zimbie := by
  obtain ⟨hlist, hwaits⟩ := List.mem_filter.mp (List.mem_of_find?_eq_some hended)
  simp only [Kernel.waitsFor, Bool.and_eq_true, Bool.or_eq_true, decide_eq_true_eq]
    at hwaits
  have hstatus := List.find?_some (show List.find? (fun child => (k.procs child).status = .zimbie) _ =
    some np from hended)
  exact ⟨hlist, hwaits.1, hwaits.2, of_decide_eq_true hstatus⟩

/-- `process_wait` takes the child that it finds off the list, and otherwise changes nothing. -/
theorem Keeps.wait_found {pid : ℤ} {result : Option ℤ} (hsymbols : image.Ok)
    (hkeeps : Keeps image k ledger) (hsettled : Settled k ledger)
    (hwait : Process.processWait image k p pid = .ok (result, k')) :
    (k.ended p pid = none ∧ k' = k ∧
        result = if k.processList.filter (k.waitsFor p pid) = [] then some (-1) else none) ∨
      ∃ child, k.ended p pid = some child ∧ result = some (k.procs child).pid ∧
        k'.processList = k.processList.erase child ∧ ∀ q ≠ child, k'.procs q = k.procs q := by
  rw [Process.processWait] at hwait
  dsimp only at hwait
  split at hwait
  · rename_i child hfind
    have hended := List.find?_some hfind
    have hended := of_decide_eq_true hended
    have hchild := (List.mem_filter.mp (List.mem_of_find?_eq_some hfind)).1
    cases hreap : reap image k child with
    | error stop =>
        rw [hreap] at hwait
        cases hwait
    | ok found =>
        obtain ⟨number, k₁⟩ := found
        rw [hreap] at hwait
        obtain ⟨rfl, rfl⟩ := Prod.mk.inj (Except.ok.inj hwait)
        obtain ⟨pid', hdeparted⟩ := hkeeps.departed hsettled hchild
        have hroot := hkeeps.spaces.ended child hchild hended
        obtain ⟨rfl, ledger', hgone⟩ := hdeparted.reap hsymbols hroot hreap
        refine .inr ⟨child, hfind, ?_, hgone.list, hgone.others⟩
        exact congrArg some hdeparted.has.number.symm
  · rename_i hfind
    obtain ⟨hresult, rfl⟩ := Prod.mk.inj (Except.ok.inj hwait)
    exact .inl ⟨hfind, rfl, hresult.symm⟩

end Members

/-! ## Histories -/

/-- A call of `fork` that has returned a number: the lives of the caller and of the child. -/
structure Fork where
  forker : ℕ
  child : ℕ
  pid : ℤ

/-- What the caller can see of it. -/
def Fork.seen (f : Fork) : ℕ × ℤ := (f.forker, f.pid)

/-- Of the processes on a list those that have parents, as their parents see them. -/
def children (procs : ℕ → Proc) (life : ℕ → ℕ) (list : List ℕ) : List (ℕ × ℤ) :=
  (list.filter fun q => (procs q).parent ≠ 0).map fun q => (life (procs q).parent, (procs q).pid)

/-- A kernel with its past.  `life p` is the life that the structure `p` is in, `waits` are the calls
of `process_wait` that have returned a number, by the lives of the callers. -/
structure History where
  kernel : Kernel
  life : ℕ → ℕ
  born : ℕ
  forks : List Fork
  waits : List (ℕ × ℤ)

namespace History

/-- A structure starts a life. -/
def begun (h : History) (k : Kernel) (p : ℕ) : History :=
  { h with
    kernel := k
    life := Function.update h.life p h.born
    born := h.born + 1 }

/-- `fork` has returned `ret`; the child is the last process on the list. -/
def forked (h : History) (k : Kernel) (p : ℕ) (ret : ℤ) : History :=
  if ret = -1 then { h with kernel := k }
  else
    { h.begun k (k.processList.getLastD 0) with
      forks := ⟨h.life p, h.born, ret⟩ :: h.forks }

/-- `process_wait` has returned `ret`. -/
def waited (h : History) (k : Kernel) (p : ℕ) (ret : Option ℤ) : History :=
  { h with
    kernel := k
    waits := (ret.filter fun number => number ≠ -1).toList.map (h.life p, ·) ++ h.waits }

def next (image : Image) (h : History) : Action → Except Stop History
  | .create cur => do
      let (p, k) ← processCreate image h.kernel cur
      .ok (if p = 0 then { h with kernel := k } else h.begun k p)
  | .fork p => do
      let (ret, k) ← fork image h.kernel p
      .ok (h.forked k p ret)
  | .exit p state => do
      let k ← processExit image h.kernel p state
      .ok { h with kernel := k }
  | .wait p pid => do
      let (ret, k) ← processWait image h.kernel p pid
      .ok (h.waited k p ret)

def Step (image : Image) (h : History) (action : Action) (h' : History) : Prop :=
  h.next image action = .ok h'

/-- The first process is made by no process, and the other calls are made by processes on the
list. -/
def Called (h : History) : Action → Prop
  | .create cur => cur = 0
  | .fork p => p ∈ h.kernel.processList
  | .exit p _ => p ∈ h.kernel.processList
  | .wait p _ => p ∈ h.kernel.processList

/-- The child that `process_wait` finds is the parent of no process on the list. -/
def Childless (h : History) : Action → Prop
  | .create _ => True
  | .fork _ => True
  | .exit _ _ => True
  | .wait p pid => ∀ child, h.kernel.ended p pid = some child →
      ∀ q ∈ h.kernel.processList, (h.kernel.procs q).parent ≠ child

instance (h : History) : DecidablePred h.Called
  | .create cur => inferInstanceAs (Decidable (cur = 0))
  | .fork p => inferInstanceAs (Decidable (p ∈ h.kernel.processList))
  | .exit p _ => inferInstanceAs (Decidable (p ∈ h.kernel.processList))
  | .wait p _ => inferInstanceAs (Decidable (p ∈ h.kernel.processList))

instance (h : History) : DecidablePred h.Childless
  | .create _ => .isTrue trivial
  | .fork _ => .isTrue trivial
  | .exit _ _ => .isTrue trivial
  | .wait p pid => inferInstanceAs (Decidable (∀ child ∈ h.kernel.ended p pid,
      ∀ q ∈ h.kernel.processList, (h.kernel.procs q).parent ≠ child))

/-- A call within the guard. -/
def guarded (image : Image) (h : History) (action : Action) : Option History :=
  if h.Called action ∧ h.Childless action then (h.next image action).toOption else none

/-- The children on the list, as their parents see them. -/
def pending (h : History) : List (ℕ × ℤ) :=
  children h.kernel.procs h.life h.kernel.processList

/-- The process `p` has forked a child with this number more often than waited for one. -/
def Owed (h : History) (p : ℕ) (number : ℤ) : Prop :=
  h.waits.count (h.life p, number) < (h.forks.map Fork.seen).count (h.life p, number)

end History

/-- The parent of a process on the list is on the list and has forked it, and the forks are the
calls of `process_wait` with the children on the list. -/
structure Families (h : History) : Prop where
  bound : ∀ p ∈ h.kernel.processList, h.life p < h.born
  distinct : ∀ p ∈ h.kernel.processList, ∀ q ∈ h.kernel.processList, h.life p = h.life q → p = q
  older : ∀ f ∈ h.forks, f.forker < f.child ∧ f.child < h.born
  once : (h.forks.map Fork.child).Nodup
  parents : ∀ q ∈ h.kernel.processList, (h.kernel.procs q).parent = 0 ∨
    (h.kernel.procs q).parent ∈ h.kernel.processList ∧
      ⟨h.life (h.kernel.procs q).parent, h.life q, (h.kernel.procs q).pid⟩ ∈ h.forks
  account : (h.forks.map Fork.seen).Perm (h.waits ++ h.pending)

section Histories

variable {image : Image} {h h' start : History} {k' : Kernel} {p q np : ℕ} {ret : ℤ}
  {ledger : Ledger}

/-! ## One call -/

theorem Keeps.ne_zero {k : Kernel} (hkeeps : Keeps image k ledger) (hp : p ∈ k.processList) :
    p ≠ 0 := by
  rintro rfl
  exact object_unaligned hkeeps.structures.slab (hkeeps.structures.live 0 hp) rfl

/-- A parent is older than its child. -/
theorem Families.ne_parent (hlaw : Families h) (hq : q ∈ h.kernel.processList)
    (hparent : (h.kernel.procs q).parent ≠ 0) : (h.kernel.procs q).parent ≠ q := by
  obtain ⟨-, hfork⟩ := (hlaw.parents q hq).resolve_left hparent
  intro heq
  have hlt := (hlaw.older _ hfork).1
  rw [heq] at hlt
  exact absurd hlt (lt_irrefl _)

theorem children_congr {procs procs' : ℕ → Proc} {life life' : ℕ → ℕ} {list : List ℕ}
    (hkin : ∀ q ∈ list, SameKin (procs q) (procs' q))
    (hlife : ∀ q ∈ list, (procs q).parent ≠ 0 → life' (procs q).parent = life (procs q).parent) :
    children procs' life' list = children procs life list := by
  have hfilter : list.filter (fun q => (procs' q).parent ≠ 0) =
      list.filter fun q => (procs q).parent ≠ 0 :=
    List.filter_congr fun q hq => by rw [(hkin q hq).parent]
  rw [children, children, hfilter]
  refine List.map_congr_left fun q hq => ?_
  obtain ⟨hq, hparent⟩ := List.mem_filter.mp hq
  rw [(hkin q hq).parent, (hkin q hq).pid, hlife q hq (of_decide_eq_true hparent)]

/-- Only what does not belong to the families changes. -/
theorem Families.congr (hlaw : Families h) (hlist : k'.processList = h.kernel.processList)
    (hkin : ∀ q ∈ h.kernel.processList, SameKin (h.kernel.procs q) (k'.procs q)) :
    Families { h with kernel := k' } := by
  refine ⟨fun p hp => hlaw.bound p (hlist ▸ hp), fun p hp q hq => hlaw.distinct p (hlist ▸ hp) q
    (hlist ▸ hq), hlaw.older, hlaw.once, fun q hq => ?_, ?_⟩
  · have hq : q ∈ h.kernel.processList := hlist ▸ hq
    dsimp only
    rw [(hkin q hq).parent, (hkin q hq).pid, hlist]
    exact hlaw.parents q hq
  · show (h.forks.map Fork.seen).Perm (h.waits ++ children k'.procs h.life k'.processList)
    rw [hlist, children_congr hkin fun q _ _ => rfl]
    exact hlaw.account

theorem Families.unjoined (hlaw : Families h) (hsame : Unjoined h.kernel k') :
    Families { h with kernel := k' } :=
  hlaw.congr hsame.list fun q hq => by
    rw [hsame.others q hq]
    exact ⟨rfl, rfl⟩

/-- The children on the list, when a process joins it. -/
theorem Families.pending_begun (hlaw : Families h) {cur : ℕ}
    (hjoined : Joined h.kernel k' np cur ret) (hcur : cur ≠ 0 → cur ∈ h.kernel.processList) :
    (h.begun k' np).pending =
      h.pending ++ if cur = 0 then [] else [(h.life cur, ret)] := by
  have hne : ∀ q ∈ h.kernel.processList, q ≠ np := fun q hq heq => hjoined.new (heq ▸ hq)
  have hlife : ∀ q ∈ h.kernel.processList, Function.update h.life np h.born q = h.life q :=
    fun q hq => Function.update_of_ne (hne q hq) _ _
  have hold : children k'.procs (Function.update h.life np h.born) h.kernel.processList =
      h.pending := by
    refine children_congr (fun q hq => ?_) fun q hq hparent => ?_
    · rw [hjoined.others q (hne q hq)]
      exact ⟨rfl, rfl⟩
    · exact hlife _ ((hlaw.parents q hq).resolve_left hparent).1
  have hnew : children k'.procs (Function.update h.life np h.born) [np] =
      if cur = 0 then [] else [(h.life cur, ret)] := by
    by_cases hzero : cur = 0
    · simp [children, hjoined.parent, hzero]
    · simp [children, hjoined.parent, hjoined.pid, hzero, hlife cur (hcur hzero)]
  rw [← hold, ← hnew, History.pending, History.begun, hjoined.list, children, List.filter_append,
    List.map_append]
  rfl

/-- The laws, when a process joins the list. -/
theorem Families.begun (hlaw : Families h) {cur : ℕ} (hjoined : Joined h.kernel k' np cur ret)
    (hcur : cur ≠ 0 → cur ∈ h.kernel.processList) {forks : List Fork}
    (hforks : forks = if cur = 0 then h.forks else ⟨h.life cur, h.born, ret⟩ :: h.forks) :
    Families { h.begun k' np with forks := forks } := by
  have hne : ∀ q ∈ h.kernel.processList, q ≠ np := fun q hq heq => hjoined.new (heq ▸ hq)
  have hmem : ∀ q, q ∈ k'.processList ↔ q ∈ h.kernel.processList ∨ q = np := fun q => by
    rw [hjoined.list, List.mem_append, List.mem_singleton]
  have hlife : ∀ q ∈ h.kernel.processList, Function.update h.life np h.born q = h.life q :=
    fun q hq => Function.update_of_ne (hne q hq) _ _
  have hself : Function.update h.life np h.born np = h.born := Function.update_self _ _ _
  have hforks' : ∀ f, f ∈ forks ↔ f ∈ h.forks ∨ cur ≠ 0 ∧ f = ⟨h.life cur, h.born, ret⟩ := by
    intro f
    rw [hforks]
    split
    · rename_i hzero
      simp [hzero]
    · rename_i hzero
      rw [List.mem_cons, or_comm, and_iff_right hzero]
  refine ⟨fun q hq => ?_, fun q hq r hr hqr => ?_, fun f hf => ?_, ?_, fun q hq => ?_, ?_⟩
  · show Function.update h.life np h.born q < h.born + 1
    obtain hq | rfl := (hmem q).mp hq
    · rw [hlife q hq]
      exact Nat.lt_succ_of_lt (hlaw.bound q hq)
    · rw [hself]
      exact Nat.lt_succ_self _
  · change Function.update h.life np h.born q = Function.update h.life np h.born r at hqr
    obtain hq' | hq' := (hmem q).mp hq <;> obtain hr' | hr' := (hmem r).mp hr
    · rw [hlife q hq', hlife r hr'] at hqr
      exact hlaw.distinct q hq' r hr' hqr
    · rw [hlife q hq', hr', hself] at hqr
      exact absurd hqr (hlaw.bound q hq').ne
    · rw [hlife r hr', hq', hself] at hqr
      exact absurd hqr.symm (hlaw.bound r hr').ne
    · exact hq'.trans hr'.symm
  · obtain hf | ⟨hzero, rfl⟩ := (hforks' f).mp hf
    · exact ⟨(hlaw.older f hf).1, Nat.lt_succ_of_lt (hlaw.older f hf).2⟩
    · exact ⟨hlaw.bound cur (hcur hzero), Nat.lt_succ_self _⟩
  · change (forks.map Fork.child).Nodup
    rw [hforks]
    split
    · exact hlaw.once
    · refine List.nodup_cons.mpr ⟨fun hmem => ?_, hlaw.once⟩
      obtain ⟨f, hf, heq⟩ := List.mem_map.mp hmem
      exact absurd heq (hlaw.older f hf).2.ne
  · show (k'.procs q).parent = 0 ∨ (k'.procs q).parent ∈ k'.processList ∧
      (⟨Function.update h.life np h.born (k'.procs q).parent, Function.update h.life np h.born q,
        (k'.procs q).pid⟩ : Fork) ∈ forks
    obtain hq | rfl := (hmem q).mp hq
    · rw [hjoined.others q (hne q hq), hlife q hq]
      refine (hlaw.parents q hq).imp_right fun hparent => ⟨(hmem _).mpr (.inl hparent.1), ?_⟩
      rw [hlife _ hparent.1]
      exact (hforks' _).mpr (.inl hparent.2)
    · rw [hjoined.parent, hjoined.pid, hself]
      refine or_iff_not_imp_left.mpr fun hzero => ⟨(hmem _).mpr (.inl (hcur hzero)), ?_⟩
      rw [hlife cur (hcur hzero)]
      exact (hforks' _).mpr (.inr ⟨hzero, rfl⟩)
  · show (forks.map Fork.seen).Perm (h.waits ++ (h.begun k' np).pending)
    rw [hlaw.pending_begun hjoined hcur, hforks]
    split
    · rw [List.append_nil]
      exact hlaw.account
    · rw [List.map_cons, ← List.append_assoc]
      exact (hlaw.account.cons _).trans (List.perm_append_singleton _ _).symm

/-- The laws, when `process_wait` takes a child without children off the list. -/
theorem Families.reaped (hlaw : Families h) (hnodup : h.kernel.processList.Nodup) {child : ℕ}
    (hchild : child ∈ h.kernel.processList) (hparent : (h.kernel.procs child).parent ≠ 0)
    (hlist : k'.processList = h.kernel.processList.erase child)
    (hothers : ∀ q ≠ child, k'.procs q = h.kernel.procs q)
    (hnone : ∀ q ∈ h.kernel.processList, (h.kernel.procs q).parent ≠ child) :
    Families { h with
      kernel := k'
      waits := (h.life (h.kernel.procs child).parent, (h.kernel.procs child).pid) :: h.waits } := by
  have hmem : ∀ q, q ∈ k'.processList ↔ q ≠ child ∧ q ∈ h.kernel.processList := fun q => by
    rw [hlist]
    exact hnodup.mem_erase_iff
  refine ⟨fun q hq => hlaw.bound q ((hmem q).mp hq).2, fun q hq r hr =>
    hlaw.distinct q ((hmem q).mp hq).2 r ((hmem r).mp hr).2, hlaw.older, hlaw.once, fun q hq => ?_, ?_⟩
  · obtain ⟨hne, hq⟩ := (hmem q).mp hq
    show (k'.procs q).parent = 0 ∨ (k'.procs q).parent ∈ k'.processList ∧
      (⟨h.life (k'.procs q).parent, h.life q, (k'.procs q).pid⟩ : Fork) ∈ h.forks
    rw [hothers q hne]
    exact (hlaw.parents q hq).imp_right fun hin => ⟨(hmem _).mpr ⟨hnone q hq, hin.1⟩, hin.2⟩
  · have hrest : children k'.procs h.life k'.processList =
        children h.kernel.procs h.life (h.kernel.processList.erase child) := by
      rw [hlist]
      refine children_congr (fun q hq => ?_) fun q _ _ => rfl
      rw [hothers q (hnodup.mem_erase_iff.mp hq).1]
      exact ⟨rfl, rfl⟩
    have hpending : h.pending.Perm
        ((h.life (h.kernel.procs child).parent, (h.kernel.procs child).pid) ::
          children k'.procs h.life k'.processList) := by
      have hsplit := ((List.perm_cons_erase hchild).filter fun q =>
        (h.kernel.procs q).parent ≠ 0).map fun q =>
          (h.life (h.kernel.procs q).parent, (h.kernel.procs q).pid)
      rw [List.filter_cons_of_pos (by simpa using hparent), List.map_cons] at hsplit
      rw [hrest]
      exact hsplit
    exact (hlaw.account.trans (hpending.append_left h.waits)).trans List.perm_middle

theorem step_of_next {action : Action} (hcalled : h.Called action)
    (hnext : h.next image action = .ok h') : Process.Step image h.kernel action h'.kernel := by
  cases action with
  | create cur =>
      obtain ⟨⟨p, k⟩, hcreate, hnext⟩ := bind_eq_ok hnext
      obtain rfl := Except.ok.inj hnext
      refine ⟨p, hcreate.trans ?_⟩
      split <;> rfl
  | fork p =>
      obtain ⟨⟨ret, k⟩, hfork, hnext⟩ := bind_eq_ok hnext
      obtain rfl := Except.ok.inj hnext
      refine ⟨hcalled, ret, hfork.trans ?_⟩
      dsimp only [History.forked]
      split <;> rfl
  | exit p state =>
      obtain ⟨k, hexit, hnext⟩ := bind_eq_ok hnext
      obtain rfl := Except.ok.inj hnext
      exact ⟨hcalled, hexit⟩
  | wait p pid =>
      obtain ⟨⟨ret, k⟩, hwait, hnext⟩ := bind_eq_ok hnext
      obtain rfl := Except.ok.inj hnext
      exact ⟨ret, hwait⟩

/-- A call keeps the laws if and only if it reaps no parent. -/
theorem Families.next {action : Action} (hsymbols : image.Ok) (horder : InOrder image h.kernel)
    (hlaw : Families h) (hcalled : h.Called action) (hnext : h.next image action = .ok h') :
    Families h' ↔ h.Childless action := by
  obtain ⟨ledger, hkeeps, hsettled⟩ := horder
  cases action with
  | create cur =>
      obtain ⟨⟨p, k⟩, hcreate, hnext⟩ := bind_eq_ok hnext
      obtain rfl := Except.ok.inj hnext
      have hcur : cur = 0 := hcalled
      refine iff_of_true ?_ trivial
      obtain ⟨hzero, hsame⟩ | ⟨hne, hjoined⟩ := hkeeps.create_joined hsymbols hsettled hcreate
      · rw [if_pos hzero]
        exact hlaw.unjoined hsame
      · rw [if_neg hne]
        exact hlaw.begun hjoined (fun h => absurd hcur h) (if_pos hcur).symm
  | fork p =>
      obtain ⟨⟨ret, k⟩, hfork, hnext⟩ := bind_eq_ok hnext
      obtain rfl := Except.ok.inj hnext
      refine iff_of_true ?_ trivial
      dsimp only [History.forked]
      obtain ⟨hret, hsame⟩ | ⟨hret, np, hjoined⟩ :=
        hkeeps.fork_joined hsymbols hsettled hcalled hfork
      · rw [if_pos hret]
        exact hlaw.unjoined hsame
      · have hlast : k.processList.getLastD 0 = np := by
          rw [hjoined.list, List.getLastD_concat]
        rw [if_neg hret, hlast]
        exact hlaw.begun hjoined (fun _ => hcalled) (if_neg (hkeeps.ne_zero hcalled)).symm
  | exit p state =>
      obtain ⟨k, hexit, hnext⟩ := bind_eq_ok hnext
      obtain rfl := Except.ok.inj hnext
      have honly := processExit_only hexit
      exact iff_of_true (hlaw.congr honly.list fun q _ => honly.kin_all q) trivial
  | wait p pid =>
      obtain ⟨⟨ret, k⟩, hwait, hnext⟩ := bind_eq_ok hnext
      obtain rfl := Except.ok.inj hnext
      obtain ⟨hended, rfl, hret⟩ | ⟨child, hended, rfl, hlist, hothers⟩ :=
        hkeeps.wait_found hsymbols hsettled hwait
      · have hsame : h.waited h.kernel p ret = h := by
          rw [History.waited, hret]
          split <;> rfl
        rw [hsame]
        refine iff_of_true hlaw fun child hchild => ?_
        rw [hended] at hchild
        cases hchild
      · obtain ⟨hchild, hparent, -⟩ := Kernel.ended_spec hended
        have hzero : (h.kernel.procs child).parent ≠ 0 := by
          rw [hparent]
          exact hkeeps.ne_zero hcalled
        have hnumber := hkeeps.number_pos hchild
        have hafter : h.waited k p (some (h.kernel.procs child).pid) = { h with
            kernel := k
            waits := (h.life (h.kernel.procs child).parent, (h.kernel.procs child).pid) ::
              h.waits } := by
          have hne : (h.kernel.procs child).pid ≠ -1 := by omega
          simp [History.waited, Option.filter, hparent, hne]
        rw [hafter]
        refine ⟨fun hlaw' found hfound q hq hdangling => ?_, fun hnone =>
          hlaw.reaped hkeeps.structures.nodup hchild hzero hlist hothers (hnone child hended)⟩
        obtain rfl := Option.some.inj (hended.symm.trans hfound)
        have hqzero : (h.kernel.procs q).parent ≠ 0 := by
          rw [hdangling]
          exact hkeeps.ne_zero hchild
        have hne : q ≠ child := fun heq => hlaw.ne_parent hq hqzero (hdangling.trans heq.symm)
        have hstays : q ∈ k.processList := by
          rw [hlist]
          exact (List.mem_erase_of_ne hne).mpr hq
        have hlost := hlaw'.parents q hstays
        dsimp only at hlost
        rw [hothers q hne, hdangling, hlist] at hlost
        obtain hlost | hlost := hlost
        · exact hkeeps.ne_zero hchild hlost
        · exact hkeeps.structures.nodup.not_mem_erase hlost.1

/-! ## What `process_wait` returns -/

/-- A process is owed what its children on the list have as numbers. -/
theorem Families.owed_iff (hlaw : Families h) (hp : p ∈ h.kernel.processList) (hzero : p ≠ 0)
    {number : ℤ} : h.Owed p number ↔ ∃ q ∈ h.kernel.processList,
      (h.kernel.procs q).parent = p ∧ (h.kernel.procs q).pid = number := by
  rw [History.Owed, hlaw.account.count_eq, List.count_append, Nat.lt_add_right_iff_pos,
    List.count_pos_iff, History.pending, children]
  constructor
  · intro hmem
    obtain ⟨q, hq, heq⟩ := List.mem_map.mp hmem
    obtain ⟨hq, hparent⟩ := List.mem_filter.mp hq
    obtain ⟨hin, -⟩ := (hlaw.parents q hq).resolve_left (of_decide_eq_true hparent)
    obtain ⟨hlife, hpid⟩ := Prod.mk.inj heq
    exact ⟨q, hq, hlaw.distinct _ hin p hp hlife, hpid⟩
  · rintro ⟨q, hq, rfl, rfl⟩
    exact List.mem_map.mpr ⟨q, List.mem_filter.mpr ⟨hq, decide_eq_true hzero⟩, rfl⟩

/-- `process_wait` returns a number that the caller is owed, or -1 when it is owed none that it asks
for; otherwise it sleeps. -/
structure Answers (h : History) (p : ℕ) (pid : ℤ) (ret : Option ℤ) : Prop where
  number : ∀ number, ret = some number → number ≠ -1 →
    h.Owed p number ∧ (pid = 0 ∨ number = pid)
  none_left : ret = some (-1) ↔ ∀ number, pid = 0 ∨ number = pid → ¬ h.Owed p number

theorem Families.answers {pid : ℤ} {ret : Option ℤ} (hsymbols : image.Ok)
    (horder : InOrder image h.kernel) (hlaw : Families h) (hp : p ∈ h.kernel.processList)
    (hwait : processWait image h.kernel p pid = .ok (ret, k')) : Answers h p pid ret := by
  obtain ⟨ledger, hkeeps, hsettled⟩ := horder
  have howed : ∀ {number : ℤ}, h.Owed p number ↔ _ := hlaw.owed_iff hp (hkeeps.ne_zero hp)
  obtain ⟨-, -, hret⟩ | ⟨child, hended, rfl, -⟩ := hkeeps.wait_found hsymbols hsettled hwait
  · refine ⟨fun number heq hne => ?_, ?_⟩
    · rw [hret] at heq
      split at heq
      · exact absurd (Option.some.inj heq).symm hne
      · cases heq
    · have hnone : ret = some (-1) ↔ h.kernel.processList.filter (h.kernel.waitsFor p pid) = [] := by
        rw [hret]
        split <;> simp_all
      rw [hnone, List.filter_eq_nil_iff]
      simp only [howed, Kernel.waitsFor, Bool.and_eq_true, Bool.or_eq_true, decide_eq_true_eq]
      grind
  · obtain ⟨hchild, hparent, hnumber, -⟩ := Kernel.ended_spec hended
    have howes := howed.mpr ⟨child, hchild, hparent, rfl⟩
    refine ⟨fun number heq _ => ?_, fun heq => ?_, fun hnone => absurd howes (hnone _ hnumber)⟩
    · obtain rfl := Option.some.inj heq
      exact ⟨howes, hnumber⟩
    · have hpos := hkeeps.number_pos hchild
      rw [Option.some.inj heq] at hpos
      omega

/-! ## Runs -/

/-- In every run in which no parent is reaped, the parent of each process on the list is on the list
and has forked it, and each number that `fork` has returned is returned once to the forker by
`process_wait`.  The next call keeps this up if and only if it reaps no parent. -/
theorem families_of_reach (hsymbols : image.Ok) (hstart : InOrder image start.kernel)
    (hlaw : Families start)
    (hreach : Reach (History.Step image) (fun h action => h.Called action ∧ h.Childless action)
      start h) :
    Families h ∧
      (∀ action h', h.Called action → h.next image action = .ok h' →
        (Families h' ↔ h.Childless action)) ∧
      ∀ p ∈ h.kernel.processList, ∀ pid ret k',
        processWait image h.kernel p pid = .ok (ret, k') → Answers h p pid ret := by
  have hinv : InOrder image h.kernel ∧ Families h := by
    refine @Reach.invariant _ _ _ _ _ _ (fun h => InOrder image h.kernel ∧ Families h) hreach
      ⟨hstart, hlaw⟩ ?_
    rintro before action after ⟨horder, hlaw⟩ ⟨hcalled, hnone⟩ hnext
    exact ⟨horder.step hsymbols (step_of_next hcalled hnext),
      (hlaw.next hsymbols horder hcalled hnext).mpr hnone⟩
  obtain ⟨horder, hlaw'⟩ := hinv
  exact ⟨hlaw', fun action h' hcalled hnext => hlaw'.next hsymbols horder hcalled hnext,
    fun p hp pid ret k' hwait => hlaw'.answers hsymbols horder hp hwait⟩

/-! ## A family of two -/

/-- A process on the list gets a stack page. -/
theorem InOrder.setupStack {k : Kernel} {sp : Option ℕ} {pm : Pm} (horder : InOrder image k)
    (hp : p ∈ k.processList) (hroot : (k.procs p).pagetable ≠ 0)
    (hnone : translate k.pm.mem (k.procs p).pagetable stackVa = none)
    (hstack : PageTable.setupStack image.kernelEnd k.pm (k.procs p).pagetable = .ok (sp, pm)) :
    InOrder image (k.setPm pm) := by
  obtain ⟨ledger, hkeeps, hsettled⟩ := horder
  obtain ⟨pid, hdeparted⟩ := hkeeps.departed hsettled hp
  have huser := (hkeeps.spaces.user p hp).mpr hroot
  have hown : Owned image.kernelEnd (share ledger.owner (.space p)) k.pm (k.procs p).pagetable
      (ledger.tables (.space p)) := hkeeps.shared.owned (.space p) huser
  have hpages := hkeeps.spaces.kernel p huser
  obtain ⟨sp', pm', tables', hstack', hresult⟩ := hown.stack hnone
  obtain ⟨rfl, rfl⟩ := Prod.mk.inj (Except.ok.inj (hstack.symm.trans hstack'))
  obtain ⟨hown', halloc, hsame⟩ : Owned image.kernelEnd (share ledger.owner (.space p)) pm
      (k.procs p).pagetable tables' ∧ Allocates k.pm pm (ledger.tables (.space p)) tables' ∧
      SameOutside k.pm.mem pm.mem (k.procs p).pagetable (ustack - pgSize) ustack := by
    obtain ⟨-, hown', halloc, -, hsame⟩ | ⟨-, hundone⟩ := hresult
    · exact ⟨hown', halloc, hsame⟩
    · exact ⟨hundone.own, hundone.allocates, fun va hva _ => hundone.same va hva⟩
  obtain ⟨ledger', hfilled⟩ := @Departed.space _ { k with processList := k.processList.erase p } _ _ _
    hdeparted huser pm tables' hown' halloc
    ⟨(hsame _ (by decide) (.inr (by decide))).trans hpages.trampoline,
      (hsame _ (by decide) (.inr (by decide))).trans hpages.trapFrame⟩
  have hback : Keeps image (k.setPm pm) { ledger' with transit := ∅ } :=
    hfilled.departed.arrive (fun q => ?_) hkeeps.structures.nodup (hkeeps.spaces.ended p hp)
  · refine ⟨_, hback, rfl, fun q hq => hsettled.users q ?_⟩
    have husers : ledger'.users = ledger.users := hfilled.users
    rwa [← husers]
  · by_cases hq : q = p
    · exact iff_of_true (hq ▸ hp) (.inl hq)
    · rw [or_iff_right hq]
      exact (List.mem_erase_of_ne hq).symm

theorem reach_of_guarded_calls {actions : List Action}
    (hfollow : follow (History.guarded image) actions start = some h) :
    Reach (History.Step image) (fun h action => h.Called action ∧ h.Childless action) start h := by
  refine Transition.reach_of_guarded (fun before action after hnext => ?_) hfollow
  rw [History.guarded] at hnext
  split at hnext
  · rename_i hguard
    refine ⟨hguard, ?_⟩
    rw [History.Step]
    cases hresult : before.next image action with
    | error stop =>
        rw [hresult] at hnext
        cases hnext
    | ok after' =>
        rw [hresult] at hnext
        exact congrArg _ (Option.some.inj hnext)
  · cases hnext

end Histories

/-- The first process with a stack page. -/
def firstKernel : Kernel :=
  match setupStack smallImage.kernelEnd (withProcesses 1).pm
    ((withProcesses 1).procs firstProc).pagetable with
  | .ok (_, pm) => (withProcesses 1).setPm pm
  | .error _ => withProcesses 1

def firstHistory : History := ⟨firstKernel, fun _ => 0, 1, [], []⟩

theorem firstHistory_inOrder : InOrder smallImage firstHistory.kernel := by
  have horder := withProcesses_inOrder 1
  change InOrder smallImage firstKernel
  rw [firstKernel]
  split
  · rename_i sp pm hstack
    exact horder.setupStack (by decide +kernel) (by decide +kernel) (by decide +kernel) hstack
  · exact horder

theorem families_firstHistory : Families firstHistory := by
  have hlist : firstKernel.processList = [firstProc] := by decide +kernel
  have hparent : (firstKernel.procs firstProc).parent = 0 := by decide +kernel
  have honly : ∀ q ∈ firstHistory.kernel.processList, q = firstProc := fun q hq =>
    List.mem_singleton.mp (hlist ▸ hq)
  refine ⟨fun q hq => Nat.zero_lt_one, fun p hp q hq _ => (honly p hp).trans (honly q hq).symm,
    fun f hf => absurd hf List.not_mem_nil, List.nodup_nil, fun q hq => .inl ?_, ?_⟩
  · rw [honly q hq]
    exact hparent
  · rw [History.pending, firstHistory, children, hlist, List.filter_cons_of_neg (by simpa using hparent)]
    exact .refl _

/-- The child of the first process has a child of its own. -/
theorem families_grandchild : ∃ h, follow (History.guarded smallImage)
      [.fork firstProc, .fork (firstProc + 392)] firstHistory = some h ∧
    h.forks.map Fork.seen = [(1, 2), (0, 1)] ∧ Families h := by
  have hrun : (follow (History.guarded smallImage)
      [.fork firstProc, .fork (firstProc + 392)] firstHistory).map
        (fun h => h.forks.map Fork.seen) = some [(1, 2), (0, 1)] := by decide +kernel
  cases hfollow : follow (History.guarded smallImage)
      [.fork firstProc, .fork (firstProc + 392)] firstHistory with
  | none =>
      rw [hfollow] at hrun
      cases hrun
  | some h =>
      rw [hfollow] at hrun
      exact ⟨h, rfl, Option.some.inj hrun, (families_of_reach smallImage_ok firstHistory_inOrder
        families_firstHistory (reach_of_guarded_calls hfollow)).1⟩

end Painting.Process
