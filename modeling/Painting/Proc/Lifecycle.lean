import Painting.Proc.Ledger

/-!
# The life of a process

`process_create`, `fork`, `process_exit` and `process_wait` keep the ledger, whether they succeed or
unwind.
-/

namespace Painting.Process

open Painting.Memory Painting.PageTable

theorem bind_eq_ok {α β : Type} {x : Except Stop α} {f : α → Except Stop β} {b : β}
    (hbind : x >>= f = .ok b) : ∃ a, x = .ok a ∧ f a = .ok b := by
  cases x with
  | error stop => cases hbind
  | ok a => exact ⟨a, rfl, hbind⟩

theorem bind_of_ok {α β : Type} {x : Except Stop α} {f : α → Except Stop β} {a : α}
    (hok : x = .ok a) : x >>= f = f a := by
  rw [hok]
  rfl

theorem ite_bind_of_ok {α β : Type} {c : Prop} [Decidable c] {x y : Except Stop α}
    {f : α → Except Stop β} {a : α} (hok : (if c then x else y) = .ok a) :
    (if c then x >>= f else y >>= f) = f a := by
  by_cases hc : c
  · rw [if_pos hc] at hok ⊢
    exact bind_of_ok hok
  · rw [if_neg hc] at hok ⊢
    exact bind_of_ok hok

/-! ## `process_create` -/

section Create

variable {image : Image} {k k' : Kernel} {ledger : Ledger} {p pid : ℕ}

/-- A structure that belongs to no process is written. -/
theorem Keeps.setProc (hkeeps : Keeps image k ledger) (hp : p ∉ k.processList)
    (huser : p ∉ ledger.users) (change : Proc → Proc) : Keeps image (k.setProc p change) ledger := by
  refine hkeeps.congr rfl ⟨rfl, rfl, rfl, rfl, fun q hq => ?_⟩
  have hne : q ≠ p := by
    rintro rfl
    exact hq.elim hp huser
  rw [k.setProc_of_ne change hne]
  exact SameBody.refl _

theorem Keeps.tableOk (hkeeps : Keeps image k ledger) (htransit : ledger.transit = ∅) :
    TableOk image k (share ledger.owner .kernel) (ledger.tables .kernel) := by
  refine ⟨hkeeps.shared.owned .kernel ledger.kernel_mem, hkeeps.kstacks.trampoline, ?_⟩
  intro pid hpid hclear
  refine hkeeps.kstacks.free pid hpid ?_ hclear
  rw [htransit]
  exact Set.notMem_empty pid

/-- The pages of the trapframe and of the kernel stack. -/
theorem Keeps.withPages (hkeeps : Keeps image k ledger) (hp : p ∉ k.processList)
    (huser : p ∉ ledger.users) {trapframe kstack : ℕ} {rest : List ℕ}
    (hlist : k.pm.freelist = trapframe :: kstack :: rest) :
    ∃ ledger', Keeps image (k.withPages p trapframe kstack rest) ledger' ∧
      ledger'.users = ledger.users ∧ ledger'.transit = ledger.transit ∧
      ledger'.slabs = ledger.slabs ∧ ledger'.owner trapframe = .party (.body p) ∧
      ledger'.owner kstack = .party (.body p) ∧ Allocatable image.kernelEnd trapframe ∧
      Allocatable image.kernelEnd kstack ∧ trapframe ≠ kstack ∧
      Spares {.body p} ledger.owner ledger'.owner k.pm.mem
        (twoTaken k.pm.mem trapframe kstack rest).mem := by
  have hnodup := hkeeps.shared.nodup
  rw [hlist] at hnodup
  obtain ⟨hnotFrame, -⟩ := List.nodup_cons.mp hnodup
  have hplain : ∀ q, Party.body p ≠ .space q := fun q heq => by cases heq
  obtain ⟨htake, hframe, hgood, hspares⟩ := @Keeps.take _ _ _ (.body p) hkeeps hp hplain _ _ hlist
  obtain ⟨htake', hstack, hgood', hspares'⟩ :=
    @Keeps.take _ _ _ (.body p) htake hp hplain kstack rest rfl
  refine ⟨_, htake'.setProc hp huser _, rfl, rfl, rfl, ?_, hstack, hgood, hgood', ?_,
    hspares.trans hspares'⟩
  · refine (reown_of_other ?_ ?_).trans hframe
    · exact fun hmem => hnotFrame (List.mem_cons_of_mem _ hmem)
    · intro heq
      cases hframe.symm.trans heq
  · rintro rfl
    exact hnotFrame List.mem_cons_self

/-- The kernel's table is made of the same pages after a step that spares it. -/
theorem Keeps.tablePage_iff (hkeeps : Keeps image k ledger) {acting : Set Party}
    {owner' : ℕ → Owner Party} {mem' : Mem}
    (hspares : Spares acting ledger.owner owner' k.pm.mem mem') (hkernel : .kernel ∉ acting)
    (page : ℕ) :
    TablePage mem' k.kernelPagetable page ↔ TablePage k.pm.mem k.kernelPagetable page := by
  have htree : WellFormed k.pm.mem k.kernelPagetable (ledger.tables .kernel) :=
    (hkeeps.shared.owned .kernel ledger.kernel_mem).tree
  have htree' : WellFormed mem' k.kernelPagetable (ledger.tables .kernel) := by
    refine htree.frame fun x hx => ?_
    rw [outside_iff, not_not] at hx
    exact hspares.same .kernel hkernel x (hkeeps.shared.table_owner ledger.kernel_mem hx)
  exact htree'.tablePage_iff.trans htree.tablePage_iff.symm

/-- The pages that are free no more have become tables of the kernel. -/
structure TookTables (k k' : Kernel) : Prop where
  back : ∀ page ∈ k'.pm.freelist, page ∈ k.pm.freelist
  spent : ∀ page ∈ k.pm.freelist,
    page ∈ k'.pm.freelist ∨ TablePage k'.pm.mem k'.kernelPagetable page
  source : ∀ page, TablePage k'.pm.mem k'.kernelPagetable page →
    TablePage k.pm.mem k.kernelPagetable page ∨ page ∈ k.pm.freelist

/-- The number is taken and the stack mapped, or the tables for the mapping are missing. -/
theorem Keeps.mapStack (hkeeps : Keeps image k ledger) (htransit : ledger.transit = ∅)
    (hpid : Bitmap.firstClear k.pidBitmap 0 maxPid = some pid) (hp : p ∉ k.processList)
    (huser : p ∉ ledger.users) {kstack : ℕ} (hgood : Allocatable image.kernelEnd kstack) :
    ∃ ret pm, mappages k.pm k.kernelPagetable (kstackVa pid) kstack pgSize (pteR ||| pteW) =
        .ok (ret, pm) ∧
      (ret = -1 ∨ ret = 0 ∧ ∃ ledger', Keeps image ((k.withPid p pid).setPm pm) ledger' ∧
        ledger'.users = ledger.users ∧ ledger'.transit = {pid} ∧ ledger'.slabs = ledger.slabs ∧
        Spares {.kernel} ledger.owner ledger'.owner k.pm.mem pm.mem ∧
        translate pm.mem k.kernelPagetable (kstackVa pid) =
          some (kstack, pteR ||| pteW ||| pteV) ∧
        ∀ k' : Kernel, k'.pm = pm → k'.kernelPagetable = k.kernelPagetable → TookTables k k') := by
  obtain ⟨-, hlt, hclear⟩ := Bitmap.firstClear_some hpid
  have hlt : pid < maxPid := by omega
  have hnone := (hkeeps.tableOk htransit).kstacks pid hlt hclear
  have hown : Owned image.kernelEnd (share ledger.owner .kernel) k.pm k.kernelPagetable
      (ledger.tables .kernel) := hkeeps.shared.owned .kernel ledger.kernel_mem
  obtain ⟨ret, pm, set, hmap, halloc, honly, hown', hresult⟩ := hown.mapKernel (kstackVa_aligned hlt)
    (kstackVa_lt hlt) hgood.aligned hgood.small (show pteR ||| pteW < 1024 by decide) (by decide)
    hnone
  refine ⟨ret, pm, hmap, ?_⟩
  obtain ⟨rfl, -⟩ | ⟨rfl, hmapped⟩ := hresult
  · exact .inl rfl
  · have hmoves : Moves ledger.owner .kernel k.pm pm := hown.moves_of_allocates hown' halloc
    have hstep := (hkeeps.reserve hclear).kernelStep hlt (Set.mem_insert pid _) hmoves hown'
      fun va hva hne => (hmapped va hva).trans (if_neg hne)
    refine .inr ⟨rfl, _, hstep.setProc hp huser fun proc => { proc with pid := pid }, rfl, ?_, rfl,
      hmoves.spares, ?_, fun k' hpm htable => ?_⟩
    · exact (congrArg (insert pid) htransit).trans (insert_empty_eq pid)
    · rw [hmapped _ (kstackVa_lt hlt), if_pos rfl, kstackVa_aligned hlt, Nat.add_zero]
    · subst hpm
      refine ⟨halloc.free, fun page hpage => ?_, fun page hpage => ?_⟩
      all_goals rw [htable] at *
      · exact (honly page (.inl hpage)).imp_right hown'.tree.tablePage_iff.mpr
      · exact (halloc.source page (hown'.tree.tablePage_iff.mp hpage)).imp_left
          hown.tree.tablePage_iff.mpr

/-- `process_pagetable`, whose result goes into the structure with the other fields. -/
theorem Keeps.newSpace (hsymbols : image.Ok) (hkeeps : Keeps image k ledger)
    (hp : p ∉ k.processList) (huser : p ∉ ledger.users)
    (hgood : Allocatable image.kernelEnd (k.procs p).trapframe) :
    ∃ root pm ledger', processPagetable image.kernelEnd image.trampolinePa k.pm
        (k.procs p).trapframe = .ok (root, pm) ∧
      (∀ change : Proc → Proc, (∀ proc, (change proc).pagetable = root) →
        (∀ proc, (change proc).trapframe = proc.trapframe) →
        Keeps image ((k.setPm pm).setProc p change) ledger') ∧
      ledger'.transit = ledger.transit ∧ ledger'.slabs = ledger.slabs ∧
      (∀ q, q ∈ ledger'.users ↔ q ∈ ledger.users ∨ q = p ∧ root ≠ 0) ∧
      Spares {.space p} ledger.owner ledger'.owner k.pm.mem pm.mem ∧
      (root ≠ 0 → ∀ va < maxVa, translate pm.mem root va =
        freshMap image.trampolinePa (k.procs p).trapframe va) := by
  obtain ⟨root, pm, hcreate, hsame, hroot⟩ := processPagetable_spec hkeeps.shared.pool
    hsymbols.kernelEnd hsymbols.aligned hsymbols.small hgood.aligned hgood.small
  have hshare : ∀ page, page ∈ share ledger.owner (.space p) ↔ page ∈ k.pm.freelist := by
    intro page
    rw [hkeeps.shared.free]
    exact ⟨fun h => h.resolve_right (hkeeps.spaces.vacant p huser page), .inl⟩
  have hset : k.pm.free = share ledger.owner (.space p) := Set.ext fun page => (hshare page).symm
  rw [hset] at hsame hroot
  have hmoves : Moves ledger.owner (.space p) k.pm pm := by
    obtain ⟨-, hnodup, hback⟩ | ⟨-, set, hown, -⟩ := hroot
    · exact ⟨hnodup, fun page hpage => (hshare page).mpr ((hback page).mp hpage), hsame⟩
    · exact ⟨hown.nodup, fun page hpage => hown.mem_of_free hpage, hsame⟩
  have hprocs : ∀ change : Proc → Proc,
      SameProcs {q | q ∈ k.processList ∨ q ∈ ledger.users ∧ Party.space q ≠ .space p} k
        ((k.setPm pm).setProc p change) := by
    intro change
    refine ⟨rfl, rfl, rfl, rfl, fun q hq => ?_⟩
    have hne : q ≠ p := by
      rintro rfl
      exact hq.elim hp fun h => huser h.1
    rw [(k.setPm pm).setProc_of_ne change hne]
    exact SameBody.refl _
  obtain ⟨rfl, hnodup, hback⟩ | ⟨hne, set, hown, htranslate⟩ := hroot
  · refine ⟨0, pm, ledger.after (.space p) pm.freelist ledger.users (ledger.tables (.space p)),
      hcreate, fun change _ _ => ?_, rfl, rfl, fun q => by simp [Ledger.after], hmoves.spares,
      fun h => absurd rfl h⟩
    refine hkeeps.elsewhere hp hmoves (hprocs change) (fun _ _ => Iff.rfl) (fun h => by cases h)
      (fun q heq hq => ?_) fun q _ _ page hpage => (hback page).mpr ((hshare page).mp hpage)
    cases heq
    exact absurd hq huser
  · refine ⟨root, pm, ledger.after (.space p) pm.freelist (insert p ledger.users) set, hcreate,
      fun change htable hframe => ?_, rfl, rfl, fun q => ?_, hmoves.spares, fun _ => htranslate⟩
    · refine hkeeps.elsewhere hp hmoves (hprocs change) (fun q hq => ?_) (fun h => by cases h)
        (fun q heq _ => ?_) fun q heq hq => ?_
      · rw [Set.mem_insert_iff]
        exact or_iff_right fun heq => hq (congrArg Party.space heq)
      · cases heq
        rw [Kernel.setProc_self, htable, hframe]
        refine ⟨hown, ?_, ?_⟩
        · exact htranslate _ (by decide)
        · exact htranslate _ (by decide)
      · cases heq
        exact absurd (Set.mem_insert p _) hq
    · rw [or_comm, and_iff_left hne]
      exact Set.mem_insert_iff

/-- The parties that act when the process `p` is made or taken apart. -/
def Party.actors (p : ℕ) : Set Party := {.kernel, .slab, .body p, .space p}

theorem Party.stack_subset (p : ℕ) : {.kernel, .body p} ⊆ Party.actors p := by
  rintro party (rfl | rfl)
  · exact .inl rfl
  · exact .inr (.inr (.inl rfl))

/-- What a successful `process_create` leaves. -/
structure Made (image : Image) (k k' : Kernel) (p : ℕ) (ledger ledger' : Ledger) : Prop where
  keeps : Keeps image k' ledger'
  settled : Settled k' ledger'
  new : p ∉ k.processList
  list : k'.processList = k.processList ++ [p]
  others : ∀ q ≠ p, k'.procs q = k.procs q
  fresh : (k'.procs p).pagetable ≠ 0 → ∀ va < maxVa,
    translate k'.pm.mem (k'.procs p).pagetable va =
      freshMap image.trampolinePa (k'.procs p).trapframe va
  spares : Spares (Party.actors p) ledger.owner ledger'.owner k.pm.mem k'.pm.mem

/-- What has been taken for the new process `p` since `k` is accounted for: each page is free again,
or a table of the kernel, or in the user table of `p`, or its trapframe or its stack. -/
structure Accounted (k k' : Kernel) (p : ℕ) (ledger' : Ledger) : Prop where
  cache : k'.procCache = k.procCache
  table : k'.kernelPagetable = k.kernelPagetable
  number : ∃ pid : ℕ, ¬ Bitmap.Marked k.pidBitmap pid ∧
    k'.pidBitmap = Bitmap.mark k.pidBitmap pid ∧ (k'.procs p).pid = pid
  back : ∀ page ∈ k'.pm.freelist, page ∈ k.pm.freelist
  space : ∀ page, ledger'.owner page = .party (.space p) → page ∈ k.pm.freelist
  trapframe : (k'.procs p).trapframe ∈ k.pm.freelist
  stack : ∀ page flags,
    translate k'.pm.mem k'.kernelPagetable (k'.procs p).kstack = some (page, flags) →
      page ∈ k.pm.freelist
  spent : ∀ page ∈ k.pm.freelist, page ∈ k'.pm.freelist ∨
    TablePage k'.pm.mem k'.kernelPagetable page ∨ ledger'.owner page = .party (.space p) ∨
    page = (k'.procs p).trapframe ∨
    ∃ flags, translate k'.pm.mem k'.kernelPagetable (k'.procs p).kstack = some (page, flags)
  source : ∀ page, TablePage k'.pm.mem k'.kernelPagetable page →
    TablePage k.pm.mem k.kernelPagetable page ∨ page ∈ k.pm.freelist

/-- A step in which pages pass between the free ones and the user table of `p`. -/
theorem Accounted.step {k₀ : Kernel} {ledger' : Ledger} {pm : Pm}
    (haccounted : Accounted k₀ k p ledger) (hkeeps : Keeps image k ledger)
    (hfree : ∀ page, page ∈ pm.freelist ↔ ledger'.owner page = .free)
    (hspares : Spares {.space p} ledger.owner ledger'.owner k.pm.mem pm.mem) :
    Accounted k₀ (k.setPm pm) p ledger' := by
  have hkernel : (.kernel : Party) ∉ ({.space p} : Set Party) := fun heq => by cases heq
  have hmaps := hkeeps.shared.translate_spared hspares ledger.kernel_mem hkernel
  have hpages := hkeeps.tablePage_iff hspares hkernel
  have hshare : ∀ page, page ∈ pm.freelist ∨ ledger'.owner page = .party (.space p) ↔
      page ∈ k.pm.freelist ∨ ledger.owner page = .party (.space p) := by
    intro page
    rw [hfree, hkeeps.shared.free]
    exact hspares.share page
  have hold : ∀ page, page ∈ pm.freelist ∨ ledger'.owner page = .party (.space p) →
      page ∈ k₀.pm.freelist := fun page hpage =>
    ((hshare page).mp hpage).elim (haccounted.back page) (haccounted.space page)
  refine ⟨haccounted.cache, haccounted.table, haccounted.number, fun page hpage =>
    hold page (.inl hpage), fun page howned => hold page (.inr howned), haccounted.trapframe,
    fun page flags hstack => ?_, fun page hpage => ?_, fun page hpage => ?_⟩
  · exact haccounted.stack page flags ((hmaps _).symm.trans hstack)
  · obtain hnow | htable | hspace | hrest := haccounted.spent page hpage
    · exact ((hshare page).mpr (.inl hnow)).imp_right fun h => .inr (.inl h)
    · exact .inr (.inl ((hpages page).mpr htable))
    · exact ((hshare page).mpr (.inr hspace)).imp_right fun h => .inr (.inl h)
    · refine .inr (.inr (.inr (hrest.imp_right ?_)))
      rintro ⟨flags, hstack⟩
      exact ⟨flags, (hmaps _).trans hstack⟩
  · exact haccounted.source page ((hpages page).mp hpage)

theorem Accounted.congr {k₀ : Kernel} {ledger' : Ledger} (haccounted : Accounted k₀ k p ledger)
    (howner : ledger'.owner = ledger.owner) (hpm : k'.pm = k.pm)
    (htable : k'.kernelPagetable = k.kernelPagetable) (hcache : k'.procCache = k.procCache)
    (hpids : k'.pidBitmap = k.pidBitmap) (hpid : (k'.procs p).pid = (k.procs p).pid)
    (htrapframe : (k'.procs p).trapframe = (k.procs p).trapframe)
    (hkstack : (k'.procs p).kstack = (k.procs p).kstack) : Accounted k₀ k' p ledger' := by
  obtain ⟨hold, hroot, hnumber, hback, hspace, hframe, hstack, hspent, hsource⟩ := haccounted
  refine ⟨hcache.trans hold, htable.trans hroot, ?_, ?_, ?_, ?_, ?_, ?_, ?_⟩
  all_goals
    simp only [hpm, htable, hpids, hpid, htrapframe, hkstack, howner]
    assumption

/-- Two pages are taken up to `k₁`, and up to `k'` a number, with which the stack is mapped. -/
theorem Keeps.accounted {k₁ : Kernel} {kstack flags : ℕ} {owner₁ : ℕ → Owner Party}
    (hkeeps : Keeps image k ledger)
    (hlist : k.pm.freelist = (k'.procs p).trapframe :: kstack :: k₁.pm.freelist)
    (hspares : Spares {.body p} ledger.owner owner₁ k.pm.mem k₁.pm.mem)
    (htook : TookTables k₁ k') (htable₁ : k₁.kernelPagetable = k.kernelPagetable)
    (htable : k'.kernelPagetable = k.kernelPagetable) (hcache : k'.procCache = k.procCache)
    (hclear : ¬ Bitmap.Marked k.pidBitmap pid)
    (hpids : k'.pidBitmap = Bitmap.mark k.pidBitmap pid) (hnumber : (k'.procs p).pid = pid)
    (hmapped : translate k'.pm.mem k'.kernelPagetable (k'.procs p).kstack = some (kstack, flags))
    {ledger' : Ledger} (hvacant : ∀ page, ledger'.owner page ≠ .party (.space p)) :
    Accounted k k' p ledger' := by
  have hrest : ∀ page ∈ k₁.pm.freelist, page ∈ k.pm.freelist := by
    intro page hpage
    rw [hlist]
    exact List.mem_cons_of_mem _ (List.mem_cons_of_mem _ hpage)
  have hstack : kstack ∈ k.pm.freelist := by
    rw [hlist]
    exact List.mem_cons_of_mem _ List.mem_cons_self
  refine ⟨hcache, htable, ⟨pid, hclear, hpids, hnumber⟩, fun page hpage =>
    hrest page (htook.back page hpage), fun page howned => absurd howned (hvacant page), ?_,
    fun page flags' hframe => ?_, fun page hpage => ?_, fun page hpage => ?_⟩
  · rw [hlist]
    exact List.mem_cons_self
  · obtain ⟨rfl, -⟩ := Prod.mk.inj (Option.some.inj (hframe.symm.trans hmapped))
    exact hstack
  · rw [hlist] at hpage
    obtain rfl | hpage := List.mem_cons.mp hpage
    · exact .inr (.inr (.inr (.inl rfl)))
    obtain rfl | hpage := List.mem_cons.mp hpage
    · exact .inr (.inr (.inr (.inr ⟨flags, hmapped⟩)))
    · exact (htook.spent page hpage).imp_right .inl
  · obtain hpage | hfree := htook.source page hpage
    · rw [htable₁] at hpage
      exact .inl ((hkeeps.tablePage_iff hspares (fun heq => by cases heq) page).mp hpage)
    · exact .inr (hrest page hfree)

/-- The end of `process_create`, with a structure, two pages and a number. -/
theorem Keeps.createTable {cur kstack : ℕ} (hsymbols : image.Ok) (hkeeps : Keeps image k ledger)
    (hp : p ∉ k.processList) (huser : p ∉ ledger.users) (htransit : pid ∈ ledger.transit)
    (hpid : pid < maxPid) (hmarked : Bitmap.Marked k.pidBitmap pid)
    (hnumber : (k.procs p).pid = pid)
    (hframe : ledger.owner (k.procs p).trapframe = .party (.body p))
    (hgood : Allocatable image.kernelEnd (k.procs p).trapframe)
    (hstack : translate k.pm.mem k.kernelPagetable (kstackVa pid) =
        some (kstack, pteR ||| pteW ||| pteV) ∧
      ledger.owner kstack = .party (.body p) ∧ kstack ≠ (k.procs p).trapframe)
    (hlive : Slab.InUse Slab.procMode k.procCache.mem ledger.slabs p) :
    ∃ k' ledger', createTable image k cur p (k.procs p).trapframe (kstackVa pid) = .ok (p, k') ∧
      Keeps image k' ledger' ∧ ledger'.transit = ledger.transit \ {pid} ∧
      (∀ q, q ∈ ledger'.users → q ∈ ledger.users ∨ q = p) ∧
      k'.processList = k.processList ++ [p] ∧ (∀ q ≠ p, k'.procs q = k.procs q) ∧
      ((k'.procs p).pagetable ≠ 0 → ∀ va < maxVa,
        translate k'.pm.mem (k'.procs p).pagetable va =
          freshMap image.trampolinePa (k'.procs p).trapframe va) ∧
      Spares {.space p} ledger.owner ledger'.owner k.pm.mem k'.pm.mem ∧
      ∃ pm root, k' = k.withTable pm cur p (kstackVa pid) root := by
  obtain ⟨root, pm, ledger₃, hcreate, hnext, htransit', hslabs, husers, hspares, hfresh⟩ :=
    hkeeps.newSpace hsymbols hp huser hgood
  obtain ⟨hmapped, hkstack, hne⟩ := hstack
  let change : Proc → Proc := fun proc =>
    { proc with
      kstack := kstackVa pid
      pagetable := root
      status := .initial
      cwd := 0
      parent := cur
      fileList := [] }
  have hkeep := hnext change (fun _ => rfl) fun _ => rfl
  have hbody : ∀ page, ledger.owner page = .party (.body p) →
      ledger₃.owner page = .party (.body p) := fun page howned =>
    (hspares.pages (.body p) (fun heq => by cases heq) page).mpr howned
  have hkernel := hkeeps.shared.translate_spared hspares ledger.kernel_mem
    (fun heq => by cases heq)
  have hproc : ((k.setPm pm).setProc p change).procs p = change (k.procs p) :=
    (k.setPm pm).setProc_self p change
  have hhas : HasBody ((k.setPm pm).setProc p change) ledger₃.owner p pid := by
    refine ⟨?_, ?_, ?_, kstack, (hkernel _).trans hmapped, hbody kstack hkstack, ?_⟩
    all_goals rw [hproc]
    · exact hnumber
    · exact hbody _ hframe
    · exact hne
  have hmem : ∀ q, q ∈ k.processList ++ [p] ↔ q = p ∨ q ∈ k.processList := fun q => by
    rw [List.mem_append, List.mem_singleton, or_comm]
  have hnodup : (k.processList ++ [p]).Nodup := by
    refine List.nodup_append.mpr ⟨hkeeps.structures.nodup, List.nodup_singleton p, ?_⟩
    rintro q hq q' hq' rfl
    exact hp (List.mem_singleton.mp hq' ▸ hq)
  have harrive := hkeep.arrive hpid (htransit' ▸ htransit) hmarked hhas hp hmem hnodup
    (hslabs ▸ hlive) (by
      rw [hproc, husers]
      exact ⟨fun h => (h.resolve_left huser).2, fun h => .inr ⟨rfl, h⟩⟩) (by
      rw [hproc]
      exact fun heq => by cases heq)
  refine ⟨_, _, createTable_ok hcreate, harrive, congrArg (· \ {pid}) htransit', fun q hq => ?_, rfl,
    fun q hq => (k.setPm pm).setProc_of_ne change hq, fun hroot => ?_, hspares, pm, root, rfl⟩
  · exact ((husers q).mp hq).imp_right And.left
  · have hproc' : (k.withTable pm cur p (kstackVa pid) root).procs p = change (k.procs p) := hproc
    rw [hproc'] at hroot ⊢
    exact hfresh hroot

/-- `process_create` with a structure and pages for the trapframe and the stack. -/
theorem Keeps.create_of_pages {cur trapframe kstack q : ℕ} {rest : List ℕ} (hsymbols : image.Ok)
    (hkeeps : Keeps image k ledger) (htransit : ledger.transit = ∅) (hp : p ∉ k.processList)
    (huser : p ∉ ledger.users) (hun : p % pgSize ≠ 0)
    (hlive : Slab.InUse Slab.procMode k.procCache.mem ledger.slabs p)
    (hlist : k.pm.freelist = trapframe :: kstack :: rest)
    (hcreate : createWith image k cur p = .ok (q, k')) :
    q = p ∧ ∃ ledger', Keeps image k' ledger' ∧ ledger'.transit = ∅ ∧
      (∀ r, r ∈ ledger'.users → r ∈ ledger.users ∨ r = p) ∧
      k'.processList = k.processList ++ [p] ∧ (∀ r ≠ p, k'.procs r = k.procs r) ∧
      ((k'.procs p).pagetable ≠ 0 → ∀ va < maxVa,
        translate k'.pm.mem (k'.procs p).pagetable va =
          freshMap image.trampolinePa (k'.procs p).trapframe va) ∧
      Spares (Party.actors p) ledger.owner ledger'.owner k.pm.mem k'.pm.mem ∧
      Accounted k k' p ledger' := by
  cases hpid : Bitmap.firstClear k.pidBitmap 0 maxPid with
  | none =>
      rw [createWith_noPid (hkeeps.tableOk htransit) hlist hpid] at hcreate
      cases hcreate
  | some pid =>
      obtain ⟨-, hlt, hclear⟩ := Bitmap.firstClear_some hpid
      have hlt : pid < maxPid := by omega
      obtain ⟨ledger₁, hkeep₁, husers₁, htransit₁, hslabs₁, hframe, hstack, hgood, hgood', hne,
        hspares₁⟩ := hkeeps.withPages hp huser hlist
      obtain ⟨ret, pm, hmap, hresult⟩ := hkeep₁.mapStack (htransit₁.trans htransit) hpid hp
        (husers₁ ▸ huser) hgood'
      rw [createWith_two image cur p hlist, createStack_some (by exact hpid) hmap] at hcreate
      obtain rfl | ⟨rfl, ledger₂, hkeep₂, husers₂, htransit₂, hslabs₂, hspares₂, hmapped, htook⟩ :=
        hresult
      · rw [if_pos (by decide)] at hcreate
        cases hgive : kpmfree image.kernelEnd pm kstack with
        | error panic =>
            rw [hgive] at hcreate
            cases hcreate
        | ok pm' =>
            rw [hgive] at hcreate
            dsimp only [panics, Except.mapError, bind, Except.bind] at hcreate
            rw [kpmfree_object _ _ hun] at hcreate
            cases hcreate
      · rw [if_neg (by decide)] at hcreate
        have hbody : ∀ page, ledger₁.owner page = .party (.body p) →
            ledger₂.owner page = .party (.body p) := fun page howned =>
          (hspares₂.pages (.body p) (fun heq => by cases heq) page).mpr howned
        have hproc : (((k.withPages p trapframe kstack rest).withPid p pid).setPm pm).procs p =
            { k.procs p with trapframe := trapframe, pid := pid } := by
          simp [Kernel.withPages, Kernel.withPid, Kernel.setPm, Kernel.setProc]
        have hothers : ∀ r ≠ p,
            (((k.withPages p trapframe kstack rest).withPid p pid).setPm pm).procs r = k.procs r := by
          intro r hr
          simp [Kernel.withPages, Kernel.withPid, Kernel.setPm, Kernel.setProc, hr]
        have htrapframe := congrArg Proc.trapframe hproc
        obtain ⟨k₃, ledger₃, hmake, hkeep₃, htransit₃, husers₃, hlist₃, hothers₃, hfresh, hspares₃,
            pm₃, root, honly⟩ :=
          @Keeps.createTable _ _ _ p pid cur kstack hsymbols hkeep₂ hp
            (by rwa [husers₂, husers₁]) (by rw [htransit₂]; rfl) hlt
            (Bitmap.marked_mark.mpr (.inl rfl)) (congrArg Proc.pid hproc)
            (by rw [htrapframe]; exact hbody _ hframe) (by rw [htrapframe]; exact hgood)
            ⟨hmapped, hbody _ hstack, by rw [htrapframe]; exact hne.symm⟩
            (by rw [hslabs₂, hslabs₁]; exact hlive)
        rw [htrapframe] at hmake
        rw [hmake] at hcreate
        obtain ⟨rfl, rfl⟩ := Prod.mk.inj (Except.ok.inj hcreate)
        refine ⟨rfl, ledger₃, hkeep₃, ?_, fun r hr => ?_, hlist₃,
          fun r hr => (hothers₃ r hr).trans (hothers r hr), hfresh, ?_, ?_⟩
        · rw [htransit₃, htransit₂]
          exact Set.sdiff_self
        · have hold := husers₃ r hr
          rwa [husers₂, husers₁] at hold
        · refine ((hspares₁.mono ?_).trans (hspares₂.mono ?_)).trans (hspares₃.mono ?_)
          · exact fun party hparty => .inr (.inr (.inl hparty))
          · exact fun party hparty => .inl hparty
          · exact fun party hparty => .inr (.inr (.inr hparty))
        · have huser₂ : p ∉ ledger₂.users := by rwa [husers₂, husers₁]
          -- the kernel with the stack mapped, and its place in the structure
          obtain ⟨k₂, hmid, hpm₂, htable₂, hcache₂, hpids₂, hproc₂⟩ : ∃ k₂ : Kernel,
              Keeps image k₂ ledger₂ ∧ k₂.pm = pm ∧ k₂.kernelPagetable = k.kernelPagetable ∧
              k₂.procCache = k.procCache ∧ k₂.pidBitmap = Bitmap.mark k.pidBitmap pid ∧
              k₂.procs p = { k.procs p with
                trapframe := trapframe
                pid := pid
                kstack := kstackVa pid } := by
            refine ⟨_, hkeep₂.setProc hp huser₂ fun proc => { proc with kstack := kstackVa pid }, rfl,
              rfl, rfl, rfl, ?_⟩
            rw [Kernel.setProc_self, hproc]
          have hlist₂ : k.pm.freelist = (k₂.procs p).trapframe :: kstack ::
              (k.withPages p trapframe kstack rest).pm.freelist := by
            rw [hproc₂]
            exact hlist
          have hmapped₂ : translate k₂.pm.mem k₂.kernelPagetable (k₂.procs p).kstack =
              some (kstack, pteR ||| pteW ||| pteV) := by
            have hkstack : (k₂.procs p).kstack = kstackVa pid := by
              simp only [hproc₂]
            rw [hpm₂, hkstack, htable₂]
            exact hmapped
          have haccounted : Accounted k k₂ p ledger₂ :=
            hkeeps.accounted hlist₂ hspares₁ (htook k₂ hpm₂ htable₂) rfl htable₂ hcache₂ hclear hpids₂
              (congrArg Proc.pid hproc₂) hmapped₂ (hkeep₂.spaces.vacant p huser₂)
          have hend := haccounted.step hmid hkeep₃.shared.free (by rw [hpm₂]; exact hspares₃)
          have hproc₃ : k₃.procs p = { k.procs p with
              trapframe := trapframe
              pid := pid
              kstack := kstackVa pid
              pagetable := root
              status := .initial
              cwd := 0
              parent := cur
              fileList := [] } := by
            rw [honly, Kernel.withTable_self, hproc]
          refine hend.congr rfl rfl ?_ ?_ ?_ ?_ ?_ ?_
          · rw [honly]
            exact htable₂.symm
          · rw [honly]
            exact hcache₂.symm
          · rw [honly]
            exact hpids₂.symm
          · exact (congrArg Proc.pid hproc₃).trans (congrArg Proc.pid hproc₂).symm
          · exact (congrArg Proc.trapframe hproc₃).trans (congrArg Proc.trapframe hproc₂).symm
          · exact (congrArg Proc.kstack hproc₃).trans (congrArg Proc.kstack hproc₂).symm

/-- `process_create` returns a process with all that belongs to it, or leaves the list as it was. -/
theorem Keeps.processCreate {cur : ℕ} (hsymbols : image.Ok) (hkeeps : Keeps image k ledger)
    (hsettled : Settled k ledger) (hcreate : processCreate image k cur = .ok (p, k')) :
    ∃ ledger', p = 0 ∧ Keeps image k' ledger' ∧ Settled k' ledger' ∧
        k'.processList = k.processList ∧ (∀ q ∈ k.processList, k'.procs q = k.procs q) ∨
      p ≠ 0 ∧ Made image k k' p ledger ledger' ∧
        ∃ k₁, k.kallocProc = .ok (some p, k₁) ∧ Accounted k₁ k' p ledger' := by
  cases hkalloc : k.kallocProc with
  | error stop =>
      rw [Process.processCreate, hkalloc] at hcreate
      cases hcreate
  | ok result =>
      obtain ⟨bp, k₁⟩ := result
      obtain ⟨q, ledger₁, rfl, hfresh⟩ := hkeeps.kallocProc hkalloc
      rw [processCreate_eq hkalloc] at hcreate
      obtain ⟨cache, pm₁, honly⟩ := hfresh.only
      have hlist₁ : k₁.processList = k.processList := by rw [honly]
      have hprocs₁ : k₁.procs = k.procs := by rw [honly]
      have htransit₁ : ledger₁.transit = ∅ := hfresh.transit.trans hsettled.pids
      have hq : q ∉ k₁.processList := hlist₁ ▸ hfresh.new
      have huser : q ∉ ledger₁.users := fun h =>
        hfresh.new (hsettled.users q (hfresh.users ▸ h))
      have hun : q % pgSize ≠ 0 := object_unaligned hfresh.keeps.structures.slab hfresh.live
      have hne : q ≠ 0 := by
        rintro rfl
        exact hun rfl
      rcases hlist : k₁.pm.freelist with _ | ⟨trapframe, _ | ⟨kstack, rest⟩⟩
      · rw [createWith_nil hlist] at hcreate
        cases hkfree : (k₁.setProc q fun proc => { proc with trapframe := 0 }).kfreeProc image q with
        | error stop =>
            rw [hkfree] at hcreate
            cases hcreate
        | ok k₂ =>
            rw [hkfree] at hcreate
            obtain ⟨rfl, rfl⟩ := Prod.mk.inj (Except.ok.inj hcreate)
            obtain ⟨hkeep, cache', rfl⟩ := (hfresh.keeps.setProc hq huser _).kfreeProc hq hfresh.live
              hkfree
            refine ⟨ledger₁, .inl ⟨rfl, hkeep, ⟨htransit₁, fun r hr => ?_⟩, hlist₁, fun r hr => ?_⟩⟩
            · exact hlist₁.symm ▸ hsettled.users r (hfresh.users ▸ hr)
            · have hne : r ≠ q := by
                rintro rfl
                exact hfresh.new hr
              have hsame := k₁.setProc_of_ne (fun proc => { proc with trapframe := 0 }) hne
              exact hsame.trans (congrFun hprocs₁ r)
      · rw [createWith_one hlist hun] at hcreate
        cases hcreate
      · obtain ⟨rfl, ledger₂, hkeep, htransit, husers, hlist₂, hothers, hroot, hspares, haccounted⟩ :=
          hfresh.keeps.create_of_pages hsymbols htransit₁ hq huser hun hfresh.live hlist hcreate
        have hslab : Spares (Party.actors p) ledger.owner ledger₁.owner k.pm.mem k₁.pm.mem :=
          hfresh.spares.mono fun party hparty => .inr (.inl hparty)
        refine ⟨ledger₂, .inr ⟨hne, ⟨hkeep, ⟨htransit, fun r hr => ?_⟩, hfresh.new,
          hlist₂.trans (congrArg (· ++ [p]) hlist₁),
          fun r hr => (hothers r hr).trans (congrFun hprocs₁ r), hroot, hslab.trans hspares⟩, k₁, rfl,
          haccounted⟩⟩
        rw [hlist₂, hlist₁, List.mem_append, List.mem_singleton]
        exact (husers r hr).imp_left fun h => hsettled.users r (hfresh.users ▸ h)

end Create

/-! ## Taking a process apart -/

section Dismantle

variable {image : Image} {k k' : Kernel} {ledger : Ledger} {p pid : ℕ}

/-- The kernel stack of a process that has left the list is freed and unmapped. -/
theorem Keeps.unmapStack (hkeeps : Keeps image k ledger) (hp : p ∉ k.processList)
    (hpid : pid < maxPid) (htransit : pid ∈ ledger.transit) (hhas : HasBody k ledger.owner p pid) :
    ∃ pm ledger', uvmunmap image.kernelEnd k.pm k.kernelPagetable (kstackVa pid) 1 true = .ok pm ∧
      Keeps image (k.setPm pm) ledger' ∧ ledger'.users = ledger.users ∧
      ledger'.transit = ledger.transit ∧ ledger'.slabs = ledger.slabs ∧
      translate pm.mem k.kernelPagetable (kstackVa pid) = none ∧
      ledger'.owner (k.procs p).trapframe = .party (.body p) ∧
      Spares {.kernel, .body p} ledger.owner ledger'.owner k.pm.mem pm.mem ∧
      (∀ page, page ∈ pm.freelist ↔ page ∈ k.pm.freelist ∨
        ∃ flags, translate k.pm.mem k.kernelPagetable (kstackVa pid) = some (page, flags)) ∧
      ∀ page, TablePage pm.mem k.kernelPagetable page ↔
        TablePage k.pm.mem k.kernelPagetable page := by
  obtain ⟨frame, hframe, howned, hne⟩ := hhas.stack
  obtain ⟨pm₁, hgive, hfree, hmoves, hkeep₁⟩ := hkeeps.give hp howned
  have hbody : (.kernel : Party) ≠ .body p := fun heq => by cases heq
  have hown : Owned image.kernelEnd (share ledger.owner .kernel) k.pm k.kernelPagetable
      (ledger.tables .kernel) := hkeeps.shared.owned .kernel ledger.kernel_mem
  have hsame := (hkeeps.shared.apart ledger.kernel_mem hbody).tables_same hmoves.same
  have hmapped : translate pm₁.mem k.kernelPagetable (kstackVa pid) =
      some (frame, pteR ||| pteW ||| pteV) :=
    (hkeeps.shared.translate_other hmoves ledger.kernel_mem hbody _).trans hframe
  have hown₁ : Owned image.kernelEnd (share (reown ledger.owner (.body p) pm₁.freelist) .kernel)
      pm₁ k.kernelPagetable _ := hkeep₁.shared.owned .kernel trivial
  obtain ⟨pm₂, hunmap, hown₂, hfree₂, hmem₂, hmaps₂⟩ := hown₁.unmapKernel (kstackVa_aligned hpid)
    (kstackVa_lt hpid) hmapped (by decide) (by decide)
  have hmoves₂ : Moves (reown ledger.owner (.body p) pm₁.freelist) .kernel pm₁ pm₂ :=
    ⟨hown₂.nodup, fun page hpage => hown₂.mem_of_free hpage,
      fun x hx => hmem₂ x fun htable => hx (hown₁.mem_of_table htable)⟩
  refine ⟨pm₂, _, ?_, hkeep₁.kernelStep hpid htransit hmoves₂ hown₂ fun va hva hne =>
    (hmaps₂ va hva).trans (if_neg hne), rfl, rfl, rfl, ?_, ?_, ?_, fun page => ?_, fun page => ?_⟩
  · rw [hown.uvmunmap_freeing (kstackVa_aligned hpid) (kstackVa_lt hpid) hframe (by decide) hgive
      hsame]
    exact hunmap
  · exact (hmaps₂ _ (kstackVa_lt hpid)).trans (if_pos rfl)
  · refine (hmoves₂.owner_other hbody.symm).mpr (reown_eq_self.mpr ⟨.inr hhas.trapframe, ?_⟩)
    rw [hfree]
    intro hmem
    obtain heq | hmem := List.mem_cons.mp hmem
    · exact hne heq.symm
    · cases hhas.trapframe.symm.trans ((hkeeps.shared.free _).mp hmem)
  · refine (hmoves.spares.mono ?_).trans (hmoves₂.spares.mono ?_)
    · exact fun party hparty => .inr hparty
    · exact fun party hparty => .inl hparty
  · have hstack : (∃ flags, translate k.pm.mem k.kernelPagetable (kstackVa pid) =
        some (page, flags)) ↔ page = frame := by
      simp only [hframe, Option.some.injEq, Prod.mk.injEq, exists_and_left, exists_eq', and_true]
      exact eq_comm
    rw [hfree₂, hfree, List.mem_cons, hstack, or_comm]
  · refine (hown₂.tree.tablePage_iff.trans hown₁.tree.tablePage_iff.symm).trans ?_
    exact hkeeps.tablePage_iff hmoves.spares hbody page

/-- The user table of a process that has left the list is freed. -/
theorem Keeps.freeSpace (hkeeps : Keeps image k ledger) (hp : p ∉ k.processList)
    (huser : p ∈ ledger.users) :
    ∃ pm ledger', freeUserPagetable image.kernelEnd k.pm (k.procs p).pagetable = .ok pm ∧
      Keeps image (k.setPm pm) ledger' ∧ ledger'.users = ledger.users \ {p} ∧
      ledger'.transit = ledger.transit ∧ ledger'.slabs = ledger.slabs ∧
      Spares {.space p} ledger.owner ledger'.owner k.pm.mem pm.mem ∧
      ∀ page, page ∈ pm.freelist ↔ page ∈ k.pm.freelist ∨ ledger.owner page = .party (.space p) := by
  have hown : Owned image.kernelEnd (share ledger.owner (.space p)) k.pm (k.procs p).pagetable
      (ledger.tables (.space p)) := hkeeps.shared.owned (.space p) huser
  obtain ⟨pm, given, hfree, -, hnodup, -, hback, hsame⟩ :=
    hown.freeUserPagetable (hkeeps.spaces.kernel p huser)
  have hmoves : Moves ledger.owner (.space p) k.pm pm :=
    ⟨hnodup, fun page hpage => (hback page).mp hpage, hsame⟩
  refine ⟨pm, ledger.after (.space p) pm.freelist (ledger.users \ {p}) (ledger.tables (.space p)),
    hfree, ?_, rfl, rfl, rfl, hmoves.spares, fun page => ?_⟩
  · refine @Keeps.elsewhere _ _ (k.setPm pm) _ _ _ _ hkeeps hp hmoves (.setPm _ k _)
      (fun q hq => ?_) (fun h => by cases h) (fun q heq hq => ?_) fun q heq _ page hpage =>
        (hback page).mpr hpage
    · rw [Set.mem_sdiff]
      exact and_iff_left fun heq => hq (congrArg Party.space heq)
    · cases heq
      exact absurd rfl hq.2
  · rw [hback, share, Set.mem_ofPred_eq, hkeeps.shared.free]

/-- The number and the structure of a process that has left the list are given back. -/
theorem Keeps.finish (hkeeps : Keeps image k ledger) (hp : p ∉ k.processList) (hpid : pid < maxPid)
    (htransit : ledger.transit = {pid})
    (hnone : translate k.pm.mem k.kernelPagetable (kstackVa pid) = none)
    (hlive : Slab.InUse Slab.procMode k.procCache.mem ledger.slabs p)
    (hkfree : (pidFree k pid).kfreeProc image p = .ok k') :
    ∃ ledger', Keeps image k' ledger' ∧ ledger'.owner = ledger.owner ∧
      ledger'.users = ledger.users ∧ ledger'.transit = ∅ ∧
      ∃ cache map, k' = { k with procCache := cache, pidBitmap := map } := by
  have hpidFree : pidFree k pid = { k with pidBitmap := Bitmap.clear k.pidBitmap pid } :=
    if_pos ⟨Int.natCast_nonneg _, Int.ofNat_lt.mpr hpid⟩
  rw [hpidFree] at hkfree
  have hrelease := hkeeps.release hnone (by rw [htransit]; exact Set.mem_singleton pid)
  obtain ⟨hkeep, cache, rfl⟩ := hrelease.kfreeProc hp hlive hkfree
  refine ⟨_, hkeep, rfl, rfl, ?_, cache, _, rfl⟩
  change ledger.transit \ {pid} = ∅
  rw [htransit]
  exact Set.sdiff_self

theorem Keeps.dropSpace (hkeeps : Keeps image k ledger) (hp : p ∉ k.processList)
    (huser : p ∈ ledger.users ↔ (k.procs p).pagetable ≠ 0) :
    ∃ pm ledger', (if (k.procs p).pagetable ≠ 0 then
          panics (freeUserPagetable image.kernelEnd k.pm (k.procs p).pagetable)
        else .ok k.pm) = .ok pm ∧
      Keeps image (k.setPm pm) ledger' ∧ ledger'.users = ledger.users \ {p} ∧
      ledger'.transit = ledger.transit ∧ ledger'.slabs = ledger.slabs ∧
      Spares {.space p} ledger.owner ledger'.owner k.pm.mem pm.mem ∧
      ∀ page, page ∈ pm.freelist ↔ page ∈ k.pm.freelist ∨ ledger.owner page = .party (.space p) := by
  by_cases hroot : (k.procs p).pagetable ≠ 0
  · obtain ⟨pm, ledger', hfree, hrest⟩ := hkeeps.freeSpace hp (huser.mpr hroot)
    refine ⟨pm, ledger', ?_, hrest⟩
    rw [if_pos hroot, hfree]
    rfl
  · refine ⟨k.pm, ledger, if_neg hroot, hkeeps, ?_, rfl, rfl, .refl _ _ _, fun page => ?_⟩
    · exact (Set.sdiff_singleton_eq_self (mt huser.mp hroot)).symm
    · exact (or_iff_left (hkeeps.spaces.vacant p (mt huser.mp hroot) page)).symm

theorem Keeps.dropTrapframe (hsymbols : image.Ok) (hkeeps : Keeps image k ledger)
    (hp : p ∉ k.processList) (howned : ledger.owner (k.procs p).trapframe = .party (.body p)) :
    ∃ pm ledger', (if (k.procs p).trapframe ≠ 0 then
          panics (kpmfree image.kernelEnd k.pm (k.procs p).trapframe)
        else .ok k.pm) = .ok pm ∧
      Keeps image (k.setPm pm) ledger' ∧ ledger'.users = ledger.users ∧
      ledger'.transit = ledger.transit ∧ ledger'.slabs = ledger.slabs ∧
      Spares {.body p} ledger.owner ledger'.owner k.pm.mem pm.mem ∧
      ∀ page, page ∈ pm.freelist ↔ page ∈ k.pm.freelist ∨ page = (k.procs p).trapframe := by
  have hgood := hkeeps.shared.good (k.procs p).trapframe (by
    rw [howned]
    exact fun heq => by cases heq)
  have hframe : (k.procs p).trapframe ≠ 0 := by
    have hlo := hgood.lo
    have hpos := hsymbols.kernelEnd
    omega
  obtain ⟨pm, hgive, hfree, hmoves, hkeep⟩ := hkeeps.give hp howned
  refine ⟨pm, _, ?_, hkeep, rfl, rfl, rfl, hmoves.spares, fun page => ?_⟩
  · rw [if_pos hframe, hgive]
    rfl
  · rw [hfree, List.mem_cons, or_comm]

/-- A process that has left the list, with what belongs to it. -/
structure Departed (image : Image) (k : Kernel) (p pid : ℕ) (ledger : Ledger) : Prop where
  keeps : Keeps image k ledger
  new : p ∉ k.processList
  small : pid < maxPid
  transit : ledger.transit = {pid}
  has : HasBody k ledger.owner p pid
  live : Slab.InUse Slab.procMode k.procCache.mem ledger.slabs p
  user : p ∈ ledger.users ↔ (k.procs p).pagetable ≠ 0
  marked : Bitmap.Marked k.pidBitmap pid

theorem Keeps.departed (hkeeps : Keeps image k ledger) (hsettled : Settled k ledger)
    (hp : p ∈ k.processList) :
    ∃ pid, Departed image { k with processList := k.processList.erase p } p pid
      { ledger with transit := {pid} } := by
  obtain ⟨pid, hpid, -, hmarked, hhas⟩ := hkeeps.kstacks.body p hp
  have hdepart := hkeeps.depart hp hhas.number
  rw [hsettled.pids, insert_empty_eq] at hdepart
  refine ⟨pid, hdepart, ?_, hpid, rfl, hhas.congr rfl rfl rfl, hkeeps.structures.live p hp,
    hkeeps.spaces.user p hp, hmarked⟩
  exact hkeeps.structures.nodup.not_mem_erase

/-- The process joins the list again. -/
theorem Departed.arrive (hdeparted : Departed image k p pid ledger) {list : List ℕ}
    (hmem : ∀ q, q ∈ list ↔ q = p ∨ q ∈ k.processList) (hnodup : list.Nodup)
    (hended : (k.procs p).status = .zimbie → (k.procs p).pagetable = 0) :
    Keeps image { k with processList := list } { ledger with transit := ∅ } := by
  have htransit : pid ∈ ledger.transit := hdeparted.transit ▸ Set.mem_singleton pid
  have harrive := hdeparted.keeps.arrive hdeparted.small htransit hdeparted.marked hdeparted.has
    hdeparted.new hmem hnodup hdeparted.live hdeparted.user hended
  rwa [hdeparted.transit, Set.sdiff_self] at harrive

theorem HasBody.move {owner owner' : ℕ → Owner Party} (hhas : HasBody k owner p pid)
    (hsame : SameProcs {p} k k')
    (hmaps : ∀ va, translate k'.pm.mem k.kernelPagetable va =
      translate k.pm.mem k.kernelPagetable va)
    (howner : ∀ page, owner page = .party (.body p) → owner' page = .party (.body p)) :
    HasBody k' owner' p pid := by
  obtain ⟨frame, hframe, howned, hne⟩ := hhas.stack
  have hproc := hsame.procs p rfl
  refine ⟨hproc.pid.trans hhas.number, hproc.kstack.trans hhas.kstack, ?_, frame, ?_,
    howner frame howned, ?_⟩
  · rw [hproc.trapframe]
    exact howner _ hhas.trapframe
  · rw [hsame.table, hmaps, hframe]
  · rwa [hproc.trapframe]

/-- A step that leaves the process all it has. -/
theorem Departed.move (hdeparted : Departed image k p pid ledger) {ledger' : Ledger}
    (hkeeps : Keeps image k' ledger') (hsame : SameProcs {p} k k')
    (hspares : Spares {party | party ≠ .kernel} ledger.owner ledger'.owner k.pm.mem k'.pm.mem)
    (howner : ∀ page, ledger.owner page = .party (.body p) → ledger'.owner page = .party (.body p))
    (htransit : ledger'.transit = ledger.transit) (hslabs : ledger'.slabs = ledger.slabs)
    (husers : p ∈ ledger'.users ↔ p ∈ ledger.users) : Departed image k' p pid ledger' := by
  have hmaps := hdeparted.keeps.shared.translate_spared hspares ledger.kernel_mem fun h => h rfl
  refine ⟨hkeeps, ?_, hdeparted.small, htransit.trans hdeparted.transit, ?_, ?_, ?_, ?_⟩
  · rw [hsame.list]
    exact hdeparted.new
  · exact hdeparted.has.move hsame hmaps howner
  · rw [hsame.cache, hslabs]
    exact hdeparted.live
  · rw [husers, (hsame.procs p rfl).pagetable]
    exact hdeparted.user
  · rw [hsame.pids]
    exact hdeparted.marked

/-- The process `p` is gone, and the others have lost nothing. -/
structure Gone (image : Image) (k k' : Kernel) (p : ℕ) (ledger ledger' : Ledger) : Prop where
  keeps : Keeps image k' ledger'
  transit : ledger'.transit = ∅
  users : ∀ q ∈ ledger'.users, q ∈ ledger.users ∧ q ≠ p
  others : ∀ q ≠ p, k'.procs q = k.procs q
  list : k'.processList = k.processList
  spares : Spares (Party.actors p) ledger.owner ledger'.owner k.pm.mem k'.pm.mem

/-- The label `bad` of `fork` gives back all pages of the child, and ends with its number and its
structure. -/
theorem Departed.dismantle (hsymbols : image.Ok)
    (hdeparted : Departed image { k with processList := k.processList.erase p } p pid ledger) :
    ∃ pm ledger', Process.forkBad image k p =
        ((pidFree { k.setPm pm with processList := k.processList.erase p } pid).kfreeProc image p).map
          (fun k' => (-1, k')) ∧
      Keeps image { k.setPm pm with processList := k.processList.erase p } ledger' ∧
      ledger'.users = ledger.users \ {p} ∧ ledger'.transit = {pid} ∧ ledger'.slabs = ledger.slabs ∧
      translate pm.mem k.kernelPagetable (kstackVa pid) = none ∧
      Spares (Party.actors p) ledger.owner ledger'.owner k.pm.mem pm.mem ∧
      (∀ page, page ∈ pm.freelist ↔ page ∈ k.pm.freelist ∨
        (∃ flags, translate k.pm.mem k.kernelPagetable (kstackVa pid) = some (page, flags)) ∨
        ledger.owner page = .party (.space p) ∨ page = (k.procs p).trapframe) ∧
      ∀ page, TablePage pm.mem k.kernelPagetable page ↔
        TablePage k.pm.mem k.kernelPagetable page := by
  obtain ⟨hkeeps, hp, hpid, htransit, hhas, hlive, huser, -⟩ := hdeparted
  have hnumber : (k.procs p).pid = pid := hhas.number
  have hkstack : (k.procs p).kstack ≠ 0 := by
    rw [show (k.procs p).kstack = kstackVa pid from hhas.kstack]
    exact kstackVa_ne_zero hpid
  obtain ⟨pm₁, ledger₁, hunmap, hkeep₁, husers₁, htransit₁, hslabs₁, hnone₁, howned₁, hspares₁,
      hfree₁, htables₁⟩ :=
    hkeeps.unmapStack hp hpid (by rw [htransit]; exact Set.mem_singleton pid) hhas
  obtain ⟨pm₂, ledger₂, hdrop₂, hkeep₂, husers₂, htransit₂, hslabs₂, hspares₂, hfree₂⟩ :=
    hkeep₁.dropSpace hp (husers₁ ▸ huser)
  have hkernel₂ := hkeep₁.shared.translate_spared hspares₂ ledger₁.kernel_mem
    fun heq => by cases heq
  have howned₂ := (hspares₂.pages (.body p) (fun heq => by cases heq) _).mpr howned₁
  obtain ⟨pm₃, ledger₃, hdrop₃, hkeep₃, husers₃, htransit₃, hslabs₃, hspares₃, hfree₃⟩ :=
    hkeep₂.dropTrapframe hsymbols hp howned₂
  have hkernel₃ := hkeep₂.shared.translate_spared hspares₃ ledger₂.kernel_mem
    fun heq => by cases heq
  refine ⟨pm₃, ledger₃, ?_, hkeep₃, ?_, ?_, ?_, ?_, ?_, fun page => ?_, fun page => ?_⟩
  · rw [Process.forkBad]
    dsimp only
    rw [if_pos hkstack, hnumber]
    refine (bind_of_ok (congrArg panics hunmap)).trans ?_
    refine (ite_bind_of_ok hdrop₂).trans ?_
    refine (ite_bind_of_ok hdrop₃).trans ?_
    cases (pidFree { k.setPm pm₃ with processList := k.processList.erase p } pid).kfreeProc image p with
    | error stop => rfl
    | ok k' => rfl
  · rw [husers₃, husers₂, husers₁]
  · rw [htransit₃, htransit₂, htransit₁]
    exact htransit
  · rw [hslabs₃, hslabs₂, hslabs₁]
  · exact (hkernel₃ _).trans ((hkernel₂ _).trans hnone₁)
  · refine ((hspares₁.mono (Party.stack_subset p)).trans (hspares₂.mono ?_)).trans (hspares₃.mono ?_)
    · exact fun party hparty => .inr (.inr (.inr hparty))
    · exact fun party hparty => .inr (.inr (.inl hparty))
  · have hspace : ledger₁.owner page = .party (.space p) ↔ ledger.owner page = .party (.space p) :=
      hspares₁.pages (.space p) (by simp) page
    calc page ∈ pm₃.freelist ↔ page ∈ pm₂.freelist ∨ page = (k.procs p).trapframe := hfree₃ page
      _ ↔ (page ∈ pm₁.freelist ∨ ledger₁.owner page = .party (.space p)) ∨
          page = (k.procs p).trapframe := or_congr_left (hfree₂ page)
      _ ↔ ((page ∈ k.pm.freelist ∨ ∃ flags, translate k.pm.mem k.kernelPagetable (kstackVa pid) =
            some (page, flags)) ∨ ledger.owner page = .party (.space p)) ∨
          page = (k.procs p).trapframe := or_congr_left (or_congr (hfree₁ page) hspace)
      _ ↔ _ := by rw [or_assoc, or_assoc]
  · refine (hkeep₂.tablePage_iff hspares₃ (fun heq => by cases heq) page).trans ?_
    exact (hkeep₁.tablePage_iff hspares₂ (fun heq => by cases heq) page).trans (htables₁ page)

/-- The label `bad` of `fork`. -/
theorem Departed.forkBad {ret : ℤ} (hsymbols : image.Ok)
    (hdeparted : Departed image { k with processList := k.processList.erase p } p pid ledger)
    (hbad : forkBad image k p = .ok (ret, k')) :
    ret = -1 ∧ ∃ ledger',
      Gone image { k with processList := k.processList.erase p } k' p ledger ledger' := by
  obtain ⟨pm, ledger₁, heq, hkeep, husers₁, htransit₁, hslabs₁, hnone, hspares, -, -⟩ :=
    hdeparted.dismantle hsymbols
  rw [heq] at hbad
  cases hkfree : (pidFree { k.setPm pm with processList := k.processList.erase p }
    pid).kfreeProc image p with
  | error stop =>
      rw [hkfree] at hbad
      cases hbad
  | ok k₁ =>
      rw [hkfree] at hbad
      obtain ⟨rfl, rfl⟩ := Prod.mk.inj (Except.ok.inj hbad)
      obtain ⟨ledger', hkeep', howner, husers, htransit', cache, map, honly⟩ :=
        hkeep.finish hdeparted.new hdeparted.small htransit₁ hnone
          (by rw [hslabs₁]; exact hdeparted.live) hkfree
      refine ⟨rfl, ledger', hkeep', htransit', fun q hq => ?_, fun q _ => ?_, ?_, ?_⟩
      · rw [husers, husers₁] at hq
        exact ⟨hq.1, hq.2⟩
      · rw [honly]
        rfl
      · rw [honly]
      · rw [howner, honly]
        exact hspares

/-- What `process_wait` does with a process that has ended. -/
theorem Departed.reap {ret : ℤ} (hsymbols : image.Ok)
    (hdeparted : Departed image { k with processList := k.processList.erase p } p pid ledger)
    (hroot : (k.procs p).pagetable = 0) (hreap : reap image k p = .ok (ret, k')) :
    ret = pid ∧ ∃ ledger',
      Gone image { k with processList := k.processList.erase p } k' p ledger ledger' := by
  obtain ⟨hkeeps, hp, hpid, htransit, hhas, hlive, huser, -⟩ := hdeparted
  have huser : p ∉ ledger.users := fun h => huser.mp h hroot
  have hnumber : (k.procs p).pid = pid := hhas.number
  have hplace : (k.procs p).kstack = kstackVa pid := hhas.kstack
  obtain ⟨pm₁, ledger₁, hunmap, hkeep₁, husers₁, htransit₁, hslabs₁, hnone₁, howned₁, hspares₁,
      -, -⟩ :=
    hkeeps.unmapStack hp hpid (by rw [htransit]; exact Set.mem_singleton pid) hhas
  have hset₁ := hkeep₁.setProc hp (husers₁ ▸ huser) fun proc => { proc with kstack := 0 }
  have hgood := hset₁.shared.good (k.procs p).trapframe (by
    rw [howned₁]
    exact fun heq => by cases heq)
  have hframe : (k.procs p).trapframe ≠ 0 := by
    have hlo := hgood.lo
    have hpos := hsymbols.kernelEnd
    omega
  obtain ⟨pm₂, hgive, -, hmoves, hkeep₂⟩ := hset₁.give hp howned₁
  have hset₂ := hkeep₂.setProc hp (husers₁ ▸ huser) fun proc => { proc with trapframe := 0 }
  have hkernel₂ := hset₁.shared.translate_other hmoves ledger₁.kernel_mem
    (fun heq => by cases heq)
  rw [Process.reap] at hreap
  dsimp only at hreap
  rw [hplace, if_pos (kstackVa_ne_zero hpid), hnumber] at hreap
  obtain ⟨_, heq₁, hreap⟩ := bind_eq_ok hreap
  obtain rfl := Except.ok.inj ((congrArg panics hunmap).symm.trans heq₁)
  obtain ⟨k₁, hk₁, hreap⟩ := bind_eq_ok hreap
  obtain rfl := Except.ok.inj hk₁
  rw [if_pos (by rw [Kernel.setProc_self]; exact hframe)] at hreap
  obtain ⟨_, heq₂, hreap⟩ := bind_eq_ok hreap
  rw [Kernel.setProc_self] at heq₂
  obtain rfl := Except.ok.inj ((congrArg panics hgive).symm.trans heq₂)
  obtain ⟨k₂, hk₂, hreap⟩ := bind_eq_ok hreap
  obtain rfl := Except.ok.inj hk₂
  obtain ⟨k₃, hkfree, hreap⟩ := bind_eq_ok hreap
  obtain ⟨rfl, rfl⟩ := Prod.mk.inj (Except.ok.inj hreap)
  obtain ⟨ledger', hkeep, howner, husers, htransit', cache, map, honly⟩ :=
    hset₂.finish hp hpid (htransit₁.trans htransit) ((hkernel₂ _).trans hnone₁)
      (by exact hslabs₁ ▸ hlive) hkfree
  refine ⟨rfl, ledger', hkeep, htransit', fun q hq => ?_, fun q hq => ?_, ?_, ?_⟩
  · rw [husers] at hq
    have hold : q ∈ ledger.users := husers₁ ▸ hq
    exact ⟨hold, fun heq => huser (heq ▸ hold)⟩
  · rw [honly]
    simp [Kernel.setProc, Kernel.setPm, hq]
  · rw [honly]
    rfl
  · rw [howner, honly]
    refine (hspares₁.mono (Party.stack_subset p)).trans (hmoves.spares.mono ?_)
    exact fun party hparty => .inr (.inr (.inl hparty))

end Dismantle

end Painting.Process
