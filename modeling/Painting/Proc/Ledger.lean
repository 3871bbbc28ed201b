import Painting.Mm.Parties
import Painting.Mm.SlabSearch
import Painting.Proc.Create

/-!
# Who holds what in the kernel

Every page of the allocator is free or belongs to one party: the page table of the kernel, the user
table of a process, the body of a process (its trapframe and its kernel stack), or the slabs.  The
ledger also knows the process numbers in transit, whose process is being made or taken apart and is
not on the list.

Each operation of `proc.c` is a sequence of steps of single parties that keep the ledger.
-/

namespace Painting.Process

open Painting.Memory Painting.PageTable

/-! ## The ledger -/

inductive Party
  | kernel
  | space (p : ℕ)
  | body (p : ℕ)
  | slab
  deriving DecidableEq

/-- The owners of the pages, the tables, the processes that have a user table, the slab pages of
process structures, and the process numbers in transit. -/
structure Ledger where
  owner : ℕ → Owner Party
  tables : Party → ℕ → Set ℕ
  users : Set ℕ
  slabs : List ℕ
  transit : Set ℕ

def Party.Holds (users : Set ℕ) : Party → Prop
  | .kernel => True
  | .space p => p ∈ users
  | .body _ => False
  | .slab => False

/-- The parties with a page table. -/
def Ledger.holders (ledger : Ledger) : Set Party := {party | party.Holds ledger.users}

/-- The page table of a party. -/
def Kernel.root (k : Kernel) : Party → ℕ
  | .kernel => k.kernelPagetable
  | .space p => (k.procs p).pagetable
  | .body _ => 0
  | .slab => 0

/-- The process `p` has the number `pid`, a trapframe, and a kernel stack mapped at its place. -/
structure HasBody (k : Kernel) (owner : ℕ → Owner Party) (p pid : ℕ) : Prop where
  number : (k.procs p).pid = pid
  kstack : (k.procs p).kstack = kstackVa pid
  trapframe : owner (k.procs p).trapframe = .party (.body p)
  stack : ∃ frame, translate k.pm.mem k.kernelPagetable (kstackVa pid) =
      some (frame, pteR ||| pteW ||| pteV) ∧
    owner frame = .party (.body p) ∧ frame ≠ (k.procs p).trapframe

/-- The process numbers and the kernel stacks. -/
structure Stacks (k : Kernel) (owner : ℕ → Owner Party) (transit : Set ℕ) : Prop where
  body : ∀ p ∈ k.processList, ∃ pid < maxPid, pid ∉ transit ∧ Bitmap.Marked k.pidBitmap pid ∧
    HasBody k owner p pid
  marked : ∀ pid < maxPid, pid ∉ transit → Bitmap.Marked k.pidBitmap pid →
    ∃ p ∈ k.processList, (k.procs p).pid = pid
  distinct : ∀ p ∈ k.processList, ∀ q ∈ k.processList, (k.procs p).pid = (k.procs q).pid → p = q
  free : ∀ pid < maxPid, pid ∉ transit → ¬ Bitmap.Marked k.pidBitmap pid →
    translate k.pm.mem k.kernelPagetable (kstackVa pid) = none
  guard : ∀ pid < maxPid, translate k.pm.mem k.kernelPagetable (kstackVa pid - pgSize) = none
  trampoline : ∃ frame, translate k.pm.mem k.kernelPagetable trampoline = some frame

/-- The process structures. -/
structure Structures (k : Kernel) (owner : ℕ → Owner Party) (slabs : List ℕ) : Prop where
  slab : Slab.CacheOk Slab.procMode k.procCache slabs
  pages : ∀ page, page + 24 ∈ slabs → owner page = .party .slab ∨ owner page = .outside
  live : ∀ p ∈ k.processList, Slab.InUse Slab.procMode k.procCache.mem slabs p
  nodup : k.processList.Nodup

/-- The user page tables. -/
structure Spaces (image : Image) (k : Kernel) (owner : ℕ → Owner Party) (users : Set ℕ) : Prop where
  user : ∀ p ∈ k.processList, p ∈ users ↔ (k.procs p).pagetable ≠ 0
  vacant : ∀ p, p ∉ users → ∀ page, owner page ≠ .party (.space p)
  kernel : ∀ p ∈ users,
    KernelPages k.pm.mem (k.procs p).pagetable image.trampolinePa (k.procs p).trapframe
  ended : ∀ p ∈ k.processList, (k.procs p).status = .zimbie → (k.procs p).pagetable = 0

structure Keeps (image : Image) (k : Kernel) (ledger : Ledger) : Prop where
  shared : Shared image.kernelEnd k.pm ledger.owner k.root ledger.tables ledger.holders
  kstacks : Stacks k ledger.owner ledger.transit
  structures : Structures k ledger.owner ledger.slabs
  spaces : Spaces image k ledger.owner ledger.users

/-- No process is being made or taken apart. -/
structure Settled (k : Kernel) (ledger : Ledger) : Prop where
  pids : ledger.transit = ∅
  users : ∀ p ∈ ledger.users, p ∈ k.processList

/-! ## Places of kernel stacks -/

theorem kstackVa_page {pid pid' : ℕ} (hpid : pid < maxPid) (hpid' : pid' < maxPid)
    (hpage : kstackVa pid / pgSize = kstackVa pid' / pgSize) : pid = pid' := by
  rw [kstackVa_eq hpid, kstackVa_eq hpid'] at hpage
  simp only [trampoline, maxVa, pgSize, maxPid] at *
  omega

/-- The page below a stack is no other stack. -/
theorem guard_page {pid pid' : ℕ} (hpid : pid < maxPid) (hpid' : pid' < maxPid) :
    (kstackVa pid - pgSize) / pgSize ≠ kstackVa pid' / pgSize := by
  rw [kstackVa_eq hpid, kstackVa_eq hpid']
  simp only [trampoline, maxVa, pgSize, maxPid] at *
  omega

theorem guard_lt {pid : ℕ} (hpid : pid < maxPid) : kstackVa pid - pgSize < maxVa :=
  (Nat.sub_le _ _).trans_lt (kstackVa_lt hpid)

theorem trampoline_page {pid : ℕ} (hpid : pid < maxPid) :
    trampoline / pgSize ≠ kstackVa pid / pgSize := by
  rw [kstackVa_eq hpid]
  simp only [trampoline, maxVa, pgSize, maxPid] at *
  omega

theorem kstackVa_ne_zero {pid : ℕ} (hpid : pid < maxPid) : kstackVa pid ≠ 0 := by
  rw [kstackVa_eq hpid]
  simp only [trampoline, maxVa, pgSize, maxPid] at *
  omega

/-! ## Steps of one party -/

/-- The party is not the kernel, and not that of a process on the list. -/
def Party.Foreign (list : List ℕ) : Party → Prop
  | .kernel => False
  | .space p => p ∉ list
  | .body p => p ∉ list
  | .slab => True

@[simp]
theorem Kernel.setProc_self (k : Kernel) (p : ℕ) (change : Proc → Proc) :
    (k.setProc p change).procs p = change (k.procs p) :=
  Function.update_self _ _ _

theorem Kernel.setProc_of_ne (k : Kernel) {p q : ℕ} (change : Proc → Proc) (hne : q ≠ p) :
    (k.setProc p change).procs q = k.procs q :=
  Function.update_of_ne hne _ _

/-- What a ledger knows of a process stays. -/
structure SameBody (proc proc' : Proc) : Prop where
  pid : proc'.pid = proc.pid
  kstack : proc'.kstack = proc.kstack
  trapframe : proc'.trapframe = proc.trapframe
  pagetable : proc'.pagetable = proc.pagetable
  ended : proc'.status = .zimbie → proc.status = .zimbie

theorem SameBody.refl (proc : Proc) : SameBody proc proc := ⟨rfl, rfl, rfl, rfl, id⟩

/-- The processes `p` with `p ∈ known` are as before, and so are the tables. -/
structure SameProcs (known : Set ℕ) (k k' : Kernel) : Prop where
  list : k'.processList = k.processList
  pids : k'.pidBitmap = k.pidBitmap
  table : k'.kernelPagetable = k.kernelPagetable
  cache : k'.procCache = k.procCache
  procs : ∀ p ∈ known, SameBody (k.procs p) (k'.procs p)

theorem SameProcs.mono {known known' : Set ℕ} {k k' : Kernel} (hsame : SameProcs known k k')
    (hsub : known' ⊆ known) : SameProcs known' k k' :=
  ⟨hsame.list, hsame.pids, hsame.table, hsame.cache, fun p hp => hsame.procs p (hsub hp)⟩

theorem SameBody.trans {proc proc' proc'' : Proc} (hleft : SameBody proc proc')
    (hright : SameBody proc' proc'') : SameBody proc proc'' :=
  ⟨hright.pid.trans hleft.pid, hright.kstack.trans hleft.kstack,
    hright.trapframe.trans hleft.trapframe, hright.pagetable.trans hleft.pagetable,
    fun hended => hleft.ended (hright.ended hended)⟩

theorem SameProcs.trans {known : Set ℕ} {k k' k'' : Kernel} (hleft : SameProcs known k k')
    (hright : SameProcs known k' k'') : SameProcs known k k'' :=
  ⟨hright.list.trans hleft.list, hright.pids.trans hleft.pids, hright.table.trans hleft.table,
    hright.cache.trans hleft.cache, fun p hp => (hleft.procs p hp).trans (hright.procs p hp)⟩

theorem SameProcs.setProc {known : Set ℕ} {k k' : Kernel} (hsame : SameProcs known k k') (p : ℕ)
    {change : Proc → Proc} (hchange : ∀ proc, SameBody proc (change proc)) :
    SameProcs known k (k'.setProc p change) := by
  refine ⟨hsame.list, hsame.pids, hsame.table, hsame.cache, fun q hq => ?_⟩
  by_cases heq : q = p
  · subst heq
    rw [k'.setProc_self]
    exact (hsame.procs q hq).trans (hchange _)
  · rw [k'.setProc_of_ne change heq]
    exact hsame.procs q hq

theorem SameProcs.refl (known : Set ℕ) (k : Kernel) : SameProcs known k k :=
  ⟨rfl, rfl, rfl, rfl, fun _ _ => SameBody.refl _⟩

theorem SameProcs.setPm (known : Set ℕ) (k : Kernel) (pm : Pm) : SameProcs known k (k.setPm pm) :=
  ⟨rfl, rfl, rfl, rfl, fun _ _ => SameBody.refl _⟩

section Steps

variable {image : Image} {k k' : Kernel} {ledger : Ledger} {party : Party} {users : Set ℕ}
  {set : ℕ → Set ℕ}

/-- The ledger after a step of `party`, with the tables of the party. -/
def Ledger.after (ledger : Ledger) (party : Party) (freelist : List ℕ) (users : Set ℕ)
    (set : ℕ → Set ℕ) : Ledger :=
  { ledger with
    owner := reown ledger.owner party freelist
    tables := Function.update ledger.tables party set
    users := users }

theorem Ledger.kernel_mem (ledger : Ledger) : .kernel ∈ ledger.holders := trivial

theorem Stacks.elsewhere {owner owner' : ℕ → Owner Party} {transit : Set ℕ}
    (hstacks : Stacks k owner transit) (hsame : SameProcs {p | p ∈ k.processList} k k')
    (hmaps : ∀ va, translate k'.pm.mem k.kernelPagetable va =
      translate k.pm.mem k.kernelPagetable va)
    (howner : ∀ p ∈ k.processList, ∀ page, owner page = .party (.body p) →
      owner' page = .party (.body p)) : Stacks k' owner' transit := by
  refine ⟨?_, ?_, ?_, ?_, ?_, ?_⟩
  · intro p hp
    rw [hsame.list] at hp
    obtain ⟨pid, hpid, hin, hmarked, hbody⟩ := hstacks.body p hp
    have hproc := hsame.procs p hp
    obtain ⟨frame, hframe, howned, hne⟩ := hbody.stack
    refine ⟨pid, hpid, hin, hsame.pids ▸ hmarked, hproc.pid.trans hbody.number,
      hproc.kstack.trans hbody.kstack, ?_, frame, ?_, howner p hp frame howned, ?_⟩
    · rw [hproc.trapframe]
      exact howner p hp _ hbody.trapframe
    · rw [hsame.table, hmaps, hframe]
    · rwa [hproc.trapframe]
  · intro pid hpid hin hmarked
    rw [hsame.pids] at hmarked
    obtain ⟨p, hp, heq⟩ := hstacks.marked pid hpid hin hmarked
    exact ⟨p, by rwa [hsame.list], (hsame.procs p hp).pid.trans heq⟩
  · intro p hp q hq heq
    rw [hsame.list] at hp hq
    rw [(hsame.procs p hp).pid, (hsame.procs q hq).pid] at heq
    exact hstacks.distinct p hp q hq heq
  · intro pid hpid hin hclear
    rw [hsame.pids] at hclear
    rw [hsame.table, hmaps, hstacks.free pid hpid hin hclear]
  · intro pid hpid
    rw [hsame.table, hmaps, hstacks.guard pid hpid]
  · rw [hsame.table, hmaps]
    exact hstacks.trampoline

theorem Structures.elsewhere {owner owner' : ℕ → Owner Party} {slabs : List ℕ} {known : Set ℕ}
    (hstructures : Structures k owner slabs) (hsame : SameProcs known k k')
    (hslab : ∀ page, owner page = .party .slab → owner' page = .party .slab)
    (hout : ∀ page, owner page = .outside → owner' page = .outside) :
    Structures k' owner' slabs := by
  refine ⟨hsame.cache ▸ hstructures.slab, fun page hpage => ?_, ?_, hsame.list ▸ hstructures.nodup⟩
  · exact (hstructures.pages page hpage).imp (hslab page) (hout page)
  · rw [hsame.list, hsame.cache]
    exact hstructures.live

/-- A step of a party that is not the kernel and not that of a process on the list. -/
theorem Keeps.elsewhere (hkeeps : Keeps image k ledger) (hforeign : party.Foreign k.processList)
    (hmoves : Moves ledger.owner party k.pm k'.pm)
    (hsame : SameProcs {p | p ∈ k.processList ∨ p ∈ ledger.users ∧ .space p ≠ party} k k')
    (husers : ∀ p, .space p ≠ party → (p ∈ users ↔ p ∈ ledger.users))
    (hslab : party = .slab → ∀ page ∈ k'.pm.freelist, page ∈ k.pm.freelist)
    (hself : ∀ p, party = .space p → p ∈ users →
      Owned image.kernelEnd (share ledger.owner party) k'.pm (k'.procs p).pagetable set ∧
        KernelPages k'.pm.mem (k'.procs p).pagetable image.trampolinePa (k'.procs p).trapframe)
    (hgone : ∀ p, party = .space p → p ∉ users →
      ∀ page ∈ share ledger.owner party, page ∈ k'.pm.freelist) :
    Keeps image k' (ledger.after party k'.pm.freelist users set) := by
  have hkernel : .kernel ≠ party := by
    rintro rfl
    exact hforeign
  have hlist : ∀ p ∈ k.processList, .space p ≠ party ∧ .body p ≠ party := by
    intro p hp
    constructor
    · rintro rfl
      exact hforeign hp
    · rintro rfl
      exact hforeign hp
  have hmaps : ∀ other ∈ ledger.holders, other ≠ party → ∀ va,
      translate k'.pm.mem (k.root other) va = translate k.pm.mem (k.root other) va :=
    fun other hother hne va => hkeeps.shared.translate_other hmoves hother hne va
  have hkmap : ∀ va, translate k'.pm.mem k.kernelPagetable va =
      translate k.pm.mem k.kernelPagetable va := hmaps .kernel ledger.kernel_mem hkernel
  refine ⟨?_, ?_, ?_, ?_⟩
  · refine hkeeps.shared.step hmoves (fun other hother hne => ?_) fun hother => ?_
    · refine ⟨?_, ?_, Function.update_of_ne hne _ _⟩
      · cases other with
        | kernel => exact trivial
        | space p => exact (husers p hne).mp hother
        | body p => exact hother
        | slab => exact hother
      · cases other with
        | kernel => exact hsame.table
        | space p =>
            exact (hsame.procs p (.inr ⟨(husers p hne).mp hother, hne⟩)).pagetable
        | body p => rfl
        | slab => rfl
    · dsimp only [Ledger.after]
      rw [Function.update_self]
      cases party with
      | kernel => exact absurd rfl hkernel
      | space p => exact (hself p rfl hother).1
      | body p => exact hother.elim
      | slab => exact hother.elim
  · refine hkeeps.kstacks.elsewhere ⟨hsame.list, hsame.pids, hsame.table, hsame.cache,
      fun p hp => hsame.procs p (.inl hp)⟩ hkmap ?_
    exact fun p hp page howned => (hmoves.owner_other (hlist p hp).2).mpr howned
  · refine hkeeps.structures.elsewhere hsame (fun page howned => ?_) fun page hout => ?_
    · by_cases hparty : party = .slab
      · subst hparty
        refine reown_eq_self.mpr ⟨.inr howned, fun hfree => ?_⟩
        rw [(hkeeps.shared.free page).mp (hslab rfl page hfree)] at howned
        cases howned
      · exact (hmoves.owner_other (Ne.symm hparty)).mpr howned
    · exact (reown_eq_outside hmoves.back).mpr hout
  · refine ⟨fun p hp => ?_, fun p hp page howned => ?_, fun p hp => ?_, fun p hp hended => ?_⟩
    · rw [hsame.list] at hp
      rw [(hsame.procs p (.inl hp)).pagetable]
      exact (husers p (hlist p hp).1).trans (hkeeps.spaces.user p hp)
    · by_cases hparty : .space p = party
      · subst hparty
        obtain ⟨hshare, hbusy⟩ := reown_eq_self.mp howned
        exact hbusy (hgone p rfl hp page hshare)
      · have hold := mt (husers p hparty).mpr hp
        exact hkeeps.spaces.vacant p hold page ((hmoves.owner_other hparty).mp howned)
    · by_cases hparty : .space p = party
      · exact (hself p hparty.symm hp).2
      · have hold := (husers p hparty).mp hp
        have hproc := hsame.procs p (.inr ⟨hold, hparty⟩)
        have hpages := hkeeps.spaces.kernel p hold
        have hmap := hmaps (.space p) hold hparty
        rw [hproc.pagetable, hproc.trapframe]
        exact ⟨(hmap _).trans hpages.trampoline, (hmap _).trans hpages.trapFrame⟩
    · rw [hsame.list] at hp
      have hproc := hsame.procs p (.inl hp)
      rw [hproc.pagetable]
      exact hkeeps.spaces.ended p hp (hproc.ended hended)

/-- A change outside the allocator. -/
theorem Keeps.congr (hkeeps : Keeps image k ledger) (hpm : k'.pm = k.pm)
    (hsame : SameProcs {p | p ∈ k.processList ∨ p ∈ ledger.users} k k') : Keeps image k' ledger := by
  have hmaps : ∀ va, translate k'.pm.mem k.kernelPagetable va =
      translate k.pm.mem k.kernelPagetable va := fun va => by rw [hpm]
  have hroot : ∀ other ∈ ledger.holders, k'.root other = k.root other := by
    intro other hother
    cases other with
    | kernel => exact hsame.table
    | space p => exact (hsame.procs p (.inr hother)).pagetable
    | body p => rfl
    | slab => rfl
  refine ⟨⟨hpm ▸ hkeeps.shared.nodup, hpm ▸ hkeeps.shared.free, hkeeps.shared.good,
    fun other hother => ?_⟩, ?_, ?_, ?_⟩
  · rw [hpm, hroot other hother]
    exact hkeeps.shared.owned other hother
  · exact hkeeps.kstacks.elsewhere ⟨hsame.list, hsame.pids, hsame.table, hsame.cache,
      fun p hp => hsame.procs p (.inl hp)⟩ hmaps fun _ _ _ howned => howned
  · exact hkeeps.structures.elsewhere hsame (fun _ h => h) fun _ h => h
  · refine ⟨fun p hp => ?_, hkeeps.spaces.vacant, fun p hp => ?_, fun p hp hended => ?_⟩
    · rw [hsame.list] at hp
      rw [(hsame.procs p (.inl hp)).pagetable]
      exact hkeeps.spaces.user p hp
    · have hproc := hsame.procs p (.inr hp)
      rw [hproc.pagetable, hproc.trapframe, hpm]
      exact hkeeps.spaces.kernel p hp
    · rw [hsame.list] at hp
      have hproc := hsame.procs p (.inl hp)
      rw [hproc.pagetable]
      exact hkeeps.spaces.ended p hp (hproc.ended hended)

/-- The memory of a body is written. -/
theorem Keeps.write (hkeeps : Keeps image k ledger) {p : ℕ} {mem' : Mem}
    (hwrite : ∀ x, ledger.owner (pgRoundDown x) ≠ .party (.body p) → mem' x = k.pm.mem x) :
    Keeps image (k.setPm ⟨mem', k.pm.freelist⟩) ledger := by
  have hmoves := hkeeps.shared.moves_write hwrite
  have hmaps : ∀ other ∈ ledger.holders, ∀ va,
      translate mem' (k.root other) va = translate k.pm.mem (k.root other) va := by
    intro other hother va
    refine hkeeps.shared.translate_other hmoves hother ?_ va
    rintro rfl
    exact hother
  have hreown : reown ledger.owner (.body p) k.pm.freelist = ledger.owner :=
    reown_same hkeeps.shared.free
  refine ⟨?_, ?_, ?_, ?_⟩
  · have hshared := @Shared.step _ _ _ _ _ _ k.root _ ledger.tables _ ledger.holders _
      hkeeps.shared hmoves (fun other hother _ => ⟨hother, rfl, rfl⟩) fun hself => hself.elim
    rwa [hreown] at hshared
  · exact hkeeps.kstacks.elsewhere (.setPm _ k _) (hmaps .kernel ledger.kernel_mem)
      fun _ _ _ howned => howned
  · exact hkeeps.structures.elsewhere (.setPm ∅ k _) (fun _ h => h) fun _ h => h
  · refine ⟨hkeeps.spaces.user, hkeeps.spaces.vacant, fun p hp => ?_, hkeeps.spaces.ended⟩
    have hpages := hkeeps.spaces.kernel p hp
    exact ⟨(hmaps (.space p) hp _).trans hpages.trampoline,
      (hmaps (.space p) hp _).trans hpages.trapFrame⟩

/-- `kpmalloc` for a body or for the slabs. -/
theorem Keeps.take (hkeeps : Keeps image k ledger) (hforeign : party.Foreign k.processList)
    (hplain : ∀ p, party ≠ .space p) {page : ℕ} {rest : List ℕ}
    (hlist : k.pm.freelist = page :: rest) :
    Keeps image (k.setPm ⟨fill k.pm.mem page 5 pgSize, rest⟩)
        (ledger.after party rest ledger.users (ledger.tables party)) ∧
      reown ledger.owner party rest page = .party party ∧ Allocatable image.kernelEnd page ∧
      Spares {party} ledger.owner (reown ledger.owner party rest) k.pm.mem
        (fill k.pm.mem page 5 pgSize) := by
  have hpm : k.pm = ⟨k.pm.mem, page :: rest⟩ := by
    rw [← hlist]
  have hshared := hkeeps.shared
  rw [hpm] at hshared
  have hfree : ledger.owner page = .free := (hshared.free page).mp List.mem_cons_self
  have hmoves : Moves ledger.owner party k.pm ⟨fill k.pm.mem page 5 pgSize, rest⟩ := by
    have hmoves := hshared.moves_take party
    rwa [← hpm] at hmoves
  refine ⟨?_, reown_of_taken (List.nodup_cons.mp hshared.nodup).1 hfree, hshared.good page ?_,
    hmoves.spares⟩
  · refine @Keeps.elsewhere _ _ (k.setPm ⟨fill k.pm.mem page 5 pgSize, rest⟩) _ _ _ _ hkeeps hforeign hmoves
      (.setPm _ k _) (fun _ _ => Iff.rfl) (fun _ other hother => ?_)
      (fun p heq => absurd heq (hplain p)) fun p heq => absurd heq (hplain p)
    rw [hlist]
    exact List.mem_cons_of_mem _ hother
  · rw [hfree]
    exact fun heq => by cases heq

/-- `kpmfree` of a page of a body. -/
theorem Keeps.give (hkeeps : Keeps image k ledger) {p page : ℕ} (hp : p ∉ k.processList)
    (hpage : ledger.owner page = .party (.body p)) :
    ∃ pm', kpmfree image.kernelEnd k.pm page = .ok pm' ∧ pm'.freelist = page :: k.pm.freelist ∧
      Moves ledger.owner (.body p) k.pm pm' ∧
      Keeps image (k.setPm pm')
        (ledger.after (.body p) pm'.freelist ledger.users (ledger.tables (.body p))) := by
  obtain ⟨pm', hgive, hfree, hmoves⟩ := hkeeps.shared.moves_give hpage
  refine ⟨pm', hgive, hfree, hmoves, ?_⟩
  exact @Keeps.elsewhere _ _ (k.setPm pm') _ _ _ _ hkeeps hp hmoves
    (.setPm _ k _) (fun _ _ => Iff.rfl) (fun heq => by cases heq)
    (fun p heq => by cases heq) fun p heq => by cases heq

/-- A step of the kernel on its page table, which changes only the page of a stack in transit. -/
theorem Keeps.kernelStep (hkeeps : Keeps image k ledger) {pm' : Pm} {pid : ℕ} (hpid : pid < maxPid)
    (htransit : pid ∈ ledger.transit) (hmoves : Moves ledger.owner .kernel k.pm pm')
    (hown : Owned image.kernelEnd (share ledger.owner .kernel) pm' k.kernelPagetable set)
    (hmaps : ∀ va < maxVa, va / pgSize ≠ kstackVa pid / pgSize →
      translate pm'.mem k.kernelPagetable va = translate k.pm.mem k.kernelPagetable va) :
    Keeps image (k.setPm pm') (ledger.after .kernel pm'.freelist ledger.users set) := by
  have hbody : ∀ p page, ledger.owner page = .party (.body p) →
      reown ledger.owner .kernel pm'.freelist page = .party (.body p) :=
    fun p page howned => (hmoves.owner_other (fun heq => by cases heq)).mpr howned
  have hother : ∀ pid' < maxPid, pid' ∉ ledger.transit →
      translate pm'.mem k.kernelPagetable (kstackVa pid') =
        translate k.pm.mem k.kernelPagetable (kstackVa pid') := by
    intro pid' hpid' hin
    refine hmaps _ (kstackVa_lt hpid') fun heq => hin ?_
    rw [kstackVa_page hpid' hpid heq]
    exact htransit
  have hne : ∀ p, Party.space p ≠ .kernel := fun p heq => by cases heq
  refine ⟨?_, ?_, ?_, ?_⟩
  · refine hkeeps.shared.step hmoves (fun other hother hne => ?_) fun _ => ?_
    · exact ⟨hother, by cases other <;> rfl, Function.update_of_ne hne _ _⟩
    · dsimp only [Ledger.after]
      rw [Function.update_self]
      exact hown
  · refine ⟨fun p hp => ?_, hkeeps.kstacks.marked, hkeeps.kstacks.distinct, ?_, ?_, ?_⟩
    · obtain ⟨pid', hpid', hin, hmarked, hhas⟩ := hkeeps.kstacks.body p hp
      obtain ⟨frame, hframe, howned, hframe'⟩ := hhas.stack
      exact ⟨pid', hpid', hin, hmarked, hhas.number, hhas.kstack, hbody p _ hhas.trapframe, frame,
        (hother pid' hpid' hin).trans hframe, hbody p _ howned, hframe'⟩
    · exact fun pid' hpid' hin hclear =>
        (hother pid' hpid' hin).trans (hkeeps.kstacks.free pid' hpid' hin hclear)
    · exact fun pid' hpid' =>
        (hmaps _ (guard_lt hpid') (guard_page hpid' hpid)).trans (hkeeps.kstacks.guard pid' hpid')
    · obtain ⟨frame, hframe⟩ := hkeeps.kstacks.trampoline
      exact ⟨frame, (hmaps _ (by decide) (trampoline_page hpid)).trans hframe⟩
  · refine hkeeps.structures.elsewhere (.setPm ∅ k _) (fun page howned => ?_) fun page hout => ?_
    · exact (hmoves.owner_other (fun heq => by cases heq)).mpr howned
    · exact (reown_eq_outside hmoves.back).mpr hout
  · refine ⟨hkeeps.spaces.user, fun p hp page howned => ?_, fun p hp => ?_, hkeeps.spaces.ended⟩
    · exact hkeeps.spaces.vacant p hp page ((hmoves.owner_other (hne p)).mp howned)
    · have hpages := hkeeps.spaces.kernel p hp
      have hmap := hkeeps.shared.translate_other hmoves (show .space p ∈ ledger.holders from hp)
        (hne p)
      exact ⟨(hmap _).trans hpages.trampoline, (hmap _).trans hpages.trapFrame⟩

end Steps

/-! ## Numbers and the list -/

section List

variable {image : Image} {k k' : Kernel} {ledger : Ledger} {owner : ℕ → Owner Party} {p pid : ℕ}

theorem HasBody.congr (hhas : HasBody k owner p pid) (hpm : k'.pm = k.pm)
    (htable : k'.kernelPagetable = k.kernelPagetable) (hprocs : k'.procs = k.procs) :
    HasBody k' owner p pid := by
  refine ⟨?_, ?_, ?_, ?_⟩
  · rw [hprocs]
    exact hhas.number
  · rw [hprocs]
    exact hhas.kstack
  · rw [hprocs]
    exact hhas.trapframe
  · rw [hpm, htable, hprocs]
    exact hhas.stack

/-- A number is taken. -/
theorem Keeps.reserve (hkeeps : Keeps image k ledger) (hclear : ¬ Bitmap.Marked k.pidBitmap pid) :
    Keeps image { k with pidBitmap := Bitmap.mark k.pidBitmap pid }
      { ledger with transit := insert pid ledger.transit } := by
  refine ⟨hkeeps.shared, ⟨fun q hq => ?_, ?_, hkeeps.kstacks.distinct, ?_, hkeeps.kstacks.guard,
    hkeeps.kstacks.trampoline⟩, ⟨hkeeps.structures.slab,
    hkeeps.structures.pages, hkeeps.structures.live, hkeeps.structures.nodup⟩, ⟨hkeeps.spaces.user, hkeeps.spaces.vacant, hkeeps.spaces.kernel,
    hkeeps.spaces.ended⟩⟩
  · obtain ⟨pid', hpid', hin, hmarked, hhas⟩ := hkeeps.kstacks.body q hq
    refine ⟨pid', hpid', ?_, Bitmap.marked_mark.mpr (.inr hmarked), hhas.congr rfl rfl rfl⟩
    rintro (rfl | hold)
    · exact hclear hmarked
    · exact hin hold
  · intro pid' hpid' hin hmarked
    rw [Set.mem_insert_iff, not_or] at hin
    obtain heq | hmarked := Bitmap.marked_mark.mp hmarked
    · exact absurd heq hin.1
    · exact hkeeps.kstacks.marked pid' hpid' hin.2 hmarked
  · intro pid' hpid' hin hmarked
    rw [Set.mem_insert_iff, not_or] at hin
    exact hkeeps.kstacks.free pid' hpid' hin.2 fun h => hmarked (Bitmap.marked_mark.mpr (.inr h))

/-- A number in transit whose stack is not mapped is given back. -/
theorem Keeps.release (hkeeps : Keeps image k ledger)
    (hnone : translate k.pm.mem k.kernelPagetable (kstackVa pid) = none)
    (htransit : pid ∈ ledger.transit) :
    Keeps image { k with pidBitmap := Bitmap.clear k.pidBitmap pid }
      { ledger with transit := ledger.transit \ {pid} } := by
  refine ⟨hkeeps.shared, ⟨fun q hq => ?_, ?_, hkeeps.kstacks.distinct, ?_, hkeeps.kstacks.guard,
    hkeeps.kstacks.trampoline⟩, ⟨hkeeps.structures.slab,
    hkeeps.structures.pages, hkeeps.structures.live, hkeeps.structures.nodup⟩, ⟨hkeeps.spaces.user, hkeeps.spaces.vacant, hkeeps.spaces.kernel,
    hkeeps.spaces.ended⟩⟩
  · obtain ⟨pid', hpid', hin, hmarked, hhas⟩ := hkeeps.kstacks.body q hq
    refine ⟨pid', hpid', fun hin' => hin hin'.1, Bitmap.marked_clear.mpr ⟨?_, hmarked⟩,
      hhas.congr rfl rfl rfl⟩
    rintro rfl
    exact hin htransit
  · intro pid' hpid' hin hmarked
    obtain ⟨hne, hmarked⟩ := Bitmap.marked_clear.mp hmarked
    exact hkeeps.kstacks.marked pid' hpid' (fun h => hin ⟨h, hne⟩) hmarked
  · intro pid' hpid' hin hclear
    by_cases heq : pid' = pid
    · rw [heq]
      exact hnone
    · exact hkeeps.kstacks.free pid' hpid' (fun h => hin ⟨h, heq⟩) fun h =>
        hclear (Bitmap.marked_clear.mpr ⟨heq, h⟩)

/-- A process leaves the list; its number is in transit then. -/
theorem Keeps.depart (hkeeps : Keeps image k ledger) (hp : p ∈ k.processList)
    (hnumber : (k.procs p).pid = pid) :
    Keeps image { k with processList := k.processList.erase p }
      { ledger with transit := insert pid ledger.transit } := by
  have hmem : ∀ q, q ∈ k.processList.erase p ↔ q ≠ p ∧ q ∈ k.processList := fun q =>
    hkeeps.structures.nodup.mem_erase_iff
  have hlist : ∀ q ∈ k.processList.erase p, q ∈ k.processList := fun q hq => ((hmem q).mp hq).2
  refine ⟨hkeeps.shared, ⟨fun q hq => ?_, ?_, ?_, ?_, hkeeps.kstacks.guard,
    hkeeps.kstacks.trampoline⟩, ?_, ?_⟩
  · obtain ⟨pid', hpid', hin, hmarked, hhas⟩ := hkeeps.kstacks.body q (hlist q hq)
    refine ⟨pid', hpid', ?_, hmarked, hhas.congr rfl rfl rfl⟩
    rintro (rfl | hold)
    · have heq := hkeeps.kstacks.distinct q (hlist q hq) p hp (hhas.number.trans hnumber.symm)
      exact ((hmem q).mp hq).1 heq
    · exact hin hold
  · intro pid' hpid' hin hmarked
    rw [Set.mem_insert_iff, not_or] at hin
    obtain ⟨q, hq, heq⟩ := hkeeps.kstacks.marked pid' hpid' hin.2 hmarked
    refine ⟨q, (hmem q).mpr ⟨?_, hq⟩, heq⟩
    rintro rfl
    exact hin.1 (Int.ofNat_inj.mp (heq.symm.trans hnumber))
  · exact fun q hq q' hq' => hkeeps.kstacks.distinct q (hlist q hq) q' (hlist q' hq')
  · intro pid' hpid' hin hclear
    rw [Set.mem_insert_iff, not_or] at hin
    exact hkeeps.kstacks.free pid' hpid' hin.2 hclear
  · exact ⟨hkeeps.structures.slab, hkeeps.structures.pages,
      fun q hq => hkeeps.structures.live q (hlist q hq), hkeeps.structures.nodup.erase p⟩
  · exact ⟨fun q hq => hkeeps.spaces.user q (hlist q hq), hkeeps.spaces.vacant,
      hkeeps.spaces.kernel, fun q hq => hkeeps.spaces.ended q (hlist q hq)⟩

/-- A process with all that belongs to it joins the list. -/
theorem Keeps.arrive (hkeeps : Keeps image k ledger) {list : List ℕ} (hpid : pid < maxPid)
    (htransit : pid ∈ ledger.transit) (hmarked : Bitmap.Marked k.pidBitmap pid)
    (hhas : HasBody k ledger.owner p pid) (hnew : p ∉ k.processList)
    (hmem : ∀ q, q ∈ list ↔ q = p ∨ q ∈ k.processList) (hnodup : list.Nodup)
    (hlive : Slab.InUse Slab.procMode k.procCache.mem ledger.slabs p)
    (huser : p ∈ ledger.users ↔ (k.procs p).pagetable ≠ 0)
    (hended : (k.procs p).status = .zimbie → (k.procs p).pagetable = 0) :
    Keeps image { k with processList := list }
      { ledger with transit := ledger.transit \ {pid} } := by
  -- the other processes have numbers that are not in transit
  have hapart : ∀ q ∈ k.processList, (k.procs q).pid ≠ pid := by
    intro q hq heq
    obtain ⟨pid', hpid', hin, -, hhas'⟩ := hkeeps.kstacks.body q hq
    rw [hhas'.number] at heq
    rw [Int.ofNat_inj.mp heq] at hin
    exact hin htransit
  refine ⟨hkeeps.shared, ⟨fun q hq => ?_, ?_, ?_, ?_, hkeeps.kstacks.guard,
    hkeeps.kstacks.trampoline⟩, ?_, ?_⟩
  · obtain rfl | hq := (hmem q).mp hq
    · exact ⟨pid, hpid, fun h => h.2 rfl, hmarked, hhas.congr rfl rfl rfl⟩
    · obtain ⟨pid', hpid', hin, hmarked', hhas'⟩ := hkeeps.kstacks.body q hq
      exact ⟨pid', hpid', fun h => hin h.1, hmarked', hhas'.congr rfl rfl rfl⟩
  · intro pid' hpid' hin hmarked'
    by_cases heq : pid' = pid
    · exact ⟨p, (hmem p).mpr (.inl rfl), heq ▸ hhas.number⟩
    · obtain ⟨q, hq, hnumber⟩ := hkeeps.kstacks.marked pid' hpid' (fun h => hin ⟨h, heq⟩) hmarked'
      exact ⟨q, (hmem q).mpr (.inr hq), hnumber⟩
  · intro q hq q' hq' heq
    obtain rfl | hq := (hmem q).mp hq
    · obtain rfl | hq' := (hmem q').mp hq'
      · rfl
      · exact absurd (heq.symm.trans hhas.number) (hapart q' hq')
    · obtain rfl | hq' := (hmem q').mp hq'
      · exact absurd (heq.trans hhas.number) (hapart q hq)
      · exact hkeeps.kstacks.distinct q hq q' hq' heq
  · intro pid' hpid' hin hclear
    by_cases heq : pid' = pid
    · rw [heq] at hclear
      exact absurd hmarked hclear
    · exact hkeeps.kstacks.free pid' hpid' (fun h => hin ⟨h, heq⟩) hclear
  · refine ⟨hkeeps.structures.slab, hkeeps.structures.pages, fun q hq => ?_, hnodup⟩
    obtain rfl | hq := (hmem q).mp hq
    · exact hlive
    · exact hkeeps.structures.live q hq
  · refine ⟨fun q hq => ?_, hkeeps.spaces.vacant, hkeeps.spaces.kernel, fun q hq => ?_⟩
    · obtain rfl | hq := (hmem q).mp hq
      · exact huser
      · exact hkeeps.spaces.user q hq
    · obtain rfl | hq := (hmem q).mp hq
      · exact hended
      · exact hkeeps.spaces.ended q hq

end List

/-! ## Process structures -/

section Objects

variable {image : Image} {k k' : Kernel} {ledger : Ledger} {p : ℕ}

/-- Only the cache of the process structures changes. -/
theorem Keeps.recache (hkeeps : Keeps image k ledger) {cache : Slab.Cache} {slabs : List ℕ}
    (hnew : Structures { k with procCache := cache } ledger.owner slabs) :
    Keeps image { k with procCache := cache } { ledger with slabs := slabs } := by
  refine ⟨hkeeps.shared, ⟨fun q hq => ?_, hkeeps.kstacks.marked, hkeeps.kstacks.distinct,
    hkeeps.kstacks.free, hkeeps.kstacks.guard, hkeeps.kstacks.trampoline⟩, hnew,
    ⟨hkeeps.spaces.user, hkeeps.spaces.vacant, hkeeps.spaces.kernel, hkeeps.spaces.ended⟩⟩
  obtain ⟨pid, hpid, hin, hmarked, hhas⟩ := hkeeps.kstacks.body q hq
  exact ⟨pid, hpid, hin, hmarked, hhas.congr rfl rfl rfl⟩

/-- What a call of `kalloc` for a structure returns. -/
structure Fresh (image : Image) (k k' : Kernel) (p : ℕ) (ledger ledger' : Ledger) : Prop where
  keeps : Keeps image k' ledger'
  users : ledger'.users = ledger.users
  transit : ledger'.transit = ledger.transit
  new : p ∉ k.processList
  live : Slab.InUse Slab.procMode k'.procCache.mem ledger'.slabs p
  spares : Spares {.slab} ledger.owner ledger'.owner k.pm.mem k'.pm.mem
  only : ∃ cache pm, k' = { k with procCache := cache, pm := pm }

theorem Structures.allocated {owner : ℕ → Owner Party} {slabs slabs' : List ℕ} {cache : Slab.Cache}
    (hstructures : Structures k owner slabs)
    (halloc : Slab.Allocated Slab.procMode k.procCache cache slabs slabs' p)
    (hpages : ∀ page, page + 24 ∈ slabs' → owner page = .party .slab ∨ owner page = .outside) :
    Structures { k with procCache := cache } owner slabs' :=
  ⟨halloc.ok, hpages, fun q hq => halloc.keeps q (hstructures.live q hq), hstructures.nodup⟩

/-- A free page is no slab page. -/
theorem Keeps.newPage (hkeeps : Keeps image k ledger) :
    ∀ page ∈ k.pm.freelist, page % pgSize = 0 ∧ page + 24 ∉ ledger.slabs := by
  intro page hpage
  have hfree : ledger.owner page = .free := (hkeeps.shared.free page).mp hpage
  have hgood := hkeeps.shared.good page (by rw [hfree]; exact fun h => by cases h)
  refine ⟨hgood.aligned, fun hmem => ?_⟩
  obtain heq | heq := hkeeps.structures.pages page hmem
  · rw [hfree] at heq
    cases heq
  · rw [hfree] at heq
    cases heq

/-- `kalloc` in `PROC_MODE` returns a structure of no process on the list. -/
theorem Keeps.kallocProc (hkeeps : Keeps image k ledger) {bp : Option ℕ}
    (hkalloc : k.kallocProc = .ok (bp, k')) :
    ∃ p ledger', bp = some p ∧ Fresh image k k' p ledger ledger' := by
  have hslab := hkeeps.structures.slab
  rw [Kernel.kallocProc, kallocFrom] at hkalloc
  obtain ⟨p, mem', hfind, halloc⟩ | ⟨hfind, -⟩ := hslab.findMatchSpace Slab.procMode_fits
  · rw [hfind] at hkalloc
    obtain ⟨rfl, rfl⟩ := Prod.mk.inj (Except.ok.inj hkalloc)
    refine ⟨p, { ledger with slabs := ledger.slabs }, rfl, ?_, rfl, rfl, ?_, halloc.taken,
      .refl _ _ _, _, k.pm, rfl⟩
    · exact hkeeps.recache (hkeeps.structures.allocated halloc hkeeps.structures.pages)
    · exact fun hp => halloc.new (hkeeps.structures.live p hp)
  · rw [hfind] at hkalloc
    dsimp only at hkalloc
    cases hlist : k.pm.freelist with
    | nil =>
        rw [kpmalloc, hlist] at hkalloc
        cases hkalloc
    | cons page rest =>
        obtain ⟨haligned, hapart⟩ := hkeeps.newPage page (by rw [hlist]; exact List.mem_cons_self)
        have hnew : Slab.Page.New ⟨page, fun _ => 5⟩ ledger.slabs := ⟨haligned, hapart⟩
        obtain ⟨p, cache, slabs, hkalloc', hslabs, halloc⟩ :=
          Slab.kalloc_spec hslab Slab.procMode_fits hnew
        obtain ⟨htake, howned, -, hspares⟩ := @Keeps.take _ _ _ .slab hkeeps trivial
          (fun p h => by cases h) _ _ hlist
        rw [kpmalloc, hlist] at hkalloc
        dsimp only at hkalloc
        rw [hkalloc'] at hkalloc
        obtain ⟨rfl, rfl⟩ := Prod.mk.inj (Except.ok.inj hkalloc)
        refine ⟨p, _, rfl, htake.recache (htake.structures.allocated halloc fun other hother => ?_),
          rfl, rfl, fun hp => halloc.new (hkeeps.structures.live p hp), halloc.taken, hspares, _, _,
          rfl⟩
        have hold : other + 24 ∈ ledger.slabs ∨ other = page := by
          obtain rfl | rfl := hslabs
          · exact .inl hother
          · obtain heq | hother := List.mem_cons.mp hother
            · exact .inr (Nat.add_right_cancel heq)
            · exact .inl hother
        obtain hold | rfl := hold
        · exact htake.structures.pages other hold
        · exact .inl howned

/-- `kalloc` in `FILE_MODE` may take a page. -/
theorem Keeps.kallocFile (hkeeps : Keeps image k ledger) {bp : Option ℕ}
    (hkalloc : k.kallocFile = .ok (bp, k')) :
    ∃ ledger', Keeps image k' ledger' ∧ ledger'.users = ledger.users ∧
      ledger'.transit = ledger.transit ∧
      Spares {.slab} ledger.owner ledger'.owner k.pm.mem k'.pm.mem ∧
      ∃ cache pm, k' = { k with fileCache := cache, pm := pm } := by
  rw [Kernel.kallocFile, kallocFrom] at hkalloc
  rcases hfind : Slab.findMatchSpace k.fileCache.mem k.fileCache.heapList Slab.fileMode.size with
    ⟨_ | f, mem⟩
  · rw [hfind] at hkalloc
    dsimp only at hkalloc
    cases hlist : k.pm.freelist with
    | nil =>
        rw [kpmalloc, hlist] at hkalloc
        cases hkalloc
    | cons page rest =>
        obtain ⟨htake, -, -, hspares⟩ := @Keeps.take _ _ _ .slab hkeeps trivial
          (fun p h => by cases h) _ _ hlist
        rw [kpmalloc, hlist] at hkalloc
        obtain ⟨-, rfl⟩ := Prod.mk.inj (Except.ok.inj hkalloc)
        refine ⟨_, htake.congr rfl ?_, rfl, rfl, hspares, _, _, rfl⟩
        exact ⟨rfl, rfl, rfl, rfl, fun p _ => SameBody.refl _⟩
  · rw [hfind] at hkalloc
    obtain ⟨-, rfl⟩ := Prod.mk.inj (Except.ok.inj hkalloc)
    refine ⟨ledger, hkeeps.congr rfl ?_, rfl, rfl, .refl _ _ _, _, k.pm, rfl⟩
    exact ⟨rfl, rfl, rfl, rfl, fun p _ => SameBody.refl _⟩

/-- `kfree` of the structure of a process that has left the list. -/
theorem Keeps.kfreeProc (hkeeps : Keeps image k ledger) (hp : p ∉ k.processList)
    (hlive : Slab.InUse Slab.procMode k.procCache.mem ledger.slabs p)
    (hkfree : k.kfreeProc image p = .ok k') :
    Keeps image k' ledger ∧ ∃ cache, k' = { k with procCache := cache } := by
  rw [Kernel.kfreeProc, kfreeTo] at hkfree
  cases hfree : Slab.kfree Slab.procMode image.rounds k.procCache p with
  | none =>
      rw [hfree] at hkfree
      cases hkfree
  | some result =>
      obtain ⟨cache, _ | page⟩ := result
      · rw [hfree] at hkfree
        obtain rfl := Except.ok.inj hkfree
        obtain ⟨hok, hkeep⟩ := Slab.kfree_some hkeeps.structures.slab procMode_sized hlive hfree
        refine ⟨hkeeps.recache ⟨hok, hkeeps.structures.pages, fun q hq => hkeep q ?_
          (hkeeps.structures.live q hq), hkeeps.structures.nodup⟩, cache, rfl⟩
        rintro rfl
        exact hp hq
      · rw [hfree] at hkfree
        cases hkfree

end Objects

end Painting.Process
