import Painting.Sched.Interrupts

/-!
# What a hart holds and what it masks

Every run of the harts keeps three things together: which locks each hart holds, by the two words
of a lock and the points between them; that the count `noff` of a hart is the number of locks it
holds, up to the operation it is in, with interrupts off from the first of them on; and that
`intena`, in the hart or saved by `sched`, is what interrupts were before the first of them.
-/

namespace Painting.Interrupts

open Painting.Transition

/-! ## The invariant -/

/-- A hart outside `push_off` and `pop_off`; `on` is whether interrupts are on when it holds no
lock. -/
structure Settled (mask : Mask) (held : List Lock) (on : Bool) : Prop where
  noff : mask.noff = held.length
  free : held = [] → mask.sie = on
  holding : held ≠ [] → mask.sie = false ∧ mask.intena = on

/-- A hart with interrupts off whose count is `extra` above the locks it holds. -/
structure Masked (mask : Mask) (held : List Lock) (on : Bool) (extra : ℤ) : Prop where
  sie : mask.sie = false
  noff : mask.noff = held.length + extra
  intena : mask.intena = on

/-- The locks that code holds. -/
def CodeOk (stack : Stack) (below : List Pc) (held : List Lock) : Code → Prop
  | .kernel => True
  | .user => held = [] ∧ below = []
  | .start | .top | .released _ | .idle => (∃ h, stack = .scheduler h) ∧ below = [] ∧ held = []
  | .search | .found _ => (∃ h, stack = .scheduler h) ∧ below = [] ∧ held = [.rq]
  | .enter p | .launch p | .back p | .leave p =>
      (∃ h, stack = .scheduler h) ∧ below = [] ∧ held = [.proc p]

/-- The process that a scheduler is in the middle of a switch with. -/
def carried : Pc → Option ℕ
  | .code (.launch p) => some p
  | .code (.back p) => some p
  | _ => none

/-- The code that a lock operation returns to. -/
def ReturnOk (stack : Stack) (below : List Pc) (held : List Lock) (k : Code) : Prop :=
  CodeOk stack below held k ∧ carried (.code k) = none

def PanicOk (stack : Stack) (held : List Lock) (on : Bool) (mask : Mask) : Panic → Prop
  | .acquire lk => Masked mask held on 1 ∧ lk ∈ held
  | .release lk => Settled mask held on ∧ lk ∉ held
  | .popOffInterruptible => False
  | .popOff => False
  | .schedLock p => Settled mask held on ∧ stack = .process p ∧ .proc p ∉ held
  | .schedLocks p => Settled mask held on ∧ stack = .process p ∧ .proc p ∈ held ∧ held ≠ [.proc p]
  | .schedInterruptible => False

/-- What holds when hart `h` is to execute the given point. -/
def PcOk (h : ℕ) (stack : Stack) (below : List Pc) (held : List Lock) (on : Bool) (mask : Mask) :
    Pc → Prop
  | .code k => Settled mask held on ∧ CodeOk stack below held k
  | .pushGet lk k => Settled mask held on ∧ ReturnOk stack below (lk :: held) k
  | .pushIntrOff lk old k =>
      Settled mask held on ∧ old = mask.sie ∧ ReturnOk stack below (lk :: held) k
  | .pushSave lk old k =>
      (mask.sie = false ∧ mask.noff = held.length ∧ (held = [] → old = on) ∧
        (held ≠ [] → mask.intena = on)) ∧ ReturnOk stack below (lk :: held) k
  | .pushNest lk k => Masked mask held on 0 ∧ ReturnOk stack below (lk :: held) k
  | .acquireOwner lk k => Masked mask held on 1 ∧ ReturnOk stack below (lk :: held) k
  | .acquireLocked lk k =>
      Masked mask held on 1 ∧ lk ∈ held ∧ ReturnOk stack below (lk :: held) k
  | .acquireSwap lk k => Masked mask held on 1 ∧ ReturnOk stack below (lk :: held) k
  | .acquireSet lk k => Masked mask held on 0 ∧ lk ∈ held ∧ ReturnOk stack below held k
  | .releaseOwner lk k => Settled mask held on ∧ ReturnOk stack below (held.erase lk) k
  | .releaseLocked lk k | .releaseClear lk k | .releaseUnlock lk k =>
      Settled mask held on ∧ lk ∈ held ∧ ReturnOk stack below (held.erase lk) k
  | .popTest k | .popCheck k | .popDec k => Masked mask held on 1 ∧ ReturnOk stack below held k
  | .popOn k => Masked mask held on 0 ∧ ReturnOk stack below held k
  | .schedOwner p => Settled mask held on ∧ stack = .process p
  | .schedLocked p | .schedNoff p => Settled mask held on ∧ stack = .process p ∧ .proc p ∈ held
  | .schedIntr p | .schedSwtch p => Settled mask held on ∧ stack = .process p ∧ held = [.proc p]
  | .schedBack intena =>
      (mask.sie = false ∧ mask.noff = 1 ∧ intena = on) ∧ ∃ p, stack = .process p ∧ held = [.proc p]
  | .curRead hart => Settled mask held on ∧ (mask.sie = false → hart = h)
  | .panicked reason => PanicOk stack held on mask reason

/-- A point at which a hart without locks may be interrupted. -/
def Interruptible (stack : Stack) (pc : Pc) : Prop :=
  ∀ h intena, PcOk h stack [] [] true ⟨true, 0, intena⟩ pc ∧ carried pc = none ∧ pc ≠ .code .user

/-- Handlers do not nest, and run above code that has interrupts on. -/
def BelowOk (flag : Stack → Bool) (regs : Regs) : Prop :=
  regs.below = [] ∨
    ∃ pc, regs.below = [pc] ∧ flag regs.stack = true ∧ Interruptible regs.stack pc

/-- Whether interrupts are on in the running code when it holds no lock. -/
def flagOf (flag : Stack → Bool) (regs : Regs) : Bool := regs.below.isEmpty && flag regs.stack

/-- The lock whose two words disagree at a point. -/
def transit : Pc → Option Lock
  | .acquireSet lk _ => some lk
  | .releaseUnlock lk _ => some lk
  | _ => none

/-- The words of the locks and what the harts hold. -/
structure LocksOk (s : State) (held : ℕ → List Lock) : Prop where
  locked : ∀ lk, s.locked lk = true ↔ ∃ h, lk ∈ held h
  apart : ∀ lk h h', lk ∈ held h → lk ∈ held h' → h = h'
  nodup : ∀ h, (held h).Nodup
  owner : ∀ lk h, s.owner lk = some h ↔ lk ∈ held h ∧ transit (s.cpu h).regs.pc ≠ some lk

structure HartOk (h : ℕ) (cpu : Cpu) (held : List Lock) (flag : Stack → Bool) : Prop where
  pc : PcOk h cpu.regs.stack cpu.regs.below held (flagOf flag cpu.regs) cpu.mask cpu.regs.pc
  below : BelowOk flag cpu.regs
  proc : cpu.proc =
    match cpu.regs.stack with
    | .process p => some p
    | .scheduler _ => carried cpu.regs.pc

/-- The saved registers of a process: it goes on in `sched`, or starts in `forkret`. -/
structure SavedOk (p : ℕ) (regs : Regs) (flag : Stack → Bool) : Prop where
  stack : regs.stack = .process p
  below : BelowOk flag regs
  pc : regs.pc = .schedBack (flagOf flag regs) ∨
    (regs.pc = .releaseOwner (.proc p) .kernel ∧ regs.below = [])

structure Inv (s : State) (held : ℕ → List Lock) (flag : Stack → Bool) : Prop where
  locks : LocksOk s held
  hart : ∀ h, HartOk h (s.cpu h) (held h) flag
  stack : ∀ h h', (s.cpu h).regs.stack = (s.cpu h').regs.stack → h = h'
  place : ∀ h, ((s.cpu h).regs.stack = .scheduler h ∧ s.context (.scheduler h) = none) ∨
    ∃ p, (s.cpu h).regs.stack = .process p ∧ s.context (.process p) = none ∧
      s.context (.scheduler h) = some ⟨.scheduler h, .code (.back p), []⟩
  saved : ∀ p regs, s.context (.process p) = some regs → SavedOk p regs flag

section Points

variable {h : ℕ} {stack : Stack} {below : List Pc} {held : List Lock} {on : Bool} {mask : Mask}
variable {pc : Pc} {lk : Lock}

theorem Settled.sie_true (hsettled : Settled mask held on) (hsie : mask.sie = true) :
    held = [] ∧ on = true ∧ mask.noff = 0 := by
  have hheld : held = [] := by
    by_contra hne
    rw [(hsettled.holding hne).1] at hsie
    cases hsie
  refine ⟨hheld, ?_, ?_⟩
  · rw [← hsettled.free hheld, hsie]
  · rw [hsettled.noff, hheld]
    rfl

theorem settled_idle (intena : Bool) : Settled ⟨true, 0, intena⟩ [] true :=
  ⟨rfl, fun _ => rfl, fun hne => absurd rfl hne⟩

theorem Settled.masked (hsettled : Settled mask held on) (hheld : held ≠ []) :
    Masked mask held on 0 :=
  ⟨(hsettled.holding hheld).1, by rw [hsettled.noff, add_zero], (hsettled.holding hheld).2⟩

theorem Masked.settled (hmasked : Masked mask held on 0) (hheld : held ≠ []) :
    Settled mask held on :=
  ⟨by rw [hmasked.noff, add_zero], fun hnil => absurd hnil hheld,
    fun _ => ⟨hmasked.sie, hmasked.intena⟩⟩

/-- Code that has interrupts on holds no lock, and may be interrupted where it is. -/
theorem PcOk.interruptible (hpc : PcOk h stack below held on mask pc) (hsie : mask.sie = true)
    (hbelow : on = true → below = []) (hcarried : carried pc = none) (huser : pc ≠ .code .user) :
    (held = [] ∧ on = true ∧ mask.noff = 0) ∧ Interruptible stack pc := by
  -- the points that are reached only with interrupts off go first
  cases pc <;> simp only [PcOk] at hpc
  case pushSave => simp [hpc.1.1] at hsie
  case schedBack => simp [hpc.1.1] at hsie
  case pushNest | acquireOwner | acquireLocked | acquireSwap | acquireSet | popTest | popCheck |
      popDec | popOn =>
      simp [hpc.1.sie] at hsie
  case releaseLocked | releaseClear | releaseUnlock | schedLocked | schedNoff | schedIntr |
      schedSwtch =>
      obtain ⟨rfl, -, -⟩ := hpc.1.sie_true hsie
      simp at hpc
  case code | pushGet | releaseOwner | schedOwner =>
      obtain ⟨rfl, rfl, hnoff⟩ := hpc.1.sie_true hsie
      obtain rfl := hbelow rfl
      exact ⟨⟨rfl, rfl, hnoff⟩, fun h intena => ⟨⟨settled_idle intena, hpc.2⟩, hcarried, huser⟩⟩
  case pushIntrOff =>
      obtain ⟨rfl, rfl, hnoff⟩ := hpc.1.sie_true hsie
      obtain rfl := hbelow rfl
      exact ⟨⟨rfl, rfl, hnoff⟩, fun h intena =>
        ⟨⟨settled_idle intena, hpc.2.1.trans hsie, hpc.2.2⟩, hcarried, huser⟩⟩
  case curRead =>
      obtain ⟨rfl, rfl, hnoff⟩ := hpc.1.sie_true hsie
      obtain rfl := hbelow rfl
      exact ⟨⟨rfl, rfl, hnoff⟩, fun h intena => ⟨⟨settled_idle intena, nofun⟩, hcarried, huser⟩⟩
  case panicked reason =>
      cases reason <;> simp only [PanicOk] at hpc
      case acquire => simp [hpc.1.sie] at hsie
      case schedLocks =>
          obtain ⟨rfl, -, -⟩ := hpc.1.sie_true hsie
          simp at hpc
      case release | schedLock =>
          obtain ⟨rfl, rfl, hnoff⟩ := hpc.1.sie_true hsie
          obtain rfl := hbelow rfl
          exact ⟨⟨rfl, rfl, hnoff⟩, fun h intena => ⟨⟨settled_idle intena, hpc.2⟩, hcarried, huser⟩⟩

theorem flagOf_eq {flag flag' : Stack → Bool} {regs regs' : Regs}
    (hstack : regs'.stack = regs.stack) (hbelow : regs'.below = regs.below)
    (hflag : flag' regs.stack = flag regs.stack) : flagOf flag' regs' = flagOf flag regs := by
  rw [flagOf, flagOf, hstack, hbelow, hflag]

theorem below_of_flagOf {flag : Stack → Bool} {regs : Regs} (hon : flagOf flag regs = true) :
    regs.below = [] ∧ flag regs.stack = true := by
  rw [flagOf, Bool.and_eq_true, List.isEmpty_iff] at hon
  exact hon

theorem BelowOk.congr {flag flag' : Stack → Bool} {regs regs' : Regs} (hbelow : BelowOk flag regs)
    (hstack : regs'.stack = regs.stack) (hsame : regs'.below = regs.below)
    (hflag : flag' regs.stack = flag regs.stack) : BelowOk flag' regs' := by
  rw [BelowOk, hstack, hsame, hflag]
  exact hbelow

theorem HartOk.congr {flag flag' : Stack → Bool} {cpu : Cpu} (hhart : HartOk h cpu held flag)
    (hflag : flag' cpu.regs.stack = flag cpu.regs.stack) : HartOk h cpu held flag' := by
  refine ⟨?_, hhart.below.congr rfl rfl hflag, hhart.proc⟩
  rw [flagOf_eq rfl rfl hflag]
  exact hhart.pc

theorem SavedOk.congr {flag flag' : Stack → Bool} {p : ℕ} {regs : Regs}
    (hsaved : SavedOk p regs flag) (hflag : flag' (.process p) = flag (.process p)) :
    SavedOk p regs flag' := by
  rw [← hsaved.stack] at hflag
  refine ⟨hsaved.stack, hsaved.below.congr rfl rfl hflag, ?_⟩
  rw [flagOf_eq rfl rfl hflag]
  exact hsaved.pc

end Points

section Steps

variable {s s' : State} {held : ℕ → List Lock} {flag flag' : Stack → Bool} {h : ℕ} {cpu : Cpu}
variable {lk : Lock} {k : Code}

@[simp]
theorem setCpu_self (s : State) (h : ℕ) (cpu : Cpu) : (s.setCpu h cpu).cpu h = cpu :=
  Function.update_self _ _ _

theorem setCpu_of_ne (s : State) {h j : ℕ} (cpu : Cpu) (hne : j ≠ h) :
    (s.setCpu h cpu).cpu j = s.cpu j :=
  Function.update_of_ne hne _ _

theorem setCpu_setCpu (s : State) (h : ℕ) (cpu cpu' : Cpu) :
    (s.setCpu h cpu).setCpu h cpu' = s.setCpu h cpu' := by
  rw [State.setCpu, State.setCpu, State.setCpu, Function.update_idem]

theorem setMask_goto (s : State) (h : ℕ) (mask : Mask) (pc : Pc) :
    (s.setMask h mask).goto h pc =
      s.setCpu h { s.cpu h with mask := mask, regs := { (s.cpu h).regs with pc := pc } } := by
  rw [State.goto, State.setMask, setCpu_setCpu]
  simp [State.setCpu]

theorem setProc_goto (s : State) (h : ℕ) (proc : Option ℕ) (pc : Pc) :
    (s.setProc h proc).goto h pc =
      s.setCpu h { s.cpu h with proc := proc, regs := { (s.cpu h).regs with pc := pc } } := by
  rw [State.goto, State.setProc, setCpu_setCpu]
  simp [State.setCpu]

/-- The saved registers are not those of a running stack. -/
theorem Inv.not_saved (hinv : Inv s held flag) {p : ℕ}
    (hstack : (s.cpu h).regs.stack = .process p) : s.context (.process p) = none := by
  obtain ⟨hscheduler, -⟩ | ⟨q, hprocess, hnone, -⟩ := hinv.place h
  · rw [hscheduler] at hstack
    cases hstack
  · rw [hprocess] at hstack
    cases hstack
    exact hnone

/-- A step that stays on its stack. -/
theorem Inv.update (hinv : Inv s held flag) (locks : List Lock)
    (hcpu : s'.cpu = Function.update s.cpu h cpu) (hcontext : s'.context = s.context)
    (hstack : cpu.regs.stack = (s.cpu h).regs.stack)
    (hflag : ∀ stack, stack ≠ (s.cpu h).regs.stack → flag' stack = flag stack)
    (hlocks : LocksOk s' (Function.update held h locks)) (hhart : HartOk h cpu locks flag') :
    Inv s' (Function.update held h locks) flag' := by
  have hstacks : ∀ j, (s'.cpu j).regs.stack = (s.cpu j).regs.stack := by
    intro j
    rw [hcpu]
    by_cases hj : j = h
    · rw [hj, Function.update_self, hstack]
    · rw [Function.update_of_ne hj]
  refine ⟨hlocks, fun j => ?_, fun i j hij => ?_, fun j => ?_, fun p regs hregs => ?_⟩
  · by_cases hj : j = h
    · rw [hj, hcpu, Function.update_self, Function.update_self]
      exact hhart
    · rw [hcpu, Function.update_of_ne hj, Function.update_of_ne hj]
      exact (hinv.hart j).congr (hflag _ fun heq => hj (hinv.stack j h heq))
  · rw [hstacks, hstacks] at hij
    exact hinv.stack i j hij
  · rw [hstacks, hcontext]
    exact hinv.place j
  · rw [hcontext] at hregs
    refine (hinv.saved p regs hregs).congr (hflag _ fun heq => ?_)
    rw [hinv.not_saved heq.symm] at hregs
    cases hregs

/-- The words of the locks stay as they are. -/
theorem LocksOk.same (hlocks : LocksOk s held) (hlocked : s'.locked = s.locked)
    (howner : s'.owner = s.owner)
    (htransit : ∀ j, transit (s'.cpu j).regs.pc = transit (s.cpu j).regs.pc) :
    LocksOk s' held :=
  ⟨fun lk => hlocked ▸ hlocks.locked lk, hlocks.apart, hlocks.nodup,
    fun lk j => by rw [howner, htransit]; exact hlocks.owner lk j⟩

/-- A step of hart `h` outside the words of a lock. -/
theorem Inv.advance (hinv : Inv s held flag) (cpu : Cpu)
    (hstack : cpu.regs.stack = (s.cpu h).regs.stack)
    (hflag : ∀ stack, stack ≠ (s.cpu h).regs.stack → flag' stack = flag stack)
    (htransit : transit cpu.regs.pc = transit (s.cpu h).regs.pc)
    (hhart : HartOk h cpu (held h) flag') : Inv (s.setCpu h cpu) held flag' := by
  have hlocks : LocksOk (s.setCpu h cpu) held := by
    refine hinv.locks.same rfl rfl fun j => ?_
    by_cases hj : j = h
    · rw [hj, setCpu_self, htransit]
    · rw [setCpu_of_ne _ _ hj]
  rw [← Function.update_eq_self h held] at hlocks ⊢
  exact hinv.update (held h) rfl rfl hstack hflag hlocks hhart

/-- A step of hart `h` to another point of the same code. -/
theorem Inv.goto (hinv : Inv s held flag) {mask : Mask} {pc : Pc}
    (htransit : transit pc = transit (s.cpu h).regs.pc)
    (hcarried : carried pc = carried (s.cpu h).regs.pc)
    (hpc : PcOk h (s.cpu h).regs.stack (s.cpu h).regs.below (held h)
      (flagOf flag (s.cpu h).regs) mask pc) :
    Inv (s.setCpu h { s.cpu h with mask := mask, regs := { (s.cpu h).regs with pc := pc } })
      held flag := by
  refine hinv.advance ⟨mask, (s.cpu h).proc, ⟨(s.cpu h).regs.stack, pc, (s.cpu h).regs.below⟩⟩ rfl
    (fun _ _ => rfl) htransit ⟨hpc, (hinv.hart h).below, ?_⟩
  rw [(hinv.hart h).proc]
  cases (s.cpu h).regs.stack with
  | process p => rfl
  | scheduler i => exact hcarried.symm

/-! ## The words of a lock -/

theorem LocksOk.take (hlocks : LocksOk s held) (cpu : Cpu) (hfree : s.locked lk = false)
    (htransit : transit (s.cpu h).regs.pc = none) (hpc : transit cpu.regs.pc = some lk) :
    LocksOk ({ s with locked := Function.update s.locked lk true }.setCpu h cpu)
      (Function.update held h (lk :: held h)) := by
  have hnone : ∀ j, lk ∉ held j := by
    intro j hmem
    rw [(hlocks.locked lk).mpr ⟨j, hmem⟩] at hfree
    cases hfree
  obtain ⟨hlocked, hapart, hnodup, howner⟩ := hlocks
  refine ⟨fun lk' => ?_, fun lk' i j => ?_, fun j => ?_, fun lk' j => ?_⟩
  · change Function.update s.locked lk true lk' = true ↔ _
    by_cases hlk : lk' = lk
    · subst hlk
      rw [Function.update_self]
      exact iff_of_true rfl ⟨h, by rw [Function.update_self]; exact List.mem_cons_self⟩
    · rw [Function.update_of_ne hlk, hlocked]
      refine exists_congr fun j => ?_
      grind [Function.update_apply]
  · grind [Function.update_apply]
  · grind [Function.update_apply]
  · change s.owner lk' = some j ↔ _
    by_cases hj : j = h
    · subst hj
      rw [setCpu_self]
      grind [Function.update_apply]
    · rw [setCpu_of_ne _ _ hj]
      grind [Function.update_apply]

theorem LocksOk.sign (hlocks : LocksOk s held) (cpu : Cpu) (hmem : lk ∈ held h)
    (htransit : transit (s.cpu h).regs.pc = some lk) (hpc : transit cpu.regs.pc = none) :
    LocksOk ({ s with owner := Function.update s.owner lk (some h) }.setCpu h cpu) held := by
  obtain ⟨hlocked, hapart, hnodup, howner⟩ := hlocks
  refine ⟨hlocked, hapart, hnodup, fun lk' j => ?_⟩
  change Function.update s.owner lk (some h) lk' = some j ↔ _
  by_cases hj : j = h
  · subst hj
    rw [setCpu_self]
    grind [Function.update_apply]
  · rw [setCpu_of_ne _ _ hj]
    grind [Function.update_apply]

theorem LocksOk.clear (hlocks : LocksOk s held) (cpu : Cpu) (hmem : lk ∈ held h)
    (htransit : transit (s.cpu h).regs.pc = none) (hpc : transit cpu.regs.pc = some lk) :
    LocksOk ({ s with owner := Function.update s.owner lk none }.setCpu h cpu) held := by
  obtain ⟨hlocked, hapart, hnodup, howner⟩ := hlocks
  refine ⟨hlocked, hapart, hnodup, fun lk' j => ?_⟩
  change Function.update s.owner lk none lk' = some j ↔ _
  by_cases hj : j = h
  · subst hj
    rw [setCpu_self]
    grind [Function.update_apply]
  · rw [setCpu_of_ne _ _ hj]
    grind [Function.update_apply]

theorem LocksOk.drop (hlocks : LocksOk s held) (cpu : Cpu) (hmem : lk ∈ held h)
    (htransit : transit (s.cpu h).regs.pc = some lk) (hpc : transit cpu.regs.pc = none) :
    LocksOk ({ s with locked := Function.update s.locked lk false }.setCpu h cpu)
      (Function.update held h ((held h).erase lk)) := by
  obtain ⟨hlocked, hapart, hnodup, howner⟩ := hlocks
  refine ⟨fun lk' => ?_, fun lk' i j => ?_, fun j => ?_, fun lk' j => ?_⟩
  · change Function.update s.locked lk false lk' = true ↔ _
    by_cases hlk : lk' = lk
    · subst hlk
      rw [Function.update_self]
      refine iff_of_false nofun ?_
      rintro ⟨j, hj⟩
      grind [Function.update_apply]
    · rw [Function.update_of_ne hlk, hlocked]
      refine exists_congr fun j => ?_
      grind [Function.update_apply]
  · grind [Function.update_apply]
  · grind [Function.update_apply]
  · change s.owner lk' = some j ↔ _
    by_cases hj : j = h
    · subst hj
      rw [setCpu_self]
      grind [Function.update_apply]
    · rw [setCpu_of_ne _ _ hj]
      grind [Function.update_apply]

/-! ## Switches -/

theorem Inv.stack_ne (hinv : Inv s held flag) {new : Stack} {regs : Regs}
    (hregs : s.context new = some regs) (j : ℕ) : (s.cpu j).regs.stack ≠ new := by
  rintro rfl
  obtain ⟨hstack, hnone⟩ | ⟨p, hstack, hnone, -⟩ := hinv.place j
  · rw [hstack, hnone] at hregs
    cases hregs
  · rw [hstack, hnone] at hregs
    cases hregs

theorem Inv.scheduler_eq (hinv : Inv s held flag) {j i : ℕ}
    (hstack : (s.cpu j).regs.stack = .scheduler i) : i = j := by
  obtain ⟨hscheduler, -⟩ | ⟨p, hprocess, -⟩ := hinv.place j
  · rw [hscheduler] at hstack
    cases hstack
    rfl
  · rw [hprocess] at hstack
    cases hstack

/-- `swtch` from one stack of hart `h` to another. -/
theorem Inv.swtch (hinv : Inv s held flag) {old new : Stack} {back : Pc} {regs : Regs}
    (hold : (s.cpu h).regs.stack = old) (hregs : s.context new = some regs)
    (hnew : regs.stack = new) (hscheduler : ∀ i, new = .scheduler i → i = h)
    (hflag : ∀ stack, stack ≠ new → flag' stack = flag stack)
    (htransit : transit (s.cpu h).regs.pc = none) (htransit' : transit regs.pc = none)
    (hhart : HartOk h { s.cpu h with regs := regs } (held h) flag')
    (hplace : new = .scheduler h ∨ ∃ p, new = .process p ∧ old = .scheduler h ∧
      { (s.cpu h).regs with pc := back } = ⟨.scheduler h, .code (.back p), []⟩)
    (hsaved : ∀ p, old = .process p → SavedOk p { (s.cpu h).regs with pc := back } flag') :
    Inv { s.setCpu h { s.cpu h with regs := regs } with
        context := Function.update (Function.update s.context new none) old
          (some { (s.cpu h).regs with pc := back }) } held flag' := by
  have hne : new ≠ old := fun heq => hinv.stack_ne hregs h (hold.trans heq.symm)
  have hother : ∀ j, j ≠ h → (s.cpu j).regs.stack ≠ old :=
    fun j hj heq => hj (hinv.stack j h (heq.trans hold.symm))
  have hcontext : ∀ stack, stack ≠ old → stack ≠ new →
      Function.update (Function.update s.context new none) old
        (some { (s.cpu h).regs with pc := back }) stack = s.context stack := by
    intro stack hstack hstack'
    rw [Function.update_of_ne hstack, Function.update_of_ne hstack']
  have hstacks : ∀ j, j ≠ h → ((s.setCpu h { s.cpu h with regs := regs }).cpu j) = s.cpu j :=
    fun j hj => setCpu_of_ne _ _ hj
  refine ⟨hinv.locks.same rfl rfl fun j => ?_, fun j => ?_, fun i j hij => ?_, fun j => ?_,
    fun p saved hp => ?_⟩
  · change transit ((s.setCpu h { s.cpu h with regs := regs }).cpu j).regs.pc = _
    by_cases hj : j = h
    · rw [hj, setCpu_self, htransit, htransit']
    · rw [hstacks j hj]
  · change HartOk j ((s.setCpu h { s.cpu h with regs := regs }).cpu j) (held j) flag'
    by_cases hj : j = h
    · rw [hj, setCpu_self]
      exact hhart
    · rw [hstacks j hj]
      exact (hinv.hart j).congr (hflag _ (hinv.stack_ne hregs j))
  · change ((s.setCpu h { s.cpu h with regs := regs }).cpu i).regs.stack =
      ((s.setCpu h { s.cpu h with regs := regs }).cpu j).regs.stack at hij
    by_cases hi : i = h
    · by_cases hj : j = h
      · rw [hi, hj]
      · rw [hi, setCpu_self, hstacks j hj, hnew] at hij
        exact absurd hij.symm (hinv.stack_ne hregs j)
    · by_cases hj : j = h
      · rw [hj, setCpu_self, hstacks i hi, hnew] at hij
        exact absurd hij (hinv.stack_ne hregs i)
      · rw [hstacks i hi, hstacks j hj] at hij
        exact hinv.stack i j hij
  · change (((s.setCpu h { s.cpu h with regs := regs }).cpu j).regs.stack = _ ∧
      Function.update (Function.update s.context new none) old _ _ = _) ∨
      ∃ p, ((s.setCpu h { s.cpu h with regs := regs }).cpu j).regs.stack = _ ∧
        Function.update (Function.update s.context new none) old _ _ = _ ∧
        Function.update (Function.update s.context new none) old _ _ = _
    by_cases hj : j = h
    · rw [hj, setCpu_self]
      obtain rfl | ⟨p, rfl, rfl, hback⟩ := hplace
      · exact .inl ⟨hnew, by rw [Function.update_of_ne hne, Function.update_self]⟩
      · refine .inr ⟨p, hnew, ?_, ?_⟩
        · rw [Function.update_of_ne hne, Function.update_self]
        · rw [Function.update_self, hback]
    · have hscheduler' : Stack.scheduler j ≠ new := fun heq => hj (hscheduler j heq.symm)
      have hscheduler_old : Stack.scheduler j ≠ old :=
        fun heq => hj (hinv.scheduler_eq (hold.trans heq.symm))
      rw [hstacks j hj, hcontext _ hscheduler_old hscheduler']
      obtain ⟨hstack, hnone⟩ | ⟨p, hstack, hnone, hsome⟩ := hinv.place j
      · exact .inl ⟨hstack, hnone⟩
      · refine .inr ⟨p, hstack, ?_, hsome⟩
        rw [hcontext _ (hstack ▸ hother j hj) (hstack ▸ hinv.stack_ne hregs j)]
        exact hnone
  · change Function.update (Function.update s.context new none) old _ _ = _ at hp
    by_cases hpold : Stack.process p = old
    · rw [hpold, Function.update_self] at hp
      cases hp
      exact hsaved p hpold.symm
    · by_cases hpnew : Stack.process p = new
      · rw [hpnew, Function.update_of_ne hne, Function.update_self] at hp
        cases hp
      · rw [hcontext _ hpold hpnew] at hp
        exact (hinv.saved p saved hp).congr (hflag _ hpnew)

/-! ## The steps of the code -/

/-- The process has run before. -/
def Started (context : Stack → Option Regs) (p : ℕ) : Prop :=
  ∀ regs, context (.process p) = some regs → regs.pc ≠ .releaseOwner (.proc p) .kernel

theorem Started.swtch {context : Stack → Option Regs} {p : ℕ} {old new : Stack} {regs : Regs}
    (hstarted : Started context p)
    (hregs : old = .process p → regs.pc ≠ .releaseOwner (.proc p) .kernel) :
    Started (Function.update (Function.update context new none) old (some regs)) p := by
  intro regs' hregs'
  by_cases hold : Stack.process p = old
  · rw [hold, Function.update_self] at hregs'
    cases hregs'
    exact hregs hold.symm
  · rw [Function.update_of_ne hold] at hregs'
    by_cases hnew : Stack.process p = new
    · rw [hnew, Function.update_self] at hregs'
      cases hregs'
    · rw [Function.update_of_ne hnew] at hregs'
      exact hstarted regs' hregs'

/-- The invariant holds of `s'`, and the flag of a process that has run before is as it was. -/
def Kept (s : State) (flag : Stack → Bool) (s' : State) : Prop :=
  ∃ held' flag', Inv s' held' flag' ∧
    ∀ p, Started s.context p → Started s'.context p ∧ flag' (.process p) = flag (.process p)

theorem Inv.kept {held' : ℕ → List Lock} (hinv : Inv s' held' flag')
    (hcontext : s'.context = s.context)
    (hflag : ∀ p, flag' (.process p) = flag (.process p)) : Kept s flag s' :=
  ⟨held', flag', hinv, fun p hstarted =>
    ⟨fun regs hregs => hstarted regs (hcontext ▸ hregs), hflag p⟩⟩

theorem Inv.kept_goto (hinv : Inv s held flag) {mask : Mask} {pc : Pc}
    (htransit : transit pc = transit (s.cpu h).regs.pc)
    (hcarried : carried pc = carried (s.cpu h).regs.pc)
    (hpc : PcOk h (s.cpu h).regs.stack (s.cpu h).regs.below (held h)
      (flagOf flag (s.cpu h).regs) mask pc) :
    Kept s flag
      (s.setCpu h { s.cpu h with mask := mask, regs := { (s.cpu h).regs with pc := pc } }) :=
  (hinv.goto htransit hcarried hpc).kept rfl fun _ => rfl

/-- Code that holds no lock turns interrupts on or off. -/
theorem Inv.tune (hinv : Inv s held flag) (on : Bool) {mask : Mask} {pc : Pc}
    (hbelow : (s.cpu h).regs.below = [])
    (htransit : transit pc = transit (s.cpu h).regs.pc)
    (hcarried : carried pc = carried (s.cpu h).regs.pc)
    (hpc : PcOk h (s.cpu h).regs.stack [] (held h) on mask pc) :
    Inv (s.setCpu h { s.cpu h with mask := mask, regs := { (s.cpu h).regs with pc := pc } }) held
      (Function.update flag (s.cpu h).regs.stack on) := by
  refine hinv.advance ⟨mask, (s.cpu h).proc, ⟨(s.cpu h).regs.stack, pc, (s.cpu h).regs.below⟩⟩ rfl
    (fun stack hne => Function.update_of_ne hne _ _) htransit ⟨?_, .inl hbelow, ?_⟩
  · simp only [flagOf, hbelow, Function.update_self, List.isEmpty_nil, Bool.true_and]
    exact hpc
  · rw [(hinv.hart h).proc]
    cases (s.cpu h).regs.stack with
    | process p => rfl
    | scheduler i => exact hcarried.symm

/-- The registers that `schedule` saves. -/
theorem back_eq {p : ℕ} (hstack : (s.cpu h).regs.stack = .scheduler h)
    (hbelow : (s.cpu h).regs.below = []) :
    { (s.cpu h).regs with pc := .code (.back p) } = (⟨.scheduler h, .code (.back p), []⟩ : Regs) := by
  change Regs.mk (s.cpu h).regs.stack _ (s.cpu h).regs.below = _
  rw [hstack, hbelow]

/-- `schedule` switches to a process.  The first time it runs, the process takes the flag of the
scheduler, in which its lock was acquired. -/
theorem launch_kept (hinv : Inv s held flag) {p : ℕ} {regs : Regs}
    (hpc : (s.cpu h).regs.pc = .code (.launch p)) (hstack : (s.cpu h).regs.stack = .scheduler h)
    (hbelow : (s.cpu h).regs.below = []) (hheld : held h = [.proc p])
    (hregs : s.context (.process p) = some regs) :
    Kept s flag { s.setCpu h { s.cpu h with regs := regs } with
      context := Function.update (Function.update s.context (.process p) none) (.scheduler h)
        (some { (s.cpu h).regs with pc := .code (.back p) }) } := by
  have hhart := (hinv.hart h).pc
  have hproc := (hinv.hart h).proc
  simp only [hpc, PcOk, hstack, carried] at hhart hproc
  obtain ⟨hsie, hintena⟩ := hhart.1.holding (by rw [hheld]; exact List.cons_ne_nil _ _)
  have hnoff : (s.cpu h).mask.noff = 1 := by rw [hhart.1.noff, hheld]; rfl
  obtain ⟨hsaved, hsavedBelow, hsavedPc⟩ := hinv.saved p regs hregs
  have hswitch : ∀ flag', (∀ stack, stack ≠ .process p → flag' stack = flag stack) →
      transit regs.pc = none → HartOk h { s.cpu h with regs := regs } (held h) flag' →
      Inv { s.setCpu h { s.cpu h with regs := regs } with
        context := Function.update (Function.update s.context (.process p) none) (.scheduler h)
          (some { (s.cpu h).regs with pc := .code (.back p) }) } held flag' :=
    fun flag' hflag htransit hhart' =>
      hinv.swtch hstack hregs hsaved nofun hflag (by rw [hpc]; rfl) htransit hhart'
        (.inr ⟨p, rfl, rfl, back_eq hstack hbelow⟩) nofun
  obtain hback | ⟨hfresh, hnone⟩ := hsavedPc
  · refine ⟨held, flag, hswitch flag (fun _ _ => rfl) (by rw [hback]; rfl)
      ⟨?_, hsavedBelow, by rw [hproc, hsaved]⟩, fun q hq => ⟨hq.swtch nofun, rfl⟩⟩
    change PcOk h regs.stack regs.below (held h) _ (s.cpu h).mask regs.pc
    rw [hback]
    exact ⟨⟨hsie, hnoff, rfl⟩, p, hsaved, hheld⟩
  · refine ⟨held, Function.update flag (.process p) (flagOf flag (s.cpu h).regs),
      hswitch _ (fun stack hne => Function.update_of_ne hne _ _) (by rw [hfresh]; rfl)
        ⟨?_, .inl hnone, by rw [hproc, hsaved]⟩, fun q hq => ⟨hq.swtch nofun, ?_⟩⟩
    · change PcOk h regs.stack regs.below (held h) _ (s.cpu h).mask regs.pc
      simp only [hfresh, flagOf, hnone, hsaved, Function.update_self, List.isEmpty_nil,
        Bool.true_and]
      exact ⟨hhart.1, trivial, rfl⟩
    · refine Function.update_of_ne ?_ _ _
      rintro heq
      cases heq
      exact hq regs hregs hfresh

/-- The code of `schedule`. -/
theorem execute_schedule (hinv : Inv s held flag) (hpc : (s.cpu h).regs.pc = .code k)
    (hexecute : execute s h = some s') : Kept s flag s' := by
  have hhart := (hinv.hart h).pc
  have hproc := (hinv.hart h).proc
  simp only [hpc, PcOk] at hhart hproc
  obtain ⟨hsettled, hcode⟩ := hhart
  cases k with
  | kernel => simp [execute, hpc] at hexecute
  | user => simp [execute, hpc] at hexecute
  | search => simp [execute, hpc] at hexecute
  | start | idle =>
      obtain ⟨⟨i, hstack⟩, hbelow, hheld⟩ := hcode
      simp only [execute, hpc, setMask_goto, Option.some.injEq] at hexecute
      subst hexecute
      refine (hinv.tune true hbelow (by rw [hpc]; rfl) (by rw [hpc]; rfl) ?_).kept rfl
        fun p => Function.update_of_ne (by simp [hstack]) _ _
      exact ⟨⟨hsettled.noff, fun _ => rfl, fun hne => absurd hheld hne⟩,
        ⟨i, hstack⟩, rfl, hheld⟩
  | top =>
      obtain ⟨hscheduler, hbelow, hheld⟩ := hcode
      simp only [execute, hpc, Option.some.injEq] at hexecute
      subst hexecute
      exact hinv.kept_goto (by rw [hpc]; rfl) (by rw [hpc]; rfl)
        ⟨hsettled, ⟨hscheduler, hbelow, by rw [hheld]⟩, rfl⟩
  | found next =>
      obtain ⟨hscheduler, hbelow, hheld⟩ := hcode
      simp only [execute, hpc, Option.some.injEq] at hexecute
      subst hexecute
      exact hinv.kept_goto (by rw [hpc]; rfl) (by rw [hpc]; rfl)
        ⟨hsettled, ⟨hscheduler, hbelow, by rw [hheld]; rfl⟩, rfl⟩
  | released next =>
      obtain ⟨hscheduler, hbelow, hheld⟩ := hcode
      cases next with
      | none =>
          simp only [execute, hpc, Option.some.injEq] at hexecute
          subst hexecute
          exact hinv.kept_goto (by rw [hpc]; rfl) (by rw [hpc]; rfl)
            ⟨hsettled, hscheduler, hbelow, hheld⟩
      | some p =>
          simp only [execute, hpc, Option.some.injEq] at hexecute
          subst hexecute
          exact hinv.kept_goto (by rw [hpc]; rfl) (by rw [hpc]; rfl)
            ⟨hsettled, ⟨hscheduler, hbelow, by rw [hheld]⟩, rfl⟩
  | enter p =>
      obtain ⟨⟨i, hstack⟩, hbelow, hheld⟩ := hcode
      simp only [execute, hpc, setProc_goto, Option.some.injEq] at hexecute
      subst hexecute
      have hhart : HartOk h ⟨(s.cpu h).mask, some p, ⟨(s.cpu h).regs.stack, .code (.launch p),
          (s.cpu h).regs.below⟩⟩ (held h) flag :=
        ⟨⟨hsettled, ⟨i, hstack⟩, hbelow, hheld⟩, (hinv.hart h).below, by simp [hstack, carried]⟩
      exact Inv.kept (hinv.advance _ rfl (fun _ _ => rfl) (by rw [hpc]; rfl) hhart) rfl fun _ => rfl
  | back p =>
      obtain ⟨⟨i, hstack⟩, hbelow, hheld⟩ := hcode
      simp only [execute, hpc, setProc_goto, Option.some.injEq] at hexecute
      subst hexecute
      have hhart : HartOk h ⟨(s.cpu h).mask, none, ⟨(s.cpu h).regs.stack, .code (.leave p),
          (s.cpu h).regs.below⟩⟩ (held h) flag :=
        ⟨⟨hsettled, ⟨i, hstack⟩, hbelow, hheld⟩, (hinv.hart h).below, by simp [hstack, carried]⟩
      exact Inv.kept (hinv.advance _ rfl (fun _ _ => rfl) (by rw [hpc]; rfl) hhart) rfl fun _ => rfl
  | leave p =>
      obtain ⟨hscheduler, hbelow, hheld⟩ := hcode
      simp only [execute, hpc, Option.some.injEq] at hexecute
      subst hexecute
      exact hinv.kept_goto (by rw [hpc]; rfl) (by rw [hpc]; rfl)
        ⟨hsettled, ⟨hscheduler, hbelow, by rw [hheld]; simp⟩, rfl⟩
  | launch p =>
      obtain ⟨⟨i, hstack⟩, hbelow, hheld⟩ := hcode
      obtain rfl := hinv.scheduler_eq hstack
      simp only [execute, hpc, Interrupts.swtch, Option.map_eq_some_iff] at hexecute
      obtain ⟨regs, hregs, rfl⟩ := hexecute
      exact launch_kept hinv hpc hstack hbelow hheld hregs

/-- `push_off` in `acquire`. -/
theorem pushGet_kept (hinv : Inv s held flag) (hpc : (s.cpu h).regs.pc = .pushGet lk k)
    (hexecute : execute s h = some s') : Kept s flag s' := by
  have hhart := (hinv.hart h).pc
  simp only [hpc, PcOk] at hhart
  simp only [execute, hpc, Option.some.injEq] at hexecute
  subst hexecute
  exact hinv.kept_goto (by rw [hpc]; rfl) (by rw [hpc]; rfl) ⟨hhart.1, rfl, hhart.2⟩

theorem pushIntrOff_kept (hinv : Inv s held flag) {old : Bool}
    (hpc : (s.cpu h).regs.pc = .pushIntrOff lk old k) (hexecute : execute s h = some s') :
    Kept s flag s' := by
  have hhart := (hinv.hart h).pc
  simp only [hpc, PcOk] at hhart
  obtain ⟨hsettled, hold, hreturn⟩ := hhart
  simp only [execute, hpc, setMask_goto, Option.some.injEq] at hexecute
  subst hexecute
  refine hinv.kept_goto (by rw [hpc]; rfl) (by rw [hpc]; rfl) ⟨⟨rfl, hsettled.noff, ?_, ?_⟩, hreturn⟩
  · intro hheld
    rw [hold, hsettled.free hheld]
  · exact fun hheld => (hsettled.holding hheld).2

theorem pushSave_kept (hinv : Inv s held flag) {old : Bool}
    (hpc : (s.cpu h).regs.pc = .pushSave lk old k) (hexecute : execute s h = some s') :
    Kept s flag s' := by
  have hhart := (hinv.hart h).pc
  simp only [hpc, PcOk] at hhart
  obtain ⟨⟨hsie, hnoff, hfree, hholding⟩, hreturn⟩ := hhart
  simp only [execute, hpc] at hexecute
  have hzero : (s.cpu h).mask.noff = 0 ↔ held h = [] := by
    rw [hnoff, Nat.cast_eq_zero, List.length_eq_zero_iff]
  split at hexecute
  · rename_i hfirst
    rw [setMask_goto, Option.some.injEq] at hexecute
    subst hexecute
    exact hinv.kept_goto (by rw [hpc]; rfl) (by rw [hpc]; rfl)
      ⟨⟨hsie, hnoff.trans (add_zero _).symm, hfree (hzero.mp hfirst)⟩, hreturn⟩
  · rename_i hnested
    rw [Option.some.injEq] at hexecute
    subst hexecute
    exact hinv.kept_goto (by rw [hpc]; rfl) (by rw [hpc]; rfl)
      ⟨⟨hsie, hnoff.trans (add_zero _).symm, hholding (hzero.not.mp hnested)⟩, hreturn⟩

theorem pushNest_kept (hinv : Inv s held flag) (hpc : (s.cpu h).regs.pc = .pushNest lk k)
    (hexecute : execute s h = some s') : Kept s flag s' := by
  have hhart := (hinv.hart h).pc
  simp only [hpc, PcOk] at hhart
  obtain ⟨hmasked, hreturn⟩ := hhart
  simp only [execute, hpc, setMask_goto, Option.some.injEq] at hexecute
  subst hexecute
  refine hinv.kept_goto (by rw [hpc]; rfl) (by rw [hpc]; rfl)
    ⟨⟨hmasked.sie, ?_, hmasked.intena⟩, hreturn⟩
  change (s.cpu h).mask.noff + 1 = _
  rw [hmasked.noff, add_zero]

/-- `holding` in `acquire`. -/
theorem acquireOwner_kept (hinv : Inv s held flag) (hpc : (s.cpu h).regs.pc = .acquireOwner lk k)
    (hexecute : execute s h = some s') : Kept s flag s' := by
  have hhart := (hinv.hart h).pc
  simp only [hpc, PcOk] at hhart
  simp only [execute, hpc, Option.some.injEq] at hexecute
  subst hexecute
  by_cases howner : s.owner lk = some h
  · rw [if_pos howner]
    exact hinv.kept_goto (by rw [hpc]; rfl) (by rw [hpc]; rfl)
      ⟨hhart.1, ((hinv.locks.owner lk h).mp howner).1, hhart.2⟩
  · rw [if_neg howner]
    exact hinv.kept_goto (by rw [hpc]; rfl) (by rw [hpc]; rfl) hhart

theorem acquireLocked_kept (hinv : Inv s held flag)
    (hpc : (s.cpu h).regs.pc = .acquireLocked lk k) (hexecute : execute s h = some s') :
    Kept s flag s' := by
  have hhart := (hinv.hart h).pc
  simp only [hpc, PcOk] at hhart
  obtain ⟨hmasked, hmem, -⟩ := hhart
  simp only [execute, hpc, (hinv.locks.locked lk).mpr ⟨h, hmem⟩, if_true,
    Option.some.injEq] at hexecute
  subst hexecute
  exact hinv.kept_goto (by rw [hpc]; rfl) (by rw [hpc]; rfl) ⟨hmasked, hmem⟩

theorem acquireSwap_kept (hinv : Inv s held flag) (hpc : (s.cpu h).regs.pc = .acquireSwap lk k)
    (hexecute : execute s h = some s') : Kept s flag s' := by
  have hhart := (hinv.hart h).pc
  have hproc := (hinv.hart h).proc
  simp only [hpc, PcOk, carried] at hhart hproc
  obtain ⟨hmasked, hreturn⟩ := hhart
  simp only [execute, hpc] at hexecute
  split at hexecute
  · cases hexecute
    exact ⟨held, flag, hinv, fun p hp => ⟨hp, rfl⟩⟩
  · rename_i hfree
    rw [Option.some.injEq] at hexecute
    subst hexecute
    have hlocks := hinv.locks.take { s.cpu h with
      regs := { (s.cpu h).regs with pc := .acquireSet lk k } } (Bool.eq_false_iff.mpr hfree)
      (by rw [hpc]; rfl) rfl
    refine Inv.kept (hinv.update _ rfl rfl rfl (fun _ _ => rfl) hlocks ⟨⟨?_, ?_, hreturn⟩,
      (hinv.hart h).below, ?_⟩) rfl fun _ => rfl
    · refine ⟨hmasked.sie, ?_, hmasked.intena⟩
      rw [hmasked.noff, List.length_cons]
      push_cast
      ring
    · exact List.mem_cons_self
    · exact hproc

theorem acquireSet_kept (hinv : Inv s held flag) (hpc : (s.cpu h).regs.pc = .acquireSet lk k)
    (hexecute : execute s h = some s') : Kept s flag s' := by
  have hhart := (hinv.hart h).pc
  have hproc := (hinv.hart h).proc
  simp only [hpc, PcOk, carried] at hhart hproc
  obtain ⟨hmasked, hmem, hreturn⟩ := hhart
  simp only [execute, hpc, Option.some.injEq] at hexecute
  subst hexecute
  have hlocks := hinv.locks.sign { s.cpu h with
    regs := { (s.cpu h).regs with pc := .code k } } hmem (by rw [hpc]; rfl) rfl
  rw [← Function.update_eq_self h held] at hlocks
  refine Inv.kept (hinv.update _ rfl rfl rfl (fun _ _ => rfl) hlocks
    ⟨⟨hmasked.settled (List.ne_nil_of_mem hmem), hreturn.1⟩, (hinv.hart h).below, ?_⟩) rfl
    fun _ => rfl
  exact hproc.trans (by rw [hreturn.2])

/-- `holding` in `release`. -/
theorem releaseOwner_kept (hinv : Inv s held flag) (hpc : (s.cpu h).regs.pc = .releaseOwner lk k)
    (hexecute : execute s h = some s') : Kept s flag s' := by
  have hhart := (hinv.hart h).pc
  simp only [hpc, PcOk] at hhart
  simp only [execute, hpc, Option.some.injEq] at hexecute
  subst hexecute
  have howner : s.owner lk = some h ↔ lk ∈ held h := by
    rw [hinv.locks.owner, hpc]
    exact and_iff_left nofun
  by_cases hmem : lk ∈ held h
  · rw [if_pos (howner.mpr hmem)]
    exact hinv.kept_goto (by rw [hpc]; rfl) (by rw [hpc]; rfl) ⟨hhart.1, hmem, hhart.2⟩
  · rw [if_neg (howner.not.mpr hmem)]
    exact hinv.kept_goto (by rw [hpc]; rfl) (by rw [hpc]; rfl) ⟨hhart.1, hmem⟩

theorem releaseLocked_kept (hinv : Inv s held flag)
    (hpc : (s.cpu h).regs.pc = .releaseLocked lk k) (hexecute : execute s h = some s') :
    Kept s flag s' := by
  have hhart := (hinv.hart h).pc
  simp only [hpc, PcOk] at hhart
  simp only [execute, hpc, (hinv.locks.locked lk).mpr ⟨h, hhart.2.1⟩, if_true,
    Option.some.injEq] at hexecute
  subst hexecute
  exact hinv.kept_goto (by rw [hpc]; rfl) (by rw [hpc]; rfl) hhart

theorem releaseClear_kept (hinv : Inv s held flag) (hpc : (s.cpu h).regs.pc = .releaseClear lk k)
    (hexecute : execute s h = some s') : Kept s flag s' := by
  have hhart := (hinv.hart h).pc
  have hproc := (hinv.hart h).proc
  simp only [hpc, PcOk, carried] at hhart hproc
  simp only [execute, hpc, Option.some.injEq] at hexecute
  subst hexecute
  have hlocks := hinv.locks.clear { s.cpu h with
    regs := { (s.cpu h).regs with pc := .releaseUnlock lk k } } hhart.2.1 (by rw [hpc]; rfl) rfl
  rw [← Function.update_eq_self h held] at hlocks
  exact Inv.kept (hinv.update _ rfl rfl rfl (fun _ _ => rfl) hlocks
    ⟨hhart, (hinv.hart h).below, hproc⟩) rfl fun _ => rfl

theorem releaseUnlock_kept (hinv : Inv s held flag)
    (hpc : (s.cpu h).regs.pc = .releaseUnlock lk k) (hexecute : execute s h = some s') :
    Kept s flag s' := by
  have hhart := (hinv.hart h).pc
  have hproc := (hinv.hart h).proc
  simp only [hpc, PcOk, carried] at hhart hproc
  obtain ⟨hsettled, hmem, hreturn⟩ := hhart
  have hmasked := hsettled.masked (List.ne_nil_of_mem hmem)
  simp only [execute, hpc, Option.some.injEq] at hexecute
  subst hexecute
  have hlocks := hinv.locks.drop { s.cpu h with
    regs := { (s.cpu h).regs with pc := .popTest k } } hmem (by rw [hpc]; rfl) rfl
  refine Inv.kept (hinv.update _ rfl rfl rfl (fun _ _ => rfl) hlocks
    ⟨⟨⟨hmasked.sie, ?_, hmasked.intena⟩, hreturn⟩, (hinv.hart h).below, hproc⟩) rfl fun _ => rfl
  change (s.cpu h).mask.noff = _
  rw [hmasked.noff, List.length_erase_of_mem hmem, add_zero,
    Nat.cast_sub (List.length_pos_of_mem hmem)]
  ring

/-- `pop_off`. -/
theorem popTest_kept (hinv : Inv s held flag) (hpc : (s.cpu h).regs.pc = .popTest k)
    (hexecute : execute s h = some s') : Kept s flag s' := by
  have hhart := (hinv.hart h).pc
  simp only [hpc, PcOk] at hhart
  simp only [execute, hpc, hhart.1.sie, Bool.false_eq_true, if_false, Option.some.injEq] at hexecute
  subst hexecute
  exact hinv.kept_goto (by rw [hpc]; rfl) (by rw [hpc]; rfl) hhart

theorem popCheck_kept (hinv : Inv s held flag) (hpc : (s.cpu h).regs.pc = .popCheck k)
    (hexecute : execute s h = some s') : Kept s flag s' := by
  have hhart := (hinv.hart h).pc
  simp only [hpc, PcOk] at hhart
  have hpositive : ¬ (s.cpu h).mask.noff < 1 := by
    rw [hhart.1.noff]
    omega
  simp only [execute, hpc, hpositive, if_false, Option.some.injEq] at hexecute
  subst hexecute
  exact hinv.kept_goto (by rw [hpc]; rfl) (by rw [hpc]; rfl) hhart

theorem popDec_kept (hinv : Inv s held flag) (hpc : (s.cpu h).regs.pc = .popDec k)
    (hexecute : execute s h = some s') : Kept s flag s' := by
  have hhart := (hinv.hart h).pc
  simp only [hpc, PcOk] at hhart
  obtain ⟨hmasked, hreturn⟩ := hhart
  simp only [execute, hpc, setMask_goto, Option.some.injEq] at hexecute
  subst hexecute
  refine hinv.kept_goto (by rw [hpc]; rfl) (by rw [hpc]; rfl)
    ⟨⟨hmasked.sie, ?_, hmasked.intena⟩, hreturn⟩
  change (s.cpu h).mask.noff - 1 = _
  rw [hmasked.noff]
  ring

theorem popOn_kept (hinv : Inv s held flag) (hpc : (s.cpu h).regs.pc = .popOn k)
    (hexecute : execute s h = some s') : Kept s flag s' := by
  have hhart := (hinv.hart h).pc
  simp only [hpc, PcOk] at hhart
  obtain ⟨hmasked, hreturn⟩ := hhart
  have hzero : (s.cpu h).mask.noff = 0 ↔ held h = [] := by
    rw [hmasked.noff, add_zero, Nat.cast_eq_zero, List.length_eq_zero_iff]
  have hcarried : carried (.code k) = carried (s.cpu h).regs.pc := by rw [hreturn.2, hpc]; rfl
  simp only [execute, hpc] at hexecute
  split at hexecute
  · rename_i hlast
    rw [setMask_goto, Option.some.injEq] at hexecute
    subst hexecute
    have hheld := hzero.mp hlast.1
    refine hinv.kept_goto (by rw [hpc]; rfl) hcarried ⟨⟨?_, fun _ => ?_, ?_⟩, hreturn.1⟩
    · exact hmasked.noff.trans (add_zero _)
    · rw [← hmasked.intena, hlast.2]
    · exact fun hne => absurd hheld hne
  · rename_i hmore
    rw [Option.some.injEq] at hexecute
    subst hexecute
    refine hinv.kept_goto (by rw [hpc]; rfl) hcarried ⟨⟨?_, fun hheld => ?_, ?_⟩, hreturn.1⟩
    · exact hmasked.noff.trans (add_zero _)
    · rw [hmasked.sie, ← hmasked.intena]
      exact (Bool.eq_false_iff.mpr fun hon => hmore ⟨hzero.mpr hheld, hon⟩).symm
    · exact fun _ => ⟨hmasked.sie, hmasked.intena⟩

/-- The checks of `sched`. -/
theorem schedOwner_kept (hinv : Inv s held flag) {p : ℕ} (hpc : (s.cpu h).regs.pc = .schedOwner p)
    (hexecute : execute s h = some s') : Kept s flag s' := by
  have hhart := (hinv.hart h).pc
  simp only [hpc, PcOk] at hhart
  simp only [execute, hpc, Option.some.injEq] at hexecute
  subst hexecute
  have howner : s.owner (.proc p) = some h ↔ .proc p ∈ held h := by
    rw [hinv.locks.owner, hpc]
    exact and_iff_left nofun
  by_cases hmem : .proc p ∈ held h
  · rw [if_pos (howner.mpr hmem)]
    exact hinv.kept_goto (by rw [hpc]; rfl) (by rw [hpc]; rfl) ⟨hhart.1, hhart.2, hmem⟩
  · rw [if_neg (howner.not.mpr hmem)]
    exact hinv.kept_goto (by rw [hpc]; rfl) (by rw [hpc]; rfl) ⟨hhart.1, hhart.2, hmem⟩

theorem schedLocked_kept (hinv : Inv s held flag) {p : ℕ}
    (hpc : (s.cpu h).regs.pc = .schedLocked p) (hexecute : execute s h = some s') :
    Kept s flag s' := by
  have hhart := (hinv.hart h).pc
  simp only [hpc, PcOk] at hhart
  simp only [execute, hpc, (hinv.locks.locked (.proc p)).mpr ⟨h, hhart.2.2⟩, if_true,
    Option.some.injEq] at hexecute
  subst hexecute
  exact hinv.kept_goto (by rw [hpc]; rfl) (by rw [hpc]; rfl) hhart

theorem schedNoff_kept (hinv : Inv s held flag) {p : ℕ} (hpc : (s.cpu h).regs.pc = .schedNoff p)
    (hexecute : execute s h = some s') : Kept s flag s' := by
  have hhart := (hinv.hart h).pc
  simp only [hpc, PcOk] at hhart
  obtain ⟨hsettled, hstack, hmem⟩ := hhart
  have hone : (s.cpu h).mask.noff = 1 ↔ held h = [.proc p] := by
    rw [hsettled.noff, Nat.cast_eq_one, List.length_eq_one_iff]
    constructor
    · rintro ⟨lk, hlk⟩
      rw [hlk, List.mem_singleton] at hmem
      rw [hlk, hmem]
    · exact fun hheld => ⟨_, hheld⟩
  simp only [execute, hpc, Option.some.injEq] at hexecute
  subst hexecute
  by_cases hheld : held h = [.proc p]
  · rw [if_neg (not_not.mpr (hone.mpr hheld))]
    exact hinv.kept_goto (by rw [hpc]; rfl) (by rw [hpc]; rfl) ⟨hsettled, hstack, hheld⟩
  · rw [if_pos (hone.not.mpr hheld)]
    exact hinv.kept_goto (by rw [hpc]; rfl) (by rw [hpc]; rfl) ⟨hsettled, hstack, hmem, hheld⟩

theorem schedIntr_kept (hinv : Inv s held flag) {p : ℕ} (hpc : (s.cpu h).regs.pc = .schedIntr p)
    (hexecute : execute s h = some s') : Kept s flag s' := by
  have hhart := (hinv.hart h).pc
  simp only [hpc, PcOk] at hhart
  obtain ⟨hsie, -⟩ := hhart.1.holding (by rw [hhart.2.2]; exact List.cons_ne_nil _ _)
  simp only [execute, hpc, hsie, Bool.false_eq_true, if_false, Option.some.injEq] at hexecute
  subst hexecute
  exact hinv.kept_goto (by rw [hpc]; rfl) (by rw [hpc]; rfl) hhart

/-- `sched` switches to the scheduler, which takes over the flag of the process. -/
theorem schedSwtch_kept (hinv : Inv s held flag) {p : ℕ}
    (hpc : (s.cpu h).regs.pc = .schedSwtch p) (hexecute : execute s h = some s') :
    Kept s flag s' := by
  have hhart := (hinv.hart h).pc
  have hproc := (hinv.hart h).proc
  simp only [hpc, PcOk] at hhart hproc
  obtain ⟨hsettled, hstack, hheld⟩ := hhart
  obtain ⟨hscheduler, -⟩ | ⟨q, hprocess, -, hregs⟩ := hinv.place h
  · rw [hscheduler] at hstack
    cases hstack
  obtain rfl : p = q := by
    rw [hprocess] at hstack
    cases hstack
    rfl
  simp only [execute, hpc, Interrupts.swtch, hregs, Option.map_some, Option.some.injEq] at hexecute
  subst hexecute
  have hintena := (hsettled.holding (by rw [hheld]; exact List.cons_ne_nil _ _)).2
  have hflag : Function.update flag (.scheduler h) (flagOf flag (s.cpu h).regs)
      (s.cpu h).regs.stack = flag (s.cpu h).regs.stack :=
    Function.update_of_ne (by simp [hstack]) _ _
  refine ⟨held, Function.update flag (.scheduler h) (flagOf flag (s.cpu h).regs),
    hinv.swtch hstack hregs rfl (fun i hi => (Stack.scheduler.inj hi).symm)
      (fun stack hne => Function.update_of_ne hne _ _) (by rw [hpc]; rfl) rfl ⟨⟨?_, ?_⟩, .inl rfl, ?_⟩
      (.inl rfl) fun q hq => ?_,
    fun q hq => ⟨hq.swtch fun _ => nofun, Function.update_of_ne (by simp) _ _⟩⟩
  · simp only [flagOf, List.isEmpty_nil, Bool.true_and, Function.update_self]
    exact hsettled
  · exact ⟨⟨h, rfl⟩, rfl, hheld⟩
  · rw [hproc, hstack]
    rfl
  · cases hq
    refine ⟨hstack, (hinv.hart h).below.congr rfl rfl hflag, .inl ?_⟩
    exact congrArg Pc.schedBack (hintena.trans (flagOf_eq rfl rfl hflag).symm)

theorem schedBack_kept (hinv : Inv s held flag) {intena : Bool}
    (hpc : (s.cpu h).regs.pc = .schedBack intena) (hexecute : execute s h = some s') :
    Kept s flag s' := by
  have hhart := (hinv.hart h).pc
  simp only [hpc, PcOk] at hhart
  obtain ⟨⟨hsie, hnoff, hintena⟩, p, hstack, hheld⟩ := hhart
  simp only [execute, hpc, setMask_goto, Option.some.injEq] at hexecute
  subst hexecute
  refine hinv.kept_goto (by rw [hpc]; rfl) (by rw [hpc]; rfl) ⟨⟨?_, fun hnil => ?_, fun _ => ?_⟩,
    trivial⟩
  · rw [hheld]
    exact hnoff
  · rw [hheld] at hnil
    cases hnil
  · exact ⟨hsie, hintena⟩

theorem curRead_kept (hinv : Inv s held flag) {hart : ℕ}
    (hpc : (s.cpu h).regs.pc = .curRead hart) (hexecute : execute s h = some s') :
    Kept s flag s' := by
  have hhart := (hinv.hart h).pc
  simp only [hpc, PcOk] at hhart
  simp only [execute, hpc, Option.some.injEq] at hexecute
  subst hexecute
  exact hinv.kept_goto (by rw [hpc]; rfl) (by rw [hpc]; rfl) ⟨hhart.1, trivial⟩

theorem execute_kept (hinv : Inv s held flag) (hexecute : execute s h = some s') :
    Kept s flag s' := by
  cases hpc : (s.cpu h).regs.pc with
  | code k => exact execute_schedule hinv hpc hexecute
  | pushGet lk k => exact pushGet_kept hinv hpc hexecute
  | pushIntrOff lk old k => exact pushIntrOff_kept hinv hpc hexecute
  | pushSave lk old k => exact pushSave_kept hinv hpc hexecute
  | pushNest lk k => exact pushNest_kept hinv hpc hexecute
  | acquireOwner lk k => exact acquireOwner_kept hinv hpc hexecute
  | acquireLocked lk k => exact acquireLocked_kept hinv hpc hexecute
  | acquireSwap lk k => exact acquireSwap_kept hinv hpc hexecute
  | acquireSet lk k => exact acquireSet_kept hinv hpc hexecute
  | releaseOwner lk k => exact releaseOwner_kept hinv hpc hexecute
  | releaseLocked lk k => exact releaseLocked_kept hinv hpc hexecute
  | releaseClear lk k => exact releaseClear_kept hinv hpc hexecute
  | releaseUnlock lk k => exact releaseUnlock_kept hinv hpc hexecute
  | popTest k => exact popTest_kept hinv hpc hexecute
  | popCheck k => exact popCheck_kept hinv hpc hexecute
  | popDec k => exact popDec_kept hinv hpc hexecute
  | popOn k => exact popOn_kept hinv hpc hexecute
  | schedOwner p => exact schedOwner_kept hinv hpc hexecute
  | schedLocked p => exact schedLocked_kept hinv hpc hexecute
  | schedNoff p => exact schedNoff_kept hinv hpc hexecute
  | schedIntr p => exact schedIntr_kept hinv hpc hexecute
  | schedSwtch p => exact schedSwtch_kept hinv hpc hexecute
  | schedBack intena => exact schedBack_kept hinv hpc hexecute
  | curRead hart => exact curRead_kept hinv hpc hexecute
  | panicked reason => simp [execute, hpc] at hexecute

/-! ## Calls and traps -/

/-- The step is one in which process `p` itself turns interrupts on or off, outside a handler. -/
def Tunes (p : ℕ) (s : State) : Action → Prop
  | .call h .intrOn | .call h .intrOff | .call h .sret =>
      (s.cpu h).regs.stack = .process p ∧ (s.cpu h).regs.below = []
  | .trap h => (s.cpu h).regs.stack = .process p ∧ (s.cpu h).regs.pc = .code .user
  | _ => False

/-- As `Kept`, but for the process that turns interrupts on or off itself. -/
def KeptBut (s : State) (flag : Stack → Bool) (action : Action) (s' : State) : Prop :=
  ∃ held' flag', Inv s' held' flag' ∧ ∀ p, Started s.context p →
    Started s'.context p ∧ (¬ Tunes p s action → flag' (.process p) = flag (.process p))

theorem Kept.but (hkept : Kept s flag s') (action : Action) : KeptBut s flag action s' := by
  obtain ⟨held', flag', hinv, hstarted⟩ := hkept
  exact ⟨held', flag', hinv, fun p hp => ⟨(hstarted p hp).1, fun _ => (hstarted p hp).2⟩⟩

theorem Interruptible.transit_eq {stack : Stack} {pc : Pc} (hpc : Interruptible stack pc) :
    transit pc = none := by
  obtain ⟨hok, -, -⟩ := hpc 0 false
  cases pc with
  | acquireSet lk k => simp [PcOk] at hok
  | releaseUnlock lk k => simp [PcOk] at hok
  | _ => rfl

theorem carried_none (hinv : Inv s held flag) (hsie : (s.cpu h).mask.sie = true) :
    carried (s.cpu h).regs.pc = none := by
  have hhart := (hinv.hart h).pc
  cases hpc : (s.cpu h).regs.pc with
  | code k =>
      cases k with
      | launch p | back p =>
          simp only [hpc, PcOk, CodeOk] at hhart
          have hoff := hhart.1.holding (by rw [hhart.2.2.2]; exact List.cons_ne_nil _ _)
          rw [hoff.1] at hsie
          cases hsie
      | _ => rfl
  | _ => rfl

theorem Inv.tune_mask (hinv : Inv s held flag) (on : Bool) {mask : Mask}
    (hbelow : (s.cpu h).regs.below = [])
    (hpc : PcOk h (s.cpu h).regs.stack [] (held h) on mask (s.cpu h).regs.pc) :
    Inv (s.setMask h mask) held (Function.update flag (s.cpu h).regs.stack on) :=
  hinv.tune on hbelow rfl rfl hpc

theorem Inv.kept_mask (hinv : Inv s held flag) {mask : Mask}
    (hpc : PcOk h (s.cpu h).regs.stack (s.cpu h).regs.below (held h)
      (flagOf flag (s.cpu h).regs) mask (s.cpu h).regs.pc) : Kept s flag (s.setMask h mask) :=
  hinv.kept_goto rfl rfl hpc

theorem intrOff_kept (hinv : Inv s held flag) (hpc : (s.cpu h).regs.pc = .code .kernel) :
    KeptBut s flag (.call h .intrOff) (s.setMask h { (s.cpu h).mask with sie := false }) := by
  have hhart := (hinv.hart h).pc
  rw [hpc] at hhart
  obtain ⟨hsettled, -⟩ := hhart
  by_cases htunes : held h = [] ∧ (s.cpu h).regs.below = []
  · refine ⟨held, _, hinv.tune_mask false htunes.2 ?_, fun p hp =>
      ⟨hp, fun hother => Function.update_of_ne (fun heq => hother ⟨heq.symm, htunes.2⟩) _ _⟩⟩
    rw [hpc]
    exact ⟨⟨hsettled.noff, fun _ => rfl, fun hne => absurd htunes.1 hne⟩, trivial⟩
  · refine Kept.but (hinv.kept_mask ?_) _
    rw [hpc]
    refine ⟨⟨hsettled.noff, fun hheld => ?_, fun hne => ⟨rfl, (hsettled.holding hne).2⟩⟩, trivial⟩
    refine (Bool.eq_false_iff.mpr fun hon => htunes ⟨hheld, (below_of_flagOf hon).1⟩).symm

theorem sret_kept (hinv : Inv s held flag) (hpc : (s.cpu h).regs.pc = .code .kernel)
    (hnoff : (s.cpu h).mask.noff = 0) : KeptBut s flag (.call h .sret) (sret s h) := by
  have hhart := (hinv.hart h).pc
  have hproc := (hinv.hart h).proc
  rw [hpc] at hhart hproc
  have hheld : held h = [] := by
    rw [hhart.1.noff, Nat.cast_eq_zero, List.length_eq_zero_iff] at hnoff
    exact hnoff
  simp only [sret]
  split
  · rename_i hbelow
    refine ⟨held, _, hinv.tune true hbelow (by rw [hpc]; rfl) (by rw [hpc]; rfl) ?_, fun p hp =>
      ⟨hp, fun hother => Function.update_of_ne (fun heq => hother ⟨heq.symm, hbelow⟩) _ _⟩⟩
    exact ⟨⟨hhart.1.noff, fun _ => rfl, fun hne => absurd hheld hne⟩, hheld, rfl⟩
  · rename_i pc below hbelow
    obtain hnil | ⟨pc', hsingle, hflag, hinterruptible⟩ := (hinv.hart h).below
    · rw [hbelow] at hnil
      cases hnil
    rw [hbelow] at hsingle
    cases hsingle
    have hresume : HartOk h ⟨{ (s.cpu h).mask with sie := true }, (s.cpu h).proc,
        ⟨(s.cpu h).regs.stack, pc, []⟩⟩ (held h) flag := by
      refine ⟨?_, .inl rfl, hproc.trans (by rw [(hinterruptible h false).2.1]; rfl)⟩
      rw [hheld]
      simp only [flagOf, List.isEmpty_nil, Bool.true_and, hflag, hnoff]
      exact (hinterruptible h (s.cpu h).mask.intena).1
    refine Kept.but ?_ _
    refine Inv.kept (hinv.advance _ rfl (fun _ _ => rfl) ?_ hresume) rfl fun _ => rfl
    rw [hpc]
    exact hinterruptible.transit_eq

theorem call_kept (hinv : Inv s held flag) {c : Call} (hpc : (s.cpu h).regs.pc = .code .kernel)
    (hlawful : Lawful s (.call h c)) (hcall : call s h c = some s') :
    KeptBut s flag (.call h c) s' := by
  have hhart := (hinv.hart h).pc
  have hproc := (hinv.hart h).proc
  simp only [hpc, PcOk] at hhart hproc
  obtain ⟨hsettled, -⟩ := hhart
  cases c with
  | acquire lk =>
      simp only [call, Option.some.injEq] at hcall
      subst hcall
      refine Kept.but ?_ _
      exact hinv.kept_goto (by rw [hpc]; rfl) (by rw [hpc]; rfl) ⟨hsettled, trivial, rfl⟩
  | release lk =>
      simp only [call, Option.some.injEq] at hcall
      subst hcall
      refine Kept.but ?_ _
      exact hinv.kept_goto (by rw [hpc]; rfl) (by rw [hpc]; rfl) ⟨hsettled, trivial, rfl⟩
  | curProc =>
      simp only [call, Option.some.injEq] at hcall
      subst hcall
      refine Kept.but ?_ _
      exact hinv.kept_goto (by rw [hpc]; rfl) (by rw [hpc]; rfl) ⟨hsettled, fun _ => rfl⟩
  | sched =>
      simp only [call, Option.map_eq_some_iff] at hcall
      obtain ⟨p, hp, rfl⟩ := hcall
      rw [hproc] at hp
      refine Kept.but ?_ _
      refine hinv.kept_goto (by rw [hpc]; rfl) (by rw [hpc]; rfl) ⟨hsettled, ?_⟩
      cases hstack : (s.cpu h).regs.stack with
      | process q =>
          rw [hstack] at hp
          cases hp
          rfl
      | scheduler i =>
          rw [hstack] at hp
          cases hp
  | intrOff =>
      simp only [call, Option.some.injEq] at hcall
      subst hcall
      exact intrOff_kept hinv hpc
  | sret =>
      simp only [call, Option.some.injEq] at hcall
      subst hcall
      exact sret_kept hinv hpc hlawful
  | intrOn =>
      simp only [call, Option.some.injEq] at hcall
      subst hcall
      obtain ⟨hnoff, hbelow⟩ := hlawful
      have hheld : held h = [] := by
        rw [hsettled.noff, Nat.cast_eq_zero, List.length_eq_zero_iff] at hnoff
        exact hnoff
      refine ⟨held, _, hinv.tune_mask true hbelow ?_, fun p hp =>
        ⟨hp, fun hother => Function.update_of_ne (fun heq => hother ⟨heq.symm, hbelow⟩) _ _⟩⟩
      rw [hpc]
      exact ⟨⟨hsettled.noff, fun _ => rfl, fun hne => absurd hheld hne⟩, trivial⟩

theorem trap_kept (hinv : Inv s held flag) (htrap : trap s h = some s') :
    KeptBut s flag (.trap h) s' := by
  have hhart := (hinv.hart h).pc
  have hproc := (hinv.hart h).proc
  simp only [trap] at htrap
  split at htrap
  · rename_i huser
    rw [Option.some.injEq] at htrap
    subst htrap
    rw [huser] at hhart
    obtain ⟨hsettled, hheld, hbelow⟩ := hhart
    refine ⟨held, _, hinv.tune false hbelow (by rw [huser]; rfl) (by rw [huser]; rfl) ?_, fun p hp =>
      ⟨hp, fun hother => Function.update_of_ne (fun heq => hother ⟨heq.symm, huser⟩) _ _⟩⟩
    exact ⟨⟨hsettled.noff, fun _ => rfl, fun hne => absurd hheld hne⟩, trivial⟩
  · rename_i huser
    split at htrap
    · rename_i hsie
      rw [Option.some.injEq] at htrap
      subst htrap
      have hcarried := carried_none hinv hsie
      obtain ⟨⟨hheld, hon, hnoff⟩, hinterruptible⟩ := hhart.interruptible hsie
        (fun hon => (below_of_flagOf hon).1) hcarried huser
      obtain ⟨hbelow, hflag⟩ := below_of_flagOf hon
      have hhandler : HartOk h ⟨{ (s.cpu h).mask with sie := false }, (s.cpu h).proc,
          ⟨(s.cpu h).regs.stack, .code .kernel, (s.cpu h).regs.pc :: (s.cpu h).regs.below⟩⟩
          (held h) flag := by
        refine ⟨⟨⟨?_, fun _ => rfl, fun hne => absurd hheld hne⟩, trivial⟩, ?_, ?_⟩
        · rw [hheld]
          exact hnoff
        · exact .inr ⟨_, by rw [hbelow], hflag, hinterruptible⟩
        · exact hproc.trans (by rw [hcarried]; rfl)
      refine Kept.but ?_ _
      refine Inv.kept (hinv.advance _ rfl (fun _ _ => rfl) ?_ hhandler) rfl fun _ => rfl
      rw [hinterruptible.transit_eq]
      rfl
    · cases htrap

end Steps

end Painting.Interrupts
