import Painting.Core.Transition

/-!
# Starting the harts

`main` on all harts.  The hart that boots the machine makes the tables of the kernel, starts the
others and waits for them at the counter `started`; the others wait for the first value of the
counter, turn on paging and add 1.  The counter is a `volatile int`, so `++started` is a load and a
store, between which other harts may run.
-/

namespace Painting.Startup

open Painting.Transition

/-! ## The code -/

/-- Where a hart is in `main`. -/
inductive Pc
  /-- Stopped in the firmware. -/
  | stopped
  | entry
  /-- From `dtbEntryinit` to `init_fs`. -/
  | initialising
  /-- Before `started = 1`. -/
  | publishing
  /-- The loop around `sbi_hart_start`. -/
  | starting (i : ℕ)
  /-- The loop that waits for `NCPU`. -/
  | gathering
  /-- `virtio_disk_init` and `init_first_proc`. -/
  | finishing
  /-- The loop that waits for the first value of `started`. -/
  | waiting
  /-- `kvminithart`, `trapinithart` and `plicinithart`. -/
  | enabling
  | loading
  | storing (value : ℕ)
  | scheduling
  deriving DecidableEq

/-- `tables` are the structures of the kernel that all harts use; `paging i` that hart `i` uses the
page table and the trap vector of the kernel; `disk` that the disk and the first process are set
up. -/
structure State where
  pc : ℕ → Pc
  started : ℕ
  tables : Bool
  paging : ℕ → Bool
  disk : Bool

def State.goto (s : State) (i : ℕ) (pc : Pc) : State := { s with pc := Function.update s.pc i pc }

/-- `sbi_hart_start`, which does nothing for a hart that runs. -/
def sbiHartStart (s : State) (i : ℕ) : State := if s.pc i = .stopped then s.goto i .entry else s

/-- The next step of hart `i` in `main`, or `none` when it is stopped or has reached `schedule`. -/
def next (ncpu : ℕ) (s : State) (i : ℕ) : Option State :=
  match s.pc i with
  | .stopped => none
  | .entry => some (if s.started = 0 then s.goto i .initialising else s.goto i .waiting)
  | .initialising => some ({ s with
      tables := true
      paging := Function.update s.paging i true }.goto i .publishing)
  | .publishing => some ({ s with started := 1 }.goto i (.starting 0))
  | .starting j =>
      if j < ncpu then some ((if j ≠ i then sbiHartStart s j else s).goto i (.starting (j + 1)))
      else some (s.goto i .gathering)
  | .gathering => some (if s.started ≠ ncpu then s else s.goto i .finishing)
  | .finishing => some ({ s with disk := true }.goto i .scheduling)
  | .waiting => some (if s.started = 0 then s else s.goto i .enabling)
  | .enabling => some ({ s with paging := Function.update s.paging i true }.goto i .loading)
  | .loading => some (s.goto i (.storing (s.started + 1)))
  | .storing value => some ({ s with started := value }.goto i .scheduling)
  | .scheduling => none

def Step (ncpu : ℕ) (s : State) (i : ℕ) (s' : State) : Prop := next ncpu s i = some s'

/-- The firmware enters the kernel on one hart. -/
def reset (boot : ℕ) : State where
  pc := fun i => if i = boot then .entry else .stopped
  started := 0
  tables := false
  paging := fun _ => false
  disk := false

/-! ## The invariant -/

/-- Steps that only the booting hart takes, before and after the others may run. -/
def Early (pc : Pc) : Prop := pc = .entry ∨ pc = .initialising ∨ pc = .publishing

def Late (pc : Pc) : Prop := (∃ j, pc = .starting j) ∨ pc = .gathering ∨ pc = .finishing ∨ pc = .scheduling

/-- Steps of the other harts. -/
def Follows (pc : Pc) : Prop :=
  pc = .stopped ∨ pc = .entry ∨ pc = .waiting ∨ pc = .enabling ∨ pc = .loading ∨
    (∃ value, pc = .storing value) ∨ pc = .scheduling

/-- The other harts that have added to the counter. -/
def arrived (ncpu boot : ℕ) (s : State) : Finset ℕ :=
  (Finset.range ncpu).filter fun i => i ≠ boot ∧ s.pc i = .scheduling

structure Inv (ncpu boot : ℕ) (s : State) : Prop where
  early : s.started = 0 → Early (s.pc boot) ∧ ∀ i, i ≠ boot → s.pc i = .stopped
  late : s.started ≠ 0 → Late (s.pc boot) ∧ ∀ i, i ≠ boot → Follows (s.pc i)
  range : ∀ i, i ≠ boot → s.pc i ≠ .stopped → i < ncpu
  tables : s.started ≠ 0 ∨ s.pc boot = .publishing → s.tables = true
  paging : ∀ i, s.pc i = .loading ∨ (∃ value, s.pc i = .storing value) ∨ s.pc i = .scheduling →
    s.paging i = true
  booted : s.pc boot ≠ .entry → s.pc boot ≠ .initialising → s.paging boot = true
  counter : s.started ≤ 1 + (arrived ncpu boot s).card
  value : ∀ i value, s.pc i = .storing value →
    2 ≤ value ∧ value ≤ 2 + (arrived ncpu boot s).card
  passed : s.pc boot = .finishing ∨ s.pc boot = .scheduling →
    ∀ i, i < ncpu → i ≠ boot → s.pc i = .scheduling
  disk : s.disk = true → s.pc boot = .scheduling

section Steps

variable {ncpu boot i : ℕ} {s s' : State} {pc : Pc}

@[simp]
theorem goto_self (s : State) (i : ℕ) (pc : Pc) : (s.goto i pc).pc i = pc :=
  Function.update_self _ _ _

theorem goto_of_ne (s : State) {i j : ℕ} (pc : Pc) (hne : j ≠ i) : (s.goto i pc).pc j = s.pc j :=
  Function.update_of_ne hne _ _

theorem mem_arrived : i ∈ arrived ncpu boot s ↔ i < ncpu ∧ i ≠ boot ∧ s.pc i = .scheduling := by
  rw [arrived, Finset.mem_filter, Finset.mem_range]

/-- A step that is not the end of the increment leaves the harts that have arrived. -/
theorem arrived_same (hpc : ∀ j, j ≠ boot → (s'.pc j = .scheduling ↔ s.pc j = .scheduling)) :
    arrived ncpu boot s' = arrived ncpu boot s := by
  ext j
  rw [mem_arrived, mem_arrived]
  exact and_congr_right fun _ => and_congr_right fun hj => hpc j hj

theorem Inv.started_ne (hinv : Inv ncpu boot s) (hi : i ≠ boot) (hrun : s.pc i ≠ .stopped) :
    s.started ≠ 0 := fun hzero => hrun ((hinv.early hzero).2 i hi)

/-- A step of another hart before the end of its increment. -/
theorem Inv.advance (hinv : Inv ncpu boot s) (hi : i ≠ boot) (hrun : s.pc i ≠ .stopped)
    (hbefore : s.pc i ≠ .scheduling) (hfollows : Follows pc) (hafter : pc ≠ .scheduling)
    {paging : ℕ → Bool} (hpaging : ∀ j, s.paging j = true → paging j = true)
    (hself : pc = .loading ∨ (∃ value, pc = .storing value) → paging i = true)
    (hvalue : ∀ value, pc = .storing value →
      2 ≤ value ∧ value ≤ 2 + (arrived ncpu boot s).card) :
    Inv ncpu boot ({ s with paging := paging }.goto i pc) := by
  have hstarted := hinv.started_ne hi hrun
  have hboot : ({ s with paging := paging }.goto i pc).pc boot = s.pc boot :=
    goto_of_ne _ _ (Ne.symm hi)
  have harrived : arrived ncpu boot ({ s with paging := paging }.goto i pc) =
      arrived ncpu boot s := by
    refine arrived_same fun j hj => ?_
    by_cases hji : j = i
    · rw [hji, goto_self]
      exact iff_of_false hafter hbefore
    · rw [goto_of_ne _ _ hji]
  refine ⟨fun hzero => absurd hzero hstarted, fun _ => ?_, fun j hj hjrun => ?_, fun _ => ?_,
    fun j hj => ?_, fun hentry hinit => ?_, ?_, fun j value hj => ?_, fun hpast j hj hne => ?_,
    fun hdisk => ?_⟩
  · rw [hboot]
    refine ⟨(hinv.late hstarted).1, fun j hj => ?_⟩
    by_cases hji : j = i
    · rwa [hji, goto_self]
    · rw [goto_of_ne _ _ hji]
      exact (hinv.late hstarted).2 j hj
  · by_cases hji : j = i
    · exact hji ▸ hinv.range i hi hrun
    · rw [goto_of_ne _ _ hji] at hjrun
      exact hinv.range j hj hjrun
  · exact hinv.tables (.inl hstarted)
  · by_cases hji : j = i
    · rw [hji, goto_self] at hj
      rw [hji]
      exact hself (hj.imp_right fun h => h.resolve_right hafter)
    · rw [goto_of_ne _ _ hji] at hj
      exact hpaging j (hinv.paging j hj)
  · rw [hboot] at hentry hinit
    exact hpaging boot (hinv.booted hentry hinit)
  · rw [harrived]
    exact hinv.counter
  · rw [harrived]
    by_cases hji : j = i
    · rw [hji, goto_self] at hj
      exact hvalue value hj
    · rw [goto_of_ne _ _ hji] at hj
      exact hinv.value j value hj
  · rw [hboot] at hpast
    exact absurd (hinv.passed hpast i (hinv.range i hi hrun) hi) hbefore
  · rw [hboot]
    exact hinv.disk hdisk

theorem Inv.arrived_card (hinv : Inv ncpu boot s) (hi : i ≠ boot) {value : ℕ}
    (hstoring : s.pc i = .storing value) :
    (arrived ncpu boot ({ s with started := value }.goto i .scheduling)).card =
      (arrived ncpu boot s).card + 1 := by
  have harrived : arrived ncpu boot ({ s with started := value }.goto i .scheduling) =
      insert i (arrived ncpu boot s) := by
    ext j
    rw [Finset.mem_insert, mem_arrived, mem_arrived]
    by_cases hji : j = i
    · rw [hji, goto_self]
      exact iff_of_true ⟨hinv.range i hi (hstoring ▸ nofun), hi, rfl⟩ (.inl rfl)
    · rw [goto_of_ne _ _ hji, or_iff_right hji]
  rw [harrived, Finset.card_insert_of_notMem]
  rw [mem_arrived, hstoring]
  simp

/-- The end of an increment. -/
theorem Inv.arrive (hinv : Inv ncpu boot s) (hi : i ≠ boot) {value : ℕ}
    (hstoring : s.pc i = .storing value) :
    Inv ncpu boot ({ s with started := value }.goto i .scheduling) := by
  have hrun : s.pc i ≠ .stopped := hstoring ▸ nofun
  have hstarted := hinv.started_ne hi hrun
  have hboot : ({ s with started := value }.goto i .scheduling).pc boot = s.pc boot :=
    goto_of_ne _ _ (Ne.symm hi)
  obtain ⟨hlow, hhigh⟩ := hinv.value i value hstoring
  have hcard := hinv.arrived_card hi hstoring
  have hstored : ({ s with started := value }.goto i .scheduling).started = value := rfl
  refine ⟨fun hzero => by omega, fun _ => ?_, fun j hj hjrun => ?_, fun _ => ?_, fun j hj => ?_,
    fun hentry hinit => ?_, by omega, fun j other hj => ?_, fun hpast j hj hne => ?_,
    fun hdisk => ?_⟩
  · rw [hboot]
    refine ⟨(hinv.late hstarted).1, fun j hj => ?_⟩
    by_cases hji : j = i
    · rw [hji, goto_self]
      simp [Follows]
    · rw [goto_of_ne _ _ hji]
      exact (hinv.late hstarted).2 j hj
  · by_cases hji : j = i
    · exact hji ▸ hinv.range i hi hrun
    · rw [goto_of_ne _ _ hji] at hjrun
      exact hinv.range j hj hjrun
  · exact hinv.tables (.inl hstarted)
  · by_cases hji : j = i
    · exact hji ▸ hinv.paging i (.inr (.inl ⟨value, hstoring⟩))
    · rw [goto_of_ne _ _ hji] at hj
      exact hinv.paging j hj
  · rw [hboot] at hentry hinit
    exact hinv.booted hentry hinit
  · rw [hcard]
    by_cases hji : j = i
    · rw [hji, goto_self] at hj
      cases hj
    · rw [goto_of_ne _ _ hji] at hj
      obtain ⟨hlow', hhigh'⟩ := hinv.value j other hj
      exact ⟨hlow', by omega⟩
  · rw [hboot] at hpast
    by_cases hji : j = i
    · rw [hji, goto_self]
    · rw [goto_of_ne _ _ hji]
      exact hinv.passed hpast j hj hne
  · rw [hboot]
    exact hinv.disk hdisk

/-- The booting hart before it publishes the counter. -/
theorem Inv.prepare (hinv : Inv ncpu boot s) (hzero : s.started = 0) (hearly : Early pc)
    {tables : Bool} {paging : ℕ → Bool}
    (hready : pc = .publishing → tables = true ∧ paging boot = true) :
    Inv ncpu boot ({ s with tables := tables, paging := paging }.goto boot pc) := by
  obtain ⟨hbefore, hstopped⟩ := hinv.early hzero
  have hother : ∀ j, j ≠ boot →
      ({ s with tables := tables, paging := paging }.goto boot pc).pc j = .stopped :=
    fun j hj => (goto_of_ne _ _ hj).trans (hstopped j hj)
  have hnone : ∀ j, Early (({ s with tables := tables, paging := paging }.goto boot pc).pc j) ∨
      ({ s with tables := tables, paging := paging }.goto boot pc).pc j = .stopped := by
    intro j
    by_cases hj : j = boot
    · rw [hj, goto_self]
      exact .inl hearly
    · exact .inr (hother j hj)
  refine ⟨fun _ => ⟨by rwa [goto_self], hother⟩, fun hne => absurd hzero hne,
    fun j hj hrun => absurd (hother j hj) hrun, fun htables => ?_, fun j hj => ?_,
    fun hentry hinit => ?_, ?_, fun j value hj => ?_, fun hpast => ?_, fun hdisk => ?_⟩
  · rw [goto_self] at htables
    exact (hready (htables.resolve_left fun hne => hne hzero)).1
  · exfalso
    obtain (h | h | h) | h := hnone j <;> rw [h] at hj <;> simp at hj
  · rw [goto_self] at hentry hinit
    exact (hready (hearly.resolve_left hentry |>.resolve_left hinit)).2
  · exact hzero ▸ Nat.zero_le _
  · obtain (h | h | h) | h := hnone j <;> rw [h] at hj <;> cases hj
  · rw [goto_self] at hpast
    obtain rfl | rfl | rfl := hearly <;> simp at hpast
  · rw [hinv.disk hdisk] at hbefore
    obtain h | h | h := hbefore <;> cases h

/-- `started = 1`. -/
theorem Inv.publish (hinv : Inv ncpu boot s) (hpublishing : s.pc boot = .publishing)
    (hzero : s.started = 0) :
    Inv ncpu boot ({ s with started := 1 }.goto boot (.starting 0)) := by
  obtain ⟨-, hstopped⟩ := hinv.early hzero
  have hother : ∀ j, j ≠ boot →
      ({ s with started := 1 }.goto boot (.starting 0)).pc j = .stopped :=
    fun j hj => (goto_of_ne _ _ hj).trans (hstopped j hj)
  have hnone : ∀ j, ({ s with started := 1 }.goto boot (.starting 0)).pc j = .starting 0 ∨
      ({ s with started := 1 }.goto boot (.starting 0)).pc j = .stopped := by
    intro j
    by_cases hj : j = boot
    · exact .inl (hj ▸ goto_self _ _ _)
    · exact .inr (hother j hj)
  refine ⟨fun hone => (by cases hone), fun _ => ⟨?_, fun j hj => .inl (hother j hj)⟩,
    fun j hj hrun => absurd (hother j hj) hrun, fun _ => hinv.tables (.inr hpublishing),
    fun j hj => ?_, fun _ _ => hinv.booted (by simp [hpublishing]) (by simp [hpublishing]),
    Nat.le_add_right 1 _, fun j value hj => ?_, fun hpast => ?_, fun hdisk => ?_⟩
  · rw [goto_self]
    exact .inl ⟨0, rfl⟩
  · obtain h | h := hnone j <;> rw [h] at hj <;> simp at hj
  · obtain h | h := hnone j <;> rw [h] at hj <;> cases hj
  · rw [goto_self] at hpast
    simp at hpast
  · rw [hinv.disk hdisk] at hpublishing
    cases hpublishing

/-- `sbi_hart_start`. -/
theorem Inv.wake (hinv : Inv ncpu boot s) (hstarted : s.started ≠ 0) (hi : i ≠ boot)
    (hlt : i < ncpu) : Inv ncpu boot (sbiHartStart s i) := by
  rw [sbiHartStart]
  split
  swap
  · exact hinv
  rename_i hstopped
  have hboot : (s.goto i .entry).pc boot = s.pc boot := goto_of_ne _ _ (Ne.symm hi)
  have harrived : arrived ncpu boot (s.goto i .entry) = arrived ncpu boot s := by
    refine arrived_same fun j hj => ?_
    by_cases hji : j = i
    · rw [hji, goto_self, hstopped]
      exact iff_of_false nofun nofun
    · rw [goto_of_ne _ _ hji]
  refine ⟨fun hzero => absurd hzero hstarted, fun _ => ?_, fun j hj hjrun => ?_,
    fun _ => hinv.tables (.inl hstarted), fun j hj => ?_, fun hentry hinit => ?_, ?_,
    fun j value hj => ?_, fun hpast j hj hne => ?_, fun hdisk => ?_⟩
  · rw [hboot]
    refine ⟨(hinv.late hstarted).1, fun j hj => ?_⟩
    by_cases hji : j = i
    · rw [hji, goto_self]
      simp [Follows]
    · rw [goto_of_ne _ _ hji]
      exact (hinv.late hstarted).2 j hj
  · by_cases hji : j = i
    · exact hji ▸ hlt
    · rw [goto_of_ne _ _ hji] at hjrun
      exact hinv.range j hj hjrun
  · by_cases hji : j = i
    · rw [hji, goto_self] at hj
      simp at hj
    · rw [goto_of_ne _ _ hji] at hj
      exact hinv.paging j hj
  · rw [hboot] at hentry hinit
    exact hinv.booted hentry hinit
  · rw [harrived]
    exact hinv.counter
  · rw [harrived]
    by_cases hji : j = i
    · rw [hji, goto_self] at hj
      cases hj
    · rw [goto_of_ne _ _ hji] at hj
      exact hinv.value j value hj
  · rw [hboot] at hpast
    have hrun := hinv.passed hpast i hlt hi
    rw [hstopped] at hrun
    cases hrun
  · rw [hboot]
    exact hinv.disk hdisk

/-- The booting hart after it has published the counter. -/
theorem Inv.lead (hinv : Inv ncpu boot s) (hstarted : s.started ≠ 0) (hlate : Late pc)
    {disk : Bool} (hpassed : pc = .finishing ∨ pc = .scheduling →
      ∀ i, i < ncpu → i ≠ boot → s.pc i = .scheduling)
    (hdisk : disk = true → pc = .scheduling) :
    Inv ncpu boot ({ s with disk := disk }.goto boot pc) := by
  have harrived : arrived ncpu boot ({ s with disk := disk }.goto boot pc) =
      arrived ncpu boot s := arrived_same fun j hj => by rw [goto_of_ne _ _ hj]
  have hearly : ∀ {pc}, Late pc → pc ≠ .entry ∧ pc ≠ .initialising := by
    rintro pc (⟨j, rfl⟩ | rfl | rfl | rfl) <;> exact ⟨nofun, nofun⟩
  have hbefore := hearly (hinv.late hstarted).1
  have hready : s.paging boot = true := hinv.booted hbefore.1 hbefore.2
  refine ⟨fun hzero => absurd hzero hstarted, fun _ => ⟨by rwa [goto_self], fun j hj => ?_⟩,
    fun j hj hrun => ?_, fun _ => hinv.tables (.inl hstarted), fun j hj => ?_,
    fun _ _ => hready, ?_, fun j value hj => ?_, fun hpast j hj hne => ?_, fun h => ?_⟩
  · rw [goto_of_ne _ _ hj]
    exact (hinv.late hstarted).2 j hj
  · rw [goto_of_ne _ _ hj] at hrun
    exact hinv.range j hj hrun
  · by_cases hjb : j = boot
    · exact hjb ▸ hready
    · rw [goto_of_ne _ _ hjb] at hj
      exact hinv.paging j hj
  · rw [harrived]
    exact hinv.counter
  · rw [harrived]
    by_cases hjb : j = boot
    · rw [hjb, goto_self] at hj
      rw [hj] at hlate
      obtain ⟨_, h⟩ | h | h | h := hlate <;> cases h
    · rw [goto_of_ne _ _ hjb] at hj
      exact hinv.value j value hj
  · rw [goto_self] at hpast
    rw [goto_of_ne _ _ hne]
    exact hpassed hpast j hj hne
  · rw [goto_self]
    exact hdisk h

/-- When the counter is full all the others have arrived. -/
theorem Inv.gathered (hinv : Inv ncpu boot s) (hlt : boot < ncpu) (hfull : s.started = ncpu) :
    ∀ i, i < ncpu → i ≠ boot → s.pc i = .scheduling := by
  have hsub : arrived ncpu boot s ⊆ (Finset.range ncpu).erase boot := fun j hj => by
    rw [mem_arrived] at hj
    exact Finset.mem_erase.mpr ⟨hj.2.1, Finset.mem_range.mpr hj.1⟩
  have hcard : ((Finset.range ncpu).erase boot).card ≤ (arrived ncpu boot s).card := by
    rw [Finset.card_erase_of_mem (Finset.mem_range.mpr hlt), Finset.card_range]
    have := hinv.counter
    omega
  intro i hi hne
  have hmem : i ∈ (Finset.range ncpu).erase boot :=
    Finset.mem_erase.mpr ⟨hne, Finset.mem_range.mpr hi⟩
  rw [← Finset.eq_of_subset_of_card_le hsub hcard, mem_arrived] at hmem
  exact hmem.2.2

theorem inv_reset (ncpu boot : ℕ) : Inv ncpu boot (reset boot) := by
  have hboot : (reset boot).pc boot = .entry := if_pos rfl
  have hother : ∀ j, j ≠ boot → (reset boot).pc j = .stopped := fun j hj => if_neg hj
  have hnone : ∀ j, (reset boot).pc j = .entry ∨ (reset boot).pc j = .stopped := fun j => by
    by_cases hj : j = boot
    · exact .inl (hj ▸ hboot)
    · exact .inr (hother j hj)
  refine ⟨fun _ => ⟨.inl hboot, hother⟩, fun hne => absurd rfl hne,
    fun j hj hrun => absurd (hother j hj) hrun, fun h => ?_, fun j hj => ?_,
    fun hentry => absurd hboot hentry, Nat.zero_le _, fun j value hj => ?_, fun h => ?_, nofun⟩
  · rw [hboot] at h
    exact h.elim (absurd rfl) nofun
  · obtain h | h := hnone j <;> rw [h] at hj <;> simp at hj
  · obtain h | h := hnone j <;> rw [h] at hj <;> cases hj
  · rw [hboot] at h
    simp at h

/-- A step of the booting hart. -/
theorem Inv.step_boot (hlt : boot < ncpu) (hinv : Inv ncpu boot s)
    (hstep : Step ncpu s boot s') : Inv ncpu boot s' := by
  rw [Step, next] at hstep
  by_cases hzero : s.started = 0
  · obtain hpc | hpc | hpc := (hinv.early hzero).1 <;> rw [hpc] at hstep <;>
      obtain rfl := Option.some.inj hstep
    · rw [if_pos hzero]
      exact hinv.prepare hzero (.inr (.inl rfl)) nofun
    · exact hinv.prepare hzero (.inr (.inr rfl)) fun _ => ⟨rfl, Function.update_self _ _ _⟩
    · exact hinv.publish hpc hzero
  · have hdisk : s.disk = true → s.pc boot = .scheduling := hinv.disk
    obtain ⟨j, hpc⟩ | hpc | hpc | hpc := (hinv.late hzero).1 <;> rw [hpc] at hstep hdisk
    · have hnot : ∀ {pc}, Late pc → s.disk = true → pc = .scheduling := fun _ h => by cases hdisk h
      by_cases hj : j < ncpu
      · replace hstep := Option.some.inj ((if_pos hj).symm.trans hstep)
        by_cases hne : j ≠ boot
        · rw [if_pos hne] at hstep
          subst hstep
          have hwake := hinv.wake hzero hne hj
          have hsame : (sbiHartStart s j).started = s.started ∧
              (sbiHartStart s j).disk = s.disk := by
            rw [sbiHartStart]
            split <;> exact ⟨rfl, rfl⟩
          have hlead := @Inv.lead ncpu boot _ (.starting (j + 1)) hwake (hsame.1 ▸ hzero)
            (.inl ⟨_, rfl⟩) (sbiHartStart s j).disk (fun h => by simp at h) fun h => by
              rw [hsame.2] at h
              cases hdisk h
          exact hlead
        · rw [if_neg hne] at hstep
          subst hstep
          exact @Inv.lead ncpu boot s _ hinv hzero (.inl ⟨_, rfl⟩) s.disk (fun h => by simp at h)
            fun h => by cases hdisk h
      · obtain rfl := Option.some.inj ((if_neg hj).symm.trans hstep)
        exact @Inv.lead ncpu boot s _ hinv hzero (.inr (.inl rfl)) s.disk (fun h => by simp at h)
          fun h => by cases hdisk h
    · obtain rfl := Option.some.inj hstep
      split
      · exact hinv
      · rename_i hfull
        exact @Inv.lead ncpu boot s _ hinv hzero (.inr (.inr (.inl rfl))) s.disk
          (fun _ => hinv.gathered hlt (not_not.mp hfull)) fun h => by cases hdisk h
    · obtain rfl := Option.some.inj hstep
      exact hinv.lead hzero (.inr (.inr (.inr rfl))) (fun _ => hinv.passed (.inl hpc)) fun _ => rfl
    · cases hstep

/-- A step of another hart. -/
theorem Inv.step_other (hinv : Inv ncpu boot s) (hi : i ≠ boot) (hstep : Step ncpu s i s') :
    Inv ncpu boot s' := by
  have hrun : s.pc i ≠ .stopped := fun hpc => by
    rw [Step, next, hpc] at hstep
    cases hstep
  have hstarted := hinv.started_ne hi hrun
  rw [Step, next] at hstep
  obtain hpc | hpc | hpc | hpc | hpc | ⟨value, hpc⟩ | hpc := (hinv.late hstarted).2 i hi <;>
    rw [hpc] at hstep
  · cases hstep
  · obtain rfl := Option.some.inj hstep
    rw [if_neg hstarted]
    exact @Inv.advance ncpu boot i s _ hinv hi hrun (hpc ▸ nofun) (.inr (.inr (.inl rfl))) nofun
      s.paging (fun _ => id) (fun h => by simp at h) nofun
  · obtain rfl := Option.some.inj hstep
    rw [if_neg hstarted]
    exact @Inv.advance ncpu boot i s _ hinv hi hrun (hpc ▸ nofun) (.inr (.inr (.inr (.inl rfl))))
      nofun s.paging (fun _ => id) (fun h => by simp at h) nofun
  · obtain rfl := Option.some.inj hstep
    refine hinv.advance hi hrun (hpc ▸ nofun) (.inr (.inr (.inr (.inr (.inl rfl))))) nofun
      (fun j hj => ?_) (fun _ => Function.update_self _ _ _) nofun
    by_cases hji : j = i
    · exact hji ▸ Function.update_self _ _ _
    · rwa [Function.update_of_ne hji]
  · obtain rfl := Option.some.inj hstep
    refine @Inv.advance ncpu boot i s _ hinv hi hrun (hpc ▸ nofun)
      (.inr (.inr (.inr (.inr (.inr (.inl ⟨_, rfl⟩)))))) nofun s.paging (fun _ => id)
      (fun _ => hinv.paging i (.inl hpc)) fun value hvalue => ?_
    obtain rfl := Pc.storing.inj hvalue
    have := hinv.counter
    omega
  · obtain rfl := Option.some.inj hstep
    exact hinv.arrive hi hpc
  · cases hstep

theorem inv_of_reach (hlt : boot < ncpu)
    (hreach : Reach (Step ncpu) Unguarded (reset boot) s) : Inv ncpu boot s :=
  hreach.invariant (inv_reset ncpu boot) fun _ i _ hinv _ hstep => by
    by_cases hi : i = boot
    · exact hinv.step_boot hlt (hi ▸ hstep)
    · exact hinv.step_other hi hstep

/-! ## Runs -/

/-- A hart that loads the counter does so while no other is about to store it. -/
def Alone (s : State) (i : ℕ) : Prop := s.pc i = .loading → ∀ j value, s.pc j ≠ .storing value

/-- No increment has been lost. -/
structure Exact (ncpu boot : ℕ) (s : State) : Prop where
  counter : s.started ≠ 0 → s.started = 1 + (arrived ncpu boot s).card
  value : ∀ i value, s.pc i = .storing value → value = s.started + 1
  one : ∀ i j value value', s.pc i = .storing value → s.pc j = .storing value' → i = j

/-- The counter, the increments in progress and the harts that have arrived stay. -/
structure Quiet (boot : ℕ) (s s' : State) : Prop where
  started : s'.started = s.started
  storing : ∀ j value, s'.pc j = .storing value → s.pc j = .storing value
  scheduling : ∀ j, j ≠ boot → (s'.pc j = .scheduling ↔ s.pc j = .scheduling)

theorem Quiet.refl (boot : ℕ) (s : State) : Quiet boot s s :=
  ⟨rfl, fun _ _ => id, fun _ _ => Iff.rfl⟩

/-- A hart goes on to a place that is not the end of an increment. -/
theorem Quiet.goto {s₁ : State} (hquiet : Quiet boot s s₁) (hstoring : ∀ value, pc ≠ .storing value)
    (hscheduling : i ≠ boot → s₁.pc i ≠ .scheduling ∧ pc ≠ .scheduling) :
    Quiet boot s (s₁.goto i pc) := by
  refine ⟨hquiet.started, fun j value hj => ?_, fun j hj => ?_⟩
  · by_cases hji : j = i
    · rw [hji, goto_self] at hj
      exact absurd hj (hstoring value)
    · rw [goto_of_ne _ _ hji] at hj
      exact hquiet.storing j value hj
  · by_cases hji : j = i
    · rw [← hquiet.scheduling j hj, hji, goto_self]
      obtain ⟨hbefore, hafter⟩ := hscheduling (hji ▸ hj)
      exact iff_of_false hafter hbefore
    · rw [goto_of_ne _ _ hji]
      exact hquiet.scheduling j hj

theorem Quiet.wake (boot : ℕ) (s : State) (i : ℕ) : Quiet boot s (sbiHartStart s i) := by
  rw [sbiHartStart]
  split
  · rename_i hstopped
    exact (Quiet.refl boot s).goto nofun fun _ => ⟨hstopped ▸ nofun, nofun⟩
  · exact .refl boot s

/-- A step outside an increment. -/
theorem quiet_step (hinv : Inv ncpu boot s) (hstep : Step ncpu s i s')
    (hloading : s.pc i ≠ .loading) (hpublishing : s.pc i ≠ .publishing)
    (hstoring : ∀ value, s.pc i ≠ .storing value) : Quiet boot s s' := by
  rw [Step, next] at hstep
  cases hpc : s.pc i with
  | stopped =>
      rw [hpc] at hstep
      cases hstep
  | entry =>
      rw [hpc] at hstep
      obtain rfl := Option.some.inj hstep
      split <;> exact (Quiet.refl boot s).goto nofun fun _ => ⟨hpc ▸ nofun, nofun⟩
  | initialising =>
      rw [hpc] at hstep
      obtain rfl := Option.some.inj hstep
      exact Quiet.goto ⟨rfl, fun _ _ => id, fun _ _ => Iff.rfl⟩ nofun
        fun _ => ⟨hpc ▸ nofun, nofun⟩
  | publishing => exact absurd hpc hpublishing
  | starting j =>
      rw [hpc] at hstep
      by_cases hj : j < ncpu
      · obtain rfl := Option.some.inj ((if_pos hj).symm.trans hstep)
        split
        · rename_i hne
          refine (Quiet.wake boot s j).goto nofun fun hi => ⟨?_, nofun⟩
          rw [Ne, (Quiet.wake boot s j).scheduling i hi, hpc]
          nofun
        · exact (Quiet.refl boot s).goto nofun fun _ => ⟨hpc ▸ nofun, nofun⟩
      · obtain rfl := Option.some.inj ((if_neg hj).symm.trans hstep)
        exact (Quiet.refl boot s).goto nofun fun _ => ⟨hpc ▸ nofun, nofun⟩
  | gathering =>
      rw [hpc] at hstep
      obtain rfl := Option.some.inj hstep
      split
      · exact .refl boot s
      · exact (Quiet.refl boot s).goto nofun fun _ => ⟨hpc ▸ nofun, nofun⟩
  | finishing =>
      rw [hpc] at hstep
      obtain rfl := Option.some.inj hstep
      -- Only the booting hart comes here.
      refine Quiet.goto ⟨rfl, fun _ _ => id, fun _ _ => Iff.rfl⟩ nofun fun hi => ?_
      have hstarted := hinv.started_ne hi (hpc ▸ nofun)
      obtain h | h | h | h | h | ⟨_, h⟩ | h := (hinv.late hstarted).2 i hi <;> rw [hpc] at h <;>
        cases h
  | waiting =>
      rw [hpc] at hstep
      obtain rfl := Option.some.inj hstep
      split
      · exact .refl boot s
      · exact (Quiet.refl boot s).goto nofun fun _ => ⟨hpc ▸ nofun, nofun⟩
  | enabling =>
      rw [hpc] at hstep
      obtain rfl := Option.some.inj hstep
      exact Quiet.goto ⟨rfl, fun _ _ => id, fun _ _ => Iff.rfl⟩ nofun
        fun _ => ⟨hpc ▸ nofun, nofun⟩
  | loading => exact absurd hpc hloading
  | storing value => exact absurd hpc (hstoring value)
  | scheduling =>
      rw [hpc] at hstep
      cases hstep

theorem Inv.boot_not_storing (hinv : Inv ncpu boot s) (value : ℕ) : s.pc boot ≠ .storing value := by
  intro hpc
  by_cases hzero : s.started = 0
  · obtain h | h | h := (hinv.early hzero).1 <;> rw [hpc] at h <;> cases h
  · obtain ⟨_, h⟩ | h | h | h := (hinv.late hzero).1 <;> rw [hpc] at h <;> cases h

/-- Only the booting hart publishes the counter, and once. -/
theorem Inv.publishing_boot (hinv : Inv ncpu boot s) (hpc : s.pc i = .publishing) :
    i = boot ∧ s.started = 0 := by
  have hzero : s.started = 0 := by
    by_contra hne
    by_cases hi : i = boot
    · obtain ⟨_, h⟩ | h | h | h := (hinv.late hne).1 <;> rw [← hi, hpc] at h <;> cases h
    · obtain h | h | h | h | h | ⟨_, h⟩ | h := (hinv.late hne).2 i hi <;> rw [hpc] at h <;> cases h
  refine ⟨?_, hzero⟩
  by_contra hi
  rw [(hinv.early hzero).2 i hi] at hpc
  cases hpc

theorem Exact.quiet (hexact : Exact ncpu boot s) (hquiet : Quiet boot s s') :
    Exact ncpu boot s' := by
  have harrived := @arrived_same ncpu boot s s' hquiet.scheduling
  refine ⟨fun hstarted => ?_, fun j value hj => ?_, fun j k value value' hj hk => ?_⟩
  · rw [hquiet.started] at hstarted ⊢
    rw [harrived]
    exact hexact.counter hstarted
  · rw [hquiet.started]
    exact hexact.value j value (hquiet.storing j value hj)
  · exact hexact.one j k value value' (hquiet.storing j value hj) (hquiet.storing k value' hk)

theorem Exact.step (hinv : Inv ncpu boot s) (hexact : Exact ncpu boot s) (halone : Alone s i)
    (hstep : Step ncpu s i s') : Exact ncpu boot s' := by
  cases hpc : s.pc i with
  | loading =>
      rw [Step, next, hpc] at hstep
      obtain rfl := Option.some.inj hstep
      have hnone := halone hpc
      have hstoring : ∀ j value, (s.goto i (.storing (s.started + 1))).pc j = .storing value →
          j = i ∧ value = s.started + 1 := by
        intro j value hj
        by_cases hji : j = i
        · rw [hji, goto_self] at hj
          exact ⟨hji, (Pc.storing.inj hj).symm⟩
        · rw [goto_of_ne _ _ hji] at hj
          exact absurd hj (hnone j value)
      have harrived : arrived ncpu boot (s.goto i (.storing (s.started + 1))) =
          arrived ncpu boot s := by
        refine arrived_same fun j _ => ?_
        by_cases hji : j = i
        · rw [hji, goto_self, hpc]
          exact iff_of_false nofun nofun
        · rw [goto_of_ne _ _ hji]
      refine ⟨fun hstarted => ?_, fun j value hj => (hstoring j value hj).2,
        fun j k value value' hj hk => ?_⟩
      · rw [harrived]
        exact hexact.counter hstarted
      · rw [(hstoring j value hj).1, (hstoring k value' hk).1]
  | storing value =>
      have hi : i ≠ boot := fun hboot => hinv.boot_not_storing value (hboot ▸ hpc)
      have hrun : s.pc i ≠ .stopped := hpc ▸ nofun
      rw [Step, next, hpc] at hstep
      obtain rfl := Option.some.inj hstep
      have hvalue := hexact.value i value hpc
      have hnone : ∀ j other, ({ s with started := value }.goto i .scheduling).pc j ≠
          .storing other := by
        intro j other hj
        by_cases hji : j = i
        · rw [hji, goto_self] at hj
          cases hj
        · rw [goto_of_ne _ _ hji] at hj
          exact hji (hexact.one j i other value hj hpc)
      refine ⟨fun _ => ?_, fun j other hj => absurd hj (hnone j other),
        fun j k other _ hj => absurd hj (hnone j other)⟩
      rw [hinv.arrived_card hi hpc, ← Nat.add_assoc, ← hexact.counter (hinv.started_ne hi hrun)]
      exact hvalue
  | publishing =>
      obtain ⟨rfl, hzero⟩ := hinv.publishing_boot hpc
      obtain ⟨-, hstopped⟩ := hinv.early hzero
      rw [Step, next, hpc] at hstep
      obtain rfl := Option.some.inj hstep
      have hnone : ∀ j other, ({ s with started := 1 }.goto i (.starting 0)).pc j ≠
          .storing other := by
        intro j other hj
        by_cases hji : j = i
        · rw [hji, goto_self] at hj
          cases hj
        · rw [goto_of_ne _ _ hji, hstopped j hji] at hj
          cases hj
      refine ⟨fun _ => ?_, fun j other hj => absurd hj (hnone j other),
        fun j k other _ hj => absurd hj (hnone j other)⟩
      have hempty : arrived ncpu i ({ s with started := 1 }.goto i (.starting 0)) = ∅ := by
        refine Finset.eq_empty_of_forall_notMem fun j hj => ?_
        obtain ⟨-, hji, hscheduling⟩ := mem_arrived.mp hj
        rw [goto_of_ne _ _ hji, hstopped j hji] at hscheduling
        cases hscheduling
      rw [hempty]
      rfl
  | _ => exact hexact.quiet (quiet_step hinv hstep (hpc ▸ nofun) (hpc ▸ nofun) (hpc ▸ nofun))

theorem exact_of_reach (hlt : boot < ncpu) (hreach : Reach (Step ncpu) Alone (reset boot) s) :
    Inv ncpu boot s ∧ Exact ncpu boot s := by
  induction hreach with
  | refl =>
      refine ⟨inv_reset ncpu boot, fun hne => absurd rfl hne, fun j value hj => ?_,
        fun j k value value' hj => ?_⟩
      all_goals
        by_cases hjb : j = boot
        · cases (if_pos hjb).symm.trans hj
        · cases (if_neg hjb).symm.trans hj
  | @tail before after i _ halone hstep ih =>
      refine ⟨?_, ih.2.step ih.1 halone hstep⟩
      by_cases hi : i = boot
      · exact ih.1.step_boot hlt (hi ▸ hstep)
      · exact ih.1.step_other hi hstep

/-- Nothing moves any more when all the others have arrived and the counter is not full. -/
theorem Inv.stuck (hinv : Inv ncpu boot s) (hgather : s.pc boot = .gathering)
    (hall : ∀ i, i < ncpu → i ≠ boot → s.pc i = .scheduling) (hcounter : s.started ≠ ncpu)
    (hreach : Reach (Step ncpu) Unguarded s s') : s' = s := by
  induction hreach with
  | refl => rfl
  | @tail before after i _ _ hstep ih =>
      subst ih
      by_cases hi : i = boot
      · rw [Step, next, hi, hgather] at hstep
        exact (Option.some.inj ((congrArg some (if_pos hcounter)).symm.trans hstep)).symm
      · have hpc : before.pc i = .stopped ∨ before.pc i = .scheduling := by
          by_cases hstopped : before.pc i = .stopped
          · exact .inl hstopped
          · exact .inr (hall i (hinv.range i hi hstopped) hi)
        rw [Step, next] at hstep
        obtain hpc | hpc := hpc <;> rw [hpc] at hstep <;> cases hstep

/-- When all the others have arrived, the booting hart leaves its loop if no increment was lost, which
is so in every run in which no two increments overlap; else the machine is stuck for ever. -/
theorem gathering_of_reach (hlt : boot < ncpu)
    (hreach : Reach (Step ncpu) Unguarded (reset boot) s) (hgather : s.pc boot = .gathering)
    (hall : ∀ i, i < ncpu → i ≠ boot → s.pc i = .scheduling) :
    (s.started = ncpu → next ncpu s boot = some (s.goto boot .finishing)) ∧
      (s.started ≠ ncpu → ∀ s', Reach (Step ncpu) Unguarded s s' → s' = s) ∧
      (Reach (Step ncpu) Alone (reset boot) s → s.started = ncpu) := by
  have hinv := inv_of_reach hlt hreach
  refine ⟨fun hfull => ?_, fun hcounter s' hreach' => hinv.stuck hgather hall hcounter hreach',
    fun halone => ?_⟩
  · rw [next, hgather]
    exact congrArg some (if_neg (not_not.mpr hfull))
  · have hne : s.started ≠ 0 := fun hzero => by
      obtain h | h | h := (hinv.early hzero).1 <;> rw [hgather] at h <;> cases h
    have harrived : arrived ncpu boot s = (Finset.range ncpu).erase boot := by
      ext i
      rw [mem_arrived, Finset.mem_erase, Finset.mem_range]
      exact ⟨fun h => ⟨h.2.1, h.1⟩, fun h => ⟨h.2, h.1, hall i h.2 h.1⟩⟩
    rw [(exact_of_reach hlt halone).2.counter hne, harrived,
      Finset.card_erase_of_mem (Finset.mem_range.mpr hlt), Finset.card_range]
    omega

end Steps

/-- Hart 0 boots, and harts 1 and 2 come to their increments. -/
def comingUp : List ℕ := [0, 0, 0, 0, 0, 0, 0, 1, 2, 1, 2, 1, 2]

/-- The increments do not overlap, and the booting hart goes on. -/
def together : State :=
  (follow (next 3) (comingUp ++ [1, 1, 2, 2, 0, 0]) (reset 0)).get (by decide +kernel)

/-- Harts 1 and 2 both load the counter before either stores it. -/
def lost : State :=
  (follow (next 3) (comingUp ++ [1, 2, 1, 2]) (reset 0)).get (by decide +kernel)

theorem gathering_lost : lost.started = 2 ∧
    ∀ s', Reach (Step 3) Unguarded lost s' → s' = lost := by
  have hreach : Reach (Step 3) Unguarded (reset 0) lost :=
    reach_of_follow (fun _ _ _ hnext => hnext) (Option.some_get _).symm
  have hstarted : lost.started = 2 := by decide +kernel
  have hall : ∀ i < 3, i ≠ 0 → lost.pc i = .scheduling := by decide +kernel
  obtain ⟨-, hstuck, -⟩ := gathering_of_reach (by decide) hreach (by decide +kernel) hall
  exact ⟨hstarted, hstuck (hstarted ▸ by decide)⟩

end Painting.Startup
