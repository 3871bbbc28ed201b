import Painting.Dev.Virt

/-!
# Completions of disk requests

With at most two requests outstanding there are always three free descriptors for
another one.  The requests pass through the avail ring, the device and the used ring, and
each of these holds what the request has put there, however often the 16-bit
indexes wrap.
-/

namespace Painting.Virt

open Painting.Transition

/-! ## Descriptors -/

/-- The free descriptors. -/
def freeSet (disk : Disk) : Finset ℕ :=
  (Finset.range num).filter fun i => disk.free i = true

section Descriptors

variable {disk : Disk} {i i0 i1 i2 : ℕ}

theorem mem_freeSet : i ∈ freeSet disk ↔ i < num ∧ disk.free i = true := by
  rw [freeSet, Finset.mem_filter, Finset.mem_range]

/-- The descriptor is taken. -/
def Disk.hold (disk : Disk) (i : ℕ) : Disk :=
  { disk with free := Function.update disk.free i false }

/-- The descriptor is zeroed and given back. -/
def Disk.release (disk : Disk) (i : ℕ) : Disk :=
  { disk with
    desc := Function.update disk.desc i ⟨.null, 0, 0, 0⟩
    free := Function.update disk.free i true }

theorem freeSet_hold (disk : Disk) (i : ℕ) : freeSet (disk.hold i) = (freeSet disk).erase i := by
  ext j
  rw [mem_freeSet, Finset.mem_erase, mem_freeSet, Disk.hold]
  by_cases hj : j = i
  · simp [hj]
  · simp [hj]

/-- `alloc_desc` takes a free descriptor when there is one. -/
theorem allocDesc_cases (disk : Disk) : (freeSet disk = ∅ ∧ allocDesc disk = (none, disk)) ∨
    ∃ i ∈ freeSet disk, allocDesc disk = (some i, disk.hold i) ∧
      (freeSet (disk.hold i)).card + 1 = (freeSet disk).card := by
  cases hfind : (List.range num).find? disk.free with
  | none =>
      rw [List.find?_eq_none] at hfind
      refine .inl ⟨Finset.eq_empty_of_forall_notMem fun i hi => ?_, ?_⟩
      · rw [mem_freeSet] at hi
        exact hfind i (List.mem_range.mpr hi.1) hi.2
      · rw [allocDesc, List.find?_eq_none.mpr hfind]
  | some i =>
      have hi : i ∈ freeSet disk := mem_freeSet.mpr
        ⟨List.mem_range.mp (List.mem_of_find?_eq_some hfind), List.find?_some hfind⟩
      refine .inr ⟨i, hi, by rw [allocDesc, hfind]; rfl, ?_⟩
      rw [freeSet_hold, Finset.card_erase_add_one hi]

theorem freeDesc_ok (hrange : i < num) (hheld : disk.free i = false) :
    freeDesc disk i = .ok (disk.release i) := by
  rw [freeDesc, if_neg (Nat.not_le.mpr hrange), hheld]
  rfl

/-- Three free descriptors are enough. -/
theorem alloc3Desc_some (hcard : 3 ≤ (freeSet disk).card) : ∃ i0 i1 i2,
    [i0, i1, i2].Nodup ∧ (∀ i ∈ [i0, i1, i2], i ∈ freeSet disk) ∧
      alloc3Desc disk = .ok (some (i0, i1, i2), ((disk.hold i0).hold i1).hold i2) := by
  obtain ⟨hnone, -⟩ | ⟨i0, hi0, halloc0, hcard0⟩ := allocDesc_cases disk
  · rw [hnone, Finset.card_empty] at hcard
    omega
  obtain ⟨hnone, -⟩ | ⟨i1, hi1, halloc1, hcard1⟩ := allocDesc_cases (disk.hold i0)
  · rw [hnone, Finset.card_empty] at hcard0
    omega
  obtain ⟨hnone, -⟩ | ⟨i2, hi2, halloc2, -⟩ := allocDesc_cases ((disk.hold i0).hold i1)
  · rw [hnone, Finset.card_empty] at hcard1
    omega
  rw [freeSet_hold, Finset.mem_erase] at hi1
  rw [freeSet_hold, freeSet_hold, Finset.mem_erase, Finset.mem_erase] at hi2
  refine ⟨i0, i1, i2, ?_, ?_, ?_⟩
  · simp [hi1.1.symm, hi2.1.symm, hi2.2.1.symm]
  · simp [hi0, hi1.2, hi2.2.2]
  · simp only [alloc3Desc, halloc0, halloc1, halloc2]

/-- With fewer, the ones that were taken are given back. -/
theorem alloc3Desc_none (hcard : (freeSet disk).card < 3) :
    ∃ disk', alloc3Desc disk = .ok (none, disk') := by
  obtain ⟨-, halloc0⟩ | ⟨i0, hi0, halloc0, hcard0⟩ := allocDesc_cases disk
  · exact ⟨disk, by rw [alloc3Desc, halloc0]⟩
  have hfree0 : freeDesc (disk.hold i0) i0 = .ok ((disk.hold i0).release i0) :=
    freeDesc_ok (mem_freeSet.mp hi0).1 (Function.update_self ..)
  obtain ⟨-, halloc1⟩ | ⟨i1, hi1, halloc1, hcard1⟩ := allocDesc_cases (disk.hold i0)
  · exact ⟨_, by simp only [alloc3Desc, halloc0, halloc1, hfree0]; rfl⟩
  obtain ⟨-, halloc2⟩ | ⟨i2, hi2, -, hcard2⟩ := allocDesc_cases ((disk.hold i0).hold i1)
  · have hne : i1 ≠ i0 := by
      rw [freeSet_hold, Finset.mem_erase] at hi1
      exact hi1.1
    have hfree0' : freeDesc ((disk.hold i0).hold i1) i0 =
        .ok (((disk.hold i0).hold i1).release i0) :=
      freeDesc_ok (mem_freeSet.mp hi0).1 (by simp [Disk.hold, hne.symm])
    have hfree1 : freeDesc (((disk.hold i0).hold i1).release i0) i1 =
        .ok ((((disk.hold i0).hold i1).release i0).release i1) :=
      freeDesc_ok (mem_freeSet.mp hi1).1 (by simp [Disk.hold, Disk.release, hne])
    refine ⟨(((disk.hold i0).hold i1).release i0).release i1, ?_⟩
    simp only [alloc3Desc, halloc0, halloc1, halloc2, hfree0', Except.bind, hfree1]
    rfl
  · have hpos := Finset.card_pos.mpr ⟨i2, hi2⟩
    omega

theorem freeChainLoop_next {disk' : Disk} {rounds : ℕ} (hfree : freeDesc disk i = .ok disk') :
    freeChainLoop (rounds + 1) disk i =
      if (disk.desc i).flags &&& descNext ≠ 0 then freeChainLoop rounds disk' (disk.desc i).next
      else .ok disk' := by
  rw [freeChainLoop, hfree]
  rfl

/-- `free_chain` on a chain of three descriptors that are not free. -/
theorem freeChain_three (hnodup : [i0, i1, i2].Nodup)
    (hheld : ∀ i ∈ [i0, i1, i2], i < num ∧ disk.free i = false)
    (h0 : (disk.desc i0).flags &&& descNext ≠ 0 ∧ (disk.desc i0).next = i1)
    (h1 : (disk.desc i1).flags &&& descNext ≠ 0 ∧ (disk.desc i1).next = i2)
    (h2 : (disk.desc i2).flags &&& descNext = 0) :
    freeChain disk i0 = .ok (((disk.release i0).release i1).release i2) := by
  simp only [List.nodup_cons, List.mem_cons, List.not_mem_nil, not_or, or_false] at hnodup
  obtain ⟨⟨h01, h02⟩, h12, -⟩ := hnodup
  simp only [List.mem_cons, List.not_mem_nil, or_false, forall_eq_or_imp, forall_eq] at hheld
  obtain ⟨hheld0, hheld1, hheld2⟩ := hheld
  have hfree0 := freeDesc_ok hheld0.1 hheld0.2
  have hfree1 : freeDesc (disk.release i0) i1 = .ok ((disk.release i0).release i1) :=
    freeDesc_ok hheld1.1 (by simp [Disk.release, Ne.symm h01, hheld1.2])
  have hfree2 : freeDesc ((disk.release i0).release i1) i2 =
      .ok (((disk.release i0).release i1).release i2) :=
    freeDesc_ok hheld2.1 (by simp [Disk.release, Ne.symm h02, Ne.symm h12, hheld2.2])
  have hdesc1 : (disk.release i0).desc i1 = disk.desc i1 := Function.update_of_ne (Ne.symm h01) ..
  have hdesc2 : ((disk.release i0).release i1).desc i2 = disk.desc i2 :=
    (Function.update_of_ne (Ne.symm h12) ..).trans (Function.update_of_ne (Ne.symm h02) ..)
  calc freeChain disk i0
      = freeChainLoop 8 (disk.release i0) i1 := by
        rw [freeChain, freeChainLoop_next hfree0, if_pos h0.1, h0.2]
        rfl
    _ = freeChainLoop 7 ((disk.release i0).release i1) i2 := by
        rw [freeChainLoop_next hfree1, hdesc1, if_pos h1.1, h1.2]
    _ = .ok (((disk.release i0).release i1).release i2) := by
        rw [freeChainLoop_next hfree2, hdesc2, if_neg (not_not.mpr h2)]

end Descriptors

/-! ## Rings -/

/-- From the index `first` on, which wraps at 16 bits, the ring holds the heads up to `idx`. -/
structure RingHolds (ring : ℕ → ℕ) (idx first : ℕ) (heads : List ℕ) : Prop where
  upto : idx = (first + heads.length) % 2 ^ 16
  small : first < 2 ^ 16
  slot : ∀ k head, heads[k]? = some head → ring ((first + k) % num) = head

section Rings

variable {ring : ℕ → ℕ} {idx first head : ℕ} {heads : List ℕ}

/-- The next slot is none of those in use. -/
theorem RingHolds.slot_ne (hring : RingHolds ring idx first heads) (hlength : heads.length < num) {k : ℕ}
    (hk : k < heads.length) : (first + k) % num ≠ idx % num := by
  have hidx := hring.upto
  rw [num] at hlength ⊢
  omega

theorem RingHolds.push (hring : RingHolds ring idx first heads) (hlength : heads.length < num) :
    RingHolds (Function.update ring (idx % num) head) ((idx + 1) % 2 ^ 16) first (heads ++ [head]) := by
  have hidx := hring.upto
  refine ⟨?_, hring.small, fun k other hk => ?_⟩
  · rw [List.length_append, List.length_singleton]
    omega
  · obtain hlt | heq | hgt := lt_trichotomy k heads.length
    · rw [List.getElem?_append_left hlt] at hk
      rw [Function.update_of_ne (hring.slot_ne hlength hlt)]
      exact hring.slot k other hk
    · have hslot : (first + k) % num = idx % num := by
        rw [num]
        omega
      rw [heq, List.getElem?_concat_length] at hk
      rw [hslot, Function.update_self]
      exact Option.some.inj hk
    · rw [List.getElem?_eq_none (by simpa using hgt)] at hk
      cases hk

/-- The first entry of a ring that is not empty. -/
theorem RingHolds.pop (hring : RingHolds ring idx first (head :: heads)) (hlength : heads.length < num) :
    first ≠ idx ∧ ring (first % num) = head ∧ RingHolds ring idx ((first + 1) % 2 ^ 16) heads := by
  have hidx := hring.upto
  have hfirst := hring.small
  rw [List.length_cons] at hidx
  rw [num] at hlength
  refine ⟨by omega, hring.slot 0 head rfl, by omega, Nat.mod_lt _ (by omega), fun k other hk => ?_⟩
  have hslot : ((first + 1) % 2 ^ 16 + k) % num = (first + (k + 1)) % num := by
    rw [num]
    omega
  rw [hslot]
  exact hring.slot (k + 1) other hk

theorem RingHolds.eq_of_nil (hring : RingHolds ring idx first []) : first = idx := by
  have hidx := hring.upto
  rw [List.length_nil, Nat.add_zero, Nat.mod_eq_of_lt hring.small] at hidx
  exact hidx.symm

end Rings

/-! ## The invariant -/

/-- The descriptors of a request. -/
def Waiter.chain (w : Waiter) : List ℕ := [w.i0, w.i1, w.i2]

/-- A request as the device reads it. -/
def Waiter.taken (w : Waiter) : Taken := ⟨w.i0, w.req, w.b, w.i0⟩

/-- The descriptors of all requests. -/
def chains (waiters : List Waiter) : List ℕ := waiters.flatMap Waiter.chain

/-- The descriptors and the header of a request are as `virtio_disk_rw` has left them. -/
structure Formatted (disk : Disk) (w : Waiter) : Prop where
  desc0 : disk.desc w.i0 = ⟨.op w.i0, 16, descNext, w.i1⟩
  desc1 : disk.desc w.i1 = ⟨.data w.b, 512, w.flags, w.i2⟩
  desc2 : disk.desc w.i2 = ⟨.status w.i0, 1, descWrite, 0⟩
  header : disk.ops w.i0 = w.req

/-- Where the requests are: in the avail ring, in the device, in the used ring, or done. -/
structure Phases where
  queued : List Waiter
  busy : List Waiter
  unseen : List Waiter
  done : List Waiter

/-- The requests whose buffers the disk owns. -/
def Phases.active (p : Phases) : List Waiter := p.queued ++ p.busy ++ p.unseen

/-- The requests hold the descriptors that are not free. -/
structure Held (disk : Disk) (waiters : List Waiter) : Prop where
  nodup : (chains waiters).Nodup
  range : ∀ i ∈ chains waiters, i < num
  free : ∀ i < num, disk.free i = true ↔ i ∉ chains waiters
  formatted : ∀ w ∈ waiters, Formatted disk w

structure Inv (s : State) (p : Phases) : Prop where
  held : Held s.disk s.waiters
  few : s.waiters.length ≤ 2
  buffers : (s.waiters.map Waiter.b).Nodup
  perm : s.waiters.Perm (p.active ++ p.done)
  info : ∀ w ∈ p.active, s.disk.infoB w.i0 = some w.b
  flag : ∀ b, s.bufDisk b = true ↔ ∃ w ∈ p.active, w.b = b
  avail : RingHolds s.disk.availRing s.disk.availIdx s.lastAvail (p.queued.map Waiter.i0)
  working : s.working = p.busy.map Waiter.taken
  used : RingHolds s.disk.usedRing s.disk.usedRingIdx s.disk.usedIdx (p.unseen.map Waiter.i0)
  status : ∀ w ∈ p.unseen, s.disk.infoStatus w.i0 = 0
  submitted : ∀ b, s.submitted.count b = s.cleared.count b + (p.active.map Waiter.b).count b
  completed : ∀ b, s.completed.count b = s.cleared.count b + (p.unseen.map Waiter.b).count b

theorem inv_boot : Inv boot ⟨[], [], [], []⟩ := by
  refine ⟨⟨List.nodup_nil, nofun, fun i hi => ?_, nofun⟩, Nat.zero_le 2, List.nodup_nil,
    List.Perm.nil, nofun, fun b => ?_, ⟨rfl, by decide, nofun⟩, rfl, ⟨rfl, by decide, nofun⟩,
    nofun, fun _ => rfl, fun _ => rfl⟩
  · exact iff_of_true (decide_eq_true hi) List.not_mem_nil
  · exact iff_of_false nofun (by simp [Phases.active])

section Requests

variable {disk : Disk} {waiters : List Waiter} {w w' : Waiter} {i : ℕ}

theorem mem_chains : i ∈ chains waiters ↔ ∃ w ∈ waiters, i ∈ w.chain := List.mem_flatMap

theorem Waiter.i0_mem (w : Waiter) : w.i0 ∈ w.chain := List.mem_cons_self

theorem length_chains (waiters : List Waiter) : (chains waiters).length = 3 * waiters.length := by
  induction waiters with
  | nil => rfl
  | cons w ws ih =>
      rw [chains, List.flatMap_cons, List.length_append, List.length_cons]
      change 3 + (chains ws).length = _
      omega

/-- Each request holds three descriptors. -/
theorem Held.card_free (hheld : Held disk waiters) :
    (freeSet disk).card + 3 * waiters.length = num := by
  have hfree : freeSet disk = Finset.range num \ (chains waiters).toFinset := by
    ext i
    rw [mem_freeSet, Finset.mem_sdiff, Finset.mem_range, List.mem_toFinset]
    exact and_congr_right fun hi => hheld.free i hi
  have hsubset : (chains waiters).toFinset ⊆ Finset.range num := fun i hi =>
    Finset.mem_range.mpr (hheld.range i (List.mem_toFinset.mp hi))
  rw [hfree, ← length_chains, ← List.toFinset_card_of_nodup hheld.nodup,
    Finset.card_sdiff_add_card_eq_card hsubset, Finset.card_range]

/-- Two requests have no descriptor in common. -/
theorem Held.apart (hheld : Held disk waiters) (hw : w ∈ waiters) (hw' : w' ∈ waiters)
    (hi : i ∈ w.chain) (hi' : i ∈ w'.chain) : w = w' := by
  by_contra hne
  have hsymm : Std.Symm (Function.onFun List.Disjoint Waiter.chain) := ⟨fun _ _ hd => hd.symm⟩
  exact (List.nodup_flatMap.mp hheld.nodup).2.forall hw hw' hne hi hi'

theorem Held.chain_nodup (hheld : Held disk waiters) (hw : w ∈ waiters) : w.chain.Nodup :=
  (List.nodup_flatMap.mp hheld.nodup).1 w hw

theorem Held.not_free (hheld : Held disk waiters) (hw : w ∈ waiters) (hi : i ∈ w.chain) :
    i < num ∧ disk.free i = false := by
  have hmem := mem_chains.mpr ⟨w, hw, hi⟩
  have hrange := hheld.range i hmem
  refine ⟨hrange, ?_⟩
  rw [← Bool.not_eq_true, hheld.free i hrange]
  exact not_not.mpr hmem

/-- A change elsewhere. -/
theorem Held.congr (hheld : Held disk waiters) {disk' : Disk} (hdesc : disk'.desc = disk.desc)
    (hfree : disk'.free = disk.free) (hops : disk'.ops = disk.ops) : Held disk' waiters := by
  refine ⟨hheld.nodup, hheld.range, fun i hi => ?_, fun w hw => ?_⟩
  · rw [hfree]
    exact hheld.free i hi
  · have hw := hheld.formatted w hw
    exact ⟨hdesc ▸ hw.desc0, hdesc ▸ hw.desc1, hdesc ▸ hw.desc2, hops ▸ hw.header⟩

/-- The device reads what the request has put into its descriptors. -/
theorem Formatted.readChain (hw : Formatted disk w) : readChain disk w.i0 = some w.taken := by
  have hflags : w.flags &&& descNext ≠ 0 := by
    rw [Waiter.flags]
    split <;> decide
  simp only [Virt.readChain, hw.desc0, hw.desc1, hw.desc2, hw.header]
  exact if_pos ⟨by decide, hflags⟩

end Requests

/-! ## Steps -/

section Steps

variable {s s' : State} {p : Phases}

theorem Inv.mem_waiters (hinv : Inv s p) {w : Waiter} (hw : w ∈ p.active) : w ∈ s.waiters :=
  hinv.perm.mem_iff.mpr (List.mem_append_left _ hw)

theorem Inv.length_le (hinv : Inv s p) : p.active.length + p.done.length ≤ 2 := by
  have hlength := hinv.perm.length_eq
  rw [List.length_append] at hlength
  have hfew := hinv.few
  omega

theorem Inv.length_active (hinv : Inv s p) :
    p.queued.length + p.busy.length + p.unseen.length ≤ 2 := by
  have hle := hinv.length_le
  simp only [Phases.active, List.length_append] at hle
  omega

/-- Requests are told apart by their buffers. -/
theorem Inv.eq_of_b (hinv : Inv s p) {w w' : Waiter} (hw : w ∈ s.waiters) (hw' : w' ∈ s.waiters)
    (hb : w.b = w'.b) : w = w' :=
  List.inj_on_of_nodup_map hinv.buffers hw hw' hb

/-- The descriptors of a new request are taken and formatted, and the others stay as they are. -/
theorem Held.submit {disk : Disk} {waiters : List Waiter} {w : Waiter}
    (hheld : Held disk waiters) (hnodup : w.chain.Nodup) (hfree : ∀ i ∈ w.chain, i ∈ freeSet disk) :
    Held (format (((disk.hold w.i0).hold w.i1).hold w.i2) w) (waiters ++ [w]) := by
  have hchains : chains (waiters ++ [w]) = chains waiters ++ w.chain := by
    rw [chains, List.flatMap_append, List.flatMap_singleton]
    rfl
  have hout : ∀ i ∈ w.chain, i ∉ chains waiters := fun i hi => by
    obtain ⟨hrange, hfree⟩ := mem_freeSet.mp (hfree i hi)
    exact (hheld.free i hrange).mp hfree
  refine ⟨?_, fun i hi => ?_, fun i hi => ?_, fun w' hw' => ?_⟩
  · rw [hchains]
    exact List.nodup_append'.mpr ⟨hheld.nodup, hnodup, fun i hi hi' => hout i hi' hi⟩
  · rw [hchains] at hi
    obtain hi | hi := List.mem_append.mp hi
    · exact hheld.range i hi
    · exact (mem_freeSet.mp (hfree i hi)).1
  · have hheld' := hheld.free i hi
    rw [hchains, List.mem_append]
    simp only [format, Disk.hold, Function.update_apply, Waiter.chain, List.mem_cons,
      List.not_mem_nil, or_false]
    split_ifs <;> simp_all
  · simp only [Waiter.chain, List.nodup_cons, List.mem_cons, List.not_mem_nil, not_or,
      or_false] at hnodup
    obtain ⟨⟨h01, h02⟩, h12, -⟩ := hnodup
    obtain hw' | hw' := List.mem_append.mp hw'
    · have hformat := hheld.formatted w' hw'
      have hne : ∀ i ∈ w'.chain, i ≠ w.i0 ∧ i ≠ w.i1 ∧ i ≠ w.i2 := by
        intro i hi
        have hmem : i ∈ chains waiters := mem_chains.mpr ⟨w', hw', hi⟩
        refine ⟨fun heq => ?_, fun heq => ?_, fun heq => ?_⟩
        all_goals exact hout i (by simp [Waiter.chain, heq]) hmem
      obtain ⟨h0, h1, h2⟩ := hne w'.i0 (by simp [Waiter.chain])
      obtain ⟨h0', h1', h2'⟩ := hne w'.i1 (by simp [Waiter.chain])
      obtain ⟨h0'', h1'', h2''⟩ := hne w'.i2 (by simp [Waiter.chain])
      constructor
      · simpa [format, Disk.hold, h0, h1, h2] using hformat.desc0
      · simpa [format, Disk.hold, h0', h1', h2'] using hformat.desc1
      · simpa [format, Disk.hold, h0'', h1'', h2''] using hformat.desc2
      · simpa [format, Disk.hold, h0] using hformat.header
    · obtain rfl := List.mem_singleton.mp hw'
      constructor
      · simp [format, h01, h02]
      · simp [format, h12]
      · simp [format]
      · simp [format]

/-- The new request has the first free descriptors. -/
theorem Inv.submit (hinv : Inv s p) {b blockno : ℕ} {write : Bool}
    (hbuffer : HoldsBuffer s (.submit b blockno write)) (hroom : s.waiters.length < 2) :
    ∃ s' p', next s (.submit b blockno write) = some (.ok s') ∧ Inv s' p' := by
  have hcard : 3 ≤ (freeSet s.disk).card := by
    have hfree := hinv.held.card_free
    rw [num] at hfree
    omega
  obtain ⟨i0, i1, i2, hnodup, hfree, halloc⟩ := alloc3Desc_some hcard
  let w : Waiter := ⟨b, write, blockno, i0, i1, i2⟩
  have hnext : next s (.submit b blockno write) = some (.ok { s with
      disk := format (((s.disk.hold i0).hold i1).hold i2) w
      bufDisk := Function.update s.bufDisk b true
      waiters := s.waiters ++ [w]
      submitted := b :: s.submitted }) := by
    rw [next, halloc]
    rfl
  have hother : ∀ w' ∈ p.active, w'.i0 ≠ i0 := by
    intro w' hw' heq
    obtain ⟨hrange, hfree⟩ := mem_freeSet.mp (hfree i0 List.mem_cons_self)
    exact (hinv.held.free i0 hrange).mp hfree
      (mem_chains.mpr ⟨w', hinv.mem_waiters hw', heq ▸ w'.i0_mem⟩)
  have hactive : (p.queued ++ [w] ++ p.busy ++ p.unseen).Perm (w :: p.active) := by
    rw [List.perm_iff_count]
    intro w'
    simp only [Phases.active, List.count_append, List.count_cons, List.count_nil]
    omega
  refine ⟨_, ⟨p.queued ++ [w], p.busy, p.unseen, p.done⟩, hnext, hinv.held.submit hnodup hfree, ?_,
    ?_, ?_, fun w' hw' => ?_, fun b' => ?_, ?_, hinv.working, hinv.used, fun w' hw' => ?_,
    fun b' => ?_, hinv.completed⟩
  · rw [List.length_append, List.length_singleton]
    omega
  · rw [List.map_append]
    refine List.nodup_append'.mpr ⟨hinv.buffers, List.nodup_singleton _, ?_⟩
    rw [List.map_singleton, List.disjoint_singleton]
    intro hmem
    obtain ⟨w', hw', hb⟩ := List.mem_map.mp hmem
    exact hbuffer w' hw' hb
  · rw [List.perm_iff_count]
    intro w'
    have hcount := hinv.perm.count_eq w'
    simp only [Phases.active, List.count_append, List.count_cons, List.count_nil] at hcount ⊢
    omega
  · obtain rfl | hw' := List.mem_cons.mp (hactive.mem_iff.mp hw')
    · exact Function.update_self ..
    · exact (Function.update_of_ne (hother w' hw') ..).trans (hinv.info w' hw')
  · dsimp only
    rw [Function.update_apply]
    split
    · rename_i heq
      exact iff_of_true rfl ⟨w, hactive.mem_iff.mpr List.mem_cons_self, heq.symm⟩
    · rename_i hne
      rw [hinv.flag b']
      constructor
      · rintro ⟨w', hw', hb⟩
        exact ⟨w', hactive.mem_iff.mpr (List.mem_cons_of_mem w hw'), hb⟩
      · rintro ⟨w', hw', hb⟩
        obtain rfl | hw' := List.mem_cons.mp (hactive.mem_iff.mp hw')
        · exact absurd hb.symm hne
        · exact ⟨w', hw', hb⟩
  · have hlength := hinv.length_active
    rw [List.map_append]
    exact hinv.avail.push (by rw [List.length_map, num]; omega)
  · have hw : w' ∈ p.active := List.mem_append_right _ hw'
    exact (Function.update_of_ne (hother w' hw) ..).trans (hinv.status w' hw')
  · have hcount := (hactive.map Waiter.b).count_eq b'
    have hsubmitted := hinv.submitted b'
    rw [List.map_cons, List.count_cons] at hcount
    change (b :: s.submitted).count b' =
      s.cleared.count b' + ((p.queued ++ [w] ++ p.busy ++ p.unseen).map Waiter.b).count b'
    rw [List.count_cons, hcount, hsubmitted]
    exact Nat.add_assoc ..

/-- A request moves on from one place to the next; the driver and the buffers see nothing. -/
theorem Inv.advance (hinv : Inv s p) {queued busy unseen : List Waiter}
    (hactive : (queued ++ busy ++ unseen).Perm p.active) {disk : Disk} {lastAvail : ℕ}
    {working : List Taken} {completed : List ℕ} (hdesc : disk.desc = s.disk.desc)
    (hfree : disk.free = s.disk.free) (hops : disk.ops = s.disk.ops)
    (hinfo : disk.infoB = s.disk.infoB)
    (havail : RingHolds disk.availRing disk.availIdx lastAvail (queued.map Waiter.i0))
    (hworking : working = busy.map Waiter.taken)
    (hused : RingHolds disk.usedRing disk.usedRingIdx disk.usedIdx (unseen.map Waiter.i0))
    (hstatus : ∀ w ∈ unseen, disk.infoStatus w.i0 = 0)
    (hcompleted : ∀ b, completed.count b = s.cleared.count b + (unseen.map Waiter.b).count b) :
    Inv { s with
      disk := disk
      lastAvail := lastAvail
      working := working
      completed := completed } ⟨queued, busy, unseen, p.done⟩ where
  held := hinv.held.congr hdesc hfree hops
  few := hinv.few
  buffers := hinv.buffers
  perm := hinv.perm.trans (hactive.symm.append_right p.done)
  info := fun w hw => by
    rw [hinfo]
    exact hinv.info w (hactive.mem_iff.mp hw)
  flag := fun b => (hinv.flag b).trans
    ⟨fun ⟨w, hw, hb⟩ => ⟨w, hactive.mem_iff.mpr hw, hb⟩,
      fun ⟨w, hw, hb⟩ => ⟨w, hactive.mem_iff.mp hw, hb⟩⟩
  avail := havail
  working := hworking
  used := hused
  status := hstatus
  submitted := fun b => (hinv.submitted b).trans
    (congrArg (s.cleared.count b + ·) ((hactive.map Waiter.b).count_eq b).symm)
  completed := hcompleted

/-- The device takes the request that has waited longest. -/
theorem Inv.take (hinv : Inv s p) {r : Except Panic State} (hnext : next s .take = some r) :
    ∃ s' p', r = .ok s' ∧ Inv s' p' := by
  have hlength := hinv.length_active
  have havail := hinv.avail
  simp only [next] at hnext
  cases hqueued : p.queued with
  | nil =>
      rw [hqueued] at havail
      rw [if_pos havail.eq_of_nil] at hnext
      cases hnext
  | cons w rest =>
      have hw : w ∈ p.active := by
        simp [Phases.active, hqueued]
      rw [hqueued] at havail hlength
      obtain ⟨hne, hhead, hrest⟩ := havail.pop (by
        rw [List.length_map, num]
        rw [List.length_cons] at hlength
        omega)
      have hread := (hinv.held.formatted w (hinv.mem_waiters hw)).readChain
      rw [if_neg hne, hhead, hread] at hnext
      obtain rfl := Option.some.inj hnext
      refine ⟨_, ⟨rest, p.busy ++ [w], p.unseen, p.done⟩, rfl, ?_⟩
      have hactive : (rest ++ (p.busy ++ [w]) ++ p.unseen).Perm p.active := by
        rw [Phases.active, hqueued, ← List.append_assoc]
        exact (List.perm_append_singleton w (rest ++ p.busy)).append_right p.unseen
      refine hinv.advance hactive rfl rfl rfl rfl hrest ?_ hinv.used hinv.status hinv.completed
      rw [hinv.working, List.map_append]
      rfl

/-- The device completes a request. -/
theorem Inv.complete (hinv : Inv s p) {k : ℕ} {r : Except Panic State}
    (hnext : next s (.complete k) = some r) : ∃ s' p', r = .ok s' ∧ Inv s' p' := by
  have hlength := hinv.length_active
  simp only [next, hinv.working, List.getElem?_map, Option.map_map, Option.map_eq_some_iff] at hnext
  obtain ⟨w, hw, rfl⟩ := hnext
  have herase := (List.getElem?_eq_some_iff.mp hw)
  obtain ⟨hk, rfl⟩ := herase
  have hbusy : p.busy.Perm (p.busy[k] :: p.busy.eraseIdx k) :=
    (List.getElem_cons_eraseIdx_perm hk).symm
  refine ⟨_, ⟨p.queued, p.busy.eraseIdx k, p.unseen ++ [p.busy[k]], p.done⟩, rfl, ?_⟩
  have hactive : (p.queued ++ p.busy.eraseIdx k ++ (p.unseen ++ [p.busy[k]])).Perm p.active := by
    rw [List.perm_iff_count]
    intro w
    have hcount := hbusy.count_eq w
    simp only [Phases.active, List.count_append, List.count_cons, List.count_nil] at hcount ⊢
    omega
  refine hinv.advance hactive rfl rfl rfl rfl hinv.avail ?_ ?_ (fun w hw => ?_) (fun b => ?_)
  · exact List.eraseIdx_map ..
  · rw [List.map_append]
    refine hinv.used.push ?_
    rw [List.length_map, num]
    omega
  · dsimp only
    rw [Function.update_apply]
    split
    · rfl
    · rename_i hne
      obtain hw | hw := List.mem_append.mp hw
      · exact hinv.status w hw
      · exact absurd (congrArg Waiter.i0 (List.mem_singleton.mp hw)) hne
  · change (p.busy[k].b :: s.completed).count b =
      s.cleared.count b + ((p.unseen ++ [p.busy[k]]).map Waiter.b).count b
    rw [List.map_append, List.count_append, List.count_cons, hinv.completed b, List.map_singleton,
      List.count_singleton]
    omega

/-- The buffers of the requests that the disk owns are told apart. -/
theorem Inv.nodup_active (hinv : Inv s p) : (p.active.map Waiter.b).Nodup := by
  have hall := (hinv.perm.map Waiter.b).nodup_iff.mp hinv.buffers
  rw [List.map_append] at hall
  exact hall.of_append_left

/-- The interrupt handler sees the request that was completed first. -/
theorem Inv.intr (hinv : Inv s p) {r : Except Panic State} (hnext : next s .intr = some r) :
    ∃ s' p', r = .ok s' ∧ Inv s' p' := by
  have hlength := hinv.length_active
  have hused := hinv.used
  simp only [next] at hnext
  cases hunseen : p.unseen with
  | nil =>
      rw [hunseen] at hused
      rw [if_pos hused.eq_of_nil] at hnext
      cases hnext
  | cons w rest =>
      have hmem : w ∈ p.unseen := hunseen ▸ List.mem_cons_self
      have hw : w ∈ p.active := List.mem_append_right _ hmem
      rw [hunseen] at hused hlength
      obtain ⟨hne, hhead, hrest⟩ := hused.pop (by
        rw [List.length_map, num]
        rw [List.length_cons] at hlength
        omega)
      rw [if_neg hne, hhead, hinv.status w hmem, hinv.info w hw] at hnext
      obtain rfl := Option.some.inj hnext
      refine ⟨_, ⟨p.queued, p.busy, rest, p.done ++ [w]⟩, rfl, ?_⟩
      have hactive : p.active.Perm (w :: (p.queued ++ p.busy ++ rest)) := by
        rw [Phases.active, hunseen]
        exact List.perm_middle
      have hb : ∀ w' ∈ p.queued ++ p.busy ++ rest, w'.b ≠ w.b := by
        intro w' hw' heq
        have hnodup := (hactive.map Waiter.b).nodup_iff.mp hinv.nodup_active
        exact (List.nodup_cons.mp hnodup).1 (heq ▸ List.mem_map_of_mem hw')
      refine ⟨hinv.held.congr rfl rfl rfl, hinv.few, hinv.buffers, ?_, fun w' hw' => ?_, fun b => ?_,
        hinv.avail, hinv.working, hrest, fun w' hw' => ?_, fun b => ?_, fun b => ?_⟩
      · refine hinv.perm.trans ?_
        rw [List.perm_iff_count]
        intro w'
        have hcount := hactive.count_eq w'
        simp only [Phases.active, List.count_append, List.count_cons, List.count_nil] at hcount ⊢
        omega
      · exact hinv.info w' (hactive.mem_iff.mpr (List.mem_cons_of_mem w hw'))
      · dsimp only
        rw [Function.update_apply]
        split
        · rename_i heq
          exact iff_of_false nofun fun ⟨w', hw', hb'⟩ => hb w' hw' (hb'.trans heq)
        · rename_i hother
          rw [hinv.flag b]
          constructor
          · rintro ⟨w', hw', rfl⟩
            obtain rfl | hw' := List.mem_cons.mp (hactive.mem_iff.mp hw')
            · exact absurd rfl hother
            · exact ⟨w', hw', rfl⟩
          · rintro ⟨w', hw', hb'⟩
            exact ⟨w', hactive.mem_iff.mpr (List.mem_cons_of_mem w hw'), hb'⟩
      · exact hinv.status w' (hunseen ▸ List.mem_cons_of_mem w hw')
      · have hcount := (hactive.map Waiter.b).count_eq b
        have hsubmitted := hinv.submitted b
        rw [List.map_cons, List.count_cons] at hcount
        change s.submitted.count b =
          (w.b :: s.cleared).count b + ((p.queued ++ p.busy ++ rest).map Waiter.b).count b
        rw [List.count_cons]
        omega
      · have hcompleted := hinv.completed b
        rw [hunseen, List.map_cons, List.count_cons] at hcompleted
        change s.completed.count b = (w.b :: s.cleared).count b + (rest.map Waiter.b).count b
        rw [List.count_cons]
        omega

/-- The descriptors of a request that leaves are free again, and the others stay as they are. -/
theorem Held.release {disk : Disk} {waiters rest : List Waiter} {w : Waiter}
    (hheld : Held disk waiters) (hrest : waiters.Perm (w :: rest)) :
    freeChain disk w.i0 = .ok (((disk.release w.i0).release w.i1).release w.i2) ∧
      Held (((disk.release w.i0).release w.i1).release w.i2) rest := by
  have hw : w ∈ waiters := hrest.mem_iff.mpr List.mem_cons_self
  have hformat := hheld.formatted w hw
  have hchains : (chains waiters).Perm (w.chain ++ chains rest) := by
    have hperm := hrest.flatMap_right Waiter.chain
    rwa [List.flatMap_cons] at hperm
  obtain ⟨-, hnodup, hdisjoint⟩ := List.nodup_append'.mp (hchains.nodup_iff.mp hheld.nodup)
  have hflags : w.flags &&& descNext ≠ 0 := by
    rw [Waiter.flags]
    split <;> decide
  have hdesc : ∀ i, i ∉ w.chain →
      (((disk.release w.i0).release w.i1).release w.i2).desc i = disk.desc i := by
    intro i hi
    simp only [Waiter.chain, List.mem_cons, List.not_mem_nil, or_false, not_or] at hi
    simp only [Disk.release, Function.update_of_ne hi.1, Function.update_of_ne hi.2.1,
      Function.update_of_ne hi.2.2]
  have hfree : ∀ i, (((disk.release w.i0).release w.i1).release w.i2).free i = true ↔
      i ∈ w.chain ∨ disk.free i = true := by
    intro i
    simp only [Disk.release, Function.update_apply, Waiter.chain, List.mem_cons, List.not_mem_nil,
      or_false]
    split_ifs <;> simp_all
  refine ⟨freeChain_three (hheld.chain_nodup hw) (fun i hi => hheld.not_free hw hi) ?_ ?_ ?_,
    hnodup, fun i hi => ?_, fun i hi => ?_, fun w' hw' => ?_⟩
  · rw [hformat.desc0]
    exact ⟨(by decide : descNext &&& descNext ≠ 0), rfl⟩
  · rw [hformat.desc1]
    exact ⟨hflags, rfl⟩
  · rw [hformat.desc2]
    exact (by decide : descWrite &&& descNext = 0)
  · exact hheld.range i (hchains.mem_iff.mpr (List.mem_append_right _ hi))
  · rw [hfree, hheld.free i hi, hchains.mem_iff, List.mem_append]
    constructor
    · rintro (hmem | hout)
      · exact hdisjoint hmem
      · exact fun hmem => hout (.inr hmem)
    · intro hout
      by_cases hmem : i ∈ w.chain
      · exact .inl hmem
      · exact .inr (not_or.mpr ⟨hmem, hout⟩)
  · have hformat' := hheld.formatted w' (hrest.mem_iff.mpr (List.mem_cons_of_mem w hw'))
    have hout : ∀ i ∈ w'.chain, i ∉ w.chain := fun i hi hmem =>
      hdisjoint hmem (mem_chains.mpr ⟨w', hw', hi⟩)
    exact ⟨(hdesc w'.i0 (hout _ (by simp [Waiter.chain]))).trans hformat'.desc0,
      (hdesc w'.i1 (hout _ (by simp [Waiter.chain]))).trans hformat'.desc1,
      (hdesc w'.i2 (hout _ (by simp [Waiter.chain]))).trans hformat'.desc2, hformat'.header⟩

/-- A process whose request is done frees its descriptors. -/
theorem Inv.cleanup (hinv : Inv s p) {k : ℕ} {r : Except Panic State}
    (hnext : next s (.cleanup k) = some r) : ∃ s' p', r = .ok s' ∧ Inv s' p' := by
  simp only [next, Option.bind_eq_some_iff] at hnext
  obtain ⟨w, hw, hnext⟩ := hnext
  obtain ⟨hk, rfl⟩ := List.getElem?_eq_some_iff.mp hw
  split at hnext
  · cases hnext
  · rename_i hclear
    set w := s.waiters[k]
    have hwaiters : s.waiters.Perm (w :: s.waiters.eraseIdx k) :=
      (List.getElem_cons_eraseIdx_perm hk).symm
    have hmem : w ∈ s.waiters := List.getElem_mem hk
    have hnot : w ∉ p.active := fun hactive => hclear ((hinv.flag w.b).mpr ⟨w, hactive, rfl⟩)
    have hdone : w ∈ p.done :=
      (List.mem_append.mp (hinv.perm.mem_iff.mp hmem)).resolve_left hnot
    have hheld : Held { s.disk with infoB := Function.update s.disk.infoB w.i0 none } s.waiters :=
      hinv.held.congr rfl rfl rfl
    obtain ⟨hfree, hheld'⟩ := hheld.release hwaiters
    rw [hfree] at hnext
    obtain rfl := Option.some.inj hnext
    refine ⟨_, ⟨p.queued, p.busy, p.unseen, p.done.erase w⟩, rfl, hheld', ?_, ?_, ?_,
      fun w' hw' => ?_, hinv.flag, hinv.avail, hinv.working, hinv.used, hinv.status,
      hinv.submitted, hinv.completed⟩
    · have hfew := hinv.few
      have hlength := List.length_eraseIdx_le s.waiters k
      change (s.waiters.eraseIdx k).length ≤ 2
      omega
    · exact (List.nodup_cons.mp ((hwaiters.map Waiter.b).nodup_iff.mp hinv.buffers)).2
    · have herase : (p.active ++ p.done).Perm (w :: (p.active ++ p.done.erase w)) :=
        ((List.perm_cons_erase hdone).append_left p.active).trans List.perm_middle
      exact (hwaiters.symm.trans (hinv.perm.trans herase)).cons_inv
    · have hne : w'.i0 ≠ w.i0 := by
        intro heq
        have hsame := hinv.held.apart (hinv.mem_waiters hw') hmem w'.i0_mem (heq ▸ w.i0_mem)
        exact hnot (hsame ▸ hw')
      exact (Function.update_of_ne hne ..).trans (hinv.info w' hw')

/-- A new request writes one entry of the avail ring. -/
theorem Inv.submit_availRing (hinv : Inv s p) {b blockno : ℕ} {write : Bool}
    (hroom : s.waiters.length < 2) (hstep : Step s (.submit b blockno write) s') :
    ∃ head, s'.disk.availRing =
      Function.update s.disk.availRing (s.disk.availIdx % num) head := by
  have hcard : 3 ≤ (freeSet s.disk).card := by
    have hfree := hinv.held.card_free
    rw [num] at hfree
    omega
  obtain ⟨i0, i1, i2, -, -, halloc⟩ := alloc3Desc_some hcard
  rw [Step, next, halloc] at hstep
  obtain rfl := Except.ok.inj (Option.some.inj hstep)
  exact ⟨i0, rfl⟩

/-- No step within the conditions panics, and each keeps the invariant. -/
theorem Inv.next_ok (hinv : Inv s p) {action : Action} (hbuffer : HoldsBuffer s action)
    (hroom : HasRoom s action) {r : Except Panic State} (hnext : next s action = some r) :
    ∃ s' p', r = .ok s' ∧ Inv s' p' := by
  cases action with
  | submit b blockno write =>
      obtain ⟨s', p', hsubmit, hinv'⟩ := hinv.submit hbuffer hroom
      exact ⟨s', p', Option.some.inj (hnext.symm.trans hsubmit), hinv'⟩
  | take => exact hinv.take hnext
  | complete k => exact hinv.complete hnext
  | intr => exact hinv.intr hnext
  | cleanup k => exact hinv.cleanup hnext

end Steps

/-! ## Runs -/

section Runs

variable {s : State}

theorem inv_of_reach
    (hreach : Reach Step (fun s action => HoldsBuffer s action ∧ HasRoom s action) boot s) :
    ∃ p, Inv s p := by
  refine @Reach.invariant _ _ _ _ _ _ (fun s => ∃ p, Inv s p) hreach ⟨_, inv_boot⟩ ?_
  rintro before action after ⟨p, hinv⟩ ⟨hbuffer, hroom⟩ hstep
  obtain ⟨s', p', hok, hinv'⟩ := hinv.next_ok hbuffer hroom hstep
  exact ⟨p', Except.ok.inj hok ▸ hinv'⟩

/-- In every run with at most two requests outstanding: the requests hold disjoint chains of three
descriptors each, which are formatted for them; the device works on nothing else; nothing panics;
a new request overwrites no entry of the avail ring that the device has yet to take; and the flag
of each buffer is cleared once for each of its requests, after the device has completed it. -/
theorem completion_of_reach
    (hreach : Reach Step (fun s action => HoldsBuffer s action ∧ HasRoom s action) boot s) :
    ((chains s.waiters).Nodup ∧ (∀ w ∈ s.waiters, Formatted s.disk w ∧
        ∀ i ∈ w.chain, i < num ∧ s.disk.free i = false) ∧
      ∀ taken ∈ s.working, ∃ w ∈ s.waiters, taken = w.taken) ∧
    (∀ action e, HoldsBuffer s action → HasRoom s action → next s action ≠ some (.error e)) ∧
    (∀ b blockno write s', HasRoom s (.submit b blockno write) →
      Step s (.submit b blockno write) s' →
      ∀ k < (s.disk.availIdx + 2 ^ 16 - s.lastAvail) % 2 ^ 16,
        s'.disk.availRing ((s.lastAvail + k) % num) =
          s.disk.availRing ((s.lastAvail + k) % num)) ∧
    ∀ b, s.cleared.count b ≤ s.completed.count b ∧ s.completed.count b ≤ s.submitted.count b ∧
      s.submitted.count b = s.cleared.count b + if s.bufDisk b then 1 else 0 := by
  obtain ⟨p, hinv⟩ := inv_of_reach hreach
  have hlength := hinv.length_active
  refine ⟨⟨hinv.held.nodup, fun w hw => ⟨hinv.held.formatted w hw, fun i hi =>
    hinv.held.not_free hw hi⟩, fun taken htaken => ?_⟩, fun action e hbuffer hroom hnext => ?_,
    fun b blockno write s' hroom hstep k hk => ?_, fun b => ?_⟩
  · rw [hinv.working] at htaken
    obtain ⟨w, hw, rfl⟩ := List.mem_map.mp htaken
    exact ⟨w, hinv.mem_waiters (by simp [Phases.active, hw]), rfl⟩
  · obtain ⟨s', p', hok, -⟩ := hinv.next_ok hbuffer hroom hnext
    cases hok
  · have hpending : k < (p.queued.map Waiter.i0).length := by
      have hupto := hinv.avail.upto
      have hsmall := hinv.avail.small
      rw [List.length_map] at hupto ⊢
      omega
    have hne := hinv.avail.slot_ne (by rw [List.length_map, num]; omega) hpending
    obtain ⟨head, hring⟩ := hinv.submit_availRing hroom hstep
    rw [hring, Function.update_of_ne hne]
  · have hsubmitted := hinv.submitted b
    have hcompleted := hinv.completed b
    have honce : (p.active.map Waiter.b).count b = if s.bufDisk b then 1 else 0 := by
      split
      · rename_i hflag
        obtain ⟨w, hw, hb⟩ := (hinv.flag b).mp hflag
        exact List.count_eq_one_of_mem hinv.nodup_active (hb ▸ List.mem_map_of_mem hw)
      · rename_i hflag
        rw [List.count_eq_zero]
        intro hmem
        obtain ⟨w, hw, hb⟩ := List.mem_map.mp hmem
        exact hflag ((hinv.flag b).mpr ⟨w, hw, hb⟩)
    have hle : (p.unseen.map Waiter.b).count b ≤ (p.active.map Waiter.b).count b := by
      rw [Phases.active, List.map_append, List.count_append]
      exact Nat.le_add_left ..
    rw [honce] at hsubmitted hle
    exact ⟨by omega, by omega, hsubmitted⟩

/-- With at most two requests outstanding no call panics for want of descriptors, and the next call
does exactly when there are two already. -/
theorem noFreeDesc_of_reach
    (hreach : Reach Step (fun s action => HoldsBuffer s action ∧ HasRoom s action) boot s) :
    (∀ action, HoldsBuffer s action → HasRoom s action →
      next s action ≠ some (.error .noFreeDesc)) ∧
    ∀ b blockno write, next s (.submit b blockno write) = some (.error .noFreeDesc) ↔
      ¬ HasRoom s (.submit b blockno write) := by
  obtain ⟨p, hinv⟩ := inv_of_reach hreach
  have hcard := hinv.held.card_free
  rw [num] at hcard
  refine ⟨fun action hbuffer hroom hnext => ?_, fun b blockno write => ⟨fun hnext hroom => ?_,
    fun hfull => ?_⟩⟩
  · obtain ⟨s', p', hok, -⟩ := hinv.next_ok hbuffer hroom hnext
    cases hok
  · obtain ⟨i0, i1, i2, -, -, halloc⟩ := alloc3Desc_some (show 3 ≤ (freeSet s.disk).card by
      simp only [HasRoom] at hroom
      omega)
    rw [next, halloc] at hnext
    cases hnext
  · obtain ⟨disk', halloc⟩ := alloc3Desc_none (show (freeSet s.disk).card < 3 by
      simp only [HasRoom] at hfull
      omega)
    rw [next, halloc]
    rfl

end Runs

/-- Two requests, of which the device completes the second one first. -/
def twoRequests : List Action :=
  [.submit 5 40 false, .submit 9 41 true, .take, .take, .complete 1, .intr]

instance (s : State) (action : Action) : Decidable (HoldsBuffer s action ∧ HasRoom s action) := by
  cases action <;> simp only [HoldsBuffer, HasRoom] <;> infer_instance

/-- The steps within the conditions. -/
def roomNext (s : State) (action : Action) : Option State :=
  if HoldsBuffer s action ∧ HasRoom s action then (next s action).bind Except.toOption else none

theorem roomNext_spec (before : State) (action : Action) (after : State)
    (hnext : roomNext before action = some after) :
    (HoldsBuffer before action ∧ HasRoom before action) ∧ Step before action after := by
  unfold roomNext at hnext
  split at hnext
  · rename_i hguard
    refine ⟨hguard, ?_⟩
    obtain ⟨r, hr, hok⟩ := Option.bind_eq_some_iff.mp hnext
    cases r with
    | error e => cases hok
    | ok s => exact hr.trans (congrArg (some ∘ Except.ok) (Option.some.inj hok))
  · cases hnext

def crossed : State := (follow roomNext twoRequests boot).get (by decide +kernel)

theorem reach_crossed :
    Reach Step (fun s action => HoldsBuffer s action ∧ HasRoom s action) boot crossed :=
  reach_of_guarded roomNext_spec (Option.some_get _).symm

theorem completion_crossed : crossed.cleared.count 5 ≤ crossed.completed.count 5 ∧
    crossed.completed.count 5 ≤ crossed.submitted.count 5 ∧
      crossed.submitted.count 5 =
        crossed.cleared.count 5 + if crossed.bufDisk 5 then 1 else 0 :=
  (completion_of_reach reach_crossed).2.2.2 5

/-- The third request finds two descriptors. -/
theorem noFreeDesc_crossed :
    next crossed (.submit 2 42 false) = some (.error .noFreeDesc) ↔
      ¬ HasRoom crossed (.submit 2 42 false) :=
  (noFreeDesc_of_reach reach_crossed).2 2 42 false

/-- Three processes call `virtio_disk_rw` for three buffers. -/
theorem noFreeDesc_third : ¬ ∀ s, Reach Step HoldsBuffer boot s → ∀ action,
    HoldsBuffer s action → next s action ≠ some (.error .noFreeDesc) := by
  intro hnever
  let full : State := (follow roomNext [.submit 5 40 false, .submit 9 41 true] boot).get
    (by decide +kernel)
  have hreach : Reach Step HoldsBuffer boot full :=
    reach_of_guarded (fun before action after hnext =>
      ⟨(roomNext_spec before action after hnext).1.1, (roomNext_spec before action after hnext).2⟩)
      (Option.some_get _).symm
  have hbuffer : HoldsBuffer full (.submit 2 42 false) := by
    have hbuffers : ∀ w ∈ full.waiters, w.b ≠ 2 := by decide +kernel
    exact hbuffers
  refine hnever full hreach _ hbuffer ?_
  have hpanics : (match next full (.submit 2 42 false) with
      | some (.error e) => decide (e = .noFreeDesc)
      | _ => false) = true := by decide +kernel
  split at hpanics
  · rename_i e hnext
    rw [hnext, of_decide_eq_true hpanics]
  · cases hpanics

end Painting.Virt
