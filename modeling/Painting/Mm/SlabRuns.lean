import Painting.Core.Transition
import Painting.Mm.SlabInvariant

/-!
# Runs of a slab cache

One mode of `kalloc` and `kfree`, with pages that `buddy_alloc` returns and owners that write
into their objects.  A state records which objects are live, which have been freed and not
allocated again, and how many were live at most.

A run is parametrised by what `kfree` does: the code, or the code with the search for the page
of the object replaced by its outcome.
-/

namespace Painting.Slab

open Painting.Memory Painting.Transition

/-! ## The machine -/

/-- `PROC_MODE`, `FILE_MODE` and `RB_MODE`. -/
def slabModes : List Mode := [procMode, fileMode, rbMode]

/-- The bits that `init_bitmap_helper` leaves clear. -/
def Mode.capacity (mode : Mode) : ℕ := 8 * min (mode.blockNum / 8) 8 + mode.blockNum % 8

structure State where
  cache : Cache
  pages : List ℕ
  live : Finset ℕ
  freed : Finset ℕ
  peak : ℕ

inductive Action
  | kalloc (page : Page)
  | kfree (bp : ℕ)
  | write (bp : ℕ) (bytes : ℕ → UInt8)

/-- After `kalloc` has returned. -/
def State.allocated (s : State) (result : Option ℕ × Cache) : State where
  cache := result.2
  pages :=
    if result.2.heapList = s.cache.heapList then s.pages else result.2.heapList :: s.pages
  live := result.1.toFinset ∪ s.live
  freed := s.freed \ result.1.toFinset
  peak := max s.peak (result.1.toFinset ∪ s.live).card

/-- After `kfree` of the object `bp` has returned, with the page that it gave back. -/
def State.released (s : State) (bp : ℕ) (result : Cache × Option ℕ) : State :=
  { s with
    cache := result.1
    pages := result.2.elim s.pages fun addr => s.pages.erase (addr + 24)
    live := s.live.erase bp
    freed := insert bp s.freed }

/-- A step with `free` for `kfree`.  `buddy_alloc` returns a page that the mode does not own;
only live objects are freed and written. -/
def next (free : State → ℕ → Option (Cache × Option ℕ)) (mode : Mode) (s : State) :
    Action → Option State
  | .kalloc page =>
      if page.addr % pgSize = 0 ∧ page.addr + 24 ∉ s.pages then
        some (s.allocated (kalloc mode s.cache page))
      else none
  | .kfree bp => if bp ∈ s.live then (free s bp).map (s.released bp) else none
  | .write bp bytes =>
      if bp ∈ s.live then
        some { s with cache := { s.cache with mem := blit s.cache.mem bp bytes mode.size } }
      else none

/-- `kfree` of the code. -/
def freeCode (mode : Mode) (rounds : ℕ) (s : State) (bp : ℕ) : Option (Cache × Option ℕ) :=
  kfree mode rounds s.cache bp

/-- The page whose data area holds `bp`. -/
def State.pageOf (s : State) (bp : ℕ) : Option ℕ :=
  s.pages.find? fun list => list ≤ bp ∧ bp < list + pageAllocSize

/-- `kfree` with the page of the object at hand. -/
def freeFound (mode : Mode) (s : State) (bp : ℕ) : Option (Cache × Option ℕ) :=
  (s.pageOf bp).map fun list =>
    let (mem, page) := kfreeAt (fill s.cache.mem bp 0xc mode.size) list
      ((bp - list) % 2 ^ 32 / mode.size)
    ({ s.cache with mem := mem }, page)

def Step (mode : Mode) (s : State) (action : Action) (s' : State) : Prop :=
  ∃ rounds, next (freeCode mode rounds) mode s action = some s'

def StepFound (mode : Mode) (s : State) (action : Action) (s' : State) : Prop :=
  next (freeFound mode) mode s action = some s'

/-- After `slab_init`. -/
def start (mode : Mode) (mem : Mem) (page : Page) : State where
  cache := slabInit mode mem page
  pages := [(slabInit mode mem page).heapList]
  live := ∅
  freed := ∅
  peak := 0

/-- A page of zeros. -/
def zeroPage (addr : ℕ) : Page := ⟨addr, fun _ => 0⟩

/-! ## The modes -/

/-- What the proofs use of the three modes. -/
structure Mode.Sized (mode : Mode) : Prop where
  fits : mode.Fits
  large : 40 ≤ mode.size
  few : mode.capacity ≤ mode.blockNum
  clear : 0 < mode.capacity

theorem sized_of_mem {mode : Mode} (hmode : mode ∈ slabModes) : mode.Sized := by
  simp only [slabModes, List.mem_cons, List.not_mem_nil, or_false] at hmode
  obtain rfl | rfl | rfl := hmode <;> constructor <;> first | constructor <;> decide | decide

/-! ## The bitmap of a new page -/

/-- `init_bitmap_helper` sets the bits from the capacity on and clears the others. -/
theorem testBit_initBitmap_iff (mem : Mem) (ptr : ℕ) (mode : Mode) {i : ℕ} (hi : i < 128) :
    (initBitmapHelper mem ptr mode.blockNum (ptr + i / 8)).toNat.testBit (i % 8) = true ↔
      mode.capacity ≤ i := by
  have hshift : mode.blockNum >>> 3 = mode.blockNum / 8 := Nat.shiftRight_eq_div_pow _ _
  have hand : mode.blockNum &&& 7 = mode.blockNum % 8 := Nat.and_two_pow_sub_one_eq_mod _ 3
  have hmod : i % 8 < 8 := Nat.mod_lt i (by decide)
  have hall : ∀ k < 8, (0xff : UInt8).toNat.testBit k = true := by decide
  have hnone : ∀ k < 8, (0 : UInt8).toNat.testBit k = false := by decide
  have hmask : ∀ r < 8, ∀ k < 8,
      ((UInt8.ofNat ((0xff ^^^ (1 <<< r - 1)) / 256 ^ 0)).toNat.testBit k = true ↔ r ≤ k) := by
    decide
  rw [initBitmapHelper, hshift, hand, Mode.capacity]
  obtain hless | hsame | hmore := Nat.lt_trichotomy (i / 8) (min (mode.blockNum / 8) 8)
  · rw [fill_apply_of_out _ (by omega), store_apply_of_out _ (by omega),
      fill_apply_of_in _ (by omega) (by omega), hnone _ hmod]
    simp only [Bool.false_eq_true, false_iff]
    omega
  · rw [← hsame, fill_apply_of_out _ (by omega), store, if_pos (by omega), Nat.sub_self,
      hmask _ (Nat.mod_lt _ (by decide)) _ hmod]
    omega
  · rw [fill_apply_of_in _ (by omega) (by omega), hall _ hmod]
    simp only [true_iff]
    omega

theorem heapListInit_taken (mem : Mem) (ptr prev : ℕ) (mode : Mode) {i : ℕ} (hi : i < 128) :
    Taken (heapListInit mem ptr prev mode.blockNum).2 (ptr + 24) i ↔ mode.capacity ≤ i := by
  rw [heapListInit, Taken, testBit_load _ _ (by omega)]
  have haddr : ptr + 24 - 16 + 8 * (i / 64) + i % 64 / 8 = ftrp ptr + i / 8 := by
    simp only [ftrp, align]
    omega
  rw [haddr, show i % 64 % 8 = i % 8 by omega]
  exact testBit_initBitmap_iff _ _ mode hi

end Painting.Slab
