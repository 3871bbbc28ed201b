import Painting.Core.Memory
import Painting.Core.Transition

/-!
# The buddy allocator

`kernel/buddy.c` keeps one intrusive free list per level: `buddy_list[i]` heads
a chain of `2^i`-byte blocks whose first word links to the next.  A block that
has been handed out below page size carries its level in its first byte, and
`buddy_free` reads that byte back to learn how much it is given.

`buddy_alloc` searches the lists upwards from the requested level but always
splits downwards from level eleven, as if every block it pops were a page.
-/

namespace Painting.Buddy

open Painting.Memory Painting.Transition

/-! ## The code -/

def maxLevel : ℕ := 12
def pgSize : ℕ := 4096

/-- `PHYSTOP`: the end of the memory managed by `kernel/pm.c`. -/
def physTop : ℕ := 0x88000000

/-- `_get_buddy`. -/
def getBuddy (block level : ℕ) : ℕ := block ^^^ 1 <<< level

/-- `level_of_bytes` on a 64-bit argument: count the halvings down to one. -/
def levelOfBytesLoop : ℕ → ℕ → ℕ
  | 0, _ => 0
  | fuel + 1, nbytes => if 1 < nbytes then levelOfBytesLoop fuel (nbytes >>> 1) + 1 else 0

def levelOfBytes (nbytes : ℕ) : ℕ := levelOfBytesLoop 64 nbytes

/-- The heads `buddy_list` and the memory holding links and level bytes. -/
structure Heap where
  mem : Mem
  buddyList : ℕ → ℕ

/-- `block->next`. -/
def Heap.next (heap : Heap) (block : ℕ) : ℕ := load heap.mem block 8

/-- `block->next = buddy_list[i]; buddy_list[i] = block;` -/
def Heap.push (heap : Heap) (level block : ℕ) : Heap where
  mem := store heap.mem block 8 (heap.buddyList level)
  buddyList := Function.update heap.buddyList level block

/-- What `kpmalloc` does to the page it hands out. -/
def Heap.fillPage (heap : Heap) (page : ℕ) : Heap :=
  { heap with mem := fill heap.mem page 5 pgSize }

/-- The first loop of `buddy_alloc`: pop the first non-empty list among the
`count` levels from `level` on. -/
def popBlock (heap : Heap) : ℕ → ℕ → Option (ℕ × Heap)
  | 0, _ => none
  | count + 1, level =>
      if heap.buddyList level ≠ 0 then
        some (heap.buddyList level,
          { heap with
            buddyList := Function.update heap.buddyList level
              (heap.next (heap.buddyList level)) })
      else popBlock heap count (level + 1)

/-- The second loop of `buddy_alloc`, from level `i` down to `level + 1`. -/
def splitLoop (block level : ℕ) : ℕ → Heap → Heap
  | 0, heap => heap
  | i + 1, heap =>
      if level < i + 1 then
        splitLoop block level i (heap.push (i + 1) (getBuddy block (i + 1)))
      else heap

/-- `*b = level`. -/
def Heap.putLevel (heap : Heap) (block level : ℕ) : Heap :=
  { heap with mem := store heap.mem block 1 level }

/-- The tail of `buddy_alloc` once a block has been found. -/
def splitBlock (heap : Heap) (block level : ℕ) : Heap :=
  (splitLoop block level (maxLevel - 1) heap).putLevel block level

structure AllocResult where
  block : ℕ
  heap : Heap
  /-- Whether `kpmalloc` was called. -/
  tookPage : Bool

/-- `buddy_alloc`, with `page` the page that `kpmalloc` returns if called. -/
def buddyAlloc (heap : Heap) (sz page : ℕ) : AllocResult :=
  let level := levelOfBytes sz
  if level = maxLevel then ⟨page, heap.fillPage page, true⟩
  else
    match popBlock heap (maxLevel - level) level with
    | some (block, popped) => ⟨block, splitBlock popped block level, false⟩
    | none => ⟨page, splitBlock (heap.fillPage page) page level, true⟩

/-- A `struct buddy **`: a list head or the link inside a block. -/
inductive Link
  | head (level : ℕ)
  | next (block : ℕ)

def Heap.deref (heap : Heap) : Link → ℕ
  | .head level => heap.buddyList level
  | .next block => heap.next block

def Heap.assign (heap : Heap) : Link → ℕ → Heap
  | .head level, value => { heap with buddyList := Function.update heap.buddyList level value }
  | .next block, value => { heap with mem := store heap.mem block 8 value }

/-- `while (*list != NULL && *list != buddy) list = &(*list)->next;` -/
def searchList (heap : Heap) (buddy : ℕ) : ℕ → Link → Option Link
  | 0, _ => none
  | fuel + 1, link =>
      if heap.deref link ≠ 0 ∧ heap.deref link ≠ buddy then
        searchList heap buddy fuel (.next (heap.deref link))
      else some link

inductive FreeResult
  /-- The block went onto a list. -/
  | listed (heap : Heap)
  /-- `kpmfree` took the page back. -/
  | returned (heap : Heap)
  /-- `panic("kpmfree")`. -/
  | panicked

/-- `kpmfree`, with `kernelEnd` the linker's `end`. -/
def kpmfree (kernelEnd : ℕ) (heap : Heap) (pa : ℕ) : FreeResult :=
  if pa % pgSize ≠ 0 ∨ pa < kernelEnd ∨ physTop ≤ pa then .panicked
  else .returned { heap with mem := fill heap.mem pa 1 pgSize }

/-- The loop of `buddy_free`.  The first argument bounds the rounds and the
length of each list search; `none` means the bound was hit. -/
def freeLoop (kernelEnd addr : ℕ) : ℕ → Heap → ℕ → ℕ → Option FreeResult
  | 0, _, _, _ => none
  | fuel + 1, heap, block, i =>
      if i = maxLevel then some (kpmfree kernelEnd heap addr)
      else
        let buddy := getBuddy block i
        (searchList heap buddy fuel (.head i)).bind fun link =>
          if heap.deref link ≠ buddy then some (.listed (heap.push i block))
          else
            freeLoop kernelEnd addr fuel (heap.assign link (heap.next (heap.deref link)))
              (min block buddy) (i + 1)

/-- `buddy_free`. -/
def buddyFree (kernelEnd fuel : ℕ) (heap : Heap) (addr : ℕ) : Option FreeResult :=
  let level := (heap.mem addr).toNat
  if level = maxLevel then some (kpmfree kernelEnd heap addr)
  else freeLoop kernelEnd addr fuel heap addr level

/-! ## Runs -/

/-- A block: its address and its level. -/
abbrev Block := ℕ × ℕ

def Block.size (block : Block) : ℕ := 2 ^ block.2

/-- The allocator together with the blocks its callers hold and the pages it
has taken from `kpmalloc` and not given back. -/
structure State where
  heap : Heap
  live : List Block
  pages : List ℕ

/-- `buddy_init`. -/
def buddyInit (mem : Mem) : State := ⟨⟨mem, fun _ => 0⟩, [], []⟩

inductive Action
  /-- `buddy_alloc(sz)` at a moment where `kpmalloc` would return `page`. -/
  | alloc (sz page : ℕ)
  /-- `buddy_free(addr)`. -/
  | free (addr : ℕ)

/-- What is assumed of `kpmalloc`: a whole page of the managed memory that is
not in use. -/
structure FreshPage (kernelEnd : ℕ) (state : State) (page : ℕ) : Prop where
  aligned : page % pgSize = 0
  positive : 0 < page
  above : kernelEnd ≤ page
  below : page + pgSize ≤ physTop
  unused : page ∉ state.pages

def State.afterAlloc (state : State) (sz page : ℕ) : State :=
  let result := buddyAlloc state.heap sz page
  { heap := result.heap
    live := (result.block, levelOfBytes sz) :: state.live
    pages := if result.tookPage then page :: state.pages else state.pages }

/-- One call.  A call that panics or does not return has no successor. -/
inductive Step (kernelEnd : ℕ) : State → Action → State → Prop
  | alloc {state : State} {sz page level : ℕ} (hsz : sz = 2 ^ level)
      (hlow : 3 ≤ level) (hhigh : level ≤ 12)
      (hpage : FreshPage kernelEnd state page) :
      Step kernelEnd state (.alloc sz page) (state.afterAlloc sz page)
  | listed {state : State} {addr level fuel : ℕ} {heap : Heap}
      (hlive : (addr, level) ∈ state.live)
      (hfree : buddyFree kernelEnd fuel state.heap addr = some (.listed heap)) :
      Step kernelEnd state (.free addr)
        { state with heap := heap, live := state.live.erase (addr, level) }
  | returned {state : State} {addr level fuel : ℕ} {heap : Heap}
      (hlive : (addr, level) ∈ state.live)
      (hfree : buddyFree kernelEnd fuel state.heap addr = some (.returned heap)) :
      Step kernelEnd state (.free addr)
        { heap := heap
          live := state.live.erase (addr, level)
          pages := state.pages.erase addr }

end Painting.Buddy
