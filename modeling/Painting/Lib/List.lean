import Painting.Core.Links

/-!
# The lists of the kernel

`list.c`, on which the process list, the run queue, the open files of a process, the free directory
entries and the buffer cache rest.  A pointer to an element is an `Option`, with `none` for `NULL`,
and the two end nodes of a list are elements like all others.

A call that does not return has failed an assertion or followed `NULL`, or one of its loops has
taken more rounds than it was given.
-/

namespace Painting.KernelList

open Painting.LinkedList

inductive Stop
  | assertion
  | nullPointer
  | rounds
  deriving DecidableEq

def assert (condition : Bool) : Except Stop Unit :=
  if condition then .ok () else .error .assertion

/-- The element to which a pointer points. -/
def follow {Node : Type} : Option Node → Except Stop Node
  | some elem => .ok elem
  | none => .error .nullPointer

section Code

variable {Node : Type} [DecidableEq Node]

/-! ## Elements -/

/-- `is_head`. -/
def isHead (links : Links Node) : Option Node → Bool
  | some elem => (links.prev elem).isNone && (links.next elem).isSome
  | none => false

/-- `is_interior`. -/
def isInterior (links : Links Node) : Option Node → Bool
  | some elem => (links.prev elem).isSome && (links.next elem).isSome
  | none => false

/-- `is_tail`. -/
def isTail (links : Links Node) : Option Node → Bool
  | some elem => (links.prev elem).isSome && (links.next elem).isNone
  | none => false

/-- `list_init`. -/
def listInit (links : Links Node) (list : Ends Node) : Links Node :=
  (((links.setPrev list.head none).setNext list.head (some list.tail)).setPrev list.tail
    (some list.head)).setNext list.tail none

/-- `list_begin`. -/
def listBegin (links : Links Node) (list : Ends Node) : Option Node := links.next list.head

/-- `list_next`. -/
def listNext (links : Links Node) (elem : Option Node) : Except Stop (Option Node) := do
  assert (isHead links elem || isInterior links elem)
  let elem ← follow elem
  .ok (links.next elem)

/-- `list_end`. -/
def listEnd (list : Ends Node) : Option Node := some list.tail

/-- `list_prev`. -/
def listPrev (links : Links Node) (elem : Option Node) : Except Stop (Option Node) := do
  assert (isInterior links elem || isTail links elem)
  let elem ← follow elem
  .ok (links.prev elem)

/-! ## Insertion and removal -/

/-- `list_insert`. -/
def listInsert (links : Links Node) (before elem : Option Node) : Except Stop (Links Node) := do
  assert (isInterior links before || isTail links before)
  assert elem.isSome
  let before ← follow before
  let elem ← follow elem
  let links := links.setPrev elem (links.prev before)
  let links := links.setNext elem (some before)
  let prev ← follow (links.prev before)
  let links := links.setNext prev (some elem)
  .ok (links.setPrev before (some elem))

/-- `list_splice`. -/
def listSplice (links : Links Node) (before first last : Option Node) :
    Except Stop (Links Node) := do
  assert (isInterior links before || isTail links before)
  if first = last then .ok links
  else do
    let last ← listPrev links last
    assert (isInterior links first)
    assert (isInterior links last)
    let before ← follow before
    let first ← follow first
    let last ← follow last
    -- The elements are removed from their list.
    let prev ← follow (links.prev first)
    let links := links.setNext prev (links.next last)
    let next ← follow (links.next last)
    let links := links.setPrev next (links.prev first)
    -- They are put into the other.
    let links := links.setPrev first (links.prev before)
    let links := links.setNext last (some before)
    let prev ← follow (links.prev before)
    let links := links.setNext prev (some first)
    .ok (links.setPrev before (some last))

/-- `list_push_front`. -/
def listPushFront (links : Links Node) (list : Ends Node) (elem : Option Node) :
    Except Stop (Links Node) :=
  listInsert links (listBegin links list) elem

/-- `list_push_back`. -/
def listPushBack (links : Links Node) (list : Ends Node) (elem : Option Node) :
    Except Stop (Links Node) :=
  listInsert links (listEnd list) elem

/-- `list_remove`. -/
def listRemove (links : Links Node) (elem : Option Node) :
    Except Stop (Option Node × Links Node) := do
  assert (isInterior links elem)
  let elem ← follow elem
  let prev ← follow (links.prev elem)
  let links := links.setNext prev (links.next elem)
  let next ← follow (links.next elem)
  let links := links.setPrev next (links.prev elem)
  .ok (links.next elem, links)

/-- `list_empty`. -/
def listEmpty (links : Links Node) (list : Ends Node) : Bool := listBegin links list = listEnd list

/-- `list_front`. -/
def listFront (links : Links Node) (list : Ends Node) : Except Stop (Option Node) := do
  assert (!listEmpty links list)
  .ok (links.next list.head)

/-- `list_back`. -/
def listBack (links : Links Node) (list : Ends Node) : Except Stop (Option Node) := do
  assert (!listEmpty links list)
  .ok (links.prev list.tail)

/-- `list_pop_front`. -/
def listPopFront (links : Links Node) (list : Ends Node) :
    Except Stop (Option Node × Links Node) := do
  let front ← listFront links list
  let (_, links) ← listRemove links front
  .ok (front, links)

/-- `list_pop_back`. -/
def listPopBack (links : Links Node) (list : Ends Node) :
    Except Stop (Option Node × Links Node) := do
  let back ← listBack links list
  let (_, links) ← listRemove links back
  .ok (back, links)

/-- The loop of `list_size`. -/
def listSizeLoop (links : Links Node) (list : Ends Node) : ℕ → Option Node → ℕ → Except Stop ℕ
  | 0, _, _ => .error .rounds
  | rounds + 1, e, cnt =>
      if e = listEnd list then .ok cnt
      else do
        let e ← listNext links e
        listSizeLoop links list rounds e (cnt + 1)

/-- `list_size`. -/
def listSize (rounds : ℕ) (links : Links Node) (list : Ends Node) : Except Stop ℕ :=
  listSizeLoop links list rounds (listBegin links list) 0

/-! ## Reversal -/

/-- The loop of `list_reverse`. -/
def listReverseLoop (list : Ends Node) : ℕ → Links Node → Option Node → Except Stop (Links Node)
  | 0, _, _ => .error .rounds
  | rounds + 1, links, e =>
      if e = listEnd list then .ok links
      else do
        let elem ← follow e
        let prev := links.prev elem
        let links := (links.setPrev elem (links.next elem)).setNext elem prev
        listReverseLoop list rounds links (links.prev elem)

/-- `list_reverse`. -/
def listReverse (rounds : ℕ) (links : Links Node) (list : Ends Node) : Except Stop (Links Node) :=
  if listEmpty links list then .ok links
  else do
    let links ← listReverseLoop list rounds links (listBegin links list)
    let front := links.next list.head
    let links := (links.setNext list.head (links.prev list.tail)).setPrev list.tail front
    let first ← follow (links.next list.head)
    let last ← follow (links.prev list.tail)
    let prev := links.prev first
    .ok ((links.setPrev first (links.next last)).setNext last prev)

/-! ## Order -/

section Order

variable (less : Node → Node → Bool)

/-- The element at `a` is less than the one before it. -/
def lessThanPrev (links : Links Node) (a : Option Node) : Except Stop Bool := do
  let prev ← listPrev links a
  let elem ← follow a
  let prev ← follow prev
  .ok (less elem prev)

/-- The loop of `is_sorted`. -/
def isSortedLoop (links : Links Node) (b : Option Node) : ℕ → Option Node → Except Stop Bool
  | 0, _ => .error .rounds
  | rounds + 1, a => do
      let a ← listNext links a
      if a = b then .ok true
      else do
        let drops ← lessThanPrev less links a
        if drops then .ok false else isSortedLoop links b rounds a

/-- `is_sorted`. -/
def isSorted (rounds : ℕ) (links : Links Node) (a b : Option Node) : Except Stop Bool :=
  if a = b then .ok true else isSortedLoop less links b rounds a

/-- The loop of `find_end_of_run`. -/
def findEndOfRunLoop (links : Links Node) (b : Option Node) :
    ℕ → Option Node → Except Stop (Option Node)
  | 0, _ => .error .rounds
  | rounds + 1, a => do
      let a ← listNext links a
      if a = b then .ok a
      else do
        let drops ← lessThanPrev less links a
        if drops then .ok a else findEndOfRunLoop links b rounds a

/-- `find_end_of_run`. -/
def findEndOfRun (rounds : ℕ) (links : Links Node) (a b : Option Node) :
    Except Stop (Option Node) := do
  assert a.isSome
  assert b.isSome
  assert (a ≠ b)
  findEndOfRunLoop less links b rounds a

/-- The loop of `inplace_merge`. -/
def inplaceMergeLoop (b1 : Option Node) :
    ℕ → Links Node → Option Node → Option Node → Except Stop (Links Node)
  | 0, _, _, _ => .error .rounds
  | rounds + 1, links, a0, a1b0 =>
      if a0 = a1b0 ∨ a1b0 = b1 then .ok links
      else do
        let left ← follow a0
        let right ← follow a1b0
        if less right left then do
          let a1b0 ← listNext links a1b0
          let moved ← listPrev links a1b0
          let links ← listSplice links a0 moved a1b0
          inplaceMergeLoop b1 rounds links a0 a1b0
        else do
          let a0 ← listNext links a0
          inplaceMergeLoop b1 rounds links a0 a1b0

/-- `inplace_merge`. -/
def inplaceMerge (rounds : ℕ) (links : Links Node) (a0 a1b0 b1 : Option Node) :
    Except Stop (Links Node) := do
  assert a0.isSome
  assert a1b0.isSome
  assert b1.isSome
  let left ← isSorted less rounds links a0 a1b0
  assert left
  let right ← isSorted less rounds links a1b0 b1
  assert right
  inplaceMergeLoop less b1 rounds links a0 a1b0

/-- One pass of `list_sort` over the list from `a0` on, with the number of runs that it has put
out. -/
def sortPass (bound : ℕ) (list : Ends Node) :
    ℕ → Links Node → Option Node → ℕ → Except Stop (ℕ × Links Node)
  | 0, _, _, _ => .error .rounds
  | rounds + 1, links, a0, outputRunCnt =>
      if a0 = listEnd list then .ok (outputRunCnt, links)
      else do
        let a1b0 ← findEndOfRun less bound links a0 (listEnd list)
        if a1b0 = listEnd list then .ok (outputRunCnt + 1, links)
        else do
          let b1 ← findEndOfRun less bound links a1b0 (listEnd list)
          let links ← inplaceMerge less bound links a0 a1b0 b1
          sortPass bound list rounds links b1 (outputRunCnt + 1)

/-- The outer loop of `list_sort`. -/
def listSortLoop (bound : ℕ) (list : Ends Node) : ℕ → Links Node → Except Stop (Links Node)
  | 0, _ => .error .rounds
  | rounds + 1, links => do
      let (outputRunCnt, links) ← sortPass less bound list bound links (listBegin links list) 0
      if outputRunCnt > 1 then listSortLoop bound list rounds links else .ok links

/-- `list_sort`, in which the outer loop is given its own number of rounds. -/
def listSort (passes bound : ℕ) (links : Links Node) (list : Ends Node) :
    Except Stop (Links Node) := do
  let links ← listSortLoop less bound list passes links
  let sorted ← isSorted less bound links (listBegin links list) (listEnd list)
  assert sorted
  .ok links

/-- The loop of `list_insert_ordered`. -/
def insertPlace (links : Links Node) (list : Ends Node) (elem : Node) :
    ℕ → Option Node → Except Stop (Option Node)
  | 0, _ => .error .rounds
  | rounds + 1, e =>
      if e = listEnd list then .ok e
      else do
        let here ← follow e
        if less elem here then .ok e
        else do
          let e ← listNext links e
          insertPlace links list elem rounds e

/-- `list_insert_ordered`. -/
def listInsertOrdered (rounds : ℕ) (links : Links Node) (list : Ends Node) (elem : Option Node) :
    Except Stop (Links Node) := do
  assert elem.isSome
  let node ← follow elem
  let e ← insertPlace less links list node rounds (listBegin links list)
  listInsert links e elem

/-- The loop of `list_unique`. -/
def listUniqueLoop (list : Ends Node) (duplicates : Option (Ends Node)) :
    ℕ → Links Node → Option Node → Except Stop (Links Node)
  | 0, _, _ => .error .rounds
  | rounds + 1, links, elem => do
      let next ← listNext links elem
      if next = listEnd list then .ok links
      else do
        let left ← follow elem
        let right ← follow next
        if !less left right && !less right left then do
          let (_, links) ← listRemove links next
          let links ←
            match duplicates with
            | some duplicates => listPushBack links duplicates next
            | none => .ok links
          listUniqueLoop list duplicates rounds links elem
        else listUniqueLoop list duplicates rounds links next

/-- `list_unique`. -/
def listUnique (rounds : ℕ) (links : Links Node) (list : Ends Node)
    (duplicates : Option (Ends Node)) : Except Stop (Links Node) :=
  if listEmpty links list then .ok links
  else listUniqueLoop less list duplicates rounds links (listBegin links list)

/-- The loop of `list_max` and of `list_min`, which keeps the later element when `better` says so. -/
def bestLoop (better : Node → Node → Bool) (links : Links Node) (list : Ends Node) :
    ℕ → Option Node → Option Node → Except Stop (Option Node)
  | 0, _, _ => .error .rounds
  | rounds + 1, best, e =>
      if e = listEnd list then .ok best
      else do
        let kept ← follow best
        let here ← follow e
        let best := if better kept here then e else best
        let e ← listNext links e
        bestLoop better links list rounds best e

/-- `list_max` and `list_min`. -/
def listBest (better : Node → Node → Bool) (rounds : ℕ) (links : Links Node) (list : Ends Node) :
    Except Stop (Option Node) :=
  if listBegin links list = listEnd list then .ok (listBegin links list)
  else do
    let e ← listNext links (listBegin links list)
    bestLoop better links list rounds (listBegin links list) e

/-- `list_max`. -/
def listMax (rounds : ℕ) (links : Links Node) (list : Ends Node) : Except Stop (Option Node) :=
  listBest (fun best e => less best e) rounds links list

/-- `list_min`. -/
def listMin (rounds : ℕ) (links : Links Node) (list : Ends Node) : Except Stop (Option Node) :=
  listBest (fun best e => less e best) rounds links list

end Order

end Code

end Painting.KernelList
