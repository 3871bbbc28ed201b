import Painting.Core.Transition

/-!
# The buffer cache

The cache of `fs/buf.c`: `NBUF` buffers on a list, most recently released first.
After `binit` every buffer carries the key of block 0 of device 0, so keys are
distinct only among the buffers that were ever used.  These are the front of the
list, and a lookup meets them before it meets an unused buffer.

`virtio_disk_rw` is taken as a transfer of one block between the buffer and a place
of the disk that its key determines.
-/

namespace Painting.BufferCache

open Painting.Transition

def bsize : ℕ := 512

def nbuf : ℕ := 30

abbrev Block := Fin bsize → UInt8

/-- `struct buf`, with its sleep lock's fields `locked` and `pid`. -/
structure Buf where
  valid : Bool
  dev : ℕ
  blockno : ℕ
  locked : Bool
  pid : ℤ
  refcnt : ℕ
  data : Block

/-- The cache and the disk behind it. -/
structure Cache where
  buf : ℕ → Buf
  bcacheList : List ℕ
  disk : ℕ → Block

def Buf.key (b : Buf) : ℕ × ℕ := (b.dev, b.blockno)

def Cache.setBuf (cache : Cache) (i : ℕ) (b : Buf) : Cache :=
  { cache with buf := Function.update cache.buf i b }

/-- `binit` over the zeroed buffers. -/
def binit (disk : ℕ → Block) : Cache where
  buf := fun _ => ⟨false, 0, 0, false, -1, 0, fun _ => 0⟩
  bcacheList := List.range nbuf
  disk := disk

/-! ## Operations

`none` stands for a call that does not return: it panics, or it sleeps on a buffer
that is held. -/

/-- `acquiresleeplock`. -/
def acquiresleeplock (pid : ℤ) (b : Buf) : Option Buf :=
  if b.locked then none else some { b with locked := true, pid := pid }

def Holdingsleeplock (pid : ℤ) (b : Buf) : Prop := b.locked = true ∧ b.pid = pid

instance (pid : ℤ) (b : Buf) : Decidable (Holdingsleeplock pid b) :=
  inferInstanceAs (Decidable (_ ∧ _))

/-- The scan of `bget`: the buffer of the block, or else the first one with no
references. -/
def bgetLoop (buf : ℕ → Buf) (dev blockno : ℕ) : List ℕ → Option ℕ → ℕ ⊕ Option ℕ
  | [], tmp => .inr tmp
  | i :: rest, tmp =>
      if (buf i).dev = dev ∧ (buf i).blockno = blockno then .inl i
      else
        bgetLoop buf dev blockno rest
          (if (buf i).refcnt = 0 then (if tmp = none then some i else tmp) else tmp)

def bget (cache : Cache) (pid : ℤ) (dev blockno : ℕ) : Option (ℕ × Cache) :=
  match bgetLoop cache.buf dev blockno cache.bcacheList none with
  | .inl i =>
      (acquiresleeplock pid
        { cache.buf i with refcnt := ((cache.buf i).refcnt + 1) % 2 ^ 32 }).map fun b =>
          (i, cache.setBuf i b)
  | .inr none => none
  | .inr (some i) =>
      (acquiresleeplock pid
        { cache.buf i with dev := dev, blockno := blockno, valid := false, refcnt := 1 }).map
          fun b => (i, cache.setBuf i b)

variable (sector : ℕ × ℕ → ℕ)

def bread (cache : Cache) (pid : ℤ) (dev blockno : ℕ) : Option (ℕ × Cache) :=
  (bget cache pid dev blockno).map fun (i, cache) =>
    let b := cache.buf i
    if b.valid then (i, cache)
    else (i, cache.setBuf i { b with data := cache.disk (sector b.key), valid := true })

def bwrite (cache : Cache) (pid : ℤ) (i : ℕ) : Option Cache :=
  let b := cache.buf i
  if Holdingsleeplock pid b then
    some { cache with disk := Function.update cache.disk (sector b.key) b.data }
  else none

def brelse (cache : Cache) (pid : ℤ) (i : ℕ) : Option Cache :=
  let b := cache.buf i
  if Holdingsleeplock pid b then
    let refcnt := (b.refcnt + 2 ^ 32 - 1) % 2 ^ 32
    let cache := cache.setBuf i { b with locked := false, pid := -1, refcnt := refcnt }
    some (if refcnt = 0 then { cache with bcacheList := i :: cache.bcacheList.erase i } else cache)
  else none

/-! ## Runs -/

/-- The cache in a run, with two fields that exist for the statement alone: for each
block the data of the last `bwrite` to it, at first the disk's, and the buffers whose
data has changed since. -/
structure State where
  cache : Cache
  written : ℕ × ℕ → Block
  changed : ℕ → Bool

inductive Call
  | bread (pid : ℤ) (dev blockno : ℕ)
  | change (pid : ℤ) (i : ℕ) (data : Block)
  | bwrite (pid : ℤ) (i : ℕ)
  | brelse (pid : ℤ) (i : ℕ)

/-- The number of buffers that are held. -/
def Cache.held (cache : Cache) : ℕ := (List.range nbuf).countP fun i => (cache.buf i).locked

/-- What callers keep to: a block is not read again while it is held, at most `NBUF`
blocks are held, only the holder changes, writes or releases a buffer, and what was
changed is written before it is released.  `keys` are the blocks in use. -/
def Allowed (keys : Set (ℕ × ℕ)) (state : State) : Call → Prop
  | .bread _ dev blockno =>
      (dev, blockno) ∈ keys ∧ state.cache.held < nbuf ∧
        ∀ i < nbuf, (state.cache.buf i).locked = true → (state.cache.buf i).key ≠ (dev, blockno)
  | .change pid i _ => i < nbuf ∧ Holdingsleeplock pid (state.cache.buf i)
  | .bwrite pid i => i < nbuf ∧ Holdingsleeplock pid (state.cache.buf i)
  | .brelse pid i =>
      i < nbuf ∧ Holdingsleeplock pid (state.cache.buf i) ∧ state.changed i = false

/-- One call; `none` when it does not return. -/
def call (state : State) : Call → Option State
  | .bread pid dev blockno =>
      (bread sector state.cache pid dev blockno).map fun (_, cache) =>
        { state with cache := cache }
  | .change _ i data =>
      some { state with
        cache := state.cache.setBuf i { state.cache.buf i with data := data }
        changed := Function.update state.changed i true }
  | .bwrite pid i =>
      (bwrite sector state.cache pid i).map fun cache =>
        { cache := cache
          written := Function.update state.written (state.cache.buf i).key
            (state.cache.buf i).data
          changed := Function.update state.changed i false }
  | .brelse pid i =>
      (brelse state.cache pid i).map fun cache => { state with cache := cache }

def CacheStep (state : State) (c : Call) (after : State) : Prop :=
  call sector state c = some after

/-- The start: after `binit`, nothing written but the disk. -/
def start (disk : ℕ → Block) : State where
  cache := binit disk
  written := fun key => disk (sector key)
  changed := fun _ => false

end Painting.BufferCache
