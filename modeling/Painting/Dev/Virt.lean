import Painting.Core.Transition

/-!
# The disk driver and its device

`virtio_disk_rw` (`virt.c`) takes three descriptors for each request and puts the
first into the avail ring; the device takes the entries in order, completes the
requests in any order and puts them into the used ring; `virtio_disk_intr` clears the
flag of the buffer, and the process that waits for it frees the descriptors.

The steps are those of the driver up to the notification of the device and after the
wait, one round of the loop of the interrupt handler, and two of the device.  Nobody
sleeps for a descriptor, so the `wakeup` in `free_desc` is left out.
-/

namespace Painting.Virt

open Painting.Transition

/-- `NUM`. -/
def num : ℕ := 8

/-- What a descriptor points to: a command header, the data of a buffer or a status byte. -/
inductive Address
  | null
  | op (i : ℕ)
  | data (b : ℕ)
  | status (i : ℕ)
  deriving DecidableEq

/-- `struct virtq_desc`. -/
structure Desc where
  addr : Address
  len : ℕ
  flags : ℕ
  next : ℕ
  deriving DecidableEq

def descNext : ℕ := 1
def descWrite : ℕ := 2

/-- `struct virtio_blk_req`. -/
structure BlkReq where
  type : ℕ
  reserved : ℕ
  sector : ℕ
  deriving DecidableEq

/-- `struct disk`, with the two rings; `usedRingIdx` is the index the device counts, and
`usedIdx` how far the driver has looked. -/
structure Disk where
  desc : ℕ → Desc
  availRing : ℕ → ℕ
  availIdx : ℕ
  usedRing : ℕ → ℕ
  usedRingIdx : ℕ
  free : ℕ → Bool
  usedIdx : ℕ
  infoB : ℕ → Option ℕ
  infoStatus : ℕ → ℕ
  ops : ℕ → BlkReq

inductive Panic
  | freeDesc1
  | freeDesc2
  | noFreeDesc
  | intrStatus
  | nullBuf
  deriving DecidableEq

/-! ## Descriptors -/

/-- `alloc_desc`. -/
def allocDesc (disk : Disk) : Option ℕ × Disk :=
  match (List.range num).find? disk.free with
  | some i => (some i, { disk with free := Function.update disk.free i false })
  | none => (none, disk)

/-- `free_desc`. -/
def freeDesc (disk : Disk) (i : ℕ) : Except Panic Disk :=
  if num ≤ i then .error .freeDesc1
  else if disk.free i then .error .freeDesc2
  else .ok { disk with
    desc := Function.update disk.desc i ⟨.null, 0, 0, 0⟩
    free := Function.update disk.free i true }

/-- The loop of `free_chain`.  No descriptor is freed twice, so it takes `num` rounds at most
before `free_desc` panics. -/
def freeChainLoop : ℕ → Disk → ℕ → Except Panic Disk
  | 0, _, _ => .error .freeDesc2
  | rounds + 1, disk, i =>
      let flag := (disk.desc i).flags
      let nxt := (disk.desc i).next
      (freeDesc disk i).bind fun disk =>
        if flag &&& descNext ≠ 0 then freeChainLoop rounds disk nxt else .ok disk

/-- `free_chain`. -/
def freeChain (disk : Disk) (i : ℕ) : Except Panic Disk :=
  freeChainLoop (num + 1) disk i

/-- `alloc3_desc`, with the three rounds of its loop written out. -/
def alloc3Desc (disk : Disk) : Except Panic (Option (ℕ × ℕ × ℕ) × Disk) :=
  match allocDesc disk with
  | (none, disk) => .ok (none, disk)
  | (some i0, disk) =>
      match allocDesc disk with
      | (none, disk) => (freeDesc disk i0).map fun disk => (none, disk)
      | (some i1, disk) =>
          match allocDesc disk with
          | (none, disk) =>
              ((freeDesc disk i0).bind fun disk => freeDesc disk i1).map fun disk => (none, disk)
          | (some i2, disk) => .ok (some (i0, i1, i2), disk)

/-! ## Requests -/

/-- A process in `virtio_disk_rw` that waits for the device, with its local variables. -/
structure Waiter where
  b : ℕ
  write : Bool
  sector : ℕ
  i0 : ℕ
  i1 : ℕ
  i2 : ℕ
  deriving DecidableEq

/-- The command header. -/
def Waiter.req (w : Waiter) : BlkReq := ⟨if w.write then 1 else 0, 0, w.sector⟩

/-- The flags of the descriptor of the data. -/
def Waiter.flags (w : Waiter) : ℕ := (if w.write then 0 else descWrite) ||| descNext

/-- `virtio_disk_rw` from the formatting of the descriptors to the notification. -/
def format (disk : Disk) (w : Waiter) : Disk :=
  let desc := Function.update disk.desc w.i0 ⟨.op w.i0, 16, descNext, w.i1⟩
  let desc := Function.update desc w.i1 ⟨.data w.b, 512, w.flags, w.i2⟩
  let desc := Function.update desc w.i2 ⟨.status w.i0, 1, descWrite, 0⟩
  { disk with
    desc := desc
    ops := Function.update disk.ops w.i0 w.req
    infoStatus := Function.update disk.infoStatus w.i0 0xff
    infoB := Function.update disk.infoB w.i0 (some w.b)
    availRing := Function.update disk.availRing (disk.availIdx % num) w.i0
    availIdx := (disk.availIdx + 1) % 2 ^ 16 }

/-- A request as the device has read it from the descriptors. -/
structure Taken where
  head : ℕ
  req : BlkReq
  data : ℕ
  status : ℕ
  deriving DecidableEq

/-- What the device reads from the chain at `head`. -/
def readChain (disk : Disk) (head : ℕ) : Option Taken :=
  let first := disk.desc head
  let second := disk.desc first.next
  let third := disk.desc second.next
  if first.flags &&& descNext ≠ 0 ∧ second.flags &&& descNext ≠ 0 then
    match first.addr, second.addr, third.addr with
    | .op i, .data b, .status j => some ⟨head, disk.ops i, b, j⟩
    | _, _, _ => none
  else none

/-! ## Steps -/

/-- `bufDisk b` is `b->disk`, `lastAvail` how far the device has looked, and `working` what it
has taken.  The last three fields record the buffers of the requests that were submitted, that
the device has completed, and whose flag the interrupt handler has cleared. -/
structure State where
  disk : Disk
  bufDisk : ℕ → Bool
  waiters : List Waiter
  lastAvail : ℕ
  working : List Taken
  submitted : List ℕ
  completed : List ℕ
  cleared : List ℕ

inductive Action
  /-- `virtio_disk_rw` up to the notification; a block is one sector. -/
  | submit (b blockno : ℕ) (write : Bool)
  /-- The device takes the next entry of the avail ring. -/
  | take
  /-- The device completes what it has taken as `k`. -/
  | complete (k : ℕ)
  /-- A round of the loop of `virtio_disk_intr`. -/
  | intr
  /-- The rest of `virtio_disk_rw`, of the waiter `k`. -/
  | cleanup (k : ℕ)

/-- The outer `none` is a step that is not possible yet. -/
def next (s : State) : Action → Option (Except Panic State)
  | .submit b blockno write =>
      some ((alloc3Desc s.disk).bind fun (idx, disk) =>
        match idx with
        | none => .error .noFreeDesc
        | some (i0, i1, i2) =>
            let w : Waiter := ⟨b, write, blockno, i0, i1, i2⟩
            .ok { s with
              disk := format disk w
              bufDisk := Function.update s.bufDisk b true
              waiters := s.waiters ++ [w]
              submitted := b :: s.submitted })
  | .take =>
      if s.lastAvail = s.disk.availIdx then none
      else (readChain s.disk (s.disk.availRing (s.lastAvail % num))).map fun taken =>
        .ok { s with
          lastAvail := (s.lastAvail + 1) % 2 ^ 16
          working := s.working ++ [taken] }
  | .complete k =>
      s.working[k]?.map fun taken =>
        .ok { s with
          disk := { s.disk with
            infoStatus := Function.update s.disk.infoStatus taken.status 0
            usedRing := Function.update s.disk.usedRing (s.disk.usedRingIdx % num) taken.head
            usedRingIdx := (s.disk.usedRingIdx + 1) % 2 ^ 16 }
          working := s.working.eraseIdx k
          completed := taken.data :: s.completed }
  | .intr =>
      if s.disk.usedIdx = s.disk.usedRingIdx then none
      else
        let id := s.disk.usedRing (s.disk.usedIdx % num)
        if s.disk.infoStatus id ≠ 0 then some (.error .intrStatus)
        else
          match s.disk.infoB id with
          | none => some (.error .nullBuf)
          | some b =>
              some (.ok { s with
                disk := { s.disk with usedIdx := (s.disk.usedIdx + 1) % 2 ^ 16 }
                bufDisk := Function.update s.bufDisk b false
                cleared := b :: s.cleared })
  | .cleanup k =>
      s.waiters[k]?.bind fun w =>
        if s.bufDisk w.b then none
        else some ((freeChain { s.disk with infoB := Function.update s.disk.infoB w.i0 none }
          w.i0).map fun disk => { s with disk := disk, waiters := s.waiters.eraseIdx k })

def Step (before : State) (action : Action) (after : State) : Prop :=
  next before action = some (.ok after)

/-- A caller of `virtio_disk_rw` holds the lock of the buffer, so no other request is for it. -/
def HoldsBuffer (s : State) : Action → Prop
  | .submit b _ _ => ∀ w ∈ s.waiters, w.b ≠ b
  | _ => True

/-- Fewer than two requests are outstanding when another one is submitted. -/
def HasRoom (s : State) : Action → Prop
  | .submit _ _ _ => s.waiters.length < 2
  | _ => True

/-- After `virtio_disk_init`. -/
def boot : State where
  disk :=
    { desc := fun _ => ⟨.null, 0, 0, 0⟩
      availRing := fun _ => 0
      availIdx := 0
      usedRing := fun _ => 0
      usedRingIdx := 0
      free := fun i => decide (i < num)
      usedIdx := 0
      infoB := fun _ => none
      infoStatus := fun _ => 0
      ops := fun _ => ⟨0, 0, 0⟩ }
  bufDisk := fun _ => false
  waiters := []
  lastAvail := 0
  working := []
  submitted := []
  completed := []
  cleared := []

end Painting.Virt
