import Painting.Mm.PageTable

/-!
# User address spaces

The functions of `uvm.c` on user page tables, with `setup_stack`, `process_pagetable`
and `free_user_pagetable` of `proc.c`.  `kernelEnd` and `trampolinePa` stand for the
symbols `end` and `trampoline` of the linker script.
-/

namespace Painting.PageTable

open Painting.Memory

/-! ## Growing and shrinking (`uvm.c`) -/

/-- A value that is kept in an `int` and then used as 64 bits. -/
def asInt (x : ℕ) : ℕ :=
  if x % 2 ^ 32 < 2 ^ 31 then x % 2 ^ 32 else x % 2 ^ 32 + (2 ^ 64 - 2 ^ 32)

/-- `uvmdealloc`. -/
def uvmdealloc (kernelEnd : ℕ) (pm : Pm) (pagetable oldsz newsz : ℕ) : Except Panic (ℕ × Pm) :=
  if oldsz ≤ newsz then .ok (oldsz, pm)
  else if pgRoundUp newsz < pgRoundUp oldsz then
    let npages := asInt ((pgRoundUp oldsz - pgRoundUp newsz) / pgSize)
    (uvmunmap kernelEnd pm pagetable (pgRoundUp newsz) npages true).map fun pm => (newsz, pm)
  else .ok (newsz, pm)

/-- The loop of `uvmalloc` from `a` on.  The rounds are counted so that without a return the
address has passed `MAXVA`, where `walk` panics. -/
def uvmallocLoop (kernelEnd pagetable oldsz newsz xperm : ℕ) :
    ℕ → Pm → ℕ → Except Panic (ℕ × Pm)
  | 0, _, _ => .error .walk
  | rounds + 1, pm, a =>
      if a < newsz then
        match kpmalloc pm with
        | (none, pm) =>
            (uvmdealloc kernelEnd pm pagetable a oldsz).map fun (_, pm) => (0, pm)
        | (some page, pm) =>
            let pm : Pm := ⟨fill pm.mem page 0 pgSize, pm.freelist⟩
            match mappages pm pagetable a page pgSize (pteR ||| pteU ||| xperm) with
            | .error panic => .error panic
            | .ok (ret, pm) =>
                if ret ≠ 0 then
                  match kpmfree kernelEnd pm page with
                  | .error panic => .error panic
                  | .ok pm =>
                      (uvmdealloc kernelEnd pm pagetable a oldsz).map fun (_, pm) => (0, pm)
                else uvmallocLoop kernelEnd pagetable oldsz newsz xperm rounds pm (a + pgSize)
      else .ok (newsz, pm)

/-- `uvmalloc`. -/
def uvmalloc (kernelEnd : ℕ) (pm : Pm) (pagetable oldsz newsz xperm : ℕ) :
    Except Panic (ℕ × Pm) :=
  if newsz < oldsz then .ok (oldsz, pm)
  else
    let oldsz := pgRoundUp oldsz
    uvmallocLoop kernelEnd pagetable oldsz newsz xperm ((maxVa - oldsz) / pgSize + 2) pm oldsz

/-! ## Freeing -/

/-- The loop of `uvmfree_recursive` over the `count` entries from `i` on; `child` frees a table of
the level below, `none` at the lowest level. -/
def freeLoop (kernelEnd pagetable : ℕ) (child : Option (Pm → ℕ → Except Panic Pm)) :
    ℕ → ℕ → Pm → Except Panic Pm
  | 0, _, pm => .ok pm
  | count + 1, i, pm =>
      let pte := readPte pm.mem (pagetable + 8 * i)
      if pte &&& pteV ≠ 0 then
        let pm : Pm := ⟨store pm.mem (pagetable + 8 * i) 8 0, pm.freelist⟩
        let freed :=
          match child with
          | some child =>
              if pte &&& (pteR ||| pteW ||| pteX) = 0 then child pm (pte2pa pte)
              else if pte &&& pteU ≠ 0 then kpmfree kernelEnd pm (pte2pa pte)
              else .ok pm
          | none => if pte &&& pteU ≠ 0 then kpmfree kernelEnd pm (pte2pa pte) else .ok pm
        match freed with
        | .error panic => .error panic
        | .ok pm => freeLoop kernelEnd pagetable child count (i + 1) pm
      else freeLoop kernelEnd pagetable child count (i + 1) pm

/-- `uvmfree_recursive`. -/
def uvmfreeRecursive (kernelEnd : ℕ) : ℕ → Pm → ℕ → Except Panic Pm
  | 0, pm, pagetable =>
      match freeLoop kernelEnd pagetable none 512 0 pm with
      | .error panic => .error panic
      | .ok pm => kpmfree kernelEnd pm pagetable
  | level + 1, pm, pagetable =>
      match freeLoop kernelEnd pagetable (some (uvmfreeRecursive kernelEnd level)) 512 0 pm with
      | .error panic => .error panic
      | .ok pm => kpmfree kernelEnd pm pagetable

/-- `uvmfree`, which ignores its size. -/
def uvmfree (kernelEnd : ℕ) (pm : Pm) (pagetable : ℕ) : Except Panic Pm :=
  uvmfreeRecursive kernelEnd 2 pm pagetable

/-! ## Copying -/

/-- The loop of `uvmcopy` from `i` on, with the rounds as in `uvmalloc`. -/
def uvmcopyLoop (kernelEnd old new sz : ℕ) : ℕ → Pm → ℕ → Except Panic (ℤ × Pm)
  | 0, _, _ => .error .walk
  | rounds + 1, pm, i =>
      if i < sz then
        match walk pm old i false with
        | .error panic => .error panic
        | .ok (none, pm) => uvmcopyLoop kernelEnd old new sz rounds pm (i + pgSize)
        | .ok (some slot, pm) =>
            let pte := readPte pm.mem slot
            if pte &&& pteV = 0 ∨ pte &&& pteU = 0 then
              uvmcopyLoop kernelEnd old new sz rounds pm (i + pgSize)
            else
              let pa := pte2pa pte
              let flags := pteFlags pte
              match kpmalloc pm with
              | (none, pm) => .ok (-1, pm)
              | (some page, pm) =>
                  let pm : Pm := ⟨blit pm.mem page (fun k => pm.mem (pa + k)) pgSize, pm.freelist⟩
                  match mappages pm new i page pgSize
                    (flags &&& (pteR ||| pteW ||| pteX ||| pteU)) with
                  | .error panic => .error panic
                  | .ok (ret, pm) =>
                      if ret ≠ 0 then (kpmfree kernelEnd pm page).map fun pm => (-1, pm)
                      else uvmcopyLoop kernelEnd old new sz rounds pm (i + pgSize)
      else .ok (0, pm)

/-- `uvmcopy`. -/
def uvmcopy (kernelEnd : ℕ) (pm : Pm) (old new sz : ℕ) : Except Panic (ℤ × Pm) :=
  uvmcopyLoop kernelEnd old new sz (maxVa / pgSize + 2) pm 0

/-- `walkaddr`; 0 when the page is not mapped for the user. -/
def walkaddr (pm : Pm) (pagetable va : ℕ) : ℕ :=
  if maxVa ≤ va then 0
  else
    match (walkLoop va false 2 pm pagetable).1 with
    | none => 0
    | some slot =>
        let pte := readPte pm.mem slot
        if pte &&& pteV = 0 then 0
        else if pte &&& pteU = 0 then 0
        else pte2pa pte

/-- `uvmcreate`; 0 for `NULL`. -/
def uvmcreate (pm : Pm) : ℕ × Pm :=
  match kpmalloc pm with
  | (none, pm) => (0, pm)
  | (some pagetable, pm) => (pagetable, ⟨fill pm.mem pagetable 0 pgSize, pm.freelist⟩)

/-! ## The tables of a process (`proc.c`) -/

/-- `free_user_pagetable`. -/
def freeUserPagetable (kernelEnd : ℕ) (pm : Pm) (pagetable : ℕ) : Except Panic Pm := do
  let pm ← uvmunmap kernelEnd pm pagetable trampoline 1 false
  let pm ← uvmunmap kernelEnd pm pagetable trapFrame 1 false
  uvmfree kernelEnd pm pagetable

/-- `setup_stack`: the stack pointer, or `none` when it fails. -/
def setupStack (kernelEnd : ℕ) (pm : Pm) (pagetable : ℕ) : Except Panic (Option ℕ × Pm) :=
  match kpmalloc pm with
  | (none, pm) => .ok (none, pm)
  | (some page, pm) =>
      match mappages pm pagetable (ustack - pgSize) page pgSize (pteR ||| pteW ||| pteU) with
      | .error panic => .error panic
      | .ok (ret, pm) =>
          if ret < 0 then (kpmfree kernelEnd pm page).map fun pm => (none, pm)
          else .ok (some ustack, pm)

/-- `process_pagetable` of a process with the given trapframe page; 0 for `NULL`. -/
def processPagetable (kernelEnd trampolinePa : ℕ) (pm : Pm) (trapframe : ℕ) :
    Except Panic (ℕ × Pm) :=
  let (pagetable, pm) := uvmcreate pm
  if pagetable = 0 then .ok (0, pm)
  else
    match mappages pm pagetable trampoline trampolinePa pgSize (pteR ||| pteX) with
    | .error panic => .error panic
    | .ok (ret, pm) =>
        if ret < 0 then (uvmfree kernelEnd pm pagetable).map fun pm => (0, pm)
        else
          match mappages pm pagetable trapFrame trapframe pgSize (pteR ||| pteW) with
          | .error panic => .error panic
          | .ok (ret, pm) =>
              if ret < 0 then do
                let pm ← uvmunmap kernelEnd pm pagetable trampoline 1 false
                let pm ← uvmfree kernelEnd pm pagetable
                .ok (0, pm)
              else .ok (pagetable, pm)

end Painting.PageTable
