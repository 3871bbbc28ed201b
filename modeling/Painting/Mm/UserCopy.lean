import Painting.Mm.PageTableInvariant

/-!
# Copying from and to user memory

`copyin` and `copyout` of `vm.c` and the argument checks of `sysfile.c` on top of them.
Each looks every page up with `walk`, which panics at `MAXVA` and above: the copies
test for addresses beyond `MAXVA` only, and `valid_user_arg` does not test at all.
-/

namespace Painting.PageTable

open Painting.Memory

/-! ## The code -/

/-- The loop of `copyout` for the `len` bytes that are left; every round copies at least one,
so `len` rounds are enough.  What was copied before a panic stays copied. -/
def copyoutLoop (pgtble : ℕ) (src : ℕ → UInt8) : ℕ → Pm → ℕ → ℕ → ℕ → Except Panic ℤ × Pm
  | 0, pm, _, _, _ => (.ok 0, pm)
  | rounds + 1, pm, dst, done, len =>
      if len = 0 then (.ok 0, pm)
      else
        let va0 := pgRoundDown dst
        if maxVa < va0 then (.ok (-1), pm)
        else
          match walk pm pgtble va0 false with
          | .error panic => (.error panic, pm)
          | .ok (none, pm) => (.ok (-1), pm)
          | .ok (some slot, pm) =>
              let pte := readPte pm.mem slot
              if pte &&& pteV = 0 ∨ pte &&& pteU = 0 ∨ pte &&& pteW = 0 then (.ok (-1), pm)
              else
                let n := min (pgSize - (dst - va0)) len
                copyoutLoop pgtble src rounds
                  { pm with
                    mem := blit pm.mem (pte2pa pte + (dst - va0)) (fun k => src (done + k)) n }
                  ((va0 + pgSize) % 2 ^ 64) (done + n) (len - n)

/-- `copyout` of `src 0 .. src (len - 1)`. -/
def copyout (pm : Pm) (pgtble dst : ℕ) (src : ℕ → UInt8) (len : ℕ) : Except Panic ℤ × Pm :=
  copyoutLoop pgtble src len pm dst 0 len

/-- The loop of `copyin`. -/
def copyinLoop (pm : Pm) (pgtble : ℕ) : ℕ → ℕ → ℕ → Except Panic (ℤ × List UInt8)
  | 0, _, _ => .ok (0, [])
  | rounds + 1, src, len =>
      if len = 0 then .ok (0, [])
      else
        let va0 := pgRoundDown src
        if maxVa < va0 then .ok (-1, [])
        else
          match walk pm pgtble va0 false with
          | .error panic => .error panic
          | .ok (none, _) => .ok (-1, [])
          | .ok (some slot, _) =>
              let pte := readPte pm.mem slot
              if pte &&& pteV = 0 ∨ pte &&& pteU = 0 then .ok (-1, [])
              else
                let n := min (pgSize - (src - va0)) len
                (copyinLoop pm pgtble rounds ((va0 + pgSize) % 2 ^ 64) (len - n)).map
                  fun (result, rest) =>
                    (result,
                      (List.range n).map (fun k => pm.mem (pte2pa pte + (src - va0) + k)) ++ rest)

/-- `copyin`: its result and the bytes it copies to its destination. -/
def copyin (pm : Pm) (pgtble src len : ℕ) : Except Panic (ℤ × List UInt8) :=
  copyinLoop pm pgtble len src len

/-- `valid_user_arg` in a process, `none` for no process, with its page table. -/
def validUserArg (pm : Pm) (curProc : Option ℕ) (addr : ℕ) : Except Panic Bool :=
  match curProc with
  | none => .ok false
  | some pagetable =>
      if pagetable = 0 then .ok false
      else (walk pm pagetable addr false).map fun (pte, _) => pte.isSome

/-- The loop of `transstr`, with `left` bytes still to copy. -/
def transstrLoop (pm : Pm) (pgtble uaddr : ℕ) : ℕ → ℕ → Except Panic (ℤ × List UInt8)
  | _, 0 => .ok (0, [])
  | i, left + 1 =>
      match copyin pm pgtble ((uaddr + i) % 2 ^ 64) 1 with
      | .error panic => .error panic
      | .ok (result, bytes) =>
          if result < 0 then .ok (-1, [])
          else if bytes = [0] then .ok (0, [0])
          else (transstrLoop pm pgtble uaddr (i + 1) left).map fun (result, rest) =>
            (result, bytes ++ rest)

/-- `transstr`: its result and the bytes of the buffer that it has filled. -/
def transstr (pm : Pm) (pgtble uaddr maxlen : ℕ) : Except Panic (ℤ × List UInt8) :=
  (transstrLoop pm pgtble uaddr 0 maxlen).map fun (result, buf) =>
    (result, if buf.length = maxlen then buf.set (maxlen - 1) 0 else buf)

/-! ## When they panic -/

/-- The page may be read, or written, by the user. -/
def Accessible (mem : Mem) (root : ℕ) (write : Bool) (va : ℕ) : Prop :=
  ∃ pa flags, translate mem root va = some (pa, flags) ∧ flags &&& pteU ≠ 0 ∧
    (write = true → flags &&& pteW ≠ 0)

/-- A copy gets to the page at `MAXVA`: it starts there or below, goes beyond, and may access
every page in between. -/
def ReachesTop (mem : Mem) (root : ℕ) (write : Bool) (addr len : ℕ) : Prop :=
  0 < len ∧ pgRoundDown addr ≤ maxVa ∧ maxVa < addr + len ∧
    ∀ page, page % pgSize = 0 → pgRoundDown addr ≤ page → page < maxVa →
      Accessible mem root write page

/-- The user may read the byte at `va`. -/
def ReadsByte (mem : Mem) (root va : ℕ) (byte : UInt8) : Prop :=
  va < maxVa ∧ ∃ pa flags, translate mem root va = some (pa, flags) ∧ flags &&& pteU ≠ 0 ∧
    mem pa = byte

/-- A string copy gets there: some byte it looks at lies in that page, and before it there
are only bytes that may be read and are not 0. -/
def StringReachesTop (mem : Mem) (root uaddr maxlen : ℕ) : Prop :=
  ∃ i < maxlen, pgRoundDown ((uaddr + i) % 2 ^ 64) = maxVa ∧
    ∀ j < i, ∃ byte, ReadsByte mem root ((uaddr + j) % 2 ^ 64) byte ∧ byte ≠ 0

/-! ## One page -/

theorem not_accessible_of_lookup_none {mem : Mem} {root va : ℕ} {write : Bool}
    (hlookup : lookup mem va 2 root = none) : ¬ Accessible mem root write va := by
  rintro ⟨pa, flags, htranslate, _⟩
  rw [translate, hlookup] at htranslate
  cases htranslate

/-- The checks of `copyin` and `copyout` on the entry they find. -/
theorem accessible_iff {mem : Mem} {root va leaf : ℕ} {write : Bool}
    (hlookup : lookup mem va 2 root = some leaf) :
    Accessible mem root write va ↔
      entry mem leaf (idx 0 va) &&& pteV ≠ 0 ∧ entry mem leaf (idx 0 va) &&& pteU ≠ 0 ∧
        (write = true → entry mem leaf (idx 0 va) &&& pteW ≠ 0) := by
  have htranslate : translate mem root va = meaning (entry mem leaf (idx 0 va)) va := by
    rw [translate, hlookup, Option.bind_some]
  rw [Accessible, htranslate, meaning]
  by_cases hvalid : Valid (entry mem leaf (idx 0 va))
  · rw [if_pos hvalid]
    constructor
    · rintro ⟨pa, flags, heq, huser, hwrite⟩
      obtain ⟨_, rfl⟩ := Prod.mk.injEq .. ▸ Option.some.inj heq
      rw [pteFlags_and (by decide)] at huser hwrite
      exact ⟨hvalid, huser, hwrite⟩
    · rintro ⟨_, huser, hwrite⟩
      refine ⟨_, _, rfl, ?_, ?_⟩
      · rwa [pteFlags_and (by decide)]
      · rwa [pteFlags_and (by decide)]
  · rw [if_neg hvalid]
    constructor
    · rintro ⟨_, _, heq, _⟩
      cases heq
    · rintro ⟨hv, _⟩
      exact absurd hv hvalid

section ReachesTop

variable {mem : Mem} {root : ℕ} {write : Bool} {addr len : ℕ}

theorem not_reachesTop_zero : ¬ ReachesTop mem root write addr 0 := fun h => absurd h.1 (lt_irrefl _)

theorem reachesTop_of_eq (hlen : 0 < len) (haddr : pgRoundDown addr = maxVa) :
    ReachesTop mem root write addr len := by
  have hle := pgRoundDown_le addr
  refine ⟨hlen, haddr.le, by omega, ?_⟩
  intro page _ hlo hhi
  omega

/-- From a page that may be accessed a copy goes on with the next page. -/
theorem reachesTop_next (hlow : pgRoundDown addr < maxVa)
    (haccess : Accessible mem root write (pgRoundDown addr)) :
    ReachesTop mem root write addr len ↔
      ReachesTop mem root write (pgRoundDown addr + pgSize)
        (len - min (pgSize - (addr - pgRoundDown addr)) len) := by
  have hle := pgRoundDown_le addr
  have hlt := lt_pgRoundDown_add addr
  have haligned := pgRoundDown_aligned addr
  have hnext : pgRoundDown (pgRoundDown addr + pgSize) = pgRoundDown addr + pgSize :=
    pgRoundDown_of_aligned (by rw [Nat.add_mod_right, haligned])
  have htop : pgRoundDown addr + pgSize ≤ maxVa := by
    simp only [pgSize, maxVa] at *
    omega
  rw [ReachesTop, ReachesTop, hnext]
  constructor
  · rintro ⟨_, _, hbeyond, hpages⟩
    refine ⟨by omega, htop, by omega, ?_⟩
    intro page hpage hlo hhi
    exact hpages page hpage (by omega) hhi
  · rintro ⟨hlen, _, hbeyond, hpages⟩
    refine ⟨by omega, hlow.le, by omega, ?_⟩
    intro page hpage hlo hhi
    by_cases hfirst : page = pgRoundDown addr
    · rw [hfirst]
      exact haccess
    · refine hpages page hpage ?_ hhi
      simp only [pgSize] at *
      omega

end ReachesTop

theorem map_eq_error_iff {α β : Type*} {x : Except Panic α} {f : α → β} {panic : Panic} :
    x.map f = .error panic ↔ x = .error panic := by
  cases x <;> simp [Except.map]

/-! ## `copyin` -/

theorem copyinLoop_panics_iff {pm : Pm} {root : ℕ} {rounds src len : ℕ} (hrounds : len ≤ rounds) :
    copyinLoop pm root rounds src len = .error .walk ↔ ReachesTop pm.mem root false src len := by
  induction rounds generalizing src len with
  | zero =>
      obtain rfl : len = 0 := by omega
      exact ⟨(fun h => by cases h), fun h => absurd h not_reachesTop_zero⟩
  | succ rounds ih =>
      rw [copyinLoop]
      by_cases hlen : len = 0
      · subst hlen
        rw [if_pos rfl]
        exact ⟨(fun h => by cases h), fun h => absurd h not_reachesTop_zero⟩
      rw [if_neg hlen]
      dsimp only
      by_cases hbeyond : maxVa < pgRoundDown src
      · rw [if_pos hbeyond]
        exact ⟨(fun h => by cases h), fun h => absurd h.2.1 (by omega)⟩
      rw [if_neg hbeyond]
      by_cases htop : pgRoundDown src = maxVa
      · rw [htop, walk, if_pos le_rfl]
        exact ⟨fun _ => reachesTop_of_eq (by omega) htop, fun _ => rfl⟩
      have hlow : pgRoundDown src < maxVa := by omega
      have hself := pgRoundDown_aligned src
      rw [walk_lookup hlow]
      cases hlookup : lookup pm.mem (pgRoundDown src) 2 root with
      | none =>
          refine ⟨(fun h => by cases h), fun h => ?_⟩
          exact absurd (h.2.2.2 _ hself le_rfl hlow) (not_accessible_of_lookup_none hlookup)
      | some leaf =>
          have haccess := @accessible_iff _ _ _ _ false hlookup
          simp only [Option.map_some]
          change (if entry pm.mem leaf _ &&& pteV = 0 ∨ entry pm.mem leaf _ &&& pteU = 0 then _
            else _) = _ ↔ _
          split
          · rename_i hbad
            refine ⟨(fun h => by cases h), fun h => ?_⟩
            have hgood := haccess.mp (h.2.2.2 _ hself le_rfl hlow)
            omega
          · rename_i hgood
            have hpage : Accessible pm.mem root false (pgRoundDown src) :=
              haccess.mpr ⟨by omega, by omega, (fun h => by cases h)⟩
            have hlt := lt_pgRoundDown_add src
            have hle := pgRoundDown_le src
            have hwrap : (pgRoundDown src + pgSize) % 2 ^ 64 = pgRoundDown src + pgSize := by
              apply Nat.mod_eq_of_lt
              simp only [pgSize, maxVa] at *
              omega
            rw [reachesTop_next hlow hpage, ← ih (show _ ≤ rounds by omega), hwrap,
              map_eq_error_iff]

theorem pgRoundDown_div (a : ℕ) : pgRoundDown a / pgSize = a / pgSize :=
  Nat.mul_div_cancel _ (by decide)

theorem ReadsByte.unique {mem : Mem} {root va : ℕ} {byte byte' : UInt8}
    (hleft : ReadsByte mem root va byte) (hright : ReadsByte mem root va byte') :
    byte = byte' := by
  obtain ⟨_, pa, flags, hpa, _, rfl⟩ := hleft
  obtain ⟨_, pa', flags', hpa', _, rfl⟩ := hright
  rw [hpa, Option.some.injEq, Prod.mk.injEq] at hpa'
  rw [hpa'.1]

/-- A one-byte `copyin`: it panics in the page at `MAXVA`, and otherwise copies the byte that the
user may read, or fails. -/
theorem copyin_one (pm : Pm) (root va : ℕ) :
    (pgRoundDown va = maxVa ∧ copyin pm root va 1 = .error .walk) ∨
    (pgRoundDown va ≠ maxVa ∧
      ((∃ byte, ReadsByte pm.mem root va byte ∧ copyin pm root va 1 = .ok (0, [byte])) ∨
        (∀ byte, ¬ ReadsByte pm.mem root va byte) ∧ copyin pm root va 1 = .ok (-1, []))) := by
  have hle := pgRoundDown_le va
  have hlt := lt_pgRoundDown_add va
  by_cases htop : pgRoundDown va = maxVa
  · exact .inl ⟨htop, (copyinLoop_panics_iff le_rfl).mpr (reachesTop_of_eq (by decide) htop)⟩
  refine .inr ⟨htop, ?_⟩
  rw [copyin, copyinLoop, if_neg (by decide)]
  dsimp only
  by_cases hbeyond : maxVa < pgRoundDown va
  · rw [if_pos hbeyond]
    refine .inr ⟨?_, rfl⟩
    rintro byte ⟨hva, _⟩
    omega
  have hlow : pgRoundDown va < maxVa := by omega
  have hva : va < maxVa := by
    have haligned := pgRoundDown_aligned va
    simp only [pgSize, maxVa] at *
    omega
  have hlookups := @lookup_page pm.mem _ _ (pgRoundDown_div va) 2 root
  rw [if_neg hbeyond, walk_lookup hlow, hlookups]
  cases hlookup : lookup pm.mem va 2 root with
  | none =>
      refine .inr ⟨?_, rfl⟩
      rintro byte ⟨_, pa, flags, hpa, _⟩
      rw [translate, hlookup] at hpa
      cases hpa
  | some leaf =>
      have htranslate : translate pm.mem root va = meaning (entry pm.mem leaf (idx 0 va)) va := by
        rw [translate, hlookup, Option.bind_some]
      simp only [Option.map_some, idx_page (pgRoundDown_div va)]
      have hread : readPte pm.mem (leaf + 8 * idx 0 va) = entry pm.mem leaf (idx 0 va) := rfl
      rw [hread]
      by_cases hbad : entry pm.mem leaf (idx 0 va) &&& pteV = 0 ∨
          entry pm.mem leaf (idx 0 va) &&& pteU = 0
      · refine .inr ⟨?_, if_pos hbad⟩
        rintro byte ⟨_, pa, flags, hpa, huser, _⟩
        rw [htranslate, meaning] at hpa
        split at hpa
        · rename_i hvalid
          obtain ⟨_, rfl⟩ := Prod.mk.injEq .. ▸ Option.some.inj hpa
          rw [pteFlags_and (by decide)] at huser
          exact hbad.elim hvalid huser
        · cases hpa
      · obtain ⟨hvalid, huser⟩ := not_or.mp hbad
        have hoff : va - pgRoundDown va = va % pgSize := by
          simp only [pgRoundDown, pgSize]
          omega
        have hone : min (pgSize - va % pgSize) 1 = 1 := by
          simp only [pgSize]
          omega
        refine .inl ⟨_, ⟨hva, pte2pa (entry pm.mem leaf (idx 0 va)) + va % pgSize,
          pteFlags (entry pm.mem leaf (idx 0 va)), ?_, ?_, rfl⟩, ?_⟩
        · rw [htranslate, meaning, if_pos (show Valid _ from hvalid)]
        · rwa [pteFlags_and (by decide)]
        · rw [if_neg hbad, hoff, hone, copyinLoop]
          rfl

theorem transstrLoop_panics_iff {pm : Pm} {root uaddr i left : ℕ} :
    transstrLoop pm root uaddr i left = .error .walk ↔
      ∃ k, i ≤ k ∧ k < i + left ∧ pgRoundDown ((uaddr + k) % 2 ^ 64) = maxVa ∧
        ∀ j, i ≤ j → j < k →
          ∃ byte, ReadsByte pm.mem root ((uaddr + j) % 2 ^ 64) byte ∧ byte ≠ 0 := by
  induction left generalizing i with
  | zero =>
      refine ⟨nofun, ?_⟩
      rintro ⟨k, hlo, hhi, _⟩
      omega
  | succ left ih =>
      rw [transstrLoop]
      obtain ⟨htop, hcopy⟩ | ⟨hnot, ⟨byte, hbyte, hcopy⟩ | ⟨hnone, hcopy⟩⟩ :=
        copyin_one pm root ((uaddr + i) % 2 ^ 64)
      · rw [hcopy]
        refine ⟨fun _ => ⟨i, le_rfl, by omega, htop, fun j hlo hhi => by omega⟩, fun _ => rfl⟩
      · rw [hcopy]
        dsimp only
        rw [if_neg (by decide)]
        by_cases hzero : byte = 0
        · rw [if_pos (by rw [hzero])]
          refine ⟨nofun, ?_⟩
          rintro ⟨k, hlo, hhi, htop, hall⟩
          by_cases hk : k = i
          · exact absurd (hk ▸ htop) hnot
          · obtain ⟨byte', hbyte', hne⟩ := hall i le_rfl (by omega)
            exact absurd ((hbyte.unique hbyte').symm.trans hzero) hne
        · rw [if_neg (by simpa using hzero), map_eq_error_iff, ih]
          constructor
          · rintro ⟨k, hlo, hhi, htop, hall⟩
            refine ⟨k, by omega, by omega, htop, ?_⟩
            intro j hlo' hhi'
            by_cases hj : j = i
            · exact hj ▸ ⟨byte, hbyte, hzero⟩
            · exact hall j (by omega) hhi'
          · rintro ⟨k, hlo, hhi, htop, hall⟩
            have hk : k ≠ i := by
              rintro rfl
              exact hnot htop
            exact ⟨k, by omega, by omega, htop, fun j hlo' hhi' => hall j (by omega) hhi'⟩
      · rw [hcopy]
        dsimp only
        rw [if_pos (by decide)]
        refine ⟨nofun, ?_⟩
        rintro ⟨k, hlo, hhi, htop, hall⟩
        by_cases hk : k = i
        · exact absurd (hk ▸ htop) hnot
        · obtain ⟨byte, hbyte, _⟩ := hall i le_rfl (by omega)
          exact absurd hbyte (hnone byte)

/-! ## `copyout` -/

/-- The frames that the user may access are no tables. -/
def FramesApart (mem : Mem) (root : ℕ) (tables : ℕ → Set ℕ) : Prop :=
  ∀ va pa flags, va < maxVa → translate mem root va = some (pa, flags) →
    flags &&& pteU ≠ 0 → Outside tables pa

section Copyout

variable {mem mem' : Mem} {root : ℕ} {tables : ℕ → Set ℕ}

theorem FramesApart.frame (hframes : FramesApart mem root tables)
    (htranslate : ∀ va, translate mem' root va = translate mem root va) :
    FramesApart mem' root tables := by
  intro va pa flags hva hpa huser
  rw [htranslate] at hpa
  exact hframes va pa flags hva hpa huser

theorem reachesTop_frame (htranslate : ∀ va, translate mem' root va = translate mem root va)
    (write : Bool) (addr len : ℕ) :
    ReachesTop mem' root write addr len ↔ ReachesTop mem root write addr len := by
  simp only [ReachesTop, Accessible, htranslate]

/-- A piece that `copyout` writes lies in a frame of the user. -/
theorem piece_outside {va leaf : ℕ} (hframes : FramesApart mem root tables) (hva : va < maxVa)
    (haligned : va % pgSize = 0) (hlookup : lookup mem va 2 root = some leaf)
    (hvalid : entry mem leaf (idx 0 va) &&& pteV ≠ 0)
    (huser : entry mem leaf (idx 0 va) &&& pteU ≠ 0) {x : ℕ}
    (hlo : pte2pa (entry mem leaf (idx 0 va)) ≤ x)
    (hhi : x < pte2pa (entry mem leaf (idx 0 va)) + pgSize) : Outside tables x := by
  have htranslate : translate mem root va =
      some (pte2pa (entry mem leaf (idx 0 va)) + va % pgSize, pteFlags (entry mem leaf (idx 0 va))) := by
    rw [translate, hlookup, Option.bind_some, meaning, if_pos (show Valid _ from hvalid)]
  have hout := hframes va _ _ hva htranslate (by rwa [pteFlags_and (by decide)])
  have hframe := pte2pa_aligned (entry mem leaf (idx 0 va))
  have hround : pgRoundDown x = pgRoundDown (pte2pa (entry mem leaf (idx 0 va)) + va % pgSize) := by
    simp only [pgRoundDown, pgSize] at *
    omega
  intro level hlevel
  rw [hround]
  exact hout level hlevel

theorem copyoutLoop_panics_iff {pm : Pm} {src : ℕ → UInt8} {rounds dst done len : ℕ}
    (hwf : WellFormed pm.mem root tables) (hframes : FramesApart pm.mem root tables)
    (hrounds : len ≤ rounds) :
    (copyoutLoop root src rounds pm dst done len).1 = .error .walk ↔
      ReachesTop pm.mem root true dst len := by
  induction rounds generalizing pm dst done len with
  | zero =>
      obtain rfl : len = 0 := by omega
      exact ⟨(fun h => by cases h), fun h => absurd h not_reachesTop_zero⟩
  | succ rounds ih =>
      rw [copyoutLoop]
      by_cases hlen : len = 0
      · subst hlen
        rw [if_pos rfl]
        exact ⟨(fun h => by cases h), fun h => absurd h not_reachesTop_zero⟩
      rw [if_neg hlen]
      dsimp only
      by_cases hbeyond : maxVa < pgRoundDown dst
      · rw [if_pos hbeyond]
        exact ⟨(fun h => by cases h), fun h => absurd h.2.1 (by omega)⟩
      rw [if_neg hbeyond]
      by_cases htop : pgRoundDown dst = maxVa
      · rw [htop, walk, if_pos le_rfl]
        exact ⟨fun _ => reachesTop_of_eq (by omega) htop, fun _ => rfl⟩
      have hlow : pgRoundDown dst < maxVa := by omega
      have hself := pgRoundDown_aligned dst
      rw [walk_lookup hlow]
      cases hlookup : lookup pm.mem (pgRoundDown dst) 2 root with
      | none =>
          refine ⟨(fun h => by cases h), fun h => ?_⟩
          exact absurd (h.2.2.2 _ hself le_rfl hlow) (not_accessible_of_lookup_none hlookup)
      | some leaf =>
          have haccess := @accessible_iff _ _ _ _ true hlookup
          simp only [Option.map_some]
          have hread : readPte pm.mem (leaf + 8 * idx 0 (pgRoundDown dst)) =
            entry pm.mem leaf (idx 0 (pgRoundDown dst)) := rfl
          rw [hread]
          split
          · rename_i hbad
            refine ⟨(fun h => by cases h), fun h => ?_⟩
            obtain ⟨hv, hu, hw⟩ := haccess.mp (h.2.2.2 _ hself le_rfl hlow)
            exact absurd hbad (by simp only [hv, hu, hw rfl, or_self, not_false_eq_true])
          · rename_i hgood
            obtain ⟨hv, hu, hw⟩ := not_or.mp hgood |>.imp_right not_or.mp
            have hpage : Accessible pm.mem root true (pgRoundDown dst) :=
              haccess.mpr ⟨hv, hu, fun _ => hw⟩
            have hlt := lt_pgRoundDown_add dst
            have hle := pgRoundDown_le dst
            have hwrap : (pgRoundDown dst + pgSize) % 2 ^ 64 = pgRoundDown dst + pgSize := by
              apply Nat.mod_eq_of_lt
              simp only [pgSize, maxVa] at *
              omega
            have hsame : ∀ x, ¬ Outside tables x →
                blit pm.mem (pte2pa (entry pm.mem leaf (idx 0 (pgRoundDown dst))) +
                  (dst - pgRoundDown dst)) (fun k => src (done + k))
                  (min (pgSize - (dst - pgRoundDown dst)) len) x = pm.mem x := by
              intro x hx
              rw [blit, if_neg]
              rintro ⟨hxlo, hxhi⟩
              exact hx (piece_outside hframes hlow hself hlookup hv hu (by omega) (by omega))
            have htranslate := hwf.translate_frame hsame
            rw [reachesTop_next hlow hpage, ← reachesTop_frame htranslate, hwrap]
            exact ih (hwf.frame hsame) (hframes.frame htranslate) (by omega)

/-- The user may write the byte at `va`. -/
def Writable (mem : Mem) (root va : ℕ) : Prop := va < maxVa ∧ Accessible mem root true va

theorem accessible_page {write : Bool} {va va' : ℕ} (hpage : va / pgSize = va' / pgSize) :
    Accessible mem root write va ↔ Accessible mem root write va' := by
  constructor
  · rintro ⟨pa, flags, hpa, hflags⟩
    exact ⟨_, flags, translate_page hpage hpa, hflags⟩
  · rintro ⟨pa, flags, hpa, hflags⟩
    exact ⟨_, flags, translate_page hpage.symm hpa, hflags⟩

/-- What `copyout` does when the user's table ends with the trampoline: it copies all bytes, or
those before the first one that the user may not write. -/
structure CopiedOut (mem mem' : Mem) (root : ℕ) (tables : ℕ → Set ℕ) (dst len : ℕ)
    (result : Except Panic ℤ) : Prop where
  result : (result = .ok 0 ∧ ∀ j < len, Writable mem root (dst + j)) ∨
    (result = .ok (-1) ∧ ¬ ∀ j < len, Writable mem root (dst + j))
  changed : ∀ x, mem' x ≠ mem x → ∃ k < len, (∀ j ≤ k, Writable mem root (dst + j)) ∧
    ∃ flags, translate mem root (dst + k) = some (x, flags) ∧ flags &&& pteU ≠ 0
  tables : ∀ x, ¬ Outside tables x → mem' x = mem x

theorem copiedOut_none {dst len : ℕ} (hnot : ¬ Writable mem root dst) (hlen : 0 < len) :
    CopiedOut mem mem root tables dst len (.ok (-1)) :=
  ⟨.inr ⟨rfl, fun h => hnot (h 0 hlen)⟩, fun _ h => absurd rfl h, fun _ _ => rfl⟩

theorem copiedOut_zero (dst : ℕ) : CopiedOut mem mem root tables dst 0 (.ok 0) :=
  ⟨.inl ⟨rfl, fun j hj => by omega⟩, fun _ h => absurd rfl h, fun _ _ => rfl⟩

/-- A piece in one page, and then the rest. -/
theorem CopiedOut.cons {piece : Mem} {dst next n rest : ℕ} {result : Except Panic ℤ}
    (hwf : WellFormed mem root tables)
    (hwritable : ∀ j < n, Writable mem root (dst + j))
    (hpiece : ∀ x, piece x ≠ mem x → ∃ k < n, ∃ flags,
      translate mem root (dst + k) = some (x, flags) ∧ flags &&& pteU ≠ 0)
    (htables : ∀ x, ¬ Outside tables x → piece x = mem x)
    (hnext : 0 < rest → next = dst + n)
    (hrest : CopiedOut piece mem' root tables next rest result) :
    CopiedOut mem mem' root tables dst (n + rest) result := by
  have htranslate := hwf.translate_frame htables
  have hsame : ∀ va, Writable piece root va ↔ Writable mem root va := by
    intro va
    simp only [Writable, Accessible, htranslate]
  have hlater : ∀ k < rest, (∀ j ≤ k, Writable piece root (next + j)) →
      ∀ j ≤ n + k, Writable mem root (dst + j) := by
    intro k hk hall j hj
    by_cases hfirst : j < n
    · exact hwritable j hfirst
    · have hj' := (hsame _).mp (hall (j - n) (by omega))
      rwa [hnext (by omega), show dst + n + (j - n) = dst + j by omega] at hj'
  refine ⟨?_, ?_, ?_⟩
  · obtain ⟨hresult, hall⟩ | ⟨hresult, hnot⟩ := hrest.result
    · refine .inl ⟨hresult, ?_⟩
      intro j hj
      by_cases hfirst : j < n
      · exact hwritable j hfirst
      · exact hlater (j - n) (by omega) (fun i hi => hall i (by omega)) j (by omega)
    · refine .inr ⟨hresult, fun hall => hnot fun j hj => ?_⟩
      rw [hsame, hnext (by omega), Nat.add_assoc]
      exact hall (n + j) (by omega)
  · intro x hx
    by_cases hearly : piece x = mem x
    · rw [← hearly] at hx
      obtain ⟨k, hk, hall, flags, hpa, huser⟩ := hrest.changed x hx
      refine ⟨n + k, by omega, hlater k hk hall, flags, ?_, huser⟩
      rw [htranslate, hnext (by omega), Nat.add_assoc] at hpa
      exact hpa
    · obtain ⟨k, hk, flags, hpa, huser⟩ := hpiece x hearly
      exact ⟨k, by omega, fun j hj => hwritable j (by omega), flags, hpa, huser⟩
  · intro x hx
    rw [hrest.tables x hx, htables x hx]

/-- A piece that `copyout` writes inside one page. -/
theorem piece_spec {dst leaf n : ℕ} (hframes : FramesApart mem root tables)
    (hlow : pgRoundDown dst < maxVa) (hlookup : lookup mem (pgRoundDown dst) 2 root = some leaf)
    (hv : entry mem leaf (idx 0 (pgRoundDown dst)) &&& pteV ≠ 0)
    (hu : entry mem leaf (idx 0 (pgRoundDown dst)) &&& pteU ≠ 0)
    (hw : entry mem leaf (idx 0 (pgRoundDown dst)) &&& pteW ≠ 0) (bytes : ℕ → UInt8)
    (hn : n ≤ pgSize - (dst - pgRoundDown dst)) :
    (∀ k < n, Writable mem root (dst + k)) ∧
      (∀ x, blit mem (pte2pa (entry mem leaf (idx 0 (pgRoundDown dst))) + (dst - pgRoundDown dst))
          bytes n x ≠ mem x →
        ∃ k < n, ∃ flags, translate mem root (dst + k) = some (x, flags) ∧ flags &&& pteU ≠ 0) ∧
      ∀ x, ¬ Outside tables x →
        blit mem (pte2pa (entry mem leaf (idx 0 (pgRoundDown dst))) + (dst - pgRoundDown dst))
          bytes n x = mem x := by
  have hself := pgRoundDown_aligned dst
  have hflags : translate mem root (pgRoundDown dst) =
      some (pte2pa (entry mem leaf (idx 0 (pgRoundDown dst))),
        pteFlags (entry mem leaf (idx 0 (pgRoundDown dst)))) := by
    rw [translate, hlookup, Option.bind_some, meaning, if_pos (show Valid _ from hv), hself,
      Nat.add_zero]
  have hpage : Accessible mem root true (pgRoundDown dst) :=
    (accessible_iff hlookup).mpr ⟨hv, hu, fun _ => hw⟩
  have hinside : ∀ k < n, (dst + k) / pgSize = pgRoundDown dst / pgSize ∧
      (dst + k) % pgSize = dst - pgRoundDown dst + k ∧ dst + k < maxVa := by
    intro k hk
    simp only [pgRoundDown, pgSize, maxVa] at *
    omega
  have hin : ∀ x, blit mem (pte2pa (entry mem leaf (idx 0 (pgRoundDown dst))) +
      (dst - pgRoundDown dst)) bytes n x ≠ mem x →
      ∃ k < n, x = pte2pa (entry mem leaf (idx 0 (pgRoundDown dst))) +
        (dst - pgRoundDown dst + k) := by
    intro x hx
    rw [blit] at hx
    split at hx
    · rename_i hin
      exact ⟨x - (pte2pa (entry mem leaf (idx 0 (pgRoundDown dst))) + (dst - pgRoundDown dst)),
        by omega, by omega⟩
    · exact absurd rfl hx
  refine ⟨fun k hk => ?_, fun x hx => ?_, fun x hx => ?_⟩
  · obtain ⟨hdiv, _, hlt⟩ := hinside k hk
    exact ⟨hlt, (accessible_page hdiv).mpr hpage⟩
  · obtain ⟨k, hk, rfl⟩ := hin x hx
    obtain ⟨hdiv, hmod, _⟩ := hinside k hk
    refine ⟨k, hk, _, ?_, by rwa [pteFlags_and (by decide)]⟩
    rw [translate_page hdiv.symm hflags, hself, hmod, Nat.sub_zero]
  · by_contra hne
    obtain ⟨k, hk, rfl⟩ := hin x hne
    exact hx (piece_outside hframes hlow hself hlookup hv hu (by omega) (by omega))

theorem copyoutLoop_spec {pm : Pm} {src : ℕ → UInt8} {rounds dst done len : ℕ}
    (hwf : WellFormed pm.mem root tables) (hframes : FramesApart pm.mem root tables)
    (htramp : ¬ Accessible pm.mem root true trampoline) (hdst : dst < maxVa)
    (hrounds : len ≤ rounds) :
    CopiedOut pm.mem (copyoutLoop root src rounds pm dst done len).2.mem root tables dst len
      (copyoutLoop root src rounds pm dst done len).1 := by
  induction rounds generalizing pm dst done len with
  | zero =>
      obtain rfl : len = 0 := by omega
      exact copiedOut_zero dst
  | succ rounds ih =>
      by_cases hlen : len = 0
      · subst hlen
        rw [copyoutLoop, if_pos rfl]
        exact copiedOut_zero dst
      have hle := pgRoundDown_le dst
      have hlt := lt_pgRoundDown_add dst
      have hlow : pgRoundDown dst < maxVa := by omega
      have hself := pgRoundDown_aligned dst
      have hround := pgRoundDown_div dst
      rw [copyoutLoop, if_neg hlen]
      dsimp only
      rw [if_neg (by omega), walk_lookup hlow]
      cases hlookup : lookup pm.mem (pgRoundDown dst) 2 root with
      | none =>
          refine copiedOut_none (fun hwritable => ?_) (by omega)
          exact not_accessible_of_lookup_none hlookup ((accessible_page hround).mpr hwritable.2)
      | some leaf =>
          have haccess := @accessible_iff _ _ _ _ true hlookup
          have hread : readPte pm.mem (leaf + 8 * idx 0 (pgRoundDown dst)) =
            entry pm.mem leaf (idx 0 (pgRoundDown dst)) := rfl
          simp only [Option.map_some]
          rw [hread]
          split
          · rename_i hbad
            refine copiedOut_none (fun hwritable => ?_) (by omega)
            obtain ⟨hv, hu, hw⟩ := haccess.mp ((accessible_page hround).mpr hwritable.2)
            exact absurd hbad (by simp only [hv, hu, hw rfl, or_self, not_false_eq_true])
          · rename_i hgood
            obtain ⟨hv, hu, hw⟩ := not_or.mp hgood |>.imp_right not_or.mp
            have hpage : Accessible pm.mem root true (pgRoundDown dst) :=
              haccess.mpr ⟨hv, hu, fun _ => hw⟩
            have hnext : pgRoundDown dst + pgSize < maxVa := by
              have hne : pgRoundDown dst ≠ trampoline := by
                intro heq
                exact htramp (heq ▸ hpage)
              simp only [pgSize, maxVa, trampoline] at *
              omega
            have hwrap : (pgRoundDown dst + pgSize) % 2 ^ 64 = pgRoundDown dst + pgSize :=
              Nat.mod_eq_of_lt (hnext.trans (by decide))
            obtain ⟨hwritable, hpiece, htables⟩ := piece_spec hframes hlow hlookup hv hu hw
              (fun k => src (done + k))
              (Nat.min_le_left (pgSize - (dst - pgRoundDown dst)) len)
            generalize blit pm.mem (pte2pa (entry pm.mem leaf (idx 0 (pgRoundDown dst))) +
              (dst - pgRoundDown dst)) (fun k => src (done + k))
              (min (pgSize - (dst - pgRoundDown dst)) len) = piece at hpiece htables ⊢
            generalize hn : min (pgSize - (dst - pgRoundDown dst)) len = n at *
            have htranslate := hwf.translate_frame htables
            have hwf' : WellFormed (Pm.mk piece pm.freelist).mem root tables := hwf.frame htables
            have htramp' : ¬ Accessible piece root true trampoline := by
              simpa only [Accessible, htranslate] using htramp
            have hrest := @ih ⟨piece, pm.freelist⟩ (pgRoundDown dst + pgSize) (done + n) (len - n)
              hwf' (hframes.frame htranslate) htramp' hnext (by omega)
            have hall := hrest.cons hwf hwritable hpiece htables (fun hmore => by omega)
            rw [show n + (len - n) = len by omega] at hall
            rw [hwrap]
            exact hall

end Copyout

/-! ## All of them -/

theorem validUserArg_panics_iff {pm : Pm} {root addr : ℕ} (hroot : root ≠ 0) :
    validUserArg pm (some root) addr = .error .walk ↔ maxVa ≤ addr := by
  rw [validUserArg, if_neg hroot, map_eq_error_iff, walk]
  split
  · rename_i htop
    exact ⟨fun _ => htop, fun _ => rfl⟩
  · rename_i htop
    exact ⟨(fun h => by cases h), fun h => absurd h htop⟩

theorem transstr_panics_iff {pm : Pm} {root uaddr maxlen : ℕ} :
    transstr pm root uaddr maxlen = .error .walk ↔ StringReachesTop pm.mem root uaddr maxlen := by
  rw [transstr, map_eq_error_iff, transstrLoop_panics_iff, StringReachesTop]
  constructor
  · rintro ⟨k, _, hhi, htop, hall⟩
    exact ⟨k, by omega, htop, fun j hj => hall j (Nat.zero_le j) hj⟩
  · rintro ⟨k, hhi, htop, hall⟩
    exact ⟨k, Nat.zero_le k, by omega, htop, fun j _ hj => hall j hj⟩

/-- With any user page table, the argument checks and the copies keep out of the panic of
`walk` exactly as long as they do not get to the page at `MAXVA`. -/
theorem userAccess_noPanic_iff {pm : Pm} {root : ℕ} {tables : ℕ → Set ℕ} (hroot : root ≠ 0)
    (hwf : WellFormed pm.mem root tables) (hframes : FramesApart pm.mem root tables) :
    (∀ addr, validUserArg pm (some root) addr ≠ .error .walk ↔ addr < maxVa) ∧
      (∀ dst src len, (copyout pm root dst src len).1 ≠ .error .walk ↔
        ¬ ReachesTop pm.mem root true dst len) ∧
      (∀ src len, copyin pm root src len ≠ .error .walk ↔
        ¬ ReachesTop pm.mem root false src len) ∧
      ∀ uaddr maxlen, transstr pm root uaddr maxlen ≠ .error .walk ↔
        ¬ StringReachesTop pm.mem root uaddr maxlen := by
  refine ⟨fun addr => ?_, fun dst src len => ?_, fun src len => ?_, fun uaddr maxlen => ?_⟩
  · rw [ne_eq, validUserArg_panics_iff hroot, not_le]
  · exact not_congr (copyoutLoop_panics_iff hwf hframes le_rfl)
  · exact not_congr (copyinLoop_panics_iff le_rfl)
  · exact not_congr transstr_panics_iff

/-- A zeroed page as the root of an empty table. -/
def emptyTable : ℕ := 0x80301000

def zeroPm : Pm := ⟨fun _ => 0, []⟩

theorem zero_entry (i : ℕ) : entry zeroPm.mem emptyTable i = 0 := by
  simp [entry, readPte, load, zeroPm]

theorem userAccess_emptyTable :
    validUserArg zeroPm (some emptyTable) 0x1000 ≠ .error .walk ∧
      copyin zeroPm emptyTable (maxVa - 1) 2 ≠ .error .walk := by
  have hframes : FramesApart zeroPm.mem emptyTable (rootOnly emptyTable) := by
    intro va pa flags _ hpa
    rw [translate_rootOnly fun i _ => zero_entry i] at hpa
    cases hpa
  have hwf : WellFormed zeroPm.mem emptyTable (rootOnly emptyTable) :=
    wellFormed_rootOnly (by decide) fun i _ => zero_entry i
  obtain ⟨hvalid, _, hcopyin, _⟩ := userAccess_noPanic_iff (by decide) hwf hframes
  refine ⟨(hvalid _).mpr (by decide), (hcopyin _ _).mpr ?_⟩
  rintro ⟨_, _, _, hpages⟩
  obtain ⟨pa, flags, hpa, _⟩ := hpages (maxVa - pgSize) (by decide) (by decide) (by decide)
  rw [translate_rootOnly fun i _ => zero_entry i] at hpa
  cases hpa

/-- At `MAXVA` all of them reach the panic. -/
theorem userAccess_top :
    validUserArg zeroPm (some emptyTable) maxVa = .error .walk ∧
      (copyout zeroPm emptyTable maxVa (fun _ => 0) 1).1 = .error .walk ∧
      copyin zeroPm emptyTable maxVa 1 = .error .walk ∧
      transstr zeroPm emptyTable maxVa 32 = .error .walk :=
  ⟨rfl, rfl, rfl, rfl⟩

end Painting.PageTable
