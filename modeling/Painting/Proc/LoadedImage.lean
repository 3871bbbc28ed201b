import Painting.Proc.Loader

/-!
# The image that the loader leaves

Every segment is allocated above the ones before it, so that later segments and
the stack leave its pages alone.  Within one segment the pieces read from the
file and the pieces cleared lie one after another in user memory, whatever
frames hold them.
-/

namespace Painting.Loader

open Painting.Memory Painting.PageTable
open Painting.Process (Proc)

variable {kernelEnd root : ℕ} {region : Set ℕ} {pm pm' : Pm} {tables : ℕ → Set ℕ}

/-! ## Writing through `walkaddr` -/

/-- A write of `m` bytes from `dst` on that goes to user pages and to no table. -/
structure Wrote (pm pm' : Pm) (root : ℕ) (tables : ℕ → Set ℕ) (dst : ℕ) (src : ℕ → UInt8)
    (m : ℕ) : Prop where
  written : Written pm.mem pm'.mem root dst src m
  access : ∀ k < m, Accessible pm.mem root false (dst + k)
  tables : ∀ x, ¬ Outside tables x → pm'.mem x = pm.mem x
  list : pm'.freelist = pm.freelist

theorem Wrote.zero (pm : Pm) (root : ℕ) (tables : ℕ → Set ℕ) (dst : ℕ) (src : ℕ → UInt8) :
    Wrote pm pm root tables dst src 0 :=
  ⟨Written.zero _ _ _ _, fun _ hk => absurd hk (Nat.not_lt_zero _), fun _ _ => rfl, rfl⟩

theorem Wrote.owned {dst m : ℕ} {src : ℕ → UInt8} (hwrote : Wrote pm pm' root tables dst src m)
    (hown : Owned kernelEnd region pm root tables) : Owned kernelEnd region pm' root tables := by
  have hwrite := hown.write hwrote.tables
  rwa [← hwrote.list] at hwrite

theorem Wrote.append {middle : Pm} {dst n m : ℕ} {src : ℕ → UInt8}
    (hown : Owned kernelEnd region pm root tables) (hrange : dst + (n + m) ≤ maxVa)
    (hleft : Wrote pm middle root tables dst src n)
    (hright : Wrote middle pm' root tables (dst + n) (fun k => src (n + k)) m) :
    Wrote pm pm' root tables dst src (n + m) := by
  have hrest : ∀ k < m, Accessible pm.mem root false (dst + n + k) := fun k hk =>
    (hleft.written.accessible false _).mp (hright.access k hk)
  refine ⟨hleft.written.append hown.mappedOnce hrange hleft.access hrest hright.written,
    fun k hk => ?_, fun x hx => (hright.tables x hx).trans (hleft.tables x hx),
    hright.list.trans hleft.list⟩
  by_cases hearly : k < n
  · exact hleft.access k hearly
  · have hlate := hrest (k - n) (by omega)
    rwa [show dst + n + (k - n) = dst + k by omega] at hlate

/-- `walkaddr` finds the frame of a page of the user. -/
theorem walkaddr_spec {va : ℕ} (hne : walkaddr pm root va ≠ 0) :
    va < maxVa ∧ ∃ leaf, lookup pm.mem va 2 root = some leaf ∧
      entry pm.mem leaf (idx 0 va) &&& pteV ≠ 0 ∧ entry pm.mem leaf (idx 0 va) &&& pteU ≠ 0 ∧
      walkaddr pm root va = pte2pa (entry pm.mem leaf (idx 0 va)) := by
  rw [walkaddr] at hne ⊢
  split at hne
  · exact absurd rfl hne
  · rename_i hlow
    rw [not_le] at hlow
    rw [if_neg (not_le.mpr hlow)]
    rw [walkLoop_lookup] at hne ⊢
    refine ⟨hlow, ?_⟩
    cases hlookup : lookup pm.mem va 2 root with
    | none =>
        rw [hlookup] at hne
        exact absurd rfl hne
    | some leaf =>
        rw [hlookup] at hne
        dsimp only [Option.map_some] at hne ⊢
        have hread : readPte pm.mem (leaf + 8 * idx 0 va) = entry pm.mem leaf (idx 0 va) := rfl
        rw [hread] at hne ⊢
        split at hne
        · exact absurd rfl hne
        · rename_i hvalid
          split at hne
          · exact absurd rfl hne
          · rename_i huser
            rw [if_neg hvalid, if_neg huser]
            exact ⟨leaf, rfl, hvalid, huser, rfl⟩

/-- A piece in the page that `walkaddr` has found. -/
theorem wrote_piece (hown : Owned kernelEnd region pm root tables) {dst n : ℕ}
    (hne : walkaddr pm root (pgRoundDown dst) ≠ 0) (src : ℕ → UInt8)
    (hn : n ≤ pgSize - (dst - pgRoundDown dst)) :
    dst + n ≤ maxVa ∧
      Wrote pm ⟨blit pm.mem (walkaddr pm root (pgRoundDown dst) + (dst - pgRoundDown dst)) src n,
        pm.freelist⟩ root tables dst src n := by
  obtain ⟨hlow, leaf, hlookup, hvalid, huser, hpa⟩ := walkaddr_spec hne
  have hself := pgRoundDown_aligned dst
  have hle := pgRoundDown_le dst
  have hlt := lt_pgRoundDown_add dst
  rw [hpa]
  have htables : ∀ x, ¬ Outside tables x →
      blit pm.mem (pte2pa (entry pm.mem leaf (idx 0 (pgRoundDown dst))) + (dst - pgRoundDown dst))
        src n x = pm.mem x := by
    intro x hx
    rw [blit, if_neg]
    rintro ⟨hlo, hhi⟩
    exact hx (piece_outside hown.framesApart hlow hself hlookup hvalid huser (by omega) (by omega))
  refine ⟨?_, written_blit hown.tree hlookup hvalid src hn htables, fun k hk => ?_, htables, rfl⟩
  · simp only [pgSize, maxVa] at *
    omega
  · have hpage : pgRoundDown dst / pgSize = (dst + k) / pgSize := by
      simp only [pgRoundDown, pgSize] at *
      omega
    refine (accessible_page hpage).mp ((accessible_iff hlookup).mpr ⟨hvalid, huser, ?_⟩)
    exact fun h => by cases h

theorem fill_eq_blit (mem : Mem) (addr count : ℕ) (value : UInt8) :
    fill mem addr value count = blit mem addr (fun _ => value) count := rfl

theorem readLoop_done {file : File} {va filesz pos i : ℕ} (rounds : ℕ) (hi : filesz ≤ i) :
    readLoop root file va filesz rounds pos i pm = (true, pm) := by
  cases rounds with
  | zero => rfl
  | succ rounds => rw [readLoop, if_neg (not_lt.mpr hi)]

/-- The first loop of `loadseg` reads the bytes of the file into the segment. -/
theorem readLoop_wrote {file : File} {va filesz : ℕ} (hva : va % pgSize = 0) (rounds : ℕ)
    {pos i : ℕ} {pm : Pm} (hi : i % pgSize = 0)
    (hown : Owned kernelEnd region pm root tables) (hrounds : filesz ≤ i + rounds * pgSize)
    (hloop : readLoop root file va filesz rounds pos i pm = (true, pm')) :
    (i < filesz → va + filesz ≤ maxVa) ∧
      Wrote pm pm' root tables (va + i) (fun k => file.bytes (pos + k)) (filesz - i) := by
  induction rounds generalizing pos i pm with
  | zero =>
      rw [readLoop_done 0 (by omega)] at hloop
      obtain rfl := (Prod.mk.inj hloop).2
      rw [Nat.sub_eq_zero_of_le (by omega)]
      exact ⟨fun hlt => by omega, Wrote.zero _ _ _ _ _⟩
  | succ rounds ih =>
      by_cases hlt : i < filesz
      · have hround : pgRoundDown (va + i) = va + i := by
          apply pgRoundDown_of_aligned
          rw [Nat.add_mod, hva, hi]
          rfl
        rw [readLoop, if_pos hlt] at hloop
        dsimp only at hloop
        split at hloop
        · cases hloop
        rename_i hne
        split at hloop
        · cases hloop
        rename_i hread
        rw [not_not] at hread
        rw [File.readTo, hread] at hloop
        rw [← hround] at hne
        obtain ⟨hrange, hwrote⟩ := wrote_piece hown hne (fun k => file.bytes (pos + k))
          (show min (filesz - i) pgSize ≤ pgSize - (va + i - pgRoundDown (va + i)) by
            rw [hround, Nat.sub_self]
            exact min_le_right _ _)
        rw [hround, Nat.sub_self, Nat.add_zero] at hwrote
        by_cases hmore : i + pgSize < filesz
        · have hpiece : min (filesz - i) pgSize = pgSize := min_eq_right (by omega)
          rw [hpiece] at hwrote hloop
          obtain ⟨hend, hrest⟩ := ih (by rw [Nat.add_mod_right, hi]) (hwrote.owned hown)
            (by rw [Nat.succ_mul] at hrounds; omega) hloop
          have hsrc : (fun k => file.bytes (pos + pgSize + k)) =
              fun k => file.bytes (pos + (pgSize + k)) := by
            funext k
            rw [Nat.add_assoc]
          rw [hsrc, ← Nat.add_assoc] at hrest
          have hall := hwrote.append hown (by have := hend hmore; omega) hrest
          rw [show pgSize + (filesz - (i + pgSize)) = filesz - i by omega] at hall
          exact ⟨fun _ => hend hmore, hall⟩
        · have hpiece : min (filesz - i) pgSize = filesz - i := min_eq_left (by omega)
          rw [readLoop_done rounds (by omega)] at hloop
          obtain rfl := (Prod.mk.inj hloop).2
          rw [hpiece] at hwrote hrange
          exact ⟨fun _ => by omega, hpiece.symm ▸ hwrote⟩
      · rw [readLoop_done _ (by omega)] at hloop
        obtain rfl := (Prod.mk.inj hloop).2
        rw [Nat.sub_eq_zero_of_le (by omega)]
        exact ⟨fun hlt' => absurd hlt' hlt, Wrote.zero _ _ _ _ _⟩

/-- The second loop clears the rest of the segment. -/
theorem bssLoop_wrote (rounds : ℕ) {bss left : ℕ} {pm : Pm}
    (hown : Owned kernelEnd region pm root tables) (hrounds : left ≤ rounds)
    (hloop : bssLoop root rounds bss left pm = (true, pm')) :
    (0 < left → bss + left ≤ maxVa) ∧ Wrote pm pm' root tables bss (fun _ => 0) left := by
  induction rounds generalizing bss left pm with
  | zero =>
      obtain rfl : left = 0 := by omega
      obtain rfl := (Prod.mk.inj hloop).2
      exact ⟨fun hlt => by omega, Wrote.zero _ _ _ _ _⟩
  | succ rounds ih =>
      rw [bssLoop] at hloop
      split at hloop
      · rename_i hlt
        dsimp only at hloop
        split at hloop
        · cases hloop
        rename_i hne
        obtain ⟨hrange, hwrote⟩ := wrote_piece hown hne (fun _ => 0) (min_le_left _ left)
        rw [fill_eq_blit] at hloop
        have hle := pgRoundDown_le bss
        have hlt' := lt_pgRoundDown_add bss
        obtain ⟨hend, hrest⟩ := ih (hwrote.owned hown) (by omega) hloop
        have hbound : bss + left ≤ maxVa := by omega
        have hall := hwrote.append hown (by omega) hrest
        rw [show min (pgSize - (bss - pgRoundDown bss)) left +
          (left - min (pgSize - (bss - pgRoundDown bss)) left) = left by omega] at hall
        exact ⟨fun _ => hbound, hall⟩
      · obtain rfl : left = 0 := by omega
        obtain rfl := (Prod.mk.inj hloop).2
        exact ⟨fun hlt => by omega, Wrote.zero _ _ _ _ _⟩

/-! ## The end of the image -/

/-- `uvmalloc` does not get past the trapframe page: `mappages` panics there. -/
theorem allocLoop_past_trapFrame {oldsz newsz xperm : ℕ} (hxperm : xperm < 1024)
    (hnew : trapFrame < newsz) (rounds : ℕ) {pm : Pm} {tables : ℕ → Set ℕ} {a ret : ℕ}
    (hown : Owned kernelEnd region pm root tables) (ha : a % pgSize = 0) (hle : a ≤ trapFrame)
    (hmapped : translate pm.mem root trapFrame ≠ none)
    (hloop : uvmallocLoop kernelEnd root oldsz newsz xperm rounds pm a = .ok (ret, pm')) :
    ret = 0 := by
  induction rounds generalizing pm tables a with
  | zero => cases hloop
  | succ rounds ih =>
      have hzero : ∀ (result : Except Panic (ℕ × Pm)),
          result.map (fun result => (0, result.2)) = .ok (ret, pm') → ret = 0 := by
        intro result hresult
        cases result with
        | error panic => cases hresult
        | ok value =>
            cases hresult
            rfl
      have hmax : trapFrame < maxVa := by decide
      rw [uvmallocLoop, if_pos (by omega)] at hloop
      obtain ⟨mem, freelist⟩ := pm
      cases freelist with
      | nil => exact hzero _ hloop
      | cons page rest =>
          have haligned := (hown.good page (hown.mem_of_free List.mem_cons_self)).aligned
          have hfill : ∀ x, pgRoundDown x ≠ page → fill mem page 0 pgSize x = mem x := by
            intro x hx
            apply fill_apply_of_out
            simp only [pgRoundDown, pgSize] at *
            omega
          simp only [kpmalloc, fill_fill] at hloop
          cases hmap : mappages ⟨fill mem page 0 pgSize, rest⟩ root a page pgSize
              (pteR ||| pteU ||| xperm) with
          | error panic =>
              rw [hmap] at hloop
              cases hloop
          | ok result =>
              obtain ⟨ret₁, pm₁⟩ := result
              have hnone := hown.unmapped_of_mappages rfl hfill ha (by omega) hmap
              have hlt : a < trapFrame := by
                refine lt_of_le_of_ne hle ?_
                rintro rfl
                exact hmapped hnone
              have hnext : a + pgSize ≤ trapFrame := by
                have htop : trapFrame % pgSize = 0 := by decide
                simp only [pgSize] at *
                omega
              rw [hmap] at hloop
              dsimp only at hloop
              split at hloop
              · split at hloop
                · cases hloop
                · exact hzero _ hloop
              · rename_i hret
                rw [not_not] at hret
                obtain ⟨ret', pm₁', tables₁, hmap', hresult⟩ := hown.placePage rfl hfill ha (by omega)
                  (show pteR ||| pteU ||| xperm < 1024 from
                    Nat.or_lt_two_pow (n := 10) (by decide) hxperm) (user_mode xperm) hnone
                rw [hmap] at hmap'
                obtain ⟨rfl, rfl⟩ := Prod.mk.inj (Except.ok.inj hmap')
                obtain ⟨-, hown₁, -, -, htranslate, -⟩ | ⟨hfail, -⟩ := hresult
                · refine ih hown₁ (by rw [Nat.add_mod_right, ha]) hnext ?_ hloop
                  rw [htranslate _ hmax, if_neg]
                  · exact hmapped
                  · have htop : trapFrame % pgSize = 0 := by decide
                    simp only [pgSize] at *
                    omega
                · rw [hret] at hfail
                  cases hfail

/-- An address with its flags and its byte. -/
def Holds (mem : Mem) (root va flags : ℕ) (byte : UInt8) : Prop :=
  ∃ pa, translate mem root va = some (pa, flags) ∧ mem pa = byte

/-- Pages that are taken leave the pages of the user as they are. -/
theorem Holds.allocates {tables' : ℕ → Set ℕ} {va flags : ℕ} {byte : UInt8}
    (hholds : Holds pm.mem root va flags byte) (huser : flags &&& pteU ≠ 0)
    (hown : Owned kernelEnd region pm root tables) (halloc : Allocates pm pm' tables tables')
    (hsame : translate pm'.mem root va = translate pm.mem root va) :
    Holds pm'.mem root va flags byte := by
  obtain ⟨pa, htranslate, rfl⟩ := hholds
  refine ⟨pa, hsame.trans htranslate, halloc.same pa ?_ ?_⟩
  all_goals
    obtain ⟨leaf, -, hpa, -, hleaf⟩ := hown.tree.userLeaf htranslate huser
    have hround : pgRoundDown pa = pte2pa (entry pm.mem leaf (idx 0 va)) := by
      rw [hpa]
      exact pgRoundDown_add (pte2pa_aligned _) (Nat.mod_lt _ (by decide))
    rw [hround]
  · exact hown.frameTable _ ⟨_, hleaf⟩
  · exact fun hfree => hown.freeFrame _ hfree ⟨_, hleaf⟩

/-- A write elsewhere in user memory leaves the byte as it is. -/
theorem Holds.wrote {va flags dst m : ℕ} {byte : UInt8} {src : ℕ → UInt8}
    (hholds : Holds pm.mem root va flags byte) (huser : flags &&& pteU ≠ 0)
    (hown : Owned kernelEnd region pm root tables) (hwrote : Wrote pm pm' root tables dst src m)
    (hva : va < maxVa) (hrange : dst + m ≤ maxVa) (hout : va < dst ∨ dst + m ≤ va) :
    Holds pm'.mem root va flags byte := by
  obtain ⟨pa, htranslate, rfl⟩ := hholds
  refine ⟨pa, (hwrote.written.same va).trans htranslate, hwrote.written.others pa ?_⟩
  intro k hk flags' hagain
  obtain ⟨pa', flags'', hfound, huser', -⟩ := hwrote.access k hk
  obtain ⟨rfl, rfl⟩ := Prod.mk.inj (Option.some.inj (hfound.symm.trans hagain))
  have heq := hown.mappedOnce _ _ _ _ _ hva (by omega) htranslate huser hagain huser'
  omega

/-- A byte that was written. -/
theorem Holds.of_wrote {flags dst m k : ℕ} {src : ℕ → UInt8} {byte : UInt8}
    (hwrote : Wrote pm pm' root tables dst src m) (hk : k < m)
    (hholds : Holds pm.mem root (dst + k) flags byte) :
    Holds pm'.mem root (dst + k) flags (src k) := by
  obtain ⟨pa, htranslate, -⟩ := hholds
  obtain ⟨pa', flags', hfound, hbyte⟩ := hwrote.written.bytes k hk
  obtain ⟨rfl, rfl⟩ := Prod.mk.inj (Option.some.inj (hfound.symm.trans htranslate))
  exact ⟨pa', (hwrote.written.same _).trans htranslate, hbyte⟩

theorem Wrote.untouched {dst m : ℕ} {src : ℕ → UInt8}
    (hwrote : Wrote pm pm' root tables dst src m)
    (hown : Owned kernelEnd region pm root tables) : Untouched region pm.mem pm'.mem := by
  intro x hx
  refine hwrote.written.others x fun k hk flags htranslate => hx ?_
  obtain ⟨pa, flags', hfound, huser, -⟩ := hwrote.access k hk
  obtain ⟨rfl, rfl⟩ := Prod.mk.inj (Option.some.inj (hfound.symm.trans htranslate))
  obtain ⟨leaf, -, hpa, -, hleaf⟩ := hown.tree.userLeaf htranslate huser
  rw [hpa, pgRoundDown_add (pte2pa_aligned _) (Nat.mod_lt _ (by decide))]
  exact hown.mem_of_frame ⟨_, hleaf⟩

/-! ## Segments -/

/-- The flags of the pages of a segment. -/
def Proghdr.pteFlags (phdr : Proghdr) : ℕ := pteR ||| pteU ||| flag2perm phdr.flags ||| pteV

/-- The byte that belongs at an address of the segment. -/
def Proghdr.byteAt (phdr : Proghdr) (file : File) (va : ℕ) : UInt8 :=
  if va < phdr.vaddr + phdr.filesz then file.bytes (phdr.off + (va - phdr.vaddr)) else 0

/-- All pages of the segment are mapped with exactly its flags, and hold the bytes of
the file and zeros behind them. -/
def SegmentLoaded (mem : Mem) (root : ℕ) (file : File) (phdr : Proghdr) : Prop :=
  ∀ va, phdr.vaddr ≤ va → va < pgRoundUp (phdr.vaddr + phdr.memsz) →
    Holds mem root va phdr.pteFlags (phdr.byteAt file va)

theorem flag2perm_lt (flag : ℕ) : flag2perm flag < 1024 := by
  rw [flag2perm]
  split <;> split <;> decide

theorem Proghdr.pteFlags_user (phdr : Proghdr) : phdr.pteFlags &&& pteU ≠ 0 :=
  user_flags (user_mode _)

/-- The segments in `loaded` are in memory below `sz`, and nothing is mapped between
there and the trapframe. -/
structure Image (kernelEnd : ℕ) (region : Set ℕ) (pm₀ pm : Pm) (root : ℕ) (tables : ℕ → Set ℕ)
    (file : File) (loaded : List Proghdr) (sz : ℕ) : Prop where
  own : Owned kernelEnd region pm root tables
  same : Untouched region pm₀.mem pm.mem
  small : sz ≤ trapFrame
  kernel : ∀ va < maxVa, trapFrame ≤ va → translate pm.mem root va = translate pm₀.mem root va
  unmapped : ∀ va, pgRoundUp sz ≤ va → va < trapFrame → translate pm.mem root va = none
  segments : ∀ phdr ∈ loaded, phdr.vaddr + phdr.memsz ≤ sz ∧
    SegmentLoaded pm.mem root file phdr

/-- `uvmalloc` for one segment: its pages and those below it are zero pages. -/
theorem Image.grow {pm₀ : Pm} {file : File} {loaded : List Proghdr} {sz newsz xperm ret : ℕ}
    (himage : Image kernelEnd region pm₀ pm root tables file loaded sz)
    (htop : translate pm₀.mem root trapFrame ≠ none) (hxperm : xperm < 1024) (hle : sz ≤ newsz)
    (halloc : uvmalloc kernelEnd pm root sz newsz xperm = .ok (ret, pm')) (hne : ret ≠ 0) :
    ret = newsz ∧ ∃ tables', Image kernelEnd region pm₀ pm' root tables' file loaded newsz ∧
      ∀ va, pgRoundUp sz ≤ va → va < pgRoundUp newsz →
        Holds pm'.mem root va (pteR ||| pteU ||| xperm ||| pteV) 0 := by
  have hsmall := himage.small
  have hmax : trapFrame ≤ maxVa := by decide
  have hround : pgRoundUp sz % pgSize = 0 := Nat.mul_mod_left _ _
  have hnew : newsz ≤ trapFrame := by
    by_contra hlarge
    refine hne ?_
    rw [uvmalloc, if_neg (not_lt.mpr hle)] at halloc
    refine allocLoop_past_trapFrame hxperm (not_le.mp hlarge) _ himage.own hround
      (pgRoundUp_trapFrame hsmall) ?_ halloc
    rw [himage.kernel _ (by decide) le_rfl]
    exact htop
  have hlimit := pgRoundUp_trapFrame hnew
  obtain ⟨ret', pm'', tables', halloc', hresult⟩ := himage.own.alloc hxperm (hnew.trans hmax)
    fun va hlo hhi => himage.unmapped va hlo (by omega)
  rw [halloc] at halloc'
  obtain ⟨rfl, rfl⟩ := Prod.mk.inj (Except.ok.inj halloc')
  obtain ⟨hlt, -⟩ | ⟨-, rfl, hown', hallocates, hzero, hsame⟩ | ⟨-, hfail, -⟩ := hresult
  · omega
  · refine ⟨rfl, tables', ⟨hown', ?_, hnew, fun va hva hlo => ?_, fun va hlo hhi => ?_,
      fun phdr hphdr => ?_⟩, fun va hlo hhi => ?_⟩
    · intro x hx
      exact (himage.own.allocates_untouched hallocates x hx).trans (himage.same x hx)
    · exact (hsame va hva (by omega)).trans (himage.kernel va hva hlo)
    · rw [hsame va (by omega) (.inr hlo)]
      refine himage.unmapped va ?_ hhi
      have hup := pgRoundUp_eq (hsmall.trans hmax)
      have hup' := pgRoundUp_eq (hnew.trans hmax)
      omega
    · obtain ⟨hend, hloaded⟩ := himage.segments phdr hphdr
      refine ⟨hend.trans hle, fun va hlo hhi => ?_⟩
      have hup := pgRoundUp_eq (hsmall.trans hmax)
      have hup' := pgRoundUp_eq (hend.trans (hsmall.trans hmax))
      have hbelow := pgRoundUp_trapFrame hsmall
      exact (hloaded va hlo hhi).allocates phdr.pteFlags_user himage.own hallocates
        (hsame va (by omega) (.inl (by omega)))
    · obtain ⟨page, -, -, htranslate, hbytes⟩ := hzero va hlo hhi
      exact ⟨_, htranslate, hbytes _ (Nat.mod_lt _ (by decide))⟩
  · exact absurd hfail hne

/-- A write above the loaded segments. -/
theorem Image.wrote {pm₀ : Pm} {file : File} {loaded : List Proghdr} {sz dst m : ℕ}
    {src : ℕ → UInt8} (himage : Image kernelEnd region pm₀ pm root tables file loaded sz)
    (hwrote : Wrote pm pm' root tables dst src m) (hrange : dst + m ≤ maxVa)
    (hout : ∀ phdr ∈ loaded, pgRoundUp (phdr.vaddr + phdr.memsz) ≤ dst) :
    Image kernelEnd region pm₀ pm' root tables file loaded sz := by
  refine ⟨hwrote.owned himage.own, fun x hx => ?_, himage.small, fun va hva hlo => ?_,
    fun va hlo hhi => ?_, fun phdr hphdr => ?_⟩
  · exact (hwrote.untouched himage.own x hx).trans (himage.same x hx)
  · exact (hwrote.written.same va).trans (himage.kernel va hva hlo)
  · exact (hwrote.written.same va).trans (himage.unmapped va hlo hhi)
  · obtain ⟨hend, hloaded⟩ := himage.segments phdr hphdr
    refine ⟨hend, fun va hlo hhi => ?_⟩
    have hbelow := hout phdr hphdr
    exact (hloaded va hlo hhi).wrote phdr.pteFlags_user himage.own hwrote (by omega) hrange
      (.inl (by omega))

/-- What the claim asks of a segment: it starts at a page above the image so far. -/
structure Proghdr.Above (phdr : Proghdr) (sz : ℕ) : Prop where
  aligned : phdr.vaddr % pgSize = 0
  positive : 0 < phdr.memsz
  above : sz ≤ phdr.vaddr

/-- One segment. -/
theorem Image.loadseg {pm₀ : Pm} {file : File} {loaded : List Proghdr} {sz ret : ℕ}
    {phdr : Proghdr} (himage : Image kernelEnd region pm₀ pm root tables file loaded sz)
    (htop : translate pm₀.mem root trapFrame ≠ none) (habove : phdr.Above sz)
    (hfits : phdr.filesz ≤ phdr.memsz)
    (hload : Loader.loadseg kernelEnd pm root file phdr.off phdr.vaddr phdr.filesz phdr.memsz
      (flag2perm phdr.flags) sz = .ok (ret, pm')) (hne : ret ≠ 0) :
    ret = phdr.vaddr + phdr.memsz ∧
      ∃ tables', Image kernelEnd region pm₀ pm' root tables' file (phdr :: loaded) ret := by
  obtain ⟨haligned, hpos, hlow⟩ := habove
  rw [Loader.loadseg] at hload
  split at hload
  · cases hload
  rename_i newsz pm₁ halloc
  split at hload
  · cases hload
    exact absurd rfl hne
  rename_i hnewsz
  split at hload
  · cases hload
    exact absurd rfl hne
  rename_i pm₂ hread
  split at hload
  · cases hload
    exact absurd rfl hne
  rename_i pm₃ hclear
  obtain ⟨rfl, rfl⟩ := Prod.mk.inj (Except.ok.inj hload)
  obtain ⟨rfl, tables', himage₁, hzero⟩ :=
    himage.grow htop (flag2perm_lt _) (by omega) halloc hnewsz
  have hmax : trapFrame ≤ maxVa := by decide
  have hsmall := himage₁.small
  have hround := pgRoundUp_eq (himage.small.trans hmax)
  have hbelow : pgRoundUp sz ≤ phdr.vaddr := by
    simp only [pgSize] at haligned
    omega
  have hout : ∀ other ∈ loaded, pgRoundUp (other.vaddr + other.memsz) ≤ phdr.vaddr := by
    intro other hother
    have hend := (himage.segments other hother).1
    have hup := pgRoundUp_eq (hend.trans (himage.small.trans hmax))
    omega
  obtain ⟨-, hwrote₁⟩ := readLoop_wrote haligned _ rfl himage₁.own
    (by simp only [pgSize]; omega) hread
  rw [Nat.add_zero, Nat.sub_zero] at hwrote₁
  have himage₂ := himage₁.wrote hwrote₁ (by omega) hout
  obtain ⟨-, hwrote₂⟩ := bssLoop_wrote _ himage₂.own le_rfl hclear
  have himage₃ := himage₂.wrote hwrote₂ (by omega) fun other hother =>
    (hout other hother).trans (Nat.le_add_right _ _)
  refine ⟨rfl, tables', himage₃.own, himage₃.same, hsmall, himage₃.kernel, himage₃.unmapped,
    fun other hother => ?_⟩
  obtain rfl | hother := List.mem_cons.mp hother
  · refine ⟨le_rfl, fun va hlo hhi => ?_⟩
    have hva : va < maxVa := by
      have hlimit := pgRoundUp_trapFrame hsmall
      omega
    have huser := other.pteFlags_user
    have hfresh : Holds pm₁.mem root va other.pteFlags 0 := hzero va (by omega) hhi
    rw [Proghdr.byteAt]
    split
    · rename_i hinside
      obtain ⟨k, rfl⟩ : ∃ k, va = other.vaddr + k := ⟨va - other.vaddr, by omega⟩
      rw [Nat.add_sub_cancel_left]
      exact (hfresh.of_wrote hwrote₁ (by omega)).wrote huser himage₂.own hwrote₂ hva (by omega)
        (.inl hinside)
    · rename_i hbehind
      have hkept := hfresh.wrote huser himage₁.own hwrote₁ hva (by omega) (.inr (by omega))
      by_cases hbss : va < other.vaddr + other.memsz
      · obtain ⟨k, rfl⟩ : ∃ k, va = other.vaddr + other.filesz + k :=
          ⟨va - (other.vaddr + other.filesz), by omega⟩
        exact hkept.of_wrote hwrote₂ (by omega)
      · exact hkept.wrote huser himage₂.own hwrote₂ hva (by omega) (.inr (by omega))
  · exact himage₃.segments other hother

/-- The segments that are loaded. -/
def loadable (phdrs : List Proghdr) : List Proghdr := phdrs.filter fun phdr => phdr.type = ptLoad

/-- The loadable segments start at pages, are not empty, ascend and do not overlap. -/
structure Ascending (phdrs : List Proghdr) : Prop where
  aligned : ∀ phdr ∈ phdrs, phdr.vaddr % pgSize = 0
  positive : ∀ phdr ∈ phdrs, 0 < phdr.memsz
  apart : phdrs.Pairwise fun first second => first.vaddr + first.memsz ≤ second.vaddr

/-- The loop over all segments. -/
theorem Image.loadSegments {pm₀ : Pm} {file : File} (htop : translate pm₀.mem root trapFrame ≠ none)
    (phdrs : List Proghdr) {pm : Pm} {tables : ℕ → Set ℕ} {loaded : List Proghdr} {sz sz' : ℕ}
    (himage : Image kernelEnd region pm₀ pm root tables file loaded sz)
    (hasc : Ascending (loadable phdrs)) (habove : ∀ phdr ∈ loadable phdrs, sz ≤ phdr.vaddr)
    (hload : Loader.loadSegments kernelEnd root file phdrs sz pm = .ok (some sz', pm')) :
    ∃ tables' loaded', Image kernelEnd region pm₀ pm' root tables' file loaded' sz' ∧
      (∀ phdr, phdr ∈ loaded' ↔ phdr ∈ loaded ∨ phdr ∈ loadable phdrs) ∧
      sz' = ((loadable phdrs).getLast?.map fun phdr => phdr.vaddr + phdr.memsz).getD sz := by
  induction phdrs generalizing pm tables loaded sz with
  | nil =>
      obtain ⟨hsz, rfl⟩ := Prod.mk.inj (Except.ok.inj hload)
      obtain rfl := Option.some.inj hsz
      exact ⟨tables, loaded, himage, fun phdr => by simp [loadable], rfl⟩
  | cons phdr rest ih =>
      rw [Loader.loadSegments] at hload
      split at hload
      · rename_i htype
        have hskip : loadable (phdr :: rest) = loadable rest := by
          simp [loadable, htype]
        rw [hskip] at hasc habove ⊢
        exact ih himage hasc habove hload
      rename_i htype
      rw [not_not] at htype
      have htake : loadable (phdr :: rest) = phdr :: loadable rest := by
        simp [loadable, htype]
      rw [htake] at hasc habove ⊢
      split at hload
      · cases hload
      rename_i hfits
      split at hload
      · cases hload
      split at hload
      · cases hload
      split at hload
      · cases hload
      rename_i newsz pm₁ hseg
      split at hload
      · cases hload
      rename_i hne
      obtain ⟨hfirst, hlater⟩ := List.pairwise_cons.mp hasc.apart
      have hphdr : phdr.Above sz := ⟨hasc.aligned _ List.mem_cons_self,
        hasc.positive _ List.mem_cons_self, habove _ List.mem_cons_self⟩
      obtain ⟨rfl, tables₁, himage₁⟩ := himage.loadseg htop hphdr (by omega) hseg hne
      have hasc' : Ascending (loadable rest) :=
        ⟨fun other hother => hasc.aligned other (List.mem_cons_of_mem _ hother),
          fun other hother => hasc.positive other (List.mem_cons_of_mem _ hother), hlater⟩
      obtain ⟨tables', loaded', himage', hmem, hsz⟩ := ih himage₁ hasc' hfirst hload
      refine ⟨tables', loaded', himage', fun other => ?_, ?_⟩
      · rw [hmem, List.mem_cons, List.mem_cons]
        tauto
      · rw [hsz]
        cases hrest : loadable rest with
        | nil => rfl
        | cons next later =>
            rw [List.getLast?_cons_cons, List.getLast?_eq_some_getLast (List.cons_ne_nil _ _)]
            rfl

/-! ## The stack and the trapframe -/

/-- `setup_stack` only succeeds where nothing is mapped. -/
theorem unmapped_of_setupStack (hown : Owned kernelEnd region pm root tables) {sp : ℕ}
    (hstack : setupStack kernelEnd pm root = .ok (some sp, pm')) :
    translate pm.mem root (ustack - pgSize) = none := by
  obtain ⟨mem, freelist⟩ := pm
  rw [setupStack] at hstack
  cases freelist with
  | nil => cases hstack
  | cons page rest =>
      have haligned := (hown.good page (hown.mem_of_free List.mem_cons_self)).aligned
      have hfill : ∀ x, pgRoundDown x ≠ page → fill mem page 5 pgSize x = mem x := by
        intro x hx
        apply fill_apply_of_out
        simp only [pgRoundDown, pgSize] at *
        omega
      simp only [kpmalloc] at hstack
      cases hmap : mappages ⟨fill mem page 5 pgSize, rest⟩ root (ustack - pgSize) page pgSize
          (pteR ||| pteW ||| pteU) with
      | error panic =>
          rw [hmap] at hstack
          cases hstack
      | ok result => exact hown.unmapped_of_mappages rfl hfill (by decide) (by decide) hmap

/-- A change in a page outside the region. -/
theorem Holds.outside {page va flags : ℕ} {byte : UInt8} {mem : Mem}
    (hholds : Holds pm.mem root va flags byte) (huser : flags &&& pteU ≠ 0)
    (hown : Owned kernelEnd region pm root tables) (hpage : page ∉ region)
    (hsame : ∀ x, pgRoundDown x ≠ page → mem x = pm.mem x) :
    Holds mem root va flags byte := by
  obtain ⟨pa, htranslate, rfl⟩ := hholds
  have hapart : Apart pm.mem {page} root tables := by
    refine ⟨hown.tree, fun other hother heq => ?_, fun other hother heq => ?_⟩
    · exact hpage (Set.mem_singleton_iff.mp heq ▸ hown.mem_of_table hother)
    · exact hpage (Set.mem_singleton_iff.mp heq ▸ hown.mem_of_frame hother)
  have huntouched : Untouched {page} pm.mem mem := fun x hx => hsame x hx
  exact ⟨pa, (hapart.translate_same huntouched va).trans htranslate,
    hapart.content_same huntouched htranslate huser⟩

theorem owned_outside {page : ℕ} {mem : Mem} (hown : Owned kernelEnd region pm root tables)
    (hpage : page ∉ region) (hsame : ∀ x, pgRoundDown x ≠ page → mem x = pm.mem x) :
    Owned kernelEnd region ⟨mem, pm.freelist⟩ root tables :=
  hown.write fun x hx => hsame x fun heq =>
    hx (outside_iff.mpr fun htable => hpage (heq ▸ hown.mem_of_table htable))

/-- A loaded program: its segments, a stack page, and the registers it starts with. -/
structure Ready (kernelEnd : ℕ) (region : Set ℕ) (pm₀ pm : Pm) (root trapframe : ℕ)
    (tables : ℕ → Set ℕ) (file : File) (loaded : List Proghdr) : Prop where
  own : Owned kernelEnd region pm root tables
  same : ∀ x, pgRoundDown x ∉ region → pgRoundDown x ≠ trapframe → pm.mem x = pm₀.mem x
  kernel : ∀ va < maxVa, trapFrame ≤ va → translate pm.mem root va = translate pm₀.mem root va
  segments : ∀ phdr ∈ loaded, SegmentLoaded pm.mem root file phdr
  stack : ∃ page, page % pgSize = 0 ∧ ∀ va, ustack - pgSize ≤ va → va < ustack →
    translate pm.mem root va = some (page + va % pgSize, pteR ||| pteW ||| pteU ||| pteV)
  sp : load pm.mem (trapframe + trapframeSp) 8 = ustack
  epc : load pm.mem (trapframe + trapframeEpc) 8 = file.elfhdr.entry

/-- The stores of `setup_stack` and `loader` to the trapframe. -/
theorem trapframe_same {mem : Mem} {trapframe offset width value x : ℕ}
    (haligned : trapframe % pgSize = 0) (hin : offset + width ≤ pgSize)
    (hx : pgRoundDown x ≠ trapframe) :
    store mem (trapframe + offset) width value x = mem x := by
  apply store_apply_of_out
  simp only [pgRoundDown, pgSize] at *
  omega

/-- The end of the loader. -/
theorem Image.finish {pm₀ : Pm} {file : File} {loaded : List Proghdr} {sz sp trapframe : ℕ}
    (himage : Image kernelEnd region pm₀ pm root tables file loaded sz)
    (haligned : trapframe % pgSize = 0) (htaken : trapframe ∉ region)
    (hstack : setupStack kernelEnd pm root = .ok (some sp, pm')) :
    ∃ tables', Ready kernelEnd region pm₀
      ⟨store (store pm'.mem (trapframe + trapframeSp) 8 sp) (trapframe + trapframeEpc) 8
        file.elfhdr.entry, pm'.freelist⟩ root trapframe tables' file loaded := by
  have hnone := unmapped_of_setupStack himage.own hstack
  obtain ⟨sp', pm'', tables', hstack', hresult⟩ := himage.own.stack hnone
  rw [hstack] at hstack'
  obtain ⟨rfl, rfl⟩ := Prod.mk.inj (Except.ok.inj hstack')
  obtain ⟨hsp, hown', halloc, ⟨page, -, hpage, hmapped⟩, hsame⟩ | ⟨hfail, -⟩ := hresult
  swap
  · cases hfail
  obtain rfl := Option.some.inj hsp
  generalize hmem : store (store pm'.mem (trapframe + trapframeSp) 8 ustack)
    (trapframe + trapframeEpc) 8 file.elfhdr.entry = mem
  have hkept : ∀ x, pgRoundDown x ≠ trapframe → mem x = pm'.mem x := by
    intro x hx
    rw [← hmem, trapframe_same haligned (by decide) hx, trapframe_same haligned (by decide) hx]
  have hown := owned_outside hown' htaken hkept
  have htranslate : ∀ va, translate mem root va = translate pm'.mem root va := by
    refine hown'.tree.translate_frame fun x hx => hkept x fun heq => ?_
    exact hx (outside_iff.mpr fun htable => htaken (heq ▸ hown'.mem_of_table htable))
  have hbound : file.elfhdr.entry < 256 ^ 8 := load_lt _ _ _
  refine ⟨tables', hown, fun x hx hne => ?_, fun va hva hlo => ?_, fun phdr hphdr va hlo hhi => ?_,
    ⟨page, hpage, fun va hlo hhi => (htranslate va).trans (hmapped va hlo hhi)⟩, ?_, ?_⟩
  · exact (hkept x hne).trans
      ((himage.own.allocates_untouched halloc x hx).trans (himage.same x hx))
  · have hout : va < ustack - pgSize ∨ ustack ≤ va := .inr ((show ustack ≤ trapFrame by decide).trans hlo)
    exact (htranslate va).trans ((hsame va hva hout).trans (himage.kernel va hva hlo))
  · obtain ⟨hend, hloaded⟩ := himage.segments phdr hphdr
    have hholds := hloaded va hlo hhi
    have hva : va < maxVa := by
      have hlimit := pgRoundUp_trapFrame (hend.trans himage.small)
      have hmax : trapFrame ≤ maxVa := by decide
      omega
    -- The stack page was not mapped before, so the address lies outside of it.
    have hout : va < ustack - pgSize ∨ ustack ≤ va := by
      by_contra hin
      obtain ⟨pa, hfound, -⟩ := hholds
      have hsamePage : va / pgSize = (ustack - pgSize) / pgSize :=
        (same_page_iff (by decide)).mpr (by omega)
      rw [translate_page hsamePage hfound] at hnone
      cases hnone
    have hholds' := hholds.allocates phdr.pteFlags_user himage.own halloc (hsame va hva hout)
    exact hholds'.outside phdr.pteFlags_user hown' htaken hkept
  · rw [← hmem]
    change load (store _ (trapframe + 24) 8 _) (trapframe + 48) 8 = _
    rw [load_store_of_disjoint _ (by omega), trapframeSp, load_store_of_lt _ (by decide)]
  · rw [← hmem]
    change load (store _ (trapframe + 24) 8 _) (trapframe + 24) 8 = _
    rw [load_store_of_lt _ hbound]

/-! ## The loader -/

/-- One segment of any kind keeps the image in order. -/
theorem Image.loadsegAny {pm₀ : Pm} {file : File} {sz off va filesz memsz flag ret : ℕ}
    (himage : Image kernelEnd region pm₀ pm root tables file [] sz)
    (htop : translate pm₀.mem root trapFrame ≠ none) (haligned : va % pgSize = 0)
    (hfits : filesz ≤ memsz)
    (hload : Loader.loadseg kernelEnd pm root file off va filesz memsz (flag2perm flag) sz =
      .ok (ret, pm')) (hne : ret ≠ 0) :
    ∃ tables', Image kernelEnd region pm₀ pm' root tables' file [] ret := by
  have hmax : trapFrame ≤ maxVa := by decide
  rw [Loader.loadseg] at hload
  split at hload
  · cases hload
  rename_i newsz pm₁ halloc
  split at hload
  · cases hload
    exact absurd rfl hne
  rename_i hnewsz
  split at hload
  · cases hload
    exact absurd rfl hne
  rename_i pm₂ hread
  split at hload
  · cases hload
    exact absurd rfl hne
  rename_i pm₃ hclear
  obtain ⟨rfl, rfl⟩ := Prod.mk.inj (Except.ok.inj hload)
  have hgrown : va + memsz ≤ trapFrame ∧
      ∃ tables', Image kernelEnd region pm₀ pm₁ root tables' file [] newsz := by
    rcases Nat.lt_or_ge (va + memsz) sz with hless | hle
    · rw [uvmalloc, if_pos hless] at halloc
      obtain ⟨rfl, rfl⟩ := Prod.mk.inj (Except.ok.inj halloc)
      exact ⟨hless.le.trans himage.small, tables, himage⟩
    · obtain ⟨rfl, tables', himage₁, -⟩ := himage.grow htop (flag2perm_lt _) hle halloc hnewsz
      exact ⟨himage₁.small, tables', himage₁⟩
  obtain ⟨hsmall, tables', himage₁⟩ := hgrown
  obtain ⟨-, hwrote₁⟩ := readLoop_wrote haligned _ rfl himage₁.own
    (by simp only [pgSize]; omega) hread
  rw [Nat.add_zero, Nat.sub_zero] at hwrote₁
  have himage₂ := himage₁.wrote hwrote₁ (by omega) fun _ h => absurd h List.not_mem_nil
  obtain ⟨-, hwrote₂⟩ := bssLoop_wrote _ himage₂.own le_rfl hclear
  exact ⟨tables', himage₂.wrote hwrote₂ (by omega) fun _ h => absurd h List.not_mem_nil⟩

theorem Image.loadSegmentsAny {pm₀ : Pm} {file : File}
    (htop : translate pm₀.mem root trapFrame ≠ none) (phdrs : List Proghdr) {pm : Pm}
    {tables : ℕ → Set ℕ} {sz sz' : ℕ}
    (himage : Image kernelEnd region pm₀ pm root tables file [] sz)
    (hload : Loader.loadSegments kernelEnd root file phdrs sz pm = .ok (some sz', pm')) :
    ∃ tables', Image kernelEnd region pm₀ pm' root tables' file [] sz' := by
  induction phdrs generalizing pm tables sz with
  | nil =>
      obtain ⟨hsz, rfl⟩ := Prod.mk.inj (Except.ok.inj hload)
      obtain rfl := Option.some.inj hsz
      exact ⟨tables, himage⟩
  | cons phdr rest ih =>
      rw [Loader.loadSegments] at hload
      split at hload
      · exact ih himage hload
      split at hload
      · cases hload
      rename_i hfits
      split at hload
      · cases hload
      split at hload
      · cases hload
      rename_i haligned
      rw [not_not] at haligned
      split at hload
      · cases hload
      rename_i newsz pm₁ hseg
      split at hload
      · cases hload
      rename_i hne
      obtain ⟨tables₁, himage₁⟩ := himage.loadsegAny htop haligned (by omega) hseg hne
      exact ih himage₁ hload

/-- The table that `process_pagetable` makes maps nothing for the user. -/
theorem image_start {trampolinePa trapframe : ℕ} {pm₀ : Pm} (file : File)
    (hboot : Boot kernelEnd trampolinePa trapframe pm₀)
    (hcreate : processPagetable kernelEnd trampolinePa pm₀ trapframe = .ok (root, pm))
    (hroot : root ≠ 0) :
    translate pm.mem root trapFrame ≠ none ∧ Untouched pm₀.free pm₀.mem pm.mem ∧
      ∃ tables, Image kernelEnd pm₀.free pm pm root tables file [] 0 := by
  have hsmall : trampolinePa < 2 ^ 56 :=
    hboot.text.trans_le (hboot.below.trans (by decide))
  obtain ⟨root', pm', hcreate', huntouched, hresult⟩ := processPagetable_spec hboot.pool hboot.pos
    hboot.aligned hsmall hboot.frame.aligned hboot.frame.small
  rw [hcreate] at hcreate'
  obtain ⟨rfl, rfl⟩ := Prod.mk.inj (Except.ok.inj hcreate')
  obtain ⟨hzero, -⟩ | ⟨-, tables, hown, htranslate⟩ := hresult
  · exact absurd hzero hroot
  refine ⟨?_, huntouched, tables, hown, fun _ _ => rfl, Nat.zero_le _, fun _ _ _ => rfl,
    fun va _ hhi => ?_, fun _ h => absurd h List.not_mem_nil⟩
  · rw [htranslate _ (by decide), freshMap, if_pos rfl]
    exact Option.some_ne_none _
  · have hlow : va / pgSize ≠ trapFrame / pgSize ∧ va / pgSize ≠ trampoline / pgSize := by
      simp only [trapFrame, trampoline, maxVa, pgSize] at *
      omega
    rw [htranslate va (hhi.trans (by decide)), freshMap, if_neg hlow.1, if_neg hlow.2]

/-- The successful calls of the loader. -/
theorem loader_ok {p p' : Proc} {found : Option File}
    (hload : loader kernelEnd pm p found = .ok (true, pm', p')) :
    ∃ file sz pm₁ sp pm₂, found = some file ∧
      loadSegments kernelEnd p.pagetable file file.proghdrs 0 pm = .ok (some sz, pm₁) ∧
      setupStack kernelEnd pm₁ p.pagetable = .ok (some sp, pm₂) ∧
      p' = { p with heapStart := pgRoundUp sz, heapEnd := pgRoundUp sz } ∧
      pm' = ⟨store (store pm₂.mem (p.trapframe + trapframeSp) 8 sp) (p.trapframe + trapframeEpc) 8
        file.elfhdr.entry, pm₂.freelist⟩ := by
  cases found with
  | none => cases hload
  | some file =>
      rw [loader] at hload
      split at hload
      · cases hload
      split at hload
      · cases hload
      split at hload
      · cases hload
      split at hload
      · cases hload
      rw [loadImage] at hload
      split at hload
      · cases hload
      · cases hload
      rename_i sz pm₁ hsegments
      dsimp only at hload
      split at hload
      · cases hload
      · cases hload
      rename_i sp pm₂ hstack
      cases hload
      exact ⟨file, sz, pm₁, sp, pm₂, rfl, hsegments, hstack, rfl, rfl⟩

/-- A successful call leaves the segments in memory, each byte and each page as the file
says, a stack page below `USTACK`, and an empty heap behind the last segment. -/
theorem loader_loads {trampolinePa : ℕ} {pm₀ : Pm} {p p' : Proc} {file : File}
    (hboot : Boot kernelEnd trampolinePa p.trapframe pm₀)
    (hcreate : processPagetable kernelEnd trampolinePa pm₀ p.trapframe = .ok (p.pagetable, pm))
    (hroot : p.pagetable ≠ 0) (hasc : Ascending (loadable file.proghdrs))
    (hload : loader kernelEnd pm p (some file) = .ok (true, pm', p')) :
    p'.pagetable = p.pagetable ∧
      (∀ phdr ∈ loadable file.proghdrs, SegmentLoaded pm'.mem p.pagetable file phdr) ∧
      (∃ page, ∀ va, ustack - pgSize ≤ va → va < ustack → translate pm'.mem p.pagetable va =
        some (page + va % pgSize, pteR ||| pteW ||| pteU ||| pteV)) ∧
      ∀ last, (loadable file.proghdrs).getLast? = some last →
        p'.heapStart = pgRoundUp (last.vaddr + last.memsz) ∧
        p'.heapEnd = pgRoundUp (last.vaddr + last.memsz) := by
  obtain ⟨htop, -, tables, himage⟩ := image_start file hboot hcreate hroot
  obtain ⟨file', sz, pm₁, sp, pm₂, hfile, hsegments, hstack, rfl, rfl⟩ := loader_ok hload
  obtain rfl := Option.some.inj hfile
  obtain ⟨tables', loaded, himage', hloaded, hsz⟩ :=
    himage.loadSegments htop _ hasc (fun _ _ => Nat.zero_le _) hsegments
  obtain ⟨tables'', hready⟩ := himage'.finish hboot.frame.aligned hboot.taken hstack
  obtain ⟨page, -, hpage⟩ := hready.stack
  refine ⟨rfl, fun phdr hphdr => hready.segments phdr ((hloaded phdr).mpr (.inr hphdr)),
    ⟨page, hpage⟩, fun last hlast => ?_⟩
  rw [hlast] at hsz
  obtain rfl : sz = last.vaddr + last.memsz := hsz
  exact ⟨rfl, rfl⟩

/-- A file with one segment: four bytes of code and two bytes of zeros, at address 0. -/
def tinyBytes : List UInt8 :=
  [0x7f, 0x45, 0x4c, 0x46] ++ List.replicate 14 0 ++ [0xf3] ++ List.replicate 13 0 ++ [64] ++
    List.replicate 23 0 ++ [1] ++ List.replicate 7 0 ++ [1, 0, 0, 0, 5, 0, 0, 0, 120] ++
    List.replicate 23 0 ++ [4] ++ List.replicate 7 0 ++ [6] ++ List.replicate 15 0 ++
    [0x13, 0x05, 0x10, 0x00]

def tinyElf : File := ⟨fun k => tinyBytes.getD k 0, tinyBytes.length⟩

/-- A process whose table was just made. -/
def freshProc : Proc where
  status := .running
  pid := 0
  kstack := 0
  trapframe := 0x80400000
  fileList := []
  parent := 0
  pagetable := 0x80301000
  cwd := 0
  heapStart := 0
  heapEnd := 0
  exitState := 0
  name := fun _ => 0

theorem loader_tinyElf : ((processPagetable 0x80300000 0x80201000 sevenPages 0x80400000).toOption.bind
    fun made => (loader 0x80300000 made.2 freshProc (some tinyElf)).toOption.map Prod.fst) =
      some true := by decide +kernel

theorem proghdrs_tinyElf : loadable tinyElf.proghdrs = [⟨1, 5, 120, 0, 4, 6⟩] := by
  decide +kernel

/-- The loader makes this file ready to run. -/
theorem loader_loads_tinyElf : ∃ pm pm' p',
    processPagetable 0x80300000 0x80201000 sevenPages 0x80400000 = .ok (0x80301000, pm) ∧
    loader 0x80300000 pm freshProc (some tinyElf) = .ok (true, pm', p') ∧
    SegmentLoaded pm'.mem 0x80301000 tinyElf ⟨1, 5, 120, 0, 4, 6⟩ ∧
    p'.heapStart = 4096 := by
  obtain ⟨pm, hcreate, -⟩ := processPagetable_sevenPages
  have hrun := loader_tinyElf
  rw [hcreate] at hrun
  have hload : ∃ pm' p', loader 0x80300000 pm freshProc (some tinyElf) = .ok (true, pm', p') := by
    cases hcall : loader 0x80300000 pm freshProc (some tinyElf) with
    | error stop =>
        simp only [Except.toOption, Option.bind_some, hcall] at hrun
        cases hrun
    | ok result =>
        simp only [Except.toOption, Option.bind_some, hcall] at hrun
        obtain ⟨ok, pm', p'⟩ := result
        obtain rfl : ok = true := Option.some.inj hrun
        exact ⟨pm', p', rfl⟩
  obtain ⟨pm', p', hload⟩ := hload
  have hasc : Ascending (loadable tinyElf.proghdrs) := by
    rw [proghdrs_tinyElf]
    exact ⟨by decide, by decide, List.pairwise_singleton _ _⟩
  obtain ⟨-, hsegments, -, hheap⟩ :=
    @loader_loads 0x80300000 pm pm' 0x80201000 sevenPages freshProc p' tinyElf boot_sevenPages
      hcreate (by decide) hasc hload
  rw [proghdrs_tinyElf] at hsegments hheap
  exact ⟨pm, pm', p', hcreate, hload, hsegments _ (List.mem_singleton_self _), (hheap _ rfl).1⟩

end Painting.Loader
