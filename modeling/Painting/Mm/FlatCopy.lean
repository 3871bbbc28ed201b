import Painting.Mm.UvmGrow

/-!
# User memory is flat

`copyout` and `copyin` go page by page over frames that lie anywhere.  In terms of user
addresses they write and read a run of consecutive bytes: all of the range when every page
may be accessed, and otherwise the bytes before the first page that may not.
-/

namespace Painting.PageTable

open Painting.Memory

/-- Every byte that the user may access has one user address. -/
def MappedOnce (mem : Mem) (root : ℕ) : Prop :=
  ∀ va va' pa flags flags', va < maxVa → va' < maxVa →
    translate mem root va = some (pa, flags) → flags &&& pteU ≠ 0 →
    translate mem root va' = some (pa, flags') → flags' &&& pteU ≠ 0 → va = va'

/-- The second memory is the first with `src 0 .. src (m - 1)` at the user addresses from
`dst` on. -/
structure Written (mem mem' : Mem) (root dst : ℕ) (src : ℕ → UInt8) (m : ℕ) : Prop where
  same : ∀ va, translate mem' root va = translate mem root va
  bytes : ∀ k < m, ∃ pa flags, translate mem root (dst + k) = some (pa, flags) ∧ mem' pa = src k
  others : ∀ x, (∀ k < m, ∀ flags, translate mem root (dst + k) ≠ some (x, flags)) →
    mem' x = mem x

theorem Owned.mappedOnce {kernelEnd root : ℕ} {region : Set ℕ} {pm : Pm} {tables : ℕ → Set ℕ}
    (hown : Owned kernelEnd region pm root tables) : MappedOnce pm.mem root := by
  intro va va' pa flags flags' hva hva' htranslate huser htranslate' huser'
  obtain ⟨leaf, -, -, hpa, -⟩ := lookup_of_translate htranslate
  obtain ⟨leaf', -, -, hpa', -⟩ := lookup_of_translate htranslate'
  have haligned := pte2pa_aligned (entry pm.mem leaf (idx 0 va))
  have haligned' := pte2pa_aligned (entry pm.mem leaf' (idx 0 va'))
  generalize pte2pa (entry pm.mem leaf (idx 0 va)) = page at hpa haligned
  generalize pte2pa (entry pm.mem leaf' (idx 0 va')) = page' at hpa' haligned'
  have hsame : page = page' ∧ va % pgSize = va' % pgSize := by
    simp only [pgSize] at *
    omega
  rw [hpa] at htranslate
  rw [hpa', ← hsame.1] at htranslate'
  have hpage := hown.page_inj hva hva' htranslate huser htranslate' huser'
  rw [← Nat.div_add_mod va pgSize, hpage, hsame.2, Nat.div_add_mod]

theorem Owned.framesApart {kernelEnd root : ℕ} {region : Set ℕ} {pm : Pm} {tables : ℕ → Set ℕ}
    (hown : Owned kernelEnd region pm root tables) : FramesApart pm.mem root tables := by
  intro va pa flags _ htranslate huser
  obtain ⟨leaf, -, rfl, -, hleaf⟩ := hown.tree.userLeaf htranslate huser
  rw [outside_iff, pgRoundDown_add (pte2pa_aligned _) (Nat.mod_lt _ (by decide))]
  exact hown.frameTable _ ⟨_, hleaf⟩

variable {mem mem' : Mem} {root : ℕ} {tables : ℕ → Set ℕ}

theorem Written.zero (mem : Mem) (root dst : ℕ) (src : ℕ → UInt8) :
    Written mem mem root dst src 0 :=
  ⟨fun _ => rfl, fun _ hk => absurd hk (Nat.not_lt_zero _), fun _ _ => rfl⟩

/-- Bytes written after others, at the addresses that follow. -/
theorem Written.append {middle : Mem} {write : Bool} {dst n m : ℕ} {src : ℕ → UInt8}
    (honce : MappedOnce mem root) (hrange : dst + (n + m) ≤ maxVa)
    (hfirst : ∀ k < n, Accessible mem root write (dst + k))
    (hrest : ∀ k < m, Accessible mem root write (dst + n + k))
    (hleft : Written mem middle root dst src n)
    (hright : Written middle mem' root (dst + n) (fun k => src (n + k)) m) :
    Written mem mem' root dst src (n + m) := by
  refine ⟨fun va => (hright.same va).trans (hleft.same va), fun k hk => ?_, fun x hx => ?_⟩
  · by_cases hearly : k < n
    · obtain ⟨pa, flags, htranslate, hbyte⟩ := hleft.bytes k hearly
      refine ⟨pa, flags, htranslate, (hright.others pa ?_).trans hbyte⟩
      intro j hj flags' hagain
      rw [hleft.same] at hagain
      obtain ⟨pa₁, flags₁, htranslate₁, huser₁, -⟩ := hfirst k hearly
      obtain ⟨rfl, rfl⟩ := Prod.mk.injEq .. ▸ Option.some.inj (htranslate₁.symm.trans htranslate)
      obtain ⟨pa₂, flags₂, htranslate₂, huser₂, -⟩ := hrest j hj
      obtain ⟨rfl, rfl⟩ := Prod.mk.injEq .. ▸ Option.some.inj (htranslate₂.symm.trans hagain)
      have heq := honce _ _ _ _ _ (by omega) (by omega) htranslate huser₁ hagain huser₂
      omega
    · obtain ⟨pa, flags, htranslate, hbyte⟩ := hright.bytes (k - n) (by omega)
      rw [hleft.same, show dst + n + (k - n) = dst + k by omega] at htranslate
      rw [show n + (k - n) = k by omega] at hbyte
      exact ⟨pa, flags, htranslate, hbyte⟩
  · refine (hright.others x fun k hk flags => ?_).trans (hleft.others x fun k hk flags => ?_)
    · rw [hleft.same, Nat.add_assoc]
      exact hx (n + k) (by omega) flags
    · exact hx k (by omega) flags

/-- The bytes of one page follow each other in its frame. -/
theorem translate_in_page {dst leaf k : ℕ} (hlookup : lookup mem (pgRoundDown dst) 2 root = some leaf)
    (hvalid : Valid (entry mem leaf (idx 0 (pgRoundDown dst))))
    (hk : dst - pgRoundDown dst + k < pgSize) :
    translate mem root (dst + k) =
      some (pte2pa (entry mem leaf (idx 0 (pgRoundDown dst))) + (dst - pgRoundDown dst) + k,
        pteFlags (entry mem leaf (idx 0 (pgRoundDown dst)))) := by
  have hself := pgRoundDown_aligned dst
  have hpage : pgRoundDown dst / pgSize = (dst + k) / pgSize ∧
      (dst + k) % pgSize = dst - pgRoundDown dst + k := by
    simp only [pgRoundDown, pgSize] at *
    omega
  have hbase : translate mem root (pgRoundDown dst) =
      some (pte2pa (entry mem leaf (idx 0 (pgRoundDown dst))),
        pteFlags (entry mem leaf (idx 0 (pgRoundDown dst)))) := by
    rw [translate_of_lookup hlookup, meaning, if_pos hvalid, hself, Nat.add_zero]
  rw [translate_page hpage.1 hbase, hself, hpage.2, Nat.sub_zero, Nat.add_assoc]

/-- `memmove` of the piece in one page. -/
theorem written_blit {dst leaf n : ℕ} (hwf : WellFormed mem root tables)
    (hlookup : lookup mem (pgRoundDown dst) 2 root = some leaf)
    (hvalid : Valid (entry mem leaf (idx 0 (pgRoundDown dst)))) (src : ℕ → UInt8)
    (hn : n ≤ pgSize - (dst - pgRoundDown dst))
    (htables : ∀ x, ¬ Outside tables x →
      blit mem (pte2pa (entry mem leaf (idx 0 (pgRoundDown dst))) + (dst - pgRoundDown dst))
        src n x = mem x) :
    Written mem
      (blit mem (pte2pa (entry mem leaf (idx 0 (pgRoundDown dst))) + (dst - pgRoundDown dst)) src n)
      root dst src n := by
  have hpage := fun k (hk : k < n) => @translate_in_page mem root dst leaf k hlookup hvalid (by omega)
  refine ⟨hwf.translate_frame htables, fun k hk => ⟨_, _, hpage k hk, ?_⟩, fun x hx => ?_⟩
  · rw [blit, if_pos ⟨Nat.le_add_right _ _, by omega⟩, Nat.add_sub_cancel_left]
  · rw [blit, if_neg]
    rintro ⟨hlo, hhi⟩
    have hfound := hpage
      (x - (pte2pa (entry mem leaf (idx 0 (pgRoundDown dst))) + (dst - pgRoundDown dst))) (by omega)
    rw [Nat.add_sub_cancel' hlo] at hfound
    exact hx _ (by omega) _ hfound

/-! ## `copyout` -/

/-- What is known of the accessed bytes stays when only frames of the user are written. -/
theorem Written.accessible {dst m : ℕ} {src : ℕ → UInt8} (hwritten : Written mem mem' root dst src m)
    (write : Bool) (va : ℕ) : Accessible mem' root write va ↔ Accessible mem root write va := by
  simp only [Accessible, hwritten.same]

theorem Written.mappedOnce {dst m : ℕ} {src : ℕ → UInt8} (hwritten : Written mem mem' root dst src m)
    (honce : MappedOnce mem root) : MappedOnce mem' root := by
  simpa only [MappedOnce, hwritten.same] using honce

/-- A copy of `len` bytes to `dst` that wrote `m` of them: all, or those before the first that
the user may not write. -/
structure CopiedFlat (mem mem' : Mem) (root : ℕ) (tables : ℕ → Set ℕ) (dst : ℕ) (src : ℕ → UInt8)
    (len : ℕ) (result : ℤ) (m : ℕ) : Prop where
  stop : result = 0 ∧ m = len ∨ result = -1 ∧ m < len ∧ ¬ Accessible mem root true (dst + m)
  access : ∀ k < m, Accessible mem root true (dst + k)
  written : Written mem mem' root dst src m
  tables : ∀ x, ¬ Outside tables x → mem' x = mem x

theorem copiedFlat_zero (mem : Mem) (root : ℕ) (tables : ℕ → Set ℕ) (dst : ℕ) (src : ℕ → UInt8) :
    CopiedFlat mem mem root tables dst src 0 0 0 :=
  ⟨.inl ⟨rfl, rfl⟩, fun _ hk => absurd hk (Nat.not_lt_zero _), Written.zero _ _ _ _,
    fun _ _ => rfl⟩

theorem copiedFlat_none {dst len : ℕ} (src : ℕ → UInt8) (hlen : 0 < len)
    (hnot : ¬ Accessible mem root true dst) :
    CopiedFlat mem mem root tables dst src len (-1) 0 :=
  ⟨.inr ⟨rfl, hlen, hnot⟩, fun _ hk => absurd hk (Nat.not_lt_zero _), Written.zero _ _ _ _,
    fun _ _ => rfl⟩

/-- A piece in one page, and then the rest. -/
theorem CopiedFlat.cons {piece : Mem} {dst next n rest m : ℕ} {src : ℕ → UInt8} {result : ℤ}
    (honce : MappedOnce mem root) (hrange : dst + (n + rest) ≤ maxVa)
    (haccess : ∀ k < n, Accessible mem root true (dst + k))
    (hwritten : Written mem piece root dst src n)
    (htables : ∀ x, ¬ Outside tables x → piece x = mem x) (hnext : 0 < rest → next = dst + n)
    (hrest : CopiedFlat piece mem' root tables next (fun k => src (n + k)) rest result m) :
    CopiedFlat mem mem' root tables dst src (n + rest) result (n + m) := by
  obtain ⟨hstop, haccess', hwritten', htables'⟩ := hrest
  simp only [hwritten.accessible] at hstop haccess'
  have hsame : ∀ k < m, next + k = dst + n + k := fun k hk => by rw [hnext (by omega)]
  have hlater : ∀ k < m, Accessible mem root true (dst + n + k) := fun k hk =>
    hsame k hk ▸ haccess' k hk
  refine ⟨?_, fun k hk => ?_, ?_, fun x hx => (htables' x hx).trans (htables x hx)⟩
  · obtain ⟨hzero, rfl⟩ | ⟨hfail, hlt, hnot⟩ := hstop
    · exact .inl ⟨hzero, rfl⟩
    · refine .inr ⟨hfail, by omega, ?_⟩
      rwa [hnext (by omega), Nat.add_assoc] at hnot
  · by_cases hearly : k < n
    · exact haccess k hearly
    · have hk' := hlater (k - n) (by omega)
      rwa [show dst + n + (k - n) = dst + k by omega] at hk'
  · refine hwritten.append honce (by omega) haccess hlater ⟨hwritten'.same, fun k hk => ?_,
      fun x hx => ?_⟩
    · rw [← hsame k hk]
      exact hwritten'.bytes k hk
    · refine hwritten'.others x fun k hk flags => ?_
      rw [hsame k hk]
      exact hx k hk flags

theorem copyoutLoop_flat {pm : Pm} {src : ℕ → UInt8} {rounds dst done len : ℕ}
    (hwf : WellFormed pm.mem root tables) (hframes : FramesApart pm.mem root tables)
    (honce : MappedOnce pm.mem root) (hrange : dst + len ≤ maxVa) (hrounds : len ≤ rounds) :
    ∃ result mem' m,
      copyoutLoop root src rounds pm dst done len = (.ok result, ⟨mem', pm.freelist⟩) ∧
      CopiedFlat pm.mem mem' root tables dst (fun k => src (done + k)) len result m := by
  induction rounds generalizing pm dst done len with
  | zero =>
      obtain rfl : len = 0 := by omega
      exact ⟨0, pm.mem, 0, rfl, copiedFlat_zero _ _ _ _ _⟩
  | succ rounds ih =>
      by_cases hlen : len = 0
      · subst hlen
        exact ⟨0, pm.mem, 0, by rw [copyoutLoop, if_pos rfl], copiedFlat_zero _ _ _ _ _⟩
      have hle := pgRoundDown_le dst
      have hlt := lt_pgRoundDown_add dst
      have hself := pgRoundDown_aligned dst
      have hlow : pgRoundDown dst < maxVa := by omega
      have hround := pgRoundDown_div dst
      rw [copyoutLoop, if_neg hlen]
      dsimp only
      rw [if_neg (by omega), walk_lookup hlow]
      cases hlookup : lookup pm.mem (pgRoundDown dst) 2 root with
      | none =>
          refine ⟨-1, pm.mem, 0, rfl, copiedFlat_none _ (by omega) fun haccess => ?_⟩
          exact not_accessible_of_lookup_none hlookup ((accessible_page hround).mpr haccess)
      | some leaf =>
          have haccess := @accessible_iff _ _ _ _ true hlookup
          have hread : readPte pm.mem (leaf + 8 * idx 0 (pgRoundDown dst)) =
            entry pm.mem leaf (idx 0 (pgRoundDown dst)) := rfl
          simp only [Option.map_some]
          rw [hread]
          split
          · rename_i hbad
            refine ⟨-1, pm.mem, 0, rfl, copiedFlat_none _ (by omega) fun hgood => ?_⟩
            obtain ⟨hv, hu, hw⟩ := haccess.mp ((accessible_page hround).mpr hgood)
            exact absurd hbad (by simp only [hv, hu, hw rfl, or_self, not_false_eq_true])
          · rename_i hgood
            obtain ⟨hv, hu, hw⟩ := not_or.mp hgood |>.imp_right not_or.mp
            have hn := Nat.min_le_left (pgSize - (dst - pgRoundDown dst)) len
            obtain ⟨hwritable, -, htables⟩ := piece_spec hframes hlow hlookup hv hu hw
              (fun k => src (done + k)) hn
            have hwritten := written_blit hwf hlookup hv (fun k => src (done + k)) hn htables
            generalize blit pm.mem (pte2pa (entry pm.mem leaf (idx 0 (pgRoundDown dst))) +
              (dst - pgRoundDown dst)) (fun k => src (done + k))
              (min (pgSize - (dst - pgRoundDown dst)) len) = piece at hwritten htables ⊢
            have hwrap : (pgRoundDown dst + pgSize) % 2 ^ 64 = pgRoundDown dst + pgSize := by
              apply Nat.mod_eq_of_lt
              simp only [pgSize, maxVa] at *
              omega
            have hend : pgRoundDown dst + pgSize ≤ maxVa := by
              simp only [pgSize, maxVa] at *
              omega
            obtain ⟨result, mem', m, hloop, hflat⟩ :=
              @ih ⟨piece, pm.freelist⟩ (pgRoundDown dst + pgSize)
                (done + min (pgSize - (dst - pgRoundDown dst)) len)
                (len - min (pgSize - (dst - pgRoundDown dst)) len) (hwf.frame htables)
                (hframes.frame hwritten.same) (hwritten.mappedOnce honce) (by omega) (by omega)
            simp only [Nat.add_assoc] at hflat
            have hall := hflat.cons honce (by omega) (fun k hk => (hwritable k hk).2) hwritten htables
              (by omega)
            rw [Nat.add_sub_cancel' (Nat.min_le_right _ _)] at hall
            exact ⟨result, mem', _, by rw [hwrap]; exact hloop, hall⟩

/-! ## `copyin` -/

/-- A copy of `len` bytes from `src` that read `bytes`: all, or those before the first that
the user may not access. -/
structure ReadFlat (mem : Mem) (root src len : ℕ) (result : ℤ) (bytes : List UInt8) : Prop where
  stop : result = 0 ∧ bytes.length = len ∨
    result = -1 ∧ bytes.length < len ∧ ¬ Accessible mem root false (src + bytes.length)
  reads : ∀ k byte, bytes[k]? = some byte → ReadsByte mem root (src + k) byte

theorem ReadsByte.accessible {va : ℕ} {byte : UInt8} (hreads : ReadsByte mem root va byte) :
    Accessible mem root false va := by
  obtain ⟨-, pa, flags, htranslate, huser, -⟩ := hreads
  exact ⟨pa, flags, htranslate, huser, fun h => by cases h⟩

theorem readFlat_zero (mem : Mem) (root src : ℕ) : ReadFlat mem root src 0 0 [] :=
  ⟨.inl ⟨rfl, rfl⟩, fun _ _ h => by simp at h⟩

theorem readFlat_none {src len : ℕ} (hlen : 0 < len) (hnot : ¬ Accessible mem root false src) :
    ReadFlat mem root src len (-1) [] :=
  ⟨.inr ⟨rfl, hlen, hnot⟩, fun _ _ h => by simp at h⟩

theorem ReadFlat.cons {src next rest : ℕ} {result : ℤ} {first bytes : List UInt8}
    (hfirst : ∀ k byte, first[k]? = some byte → ReadsByte mem root (src + k) byte)
    (hnext : 0 < rest → next = src + first.length)
    (hrest : ReadFlat mem root next rest result bytes) :
    ReadFlat mem root src (first.length + rest) result (first ++ bytes) := by
  obtain ⟨hstop, hreads⟩ := hrest
  refine ⟨?_, fun k byte hk => ?_⟩
  · rw [List.length_append]
    obtain ⟨hzero, hall⟩ | ⟨hfail, hlt, hnot⟩ := hstop
    · exact .inl ⟨hzero, by omega⟩
    · refine .inr ⟨hfail, by omega, ?_⟩
      rwa [hnext (by omega), Nat.add_assoc] at hnot
  · by_cases hearly : k < first.length
    · rw [List.getElem?_append_left hearly] at hk
      exact hfirst k byte hk
    · rw [List.getElem?_append_right (by omega)] at hk
      have hlt := (List.getElem?_eq_some_iff.mp hk).1
      have hread := hreads _ _ hk
      rwa [hnext (by obtain ⟨-, hall⟩ | ⟨-, hless, -⟩ := hstop <;> omega),
        show src + first.length + (k - first.length) = src + k by omega] at hread

theorem copyinLoop_flat {pm : Pm} {rounds src len : ℕ} (hrange : src + len ≤ maxVa)
    (hrounds : len ≤ rounds) :
    ∃ result bytes, copyinLoop pm root rounds src len = .ok (result, bytes) ∧
      ReadFlat pm.mem root src len result bytes := by
  induction rounds generalizing src len with
  | zero =>
      obtain rfl : len = 0 := by omega
      exact ⟨0, [], rfl, readFlat_zero _ _ _⟩
  | succ rounds ih =>
      by_cases hlen : len = 0
      · subst hlen
        exact ⟨0, [], by rw [copyinLoop, if_pos rfl], readFlat_zero _ _ _⟩
      have hle := pgRoundDown_le src
      have hlt := lt_pgRoundDown_add src
      have hself := pgRoundDown_aligned src
      have hlow : pgRoundDown src < maxVa := by omega
      have hround := pgRoundDown_div src
      rw [copyinLoop, if_neg hlen]
      dsimp only
      rw [if_neg (by omega), walk_lookup hlow]
      cases hlookup : lookup pm.mem (pgRoundDown src) 2 root with
      | none =>
          refine ⟨-1, [], rfl, readFlat_none (by omega) fun haccess => ?_⟩
          exact not_accessible_of_lookup_none hlookup ((accessible_page hround).mpr haccess)
      | some leaf =>
          have haccess := @accessible_iff _ _ _ _ false hlookup
          have hread : readPte pm.mem (leaf + 8 * idx 0 (pgRoundDown src)) =
            entry pm.mem leaf (idx 0 (pgRoundDown src)) := rfl
          simp only [Option.map_some]
          rw [hread]
          split
          · rename_i hbad
            refine ⟨-1, [], rfl, readFlat_none (by omega) fun hgood => ?_⟩
            obtain ⟨hv, hu, -⟩ := haccess.mp ((accessible_page hround).mpr hgood)
            exact absurd hbad (by simp only [hv, hu, or_self, not_false_eq_true])
          · rename_i hgood
            obtain ⟨hv, hu⟩ := not_or.mp hgood
            generalize hn : min (pgSize - (src - pgRoundDown src)) len = n
            have hwrap : (pgRoundDown src + pgSize) % 2 ^ 64 = pgRoundDown src + pgSize := by
              apply Nat.mod_eq_of_lt
              simp only [pgSize, maxVa] at *
              omega
            have hend : pgRoundDown src + pgSize ≤ maxVa := by
              simp only [pgSize, maxVa] at *
              omega
            obtain ⟨result, bytes, hloop, hflat⟩ :=
              @ih (pgRoundDown src + pgSize) (len - n) (by omega) (by omega)
            rw [hwrap, hloop]
            refine ⟨result, _, rfl, ?_⟩
            have hfirst : ∀ k byte, ((List.range n).map fun k =>
                pm.mem (pte2pa (entry pm.mem leaf (idx 0 (pgRoundDown src))) +
                  (src - pgRoundDown src) + k))[k]? = some byte →
                ReadsByte pm.mem root (src + k) byte := by
              intro k byte hk
              rw [List.getElem?_map, Option.map_eq_some_iff] at hk
              obtain ⟨j, hj, rfl⟩ := hk
              obtain ⟨hk, hj⟩ := List.getElem?_eq_some_iff.mp hj
              rw [List.getElem_range] at hj
              subst hj
              rw [List.length_range] at hk
              exact ⟨by omega, _, _, translate_in_page hlookup hv (by omega), pteFlags_user.mpr hu, rfl⟩
            generalize hpiece : (List.range n).map (fun k =>
                pm.mem (pte2pa (entry pm.mem leaf (idx 0 (pgRoundDown src))) +
                  (src - pgRoundDown src) + k)) = piece at hfirst ⊢
            have hlength : piece.length = n := by simp [← hpiece]
            have hall := hflat.cons hfirst (by omega)
            rwa [hlength, show n + (len - n) = len by omega] at hall

/-! ## Both -/

theorem ReadFlat.result_iff {src len : ℕ} {result : ℤ} {bytes : List UInt8}
    (hflat : ReadFlat mem root src len result bytes) :
    result = 0 ↔ ∀ k < len, Accessible mem root false (src + k) := by
  obtain ⟨rfl, hall⟩ | ⟨rfl, hless, hnot⟩ := hflat.stop
  · refine ⟨fun _ k hk => ?_, fun _ => rfl⟩
    have hlt : k < bytes.length := by omega
    exact (hflat.reads k _ (List.getElem?_eq_getElem hlt)).accessible
  · exact ⟨(fun h => by cases h), fun h => absurd (h _ hless) hnot⟩

theorem CopiedFlat.result_iff {dst len m : ℕ} {src : ℕ → UInt8} {result : ℤ}
    (hflat : CopiedFlat mem mem' root tables dst src len result m) :
    result = 0 ↔ ∀ k < len, Accessible mem root true (dst + k) := by
  obtain ⟨rfl, rfl⟩ | ⟨rfl, hless, hnot⟩ := hflat.stop
  · exact ⟨fun _ => hflat.access, fun _ => rfl⟩
  · exact ⟨(fun h => by cases h), fun h => absurd (h _ hless) hnot⟩

/-- What `copyout` wrote `copyin` reads. -/
theorem Written.readFlat {dst len : ℕ} {src : ℕ → UInt8} {result : ℤ} {bytes : List UInt8}
    (hwritten : Written mem mem' root dst src len)
    (haccess : ∀ k < len, Accessible mem root true (dst + k))
    (hflat : ReadFlat mem' root dst len result bytes) :
    result = 0 ∧ bytes = (List.range len).map src := by
  have hzero : result = 0 := by
    refine hflat.result_iff.mpr fun k hk => (hwritten.accessible false _).mpr ?_
    obtain ⟨pa, flags, htranslate, huser, -⟩ := haccess k hk
    exact ⟨pa, flags, htranslate, huser, fun h => by cases h⟩
  obtain ⟨-, hlength⟩ | ⟨hfail, -⟩ := hflat.stop
  · refine ⟨hzero, List.ext_getElem? fun k => ?_⟩
    by_cases hk : k < len
    · have hlt : k < bytes.length := by omega
      have hsome := List.getElem?_eq_getElem hlt
      obtain ⟨-, pa, flags, htranslate, -, hbyte⟩ := hflat.reads k _ hsome
      obtain ⟨pa', flags', htranslate', hbyte'⟩ := hwritten.bytes k hk
      rw [hwritten.same, htranslate'] at htranslate
      obtain ⟨rfl, -⟩ := Prod.mk.inj (Option.some.inj htranslate)
      rw [hsome, ← hbyte, hbyte', List.getElem?_map, List.getElem?_range hk]
      rfl
    · rw [List.getElem?_eq_none (by omega), List.getElem?_eq_none (by simpa using by omega)]
  · rw [hzero] at hfail
    cases hfail

/-- `copyout` and `copyin` on a range below `MAXVA`. -/
theorem copyout_copyin_flat {pm : Pm} (hwf : WellFormed pm.mem root tables)
    (hframes : FramesApart pm.mem root tables) (honce : MappedOnce pm.mem root) {addr len : ℕ}
    (hrange : addr + len ≤ maxVa) (src : ℕ → UInt8) :
    (∃ result mem', copyout pm root addr src len = (.ok result, ⟨mem', pm.freelist⟩) ∧
        (result = 0 ∨ result = -1) ∧
        (result = 0 ↔ ∀ k < len, Accessible pm.mem root true (addr + k)) ∧
        (∃ m ≤ len, (result = 0 → m = len) ∧ Written pm.mem mem' root addr src m) ∧
        (result = 0 →
          copyin ⟨mem', pm.freelist⟩ root addr len = .ok (0, (List.range len).map src))) ∧
      ∃ result bytes, copyin pm root addr len = .ok (result, bytes) ∧
        (result = 0 ∨ result = -1) ∧
        (result = 0 ↔ ∀ k < len, Accessible pm.mem root false (addr + k)) ∧
        bytes.length ≤ len ∧ (result = 0 → bytes.length = len) ∧
        ∀ k byte, bytes[k]? = some byte → ReadsByte pm.mem root (addr + k) byte := by
  constructor
  · obtain ⟨result, mem', m, hloop, hflat⟩ :=
      @copyoutLoop_flat root tables pm src len addr 0 len hwf hframes honce hrange le_rfl
    simp only [Nat.zero_add] at hflat
    refine ⟨result, mem', hloop, hflat.stop.imp And.left And.left, hflat.result_iff,
      ⟨m, ?_, ?_, hflat.written⟩, fun hzero => ?_⟩
    · obtain ⟨-, rfl⟩ | ⟨-, hlt, -⟩ := hflat.stop
      · exact le_rfl
      · exact hlt.le
    · rintro rfl
      obtain ⟨-, hall⟩ | ⟨hfail, -⟩ := hflat.stop
      · exact hall
      · cases hfail
    · obtain ⟨result', bytes, hcopyin, hread⟩ :=
        @copyinLoop_flat root ⟨mem', pm.freelist⟩ len addr len hrange le_rfl
      obtain ⟨-, rfl⟩ | ⟨hfail, -⟩ := hflat.stop
      · obtain ⟨rfl, rfl⟩ := hflat.written.readFlat hflat.access hread
        exact hcopyin
      · rw [hzero] at hfail
        cases hfail
  · obtain ⟨result, bytes, hcopyin, hread⟩ := @copyinLoop_flat root pm len addr len hrange le_rfl
    refine ⟨result, bytes, hcopyin, hread.stop.imp And.left And.left, hread.result_iff, ?_, ?_,
      hread.reads⟩
    · obtain ⟨-, hall⟩ | ⟨-, hlt, -⟩ := hread.stop
      · exact hall.le
      · exact hlt.le
    · rintro rfl
      obtain ⟨-, hall⟩ | ⟨hfail, -⟩ := hread.stop
      · exact hall
      · cases hfail

/-- A string across two pages and back. -/
theorem copyout_copyin_twoPages : ∃ pm mem' tables, Owned 0x80300000 sevenPages.free pm 0x80301000 tables ∧
    copyout pm 0x80301000 4000 (fun k => UInt8.ofNat k) 200 = (.ok 0, ⟨mem', pm.freelist⟩) ∧
    copyin ⟨mem', pm.freelist⟩ 0x80301000 4000 200 =
      .ok (0, (List.range 200).map fun k => UInt8.ofNat k) := by
  obtain ⟨pm, tables, hown, hmapped⟩ := exists_twoPages
  have hwritable : ∀ k < 200, Accessible pm.mem 0x80301000 true (4000 + k) := by
    intro k hk
    obtain ⟨page, -, -, htranslate, -⟩ := hmapped (4000 + k) (by omega) (by omega)
    exact ⟨_, _, htranslate, by decide, fun _ => by decide⟩
  obtain ⟨⟨result, mem', hcopyout, -, hresult, -, hcopyin⟩, -⟩ :=
    @copyout_copyin_flat 0x80301000 tables pm hown.tree hown.framesApart hown.mappedOnce 4000 200
      (by decide) fun k => UInt8.ofNat k
  obtain rfl := hresult.mpr hwritable
  exact ⟨pm, mem', tables, hown, hcopyout, hcopyin rfl⟩

end Painting.PageTable
