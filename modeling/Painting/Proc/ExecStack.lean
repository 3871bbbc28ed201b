import Painting.Proc.Exec
import Painting.Proc.LoadedImage

/-!
# The stack that a program starts with

The arguments are pushed downwards, each below the one before, and the array of pointers
below the last.  A copy that succeeds ends below the trapframe page, so the stack pointer
has not wrapped around; one that fails has written to nothing below its start.
-/

namespace Painting.Exec

open Painting.Memory Painting.PageTable Painting.Loader
open Painting.Process (Proc)
open Painting.Strings (ofList)

variable {kernelEnd root : ℕ} {region : Set ℕ} {pm pm' : Pm} {tables : ℕ → Set ℕ}

/-! ## Bytes of the user -/

/-- A write elsewhere in user memory. -/
theorem readsByte_of_written {mem mem' : Mem} {dst m va : ℕ} {src : ℕ → UInt8} {byte : UInt8}
    (honce : MappedOnce mem root) (hwritten : Written mem mem' root dst src m)
    (haccess : ∀ k < m, Accessible mem root true (dst + k)) (hrange : dst + m ≤ maxVa)
    (hout : va < dst ∨ dst + m ≤ va) (hreads : ReadsByte mem root va byte) :
    ReadsByte mem' root va byte := by
  obtain ⟨hva, pa, flags, htranslate, huser, rfl⟩ := hreads
  refine ⟨hva, pa, flags, (hwritten.same va).trans htranslate, huser, hwritten.others pa ?_⟩
  intro k hk flags' hagain
  obtain ⟨pa', flags'', hfound, huser', -⟩ := haccess k hk
  obtain ⟨rfl, rfl⟩ := Prod.mk.inj (Option.some.inj (hfound.symm.trans hagain))
  have heq := honce _ _ _ _ _ hva (by omega) htranslate huser hagain huser'
  omega

/-- A byte that was written. -/
theorem readsByte_written {mem mem' : Mem} {dst m k : ℕ} {src : ℕ → UInt8}
    (hwritten : Written mem mem' root dst src m)
    (haccess : ∀ k < m, Accessible mem root true (dst + k)) (hrange : dst + m ≤ maxVa)
    (hk : k < m) : ReadsByte mem' root (dst + k) (src k) := by
  obtain ⟨pa, flags, htranslate, hbyte⟩ := hwritten.bytes k hk
  obtain ⟨pa', flags', hfound, huser, -⟩ := haccess k hk
  obtain ⟨rfl, rfl⟩ := Prod.mk.inj (Option.some.inj (hfound.symm.trans htranslate))
  exact ⟨by omega, pa', flags', (hwritten.same _).trans htranslate, huser, hbyte⟩

/-! ## Copies to the stack -/

/-- Only pages of the user from `base` on are written. -/
structure WritesAbove (kernelEnd : ℕ) (region : Set ℕ) (pm pm' : Pm) (root : ℕ)
    (tables : ℕ → Set ℕ) (base : ℕ) : Prop where
  own : Owned kernelEnd region pm' root tables
  list : pm'.freelist = pm.freelist
  same : ∀ va, translate pm'.mem root va = translate pm.mem root va
  untouched : Untouched region pm.mem pm'.mem
  below : ∀ va < base, ∀ pa flags, translate pm.mem root va = some (pa, flags) →
    flags &&& pteU ≠ 0 → pm'.mem pa = pm.mem pa

theorem WritesAbove.refl (hown : Owned kernelEnd region pm root tables) (base : ℕ) :
    WritesAbove kernelEnd region pm pm root tables base :=
  ⟨hown, rfl, fun _ => rfl, fun _ _ => rfl, fun _ _ _ _ _ _ => rfl⟩

theorem WritesAbove.trans {middle : Pm} {base : ℕ}
    (hleft : WritesAbove kernelEnd region pm middle root tables base)
    (hright : WritesAbove kernelEnd region middle pm' root tables base) :
    WritesAbove kernelEnd region pm pm' root tables base := by
  refine ⟨hright.own, hright.list.trans hleft.list, fun va => (hright.same va).trans (hleft.same va),
    fun x hx => (hright.untouched x hx).trans (hleft.untouched x hx), ?_⟩
  intro va hva pa flags htranslate huser
  have hmiddle := (hleft.same va).trans htranslate
  exact (hright.below va hva pa flags hmiddle huser).trans
    (hleft.below va hva pa flags htranslate huser)

theorem copyoutLoop_freelist {src : ℕ → UInt8} {rounds dst done len : ℕ} {pm : Pm} :
    (copyoutLoop root src rounds pm dst done len).2.freelist = pm.freelist := by
  induction rounds generalizing pm dst done len with
  | zero => rfl
  | succ rounds ih =>
      rw [copyoutLoop]
      split
      · rfl
      dsimp only
      split
      · rfl
      by_cases hlow : pgRoundDown dst < maxVa
      · rw [walk_lookup hlow]
        cases lookup pm.mem (pgRoundDown dst) 2 root with
        | none => rfl
        | some leaf =>
            simp only [Option.map_some]
            split
            · rfl
            · exact ih
      · rw [walk_of_max (not_lt.mp hlow)]

/-- A copy that starts at `MAXVA` or above writes nothing. -/
theorem copyout_beyond {dst : ℕ} {src : ℕ → UInt8} {len : ℕ} (hdst : maxVa ≤ dst) :
    (copyout pm root dst src len).2 = pm ∧
      (0 < len → ∀ result : ℤ, (copyout pm root dst src len).1 = .ok result → result < 0) := by
  rw [copyout]
  cases len with
  | zero => exact ⟨rfl, fun h => absurd h (lt_irrefl _)⟩
  | succ len =>
      have hround : maxVa ≤ pgRoundDown dst := by
        have htop : maxVa % pgSize = 0 := by decide
        simp only [pgRoundDown, pgSize] at *
        omega
      rw [copyoutLoop, if_neg (Nat.succ_ne_zero _)]
      dsimp only
      split
      · refine ⟨rfl, fun _ result hresult => ?_⟩
        obtain rfl := Except.ok.inj hresult
        decide
      · rw [walk_of_max hround]
        exact ⟨rfl, fun _ _ hresult => by cases hresult⟩

/-- The user may access nothing in the two pages of the kernel. -/
def KernelTop (mem : Mem) (root : ℕ) : Prop :=
  ∀ va < maxVa, trapFrame ≤ va → ¬ UserMapped mem root va

theorem KernelTop.not_writable {mem : Mem} {va : ℕ} (htop : KernelTop mem root)
    (hva : trapFrame ≤ va) : ¬ Writable mem root va := by
  rintro ⟨hlt, pa, flags, htranslate, huser, -⟩
  exact htop va hlt hva ⟨pa, flags, htranslate, huser⟩

theorem KernelTop.same {mem mem' : Mem} (htop : KernelTop mem root)
    (hsame : ∀ va, translate mem' root va = translate mem root va) : KernelTop mem' root := by
  intro va hva hlo hmapped
  rw [UserMapped, hsame] at hmapped
  exact htop va hva hlo hmapped

/-- `copyout` to a user address that is not the kernel's. -/
theorem copyout_spec (hown : Owned kernelEnd region pm root tables) (htop : KernelTop pm.mem root)
    {dst : ℕ} (src : ℕ → UInt8) (len : ℕ) (hdst : dst < maxVa) :
    CopiedOut pm.mem (copyout pm root dst src len).2.mem root tables dst len
      (copyout pm root dst src len).1 := by
  refine copyoutLoop_spec hown.tree hown.framesApart (fun haccess => ?_) hdst le_rfl
  exact htop.not_writable (show trapFrame ≤ trampoline by decide) ⟨by decide, haccess⟩

/-- Whatever becomes of a copy, it writes only from its start on. -/
theorem copyout_above (hown : Owned kernelEnd region pm root tables) (htop : KernelTop pm.mem root)
    {base dst : ℕ} (src : ℕ → UInt8) (len : ℕ) (hbase : base ≤ dst) :
    WritesAbove kernelEnd region pm (copyout pm root dst src len).2 root tables base := by
  obtain hdst | hdst := Nat.lt_or_ge dst maxVa
  · have hcopied := copyout_spec hown htop src len hdst
    have hlist : (copyout pm root dst src len).2.freelist = pm.freelist := copyoutLoop_freelist
    generalize copyout pm root dst src len = ended at hcopied hlist
    obtain ⟨result, mem', freelist⟩ := ended
    obtain rfl : freelist = pm.freelist := hlist
    have hsame := hown.tree.translate_frame hcopied.tables
    -- A byte that changed is one of the user's, at `dst` or above.
    have hchanged : ∀ x, mem' x ≠ pm.mem x → ∃ k, dst + k < maxVa ∧ ∃ flags,
        translate pm.mem root (dst + k) = some (x, flags) ∧ flags &&& pteU ≠ 0 := by
      intro x hx
      obtain ⟨k, -, hall, flags, htranslate, huser⟩ := hcopied.changed x hx
      exact ⟨k, (hall k le_rfl).1, flags, htranslate, huser⟩
    refine ⟨hown.write hcopied.tables, rfl, hsame, fun x hx => ?_, ?_⟩
    · by_contra hne
      obtain ⟨k, -, flags, htranslate, huser⟩ := hchanged x hne
      obtain ⟨leaf, -, rfl, -, hleaf⟩ := hown.tree.userLeaf htranslate huser
      rw [pgRoundDown_add (pte2pa_aligned _) (Nat.mod_lt _ (by decide))] at hx
      exact hx (hown.mem_of_frame ⟨_, hleaf⟩)
    · intro va hva pa flags htranslate huser
      by_contra hne
      obtain ⟨k, hk, flags', htranslate', huser'⟩ := hchanged pa hne
      have heq := hown.mappedOnce _ _ _ _ _ (by omega) hk htranslate huser htranslate' huser'
      omega
  · rw [(copyout_beyond hdst).1]
    exact .refl hown base

/-- A copy that succeeds ends below the pages of the kernel, and wrote all its bytes. -/
theorem copyout_fits (hown : Owned kernelEnd region pm root tables) (htop : KernelTop pm.mem root)
    {dst len : ℕ} {src : ℕ → UInt8} {result : ℤ} (hlen : 0 < len)
    (hcopy : copyout pm root dst src len = (.ok result, pm')) (hresult : ¬ result < 0) :
    dst + len ≤ trapFrame ∧ Written pm.mem pm'.mem root dst src len ∧
      ∀ k < len, Accessible pm.mem root true (dst + k) := by
  obtain hdst | hdst := Nat.lt_or_ge dst maxVa
  · have hcopied := copyout_spec hown htop src len hdst
    rw [hcopy] at hcopied
    have hall : ∀ j < len, Writable pm.mem root (dst + j) := by
      obtain ⟨-, hall⟩ | ⟨hfail, -⟩ := hcopied.result
      · exact hall
      · obtain rfl := Except.ok.inj hfail
        exact absurd (by decide) hresult
    have hend : dst + len ≤ trapFrame := by
      by_contra hover
      refine htop.not_writable ?_ (hall (len - 1) (by omega))
      omega
    obtain ⟨result', mem', m, hloop, hflat⟩ := @copyoutLoop_flat root tables pm src len dst 0 len
      hown.tree hown.framesApart hown.mappedOnce (hend.trans (by decide)) le_rfl
    simp only [Nat.zero_add] at hflat
    obtain ⟨hret, rfl⟩ := Prod.mk.inj (hcopy.symm.trans hloop)
    obtain rfl := Except.ok.inj hret
    obtain ⟨-, rfl⟩ | ⟨rfl, -⟩ := hflat.stop
    · exact ⟨hend, hflat.written, hflat.access⟩
    · exact absurd (by decide) hresult
  · obtain ⟨-, hfail⟩ := @copyout_beyond root pm dst src len hdst
    rw [hcopy] at hfail
    exact absurd (hfail hlen result rfl) hresult

/-! ## The loop over the arguments -/

/-- The user finds the string at `va`. -/
def ReadsString (mem : Mem) (root va : ℕ) (text : List UInt8) : Prop :=
  ∀ k ≤ text.length, ReadsByte mem root (va + k) (ofList text k)

/-- The bytes that the strings take, with the 0 behind each. -/
def stringSpace (args : List (List UInt8)) : ℕ := (args.map fun arg => arg.length + 1).sum

/-- The strings lie one below the other, from the end of the stack down to `sp`. -/
structure Copies (mem : Mem) (root base sp : ℕ) (args : List (List UInt8)) (ptrs : List ℕ) :
    Prop where
  length : ptrs.length = args.length
  base : base ≤ sp
  space : sp + stringSpace args = ustack
  copies : ∀ copy ∈ ptrs.zip args, sp ≤ copy.1 ∧ copy.1 + copy.2.length + 1 ≤ ustack ∧
    ReadsString mem root copy.1 copy.2
  disjoint : (ptrs.zip args).Pairwise fun copy later => later.1 + later.2.length + 1 ≤ copy.1

theorem Copies.zero (mem : Mem) (root : ℕ) {base : ℕ} (hbase : base ≤ ustack) :
    Copies mem root base ustack [] [] :=
  ⟨rfl, hbase, rfl, fun _ h => absurd h List.not_mem_nil, List.Pairwise.nil⟩

/-- A write below the strings. -/
theorem Copies.written {mem mem' : Mem} {base sp dst m : ℕ} {src : ℕ → UInt8}
    {args : List (List UInt8)} {ptrs : List ℕ} (hcopies : Copies mem root base sp args ptrs)
    (honce : MappedOnce mem root) (hwritten : Written mem mem' root dst src m)
    (haccess : ∀ k < m, Accessible mem root true (dst + k)) (hbelow : dst + m ≤ sp) :
    Copies mem' root base sp args ptrs := by
  obtain ⟨hlength, hbase, hspace, hcopy, hdisjoint⟩ := hcopies
  have hmax : ustack ≤ maxVa := by decide
  refine ⟨hlength, hbase, hspace, fun copy hmem => ?_, hdisjoint⟩
  obtain ⟨hlo, hhi, hreads⟩ := hcopy copy hmem
  refine ⟨hlo, hhi, fun k hk => ?_⟩
  exact readsByte_of_written honce hwritten haccess (by omega) (.inr (by omega)) (hreads k hk)

/-- One string more. -/
theorem Copies.push {mem mem' : Mem} {base sp dst : ℕ} {arg : List UInt8}
    {args : List (List UInt8)} {ptrs : List ℕ} (hcopies : Copies mem root base sp args ptrs)
    (honce : MappedOnce mem root) (hwritten : Written mem mem' root dst (ofList arg) (arg.length + 1))
    (haccess : ∀ k < arg.length + 1, Accessible mem root true (dst + k)) (hbase : base ≤ dst)
    (hend : dst + (arg.length + 1) = sp) :
    Copies mem' root base dst (args ++ [arg]) (ptrs ++ [dst]) := by
  obtain ⟨hlength, -, hspace, hcopy, hdisjoint⟩ :=
    hcopies.written honce hwritten haccess hend.le
  have hmax : ustack ≤ maxVa := by decide
  have hzip : (ptrs ++ [dst]).zip (args ++ [arg]) = ptrs.zip args ++ [(dst, arg)] :=
    List.zip_append hlength
  have hnew : ReadsString mem' root dst arg := fun k hk =>
    readsByte_written hwritten haccess (by omega) (by omega)
  refine ⟨?_, hbase, ?_, fun copy hmem => ?_, ?_⟩
  · rw [List.length_append, List.length_append, hlength]
    rfl
  · rw [stringSpace, List.map_append, List.sum_append]
    rw [stringSpace] at hspace
    simp only [List.map_cons, List.map_nil, List.sum_cons, List.sum_nil]
    omega
  · rw [hzip, List.mem_append, List.mem_singleton] at hmem
    obtain hold | rfl := hmem
    · obtain ⟨hlo, hhi, hreads⟩ := hcopy copy hold
      exact ⟨by omega, hhi, hreads⟩
    · exact ⟨le_rfl, by dsimp only; omega, hnew⟩
  · rw [hzip, List.pairwise_append]
    refine ⟨hdisjoint, List.pairwise_singleton _ _, fun copy hold later hlater => ?_⟩
    obtain rfl := List.mem_singleton.mp hlater
    have hlo := (hcopy copy hold).1
    dsimp only
    omega

/-- A stack pointer that has not wrapped around. -/
theorem sub_add_of_fits {sp len : ℕ} (hsp : sp ≤ ustack)
    (hend : (sp + 2 ^ 64 - len) % 2 ^ 64 + len ≤ trapFrame) :
    (sp + 2 ^ 64 - len) % 2 ^ 64 + len = sp := by
  have htop : trapFrame < 2 ^ 64 := by decide
  have hbelow : ustack ≤ trapFrame := by decide
  omega

/-- What the loop over the arguments leaves. -/
structure Looped (kernelEnd : ℕ) (region : Set ℕ) (pm : Pm) (root : ℕ) (tables : ℕ → Set ℕ)
    (base : ℕ) (argv : ℕ → Option (List UInt8)) (pushed : Pushed) : Prop where
  above : WritesAbove kernelEnd region pm pushed.pm root tables base
  few : pushed.ustack.length ≤ maxArg
  done : ∀ sp, pushed.result = .ok (some sp) → ∃ args,
    Copies pushed.pm.mem root base sp args pushed.ustack ∧
      (∀ i < args.length, argv i = args[i]?) ∧ argv args.length = none
  returns : (∀ i arg, argv i = some arg → arg.length < physTop) →
    ∃ result, pushed.result = .ok result

theorem looped_bad {base reads : ℕ} {argv : ℕ → Option (List UInt8)} {ptrs : List ℕ}
    (habove : WritesAbove kernelEnd region pm pm' root tables base) (hfew : ptrs.length ≤ maxArg) :
    Looped kernelEnd region pm root tables base argv ⟨.ok none, pm', ptrs, reads⟩ :=
  ⟨habove, hfew, fun _ h => (by cases h), fun _ => ⟨none, rfl⟩⟩

/-- One round: the end of the loop, or one string more on the stack. -/
theorem pushArg_spec {base sp : ℕ} {argv : ℕ → Option (List UInt8)} {args : List (List UInt8)}
    {ptrs : List ℕ} (hlow : physTop ≤ base) (hown : Owned kernelEnd region pm root tables)
    (htop : KernelTop pm.mem root) (hcopies : Copies pm.mem root base sp args ptrs)
    (hread : ∀ i < args.length, argv i = args[i]?) (hfew : ptrs.length ≤ maxArg) :
    (∃ pushed, pushArg root base argv pm sp ptrs = .inl pushed ∧
      Looped kernelEnd region pm root tables base argv pushed) ∨
    ∃ pm' dst arg, pushArg root base argv pm sp ptrs = .inr (pm', dst) ∧
      ptrs.length < maxArg ∧ argv args.length = some arg ∧
      WritesAbove kernelEnd region pm pm' root tables base ∧
      Copies pm'.mem root base dst (args ++ [arg]) (ptrs ++ [dst]) := by
  have hlength := hcopies.length
  have hbase := hcopies.base
  have hspace := hcopies.space
  have hsp : sp ≤ ustack := by omega
  rw [pushArg]
  dsimp only
  cases hargv : argv ptrs.length with
  | none =>
      refine .inl ⟨_, rfl, .refl hown base, hfew, fun sp' hsp' => ?_, fun _ => ⟨some sp, rfl⟩⟩
      obtain rfl := Option.some.inj (Except.ok.inj hsp')
      exact ⟨args, hcopies, hread, hlength ▸ hargv⟩
  | some arg =>
      dsimp only
      split
      · exact .inl ⟨_, rfl, looped_bad (.refl hown base) hfew⟩
      rename_i hmore
      generalize hdst : (sp + 2 ^ 64 - (arg.length + 1)) % 2 ^ 64 = dst
      split
      · exact .inl ⟨_, rfl, looped_bad (.refl hown base) hfew⟩
      rename_i hin
      have habove := copyout_above hown htop (ofList arg) (arg.length + 1) (not_lt.mp hin)
      cases hcopy : copyout pm root dst (ofList arg) (arg.length + 1) with
      | mk result pm₁ =>
          rw [hcopy] at habove
          cases result with
          | error panic =>
              refine .inl ⟨_, rfl, habove, hfew, fun _ h => (by cases h), fun hshort => ?_⟩
              have hless := hshort _ arg hargv
              have hmax : ustack < maxVa := by decide
              have hcopied := copyout_spec hown htop (ofList arg) (arg.length + 1)
                (show dst < maxVa by omega)
              rw [hcopy] at hcopied
              obtain ⟨hfail, -⟩ | ⟨hfail, -⟩ := hcopied.result <;> cases hfail
          | ok result =>
              dsimp only
              split
              · exact .inl ⟨_, rfl, looped_bad habove hfew⟩
              rename_i hresult
              obtain ⟨hend, hwritten, haccess⟩ :=
                copyout_fits hown htop (Nat.succ_pos _) hcopy hresult
              have hfits : dst + (arg.length + 1) = sp := by
                rw [← hdst] at hend ⊢
                exact sub_add_of_fits hsp hend
              exact .inr ⟨pm₁, dst, arg, rfl, not_le.mp hmore, hlength ▸ hargv, habove,
                hcopies.push hown.mappedOnce hwritten haccess (not_lt.mp hin) hfits⟩

theorem argLoop_spec {base : ℕ} {argv : ℕ → Option (List UInt8)} (hlow : physTop ≤ base)
    (rounds : ℕ) {pm : Pm} {sp : ℕ} {args : List (List UInt8)} {ptrs : List ℕ}
    (hown : Owned kernelEnd region pm root tables) (htop : KernelTop pm.mem root)
    (hcopies : Copies pm.mem root base sp args ptrs)
    (hread : ∀ i < args.length, argv i = args[i]?) (hfew : ptrs.length ≤ maxArg) :
    Looped kernelEnd region pm root tables base argv (argLoop root base argv rounds pm sp ptrs) := by
  induction rounds generalizing pm sp args ptrs with
  | zero => exact looped_bad (.refl hown base) hfew
  | succ rounds ih =>
      rw [argLoop]
      obtain ⟨pushed, hround, hlooped⟩ | ⟨pm', dst, arg, hround, hmore, hargv, habove, hpushed⟩ :=
        pushArg_spec hlow hown htop hcopies hread hfew
      · rw [hround]
        exact hlooped
      · rw [hround]
        have hnext : ∀ i < (args ++ [arg]).length, argv i = (args ++ [arg])[i]? := by
          intro i hi
          rw [List.length_append, List.length_singleton] at hi
          by_cases hold : i < args.length
          · rw [hread i hold, List.getElem?_append_left hold]
          · obtain rfl : i = args.length := by omega
            rw [List.getElem?_concat_length, hargv]
        obtain ⟨habove', hfew', hdone, hreturns⟩ := ih habove.own (htop.same habove.same) hpushed hnext
          (by rw [List.length_append, List.length_singleton]; omega)
        exact ⟨habove.trans habove', hfew', hdone, hreturns⟩

/-! ## The array of pointers -/

/-- The user finds the word at `va`. -/
def ReadsWord (mem : Mem) (root va word : ℕ) : Prop :=
  ∀ k < 8, ReadsByte mem root (va + k) (UInt8.ofNat (word / 256 ^ k))

/-- The stack that a program with these arguments starts with: the array of pointers at `sp`, and
above it the strings, one below the other. -/
structure ArgStack (mem : Mem) (root sp : ℕ) (args : List (List UInt8)) (ptrs : List ℕ) : Prop where
  length : ptrs.length = args.length
  aligned : sp % 16 = 0
  base : ustack - pgSize ≤ sp
  top : sp < ustack
  words : ∀ i ptr, (ptrs ++ [0])[i]? = some ptr → ReadsWord mem root (sp + 8 * i) ptr
  copies : ∀ copy ∈ ptrs.zip args, sp + 8 * (args.length + 1) ≤ copy.1 ∧
    copy.1 + copy.2.length + 1 ≤ ustack ∧ ReadsString mem root copy.1 copy.2
  disjoint : (ptrs.zip args).Pairwise fun copy later => later.1 + later.2.length + 1 ≤ copy.1
  space : 8 * (args.length + 1) + stringSpace args ≤ pgSize

/-- It stays when the user reads the same bytes. -/
theorem ArgStack.same {mem mem' : Mem} {sp : ℕ} {args : List (List UInt8)} {ptrs : List ℕ}
    (hstack : ArgStack mem root sp args ptrs)
    (hsame : ∀ va byte, ReadsByte mem root va byte → ReadsByte mem' root va byte) :
    ArgStack mem' root sp args ptrs := by
  obtain ⟨hlength, haligned, hbase, htop, hwords, hcopies, hdisjoint, hspace⟩ := hstack
  refine ⟨hlength, haligned, hbase, htop, fun i ptr hptr k hk => hsame _ _ (hwords i ptr hptr k hk),
    fun copy hmem => ?_, hdisjoint, hspace⟩
  obtain ⟨hlo, hhi, hreads⟩ := hcopies copy hmem
  exact ⟨hlo, hhi, fun k hk => hsame _ _ (hreads k hk)⟩

theorem wordBytes_at {words : List ℕ} {i word k : ℕ} (hword : words[i]? = some word) (hk : k < 8) :
    wordBytes words (8 * i + k) = UInt8.ofNat (word / 256 ^ k) := by
  have hdiv : (8 * i + k) / 8 = i := by omega
  have hmod : (8 * i + k) % 8 = k := by omega
  rw [wordBytes, hdiv, hmod, List.getD_eq_getElem?_getD, hword, Option.getD_some]

/-- The array below the strings. -/
theorem Copies.argStack {mem mem' : Mem} {sp dst gap : ℕ} {args : List (List UInt8)}
    {ptrs : List ℕ} (hcopies : Copies mem root (ustack - pgSize) sp args ptrs)
    (honce : MappedOnce mem root)
    (hwritten : Written mem mem' root dst (wordBytes (ptrs ++ [0])) (8 * (ptrs.length + 1)))
    (haccess : ∀ k < 8 * (ptrs.length + 1), Accessible mem root true (dst + k))
    (hbase : ustack - pgSize ≤ dst) (hend : dst + 8 * (ptrs.length + 1) + gap = sp)
    (haligned : dst % 16 = 0) : ArgStack mem' root dst args ptrs := by
  obtain ⟨hlength, -, hspace, hcopy, hdisjoint⟩ :=
    hcopies.written honce hwritten haccess (by omega)
  have hmax : ustack ≤ maxVa := by decide
  have hpage : ustack - pgSize + pgSize = ustack := by decide
  refine ⟨hlength, haligned, hbase, by omega, fun i ptr hptr k hk => ?_, fun copy hmem => ?_,
    hdisjoint, by omega⟩
  · have hi : i < ptrs.length + 1 := by
      obtain ⟨hlt, -⟩ := List.getElem?_eq_some_iff.mp hptr
      rwa [List.length_append, List.length_singleton] at hlt
    have hreads := @readsByte_written root mem mem' dst _ (8 * i + k) _ hwritten haccess (by omega)
      (by omega)
    rwa [wordBytes_at hptr hk, ← Nat.add_assoc] at hreads
  · obtain ⟨hlo, hhi, hreads⟩ := hcopy copy hmem
    exact ⟨by omega, hhi, hreads⟩

/-- The pushing of the arguments: it writes only to the stack page, and when it succeeds the
strings of `argv` are on the stack. -/
structure PushedArgs (kernelEnd : ℕ) (region : Set ℕ) (pm : Pm) (root : ℕ) (tables : ℕ → Set ℕ)
    (argv : ℕ → Option (List UInt8)) (pushed : Pushed) : Prop where
  above : WritesAbove kernelEnd region pm pushed.pm root tables (ustack - pgSize)
  done : ∀ sp, pushed.result = .ok (some sp) → ∃ args ptrs, pushed.ustack = ptrs ++ [0] ∧
    ArgStack pushed.pm.mem root sp args ptrs ∧
      (∀ i < args.length, argv i = args[i]?) ∧ argv args.length = none
  returns : (∀ i arg, argv i = some arg → arg.length < physTop) →
    ∃ result, pushed.result = .ok result

theorem pushedArgs_bad {reads : ℕ} {argv : ℕ → Option (List UInt8)} {ptrs : List ℕ}
    (habove : WritesAbove kernelEnd region pm pm' root tables (ustack - pgSize)) :
    PushedArgs kernelEnd region pm root tables argv ⟨.ok none, pm', ptrs, reads⟩ :=
  ⟨habove, fun _ h => (by cases h), fun _ => ⟨none, rfl⟩⟩

theorem pushArgs_spec (hown : Owned kernelEnd region pm root tables)
    (htop : KernelTop pm.mem root) (argv : ℕ → Option (List UInt8)) :
    PushedArgs kernelEnd region pm root tables argv (pushArgs pm root ustack argv) := by
  have hstackbase : (ustack + 2 ^ 64 - pgSize) % 2 ^ 64 = ustack - pgSize := by decide
  have hlow : physTop ≤ ustack - pgSize := by decide
  have hnone : ∀ i < ([] : List (List UInt8)).length, argv i = [][i]? := fun i hi =>
    absurd hi (Nat.not_lt_zero _)
  have hlooped := argLoop_spec hlow (maxArg + 1) hown htop
    (Copies.zero pm.mem root (show ustack - pgSize ≤ ustack from Nat.sub_le _ _)) hnone
    (Nat.zero_le _)
  rw [pushArgs, hstackbase]
  dsimp only
  generalize argLoop root (ustack - pgSize) argv (maxArg + 1) pm ustack [] = looped at hlooped ⊢
  obtain ⟨habove, hfew, hdone, hreturns⟩ := hlooped
  obtain ⟨result, pm₁, ptrs, reads⟩ := looped
  obtain panic | _ | sp := result
  · exact ⟨habove, fun _ h => (by cases h), hreturns⟩
  · exact ⟨habove, fun _ h => (by cases h), hreturns⟩
  obtain ⟨args, hcopies, hread, hend⟩ := hdone sp rfl
  have hbase := hcopies.base
  have hspace := hcopies.space
  have hand : sp &&& 0x0f = sp % 16 := Nat.and_two_pow_sub_one_eq_mod sp 4
  have hcount : ∀ n, n &&& 0xf = n % 16 := fun n => Nat.and_two_pow_sub_one_eq_mod n 4
  dsimp only at hfew ⊢
  rw [hand, hcount, List.length_append, List.length_singleton, Nat.mul_comm _ 8]
  generalize hgap : sp % 16 + (0x10 - 8 * (ptrs.length + 1) % 16) = gap
  generalize hdst : ((sp + 2 ^ 64 - gap) % 2 ^ 64 + 2 ^ 64 - 8 * (ptrs.length + 1)) % 2 ^ 64 = dst
  have hmaxArg : maxArg = 32 := rfl
  have hnumbers : 1000 ≤ ustack - pgSize ∧ ustack < maxVa ∧ maxVa < 2 ^ 64 := by decide
  have hfits : dst + 8 * (ptrs.length + 1) + gap = sp := by omega
  split
  · exact pushedArgs_bad habove
  rename_i hin
  have htop₁ := htop.same habove.same
  have habove' := habove.trans
    (copyout_above habove.own htop₁ (wordBytes (ptrs ++ [0])) (8 * (ptrs.length + 1)) (not_lt.mp hin))
  cases hcopy : copyout pm₁ root dst (wordBytes (ptrs ++ [0])) (8 * (ptrs.length + 1)) with
  | mk result pm₂ =>
      rw [hcopy] at habove'
      cases result with
      | error panic =>
          have hcopied := copyout_spec habove.own htop₁ (wordBytes (ptrs ++ [0]))
            (8 * (ptrs.length + 1)) (show dst < maxVa by omega)
          rw [hcopy] at hcopied
          obtain ⟨hfail, -⟩ | ⟨hfail, -⟩ := hcopied.result <;> cases hfail
      | ok result =>
          dsimp only
          split
          · exact pushedArgs_bad habove'
          rename_i hresult
          obtain ⟨-, hwritten, haccess⟩ :=
            copyout_fits habove.own htop₁ (by omega) hcopy hresult
          have hstack := hcopies.argStack habove.own.mappedOnce hwritten haccess (not_lt.mp hin) hfits
            (by omega)
          refine ⟨habove', fun sp' hsp' => ?_, fun _ => ⟨some dst, rfl⟩⟩
          obtain rfl := Option.some.inj (Except.ok.inj hsp')
          exact ⟨args, ptrs, rfl, hstack, hread, hend⟩

/-! ## The whole call -/

/-- Pages elsewhere do not matter to the user. -/
theorem readsByte_apart {mem mem' : Mem} {va : ℕ} {byte : UInt8}
    (hapart : Apart mem region root tables) (huntouched : Untouched region mem mem')
    (hreads : ReadsByte mem root va byte) : ReadsByte mem' root va byte := by
  obtain ⟨hva, pa, flags, htranslate, huser, rfl⟩ := hreads
  exact ⟨hva, pa, flags, (hapart.translate_same huntouched va).trans htranslate, huser,
    hapart.content_same huntouched htranslate huser⟩

theorem apart_of_owned (hown : Owned kernelEnd region pm root tables) {other : Set ℕ}
    (hother : ∀ page ∈ other, page ∈ pm.freelist ∨ page ∉ region) :
    Apart pm.mem other root tables := by
  refine ⟨hown.tree, fun page htable hpage => ?_, fun page hframe hpage => ?_⟩
  · obtain hfree | hout := hother page hpage
    · exact hown.freeTable page hfree htable
    · exact hout (hown.mem_of_table htable)
  · obtain hfree | hout := hother page hpage
    · exact hown.freeFrame page hfree hframe
    · exact hout (hown.mem_of_frame hframe)

/-- The pages of a table that was left alone while others took free pages. -/
def laterRegion (region : Set ℕ) (pm₀ pm : Pm) : Set ℕ :=
  {page | page ∈ pm.freelist ∨ page ∈ region ∧ page ∉ pm₀.freelist}

/-- Such a table can still be freed. -/
theorem freeUserPagetable_later {trampolinePa trapframe : ℕ} {pm₀ : Pm}
    (hown : Owned kernelEnd region pm₀ root tables)
    (hpages : KernelPages pm₀.mem root trampolinePa trapframe)
    (hsame : ∀ x, ¬ Outside tables x → pm.mem x = pm₀.mem x) (hnodup : pm.freelist.Nodup)
    (hsub : ∀ page ∈ pm.freelist, page ∈ pm₀.freelist) :
    ∃ pm', freeUserPagetable kernelEnd pm root = .ok pm' ∧
      Untouched (laterRegion region pm₀ pm) pm.mem pm'.mem := by
  have hwrite := hown.write hsame
  have hregion : ∀ page, page ∈ laterRegion region pm₀ pm ↔
      page ∈ pm.freelist ∨ IsTable tables page ∨ Frame pm.mem tables page := by
    intro page
    refine or_congr_right ⟨fun ⟨hpage, hbusy⟩ => ?_, fun howned => ⟨?_, fun hfree => ?_⟩⟩
    · exact ((hwrite.region_iff page).mp hpage).resolve_left hbusy
    · exact (hwrite.region_iff page).mpr (.inr howned)
    · exact howned.elim (hwrite.freeTable page hfree) (hwrite.freeFrame page hfree)
  have hlater : Owned kernelEnd (laterRegion region pm₀ pm) pm root tables := by
    refine ⟨hwrite.tree, hwrite.plain, hwrite.inj, hnodup,
      fun page hpage => hwrite.freeTable page (hsub page hpage),
      fun page hpage => hwrite.freeFrame page (hsub page hpage), hwrite.frameTable, hregion, ?_⟩
    rintro page (hpage | ⟨hpage, -⟩)
    · exact hown.good page (hown.mem_of_free (hsub page hpage))
    · exact hown.good page hpage
  have htranslate := hown.tree.translate_frame hsame
  have hpages' : KernelPages pm.mem root trampolinePa trapframe :=
    ⟨(htranslate _).trans hpages.trampoline, (htranslate _).trans hpages.trapFrame⟩
  obtain ⟨pm', -, hfree, -, -, -, -, huntouched⟩ := hlater.freeUserPagetable hpages'
  exact ⟨pm', hfree, huntouched⟩

/-- The new address space, made of pages that were free before. -/
structure NewSpace (kernelEnd trampolinePa trapframe : ℕ) (pm₀ pm : Pm) (root : ℕ)
    (tables : ℕ → Set ℕ) : Prop where
  own : Owned kernelEnd pm₀.free pm root tables
  pages : KernelPages pm.mem root trampolinePa trapframe
  same : ∀ x, pgRoundDown x ∉ pm₀.free → pgRoundDown x ≠ trapframe → pm.mem x = pm₀.mem x

section NewSpace

variable {trampolinePa trapframe : ℕ} {pm₀ : Pm}

theorem NewSpace.top (hspace : NewSpace kernelEnd trampolinePa trapframe pm₀ pm root tables) :
    KernelTop pm.mem root := by
  intro va hva hlo
  apply notUser_of_kernelPages hspace.pages
  simp only [trapFrame, trampoline, maxVa, pgSize] at *
  omega

theorem NewSpace.writes {base : ℕ}
    (hspace : NewSpace kernelEnd trampolinePa trapframe pm₀ pm root tables)
    (hwrites : WritesAbove kernelEnd pm₀.free pm pm' root tables base) :
    NewSpace kernelEnd trampolinePa trapframe pm₀ pm' root tables := by
  refine ⟨hwrites.own, ⟨?_, ?_⟩, fun x hx hne => ?_⟩
  · exact (hwrites.same _).trans hspace.pages.trampoline
  · exact (hwrites.same _).trans hspace.pages.trapFrame
  · exact (hwrites.untouched x hx).trans (hspace.same x hx hne)

/-- What `loader` leaves for the arguments. -/
theorem loader_space {p q : Proc} {found : Option File} {pm₁ pm₂ : Pm}
    (hboot : Boot kernelEnd trampolinePa p.trapframe pm₀)
    (hcreate : processPagetable kernelEnd trampolinePa pm₀ p.trapframe = .ok (root, pm₁))
    (hroot : root ≠ 0)
    (hload : loader kernelEnd pm₁ { p with pagetable := root } found = .ok (true, pm₂, q)) :
    q.pagetable = root ∧ q.trapframe = p.trapframe ∧
      load pm₂.mem (p.trapframe + trapframeSp) 8 = ustack ∧
      ∃ tables, NewSpace kernelEnd trampolinePa p.trapframe pm₀ pm₂ root tables := by
  obtain ⟨file, sz, pm, sp, pm', -, hsegments, hstack, rfl, rfl⟩ := loader_ok hload
  obtain ⟨htop, huntouched, tables, himage⟩ := image_start file hboot hcreate hroot
  obtain ⟨tables', himage'⟩ := himage.loadSegmentsAny htop _ hsegments
  obtain ⟨tables'', hready⟩ := himage'.finish hboot.frame.aligned hboot.taken hstack
  have hpages := (hboot.inv hcreate hroot).kernel
  refine ⟨rfl, rfl, hready.sp, tables'', hready.own, ⟨?_, ?_⟩, fun x hx hne => ?_⟩
  · exact (hready.kernel _ (by decide) (by decide)).trans hpages.trampoline
  · exact (hready.kernel _ (by decide) le_rfl).trans hpages.trapFrame
  · exact (hready.same x hx hne).trans (huntouched x hx)

/-- The end of a successful call: the registers are set, and the new space is as it was. -/
theorem execDone_spec {old p : Proc} {sp argc oldTrampoline oldTrapframe : ℕ}
    {oldTables : ℕ → Set ℕ} (path : ℕ → UInt8)
    (hboot : Boot kernelEnd trampolinePa p.trapframe pm₀)
    (hold : Owned kernelEnd region pm₀ old.pagetable oldTables)
    (hpages : KernelPages pm₀.mem old.pagetable oldTrampoline oldTrapframe)
    (htaken : p.trapframe ∉ region)
    (hspace : NewSpace kernelEnd trampolinePa p.trapframe pm₀ pm root tables)
    (hsp : sp < 2 ^ 64) (hargc : argc < 2 ^ 64) :
    ∃ pm' p', execDone kernelEnd pm old p path sp argc = .ok (true, pm', p') ∧
      p'.pagetable = p.pagetable ∧ p'.trapframe = p.trapframe ∧
      load pm'.mem (p.trapframe + trapframeA0) 8 = argc - 1 ∧
      load pm'.mem (p.trapframe + trapframeA1) 8 = sp ∧
      load pm'.mem (p.trapframe + trapframeSp) 8 = sp ∧
      ∀ va byte, ReadsByte pm.mem root va byte → ReadsByte pm'.mem root va byte := by
  rw [execDone]
  generalize hmem : store (store (store pm.mem (p.trapframe + trapframeA1) 8 sp)
    (p.trapframe + trapframeA0) 8 (argc - 1)) (p.trapframe + trapframeSp) 8 sp = mem
  have haligned := hboot.frame.aligned
  have hkept : ∀ x, pgRoundDown x ≠ p.trapframe → mem x = pm.mem x := by
    intro x hx
    rw [← hmem, trapframe_same haligned (by decide) hx, trapframe_same haligned (by decide) hx,
      trapframe_same haligned (by decide) hx]
  have hown := owned_outside hspace.own hboot.taken hkept
  -- The old table and its frames were left alone: the new ones were free, and so apart.
  have hsame : ∀ x, ¬ Outside oldTables x → mem x = pm₀.mem x := by
    intro x hx
    rw [outside_iff, not_not] at hx
    have hne : pgRoundDown x ≠ p.trapframe := fun heq => htaken (heq ▸ hold.mem_of_table hx)
    exact (hkept x hne).trans (hspace.same x (fun hfree => hold.freeTable _ hfree hx) hne)
  obtain ⟨pm₁, hfree, huntouched⟩ := @freeUserPagetable_later kernelEnd old.pagetable region
    ⟨mem, pm.freelist⟩ oldTables _ _ pm₀ hold hpages hsame hown.nodup
    fun page hpage => hown.mem_of_free hpage
  rw [hfree]
  have hframe : p.trapframe ∉ laterRegion region pm₀ ⟨mem, pm.freelist⟩ := by
    rintro (hpage | ⟨hpage, -⟩)
    · exact hboot.taken (hown.mem_of_free hpage)
    · exact htaken hpage
  have hload : ∀ offset, offset + 8 ≤ pgSize →
      load pm₁.mem (p.trapframe + offset) 8 = load mem (p.trapframe + offset) 8 := by
    intro offset hoffset
    refine AgreeOn.load_eq fun x hlo hhi => huntouched x ?_
    have hround : pgRoundDown x = p.trapframe := by
      simp only [pgRoundDown, pgSize] at *
      omega
    rwa [hround]
  refine ⟨pm₁, _, rfl, rfl, rfl, ?_, ?_, ?_, fun va byte hreads => ?_⟩
  · rw [hload _ (by decide), ← hmem]
    change load (store _ (p.trapframe + 48) 8 _) (p.trapframe + 112) 8 = _
    rw [load_store_of_disjoint _ (by omega), trapframeA0, load_store_of_lt _ (by omega)]
  · rw [hload _ (by decide), ← hmem]
    change load (store (store _ (p.trapframe + 112) 8 _) (p.trapframe + 48) 8 _)
      (p.trapframe + 120) 8 = _
    rw [load_store_of_disjoint _ (by omega), load_store_of_disjoint _ (by omega), trapframeA1,
      load_store_of_lt _ (by omega)]
  · rw [hload _ (by decide), ← hmem, load_store_of_lt _ (by omega)]
  · have hregisters : Untouched {p.trapframe} pm.mem mem := fun x hx => hkept x hx
    have hkeep := readsByte_apart (apart_of_owned hspace.own fun page hpage =>
      .inr (Set.mem_singleton_iff.mp hpage ▸ hboot.taken)) hregisters hreads
    refine readsByte_apart (apart_of_owned hown ?_) huntouched hkeep
    rintro page (hpage | ⟨-, hbusy⟩)
    · exact .inl hpage
    · exact .inr hbusy

theorem execBad_ne_true {old p p' : Proc} {saved : ℕ → UInt8} :
    execBad kernelEnd pm old saved p ≠ .ok (true, pm', p') := by
  intro hbad
  rw [execBad] at hbad
  split at hbad <;> cases hbad

/-- The successful calls of `process_execute`. -/
theorem processExecute_ok {p p' : Proc} {path : ℕ → UInt8} {found : Option File}
    {argv : ℕ → Option (List UInt8)}
    (hcall : (processExecute kernelEnd trampolinePa pm₀ p path found argv).outcome =
      .ok (true, pm', p')) :
    ∃ root pm₁ pm₂ q sp, processPagetable kernelEnd trampolinePa pm₀ p.trapframe = .ok (root, pm₁) ∧
      root ≠ 0 ∧ loader kernelEnd pm₁ { p with pagetable := root } found = .ok (true, pm₂, q) ∧
      (pushArgs pm₂ q.pagetable (load pm₂.mem (q.trapframe + trapframeSp) 8) argv).result =
        .ok (some sp) := by
  rw [processExecute] at hcall
  dsimp only at hcall
  split at hcall
  · cases hcall
  rename_i root pm₁ hcreate
  split at hcall
  · cases hcall
  rename_i hroot
  split at hcall
  · cases hcall
  · exact absurd hcall execBad_ne_true
  rename_i pm₂ q hload
  refine ⟨root, pm₁, pm₂, q, ?_⟩
  generalize pushArgs pm₂ q.pagetable (load pm₂.mem (q.trapframe + trapframeSp) 8) argv = pushed
    at hcall ⊢
  obtain ⟨result, pm₃, ustack, reads⟩ := pushed
  obtain panic | _ | sp := result
  · cases hcall
  · exact absurd hcall execBad_ne_true
  · exact ⟨sp, hcreate, hroot, hload, rfl⟩

/-- A list of arguments as the array that `process_execute` gets. -/
def argvOf (args : List (List UInt8)) (i : ℕ) : Option (List UInt8) := args[i]?

theorem args_of_argvOf {args pushed : List (List UInt8)}
    (hread : ∀ i < pushed.length, argvOf args i = pushed[i]?)
    (hend : argvOf args pushed.length = none) : pushed = args := by
  have hlength : args.length ≤ pushed.length := List.getElem?_eq_none_iff.mp hend
  refine List.ext_getElem? fun i => ?_
  obtain hi | hi := Nat.lt_or_ge i pushed.length
  · exact (hread i hi).symm
  · rw [List.getElem?_eq_none hi, List.getElem?_eq_none (hlength.trans hi)]

/-- A call whose arguments have been pushed. -/
theorem processExecute_pushed {p q : Proc} {path : ℕ → UInt8} {found : Option File}
    {oldTables : ℕ → Set ℕ} {oldTrampoline oldTrapframe sp : ℕ} {pm₁ pm₂ : Pm}
    {args : List (List UInt8)} (hboot : Boot kernelEnd trampolinePa p.trapframe pm₀)
    (hold : Owned kernelEnd region pm₀ p.pagetable oldTables)
    (hpages : KernelPages pm₀.mem p.pagetable oldTrampoline oldTrapframe)
    (htaken : p.trapframe ∉ region)
    (hcreate : processPagetable kernelEnd trampolinePa pm₀ p.trapframe = .ok (root, pm₁))
    (hroot : root ≠ 0)
    (hload : loader kernelEnd pm₁ { p with pagetable := root } found = .ok (true, pm₂, q))
    (hresult : (pushArgs pm₂ q.pagetable (load pm₂.mem (q.trapframe + trapframeSp) 8)
      (argvOf args)).result = .ok (some sp)) :
    ∃ pm' p' ptrs,
      (processExecute kernelEnd trampolinePa pm₀ p path found (argvOf args)).outcome =
        .ok (true, pm', p') ∧
      load pm'.mem (p'.trapframe + trapframeA0) 8 = args.length ∧
      load pm'.mem (p'.trapframe + trapframeA1) 8 = sp ∧
      load pm'.mem (p'.trapframe + trapframeSp) 8 = sp ∧
      ArgStack pm'.mem p'.pagetable sp args ptrs := by
  obtain ⟨hpagetable, htrapframe, hsp, tables, hspace⟩ := loader_space hboot hcreate hroot hload
  rw [hpagetable, htrapframe, hsp] at hresult
  obtain ⟨habove, hpushed, -⟩ := pushArgs_spec hspace.own hspace.top (argvOf args)
  obtain ⟨pushed, ptrs, hustack, hstack, hread, hend⟩ := hpushed sp hresult
  obtain rfl := args_of_argvOf hread hend
  have hcount : (ptrs ++ [0]).length = pushed.length + 1 := by
    rw [List.length_append, List.length_singleton, hstack.length]
  have hroom : pushed.length + 1 < 2 ^ 64 := by
    have hin := hstack.space
    simp only [pgSize] at hin
    omega
  have hsmall : sp < 2 ^ 64 := hstack.top.trans (by decide)
  obtain ⟨pm', p', hdone, hroot', hframe', ha0, ha1, hsp', hkept⟩ :=
    execDone_spec path (htrapframe ▸ hboot) hold hpages (htrapframe ▸ htaken)
      (htrapframe ▸ hspace.writes habove) hsmall hroom
  refine ⟨pm', p', ptrs, ?_, ?_⟩
  · rw [processExecute, hcreate]
    dsimp only
    rw [if_neg hroot, hload]
    dsimp only
    rw [hpagetable, htrapframe, hsp, hresult, hustack, hcount]
    exact hdone
  · rw [hroot', hframe', hpagetable]
    exact ⟨ha0, ha1, hsp', hstack.same hkept⟩

/-- When `process_execute` returns true the registers and the stack page hold the arguments.
Pushing them never changes a byte of the user below the stack page, whatever `argv` is; arguments
for which the page has no room make the call return false. -/
theorem processExecute_pushes {p : Proc} {path : ℕ → UInt8} {found : Option File}
    {oldTables : ℕ → Set ℕ} {oldTrampoline oldTrapframe : ℕ}
    (hboot : Boot kernelEnd trampolinePa p.trapframe pm₀)
    (hold : Owned kernelEnd region pm₀ p.pagetable oldTables)
    (hpages : KernelPages pm₀.mem p.pagetable oldTrampoline oldTrapframe)
    (htaken : p.trapframe ∉ region) :
    (∀ args pm' p',
      (processExecute kernelEnd trampolinePa pm₀ p path found (argvOf args)).outcome =
          .ok (true, pm', p') →
        ∃ sp ptrs, load pm'.mem (p'.trapframe + trapframeA0) 8 = args.length ∧
          load pm'.mem (p'.trapframe + trapframeA1) 8 = sp ∧
          load pm'.mem (p'.trapframe + trapframeSp) 8 = sp ∧
          ArgStack pm'.mem p'.pagetable sp args ptrs) ∧
      ∀ root pm₁ pm₂ q, processPagetable kernelEnd trampolinePa pm₀ p.trapframe = .ok (root, pm₁) →
        root ≠ 0 → loader kernelEnd pm₁ { p with pagetable := root } found = .ok (true, pm₂, q) →
        (∀ argv, ∀ va < ustack - pgSize, ∀ pa flags,
          translate pm₂.mem q.pagetable va = some (pa, flags) → flags &&& pteU ≠ 0 →
          (pushArgs pm₂ q.pagetable (load pm₂.mem (q.trapframe + trapframeSp) 8) argv).pm.mem pa =
            pm₂.mem pa) ∧
        ∀ args, (∀ arg ∈ args, arg.length < physTop) →
          pgSize < 8 * (args.length + 1) + stringSpace args →
          ∃ pm' p', (processExecute kernelEnd trampolinePa pm₀ p path found (argvOf args)).outcome =
            .ok (false, pm', p') := by
  refine ⟨fun args pm' p' hcall => ?_, fun root pm₁ pm₂ q hcreate hroot hload => ?_⟩
  · obtain ⟨root, pm₁, pm₂, q, sp, hcreate, hroot, hload, hresult⟩ := processExecute_ok hcall
    obtain ⟨pm'', p'', ptrs, hcall', hstack⟩ :=
      processExecute_pushed hboot hold hpages htaken hcreate hroot hload hresult
    obtain ⟨-, rfl, rfl⟩ := Prod.mk.injEq .. ▸ Except.ok.inj (hcall.symm.trans hcall')
    exact ⟨sp, ptrs, hstack⟩
  · obtain ⟨hpagetable, htrapframe, hsp, tables, hspace⟩ := loader_space hboot hcreate hroot hload
    refine ⟨fun argv va hva pa flags htranslate huser => ?_, fun args hshort hlarge => ?_⟩
    · rw [hpagetable] at htranslate ⊢
      rw [htrapframe, hsp]
      exact (pushArgs_spec hspace.own hspace.top argv).above.below va hva pa flags htranslate huser
    · obtain ⟨habove, hpushed, hreturns⟩ := pushArgs_spec hspace.own hspace.top (argvOf args)
      obtain ⟨result, hresult⟩ := hreturns fun i arg harg =>
        hshort arg (List.mem_of_getElem? harg)
      have hnone : result = none := by
        cases result with
        | none => rfl
        | some sp =>
            obtain ⟨pushed, ptrs, -, hstack, hread, hend⟩ := hpushed sp hresult
            obtain rfl := args_of_argvOf hread hend
            exact absurd hstack.space (not_le.mpr hlarge)
      have hspace' := hspace.writes habove
      obtain ⟨pm', -, hfree, -⟩ := hspace'.own.freeUserPagetable hspace'.pages
      rw [processExecute, hcreate]
      dsimp only
      rw [if_neg hroot, hload]
      dsimp only
      rw [hpagetable, htrapframe, hsp, hresult, hnone]
      dsimp only
      rw [execBad, hpagetable, hfree]
      exact ⟨_, _, rfl⟩

end NewSpace

/-- Zeroed memory with free pages for two address spaces. -/
def manyPages : Pm := ⟨fun _ => 0, (List.range 14).map fun i => 0x80301000 + 4096 * i⟩

theorem boot_manyPages : Boot 0x80300000 0x80201000 0x80400000 manyPages := by
  refine ⟨⟨by decide, ?_⟩, by decide, by decide, by decide, by decide,
    ⟨by decide, by decide, by decide⟩, by decide⟩
  intro page hpage
  have hall : ∀ page ∈ manyPages.freelist,
      page % pgSize = 0 ∧ 0x80300000 ≤ page ∧ page < physTop := by decide
  obtain ⟨haligned, hlo, hhi⟩ := hall page hpage
  exact ⟨haligned, hlo, hhi⟩

/-- The arguments `a` and `bc`. -/
def twoArgs : List (List UInt8) := [[97], [98, 99]]

/-- The calls up to the pushing of the arguments, for a process with this trapframe. -/
theorem run_twoArgs : ((processPagetable 0x80300000 0x80201000 manyPages 0x80400000).toOption.bind
    fun old => (processPagetable 0x80300000 0x80201000 old.2 0x80400000).toOption.bind
    fun made => (loader 0x80300000 made.2 { freshProc with pagetable := made.1 }
      (some tinyElf)).toOption.bind
    fun loaded => (pushArgs loaded.2.1 loaded.2.2.pagetable
      (load loaded.2.1.mem (loaded.2.2.trapframe + trapframeSp) 8)
      (argvOf twoArgs)).result.toOption.map fun sp => (old.1, made.1, loaded.1, sp)) =
      some (0x80301000, 0x80304000, true, some (ustack - 48)) := by decide +kernel

theorem ok_of_toOption_bind {ε α β : Type*} {x : Except ε α} {f : α → Option β} {value : β}
    (hbind : x.toOption.bind f = some value) : ∃ made, x = .ok made ∧ f made = some value := by
  cases x with
  | error _ => cases hbind
  | ok made => exact ⟨made, rfl, hbind⟩

/-- The program is started with these arguments. -/
theorem processExecute_pushes_twoArgs : ∃ pm₀ pm' p' sp ptrs,
    (processExecute 0x80300000 0x80201000 pm₀ freshProc (fun _ => 0) (some tinyElf)
      (argvOf twoArgs)).outcome = .ok (true, pm', p') ∧
    load pm'.mem (p'.trapframe + trapframeA0) 8 = 2 ∧
    load pm'.mem (p'.trapframe + trapframeA1) 8 = sp ∧
    ArgStack pm'.mem p'.pagetable sp twoArgs ptrs := by
  have hboot₀ := boot_manyPages
  obtain ⟨⟨oldRoot, pm₀⟩, hold, hrun⟩ := ok_of_toOption_bind run_twoArgs
  obtain ⟨⟨root, pm₁⟩, hcreate, hrun⟩ := ok_of_toOption_bind hrun
  obtain ⟨⟨ok, pm₂, q⟩, hload, hrun⟩ := ok_of_toOption_bind hrun
  obtain ⟨sp, hpushed, hvalues⟩ := Option.map_eq_some_iff.mp hrun
  simp only [Prod.mk.injEq] at hvalues
  obtain ⟨rfl, rfl, rfl, rfl⟩ := hvalues
  obtain ⟨root', pm', hold', -, hresult⟩ := processPagetable_spec hboot₀.pool hboot₀.pos
    hboot₀.aligned (show 0x80201000 < 2 ^ 56 by decide) hboot₀.frame.aligned hboot₀.frame.small
  rw [hold] at hold'
  obtain ⟨rfl, rfl⟩ := Prod.mk.inj (Except.ok.inj hold')
  obtain ⟨hzero, -⟩ | ⟨-, tables, hown, -⟩ := hresult
  · exact absurd hzero (by decide)
  have hpages := (hboot₀.inv hold (by decide)).kernel
  have hboot : Boot 0x80300000 0x80201000 freshProc.trapframe pm₀ :=
    ⟨⟨hown.nodup, fun page hpage => hown.good page (hown.mem_of_free hpage)⟩, hboot₀.pos,
      hboot₀.below, hboot₀.aligned, hboot₀.text, hboot₀.frame,
      fun hpage => hboot₀.taken (hown.mem_of_free hpage)⟩
  have hpushes := @processExecute_pushes 0x80300000 manyPages.free 0x80201000 pm₀ freshProc
    (fun _ => 0) (some tinyElf) tables 0x80201000 0x80400000 hboot hown hpages hboot₀.taken
  have hok : (pushArgs pm₂ q.pagetable (load pm₂.mem (q.trapframe + trapframeSp) 8)
      (argvOf twoArgs)).result = .ok (some (ustack - 48)) := by
    generalize (pushArgs pm₂ q.pagetable (load pm₂.mem (q.trapframe + trapframeSp) 8)
      (argvOf twoArgs)).result = result at hpushed
    cases result with
    | error _ => cases hpushed
    | ok value =>
        obtain rfl := Option.some.inj hpushed
        rfl
  obtain ⟨pm₃, p₃, -, hcall, -⟩ := @processExecute_pushed 0x80300000 0x80304000 manyPages.free
    0x80201000 pm₀ freshProc q (fun _ => 0) (some tinyElf) tables 0x80201000 0x80400000 (ustack - 48)
    pm₁ pm₂ twoArgs hboot hown hpages hboot₀.taken hcreate (by decide) hload hok
  obtain ⟨sp, ptrs', ha0, ha1, -, hstack⟩ := hpushes.1 twoArgs pm₃ p₃ hcall
  exact ⟨pm₀, pm₃, p₃, sp, ptrs', hcall, ha0, ha1, hstack⟩

end Painting.Exec
