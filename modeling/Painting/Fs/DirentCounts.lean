import Painting.Fs.DescriptorInvariant

/-!
# Counted directory entries

Each open takes a directory entry from the pool, and `linkcnt` counts the file
structures that refer to it in all processes.  The count is exact along every run.  The
pool is complete as long as no open fails: an open that finds no file, or one that it may
not open, keeps the entry it has taken.
-/

namespace Painting.Descriptors

open Painting.Bitmap Painting.Transition

/-! ## References -/

/-- How many files of the list refer to an entry. -/
def refsIn (list : List File) (dirent : ℕ) : ℕ :=
  list.countP fun file => file.dirent = some dirent

/-- The files of a process. -/
def Kernel.listOf (kernel : Kernel) (pid : ℕ) : List File := (kernel.files pid).getD []

/-- The references from the given processes and from files that belong to none for the moment. -/
def refs (kernel : Kernel) (pids : Finset ℕ) (pending : List File) (dirent : ℕ) : ℕ :=
  ∑ pid ∈ pids, refsIn (kernel.listOf pid) dirent + refsIn pending dirent

/-- The entries that are referred to. -/
def used (kernel : Kernel) (pids : Finset ℕ) (pending : List File) : Finset ℕ :=
  (Finset.range maxDirent).filter fun dirent => 0 < refs kernel pids pending dirent

/-- Every entry that is referred to is counted and not in the pool; entry 0 is the root. -/
structure Counted (kernel : Kernel) (pids : Finset ℕ) (pending : List File) : Prop where
  live : ∀ pid, pid ∈ pids ↔ (kernel.files pid).isSome
  nodup : kernel.direntList.Nodup
  pool : ∀ dirent ∈ kernel.direntList,
    refs kernel pids pending dirent = 0 ∧ dirent < maxDirent ∧ dirent ≠ 0
  counted : ∀ dirent, 0 < refs kernel pids pending dirent →
    (kernel.dirents dirent).linkcnt = refs kernel pids pending dirent ∧
      dirent < maxDirent ∧ dirent ≠ 0

/-- No entry is missing: each is the root, in the pool or referred to. -/
def Complete (kernel : Kernel) (pids : Finset ℕ) (pending : List File) : Prop :=
  kernel.direntList.length + (used kernel pids pending).card + 1 = maxDirent

section Refs

variable {kernel kernel' : Kernel} {pids : Finset ℕ} {pending pending' : List File} {dirent : ℕ}

theorem refsIn_cons (file : File) (list : List File) (dirent : ℕ) :
    refsIn (file :: list) dirent =
      refsIn list dirent + if file.dirent = some dirent then 1 else 0 := by
  rw [refsIn, List.countP_cons, refsIn]
  simp only [decide_eq_true_eq]

theorem refsIn_append (left right : List File) (dirent : ℕ) :
    refsIn (left ++ right) dirent = refsIn left dirent + refsIn right dirent :=
  List.countP_append ..

theorem refsIn_pos {list : List File} :
    0 < refsIn list dirent ↔ ∃ file ∈ list, file.dirent = some dirent := by
  simp only [refsIn, List.countP_pos_iff, decide_eq_true_eq]

theorem refs_congr (hfiles : kernel'.files = kernel.files) :
    refs kernel' pids pending dirent = refs kernel pids pending dirent := by
  simp only [refs, Kernel.listOf, hfiles]

theorem refs_cons (file : File) :
    refs kernel pids (file :: pending) dirent =
      refs kernel pids pending dirent + if file.dirent = some dirent then 1 else 0 := by
  rw [refs, refs, refsIn_cons, Nat.add_assoc]

/-- An entry is referred to when some process has a file of it. -/
theorem refs_pos : 0 < refs kernel pids pending dirent ↔
    (∃ pid ∈ pids, ∃ file ∈ kernel.listOf pid, file.dirent = some dirent) ∨
      ∃ file ∈ pending, file.dirent = some dirent := by
  rw [refs, Nat.add_pos_iff_pos_or_pos, refsIn_pos, Finset.sum_pos_iff]
  simp only [refsIn_pos]

theorem used_congr (hrefs : ∀ dirent, refs kernel' pids pending' dirent = 0 ↔
    refs kernel pids pending dirent = 0) :
    used kernel' pids pending' = used kernel pids pending := by
  simp only [used, Nat.pos_iff_ne_zero, ne_eq, hrefs]

theorem listOf_setFiles (kernel : Kernel) (pid other : ℕ) (list : Option (List File)) :
    (kernel.setFiles pid list).listOf other =
      if other = pid then list.getD [] else kernel.listOf other := by
  by_cases hother : other = pid
  · rw [hother, if_pos rfl]
    simp only [Kernel.listOf, Kernel.setFiles, Function.update_self]
  · rw [if_neg hother]
    simp only [Kernel.listOf, Kernel.setFiles, Function.update_of_ne hother]

/-- The references of all processes, split at one of them. -/
theorem refs_split (hlive : ∀ other, other ∈ pids ↔ (kernel.files other).isSome) (pid : ℕ) :
    refs kernel pids pending dirent =
      ∑ other ∈ pids.erase pid, refsIn (kernel.listOf other) dirent +
        refsIn (kernel.listOf pid) dirent + refsIn pending dirent := by
  rw [refs]
  by_cases hpid : pid ∈ pids
  · rw [Finset.sum_erase_add _ _ hpid]
  · have hempty : kernel.listOf pid = [] := by
      rw [hlive, Option.not_isSome_iff_eq_none] at hpid
      rw [Kernel.listOf, hpid]
      rfl
    rw [hempty, Finset.erase_eq_of_notMem hpid]
    rfl

/-- The processes after the list of one of them has been set. -/
def setPid (pids : Finset ℕ) (pid : ℕ) (list : Option (List File)) : Finset ℕ :=
  if list.isSome then insert pid pids else pids.erase pid

theorem erase_setPid (pids : Finset ℕ) (pid : ℕ) (list : Option (List File)) :
    (setPid pids pid list).erase pid = pids.erase pid := by
  rw [setPid]
  split
  · exact Finset.erase_insert_eq_erase pids pid
  · exact Finset.erase_idem

theorem setPid_live (hlive : ∀ other, other ∈ pids ↔ (kernel.files other).isSome) (pid : ℕ)
    (list : Option (List File)) :
    ∀ other, other ∈ setPid pids pid list ↔ ((kernel.setFiles pid list).files other).isSome := by
  intro other
  rw [Kernel.setFiles, setPid]
  dsimp only
  by_cases hother : other = pid
  · rw [hother, Function.update_self]
    split
    · rename_i hsome
      exact iff_of_true (Finset.mem_insert_self _ _) hsome
    · rename_i hnone
      exact iff_of_false (Finset.notMem_erase _ _) hnone
  · rw [Function.update_of_ne hother, ← hlive]
    split
    · rw [Finset.mem_insert, or_iff_right hother]
    · rw [Finset.mem_erase, and_iff_right hother]

/-- Files that move between the list of a process and the pending ones. -/
theorem refs_setFiles (hlive : ∀ other, other ∈ pids ↔ (kernel.files other).isSome) {pid : ℕ}
    {list : Option (List File)} (hmove : refsIn (kernel.listOf pid) dirent + refsIn pending dirent =
      refsIn (list.getD []) dirent + refsIn pending' dirent) :
    refs (kernel.setFiles pid list) (setPid pids pid list) pending' dirent =
      refs kernel pids pending dirent := by
  rw [refs_split hlive pid, refs_split (setPid_live hlive pid list) pid, erase_setPid,
    listOf_setFiles, if_pos rfl, Nat.add_assoc, Nat.add_assoc, hmove]
  congr 1
  refine Finset.sum_congr rfl fun other hother => ?_
  rw [listOf_setFiles, if_neg (Finset.ne_of_mem_erase hother)]

end Refs

/-! ## The operations -/

section Operations

variable {kernel : Kernel} {pids : Finset ℕ} {pending : List File}

theorem Counted.setFiles (hcounted : Counted kernel pids pending) {pid : ℕ}
    {list : Option (List File)} {pending' : List File}
    (hmove : ∀ dirent, refsIn (kernel.listOf pid) dirent + refsIn pending dirent =
      refsIn (list.getD []) dirent + refsIn pending' dirent) :
    Counted (kernel.setFiles pid list) (setPid pids pid list) pending' ∧
      (Complete (kernel.setFiles pid list) (setPid pids pid list) pending' ↔
        Complete kernel pids pending) := by
  have hrefs := fun dirent => refs_setFiles hcounted.live (hmove dirent)
  refine ⟨⟨setPid_live hcounted.live pid list, hcounted.nodup, ?_, ?_⟩, ?_⟩
  · intro dirent hdirent
    rw [hrefs]
    exact hcounted.pool dirent hdirent
  · intro dirent hpos
    rw [hrefs] at hpos ⊢
    exact hcounted.counted dirent hpos
  · simp only [Complete, used, hrefs]
    rfl

theorem Counted.congr (hcounted : Counted kernel pids pending) {kernel' : Kernel}
    (hfiles : kernel'.files = kernel.files) (hlist : kernel'.direntList = kernel.direntList)
    (hdirents : kernel'.dirents = kernel.dirents) :
    Counted kernel' pids pending ∧ (Complete kernel' pids pending ↔ Complete kernel pids pending) := by
  have hrefs := fun dirent => @refs_congr kernel kernel' pids pending dirent hfiles
  refine ⟨⟨fun pid => by rw [hfiles]; exact hcounted.live pid, hlist ▸ hcounted.nodup, ?_, ?_⟩, ?_⟩
  · intro dirent hdirent
    rw [hrefs]
    exact hcounted.pool dirent (hlist ▸ hdirent)
  · intro dirent hpos
    rw [hrefs] at hpos ⊢
    rw [hdirents]
    exact hcounted.counted dirent hpos
  · simp only [Complete, used, hrefs, hlist]

theorem freeFd_counted (hcounted : Counted kernel pids pending) (fd : ℕ) :
    Counted (freeFd kernel fd) pids pending ∧
      (Complete (freeFd kernel fd) pids pending ↔ Complete kernel pids pending) := by
  rw [freeFd]
  split
  · exact hcounted.congr rfl rfl rfl
  · exact ⟨hcounted, Iff.rfl⟩

theorem allocFd_counted (hcounted : Counted kernel pids pending) :
    Counted (allocFd kernel).2 pids pending ∧
      (Complete (allocFd kernel).2 pids pending ↔ Complete kernel pids pending) := by
  rw [allocFd]
  split
  · exact hcounted.congr rfl rfl rfl
  · exact ⟨hcounted, Iff.rfl⟩

/-- `file_close` of a file that no list holds any more. -/
theorem fileClose_counted {file : File} (hcounted : Counted kernel pids (file :: pending))
    (hsmall : ∀ dirent, refs kernel pids (file :: pending) dirent < 2 ^ 32) :
    Counted (fileClose kernel file.dirent) pids pending ∧
      (Complete (fileClose kernel file.dirent) pids pending ↔
        Complete kernel pids (file :: pending)) := by
  cases hfile : file.dirent with
  | none =>
      have hrefs : ∀ dirent, refs kernel pids (file :: pending) dirent =
          refs kernel pids pending dirent := by
        intro dirent
        rw [refs_cons, hfile, if_neg nofun, Nat.add_zero]
      change Counted kernel pids pending ∧ (Complete kernel pids pending ↔ _)
      refine ⟨⟨hcounted.live, hcounted.nodup, ?_, ?_⟩, ?_⟩
      · simpa only [hrefs] using hcounted.pool
      · simpa only [hrefs] using hcounted.counted
      · simp only [Complete, used, hrefs]
  | some closed =>
      have hrefs : ∀ dirent, refs kernel pids (file :: pending) dirent =
          refs kernel pids pending dirent + if dirent = closed then 1 else 0 := by
        intro dirent
        rw [refs_cons, hfile]
        simp only [Option.some.injEq, eq_comm]
      have hself := hrefs closed
      rw [if_pos rfl] at hself
      have hother : ∀ dirent, dirent ≠ closed → refs kernel pids (file :: pending) dirent =
          refs kernel pids pending dirent := by
        intro dirent hne
        rw [hrefs, if_neg hne, Nat.add_zero]
      obtain ⟨hlink, hrange, hroot⟩ := hcounted.counted closed (by omega)
      have hlinkcnt : ((kernel.dirents closed).linkcnt + 2 ^ 32 - 1) % 2 ^ 32 =
          refs kernel pids pending closed := by
        have hlt := hsmall closed
        omega
      have hout : closed ∉ kernel.direntList := fun hmem => by
        have hzero := (hcounted.pool closed hmem).1
        omega
      have hkeep : ∀ dirent ∈ kernel.direntList, refs kernel pids pending dirent = 0 ∧
          dirent < maxDirent ∧ dirent ≠ 0 := by
        intro dirent hdirent
        rw [← hother dirent fun heq => hout (heq ▸ hdirent)]
        exact hcounted.pool dirent hdirent
      have hdirents : ∀ dirent, 0 < refs kernel pids pending dirent →
          (Function.update kernel.dirents closed { kernel.dirents closed with
            linkcnt := refs kernel pids pending closed } dirent).linkcnt =
              refs kernel pids pending dirent ∧ dirent < maxDirent ∧ dirent ≠ 0 := by
        intro dirent hpos
        by_cases heq : dirent = closed
        · rw [heq, Function.update_self]
          exact ⟨rfl, hrange, hroot⟩
        · rw [Function.update_of_ne heq, ← hother dirent heq]
          exact hcounted.counted dirent (hother dirent heq ▸ hpos)
      rw [fileClose]
      dsimp only
      rw [hlinkcnt]
      split
      · -- the last reference: the entry goes back to the pool
        rename_i hzero
        refine ⟨⟨hcounted.live, ?_, ?_, hdirents⟩, ?_⟩
        · exact List.nodup_append.mpr ⟨hcounted.nodup, List.nodup_singleton _, by
            rintro dirent hdirent other hother rfl
            exact hout (List.mem_singleton.mp hother ▸ hdirent)⟩
        · intro dirent hdirent
          obtain hdirent | hdirent := List.mem_append.mp hdirent
          · exact hkeep dirent hdirent
          · rw [List.mem_singleton.mp hdirent]
            exact ⟨hzero, hrange, hroot⟩
        · have hused : used kernel pids (file :: pending) =
              insert closed (used kernel pids pending) := by
            ext dirent
            simp only [used, Finset.mem_insert, Finset.mem_filter, Finset.mem_range]
            by_cases heq : dirent = closed
            · rw [heq]
              exact iff_of_true ⟨hrange, by omega⟩ (.inl rfl)
            · rw [hother dirent heq, or_iff_right heq]
          have hnot : closed ∉ used kernel pids pending := by
            simp only [used, Finset.mem_filter, not_and]
            omega
          simp only [Complete, hused, Finset.card_insert_of_notMem hnot, List.length_append,
            List.length_singleton]
          change _ + 1 + (used kernel pids pending).card + 1 = _ ↔ _
          omega
      · rename_i hpos
        refine ⟨⟨hcounted.live, hcounted.nodup, hkeep, hdirents⟩, ?_⟩
        have hused : used kernel pids (file :: pending) = used kernel pids pending := by
          ext dirent
          simp only [used, Finset.mem_filter]
          by_cases heq : dirent = closed
          · rw [heq]
            exact and_congr_right fun _ => by omega
          · rw [hother dirent heq]
        rw [Complete, Complete, hused]
        exact Iff.rfl

/-- The loop of `process_exit`. -/
theorem closeAll_counted {list : List File} (hcounted : Counted kernel pids (list ++ pending))
    (hsmall : ∀ dirent, refs kernel pids (list ++ pending) dirent < 2 ^ 32) :
    Counted (closeAll list kernel) pids pending ∧
      (Complete (closeAll list kernel) pids pending ↔
        Complete kernel pids (list ++ pending)) := by
  induction list generalizing kernel with
  | nil => exact ⟨hcounted, Iff.rfl⟩
  | cons file list ih =>
      obtain ⟨hfreed, hfreed'⟩ := freeFd_counted hcounted file.fd
      have hrefs := fun dirent => @refs_congr kernel (freeFd kernel file.fd) pids
        (file :: (list ++ pending)) dirent (freeFd_files kernel file.fd)
      obtain ⟨hclosed, hclosed'⟩ := fileClose_counted hfreed fun dirent =>
        (hrefs dirent).trans_lt (hsmall dirent)
      have hrest : ∀ dirent, refs (fileClose (freeFd kernel file.fd) file.dirent) pids
          (list ++ pending) dirent < 2 ^ 32 := by
        intro dirent
        rw [refs_congr ((fileClose_sameNumbers _ _).2.trans (freeFd_files kernel file.fd))]
        have hlt := hsmall dirent
        rw [List.cons_append, refs_cons] at hlt
        omega
      obtain ⟨hend, hend'⟩ := ih hclosed hrest
      exact ⟨hend, hend'.trans (hclosed'.trans hfreed')⟩

/-- A copy of a file whose entry is referred to already. -/
theorem link_counted {file : File} {dirent : ℕ} (hcounted : Counted kernel pids pending)
    (hfile : file.dirent = some dirent) (hheld : 0 < refs kernel pids pending dirent)
    (hsmall : refs kernel pids pending dirent + 1 < 2 ^ 32) :
    let kernel' : Kernel := { kernel with
      dirents := Function.update kernel.dirents dirent { kernel.dirents dirent with
        linkcnt := ((kernel.dirents dirent).linkcnt + 1) % 2 ^ 32 } }
    Counted kernel' pids (file :: pending) ∧
      (Complete kernel' pids (file :: pending) ↔ Complete kernel pids pending) := by
  intro kernel'
  have hrefs : ∀ other, refs kernel' pids (file :: pending) other =
      refs kernel pids pending other + if other = dirent then 1 else 0 := by
    intro other
    rw [refs_cons, hfile]
    simp only [Option.some.injEq, eq_comm]
    rfl
  obtain ⟨hlink, hrange, hroot⟩ := hcounted.counted dirent hheld
  refine ⟨⟨hcounted.live, hcounted.nodup, fun other hother => ?_, fun other hpos => ?_⟩, ?_⟩
  · have hpool := hcounted.pool other hother
    rw [hrefs, if_neg fun heq => by rw [heq] at hpool; omega, Nat.add_zero]
    exact hpool
  · rw [hrefs] at hpos ⊢
    by_cases heq : other = dirent
    · rw [heq, if_pos rfl]
      simp only [kernel', Function.update_self, hlink]
      exact ⟨Nat.mod_eq_of_lt hsmall, hrange, hroot⟩
    · rw [if_neg heq, Nat.add_zero] at hpos ⊢
      simp only [kernel', Function.update_of_ne heq]
      exact hcounted.counted other hpos
  · have hused : used kernel' pids (file :: pending) = used kernel pids pending :=
      used_congr fun other => by
        rw [hrefs]
        by_cases heq : other = dirent
        · rw [heq, if_pos rfl]
          omega
        · rw [if_neg heq, Nat.add_zero]
    rw [Complete, Complete, hused]

/-- The loop of `fork`. -/
theorem linkAll_counted {list : List File} (hcounted : Counted kernel pids pending)
    (hheld : ∀ file ∈ list, ∀ dirent, file.dirent = some dirent →
      0 < refs kernel pids pending dirent)
    (hsmall : ∀ dirent, refs kernel pids pending dirent + refsIn list dirent < 2 ^ 32) :
    Counted (linkAll list kernel) pids (list.reverse ++ pending) ∧
      (Complete (linkAll list kernel) pids (list.reverse ++ pending) ↔
        Complete kernel pids pending) := by
  induction list generalizing kernel pending with
  | nil => exact ⟨hcounted, Iff.rfl⟩
  | cons file list ih =>
      obtain ⟨hhead, hrest⟩ := List.forall_mem_cons.mp hheld
      rw [List.reverse_cons, List.append_assoc, List.singleton_append, linkAll]
      cases hfile : file.dirent with
      | none =>
          have hrefs : ∀ dirent, refs kernel pids (file :: pending) dirent =
              refs kernel pids pending dirent := by
            intro dirent
            rw [refs_cons, hfile, if_neg (fun h => by cases h), Nat.add_zero]
          have hsame : Counted kernel pids (file :: pending) :=
            ⟨hcounted.live, hcounted.nodup, by simpa only [hrefs] using hcounted.pool,
              by simpa only [hrefs] using hcounted.counted⟩
          obtain ⟨hend, hend'⟩ := ih hsame
            (fun other hother dirent hdirent => (hrefs dirent).symm ▸ hrest other hother dirent hdirent)
            (fun dirent => by
              have hlt := hsmall dirent
              rw [refsIn_cons] at hlt
              rw [hrefs]
              omega)
          refine ⟨hend, hend'.trans ?_⟩
          simp only [Complete, used, hrefs]
      | some dirent =>
          have hlt := hsmall dirent
          rw [refsIn_cons, hfile, if_pos rfl] at hlt
          obtain ⟨hlinked, hlinked'⟩ := link_counted hcounted hfile (hhead dirent hfile) (by omega)
          have hrefs := fun other => @refs_cons kernel pids pending other file
          obtain ⟨hend, hend'⟩ := ih hlinked
            (fun other hother held hheld' => by
              have hpos := hrest other hother held hheld'
              have hmore := hrefs held
              change 0 < refs kernel pids (file :: pending) held
              omega)
            (fun other => by
              have hless := hsmall other
              have hmore := hrefs other
              rw [refsIn_cons] at hless
              change refs kernel pids (file :: pending) other + _ < _
              omega)
          exact ⟨hend, hend'.trans hlinked'⟩

/-- The two entries that `get_file` takes: the working copy goes back, and the other one is
missing unless a file refers to it. -/
theorem Counted.take (hcounted : Counted kernel pids pending) {dirent cfile : ℕ} {rest : List ℕ}
    (hlist : kernel.direntList = dirent :: cfile :: rest) {kernel' : Kernel}
    (hfiles : kernel'.files = kernel.files) (hlist' : kernel'.direntList = rest ++ [cfile])
    (hdirents : ∀ other, other ≠ dirent → kernel'.dirents other = kernel.dirents other) :
    (Counted kernel' pids pending ∧
      (Complete kernel pids pending → ¬ Complete kernel' pids pending)) ∧
    ∀ file : File, file.dirent = some dirent → (kernel'.dirents dirent).linkcnt = 1 →
      Counted kernel' pids (file :: pending) ∧
        (Complete kernel' pids (file :: pending) ↔ Complete kernel pids pending) := by
  have hrefs := fun other => @refs_congr kernel kernel' pids pending other hfiles
  have hnodup := hcounted.nodup
  have hpool := hcounted.pool
  rw [hlist] at hnodup hpool
  obtain ⟨hfresh, hnodup⟩ := List.nodup_cons.mp hnodup
  obtain ⟨hnone, hrange, hroot⟩ := hpool dirent List.mem_cons_self
  have hmem : ∀ other, other ∈ rest ++ [cfile] ↔ other ∈ cfile :: rest := fun other => by
    rw [List.mem_append, List.mem_singleton, List.mem_cons, or_comm]
  have hnodup' : (rest ++ [cfile]).Nodup := (List.perm_append_singleton cfile rest).nodup_iff.mpr hnodup
  have hlength : kernel.direntList.length = kernel'.direntList.length + 1 := by
    rw [hlist, hlist', List.length_append]
    rfl
  have hleft : ∀ other ∈ kernel'.direntList, refs kernel pids pending other = 0 ∧
      other < maxDirent ∧ other ≠ 0 := by
    intro other hother
    rw [hlist', hmem] at hother
    exact hpool other (List.mem_cons_of_mem _ hother)
  have hothers : ∀ other, 0 < refs kernel pids pending other →
      (kernel'.dirents other).linkcnt = refs kernel pids pending other ∧
        other < maxDirent ∧ other ≠ 0 := by
    intro other hpos
    rw [hdirents other fun heq => by rw [heq] at hpos; omega]
    exact hcounted.counted other hpos
  have hlive : ∀ pid, pid ∈ pids ↔ (kernel'.files pid).isSome := fun pid => by
    rw [hfiles]
    exact hcounted.live pid
  refine ⟨⟨⟨hlive, hlist' ▸ hnodup', ?_, ?_⟩, ?_⟩, fun file hfile hlink => ⟨⟨hlive, hlist' ▸ hnodup',
    fun other hother => ?_, fun other hpos => ?_⟩, ?_⟩⟩
  · simpa only [hrefs] using hleft
  · simpa only [hrefs] using hothers
  · intro hcomplete hcomplete'
    have hused : used kernel' pids pending = used kernel pids pending :=
      used_congr fun other => by rw [hrefs]
    rw [Complete] at hcomplete hcomplete'
    rw [hused] at hcomplete'
    omega
  · have hne : other ≠ dirent := fun heq => hfresh ((hmem dirent).mp (hlist' ▸ heq ▸ hother))
    rw [refs_cons, hrefs, hfile, if_neg fun heq => hne (Option.some.inj heq).symm, Nat.add_zero]
    exact hleft other hother
  · rw [refs_cons, hrefs, hfile] at hpos ⊢
    by_cases heq : other = dirent
    · rw [heq, if_pos rfl, hnone]
      exact ⟨hlink, hrange, hroot⟩
    · have hne : some dirent ≠ some other := fun h => heq (Option.some.inj h).symm
      rw [if_neg hne, Nat.add_zero] at hpos ⊢
      exact hothers other hpos
  · have hused : used kernel' pids (file :: pending) = insert dirent (used kernel pids pending) := by
      ext other
      simp only [used, Finset.mem_insert, Finset.mem_filter, Finset.mem_range]
      rw [refs_cons, hrefs, hfile]
      by_cases heq : other = dirent
      · rw [heq, if_pos rfl]
        exact iff_of_true ⟨hrange, by omega⟩ (.inl rfl)
      · rw [if_neg fun h => heq (Option.some.inj h).symm, Nat.add_zero, or_iff_right heq]
    have hnot : dirent ∉ used kernel pids pending := by
      simp only [used, Finset.mem_filter, not_and]
      omega
    rw [Complete, Complete, hused, Finset.card_insert_of_notMem hnot, hlength]
    omega

end Operations

/-! ## Steps -/

/-- `sizeof(struct file)`, and the RAM of the machine. -/
def fileSize : ℕ := 56
def ramSize : ℕ := 128 * 1024 * 1024

/-- The file structures that a step takes from the slab. -/
def added (state : State) : Action → ℕ
  | .openFile _ _ _ _ => 1
  | .fork pid _ => (state.kernel.listOf pid).length
  | _ => 0

/-- The file structures of all processes fit into RAM, with those that the step adds. -/
def InRam (state : State) (action : Action) : Prop :=
  ∀ pids : Finset ℕ,
    (∑ pid ∈ pids, (state.kernel.listOf pid).length + added state action) * fileSize ≤ ramSize

/-- An open does not fail. -/
def KeepsPool : Action → Prop
  | .openFile _ path flags found => Installs path flags found
  | _ => True

section Steps

variable {state after : State} {pids : Finset ℕ}

theorem refs_le (kernel : Kernel) (pids : Finset ℕ) (pending : List File) (dirent : ℕ) :
    refs kernel pids pending dirent ≤
      ∑ pid ∈ pids, (kernel.listOf pid).length + pending.length :=
  Nat.add_le_add (Finset.sum_le_sum fun _ _ => List.countP_le_length) List.countP_le_length

theorem InRam.small {action : Action} (hram : InRam state action) {pending : List File}
    (hadded : pending.length ≤ added state action) (dirent : ℕ) :
    refs state.kernel pids pending dirent < 2 ^ 32 := by
  have hle := refs_le state.kernel pids pending dirent
  have hfit := hram pids
  simp only [fileSize, ramSize] at hfit
  omega

theorem installFile_counted {kernel : Kernel} {pid flags origin : ℕ} {list : List File}
    {dirent : Option ℕ} {type : FileType} (hfiles : kernel.files pid = some list)
    (hcounted : ∀ file : File, file.dirent = dirent → Counted kernel pids [file]) :
    ∃ pids' file, file.dirent = dirent ∧
      Counted (installFile kernel pid list dirent flags type origin).2 pids' [] ∧
        (Complete (installFile kernel pid list dirent flags type origin).2 pids' [] ↔
          Complete kernel pids [file]) := by
  let file : File := ⟨(allocFd kernel).1, dirent, 0, false, flags, type, origin⟩
  obtain ⟨halloc, halloc'⟩ := allocFd_counted (hcounted file rfl)
  have hsame : (allocFd kernel).2.files = kernel.files := by
    rw [allocFd]
    split <;> rfl
  obtain ⟨hend, hend'⟩ := @Counted.setFiles _ _ _ halloc pid (some (list ++ [file])) []
    fun other => by
      rw [Kernel.listOf, hsame, hfiles]
      exact (refsIn_append list [file] other).symm
  exact ⟨_, file, rfl, hend, hend'.trans halloc'⟩

/-- A file without an entry counts nothing. -/
theorem Counted.console {kernel : Kernel} (hcounted : Counted kernel pids []) {file : File}
    (hfile : file.dirent = none) : Counted kernel pids [file] ∧
      (Complete kernel pids [file] ↔ Complete kernel pids []) := by
  have hrefs : ∀ dirent, refs kernel pids [file] dirent = refs kernel pids [] dirent := by
    intro dirent
    rw [refs_cons, hfile, if_neg nofun, Nat.add_zero]
  refine ⟨⟨hcounted.live, hcounted.nodup, by simpa only [hrefs] using hcounted.pool,
    by simpa only [hrefs] using hcounted.counted⟩, ?_⟩
  simp only [Complete, used, hrefs]

/-- What `file_open` takes from the pool, and what it gives back. -/
theorem fileOpen_spec {kernel kernel' : Kernel} {found : Option Entry} {flags : ℕ}
    {result : Option ℕ} (hopen : fileOpen kernel found flags = some (result, kernel')) :
    ∃ dirent cfile rest, kernel.direntList = dirent :: cfile :: rest ∧
      kernel'.files = kernel.files ∧ kernel'.direntList = rest ++ [cfile] ∧
      (∀ other, other ≠ dirent → kernel'.dirents other = kernel.dirents other) ∧
      (result = none ∨ result = some dirent ∧ (kernel'.dirents dirent).linkcnt = 1) := by
  rw [fileOpen, getFile] at hopen
  split at hopen
  · rename_i dirent cfile rest hlist
    refine ⟨dirent, cfile, rest, hlist, ?_⟩
    cases found with
    | none =>
        obtain ⟨rfl, rfl⟩ := Prod.mk.inj (Option.some.inj hopen)
        exact ⟨rfl, rfl, fun _ _ => rfl, .inl rfl⟩
    | some entry =>
        simp only [Option.map_some, Option.some.injEq] at hopen
        split at hopen
        · obtain ⟨rfl, rfl⟩ := Prod.mk.inj hopen
          exact ⟨rfl, rfl, fun other hne => Function.update_of_ne hne .., .inl rfl⟩
        · obtain ⟨rfl, rfl⟩ := Prod.mk.inj hopen
          refine ⟨rfl, rfl, fun other hne => ?_, .inr ⟨rfl, ?_⟩⟩
          · dsimp only
            rw [Function.update_of_ne hne, Function.update_of_ne hne]
          · simp only [Function.update_self]
  · exact absurd hopen (fun h => by cases h)

/-- An open changes the list of its own process alone. -/
theorem files_openFile {pid flags other : ℕ} {path : ℕ → UInt8} {found : Option Entry}
    (hstep : Step state (.openFile pid path flags found) after) (hother : other ≠ pid) :
    after.kernel.files other = state.kernel.files other := by
  have hinstall : ∀ (kernel : Kernel) list dirent type,
      (installFile kernel pid list dirent flags type state.opens).2.files other =
        kernel.files other := by
    intro kernel list dirent type
    simp only [installFile, Kernel.setFiles, Function.update_of_ne hother, allocFd]
    split <;> rfl
  simp only [Step, next, Option.bind_eq_some_iff, Option.map_eq_some_iff] at hstep
  obtain ⟨list, -, ⟨fd, kernel⟩, hopen, rfl⟩ := hstep
  rw [filesysOpen] at hopen
  split at hopen
  · obtain ⟨-, rfl⟩ := Prod.mk.inj (Option.some.inj hopen)
    exact hinstall ..
  · rw [Option.map_eq_some_iff] at hopen
    obtain ⟨⟨result, kernel₁⟩, hfile, hopen⟩ := hopen
    obtain ⟨-, -, -, -, hfiles, -⟩ := fileOpen_spec hfile
    cases result with
    | none =>
        obtain ⟨-, rfl⟩ := Prod.mk.inj hopen
        exact congrFun hfiles other
    | some dirent =>
        obtain ⟨-, rfl⟩ := Prod.mk.inj hopen
        exact (hinstall ..).trans (congrFun hfiles other)

theorem counted_openFile {pid flags : ℕ} {path : ℕ → UInt8} {found : Option Entry}
    (hcounted : Counted state.kernel pids [])
    (hstep : Step state (.openFile pid path flags found) after) :
    ∃ pids', Counted after.kernel pids' [] ∧ (Complete state.kernel pids [] →
      (Complete after.kernel pids' [] ↔ KeepsPool (.openFile pid path flags found))) := by
  simp only [Step, next, Option.bind_eq_some_iff, Option.map_eq_some_iff] at hstep
  obtain ⟨list, hfiles, ⟨fd, kernel⟩, hopen, rfl⟩ := hstep
  rw [filesysOpen] at hopen
  split at hopen
  · rename_i hconsole
    obtain ⟨-, rfl⟩ := Prod.mk.inj (Option.some.inj hopen)
    obtain ⟨pids', file, hfile, hend, hend'⟩ := installFile_counted hfiles
      (fun file hfile => (hcounted.console hfile).1)
    exact ⟨pids', hend, fun hcomplete =>
      iff_of_true (hend'.mpr ((hcounted.console hfile).2.mpr hcomplete)) (.inl hconsole)⟩
  · rename_i hpath
    rw [Option.map_eq_some_iff] at hopen
    obtain ⟨⟨result, kernel₁⟩, hfile, hopen⟩ := hopen
    have hinstalls : KeepsPool (.openFile pid path flags found) ↔ result.isSome := by
      rw [fileOpen_isSome hfile]
      exact or_iff_right hpath
    obtain ⟨dirent, cfile, rest, hlist, hfiles', hlist', hdirents, hresult⟩ := fileOpen_spec hfile
    have htake := hcounted.take hlist hfiles' hlist' hdirents
    obtain rfl | ⟨rfl, hlink⟩ := hresult
    · -- the entry that the failed open has taken is missing from now on
      obtain ⟨-, rfl⟩ := Prod.mk.inj hopen
      obtain ⟨hend, hend'⟩ := htake.1
      refine ⟨pids, hend, fun hcomplete => iff_of_false (hend' hcomplete) fun hkeeps => ?_⟩
      exact absurd (hinstalls.mp hkeeps) Bool.false_ne_true
    · obtain ⟨-, rfl⟩ := Prod.mk.inj hopen
      obtain ⟨pids', file, hfile, hend, hend'⟩ := installFile_counted
        (show kernel₁.files pid = some list from hfiles' ▸ hfiles)
        fun file hfile => (htake.2 file hfile hlink).1
      exact ⟨pids', hend, fun hcomplete => iff_of_true
        (hend'.mpr ((htake.2 file hfile hlink).2.mpr hcomplete)) (hinstalls.mpr rfl)⟩

/-- The file that `find_file` finds is the one that leaves the list. -/
theorem refsIn_eraseP {list : List File} {file : File} {fd : ℕ}
    (hfind : findFile list fd = some file) (dirent : ℕ) :
    refsIn list dirent =
      refsIn (list.eraseP fun other => other.fd = fd) dirent + refsIn [file] dirent := by
  induction list with
  | nil => exact absurd hfind nofun
  | cons head list ih =>
      rw [findFile, List.find?_cons] at hfind
      split at hfind
      · rename_i hhead
        obtain rfl := Option.some.inj hfind
        rw [List.eraseP_cons, hhead, cond_true, refsIn_cons, refsIn_cons]
        exact congrArg _ (Nat.zero_add _).symm
      · rename_i hhead
        rw [List.eraseP_cons, hhead, cond_false, refsIn_cons head, refsIn_cons head, ih hfind]
        omega

theorem counted_close {pid fd : ℕ} (hcounted : Counted state.kernel pids [])
    (hram : InRam state (.close pid fd)) (hstep : Step state (.close pid fd) after) :
    ∃ pids', Counted after.kernel pids' [] ∧
      (Complete after.kernel pids' [] ↔ Complete state.kernel pids []) := by
  simp only [Step, next, Option.map_eq_some_iff] at hstep
  obtain ⟨list, hfiles, rfl⟩ := hstep
  dsimp only
  rw [filesysClose]
  split
  · exact ⟨pids, hcounted, Iff.rfl⟩
  · rename_i file hfind
    obtain ⟨hfreed, hfreed'⟩ := freeFd_counted hcounted file.fd
    have hmove : ∀ dirent, refsIn ((freeFd state.kernel file.fd).listOf pid) dirent +
        refsIn [] dirent = refsIn ((some (list.eraseP fun other => other.fd = fd)).getD []) dirent +
          refsIn [file] dirent := by
      intro dirent
      rw [Kernel.listOf, freeFd_files, hfiles]
      exact refsIn_eraseP hfind dirent
    obtain ⟨hset, hset'⟩ := hfreed.setFiles hmove
    have hsmall : ∀ dirent, refs ((freeFd state.kernel file.fd).setFiles pid
        (some (list.eraseP fun other => other.fd = fd)))
        (setPid pids pid (some (list.eraseP fun other => other.fd = fd))) [file] dirent <
          2 ^ 32 := by
      intro dirent
      rw [refs_setFiles hfreed.live (hmove dirent), refs_congr (freeFd_files _ _)]
      exact hram.small (Nat.zero_le _) dirent
    obtain ⟨hend, hend'⟩ := fileClose_counted hset hsmall
    exact ⟨_, hend, hend'.trans (hset'.trans hfreed')⟩

theorem closeAll_setFiles (list : List File) (kernel : Kernel) (pid : ℕ)
    (held : Option (List File)) :
    closeAll list (kernel.setFiles pid held) = (closeAll list kernel).setFiles pid held := by
  induction list generalizing kernel with
  | nil => rfl
  | cons file list ih =>
      have hfree : freeFd (kernel.setFiles pid held) file.fd =
          (freeFd kernel file.fd).setFiles pid held := by
        simp only [freeFd]
        split <;> rfl
      have hclose : ∀ kernel : Kernel, fileClose (kernel.setFiles pid held) file.dirent =
          (fileClose kernel file.dirent).setFiles pid held := by
        intro kernel
        cases file.dirent with
        | none => rfl
        | some dirent =>
            by_cases hlast : ((kernel.dirents dirent).linkcnt + 2 ^ 32 - 1) % 2 ^ 32 = 0
            · simp only [fileClose, Kernel.setFiles, hlast, if_true]
            · simp only [fileClose, Kernel.setFiles, hlast, if_false]
      rw [closeAll, closeAll, hfree, hclose]
      exact ih _

theorem counted_exit {pid : ℕ} (hcounted : Counted state.kernel pids [])
    (hram : InRam state (.exit pid)) (hstep : Step state (.exit pid) after) :
    ∃ pids', Counted after.kernel pids' [] ∧
      (Complete after.kernel pids' [] ↔ Complete state.kernel pids []) := by
  simp only [Step, next, Option.map_eq_some_iff] at hstep
  obtain ⟨list, hfiles, rfl⟩ := hstep
  dsimp only
  rw [exitFiles, ← closeAll_setFiles]
  have hmove : ∀ dirent, refsIn (state.kernel.listOf pid) dirent + refsIn [] dirent =
      refsIn ((none : Option (List File)).getD []) dirent + refsIn (list ++ []) dirent := by
    intro dirent
    rw [Kernel.listOf, hfiles, List.append_nil]
    exact Nat.add_comm ..
  obtain ⟨hset, hset'⟩ := hcounted.setFiles hmove
  have hsmall : ∀ dirent, refs (state.kernel.setFiles pid none) (setPid pids pid none)
      (list ++ []) dirent < 2 ^ 32 := by
    intro dirent
    rw [refs_setFiles hcounted.live (hmove dirent)]
    exact hram.small (Nat.zero_le _) dirent
  obtain ⟨hend, hend'⟩ := closeAll_counted hset hsmall
  exact ⟨_, hend, hend'.trans hset'⟩

theorem counted_fork {pid child : ℕ} (hcounted : Counted state.kernel pids [])
    (hram : InRam state (.fork pid child)) (hstep : Step state (.fork pid child) after) :
    ∃ pids', Counted after.kernel pids' [] ∧
      (Complete after.kernel pids' [] ↔ Complete state.kernel pids []) := by
  simp only [Step, next] at hstep
  split at hstep
  · rename_i hfree
    rw [Option.map_eq_some_iff] at hstep
    obtain ⟨list, hfiles, rfl⟩ := hstep
    have hlist : state.kernel.listOf pid = list := by
      rw [Kernel.listOf, hfiles]
      rfl
    have hheld : ∀ file ∈ list, ∀ dirent, file.dirent = some dirent →
        0 < refs state.kernel pids [] dirent := by
      intro file hfile dirent hdirent
      have hpid : pid ∈ pids := (hcounted.live pid).mpr (hfiles ▸ rfl)
      exact refs_pos.mpr (.inl ⟨pid, hpid, file, hlist.symm ▸ hfile, hdirent⟩)
    obtain ⟨hlinked, hlinked'⟩ := linkAll_counted hcounted hheld fun dirent =>
      @InRam.small state pids _ hram list (by rw [added, hlist]) dirent
    obtain ⟨hend, hend'⟩ := @Counted.setFiles _ _ _ hlinked child (some list) [] fun dirent => by
      rw [Kernel.listOf, (linkAll_sameNumbers list state.kernel).2, Option.isNone_iff_eq_none.mp hfree,
        List.append_nil, refsIn, refsIn, List.countP_reverse]
      exact Nat.add_comm ..
    exact ⟨_, hend, hend'.trans hlinked'⟩
  · exact absurd hstep (fun h => by cases h)

/-- A step keeps the counts, and it keeps the pool complete exactly when it is not an open
that fails. -/
theorem counted_step {action : Action} (hcounted : Counted state.kernel pids [])
    (hram : InRam state action) (hstep : Step state action after) :
    ∃ pids', Counted after.kernel pids' [] ∧ (Complete state.kernel pids [] →
      (Complete after.kernel pids' [] ↔ KeepsPool action)) := by
  cases action with
  | openFile pid path flags found => exact counted_openFile hcounted hstep
  | close pid fd =>
      obtain ⟨pids', hend, hend'⟩ := counted_close hcounted hram hstep
      exact ⟨pids', hend, fun hcomplete => iff_of_true (hend'.mpr hcomplete) trivial⟩
  | fork pid child =>
      obtain ⟨pids', hend, hend'⟩ := counted_fork hcounted hram hstep
      exact ⟨pids', hend, fun hcomplete => iff_of_true (hend'.mpr hcomplete) trivial⟩
  | exit pid =>
      obtain ⟨pids', hend, hend'⟩ := counted_exit hcounted hram hstep
      exact ⟨pids', hend, fun hcomplete => iff_of_true (hend'.mpr hcomplete) trivial⟩

end Steps

/-! ## Runs -/

/-- Some process has a file of the entry open. -/
def IsOpen (kernel : Kernel) (dirent : ℕ) : Prop :=
  ∃ pid list file, kernel.files pid = some list ∧ file ∈ list ∧ file.dirent = some dirent

/-- The pool, the open entries and the root are all the entries there are. -/
def PoolComplete (kernel : Kernel) : Prop :=
  ∃ entries : Finset ℕ, (∀ dirent, dirent ∈ entries ↔ IsOpen kernel dirent) ∧
    kernel.direntList.length + entries.card + 1 = maxDirent

section Runs

variable {state : State} {kernel : Kernel} {pids : Finset ℕ}

theorem Counted.isOpen_iff (hcounted : Counted kernel pids []) (dirent : ℕ) :
    IsOpen kernel dirent ↔ 0 < refs kernel pids [] dirent := by
  rw [refs_pos]
  constructor
  · rintro ⟨pid, list, file, hfiles, hfile, hdirent⟩
    refine .inl ⟨pid, (hcounted.live pid).mpr (hfiles ▸ rfl), file, ?_, hdirent⟩
    rwa [Kernel.listOf, hfiles]
  · rintro (⟨pid, hpid, file, hfile, hdirent⟩ | ⟨file, hfile, -⟩)
    · obtain ⟨list, hfiles⟩ := Option.isSome_iff_exists.mp ((hcounted.live pid).mp hpid)
      rw [Kernel.listOf, hfiles] at hfile
      exact ⟨pid, list, file, hfiles, hfile, hdirent⟩
    · exact absurd hfile List.not_mem_nil

theorem Counted.poolComplete_iff (hcounted : Counted kernel pids []) :
    PoolComplete kernel ↔ Complete kernel pids [] := by
  have hused : ∀ dirent, dirent ∈ used kernel pids [] ↔ IsOpen kernel dirent := by
    intro dirent
    rw [used, Finset.mem_filter, Finset.mem_range, hcounted.isOpen_iff]
    exact and_iff_right_of_imp fun hpos => (hcounted.counted dirent hpos).2.1
  constructor
  · rintro ⟨entries, hentries, hcount⟩
    have heq : entries = used kernel pids [] :=
      Finset.ext fun dirent => (hentries dirent).trans (hused dirent).symm
    rwa [Complete, ← heq]
  · exact fun hcomplete => ⟨_, hused, hcomplete⟩

theorem counted_boot : Counted boot.kernel {0} [] ∧ Complete boot.kernel {0} [] := by
  have hrefs : ∀ dirent, refs boot.kernel {0} [] dirent = 0 := fun _ => rfl
  have hlist : boot.kernel.direntList = List.range' 1 1023 := by
    rw [boot]
    dsimp only
    rw [List.range_eq_range', List.tail_range']
    rfl
  refine ⟨⟨fun pid => ?_, ?_, fun dirent hdirent => ⟨hrefs dirent, ?_⟩, fun dirent hpos => ?_⟩, ?_⟩
  · rw [Finset.mem_singleton, boot]
    dsimp only
    split
    · rename_i hpid
      exact iff_of_true hpid rfl
    · rename_i hpid
      exact iff_of_false hpid (fun h => by cases h)
  · exact hlist ▸ List.nodup_range'
  · rw [hlist, List.mem_range'_1] at hdirent
    exact ⟨by rw [maxDirent]; omega, by omega⟩
  · exact absurd hpos (by rw [hrefs]; exact Nat.lt_irrefl 0)
  · have hused : used boot.kernel {0} [] = ∅ :=
      Finset.filter_eq_empty_iff.mpr fun dirent _ => by rw [hrefs]; exact Nat.lt_irrefl 0
    rw [Complete, hused, hlist, List.length_range', Finset.card_empty, maxDirent]

/-- Along every run, an entry that some process has open counts its files and is not in the
pool, and the pool names no entry twice. -/
theorem linkcnt_of_reach (hreach : Reach Step InRam boot state) :
    ∃ pids : Finset ℕ, (∀ pid, pid ∈ pids ↔ (state.kernel.files pid).isSome) ∧
      state.kernel.direntList.Nodup ∧ ∀ dirent, IsOpen state.kernel dirent →
        (state.kernel.dirents dirent).linkcnt =
            ∑ pid ∈ pids, refsIn (state.kernel.listOf pid) dirent ∧
          dirent ∉ state.kernel.direntList := by
  have hcounted : ∃ pids, Counted state.kernel pids [] := by
    refine @Reach.invariant _ _ _ _ _ _ (fun state => ∃ pids, Counted state.kernel pids [])
      hreach ⟨_, counted_boot.1⟩ ?_
    rintro before action after ⟨pids, hcounted⟩ hram hstep
    obtain ⟨pids', hend, -⟩ := counted_step hcounted hram hstep
    exact ⟨pids', hend⟩
  obtain ⟨pids, hcounted⟩ := hcounted
  refine ⟨pids, hcounted.live, hcounted.nodup, fun dirent hopen => ?_⟩
  rw [hcounted.isOpen_iff] at hopen
  refine ⟨(hcounted.counted dirent hopen).1, fun hdirent => ?_⟩
  exact absurd (hcounted.pool dirent hdirent).1 (Nat.ne_of_gt hopen)

/-- The pool stays complete along every run without a failing open, and the next step keeps it
so exactly when it is not one. -/
theorem poolComplete_of_reach
    (hreach : Reach Step (fun state action => InRam state action ∧ KeepsPool action) boot state) :
    PoolComplete state.kernel ∧ ∀ action after, InRam state action → Step state action after →
      (PoolComplete after.kernel ↔ KeepsPool action) := by
  have hcomplete : ∃ pids, Counted state.kernel pids [] ∧ Complete state.kernel pids [] := by
    refine @Reach.invariant _ _ _ _ _ _ (fun state =>
      ∃ pids, Counted state.kernel pids [] ∧ Complete state.kernel pids [])
      hreach ⟨_, counted_boot⟩ ?_
    rintro before action after ⟨pids, hcounted, hcomplete⟩ ⟨hram, hkeeps⟩ hstep
    obtain ⟨pids', hend, hend'⟩ := counted_step hcounted hram hstep
    exact ⟨pids', hend, (hend' hcomplete).mpr hkeeps⟩
  obtain ⟨pids, hcounted, hcomplete⟩ := hcomplete
  refine ⟨hcounted.poolComplete_iff.mpr hcomplete, fun action after hram hstep => ?_⟩
  obtain ⟨pids', hend, hend'⟩ := counted_step hcounted hram hstep
  exact hend.poolComplete_iff.trans (hend' hcomplete)

end Runs

/-- The processes with open files are enough to see that the files fit. -/
theorem inRam_of_support {state : State} {action : Action} (support : Finset ℕ)
    (hsupport : ∀ pid ∉ support, state.kernel.files pid = none)
    (hfit : (∑ pid ∈ support, (state.kernel.listOf pid).length + added state action) * fileSize ≤
      ramSize) : InRam state action := by
  intro pids
  have hle : ∑ pid ∈ pids, (state.kernel.listOf pid).length ≤
      ∑ pid ∈ support, (state.kernel.listOf pid).length := by
    apply Finset.sum_le_sum_of_ne_zero
    intro pid _ hpid
    by_contra hout
    rw [Kernel.listOf, hsupport pid hout] at hpid
    exact hpid rfl
  exact le_trans (Nat.mul_le_mul_right _ (Nat.add_le_add_right hle _)) hfit

/-- An open of a file of ten bytes. -/
def openText : Action := .openFile 0 (cstring "text".toList) 0 (some ⟨3, 10, 32⟩)

def textOpen : State := (next boot openText).get (by decide +kernel)

/-- The file after a fork. -/
def textShared : State := (next textOpen (.fork 0 1)).get (by decide +kernel)

theorem step_textOpen : Step boot openText textOpen := (Option.some_get _).symm

theorem step_textShared : Step textOpen (.fork 0 1) textShared := (Option.some_get _).symm

theorem inRam_boot (action : Action) (hadded : added boot action ≤ 1) : InRam boot action :=
  inRam_of_support {0} (fun pid hpid => if_neg fun heq => hpid (Finset.mem_singleton.mpr heq)) (by
    rw [Finset.sum_singleton, show boot.kernel.listOf 0 = [] from rfl, List.length_nil, Nat.zero_add]
    exact (Nat.mul_le_mul_right _ hadded).trans (by decide))

theorem inRam_textOpen : InRam textOpen (.fork 0 1) :=
  inRam_of_support {0} (fun pid hpid => by
    have hne : pid ≠ 0 := fun heq => hpid (Finset.mem_singleton.mpr heq)
    rw [files_openFile step_textOpen hne]
    exact if_neg hne) (by decide +kernel)

theorem linkcnt_textShared : ∃ pids : Finset ℕ,
    (∀ pid, pid ∈ pids ↔ (textShared.kernel.files pid).isSome) ∧
      textShared.kernel.direntList.Nodup ∧ ∀ dirent, IsOpen textShared.kernel dirent →
        (textShared.kernel.dirents dirent).linkcnt =
            ∑ pid ∈ pids, refsIn (textShared.kernel.listOf pid) dirent ∧
          dirent ∉ textShared.kernel.direntList :=
  linkcnt_of_reach ((Reach.refl.tail (inRam_boot openText (by decide)) step_textOpen).tail
    inRam_textOpen step_textShared)

theorem poolComplete_textShared : PoolComplete textShared.kernel := by
  have hkeeps : KeepsPool openText := .inr ⟨_, rfl, by decide⟩
  have hreach : Reach Step (fun state action => InRam state action ∧ KeepsPool action) boot
      textOpen := Reach.refl.tail ⟨inRam_boot openText (by decide), hkeeps⟩ step_textOpen
  exact (poolComplete_of_reach (hreach.tail ⟨inRam_textOpen, trivial⟩ step_textShared)).1

/-- An open of a file that is not there. -/
def openMissing : Action := .openFile 0 (cstring "text".toList) 0 none

def textMissing : State := (next boot openMissing).get (by decide +kernel)

theorem not_poolComplete_textMissing :
    ∃ state, Reach Step InRam boot state ∧ ¬ PoolComplete state.kernel := by
  have hmissing : Step boot openMissing textMissing := (Option.some_get _).symm
  have hram := inRam_boot openMissing (by decide)
  refine ⟨textMissing, Reach.refl.tail hram hmissing, fun hpool => ?_⟩
  obtain ⟨pids, hcounted, hcomplete⟩ := counted_step counted_boot.1 hram hmissing
  have hkeeps := (hcomplete counted_boot.2).mp (hcounted.poolComplete_iff.mp hpool)
  obtain hconsole | ⟨entry, hentry, -⟩ := hkeeps
  · exact absurd hconsole (by decide +kernel)
  · exact absurd hentry nofun

end Painting.Descriptors
