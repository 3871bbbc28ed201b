import Painting.Fs.Descriptors

/-!
# Descriptors along runs

In the states of interest the numbers in each list are distinct, every number
held is marked, and looking a number up gives the file of the open that
returned it.  A step keeps this exactly when it frees no number that another
process still holds and installs no file once the bitmap is full.
-/

namespace Painting.Descriptors

open Painting.Bitmap Painting.Transition

/-! ## What the operations leave alone -/

/-- The part of the tables that descriptors live in. -/
def Kernel.SameNumbers (kernel kernel' : Kernel) : Prop :=
  kernel'.fdBitmap = kernel.fdBitmap ∧ kernel'.files = kernel.files

theorem fileClose_sameNumbers (kernel : Kernel) (dirent : Option ℕ) :
    kernel.SameNumbers (fileClose kernel dirent) := by
  cases dirent with
  | none => exact ⟨rfl, rfl⟩
  | some dirent =>
      simp only [fileClose]
      split <;> exact ⟨rfl, rfl⟩

theorem linkAll_sameNumbers (list : List File) (kernel : Kernel) :
    kernel.SameNumbers (linkAll list kernel) := by
  induction list generalizing kernel with
  | nil => exact ⟨rfl, rfl⟩
  | cons file list ih =>
      rw [linkAll]
      split
      · exact ih kernel
      · exact ih _

theorem fileOpen_sameNumbers {kernel kernel' : Kernel} {found : Option Entry} {flags : ℕ}
    {result : Option ℕ} (hopen : fileOpen kernel found flags = some (result, kernel')) :
    kernel.SameNumbers kernel' := by
  simp only [fileOpen, getFile] at hopen
  split at hopen
  · split at hopen
    · simp only [Option.map_some, Option.some.injEq] at hopen
      split at hopen
      · obtain ⟨-, rfl⟩ := Prod.mk.inj hopen
        exact ⟨rfl, rfl⟩
      · obtain ⟨-, rfl⟩ := Prod.mk.inj hopen
        exact ⟨rfl, rfl⟩
    · obtain ⟨-, rfl⟩ := Prod.mk.inj (Option.some.inj hopen)
      exact ⟨rfl, rfl⟩
  · simp at hopen

/-- `file_open` delivers an entry when the path leads to a file whose attributes
cover the flags. -/
theorem fileOpen_isSome {kernel kernel' : Kernel} {found : Option Entry} {flags : ℕ}
    {result : Option ℕ} (hopen : fileOpen kernel found flags = some (result, kernel')) :
    result.isSome ↔ ∃ entry ∈ found, (2 ^ 32 - 1 - entry.fileAttribute) &&& flags = 0 := by
  simp only [fileOpen, getFile] at hopen
  split at hopen
  · split at hopen
    · simp only [Option.map_some, Function.update_self, Option.some.injEq] at hopen
      split at hopen
      · rename_i hdenied
        obtain ⟨rfl, -⟩ := Prod.mk.inj hopen
        simpa using hdenied
      · rename_i hpermitted
        obtain ⟨rfl, -⟩ := Prod.mk.inj hopen
        simpa using hpermitted
    · obtain ⟨rfl, -⟩ := Prod.mk.inj (Option.some.inj hopen)
      simp
  · simp at hopen

theorem freeFd_files (kernel : Kernel) (fd : ℕ) : (freeFd kernel fd).files = kernel.files := by
  rw [freeFd]
  split <;> rfl

theorem marked_freeFd {kernel : Kernel} {fd number : ℕ} (hnumber : number < maxDirent) :
    Marked (freeFd kernel fd).fdBitmap number ↔
      number ≠ fd ∧ Marked kernel.fdBitmap number := by
  rw [freeFd]
  split
  · exact marked_clear
  · have hne : number ≠ fd := by omega
    simp [hne]

theorem closeAll_files (list : List File) (kernel : Kernel) :
    (closeAll list kernel).files = kernel.files := by
  induction list generalizing kernel with
  | nil => rfl
  | cons file list ih =>
      rw [closeAll, ih, (fileClose_sameNumbers _ _).2, freeFd_files]

/-- The loop of `process_exit` clears the numbers of the list. -/
theorem marked_closeAll {list : List File} {kernel : Kernel} {number : ℕ}
    (hnumber : number < maxDirent) :
    Marked (closeAll list kernel).fdBitmap number ↔
      (∀ file ∈ list, file.fd ≠ number) ∧ Marked kernel.fdBitmap number := by
  induction list generalizing kernel with
  | nil => simp [closeAll]
  | cons file list ih =>
      rw [closeAll, ih, (fileClose_sameNumbers _ _).1, marked_freeFd hnumber]
      simp only [List.forall_mem_cons, ne_eq]
      tauto

/-! ## Lookup -/

section Lookup

variable {list : List File} {fd : ℕ}

theorem findFile_eq_none : findFile list fd = none ↔ ∀ file ∈ list, file.fd ≠ fd := by
  simp [findFile]

theorem findFile_append_new {file : File} (hfresh : ∀ other ∈ list, other.fd ≠ file.fd) :
    findFile (list ++ [file]) fd = if fd = file.fd then some file else findFile list fd := by
  by_cases heq : fd = file.fd
  · have hnone : (list.find? fun other => other.fd = file.fd) = none :=
      findFile_eq_none.mpr hfresh
    rw [heq, if_pos rfl, findFile, List.find?_append, hnone]
    simp
  · have hne : file.fd ≠ fd := fun h => heq h.symm
    simp [findFile, heq, hne]

theorem findFile_eraseP (hnodup : (list.map File.fd).Nodup) {closed : ℕ} :
    findFile (list.eraseP fun other => other.fd = closed) fd =
      if fd = closed then none else findFile list fd := by
  induction list with
  | nil => simp [findFile]
  | cons file list ih =>
      rw [List.map_cons, List.nodup_cons] at hnodup
      obtain ⟨hhead, htail⟩ := hnodup
      by_cases hclosed : file.fd = closed
      · rw [List.eraseP_cons_of_pos (by simpa using hclosed)]
        by_cases heq : fd = closed
        · rw [if_pos heq, findFile_eq_none]
          intro other hother hsame
          apply hhead
          rw [hclosed, ← heq, ← hsame]
          exact List.mem_map_of_mem hother
        · have hne : file.fd ≠ fd := by rw [hclosed]; exact fun h => heq h.symm
          simp [findFile, heq, hne]
      · rw [List.eraseP_cons_of_neg (by simpa using hclosed)]
        by_cases heq : file.fd = fd
        · have hne : fd ≠ closed := by rwa [← heq]
          simp [findFile, heq, hne]
        · have hstep := ih htail
          simp only [findFile] at hstep ⊢
          simp [heq, hstep]

theorem mem_eraseP (hnodup : (list.map File.fd).Nodup) {closed : ℕ} {file : File}
    (hfile : file ∈ list.eraseP fun other => other.fd = closed) :
    file ∈ list ∧ file.fd ≠ closed := by
  refine ⟨List.mem_of_mem_eraseP hfile, fun hsame => ?_⟩
  have hnone : findFile (list.eraseP fun other => other.fd = closed) closed = none := by
    rw [findFile_eraseP hnodup, if_pos rfl]
  exact findFile_eq_none.mp hnone file hfile hsame

end Lookup

/-! ## The invariant -/

/-- The numbers of a list are distinct and marked, and looking one up gives the
file of the open that the row names. -/
structure ListOk (bitmap : Map) (list : List File) (row : ℕ → Option ℕ) : Prop where
  distinct : (list.map File.fd).Nodup
  marked : ∀ file ∈ list, file.fd < maxDirent ∧ Marked bitmap file.fd
  designates : ∀ fd, (findFile list fd).map File.origin = row fd

def DescriptorsOk (state : State) : Prop :=
  ∀ pid list, state.kernel.files pid = some list →
    ListOk state.kernel.fdBitmap list (state.table pid)

/-- Some process other than `pid` holds the number. -/
def HeldElsewhere (kernel : Kernel) (pid fd : ℕ) : Prop :=
  ∃ other list, other ≠ pid ∧ kernel.files other = some list ∧ ∃ file ∈ list, file.fd = fd

/-- The open gets as far as `alloc_fd`. -/
def Installs (path : ℕ → UInt8) (flags : ℕ) (found : Option Entry) : Prop :=
  strncmp path (cstring "console".toList) 7 = 0 ∨
    ∃ entry ∈ found, (2 ^ 32 - 1 - entry.fileAttribute) &&& flags = 0

/-- No number is freed while another process holds it, and none is asked for
when all are taken. -/
def KeepsNumbers (state : State) : Action → Prop
  | .openFile _ path flags found => Installs path flags found →
      ∃ fd < maxDirent, ¬ Marked state.kernel.fdBitmap fd
  | .close pid fd => ∀ list, state.kernel.files pid = some list →
      (∃ file ∈ list, file.fd = fd) → ¬ HeldElsewhere state.kernel pid fd
  | .fork _ _ => True
  | .exit pid => ∀ list, state.kernel.files pid = some list →
      ∀ file ∈ list, ¬ HeldElsewhere state.kernel pid file.fd

theorem descriptorsOk_boot : DescriptorsOk boot := by
  intro pid list hfiles
  obtain rfl : list = [] := by
    simp only [boot] at hfiles
    split at hfiles
    · exact (Option.some.inj hfiles).symm
    · simp at hfiles
  exact ⟨List.nodup_nil, by simp, fun fd => rfl⟩

/-- A list keeps its properties when its numbers stay marked. -/
theorem ListOk.of_marked {bitmap bitmap' : Map} {list : List File} {row : ℕ → Option ℕ}
    (hok : ListOk bitmap list row) (hmarked : ∀ file ∈ list, Marked bitmap' file.fd) :
    ListOk bitmap' list row :=
  ⟨hok.distinct, fun file hfile => ⟨(hok.marked file hfile).1, hmarked file hfile⟩,
    hok.designates⟩

/-- An operation that sets the list and the row of one process. -/
theorem descriptorsOk_update {state : State} {kernel : Kernel} {pid opens : ℕ}
    {list : Option (List File)} {row : ℕ → Option ℕ} (hfiles : kernel.files = state.kernel.files) :
    DescriptorsOk ⟨kernel.setFiles pid list, opens, Function.update state.table pid row⟩ ↔
      (∀ own, list = some own → ListOk kernel.fdBitmap own row) ∧
        ∀ other, other ≠ pid → ∀ held, state.kernel.files other = some held →
          ListOk kernel.fdBitmap held (state.table other) := by
  simp only [DescriptorsOk, Kernel.setFiles, hfiles]
  constructor
  · intro hok
    refine ⟨fun own hown => ?_, fun other hne held hheld => ?_⟩
    · have hrow := hok pid own (by rw [Function.update_self, hown])
      rwa [Function.update_self] at hrow
    · have hrow := hok other held (by rw [Function.update_of_ne hne, hheld])
      rwa [Function.update_of_ne hne] at hrow
  · rintro ⟨hown, hothers⟩ other held hheld
    by_cases heq : other = pid
    · subst heq
      rw [Function.update_self] at hheld ⊢
      exact hown held hheld
    · rw [Function.update_of_ne heq] at hheld ⊢
      exact hothers other heq held hheld

/-! ## One step -/

section Steps

variable {state : State}

/-- What `alloc_fd` does when a number is left. -/
theorem allocFd_spec {kernel : Kernel} (hclear : ∃ fd < maxDirent, ¬ Marked kernel.fdBitmap fd) :
    ∃ fd < maxDirent, ¬ Marked kernel.fdBitmap fd ∧
      allocFd kernel = (fd, { kernel with fdBitmap := mark kernel.fdBitmap fd }) := by
  cases hfirst : firstClear kernel.fdBitmap 0 maxDirent with
  | none =>
      obtain ⟨fd, hlt, hunmarked⟩ := hclear
      exact absurd (firstClear_eq_none.mp hfirst fd (Nat.zero_le _) (by omega)) hunmarked
  | some fd =>
      obtain ⟨-, hlt, hunmarked⟩ := firstClear_some hfirst
      exact ⟨fd, by omega, hunmarked, by simp [allocFd, hfirst]⟩

theorem allocFd_full {kernel : Kernel} (hfull : ¬ ∃ fd < maxDirent, ¬ Marked kernel.fdBitmap fd) :
    allocFd kernel = (2 ^ 32 - 1, kernel) := by
  have hnone : firstClear kernel.fdBitmap 0 maxDirent = none := by
    rw [firstClear_eq_none]
    intro fd _ hlt
    by_contra hunmarked
    exact hfull ⟨fd, by omega, hunmarked⟩
  simp [allocFd, hnone]

/-- A new file with a fresh number at the end of a list. -/
theorem ListOk.append_new {bitmap : Map} {list : List File} {row : ℕ → Option ℕ} {file : File}
    (hok : ListOk bitmap list row) (hlt : file.fd < maxDirent)
    (hunmarked : ¬ Marked bitmap file.fd) :
    ListOk (mark bitmap file.fd) (list ++ [file])
      (Function.update row file.fd (some file.origin)) := by
  have hfresh : ∀ other ∈ list, other.fd ≠ file.fd := by
    intro other hother hsame
    exact hunmarked (hsame ▸ (hok.marked other hother).2)
  constructor
  · rw [List.map_append, List.nodup_append]
    refine ⟨hok.distinct, by simp, ?_⟩
    intro number hnumber number' hnumber' hsame
    obtain ⟨other, hother, rfl⟩ := List.mem_map.mp hnumber
    simp only [List.map_cons, List.map_nil, List.mem_singleton] at hnumber'
    exact hfresh other hother (hsame.trans hnumber')
  · intro other hother
    rw [marked_mark]
    cases List.mem_append.mp hother with
    | inl hmem => exact ⟨(hok.marked other hmem).1, .inr (hok.marked other hmem).2⟩
    | inr hmem =>
        obtain rfl := List.mem_singleton.mp hmem
        exact ⟨hlt, .inl rfl⟩
  · intro fd
    rw [findFile_append_new hfresh]
    by_cases heq : fd = file.fd
    · simp [heq]
    · rw [if_neg heq, Function.update_of_ne heq]
      exact hok.designates fd

/-- The tail of `filesys_open` keeps the invariant exactly when a number is left. -/
theorem descriptorsOk_installFile {kernel : Kernel} {pid : ℕ} {list : List File}
    {dirent : Option ℕ} {flags : ℕ} {type : FileType} (hok : DescriptorsOk state)
    (hsame : state.kernel.SameNumbers kernel) (hfiles : state.kernel.files pid = some list) :
    DescriptorsOk ⟨(installFile kernel pid list dirent flags type state.opens).2, state.opens + 1,
        Function.update state.table pid (Function.update (state.table pid)
          (installFile kernel pid list dirent flags type state.opens).1 (some state.opens))⟩ ↔
      ∃ fd < maxDirent, ¬ Marked state.kernel.fdBitmap fd := by
  rw [← hsame.1]
  constructor
  · intro hafter
    by_contra hfull
    simp only [installFile, allocFd_full hfull] at hafter
    have hown := ((descriptorsOk_update hsame.2).mp hafter).1 _ rfl
    have hbad := hown.marked _ (List.mem_append_right list (List.mem_singleton.mpr rfl))
    exact absurd hbad.1 (by simp [maxDirent])
  · intro hclear
    obtain ⟨fd, hlt, hunmarked, halloc⟩ := allocFd_spec hclear
    simp only [installFile, halloc]
    refine (descriptorsOk_update (by exact hsame.2)).mpr
      ⟨fun own hown => ?_, fun other _ held hheld => ?_⟩
    · obtain rfl := Option.some.inj hown
      have hlist := hok pid list hfiles
      rw [← hsame.1] at hlist
      let file : File := ⟨fd, dirent, 0, false, flags, type, state.opens⟩
      exact hlist.append_new (show file.fd < maxDirent from hlt) hunmarked
    · have hlist := hok other held hheld
      apply hlist.of_marked
      intro file hfile
      rw [marked_mark, hsame.1]
      exact .inr (hlist.marked file hfile).2

theorem descriptorsOk_openFile {after : State} {pid flags : ℕ} {path : ℕ → UInt8}
    {found : Option Entry} (hok : DescriptorsOk state)
    (hstep : Step state (.openFile pid path flags found) after) :
    DescriptorsOk after ↔ KeepsNumbers state (.openFile pid path flags found) := by
  simp only [Step, next, Option.bind_eq_some_iff, Option.map_eq_some_iff] at hstep
  obtain ⟨list, hfiles, ⟨fd, kernel⟩, hopen, rfl⟩ := hstep
  rw [filesysOpen] at hopen
  split at hopen
  · rename_i hconsole
    obtain ⟨rfl, rfl⟩ := Prod.mk.inj (Option.some.inj hopen)
    have hinstalls : Installs path flags found := .inl hconsole
    exact (descriptorsOk_installFile hok ⟨rfl, rfl⟩ hfiles).trans
      ⟨fun hclear _ => hclear, fun hclear => hclear hinstalls⟩
  · rename_i hconsole
    rw [Option.map_eq_some_iff] at hopen
    obtain ⟨⟨result, kernel₁⟩, hopened, hrest⟩ := hopen
    have hsame := fileOpen_sameNumbers hopened
    have hsome := fileOpen_isSome hopened
    cases result with
    | none =>
        obtain ⟨rfl, rfl⟩ := Prod.mk.inj hrest
        have hrefused : ¬ Installs path flags found := by
          rintro (hcase | hcase)
          · exact hconsole hcase
          · simpa using hsome.mpr hcase
        refine ⟨fun _ hcase => absurd hcase hrefused, fun _ other held hheld => ?_⟩
        change kernel₁.files other = some held at hheld
        rw [hsame.2] at hheld
        change ListOk kernel₁.fdBitmap held (state.table other)
        rw [hsame.1]
        exact hok other held hheld
    | some dirent =>
        obtain ⟨rfl, rfl⟩ := Prod.mk.inj hrest
        have hinstalls : Installs path flags found := .inr (hsome.mp rfl)
        exact (descriptorsOk_installFile hok hsame hfiles).trans
          ⟨fun hclear _ => hclear, fun hclear => hclear hinstalls⟩

/-- Other processes stay in order exactly when none of them holds a freed number. -/
theorem others_ok_iff {bitmap : Map} {pid : ℕ} {freed : ℕ → Prop} (hok : DescriptorsOk state)
    (hbitmap : ∀ number < maxDirent,
      (Marked bitmap number ↔ ¬ freed number ∧ Marked state.kernel.fdBitmap number)) :
    (∀ other, other ≠ pid → ∀ held, state.kernel.files other = some held →
        ListOk bitmap held (state.table other)) ↔
      ∀ number, freed number → ¬ HeldElsewhere state.kernel pid number := by
  constructor
  · rintro hothers number hfreed ⟨other, held, hne, hheld, file, hfile, rfl⟩
    have hmarked := (hothers other hne held hheld).marked file hfile
    exact ((hbitmap file.fd hmarked.1).mp hmarked.2).1 hfreed
  · intro hfree other hne held hheld
    have hlist := hok other held hheld
    apply hlist.of_marked
    intro file hfile
    obtain ⟨hlt, hmarked⟩ := hlist.marked file hfile
    refine (hbitmap file.fd hlt).mpr ⟨fun hfreed => ?_, hmarked⟩
    exact hfree file.fd hfreed ⟨other, held, hne, hheld, file, hfile, rfl⟩

/-- The list of the closing process without the closed file. -/
theorem ListOk.close {bitmap : Map} {list : List File} {row : ℕ → Option ℕ} {fd : ℕ}
    (hok : ListOk bitmap list row) {bitmap' : Map}
    (hbitmap : ∀ number < maxDirent, number ≠ fd → Marked bitmap number → Marked bitmap' number) :
    ListOk bitmap' (list.eraseP fun other => other.fd = fd) (Function.update row fd none) := by
  constructor
  · exact hok.distinct.sublist (List.eraseP_sublist.map _)
  · intro file hfile
    obtain ⟨hmem, hne⟩ := mem_eraseP hok.distinct hfile
    obtain ⟨hlt, hmarked⟩ := hok.marked file hmem
    exact ⟨hlt, hbitmap file.fd hlt hne hmarked⟩
  · intro number
    rw [findFile_eraseP hok.distinct]
    by_cases heq : number = fd
    · simp [heq]
    · rw [if_neg heq, Function.update_of_ne heq]
      exact hok.designates number

theorem descriptorsOk_close {after : State} {pid fd : ℕ} (hok : DescriptorsOk state)
    (hstep : Step state (.close pid fd) after) :
    DescriptorsOk after ↔ KeepsNumbers state (.close pid fd) := by
  simp only [Step, next, Option.map_eq_some_iff] at hstep
  obtain ⟨list, hfiles, rfl⟩ := hstep
  have hlist := hok pid list hfiles
  cases hfind : findFile list fd with
  | none =>
      have habsent := findFile_eq_none.mp hfind
      have hrow : Function.update (state.table pid) fd none = state.table pid := by
        have hempty := hlist.designates fd
        rw [hfind] at hempty
        exact Function.update_eq_self_iff.mpr hempty
      have htable : Function.update state.table pid (state.table pid) = state.table :=
        Function.update_eq_self pid state.table
      rw [filesysClose, hfind, hrow, htable]
      refine ⟨fun _ own hown hheld => ?_, fun _ => hok⟩
      obtain rfl := Option.some.inj (hfiles.symm.trans hown)
      obtain ⟨file, hfile, hsame⟩ := hheld
      exact absurd hsame (habsent file hfile)
  | some file =>
      have hfile : file ∈ list := List.mem_of_find?_eq_some hfind
      have hfd : file.fd = fd := by simpa using List.find?_some hfind
      have hkeep := fileClose_sameNumbers ((freeFd state.kernel file.fd).setFiles pid
        (some (list.eraseP fun other => other.fd = fd))) file.dirent
      have hbitmap : ∀ number < maxDirent, (Marked (freeFd state.kernel fd).fdBitmap number ↔
          ¬ number = fd ∧ Marked state.kernel.fdBitmap number) := fun number hlt =>
        marked_freeFd hlt
      have hafter : DescriptorsOk ⟨filesysClose state.kernel pid list fd, state.opens,
            Function.update state.table pid (Function.update (state.table pid) fd none)⟩ ↔
          DescriptorsOk ⟨(freeFd state.kernel fd).setFiles pid
            (some (list.eraseP fun other => other.fd = fd)), state.opens,
            Function.update state.table pid (Function.update (state.table pid) fd none)⟩ := by
        rw [hfd] at hkeep
        rw [filesysClose, hfind]
        simp only [DescriptorsOk, hfd, hkeep.1, hkeep.2]
      rw [hafter, descriptorsOk_update (freeFd_files _ _), others_ok_iff hok hbitmap]
      constructor
      · rintro ⟨-, hothers⟩ own _ _
        exact hothers fd rfl
      · intro hguard
        refine ⟨fun own hown => ?_, fun number hfreed => ?_⟩
        · obtain rfl := Option.some.inj hown
          apply hlist.close
          intro number hlt hne hmarked
          exact (hbitmap number hlt).mpr ⟨hne, hmarked⟩
        · rw [hfreed]
          exact hguard list hfiles ⟨file, hfile, hfd⟩

theorem descriptorsOk_fork {after : State} {pid child : ℕ} (hok : DescriptorsOk state)
    (hstep : Step state (.fork pid child) after) : DescriptorsOk after := by
  simp only [Step, next] at hstep
  split at hstep
  · rw [Option.map_eq_some_iff] at hstep
    obtain ⟨list, hfiles, rfl⟩ := hstep
    have hkeep := linkAll_sameNumbers list state.kernel
    refine (descriptorsOk_update hkeep.2).mpr ⟨fun own hown => ?_, fun other _ held hheld => ?_⟩
    · obtain rfl := Option.some.inj hown
      rw [hkeep.1]
      exact hok pid list hfiles
    · rw [hkeep.1]
      exact hok other held hheld
  · simp at hstep

theorem descriptorsOk_exit {after : State} {pid : ℕ} (hok : DescriptorsOk state)
    (hstep : Step state (.exit pid) after) :
    DescriptorsOk after ↔ KeepsNumbers state (.exit pid) := by
  simp only [Step, next, Option.map_eq_some_iff] at hstep
  obtain ⟨list, hfiles, rfl⟩ := hstep
  have hbitmap : ∀ number < maxDirent, (Marked (closeAll list state.kernel).fdBitmap number ↔
      ¬ (∃ file ∈ list, file.fd = number) ∧ Marked state.kernel.fdBitmap number) := by
    intro number hlt
    rw [marked_closeAll hlt]
    simp
  rw [exitFiles, descriptorsOk_update (closeAll_files _ _), others_ok_iff hok hbitmap]
  constructor
  · rintro ⟨-, hothers⟩ own hown file hfile
    obtain rfl := Option.some.inj (hfiles.symm.trans hown)
    exact hothers file.fd ⟨file, hfile, rfl⟩
  · intro hguard
    refine ⟨fun own hown => by simp at hown, ?_⟩
    rintro number ⟨file, hfile, rfl⟩
    exact hguard list hfiles file hfile

/-- A step from a state in order ends in one exactly when it keeps the numbers. -/
theorem descriptorsOk_step {after : State} {action : Action} (hok : DescriptorsOk state)
    (hstep : Step state action after) : DescriptorsOk after ↔ KeepsNumbers state action := by
  cases action with
  | openFile pid path flags found => exact descriptorsOk_openFile hok hstep
  | close pid fd => exact descriptorsOk_close hok hstep
  | fork pid child => exact ⟨fun _ => trivial, fun _ => descriptorsOk_fork hok hstep⟩
  | exit pid => exact descriptorsOk_exit hok hstep

end Steps

/-! ## Runs -/

/-- Every run whose steps keep the numbers stays in order, and the first step
that does not leaves it. -/
theorem descriptorsOk_of_reach {state : State} (hreach : Reach Step KeepsNumbers boot state) :
    DescriptorsOk state ∧ ∀ action after, Step state action after →
      (DescriptorsOk after ↔ KeepsNumbers state action) := by
  have hok : DescriptorsOk state :=
    hreach.invariant descriptorsOk_boot fun _ _ _ hok hguard hstep =>
      (descriptorsOk_step hok hstep).mpr hguard
  exact ⟨hok, fun _ _ hstep => descriptorsOk_step hok hstep⟩

def openConsole : Action := .openFile 0 (cstring "console".toList) 0 none

/-- The first process after opening the console. -/
def consoleOpen : State := (next boot openConsole).get (by decide +kernel)

/-- The same process after a fork. -/
def consoleShared : State := (next consoleOpen (.fork 0 1)).get (by decide +kernel)

theorem descriptorsOk_consoleShared : DescriptorsOk consoleShared := by
  have hopen : Step boot openConsole consoleOpen := (Option.some_get _).symm
  have hfork : Step consoleOpen (.fork 0 1) consoleShared := (Option.some_get _).symm
  have hguard : KeepsNumbers boot openConsole := fun _ => ⟨0, by decide, by decide⟩
  have hguard' : KeepsNumbers consoleOpen (.fork 0 1) := trivial
  exact (descriptorsOk_of_reach ((Reach.refl.tail hguard hopen).tail hguard' hfork)).1

/-- The child has closed its copy of the console, and the parent has opened the
console again. -/
def sharedNumber : State :=
  (follow next [openConsole, .fork 0 1, .close 1 0, openConsole] boot).get (by decide +kernel)

/-- Both files of the parent then have number 0. -/
theorem not_descriptorsOk_sharedNumber :
    ∃ state, Reach Step Unguarded boot state ∧ ¬ DescriptorsOk state := by
  refine ⟨sharedNumber, reach_of_follow (fun _ _ _ hnext => hnext) (Option.some_get _).symm,
    fun hok => ?_⟩
  have hfds : (sharedNumber.kernel.files 0).map (List.map File.fd) = some [0, 0] := by
    decide +kernel
  obtain ⟨list, hfiles, hlist⟩ := Option.map_eq_some_iff.mp hfds
  have hnodup := (hok 0 list hfiles).distinct
  rw [hlist] at hnodup
  exact absurd hnodup (by decide)

end Painting.Descriptors
