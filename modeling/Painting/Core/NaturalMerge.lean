import Mathlib

/-!
# Natural merge sort

A sequence is cut into its longest runs without a drop, neighbouring runs are merged two by two, and
this is repeated until one run is left.  A pass halves the number of runs, so that the number of
passes is logarithmic, and equal elements never change their order.
-/

namespace Painting.NaturalMerge

variable {α : Type*}

/-- A comparison by which elements that are not less either way are equal for it. -/
structure WeakOrder (less : α → α → Bool) : Prop where
  asymm : ∀ a b, less a b = true → less b a = false
  split : ∀ a b c, less a c = true → less a b = true ∨ less b c = true

variable (less : α → α → Bool)

/-- No element is less than one before it. -/
def Sorted (xs : List α) : Prop := xs.Pairwise fun a b => less b a = false

/-- The rest of the run that begins with `a`, and what follows it. -/
def run (a : α) : List α → List α × List α
  | [] => ([], [])
  | b :: rest => if less b a then ([], b :: rest) else (b :: (run b rest).1, (run b rest).2)

/-- How often the sequence drops after `a`. -/
def drops (a : α) : List α → ℕ
  | [] => 0
  | b :: rest => (if less b a then 1 else 0) + drops b rest

/-- The number of runs. -/
def runs : List α → ℕ
  | [] => 0
  | a :: rest => 1 + drops less a rest

def mergeRuns (xs ys : List α) : List α := xs.merge ys fun a b => !less b a

/-- The pass over the first sequence puts out the second, in so many runs. -/
inductive Pass : List α → ℕ → List α → Prop
  | nil : Pass [] 0 []
  | one {a : α} {xs : List α} (hend : (run less a xs).2 = []) : Pass (a :: xs) 1 (a :: xs)
  | two {a b : α} {xs ys zs : List α} {n : ℕ} (hnext : (run less a xs).2 = b :: ys)
      (hrest : Pass (run less b ys).2 n zs) :
      Pass (a :: xs) (n + 1)
        (mergeRuns less (a :: (run less a xs).1) (b :: (run less b ys).1) ++ zs)

section Runs

variable {less} {a b : α} {xs ys zs : List α} {n : ℕ}

theorem run_append (a : α) (xs : List α) : (run less a xs).1 ++ (run less a xs).2 = xs := by
  induction xs generalizing a with
  | nil => rfl
  | cons b rest ih =>
      rw [run]
      split
      · rfl
      · rw [List.cons_append, ih]

theorem run_length (a : α) (xs : List α) : (run less a xs).2.length ≤ xs.length := by
  have happend := congrArg List.length (@run_append α less a xs)
  rw [List.length_append] at happend
  omega

/-- A run has no drop. -/
theorem run_isChain (a : α) (xs : List α) :
    (a :: (run less a xs).1).IsChain fun a b => less b a = false := by
  induction xs generalizing a with
  | nil => exact .singleton a
  | cons b rest ih =>
      rw [run]
      split
      · exact .singleton a
      · rename_i hdrop
        exact List.isChain_cons_cons.mpr ⟨Bool.not_eq_true _ ▸ hdrop, ih b⟩

theorem runs_run (a : α) (xs : List α) :
    runs less (a :: xs) = 1 + runs less (run less a xs).2 := by
  induction xs generalizing a with
  | nil => rfl
  | cons b rest ih =>
      have hih := ih b
      rw [runs] at hih ⊢
      rw [drops, run]
      split
      · rw [runs]
      · rw [zero_add]
        exact hih

theorem drops_append (a : α) (xs ys : List α) :
    drops less a (xs ++ ys) ≤ drops less a xs + runs less ys := by
  induction xs generalizing a with
  | nil =>
      cases ys with
      | nil => exact le_rfl
      | cons b rest =>
          rw [List.nil_append, drops, drops, runs]
          split
          all_goals omega
  | cons b rest ih =>
      rw [List.cons_append, drops, drops]
      have hih := ih b
      omega

theorem runs_append (xs ys : List α) : runs less (xs ++ ys) ≤ runs less xs + runs less ys := by
  cases xs with
  | nil => simp [runs]
  | cons a rest =>
      have hrest := @drops_append α less a rest ys
      rw [List.cons_append, runs, runs]
      omega

theorem drops_le_length (a : α) (xs : List α) : drops less a xs ≤ xs.length := by
  induction xs generalizing a with
  | nil => exact le_rfl
  | cons b rest ih =>
      have hih := ih b
      rw [drops, List.length_cons]
      split
      all_goals omega

theorem runs_le_length (xs : List α) : runs less xs ≤ xs.length := by
  cases xs with
  | nil => exact le_rfl
  | cons a rest =>
      have hrest := @drops_le_length α less a rest
      rw [runs, List.length_cons]
      omega

theorem drops_eq_zero_iff (a : α) (xs : List α) :
    drops less a xs = 0 ↔ (a :: xs).IsChain fun a b => less b a = false := by
  induction xs generalizing a with
  | nil => simp [drops]
  | cons b rest ih =>
      rw [drops, List.isChain_cons_cons, ← ih b]
      cases less b a <;> simp

end Runs

section Order

variable {less} {a b : α} {xs ys zs : List α} {n : ℕ}

theorem WeakOrder.irrefl (horder : WeakOrder less) (a : α) : less a a = false := by
  cases haa : less a a with
  | false => rfl
  | true => exact haa.symm.trans (horder.asymm a a haa)

theorem WeakOrder.flip (horder : WeakOrder less) : WeakOrder fun a b => less b a :=
  ⟨fun a b => horder.asymm b a, fun a b c hca => (horder.split c b a hca).symm⟩

theorem WeakOrder.trans (horder : WeakOrder less) {a b c : α} (hab : less b a = false)
    (hbc : less c b = false) : less c a = false := by
  cases hca : less c a with
  | false => rfl
  | true =>
      obtain hcb | hba := horder.split c b a hca
      · rw [hcb] at hbc
        cases hbc
      · rw [hba] at hab
        cases hab

theorem WeakOrder.total (horder : WeakOrder less) (a b : α) :
    less b a = false ∨ less a b = false := by
  cases hba : less b a with
  | false => exact .inl rfl
  | true => exact .inr (horder.asymm b a hba)

theorem WeakOrder.sorted_iff (horder : WeakOrder less) (xs : List α) :
    Sorted less xs ↔ xs.IsChain fun a b => less b a = false := by
  have : IsTrans α fun a b => less b a = false := ⟨fun _ _ _ hab hbc => horder.trans hab hbc⟩
  exact List.isChain_iff_pairwise.symm

/-- A sequence with one run at most is sorted. -/
theorem WeakOrder.sorted_of_runs (horder : WeakOrder less) (hruns : runs less xs ≤ 1) :
    Sorted less xs := by
  cases xs with
  | nil => exact .nil
  | cons a rest =>
      rw [runs] at hruns
      exact (horder.sorted_iff _).mpr ((drops_eq_zero_iff a rest).mp (by omega))

theorem WeakOrder.runs_of_sorted (horder : WeakOrder less) (hsorted : Sorted less xs) :
    runs less xs ≤ 1 := by
  cases xs with
  | nil => exact Nat.zero_le 1
  | cons a rest => rw [runs, (drops_eq_zero_iff a rest).mpr ((horder.sorted_iff _).mp hsorted)]

theorem WeakOrder.sorted_run (horder : WeakOrder less) (a : α) (xs : List α) :
    Sorted less (a :: (run less a xs).1) :=
  (horder.sorted_iff _).mpr (run_isChain a xs)

/-! ## Merging -/

theorem mergeRuns_perm (xs ys : List α) : (mergeRuns less xs ys).Perm (xs ++ ys) :=
  List.merge_perm_append _

theorem WeakOrder.sorted_merge (horder : WeakOrder less) (hxs : Sorted less xs)
    (hys : Sorted less ys) : Sorted less (mergeRuns less xs ys) := by
  have hmerged := @List.pairwise_merge α (fun a b => !less b a)
    (fun a b c hab hbc => by simpa using horder.trans (by simpa using hab) (by simpa using hbc))
    (fun a b => by simpa using horder.total a b) xs ys
    (hxs.imp fun h => by simpa using h) (hys.imp fun h => by simpa using h)
  exact hmerged.imp fun h => by simpa using h

/-- The elements that are neither less nor more than `z`. -/
def alike (less : α → α → Bool) (z : α) (xs : List α) : List α :=
  xs.filter fun x => !less x z && !less z x

theorem alike_append (z : α) (xs ys : List α) :
    alike less z (xs ++ ys) = alike less z xs ++ alike less z ys :=
  List.filter_append _ _

theorem alike_cons (z x : α) (xs : List α) :
    alike less z (x :: xs) = alike less z [x] ++ alike less z xs :=
  alike_append z [x] xs

theorem alike_pos {z x : α} (halike : (!less x z && !less z x) = true) :
    alike less z (x :: xs) = x :: alike less z xs :=
  List.filter_cons_of_pos halike

theorem alike_neg {z x : α} (halike : ¬(!less x z && !less z x) = true) :
    alike less z (x :: xs) = alike less z xs :=
  List.filter_cons_of_neg halike

/-- Nothing in a sorted sequence is like an element that is less than its first. -/
theorem WeakOrder.alike_nil (horder : WeakOrder less) {z : α} (hsorted : Sorted less (a :: xs))
    (hless : less b a = true) (hb : less b z = false ∧ less z b = false) :
    alike less z (a :: xs) = [] := by
  refine List.filter_eq_nil_iff.mpr fun x hx => ?_
  have hax : less x a = false := by
    obtain rfl | hx := List.mem_cons.mp hx
    · exact horder.irrefl x
    · exact (List.pairwise_cons.mp hsorted).1 x hx
  have hbx : less b x = true := by
    obtain hbx | hxa := horder.split b x a hless
    · exact hbx
    · rw [hxa] at hax
      cases hax
  have hzx : less z x = true := by
    obtain hbz | hzx := horder.split b z x hbx
    · rw [hbz] at hb
      cases hb.1
    · exact hzx
  simp [hzx]

/-- A merge keeps elements that are alike in their order. -/
theorem WeakOrder.alike_merge (horder : WeakOrder less) (hxs : Sorted less xs) (z : α) :
    alike less z (mergeRuns less xs ys) = alike less z xs ++ alike less z ys := by
  induction xs generalizing ys with
  | nil => simp [mergeRuns, alike]
  | cons a rest ih =>
      induction ys with
      | nil => simp [mergeRuns, alike]
      | cons b ys ihy =>
          rw [mergeRuns, List.cons_merge_cons]
          by_cases hless : less b a = true
          · rw [if_neg (by simp [hless]), alike_cons]
            have hrest : alike less z ((a :: rest).merge ys fun a b => !less b a) =
                alike less z (a :: rest) ++ alike less z ys := ihy
            rw [hrest, alike_cons z b ys, ← List.append_assoc, ← List.append_assoc]
            congr 1
            by_cases hb : less b z = false ∧ less z b = false
            · rw [horder.alike_nil hxs hless hb, List.append_nil, List.nil_append]
            · have hskip : NaturalMerge.alike less z [b] = [] := by
                refine List.filter_eq_nil_iff.mpr fun x hx => ?_
                rw [List.mem_singleton.mp hx]
                simpa using hb
              rw [hskip, List.append_nil, List.nil_append]
          · rw [if_pos (by simpa using hless), alike_cons]
            have hrest : alike less z (rest.merge (b :: ys) fun a b => !less b a) =
                alike less z rest ++ alike less z (b :: ys) := ih (List.pairwise_cons.mp hxs).2
            rw [hrest, alike_cons z a rest, List.append_assoc]

/-! ## The sorted sequence -/

theorem mem_alike {z x : α} : x ∈ alike less z xs ↔ x ∈ xs ∧ less x z = false ∧ less z x = false := by
  simp [alike]

theorem WeakOrder.mem_iff (horder : WeakOrder less) (x : α) (xs : List α) :
    x ∈ xs ↔ x ∈ alike less x xs := by
  rw [mem_alike, horder.irrefl]
  simp

/-- A sorted sequence is known from the elements that are alike in it. -/
theorem WeakOrder.eq_of_alike (horder : WeakOrder less) (hxs : Sorted less xs)
    (hys : Sorted less ys) (halike : ∀ z, alike less z xs = alike less z ys) : xs = ys := by
  have hmem : ∀ x, x ∈ xs ↔ x ∈ ys := fun x => by
    rw [horder.mem_iff x xs, halike x, ← horder.mem_iff x ys]
  induction xs generalizing ys with
  | nil =>
      cases ys with
      | nil => rfl
      | cons b ys => exact absurd ((hmem b).mpr List.mem_cons_self) List.not_mem_nil
  | cons a xs ih =>
      cases ys with
      | nil => exact absurd ((hmem a).mp List.mem_cons_self) List.not_mem_nil
      | cons b ys =>
          obtain ⟨ha, hxs'⟩ := List.pairwise_cons.mp hxs
          obtain ⟨hb, hys'⟩ := List.pairwise_cons.mp hys
          have hba : less b a = false := by
            obtain rfl | hmemb := List.mem_cons.mp ((hmem b).mpr List.mem_cons_self)
            · exact horder.irrefl b
            · exact ha b hmemb
          have hab : less a b = false := by
            obtain rfl | hmema := List.mem_cons.mp ((hmem a).mp List.mem_cons_self)
            · exact horder.irrefl a
            · exact hb a hmema
          have hheads := halike a
          rw [alike, alike, List.filter_cons_of_pos (by simp [horder.irrefl]),
            List.filter_cons_of_pos (by simp [hab, hba])] at hheads
          obtain rfl := (List.cons.inj hheads).1
          have htails : ∀ z, alike less z xs = alike less z ys := fun z => by
            have hz := halike z
            rw [alike_cons, alike_cons z a ys] at hz
            exact List.append_cancel_left hz
          refine congrArg (a :: ·) (ih hxs' hys' htails fun x => ?_)
          rw [horder.mem_iff x xs, htails x, ← horder.mem_iff x ys]

/-- The stable sort of the library. -/
def sorted (less : α → α → Bool) (xs : List α) : List α := xs.mergeSort fun a b => !less b a

theorem WeakOrder.sorted_sorted (horder : WeakOrder less) (xs : List α) :
    Sorted less (sorted less xs) := by
  have hpairwise := @List.pairwise_mergeSort α (fun a b => !less b a)
    (fun a b c hab hbc => by simpa using horder.trans (by simpa using hab) (by simpa using hbc))
    (fun a b => by simpa using horder.total a b) xs
  exact hpairwise.imp fun h => by simpa using h

theorem WeakOrder.alike_sorted (horder : WeakOrder less) (xs : List α) (z : α) :
    alike less z (sorted less xs) = alike less z xs := by
  have hsub : (alike less z xs).Sublist (sorted less xs) := by
    refine List.sublist_mergeSort
      (fun a b c hab hbc => by simpa using horder.trans (by simpa using hab) (by simpa using hbc))
      (fun a b => by simpa using horder.total a b) ?_ List.filter_sublist
    refine List.pairwise_of_forall_mem_list fun x hx y hy => ?_
    obtain ⟨-, hxz, hzx⟩ := mem_alike.mp hx
    obtain ⟨-, hyz, hzy⟩ := mem_alike.mp hy
    simpa using horder.trans hzx hyz
  have hfilter := hsub.filter fun x => !less x z && !less z x
  rw [alike, List.filter_filter] at hfilter
  simp only [Bool.and_self] at hfilter
  refine (hfilter.eq_of_length ?_).symm
  exact ((List.mergeSort_perm xs _).filter _).length_eq.symm

/-! ## Passes -/

theorem exists_pass (less : α → α → Bool) (xs : List α) : ∃ n zs, Pass less xs n zs := by
  induction hlength : xs.length using Nat.strong_induction_on generalizing xs with
  | _ length ih =>
      cases xs with
      | nil => exact ⟨0, [], .nil⟩
      | cons a xs =>
          cases hnext : (run less a xs).2 with
          | nil => exact ⟨1, _, .one hnext⟩
          | cons b ys =>
              have hfirst := @run_length α less a xs
              have hsecond := @run_length α less b ys
              rw [hnext, List.length_cons] at hfirst
              rw [List.length_cons] at hlength
              obtain ⟨n, zs, hrest⟩ := ih _ (by omega) (run less b ys).2 rfl
              exact ⟨n + 1, _, .two hnext hrest⟩

theorem Pass.perm (hpass : Pass less xs n zs) : zs.Perm xs := by
  induction hpass with
  | nil => exact .refl _
  | one _ => exact .refl _
  | @two a b xs ys zs n hnext hrest ih =>
      have hxs := @run_append α less a xs
      have hys := @run_append α less b ys
      calc mergeRuns less (a :: (run less a xs).1) (b :: (run less b ys).1) ++ zs
          _ |>.Perm ((a :: (run less a xs).1 ++ b :: (run less b ys).1) ++ (run less b ys).2) :=
            (mergeRuns_perm _ _).append ih
          _ = a :: xs := by
            rw [List.append_assoc, List.cons_append, List.cons_append, hys, ← hnext, hxs]

/-- A pass halves the number of runs. -/
theorem Pass.runs_le (horder : WeakOrder less) (hpass : Pass less xs n zs) :
    runs less zs ≤ n ∧ 2 * n ≤ runs less xs + 1 := by
  induction hpass with
  | nil => exact ⟨le_rfl, Nat.zero_le _⟩
  | @one a xs hend =>
      have hruns := @runs_run α less a xs
      rw [hend] at hruns
      rw [hruns, runs]
      exact ⟨le_rfl, le_rfl⟩
  | @two a b xs ys zs n hnext hrest ih =>
      have hmerged := horder.runs_of_sorted (horder.sorted_merge (horder.sorted_run a xs)
        (horder.sorted_run b ys))
      have happend := @runs_append α less
        (mergeRuns less (a :: (run less a xs).1) (b :: (run less b ys).1)) zs
      have hfirst := @runs_run α less a xs
      have hsecond := @runs_run α less b ys
      rw [hnext] at hfirst
      omega

/-- A pass keeps elements that are alike in their order. -/
theorem Pass.alike (horder : WeakOrder less) (hpass : Pass less xs n zs) (z : α) :
    alike less z zs = alike less z xs := by
  induction hpass with
  | nil => rfl
  | one _ => rfl
  | @two a b xs ys zs n hnext hrest ih =>
      have hxs := @run_append α less a xs
      have hys := @run_append α less b ys
      rw [alike_append, horder.alike_merge (horder.sorted_run a xs), ih, List.append_assoc,
        ← alike_append, List.cons_append, hys, ← hnext, ← alike_append, List.cons_append, hxs]

end Order

end Painting.NaturalMerge
