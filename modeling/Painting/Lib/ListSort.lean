import Painting.Core.NaturalMerge
import Painting.Lib.ListEdits

/-!
# Sorting a list

`list_sort` is a natural merge sort in place: its runs are segments of the list, and a merge moves
elements of the right segment before elements of the left.  None of its assertions fails.
-/

namespace Painting.KernelList

open Painting.LinkedList Painting.NaturalMerge

variable {Node : Type} [DecidableEq Node] {less : Node → Node → Bool} {links : Links Node}
  {list : Ends Node} {xs left mid right : List Node} {a b : Node} {rounds : ℕ}

/-! ## Runs -/

theorem lessThanPrev_eq (hholds : Holds links list (left ++ a :: b :: right)) :
    lessThanPrev less links (some b) = .ok (less b a) := by
  have hprev := @listPrev_eq _ links list (left ++ [a]) (b :: right) (by simpa using hholds)
  rw [Ends.first_cons, Ends.last_concat] at hprev
  rw [lessThanPrev, hprev]
  rfl

theorem isSortedLoop_eq (hholds : Holds links list (left ++ a :: (mid ++ right)))
    (hrounds : mid.length < rounds) :
    isSortedLoop less links (some (list.first right)) rounds (some a) =
      .ok (decide ((a :: mid).IsChain fun a b => less b a = false)) := by
  induction mid generalizing left a rounds with
  | nil =>
      obtain ⟨rounds, rfl⟩ := Nat.exists_eq_succ_of_ne_zero (Nat.ne_of_gt hrounds)
      rw [isSortedLoop, listNext_eq hholds, ok_bind, List.nil_append, if_pos rfl]
      simp
  | cons b mid ih =>
      obtain ⟨rounds, rfl⟩ := Nat.exists_eq_succ_of_ne_zero (Nat.ne_of_gt (Nat.zero_lt_of_lt hrounds))
      have hne : some (list.first (b :: mid ++ right)) ≠ some (list.first right) := by
        intro heq
        have hiff := @first_append_eq_iff _ links list (left ++ [a]) (b :: mid) right
          (by simpa using hholds)
        exact List.cons_ne_nil _ _ (hiff.mp (Option.some.inj heq))
      rw [isSortedLoop, listNext_eq hholds, ok_bind, if_neg hne, List.cons_append, Ends.first_cons,
        lessThanPrev_eq hholds, ok_bind]
      cases hdrop : less b a with
      | true => simp [hdrop]
      | false =>
          rw [if_neg (by decide), @ih (left ++ [a]) b rounds (by simpa using hholds)
            (by simpa using hrounds)]
          simp [hdrop]

/-- `is_sorted` on a segment. -/
theorem isSorted_eq (hholds : Holds links list (left ++ (mid ++ right)))
    (hrounds : mid.length ≤ rounds) :
    isSorted less rounds links (some (list.first (mid ++ right))) (some (list.first right)) =
      .ok (decide (mid.IsChain fun a b => less b a = false)) := by
  cases mid with
  | nil => simp [isSorted]
  | cons a mid =>
      have hne : some (list.first (a :: mid ++ right)) ≠ some (list.first right) := fun heq =>
        List.cons_ne_nil _ _ ((first_append_eq_iff hholds).mp (Option.some.inj heq))
      rw [isSorted, if_neg hne]
      exact isSortedLoop_eq hholds hrounds

theorem findEndOfRunLoop_eq (hholds : Holds links list (left ++ a :: (mid ++ right)))
    (hrounds : mid.length < rounds) :
    findEndOfRunLoop less links (some (list.first right)) rounds (some a) =
      .ok (some (list.first ((run less a mid).2 ++ right))) := by
  induction mid generalizing left a rounds with
  | nil =>
      obtain ⟨rounds, rfl⟩ := Nat.exists_eq_succ_of_ne_zero (Nat.ne_of_gt hrounds)
      rw [findEndOfRunLoop, listNext_eq hholds, ok_bind, List.nil_append, if_pos rfl]
      rfl
  | cons b mid ih =>
      obtain ⟨rounds, rfl⟩ := Nat.exists_eq_succ_of_ne_zero (Nat.ne_of_gt (Nat.zero_lt_of_lt hrounds))
      have hne : some (list.first (b :: mid ++ right)) ≠ some (list.first right) := by
        intro heq
        have hiff := @first_append_eq_iff _ links list (left ++ [a]) (b :: mid) right
          (by simpa using hholds)
        exact List.cons_ne_nil _ _ (hiff.mp (Option.some.inj heq))
      rw [findEndOfRunLoop, listNext_eq hholds, ok_bind, if_neg hne, List.cons_append,
        Ends.first_cons, lessThanPrev_eq hholds, ok_bind, run]
      cases hdrop : less b a with
      | true => rfl
      | false =>
          rw [if_neg (by decide), if_neg (by decide), @ih (left ++ [a]) b rounds
            (by simpa using hholds) (by simpa using hrounds)]

/-- `find_end_of_run` up to the end of the list. -/
theorem findEndOfRun_eq (hholds : Holds links list (left ++ a :: xs))
    (hrounds : xs.length < rounds) :
    findEndOfRun less rounds links (some a) (listEnd list) =
      .ok (some (list.first (run less a xs).2)) := by
  have hne : (some a ≠ listEnd list) := fun heq => hholds.first_ne_tail (Option.some.inj heq)
  have hloop := @findEndOfRunLoop_eq _ _ less links list left xs [] a rounds (by simpa using hholds)
    hrounds
  rw [List.append_nil] at hloop
  rw [findEndOfRun, decide_eq_true hne]
  exact hloop

/-! ## Merging -/

theorem inplaceMergeLoop_eq {us vs : List Node}
    (hholds : Holds links list (left ++ (us ++ (vs ++ right))))
    (hrounds : us.length + vs.length < rounds) :
    ∃ links', inplaceMergeLoop less (some (list.first right)) rounds links
        (some (list.first (us ++ (vs ++ right)))) (some (list.first (vs ++ right))) = .ok links' ∧
      Holds links' list (left ++ (mergeRuns less us vs ++ right)) ∧
      SameElsewhere (list.nodes (left ++ (us ++ (vs ++ right)))) links links' := by
  induction rounds generalizing left us vs links with
  | zero => exact absurd hrounds (Nat.not_lt_zero _)
  | succ rounds ih =>
      rw [inplaceMergeLoop]
      cases us with
      | nil =>
          refine ⟨links, by rw [List.nil_append, if_pos (.inl rfl)], ?_, .refl _ _⟩
          simpa [mergeRuns] using hholds
      | cons u us =>
          cases vs with
          | nil =>
              refine ⟨links, by rw [List.nil_append, if_pos (.inr rfl)], ?_, .refl _ _⟩
              simpa [mergeRuns] using hholds
          | cons v vs =>
              have hright : Holds links list ((left ++ u :: us) ++ v :: (vs ++ right)) := by
                simpa using hholds
              have hneUs : some (list.first (u :: us ++ (v :: vs ++ right))) ≠
                  some (list.first (v :: vs ++ right)) := fun heq =>
                List.cons_ne_nil _ _ ((first_append_eq_iff hholds).mp (Option.some.inj heq))
              have hneVs : some (list.first (v :: vs ++ right)) ≠ some (list.first right) := by
                intro heq
                have hiff := @first_append_eq_iff _ links list (left ++ u :: us) (v :: vs) right
                  (by simpa using hholds)
                exact List.cons_ne_nil _ _ (hiff.mp (Option.some.inj heq))
              rw [if_neg (not_or.mpr ⟨hneUs, hneVs⟩)]
              simp only [List.cons_append, Ends.first_cons, follow_some, ok_bind]
              have hstep : mergeRuns less (u :: us) (v :: vs) =
                  if less v u then v :: mergeRuns less (u :: us) vs
                  else u :: mergeRuns less us (v :: vs) := by
                rw [mergeRuns, List.cons_merge_cons]
                cases less v u <;> rfl
              cases hless : less v u with
              | true =>
                  rw [if_pos rfl, listNext_eq hright, ok_bind]
                  have hprev := @listPrev_eq _ links list ((left ++ u :: us) ++ [v]) (vs ++ right)
                    (by simpa using hright)
                  rw [Ends.last_concat] at hprev
                  rw [hprev, ok_bind]
                  obtain ⟨hcut, -⟩ := @Holds.cut _ _ links list (left ++ u :: us) (vs ++ right) [v]
                    (by simpa using hright)
                  have hperm : (list.nodes (left ++ ([v] ++ (u :: us ++ (vs ++ right))))).Perm
                      (list.nodes (left ++ (u :: us ++ (v :: vs ++ right)))) := by
                    refine list.nodes_perm (List.Perm.append_left left ?_)
                    exact (@List.perm_middle _ v (u :: us) (vs ++ right)).symm
                  obtain ⟨links₁, hsplice, heq, hholds₁⟩ :=
                    @listSplice_spec _ _ links (left ++ u :: us) (vs ++ right) list list left
                      (u :: us ++ (vs ++ right)) [] v (by simpa using hright) (by simpa using hcut)
                      (hperm.nodup_iff.mpr hholds.nodup)
                  have hsame₁ : SameElsewhere
                      (list.nodes (left ++ (u :: us ++ (v :: vs ++ right)))) links links₁ := by
                    have hlast := list.last_mem_nodes (left ++ u :: us) (v :: vs ++ right)
                    have hfirst := list.first_mem_nodes (left ++ u :: us ++ [v]) (vs ++ right)
                    have hbefore := list.last_mem_nodes left (u :: us ++ (v :: vs ++ right))
                    rw [heq]
                    refine (links.cut_same (by simpa using hlast) (by simpa using hfirst)).trans ?_
                    exact Links.paste_same _ hbefore (by simp) (by simp) (by simp)
                  rw [show listSplice links (some u) (some v) (some (list.first (vs ++ right))) =
                    .ok links₁ from hsplice, ok_bind]
                  obtain ⟨links', hloop, hholds', hsame⟩ := @ih links₁ (left ++ [v]) (u :: us) vs
                    (by simpa using hholds₁) (by simp only [List.length_cons] at hrounds ⊢; omega)
                  refine ⟨links', hloop, ?_, hsame₁.trans ?_⟩
                  · rw [hstep, hless]
                    simpa using hholds'
                  · refine hsame.mono (List.Perm.subset ?_)
                    simpa using hperm
              | false =>
                  rw [if_neg (by decide), listNext_eq hholds, ok_bind]
                  obtain ⟨links', hloop, hholds', hsame⟩ := @ih links (left ++ [u]) us (v :: vs)
                    (by simpa using hholds) (by simp only [List.length_cons] at hrounds ⊢; omega)
                  refine ⟨links', hloop, ?_, ?_⟩
                  · rw [hstep, hless]
                    simpa using hholds'
                  · simpa using hsame

/-- `inplace_merge` of two runs. -/
theorem inplaceMerge_spec {us vs : List Node}
    (hholds : Holds links list (left ++ (us ++ (vs ++ right))))
    (hus : us.IsChain fun a b => less b a = false) (hvs : vs.IsChain fun a b => less b a = false)
    (hrounds : us.length + vs.length < rounds) :
    ∃ links', inplaceMerge less rounds links (some (list.first (us ++ (vs ++ right))))
        (some (list.first (vs ++ right))) (some (list.first right)) = .ok links' ∧
      Holds links' list (left ++ (mergeRuns less us vs ++ right)) ∧
      SameElsewhere (list.nodes (left ++ (us ++ (vs ++ right)))) links links' := by
  have hright : Holds links list ((left ++ us) ++ (vs ++ right)) := by simpa using hholds
  rw [inplaceMerge, isSorted_eq hholds (by omega), isSorted_eq hright (by omega), decide_eq_true hus,
    decide_eq_true hvs]
  exact inplaceMergeLoop_eq hholds hrounds

/-! ## Passes -/

theorem sortPass_spec {n cnt bound : ℕ} {zs : List Node} (hpass : Pass less xs n zs)
    (hholds : Holds links list (left ++ xs)) (hbound : xs.length < bound)
    (hrounds : xs.length < rounds) :
    ∃ links', sortPass less bound list rounds links (some (list.first xs)) cnt =
        .ok (cnt + n, links') ∧
      Holds links' list (left ++ zs) ∧
      SameElsewhere (list.nodes (left ++ xs)) links links' := by
  induction hpass generalizing left links cnt rounds with
  | nil =>
      obtain ⟨rounds, rfl⟩ := Nat.exists_eq_succ_of_ne_zero (Nat.ne_of_gt hrounds)
      refine ⟨links, ?_, hholds, .refl _ _⟩
      rw [sortPass, if_pos ((atEnd_iff hholds).mpr rfl)]
      rfl
  | @one a xs hend =>
      obtain ⟨rounds, rfl⟩ := Nat.exists_eq_succ_of_ne_zero (Nat.ne_of_gt (Nat.zero_lt_of_lt hrounds))
      refine ⟨links, ?_, hholds, .refl _ _⟩
      rw [List.length_cons] at hbound
      rw [sortPass, if_neg (mt (atEnd_iff hholds).mp (List.cons_ne_nil _ _)), Ends.first_cons,
        findEndOfRun_eq hholds (by omega), ok_bind, hend]
      exact if_pos rfl
  | @two a b xs ys zs n hnext hrest ih =>
      obtain ⟨rounds, rfl⟩ := Nat.exists_eq_succ_of_ne_zero (Nat.ne_of_gt (Nat.zero_lt_of_lt hrounds))
      have hxs := @run_append _ less a xs
      have hys := @run_append _ less b ys
      have hlengthXs := congrArg List.length hxs
      have hlengthYs := congrArg List.length hys
      rw [hnext] at hxs
      rw [hnext] at hlengthXs
      simp only [List.length_append, List.length_cons] at hlengthXs hlengthYs hbound hrounds
      have hsplit : a :: (run less a xs).1 ++ (b :: (run less b ys).1 ++ (run less b ys).2) =
          a :: xs := by
        have hb : b :: (run less b ys).1 ++ (run less b ys).2 = b :: ys := congrArg (b :: ·) hys
        rw [hb]
        exact congrArg (a :: ·) hxs
      have hall : Holds links list (left ++ (a :: (run less a xs).1 ++
          (b :: (run less b ys).1 ++ (run less b ys).2))) := by rwa [hsplit]
      have hsecond : Holds links list ((left ++ a :: (run less a xs).1) ++ b :: ys) := by
        rw [List.append_assoc, List.cons_append, hxs]
        exact hholds
      rw [sortPass, if_neg (mt (atEnd_iff hholds).mp (List.cons_ne_nil _ _)), Ends.first_cons,
        findEndOfRun_eq hholds (by omega), ok_bind, hnext,
        if_neg (mt (atEnd_iff hsecond).mp (List.cons_ne_nil _ _)), Ends.first_cons,
        findEndOfRun_eq hsecond (by omega), ok_bind]
      obtain ⟨links₁, hmerge, hholds₁, hsame₁⟩ := inplaceMerge_spec hall (run_isChain a xs)
        (run_isChain b ys) (show _ < bound by simp only [List.length_cons]; omega)
      rw [show inplaceMerge less bound links (some a) (some b)
        (some (list.first (run less b ys).2)) = .ok links₁ from hmerge, ok_bind]
      rw [← List.append_assoc] at hholds₁
      obtain ⟨links', hloop, hholds', hsame⟩ := @ih links₁
        (left ++ mergeRuns less (a :: (run less a xs).1) (b :: (run less b ys).1)) rounds (cnt + 1)
        hholds₁ (by omega) (by omega)
      refine ⟨links', ?_, by rwa [List.append_assoc] at hholds', ?_⟩
      · rw [hloop, Nat.add_assoc, Nat.add_comm 1 n]
      · have hperm : (left ++ mergeRuns less (a :: (run less a xs).1) (b :: (run less b ys).1) ++
            (run less b ys).2).Perm (left ++ a :: xs) := by
          rw [← hsplit, List.append_assoc, ← List.append_assoc (a :: _)]
          exact ((mergeRuns_perm _ _).append_right _).append_left left
        rw [hsplit] at hsame₁
        exact hsame₁.trans (hsame.mono (list.nodes_perm hperm).subset)

theorem listSortLoop_pass {bound : ℕ} (hholds : Holds links list xs) (hbound : xs.length < bound)
    (rounds : ℕ) :
    ∃ n zs links₁, Pass less xs n zs ∧ Holds links₁ list zs ∧
      SameElsewhere (list.nodes xs) links links₁ ∧
      listSortLoop less bound list (rounds + 1) links =
        if n > 1 then listSortLoop less bound list rounds links₁ else .ok links₁ := by
  obtain ⟨n, zs, hpass⟩ := exists_pass less xs
  obtain ⟨links₁, hsort, hholds₁, hsame₁⟩ := @sortPass_spec _ _ less links list xs [] bound n 0 bound
    zs hpass hholds hbound hbound
  refine ⟨n, zs, links₁, hpass, hholds₁, hsame₁, ?_⟩
  rw [listSortLoop, listBegin_eq hholds, hsort, ok_bind, Nat.zero_add]

theorem listSortLoop_spec {bound k : ℕ} (horder : WeakOrder less) (hholds : Holds links list xs)
    (hruns : runs less xs ≤ 2 ^ k) (hbound : xs.length < bound) (hrounds : k < rounds) :
    ∃ links' ys, listSortLoop less bound list rounds links = .ok links' ∧ Holds links' list ys ∧
      ys.Perm xs ∧ runs less ys ≤ 1 ∧ (∀ z, alike less z ys = alike less z xs) ∧
      SameElsewhere (list.nodes xs) links links' := by
  obtain ⟨rounds, rfl⟩ := Nat.exists_eq_succ_of_ne_zero (Nat.ne_of_gt (Nat.zero_lt_of_lt hrounds))
  induction k generalizing xs links rounds with
  | zero =>
      obtain ⟨n, zs, links₁, hpass, hholds₁, hsame₁, hloop⟩ :=
        @listSortLoop_pass _ _ less _ _ _ _ hholds hbound rounds
      obtain ⟨hzs, hn⟩ := hpass.runs_le horder
      rw [pow_zero] at hruns
      rw [hloop, if_neg (by omega)]
      exact ⟨links₁, zs, rfl, hholds₁, hpass.perm, by omega, hpass.alike horder, hsame₁⟩
  | succ k ih =>
      obtain ⟨n, zs, links₁, hpass, hholds₁, hsame₁, hloop⟩ :=
        @listSortLoop_pass _ _ less _ _ _ _ hholds hbound rounds
      obtain ⟨hzs, hn⟩ := hpass.runs_le horder
      rw [hloop]
      by_cases hmore : n > 1
      · have hlength := hpass.perm.length_eq
        rw [pow_succ] at hruns
        obtain ⟨rounds, rfl⟩ := Nat.exists_eq_succ_of_ne_zero (show rounds ≠ 0 by omega)
        obtain ⟨links', ys, hrest, hholds', hperm, hone, halike, hsame⟩ :=
          ih hholds₁ (by omega) (by omega) rounds (by omega)
        rw [if_pos hmore]
        refine ⟨links', ys, hrest, hholds', hperm.trans hpass.perm, hone, fun z => ?_, ?_⟩
        · rw [halike, hpass.alike horder]
        · exact hsame₁.trans (hsame.mono (list.nodes_perm hpass.perm).subset)
      · rw [if_neg hmore]
        exact ⟨links₁, zs, rfl, hholds₁, hpass.perm, by omega, hpass.alike horder, hsame₁⟩

/-- `list_sort` is the stable sort, in a logarithmic number of passes, and touches no other list. -/
theorem listSort_spec {passes bound : ℕ} (horder : WeakOrder less) (hholds : Holds links list xs)
    (hpasses : Nat.clog 2 xs.length < passes) (hbound : xs.length < bound) :
    ∃ links', listSort less passes bound links list = .ok links' ∧
      Holds links' list (sorted less xs) ∧ SameElsewhere (list.nodes xs) links links' := by
  obtain ⟨links', ys, hloop, hholds', hperm, hruns, halike, hsame⟩ := listSortLoop_spec horder hholds
    ((runs_le_length xs).trans (Nat.le_pow_clog (by decide) _)) hbound hpasses
  have hsorted := horder.sorted_of_runs hruns
  obtain rfl := horder.eq_of_alike hsorted (horder.sorted_sorted xs) fun z =>
    (halike z).trans (horder.alike_sorted xs z).symm
  refine ⟨links', ?_, hholds', hsame⟩
  have hcheck := @isSorted_eq _ _ less links' list [] (sorted less xs) [] bound
    (by simpa using hholds') (hperm.length_eq ▸ hbound.le)
  rw [listSort, hloop, ok_bind, listBegin_eq hholds']
  rw [List.append_nil, decide_eq_true ((horder.sorted_iff _).mp hsorted)] at hcheck
  rw [show isSorted less bound links' (some (list.first (sorted less xs))) (listEnd list) =
    .ok true from hcheck]
  rfl

/-- `list_sort` returns after as many passes as the length of the list has binary digits, none of its
assertions fails, elements that are alike keep their order, and other nodes keep their links. -/
theorem listSort_stable {passes bound : ℕ} (horder : WeakOrder less) (hholds : Holds links list xs)
    (hpasses : Nat.clog 2 xs.length < passes) (hbound : xs.length < bound) :
    ∃ links' ys, listSort less passes bound links list = .ok links' ∧ Holds links' list ys ∧
      ys.Perm xs ∧ Sorted less ys ∧ (∀ z, alike less z ys = alike less z xs) ∧
      SameElsewhere (list.nodes xs) links links' := by
  obtain ⟨links', hsort, hholds', hsame⟩ := listSort_spec horder hholds hpasses hbound
  exact ⟨links', sorted less xs, hsort, hholds', List.mergeSort_perm _ _, horder.sorted_sorted xs,
    horder.alike_sorted xs, hsame⟩

theorem weakOrder_digit : WeakOrder fun a b : ℕ => decide (a % 10 < b % 10) :=
  ⟨fun a b hab => by simp at hab ⊢; omega, fun a b c hac => by simp at hac ⊢; omega⟩

/-- 21 and 11 are alike in their last digits. -/
theorem listSort_stable_digits :
    ∃ links' ys, listSort (fun a b => decide (a % 10 < b % 10)) 3 4
        ⟨fun n => [(21, 0), (11, 21), (30, 11), (1, 30)].lookup n,
          fun n => [(0, 21), (21, 11), (11, 30), (30, 1)].lookup n⟩ ⟨0, 1⟩ = .ok links' ∧
      Holds links' ⟨0, 1⟩ ys ∧ ys.Perm [21, 11, 30] ∧
      Sorted (fun a b => decide (a % 10 < b % 10)) ys ∧
      (∀ z, alike (fun a b => decide (a % 10 < b % 10)) z ys =
        alike (fun a b => decide (a % 10 < b % 10)) z [21, 11, 30]) ∧
      SameElsewhere (Ends.nodes ⟨0, 1⟩ [21, 11, 30])
        ⟨fun n => [(21, 0), (11, 21), (30, 11), (1, 30)].lookup n,
          fun n => [(0, 21), (21, 11), (11, 30), (30, 1)].lookup n⟩ links' :=
  listSort_stable weakOrder_digit
    ⟨rfl, rfl, by simp [Ends.nodes, Links.Linked, List.lookup], by decide⟩
    (Nat.lt_succ_of_le (Nat.clog_le_of_le_pow (by decide : 3 ≤ 2 ^ 2))) (by decide)

end Painting.KernelList
