import Painting.Lib.ListSort

/-!
# Loops over a list

`list_size`, `list_reverse`, `list_insert_ordered`, `list_unique`, `list_max` and `list_min`, each as
what it does to the sequence that the list holds.
-/

namespace Painting.KernelList

open Painting.LinkedList Painting.NaturalMerge

variable {Node : Type} {less better : Node → Node → Bool} {xs : List Node} {a : Node}

/-! ## Sequences -/

/-- The sequence with `elem` put before the first element that it is less than. -/
def insertOrdered (less : Node → Node → Bool) (elem : Node) (xs : List Node) : List Node :=
  xs.orderedInsert (fun a b => less a b = true) elem

theorem insertOrdered_eq (less : Node → Node → Bool) (elem : Node) (xs : List Node) :
    insertOrdered less elem xs = (xs.takeWhile fun x => !less elem x) ++
      elem :: xs.dropWhile fun x => !less elem x := by
  rw [insertOrdered, List.orderedInsert_eq_take_drop]
  congr 2
  all_goals
    congr 1
    funext x
    cases less elem x <;> rfl

/-- Ordered insertion keeps a sequence sorted. -/
theorem sorted_insertOrdered (horder : WeakOrder less) (hsorted : Sorted less xs) (elem : Node) :
    Sorted less (insertOrdered less elem xs) := by
  induction xs with
  | nil => exact List.pairwise_singleton _ _
  | cons x xs ih =>
      obtain ⟨hx, hxs⟩ := List.pairwise_cons.mp hsorted
      rw [insertOrdered, List.orderedInsert_cons]
      split
      · rename_i hless
        refine List.pairwise_cons.mpr ⟨fun y hy => ?_, hsorted⟩
        obtain rfl | hy := List.mem_cons.mp hy
        · exact horder.asymm _ _ hless
        · exact horder.trans (horder.asymm _ _ hless) (hx y hy)
      · rename_i hless
        refine List.pairwise_cons.mpr ⟨fun y hy => ?_, ih hxs⟩
        obtain rfl | hy := (List.mem_orderedInsert _).mp hy
        · exact Bool.not_eq_true _ ▸ hless
        · exact hx y hy

/-- `m` is the best of the sequence, and the first such. -/
structure Best (better : Node → Node → Bool) (xs : List Node) (m : Node) (before after : List Node) :
    Prop where
  split : xs = before ++ m :: after
  first : ∀ x ∈ before, better x m = true
  rest : ∀ x ∈ after, better m x = false

theorem Best.step (horder : WeakOrder better) {m e : Node} {before after : List Node}
    (hbest : Best better xs m before after) :
    (better m e = true → Best better (xs ++ [e]) e xs []) ∧
      (better m e = false → Best better (xs ++ [e]) m before (after ++ [e])) := by
  constructor
  · intro hme
    refine ⟨rfl, fun x hx => ?_, fun x hx => (List.not_mem_nil hx).elim⟩
    rw [hbest.split, List.mem_append, List.mem_cons] at hx
    -- Every element so far is worse than `m`, or not better.
    have hmx : better m x = false := by
      obtain hx | rfl | hx := hx
      · exact horder.asymm x m (hbest.first x hx)
      · exact horder.irrefl x
      · exact hbest.rest x hx
    obtain hmx' | hxe := horder.split m x e hme
    · rw [hmx'] at hmx
      cases hmx
    · exact hxe
  · intro hme
    refine ⟨by rw [hbest.split, List.append_assoc, List.cons_append], hbest.first, fun x hx => ?_⟩
    rw [List.mem_append, List.mem_singleton] at hx
    obtain hx | rfl := hx
    · exact hbest.rest x hx
    · exact hme

theorem Best.eq_of_prefix {xs before before' after after' : List Node} {m m' : Node}
    (hbest : Best better xs m before after) (hbest' : Best better xs m' before' after')
    (hextends : before <+: before') : m = m' := by
  obtain ⟨between, rfl⟩ := hextends
  have hsplit := hbest.split.symm.trans hbest'.split
  rw [List.append_assoc, List.append_cancel_left_eq] at hsplit
  cases between with
  | nil => exact (List.cons.inj hsplit).1
  | cons x between =>
      obtain ⟨rfl, hrest⟩ := List.cons.inj hsplit
      have hbefore := hbest'.first m (by simp)
      rw [hbest.rest m' (by simp [hrest])] at hbefore
      cases hbefore

theorem Best.unique {xs before before' after after' : List Node} {m m' : Node}
    (hbest : Best better xs m before after) (hbest' : Best better xs m' before' after') : m = m' := by
  have hextends := List.prefix_or_prefix_of_prefix (⟨_, hbest.split.symm⟩ : before <+: xs)
    (⟨_, hbest'.split.symm⟩ : before' <+: xs)
  obtain hextends | hextends := hextends
  · exact hbest.eq_of_prefix hbest' hextends
  · exact (hbest'.eq_of_prefix hbest hextends).symm

/-- The element is the first of the best, or the tail when there is none. -/
def IsBest (better : Node → Node → Bool) (list : Ends Node) (xs : List Node) (elem : Node) : Prop :=
  xs = [] ∧ elem = list.tail ∨ ∃ before after, Best better xs elem before after

/-- The elements after `a` that `list_unique` keeps, and those that it takes out. -/
def uniq (less : Node → Node → Bool) (a : Node) : List Node → List Node × List Node
  | [] => ([], [])
  | b :: rest =>
      if !less a b && !less b a then ((uniq less a rest).1, b :: (uniq less a rest).2)
      else (b :: (uniq less b rest).1, (uniq less b rest).2)

theorem uniq_perm (a : Node) (xs : List Node) :
    ((uniq less a xs).1 ++ (uniq less a xs).2).Perm xs := by
  induction xs generalizing a with
  | nil => exact .refl _
  | cons b rest ih =>
      rw [uniq]
      split
      · exact List.perm_middle.trans ((ih a).cons b)
      · exact (ih b).cons b

/-- What is kept of a sorted sequence increases. -/
theorem uniq_increasing (horder : WeakOrder less) (hsorted : Sorted less (a :: xs)) :
    (a :: (uniq less a xs).1).Pairwise fun x y => less x y = true := by
  induction xs generalizing a with
  | nil => exact List.pairwise_singleton _ _
  | cons b rest ih =>
      obtain ⟨ha, hrest⟩ := List.pairwise_cons.mp hsorted
      rw [uniq]
      split
      · refine ih (List.pairwise_cons.mpr ⟨fun x hx => ha x (List.mem_cons_of_mem _ hx), ?_⟩)
        exact (List.pairwise_cons.mp hrest).2
      · rename_i halike
        have hab : less a b = true := by
          have hba := ha b List.mem_cons_self
          simpa [hba] using halike
        have hkept := ih hrest
        refine List.pairwise_cons.mpr ⟨fun x hx => ?_, hkept⟩
        obtain rfl | hx := List.mem_cons.mp hx
        · exact hab
        · -- Between `a` and `x` there is `b`.
          have hbx := (List.pairwise_cons.mp hkept).1 x hx
          obtain hax | hxb := horder.split a x b hab
          · exact hax
          · rw [horder.asymm b x hbx] at hxb
            cases hxb

/-- Everything in a sorted sequence is like something that is kept. -/
theorem exists_kept (horder : WeakOrder less) {x : Node} (hx : x ∈ a :: xs) :
    ∃ y ∈ a :: (uniq less a xs).1, less x y = false ∧ less y x = false := by
  induction xs generalizing a with
  | nil =>
      obtain rfl := List.mem_singleton.mp hx
      exact ⟨x, List.mem_cons_self, horder.irrefl x, horder.irrefl x⟩
  | cons b rest ih =>
      rw [uniq]
      split
      · rename_i halike
        obtain rfl | hx := List.mem_cons.mp hx
        · exact ⟨x, List.mem_cons_self, horder.irrefl x, horder.irrefl x⟩
        · obtain rfl | hx := List.mem_cons.mp hx
          · simp only [Bool.and_eq_true, Bool.not_eq_true'] at halike
            exact ⟨a, List.mem_cons_self, halike.2, halike.1⟩
          · exact ih (List.mem_cons_of_mem _ hx)
      · obtain rfl | hx := List.mem_cons.mp hx
        · exact ⟨x, List.mem_cons_self, horder.irrefl x, horder.irrefl x⟩
        · obtain ⟨y, hy, halike⟩ := ih hx
          exact ⟨y, List.mem_cons_of_mem _ hy, halike⟩

/-- Of the elements of a sorted sequence that are alike, the first is kept. -/
theorem kept_first (horder : WeakOrder less) (hsorted : Sorted less (a :: xs)) {k : Node}
    (hk : k ∈ a :: (uniq less a xs).1) : (alike less k (a :: xs)).head? = some k := by
  induction xs generalizing a with
  | nil =>
      obtain rfl := List.mem_singleton.mp hk
      simp [alike, horder.irrefl k]
  | cons b rest ih =>
      obtain ⟨ha, hrest⟩ := List.pairwise_cons.mp hsorted
      obtain rfl | hk' := List.mem_cons.mp hk
      · simp [alike, horder.irrefl k]
      rw [uniq] at hk hk'
      by_cases hab : (!less a b && !less b a) = true
      · rw [if_pos hab] at hk hk'
        have hsorted' : Sorted less (a :: rest) := List.pairwise_cons.mpr
          ⟨fun x hx => ha x (List.mem_cons_of_mem _ hx), (List.pairwise_cons.mp hrest).2⟩
        have hfirst := ih hsorted' hk
        simp only [Bool.and_eq_true, Bool.not_eq_true'] at hab
        by_cases hak : (!less a k && !less k a) = true
        · -- `a` itself is the first, and `k` is `a`.
          rw [alike_pos hak] at hfirst ⊢
          exact hfirst
        · have hbk : ¬(!less b k && !less k b) = true := by
            intro hbk
            simp only [Bool.and_eq_true, Bool.not_eq_true'] at hbk
            refine hak ?_
            rw [horder.trans hbk.1 hab.1, horder.trans hab.2 hbk.2]
            rfl
          rw [alike_neg hak] at hfirst
          rw [alike_neg hak, alike_neg hbk, hfirst]
      · rw [if_neg hab] at hk hk'
        have hincreasing := uniq_increasing horder hsorted
        rw [uniq, if_neg hab] at hincreasing
        have hak := (List.pairwise_cons.mp hincreasing).1 k hk'
        rw [alike_neg (by simp [hak])]
        exact ih hrest hk'

/-- What `list_unique` keeps of a sequence, and what it takes out. -/
def distinct (less : Node → Node → Bool) : List Node → List Node × List Node
  | [] => ([], [])
  | a :: rest => (a :: (uniq less a rest).1, (uniq less a rest).2)

theorem distinct_perm (less : Node → Node → Bool) (xs : List Node) :
    ((distinct less xs).1 ++ (distinct less xs).2).Perm xs := by
  cases xs with
  | nil => exact .refl _
  | cons a rest => exact (uniq_perm a rest).cons a

section Reversed

variable {links : Links Node} {list : Ends Node}

/-- The links of a list with its inner links swapped, and those of the end nodes and of their
neighbours put right, are those of the reversed list. -/
theorem holds_reverse {links' : Links Node} {first last : Node} (hholds : Holds links list xs)
    (hfirst : xs.head? = some first) (hlast : xs.getLast? = some last)
    (hends : links'.prev list.head = none ∧ links'.next list.tail = none ∧
      links'.next list.head = some last ∧ links'.prev list.tail = some first ∧
      links'.prev last = some list.head ∧ links'.next first = some list.tail)
    (hprev : ∀ x ∈ xs, x ≠ last → links'.prev x = links.next x)
    (hnext : ∀ x ∈ xs, x ≠ first → links'.next x = links.prev x) :
    Holds links' list xs.reverse := by
  obtain ⟨hfront, hback, hheadNext, htailPrev, hlastPrev, hfirstNext⟩ := hends
  refine ⟨hfront, hback, ?_, (list.nodes_perm xs.reverse_perm).nodup_iff.mpr hholds.nodup⟩
  have hnodup : xs.Nodup :=
    (List.nodup_append.mp (List.nodup_cons.mp hholds.nodup).2).1
  have hinner : xs.IsChain links.Linked :=
    (List.isChain_append.mp hholds.chain.tail).1
  -- Under the swapped links the reversed segment is a chain.
  have hswapped : xs.reverse.IsChain (Links.mk links.next links.prev).Linked := by
    refine List.isChain_reverse.mpr (hinner.imp fun x y hlinked => ?_)
    exact ⟨hlinked.2, hlinked.1⟩
  have hchain : xs.reverse.IsChain links'.Linked := by
    refine Links.isChain_congr hswapped (fun x hx => ?_) fun x hx => ?_
    · obtain ⟨rest, rfl⟩ : ∃ rest, xs = first :: rest := by
        cases xs with
        | nil => cases hfirst
        | cons a rest => exact ⟨rest, by rw [Option.some.inj hfirst]⟩
      rw [List.reverse_cons, List.dropLast_concat, List.mem_reverse] at hx
      refine hnext x (List.mem_cons_of_mem _ hx) ?_
      rintro rfl
      exact (List.nodup_cons.mp hnodup).1 hx
    · obtain ⟨rest, rfl⟩ : ∃ rest, xs = rest ++ [last] := by
        obtain rfl | ⟨rest, a, rfl⟩ := xs.eq_nil_or_concat
        · cases hlast
        · rw [List.concat_eq_append, List.getLast?_concat] at hlast
          exact ⟨rest, by rw [List.concat_eq_append, Option.some.inj hlast]⟩
      rw [List.reverse_append, List.reverse_singleton, List.singleton_append, List.tail_cons,
        List.mem_reverse] at hx
      refine hprev x (List.mem_append_left _ hx) ?_
      rintro rfl
      exact (List.nodup_append.mp hnodup).2.2 _ hx _ (List.mem_singleton_self _) rfl
  rw [show list.nodes xs.reverse = [list.head] ++ (xs.reverse ++ [list.tail]) from rfl]
  refine List.isChain_append.mpr ⟨.singleton _, List.isChain_append.mpr ⟨hchain, .singleton _, ?_⟩, ?_⟩
  · intro x hx y hy
    rw [List.getLast?_reverse, hfirst] at hx
    obtain rfl := Option.mem_some.mp hx
    obtain rfl := Option.mem_some.mp hy
    exact ⟨hfirstNext, htailPrev⟩
  · intro x hx y hy
    rw [List.head?_append, List.head?_reverse, hlast] at hy
    obtain rfl := Option.mem_some.mp hx
    obtain rfl := Option.mem_some.mp hy
    exact ⟨hheadNext, hlastPrev⟩

end Reversed

section Loops

variable [DecidableEq Node] {links : Links Node} {list : Ends Node} {left right : List Node}
  {elem : Node} {rounds : ℕ}

/-! ## Counting -/

theorem listSizeLoop_eq {cnt : ℕ} (hholds : Holds links list (left ++ right))
    (hrounds : right.length < rounds) :
    listSizeLoop links list rounds (some (list.first right)) cnt = .ok (cnt + right.length) := by
  induction right generalizing left cnt rounds with
  | nil =>
      obtain ⟨rounds, rfl⟩ := Nat.exists_eq_succ_of_ne_zero (Nat.ne_of_gt hrounds)
      rw [listSizeLoop, if_pos ((atEnd_iff hholds).mpr rfl)]
      rfl
  | cons a right ih =>
      obtain ⟨rounds, rfl⟩ := Nat.exists_eq_succ_of_ne_zero (Nat.ne_of_gt (Nat.zero_lt_of_lt hrounds))
      rw [List.length_cons] at hrounds
      rw [listSizeLoop, if_neg (mt (atEnd_iff hholds).mp (List.cons_ne_nil _ _)), Ends.first_cons,
        listNext_eq hholds, ok_bind, @ih (left ++ [a]) rounds (cnt + 1) (by simpa using hholds)
          (by omega), List.length_cons, Nat.add_assoc, Nat.add_comm 1]

theorem listSize_spec (hholds : Holds links list xs) (hrounds : xs.length < rounds) :
    listSize rounds links list = .ok xs.length := by
  rw [listSize, listBegin_eq hholds, @listSizeLoop_eq _ _ links list [] xs rounds 0 hholds hrounds,
    Nat.zero_add]

/-! ## Ordered insertion -/

theorem insertPlace_eq (hholds : Holds links list (left ++ right))
    (hrounds : right.length < rounds) :
    insertPlace less links list elem rounds (some (list.first right)) =
      .ok (some (list.first (right.dropWhile fun x => !less elem x))) := by
  induction right generalizing left rounds with
  | nil =>
      obtain ⟨rounds, rfl⟩ := Nat.exists_eq_succ_of_ne_zero (Nat.ne_of_gt hrounds)
      rw [insertPlace, if_pos ((atEnd_iff hholds).mpr rfl)]
      rfl
  | cons a right ih =>
      obtain ⟨rounds, rfl⟩ := Nat.exists_eq_succ_of_ne_zero (Nat.ne_of_gt (Nat.zero_lt_of_lt hrounds))
      rw [List.length_cons] at hrounds
      rw [insertPlace, if_neg (mt (atEnd_iff hholds).mp (List.cons_ne_nil _ _)), Ends.first_cons,
        follow_some, ok_bind, List.dropWhile_cons]
      cases hless : less elem a with
      | true => rfl
      | false =>
          rw [if_neg (by decide), listNext_eq hholds, ok_bind]
          exact @ih (left ++ [a]) rounds (by simpa using hholds) (by omega)

theorem listInsertOrdered_spec (hholds : Holds links list xs) (hout : elem ∉ list.nodes xs)
    (hrounds : xs.length < rounds) :
    ∃ links', listInsertOrdered less rounds links list (some elem) = .ok links' ∧
      Holds links' list (insertOrdered less elem xs) ∧
      SameElsewhere (elem :: list.nodes xs) links links' := by
  have hsplit := @List.takeWhile_append_dropWhile _ (fun x => !less elem x) xs
  obtain ⟨hinsert, hholds'⟩ := @listInsert_spec _ _ links list
    (xs.takeWhile fun x => !less elem x) (xs.dropWhile fun x => !less elem x) elem (by rwa [hsplit])
    (by rwa [hsplit])
  have hlast := list.last_mem_nodes (xs.takeWhile fun x => !less elem x)
    (xs.dropWhile fun x => !less elem x)
  have hfirst := list.first_mem_nodes (xs.takeWhile fun x => !less elem x)
    (xs.dropWhile fun x => !less elem x)
  rw [hsplit] at hlast hfirst
  refine ⟨_, ?_, insertOrdered_eq less elem xs ▸ hholds', ?_⟩
  · rw [listInsertOrdered, Option.isSome_some, assert_true, ok_bind, follow_some, ok_bind,
      listBegin_eq hholds, @insertPlace_eq _ less _ links list [] xs elem rounds hholds hrounds,
      ok_bind, hinsert]
  · exact Links.paste_same _ (List.mem_cons_of_mem _ hlast) List.mem_cons_self List.mem_cons_self
      (List.mem_cons_of_mem _ hfirst)

/-! ## Greatest and least elements -/

theorem bestLoop_spec (horder : WeakOrder better) {m : Node} {before after : List Node}
    (hholds : Holds links list (left ++ right)) (hbest : Best better left m before after)
    (hrounds : right.length < rounds) :
    ∃ m' before' after', bestLoop better links list rounds (some m) (some (list.first right)) =
        .ok (some m') ∧ Best better (left ++ right) m' before' after' := by
  induction right generalizing left m before after rounds with
  | nil =>
      obtain ⟨rounds, rfl⟩ := Nat.exists_eq_succ_of_ne_zero (Nat.ne_of_gt hrounds)
      refine ⟨m, before, after, ?_, by rwa [List.append_nil]⟩
      rw [bestLoop, if_pos ((atEnd_iff hholds).mpr rfl)]
  | cons e right ih =>
      obtain ⟨rounds, rfl⟩ := Nat.exists_eq_succ_of_ne_zero (Nat.ne_of_gt (Nat.zero_lt_of_lt hrounds))
      rw [List.length_cons] at hrounds
      have hnext : Holds links list ((left ++ [e]) ++ right) := by simpa using hholds
      have hwhole : left ++ e :: right = (left ++ [e]) ++ right := by simp
      obtain ⟨hbetter, hworse⟩ := hbest.step horder (e := e)
      rw [bestLoop, if_neg (mt (atEnd_iff hholds).mp (List.cons_ne_nil _ _)), Ends.first_cons,
        follow_some, ok_bind, follow_some, ok_bind, listNext_eq hholds, ok_bind, hwhole]
      cases hme : better m e with
      | true =>
          rw [if_pos rfl]
          exact ih hnext (hbetter hme) (by omega)
      | false =>
          rw [if_neg (by decide)]
          exact ih hnext (hworse hme) (by omega)

theorem listBest_spec (horder : WeakOrder better) (hholds : Holds links list xs)
    (hrounds : xs.length < rounds) :
    xs = [] ∧ listBest better rounds links list = .ok (listEnd list) ∨
      ∃ m before after, listBest better rounds links list = .ok (some m) ∧
        Best better xs m before after := by
  cases xs with
  | nil =>
      refine .inl ⟨rfl, ?_⟩
      rw [listBest, listBegin_eq hholds]
      exact if_pos rfl
  | cons a xs =>
      have hne : some (list.first (a :: xs)) ≠ listEnd list :=
        mt (@atEnd_iff _ links list [] (a :: xs) _ hholds).mp (List.cons_ne_nil _ _)
      obtain ⟨m, before, after, hloop, hbest⟩ := @bestLoop_spec _ better _ links list [a] xs rounds
        horder a [] [] hholds ⟨rfl, fun x hx => (List.not_mem_nil hx).elim,
          fun x hx => (List.not_mem_nil hx).elim⟩ (Nat.lt_of_succ_lt hrounds)
      refine .inr ⟨m, before, after, ?_, hbest⟩
      rw [listBest, listBegin_eq hholds, if_neg hne, Ends.first_cons,
        @listNext_eq _ links list [] xs a hholds, ok_bind, hloop]

theorem listBest_eq {m : Node} (horder : WeakOrder better) (hholds : Holds links list xs)
    (hbest : IsBest better list xs m) (hrounds : xs.length < rounds) :
    listBest better rounds links list = .ok (some m) := by
  obtain ⟨hnil, hlist⟩ | ⟨m', before, after, hlist, hm'⟩ := listBest_spec horder hholds hrounds
  · obtain ⟨-, rfl⟩ | ⟨before, after, hm⟩ := hbest
    · exact hlist
    · exact absurd (hnil.symm.trans hm.split) (by simp)
  · obtain ⟨hnil, -⟩ | ⟨before', after', hm⟩ := hbest
    · exact absurd (hnil.symm.trans hm'.split) (by simp)
    · rw [hlist, hm'.unique hm]

/-! ## Duplicates -/

theorem listUniqueLoop_spec {duplicates : Option (Ends Node)} {ds nodes : List Node}
    (hholds : Holds links list (left ++ a :: right))
    (hdup : ∀ dup ∈ duplicates, Holds links dup ds ∧
      (dup.nodes ds).Disjoint (list.nodes (left ++ a :: right)) ∧ dup.nodes ds ⊆ nodes)
    (hnodes : list.nodes (left ++ a :: right) ⊆ nodes) (hrounds : right.length < rounds) :
    ∃ links', listUniqueLoop less list duplicates rounds links (some a) = .ok links' ∧
      Holds links' list (left ++ a :: (uniq less a right).1) ∧
      (∀ dup ∈ duplicates, Holds links' dup (ds ++ (uniq less a right).2)) ∧
      SameElsewhere nodes links links' := by
  induction right generalizing left a links ds rounds with
  | nil =>
      obtain ⟨rounds, rfl⟩ := Nat.exists_eq_succ_of_ne_zero (Nat.ne_of_gt hrounds)
      refine ⟨links, ?_, hholds, fun dup hmem => ?_, .refl _ _⟩
      · rw [listUniqueLoop, listNext_eq hholds, ok_bind]
        exact if_pos rfl
      · rw [uniq, List.append_nil]
        exact (hdup dup hmem).1
  | cons b right ih =>
      obtain ⟨rounds, rfl⟩ := Nat.exists_eq_succ_of_ne_zero (Nat.ne_of_gt (Nat.zero_lt_of_lt hrounds))
      rw [List.length_cons] at hrounds
      have hnext : Holds links list ((left ++ [a]) ++ b :: right) := by simpa using hholds
      rw [listUniqueLoop, listNext_eq hholds, ok_bind,
        if_neg (mt (atEnd_iff hnext).mp (List.cons_ne_nil _ _)), Ends.first_cons, follow_some, ok_bind,
        follow_some, ok_bind, uniq]
      by_cases halike : (!less a b && !less b a) = true
      · obtain ⟨hremove, hholds₁⟩ := listRemove_spec hnext
        have hlast : list.last (left ++ [a]) ∈ list.nodes (left ++ a :: b :: right) := by
          rw [Ends.last_concat]
          simp
        have hfirst := list.first_mem_nodes (left ++ [a] ++ [b]) right
        simp only [List.append_assoc, List.cons_append, List.nil_append] at hfirst
        have hcut := links.cut_same hlast hfirst
        generalize links.cut (list.last (left ++ [a])) (list.first right) = links₁ at *
        have hholds₁ : Holds links₁ list (left ++ a :: right) := by simpa using hholds₁
        have hsub : list.nodes (left ++ a :: right) ⊆ list.nodes (left ++ a :: b :: right) := by
          intro node
          simp only [Ends.mem_nodes, List.mem_append, List.mem_cons]
          tauto
        have hbOut : b ∉ list.nodes (left ++ a :: right) := by
          have hperm := list.nodes_middle b (left ++ [a]) right
          have hnodup := hperm.nodup_iff.mp hnext.nodup
          rw [List.append_assoc] at hnodup
          exact (List.nodup_cons.mp hnodup).1
        rw [if_pos halike, if_pos halike, hremove, ok_bind]
        cases duplicates with
        | none =>
            obtain ⟨links', hloop, hholds', hdup', hsame⟩ := @ih a links₁ left rounds ds hholds₁
              (by simp) (List.Subset.trans hsub hnodes) (by omega)
            exact ⟨links', hloop, hholds', by simp, (hcut.mono hnodes).trans hsame⟩
        | some dup =>
            obtain ⟨hholdsDup, hapart, hsubDup⟩ := hdup dup rfl
            have hdup₁ := hcut.holds hholdsDup hapart
            have hbDup : b ∉ dup.nodes ds := fun hmem => hapart hmem (by simp)
            obtain ⟨hpush, hdup₂⟩ := listPushBack_spec hdup₁ hbDup
            have hpaste : SameElsewhere (b :: dup.nodes ds) links₁
                (links₁.paste (dup.last ds) b b dup.tail) := by
              have hmem := dup.last_mem_nodes ds []
              rw [List.append_nil] at hmem
              exact links₁.paste_same (List.mem_cons_of_mem _ hmem) List.mem_cons_self
                List.mem_cons_self (List.mem_cons_of_mem _ (by simp))
            generalize links₁.paste (dup.last ds) b b dup.tail = links₂ at *
            have hapart₁ : (list.nodes (left ++ a :: right)).Disjoint (b :: dup.nodes ds) := by
              rintro node hnode (_ | ⟨_, hmem⟩)
              · exact hbOut hnode
              · exact hapart hmem (hsub hnode)
            have hapart₂ : (dup.nodes (ds ++ [b])).Disjoint (list.nodes (left ++ a :: right)) := by
              intro node hmem hnode
              refine hapart₁ hnode ?_
              simp only [Ends.mem_nodes, List.mem_append, List.mem_cons] at hmem ⊢
              tauto
            have hsub₂ : dup.nodes (ds ++ [b]) ⊆ nodes := by
              intro node hmem
              have hb : b ∈ nodes := hnodes (by simp)
              by_cases heq : node = b
              · exact heq ▸ hb
              · refine hsubDup ?_
                simp only [Ends.mem_nodes, List.mem_append, List.mem_singleton] at hmem ⊢
                tauto
            have hsame₂ : SameElsewhere nodes links links₂ := by
              refine (hcut.mono hnodes).trans (hpaste.mono ?_)
              exact List.cons_subset.mpr ⟨hnodes (by simp), hsubDup⟩
            obtain ⟨links', hloop, hholds', hdup', hsame⟩ := @ih a links₂ left rounds (ds ++ [b])
              (hpaste.holds hholds₁ hapart₁) (fun other hmem => by
                obtain rfl := Option.mem_some.mp hmem
                exact ⟨hdup₂, hapart₂, hsub₂⟩) (List.Subset.trans hsub hnodes) (by omega)
            refine ⟨links', ?_, hholds', fun other hmem => ?_, hsame₂.trans hsame⟩
            · exact (congrArg (· >>= fun links => listUniqueLoop less list (some dup) rounds links
                (some a)) hpush).trans hloop
            · simpa using hdup' other hmem
      · rw [if_neg halike, if_neg halike]
        obtain ⟨links', hloop, hholds', hdup', hsame⟩ := @ih b links (left ++ [a]) rounds ds hnext
          (by simpa using hdup) (by simpa using hnodes) (by omega)
        exact ⟨links', hloop, by simpa using hholds', hdup', hsame⟩

/-- `list_unique`, with the elements that it takes out appended to another list. -/
theorem listUnique_spec {duplicates : Option (Ends Node)} {ds nodes : List Node}
    (hholds : Holds links list (a :: right))
    (hdup : ∀ dup ∈ duplicates, Holds links dup ds ∧
      (dup.nodes ds).Disjoint (list.nodes (a :: right)) ∧ dup.nodes ds ⊆ nodes)
    (hnodes : list.nodes (a :: right) ⊆ nodes) (hrounds : right.length < rounds) :
    ∃ links', listUnique less rounds links list duplicates = .ok links' ∧
      Holds links' list (a :: (uniq less a right).1) ∧
      (∀ dup ∈ duplicates, Holds links' dup (ds ++ (uniq less a right).2)) ∧
      SameElsewhere nodes links links' := by
  rw [listUnique, listEmpty_eq hholds, if_neg (by simp), listBegin_eq hholds]
  exact @listUniqueLoop_spec _ less a _ links list [] right rounds duplicates ds nodes hholds hdup
    hnodes hrounds

/-! ## Reversal -/

theorem listReverseLoop_spec {links₀ : Links Node} (hholds : Holds links₀ list (left ++ right))
    (hdone : ∀ x ∈ left, links.prev x = links₀.next x ∧ links.next x = links₀.prev x)
    (hsame : SameElsewhere left links₀ links) (hrounds : right.length < rounds) :
    ∃ links', listReverseLoop list rounds links (some (list.first right)) = .ok links' ∧
      (∀ x ∈ left ++ right, links'.prev x = links₀.next x ∧ links'.next x = links₀.prev x) ∧
      SameElsewhere (left ++ right) links₀ links' := by
  induction right generalizing left links rounds with
  | nil =>
      obtain ⟨rounds, rfl⟩ := Nat.exists_eq_succ_of_ne_zero (Nat.ne_of_gt hrounds)
      refine ⟨links, ?_, by rwa [List.append_nil], by rwa [List.append_nil]⟩
      rw [listReverseLoop, if_pos ((atEnd_iff hholds).mpr rfl)]
  | cons a right ih =>
      obtain ⟨rounds, rfl⟩ := Nat.exists_eq_succ_of_ne_zero (Nat.ne_of_gt (Nat.zero_lt_of_lt hrounds))
      rw [List.length_cons] at hrounds
      have hout : a ∉ left := by
        have hnodup := (list.nodes_middle a left right).nodup_iff.mp hholds.nodup
        intro hmem
        refine (List.nodup_cons.mp hnodup).1 ?_
        simp [hmem]
      have hold := hsame a hout
      have hnext := hholds.neighbours.2
      rw [listReverseLoop, if_neg (mt (atEnd_iff hholds).mp (List.cons_ne_nil _ _)), Ends.first_cons,
        follow_some, ok_bind]
      simp only [Links.setNext_prev, Links.setPrev_self]
      rw [hold.2, hnext]
      have hswapped : left ++ a :: right = (left ++ [a]) ++ right := by simp
      rw [hswapped]
      refine ih (hswapped ▸ hholds) (fun x hx => ?_) (fun x hx => ?_) (by omega)
      · by_cases hxa : x = a
        · subst hxa
          rw [Links.setNext_prev, Links.setPrev_self, Links.setNext_self, hold.1, hnext]
          exact ⟨rfl, rfl⟩
        · rw [Links.setNext_prev, Links.setPrev_of_ne _ _ hxa, Links.setNext_of_ne _ _ hxa,
            Links.setPrev_next]
          refine hdone x ?_
          simpa [hxa] using hx
      · rw [List.mem_append, List.mem_singleton, not_or] at hx
        rw [Links.setNext_prev, Links.setPrev_of_ne _ _ hx.2, Links.setNext_of_ne _ _ hx.2,
          Links.setPrev_next]
        exact hsame x hx.1

/-- `list_reverse`. -/
theorem listReverse_spec (hholds : Holds links list xs) (hrounds : xs.length < rounds) :
    ∃ links', listReverse rounds links list = .ok links' ∧ Holds links' list xs.reverse ∧
      SameElsewhere (list.nodes xs) links links' := by
  cases hcases : xs with
  | nil =>
      subst hcases
      exact ⟨links, by rw [listReverse, listEmpty_eq hholds]; rfl, hholds, .refl _ _⟩
  | cons first rest =>
      rw [← hcases]
      have hne : xs ≠ [] := hcases ▸ List.cons_ne_nil _ _
      have hfirst : xs.head? = some first := by rw [hcases, List.head?_cons]
      obtain ⟨last, hlast⟩ : ∃ last, xs.getLast? = some last :=
        ⟨_, List.getLast?_eq_some_getLast hne⟩
      have hfirstMem : first ∈ xs := List.mem_of_mem_head? hfirst
      have hlastMem : last ∈ xs := List.mem_of_mem_getLast? hlast
      have hnodup := hholds.nodup
      have hheadOut : list.head ∉ xs := fun hmem =>
        (List.nodup_cons.mp hnodup).1 (List.mem_append_left _ hmem)
      have htailOut : list.tail ∉ xs := fun hmem =>
        (List.nodup_append.mp (List.nodup_cons.mp hnodup).2).2.2 _ hmem _
          (List.mem_singleton_self _) rfl
      have hneEnds := hholds.head_ne_tail
      have hnextLast : links.next last = some list.tail := by
        have hsplit := List.dropLast_concat_getLast hne
        rw [(List.getLast_eq_iff_getLast?_eq_some hne).mpr hlast] at hsplit
        rw [← hsplit] at hholds
        exact hholds.neighbours.2
      have hprevFirst : links.prev first = some list.head := by
        have hnode := hholds
        rw [hcases] at hnode
        exact (@Holds.neighbours _ links list [] rest first hnode).1
      obtain ⟨links₁, hloop, hswap, hsame₁⟩ := @listReverseLoop_spec _ _ links list [] xs rounds links
        hholds (by simp) (.refl _ _) hrounds
      rw [List.nil_append] at hswap hsame₁
      have hhead₁ := hsame₁ list.head hheadOut
      have htail₁ := hsame₁ list.tail htailOut
      have hF : list.first xs = first := by rw [hcases, Ends.first_cons]
      have hL : list.last xs = last := by rw [Ends.last, List.getLastD_eq_getLast?, hlast]; rfl
      rw [listReverse, listEmpty_eq hholds, if_neg (by simpa using hne), listBegin_eq hholds, hloop,
        ok_bind]
      simp only [hhead₁, htail₁, hholds.next_head, hholds.prev_tail, hF, hL, Links.setPrev_next,
        Links.setNext_self, follow_some, ok_bind, Links.setPrev_self]
      have hneLast : last ≠ list.tail ∧ last ≠ list.head :=
        ⟨fun heq => htailOut (heq ▸ hlastMem), fun heq => hheadOut (heq ▸ hlastMem)⟩
      have hneFirst : first ≠ list.tail ∧ first ≠ list.head :=
        ⟨fun heq => htailOut (heq ▸ hfirstMem), fun heq => hheadOut (heq ▸ hfirstMem)⟩
      simp only [Links.setPrev_of_ne _ _ hneLast.1, Links.setNext_of_ne _ _ hneFirst.2,
        Links.setNext_prev, hswap last hlastMem, hswap first hfirstMem, hnextLast,
        hprevFirst]
      -- Each link is that of one assignment, or one that the loop has swapped.
      have hprev' : ∀ x, ((((links₁.setNext list.head (some last)).setPrev list.tail
          (some first)).setPrev last (some list.head)).setNext first (some list.tail)).prev x =
          if x = last then some list.head else if x = list.tail then some first
          else links₁.prev x := fun x => by
        simp only [Links.setNext, Links.setPrev, Function.update_apply]
      have hnext' : ∀ x, ((((links₁.setNext list.head (some last)).setPrev list.tail
          (some first)).setPrev last (some list.head)).setNext first (some list.tail)).next x =
          if x = first then some list.tail else if x = list.head then some last
          else links₁.next x := fun x => by
        simp only [Links.setNext, Links.setPrev, Function.update_apply]
      refine ⟨_, rfl, holds_reverse hholds hfirst hlast ⟨?_, ?_, ?_, ?_, ?_, ?_⟩ (fun x hx hxl => ?_)
        (fun x hx hxf => ?_), fun x hx => ?_⟩
      · rw [hprev', if_neg hneLast.2.symm, if_neg hneEnds, hhead₁.1, hholds.front]
      · rw [hnext', if_neg hneFirst.1.symm, if_neg hneEnds.symm, htail₁.2, hholds.back]
      · rw [hnext', if_neg hneFirst.2.symm, if_pos rfl]
      · rw [hprev', if_neg hneLast.1.symm, if_pos rfl]
      · rw [hprev', if_pos rfl]
      · rw [hnext', if_pos rfl]
      · rw [hprev', if_neg hxl, if_neg fun heq : x = list.tail => htailOut (heq ▸ hx), (hswap x hx).1]
      · rw [hnext', if_neg hxf, if_neg fun heq : x = list.head => hheadOut (heq ▸ hx), (hswap x hx).2]
      · simp only [Ends.mem_nodes, not_or] at hx
        have hold := hsame₁ x hx.2.1
        rw [hprev', hnext', if_neg fun heq : x = last => hx.2.1 (heq ▸ hlastMem), if_neg hx.2.2,
          if_neg fun heq : x = first => hx.2.1 (heq ▸ hfirstMem), if_neg hx.1]
        exact hold

end Loops

end Painting.KernelList
