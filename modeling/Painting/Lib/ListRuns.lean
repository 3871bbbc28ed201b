import Painting.Lib.ListOrder

/-!
# Runs of list operations

A program works on several lists by calls of `list.c`.  As long as an element goes into a list only
while it is in none, no call fails an assertion or follows `NULL`, and the lists hold the sequences
that the calls describe.
-/

namespace Painting.KernelList

open Painting.LinkedList Painting.NaturalMerge

variable {Index Node : Type}

/-! ## Calls -/

inductive Call (Index Node : Type)
  | insert (before elem : Node)
  | splice (before first last : Node)
  | pushFront (list : Index) (elem : Node)
  | pushBack (list : Index) (elem : Node)
  | remove (elem : Node)
  | popFront (list : Index)
  | popBack (list : Index)
  | reverse (list : Index)
  | sort (list : Index) (less : Node → Node → Bool)
  | insertOrdered (list : Index) (elem : Node) (less : Node → Node → Bool)
  | unique (list : Index) (duplicates : Option Index) (less : Node → Node → Bool)
  | max (list : Index) (less : Node → Node → Bool)
  | min (list : Index) (less : Node → Node → Bool)

/-- The call, with the element that it returns. -/
def Call.run [DecidableEq Node] (rounds : ℕ) (lists : Index → Ends Node) (links : Links Node) :
    Call Index Node → Except Stop (Option Node × Links Node)
  | insert before elem => do
      let links ← listInsert links (some before) (some elem)
      .ok (none, links)
  | splice before first last => do
      let links ← listSplice links (some before) (some first) (some last)
      .ok (none, links)
  | pushFront list elem => do
      let links ← listPushFront links (lists list) (some elem)
      .ok (none, links)
  | pushBack list elem => do
      let links ← listPushBack links (lists list) (some elem)
      .ok (none, links)
  | remove elem => listRemove links (some elem)
  | popFront list => listPopFront links (lists list)
  | popBack list => listPopBack links (lists list)
  | reverse list => do
      let links ← listReverse rounds links (lists list)
      .ok (none, links)
  | sort list less => do
      let links ← listSort less rounds rounds links (lists list)
      .ok (none, links)
  | insertOrdered list elem less => do
      let links ← listInsertOrdered less rounds links (lists list) (some elem)
      .ok (none, links)
  | unique list duplicates less => do
      let links ← listUnique less rounds links (lists list) (duplicates.map lists)
      .ok (none, links)
  | max list less => do
      let elem ← listMax less rounds links (lists list)
      .ok (elem, links)
  | min list less => do
      let elem ← listMin less rounds links (lists list)
      .ok (elem, links)

/-- The elements that a call puts into a list from outside. -/
def Call.inserted : Call Index Node → List Node
  | insert _ elem => [elem]
  | pushFront _ elem => [elem]
  | pushBack _ elem => [elem]
  | insertOrdered _ elem _ => [elem]
  | _ => []

theorem Call.inserted_length (call : Call Index Node) : call.inserted.length ≤ 1 := by
  cases call <;> simp [inserted]

/-- A program, with the elements that its calls return. -/
def runAll [DecidableEq Node] (rounds : ℕ) (lists : Index → Ends Node) :
    Links Node → List (Call Index Node) → Except Stop (List (Option Node) × Links Node)
  | links, [] => .ok ([], links)
  | links, call :: calls => do
      let (answer, links) ← call.run rounds lists links
      let (answers, links) ← runAll rounds lists links calls
      .ok (answer :: answers, links)

/-- The lists are initialised one after the other. -/
def initAll [DecidableEq Node] (lists : Index → Ends Node) (links : Links Node)
    (indices : List Index) : Links Node :=
  indices.foldl (fun links i => listInit links (lists i)) links

/-! ## Sequences -/

section Sequences

variable [DecidableEq Index]

/-- The sequence is appended to that of the list, if there is one. -/
def appendTo (contents : Index → List Node) (list : Option Index) (xs : List Node) :
    Index → List Node :=
  list.elim contents fun i => Function.update contents i (contents i ++ xs)

/-- The node is in none of the lists. -/
def Free (lists : Index → Ends Node) (contents : Index → List Node) (node : Node) : Prop :=
  ∀ i, node ∉ (lists i).nodes (contents i)

/-- What a call does to the sequences.  A place in a list is the first node of what follows it. -/
inductive Effect (lists : Index → Ends Node) (contents : Index → List Node) :
    Call Index Node → Option Node → (Index → List Node) → Prop
  | insert {i : Index} {left right : List Node} {elem : Node} (hplace : contents i = left ++ right)
      (hfree : Free lists contents elem) :
      Effect lists contents (.insert ((lists i).first right) elem) none
        (Function.update contents i (left ++ elem :: right))
  | splice {i j : Index} {left segment right left' right' : List Node} {first : Node}
      (hsource : contents i = left ++ (first :: segment ++ right))
      (hplace : Function.update contents i (left ++ right) j = left' ++ right') :
      Effect lists contents (.splice ((lists j).first right') first ((lists i).first right)) none
        (Function.update (Function.update contents i (left ++ right)) j
          (left' ++ (first :: segment ++ right')))
  | spliceNothing {i : Index} {left right : List Node} {elem : Node}
      (hplace : contents i = left ++ right) :
      Effect lists contents (.splice ((lists i).first right) elem elem) none contents
  | pushFront {i : Index} {elem : Node} (hfree : Free lists contents elem) :
      Effect lists contents (.pushFront i elem) none
        (Function.update contents i (elem :: contents i))
  | pushBack {i : Index} {elem : Node} (hfree : Free lists contents elem) :
      Effect lists contents (.pushBack i elem) none
        (Function.update contents i (contents i ++ [elem]))
  | remove {i : Index} {left right : List Node} {elem : Node}
      (hplace : contents i = left ++ elem :: right) :
      Effect lists contents (.remove elem) (some ((lists i).first right))
        (Function.update contents i (left ++ right))
  | popFront {i : Index} {elem : Node} {right : List Node} (hplace : contents i = elem :: right) :
      Effect lists contents (.popFront i) (some elem) (Function.update contents i right)
  | popBack {i : Index} {left : List Node} {elem : Node} (hplace : contents i = left ++ [elem]) :
      Effect lists contents (.popBack i) (some elem) (Function.update contents i left)
  | reverse {i : Index} :
      Effect lists contents (.reverse i) none (Function.update contents i (contents i).reverse)
  | sort {i : Index} {less : Node → Node → Bool} (horder : WeakOrder less) :
      Effect lists contents (.sort i less) none
        (Function.update contents i (sorted less (contents i)))
  | insertOrdered {i : Index} {elem : Node} {less : Node → Node → Bool}
      (hfree : Free lists contents elem) :
      Effect lists contents (.insertOrdered i elem less) none
        (Function.update contents i (insertOrdered less elem (contents i)))
  | unique {i : Index} {duplicates : Option Index} {less : Node → Node → Bool}
      (hother : i ∉ duplicates) :
      Effect lists contents (.unique i duplicates less) none
        (appendTo (Function.update contents i (distinct less (contents i)).1) duplicates
          (distinct less (contents i)).2)
  | max {i : Index} {elem : Node} {less : Node → Node → Bool} (horder : WeakOrder less)
      (hbest : IsBest (fun best e => less best e) (lists i) (contents i) elem) :
      Effect lists contents (.max i less) (some elem) contents
  | min {i : Index} {elem : Node} {less : Node → Node → Bool} (horder : WeakOrder less)
      (hbest : IsBest (fun best e => less e best) (lists i) (contents i) elem) :
      Effect lists contents (.min i less) (some elem) contents

/-- What a program does to the sequences. -/
inductive Trace (lists : Index → Ends Node) :
    (Index → List Node) → List (Call Index Node) → List (Option Node) → (Index → List Node) → Prop
  | nil {contents : Index → List Node} : Trace lists contents [] [] contents
  | cons {contents contents' contents'' : Index → List Node} {call : Call Index Node}
      {answer : Option Node} {calls : List (Call Index Node)} {answers : List (Option Node)}
      (heffect : Effect lists contents call answer contents')
      (htrace : Trace lists contents' calls answers contents'') :
      Trace lists contents (call :: calls) (answer :: answers) contents''

end Sequences

/-! ## One call -/

section Sets

/-- What is kept is apart from another list, also after what is taken out has gone there. -/
theorem distinct_apart {list other : Ends Node} {xs kept taken ds : List Node}
    (hnodup : (list.nodes xs).Nodup) (hapart : (list.nodes xs).Disjoint (other.nodes ds))
    (hperm : (kept ++ taken).Perm xs) :
    (list.nodes kept).Disjoint (other.nodes (ds ++ taken)) := by
  have hsplit : (list.nodes ([] ++ (taken ++ kept))).Nodup :=
    (list.nodes_perm (List.perm_append_comm.trans hperm)).nodup_iff.mpr hnodup
  have htaken := List.disjoint_of_nodup_append
    ((list.nodes_segment [] taken kept).nodup_iff.mp hsplit)
  have hkept : list.nodes kept ⊆ list.nodes xs := list.nodes_subset fun node hnode =>
    hperm.subset (List.mem_append_left _ hnode)
  intro node hnode hmem
  rw [Ends.mem_nodes, List.mem_append] at hmem
  have hrest : node ∉ other.nodes ds := hapart (hkept hnode)
  rw [Ends.mem_nodes] at hrest
  have hout : node ∉ taken := fun hin => htaken hin hnode
  tauto

theorem update_subset [DecidableEq Index] {contents : Index → List Node} {nodes xs : List Node}
    {i : Index} (hsub : ∀ j, contents j ⊆ nodes) (hxs : xs ⊆ nodes) (j : Index) :
    Function.update contents i xs j ⊆ nodes := by
  rw [Function.update_apply]
  split
  · exact hxs
  · exact hsub j

end Sets

section Steps

variable [DecidableEq Index] [DecidableEq Node] {links : Links Node} {lists : Index → Ends Node}
  {contents contents' : Index → List Node} {left right left' right' segment nodes : List Node}
  {elem first : Node} {less better : Node → Node → Bool} {rounds : ℕ} {i j : Index}

theorem insert_represents (hrep : Represents links lists contents)
    (hplace : contents i = left ++ right) (hfree : Free lists contents elem) :
    ∃ links', listInsert links (some ((lists i).first right)) (some elem) = .ok links' ∧
      Represents links' lists (Function.update contents i (left ++ elem :: right)) := by
  have hholds := hrep.holds i
  have hout := hfree i
  rw [hplace] at hholds hout
  refine ⟨_, (listInsert_spec hholds hout).1, ?_⟩
  exact @Represents.paste _ _ links lists contents left right [] i _ _ hrep elem hplace
    (.singleton _) (List.nodup_singleton _) fun j => List.singleton_disjoint.mpr (hfree j)

theorem remove_represents (hrep : Represents links lists contents)
    (hplace : contents i = left ++ elem :: right) :
    ∃ links', listRemove links (some elem) = .ok (some ((lists i).first right), links') ∧
      Represents links' lists (Function.update contents i (left ++ right)) := by
  have hholds := hrep.holds i
  rw [hplace] at hholds
  exact ⟨_, (listRemove_spec hholds).1,
    (@Represents.cut _ _ links lists contents left right [elem] i _ _ hrep hplace).1⟩

theorem splice_represents (hrep : Represents links lists contents)
    (hsource : contents i = left ++ (first :: segment ++ right))
    (hplace : Function.update contents i (left ++ right) j = left' ++ right') :
    ∃ links', listSplice links (some ((lists j).first right')) (some first)
        (some ((lists i).first right)) = .ok links' ∧
      Represents links' lists (Function.update (Function.update contents i (left ++ right)) j
        (left' ++ (first :: segment ++ right'))) := by
  have hholds := hrep.holds i
  rw [hsource] at hholds
  obtain ⟨hcut, hfree⟩ := hrep.cut hsource
  have hdst := hcut.holds j
  rw [hplace] at hdst
  have hout := hfree j
  rw [hplace] at hout
  have hsegment : (first :: segment).Nodup := by
    have hnodup := ((lists i).nodes_segment left (first :: segment) right).nodup_iff.mp hholds.nodup
    exact hnodup.of_append_left
  have hnodup := ((lists j).nodes_segment left' (first :: segment) right').nodup_iff.mpr
    (hsegment.append hdst.nodup hout)
  obtain ⟨links', hsplice, heq, -⟩ := listSplice_spec hholds hdst hnodup
  refine ⟨links', hsplice, ?_⟩
  rw [heq]
  exact hcut.paste hplace hholds.cut.2 hsegment hfree

theorem insertOrdered_represents (hrep : Represents links lists contents)
    (hfree : Free lists contents elem) (hrounds : (contents i).length < rounds) :
    ∃ links', listInsertOrdered less rounds links (lists i) (some elem) = .ok links' ∧
      Represents links' lists (Function.update contents i (insertOrdered less elem (contents i))) := by
  obtain ⟨links', hinsert, hholds, hsame⟩ :=
    @listInsertOrdered_spec _ less _ _ _ _ _ _ (hrep.holds i) (hfree i) hrounds
  refine ⟨links', hinsert, hrep.update hholds hsame (fun node hnode => ?_) fun j hj => ?_⟩
  · rw [Ends.mem_nodes, insertOrdered, List.mem_orderedInsert] at hnode
    rw [List.mem_cons, Ends.mem_nodes]
    tauto
  · exact List.disjoint_cons_right.mpr ⟨hfree j, hrep.apart j i hj⟩

theorem reverse_represents (hrep : Represents links lists contents)
    (hrounds : (contents i).length < rounds) :
    ∃ links', listReverse rounds links (lists i) = .ok links' ∧
      Represents links' lists (Function.update contents i (contents i).reverse) := by
  obtain ⟨links', hreverse, hholds, hsame⟩ := listReverse_spec (hrep.holds i) hrounds
  exact ⟨links', hreverse, hrep.rearrange hholds hsame (List.reverse_perm _).subset⟩

theorem sort_represents (horder : WeakOrder less) (hrep : Represents links lists contents)
    (hrounds : (contents i).length < rounds) :
    ∃ links', listSort less rounds rounds links (lists i) = .ok links' ∧
      Represents links' lists (Function.update contents i (sorted less (contents i))) := by
  have hpasses : Nat.clog 2 (contents i).length < rounds :=
    (Nat.clog_le_of_le_pow (Nat.lt_two_pow_self).le).trans_lt hrounds
  obtain ⟨links', hsort, hholds, hsame⟩ := listSort_spec horder (hrep.holds i) hpasses hrounds
  exact ⟨links', hsort, hrep.rearrange hholds hsame (List.mergeSort_perm _ _).subset⟩

/-- `list_unique` on any list. -/
theorem listUnique_distinct {list : Ends Node} {xs ds : List Node} {duplicates : Option (Ends Node)}
    (hholds : Holds links list xs)
    (hdup : ∀ dup ∈ duplicates, Holds links dup ds ∧
      (dup.nodes ds).Disjoint (list.nodes xs) ∧ dup.nodes ds ⊆ nodes)
    (hnodes : list.nodes xs ⊆ nodes) (hrounds : xs.length < rounds) :
    ∃ links', listUnique less rounds links list duplicates = .ok links' ∧
      Holds links' list (distinct less xs).1 ∧
      (∀ dup ∈ duplicates, Holds links' dup (ds ++ (distinct less xs).2)) ∧
      SameElsewhere nodes links links' := by
  cases xs with
  | nil =>
      refine ⟨links, ?_, hholds, fun dup hmem => ?_, .refl _ _⟩
      · rw [listUnique, listEmpty_eq hholds]
        rfl
      · exact (List.append_nil ds).symm ▸ (hdup dup hmem).1
  | cons a rest => exact listUnique_spec hholds hdup hnodes (Nat.lt_of_succ_lt hrounds)

theorem unique_represents {duplicates : Option Index} (hrep : Represents links lists contents)
    (hother : i ∉ duplicates) (hrounds : (contents i).length < rounds) :
    ∃ links', listUnique less rounds links (lists i) (duplicates.map lists) = .ok links' ∧
      Represents links' lists (appendTo (Function.update contents i (distinct less (contents i)).1)
        duplicates (distinct less (contents i)).2) := by
  have hperm := distinct_perm less (contents i)
  have hkept : (distinct less (contents i)).1 ⊆ contents i := fun node hnode =>
    hperm.subset (List.mem_append_left _ hnode)
  have htaken : (distinct less (contents i)).2 ⊆ contents i := fun node hnode =>
    hperm.subset (List.mem_append_right _ hnode)
  cases duplicates with
  | none =>
      obtain ⟨links', hunique, hholds, -, hsame⟩ := @listUnique_distinct _ _ links
        ((lists i).nodes (contents i)) less rounds (lists i) (contents i) [] none (hrep.holds i)
        (fun dup hmem => by cases hmem) (List.Subset.refl _) hrounds
      exact ⟨links', hunique, hrep.rearrange hholds hsame hkept⟩
  | some j =>
      have hne : j ≠ i := fun heq => hother (heq ▸ rfl)
      obtain ⟨links', hunique, hholds, hdup, hsame⟩ := @listUnique_distinct _ _ links
        ((lists j).nodes (contents j) ++ (lists i).nodes (contents i)) less rounds (lists i)
        (contents i) (contents j) (some (lists j)) (hrep.holds i) (fun dup hmem => by
          obtain rfl := Option.mem_some.mp hmem
          exact ⟨hrep.holds j, hrep.apart j i hne, List.subset_append_left _ _⟩)
        (List.subset_append_right _ _) hrounds
      refine ⟨links', hunique, ?_⟩
      have hcontents : appendTo (Function.update contents i (distinct less (contents i)).1) (some j)
          (distinct less (contents i)).2 = Function.update (Function.update contents i
            (distinct less (contents i)).1) j (contents j ++ (distinct less (contents i)).2) := by
        rw [appendTo, Option.elim_some, Function.update_of_ne hne]
      have hkeptNodes := (lists i).nodes_subset hkept
      have hgrown : (lists j).nodes (contents j ++ (distinct less (contents i)).2) ⊆
          (lists j).nodes (contents j) ++ (lists i).nodes (contents i) := by
        intro node hnode
        have hmem := @htaken node
        simp only [Ends.mem_nodes, List.mem_append] at hnode ⊢
        tauto
      have hij : ((lists i).nodes (distinct less (contents i)).1).Disjoint
          ((lists j).nodes (contents j ++ (distinct less (contents i)).2)) :=
        distinct_apart (hrep.holds i).nodup (hrep.apart i j (Ne.symm hne)) hperm
      have hi : Function.update (Function.update contents i (distinct less (contents i)).1) j
          (contents j ++ (distinct less (contents i)).2) i = (distinct less (contents i)).1 := by
        rw [Function.update_of_ne (Ne.symm hne), Function.update_self]
      rw [hcontents]
      refine hrep.change (fun k => k = i ∨ k = j) hsame ?_ (fun k hk => ?_) ?_
      · rintro k (rfl | rfl)
        · rw [hi]
          exact ⟨hholds, List.subset_append_of_subset_right _ hkeptNodes⟩
        · rw [Function.update_self]
          exact ⟨hdup _ rfl, hgrown⟩
      · rw [not_or] at hk
        rw [Function.update_of_ne hk.2, Function.update_of_ne hk.1]
        exact ⟨rfl, List.disjoint_append_right.mpr ⟨hrep.apart k j hk.2, hrep.apart k i hk.1⟩⟩
      · rintro k l (rfl | rfl) (rfl | rfl) hkl
        · exact absurd rfl hkl
        · rw [hi, Function.update_self]
          exact hij
        · rw [hi, Function.update_self]
          exact hij.symm
        · exact absurd rfl hkl

/-- A list that is sorted and then freed of duplicates holds the first element of each class, in
increasing order, and the other list has got the others. -/
theorem sort_unique_represents (horder : WeakOrder less) (hrep : Represents links lists contents)
    (hne : i ≠ j) (hrounds : (contents i).length < rounds) :
    ∃ links₁ links' kept taken, listSort less rounds rounds links (lists i) = .ok links₁ ∧
      listUnique less rounds links₁ (lists i) (some (lists j)) = .ok links' ∧
      Represents links' lists (Function.update (Function.update contents i kept) j
        (contents j ++ taken)) ∧
      (kept ++ taken).Perm (contents i) ∧ (kept.Pairwise fun a b => less a b = true) ∧
      (∀ x ∈ contents i, ∃ k ∈ kept, less x k = false ∧ less k x = false) ∧
      ∀ k ∈ kept, (alike less k (contents i)).head? = some k := by
  obtain ⟨links₁, hsort, hrep₁⟩ := sort_represents horder hrep hrounds
  have hperm : (sorted less (contents i)).Perm (contents i) := List.mergeSort_perm _ _
  have hcontents : Function.update contents i (sorted less (contents i)) i =
      sorted less (contents i) := Function.update_self _ _ _
  obtain ⟨links', hunique, hrep'⟩ := @unique_represents _ _ _ _ links₁ lists _ less rounds i
    (some j) hrep₁ (fun heq => hne (Option.some.inj heq).symm)
    (by rwa [hcontents, hperm.length_eq])
  rw [hcontents, Function.update_idem, appendTo, Option.elim_some,
    Function.update_of_ne (Ne.symm hne)] at hrep'
  refine ⟨links₁, links', _, _, hsort, hunique, hrep', (distinct_perm less _).trans hperm, ?_⟩
  have hsorted := horder.sorted_sorted (contents i)
  have halike := horder.alike_sorted (contents i)
  have hmem : ∀ x, x ∈ contents i ↔ x ∈ sorted less (contents i) := fun x => hperm.mem_iff.symm
  generalize sorted less (contents i) = ys at hsorted halike hmem
  cases ys with
  | nil =>
      refine ⟨.nil, fun x hx => ?_, fun k hk => ?_⟩
      · cases (hmem x).mp hx
      · cases hk
  | cons a rest =>
      refine ⟨uniq_increasing horder hsorted, fun x hx => exists_kept horder ((hmem x).mp hx), ?_⟩
      intro k hk
      rw [← halike]
      exact kept_first horder hsorted hk

/-- 21 and 11 have the same last digit. -/
theorem sort_unique_represents_digits :
    ∃ links₁ links' kept taken, listSort (fun a b => decide (a % 10 < b % 10)) 4 4
        ⟨fun n => [(21, 0), (11, 21), (30, 11), (1, 30), (3, 2)].lookup n,
          fun n => [(0, 21), (21, 11), (11, 30), (30, 1), (2, 3)].lookup n⟩ ⟨0, 1⟩ = .ok links₁ ∧
      listUnique (fun a b => decide (a % 10 < b % 10)) 4 links₁ ⟨0, 1⟩ (some ⟨2, 3⟩) =
        .ok links' ∧
      Represents links' (fun i => cond i ⟨2, 3⟩ ⟨0, 1⟩)
        (Function.update (Function.update (fun i => cond i [] [21, 11, 30]) false kept) true
          ([] ++ taken)) ∧
      (kept ++ taken).Perm [21, 11, 30] ∧
      (kept.Pairwise fun a b => decide (a % 10 < b % 10) = true) ∧
      (∀ x ∈ [21, 11, 30], ∃ k ∈ kept,
        decide (x % 10 < k % 10) = false ∧ decide (k % 10 < x % 10) = false) ∧
      ∀ k ∈ kept, (alike (fun a b => decide (a % 10 < b % 10)) k [21, 11, 30]).head? = some k := by
  refine @sort_unique_represents Bool ℕ _ _ _ (fun i => cond i ⟨2, 3⟩ ⟨0, 1⟩)
    (fun i => cond i [] [21, 11, 30]) _ 4 false true weakOrder_digit ⟨fun i => ?_, fun i j hne => ?_⟩
    (by decide) (by decide)
  · cases i
    · exact ⟨rfl, rfl, by simp [Ends.nodes, Links.Linked, List.lookup], by decide⟩
    · exact ⟨rfl, rfl, by simp [Ends.nodes, Links.Linked, List.lookup], by decide⟩
  · cases i <;> cases j <;> first | exact absurd rfl hne | simp [Ends.nodes]

/-- A call does to the lists what its effect says of the sequences. -/
theorem Effect.run {call : Call Index Node} {answer : Option Node}
    (heffect : Effect lists contents call answer contents')
    (hrep : Represents links lists contents) (hrounds : ∀ i, (contents i).length < rounds) :
    ∃ links', call.run rounds lists links = .ok (answer, links') ∧
      Represents links' lists contents' := by
  cases heffect with
  | insert hplace hfree =>
      obtain ⟨links', hrun, hrep'⟩ := insert_represents hrep hplace hfree
      exact ⟨links', by rw [Call.run, hrun]; rfl, hrep'⟩
  | splice hsource hplace =>
      obtain ⟨links', hrun, hrep'⟩ := splice_represents hrep hsource hplace
      exact ⟨links', by rw [Call.run, hrun]; rfl, hrep'⟩
  | @spliceNothing i left right elem hplace =>
      have hholds := hrep.holds i
      rw [hplace] at hholds
      refine ⟨links, ?_, hrep⟩
      rw [Call.run, listSplice, before_ok hholds]
      simp
  | @pushFront i elem hfree =>
      obtain ⟨links', hrun, hrep'⟩ := @insert_represents _ _ _ _ links lists contents []
        (contents i) elem i hrep rfl hfree
      refine ⟨links', ?_, hrep'⟩
      rw [Call.run, listPushFront, listBegin_eq (hrep.holds i), hrun]
      rfl
  | @pushBack i elem hfree =>
      obtain ⟨links', hrun, hrep'⟩ := @insert_represents _ _ _ _ links lists contents
        (contents i) [] elem i hrep (List.append_nil _).symm hfree
      refine ⟨links', ?_, hrep'⟩
      rw [Call.run, listPushBack]
      exact congrArg (· >>= fun links => Except.ok (none, links)) hrun
  | remove hplace => exact remove_represents hrep hplace
  | @popFront i elem right hplace =>
      have hholds := hrep.holds i
      rw [hplace] at hholds
      obtain ⟨links', hremove, hrep'⟩ := @remove_represents _ _ _ _ links lists contents [] right
        elem i hrep hplace
      refine ⟨links', ?_, hrep'⟩
      have hpop := (listPopFront_spec hholds).1
      obtain rfl : links.cut (lists i).head ((lists i).first right) = links' := by
        have hcut := (@listRemove_spec _ _ links (lists i) [] right elem hholds).1
        rw [hremove] at hcut
        simpa using hcut.symm
      rw [Call.run, hpop]
  | @popBack i left elem hplace =>
      have hholds := hrep.holds i
      rw [hplace] at hholds
      obtain ⟨links', hremove, hrep'⟩ := remove_represents hrep hplace
      rw [List.append_nil] at hrep'
      refine ⟨links', ?_, hrep'⟩
      have hpop := (listPopBack_spec hholds).1
      obtain rfl : links.cut ((lists i).last left) (lists i).tail = links' := by
        have hcut := (listRemove_spec hholds).1
        rw [hremove] at hcut
        simpa using hcut.symm
      rw [Call.run, hpop]
  | reverse =>
      obtain ⟨links', hrun, hrep'⟩ := reverse_represents hrep (hrounds _)
      exact ⟨links', by rw [Call.run, hrun]; rfl, hrep'⟩
  | sort horder =>
      obtain ⟨links', hrun, hrep'⟩ := sort_represents horder hrep (hrounds _)
      exact ⟨links', by rw [Call.run, hrun]; rfl, hrep'⟩
  | insertOrdered hfree =>
      obtain ⟨links', hrun, hrep'⟩ := insertOrdered_represents hrep hfree (hrounds _)
      exact ⟨links', by rw [Call.run, hrun]; rfl, hrep'⟩
  | unique hother =>
      obtain ⟨links', hrun, hrep'⟩ := unique_represents hrep hother (hrounds _)
      exact ⟨links', by rw [Call.run, hrun]; rfl, hrep'⟩
  | max horder hbest =>
      refine ⟨links, ?_, hrep⟩
      rw [Call.run, listMax, listBest_eq horder (hrep.holds _) hbest (hrounds _)]
      rfl
  | min horder hbest =>
      refine ⟨links, ?_, hrep⟩
      rw [Call.run, listMin, listBest_eq horder.flip (hrep.holds _) hbest (hrounds _)]
      rfl

/-! ## Runs -/

/-- No other elements get into the lists. -/
theorem Effect.contents_subset {call : Call Index Node} {answer : Option Node}
    (heffect : Effect lists contents call answer contents') (hsub : ∀ i, contents i ⊆ nodes) :
    ∀ i, contents' i ⊆ call.inserted ++ nodes := by
  have hall : ∀ i, contents i ⊆ call.inserted ++ nodes := fun i =>
    List.subset_append_of_subset_right _ (hsub i)
  cases heffect with
  | @insert i left right elem hplace =>
      refine update_subset hall fun node hnode => ?_
      have hi := @hsub i node
      rw [hplace] at hi
      simp only [Call.inserted, List.mem_append, List.mem_cons] at hnode hi ⊢
      tauto
  | @splice i j left segment right left' right' first hsource hplace =>
      have hi := hsub i
      rw [hsource] at hi
      have hcut : ∀ k, Function.update contents i (left ++ right) k ⊆ nodes :=
        update_subset hsub fun node hnode => hi (by
          simp only [List.mem_append] at hnode ⊢
          tauto)
      refine update_subset hcut fun node hnode => ?_
      have hj := @hcut j node
      have hnode' := @hi node
      rw [hplace] at hj
      simp only [List.mem_append] at hnode hnode' hj ⊢
      tauto
  | spliceNothing => exact hall
  | @pushFront i elem =>
      refine update_subset hall (List.cons_subset.mpr ⟨List.mem_cons_self, hall i⟩)
  | @pushBack i elem =>
      refine update_subset hall (List.append_subset.mpr ⟨hall i, ?_⟩)
      exact List.cons_subset.mpr ⟨List.mem_cons_self, List.nil_subset _⟩
  | @remove i left right elem hplace =>
      refine update_subset hsub fun node hnode => hsub i ?_
      simp only [hplace, List.mem_append, List.mem_cons] at hnode ⊢
      tauto
  | @popFront i elem right hplace =>
      exact update_subset hsub fun node hnode => hsub i (hplace ▸ List.mem_cons_of_mem _ hnode)
  | @popBack i left elem hplace =>
      exact update_subset hsub fun node hnode => hsub i (hplace ▸ List.mem_append_left _ hnode)
  | @reverse i =>
      exact update_subset hsub fun node hnode => hsub i (List.mem_reverse.mp hnode)
  | @sort i =>
      exact update_subset hsub fun node hnode => hsub i (List.mem_mergeSort.mp hnode)
  | @insertOrdered i elem less =>
      refine update_subset hall fun node hnode => ?_
      obtain rfl | hnode := (List.mem_orderedInsert _).mp hnode
      · exact List.mem_append_left _ List.mem_cons_self
      · exact hall i hnode
  | @unique i duplicates less hother =>
      have hperm := (distinct_perm less (contents i)).subset
      have hkept : ∀ k, Function.update contents i (distinct less (contents i)).1 k ⊆ nodes :=
        update_subset hsub fun node hnode => hsub i (hperm (List.mem_append_left _ hnode))
      cases duplicates with
      | none => exact hkept
      | some j =>
          refine update_subset hkept (List.append_subset.mpr ⟨hkept j, fun node hnode => ?_⟩)
          exact hsub i (hperm (List.mem_append_right _ hnode))
  | max => exact hall
  | min => exact hall

/-- A program does to the lists what its calls do to the sequences. -/
theorem Trace.run {calls : List (Call Index Node)} {answers : List (Option Node)}
    (htrace : Trace lists contents calls answers contents')
    (hrep : Represents links lists contents) (hsub : ∀ i, contents i ⊆ nodes)
    (hrounds : nodes.length + calls.length < rounds) :
    ∃ links', runAll rounds lists links calls = .ok (answers, links') ∧
      Represents links' lists contents' := by
  induction htrace generalizing links nodes with
  | nil => exact ⟨links, rfl, hrep⟩
  | @cons contents contents' contents'' call answer calls answers heffect htrace ih =>
      rw [List.length_cons] at hrounds
      have hbound : nodes.length < rounds := by omega
      obtain ⟨links₁, hcall, hrep₁⟩ := heffect.run hrep fun i =>
        (hrep.length_le hsub i).trans_lt hbound
      have hlength : (call.inserted ++ nodes).length + calls.length < rounds := by
        have := call.inserted_length
        rw [List.length_append]
        omega
      obtain ⟨links', hrest, hrep'⟩ := ih hrep₁ (heffect.contents_subset hsub) hlength
      refine ⟨links', ?_, hrep'⟩
      rw [runAll, hcall, ok_bind]
      exact congrArg (· >>= fun rest => Except.ok (answer :: rest.1, rest.2)) hrest

end Steps

section Programs

variable {links : Links Node} {lists : Index → Ends Node} {indices : List Index}

/-- All end nodes are different. -/
def Separate (lists : Index → Ends Node) : Prop :=
  Function.Injective (Sum.elim (fun i => (lists i).head) fun i => (lists i).tail)

theorem Separate.ends_ne (hends : Separate lists) (i j : Index) :
    (lists i).head ≠ (lists j).tail := by
  intro heq
  cases hends (show Sum.elim _ _ (Sum.inl i) = Sum.elim _ _ (Sum.inr j) from heq)

theorem Separate.apart (hends : Separate lists) {i j : Index} (hne : i ≠ j) :
    ((lists i).nodes []).Disjoint ((lists j).nodes []) := by
  have hheads : (lists i).head ≠ (lists j).head := fun heq =>
    hne (Sum.inl.inj (hends (show Sum.elim _ _ (Sum.inl i) = Sum.elim _ _ (Sum.inl j) from heq)))
  have htails : (lists i).tail ≠ (lists j).tail := fun heq =>
    hne (Sum.inr.inj (hends (show Sum.elim _ _ (Sum.inr i) = Sum.elim _ _ (Sum.inr j) from heq)))
  have hleft := hends.ends_ne i j
  have hright := hends.ends_ne j i
  intro node hnode hmem
  simp only [Ends.mem_nodes, List.not_mem_nil, false_or] at hnode hmem
  obtain rfl | rfl := hnode
  · exact hmem.elim hheads hleft
  · exact hmem.elim (fun heq => hright heq.symm) htails

variable [DecidableEq Node]

theorem listInit_same (links : Links Node) (list : Ends Node) :
    SameElsewhere (list.nodes []) links (listInit links list) := by
  intro node hnode
  simp only [Ends.mem_nodes, List.not_mem_nil, false_or, not_or] at hnode
  constructor
  · rw [listInit, Links.setNext_prev, Links.setPrev_of_ne _ _ hnode.2, Links.setNext_prev,
      Links.setPrev_of_ne _ _ hnode.1]
  · rw [listInit, Links.setNext_of_ne _ _ hnode.2, Links.setPrev_next,
      Links.setNext_of_ne _ _ hnode.1, Links.setPrev_next]

theorem initAll_holds (hends : Separate lists)
    (hlists : ∀ i, i ∈ indices ∨ Holds links (lists i) []) (i : Index) :
    Holds (initAll lists links indices) (lists i) [] := by
  induction indices generalizing links with
  | nil => exact (hlists i).resolve_left List.not_mem_nil
  | cons first rest ih =>
      refine ih fun j => ?_
      by_cases hj : j = first
      · exact .inr (hj ▸ listInit_holds links (hends.ends_ne j j))
      · obtain hmem | hholds := hlists j
        · exact .inl ((List.mem_cons.mp hmem).resolve_left hj)
        · exact .inr ((listInit_same links (lists first)).holds hholds (hends.apart hj))

theorem initAll_represents (hends : Separate lists) (hall : ∀ i, i ∈ indices) :
    Represents (initAll lists links indices) lists fun _ => [] :=
  ⟨initAll_holds hends fun i => .inl (hall i), fun _ _ hne => hends.apart hne⟩

/-- A program of list calls over initialised lists returns, with the answers and the sequences that
its calls describe, when the loops of each call may take more rounds than the program has calls. -/
theorem runAll_represents [DecidableEq Index] {contents : Index → List Node} {rounds : ℕ}
    {calls : List (Call Index Node)} {answers : List (Option Node)} (hends : Separate lists)
    (hall : ∀ i, i ∈ indices) (htrace : Trace lists (fun _ => []) calls answers contents)
    (hrounds : calls.length < rounds) :
    ∃ links', runAll rounds lists (initAll lists links indices) calls = .ok (answers, links') ∧
      Represents links' lists contents :=
  htrace.run (initAll_represents hends hall) (fun _ => List.Subset.refl _)
    (by simpa using hrounds)

/-- Two elements are pushed onto one list, which is sorted, and the first moves to the other list. -/
theorem runAll_represents_two :
    ∃ links', runAll 5 (fun i => cond i ⟨2, 3⟩ ⟨0, 1⟩)
        (initAll (fun i => cond i ⟨2, 3⟩ ⟨0, 1⟩) ⟨fun _ => none, fun _ => none⟩ [false, true])
        [.pushBack false 7, .pushFront false 9, .sort false fun a b => decide (a < b),
          .splice 3 7 9] = .ok ([none, none, none, none], links') ∧
      Represents links' (fun i => cond i ⟨2, 3⟩ ⟨0, 1⟩) fun i => cond i [7] [9] := by
  have hupdate : ∀ xs ys zs : List ℕ,
      Function.update (fun i => cond i ys xs) false zs = fun i => cond i ys zs := by
    intro xs ys zs
    funext i
    cases i <;> rfl
  have hupdate' : ∀ xs ys zs : List ℕ,
      Function.update (fun i => cond i ys xs) true zs = fun i => cond i zs xs := by
    intro xs ys zs
    funext i
    cases i <;> rfl
  have hsorted : sorted (fun a b => decide (a < b)) [9, 7] = [7, 9] := by
    simp [sorted, List.mergeSort, List.MergeSort.Internal.splitInTwo]
  have horder : WeakOrder fun a b : ℕ => decide (a < b) :=
    ⟨fun a b hab => by simp at hab ⊢; omega, fun a b c hac => by simp at hac ⊢; omega⟩
  generalize hlists : (fun i => cond i (Ends.mk 2 3) ⟨0, 1⟩) = lists
  have hends : Separate lists := by
    subst hlists
    unfold Separate
    decide
  have hback := @Effect.pushBack _ _ _ lists (fun i => cond i [] []) false 7
    (by subst hlists; rintro (_ | _) <;> decide)
  have hfront := @Effect.pushFront _ _ _ lists (fun i => cond i [] [7]) false 9
    (by subst hlists; rintro (_ | _) <;> decide)
  have hsort := @Effect.sort _ _ _ lists (fun i => cond i [] [9, 7]) false _ horder
  have hsplice := @Effect.splice _ _ _ lists (fun i => cond i [] [7, 9]) false true [] [] [9] [] []
    7 rfl rfl
  have hempty : (fun i => cond i [] []) = fun _ => ([] : List ℕ) := by
    funext i
    cases i <;> rfl
  rw [hupdate] at hback hfront hsort
  rw [hempty] at hback
  rw [cond_false, hsorted] at hsort
  rw [hupdate, hupdate'] at hsplice
  subst hlists
  exact runAll_represents hends (by decide)
    (.cons hback (.cons hfront (.cons hsort (.cons hsplice .nil)))) (by decide)

end Programs

end Painting.KernelList
