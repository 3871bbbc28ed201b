import Painting.Lib.List

/-!
# What the list operations do

On a list that holds `xs` each operation is the edit of a sequence.  The place before which an
element goes is the first node of the rest of the list, which is the tail when there is no rest.
-/

namespace Painting.KernelList

open Painting.LinkedList

variable {Node : Type}

@[simp]
theorem ok_bind {α β : Type} (a : α) (f : α → Except Stop β) : (Except.ok a >>= f) = f a := rfl

theorem bind_eq_ok {α β : Type} {x : Except Stop α} {f : α → Except Stop β} {b : β}
    (hbind : x >>= f = .ok b) : ∃ a, x = .ok a ∧ f a = .ok b := by
  cases x with
  | error stop => cases hbind
  | ok a => exact ⟨a, rfl, hbind⟩

@[simp]
theorem assert_true : assert true = .ok () := rfl

@[simp]
theorem follow_some (elem : Node) : follow (some elem) = .ok elem := rfl

section Reads

variable {links : Links Node} {list : Ends Node} {xs left mid right : List Node} {elem : Node}

/-! ## Reading -/

/-- There is a node before every place. -/
theorem isInterior_or_isTail (links : Links Node) (elem : Node) :
    (isInterior links (some elem) || isTail links (some elem)) = (links.prev elem).isSome := by
  rw [isInterior, isTail]
  cases links.next elem <;> simp

theorem before_ok (hholds : Holds links list (left ++ right)) :
    (isInterior links (some (list.first right)) || isTail links (some (list.first right))) =
      true := by
  rw [isInterior_or_isTail, hholds.prev_first]
  rfl

theorem isInterior_of_holds (hholds : Holds links list (left ++ elem :: right)) :
    isInterior links (some elem) = true := by
  obtain ⟨hprev, hnext⟩ := hholds.neighbours
  rw [isInterior, hprev, hnext]
  rfl

theorem listBegin_eq (hholds : Holds links list xs) :
    listBegin links list = some (list.first xs) :=
  hholds.next_head

theorem listNext_eq (hholds : Holds links list (left ++ elem :: right)) :
    listNext links (some elem) = .ok (some (list.first right)) := by
  rw [listNext, isInterior_of_holds hholds, Bool.or_true, assert_true, ok_bind, follow_some, ok_bind,
    hholds.neighbours.2]

theorem listPrev_eq (hholds : Holds links list (left ++ right)) :
    listPrev links (some (list.first right)) = .ok (some (list.last left)) := by
  rw [listPrev, before_ok hholds, assert_true, ok_bind, follow_some, ok_bind,
    hholds.prev_first]

theorem first_eq_tail_iff (hholds : Holds links list (left ++ right)) :
    list.first right = list.tail ↔ right = [] := by
  cases right with
  | nil => exact iff_of_true rfl rfl
  | cons elem right => exact iff_of_false hholds.first_ne_tail (List.cons_ne_nil _ _)

theorem atEnd_iff [DecidableEq Node] (hholds : Holds links list (left ++ right)) :
    some (list.first right) = listEnd list ↔ right = [] := by
  rw [listEnd, Option.some_inj]
  exact first_eq_tail_iff hholds

/-- Two places of a list are the same when nothing is between them. -/
theorem first_append_eq_iff (hholds : Holds links list (left ++ (mid ++ right))) :
    list.first (mid ++ right) = list.first right ↔ mid = [] := by
  cases mid with
  | nil => exact iff_of_true rfl rfl
  | cons elem mid =>
      refine iff_of_false (fun heq => ?_) (List.cons_ne_nil _ _)
      obtain ⟨before, after, -, -, hnodes⟩ := list.nodes_split left right
      have hnodup := hholds.nodup
      rw [hnodes] at hnodup
      exact (nodup_around hnodup).2.2.1 (heq ▸ List.mem_cons_self)

end Reads

section Edits

variable [DecidableEq Node] {links : Links Node} {list : Ends Node} {xs left right : List Node}
  {elem : Node}

theorem listEmpty_eq (hholds : Holds links list xs) : listEmpty links list = decide (xs = []) := by
  rw [listEmpty, listBegin_eq hholds]
  exact decide_eq_decide.mpr (@atEnd_iff _ links list [] xs _ hholds)

/-! ## Initialisation -/

theorem listInit_holds (links : Links Node) (hne : list.head ≠ list.tail) :
    Holds (listInit links list) list [] := by
  refine ⟨?_, ?_, ?_, by simpa [Ends.nodes] using hne⟩
  · rw [listInit, Links.setNext_prev, Links.setPrev_of_ne _ _ hne, Links.setNext_prev,
      Links.setPrev_self]
  · rw [listInit, Links.setNext_self]
  · refine List.isChain_cons_cons.mpr ⟨⟨?_, ?_⟩, .singleton _⟩
    · rw [listInit, Links.setNext_of_ne _ _ hne, Links.setPrev_next, Links.setNext_self]
    · rw [listInit, Links.setNext_prev, Links.setPrev_self]

/-! ## Insertion -/

/-- The element is put before a place. -/
theorem listInsert_spec (hholds : Holds links list (left ++ right))
    (hout : elem ∉ list.nodes (left ++ right)) :
    listInsert links (some (list.first right)) (some elem) =
        .ok (links.paste (list.last left) elem elem (list.first right)) ∧
      Holds (links.paste (list.last left) elem elem (list.first right)) list
        (left ++ elem :: right) := by
  have hne : list.first right ≠ elem := by
    rintro rfl
    refine hout ?_
    have hmem := list.first_mem right
    rw [Ends.mem_nodes]
    rw [List.mem_append, List.mem_singleton] at hmem
    exact .inr (hmem.imp_left (List.mem_append_right _))
  constructor
  · rw [listInsert, before_ok hholds]
    simp only [assert_true, ok_bind, Option.isSome_some, follow_some, hholds.prev_first,
      Links.setNext_prev, Links.setPrev_of_ne _ _ hne]
    rfl
  · have hnodup := (list.nodes_middle elem left right).nodup_iff
    exact hholds.paste (.singleton _) (hnodup.mpr (List.nodup_cons.mpr ⟨hout, hholds.nodup⟩))

theorem listPushFront_spec (hholds : Holds links list xs) (hout : elem ∉ list.nodes xs) :
    listPushFront links list (some elem) =
        .ok (links.paste list.head elem elem (list.first xs)) ∧
      Holds (links.paste list.head elem elem (list.first xs)) list (elem :: xs) := by
  rw [listPushFront, listBegin_eq hholds]
  exact @listInsert_spec _ _ links list [] xs elem hholds hout

theorem listPushBack_spec (hholds : Holds links list xs) (hout : elem ∉ list.nodes xs) :
    listPushBack links list (some elem) =
        .ok (links.paste (list.last xs) elem elem list.tail) ∧
      Holds (links.paste (list.last xs) elem elem list.tail) list (xs ++ [elem]) :=
  @listInsert_spec _ _ links list xs [] elem (by rwa [List.append_nil])
    (by rwa [List.append_nil])

/-! ## Removal -/

/-- The element is taken out, and the node after it returned. -/
theorem listRemove_spec (hholds : Holds links list (left ++ elem :: right)) :
    listRemove links (some elem) =
        .ok (some (list.first right), links.cut (list.last left) (list.first right)) ∧
      Holds (links.cut (list.last left) (list.first right)) list (left ++ right) := by
  obtain ⟨hprev, hnext⟩ := hholds.neighbours
  have hne : elem ≠ list.last left := by
    obtain ⟨before, after, -, -, hnodes⟩ := list.nodes_split left right
    have hnodup := hholds.nodup
    rw [show left ++ elem :: right = left ++ ([elem] ++ right) from rfl, hnodes] at hnodup
    rintro rfl
    exact (nodup_around hnodup).1.2.1 (List.mem_singleton_self _)
  constructor
  · rw [listRemove, isInterior_of_holds hholds]
    simp only [assert_true, ok_bind, follow_some, hprev, hnext, Links.setNext_of_ne _ _ hne,
      Links.setNext_prev, Links.setPrev_next]
    rfl
  · exact (@Holds.cut _ _ links list left right [elem] hholds).1

theorem listPopFront_spec (hholds : Holds links list (elem :: right)) :
    listPopFront links list = .ok (some elem, links.cut list.head (list.first right)) ∧
      Holds (links.cut list.head (list.first right)) list right := by
  obtain ⟨hremove, hafter⟩ := @listRemove_spec _ _ links list [] right elem hholds
  refine ⟨?_, hafter⟩
  rw [listPopFront, listFront, listEmpty_eq hholds]
  simp only [reduceCtorEq, decide_false, Bool.not_false, assert_true, ok_bind, hholds.next_head,
    Ends.first_cons]
  rw [hremove]
  rfl

theorem listPopBack_spec (hholds : Holds links list (left ++ [elem])) :
    listPopBack links list = .ok (some elem, links.cut (list.last left) list.tail) ∧
      Holds (links.cut (list.last left) list.tail) list left := by
  obtain ⟨hremove, hafter⟩ := @listRemove_spec _ _ links list left [] elem hholds
  rw [List.append_nil] at hafter
  refine ⟨?_, hafter⟩
  rw [listPopBack, listBack, listEmpty_eq hholds]
  simp only [List.append_eq_nil_iff, List.cons_ne_self, and_false, decide_false, Bool.not_false,
    assert_true, ok_bind, hholds.prev_tail, Ends.last_concat]
  rw [hremove]
  rfl

/-! ## Splicing -/

/-- The elements from `first` on are taken out of one list and put into what is then another, or the
same, before a place. -/
theorem listSplice_spec {src dst : Ends Node} {left' right' segment : List Node} {first : Node}
    (hsrc : Holds links src (left ++ (first :: segment ++ right)))
    (hdst : Holds (links.cut (src.last left) (src.first right)) dst (left' ++ right'))
    (hnodup : (dst.nodes (left' ++ (first :: segment ++ right'))).Nodup) :
    ∃ links', listSplice links (some (dst.first right')) (some first) (some (src.first right)) =
        .ok links' ∧
      links' = (links.cut (src.last left) (src.first right)).paste (dst.last left') first
        ((first :: segment).getLast (by simp)) (dst.first right') ∧
      Holds links' dst (left' ++ (first :: segment ++ right')) := by
  obtain ⟨-, hsegment⟩ := hsrc.cut
  refine ⟨_, ?_, rfl, hdst.paste hsegment hnodup⟩
  have hlast := src.last_append_cons left first segment
  have hend : first :: segment =
      (first :: segment).dropLast ++ [(first :: segment).getLast (by simp)] :=
    (List.dropLast_append_getLast _).symm
  generalize (first :: segment).getLast (by simp) = last at *
  have hfirst : links.prev first = some (src.last left) ∧
      isInterior links (some first) = true := by
    rw [List.cons_append] at hsrc
    exact ⟨hsrc.neighbours.1, isInterior_of_holds hsrc⟩
  have hprevLast : listPrev links (some (src.first right)) = .ok (some last) := by
    rw [← List.append_assoc] at hsrc
    rw [listPrev_eq hsrc, hlast]
  have hlastNode : links.next last = some (src.first right) ∧
      isInterior links (some last) = true := by
    rw [hend, ← List.append_assoc, ← List.append_assoc, List.append_assoc _ [last] right] at hsrc
    exact ⟨hsrc.neighbours.2, isInterior_of_holds hsrc⟩
  -- The three nodes at which the edits could meet are apart.
  obtain ⟨before, after, -, -, hnodes⟩ := src.nodes_split left right
  have hapart := hsrc.nodup
  rw [hnodes] at hapart
  obtain ⟨⟨-, hpSegment, -, -⟩, -, hnSegment, -⟩ := nodup_around hapart
  have hlastMem : last ∈ first :: segment := by
    rw [hend]
    simp
  have hneEnd : some first ≠ some (src.first right) := fun heq =>
    hnSegment (Option.some.inj heq ▸ List.mem_cons_self)
  have hneLast : last ≠ src.last left := fun heq => hpSegment (heq ▸ hlastMem)
  have hneBefore : dst.first right' ≠ first := by
    intro heq
    have hmem := dst.first_mem right'
    rw [heq] at hmem
    have hsplit : dst.nodes (left' ++ (first :: segment ++ right')) =
        (dst.head :: left') ++ first :: (segment ++ (right' ++ [dst.tail])) := by
      simp [Ends.nodes]
    rw [hsplit] at hnodup
    exact (List.nodup_cons.mp (List.nodup_append.mp hnodup).2.1).1 (List.mem_append_right _ hmem)
  have hbefore : (isInterior links (some (dst.first right')) ||
      isTail links (some (dst.first right'))) = true := by
    rw [isInterior_or_isTail]
    by_cases heq : dst.first right' = src.first right
    · rw [← List.append_assoc] at hsrc
      rw [heq, hsrc.prev_first]
      rfl
    · rw [← links.cut_prev_of_ne heq, hdst.prev_first]
      rfl
  rw [listSplice, hbefore, assert_true, ok_bind, if_neg hneEnd, hprevLast]
  simp only [ok_bind, hfirst.2, hlastNode.2, assert_true, follow_some, hfirst.1, hlastNode.1,
    Links.setNext_of_ne _ _ hneLast, Links.setNext_prev]
  change (do
    let links₁ := links.cut (src.last left) (src.first right)
    let links₂ := (links₁.setPrev first (links₁.prev (dst.first right'))).setNext last
      (some (dst.first right'))
    let prev ← follow (links₂.prev (dst.first right'))
    .ok ((links₂.setNext prev (some first)).setPrev (dst.first right') (some last))) = _
  simp only [hdst.prev_first, Links.setNext_prev, Links.setPrev_of_ne _ _ hneBefore, follow_some,
    ok_bind]
  rfl

end Edits

end Painting.KernelList
