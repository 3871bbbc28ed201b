import Mathlib

/-!
# Doubly linked lists with two end nodes

Nodes carry a link in each direction.  A list has a node of its own at each end, and between them
the nodes that it holds.  Two edits, each of four or two links, make up all others: a segment is cut
out of a list, or pasted in between two neighbours.
-/

namespace Painting.LinkedList

variable {Node : Type*}

/-- The links of all nodes. -/
structure Links (Node : Type*) where
  prev : Node → Option Node
  next : Node → Option Node

/-- The end nodes of a list. -/
structure Ends (Node : Type*) where
  head : Node
  tail : Node

namespace Links

section Edit

variable [DecidableEq Node]

def setPrev (links : Links Node) (node : Node) (link : Option Node) : Links Node :=
  { links with prev := Function.update links.prev node link }

def setNext (links : Links Node) (node : Node) (link : Option Node) : Links Node :=
  { links with next := Function.update links.next node link }

@[simp]
theorem setPrev_next (links : Links Node) (node : Node) (link : Option Node) :
    (links.setPrev node link).next = links.next := rfl

@[simp]
theorem setNext_prev (links : Links Node) (node : Node) (link : Option Node) :
    (links.setNext node link).prev = links.prev := rfl

@[simp]
theorem setPrev_self (links : Links Node) (node : Node) (link : Option Node) :
    (links.setPrev node link).prev node = link :=
  Function.update_self _ _ _

@[simp]
theorem setNext_self (links : Links Node) (node : Node) (link : Option Node) :
    (links.setNext node link).next node = link :=
  Function.update_self _ _ _

theorem setPrev_of_ne (links : Links Node) {node other : Node} (link : Option Node)
    (hne : other ≠ node) : (links.setPrev node link).prev other = links.prev other :=
  Function.update_of_ne hne _ _

theorem setNext_of_ne (links : Links Node) {node other : Node} (link : Option Node)
    (hne : other ≠ node) : (links.setNext node link).next other = links.next other :=
  Function.update_of_ne hne _ _

end Edit

/-- The two nodes are neighbours. -/
def Linked (links : Links Node) (left right : Node) : Prop :=
  links.next left = some right ∧ links.prev right = some left

/-- The links between the nodes of a segment are the only ones that matter to it. -/
theorem isChain_congr {links links' : Links Node} {nodes : List Node}
    (hchain : nodes.IsChain links.Linked)
    (hnext : ∀ node ∈ nodes.dropLast, links'.next node = links.next node)
    (hprev : ∀ node ∈ nodes.tail, links'.prev node = links.prev node) :
    nodes.IsChain links'.Linked := by
  induction nodes with
  | nil => exact .nil
  | cons left rest ih =>
      cases rest with
      | nil => exact .singleton _
      | cons right rest =>
          obtain ⟨hlinked, hrest⟩ := List.isChain_cons_cons.mp hchain
          refine List.isChain_cons_cons.mpr ⟨⟨?_, ?_⟩, ih hrest (fun node hnode => ?_)
            fun node hnode => ?_⟩
          · rw [hnext left (by simp), hlinked.1]
          · rw [hprev right (by simp), hlinked.2]
          · exact hnext node (by rw [List.dropLast_cons_cons]; exact List.mem_cons_of_mem _ hnode)
          · exact hprev node (List.mem_of_mem_tail hnode)

end Links

/-! ## What a list holds -/

/-- All nodes of the list that holds `xs`. -/
def Ends.nodes (ends : Ends Node) (xs : List Node) : List Node :=
  ends.head :: (xs ++ [ends.tail])

/-- The node from which `xs` goes on to the end of the list. -/
def Ends.first (ends : Ends Node) (xs : List Node) : Node := xs.headD ends.tail

/-- The node up to which `xs` goes from the beginning of the list. -/
def Ends.last (ends : Ends Node) (xs : List Node) : Node := xs.getLastD ends.head

/-- The list holds `xs`. -/
structure Holds (links : Links Node) (ends : Ends Node) (xs : List Node) : Prop where
  front : links.prev ends.head = none
  back : links.next ends.tail = none
  chain : (ends.nodes xs).IsChain links.Linked
  nodup : (ends.nodes xs).Nodup

section Holds

variable {links links' : Links Node} {ends : Ends Node} {xs left right segment : List Node}
  {node : Node}

@[simp]
theorem Ends.mem_nodes : node ∈ ends.nodes xs ↔ node = ends.head ∨ node ∈ xs ∨ node = ends.tail := by
  simp [Ends.nodes]

@[simp]
theorem Ends.first_nil (ends : Ends Node) : ends.first [] = ends.tail := rfl

@[simp]
theorem Ends.first_cons (ends : Ends Node) (node : Node) (xs : List Node) :
    ends.first (node :: xs) = node := rfl

@[simp]
theorem Ends.last_nil (ends : Ends Node) : ends.last [] = ends.head := rfl

@[simp]
theorem Ends.last_concat (ends : Ends Node) (xs : List Node) (node : Node) :
    ends.last (xs ++ [node]) = node := by
  rw [Ends.last, List.getLastD_eq_getLast?, List.getLast?_concat]
  rfl

theorem Ends.last_append_cons (ends : Ends Node) (left : List Node) (node : Node) (xs : List Node) :
    ends.last (left ++ node :: xs) = (node :: xs).getLast (by simp) := by
  rw [Ends.last, List.getLastD_eq_getLast?, List.getLast?_append_of_ne_nil _ (by simp),
    List.getLast?_eq_some_getLast (by simp)]
  rfl

theorem Ends.nodes_perm (ends : Ends Node) {ys : List Node} (hperm : xs.Perm ys) :
    (ends.nodes xs).Perm (ends.nodes ys) :=
  (hperm.append_right _).cons _

theorem Ends.nodes_middle (ends : Ends Node) (node : Node) (left right : List Node) :
    (ends.nodes (left ++ node :: right)).Perm (node :: ends.nodes (left ++ right)) :=
  (ends.nodes_perm List.perm_middle).trans (.swap _ _ _)

theorem Ends.first_mem_nodes (ends : Ends Node) (left right : List Node) :
    ends.first right ∈ ends.nodes (left ++ right) := by
  cases right with
  | nil => simp
  | cons node right => simp

theorem Ends.last_mem_nodes (ends : Ends Node) (left right : List Node) :
    ends.last left ∈ ends.nodes (left ++ right) := by
  obtain rfl | ⟨xs, node, rfl⟩ := left.eq_nil_or_concat
  · simp
  · rw [List.concat_eq_append, Ends.last_concat]
    simp

theorem Ends.first_mem (ends : Ends Node) (xs : List Node) : ends.first xs ∈ xs ++ [ends.tail] := by
  cases xs with
  | nil => exact List.mem_singleton_self _
  | cons node xs => exact List.mem_cons_self

theorem Ends.last_mem (ends : Ends Node) (xs : List Node) : ends.last xs ∈ ends.head :: xs := by
  obtain rfl | ⟨xs, node, rfl⟩ := xs.eq_nil_or_concat
  · exact List.mem_singleton_self _
  · rw [List.concat_eq_append, Ends.last_concat]
    simp

/-- A place in a list is between two nodes. -/
theorem Ends.nodes_split (ends : Ends Node) (left right : List Node) :
    ∃ before after, ends.head :: left = before ++ [ends.last left] ∧
      right ++ [ends.tail] = ends.first right :: after ∧
      ∀ segment, ends.nodes (left ++ (segment ++ right)) =
        before ++ ends.last left :: (segment ++ ends.first right :: after) := by
  have hbefore : ∃ before, ends.head :: left = before ++ [ends.last left] := by
    obtain rfl | ⟨xs, node, rfl⟩ := left.eq_nil_or_concat
    · exact ⟨[], rfl⟩
    · exact ⟨ends.head :: xs, by rw [List.concat_eq_append, Ends.last_concat, List.cons_append]⟩
  have hafter : ∃ after, right ++ [ends.tail] = ends.first right :: after := by
    cases right with
    | nil => exact ⟨[], rfl⟩
    | cons node xs => exact ⟨xs ++ [ends.tail], rfl⟩
  obtain ⟨before, hbefore⟩ := hbefore
  obtain ⟨after, hafter⟩ := hafter
  refine ⟨before, after, hbefore, hafter, fun segment => ?_⟩
  calc ends.nodes (left ++ (segment ++ right))
      = (ends.head :: left) ++ (segment ++ (right ++ [ends.tail])) := by simp [Ends.nodes]
    _ = before ++ ends.last left :: (segment ++ ends.first right :: after) := by
        rw [hbefore, hafter, List.append_assoc]
        rfl

theorem Holds.congr (hholds : Holds links ends xs)
    (hprev : ∀ node ∈ ends.nodes xs, links'.prev node = links.prev node)
    (hnext : ∀ node ∈ ends.nodes xs, links'.next node = links.next node) : Holds links' ends xs := by
  refine ⟨(hprev _ (by simp)).trans hholds.front, (hnext _ (by simp)).trans hholds.back, ?_,
    hholds.nodup⟩
  exact Links.isChain_congr hholds.chain (fun node hnode => hnext node (List.mem_of_mem_dropLast hnode))
    fun node hnode => hprev node (List.mem_of_mem_tail hnode)

/-- The links at a place in a list. -/
theorem Holds.linked (hholds : Holds links ends (left ++ right)) :
    links.Linked (ends.last left) (ends.first right) := by
  obtain ⟨before, after, -, -, hnodes⟩ := ends.nodes_split left right
  have hchain := hholds.chain
  rw [show left ++ right = left ++ ([] ++ right) from rfl, hnodes, List.nil_append] at hchain
  exact (List.isChain_append_cons_cons.mp hchain).2.1

theorem Holds.next_last (hholds : Holds links ends (left ++ right)) :
    links.next (ends.last left) = some (ends.first right) :=
  hholds.linked.1

theorem Holds.prev_first (hholds : Holds links ends (left ++ right)) :
    links.prev (ends.first right) = some (ends.last left) :=
  hholds.linked.2

theorem Holds.next_head (hholds : Holds links ends xs) :
    links.next ends.head = some (ends.first xs) :=
  @Holds.next_last _ links ends [] xs hholds

theorem Holds.prev_tail (hholds : Holds links ends xs) :
    links.prev ends.tail = some (ends.last xs) :=
  @Holds.prev_first _ links ends xs [] (by rwa [List.append_nil])

/-- The links of a node that the list holds. -/
theorem Holds.neighbours (hholds : Holds links ends (left ++ node :: right)) :
    links.prev node = some (ends.last left) ∧ links.next node = some (ends.first right) := by
  refine ⟨hholds.prev_first, ?_⟩
  have hnext := @Holds.next_last _ links ends (left ++ [node]) right (by simpa using hholds)
  rwa [Ends.last_concat] at hnext

theorem Holds.first_ne_tail (hholds : Holds links ends (left ++ node :: right)) :
    node ≠ ends.tail := by
  have hnodup := hholds.nodup
  rintro rfl
  simp [Ends.nodes, List.nodup_append] at hnodup

theorem Holds.head_ne_tail (hholds : Holds links ends xs) : ends.head ≠ ends.tail := by
  have hnodup := hholds.nodup
  intro heq
  simp [Ends.nodes, heq] at hnodup

/-- The two nodes at a place in a list without repetition are nowhere else. -/
theorem nodup_around {before after : List Node} {p n : Node}
    (hnodup : (before ++ p :: (segment ++ n :: after)).Nodup) :
    (p ∉ before ∧ p ∉ segment ∧ p ≠ n ∧ p ∉ after) ∧ n ∉ before ∧ n ∉ segment ∧ n ∉ after := by
  rw [List.nodup_append, List.nodup_cons, List.nodup_append, List.nodup_cons] at hnodup
  obtain ⟨-, ⟨hp, -, ⟨hn, -⟩, hsegment⟩, hbefore⟩ := hnodup
  simp only [List.mem_append, List.mem_cons, not_or] at hp
  refine ⟨⟨fun hmem => hbefore p hmem p (by simp) rfl, hp.1, hp.2.1, hp.2.2⟩,
    fun hmem => hbefore n hmem n (by simp) rfl, fun hmem => hsegment n hmem n (by simp) rfl, hn⟩

/-- The chains left and right of a place. -/
theorem isChain_parts {before after : List Node} {p n : Node}
    (hchain : (before ++ p :: (segment ++ n :: after)).IsChain links.Linked) :
    (before ++ [p]).IsChain links.Linked ∧ (n :: after).IsChain links.Linked := by
  obtain ⟨hstart, hrest⟩ := List.isChain_split.mp hchain
  exact ⟨hstart,
    (List.isChain_split.mp (show (p :: segment ++ n :: after).IsChain links.Linked from hrest)).2⟩

end Holds

/-! ## Other nodes -/

/-- Only links of these nodes have changed. -/
def SameElsewhere (nodes : List Node) (links links' : Links Node) : Prop :=
  ∀ node, node ∉ nodes → links'.prev node = links.prev node ∧ links'.next node = links.next node

section Elsewhere

variable {links links' links'' : Links Node} {ends : Ends Node} {xs nodes nodes' : List Node}

theorem SameElsewhere.refl (nodes : List Node) (links : Links Node) :
    SameElsewhere nodes links links := fun _ _ => ⟨rfl, rfl⟩

theorem SameElsewhere.trans (hleft : SameElsewhere nodes links links')
    (hright : SameElsewhere nodes links' links'') : SameElsewhere nodes links links'' :=
  fun node hnode => ⟨(hright node hnode).1.trans (hleft node hnode).1,
    (hright node hnode).2.trans (hleft node hnode).2⟩

theorem SameElsewhere.mono (hsame : SameElsewhere nodes links links') (hsub : nodes ⊆ nodes') :
    SameElsewhere nodes' links links' := fun node hnode => hsame node fun hmem => hnode (hsub hmem)

/-- A list without these nodes holds what it held. -/
theorem SameElsewhere.holds (hsame : SameElsewhere nodes links links')
    (hholds : Holds links ends xs) (hapart : (ends.nodes xs).Disjoint nodes) :
    Holds links' ends xs :=
  hholds.congr (fun _ hnode => (hsame _ (hapart hnode)).1) fun _ hnode => (hsame _ (hapart hnode)).2

end Elsewhere

/-! ## Cutting and pasting -/

section Edit

variable [DecidableEq Node] {links : Links Node} {ends : Ends Node}
  {left right segment : List Node} {node first last : Node}

/-- What is between two nodes is cut out. -/
def Links.cut (links : Links Node) (before after : Node) : Links Node :=
  (links.setNext before (some after)).setPrev after (some before)

/-- The segment from `first` to `last` is pasted in between two nodes. -/
def Links.paste (links : Links Node) (before first last after : Node) : Links Node :=
  (((links.setPrev first (some before)).setNext last (some after)).setNext before
    (some first)).setPrev after (some last)

theorem Links.cut_prev_of_ne (links : Links Node) {before after : Node} (hne : node ≠ after) :
    (links.cut before after).prev node = links.prev node := by
  rw [cut, setPrev_of_ne _ _ hne, setNext_prev]

theorem Links.cut_next_of_ne (links : Links Node) {before after : Node} (hne : node ≠ before) :
    (links.cut before after).next node = links.next node := by
  rw [cut, setPrev_next, setNext_of_ne _ _ hne]

theorem Links.paste_prev_of_ne (links : Links Node) {before after : Node} (hfirst : node ≠ first)
    (hafter : node ≠ after) : (links.paste before first last after).prev node = links.prev node := by
  rw [paste, setPrev_of_ne _ _ hafter, setNext_prev, setNext_prev, setPrev_of_ne _ _ hfirst]

theorem Links.paste_next_of_ne (links : Links Node) {before after : Node} (hlast : node ≠ last)
    (hbefore : node ≠ before) : (links.paste before first last after).next node = links.next node := by
  rw [paste, setPrev_next, setNext_of_ne _ _ hbefore, setNext_of_ne _ _ hlast, setPrev_next]

/-- The links left of `p` and right of `n` stay when only the links of these two and of the segment
between them change. -/
theorem isChain_around {links' : Links Node} {before after : List Node} {p n : Node}
    (hstart : (before ++ [p]).IsChain links.Linked) (hend : (n :: after).IsChain links.Linked)
    (hnodup : (before ++ p :: (segment ++ n :: after)).Nodup)
    (hnext : ∀ node, node ∉ segment → node ≠ p → links'.next node = links.next node)
    (hprev : ∀ node, node ∉ segment → node ≠ n → links'.prev node = links.prev node) :
    (before ++ [p]).IsChain links'.Linked ∧ (n :: after).IsChain links'.Linked := by
  obtain ⟨⟨hpBefore, hpSegment, hne, hpAfter⟩, hnBefore, hnSegment, hnAfter⟩ := nodup_around hnodup
  have hapart := List.nodup_append.mp hnodup
  have hinner := (List.nodup_append.mp (List.nodup_cons.mp hapart.2.1).2).2.2
  constructor
  · refine Links.isChain_congr hstart (fun node hnode => ?_) fun node hnode => ?_
    · rw [List.dropLast_concat] at hnode
      refine hnext node (fun hmem => ?_) fun heq => hpBefore (heq ▸ hnode)
      exact hapart.2.2 node hnode node (by simp [hmem]) rfl
    · have hnode := List.mem_of_mem_tail hnode
      rw [List.mem_append, List.mem_singleton] at hnode
      refine hprev node (fun hmem => ?_) fun heq => ?_
      · obtain hnode | rfl := hnode
        · exact hapart.2.2 node hnode node (by simp [hmem]) rfl
        · exact hpSegment hmem
      · subst heq
        exact hnode.elim hnBefore fun heq => hne heq.symm
  · refine Links.isChain_congr hend (fun node hnode => ?_) fun node hnode => ?_
    · have hnode := List.mem_of_mem_dropLast hnode
      refine hnext node (fun hmem => hinner node hmem node hnode rfl) ?_
      rintro rfl
      obtain rfl | hnode := List.mem_cons.mp hnode
      · exact hne rfl
      · exact hpAfter hnode
    · refine hprev node (fun hmem => hinner node hmem node (List.mem_cons_of_mem _ hnode) rfl) ?_
      rintro rfl
      exact hnAfter hnode

theorem Links.cut_same (links : Links Node) {nodes : List Node} {before after : Node}
    (hbefore : before ∈ nodes) (hafter : after ∈ nodes) :
    SameElsewhere nodes links (links.cut before after) := fun _ hnode =>
  ⟨links.cut_prev_of_ne fun heq => hnode (heq ▸ hafter),
    links.cut_next_of_ne fun heq => hnode (heq ▸ hbefore)⟩

theorem Links.paste_same (links : Links Node) {nodes : List Node} {before after : Node}
    (hbefore : before ∈ nodes) (hfirst : first ∈ nodes) (hlast : last ∈ nodes)
    (hafter : after ∈ nodes) :
    SameElsewhere nodes links (links.paste before first last after) := fun _ hnode =>
  ⟨links.paste_prev_of_ne (fun heq => hnode (heq ▸ hfirst)) fun heq => hnode (heq ▸ hafter),
    links.paste_next_of_ne (fun heq => hnode (heq ▸ hlast)) fun heq => hnode (heq ▸ hbefore)⟩

/-- A segment is cut out of a list, which holds the others as before. -/
theorem Holds.cut (hholds : Holds links ends (left ++ (segment ++ right))) :
    Holds (links.cut (ends.last left) (ends.first right)) ends (left ++ right) ∧
      segment.IsChain (links.cut (ends.last left) (ends.first right)).Linked := by
  obtain ⟨before, after, hbefore, hafter, hnodes⟩ := ends.nodes_split left right
  have hall := hholds.nodup
  rw [hnodes] at hall
  have hchain := hholds.chain
  rw [hnodes] at hchain
  obtain ⟨⟨hpBefore, hpSegment, hne, hpAfter⟩, hnBefore, hnSegment, hnAfter⟩ := nodup_around hall
  have hsub : (before ++ ends.last left :: ends.first right :: after).Nodup :=
    hall.sublist (List.Sublist.append_left (.cons_cons _ (List.sublist_append_right _ _)) _)
  have hrest : ends.nodes (left ++ right) =
      before ++ ends.last left :: ends.first right :: after := by
    rw [show left ++ right = left ++ ([] ++ right) from rfl, hnodes, List.nil_append]
  have hhead : ends.head ∈ before ++ [ends.last left] := hbefore ▸ List.mem_cons_self
  have htail : ends.tail ∈ ends.first right :: after := by
    rw [← hafter]
    simp
  refine ⟨⟨?_, ?_, ?_, hrest ▸ hsub⟩, ?_⟩
  · rw [Links.cut_prev_of_ne, hholds.front]
    intro heq
    rw [heq, List.mem_append, List.mem_singleton] at hhead
    exact hhead.elim hnBefore fun heq => hne heq.symm
  · rw [Links.cut_next_of_ne, hholds.back]
    intro heq
    rw [heq] at htail
    exact (List.mem_cons.mp htail).elim hne hpAfter
  · obtain ⟨hstart, hend⟩ := isChain_parts hchain
    obtain ⟨hstart, hend⟩ := isChain_around hstart hend hall
      (fun node _ hnode => links.cut_next_of_ne hnode) fun node _ hnode => links.cut_prev_of_ne hnode
    rw [hrest]
    refine List.isChain_append_cons_cons.mpr ⟨hstart, ⟨?_, ?_⟩, hend⟩
    · rw [Links.cut, Links.setPrev_next, Links.setNext_self]
    · rw [Links.cut, Links.setPrev_self]
  · have hsegment : segment.IsChain links.Linked :=
      (List.isChain_append.mp (List.isChain_append.mp hchain).2.1.tail).1
    refine Links.isChain_congr hsegment (fun node hnode => ?_) fun node hnode => ?_
    · refine links.cut_next_of_ne ?_
      rintro rfl
      exact hpSegment (List.mem_of_mem_dropLast hnode)
    · refine links.cut_prev_of_ne ?_
      rintro rfl
      exact hnSegment (List.mem_of_mem_tail hnode)

/-- A segment is pasted into a list that holds none of its nodes. -/
theorem Holds.paste (hholds : Holds links ends (left ++ right))
    (hsegment : (first :: segment).IsChain links.Linked)
    (hnodup : (ends.nodes (left ++ (first :: segment ++ right))).Nodup) :
    Holds (links.paste (ends.last left) first ((first :: segment).getLast (by simp))
      (ends.first right)) ends (left ++ (first :: segment ++ right)) := by
  generalize hlast : (first :: segment).getLast (by simp) = last
  obtain ⟨before, after, hbefore, hafter, hnodes⟩ := ends.nodes_split left right
  rw [hnodes] at hnodup
  have hchain := hholds.chain
  rw [show left ++ right = left ++ ([] ++ right) from rfl, hnodes, List.nil_append] at hchain
  have hall := hholds.nodup
  rw [show left ++ right = left ++ ([] ++ right) from rfl, hnodes, List.nil_append] at hall
  obtain ⟨⟨hpBefore, hpSegment, hne, hpAfter⟩, hnBefore, hnSegment, hnAfter⟩ := nodup_around hnodup
  have hfirst : first ∈ first :: segment := List.mem_cons_self
  have hlastMem : last ∈ first :: segment := hlast ▸ List.getLast_mem _
  have hhead : ends.head ∈ before ++ [ends.last left] := hbefore ▸ List.mem_cons_self
  have htail : ends.tail ∈ ends.first right :: after := by
    rw [← hafter]
    simp
  have hprev : ∀ node, node ∉ first :: segment → node ≠ ends.first right →
      (links.paste (ends.last left) first last (ends.first right)).prev node = links.prev node :=
    fun node hout hnode => links.paste_prev_of_ne (fun heq => hout (heq ▸ hfirst)) hnode
  have hnext : ∀ node, node ∉ first :: segment → node ≠ ends.last left →
      (links.paste (ends.last left) first last (ends.first right)).next node = links.next node :=
    fun node hout hnode => links.paste_next_of_ne (fun heq => hout (heq ▸ hlastMem)) hnode
  have hheadOut : ends.head ∉ first :: segment ∧ ends.head ≠ ends.first right := by
    rw [List.mem_append, List.mem_singleton] at hhead
    obtain hhead | hhead := hhead
    · refine ⟨fun hmem => ?_, fun heq => hnBefore (heq ▸ hhead)⟩
      exact (List.nodup_append.mp hnodup).2.2 _ hhead _
        (List.mem_cons_of_mem _ (List.mem_append_left _ hmem)) rfl
    · exact ⟨hhead ▸ hpSegment, hhead ▸ hne⟩
  have htailOut : ends.tail ∉ first :: segment ∧ ends.tail ≠ ends.last left := by
    refine ⟨fun hmem => ?_, fun heq => ?_⟩
    · have hinner := (List.nodup_cons.mp (List.nodup_append.mp hnodup).2.1).2
      exact (List.nodup_append.mp hinner).2.2 _ hmem _ htail rfl
    · rw [heq] at htail
      exact (List.mem_cons.mp htail).elim hne hpAfter
  refine ⟨?_, ?_, ?_, hnodes _ ▸ hnodup⟩
  · rw [hprev _ hheadOut.1 hheadOut.2, hholds.front]
  · rw [hnext _ htailOut.1 htailOut.2, hholds.back]
  · obtain ⟨hstart, hend⟩ := @isChain_parts _ links [] _ _ _ _ hchain
    obtain ⟨hstart, hend⟩ := isChain_around hstart hend hnodup hnext hprev
    have hinner := (List.nodup_append.mp (List.nodup_cons.mp
      (List.nodup_append.mp hnodup).2.1).2).1
    have hsplit : first :: segment = (first :: segment).dropLast ++ [last] := by
      rw [← hlast, List.dropLast_append_getLast]
    have hmiddle : (first :: segment).IsChain
        (links.paste (ends.last left) first last (ends.first right)).Linked := by
      refine Links.isChain_congr hsegment (fun node hnode => ?_) fun node hnode => ?_
      · refine links.paste_next_of_ne ?_ fun heq => hpSegment (heq ▸ List.mem_of_mem_dropLast hnode)
        rintro rfl
        rw [hsplit] at hinner
        exact (List.nodup_append.mp hinner).2.2 _ hnode _ (List.mem_singleton_self _) rfl
      · refine links.paste_prev_of_ne ?_ fun heq => hnSegment (heq ▸ List.mem_of_mem_tail hnode)
        rintro rfl
        exact (List.nodup_cons.mp hinner).1 hnode
    rw [hnodes, show before ++ ends.last left :: (first :: segment ++ ends.first right :: after) =
      (before ++ [ends.last left]) ++ ((first :: segment) ++ ends.first right :: after) by simp]
    refine List.isChain_append.mpr ⟨hstart, List.isChain_append.mpr ⟨hmiddle, hend, ?_⟩, ?_⟩
    · rintro x hx y hy
      rw [List.getLast?_eq_some_getLast (by simp), hlast] at hx
      obtain rfl := Option.mem_some.mp hx
      obtain rfl := Option.mem_some.mp hy
      refine ⟨?_, ?_⟩
      · rw [Links.paste, Links.setPrev_next, Links.setNext_of_ne, Links.setNext_self]
        rintro rfl
        exact hpSegment hlastMem
      · rw [Links.paste, Links.setPrev_self]
    · rintro x hx y hy
      rw [List.getLast?_concat] at hx
      obtain rfl := Option.mem_some.mp hx
      obtain rfl := Option.mem_some.mp hy
      refine ⟨?_, ?_⟩
      · rw [Links.paste, Links.setPrev_next, Links.setNext_self]
      · rw [Links.paste, Links.setPrev_of_ne, Links.setNext_prev, Links.setNext_prev,
          Links.setPrev_self]
        rintro rfl
        exact hnSegment hfirst

end Edit

/-! ## Several lists -/

section Several

variable {Index : Type*} {links links' : Links Node} {lists : Index → Ends Node}
  {contents contents' : Index → List Node} {nodes xs left right segment : List Node} {i : Index}

/-- Each list holds its sequence, and no node belongs to two lists. -/
structure Represents (links : Links Node) (lists : Index → Ends Node)
    (contents : Index → List Node) : Prop where
  holds : ∀ i, Holds links (lists i) (contents i)
  apart : ∀ i j, i ≠ j → ((lists i).nodes (contents i)).Disjoint ((lists j).nodes (contents j))

/-- A list is not longer than the nodes that it can hold. -/
theorem Represents.length_le (hrep : Represents links lists contents)
    (hsub : ∀ i, contents i ⊆ nodes) (i : Index) : (contents i).length ≤ nodes.length := by
  have hnodup : (contents i).Nodup :=
    ((List.nodup_cons.mp (hrep.holds i).nodup).2).of_append_left
  exact (hnodup.subperm (hsub i)).length_le

/-- Some of the lists change, and the others have none of the nodes that do. -/
theorem Represents.change (changed : Index → Prop) (hrep : Represents links lists contents)
    (hsame : SameElsewhere nodes links links')
    (hholds : ∀ i, changed i → Holds links' (lists i) (contents' i) ∧
      (lists i).nodes (contents' i) ⊆ nodes)
    (hothers : ∀ i, ¬changed i → contents' i = contents i ∧
      ((lists i).nodes (contents i)).Disjoint nodes)
    (hapart : ∀ i j, changed i → changed j → i ≠ j →
      ((lists i).nodes (contents' i)).Disjoint ((lists j).nodes (contents' j))) :
    Represents links' lists contents' := by
  refine ⟨fun i => ?_, fun i j hne => ?_⟩
  · by_cases hi : changed i
    · exact (hholds i hi).1
    · obtain ⟨heq, hdisjoint⟩ := hothers i hi
      exact heq ▸ hsame.holds (hrep.holds i) hdisjoint
  · by_cases hi : changed i
    · by_cases hj : changed j
      · exact hapart i j hi hj hne
      · obtain ⟨heq, hdisjoint⟩ := hothers j hj
        exact heq ▸ List.disjoint_of_subset_left (hholds i hi).2 hdisjoint.symm
    · obtain ⟨heq, hdisjoint⟩ := hothers i hi
      by_cases hj : changed j
      · exact heq ▸ List.disjoint_of_subset_right (hholds j hj).2 hdisjoint
      · rw [heq, (hothers j hj).1]
        exact hrep.apart i j hne

variable [DecidableEq Index]

/-- One list changes. -/
theorem Represents.update (hrep : Represents links lists contents)
    (hholds : Holds links' (lists i) xs) (hsame : SameElsewhere nodes links links')
    (hnodes : (lists i).nodes xs ⊆ nodes)
    (hothers : ∀ j, j ≠ i → ((lists j).nodes (contents j)).Disjoint nodes) :
    Represents links' lists (Function.update contents i xs) := by
  refine hrep.change (· = i) hsame ?_ (fun j hj => ⟨Function.update_of_ne hj _ _, hothers j hj⟩) ?_
  · rintro j rfl
    rw [Function.update_self]
    exact ⟨hholds, hnodes⟩
  · rintro j k rfl rfl hne
    exact absurd rfl hne

theorem Ends.nodes_subset (ends : Ends Node) {ys : List Node} (hsub : xs ⊆ ys) :
    ends.nodes xs ⊆ ends.nodes ys := by
  intro node hnode
  rw [mem_nodes] at hnode ⊢
  exact hnode.imp_right (Or.imp_left (@hsub node))

/-- One list changes, and only its own nodes do. -/
theorem Represents.rearrange (hrep : Represents links lists contents)
    (hholds : Holds links' (lists i) xs)
    (hsame : SameElsewhere ((lists i).nodes (contents i)) links links')
    (hnodes : xs ⊆ contents i) : Represents links' lists (Function.update contents i xs) :=
  hrep.update hholds hsame ((lists i).nodes_subset hnodes) fun j hj => hrep.apart j i hj

theorem Ends.nodes_segment (ends : Ends Node) (left segment right : List Node) :
    (ends.nodes (left ++ (segment ++ right))).Perm (segment ++ ends.nodes (left ++ right)) := by
  have hperm : (left ++ (segment ++ right)).Perm (segment ++ (left ++ right)) := by
    rw [← List.append_assoc, ← List.append_assoc]
    exact List.perm_append_comm.append_right right
  refine (ends.nodes_perm hperm).trans ?_
  rw [nodes, nodes, List.append_assoc]
  exact List.perm_middle.symm

/-- A segment of one list is cut out, and then in no list. -/
theorem Represents.cut [DecidableEq Node] (hrep : Represents links lists contents)
    (hplace : contents i = left ++ (segment ++ right)) :
    Represents (links.cut ((lists i).last left) ((lists i).first right)) lists
        (Function.update contents i (left ++ right)) ∧
      ∀ j, (segment.Disjoint
        ((lists j).nodes (Function.update contents i (left ++ right) j))) := by
  have hholds := hrep.holds i
  rw [hplace] at hholds
  constructor
  · refine hrep.rearrange hholds.cut.1 ?_ ?_
    · have hlast := (lists i).last_mem_nodes left (segment ++ right)
      have hfirst := (lists i).first_mem_nodes (left ++ segment) right
      rw [List.append_assoc] at hfirst
      exact hplace ▸ links.cut_same hlast hfirst
    · rw [hplace]
      intro node hnode
      simp only [List.mem_append] at hnode ⊢
      tauto
  · intro j
    by_cases hj : j = i
    · subst hj
      rw [Function.update_self]
      have hnodup := ((lists j).nodes_segment left segment right).nodup_iff.mp hholds.nodup
      exact List.disjoint_of_nodup_append hnodup
    · rw [Function.update_of_ne hj]
      refine List.disjoint_of_subset_left (fun node hnode => ?_) (hrep.apart i j (Ne.symm hj))
      rw [hplace, Ends.mem_nodes]
      simp [hnode]

/-- Nodes that are in no list are pasted into one. -/
theorem Represents.paste [DecidableEq Node] (hrep : Represents links lists contents) {first : Node}
    (hplace : contents i = left ++ right)
    (hsegment : (first :: segment).IsChain links.Linked) (hnodup : (first :: segment).Nodup)
    (hfree : ∀ j, ((first :: segment).Disjoint ((lists j).nodes (contents j)))) :
    Represents (links.paste ((lists i).last left) first ((first :: segment).getLast (by simp))
      ((lists i).first right)) lists
      (Function.update contents i (left ++ (first :: segment ++ right))) := by
  have hholds := hrep.holds i
  have hout := hfree i
  rw [hplace] at hholds hout
  have hperm := (lists i).nodes_segment left (first :: segment) right
  have hall := hperm.nodup_iff.mpr (List.Nodup.append hnodup hholds.nodup hout)
  have hlast := (lists i).last_mem_nodes left right
  have hfirst := (lists i).first_mem_nodes left right
  have hsame : SameElsewhere (first :: segment ++ (lists i).nodes (left ++ right)) links
      (links.paste ((lists i).last left) first ((first :: segment).getLast (by simp))
        ((lists i).first right)) :=
    Links.paste_same _ (List.mem_append_right _ hlast)
      (List.mem_append_left _ List.mem_cons_self) (List.mem_append_left _ (List.getLast_mem _))
      (List.mem_append_right _ hfirst)
  refine hrep.update (hholds.paste hsegment hall) hsame hperm.subset fun j hj => ?_
  refine List.disjoint_append_right.mpr ⟨(hfree j).symm, ?_⟩
  have hapart := hrep.apart j i hj
  rwa [hplace] at hapart

end Several

end Painting.LinkedList
