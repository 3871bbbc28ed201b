import Mathlib

/-!
# Lists threaded through their own nodes

A list is given by its first node and a function from each node to the next one; `null` ends it.
Such a list determines its nodes, and because it ends, no node occurs twice.
-/

namespace Painting.LinkedList

variable {Node : Type*} {next next' : Node → Node} {null head : Node} {nodes : List Node}

/-- The nodes from `head` to the end. -/
def Threaded (next : Node → Node) (null : Node) : Node → List Node → Prop
  | head, [] => head = null
  | head, node :: rest => head = node ∧ node ≠ null ∧ Threaded next null (next node) rest

theorem Threaded.ne_null (hlist : Threaded next null head nodes) : ∀ node ∈ nodes, node ≠ null := by
  induction nodes generalizing head with
  | nil => exact fun node hnode => absurd hnode List.not_mem_nil
  | cons first rest ih =>
      obtain ⟨-, hfirst, hrest⟩ := hlist
      exact List.forall_mem_cons.mpr ⟨hfirst, ih hrest⟩

theorem Threaded.eq_nil_iff (hlist : Threaded next null head nodes) : head = null ↔ nodes = [] := by
  cases nodes with
  | nil => exact iff_of_true hlist rfl
  | cons first rest =>
      obtain ⟨rfl, hfirst, -⟩ := hlist
      exact iff_of_false hfirst (List.cons_ne_nil _ _)

theorem Threaded.unique {nodes' : List Node} (hlist : Threaded next null head nodes)
    (hlist' : Threaded next null head nodes') : nodes = nodes' := by
  induction nodes generalizing head nodes' with
  | nil => exact (hlist'.eq_nil_iff.mp hlist).symm
  | cons first rest ih =>
      cases nodes' with
      | nil => exact hlist.eq_nil_iff.mp hlist'
      | cons first' rest' =>
          obtain ⟨rfl, -, hrest⟩ := hlist
          obtain ⟨rfl, -, hrest'⟩ := hlist'
          rw [ih hrest hrest']

/-- The list from a node on it. -/
theorem Threaded.of_append {before : List Node} {node : Node} {after : List Node}
    (hlist : Threaded next null head (before ++ node :: after)) :
    Threaded next null node (node :: after) := by
  induction before generalizing head with
  | nil =>
      obtain ⟨rfl, hnode, hrest⟩ := hlist
      exact ⟨rfl, hnode, hrest⟩
  | cons first rest ih => exact ih hlist.2.2

/-- A list that ends visits no node twice. -/
theorem Threaded.nodup (hlist : Threaded next null head nodes) : nodes.Nodup := by
  induction nodes generalizing head with
  | nil => exact List.nodup_nil
  | cons first rest ih =>
      obtain ⟨rfl, hfirst, hrest⟩ := hlist
      refine List.nodup_cons.mpr ⟨fun hmem => ?_, ih hrest⟩
      obtain ⟨before, after, rfl⟩ := List.append_of_mem hmem
      have hagain : head :: after = head :: (before ++ head :: after) :=
        hrest.of_append.unique ⟨rfl, hfirst, hrest⟩
      have hlength := congrArg List.length hagain
      simp only [List.length_cons, List.length_append] at hlength
      omega

/-- The list stays when the links of its nodes do. -/
theorem Threaded.congr (hlist : Threaded next null head nodes)
    (hsame : ∀ node ∈ nodes, next' node = next node) : Threaded next' null head nodes := by
  induction nodes generalizing head with
  | nil => exact hlist
  | cons first rest ih =>
      obtain ⟨rfl, hfirst, hrest⟩ := hlist
      obtain ⟨hhead, htail⟩ := List.forall_mem_cons.mp hsame
      exact ⟨rfl, hfirst, hhead ▸ ih hrest htail⟩

end Painting.LinkedList
