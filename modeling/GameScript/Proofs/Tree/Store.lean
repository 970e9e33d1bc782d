import GameScript.Tree.Walk

/-!
# The store of a tree

What each operation on a tree does to the nodes in its store, one read at a time. The operations
that attach and detach nodes are described by the two links of a node: its parent and its children.

`Tree.Akin` compares trees of the same structure, whatever the parameters of their statements are.
Such trees are walked alike. `Tree.Alike` compares trees that differ only in what a compilation
finds out about their nodes.
-/

namespace GameScript

/-- What is said about a node, apart from its place in the tree. -/
def Node.unlinked (n : Node) : Node := { n with parent := none, children := #[] }

theorem Node.eq_of_unlinked {α : Type} {n m : Node} (h : n.unlinked = m.unlinked) (read : Node → α)
    (hread : ∀ n : Node, read n.unlinked = read n := by intro; rfl) : read n = read m := by
  rw [← hread n, h, hread m]

namespace Tree

/-! ## Reading after a change -/

@[simp] theorem size_modify (t : Tree) (id : NodeId) (f : Node → Node) :
    (t.modify id f).size = t.size := by
  simp [size, modify]

theorem node_modify (t : Tree) (id j : NodeId) (f : Node → Node) :
    (t.modify id f).node j = if id = j ∧ j < t.size then f (t.node j) else t.node j := by
  simp only [node, modify, size, Array.getD_eq_getD_getElem?, Array.getElem?_modify]
  by_cases hid : id = j
  · subst hid
    by_cases hlt : id < t.nodes.size
    · simp [hlt]
    · simp [hlt]
  · simp [hid]

theorem node_modify_of_ne (t : Tree) {id j : NodeId} (f : Node → Node) (h : id ≠ j) :
    (t.modify id f).node j = t.node j := by
  rw [node_modify, if_neg (fun hc => h hc.1)]

theorem node_modify_self (t : Tree) {id : NodeId} (f : Node → Node) (h : id < t.size) :
    (t.modify id f).node id = f (t.node id) := by
  rw [node_modify, if_pos ⟨rfl, h⟩]

theorem modify_congr (t : Tree) {id : NodeId} {f g : Node → Node}
    (h : f (t.node id) = g (t.node id)) :
    t.modify id f = t.modify id g := by
  refine congrArg Tree.mk (Array.ext (by simp) fun i hi _ => ?_)
  rw [Array.size_modify] at hi
  rw [Array.getElem_modify, Array.getElem_modify]
  split
  · next hid =>
    subst hid
    simpa [node, hi] using h
  · rfl

@[simp] theorem create_snd (t : Tree) (n : Node) : (t.create n).2 = t.size := by
  simp [create, size]

@[simp] theorem size_create (t : Tree) (n : Node) : (t.create n).1.size = t.size + 1 := by
  simp [size, create]

theorem node_create (t : Tree) (n : Node) (j : NodeId) :
    (t.create n).1.node j = if j = t.size then n else t.node j := by
  simp only [node, create, size, Array.getD_eq_getD_getElem?, Array.getElem?_push]
  by_cases h : j = t.nodes.size
  · simp [h]
  · simp [h]

/-- A field that a change leaves alone reads the same afterwards. -/
theorem read_modify {α : Type} (t : Tree) (id j : NodeId) {f : Node → Node} (read : Node → α)
    (h : ∀ n, read (f n) = read n) : read ((t.modify id f).node j) = read (t.node j) := by
  rw [node_modify]
  split
  · exact h _
  · rfl

/-! ## Attaching and detaching -/

@[simp] theorem size_insert (t : Tree) (parent : NodeId) (position : Nat) (child : NodeId) :
    (t.insert parent position child).size = t.size := by
  simp [insert]

theorem children_insert (t : Tree) (parent : NodeId) (position : Nat) (child j : NodeId) :
    ((t.insert parent position child).children j).toList =
      if parent = j ∧ j < t.size then
        (t.children j).toList.insertIdx (min position (t.children j).size) child
      else (t.children j).toList := by
  have hchild : ∀ j, ((t.modify child fun n => { n with parent := some parent }).node j).children =
      (t.node j).children := fun j => read_modify t child j Node.children fun _ => rfl
  simp only [insert, children, node_modify (t.modify child _), size_modify]
  split
  · simp only [Array.toList_insertIdx, hchild]
  · rw [hchild]

theorem parent?_insert (t : Tree) (parent : NodeId) (position : Nat) (child j : NodeId) :
    (t.insert parent position child).parent? j =
      if child = j ∧ j < t.size then some parent else t.parent? j := by
  have hparent : ∀ (u : Tree), ((u.modify parent fun n =>
      { n with children :=
          n.children.insertIdx (min position n.children.size) child (Nat.min_le_right ..) }).node
            j).parent =
        (u.node j).parent :=
    fun u => read_modify u parent j Node.parent fun _ => rfl
  simp only [insert, parent?]
  rw [hparent, node_modify]
  split <;> rfl

theorem unlinked_insert (t : Tree) (parent : NodeId) (position : Nat) (child j : NodeId) :
    ((t.insert parent position child).node j).unlinked = (t.node j).unlinked := by
  refine (read_modify _ parent j Node.unlinked ?_).trans
    (read_modify t child j Node.unlinked fun _ => rfl)
  exact fun _ => rfl

/-- The last child is attached at a position behind all others. -/
theorem append_eq_insert {t : Tree} {parent : NodeId} {position : Nat}
    (h : (t.children parent).size ≤ position) (child : NodeId) :
    t.append parent child = t.insert parent position child := by
  refine modify_congr _ ?_
  have hchildren : ((t.modify child fun n => { n with parent := some parent }).node
      parent).children = t.children parent :=
    read_modify t child parent Node.children fun _ => rfl
  simp only [hchildren, Nat.min_eq_right h, Array.insertIdx_size_self]

@[simp] theorem size_append (t : Tree) (parent child : NodeId) :
    (t.append parent child).size = t.size := by
  simp [append]

theorem children_append (t : Tree) (parent child j : NodeId) : (t.append parent child).children j =
      if parent = j ∧ j < t.size then (t.children j).push child else t.children j := by
  have hchild : ∀ j, ((t.modify child fun n => { n with parent := some parent }).node j).children =
      (t.node j).children := fun j => read_modify t child j Node.children fun _ => rfl
  simp only [append, children, node_modify (t.modify child _), size_modify]
  split
  · simp only [hchild]
  · exact hchild j

theorem children_append_self {t : Tree} {parent : NodeId} (child : NodeId) (h : parent < t.size) :
    (t.append parent child).children parent = (t.children parent).push child := by
  rw [children_append, if_pos ⟨rfl, h⟩]

theorem children_append_of_ne (t : Tree) {parent j : NodeId} (child : NodeId) (h : j ≠ parent) :
    (t.append parent child).children j = t.children j := by
  rw [children_append, if_neg (fun hc => h hc.1.symm)]

theorem parent?_append (t : Tree) (parent child j : NodeId) : (t.append parent child).parent? j =
      if child = j ∧ j < t.size then some parent else t.parent? j := by
  rw [append_eq_insert (Nat.le_refl _), parent?_insert]

theorem unlinked_append (t : Tree) (parent child j : NodeId) :
    ((t.append parent child).node j).unlinked = (t.node j).unlinked := by
  rw [append_eq_insert (Nat.le_refl _), unlinked_insert]

end Tree

/-! ## Trees of the same structure -/

/-- Two nodes play the same part in the structure of the script. Their parameters may differ. -/
structure Node.Akin (n m : Node) : Prop where
  form : n.statement.form = m.statement.form
  role : n.statement.role = m.statement.role
  kind : n.statement.kind = m.statement.kind
  commented : n.statement.commented = m.statement.commented
  text : n.statement.text = m.statement.text
  label : n.statement.label? = m.statement.label?
  origin : n.origin = m.origin
  parent : n.parent = m.parent
  children : n.children = m.children
  header : n.header = m.header

structure Tree.Akin (t u : Tree) : Prop where
  size : t.size = u.size
  akin : ∀ id, (t.node id).Akin (u.node id)

namespace Tree.Akin

/-! Whatever is read from the structure is the same for trees that are akin. -/

variable {t u : Tree}

theorem form_eq (h : t.Akin u) (id : NodeId) :
    (t.node id).statement.form = (u.node id).statement.form := (h.akin id).form

theorem commented_eq (h : t.Akin u) (id : NodeId) :
    (t.node id).statement.commented = (u.node id).statement.commented :=
  (h.akin id).commented

theorem text_eq (h : t.Akin u) (id : NodeId) :
    (t.node id).statement.text = (u.node id).statement.text := (h.akin id).text

theorem label?_eq (h : t.Akin u) (id : NodeId) :
    (t.node id).statement.label? = (u.node id).statement.label? :=
  (h.akin id).label

theorem origin_eq (h : t.Akin u) (id : NodeId) : (t.node id).origin = (u.node id).origin :=
  (h.akin id).origin

theorem header_eq (h : t.Akin u) (id : NodeId) : (t.node id).header = (u.node id).header :=
  (h.akin id).header

theorem isLive_eq (h : t.Akin u) (id : NodeId) : (t.node id).isLive = (u.node id).isLive := by
  simp only [Node.isLive, Statement.isStandard, (h.akin id).kind, (h.akin id).commented]

theorem is_eq (h : t.Akin u) (id : NodeId) (form : FormId) :
    (t.node id).is form = (u.node id).is form := by
  simp only [Node.is, h.commented_eq, h.form_eq]

theorem parent?_eq (h : t.Akin u) : t.parent? = u.parent? := funext fun id => (h.akin id).parent

theorem children_eq (h : t.Akin u) : t.children = u.children :=
  funext fun id => (h.akin id).children

theorem role_eq (h : t.Akin u) : t.role = u.role := by
  funext id
  simp only [role, Node.role, h.origin_eq, (h.akin id).role]

theorem lastChild?_eq (h : t.Akin u) : t.lastChild? = u.lastChild? := by
  funext id
  simp only [lastChild?, h.children_eq]

theorem isClosed_eq (h : t.Akin u) : t.isClosed = u.isClosed := by
  funext id
  simp only [isClosed, h.lastChild?_eq, h.role_eq]

theorem next?_eq (h : t.Akin u) : t.next? = u.next? := by
  funext id
  simp only [next?, h.parent?_eq, h.children_eq]

theorem previous?_eq (h : t.Akin u) : t.previous? = u.previous? := by
  funext id
  simp only [previous?, h.parent?_eq, h.children_eq]

theorem climb_eq (h : t.Akin u) (steps : Nat) (start : Option NodeId) :
    t.climb steps start = u.climb steps start := by
  induction steps generalizing start with
  | zero => rfl
  | succ steps ih =>
    cases start with
    | none => rfl
    | some id => simp only [climb, h.parent?_eq, ih]

theorem enclosingLoop?_eq (h : t.Akin u) : t.enclosingLoop? = u.enclosingLoop? := by
  funext id
  simp only [enclosingLoop?, ancestors, h.size, h.parent?_eq, h.climb_eq, h.role_eq]

theorem walk_eq (h : t.Akin u) : t.walk = u.walk := by
  have hcollect : ∀ (steps : Nat) (w : Walk) (seen : Array NodeId), w.collect t steps seen =
      w.collect u steps seen := by
    intro steps
    induction steps with
    | zero => exact fun _ _ => rfl
    | succ steps ih =>
      intro w seen
      simp only [Walk.collect, Walk.next?, h.children_eq, ih]
  funext strategy start
  simp only [walk, h.size, hcollect]

theorem preorder_eq (h : t.Akin u) : t.preorder = u.preorder := by
  simp only [preorder, h.walk_eq]

end Tree.Akin

/-! ## Trees that are alike -/

/-- Two nodes say the same about the script. What a compilation found out about them may differ. -/
structure Node.Alike (n m : Node) : Prop where
  statement : n.statement = m.statement
  origin : n.origin = m.origin
  parent : n.parent = m.parent
  children : n.children = m.children
  diagnostic : n.diagnostic = m.diagnostic
  header : n.header = m.header

namespace Node.Alike

variable {n m k : Node}

theorem refl (n : Node) : n.Alike n := ⟨rfl, rfl, rfl, rfl, rfl, rfl⟩

theorem symm (h : n.Alike m) : m.Alike n :=
  ⟨h.statement.symm, h.origin.symm, h.parent.symm, h.children.symm, h.diagnostic.symm,
    h.header.symm⟩

theorem trans (h : n.Alike m) (h' : m.Alike k) : n.Alike k :=
  ⟨h.statement.trans h'.statement, h.origin.trans h'.origin, h.parent.trans h'.parent,
    h.children.trans h'.children, h.diagnostic.trans h'.diagnostic, h.header.trans h'.header⟩

theorem akin (h : n.Alike m) : n.Akin m :=
  ⟨by rw [h.statement],
    by rw [h.statement], by rw [h.statement], by rw [h.statement], by rw [h.statement],
    by rw [h.statement], h.origin, h.parent, h.children, h.header⟩

end Node.Alike

structure Tree.Alike (t u : Tree) : Prop extends t.Akin u where
  node : ∀ id, (t.node id).Alike (u.node id)

namespace Tree.Alike

theorem of {t u : Tree} (hsize : t.size = u.size) (hnode : ∀ id, (t.node id).Alike (u.node id)) :
    t.Alike u :=
  ⟨⟨hsize, fun id => (hnode id).akin⟩, hnode⟩

theorem refl (t : Tree) : t.Alike t := .of rfl fun _ => .refl _

theorem symm {t u : Tree} (h : t.Alike u) : u.Alike t := .of h.size.symm fun id => (h.node id).symm

theorem trans {t u v : Tree} (h : t.Alike u) (h' : u.Alike v) : t.Alike v :=
  .of (h.size.trans h'.size) fun id => (h.node id).trans (h'.node id)

/-- A change of what was found out about a node keeps a tree alike. -/
theorem modify (t : Tree) (id : NodeId) {f : Node → Node} (h : ∀ n : Node, n.Alike (f n)) :
    t.Alike (t.modify id f) := by
  refine .of (size_modify t id f).symm fun j => ?_
  rw [node_modify]
  split
  · exact h _
  · exact .refl _

theorem statement_eq {t u : Tree} (h : t.Alike u) (id : NodeId) :
    (t.node id).statement = (u.node id).statement :=
  (h.node id).statement

end Tree.Alike

end GameScript
