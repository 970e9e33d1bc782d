import Mathlib.Data.List.Nodup
import GameScript.Tree

/-!
# Forests

The shape of a command tree, freed of the store. A `Forest` is a row of siblings, each with the row
of its children below it, written so that it is plain data: the first sibling, what is below it, and
the siblings after it.

* `Forest.ids` lists the nodes in the order of execution, `Forest.roots` the siblings alone.
* `++` puts two rows behind each other.
* `Forest.alter` puts something else in the place of one node.
-/

namespace GameScript

/-- A row of siblings: the first one, what is below it, and the siblings after it. -/
inductive Forest where
  | nil
  | node (id : NodeId) (below after : Forest)
  deriving DecidableEq, Repr

namespace Forest

def ids : Forest → List NodeId
  | nil => []
  | node id below after => id :: (below.ids ++ after.ids)

def roots : Forest → List NodeId
  | nil => []
  | node id _ after => id :: after.roots

def append : Forest → Forest → Forest
  | nil, g => g
  | node id below after, g => node id below (append after g)

instance : Append Forest := ⟨append⟩

def leaf (id : NodeId) : Forest := node id nil nil

def leaves : List NodeId → Forest
  | [] => nil
  | id :: rest => node id nil (leaves rest)

/-! ## Rows behind each other -/

@[simp] theorem nil_append (g : Forest) : nil ++ g = g := rfl

@[simp] theorem node_append (id : NodeId) (below after g : Forest) :
    node id below after ++ g = node id below (after ++ g) := rfl

@[simp] theorem append_nil (f : Forest) : f ++ nil = f := by
  induction f with
  | nil => rfl
  | node id below after _ ih => rw [node_append, ih]

theorem append_assoc (f g h : Forest) : f ++ g ++ h = f ++ (g ++ h) := by
  induction f with
  | nil => rfl
  | node id below after _ ih => simp only [node_append, ih]

@[simp] theorem ids_nil : ids nil = [] := rfl

@[simp] theorem ids_node (id : NodeId) (below after : Forest) :
    (node id below after).ids = id :: (below.ids ++ after.ids) := rfl

@[simp] theorem ids_append (f g : Forest) : (f ++ g).ids = f.ids ++ g.ids := by
  induction f with
  | nil => rfl
  | node id below after _ ih =>
    simp only [node_append, ids_node, ih, List.cons_append, List.append_assoc]

/-- What holds for the nodes of a row holds for the first one, those below it and those after it. -/
theorem forall_ids_node {P : NodeId → Prop} {id : NodeId} {below after : Forest} :
    (∀ j ∈ (node id below after).ids, P j) ↔ P id ∧ (∀ j ∈ below.ids, P j) ∧
    ∀ j ∈ after.ids, P j := by
  simp only [ids_node, List.forall_mem_cons, List.forall_mem_append]

theorem nodup_ids_node {id : NodeId} {below after : Forest} : (node id below after).ids.Nodup ↔
    (id ∉ below.ids ∧ id ∉ after.ids) ∧ below.ids.Nodup ∧ after.ids.Nodup ∧
    ∀ a ∈ below.ids, ∀ b ∈ after.ids, a ≠ b := by
  simp only [ids_node, List.nodup_cons, List.mem_append, not_or, List.nodup_append]

@[simp] theorem roots_nil : roots nil = [] := rfl

@[simp] theorem roots_node (id : NodeId) (below after : Forest) :
    (node id below after).roots = id :: after.roots := rfl

@[simp] theorem roots_append (f g : Forest) : (f ++ g).roots = f.roots ++ g.roots := by
  induction f with
  | nil => rfl
  | node id below after _ ih => simp only [node_append, roots_node, ih, List.cons_append]

@[simp] theorem ids_leaf (id : NodeId) : (leaf id).ids = [id] := by
  simp [leaf]

@[simp] theorem roots_leaf (id : NodeId) : (leaf id).roots = [id] := rfl

@[simp] theorem leaf_append (id : NodeId) (g : Forest) : leaf id ++ g = node id nil g := by
  simp [leaf]

@[simp] theorem leaves_nil : leaves [] = nil := rfl

@[simp] theorem leaves_cons (id : NodeId) (rest : List NodeId) :
    leaves (id :: rest) = node id nil (leaves rest) := rfl

@[simp] theorem ids_leaves (l : List NodeId) : (leaves l).ids = l := by
  induction l with
  | nil => rfl
  | cons id rest ih => simp only [leaves_cons, ids_node, ids_nil, List.nil_append, ih]

@[simp] theorem roots_leaves (l : List NodeId) : (leaves l).roots = l := by
  induction l with
  | nil => rfl
  | cons id rest ih => simp only [leaves_cons, roots_node, ih]

theorem roots_sublist_ids (f : Forest) : f.roots.Sublist f.ids := by
  induction f with
  | nil => exact List.Sublist.slnil
  | node id below after _ ih =>
    rw [roots_node, ids_node]
    exact (ih.trans (List.sublist_append_right below.ids after.ids)).cons_cons id

theorem mem_ids_of_mem_roots {f : Forest} {id : NodeId} (h : id ∈ f.roots) : id ∈ f.ids :=
  f.roots_sublist_ids.subset h

/-- A row is empty exactly when it has no siblings. -/
theorem roots_eq_nil {f : Forest} : f.roots = [] ↔ f = nil := by
  cases f <;> simp

/-! ## The last node

Going to the last child again and again ends at the last node in the order of execution. -/

def lastNode (id : NodeId) : Forest → NodeId
  | nil => id
  | node child below nil => lastNode child below
  | node _ _ after => lastNode id after

theorem getLast?_ids_lastNode (id : NodeId) (f : Forest) :
    (id :: f.ids).getLast? = some (lastNode id f) := by
  fun_induction lastNode id f with
  | case1 id => rfl
  | case2 id child below ih => simpa using ih
  | case3 id child below after hne ih =>
    have hids : after.ids ≠ [] := by
      cases after with
      | nil => exact absurd rfl hne
      | node next below' after' => exact List.cons_ne_nil _ _
    rw [← List.singleton_append, List.getLast?_append_of_ne_nil _ hids] at ih
    rw [ids_node, ← List.cons_append, ← List.cons_append, List.getLast?_append_of_ne_nil _ hids]
    exact ih

/-! ## Changing one node -/

/-- Put something else in the place of a node. The replacement sees what is below the node and the
siblings after it. -/
def alter (target : NodeId) (f : Forest → Forest → Forest) : Forest → Forest
  | nil => nil
  | node id below after =>
    if id = target then f below after else node id (alter target f below) (alter target f after)

@[simp] theorem alter_nil (target : NodeId) (f : Forest → Forest → Forest) :
    alter target f nil = nil := rfl

theorem alter_node_self (target : NodeId) (f : Forest → Forest → Forest) (below after : Forest) :
    alter target f (node target below after) = f below after := by
  simp [alter]

theorem alter_node_of_ne {target id : NodeId} (h : id ≠ target) (f : Forest → Forest → Forest)
    (below after : Forest) :
    alter target f (node id below after) = node id (alter target f below)
    (alter target f after) := by
  simp [alter, h]

theorem alter_of_notMem {target : NodeId} {f : Forest → Forest → Forest} {g : Forest}
    (h : target ∉ g.ids) : alter target f g = g := by
  induction g with
  | nil => rfl
  | node id below after ihb iha =>
    simp only [ids_node, List.mem_cons, List.mem_append, not_or] at h
    rw [alter_node_of_ne (Ne.symm h.1), ihb h.2.1, iha h.2.2]

end Forest

end GameScript
