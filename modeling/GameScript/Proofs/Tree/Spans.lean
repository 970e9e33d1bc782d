import Mathlib.Data.List.Nodup
import Mathlib.Data.List.Perm.Basic
import GameScript.Proofs.Forest
import GameScript.Proofs.Tree.Store
import GameScript.Tree.Walk

/-!
# Trees that span a forest

`Tree.Spans t f` says that the store of `t` holds exactly the nodes of `f` below the root: children
and parents agree with the shape, no node stands in two places, and no node is lost.

The second half reads a tree through its shape. `Tree.Row` fixes where a row of siblings stands in a
tree; in it parents, neighbours, the last node of a subtree and the order of execution are those of
the forest.
-/

namespace GameScript

namespace Tree

/-- The row hangs below `parent`: the links of its nodes are those of the shape. -/
def Hangs (t : Tree) (parent : NodeId) : Forest → Prop
  | .nil => True
  | .node id below after =>
    t.parent? id = some parent ∧ (t.children id).toList = below.roots ∧ t.Hangs id below ∧
      t.Hangs parent after

/-- The tree holds the nodes of a forest below its root, and nothing else. -/
structure Spans (t : Tree) (f : Forest) : Prop where
  top : (t.children root).toList = f.roots
  orphan : t.parent? root = none
  hangs : t.Hangs root f
  nodup : (root :: f.ids).Nodup
  covers : ∀ id, id < t.size ↔ id ∈ root :: f.ids

/-! ## What hangs where -/

variable {t : Tree} {id parent : NodeId} {f g : Forest}

/-- Only the links of its own nodes decide whether a row hangs below a node. -/
theorem Hangs.congr {u : Tree} (h : t.Hangs parent f)
    (hparent : ∀ id ∈ f.ids, u.parent? id = t.parent? id)
    (hchildren : ∀ id ∈ f.ids, u.children id = t.children id) : u.Hangs parent f := by
  induction f generalizing parent with
  | nil => trivial
  | node id below after ihb iha =>
    obtain ⟨hp, hc, hb, ha⟩ := h
    refine ⟨?_, ?_, ?_, ?_⟩
    · rw [hparent id (by simp), hp]
    · rw [hchildren id (by simp), hc]
    · exact ihb hb (fun j hj => hparent j (by simp [hj])) (fun j hj => hchildren j (by simp [hj]))
    · exact iha ha (fun j hj => hparent j (by simp [hj])) (fun j hj => hchildren j (by simp [hj]))

theorem hangs_append : t.Hangs parent (f ++ g) ↔ t.Hangs parent f ∧ t.Hangs parent g := by
  induction f with
  | nil => simp [Hangs]
  | node id below after _ ih => simp only [Forest.node_append, Hangs, ih, and_assoc]

/-- Nodes without children hang below a node as soon as it is their parent. -/
theorem hangs_leaves {l : List NodeId}
    (hparent : ∀ id ∈ l, t.parent? id = some parent)
    (hchildren : ∀ id ∈ l, (t.children id).toList = []) :
    t.Hangs parent (.leaves l) := by
  induction l with
  | nil => trivial
  | cons id rest ih =>
    refine ⟨hparent id (by simp), hchildren id (by simp), trivial, ?_⟩
    exact ih (fun j hj => hparent j (by simp [hj])) (fun j hj => hchildren j (by simp [hj]))

theorem Hangs.parent?_isSome (h : t.Hangs parent f) (hid : id ∈ f.ids) : (t.parent? id).isSome := by
  induction f generalizing parent with
  | nil => simp at hid
  | node root below after ihb iha =>
    obtain ⟨hp, _, hb, ha⟩ := h
    simp only [Forest.ids_node, List.mem_cons, List.mem_append] at hid
    rcases hid with rfl | hid | hid
    · simp [hp]
    · exact ihb hb hid
    · exact iha ha hid

theorem Hangs.parent?_of_mem_roots (h : t.Hangs parent f) (hid : id ∈ f.roots) :
    t.parent? id = some parent := by
  induction f with
  | nil => simp at hid
  | node root below after _ ih =>
    rcases List.mem_cons.mp hid with rfl | hid
    · exact h.1
    · exact ih h.2.2.2 hid

theorem Hangs.below (h : t.Hangs parent f) (hid : id ∈ f.ids) :
    ∃ below : Forest, (t.children id).toList = below.roots ∧ t.Hangs id below ∧
      (id :: below.ids).Sublist f.ids := by
  induction f generalizing parent with
  | nil => simp at hid
  | node j below after ihb iha =>
    obtain ⟨_, hc, hb, ha⟩ := h
    simp only [Forest.ids_node, List.mem_cons, List.mem_append] at hid
    rcases hid with rfl | hid | hid
    · exact ⟨below, hc, hb, (List.sublist_append_left _ _).cons_cons _⟩
    · obtain ⟨row, hroots, hangs, hsub⟩ := ihb hb hid
      exact ⟨row, hroots, hangs, (hsub.trans (List.sublist_append_left _ _)).cons _⟩
    · obtain ⟨row, hroots, hangs, hsub⟩ := iha ha hid
      exact ⟨row, hroots, hangs, (hsub.trans (List.sublist_append_right _ _)).cons _⟩

theorem Hangs.mem_children {above : NodeId} (h : t.Hangs parent f)
    (htop : ∀ j ∈ f.roots, j ∈ (t.children parent).toList) (hid : id ∈ f.ids)
    (hover : t.parent? id = some above) :
    id ∈ (t.children above).toList ∧ above ∈ parent :: f.ids := by
  induction f generalizing parent with
  | nil => simp at hid
  | node j below after ihb iha =>
    obtain ⟨hp, hc, hb, ha⟩ := h
    simp only [Forest.ids_node, List.mem_cons, List.mem_append] at hid ⊢
    rcases hid with rfl | hid | hid
    · obtain rfl := Option.some.inj (hp.symm.trans hover)
      exact ⟨htop id (by simp), .inl rfl⟩
    · obtain ⟨hmem, hin⟩ := ihb hb (fun k hk => hc ▸ hk) hid
      exact ⟨hmem, by rcases List.mem_cons.mp hin with h | h <;> simp [h]⟩
    · obtain ⟨hmem, hin⟩ := iha ha (fun k hk => htop k (by simp [hk])) hid
      exact ⟨hmem, by rcases List.mem_cons.mp hin with h | h <;> simp [h]⟩

theorem Spans.lt_size (h : t.Spans f) (hid : id ∈ f.ids) : id < t.size :=
  (h.covers id).mpr (List.mem_cons_of_mem _ hid)

theorem Spans.nodup_ids (h : t.Spans f) : f.ids.Nodup := (List.nodup_cons.mp h.nodup).2

theorem Spans.below (h : t.Spans f) (hid : id < t.size) :
    ∃ below : Forest, (t.children id).toList = below.roots ∧ t.Hangs id below ∧
      (id :: below.ids).Sublist (root :: f.ids) := by
  rcases List.mem_cons.mp ((h.covers id).mp hid) with rfl | hid
  · exact ⟨f, h.top, h.hangs, List.Sublist.refl _⟩
  · obtain ⟨below, hroots, hangs, hsub⟩ := h.hangs.below hid
    exact ⟨below, hroots, hangs, hsub.cons _⟩

theorem Spans.parent?_of_mem_children (h : t.Spans f) {child : NodeId}
    (hid : id < t.size) (hchild : child ∈ (t.children id).toList) : t.parent? child = some id := by
  obtain ⟨below, hroots, hangs, _⟩ := h.below hid
  exact hangs.parent?_of_mem_roots (hroots ▸ hchild)

theorem Spans.mem_children (h : t.Spans f) (hid : id ∈ f.ids)
    (hparent : t.parent? id = some parent) : id ∈ (t.children parent).toList ∧ parent < t.size := by
  obtain ⟨hmem, hin⟩ := h.hangs.mem_children (fun j hj => h.top ▸ hj) hid hparent
  exact ⟨hmem, (h.covers parent).mpr hin⟩

theorem Hangs.unique {above : NodeId} (hf : t.Hangs parent f)
    (hg : t.Hangs above g) (hroots : f.roots = g.roots) : f = g := by
  induction f generalizing parent above g with
  | nil => exact (Forest.roots_eq_nil.mp hroots.symm).symm
  | node id below after ihb iha =>
    cases g with
    | nil => cases hroots
    | node id' below' after' =>
      obtain ⟨rfl, hafter⟩ := List.cons.inj hroots
      obtain ⟨_, hc, hb, ha⟩ := hf
      obtain ⟨_, hc', hb', ha'⟩ := hg
      rw [ihb hb hb' (hc.symm.trans hc'), iha ha ha' hafter]

/-- A tree has one shape. -/
theorem Spans.unique (hf : t.Spans f) (hg : t.Spans g) : f = g :=
  hf.hangs.unique hg.hangs (hf.top.symm.trans hg.top)

theorem Spans.alike {u : Tree} (h : t.Spans f) (hu : t.Alike u) : u.Spans f := by
  have hchildren : ∀ id, u.children id = t.children id := fun id => (hu.node id).children.symm
  have hparent : ∀ id, u.parent? id = t.parent? id := fun id => (hu.node id).parent.symm
  refine ⟨?_, ?_, ?_, h.nodup, ?_⟩
  · rw [hchildren, h.top]
  · rw [hparent, h.orphan]
  · exact h.hangs.congr (fun id _ => hparent id) (fun id _ => hchildren id)
  · intro id
    rw [← hu.size]
    exact h.covers id

/-- The size of a tree counts the root and the nodes of its shape. -/
theorem Spans.size_eq (h : t.Spans f) : t.size = f.ids.length + 1 := by
  have hperm : (root :: f.ids).Perm (List.range t.size) := by
    rw [List.perm_ext_iff_of_nodup h.nodup List.nodup_range]
    intro id
    rw [List.mem_range, h.covers id]
  have := hperm.length_eq
  simp only [List.length_cons, List.length_range] at this
  exact this.symm

/-! ## The order of execution -/

/-- A walk in depth visits the nodes of a row in their order, then what waited behind the row. -/
theorem collect_row (h : t.Hangs parent f) (fuel : Nat) (rest : List NodeId) (seen : Array NodeId) :
    Walk.collect t (f.ids.length + fuel) ⟨.depth, f.roots ++ rest⟩ seen =
      Walk.collect t fuel ⟨.depth, rest⟩ (seen ++ f.ids.toArray) := by
  induction f generalizing parent fuel rest seen with
  | nil => simp
  | node id below after ihb iha =>
    obtain ⟨_, hc, hb, ha⟩ := h
    have hlen : (Forest.node id below after).ids.length + fuel =
        below.ids.length + (after.ids.length + fuel) + 1 := by
      simp only [Forest.ids_node, List.length_cons, List.length_append]
      omega
    rw [hlen, Walk.collect, Forest.roots_node, List.cons_append]
    simp only [Walk.next?, Walk.follow, hc]
    rw [ihb hb (after.ids.length + fuel) (after.roots ++ rest), iha ha fuel rest]
    congr 1
    simp

theorem Spans.preorder_eq (h : t.Spans f) : t.preorder = f.ids := by
  have hroot : Walk.collect t t.size (.start .depth root) #[] =
      Walk.collect t f.ids.length ⟨.depth, f.roots ++ []⟩ #[root] := by
    rw [h.size_eq, Walk.collect]
    simp only [Walk.start, Walk.next?, Walk.follow, h.top]
    rfl
  have hrow := collect_row h.hangs 0 [] #[root]
  rw [Nat.add_zero] at hrow
  rw [preorder, walk, hroot, hrow, Walk.collect]
  simp

/-- A walk from a node stays below it. -/
theorem Spans.walk_subset (h : t.Spans f) (hid : id ∈ f.ids) : t.walk .depth id ⊆ f.ids := by
  obtain ⟨below, hroots, hbelow, hsub⟩ := h.hangs.below hid
  obtain ⟨fuel, hfuel⟩ := Nat.exists_eq_add_of_le hsub.length_le
  have hsize : t.size = below.ids.length + (fuel + 1) + 1 := by
    rw [h.size_eq, hfuel, List.length_cons]
    omega
  have hrow := collect_row hbelow (fuel + 1) [] #[id]
  rw [← hroots] at hrow
  have hwalk : t.walk .depth id = id :: below.ids := by
    rw [walk, hsize, Walk.collect]
    simp only [Walk.start, Walk.next?, Walk.follow]
    exact (congrArg Array.toList hrow).trans (by simp [Walk.collect, Walk.next?])
  exact hwalk ▸ hsub.subset

/-! ## Where a row stands -/

theorem idxOf?_of_split {siblings : Array NodeId} {before after : List NodeId}
    (h : siblings.toList = before ++ id :: after) (hid : id ∉ before) :
    siblings.idxOf? id = some before.length := by
  have hsiblings : siblings = (before ++ id :: after).toArray := by rw [← Array.toList_inj, h]
  rw [hsiblings, List.idxOf?_toArray, List.idxOf?_eq_some_iff]
  refine ⟨?_, ?_, ?_⟩
  · simp
  · simp
  · intro j hj
    rw [List.getElem_append_left hj]
    intro heq
    exact hid (heq ▸ List.getElem_mem hj)

/-- A line of nodes, each the parent of the one before it, that ends at the root. -/
def Lineage (t : Tree) : List NodeId → Prop
  | [] => False
  | [id] => id = root ∧ t.parent? id = none
  | id :: up :: rest => t.parent? id = some up ∧ t.Lineage (up :: rest)

/-- The row `f` stands below `parent`, whose ancestors are `up`. The siblings `earlier` stand before
it; `before` and `behind` are all nodes executed before and after the row. -/
structure Row (t : Tree) (parent : NodeId) (up earlier before : List NodeId) (f : Forest)
    (behind : List NodeId) : Prop where
  hangs : t.Hangs parent f
  siblings : (t.children parent).toList = earlier ++ f.roots
  lineage : t.Lineage (parent :: up)
  depth : up.length ≤ before.length
  nodup : (root :: (before ++ f.ids ++ behind)).Nodup
  earlier_subset : earlier ⊆ before
  order : t.preorder = before ++ f.ids ++ behind
  total : t.size = t.preorder.length + 1

theorem Spans.row (h : t.Spans f) : t.Row root [] [] [] f [] where
  hangs := h.hangs
  siblings := by simpa using h.top
  lineage := ⟨rfl, h.orphan⟩
  depth := Nat.le_refl _
  nodup := by simpa using h.nodup
  earlier_subset := List.nil_subset _
  order := by simpa using h.preorder_eq
  total := by rw [h.preorder_eq, h.size_eq]

namespace Row

variable {t : Tree} {parent id : NodeId} {up earlier before behind : List NodeId}
  {below after : Forest}

theorem inner (h : t.Row parent up earlier before (.node id below after) behind) :
    t.Row id (parent :: up) [] (before ++ [id]) below (after.ids ++ behind) where
  hangs := h.hangs.2.2.1
  siblings := by simpa using h.hangs.2.1
  lineage := ⟨h.hangs.1, h.lineage⟩
  depth := by simpa using h.depth
  nodup := by simpa using h.nodup
  earlier_subset := List.nil_subset _
  order := by simpa using h.order
  total := h.total

theorem rest (h : t.Row parent up earlier before (.node id below after) behind) :
    t.Row parent up (earlier ++ [id]) (before ++ id :: below.ids) after behind where
  hangs := h.hangs.2.2.2
  siblings := by simpa using h.siblings
  lineage := h.lineage
  depth := by
    have := h.depth
    simp only [List.length_append]
    omega
  nodup := by simpa using h.nodup
  earlier_subset := by
    intro j hj
    rw [List.mem_append] at hj ⊢
    rcases hj with hj | hj
    · exact Or.inl (h.earlier_subset hj)
    · exact Or.inr (by simp_all)
  order := by simpa using h.order
  total := h.total

/-! ## Neighbours in a row -/

section

variable (h : t.Row parent up earlier before (.node id below after) behind)

include h

theorem parent?_eq : t.parent? id = some parent := h.hangs.1

theorem children_eq : (t.children id).toList = below.roots := h.hangs.2.1

theorem lastChild?_eq : t.lastChild? id = below.roots.getLast? := by
  rw [lastChild?, ← h.children_eq, Array.getLast?_toList]

theorem idxOf?_eq : (t.children parent).idxOf? id = some earlier.length := by
  have hnotMem : id ∉ earlier := by
    intro hmem
    have hn := h.nodup
    have hb := h.earlier_subset hmem
    simp only [Forest.ids_node, List.nodup_cons, List.append_assoc, List.cons_append,
      List.nodup_append] at hn
    exact hn.2.2.2 id hb id (by simp) rfl
  exact idxOf?_of_split h.siblings hnotMem

theorem next?_eq : t.next? id = after.roots.head? := by
  have hget : (t.children parent)[earlier.length + 1]? = after.roots.head? := by
    rw [← Array.getElem?_toList, h.siblings, List.getElem?_append_right (Nat.le_succ _)]
    simp [List.head?_eq_getElem?]
  simp [next?, h.parent?_eq, h.idxOf?_eq, hget]

theorem previous?_eq : t.previous? id = earlier.getLast? := by
  simp only [previous?, h.parent?_eq, h.idxOf?_eq, Option.bind_eq_bind, Option.bind_some]
  rcases List.eq_nil_or_concat' earlier with rfl | ⟨init, last, rfl⟩
  · rfl
  · have hget : (t.children parent)[init.length]? = some last := by
      rw [← Array.getElem?_toList, h.siblings]
      simp
    simp [hget]

end

/-! ## Far relatives -/

/-- Climbing from the start of a line of nodes goes through all of it. -/
theorem climb_lineage {t : Tree} {line : List NodeId} {first : NodeId} {steps : Nat}
    (h : t.Lineage (first :: line)) (hsteps : line.length < steps) :
    t.climb steps (some first) = first :: line := by
  induction line generalizing first steps with
  | nil =>
    obtain ⟨steps, rfl⟩ := Nat.exists_eq_add_one.mpr (Nat.zero_lt_of_lt hsteps)
    rw [climb, h.2]
    cases steps <;> rfl
  | cons next rest ih =>
    obtain ⟨steps, rfl⟩ := Nat.exists_eq_add_one.mpr (Nat.zero_lt_of_lt hsteps)
    rw [climb, h.1, ih h.2 (Nat.lt_of_succ_lt_succ hsteps)]

theorem ancestors_eq (h : t.Row parent up earlier before (.node id below after) behind) :
    t.ancestors id = parent :: up := by
  rw [ancestors, h.parent?_eq]
  apply climb_lineage h.lineage
  have hdepth := h.depth
  rw [h.total, h.order]
  simp only [List.length_append]
  omega

/-- Going to the last child again and again ends at the last node of the row below. -/
theorem descend_eq {t : Tree} {first : NodeId} {row : Forest} {steps : Nat}
    (hlast : t.lastChild? first = row.roots.getLast?) (h : t.Hangs first row)
    (hsteps : row.ids.length < steps) : t.descend steps first = row.lastNode first := by
  induction row generalizing first steps with
  | nil =>
    obtain ⟨steps, rfl⟩ := Nat.exists_eq_add_one.mpr (Nat.zero_lt_of_lt hsteps)
    rw [descend, hlast]
    rfl
  | node child below after ihb iha =>
    obtain ⟨_, hc, hb, ha⟩ := h
    simp only [Forest.ids_node, List.length_cons, List.length_append] at hsteps
    cases after with
    | nil =>
      obtain ⟨steps, rfl⟩ := Nat.exists_eq_add_one.mpr (Nat.zero_lt_of_lt hsteps)
      rw [descend, hlast]
      simp only [Forest.roots_node, Forest.roots_nil, List.getLast?_singleton, Forest.lastNode]
      apply ihb _ hb (by omega)
      rw [lastChild?, ← hc, Array.getLast?_toList]
    | node next below' after' =>
      rw [Forest.lastNode]
      · exact iha (by simpa using hlast) ha (by omega)
      · simp

theorem lastOfSubtree_eq (h : t.Row parent up earlier before (.node id below after) behind) :
    t.lastOfSubtree id = below.lastNode id := by
  apply descend_eq h.lastChild?_eq h.hangs.2.2.1
  rw [h.total, h.order]
  simp only [Forest.ids_node, List.length_append, List.length_cons]
  omega

end Row

end Tree

end GameScript
