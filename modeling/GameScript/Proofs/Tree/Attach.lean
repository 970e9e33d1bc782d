import GameScript.Proofs.Tree.Spans

/-!
# Trees under construction

Trees are changed at one node at a time. `Tree.Hangs.alter` says what has to be checked at that
node, so that the links of all others still are those of the shape.

While a tree is built, some nodes of its store are created but not attached yet. `Tree.Loose` is
`Tree.Spans` with such nodes. Creating a node adds one, attaching it below a node of the shape takes
it away, and when none is left the tree spans its shape.
-/

namespace GameScript

namespace Forest

/-! ## Changing one node of a shape -/

def insertAfter (id : NodeId) (added : List NodeId) (l : List NodeId) : List NodeId :=
  l.flatMap fun j => if j = id then j :: added else [j]

theorem insertAfter_of_notMem {id : NodeId} (added : List NodeId) {l : List NodeId} (h : id ∉ l) :
    insertAfter id added l = l := by
  induction l with
  | nil => rfl
  | cons j rest ih =>
    simp only [List.mem_cons, not_or] at h
    simp only [insertAfter, List.flatMap_cons, if_neg (Ne.symm h.1)]
    exact congrArg (j :: ·) (ih h.2)

theorem insertAfter_nil (id : NodeId) (l : List NodeId) : insertAfter id [] l = l := by
  induction l with
  | nil => rfl
  | cons j rest ih =>
    simp only [insertAfter, ite_self] at ih ⊢
    exact congrArg (j :: ·) ih

theorem insertAfter_split {id : NodeId} (added : List NodeId) {before after : List NodeId}
    (hbefore : id ∉ before) (hafter : id ∉ after) :
    insertAfter id added (before ++ id :: after) = before ++ id :: (added ++ after) := by
  have hb := insertAfter_of_notMem added hbefore
  have ha := insertAfter_of_notMem added hafter
  simp only [insertAfter] at hb ha ⊢
  rw [List.flatMap_append, List.flatMap_cons, hb, ha, if_pos rfl]
  rfl

theorem subset_insertAfter (id : NodeId) (added l : List NodeId) : l ⊆ insertAfter id added l := by
  intro j hj
  refine List.mem_flatMap.mpr ⟨j, hj, ?_⟩
  split <;> simp

/-- What is put behind a node is all that a filter finds, if it finds all of it and nothing else. -/
theorem filter_insertAfter_eq_added {p : NodeId → Bool} {id : NodeId} {added : List NodeId}
    (h : ∀ j ∈ added, p j = true) {l : List NodeId} (hl : ∀ j ∈ l, p j = false) (hnodup : l.Nodup)
    (hid : id ∈ l) :
    (insertAfter id added l).filter p = added := by
  obtain ⟨a, b, rfl⟩ := List.append_of_mem hid
  rw [List.nodup_append, List.nodup_cons] at hnodup
  have hbefore : id ∉ a := fun hc => hnodup.2.2 id hc id (by simp) rfl
  have hnone : ∀ l' : List NodeId, l' ⊆ a ++ id :: b → l'.filter p = [] :=
    fun l' hsubset => List.filter_eq_nil_iff.mpr fun j hj => by simp [hl j (hsubset hj)]
  rw [insertAfter_split _ hbefore hnodup.2.1.1, List.filter_append, List.filter_cons,
    hl id (by simp), List.filter_append, hnone a (by simp), hnone b (fun j hj => by simp [hj]),
    List.filter_eq_self.mpr h]
  simp

theorem filter_insertAfter {p : NodeId → Bool} (id : NodeId) {added : List NodeId}
    (h : ∀ j ∈ added, p j = false) (l : List NodeId) :
    (insertAfter id added l).filter p = l.filter p := by
  have hadded : added.filter p = [] := List.filter_eq_nil_iff.mpr fun j hj => by simp [h j hj]
  induction l with
  | nil => rfl
  | cons j rest ih =>
    simp only [insertAfter] at ih ⊢
    rw [List.flatMap_cons, List.filter_append, ih]
    by_cases hj : j = id
    · rw [if_pos hj, List.filter_cons, List.filter_cons, hadded]
      split <;> rfl
    · rw [if_neg hj, List.filter_cons, List.filter_cons]
      split <;> rfl

variable {target : NodeId} {shape : Forest → Forest → Forest}

theorem roots_alter (added : List NodeId)
    (hshape : ∀ below after, (shape below after).roots = target :: (added ++ after.roots))
    {f : Forest} (hnodup : f.ids.Nodup) :
    (f.alter target shape).roots = insertAfter target added f.roots := by
  induction f with
  | nil => rfl
  | node j below after _ ih =>
    rw [nodup_ids_node] at hnodup
    obtain ⟨⟨_, hja⟩, _, hna, _⟩ := hnodup
    by_cases hj : j = target
    · subst hj
      rw [alter_node_self, hshape]
      have hnot : j ∉ after.roots := fun hc => hja (mem_ids_of_mem_roots hc)
      exact (insertAfter_split added List.not_mem_nil hnot).symm
    · rw [alter_node_of_ne hj, roots_node, ih hna]
      simp only [insertAfter, roots_node, List.flatMap_cons, if_neg hj]
      rfl

/-- What stands in the place of one node adds its own nodes to the others. -/
theorem ids_alter_perm (extra : List NodeId)
    (hshape : ∀ below after, (shape below after).ids.Perm (extra ++ (node target below after).ids))
    {f : Forest} (hnodup : f.ids.Nodup) (htarget : target ∈ f.ids) :
    (f.alter target shape).ids.Perm (extra ++ f.ids) := by
  induction f with
  | nil => simp at htarget
  | node j below after ihb iha =>
    rw [nodup_ids_node] at hnodup
    obtain ⟨_, hb, ha, hdisjoint⟩ := hnodup
    by_cases hj : j = target
    · subst hj
      rw [alter_node_self]
      exact hshape below after
    · rw [alter_node_of_ne hj]
      simp only [ids_node, List.mem_cons, List.mem_append] at htarget
      rcases htarget with heq | hin | hin
      · exact absurd heq.symm hj
      · have hnot : target ∉ after.ids := fun hc => hdisjoint target hin target hc rfl
        rw [alter_of_notMem hnot]
        have hrow := (((ihb hb hin).append_right after.ids).cons j)
        rw [List.append_assoc] at hrow
        exact hrow.trans List.perm_middle.symm
      · have hnot : target ∉ below.ids := fun hc => hdisjoint target hc target hin rfl
        rw [alter_of_notMem hnot]
        have hmove : (below.ids ++ (extra ++ after.ids)).Perm
            (extra ++ (below.ids ++ after.ids)) := by
          rw [← List.append_assoc, ← List.append_assoc]
          exact List.perm_append_comm.append_right after.ids
        exact ((((iha ha hin).append_left below.ids).trans hmove).cons j).trans
          List.perm_middle.symm

def Has : Forest → NodeId → Forest → Forest → Prop
  | nil, _, _, _ => False
  | node id b a, target, below, after =>
    (id = target ∧ b = below ∧ a = after) ∨ b.Has target below after ∨ a.Has target below after

namespace Has

variable {f : Forest} {id : NodeId} {below after : Forest}

theorem append (g : Forest) (h : f.Has id below after) : (g ++ f).Has id below after := by
  induction g with
  | nil => exact h
  | node _ _ _ _ ih => exact .inr (.inr ih)

theorem ids_sublist (h : f.Has id below after) : (node id below after).ids.Sublist f.ids := by
  induction f with
  | nil => exact h.elim
  | node j b a ihb iha =>
    rcases h with ⟨rfl, rfl, rfl⟩ | h | h
    · exact .refl _
    · exact ((ihb h).trans (List.sublist_append_left _ _)).cons j
    · exact ((iha h).trans (List.sublist_append_right _ _)).cons j

theorem ids_subset (h : f.Has id below after) : (node id below after).ids ⊆ f.ids :=
  h.ids_sublist.subset

theorem nodup (h : f.Has id below after) (hnodup : f.ids.Nodup) : (node id below after).ids.Nodup :=
  hnodup.sublist h.ids_sublist

theorem unique {b a : Forest} (h : f.Has id below after) (h' : f.Has id b a)
    (hnodup : f.ids.Nodup) :
    below = b ∧ after = a := by
  induction f with
  | nil => exact h.elim
  | node j x y ihx ihy =>
    rw [nodup_ids_node] at hnodup
    obtain ⟨⟨hx, hy⟩, hnx, hny, hdisjoint⟩ := hnodup
    have hmem : ∀ {g b a : Forest}, g.Has id b a → id ∈ g.ids :=
      fun hg => hg.ids_subset (List.mem_cons_self ..)
    rcases h with ⟨hj, hbelow, hafter⟩ | h | h <;> rcases h' with ⟨hj', hb, ha⟩ | h' | h'
    · exact ⟨hbelow.symm.trans hb, hafter.symm.trans ha⟩
    · exact absurd (hj ▸ hmem h') hx
    · exact absurd (hj ▸ hmem h') hy
    · exact absurd (hj' ▸ hmem h) hx
    · exact ihx h h' hnx
    · exact absurd rfl (hdisjoint id (hmem h) id (hmem h'))
    · exact absurd (hj' ▸ hmem h) hy
    · exact absurd rfl (hdisjoint id (hmem h') id (hmem h))
    · exact ihy h h' hny

theorem alter_self (h : f.Has target below after) (hnodup : f.ids.Nodup) {b a : Forest}
    (hshape : shape below after = node id b a) : (f.alter target shape).Has id b a := by
  induction f with
  | nil => exact h.elim
  | node j b' a' ihb iha =>
    have hids := hnodup
    rw [nodup_ids_node] at hids
    rcases h with ⟨rfl, rfl, rfl⟩ | h | h
    · rw [alter_node_self, hshape]
      exact .inl ⟨rfl, rfl, rfl⟩
    · have hne : j ≠ target := fun hc => hids.1.1 (hc ▸ h.ids_subset (by simp))
      rw [alter_node_of_ne hne]
      exact .inr (.inl (ihb h hids.2.1))
    · have hne : j ≠ target := fun hc => hids.1.2 (hc ▸ h.ids_subset (by simp))
      rw [alter_node_of_ne hne]
      exact .inr (.inr (iha h hids.2.2.1))

/-- A node stays where it is if another one is replaced by something that keeps what is below and
after it. -/
theorem alter (h : f.Has id below after) (hne : id ≠ target) (hnodup : f.ids.Nodup)
    (hshape : ∀ {b a x y}, b.Has id x y ∨ a.Has id x y → (shape b a).Has id x y) :
    (f.alter target shape).Has id (below.alter target shape) (after.alter target shape) := by
  induction f with
  | nil => exact h.elim
  | node j b a ihb iha =>
    rw [nodup_ids_node] at hnodup
    by_cases hj : j = target
    · subst hj
      -- What is below or after the replaced node is kept, and the node is not in there again.
      have hnot : ∀ {g : Forest}, g.Has id below after → j ∉ g.ids →
          below.alter j shape = below ∧ after.alter j shape = after := by
        intro g hg hnot
        constructor <;> exact alter_of_notMem fun hc => hnot (hg.ids_subset (by simp [hc]))
      rw [alter_node_self]
      rcases h with ⟨rfl, -, -⟩ | h | h
      · exact absurd rfl hne
      · obtain ⟨hb, ha⟩ := hnot h hnodup.1.1
        rw [hb, ha]
        exact hshape (.inl h)
      · obtain ⟨hb, ha⟩ := hnot h hnodup.1.2
        rw [hb, ha]
        exact hshape (.inr h)
    · rw [alter_node_of_ne hj]
      rcases h with ⟨rfl, rfl, rfl⟩ | h | h
      · exact .inl ⟨rfl, rfl, rfl⟩
      · exact .inr (.inl (ihb h hnodup.2.1))
      · exact .inr (.inr (iha h hnodup.2.2.1))

end Has

theorem alter_leaves_append {l : List NodeId} (hl : target ∉ l) (f : Forest) :
    (leaves l ++ f).alter target shape = leaves l ++ f.alter target shape := by
  induction l with
  | nil => rfl
  | cons id l ih =>
    simp only [List.mem_cons, not_or] at hl
    rw [leaves_cons, node_append, alter_node_of_ne (Ne.symm hl.1), alter_nil, ih hl.2, node_append]

/-- What starts with the node that it replaces puts its other nodes right behind that node. -/
theorem ids_alter (added : List NodeId) {f : Forest}
    (hshape : ∀ below after, f.Has target below after →
      (shape below after).ids = target :: (added ++ (below.ids ++ after.ids)))
    (hnodup : f.ids.Nodup) : (f.alter target shape).ids = insertAfter target added f.ids := by
  induction f with
  | nil => rfl
  | node j below after ihb iha =>
    rw [nodup_ids_node] at hnodup
    obtain ⟨⟨hjb, hja⟩, hb, ha, _⟩ := hnodup
    by_cases hj : j = target
    · subst hj
      rw [alter_node_self, hshape below after (Or.inl ⟨rfl, rfl, rfl⟩), ids_node]
      have hnot : j ∉ below.ids ++ after.ids := by simp [hjb, hja]
      exact (insertAfter_split added List.not_mem_nil hnot).symm
    · rw [alter_node_of_ne hj, ids_node, ids_node,
        ihb (fun b a h => hshape b a (Or.inr (Or.inl h))) hb,
        iha (fun b a h => hshape b a (Or.inr (Or.inr h))) ha]
      simp only [insertAfter, List.flatMap_cons, List.flatMap_append, if_neg hj]
      rfl

/-! ## Attaching a node -/

/-- Put a node behind everything that is below another node, or behind the whole row if that is the
root. -/
def attach (parent id : NodeId) (f : Forest) : Forest :=
  if parent = Tree.root then f ++ leaf id
  else f.alter parent fun below after => node parent (below ++ leaf id) after

theorem roots_attach {parent : NodeId} (hparent : parent ≠ Tree.root) (id : NodeId) (f : Forest) :
    (f.attach parent id).roots = f.roots := by
  simp only [attach, if_neg hparent]
  induction f with
  | nil => rfl
  | node j below after _ ih =>
    by_cases hj : j = parent
    · subst hj
      rw [alter_node_self]
      rfl
    · rw [alter_node_of_ne hj, roots_node, ih, roots_node]

theorem ids_attach_perm {parent id : NodeId} {f : Forest} (hnodup : (Tree.root :: f.ids).Nodup)
    (hparent : parent ∈ Tree.root :: f.ids) : (f.attach parent id).ids.Perm (id :: f.ids) := by
  by_cases hroot : parent = Tree.root
  · simp only [attach, if_pos hroot, ids_append, ids_leaf]
    exact List.perm_append_comm
  · rw [attach, if_neg hroot]
    refine ids_alter_perm [id] ?_ (List.nodup_cons.mp hnodup).2 (by simpa [hroot] using hparent)
    intro below after
    simp only [ids_node, ids_append, ids_leaf]
    have hmove : (below.ids ++ [id] ++ after.ids).Perm (id :: (below.ids ++ after.ids)) := by simp
    exact (hmove.cons parent).trans (List.Perm.swap ..)

end Forest

/-- What stands in the place of one node changes the links of the other nodes only where nodes are
added behind that node. `old` tells the nodes that were there before. -/
theorem Tree.Hangs.alter {t u : Tree} {target : NodeId} {shape : Forest → Forest → Forest}
    (old : NodeId → Prop) (added : List NodeId)
    (hshape : ∀ below after, (shape below after).roots = target :: (added ++ after.roots))
    (hparent : ∀ j, old j → t.parent? j ≠ some target → u.parent? j = t.parent? j)
    (hchildren : ∀ j, old j → j ≠ target →
      (u.children j).toList = Forest.insertAfter target added (t.children j).toList)
    (hhere : ∀ {parent below after}, t.Hangs parent (.node target below after) →
      (parent :: (Forest.node target below after).ids).Nodup →
      (∀ j ∈ (Forest.node target below after).ids, old j) → u.Hangs parent (shape below after))
    {parent : NodeId} {f : Forest} (h : t.Hangs parent f) (hne : parent ≠ target)
    (hnodup : (parent :: f.ids).Nodup) (hold : ∀ j ∈ f.ids, old j) :
    u.Hangs parent (f.alter target shape) := by
  induction f generalizing parent with
  | nil => trivial
  | node j below after ihb iha =>
    by_cases hj : j = target
    · subst hj
      rw [Forest.alter_node_self]
      exact hhere h hnodup hold
    · rw [Forest.alter_node_of_ne hj]
      obtain ⟨hp, hc, hb, ha⟩ := h
      simp only [Forest.ids_node, List.nodup_cons, List.mem_cons, List.mem_append, not_or,
        List.nodup_append] at hnodup
      obtain ⟨⟨_, hpb, hpa⟩, ⟨hjb, _⟩, hnb, hna, _⟩ := hnodup
      refine ⟨?_, ?_, ?_, ?_⟩
      · rw [hparent j (hold j (by simp)) (by rw [hp]; exact fun he => hne (Option.some.inj he)), hp]
      · rw [hchildren j (hold j (by simp)) hj, hc, Forest.roots_alter added hshape hnb]
      · exact ihb hb hj (List.nodup_cons.mpr ⟨hjb, hnb⟩) fun k hk => hold k (by simp [hk])
      · exact iha ha hne (List.nodup_cons.mpr ⟨hpa, hna⟩) fun k hk => hold k (by simp [hk])

theorem Tree.Hangs.children_of_has {t : Tree} {parent target : NodeId} {f below after : Forest}
    (h : t.Hangs parent f) (hhas : f.Has target below after) :
    (t.children target).toList = below.roots := by
  induction f generalizing parent with
  | nil => exact hhas.elim
  | node j b a ihb iha =>
    obtain ⟨_, hc, hb, ha⟩ := h
    rcases hhas with ⟨rfl, rfl, rfl⟩ | hhas | hhas
    · exact hc
    · exact ihb hb hhas
    · exact iha ha hhas

namespace Tree

/-- The tree holds the nodes of a forest below its root; `spare` holds the nodes that are not
attached. -/
structure Loose (t : Tree) (f : Forest) (spare : List NodeId) : Prop where
  top : (t.children root).toList = f.roots
  orphan : t.parent? root = none
  hangs : t.Hangs root f
  nodup : (root :: (f.ids ++ spare)).Nodup
  covers : ∀ id, id < t.size ↔ id ∈ root :: (f.ids ++ spare)
  childless : ∀ id ∈ spare, t.children id = #[]

theorem Spans.loose {t : Tree} {f : Forest} (h : t.Spans f) : t.Loose f [] where
  top := h.top
  orphan := h.orphan
  hangs := h.hangs
  nodup := by simpa using h.nodup
  covers := by simpa using h.covers
  childless := by simp

theorem Loose.spans {t : Tree} {f : Forest} (h : t.Loose f []) : t.Spans f where
  top := h.top
  orphan := h.orphan
  hangs := h.hangs
  nodup := by simpa using h.nodup
  covers := by simpa using h.covers

theorem Loose.create {t : Tree} {f : Forest} {spare : List NodeId} (h : t.Loose f spare) {n : Node}
    (hn : n.children = #[]) : (t.create n).1.Loose f (t.size :: spare) := by
  have hfresh : t.size ∉ root :: (f.ids ++ spare) := fun hc => Nat.lt_irrefl _ ((h.covers _).mpr hc)
  have hnode : ∀ id ∈ root :: (f.ids ++ spare), (t.create n).1.node id = t.node id := by
    intro id hid
    rw [node_create, if_neg]
    rintro rfl
    exact hfresh hid
  have hperm : (root :: (f.ids ++ t.size :: spare)).Perm (t.size :: root :: (f.ids ++ spare)) :=
    (List.perm_middle.cons root).trans (List.Perm.swap ..)
  refine ⟨?_, ?_, ?_, ?_, ?_, ?_⟩
  · rw [children, hnode root (by simp)]
    exact h.top
  · rw [parent?, hnode root (by simp)]
    exact h.orphan
  · refine h.hangs.congr ?_ ?_
    · intro id hid
      rw [parent?, parent?, hnode id (by simp [hid])]
    · intro id hid
      rw [children, children, hnode id (by simp [hid])]
  · exact hperm.nodup_iff.mpr (List.nodup_cons.mpr ⟨hfresh, h.nodup⟩)
  · intro id
    rw [hperm.mem_iff, List.mem_cons, ← h.covers id, size_create, Nat.lt_succ_iff_lt_or_eq, or_comm]
  · intro id hid
    rcases List.mem_cons.mp hid with rfl | hid
    · rw [children, node_create, if_pos rfl, hn]
    · rw [children, hnode id (by simp [hid])]
      exact h.childless id hid

/-- Attaching a node below another one keeps the links of the others. -/
theorem Hangs.append {t : Tree} {top parent id : NodeId} {f : Forest} (h : t.Hangs top f)
    (hnodup : (top :: f.ids).Nodup) (hid : id ∉ f.ids) (hroot : parent ≠ root) (htop : top ≠ parent)
    (hparent : parent < t.size) (hidSize : id < t.size) (hchild : t.children id = #[])
    (hne : parent ≠ id) :
    (t.append parent id).Hangs top (f.attach parent id) := by
  have hparents : ∀ j, j ≠ id → (t.append parent id).parent? j = t.parent? j := by
    intro j hj
    rw [parent?_append, if_neg (fun hc => hj hc.1.symm)]
  have hchildren : ∀ j, j ≠ parent → (t.append parent id).children j = t.children j := by
    intro j hj
    exact children_append_of_ne t id hj
  rw [Forest.attach, if_neg hroot]
  refine Hangs.alter (fun j => j ≠ id) [] (fun _ _ => rfl) (fun j hj _ => hparents j hj) ?_ ?_ h
    htop hnodup (fun j hj e => hid (e ▸ hj))
  · intro j _ hj
    rw [hchildren j hj, Forest.insertAfter_nil]
  · rintro above below after ⟨hp, hc, hb, ha⟩ hn hold
    simp only [Forest.ids_node, List.nodup_cons, List.mem_append, not_or] at hn
    obtain ⟨_, ⟨hpb, hpa⟩, _⟩ := hn
    refine ⟨?_, ?_, hangs_append.mpr ⟨?_, ?_, ?_, trivial, trivial⟩, ?_⟩
    · rw [hparents parent hne, hp]
    · rw [children_append_self id hparent, Array.toList_push, hc, Forest.roots_append,
        Forest.roots_leaf]
    · exact hb.congr (fun k hk => hparents k (hold k (by simp [hk])))
        (fun k hk => hchildren k (fun e => hpb (e ▸ hk)))
    · rw [parent?_append, if_pos ⟨rfl, hidSize⟩]
    · rw [hchildren id (Ne.symm hne), hchild]
      rfl
    · exact ha.congr (fun k hk => hparents k (hold k (by simp [hk])))
        (fun k hk => hchildren k (fun e => hpa (e ▸ hk)))

theorem Loose.append {t : Tree} {f : Forest} {parent id : NodeId} {spare : List NodeId}
    (h : t.Loose f (id :: spare)) (hparent : parent ∈ root :: f.ids) :
    (t.append parent id).Loose (f.attach parent id) spare := by
  have hperm : (root :: (f.ids ++ id :: spare)).Perm (id :: root :: (f.ids ++ spare)) :=
    (List.perm_middle.cons root).trans (List.Perm.swap ..)
  have hnodup := hperm.nodup_iff.mp h.nodup
  obtain ⟨hidNot, hrest⟩ := List.nodup_cons.mp hnodup
  have hsub : (root :: f.ids).Sublist (root :: (f.ids ++ spare)) :=
    (List.sublist_append_left f.ids spare).cons_cons root
  have hne : parent ≠ id := fun e => hidNot (hsub.subset (e ▸ hparent))
  have hidRoot : id ≠ root := fun e => hidNot (by simp [e])
  have hidf : id ∉ f.ids := fun hc => hidNot (by simp [hc])
  have hidSize : id < t.size := (h.covers id).mpr (by simp)
  have hparentSize : parent < t.size := (h.covers parent).mpr <| by
    simp only [List.mem_cons, List.mem_append] at hparent ⊢
    tauto
  have hids : (f.attach parent id).ids.Perm (id :: f.ids) :=
    Forest.ids_attach_perm (hrest.sublist hsub) hparent
  have hall : (root :: ((f.attach parent id).ids ++ spare)).Perm (root :: (f.ids ++ id :: spare)) :=
    (((hids.append_right spare).trans List.perm_middle.symm).cons root)
  refine ⟨?_, ?_, ?_, hall.nodup_iff.mpr h.nodup, ?_, ?_⟩
  · by_cases hroot : parent = root
    · subst hroot
      rw [children_append_self id hparentSize, Array.toList_push, h.top, Forest.attach, if_pos rfl,
        Forest.roots_append, Forest.roots_leaf]
    · rw [children_append_of_ne t id (Ne.symm hroot), h.top, Forest.roots_attach hroot]
  · rw [parent?_append, if_neg (fun hc => hidRoot hc.1), h.orphan]
  · by_cases hroot : parent = root
    · subst hroot
      rw [Forest.attach, if_pos rfl]
      refine hangs_append.mpr ⟨h.hangs.congr ?_ ?_, ?_, ?_, trivial, trivial⟩
      · intro j hj
        rw [parent?_append, if_neg]
        rintro ⟨rfl, _⟩
        exact hidf hj
      · intro j hj
        rw [children_append, if_neg]
        rintro ⟨rfl, _⟩
        exact (List.nodup_cons.mp hrest).1 (by simp [hj])
      · rw [parent?_append, if_pos ⟨rfl, hidSize⟩]
      · rw [children_append_of_ne t id (Ne.symm hne), h.childless id (by simp)]
        rfl
    · exact h.hangs.append (hrest.sublist hsub) hidf hroot (Ne.symm hroot) hparentSize hidSize
        (h.childless id (by simp)) hne
  · intro j
    rw [size_append, h.covers j, hall.mem_iff]
  · intro j hj
    rw [children_append, if_neg, h.childless j (by simp [hj])]
    rintro ⟨rfl, _⟩
    have hmem : parent ∈ root :: f.ids := hparent
    have hnod :=
      (List.nodup_append.mp (List.cons_append .. ▸ hrest : ((root :: f.ids) ++ spare).Nodup)).2.2
    exact hnod parent hmem parent hj rfl

/-! ## What is said about the nodes -/

structure Keeps (t u : Tree) : Prop where
  size : t.size ≤ u.size
  statement : ∀ id < t.size, (u.node id).statement = (t.node id).statement
  origin : ∀ id < t.size, (u.node id).origin = (t.node id).origin
  diagnostic : ∀ id < t.size, (u.node id).diagnostic = (t.node id).diagnostic

namespace Keeps

theorem refl (t : Tree) : t.Keeps t :=
  ⟨Nat.le_refl _, fun _ _ => rfl, fun _ _ => rfl, fun _ _ => rfl⟩

theorem trans {t u v : Tree} (h : t.Keeps u) (h' : u.Keeps v) : t.Keeps v where
  size := Nat.le_trans h.size h'.size
  statement id hid := (h'.statement id (Nat.lt_of_lt_of_le hid h.size)).trans (h.statement id hid)
  origin id hid := (h'.origin id (Nat.lt_of_lt_of_le hid h.size)).trans (h.origin id hid)
  diagnostic id hid :=
    (h'.diagnostic id (Nat.lt_of_lt_of_le hid h.size)).trans (h.diagnostic id hid)

theorem create (t : Tree) (n : Node) : t.Keeps (t.create n).1 := by
  have hnode : ∀ id < t.size, (t.create n).1.node id = t.node id := by
    intro id hid
    rw [node_create, if_neg (Nat.ne_of_lt hid)]
  refine ⟨by simp, ?_, ?_, ?_⟩ <;> intro id hid <;> rw [hnode id hid]

theorem append (t : Tree) (parent child : NodeId) : t.Keeps (t.append parent child) where
  size := by simp
  statement id _ := Node.eq_of_unlinked (unlinked_append t parent child id) Node.statement
  origin id _ := Node.eq_of_unlinked (unlinked_append t parent child id) Node.origin
  diagnostic id _ := Node.eq_of_unlinked (unlinked_append t parent child id) Node.diagnostic

end Keeps

end Tree

end GameScript
