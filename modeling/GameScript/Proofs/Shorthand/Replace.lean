import GameScript.Proofs.Lists
import GameScript.Proofs.Tree.Attach
import GameScript.Shorthand.Expand

/-!
# Replacing a shorthand

`Tree.replace` puts the statements that stand for a shorthand behind its header. The links of the
tree afterwards are those of the shape with `Generated.shape` in the place of the header
(`Tree.Spans.replace`), and nothing is said differently about the other nodes
(`Tree.replace_gains`).
-/

namespace GameScript

def Node.retired (n : Node) : Node :=
  { n with origin := .header, statement := { n.statement with kind := .auxiliary } }

namespace Tree

/-! ## What is said about the nodes -/

/-- The tree `u` says the same as `t` about the nodes of `t`, and has these generated statements
besides. -/
structure Gains (header : NodeId) (added : List Statement) (t u : Tree) : Prop where
  size : u.size = t.size + added.length
  old : ∀ j < t.size, (u.node j).unlinked = (t.node j).unlinked
  new : ∀ i s, added[i]? = some s → (u.node (t.size + i)).unlinked = generatedNode header s

namespace Gains

variable (header : NodeId)

theorem refl (t : Tree) : t.Gains header [] t := ⟨rfl, fun _ _ => rfl, fun _ _ h => by cases h⟩

theorem trans {header : NodeId} {added added' : List Statement} {t u v : Tree}
    (h : Gains header added t u) (h' : Gains header added' u v) :
    Gains header (added ++ added') t v where
  size := by rw [h'.size, h.size, List.length_append, Nat.add_assoc]
  old j hj := by
    have hlt : j < u.size := by
      rw [h.size]
      exact Nat.lt_add_right _ hj
    rw [h'.old j hlt, h.old j hj]
  new i s hi := by
    by_cases hlt : i < added.length
    · rw [List.getElem?_append_left hlt] at hi
      have hu : t.size + i < u.size := by
        rw [h.size]
        exact Nat.add_lt_add_left hlt _
      rw [h'.old _ hu, h.new i s hi]
    · replace hlt := Nat.le_of_not_lt hlt
      rw [List.getElem?_append_right hlt] at hi
      have hplace : t.size + i = u.size + (i - added.length) := by
        rw [h.size]
        omega
      rw [hplace, h'.new _ s hi]

theorem create (t : Tree) (s : Statement) :
    Gains header [s] t (t.create (generatedNode header s)).1 where
  size := by simp
  old j hj := by rw [node_create, if_neg (Nat.ne_of_lt hj)]
  new i s' hi := by
    cases i with
    | zero =>
      cases hi
      rw [node_create, if_pos (Nat.add_zero _)]
      rfl
    | succ i => cases hi

theorem insert (t : Tree) (parent : NodeId) (position : Nat) (child : NodeId) :
    Gains header [] t (t.insert parent position child) where
  size := by simp
  old j _ := unlinked_insert t parent position child j
  new i s hi := by cases hi

theorem insertGenerated (parent : NodeId) (t : Tree) (position : Nat) (added : List Statement) :
    Gains header added t (insertGenerated header parent t position added) := by
  induction added generalizing t position with
  | nil => exact refl header t
  | cons s rest ih => exact ((create header t s).trans (insert header _ _ _ _)).trans (ih _ _)

theorem appendAll (t : Tree) (parent : NodeId) (ids : List NodeId) :
    Gains header [] t (t.appendAll parent ids) := by
  induction ids generalizing t with
  | nil => exact refl header t
  | cons id rest ih =>
    rw [Tree.appendAll, List.foldl_cons, append_eq_insert (Nat.le_refl _)]
    exact (insert header t parent _ id).trans (ih _)

end Gains

/-! ## Links -/

theorem node_of_size_le {t : Tree} {j : NodeId} (h : t.size ≤ j) : t.node j = default := by
  have hnone : t.nodes[j]? = none := Array.getElem?_eq_none h
  simp only [node, Array.getD_eq_getD_getElem?, hnone, Option.getD_none]

theorem children_of_size_le {t : Tree} {j : NodeId} (h : t.size ≤ j) : t.children j = #[] := by
  rw [children, node_of_size_le h]
  rfl

theorem children_create_generated (t : Tree) (header : NodeId) (s : Statement) (j : NodeId) :
    (t.create (generatedNode header s)).1.children j = t.children j := by
  rw [children, node_create]
  split
  · next h =>
    rw [children_of_size_le (Nat.le_of_eq h.symm)]
    rfl
  · rfl

theorem parent?_create_generated (t : Tree) (header : NodeId) (s : Statement) {j : NodeId}
    (hj : j ≠ t.size) :
    (t.create (generatedNode header s)).1.parent? j = t.parent? j := by
  rw [parent?, node_create, if_neg hj]
  rfl

/-- A generated node is put behind the children that stand before a place. -/
theorem children_insert_generated {t : Tree} {parent : NodeId} {before after : List NodeId}
    (header : NodeId) (s : Statement) (hparent : parent < t.size)
    (h : (t.children parent).toList = before ++ after) (j : NodeId) :
    (((t.create (generatedNode header s)).1.insert parent before.length t.size).children j).toList =
      if j = parent then (before ++ [t.size]) ++ after else (t.children j).toList := by
  rw [children_insert, children_create_generated]
  by_cases hj : j = parent
  · subst hj
    have hmin : min before.length (t.children j).size = before.length := by
      rw [← Array.length_toList, h, List.length_append]
      omega
    have hlt : j < (t.create (generatedNode header s)).1.size := by
      rw [size_create]
      exact Nat.lt_succ_of_lt hparent
    rw [if_pos ⟨rfl, hlt⟩, if_pos rfl, hmin, h, insertIdx_length, List.append_assoc,
      List.singleton_append]
  · rw [if_neg (fun hc => hj hc.1.symm), if_neg hj]

/-- Attaching what was just created changes the parent of no other node. -/
theorem parent?_attach_generated {t : Tree} {header parent : NodeId} (s : Statement) (rest : Nat)
    (j : NodeId) :
    (if j ∈ List.range' (t.size + 1) rest then some parent
      else if t.size = j ∧ j < t.size + 1 then some parent
      else (t.create (generatedNode header s)).1.parent? j) =
    if j ∈ List.range' t.size (rest + 1) then some parent else t.parent? j := by
  rw [List.range'_succ]
  by_cases hj : j = t.size
  · subst hj
    simp
  · rw [parent?_create_generated t header s hj, if_neg (fun hc : t.size = j ∧ _ => hj hc.1.symm)]
    simp [hj]

section Generated

variable {t : Tree} {header parent : NodeId}

theorem insertGenerated_cons (header parent : NodeId) (t : Tree) (position : Nat) (s : Statement)
    (rest : List Statement) :
    insertGenerated header parent t position (s :: rest) =
      insertGenerated header parent ((t.create (generatedNode header s)).1.insert parent
        position t.size)
        (position + 1) rest := rfl

theorem children_insertGenerated {before after : List NodeId} (header : NodeId)
    (added : List Statement) (hparent : parent < t.size)
    (h : (t.children parent).toList = before ++ after) (j : NodeId) :
    ((insertGenerated header parent t before.length added).children j).toList =
      if j = parent then before ++ (List.range' t.size added.length ++ after)
      else (t.children j).toList := by
  induction added generalizing t before with
  | nil =>
    simp only [insertGenerated, List.length_nil, List.range'_zero, List.nil_append]
    split
    · next hj => rw [hj, h]
    · rfl
  | cons s rest ih =>
    have hstep := fun j => children_insert_generated header s hparent h j
    have hlt : parent <
        ((t.create (generatedNode header s)).1.insert parent before.length t.size).size := by
      simpa using Nat.lt_succ_of_lt hparent
    have hplace := hstep parent
    rw [if_pos rfl] at hplace
    have hrest := ih hlt hplace
    rw [List.length_append, List.length_singleton, size_insert, size_create, hstep] at hrest
    rw [insertGenerated_cons]
    rw [hrest, List.length_cons, List.range'_succ]
    split <;> simp

theorem parent?_insertGenerated (position : Nat) (added : List Statement) (j : NodeId) :
    (insertGenerated header parent t position added).parent? j =
      if j ∈ List.range' t.size added.length then some parent else t.parent? j := by
  induction added generalizing t position with
  | nil => simp [insertGenerated]
  | cons s rest ih =>
    rw [insertGenerated_cons]
    rw [ih, size_insert, size_create, parent?_insert, size_create, List.length_cons]
    exact parent?_attach_generated s rest.length j

/-- Nodes are appended behind all others. -/
theorem appendGenerated_eq {position : Nat} (h : (t.children parent).size ≤ position)
    (added : List Statement) :
    appendGenerated header parent t added = insertGenerated header parent t position added := by
  induction added generalizing t position with
  | nil => rfl
  | cons s rest ih =>
    have hcreate : ((t.create (generatedNode header s)).1.children parent).size ≤ position := by
      rwa [children_create_generated]
    have hinsert : (((t.create (generatedNode header s)).1.append parent t.size).children
        parent).size ≤ position + 1 := by
      rw [children_append]
      split
      · rw [Array.size_push]
        exact Nat.succ_le_succ hcreate
      · exact Nat.le_succ_of_le hcreate
    change appendGenerated header parent ((t.create (generatedNode header s)).1.append parent
      t.size) rest = _
    rw [ih hinsert, append_eq_insert hcreate]
    rfl

theorem children_appendAll (hparent : parent < t.size) (ids : List NodeId) (j : NodeId) :
    ((t.appendAll parent ids).children j).toList =
      if j = parent then (t.children parent).toList ++ ids else (t.children j).toList := by
  induction ids generalizing t with
  | nil =>
    simp only [appendAll, List.foldl_nil, List.append_nil]
    split
    · next hj => rw [hj]
    · rfl
  | cons id rest ih =>
    change (((t.append parent id).appendAll parent rest).children j).toList = _
    rw [ih (by simpa using hparent), children_append_self _ hparent]
    by_cases hj : j = parent
    · simp [hj]
    · rw [if_neg hj, if_neg hj, children_append_of_ne _ _ hj]

theorem parent?_appendAll {ids : List NodeId} (hids : ∀ id ∈ ids, id < t.size) (j : NodeId) :
    (t.appendAll parent ids).parent? j = if j ∈ ids then some parent else t.parent? j := by
  induction ids generalizing t with
  | nil => simp [appendAll]
  | cons id rest ih =>
    change ((t.append parent id).appendAll parent rest).parent? j = _
    rw [ih (fun k hk => by simpa using hids k (by simp [hk])), parent?_append]
    by_cases hj : id = j
    · subst hj
      simp [hids id (by simp)]
    · simp [hj, Ne.symm hj]

end Generated

/-! ## Taking the header out of execution -/

def emptied (t : Tree) (header : NodeId) : Tree := (t.takeChildren header).1.retire header

theorem read_detach {α : Type} (ids : List NodeId) (t : Tree) (j : NodeId) (read : Node → α)
    (h : ∀ n p, read { n with parent := p } = read n) :
    read ((ids.foldl (fun t child => t.modify child fun n => { n with parent := none }) t).node j) =
      read (t.node j) := by
  induction ids generalizing t with
  | nil => rfl
  | cons id rest ih => rw [List.foldl_cons, ih, read_modify t id j read fun n => h n none]

theorem size_detach (ids : List NodeId) (t : Tree) :
    (ids.foldl (fun t child => t.modify child fun n => { n with parent := none }) t).size =
      t.size := by
  induction ids generalizing t with
  | nil => rfl
  | cons id rest ih => rw [List.foldl_cons, ih, size_modify]

theorem parent?_of_size_le {t : Tree} {j : NodeId} (h : t.size ≤ j) : t.parent? j = none := by
  rw [parent?, node_of_size_le h]
  rfl

theorem parent?_detach (ids : List NodeId) (t : Tree) (j : NodeId) :
    (ids.foldl (fun t child => t.modify child fun n => { n with parent := none }) t).parent? j =
      if j ∈ ids then none else t.parent? j := by
  induction ids generalizing t with
  | nil => simp
  | cons id rest ih =>
    have hmodify : (t.modify id fun n => { n with parent := none }).parent? j =
        if j = id then none else t.parent? j := by
      by_cases hj : j = id
      · subst hj
        rw [if_pos rfl, parent?, node_modify]
        split
        · rfl
        · next hlt => exact parent?_of_size_le (Nat.le_of_not_lt fun hc => hlt ⟨rfl, hc⟩)
      · rw [if_neg hj, parent?, node_modify_of_ne _ _ (Ne.symm hj)]
        rfl
    rw [List.foldl_cons, ih, hmodify]
    by_cases hj : j = id <;> simp [hj]

section Emptied

variable (t : Tree) (header : NodeId)

@[simp] theorem size_emptied : (t.emptied header).size = t.size := by
  simp only [emptied, retire, takeChildren, size_modify, size_detach]

theorem children_emptied (j : NodeId) :
    ((t.emptied header).children j).toList = if j = header then [] else (t.children j).toList := by
  have hretire : ∀ u : Tree, (u.retire header).children j = u.children j := fun u =>
    read_modify u header j Node.children fun _ => rfl
  rw [emptied, hretire, takeChildren]
  simp only [children]
  rw [read_detach _ _ _ Node.children fun _ _ => rfl]
  by_cases hj : j = header
  · subst hj
    rw [if_pos rfl, node_modify]
    split
    · rfl
    · next hlt =>
      have := children_of_size_le (Nat.le_of_not_lt fun hc => hlt ⟨rfl, hc⟩)
      rw [children] at this
      rw [this]
  · rw [if_neg hj, node_modify_of_ne _ _ (Ne.symm hj)]

theorem parent?_emptied (j : NodeId) :
    (t.emptied header).parent? j = if j ∈ (t.children header).toList then none
      else t.parent? j := by
  have hretire : ∀ u : Tree, (u.retire header).parent? j = u.parent? j := fun u =>
    read_modify u header j Node.parent fun _ => rfl
  rw [emptied, hretire, takeChildren]
  simp only
  rw [parent?_detach]
  congr 1
  exact read_modify t header j Node.parent fun _ => rfl

theorem unlinked_emptied_of_ne {j : NodeId} (h : j ≠ header) :
    ((t.emptied header).node j).unlinked = (t.node j).unlinked := by
  rw [emptied, retire, node_modify_of_ne _ _ (Ne.symm h), takeChildren]
  simp only
  rw [read_detach _ _ _ Node.unlinked fun _ _ => rfl]
  exact read_modify t header j Node.unlinked fun _ => rfl

theorem unlinked_emptied_self {header : NodeId} (h : header < t.size) :
    ((t.emptied header).node header).unlinked = (t.node header).unlinked.retired := by
  have htake : header < (t.takeChildren header).1.size := by
    simpa only [takeChildren, size_detach, size_modify] using h
  have hread : ((t.takeChildren header).1.node header).unlinked = (t.node header).unlinked := by
    rw [takeChildren]
    simp only
    rw [read_detach _ _ _ Node.unlinked fun _ _ => rfl]
    exact read_modify t header header Node.unlinked fun _ => rfl
  rw [emptied, retire, node_modify_self _ _ htake, ← hread]
  rfl

end Emptied

end Tree

/-! ## The shape of an expansion -/

namespace Generated

variable (g : Generated)

def front : List Statement := g.before ++ g.head.toList

def inner : List Statement := if g.head.isSome then g.round else []

/-- The node that the body of the shorthand hangs below, if `next` is the next free name. -/
def owner (header next : NodeId) : NodeId :=
  if g.head.isSome then next + g.before.length else header

/-- What stands in the place of a shorthand, if `next` is the next free name. -/
def shape (header next : NodeId) (below after : Forest) : Forest :=
  match g.head with
  | none => .node header below (.leaves (List.range' next g.before.length) ++ after)
  | some _ =>
    .node header .nil (.leaves (List.range' next g.before.length) ++
      .node (next + g.before.length)
        (.leaves (List.range' (next + g.before.length + 1) g.round.length) ++ below) after)

theorem roots_shape (header next : NodeId) (below after : Forest) :
    (g.shape header next below after).roots =
      header :: (List.range' next g.front.length ++ after.roots) := by
  unfold shape front
  cases g.head with
  | none => simp
  | some s => simp [List.range'_concat]

/-- If nothing hangs below a shorthand that is no loop, all that stands for a shorthand comes right
behind it. -/
theorem ids_shape {header next : NodeId} {below after : Forest}
    (hbelow : g.head = none → below = .nil) :
    (g.shape header next below after).ids =
      header :: (List.range' next (g.front ++ g.inner).length ++ (below.ids ++ after.ids)) := by
  unfold shape front inner
  cases hhead : g.head with
  | none => simp [hbelow hhead]
  | some s =>
    have hrange : List.range' next (g.before.length + (g.round.length + 1)) =
        List.range' next g.before.length ++
          (next + g.before.length) :: List.range' (next + g.before.length + 1) g.round.length := by
      rw [← List.range'_append_1, List.range'_succ]
    simp [hrange]

theorem ids_shape_perm (header next : NodeId) (below after : Forest) :
    (g.shape header next below after).ids.Perm
      (List.range' next (g.front ++ g.inner).length ++ (Forest.node header below after).ids) := by
  have hmiddle : ∀ extra : List NodeId, (header :: (extra ++ (below.ids ++ after.ids))).Perm
      (extra ++ (Forest.node header below after).ids) := fun extra => List.perm_middle.symm
  refine List.Perm.trans ?_ (hmiddle _)
  cases hhead : g.head with
  | none =>
    simp only [shape, front, inner, hhead, Forest.ids_node, Forest.ids_append, Forest.ids_leaves,
      Option.toList_none, List.append_nil, Option.isSome_none, Bool.false_eq_true, if_false,
      ← List.append_assoc]
    exact (List.perm_append_comm.append_right _).cons header
  | some s => rw [g.ids_shape fun h => by rw [hhead] at h; cases h]

theorem mem_ids_alter {f : Forest} (hnodup : f.ids.Nodup) {header next id : NodeId}
    (hheader : header ∈ f.ids) :
    id ∈ (f.alter header (g.shape header next)).ids ↔
      (∃ i < (g.front ++ g.inner).length, id = next + i) ∨ id ∈ f.ids := by
  rw [(Forest.ids_alter_perm _ (g.ids_shape_perm header next) hnodup hheader).mem_iff,
    List.mem_append, mem_range'_iff]

end Generated

namespace Tree

theorem insertGenerated_append (header parent : NodeId) (t : Tree) (position : Nat)
    (l l' : List Statement) :
    insertGenerated header parent t position (l ++ l') =
      insertGenerated header parent (insertGenerated header parent t position l)
      (position + l.length) l' := by
  induction l generalizing t position with
  | nil => rfl
  | cons s rest ih =>
    rw [List.cons_append, insertGenerated, insertGenerated, List.length_cons]
    simp only
    rw [ih, Nat.add_assoc, Nat.add_comm 1]

def fronted (t : Tree) (parent header : NodeId) (g : Generated) : Tree :=
  insertGenerated header parent (t.emptied header) (((t.emptied header).position? header).getD 0 +
    1) g.front

/-- A replacement empties the header, puts nodes behind it and fills the node that owns the body. -/
theorem replace_eq (t : Tree) (parent header : NodeId) (g : Generated) : t.replace parent header g =
      (insertGenerated header (g.owner header t.size) (t.fronted parent header g)
        ((t.fronted parent header g).children (g.owner header t.size)).size g.inner).appendAll
          (g.owner header t.size) (t.children header).toList := by
  have hsize : ∀ position,
      (insertGenerated header parent (t.emptied header) position g.before).size =
      t.size + g.before.length := by
    intro position
    rw [(Gains.insertGenerated header parent _ position g.before).size, size_emptied]
  rw [← appendGenerated_eq (Nat.le_refl _)]
  unfold replace fronted Generated.front Generated.inner Generated.owner
  cases g.head with
  | none =>
    simp only [Option.toList_none, List.append_nil]
    rfl
  | some s =>
    simp only [Option.toList_some, insertGenerated_append, Option.isSome_some, if_true]
    rw [← hsize]
    rfl

theorem size_fronted (t : Tree) (parent header : NodeId) (g : Generated) :
    (t.fronted parent header g).size = t.size + g.front.length := by
  rw [fronted, (Gains.insertGenerated header parent _ _ g.front).size, size_emptied]

/-- A row moves below another node. -/
theorem Hangs.move {t u : Tree} {parent above : NodeId} {f : Forest} (h : t.Hangs parent f)
    (hnodup : f.ids.Nodup) (hroots : ∀ j ∈ f.roots, u.parent? j = some above)
    (hparent : ∀ j ∈ f.ids, j ∉ f.roots → u.parent? j = t.parent? j)
    (hchildren : ∀ j ∈ f.ids, u.children j = t.children j) : u.Hangs above f := by
  induction f generalizing parent with
  | nil => trivial
  | node id below after _ iha =>
    obtain ⟨_, hc, hb, ha⟩ := h
    rw [Forest.nodup_ids_node] at hnodup
    obtain ⟨⟨hib, hia⟩, hnb, hna, hdisjoint⟩ := hnodup
    refine ⟨hroots id (by simp), ?_, ?_, ?_⟩
    · rw [hchildren id (by simp), hc]
    · refine hb.congr (fun j hj => hparent j (by simp [hj]) ?_) (fun j hj =>
        hchildren j (by simp [hj]))
      intro hmem
      rcases List.mem_cons.mp hmem with rfl | hmem
      · exact hib hj
      · exact hdisjoint j hj j (Forest.mem_ids_of_mem_roots hmem) rfl
    · refine iha ha hna (fun j hj => hroots j (by simp [hj])) (fun j hj hnot =>
        hparent j (by simp [hj]) ?_)
        (fun j hj => hchildren j (by simp [hj]))
      intro hmem
      rcases List.mem_cons.mp hmem with rfl | hmem
      · exact hia hj
      · exact hnot hmem

section Replace

variable {t : Tree} {f : Forest} {parent header : NodeId}

/-- The header stands among the children of its parent, and its own children are other nodes. -/
theorem Spans.header_place (h : t.Spans f) (hheader : header ∈ f.ids)
    (hparent : t.parent? header = some parent) :
    ∃ before after : List NodeId, (t.children parent).toList = before ++ header :: after ∧
      header ∉ before ∧
      header ∉ after ∧ parent < t.size ∧ parent ≠ header := by
  obtain ⟨hmem, hlt⟩ := h.mem_children hheader hparent
  obtain ⟨below, hroots, _, hsub⟩ := h.below hlt
  have hnodup := h.nodup.sublist hsub
  have hchildren : (t.children parent).toList.Nodup := by
    rw [hroots]
    exact (List.nodup_cons.mp hnodup).2.sublist below.roots_sublist_ids
  obtain ⟨before, after, hsplit⟩ := List.append_of_mem hmem
  rw [hsplit, List.nodup_middle, List.nodup_cons, List.mem_append, not_or] at hchildren
  refine ⟨before, after, hsplit, hchildren.1.1, hchildren.1.2, hlt, ?_⟩
  rintro rfl
  exact (List.nodup_cons.mp hnodup).1 (Forest.mem_ids_of_mem_roots (hroots ▸ hmem))

theorem Spans.notMem_children_self (h : t.Spans f) {id : NodeId} (hid : id < t.size) :
    id ∉ (t.children id).toList := by
  obtain ⟨below, hroots, _, hsub⟩ := h.below hid
  rw [hroots]
  exact fun hmem => (List.nodup_cons.mp (h.nodup.sublist hsub)).1 (Forest.mem_ids_of_mem_roots hmem)

theorem Spans.lt_of_mem_children (h : t.Spans f) {id child : NodeId} (hid : id < t.size)
    (hchild : child ∈ (t.children id).toList) : child < t.size := by
  obtain ⟨below, hroots, _, hsub⟩ := h.below hid
  have hmem : child ∈ id :: below.ids :=
    List.mem_cons_of_mem _ (Forest.mem_ids_of_mem_roots (hroots ▸ hchild))
  exact (h.covers child).mpr (hsub.subset hmem)

variable (g : Generated)

theorem owner_ne {j : NodeId} (hj : j < t.size) (hne : j ≠ header) : j ≠ g.owner header t.size := by
  unfold Generated.owner
  split
  · exact Nat.ne_of_lt (Nat.lt_add_right _ hj)
  · exact hne

theorem owner_lt (hheader : header < t.size) : g.owner header t.size < t.size + g.front.length := by
  unfold Generated.owner Generated.front
  cases g.head with
  | none => exact Nat.lt_add_right _ hheader
  | some s =>
    simp only [Option.isSome_some, if_true, Option.toList_some, List.length_append,
      List.length_singleton]
    exact Nat.lt_succ_self _

/-- The children once the nodes that follow the header are there. -/
theorem Spans.children_fronted (h : t.Spans f) (hheader : header ∈ f.ids)
    (hparent : t.parent? header = some parent) (j : NodeId) :
    ((t.fronted parent header g).children j).toList =
      if j = header then []
      else Forest.insertAfter header (List.range' t.size g.front.length) (t.children j).toList := by
  obtain ⟨before, after, hsplit, hbefore, hafter, hlt, hne⟩ := h.header_place hheader hparent
  have hempty : ((t.emptied header).children parent).toList = (before ++ [header]) ++ after := by
    rw [children_emptied, if_neg hne, hsplit, List.append_assoc, List.singleton_append]
  have hposition : (t.emptied header).position? header = some before.length := by
    have hparent' : (t.emptied header).parent? header = some parent := by
      rw [parent?_emptied, if_neg (h.notMem_children_self (h.lt_size hheader)), hparent]
    have hindex : ((t.emptied header).children parent).idxOf? header = some before.length :=
      idxOf?_of_split (by rw [hempty, List.append_assoc, List.singleton_append]) hbefore
    simp [position?, hparent', hindex]
  have hrow := children_insertGenerated header g.front (by rw [size_emptied]; exact hlt) hempty j
  rw [List.length_append, List.length_singleton] at hrow
  rw [fronted, hposition, Option.getD_some, hrow, size_emptied]
  by_cases hj : j = parent
  · subst hj
    rw [if_pos rfl, if_neg hne, hsplit, Forest.insertAfter_split _ hbefore hafter,
      List.append_assoc, List.singleton_append]
  · rw [if_neg hj, children_emptied]
    split
    · rfl
    · by_cases hlt : j < t.size
      · rw [Forest.insertAfter_of_notMem]
        intro hmem
        exact hj (Option.some.inj ((h.parent?_of_mem_children hlt hmem).symm.trans hparent))
      · rw [children_of_size_le (Nat.le_of_not_lt hlt)]
        rfl

theorem Spans.children_replace (h : t.Spans f) (hheader : header ∈ f.ids)
    (hparent : t.parent? header = some parent) (j : NodeId) :
    ((t.replace parent header g).children j).toList =
      if j = g.owner header t.size then
        List.range' (t.size + g.front.length) g.inner.length ++ (t.children header).toList
      else if j = header then []
      else Forest.insertAfter header (List.range' t.size g.front.length) (t.children j).toList := by
  have howner : g.owner header t.size < (t.fronted parent header g).size := by
    rw [size_fronted]
    exact owner_lt g (h.lt_size hheader)
  have hnil : ((t.fronted parent header g).children (g.owner header t.size)).toList = [] := by
    rw [h.children_fronted g hheader hparent]
    split
    · rfl
    · next hne =>
      have hge : t.size ≤ g.owner header t.size :=
        Nat.le_of_not_lt fun hlt => owner_ne g hlt hne rfl
      rw [children_of_size_le hge]
      rfl
  have hzero : ((t.fronted parent header g).children (g.owner header t.size)).size =
      ([] : List NodeId).length := by
    rw [← Array.length_toList, hnil]
  have hinner := @children_insertGenerated _ _ [] [] header g.inner howner hnil
  rw [replace_eq, children_appendAll, hzero, hinner, hinner, if_pos rfl, size_fronted,
    h.children_fronted g hheader hparent]
  · split
    · simp
    · rfl
  · rw [(Gains.insertGenerated header _ _ _ g.inner).size]
    exact Nat.lt_add_right _ howner

theorem Spans.parent?_replace (h : t.Spans f) (parent : NodeId) (hheader : header < t.size)
    (j : NodeId) :
    (t.replace parent header g).parent? j =
      if j ∈ (t.children header).toList ∨
      j ∈ List.range' (t.size + g.front.length) g.inner.length then
        some (g.owner header t.size)
      else if j ∈ List.range' t.size g.front.length then some parent
      else t.parent? j := by
  rw [replace_eq, parent?_appendAll, parent?_insertGenerated, size_fronted, fronted,
    parent?_insertGenerated, parent?_emptied, size_emptied]
  · by_cases hbody : j ∈ (t.children header).toList
    · simp [hbody]
    · simp [hbody]
  · intro id hid
    rw [(Gains.insertGenerated header _ _ _ g.inner).size, size_fronted]
    exact Nat.lt_add_right _ (Nat.lt_add_right _ (h.lt_of_mem_children hheader hid))

/-- Of the nodes that were there, only the body of the shorthand has another parent. -/
theorem Spans.parent?_replace_old (h : t.Spans f) (parent : NodeId) (hheader : header < t.size)
    {j : NodeId} (hj : j < t.size) (hbody : j ∉ (t.children header).toList) :
    (t.replace parent header g).parent? j = t.parent? j := by
  rw [h.parent?_replace g parent hheader,
    if_neg (not_or.mpr ⟨hbody, notMem_range' (Nat.lt_add_right _ hj) _⟩),
    if_neg (notMem_range' hj _)]

/-- Of the nodes that were there, only the header and its parent have other children. -/
theorem Spans.children_replace_old (h : t.Spans f) (hheader : header ∈ f.ids)
    (hparent : t.parent? header = some parent) {j : NodeId} (hj : j < t.size) (hne : j ≠ header)
    (hne' : j ≠ parent) :
    (t.replace parent header g).children j = t.children j := by
  rw [← Array.toList_inj, h.children_replace g hheader hparent, if_neg (owner_ne g hj hne),
    if_neg hne, Forest.insertAfter_of_notMem]
  exact fun hmem => hne' (Option.some.inj ((h.parent?_of_mem_children hj hmem).symm.trans hparent))

/-- A replacement says nothing different about the other nodes. -/
theorem replace_gains (t : Tree) (parent header : NodeId) :
    Gains header (g.front ++ g.inner) (t.emptied header) (t.replace parent header g) := by
  rw [replace_eq, ← List.append_nil (g.front ++ g.inner)]
  exact ((Gains.insertGenerated ..).trans (Gains.insertGenerated ..)).trans (Gains.appendAll ..)

theorem size_replace (t : Tree) (parent header : NodeId) :
    (t.replace parent header g).size = t.size + (g.front ++ g.inner).length := by
  rw [(replace_gains g t parent header).size, size_emptied]

theorem node_replace_old (parent : NodeId) {j : NodeId} (hj : j < t.size) (hne : j ≠ header) :
    ((t.replace parent header g).node j).unlinked = (t.node j).unlinked := by
  rw [(replace_gains g t parent header).old j (by rw [size_emptied]; exact hj),
    unlinked_emptied_of_ne t header hne]

theorem node_replace_header (parent : NodeId) (h : header < t.size) :
    ((t.replace parent header g).node header).unlinked = (t.node header).unlinked.retired := by
  rw [(replace_gains g t parent header).old header (by rw [size_emptied]; exact h),
    unlinked_emptied_self t h]

/-- What does not depend on the links and on the kind of a node stays the same. -/
theorem read_replace_old (parent : NodeId) {j : NodeId} (hj : j < t.size) {α : Type}
    (read : Node → α) (hread : ∀ n : Node, read n.unlinked = read n := by intro; rfl)
    (hretired : ∀ n : Node, read n.retired = read n := by intro; rfl) :
    read ((t.replace parent header g).node j) = read (t.node j) := by
  by_cases hne : j = header
  · subst hne
    rw [← hread, node_replace_header g parent hj, hretired, hread]
  · exact Node.eq_of_unlinked (node_replace_old g parent hj hne) read hread

theorem node_replace_new (t : Tree) (parent header : NodeId) {i : Nat} {s : Statement}
    (h : (g.front ++ g.inner)[i]? = some s) :
    ((t.replace parent header g).node (t.size + i)).unlinked = generatedNode header s := by
  have hnew := (replace_gains g t parent header).new i s h
  rwa [size_emptied] at hnew

/-- The row of the header after a replacement. -/
theorem Spans.hangs_shape (h : t.Spans f) (hheader : header ∈ f.ids)
    (hparent : t.parent? header = some parent) {above : NodeId} {below after : Forest}
    (hrow : t.Hangs above (.node header below after))
    (hnodup : (above :: (Forest.node header below after).ids).Nodup)
    (hold : ∀ j ∈ (Forest.node header below after).ids, j < t.size) :
    (t.replace parent header g).Hangs above (g.shape header t.size below after) := by
  obtain ⟨hp, hc, hb, ha⟩ := hrow
  obtain rfl : above = parent := Option.some.inj (hp.symm.trans hparent)
  have hsize : header < t.size := hold header (by simp)
  simp only [Forest.ids_node, List.nodup_cons, List.mem_cons, List.mem_append, not_or,
    List.nodup_append] at hnodup
  obtain ⟨⟨hne, hob, hoa⟩, ⟨hhb, hha⟩, hnb, hna, hdisjoint⟩ := hnodup
  have hchildren := h.children_replace g hheader hparent
  have hparents := h.parent?_replace g above hsize
  -- Nodes of the row keep their links, apart from the header, its parent and its children.
  have hkeep : ∀ j < t.size, j ∉ below.roots → (t.replace above header g).parent? j = t.parent? j :=
    fun j hj hnot => h.parent?_replace_old g above hsize hj (hc ▸ hnot)
  have hkeep' : ∀ j < t.size, j ≠ header → j ≠ above →
      (t.replace above header g).children j = t.children j :=
    fun j hj => h.children_replace_old g hheader hp hj
  have hafter : (t.replace above header g).Hangs above after := by
    refine ha.congr (fun j hj => hkeep j (hold j (by simp [hj])) ?_) (fun j hj =>
      hkeep' j (hold j (by simp [hj])) ?_ ?_)
    · exact fun hmem => hdisjoint j (Forest.mem_ids_of_mem_roots hmem) j hj rfl
    · rintro rfl
      exact hha hj
    · rintro rfl
      exact hoa hj
  have hbelow : (t.replace above header g).Hangs (g.owner header t.size) below := by
    refine hb.move hnb (fun j hj => ?_) (fun j hj => hkeep j (hold j (by simp [hj])))
      (fun j hj => hkeep' j (hold j (by simp [hj])) ?_ ?_)
    · rw [hparents, if_pos (.inl (hc ▸ hj))]
    · rintro rfl
      exact hhb hj
    · rintro rfl
      exact hob hj
  have hhere : (t.replace above header g).parent? header = some above := by
    rw [hkeep header hsize fun hmem => hhb (Forest.mem_ids_of_mem_roots hmem), hp]
  have hfront : ∀ j ∈ List.range' t.size g.front.length, (t.replace above header g).parent? j =
      some above := by
    intro j hj
    rw [hparents, if_neg, if_pos hj]
    rintro (hmem | hmem)
    · exact notMem_range' (h.lt_of_mem_children hsize hmem) _ hj
    · exact notMem_range' (List.mem_range'_1.mp hj).2 _ hmem
  have hinner : ∀ j ∈ List.range' (t.size + g.front.length) g.inner.length,
      (t.replace above header g).parent? j = some (g.owner header t.size) := by
    intro j hj
    rw [hparents, if_pos (.inr hj)]
  have hleaf : ∀ j, t.size ≤ j → j ≠ g.owner header t.size →
      ((t.replace above header g).children j).toList = [] := by
    intro j hj hjo
    rw [hchildren, if_neg hjo, if_neg (Nat.ne_of_gt (Nat.lt_of_lt_of_le hsize hj)),
      children_of_size_le hj]
    rfl
  have howner := hchildren (g.owner header t.size)
  rw [if_pos rfl, hc] at howner
  have hempty : header ≠ g.owner header t.size →
      ((t.replace above header g).children header).toList = [] := by
    intro hne
    rw [hchildren, if_neg hne, if_pos rfl]
  unfold Generated.shape
  unfold Generated.owner Generated.front Generated.inner at *
  cases hhead : g.head with
  | none =>
    simp only [hhead, Option.isSome_none, Bool.false_eq_true, if_false, Option.toList_none,
      List.append_nil, List.length_nil, List.range'_zero, List.nil_append] at *
    refine ⟨hhere, howner, hbelow, hangs_append.mpr ⟨hangs_leaves hfront fun j hj => ?_, hafter⟩⟩
    have hge := (List.mem_range'_1.mp hj).1
    exact hleaf j hge (Nat.ne_of_gt (Nat.lt_of_lt_of_le hsize hge))
  | some s =>
    simp only [hhead, Option.isSome_some, if_true, Option.toList_some, List.length_append,
      List.length_singleton, List.range'_1_concat] at *
    refine ⟨hhere, hempty (Nat.ne_of_lt (Nat.lt_add_right _ hsize)), trivial,
      hangs_append.mpr ⟨hangs_leaves (fun j hj => hfront j (by simp [hj])) fun j hj => ?_,
        hfront _ (by simp), ?_, hangs_append.mpr ⟨hangs_leaves hinner fun j hj => ?_, hbelow⟩,
        hafter⟩⟩
    · have hin := List.mem_range'_1.mp hj
      exact hleaf j hin.1 (Nat.ne_of_lt hin.2)
    · rw [howner, Forest.roots_append, Forest.roots_leaves]
      rfl
    · have hge : t.size + g.before.length < j := (List.mem_range'_1.mp hj).1
      exact hleaf j (Nat.le_trans (Nat.le_add_right _ _) (Nat.le_of_lt hge)) (Nat.ne_of_gt hge)

theorem Spans.replace (h : t.Spans f) (hheader : header ∈ f.ids)
    (hparent : t.parent? header = some parent) :
    (t.replace parent header g).Spans (f.alter header (g.shape header t.size)) := by
  have hsize : ∀ j ∈ root :: f.ids, j < t.size := fun j hj => (h.covers j).mpr hj
  have hlt : header < t.size := hsize header (by simp [hheader])
  have hroot : root ≠ header := by
    rintro rfl
    exact (List.nodup_cons.mp h.nodup).1 hheader
  have hnodup := (List.nodup_cons.mp h.nodup).2
  have hchildren := h.children_replace g hheader hparent
  have hold : ∀ j < t.size, j ≠ header → ((t.replace parent header g).children j).toList =
      Forest.insertAfter header (List.range' t.size g.front.length) (t.children j).toList := by
    intro j hj hne
    rw [hchildren, if_neg (owner_ne g hj hne), if_neg hne]
  have hperm : (root :: (f.alter header (g.shape header t.size)).ids).Perm
      (List.range' t.size (g.front ++ g.inner).length ++ (root :: f.ids)) :=
    ((Forest.ids_alter_perm _ (g.ids_shape_perm header t.size) hnodup hheader).cons root).trans
      List.perm_middle.symm
  refine ⟨?_, ?_, ?_, ?_, ?_⟩
  · rw [hold root (hsize root (by simp)) hroot, h.top,
      Forest.roots_alter _ (g.roots_shape header t.size) hnodup]
  · rw [h.parent?_replace_old g parent hlt (hsize root (by simp)), h.orphan]
    intro hmem
    have hroot := h.parent?_of_mem_children hlt hmem
    rw [h.orphan] at hroot
    cases hroot
  · refine Hangs.alter (fun j => j < t.size) _ (g.roots_shape header t.size) ?_ hold ?_ h.hangs
      hroot h.nodup
      (fun j hj => hsize j (by simp [hj]))
    · exact fun j hj hnot => h.parent?_replace_old g parent hlt hj fun hmem =>
        hnot (h.parent?_of_mem_children hlt hmem)
    · exact h.hangs_shape g hheader hparent
  · rw [hperm.nodup_iff, List.nodup_append]
    refine ⟨List.nodup_range', h.nodup, ?_⟩
    rintro j hj k hk rfl
    exact notMem_range' (hsize j hk) _ hj
  · intro j
    rw [size_replace, hperm.mem_iff, List.mem_append, List.mem_range'_1, ← h.covers j]
    constructor
    · intro hj
      by_cases hjt : j < t.size
      · exact .inr hjt
      · exact .inl ⟨Nat.le_of_not_lt hjt, hj⟩
    · rintro (hj | hj)
      · exact hj.2
      · exact Nat.lt_add_right _ hj

end Replace

end Tree

end GameScript
