import GameScript.Proofs.Tree.Growth

/-!
# Walks through a tree

`Tree.Rooted` says what makes a store of nodes a tree: each node but the root has one place among
the children of its parent, and its parents lead to the root. In such a tree every walk comes to an
end.

* `Walk.Completes` is a whole walk, one visit after the other, up to the fault of asking for one
  node too many.
* A walk in depth visits a row, then what waited behind it (`completes_depth`).
* A walk in breadth visits the siblings of a row and then the row of all their children
  (`Forest.beneath`), so it goes level by level (`completes_breadth`). A level holds, in the order
  of execution, the nodes so many steps below the start (`filter_ids_eq_level`).

Both hold for the tree of any list of lines, before and after its shorthands are expanded:
`nested_lines_form_tree`.
-/

namespace GameScript

/-! ## Steps to the root -/

namespace Tree

def above? (t : Tree) : Nat → NodeId → Option NodeId
  | 0, id => some id
  | steps + 1, id => (t.parent? id).bind (t.above? steps)

/-- Every node but the root has a parent, occurs once among its children and nowhere else, and
reaches the root through parents. -/
structure Rooted (t : Tree) : Prop where
  root_lt : root < t.size
  orphan : t.parent? root = none
  parent : ∀ id < t.size, id ≠ root → ∃ parent < t.size, t.parent? id = some parent ∧
    (t.children parent).toList.count id = 1 ∧ ∀ other, other ≠ parent → id ∉ t.children other
  child : ∀ id, ∀ child ∈ t.children id, child < t.size ∧ child ≠ root
  reaches : ∀ id < t.size, ∃ steps, t.above? steps id = some root

/-- A parent is executed before its children. -/
theorem Hangs.idxOf_parent_lt {t : Tree} {above id parent : NodeId} {f : Forest}
    (h : t.Hangs above f) (hnodup : (above :: f.ids).Nodup) (hid : id ∈ f.ids)
    (hparent : t.parent? id = some parent) :
    (above :: f.ids).idxOf parent < (above :: f.ids).idxOf id := by
  induction f generalizing above with
  | nil => simp at hid
  | node j below after ihb iha =>
    obtain ⟨hp, -, hb, ha⟩ := h
    have hsplit := hnodup
    simp only [Forest.ids_node, List.nodup_cons, List.mem_cons, List.mem_append, not_or,
      List.nodup_append] at hsplit
    obtain ⟨⟨haj, hab, haa⟩, ⟨hjb, hja⟩, hnb, hna, hdisjoint⟩ := hsplit
    rw [Forest.ids_node, List.mem_cons, List.mem_append] at hid
    rcases hid with rfl | hid | hid
    · obtain rfl : above = parent := Option.some.inj (hp.symm.trans hparent)
      rw [List.idxOf_cons_self, List.idxOf_cons_ne _ haj]
      exact Nat.succ_pos _
    · -- Below the first node the order is that of its own row.
      have hlt := ihb hb (List.nodup_cons.mpr ⟨hjb, hnb⟩) hid
      have hmem : parent ∈ j :: below.ids := List.idxOf_lt_length_iff.mp (Nat.lt_trans hlt
        (List.idxOf_lt_length_iff.mpr (List.mem_cons_of_mem _ hid)))
      have hne : ∀ k ∈ j :: below.ids, above ≠ k := by
        rintro k hk rfl
        rcases List.mem_cons.mp hk with hk | hk
        · exact haj hk
        · exact hab hk
      rw [Forest.ids_node, List.idxOf_cons_ne _ (hne _ hmem),
        List.idxOf_cons_ne _ (hne _ (by simp [hid])),
        ← List.cons_append, List.idxOf_append_of_mem hmem, List.idxOf_append_of_mem (by simp [hid])]
      exact Nat.succ_lt_succ hlt
    · have hlt := iha ha (List.nodup_cons.mpr ⟨haa, hna⟩) hid
      have hskip : ∀ k ∈ after.ids, (above :: (Forest.node j below after).ids).idxOf k =
          (above :: after.ids).idxOf k + (j :: below.ids).length := by
        intro k hk
        have hnot : k ∉ j :: below.ids := by
          intro hc
          rcases List.mem_cons.mp hc with rfl | hc
          · exact hja hk
          · exact hdisjoint k hc k hk rfl
        have hne : above ≠ k := by
          rintro rfl
          exact haa hk
        rw [Forest.ids_node, List.idxOf_cons_ne _ hne, ← List.cons_append,
          List.idxOf_append_of_notMem hnot, List.idxOf_cons_ne _ hne]
        omega
      rw [hskip id hid]
      by_cases hparentAbove : parent = above
      · rw [hparentAbove, List.idxOf_cons_self]
        omega
      · have hmem : parent ∈ above :: after.ids := List.idxOf_lt_length_iff.mp (Nat.lt_trans hlt
          (List.idxOf_lt_length_iff.mpr (List.mem_cons_of_mem _ hid)))
        rw [hskip parent (by simpa [hparentAbove] using hmem)]
        omega

namespace Spans

variable {t : Tree} {f : Forest}

theorem idxOf_above_le (h : t.Spans f) {steps : Nat} {id top : NodeId} (hid : id < t.size)
    (habove : t.above? steps id = some top) :
    (root :: f.ids).idxOf top + steps ≤ (root :: f.ids).idxOf id := by
  induction steps generalizing id with
  | zero =>
    obtain rfl := Option.some.inj habove
    exact Nat.le_refl _
  | succ steps ih =>
    obtain ⟨parent, hparent, hrest⟩ := Option.bind_eq_some_iff.mp habove
    have hmem : id ∈ f.ids := by
      refine (List.mem_cons.mp ((h.covers id).mp hid)).resolve_left ?_
      rintro rfl
      rw [h.orphan] at hparent
      cases hparent
    have hlt := h.hangs.idxOf_parent_lt h.nodup hmem hparent
    have := ih (h.mem_children hmem hparent).2 hrest
    omega

theorem above?_self (h : t.Spans f) {steps : Nat} {id : NodeId} (hid : id < t.size) :
    t.above? steps id = some id ↔ steps = 0 := by
  constructor
  · intro habove
    have := h.idxOf_above_le hid habove
    omega
  · rintro rfl
    rfl

theorem rooted (h : t.Spans f) : t.Rooted := by
  have hroot : root < t.size := (h.covers root).mpr List.mem_cons_self
  have hlt : ∀ id, ∀ child ∈ t.children id, id < t.size := by
    intro id child hchild
    by_contra hge
    rw [children_of_size_le (Nat.le_of_not_lt hge)] at hchild
    simp at hchild
  have hparent : ∀ id, ∀ child ∈ t.children id, t.parent? child = some id := fun id child hchild =>
    h.parent?_of_mem_children (hlt id child hchild) (Array.mem_toList_iff.mpr hchild)
  refine ⟨hroot, h.orphan, fun id hid hne => ?_, fun id child hchild => ⟨?_, ?_⟩, fun id hid => ?_⟩
  · have hmem : id ∈ f.ids := (List.mem_cons.mp ((h.covers id).mp hid)).resolve_left hne
    obtain ⟨parent, hp⟩ := Option.isSome_iff_exists.mp (h.hangs.parent?_isSome hmem)
    obtain ⟨hchild, hsize⟩ := h.mem_children hmem hp
    refine ⟨parent, hsize, hp, ?_, fun other hother hmem' => ?_⟩
    · obtain ⟨below, hroots, -, hsub⟩ := h.below hsize
      have hnodup : (t.children parent).toList.Nodup := by
        rw [hroots]
        exact (h.nodup.sublist ((below.roots_sublist_ids.cons parent).trans hsub))
      exact List.count_eq_one_of_mem hnodup hchild
    · exact hother (Option.some.inj ((hparent other id hmem').symm.trans hp))
  · exact h.lt_of_mem_children (hlt id child hchild) (Array.mem_toList_iff.mpr hchild)
  · rintro rfl
    have := hparent id root hchild
    rw [h.orphan] at this
    cases this
  · -- Each step up comes earlier in the order of execution, so the root is reached.
    induction hn : (root :: f.ids).idxOf id using Nat.strongRecOn generalizing id with
    | _ n ih =>
      rcases List.mem_cons.mp ((h.covers id).mp hid) with rfl | hmem
      · exact ⟨0, rfl⟩
      · obtain ⟨parent, hp⟩ := Option.isSome_iff_exists.mp (h.hangs.parent?_isSome hmem)
        have hless := h.hangs.idxOf_parent_lt h.nodup hmem hp
        obtain ⟨steps, hsteps⟩ := ih _ (hn ▸ hless) parent (h.mem_children hmem hp).2 rfl
        exact ⟨steps + 1, by simp [above?, hp, hsteps]⟩

end Spans

end Tree

/-! ## Levels of a shape -/

namespace Forest

def beneath : Forest → Forest
  | nil => nil
  | node _ below after => below ++ after.beneath

def level : Forest → Nat → List NodeId
  | nil, _ => []
  | node id _ after, 0 => id :: after.level 0
  | node _ below after, depth + 1 => below.level depth ++ after.level (depth + 1)

theorem level_zero (f : Forest) : f.level 0 = f.roots := by
  induction f with
  | nil => rfl
  | node id below after _ ih => rw [level, ih, roots_node]

theorem level_append (depth : Nat) (f g : Forest) :
    (f ++ g).level depth = f.level depth ++ g.level depth := by
  induction f with
  | nil => cases depth <;> rfl
  | node id below after _ ih => cases depth <;> simp [level, ih]

theorem level_beneath (f : Forest) : f.beneath.level = fun depth => f.level (depth + 1) := by
  funext depth
  induction f with
  | nil => cases depth <;> rfl
  | node id below after _ ih => rw [beneath, level_append, ih, level]

theorem length_ids_beneath (f : Forest) : f.beneath.ids.length + f.roots.length = f.ids.length := by
  induction f with
  | nil => rfl
  | node id below after _ ih =>
    simp only [beneath, ids_append, ids_node, roots_node, List.length_append, List.length_cons]
    omega

theorem length_ids_beneath_le {f : Forest} {depth : Nat} (h : f.ids.length ≤ depth + 1) :
    f.beneath.ids.length ≤ depth := by
  have hlength := f.length_ids_beneath
  cases f with
  | nil => exact Nat.zero_le _
  | node id below after =>
    rw [roots_node, List.length_cons] at hlength
    omega

/-- The levels hold each node once. -/
theorem length_flatMap_level {f : Forest} {depth : Nat} (h : f.ids.length ≤ depth) :
    ((List.range depth).flatMap f.level).length = f.ids.length := by
  induction depth generalizing f with
  | zero => exact (Nat.le_zero.mp h).symm
  | succ depth ih =>
    have hrest := ih (length_ids_beneath_le h)
    rw [level_beneath] at hrest
    rw [List.range_succ_eq_map, List.flatMap_cons, List.flatMap_map, level_zero,
      List.length_append, hrest, Nat.add_comm, length_ids_beneath]

end Forest

/-! ## Levels of a tree -/

namespace Tree

variable {t : Tree} {start parent : NodeId} {f : Forest}

/-- What hangs below a node is more steps below the start than the node. -/
theorem Hangs.lt_of_above? (h : t.Hangs parent f) (hstart : start ∉ f.ids) {least steps : Nat}
    {id : NodeId} (hparent : ∀ n, t.above? n parent = some start → least ≤ n) (hid : id ∈ f.ids)
    (habove : t.above? steps id = some start) : least < steps := by
  induction f generalizing parent least with
  | nil => simp at hid
  | node j below after ihb iha =>
    obtain ⟨hp, -, hb, ha⟩ := h
    simp only [Forest.ids_node, List.mem_cons, List.mem_append, not_or] at hstart hid
    -- The first node is one step further than its parent.
    have hnode : ∀ n, t.above? n j = some start → least + 1 ≤ n := by
      intro n hn
      cases n with
      | zero => exact absurd (Option.some.inj hn).symm hstart.1
      | succ n =>
        rw [above?, hp] at hn
        exact Nat.succ_le_succ (hparent n hn)
    rcases hid with rfl | hid | hid
    · exact hnode steps habove
    · exact Nat.lt_of_succ_lt (ihb hb hstart.2.1 hnode hid)
    · exact iha ha hstart.2.2 hparent hid

/-- In the order of execution, the nodes of a row so many steps below the start are those of one
level. -/
theorem Hangs.filter_ids_eq_level (h : t.Hangs parent f) (hstart : start ∉ f.ids) {base : Nat}
    (hparent : ∀ n, t.above? n parent = some start ↔ n = base) (depth : Nat) :
    f.ids.filter (fun id => t.above? (base + 1 + depth) id = some start) = f.level depth := by
  induction f generalizing parent base depth with
  | nil => cases depth <;> rfl
  | node j below after ihb iha =>
    obtain ⟨hp, -, hb, ha⟩ := h
    simp only [Forest.ids_node, List.mem_cons, List.mem_append, not_or] at hstart
    have hnode : ∀ n, t.above? n j = some start ↔ n = base + 1 := by
      intro n
      cases n with
      | zero =>
        rw [above?, Option.some_inj]
        exact ⟨fun hn => absurd hn.symm hstart.1, fun hn => by omega⟩
      | succ n =>
        rw [above?, hp, Option.bind_some, hparent n]
        omega
    rw [Forest.ids_node, List.filter_cons, List.filter_append, iha ha hstart.2.2 hparent depth]
    simp only [hnode, decide_eq_true_eq]
    cases depth with
    | zero =>
      have hbelow : below.ids.filter (fun id => t.above? (base + 1 + 0) id = some start) = [] := by
        rw [List.filter_eq_nil_iff]
        intro id hid hcontra
        have := hb.lt_of_above? hstart.2.1 (fun n hn => Nat.le_of_eq ((hnode n).mp hn).symm) hid
          (of_decide_eq_true hcontra)
        omega
      rw [if_pos (by omega), hbelow]
      rfl
    | succ depth =>
      have hbelow := ihb hb hstart.2.1 hnode depth
      rw [if_neg (by omega)]
      rw [show base + 1 + (depth + 1) = base + 1 + 1 + depth by omega, hbelow]
      rfl

/-- Everything below the start leads up to it. -/
theorem Hangs.exists_above? (h : t.Hangs parent f) {base : Nat}
    (hparent : t.above? base parent = some start) {id : NodeId} (hid : id ∈ f.ids) :
    ∃ steps, t.above? steps id = some start := by
  induction f generalizing parent base with
  | nil => simp at hid
  | node j below after ihb iha =>
    obtain ⟨hp, -, hb, ha⟩ := h
    have hnode : t.above? (base + 1) j = some start := by rw [above?, hp, Option.bind_some, hparent]
    simp only [Forest.ids_node, List.mem_cons, List.mem_append] at hid
    rcases hid with rfl | hid | hid
    · exact ⟨_, hnode⟩
    · exact ihb hb hnode hid
    · exact iha ha hparent hid

/-! ## Rows and their children -/

def Shows (t : Tree) : Forest → Prop
  | .nil => True
  | .node id below after => (t.children id).toList = below.roots ∧ t.Shows below ∧ t.Shows after

theorem Hangs.shows (h : t.Hangs parent f) : t.Shows f := by
  induction f generalizing parent with
  | nil => trivial
  | node id below after ihb iha => exact ⟨h.2.1, ihb h.2.2.1, iha h.2.2.2⟩

theorem Shows.append {g : Forest} (hf : t.Shows f) (hg : t.Shows g) : t.Shows (f ++ g) := by
  induction f with
  | nil => exact hg
  | node id below after _ ih => exact ⟨hf.1, hf.2.1, ih hf.2.2⟩

theorem Shows.beneath (h : t.Shows f) : t.Shows f.beneath := by
  induction f with
  | nil => trivial
  | node id below after _ ih => exact h.2.1.append (ih h.2.2)

end Tree

/-! ## Whole walks -/

namespace Walk

variable {t : Tree} {w : Walk} {ids : List NodeId}

/-- The walk visits these nodes one after the other. Before each of them there is a node left, after
the last one there is none, and asking for another one is a fault. -/
inductive Completes (t : Tree) : Walk → List NodeId → Prop
  | done {w : Walk} (hnext : w.hasNext = false) (hfault : w.advance t = .error .walkExhausted) :
      Completes t w []
  | visit {w w' : Walk} {id : NodeId} {ids : List NodeId} (hnext : w.hasNext = true)
      (hvisit : w.advance t = .ok (id, w')) (hrest : Completes t w' ids) : Completes t w (id :: ids)

theorem Completes.nil (t : Tree) (strategy : Strategy) : Completes t ⟨strategy, []⟩ [] :=
  .done rfl rfl

theorem Completes.cons {strategy : Strategy} {id : NodeId} {waiting : List NodeId}
    (h : Completes t ⟨strategy, follow strategy (t.children id).toList waiting⟩ ids) :
    Completes t ⟨strategy, id :: waiting⟩ (id :: ids) := .visit rfl rfl h

/-- Enough steps collect the nodes of a whole walk. -/
theorem Completes.collect (h : Completes t w ids) {steps : Nat} (hsteps : ids.length ≤ steps)
    (seen : Array NodeId) :
    Walk.collect t steps w seen = seen ++ ids.toArray := by
  induction h generalizing steps seen with
  | @done w hnext _ =>
    have hnone : w.next? t = none := by
      cases hw : w.waiting with
      | nil => rw [next?, hw]
      | cons id waiting => simp [hasNext, hw] at hnext
    cases steps with
    | zero => simp [Walk.collect]
    | succ steps => simp [Walk.collect, hnone]
  | @visit w w' id ids _ hvisit _ ih =>
    obtain ⟨steps, rfl⟩ := Nat.exists_eq_add_one.mpr (Nat.lt_of_lt_of_le (Nat.succ_pos _) hsteps)
    have hsome : w.next? t = some (id, w') := by
      rw [advance] at hvisit
      split at hvisit
      · next found hfound => rw [hfound, Except.ok.inj hvisit]
      · cases hvisit
    rw [Walk.collect, hsome]
    dsimp only
    rw [ih (Nat.le_of_succ_le_succ hsteps)]
    simp

/-- A walk in depth visits the nodes of a row in their order, then what waited behind the row. -/
theorem completes_depth {f : Forest} (h : t.Shows f) {rest : List NodeId}
    (hrest : Completes t ⟨.depth, rest⟩ ids) :
    Completes t ⟨.depth, f.roots ++ rest⟩ (f.ids ++ ids) := by
  induction f generalizing rest ids with
  | nil => exact hrest
  | node id below after ihb iha =>
    have hrow := ihb h.2.1 (iha h.2.2 hrest)
    rw [← h.1, ← List.append_assoc below.ids] at hrow
    exact .cons hrow

/-- A walk in breadth visits the siblings of a row, and their children come to wait behind all the
others. -/
theorem completes_roots {f : Forest} (h : t.Shows f) {rest : List NodeId}
    (hrest : Completes t ⟨.breadth, rest ++ f.beneath.roots⟩ ids) :
    Completes t ⟨.breadth, f.roots ++ rest⟩ (f.roots ++ ids) := by
  induction f generalizing rest with
  | nil => simpa [Forest.beneath] using hrest
  | node id below after _ iha =>
    refine .cons ?_
    rw [Forest.beneath, Forest.roots_append, ← List.append_assoc] at hrest
    have hrow := iha h.2.2 hrest
    rw [← h.1, ← List.append_assoc] at hrow
    exact hrow

/-- A walk in breadth goes level by level. -/
theorem completes_breadth {f : Forest} (h : t.Shows f) {depth : Nat}
    (hdepth : f.ids.length ≤ depth) :
    Completes t ⟨.breadth, f.roots⟩ ((List.range depth).flatMap f.level) := by
  induction depth generalizing f with
  | zero =>
    cases f with
    | nil => exact .nil t .breadth
    | node id below after => simp at hdepth
  | succ depth ih =>
    have hrest := ih h.beneath (Forest.length_ids_beneath_le hdepth)
    rw [Forest.level_beneath] at hrest
    rw [← List.nil_append f.beneath.roots] at hrest
    have hrow := completes_roots h hrest
    rw [List.append_nil] at hrow
    rw [List.range_succ_eq_map, List.flatMap_cons, List.flatMap_map, f.level_zero]
    exact hrow

end Walk

/-! ## From any node -/

namespace Tree

/-- Nodes sorted by how many steps they are below the start, those of one level in their order. -/
def byLevel (t : Tree) (start : NodeId) (ids : List NodeId) : List NodeId :=
  (List.range t.size).flatMap fun steps => ids.filter fun id => t.above? steps id = some start

/-- What walks from a node visit, where `f` is the shape of what is below the node. -/
structure Traverses (t : Tree) (start : NodeId) (f : Forest) : Prop where
  children : (t.children start).toList = f.roots
  hangs : t.Hangs start f
  nodup : (start :: f.ids).Nodup
  descendants : ∀ id, id ∈ start :: f.ids ↔ ∃ steps, t.above? steps id = some start
  depth : Walk.Completes t (.start .depth start) (start :: f.ids)
  walk_depth : t.walk .depth start = start :: f.ids
  breadth : Walk.Completes t (.start .breadth start) (t.byLevel start (start :: f.ids))
  walk_breadth : t.walk .breadth start = t.byLevel start (start :: f.ids)

/-- A node whose parents lead to the start is below it. -/
theorem Spans.mem_of_above? {t : Tree} {g f : Forest} {start : NodeId} (h : t.Spans g)
    (hstart : start < t.size) (hchildren : (t.children start).toList = f.roots)
    (hangs : t.Hangs start f) {steps : Nat} {id : NodeId}
    (habove : t.above? steps id = some start) : id ∈ start :: f.ids := by
  induction steps generalizing id with
  | zero =>
    obtain rfl := Option.some.inj habove
    exact List.mem_cons_self
  | succ steps ih =>
    obtain ⟨parent, hparent, hrest⟩ := Option.bind_eq_some_iff.mp habove
    have hid : id ∈ g.ids := by
      have hlt : id < t.size := by
        by_contra hge
        rw [parent?_of_size_le (Nat.le_of_not_lt hge)] at hparent
        cases hparent
      refine (List.mem_cons.mp ((h.covers id).mp hlt)).resolve_left ?_
      rintro rfl
      rw [h.orphan] at hparent
      cases hparent
    have hchild := (h.mem_children hid hparent).1
    rcases List.mem_cons.mp (ih hrest) with rfl | hmem
    · exact List.mem_cons_of_mem _ (Forest.mem_ids_of_mem_roots (hchildren ▸ hchild))
    · obtain ⟨row, hroots, -, hsub⟩ := hangs.below hmem
      refine List.mem_cons_of_mem _ (hsub.subset (List.mem_cons_of_mem _ ?_))
      exact Forest.mem_ids_of_mem_roots (hroots ▸ hchild)

theorem byLevel_eq {t : Tree} {start : NodeId} {f : Forest} {depth : Nat}
    (hsize : t.size = depth + 1) (hself : ∀ steps, t.above? steps start = some start ↔ steps = 0)
    (hangs : t.Hangs start f) (hnodup : (start :: f.ids).Nodup) :
    t.byLevel start (start :: f.ids) = start :: (List.range depth).flatMap f.level := by
  have hstart : start ∉ f.ids := (List.nodup_cons.mp hnodup).1
  have hfirst : (start :: f.ids).filter (fun id => t.above? 0 id = some start) = [start] := by
    rw [List.filter_cons_of_pos (by simp [hself]), List.filter_eq_nil_iff.mpr]
    intro id hid hcontra
    obtain rfl := Option.some.inj (of_decide_eq_true hcontra)
    exact hstart hid
  have hlevel : ∀ n, (start :: f.ids).filter (fun id => t.above? (n + 1) id = some start) =
      f.level n := by
    intro n
    rw [List.filter_cons_of_neg (by simp [hself]), ← hangs.filter_ids_eq_level hstart hself n]
    simp only [Nat.zero_add, Nat.add_comm 1 n]
  rw [byLevel, hsize, List.range_succ_eq_map, List.flatMap_cons, List.flatMap_map, hfirst]
  simp only [hlevel, List.singleton_append]

/-- From any node of a tree both walks come to an end. -/
theorem Spans.traverses {t : Tree} {g : Forest} (h : t.Spans g) {start : NodeId}
    (hstart : start < t.size) :
    ∃ f, t.Traverses start f := by
  obtain ⟨f, hchildren, hangs, hsub⟩ := h.below hstart
  have hnodup : (start :: f.ids).Nodup := h.nodup.sublist hsub
  have hself : ∀ steps, t.above? steps start = some start ↔ steps = 0 :=
    fun steps => h.above?_self hstart
  have hlength : f.ids.length ≤ g.ids.length := by
    have := hsub.length_le
    simpa using this
  have hlevels := byLevel_eq h.size_eq hself hangs hnodup
  have hdepth : Walk.Completes t (.start .depth start) (start :: f.ids) := by
    refine .cons ?_
    have hrow := Walk.completes_depth hangs.shows (.nil t .depth)
    rw [← hchildren, List.append_nil f.ids] at hrow
    exact hrow
  have hbreadth : Walk.Completes t (.start .breadth start) (t.byLevel start (start :: f.ids)) := by
    rw [hlevels]
    refine .cons ?_
    show Walk.Completes t ⟨.breadth, [] ++ (t.children start).toList⟩ _
    rw [hchildren, List.nil_append]
    exact Walk.completes_breadth hangs.shows hlength
  have hwalk : ∀ {strategy : Strategy} {ids : List NodeId},
      Walk.Completes t (.start strategy start) ids →
      ids.length ≤ t.size → t.walk strategy start = ids := by
    intro strategy ids hcompletes hle
    rw [walk, hcompletes.collect hle]
    simp
  refine ⟨f, hchildren, hangs, hnodup, fun id => ⟨fun hid => ?_, fun hid => ?_⟩, hdepth,
    hwalk hdepth ?_, hbreadth, hwalk hbreadth ?_⟩
  · rcases List.mem_cons.mp hid with rfl | hid
    · exact ⟨0, rfl⟩
    · have hself : t.above? 0 start = some start := rfl
      exact hangs.exists_above? hself hid
  · obtain ⟨steps, habove⟩ := hid
    exact h.mem_of_above? hstart hchildren hangs habove
  · rw [h.size_eq]
    simpa using hlength
  · rw [hlevels, List.length_cons, Forest.length_flatMap_level hlength, h.size_eq]
    exact Nat.succ_le_succ hlength

end Tree

/-- The tree of any list of lines is a tree, and stays one when its shorthands are expanded, which
never fails: every node but the root has a parent, occurs once among its children and nowhere else,
and reaches the root. From any node a walk in depth visits the node and everything below it once, in
the order of execution, and a walk in breadth visits the same nodes level by level, each level in
the order of execution. -/
theorem nested_lines_form_tree (rs : List Reading) (e : Setting) (s : Session) :
    (Tree.nest rs).Rooted ∧ (∀ start < (Tree.nest rs).size, ∃ f, (Tree.nest rs).Traverses start f) ∧
    ∃ s', ({ s with tree := Tree.nest rs } : Session).expand e = .ok s' ∧ s'.tree.Rooted ∧
      ∀ start < s'.tree.size, ∃ f, s'.tree.Traverses start f := by
  obtain ⟨f, hf⟩ := nest_spans_some rs
  obtain ⟨s', g, hexpand, hg, -⟩ := Session.expand_spans (s := { s with tree := Tree.nest rs }) e hf
  exact ⟨hf.rooted, fun _ hstart => hf.traverses hstart, s', hexpand, hg.rooted,
    fun _ hstart => hg.traverses hstart⟩

end GameScript
