import GameScript.Proofs.Shorthand.Freshness

/-!
# Loops after their expansion

A loop that nothing is wrong with is found in the expanded tree again (`exists_unrolled`): behind
its header stand the statements before the loop, then the head of the loop, and below that the
statements that start a round and the body. The body holds the nodes of the script that were below
the header. If a name was drawn for the loop, only the generated statements of this loop use it.

The loop waits for its turn (`Waiting`), is expanded, and the expansion of other shorthands leaves
it as it is (`Unrolled`).
-/

namespace GameScript

/-- Replacing a shorthand keeps what is below and after it. -/
theorem Generated.has_shape {y : Generated} {header next id : NodeId} {b a below after : Forest}
    (h : b.Has id below after ∨ a.Has id below after) :
    (y.shape header next b a).Has id below after := by
  unfold shape
  split
  · exact .inr (h.imp_right fun h => h.append _)
  · refine .inr (.inr (Forest.Has.append _ ?_))
    rcases h with h | h
    · exact .inr (.inl (h.append _))
    · exact .inr (.inr h)

namespace Session

def loopRow (x : Generated) (next : NodeId) (body after : Forest) : Forest :=
  .leaves (List.range' next x.before.length) ++
    .node (next + x.before.length)
      (.leaves (List.range' (next + x.before.length + 1) x.round.length) ++ body) after

def SameLines (t : Tree) (f g : Forest) : Prop := ∀ id < t.size, id ∈ f.ids ↔ id ∈ g.ids

/-- The loop `head` waits for its expansion, with the nodes `inner` of the script below it. -/
def Waiting (t : Tree) (head : NodeId) (inner : Forest) (g : Forest) (rest : List NodeId) : Prop :=
  head ∈ rest ∧ ∃ body after, g.Has head body after ∧ SameLines t body inner

/-- The loop `head` was expanded to the statements `x`, which are the nodes from `next` on. -/
structure Unrolled (e : Setting) (t : Tree) (head : NodeId) (inner : Forest)
    (names names' : NameSupply) (y : Expansion) (x : Generated) (next : NodeId) (body : Forest)
    (s : Session) (g : Forest) : Prop where
  plan : (t.node head).statement.plan names = .ok (y, names')
  read : x.IsRead e (t.node head).statement.line y
  row : ∃ after, g.Has head .nil (loopRow x next body after)
  nodes : ∀ i u, (x.front ++ x.inner)[i]? = some u → (s.node (next + i)).origin = .expanded ∧
    (s.node (next + i)).header = some head ∧ (s.node (next + i)).statement = u
  retired : (s.node head).origin = .header
  lines : SameLines t body inner
  size : t.size ≤ next ∧ next + (x.front ++ x.inner).length ≤ s.tree.size
  owns : names' = names.fresh.2 → names.fresh.1 ∈ s.names.used ∧ Owns s g.ids head names.fresh.1

section

variable {e : Setting} {t : Tree} {f g g' inner body : Forest} {s s' : Session}
  {header head next : NodeId} {rest : List NodeId} {names names' : NameSupply} {y : Expansion}
  {x : Generated}

theorem SameLines.alter {z : Generated} {size : Nat} (h : SameLines t body inner)
    (hsize : t.size ≤ size) (hnodup : body.ids.Nodup) :
    SameLines t (body.alter header (z.shape header size)) inner := by
  intro id hid
  rw [← h id hid]
  by_cases hmem : header ∈ body.ids
  · rw [z.mem_ids_alter hnodup hmem]
    refine or_iff_right ?_
    rintro ⟨i, -, rfl⟩
    omega
  · rw [Forest.alter_of_notMem hmem]

theorem ids_loopRow (x : Generated) (next : NodeId) (body after : Forest) :
    (loopRow x next body after).ids =
    List.range' next (x.before.length + 1 + x.round.length) ++ (body.ids ++ after.ids) := by
  have hrange : List.range' next (x.before.length + 1 + x.round.length) =
      List.range' next x.before.length ++
      (next + x.before.length) :: List.range' (next + x.before.length + 1) x.round.length := by
    rw [Nat.add_assoc, ← List.range'_append_1, Nat.add_comm 1, List.range'_succ]
  simp [loopRow, hrange]

theorem alter_loopRow {shape : Forest → Forest → Forest}
    (h : header ∉ List.range' next (x.before.length + 1 + x.round.length)) (after : Forest) :
    (loopRow x next body after).alter header shape = loopRow x next (body.alter header shape)
    (after.alter header shape) := by
  have hmem : ∀ i < x.before.length + 1 + x.round.length, next + i ≠ header := by
    rintro i hi rfl
    exact h (mem_range'_iff.mpr ⟨i, hi, rfl⟩)
  have hbefore : header ∉ List.range' next x.before.length := by
    intro hc
    obtain ⟨i, hi, rfl⟩ := mem_range'_iff.mp hc
    exact hmem i (by omega) rfl
  have hround : header ∉ List.range' (next + x.before.length + 1) x.round.length := by
    intro hc
    obtain ⟨i, hi, rfl⟩ := mem_range'_iff.mp hc
    exact hmem (x.before.length + 1 + i) (by omega) (by simp only [Nat.add_assoc])
  rw [loopRow, Forest.alter_leaves_append hbefore,
    Forest.alter_node_of_ne (hmem x.before.length (by omega)),
    Forest.alter_leaves_append hround, loopRow]

theorem length_of_isSome_head (h : x.head.isSome = true) :
    (x.front ++ x.inner).length = x.before.length + 1 + x.round.length := by
  obtain ⟨w, hw⟩ := Option.isSome_iff_exists.mp h
  simp [Generated.front, Generated.inner, hw, Nat.add_comm, Nat.add_left_comm]

theorem Unfolds.forest_eq (h : Unfolds e s g header s' g') :
    (g' = g ∧ s'.tree.size = s.tree.size) ∨ ∃ z : Generated,
    g' = g.alter header (z.shape header s.tree.size) ∧
      s'.tree.size = s.tree.size + (z.front ++ z.inner).length := by
  cases h with
  | reported p _ => exact .inl ⟨rfl, Tree.size_modify ..⟩
  | @replaced _ _ z _ _ parent _ => exact .inr ⟨z, rfl, Tree.size_replace z s.tree parent header⟩

theorem Waiting.step (hw : Waiting t head inner g (header :: rest)) (hne : head ≠ header)
    (hx : Expanding e t f s g (header :: rest)) (hsize : t.size ≤ s.tree.size)
    (h : Unfolds e s g header s' g') :
    Waiting t head inner g' rest := by
  obtain ⟨hmem, body, after, hhas, hlines⟩ := hw
  refine ⟨(List.mem_cons.mp hmem).resolve_left hne, ?_⟩
  have hnodup := hx.spans.nodup_ids
  rcases h.forest_eq with ⟨rfl, -⟩ | ⟨z, rfl, -⟩
  · exact ⟨body, after, hhas, hlines⟩
  · refine ⟨_, _, hhas.alter hne hnodup Generated.has_shape, hlines.alter hsize ?_⟩
    exact (Forest.nodup_ids_node.mp (hhas.nodup hnodup)).2.1

/-- The nodes of an expanded loop are no shorthands that wait. -/
theorem Unrolled.notMem (hu : Unrolled e t head inner names names' y x next body s g)
    (horigin : (s.node header).origin = .source) :
    header ≠ head ∧ header ∉ List.range' next (x.front ++ x.inner).length := by
  constructor
  · rintro rfl
    cases horigin.symm.trans hu.retired
  · intro hc
    obtain ⟨i, hi, rfl⟩ := mem_range'_iff.mp hc
    cases horigin.symm.trans (hu.nodes i _ (List.getElem?_eq_getElem hi)).1

/-- The expansion of another shorthand leaves a loop as it is. -/
theorem Unrolled.step (hu : Unrolled e t head inner names names' y x next body s g)
    (hhead : x.head.isSome = true) (hx : Expanding e t f s g (header :: rest))
    (he : e.grammar = .builtin) (h : Unfolds e s g header s' g') :
    ∃ body, Unrolled e t head inner names names' y x next body s' g' := by
  obtain ⟨hmem, hpending⟩ := hx.waiting header (by simp)
  obtain ⟨hne, hnew⟩ := hu.notMem (origin_of_pending hpending)
  obtain ⟨after, hrow⟩ := hu.row
  have hnodup := hx.spans.nodup_ids
  have hbody : body.ids.Nodup := by
    have hids := hrow.nodup hnodup
    rw [Forest.ids_node, ids_loopRow, List.nodup_cons, List.nodup_append, List.nodup_append,
      List.nodup_append] at hids
    exact hids.2.2.1.2.1.1
  have hlt : ∀ i < (x.front ++ x.inner).length, next + i < s.tree.size := fun i hi =>
    Nat.lt_of_lt_of_le (Nat.add_lt_add_left hi next) hu.size.2
  have hheadSize : head < s.tree.size :=
    (hx.spans.covers head).mpr (by simp [hrow.ids_subset (List.mem_cons_self ..)])
  have hnodes : ∀ i u, (x.front ++ x.inner)[i]? = some u → (s'.node (next + i)).origin = .expanded ∧
      (s'.node (next + i)).header = some head ∧ (s'.node (next + i)).statement = u := by
    intro i u hi
    have hlength : i < (x.front ++ x.inner).length := (List.getElem?_eq_some_iff.mp hi).1
    have hidne : next + i ≠ header := by
      rintro rfl
      exact hnew (mem_range'_iff.mpr ⟨i, hlength, rfl⟩)
    rw [h.read_eq (hlt i hlength) hidne Node.origin,
      h.read_eq (hlt i hlength) hidne Node.header,
      h.read_eq (hlt i hlength) hidne Node.statement]
    exact hu.nodes i u hi
  have hretired : (s'.node head).origin = .header :=
    (h.read_eq hheadSize hne.symm Node.origin).trans hu.retired
  have howns : names' = names.fresh.2 →
      names.fresh.1 ∈ s'.names.used ∧ Owns s' g'.ids head names.fresh.1 := by
    intro hnames
    obtain ⟨htaken, howns⟩ := hu.owns hnames
    exact ⟨h.used_subset htaken, howns.step htaken h hx he⟩
  rcases h.forest_eq with ⟨rfl, hsize⟩ | ⟨z, rfl, hsize⟩
  · exact ⟨body, hu.plan, hu.read, hu.row, hnodes, hretired, hu.lines, hsize ▸ hu.size, howns⟩
  · refine ⟨body.alter header (z.shape header s.tree.size), hu.plan, hu.read, ?_, hnodes, hretired,
      hu.lines.alter (Nat.le_trans hu.size.1 (Nat.le_trans (Nat.le_add_right _ _) hu.size.2)) hbody,
      ⟨hu.size.1, hsize ▸ Nat.le_add_right_of_le hu.size.2⟩, howns⟩
    rw [length_of_isSome_head hhead] at hnew
    have hhas := hrow.alter hne.symm hnodup (@Generated.has_shape z header s.tree.size head)
    rw [Forest.alter_nil, alter_loopRow hnew] at hhas
    exact ⟨_, hhas⟩

theorem Waiting.unroll (hw : Waiting t head inner g (head :: rest))
    (hx : Expanding e t f s g (head :: rest)) (hsize : t.size ≤ s.tree.size) (htaken : Taken s g)
    (hplan : (t.node head).statement.plan s.names = .ok (y, names'))
    (hread : Generated.read e (t.node head).statement.line y = .ok x) (hhead : x.head.isSome = true)
    (h : Unfolds e s g head s' g') :
    ∃ body, Unrolled e t head inner s.names names' y x s.tree.size body s' g' := by
  obtain ⟨hmem, hpending⟩ := hx.waiting head (by simp)
  have hlt : head < s.tree.size := hx.spans.lt_size hmem
  have hstatement := (hx.provenance.source head (origin_of_pending hpending)).2.1
  obtain ⟨parent, rfl, rfl⟩ := h.replaced_of_read (hstatement ▸ hplan) (hstatement ▸ hread)
  have hretired := congrArg Node.origin (Tree.node_replace_header x parent hlt)
  obtain ⟨-, body, after, hhas, hlines⟩ := hw
  obtain ⟨w, hw⟩ := Option.isSome_iff_exists.mp hhead
  have hshape : x.shape head s.tree.size body after =
      .node head .nil (loopRow x s.tree.size body after) := by
    rw [Generated.shape, hw]
    rfl
  refine ⟨body, hplan, Generated.isRead_iff.mp hread,
    ⟨after, hhas.alter_self hx.spans.nodup_ids hshape⟩, ?_,
    hretired, hlines, ⟨hsize, ?_⟩, ?_⟩
  · intro i u hi
    have hnode := Tree.node_replace_new x s.tree parent head hi
    exact ⟨congrArg Node.origin hnode, congrArg Node.header hnode, congrArg Node.statement hnode⟩
  · exact Nat.le_of_eq (Tree.size_replace x s.tree parent head).symm
  · rintro rfl
    exact ⟨NameSupply.mem_used_fresh.mpr (.inl rfl),
      h.owns_fresh hx htaken (hstatement ▸ hplan) rfl hretired⟩

/-- A loop in the course of an expansion: it waits, or it was expanded. -/
structure Followed (e : Setting) (t : Tree) (head : NodeId) (inner : Forest) (s : Session)
    (g : Forest) (rest : List NodeId) : Prop where
  size : t.size ≤ s.tree.size
  taken : Taken s g
  state : Waiting t head inner g rest ∨ ∃ names names' y x next body, x.head.isSome = true ∧
    Unrolled e t head inner names names' y x next body s g

theorem Followed.step {lines : List String}
    (h : Followed e (buildTree e lines) head inner s g (header :: rest))
    (hx : Expanding e (buildTree e lines) f s g (header :: rest)) (hg : e.grammar.Lawful)
    (he : e.grammar = .builtin)
    (hheader : ((buildTree e lines).node head).statement.IsHeader e.objects)
    (hloop : ((buildTree e lines).node head).statement.form.isLoopShorthand = true)
    (hstep : ¬((buildTree e lines).node head).statement.StepsByZero)
    (hunfolds : Unfolds e s g header s' g') :
    Followed e (buildTree e lines) head inner s' g' rest := by
  obtain ⟨hsize, htaken, hstate⟩ := h
  have hwaiting := (hx.waiting header (by simp)).2
  have hpending := hx.provenance.isPendingShorthand_eq hwaiting
  have hgrown : (buildTree e lines).size ≤ s'.tree.size := by
    rcases hunfolds.forest_eq with ⟨-, hsame⟩ | ⟨z, -, hmore⟩ <;> omega
  refine ⟨hgrown, htaken.step hunfolds hx he, ?_⟩
  rcases hstate with hw | ⟨names, names', y, x, next, body, hhead, hu⟩
  · by_cases hne : head = header
    · subst hne
      obtain ⟨y, names', x, hplan, hread⟩ :=
        Generated.succeeds_of_isHeader he hheader hstep s.names
      have hhead : x.head.isSome = true := hloop ▸
        (Generated.wellFormed_of_isRead hg (nest_prepared e lines head) hpending hplan
          (Generated.isRead_iff.mp hread)).2
      obtain ⟨body, hu⟩ := hw.unroll hx hsize htaken hplan hread hhead hunfolds
      exact .inr ⟨_, _, _, _, _, body, hhead, hu⟩
    · exact .inl (hw.step hne hx hsize hunfolds)
  · obtain ⟨body, hu⟩ := hu.step hhead hx he hunfolds
    exact .inr ⟨_, _, _, _, _, body, hhead, hu⟩

end

/-- A loop that nothing is wrong with is found in the expanded tree. -/
theorem exists_unrolled {e : Setting} {lines : List String} {f inner after : Forest} {s : Session}
    {head : NodeId} (he : e.grammar = .builtin) (hf : (buildTree e lines).Spans f)
    (hheader : ((buildTree e lines).node head).statement.IsHeader e.objects)
    (hpending : isPendingShorthand ((buildTree e lines).node head) = true)
    (hloop : ((buildTree e lines).node head).statement.form.isLoopShorthand = true)
    (hstep : ¬((buildTree e lines).node head).statement.StepsByZero)
    (hinner : f.Has head inner after)
    (hexpand : (Session.start (buildTree e lines)).expand e = .ok s) :
    ∃ g names names' y x next body, Expanding e (buildTree e lines) f s g [] ∧
      x.head.isSome = true ∧
      Unrolled e (buildTree e lines) head inner names names' y x next body s g := by
  have hg : e.grammar.Lawful := he ▸ builtin_lawful
  have hstart := start_expanding hg lines hf
  have hwaits : Followed e (buildTree e lines) head inner
      (Session.start (buildTree e lines)).seedNames f
      ((buildTree e lines).preorder.filter fun id =>
        isPendingShorthand ((buildTree e lines).node id)) :=
    ⟨Nat.le_refl _, taken_start hf, .inl ⟨hstart.settled rfl head hpending, inner, after, hinner,
      fun _ _ => Iff.rfl⟩⟩
  obtain ⟨u, g, hrun, hx, hdone⟩ := hstart.run_keeps
    (P := fun s g rest => Followed e (buildTree e lines) head inner s g rest) hg
    (fun hx hfollowed hunfolds => hfollowed.step hx hg he hheader hloop hstep hunfolds) hwaits
  obtain rfl := Except.ok.inj (hrun.symm.trans hexpand)
  rcases hdone.state with ⟨hmem, -⟩ | ⟨names, names', y, x, next, body, hhead, hu⟩
  · cases hmem
  · exact ⟨g, names, names', y, x, next, body, hx, hhead, hu⟩

end Session

end GameScript
