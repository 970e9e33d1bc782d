import GameScript.Proofs.Compile.Lines
import GameScript.Proofs.Passes.Parameters
import GameScript.Proofs.Shorthand.Reports

/-!
# Lines that cannot be read, through the expansion

The diagnostic of a line rides on its node. Whatever a grammar says about shorthands, an expansion
puts only nodes without a diagnostic into the tree and leaves the others in their order
(`Session.Carries.expandOne`), so the tree of an expanded script carries the diagnostics of its
lines in the order in which they were read. All its nodes stand for lines of the script
(`Session.expand_carries`).
-/

namespace GameScript

/-! ## What an expansion adds to a shape -/

/-- What is read from the nodes in their order stays, if what stands in the place of a node adds
nothing to read. -/
theorem Forest.filterMap_ids_alter {α : Type} {φ : NodeId → Option α} {target : NodeId}
    {shape : Forest → Forest → Forest}
    (hshape : ∀ below after, (shape below after).ids.filterMap φ =
      (node target below after).ids.filterMap φ)
    (f : Forest) : (f.alter target shape).ids.filterMap φ = f.ids.filterMap φ := by
  induction f with
  | nil => rfl
  | node id below after ihb iha =>
    by_cases hid : id = target
    · subst hid
      rw [alter_node_self, hshape]
    · rw [alter_node_of_ne hid]
      simp only [ids_node, List.filterMap_cons, List.filterMap_append, ihb, iha]

/-- An expansion adds nothing to read, if nothing is read from new nodes. -/
theorem Generated.filterMap_ids_shape (x : Generated) {α : Type} {φ : NodeId → Option α}
    {header next : NodeId} (hnew : ∀ id, next ≤ id → φ id = none) (below after : Forest) :
    (x.shape header next below after).ids.filterMap φ =
      (Forest.node header below after).ids.filterMap φ := by
  have hrange : ∀ start length : Nat, next ≤ start →
      (List.range' start length).filterMap φ = [] := by
    intro start length hstart
    rw [List.filterMap_eq_nil_iff]
    intro id hid
    exact hnew id (Nat.le_trans hstart (List.mem_range'_1.mp hid).1)
  have hbefore := hrange next x.before.length (Nat.le_refl _)
  unfold shape
  cases x.head with
  | none =>
    simp only [Forest.ids_node, Forest.ids_append, Forest.ids_leaves, List.filterMap_cons,
      List.filterMap_append, hbefore, List.nil_append]
  | some s =>
    have hhead := hnew (next + x.before.length) (Nat.le_add_right _ _)
    have hround :=
      hrange (next + x.before.length + 1) x.round.length
        (Nat.le_add_right_of_le (Nat.le_add_right _ _))
    simp only [Forest.ids_node, Forest.ids_append, Forest.ids_leaves, Forest.ids_nil,
      List.filterMap_cons, List.filterMap_append, hbefore, hhead, hround, List.nil_append]

/-! ## The lines of the nodes of a script -/

/-- The nodes that come with a line carry its number. -/
theorem Nesting.line_add (n : Nesting) (r : Reading) {id : NodeId} (hid : n.tree.size ≤ id)
    (hsize : id < (n.add r).tree.size) : ((n.add r).tree.node id).statement.line =
      r.statement.line := by
  refine add_induction (motive := fun t => id < t.size →
    (t.node id).statement.line = r.statement.line) n r ?_ ?_ ?_ hsize
  · intro hlt
    rw [Tree.size_create, Nat.lt_succ_iff] at hlt
    rw [Tree.node_create, if_pos (Nat.le_antisymm hlt hid)]
    rfl
  · intro t ht hlt
    rw [Tree.size_create, Nat.lt_succ_iff_lt_or_eq] at hlt
    rw [Tree.node_create]
    split
    · rfl
    · next hne => exact ht (hlt.resolve_right hne)
  · intro t parent child ht hlt
    rw [Tree.size_append] at hlt
    rw [(Tree.Keeps.append t parent child).statement id hlt, ht hlt]

/-- Every node of a script but the root carries the number of one of its lines. -/
theorem nest_line {rs : List Reading} {id : NodeId} (hid : id ≠ Tree.root)
    (hsize : id < (Tree.nest rs).size) :
    ∃ r ∈ rs, ((Tree.nest rs).node id).statement.line = r.statement.line := by
  have hrun : ∀ (rs : List Reading) (n : Nesting), n.tree.size ≤ id →
      id < (rs.foldl Nesting.add n).tree.size →
      ∃ r ∈ rs, ((rs.foldl Nesting.add n).tree.node id).statement.line = r.statement.line := by
    intro rs
    induction rs with
    | nil => exact fun n hn hlt => absurd hlt (Nat.not_lt.mpr hn)
    | cons r rest ih =>
      intro n hn hlt
      by_cases hnew : id < (n.add r).tree.size
      · -- The node came with this line, and the lines behind it keep it.
        refine ⟨r, by simp, ?_⟩
        rw [List.foldl_cons, (Nesting.keeps_foldl rest (n.add r)).statement id hnew,
          Nesting.line_add n r hn hnew]
      · obtain ⟨q, hq, hline⟩ := ih (n.add r) (Nat.le_of_not_lt hnew) hlt
        exact ⟨q, by simp [hq], hline⟩
  exact hrun rs .empty (Nat.pos_of_ne_zero hid) hsize

theorem Tree.filterMap_diagnostic_of_holds {t : Tree} {ids : List NodeId} {rs : List Reading}
    (h : List.Forall₂ t.Holds ids rs) :
    (ids.filterMap fun id => (t.node id).diagnostic) = rs.filterMap Reading.diagnostic := by
  induction h with
  | nil => rfl
  | cons hline _ ih => simp only [List.filterMap_cons, hline.diagnostic, ih]

def IsLine (count line : Nat) : Prop := 1 ≤ line ∧ line ≤ count

theorem Statement.isLine_of_mem_readAll {g : Grammar} {v : Version} {lines : List String}
    {r : Reading} (h : r ∈ readAll g v lines) : IsLine lines.length r.statement.line := by
  simp only [readAll, List.mem_map, Prod.exists] at h
  obtain ⟨line, number, hmem, rfl⟩ := h
  rw [line_read]
  obtain ⟨hle, hlt, -⟩ := List.mem_zipIdx hmem
  exact ⟨hle, by omega⟩

namespace Session

/-! ## One expansion -/

/-- The nodes of the session carry these diagnostics in the order of execution, none of them where
the check passes over the node, and stand for lines of a script of so many lines. -/
structure Carries (ds : List Diagnostic) (count : Nat) (s : Session) (g : Forest) : Prop where
  spans : s.tree.Spans g
  unread : (g.ids.filterMap fun id => (s.node id).diagnostic) = ds
  silent : ∀ id, (s.node id).isExempt = true → (s.node id).diagnostic = none
  lines : ∀ id ∈ g.ids, IsLine count (s.node id).statement.line

namespace Carries

variable {e : Setting} {ds : List Diagnostic} {count : Nat} {s s' : Session} {g : Forest}
  {header parent : NodeId}

theorem alike (h : Carries ds count s g) (halike : s.tree.Alike s'.tree) :
    Carries ds count s' g where
  spans := h.spans.alike halike
  unread := by
    rw [← h.unread]
    exact List.filterMap_congr fun id _ => (halike.node id).diagnostic.symm
  silent id hexempt := by
    rw [Node.isExempt, node, ← halike.statement_eq, ← halike.origin_eq] at hexempt
    exact (halike.node id).diagnostic.symm.trans (h.silent id hexempt)
  lines id hid := by
    rw [node, ← halike.statement_eq]
    exact h.lines id hid

theorem replace (h : Carries ds count s g) (hheader : header ∈ g.ids)
    (hparent : s.tree.parent? header = some parent) {y : Generated}
    (hy : ∀ u ∈ y.front ++ y.inner, u.line = (s.node header).statement.line) (names : NameSupply) :
    Carries ds count { s with names, tree := s.tree.replace parent header y }
      (g.alter header (y.shape header s.tree.size)) := by
  have hlt : header < s.tree.size := h.spans.lt_size hheader
  have hcases := Tree.replace_cases y parent hlt
  have hnew : ∀ j, s.tree.size ≤ j →
      ((s.tree.replace parent header y).node j).diagnostic = none := by
    intro j hj
    rcases hcases j with ⟨-, hnode⟩ | ⟨rfl, -⟩ | ⟨i, u, -, -, hnode⟩
    · rw [Node.eq_of_unlinked hnode Node.diagnostic, Tree.node_of_size_le hj]
      rfl
    · exact absurd hlt (Nat.not_lt.mpr hj)
    · exact congrArg Node.diagnostic hnode
  refine ⟨h.spans.replace y hheader hparent, ?_, ?_, ?_⟩
  · rw [← h.unread]
    refine (Forest.filterMap_ids_alter (y.filterMap_ids_shape hnew) g).trans
      (List.filterMap_congr fun j hj => ?_)
    exact Tree.read_replace_old y parent (h.spans.lt_size hj) Node.diagnostic
  · intro j hexempt
    rcases hcases j with ⟨-, hnode⟩ | ⟨rfl, hnode⟩ | ⟨i, u, -, -, hnode⟩
    · have hsame : ((s.tree.replace parent header y).node j).isExempt = (s.node j).isExempt :=
        Node.eq_of_unlinked hnode Node.isExempt
      exact (Node.eq_of_unlinked hnode Node.diagnostic).trans
        (h.silent j (hsame.symm.trans hexempt))
    · -- A header is passed over only if it is commented out, and so it was before.
      have hretired : ((s.tree.replace parent j y).node j).isExempt =
          (s.node j).statement.commented :=
        (congrArg Node.isExempt hnode).trans (Bool.or_false _)
      have hbefore : (s.node j).isExempt = true := by
        rw [Node.isExempt, hretired.symm.trans hexempt, Bool.true_or]
      exact (congrArg Node.diagnostic hnode).trans (h.silent j hbefore)
    · exact congrArg Node.diagnostic hnode
  · intro j hj
    show IsLine count ((s.tree.replace parent header y).node j).statement.line
    rcases (y.mem_ids_alter h.spans.nodup_ids hheader).mp hj with ⟨i, hi, rfl⟩ | hmem
    · have hu := List.getElem?_eq_getElem hi
      have hline : ((s.tree.replace parent header y).node (s.tree.size + i)).statement.line =
          (y.front ++ y.inner)[i].line :=
        congrArg (fun n : Node => n.statement.line)
          (Tree.node_replace_new y s.tree parent header hu)
      rw [hline, hy _ (List.mem_of_getElem? hu)]
      exact h.lines header hheader
    · rw [Tree.read_replace_old y parent (h.spans.lt_size hmem) fun n => n.statement.line]
      exact h.lines j hmem

theorem expandOne (h : Carries ds count s g) (hheader : header ∈ g.ids)
    (hone : s.expandOne e header = .ok s') :
    ∃ g', Carries ds count s' g' ∧ g.ids ⊆ g'.ids := by
  obtain ⟨g', hunfolds⟩ := unfolds_of_expandOne g hone
  refine ⟨g', ?_, hunfolds.subset_ids h.spans hheader⟩
  cases hunfolds with
  | reported p _ => exact h.alike (Unfolds.alike_report s _ header p)
  | replaced _ hread hparent => exact h.replace hheader hparent hread.line_eq _

end Carries

/-! ## A whole script -/

/-- The nodes of a script carry the diagnostics of its lines. -/
theorem start_carries {e : Setting} {lines : List String} {f : Forest}
    (hf : (buildTree e lines).Spans f) :
    Carries ((Statement.readAll e.grammar e.version lines).filterMap Reading.diagnostic)
      lines.length
      (Session.start (buildTree e lines)).seedNames f := by
  -- Only the node of a line has a diagnostic, and only if the line is not commented out.
  have hsilent : ∀ id, ((buildTree e lines).node id).origin.isGenerated = true ∨
      ((buildTree e lines).node id).isExempt = true →
      ((buildTree e lines).node id).diagnostic = none := by
    refine fun id => nest_forall (P := fun n => n.origin.isGenerated = true ∨ n.isExempt = true →
      n.diagnostic = none)
      (fun _ => rfl) (fun _ _ => rfl) (fun r hr hexempt => ?_) id
    simp only [Statement.readAll, List.mem_map, Prod.exists] at hr
    obtain ⟨line, number, -, rfl⟩ := hr
    refine Statement.read_diagnostic_of_commented ?_
    simpa [Reading.node, Node.isExempt, Origin.isGenerated] using hexempt
  refine ⟨hf, ?_, fun id hexempt => hsilent id (.inr hexempt), fun id hid => ?_⟩
  · have hwritten : (f.ids.filterMap fun id => ((buildTree e lines).node id).diagnostic) =
        (f.ids.filter fun id => !((buildTree e lines).node id).origin.isGenerated).filterMap
          fun id => ((buildTree e lines).node id).diagnostic := by
      rw [List.filterMap_filter]
      refine List.filterMap_congr fun id _ => ?_
      cases hgenerated : ((buildTree e lines).node id).origin.isGenerated with
      | false => rfl
      | true => exact hsilent id (.inl hgenerated)
    exact hwritten.trans (Tree.filterMap_diagnostic_of_holds (buildTree_holds hf))
  · have hne : id ≠ Tree.root := by
      rintro rfl
      exact (List.nodup_cons.mp hf.nodup).1 hid
    obtain ⟨r, hr, hline⟩ := nest_line hne (hf.lt_size hid)
    show IsLine lines.length ((buildTree e lines).node id).statement.line
    rw [buildTree, hline]
    exact Statement.isLine_of_mem_readAll hr

/-- The nodes of an expanded script carry the diagnostics of its lines, and what the expansion
reported is about its lines. -/
theorem expand_carries {e : Setting} {lines : List String} {s : Session}
    (h : (Session.start (buildTree e lines)).expand e = .ok s) :
    (∃ g, Carries ((Statement.readAll e.grammar e.version lines).filterMap Reading.diagnostic)
      lines.length s g) ∧
      ∀ d ∈ s.log, IsLine lines.length d.line := by
  obtain ⟨f, hf, -⟩ := nest_spans (readAll_regular e.grammar e.version lines)
  have hstart := start_carries (e := e) hf
  unfold expand at h
  suffices hrun : (∃ g,
      Carries ((Statement.readAll e.grammar e.version lines).filterMap Reading.diagnostic)
      lines.length s g ∧ f.ids ⊆ g.ids) ∧ ∀ d ∈ s.log, IsLine lines.length d.line from
    ⟨hrun.1.imp fun _ hg => hg.1, hrun.2⟩
  refine foldlM_induction (I := fun _ u =>
    (∃ g, Carries ((Statement.readAll e.grammar e.version lines).filterMap
      Reading.diagnostic) lines.length u g ∧ f.ids ⊆ g.ids) ∧
      ∀ d ∈ u.log, IsLine lines.length d.line) h
    ⟨⟨f, hstart, List.Subset.refl _⟩, by simp [seedNames, Session.start]⟩ ?_
  intro done header rest u u' hsplit hu hone
  obtain ⟨⟨g, hg, hsubset⟩, hlog⟩ := hu
  -- A shorthand that waits was in the tree from the start.
  have hheader : header ∈ g.ids := by
    have hwaits := List.mem_append_right done (List.mem_cons_self (a := header) (l := rest))
    rw [← hsplit, List.mem_filter, hstart.spans.preorder_eq] at hwaits
    exact hsubset hwaits.1
  obtain ⟨g', hg', hgrown⟩ := hg.expandOne hheader hone
  refine ⟨⟨g', hg', List.Subset.trans hsubset hgrown⟩, fun d hd => ?_⟩
  rcases expandOne_log hone with heq | ⟨p, -, heq⟩
  · exact hlog d (heq ▸ hd)
  · rw [heq, Array.mem_push] at hd
    rcases hd with hd | rfl
    · exact hlog d hd
    · exact hg.lines header hheader

end Session

end GameScript
