import GameScript.Proofs.Passes.Analysis
import GameScript.Proofs.Statement.Typing

/-!
# What the check of parameters reports

The check goes over the nodes one by one. What it reports about a node depends on the node alone
(`Node.complaints`), so the log is what the nodes give, in the order of execution
(`checkParameters_log`). It also keeps the evaluation order of the expression of each node
(`checkParameters_evalOrder`).
-/

namespace GameScript

def Node.findings (objects : Option ObjectLibrary) (n : Node) : List Problem :=
  n.statement.parameters.flatMap fun p => p.reports objects (n.origin == .expanded)

def Node.isExempt (n : Node) : Bool := n.statement.commented || n.origin == .hiddenJump

/-- What the check reports about the node. A line that could not be read is not looked into. -/
def Node.complaints (e : Setting) (n : Node) : List Diagnostic :=
  if n.isExempt then []
  else
    n.diagnostic.elim ((n.findings e.objects).map fun p =>
      .of p n.statement.line n.statement.display) fun d => [d]

theorem Node.Alike.complaints_eq {n m : Node} (h : n.Alike m) (e : Setting) :
    n.complaints e = m.complaints e := by
  have hexempt : n.isExempt = m.isExempt := by rw [isExempt, isExempt, h.statement, h.origin]
  have hfindings : n.findings e.objects = m.findings e.objects := by
    rw [findings, findings, h.statement, h.origin]
  rw [complaints, complaints, hexempt, hfindings, h.diagnostic, h.statement]

/-- Nothing is wrong with a node that nothing is reported about. -/
theorem Node.of_complaints_eq_nil {n : Node} {e : Setting} (h : n.complaints e = [])
    (hexempt : n.isExempt = false) :
    n.diagnostic = none ∧ n.findings e.objects = [] := by
  simp only [complaints, hexempt, Bool.false_eq_true, if_false] at h
  cases hd : n.diagnostic with
  | some d =>
    rw [hd] at h
    cases h
  | none =>
    rw [hd] at h
    exact ⟨rfl, List.map_eq_nil_iff.mp h⟩

namespace Session

/-! ## What is found -/

section

variable (objects : Option ObjectLibrary) (generated : Bool)

theorem checkParameter_problems (f : Findings) (p : Parameter) :
    (checkParameter objects generated f p).problems =
      f.problems ++ p.reports objects generated := by
  unfold Parameter.reports checkParameter
  split
  · split <;> simp
  · split <;> simp

theorem problems_foldl (ps : List Parameter) (f : Findings) :
    (ps.foldl (checkParameter objects generated) f).problems =
      f.problems ++ ps.flatMap (·.reports objects generated) := by
  induction ps generalizing f with
  | nil => simp
  | cons p ps ih =>
    rw [List.foldl_cons, ih, checkParameter_problems, List.flatMap_cons, List.append_assoc]

theorem evalOrder_checkParameter_of_ne {p : Parameter} (h : p.kind ≠ .expression) (f : Findings) :
    (checkParameter objects generated f p).evalOrder = f.evalOrder := by
  rw [checkParameter, if_neg h]
  split <;> rfl

/-- The evaluation order that is kept is the one of the only expression. -/
theorem evalOrder_foldl {ps : List Parameter}
    (hcount : ps.countP (fun p => p.kind == .expression) ≤ 1) {p : Parameter} (hp : p ∈ ps)
    (hkind : p.kind = .expression) {order : List Token}
    (horder : Expression.evalOrder p.tokens = .ok order) (f : Findings) :
    (ps.foldl (checkParameter objects generated) f).evalOrder = order := by
  have hothers : ∀ (qs : List Parameter) (f : Findings),
      qs.countP (fun p => p.kind == .expression) = 0 →
      (qs.foldl (checkParameter objects generated) f).evalOrder = f.evalOrder := by
    intro qs
    induction qs with
    | nil => exact fun f _ => rfl
    | cons q qs ih =>
      intro f hnone
      rw [List.countP_eq_zero] at hnone
      have hq : q.kind ≠ .expression := by simpa using hnone q (by simp)
      rw [List.foldl_cons, ih _ (List.countP_eq_zero.mpr fun r hr => hnone r (by simp [hr])),
        evalOrder_checkParameter_of_ne objects generated hq]
  obtain ⟨a, b, rfl⟩ := List.append_of_mem hp
  have hrest : b.countP (fun p => p.kind == .expression) = 0 := by
    rw [List.countP_append, List.countP_cons_of_pos (by simp [hkind])] at hcount
    omega
  rw [List.foldl_append, List.foldl_cons, hothers b _ hrest, checkParameter, if_pos hkind, horder]

end

/-! ## What is reported -/

theorem reports_evalOrder (s : Session) (id j : NodeId) (ps : List Problem) :
    ((ps.foldl (fun s p => s.report id p) s).node j).evalOrder = (s.node j).evalOrder := by
  induction ps generalizing s with
  | nil => rfl
  | cons p ps ih =>
    rw [List.foldl_cons, ih]
    exact Tree.read_modify s.tree id j Node.evalOrder fun _ => rfl

theorem checkNode_log (e : Setting) (s : Session) (id : NodeId) :
    (checkNode e s id).log.toList = s.log.toList ++ (s.node id).complaints e := by
  unfold checkNode Node.complaints Node.isExempt
  dsimp only
  split
  · simp
  · cases hd : (s.node id).diagnostic with
    | some d => simp [modify]
    | none =>
      have halike : ∀ order, s.tree.Alike (s.modify id fun n =>
          { n with evalOrder := order }).tree :=
        fun _ => .modify _ _ fun _ => ⟨rfl, rfl, rfl, rfl, rfl, rfl⟩
      dsimp only
      rw [foldl_report_log (halike _) (fun _ => id) fun p => p, problems_foldl]
      rfl

theorem checkNode_alike (e : Setting) (s : Session) (id : NodeId) :
    s.tree.Alike (checkNode e s id).tree :=
  (Analyses.checkNode (P := fun _ => True) (fun _ _ _ _ => trivial) e fun _ _ => trivial).alike

/-- The diagnostics of the check are those of the nodes, in the order of execution. -/
theorem checkParameters_log (e : Setting) (s : Session) :
    (s.checkParameters e).log.toList = s.log.toList ++ s.tree.preorder.flatMap fun id =>
      (s.node id).complaints e := by
  have run : ∀ (ids : List NodeId) (u : Session), s.tree.Alike u.tree →
      (ids.foldl (checkNode e) u).log.toList = u.log.toList ++ ids.flatMap fun id =>
        (s.node id).complaints e := by
    intro ids
    induction ids with
    | nil => simp
    | cons id rest ih =>
      intro u hu
      have hcomplaints : (s.node id).complaints e = (u.node id).complaints e :=
        (hu.node id).complaints_eq e
      rw [List.foldl_cons, ih _ (hu.trans (checkNode_alike e u id)), checkNode_log,
        List.flatMap_cons, hcomplaints, List.append_assoc]
  exact run _ s (.refl _)

/-! ## What is kept -/

def orderOf (e : Setting) (n : Node) : List Token :=
  (n.statement.parameters.foldl (checkParameter e.objects (n.origin == .expanded)) {}).evalOrder

theorem checkNode_evalOrder_self (e : Setting) (s : Session) {id : NodeId} (hid : id < s.tree.size)
    (hexempt : (s.node id).isExempt = false) (hdiagnostic : (s.node id).diagnostic = none) :
    ((checkNode e s id).node id).evalOrder = orderOf e (s.node id) := by
  unfold Node.isExempt at hexempt
  unfold checkNode
  simp only [hexempt, Bool.false_eq_true, if_false, hdiagnostic]
  rw [reports_evalOrder]
  exact congrArg Node.evalOrder (Tree.node_modify_self s.tree _ hid)

theorem checkNode_evalOrder_of_ne (e : Setting) (s : Session) {id j : NodeId} (h : id ≠ j) :
    ((checkNode e s id).node j).evalOrder = (s.node j).evalOrder := by
  unfold checkNode
  dsimp only
  split
  · rfl
  · cases (s.node id).diagnostic with
    | some d => exact congrArg Node.evalOrder (Tree.node_modify_of_ne s.tree _ h)
    | none =>
      dsimp only
      rw [reports_evalOrder]
      exact congrArg Node.evalOrder (Tree.node_modify_of_ne s.tree _ h)

/-- The check keeps the evaluation order of each node that it looks into. -/
theorem checkParameters_evalOrder (e : Setting) (s : Session) {j : NodeId}
    (hmem : j ∈ s.tree.preorder) (hj : j < s.tree.size) (hexempt : (s.node j).isExempt = false)
    (hdiagnostic : (s.node j).diagnostic = none) :
    ((s.checkParameters e).node j).evalOrder = orderOf e (s.node j) := by
  have hsame : ∀ u : Session, s.tree.Alike u.tree →
      orderOf e (u.node j) = orderOf e (s.node j) := by
    intro u hu
    have hnode := hu.node j
    simp only [orderOf, node, hnode.statement, hnode.origin]
  have run : ∀ (ids : List NodeId) (u : Session), s.tree.Alike u.tree →
      j ∈ ids ∨ (u.node j).evalOrder = orderOf e (s.node j) →
      ((ids.foldl (checkNode e) u).node j).evalOrder = orderOf e (s.node j) := by
    intro ids
    induction ids with
    | nil => exact fun u _ h => h.resolve_left (by simp)
    | cons id rest ih =>
      intro u hu h
      refine ih _ (hu.trans (checkNode_alike e u id)) ?_
      by_cases hid : id = j
      · subst hid
        refine .inr ?_
        have hlt : id < u.tree.size := hu.size ▸ hj
        have hexempt' : (u.node id).isExempt = false := by
          rw [Node.isExempt, node, ← (hu.node id).statement, ← (hu.node id).origin]
          exact hexempt
        have hdiagnostic' : (u.node id).diagnostic = none := by
          rw [node, ← (hu.node id).diagnostic]
          exact hdiagnostic
        rw [checkNode_evalOrder_self e u hlt hexempt' hdiagnostic', hsame u hu]
      · rw [checkNode_evalOrder_of_ne e u hid]
        exact h.imp_left fun hmem => (List.mem_cons.mp hmem).resolve_left fun hc => hid hc.symm
  exact run _ s (.refl _) (.inl hmem)

end Session

end GameScript
