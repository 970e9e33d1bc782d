import GameScript.Compile
import GameScript.Proofs.Blocks.Check

/-!
# What the checks of a script do to a session

The passes before the numbering read the tree and report problems. `Session.Analyses` says what they
leave alone: the tree stays alike, nothing is numbered, the log only grows, and no node has an error
unless something was reported. `Analyses.checkBlocks` and its companions state it for each pass.
-/

namespace GameScript

/-! ## Which pass reports a problem -/

/-- The pass that reports a problem. What goes wrong with an expansion is reported before the
passes, and what went wrong while a line was read is reported by the check of parameters. -/
def Problem.pass? : Problem → Option Pass
  | .stepZero | .expansionFailed _ => none
  | .nameReserved _ _ | .variableLimit | .labelDuplicate _ | .labelUndefined _ =>
    some .identifyNames
  | .unrecognised | .objectUnterminated _ | .versionUnsupported _ | .expression _ | .typeMismatch _
      _ | .outOfRange _
  | .objectUnknown _ => some .checkParameters
  | .elseUnmatched | .elseIfUnmatched | .endUnmatched | .blockUnclosed _ | .skipEmpty | .skipBlock
  | .breakOutsideLoop | .continueOutsideLoop => some .checkBlocks
  | .subroutineUnterminated _ | .endsubOutsideSubroutine => some .checkSubroutines
  | .scriptTooLong _ => some .assignIndices

def Pass.Reports (pass : Pass) (P : Diagnostic → Prop) : Prop :=
  ∀ p line text, Problem.pass? p = some pass → P (.of p line text)

def Problem.isLogic : Problem → Bool
  | .elseUnmatched | .elseIfUnmatched | .endUnmatched | .blockUnclosed _ | .skipEmpty | .skipBlock
  | .breakOutsideLoop | .continueOutsideLoop => true
  | _ => false

def Diagnostic.isLogic (d : Diagnostic) : Bool := "LOGIC_".toList.isPrefixOf d.code.toList

/-- The codes of the problems of the block structure are those that start with `LOGIC_`. -/
theorem Diagnostic.isLogic_of (p : Problem) (line : Nat) (text : String) :
    (Diagnostic.of p line text).isLogic = p.isLogic := by
  simp only [Diagnostic.isLogic, Diagnostic.of]
  cases p with
  | expression e =>
    cases e <;> simp only [Problem.code, ExpressionError.code, Problem.isLogic] <;> decide
  | _ =>
    simp only [Problem.code, Problem.isLogic]
    decide

theorem Problem.isLogic_eq (p : Problem) : p.isLogic = (p.pass? == some .checkBlocks) := by
  cases p <;> rfl

theorem Tree.pass?_blockProblem? {t : Tree} {id : NodeId} {p : Problem}
    (h : t.blockProblem? id = some p) :
    p.pass? = some .checkBlocks := by
  simp only [blockProblem?, unclosed?, skipProblem?] at h
  repeat' split at h
  all_goals first | (cases h; rfl) | cases h

/-! ## Problems of parameters -/

def Problem.isFinding : Problem → Bool
  | .expression _ | .typeMismatch _ _ | .outOfRange _ | .objectUnknown _ => true
  | _ => false

theorem Problem.pass?_of_isFinding {p : Problem} (h : p.isFinding = true) :
    p.pass? = some .checkParameters := by
  cases p <;> first | rfl | cases h

theorem Token.isFinding_unknownObjects {objects : Option ObjectLibrary} {ts : List Token}
    {p : Problem} (h : p ∈ unknownObjects objects ts) : p.isFinding = true := by
  unfold unknownObjects at h
  split at h
  · cases h
  · obtain ⟨t, _, rfl⟩ := List.mem_map.mp h
    rfl

theorem Token.isFinding_oversized {minus : Option Token} {ts : List Token} {p : Problem}
    (h : p ∈ oversized minus ts) : p.isFinding = true := by
  induction ts generalizing minus with
  | nil => cases h
  | cons t ts ih =>
    simp only [oversized] at h
    split at h
    · rcases List.mem_cons.mp h with rfl | h
      · rfl
      · exact ih h
    · exact ih h

theorem ParamKind.isFinding_problems {objects : Option ObjectLibrary} {kind : ParamKind}
    {ts : List Token} {p : Problem} (h : p ∈ kind.problems objects ts) : p.isFinding = true := by
  have hvalue : ∀ {ts}, p ∈ valueProblems objects ts → p.isFinding = true := by
    intro ts h
    unfold valueProblems at h
    rcases List.mem_append.mp h with h | h
    · split at h
      · split at h
        · cases h
        · rw [List.mem_singleton.mp h]
          rfl
      · cases h
    · exact Token.isFinding_unknownObjects h
  unfold problems at h
  split at h
  · obtain ⟨item, _, h⟩ := List.mem_flatMap.mp h
    exact hvalue h
  · rcases List.mem_append.mp h with h | h
    · rw [Option.mem_toList, Option.map_eq_some_iff] at h
      obtain ⟨expected, _, rfl⟩ := h
      rfl
    · exact hvalue h

/-- What the check of parameters finds. -/
theorem Session.isFinding_checkParameters (objects : Option ObjectLibrary) (generated : Bool)
    (ps : List Parameter) :
    ∀ p ∈ (ps.foldl (checkParameter objects generated) {}).problems, p.isFinding = true := by
  have hrun : ∀ (ps : List Parameter) (f : Findings), (∀ p ∈ f.problems, p.isFinding = true) →
      ∀ p ∈ (ps.foldl (checkParameter objects generated) f).problems, p.isFinding = true := by
    intro ps
    induction ps with
    | nil => exact fun f hf => hf
    | cons q rest ih =>
      intro f hf
      refine ih _ fun p hp => ?_
      unfold checkParameter at hp
      split at hp
      · split at hp
        · simp only [List.mem_append] at hp
          rcases hp with (hp | hp) | hp
          · exact hf p hp
          · exact Token.isFinding_oversized hp
          · exact Token.isFinding_unknownObjects hp
        · rcases List.mem_append.mp hp with hp | hp
          · exact hf p hp
          · rw [List.mem_singleton.mp hp]
            rfl
      · split at hp
        · exact hf p hp
        · rcases List.mem_append.mp hp with hp | hp
          · exact hf p hp
          · exact ParamKind.isFinding_problems hp
  exact hrun ps {} (by simp)

def Node.diagnose (n : Node) (p : Problem) : Diagnostic :=
  .of p n.statement.line n.statement.display

namespace Session

/-! ## Sessions that are analysed -/

theorem foldl_report_log {α : Type} {t : Tree} {s : Session} (h : t.Alike s.tree)
    (node : α → NodeId) (problem : α → Problem) (l : List α) :
    (l.foldl (fun s a => s.report (node a) (problem a)) s).log.toList =
      s.log.toList ++ l.map fun a => (t.node (node a)).diagnose (problem a) := by
  induction l generalizing s with
  | nil => simp
  | cons a l ih =>
    have hone : t.Alike (s.report (node a) (problem a)).tree :=
      h.trans (.modify _ _ fun _ => ⟨rfl, rfl, rfl, rfl, rfl, rfl⟩)
    rw [List.foldl_cons, ih hone]
    simp [report, Node.diagnose, Session.node, h.statement_eq]

/-- No node has an error unless something was reported. -/
def Clean (s : Session) : Prop := s.log = #[] → ∀ id, (s.node id).hasError = false

/-- The session `s'` knows more than `s`, about the same tree. The new diagnostics are of the kind
`P`. -/
structure Grows (P : Diagnostic → Prop) (s s' : Session) : Prop where
  alike : s.tree.Alike s'.tree
  log : ∃ l, s'.log.toList = s.log.toList ++ l ∧ ∀ d ∈ l, P d
  clean : s.Clean → s'.Clean

namespace Grows

variable {P : Diagnostic → Prop} {s s' s'' : Session}

theorem of_eq (htree : s'.tree = s.tree) (hlog : s'.log = s.log) : Grows P s s' where
  alike := htree ▸ .refl _
  log := ⟨[], by simp [hlog], by simp⟩
  clean h := by simpa only [Clean, node, htree, hlog] using h

theorem trans (h : Grows P s s') (h' : Grows P s' s'') : Grows P s s'' where
  alike := h.alike.trans h'.alike
  log := by
    obtain ⟨l, hl, hP⟩ := h.log
    obtain ⟨l', hl', hP'⟩ := h'.log
    refine ⟨l ++ l', by rw [hl', hl, List.append_assoc], ?_⟩
    intro d hd
    rcases List.mem_append.mp hd with hd | hd
    · exact hP d hd
    · exact hP' d hd
  clean hs := h'.clean (h.clean hs)

/-- An earlier log is empty if the later one is. -/
theorem log_eq_empty (h : Grows P s s') (hlog : s'.log = #[]) : s.log = #[] := by
  obtain ⟨l, hl, -⟩ := h.log
  rw [hlog] at hl
  exact Array.toList_eq_nil_iff.mp (List.append_eq_nil_iff.mp hl.symm).1

theorem report (s : Session) (id : NodeId) {p : Problem} (hp : ∀ line text, P (.of p line text)) :
    Grows P s (s.report id p) where
  alike := .modify _ _ fun _ => ⟨rfl, rfl, rfl, rfl, rfl, rfl⟩
  log := ⟨[.of p (s.node id).statement.line (s.node id).statement.display],
    by simp [Session.report], by simp [hp]⟩
  clean _ hlog := by simp [Session.report] at hlog

/-- A change of a node that is no error. -/
theorem modify (s : Session) (id : NodeId) {f : Node → Node} (halike : ∀ n : Node, n.Alike (f n))
    (herror : ∀ n, (f n).hasError = n.hasError) : Grows P s (s.modify id f) where
  alike := .modify _ _ halike
  log := ⟨[], by simp [Session.modify], by simp⟩
  clean h hlog j := (Tree.read_modify s.tree id j Node.hasError herror).trans (h hlog j)

end Grows

structure Analyses (P : Diagnostic → Prop) (s s' : Session) : Prop extends Grows P s s' where
  index : ∀ id, (s'.node id).index = (s.node id).index
  returnValue : ∀ id, (s'.node id).returnValue = (s.node id).returnValue
  jump : ∀ id, (s'.node id).jump = (s.node id).jump

namespace Analyses

variable {P : Diagnostic → Prop} {s s' s'' : Session}

theorem of_eq (htree : s'.tree = s.tree) (hlog : s'.log = s.log) : Analyses P s s' where
  toGrows := .of_eq htree hlog
  index id := by rw [node, node, htree]
  returnValue id := by rw [node, node, htree]
  jump id := by rw [node, node, htree]

theorem refl (s : Session) : Analyses P s s := of_eq rfl rfl

theorem trans (h : Analyses P s s') (h' : Analyses P s' s'') : Analyses P s s'' where
  toGrows := h.toGrows.trans h'.toGrows
  index id := (h'.index id).trans (h.index id)
  returnValue id := (h'.returnValue id).trans (h.returnValue id)
  jump id := (h'.jump id).trans (h.jump id)

theorem report (s : Session) (id : NodeId) {p : Problem} (hp : ∀ line text, P (.of p line text)) :
    Analyses P s (s.report id p) where
  toGrows := .report s id hp
  index j := Tree.read_modify s.tree id j Node.index fun _ => rfl
  returnValue j := Tree.read_modify s.tree id j Node.returnValue fun _ => rfl
  jump j := Tree.read_modify s.tree id j Node.jump fun _ => rfl

theorem reports (s : Session) (id : NodeId) {ps : List Problem}
    (hps : ∀ p ∈ ps, ∀ line text, P (.of p line text)) :
    Analyses P s (ps.foldl (fun s p => s.report id p) s) := by
  induction ps generalizing s with
  | nil => exact refl s
  | cons p rest ih =>
    exact (report s id (hps p (by simp))).trans (ih _ fun q hq => hps q (by simp [hq]))

/-- A change of a node that is no result of the numbering and no error. -/
theorem modify (s : Session) (id : NodeId) {f : Node → Node} (halike : ∀ n : Node, n.Alike (f n))
    (herror : ∀ n, (f n).hasError = n.hasError) (hindex : ∀ n, (f n).index = n.index)
    (hvalue : ∀ n, (f n).returnValue = n.returnValue) (hjump : ∀ n, (f n).jump = n.jump) :
    Analyses P s (s.modify id f) where
  toGrows := .modify s id halike herror
  index j := Tree.read_modify s.tree id j Node.index hindex
  returnValue j := Tree.read_modify s.tree id j Node.returnValue hvalue
  jump j := Tree.read_modify s.tree id j Node.jump hjump

/-- What holds for one step holds for all of them. The steps may rely on what an analysis does not
change. -/
theorem foldl_of {α : Type} {step : Session → α → Session} {I : Session → Prop}
    (hI : ∀ s s', Analyses P s s' → I s → I s') (hstep : ∀ s a, I s → Analyses P s (step s a))
    (l : List α) {s : Session} (hs : I s) : Analyses P s (l.foldl step s) := by
  induction l generalizing s with
  | nil => exact refl s
  | cons a rest ih => exact (hstep s a hs).trans (ih (hI _ _ (hstep s a hs) hs))

theorem foldl {α : Type} {step : Session → α → Session} (hstep : ∀ s a, Analyses P s (step s a))
    (l : List α) (s : Session) : Analyses P s (l.foldl step s) :=
  foldl_of (I := fun _ => True) (fun _ _ _ _ => trivial) (fun s a _ => hstep s a) l trivial

/-! ## The passes -/

theorem checkSubroutines (hP : Pass.checkSubroutines.Reports P) (s : Session) :
    Analyses P s s.checkSubroutines := by
  unfold Session.checkSubroutines
  exact (foldl (fun s id => report s id fun line text => hP _ line text rfl) _ _).trans
    (foldl (fun s id => report s id fun line text => hP _ line text rfl) _ _)

theorem checkNode (hP : Pass.checkParameters.Reports P) (e : Setting) {s : Session} {id : NodeId}
    (hd : ∀ d, (s.node id).diagnostic = some d → P d) :
    Analyses P s (Session.checkNode e s id) := by
  unfold Session.checkNode
  dsimp only
  split
  · exact refl s
  · split
    · next d hdiagnostic =>
      refine ⟨⟨.modify _ _ fun _ => ⟨rfl, rfl, rfl, rfl, rfl, rfl⟩,
        ⟨[d], by simp [Session.modify], ?_⟩, fun _ hlog => by simp at hlog⟩, ?_, ?_, ?_⟩
      · simpa using hd d hdiagnostic
      · exact fun j => Tree.read_modify s.tree id j Node.index fun _ => rfl
      · exact fun j => Tree.read_modify s.tree id j Node.returnValue fun _ => rfl
      · exact fun j => Tree.read_modify s.tree id j Node.jump fun _ => rfl
    · have hproblems := isFinding_checkParameters e.objects ((s.node id).origin == .expanded)
        (s.node id).statement.parameters
      refine Analyses.trans ?_ (reports _ id fun p hp line text =>
        hP p line text (Problem.pass?_of_isFinding (hproblems p hp)))
      exact modify s id (fun _ => ⟨rfl, rfl, rfl, rfl, rfl, rfl⟩) (fun _ => rfl) (fun _ => rfl)
        (fun _ => rfl)
        fun _ => rfl

/-- The check of parameters reports what it finds, and what was found while a line was read. -/
theorem checkParameters (hP : Pass.checkParameters.Reports P) (e : Setting) {s : Session}
    (hd : ∀ id d, (s.node id).diagnostic = some d → P d) :
    Analyses P s (s.checkParameters e) := by
  refine foldl_of (I := fun s => ∀ id d, (s.node id).diagnostic = some d → P d) ?_
    (fun s id hs => checkNode hP e (hs id)) _ hd
  intro s s' hs hI id d hdiagnostic
  rw [node, ← (hs.alike.node id).diagnostic] at hdiagnostic
  exact hI id d hdiagnostic

theorem checkBlocks (hP : Pass.checkBlocks.Reports P) (s : Session) :
    Analyses P s s.checkBlocks := by
  refine foldl (fun s id => ?_) _ s
  unfold checkBlock
  split
  · exact refl s
  · split
    · next p hp => exact report s id fun line text => hP p line text (Tree.pass?_blockProblem? hp)
    · exact refl s

theorem identifyConstants (s : Session) : Analyses P s s.identifyConstants := by
  have hwrites : ∀ (s : Session) (id : NodeId), Analyses P s (s.recordWrites id) := by
    intro s id
    unfold Session.recordWrites
    dsimp only
    split
    · exact of_eq rfl rfl
    · exact refl s
  exact (foldl hwrites _ s).trans (of_eq rfl rfl)

end Analyses

end Session

end GameScript
