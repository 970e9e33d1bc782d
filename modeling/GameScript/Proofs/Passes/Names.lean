import GameScript.Proofs.Passes.Analysis
import GameScript.Proofs.Symbols.Declarations

/-!
# Variables and labels are found

`identifyNames` declares the names of a script one after another and reports what is wrong with
them, so that its symbols, its labels and its log are functions of the script
(`identifyNames_spec`). From these it is read off that the variables are listed in the order of
appearance (`identifyNames_rolls`), and what holds if nothing is reported: the variables are known
(`identifyNames_knows`), and each label has one definition (`identifyNames_labelled`).
-/

namespace GameScript

namespace Session

def NamesCount (s : Statement) : Prop := s.commented = false ∧ s.isRecognised = true

end Session

/-- The names of the variables in a statement. A line that is commented out or not recognised has
none. -/
def Statement.mentions (s : Statement) : List String :=
  if s.commented || !s.isRecognised then [] else s.vars.map (·.value)

theorem Statement.mentions_of_counts {s : Statement} (h : Session.NamesCount s) :
    s.mentions = s.vars.map (·.value) := by
  rw [mentions, h.1, h.2]
  rfl

theorem Statement.mem_mentions {s : Statement} {name : String} :
    name ∈ s.mentions ↔ Session.NamesCount s ∧ ∃ v ∈ s.vars, v.value = name := by
  unfold mentions Session.NamesCount
  cases s.commented <;> cases s.isRecognised <;> simp

def Statement.definition? (s : Statement) : Option String :=
  if s.commented || s.form != FormId.defineLabel then none else s.label?

def Diagnostic.isVariableLimit (d : Diagnostic) : Bool := d.code == "VARIABLE_LIMIT_EXCEEDED"

theorem Statement.definition?_eq_some {s : Statement} {label : String} :
    s.definition? = some label ↔
    s.form = FormId.defineLabel ∧ s.commented = false ∧ s.label? = some label := by
  simp only [definition?, Option.ite_none_left_eq_some, Bool.or_eq_true, bne_iff_ne, not_or,
    Bool.not_eq_true, Decidable.not_not, and_assoc]
  exact and_left_comm

theorem Statement.namesCount_of_definition? {s : Statement} {label : String}
    (h : s.definition? = some label) :
    Session.NamesCount s := by
  obtain ⟨hform, hcommented, -⟩ := definition?_eq_some.mp h
  refine ⟨hcommented, ?_⟩
  rw [isRecognised, hform]
  rfl

def Node.jumpLabel? (n : Node) : Option String :=
  if n.is FormId.gotoLabel || n.is FormId.gosub then n.statement.label? else none

theorem Node.jumpLabel?_congr {n m : Node} (h : n.statement = m.statement) :
    n.jumpLabel? = m.jumpLabel? := by
  unfold jumpLabel? Node.is
  rw [h]

theorem Node.jumpLabel?_eq_some {n : Node} {label : String} : n.jumpLabel? = some label ↔
    (n.statement.form = FormId.gotoLabel ∨ n.statement.form = FormId.gosub) ∧
    n.statement.commented = false ∧
      n.statement.label? = some label := by
  simp only [jumpLabel?, is, Option.ite_none_right_eq_some, Bool.or_eq_true, Bool.and_eq_true,
    Bool.not_eq_true', beq_iff_eq, ← and_or_left, and_assoc]
  exact and_left_comm

/-- The labels that nodes define, each once and in the order of the nodes. -/
def Tree.definitions (t : Tree) (ids : List NodeId) : List String :=
  (ids.filterMap fun id => (t.node id).statement.definition?).eraseDups

theorem Tree.mem_definitions {t : Tree} {ids : List NodeId} {label : String} :
    label ∈ t.definitions ids ↔ ∃ id ∈ ids, (t.node id).statement.definition? = some label := by
  rw [definitions, List.mem_eraseDups, List.mem_filterMap]

theorem Tree.definitions_congr {t u : Tree}
    (h : ∀ id, (t.node id).statement = (u.node id).statement) (ids : List NodeId) :
    u.definitions ids = t.definitions ids := by
  simp only [definitions, h]

/-! ## What a node declares and what is wrong with it -/

def Statement.declarations (s : Statement) : List Declaration :=
  s.mentions.map (.var · .var) ++ s.definition?.toList.map .label

def Tree.declarations (t : Tree) (ids : List NodeId) : List Declaration :=
  ids.flatMap fun id => (t.node id).statement.declarations

/-- What is declared in a script: its arguments, and then what its nodes declare in the order of
execution. -/
def Tree.declared (t : Tree) (arguments : List String) : List Declaration :=
  arguments.map (fun a => .var (Session.argumentName a) .argument) ++ t.declarations t.preorder

def Tree.definer? (t : Tree) (ids : List NodeId) (label : String) : Option NodeId :=
  ids.find? fun id => (t.node id).statement.definition? == some label

def Tree.jumps (t : Tree) : List (NodeId × String) :=
  t.preorder.filterMap fun id => (t.node id).jumpLabel?.map (id, ·)

theorem Statement.label_mem_declarations {s : Statement} {label : String} :
    .label label ∈ s.declarations ↔ s.definition? = some label := by
  simp [declarations]

theorem Statement.var_mem_declarations {s : Statement} {name : String} {kind : SymbolKind} :
    .var name kind ∈ s.declarations ↔ name ∈ s.mentions ∧ kind = .var := by
  simp [declarations, eq_comm]

theorem Statement.filterMap_varName?_declarations (s : Statement) :
    s.declarations.filterMap Declaration.varName? = s.mentions := by
  cases hlabel : s.definition? <;>
    simp [declarations, hlabel, List.filterMap_append, List.filterMap_map, Declaration.varName?,
      Function.comp_def]

theorem Tree.filterMap_varName?_declared (t : Tree) (arguments : List String) :
    (t.declared arguments).filterMap Declaration.varName? =
      arguments.map Session.argumentName ++ t.preorder.flatMap fun id =>
        (t.node id).statement.mentions := by
  simp [declared, declarations, List.filterMap_append, List.filterMap_map, List.filterMap_flatMap,
    Statement.filterMap_varName?_declarations, Declaration.varName?, Function.comp_def]

/-- Arguments come first, and everything else is declared as a variable. -/
theorem Tree.kind_of_declared (t : Tree) (arguments : List String) {name : String}
    {kind : SymbolKind} (h : Declaration.firstKind? name (t.declared arguments) = some kind) :
    kind = if name ∈ arguments.map Session.argumentName then .argument else .var := by
  rw [declared, Declaration.firstKind?_append] at h
  by_cases hargument : name ∈ arguments.map Session.argumentName
  · have hfirst : Declaration.firstKind? name (arguments.map fun a =>
        .var (Session.argumentName a) .argument) =
      some .argument :=
        Declaration.firstKind?_of_forall (by simpa using hargument) (by simp +contextual)
    rw [hfirst] at h
    rw [if_pos hargument, Option.some.inj h]
  · rw [Declaration.firstKind?_eq_none (by simpa [Declaration.varName?] using hargument),
      Option.none_or] at h
    obtain ⟨d, hd, hkind⟩ := List.exists_of_findSome?_eq_some h
    obtain ⟨id, -, hmem⟩ := List.mem_flatMap.mp hd
    rw [Declaration.kind?_eq_some_iff] at hkind
    rw [if_neg hargument]
    exact (Statement.var_mem_declarations.mp (hkind ▸ hmem)).2

theorem Tree.labelled_declared (t : Tree) (arguments : List String) :
    Declaration.labelled (t.declared arguments) = t.definitions t.preorder := by
  have hstatement : ∀ s : Statement, s.declarations.filterMap Declaration.labelName? =
      s.definition?.toList := by
    intro s
    cases hlabel : s.definition? <;>
      simp [Statement.declarations, hlabel, List.filterMap_append, List.filterMap_map,
        Declaration.labelName?, Function.comp_def]
  rw [definitions, List.filterMap_eq_flatMap_toList]
  simp [Declaration.labelled, declared, declarations, List.filterMap_append, List.filterMap_map,
    List.filterMap_flatMap, hstatement, Declaration.labelName?, Function.comp_def]

def Node.variableProblems (table : SymbolTable) (n : Node) : List Problem :=
  ((if Session.isUserWritten n then Session.reserved? n.statement.vars
    else none).toList.map fun v =>
      .nameReserved v.text reservedMark) ++
    if (Session.declareVariables table n.statement.vars).2 then [] else [.variableLimit]

def Node.nameProblems (table : SymbolTable) (n : Node) : List Problem :=
  if n.statement.commented || !n.statement.isRecognised then []
  else n.variableProblems table ++ (n.statement.definition?.filter table.hasLabel).toList.map
  .labelDuplicate

theorem Node.nameProblems_of_counts {table : SymbolTable} {n : Node}
    (h : Session.NamesCount n.statement) :
    n.nameProblems table =
      n.variableProblems table ++ (n.statement.definition?.filter table.hasLabel).toList.map
        .labelDuplicate := by
  rw [nameProblems, h.1, h.2]
  rfl

theorem Node.pass?_nameProblems {table : SymbolTable} {n : Node} {p : Problem}
    (hp : p ∈ n.nameProblems table) :
    p.pass? = some .identifyNames := by
  unfold nameProblems variableProblems at hp
  split at hp
  · cases hp
  · simp only [List.mem_append, List.mem_map] at hp
    rcases hp with (⟨_, -, rfl⟩ | hp) | ⟨_, -, rfl⟩
    · rfl
    · split at hp
      · cases hp
      · rw [List.mem_singleton.mp hp]
        rfl
    · rfl

def Tree.nameReports (t : Tree) : SymbolTable → List NodeId → List Diagnostic
  | _, [] => []
  | table, id :: rest => ((t.node id).nameProblems table).map (t.node id).diagnose ++
      t.nameReports (table.declareAll (t.node id).statement.declarations) rest

theorem Node.Alike.nameReport_eq {n m : Node} (h : n.Alike m) (table : SymbolTable) :
    (n.nameProblems table).map n.diagnose = (m.nameProblems table).map m.diagnose := by
  have hdiagnose : n.diagnose = m.diagnose := by
    funext p
    rw [diagnose, diagnose, h.statement]
  rw [hdiagnose, nameProblems, nameProblems, variableProblems, variableProblems,
    Session.isUserWritten, Session.isUserWritten, h.statement, h.origin]

theorem Tree.nameReports_append (t : Tree) (table : SymbolTable) (ids rest : List NodeId) :
    t.nameReports table (ids ++ rest) =
      t.nameReports table ids ++ t.nameReports (table.declareAll (t.declarations ids)) rest := by
  induction ids generalizing table with
  | nil => rfl
  | cons id ids ih =>
    rw [List.cons_append, nameReports, nameReports, ih, List.append_assoc,
      ← SymbolTable.declareAll_append]
    rfl

/-- What is reported about names is reported about the nodes. -/
theorem Tree.mem_nameReports {t : Tree} {table : SymbolTable} {ids : List NodeId} {d : Diagnostic}
    (hd : d ∈ t.nameReports table ids) : ∃ id ∈ ids, ∃ p, d = (t.node id).diagnose p := by
  induction ids generalizing table with
  | nil => cases hd
  | cons id rest ih =>
    rcases List.mem_append.mp hd with hd | hd
    · obtain ⟨p, -, rfl⟩ := List.mem_map.mp hd
      exact ⟨id, List.mem_cons_self, p, rfl⟩
    · obtain ⟨j, hj, hp⟩ := ih hd
      exact ⟨j, List.mem_cons_of_mem _ hj, hp⟩

/-- What is wrong with a node is reported when it is visited. -/
theorem Tree.exists_nameProblems (t : Tree) (table : SymbolTable) {ids : List NodeId} {id : NodeId}
    (hid : id ∈ ids) :
    ∃ a b, ids = a ++ id :: b ∧
      ∀ p ∈ (t.node id).nameProblems (table.declareAll (t.declarations a)),
      (t.node id).diagnose p ∈ t.nameReports table ids := by
  obtain ⟨a, b, rfl⟩ := List.append_of_mem hid
  refine ⟨a, b, rfl, fun p hp => ?_⟩
  rw [nameReports_append, nameReports]
  exact List.mem_append_right _ (List.mem_append_left _ (List.mem_map_of_mem hp))

def Tree.jumpReports (t : Tree) (known : String → Bool) : List Diagnostic :=
  (t.jumps.filter fun jump => !known jump.2).map fun jump =>
    (t.node jump.1).diagnose (.labelUndefined jump.2)

namespace Session

variable {s : Session} {id : NodeId} {jumps : List (NodeId × String)} {β : Type}

structure Nameless (s : Session) : Prop where
  symbols : s.symbols = .empty
  labels : s.labels = ∅

def WithinLimit (s : Session) : Prop := ∀ d ∈ s.log, d.isVariableLimit = false

theorem withinLimit_of_log {s : Session} (h : s.log = #[]) : s.WithinLimit := by
  simp [WithinLimit, h]

theorem Grows.withinLimit {P : Diagnostic → Prop} {s s' : Session} (h : Grows P s s')
    (hlimit : s'.WithinLimit) :
    s.WithinLimit := by
  obtain ⟨l, hl, -⟩ := h.log
  intro d hd
  refine hlimit d (Array.mem_toList_iff.mp ?_)
  rw [hl]
  exact List.mem_append_left _ (Array.mem_toList_iff.mpr hd)

theorem read_foldl {α : Type} {step : Session → α → Session} (read : Session → β)
    (hstep : ∀ s a, read (step s a) = read s) (l : List α) (s : Session) :
    read (l.foldl step s) = read s := by
  induction l generalizing s with
  | nil => rfl
  | cons a rest ih => rw [List.foldl_cons, ih, hstep]

theorem symbols_reports (id : NodeId) : ∀ (ps : List Problem) (s : Session),
    (ps.foldl (fun s p => s.report id p) s).symbols = s.symbols :=
  read_foldl Session.symbols fun _ _ => rfl

theorem labels_reports (id : NodeId) : ∀ (ps : List Problem) (s : Session),
    (ps.foldl (fun s p => s.report id p) s).labels = s.labels :=
  read_foldl Session.labels fun _ _ => rfl

/-! ## The pass that finds the names -/

/-- The last variable is declared after the others. -/
theorem declareVariables_concat (t : SymbolTable) (tokens : List Token) (token : Token) :
    declareVariables t (tokens ++ [token]) =
      (((declareVariables t tokens).1.declareVariable token.value .var).1,
        (declareVariables t tokens).2 &&
        ((declareVariables t tokens).1.declareVariable token.value .var).2.isSome) := by
  simp only [declareVariables, List.foldl_append]
  rfl

theorem declareVariables_fst (t : SymbolTable) (tokens : List Token) :
    (declareVariables t tokens).1 = t.declareAll ((tokens.map (·.value)).map (.var · .var)) := by
  induction tokens using List.reverseRecOn with
  | nil => rfl
  | append_singleton tokens token ih =>
    rw [declareVariables_concat, List.map_append, List.map_append,
      SymbolTable.declareAll_append, ← ih]
    rfl

theorem hasLabel_declareVariables (t : SymbolTable) (tokens : List Token) (label : String) :
    (declareVariables t tokens).1.hasLabel label = t.hasLabel label := by
  induction tokens using List.reverseRecOn with
  | nil => rfl
  | append_singleton tokens token ih =>
    rw [declareVariables_concat, ← ih]
    rcases (declareVariables t tokens).1.declareVariable_cases token.value .var with
      ⟨_, -, heq⟩ | ⟨-, -, heq⟩ | ⟨-, -, heq⟩ <;> rw [heq]
    rfl

/-- The variables of a node are numbered, and then it is reported what is wrong with them. -/
theorem declareNode_eq (s : Session) (id : NodeId) :
    s.declareNode id = ((s.node id).variableProblems s.symbols).foldl (fun s p => s.report id p)
      { s with symbols := (declareVariables s.symbols (s.node id).statement.vars).1 } := by
  unfold declareNode Node.variableProblems
  dsimp only
  cases if isUserWritten (s.node id) then reserved? (s.node id).statement.vars else none <;>
    cases (declareVariables s.symbols (s.node id).statement.vars).2 <;> rfl

/-- A label that is defined after reports about its node. -/
theorem defineLabel_reports (s : Session) (id : NodeId) (ps : List Problem) (label : String) :
    (ps.foldl (fun s p => s.report id p) s).defineLabel id label =
      ((some label).filter s.symbols.hasLabel).toList.foldl (fun s l =>
        s.report id (.labelDuplicate l))
        (ps.foldl (fun s p => s.report id p)
          { s with
            symbols := (s.symbols.declareLabel label).1
            labels := ((some label).filter fun label => !s.symbols.hasLabel label).elim s.labels
              fun label => s.labels.insert label id }) := by
  unfold defineLabel
  rw [symbols_reports, labels_reports]
  cases hnew : s.symbols.hasLabel label with
  | true => simp [Option.filter, SymbolTable.declareLabel, hnew]
  | false =>
    let put : Session → Session := fun u =>
      { u with symbols := (s.symbols.declareLabel label).1, labels := s.labels.insert label id }
    have hput : ps.foldl (fun s p => s.report id p) (put s) =
        put (ps.foldl (fun s p => s.report id p) s) :=
      List.foldl_hom put fun _ _ => rfl
    simpa [Option.filter, hnew] using hput.symm

/-- What a visit does: it declares the names in the node, and then it is reported what is wrong with
them. -/
theorem identifyNode_eq (s : Session) (jumps : List (NodeId × String)) (id : NodeId) :
    identifyNode (s, jumps) id =
      (((s.node id).nameProblems s.symbols).foldl (fun s p => s.report id p)
      { s with
        symbols := s.symbols.declareAll (s.node id).statement.declarations
        labels := ((s.node id).statement.definition?.filter fun label =>
          !s.symbols.hasLabel label).elim s.labels
          fun label => s.labels.insert label id },
      (s.node id).jumpLabel?.toList.map (id, ·) ++ jumps) := by
  by_cases hskip : ((s.node id).statement.commented || !(s.node id).statement.isRecognised) = true
  · -- A node that does not count defines no label and jumps to none.
    have hdefinition : (s.node id).statement.definition? = none := by
      refine Option.eq_none_iff_forall_ne_some.mpr fun label hlabel => ?_
      obtain ⟨hform, hcommented, -⟩ := Statement.definition?_eq_some.mp hlabel
      rw [hcommented, Statement.isRecognised, hform] at hskip
      cases hskip
    have hjump : (s.node id).jumpLabel? = none := by
      refine Option.eq_none_iff_forall_ne_some.mpr fun label hlabel => ?_
      obtain ⟨hform | hform, hcommented, -⟩ := Node.jumpLabel?_eq_some.mp hlabel <;>
        rw [hcommented, Statement.isRecognised, hform] at hskip <;> cases hskip
    rw [identifyNode, if_pos hskip, Node.nameProblems, if_pos hskip, Statement.declarations,
      Statement.mentions, if_pos hskip, hdefinition, hjump]
    rfl
  · obtain ⟨hcommented, hrecognised⟩ : NamesCount (s.node id).statement := by
      simpa [NamesCount] using hskip
    have hsymbols : s.symbols.declareAll ((s.node id).statement.mentions.map (.var · .var)) =
        (declareVariables s.symbols (s.node id).statement.vars).1 := by
      rw [declareVariables_fst, Statement.mentions_of_counts ⟨hcommented, hrecognised⟩]
    have hlabel := funext (hasLabel_declareVariables s.symbols (s.node id).statement.vars)
    rw [identifyNode, if_neg hskip, Node.nameProblems, if_neg hskip, Statement.declarations,
      SymbolTable.declareAll_append, hsymbols, List.foldl_append, declareNode_eq]
    by_cases hdefine : (s.node id).statement.form = FormId.defineLabel
    · have hdefinition : (s.node id).statement.definition? = (s.node id).statement.label? := by
        rw [Statement.definition?, hcommented, hdefine]
        rfl
      have hjump : (s.node id).jumpLabel? = none := by
        rw [Node.jumpLabel?, Node.is, Node.is, hdefine]
        simp [FormId.defineLabel, FormId.gotoLabel, FormId.gosub]
      rw [hdefinition, hjump]
      cases (s.node id).statement.label? with
      | none => rfl
      | some label =>
        dsimp only
        rw [if_pos hdefine, defineLabel_reports, List.foldl_map]
        simp only [hlabel]
        rfl
    · have hdefinition : (s.node id).statement.definition? = none := by
        rw [Statement.definition?, hcommented, if_pos (by simpa using hdefine)]
      rw [hdefinition, Node.jumpLabel?, Node.is, Node.is, hcommented]
      cases (s.node id).statement.label? with
      | none =>
        rw [ite_self]
        rfl
      | some label =>
        dsimp only
        rw [if_neg hdefine]
        simp only [Bool.not_false, Bool.true_and, Bool.or_eq_true, decide_eq_true_eq, beq_iff_eq]
        split <;> rfl

theorem Analyses.identifyNode {P : Diagnostic → Prop} (hP : Pass.identifyNames.Reports P)
    (state : Session × List (NodeId × String)) (id : NodeId) :
    Analyses P state.1 (Session.identifyNode state id).1 := by
  obtain ⟨s, jumps⟩ := state
  rw [identifyNode_eq]
  refine Analyses.trans (.of_eq ?_ ?_) (.reports _ id fun p hp line text =>
    hP p line text (Node.pass?_nameProblems hp))
  · rfl
  · rfl

theorem Analyses.identifyNodes {P : Diagnostic → Prop} (hP : Pass.identifyNames.Reports P)
    (ids : List NodeId) (state : Session × List (NodeId × String)) :
    Analyses P state.1 (ids.foldl Session.identifyNode state).1 := by
  induction ids generalizing state with
  | nil => exact .refl _
  | cons id rest ih => exact (Analyses.identifyNode hP state id).trans (ih _)

theorem identifyNode_spec (s : Session) (jumps : List (NodeId × String)) (id : NodeId) :
    (identifyNode (s, jumps) id).1.symbols = s.symbols.declareAll
      (s.node id).statement.declarations ∧
      (identifyNode (s, jumps) id).1.labels =
        ((s.node id).statement.definition?.filter fun label =>
          !s.symbols.hasLabel label).elim s.labels
          (fun label => s.labels.insert label id) ∧
      (identifyNode (s, jumps) id).1.log.toList =
        s.log.toList ++ ((s.node id).nameProblems s.symbols).map (s.node id).diagnose := by
  rw [identifyNode_eq]
  exact ⟨symbols_reports id _ _, labels_reports id _ _,
    foldl_report_log (.refl _) (fun _ => id) (fun p => p) _⟩

/-- What is known after some nodes were visited. -/
theorem identifyNodes_spec {t : Tree} (ids : List NodeId) (jumps : List (NodeId × String))
    (halike : t.Alike s.tree) :
    (ids.foldl identifyNode (s, jumps)).1.symbols = s.symbols.declareAll (t.declarations ids) ∧
      (ids.foldl identifyNode (s, jumps)).1.log.toList =
        s.log.toList ++ t.nameReports s.symbols ids ∧
      (ids.foldl identifyNode (s, jumps)).2 =
        (ids.filterMap fun id => (t.node id).jumpLabel?.map (id, ·)).reverse ++ jumps := by
  induction ids generalizing s jumps with
  | nil => simp [Tree.nameReports, Tree.declarations, SymbolTable.declareAll]
  | cons id rest ih =>
    have hone : Analyses (fun _ => True) s (identifyNode (s, jumps) id).1 :=
      Analyses.identifyNodes (fun _ _ _ _ => trivial) [id] (s, jumps)
    have hjump : (identifyNode (s, jumps) id).2 = (t.node id).jumpLabel?.toList.map (id, ·) ++
        jumps := by
      rw [identifyNode_eq, Node.jumpLabel?_congr (halike.statement_eq id)]
      rfl
    obtain ⟨hsymbol, -, hreport⟩ := identifyNode_spec s jumps id
    rw [node, ← halike.statement_eq] at hsymbol
    rw [node, ← (halike.node id).nameReport_eq] at hreport
    obtain ⟨hsymbols, hlog, hjumps⟩ := ih (identifyNode (s, jumps) id).2 (halike.trans hone.alike)
    rw [List.foldl_cons]
    refine ⟨hsymbols.trans ?_, hlog.trans ?_, hjumps.trans ?_⟩
    · rw [hsymbol, ← SymbolTable.declareAll_append]
      rfl
    · rw [hsymbol, hreport, List.append_assoc]
      rfl
    · rw [hjump, ← List.append_assoc]
      cases hlabel : (t.node id).jumpLabel? <;> simp [hlabel]

theorem identifyNodes_labels {t : Tree} {ds : List Declaration} (ids : List NodeId)
    (jumps : List (NodeId × String)) (halike : t.Alike s.tree) (hrecords : s.symbols.Records ds)
    (hlabels : ∀ label, .label label ∈ ds ↔ s.labels[label]?.isSome = true) (label : String) :
    (ids.foldl identifyNode (s, jumps)).1.labels[label]? =
      s.labels[label]?.or (t.definer? ids label) := by
  induction ids generalizing s jumps ds with
  | nil => simp [Tree.definer?]
  | cons id rest ih =>
    have hone : Analyses (fun _ => True) s (identifyNode (s, jumps) id).1 :=
      Analyses.identifyNodes (fun _ _ _ _ => trivial) [id] (s, jumps)
    obtain ⟨hsymbols, hstep, -⟩ := identifyNode_spec s jumps id
    rw [node, ← halike.statement_eq] at hsymbols hstep
    have hvisit : ∀ label, (identifyNode (s, jumps) id).1.labels[label]? =
        s.labels[label]?.or (t.definer? [id] label) := by
      intro label
      rw [hstep]
      cases hdefinition : (t.node id).statement.definition? with
      | none => simp [Tree.definer?, hdefinition]
      | some l =>
        have hknown : s.symbols.hasLabel l = true ↔ s.labels[l]?.isSome = true :=
          hrecords.hasLabel_iff.trans (hlabels l)
        cases hnew : s.symbols.hasLabel l with
        | true =>
          -- The label keeps its first definition.
          by_cases hl : l = label
          · subst hl
            obtain ⟨d, hd⟩ := Option.isSome_iff_exists.mp (hknown.mp hnew)
            simp [Option.filter, hnew, hd]
          · simp [Option.filter, hnew, Tree.definer?, hdefinition, hl]
        | false =>
          simp only [Option.filter, hnew, Bool.not_false, if_true, Option.elim_some,
            Std.TreeMap.getElem?_insert, Std.LawfulEqCmp.compare_eq_iff_eq, Tree.definer?]
          by_cases hl : l = label
          · subst hl
            rw [hnew, Bool.false_eq_true, false_iff, Option.not_isSome_iff_eq_none] at hknown
            simp [hknown, hdefinition]
          · simp [hl, hdefinition]
    have hrest := ih (identifyNode (s, jumps) id).2 (halike.trans hone.alike)
      (hsymbols ▸ (hrecords.declareAll _).1) fun label => ?_
    · rw [List.foldl_cons]
      refine hrest.trans ?_
      rw [hvisit, Option.or_assoc, Tree.definer?, Tree.definer?, ← List.find?_append]
      rfl
    · rw [hvisit, List.mem_append, hlabels, Statement.label_mem_declarations, Option.isSome_or,
        Bool.or_eq_true]
      simp [Tree.definer?]

/-- A jump is reported if its label is not defined. -/
theorem checkJumps_eq (jumps : List (NodeId × String)) (s : Session) :
    jumps.foldl checkJump s = (jumps.filter fun jump => !s.labels.contains jump.2).foldl
      (fun s jump => s.report jump.1 (.labelUndefined jump.2)) s := by
  induction jumps generalizing s with
  | nil => rfl
  | cons jump rest ih =>
    rw [List.foldl_cons, ih, List.filter_cons, checkJump]
    cases s.labels.contains jump.2 <;> rfl

theorem declareArguments_eq (arguments : List String) (t : SymbolTable) :
    declareArguments arguments t = t.declareAll (arguments.map fun a =>
      .var (argumentName a) .argument) := by
  rw [SymbolTable.declareAll, List.foldl_map]
  rfl

def visited (e : Setting) (s : Session) : Session :=
  (s.tree.preorder.foldl identifyNode ({ s with symbols := declareArguments e.arguments s.symbols },
    [])).1

theorem visited_alike (e : Setting) (s : Session) : s.tree.Alike (s.visited e).tree :=
  (Analyses.identifyNodes (P := fun _ => True) (fun _ _ _ _ => trivial) s.tree.preorder
    ({ s with symbols := declareArguments e.arguments s.symbols }, [])).alike

/-- After the visits the pass does nothing but report jumps. -/
theorem identifyNames_eq (e : Setting) (s : Session) :
    s.identifyNames e = (s.tree.jumps.filter fun jump =>
      !(s.visited e).labels.contains jump.2).foldl
      (fun s jump => s.report jump.1 (.labelUndefined jump.2)) (s.visited e) := by
  have hjumps :=
    (identifyNodes_spec (s := { s with symbols := declareArguments e.arguments s.symbols })
    s.tree.preorder [] (.refl s.tree)).2.2
  have hnames : s.identifyNames e = (s.tree.preorder.foldl identifyNode
    ({ s with symbols := declareArguments e.arguments s.symbols }, [])).2.reverse.foldl checkJump
    (s.visited e) := rfl
  rw [hnames, hjumps, checkJumps_eq, List.append_nil, List.reverse_reverse]
  rfl

theorem Analyses.identifyNames {P : Diagnostic → Prop} (hP : Pass.identifyNames.Reports P)
    (e : Setting) (s : Session) :
    Analyses P s (s.identifyNames e) := by
  have hstart : Analyses P s { s with symbols := declareArguments e.arguments s.symbols } :=
    .of_eq rfl rfl
  rw [identifyNames_eq]
  exact (hstart.trans (.identifyNodes hP s.tree.preorder (_, []))).trans
    (.foldl (fun s (jump : NodeId × String) => .report s jump.1 fun line text =>
      hP _ line text rfl) _ _)

theorem read_identifyNames (read : Session → β) (hreport : ∀ s id p, read (s.report id p) = read s)
    (e : Setting) (s : Session) : read (s.identifyNames e) = read (s.visited e) := by
  rw [identifyNames_eq]
  exact read_foldl read (fun s (jump : NodeId × String) => hreport s jump.1 _) _ _

theorem identifyNames_log (e : Setting) (s : Session) :
    (s.identifyNames e).log.toList = s.log.toList ++
    s.tree.nameReports (declareArguments e.arguments s.symbols) s.tree.preorder ++
      s.tree.jumpReports (s.identifyNames e).labels.contains := by
  have hvisited :=
    (identifyNodes_spec (s := { s with symbols := declareArguments e.arguments s.symbols })
    s.tree.preorder [] (.refl s.tree)).2.1
  rw [read_identifyNames Session.labels (fun _ _ _ => rfl), identifyNames_eq,
    foldl_report_log (visited_alike e s) Prod.fst fun jump => .labelUndefined jump.2]
  exact congrArg (· ++ _) hvisited

/-- The names that the pass finds in a script. -/
theorem identifyNames_spec (e : Setting) (hs : s.Nameless) :
    (s.identifyNames e).symbols = SymbolTable.empty.declareAll (s.tree.declared e.arguments) ∧
      ∀ label, (s.identifyNames e).labels[label]? = s.tree.definer? s.tree.preorder label := by
  set u : Session := { s with symbols := declareArguments e.arguments s.symbols } with hu
  have harguments : u.symbols = SymbolTable.empty.declareAll
      (e.arguments.map fun a => .var (argumentName a) .argument) := by
    rw [hu, hs.symbols, declareArguments_eq]
  obtain ⟨htable, -⟩ := identifyNodes_spec (s := u) s.tree.preorder [] (.refl s.tree)
  have hfound := identifyNodes_labels (s := u) s.tree.preorder [] (.refl s.tree)
    (harguments ▸ (SymbolTable.Records.empty.declareAll _).1) (by simp [hu, hs.labels])
  rw [read_identifyNames Session.symbols (fun _ _ _ => rfl),
    read_identifyNames Session.labels (fun _ _ _ => rfl)]
  refine ⟨htable.trans ?_, fun label => (hfound label).trans (by simp [hu, hs.labels])⟩
  rw [harguments, ← SymbolTable.declareAll_append]
  rfl

theorem identifyNames_records (e : Setting) (hs : s.Nameless) :
    (s.identifyNames e).symbols.Records (s.tree.declared e.arguments) := by
  rw [(identifyNames_spec e hs).1]
  exact (SymbolTable.Records.empty.declareAll _).1

/-- The variables after the pass: the arguments, then the names in the order of execution. -/
theorem identifyNames_rolls (e : Setting) (hs : s.Nameless) :
    (s.identifyNames e).symbols.Rolls (e.arguments.map argumentName)
      (s.tree.preorder.flatMap fun id => (s.node id).statement.mentions) := by
  exact (identifyNames_records e hs).rolls (s.tree.filterMap_varName?_declared _)
    fun _ _ => s.tree.kind_of_declared _

/-! ## Names that are found -/

theorem declareVariables_knows {t : SymbolTable} {ds : List Declaration} (h : t.Records ds)
    {tokens : List Token} (hok : (declareVariables t tokens).2 = true) :
    ∀ token ∈ tokens, (declareVariables t tokens).1.Knows token.value := by
  induction tokens using List.reverseRecOn with
  | nil => simp
  | append_singleton tokens last ih =>
    have hrecords := (h.declareAll ((tokens.map (·.value)).map (.var · .var))).1
    rw [← declareVariables_fst] at hrecords
    rw [declareVariables_concat] at hok ⊢
    obtain ⟨hfirst, hlast⟩ := (Bool.and_eq_true _ _).mp hok
    intro token htoken
    rcases List.mem_append.mp htoken with htoken | htoken
    · exact hrecords.knows_declareAll (ih hfirst token htoken) [.var last.value .var]
    · obtain ⟨id, hid⟩ := Option.isSome_iff_exists.mp hlast
      obtain ⟨symbol, hfind, -⟩ := hrecords.exists_of_declareVariable hid
      rw [List.mem_singleton.mp htoken]
      exact Option.isSome_iff_exists.mpr ⟨symbol, hfind⟩

section

variable {t : Tree} {table : SymbolTable} {ds : List Declaration} {ids : List NodeId}

/-- If no lack of numbers is reported, the variables are found. -/
theorem knows_of_nameReports (h : table.Records ds)
    (hlimit : ∀ d ∈ t.nameReports table ids, d.isVariableLimit = false) (hid : id ∈ ids)
    (hcount : NamesCount (t.node id).statement) {v : Token} (hv : v ∈ (t.node id).statement.vars) :
    (table.declareAll (t.declarations ids)).Knows v.value := by
  obtain ⟨a, b, rfl, hproblems⟩ := t.exists_nameProblems table hid
  have hbefore := (h.declareAll (t.declarations a)).1
  have hok : (declareVariables (table.declareAll (t.declarations a)) (t.node id).statement.vars).2 =
      true := by
    by_contra hfull
    cases hlimit _ (hproblems .variableLimit
      (by rw [Node.nameProblems_of_counts hcount]; simp [Node.variableProblems, hfull]))
  have hvars :=
    (hbefore.declareAll (((t.node id).statement.vars.map (·.value)).map (.var · .var))).1
  have hknows := declareVariables_knows hbefore hok v hv
  rw [declareVariables_fst] at hknows
  rw [Tree.declarations, List.flatMap_append, List.flatMap_cons, Statement.declarations,
    Statement.mentions_of_counts hcount, List.append_assoc, SymbolTable.declareAll_append,
    SymbolTable.declareAll_append]
  exact hvars.knows_declareAll hknows _

/-- Every label is defined once, unless it is reported. -/
theorem definer?_of_nameReports (h : table.Records ds) (hquiet : t.nameReports table ids = [])
    (hid : id ∈ ids) {label : String} (hdefines : (t.node id).statement.definition? = some label) :
    t.definer? ids label = some id := by
  obtain ⟨a, b, rfl, hproblems⟩ := t.exists_nameProblems table hid
  have hnew : ∀ j ∈ a, (t.node j).statement.definition? ≠ some label := by
    intro j hj hearlier
    have hlisted : (table.declareAll (t.declarations a)).hasLabel label = true := by
      rw [(h.declareAll _).1.hasLabel_iff]
      exact List.mem_append_right _ (List.mem_flatMap.mpr ⟨j, hj,
        Statement.label_mem_declarations.mpr hearlier⟩)
    have hreported := hproblems (.labelDuplicate label) (by
      rw [Node.nameProblems_of_counts (Statement.namesCount_of_definition? hdefines), hdefines]
      simp [Option.filter, hlisted])
    rw [hquiet] at hreported
    cases hreported
  rw [Tree.definer?, List.find?_append, List.find?_eq_none.mpr fun j hj => by simpa using hnew j hj]
  simp [hdefines]

end

/-- If no lack of numbers is reported, the variables of the script are found. -/
theorem identifyNames_knows {e : Setting} (hs : s.Nameless)
    (hlimit : (s.identifyNames e).WithinLimit) (hid : id ∈ s.tree.preorder)
    (hcount : NamesCount (s.node id).statement) {v : Token} (hv : v ∈ (s.node id).statement.vars) :
    (s.identifyNames e).symbols.Knows v.value := by
  rw [(identifyNames_spec e hs).1, Tree.declared, SymbolTable.declareAll_append]
  refine knows_of_nameReports (SymbolTable.Records.empty.declareAll _).1 (fun d hd => hlimit d ?_)
    hid hcount hv
  rw [← Array.mem_toList_iff, identifyNames_log, hs.symbols, declareArguments_eq]
  exact List.mem_append_left _ (List.mem_append_right _ hd)

theorem nameReports_of_log {e : Setting} (hlog : (s.identifyNames e).log = #[]) :
    s.tree.nameReports (declareArguments e.arguments s.symbols) s.tree.preorder = [] := by
  have hreported := identifyNames_log e s
  rw [hlog] at hreported
  exact (List.append_eq_nil_iff.mp (List.append_eq_nil_iff.mp hreported.symm).1).2

structure Labelled (t : Tree) (s : Session) : Prop where
  lists : s.symbols.Lists (t.definitions t.preorder)
  nodes : ∀ (label : String) (d : NodeId),
    s.labels[label]? = some d ↔ d ∈ t.preorder ∧ (t.node d).statement.definition? = some label

/-- The labels of a script are listed in the order of their definitions, unless something is
reported. -/
theorem identifyNames_labelled {e : Setting} (hs : s.Nameless)
    (hlog : (s.identifyNames e).log = #[]) : Labelled s.tree (s.identifyNames e) := by
  have hnodes := (identifyNames_spec e hs).2
  have hrecords := identifyNames_records e hs
  have hquiet := nameReports_of_log hlog
  rw [hs.symbols, declareArguments_eq] at hquiet
  refine ⟨s.tree.labelled_declared e.arguments ▸ hrecords.labels, fun label d => ?_⟩
  rw [hnodes]
  refine ⟨fun hfirst => ⟨List.mem_of_find?_eq_some hfirst, ?_⟩, fun hd => ?_⟩
  · exact eq_of_beq (List.find?_some (p := fun d =>
      (s.tree.node d).statement.definition? == some label) hfirst)
  · exact definer?_of_nameReports (SymbolTable.Records.empty.declareAll _).1 hquiet hd.1 hd.2

/-! ## Passes that keep the names -/

theorem checkParameters_names (e : Setting) (s : Session) :
    (s.checkParameters e).symbols = s.symbols ∧ (s.checkParameters e).labels = s.labels := by
  have hstep : ∀ (s : Session) (id : NodeId),
      ((checkNode e s id).symbols, (checkNode e s id).labels) =
      (s.symbols, s.labels) := by
    intro s id
    unfold checkNode
    dsimp only
    split
    · rfl
    · split
      · rfl
      · exact congrArg₂ Prod.mk (symbols_reports id _ _) (labels_reports id _ _)
  exact Prod.mk.inj (read_foldl (fun s => (s.symbols, s.labels)) hstep _ s)

/-- The check of the block structure does nothing but report. -/
theorem read_checkBlocks (read : Session → β) (hreport : ∀ s id p, read (s.report id p) = read s)
    (s : Session) :
    read s.checkBlocks = read s := by
  refine read_foldl read (fun s id => ?_) _ s
  unfold checkBlock
  split
  · rfl
  · split
    · exact hreport s id _
    · rfl

theorem read_checkSubroutines (read : Session → β)
    (hreport : ∀ s id p, read (s.report id p) = read s) (s : Session) :
    read s.checkSubroutines = read s :=
  (read_foldl read (fun s id => hreport s id _) _ _).trans
    (read_foldl read (fun s id => hreport s id _) _ s)

end Session

end GameScript
