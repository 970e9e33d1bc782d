import GameScript.Proofs.Compile.Lines
import GameScript.Proofs.Linkage.Resolution
import GameScript.Proofs.Passes.Parameters
import GameScript.Proofs.Passes.Subroutines
import GameScript.Proofs.Statement.Rereading

/-!
# Two compilations side by side

Scripts whose lines are read as the same statements, wherever their tokens stand, are compiled
alike. If the second compilation knows more objects than the first one, then the first one reports
more, and nothing else about it differs but the jumps of the commands that it has reported.

`Session.Beside` relates the sessions of the two compilations. Every step of the compiler keeps the
relation: a node depends on what its line says and not on the places of the tokens, and a report
marks a node as faulty, which matters only for whether the jump of that node is resolved.
-/

namespace GameScript

/-! ## What is reported about parameters -/

def Problem.isLasting : Problem → Bool
  | .objectUnknown _ => false
  | _ => true

def Diagnostic.isLasting (d : Diagnostic) : Bool := d.code != "OBJECT_UNKNOWN"

theorem Diagnostic.isLasting_of (p : Problem) (line : Nat) (text : String) :
    (Diagnostic.of p line text).isLasting = p.isLasting := by
  simp only [Diagnostic.isLasting, Diagnostic.of]
  cases p with
  | expression e =>
    cases e <;> simp only [Problem.code, ExpressionError.code, Problem.isLasting] <;> decide
  | _ =>
    simp only [Problem.code, Problem.isLasting]
    decide

/-- The second library has all the objects of the first one. Without a library every object is
known. -/
def ObjectLibrary.Within : Option ObjectLibrary → Option ObjectLibrary → Prop
  | _, none => True
  | none, some _ => False
  | some l, some l' =>
    (∀ name ∈ l.gameObjects, name ∈ l'.gameObjects) ∧ ∀ name ∈ l.scriptObjects,
      name ∈ l'.scriptObjects

theorem ObjectLibrary.within_refl (objects : Option ObjectLibrary) : Within objects objects := by
  cases objects with
  | none => trivial
  | some library => exact ⟨fun _ h => h, fun _ h => h⟩

section

variable {objects objects' : Option ObjectLibrary} (h : ObjectLibrary.Within objects objects')

include h

theorem Token.unknownObjects_thins (ts : List Token) :
    Thins Problem.isLasting (unknownObjects objects ts) (unknownObjects objects' ts) := by
  have hlasting : ∀ l : List Token, ∀ p ∈ l.map fun t => Problem.objectUnknown t.text,
      p.isLasting = false := by
    intro l p hp
    obtain ⟨t, -, rfl⟩ := List.mem_map.mp hp
    rfl
  cases objects' with
  | none =>
    cases objects with
    | none => exact .nil
    | some library => exact .drops (hlasting _)
  | some library' =>
    cases objects with
    | none => exact h.elim
    | some library =>
      have hchosen : ∀ known known' : Token → Bool, (∀ t, known t = true → known' t = true) →
          Thins (fun _ => false) (ts.filter fun t => !known t) (ts.filter fun t => !known' t) := by
        intro known known' hknown
        refine Thins.filter (fun t ht => ?_) fun _ _ => rfl
        rw [Bool.not_eq_true', Bool.eq_false_iff] at ht ⊢
        exact mt (hknown t) ht
      -- What the smaller library knows, the larger one knows too.
      refine (hchosen _ _ fun t hknown => ?_).map fun _ => rfl
      cases hkind : t.kind <;> simp only [hkind] at hknown ⊢
      · exact h.1 _ hknown
      · exact h.2 _ hknown

theorem ParamKind.valueProblems_thins (ts : List Token) :
    Thins Problem.isLasting (valueProblems objects ts) (valueProblems objects' ts) :=
  (Thins.refl _).append (Token.unknownObjects_thins h ts)

theorem ParamKind.problems_thins (kind : ParamKind) (ts : List Token) :
    Thins Problem.isLasting (kind.problems objects ts) (kind.problems objects' ts) := by
  unfold problems
  split
  · exact Thins.flatMap (valueProblems_thins h) _
  · exact (Thins.refl _).append (valueProblems_thins h ts)

end

section

variable {objects objects' : Option ObjectLibrary}

/-- What is reported about a parameter does not depend on the places of its tokens. -/
theorem Parameter.reports_bare (generated : Bool) (p : Parameter) :
    p.bare.reports objects generated = p.reports objects generated := by
  simp only [reports, Session.checkParameter, bare, Expression.evalOrder_bare,
    ParamKind.problems_bare]
  split
  · rw [show Token.oversized none (p.tokens.map Token.bare) = _
      from Token.oversized_bare none p.tokens]
    cases Expression.evalOrder p.tokens <;> simp only [Except.map, Token.unknownObjects_bare]
  · rfl

theorem Parameter.reports_thins (h : ObjectLibrary.Within objects objects') (generated : Bool)
    (p : Parameter) :
    Thins Problem.isLasting (p.reports objects generated) (p.reports objects' generated) := by
  unfold reports Session.checkParameter
  split
  · split
    · exact (Thins.refl _).append (Token.unknownObjects_thins h _)
    · exact .refl _
  · split
    · exact .refl _
    · exact (Thins.refl _).append (ParamKind.problems_thins h p.kind p.tokens)

/-- Both libraries find the same evaluation order. -/
theorem Session.evalOrder_foldl_bare {generated : Bool} (ps : List Parameter) {f f' : Findings}
    (h : f'.evalOrder = f.evalOrder.map Token.bare) :
    ((ps.map Parameter.bare).foldl (checkParameter objects' generated) f').evalOrder =
      (ps.foldl (checkParameter objects generated) f).evalOrder.map Token.bare := by
  induction ps generalizing f f' with
  | nil => exact h
  | cons p ps ih =>
    refine ih ?_
    simp only [checkParameter, Parameter.bare, Expression.evalOrder_bare]
    split
    · cases Expression.evalOrder p.tokens with
      | error => exact h
      | ok order => rfl
    · split <;> exact h

end

/-! ## Two nodes side by side -/

def ReturnValue.unlinked (v : ReturnValue) : ReturnValue :=
  if v.conditional.isJump then { v with destination := unresolved } else v

theorem ReturnValue.unlinked_of {conditional : Conditional} (h : conditional.isJump = true)
    (d : UInt16) :
    (of conditional d).unlinked = of conditional unresolved := if_pos h

def Command.unlinked (c : Command) : Command :=
  { c with
    returnValue := c.returnValue.map ReturnValue.unlinked
    jump := c.jump.map fun _ => unresolved }

/-- The nodes say the same. If the first one is faulty and the second one is not, the jump of the
first one is left unresolved. -/
structure Node.Beside (n n' : Node) : Prop where
  statement : n.statement.bare = n'.statement.bare
  line : n.statement.line = n'.statement.line
  origin : n.origin = n'.origin
  parent : n.parent = n'.parent
  children : n.children = n'.children
  diagnostic : n.diagnostic = n'.diagnostic
  header : n.header = n'.header
  evalOrder : n.evalOrder.map Token.bare = n'.evalOrder.map Token.bare
  index : n.index = n'.index
  error : n'.hasError = true → n.hasError = true
  target : n.hasError = false → n.target = n'.target
  returnValue : n.returnValue = n'.returnValue ∨
    n.returnValue = n'.returnValue.map ReturnValue.unlinked
  jump : n.jump = n'.jump ∨ n.jump = n'.jump.map fun _ => unresolved
  /-- A command with a return slot jumps by its return value, if it does. -/
  slot : n'.statement.returnSlot?.isSome = true → n'.jump = none
  slotless : n'.statement.returnSlot? = none → n'.returnValue = none

namespace Node.Beside

variable {n n' : Node}

theorem new {s s' : Statement} (h : s.bare = s'.bare) (hline : s.line = s'.line) (origin : Origin)
    (diagnostic : Option Diagnostic) (header : Option NodeId) :
    Node.Beside { statement := s, origin, diagnostic, header }
    { statement := s', origin, diagnostic, header } :=
  ⟨h, hline, rfl, rfl, rfl, rfl, rfl, rfl, rfl, id, fun _ => rfl, .inl rfl, .inl rfl, fun _ => rfl,
    fun _ => rfl⟩

theorem label?_eq (h : n.Beside n') : n.statement.label? = n'.statement.label? :=
  Statement.eq_of_bare h.statement _ Statement.label?_bare

theorem akin (h : n.Beside n') : n.Akin n' where
  form := (congrArg Statement.form h.statement :)
  role := (congrArg Statement.role h.statement :)
  kind := (congrArg Statement.kind h.statement :)
  commented := (congrArg Statement.commented h.statement :)
  text := (congrArg Statement.text h.statement :)
  label := h.label?_eq
  origin := h.origin
  parent := h.parent
  children := h.children
  header := h.header

theorem conditional_eq (h : n.Beside n') : n.statement.conditional = n'.statement.conditional :=
  (congrArg Statement.conditional h.statement :)

theorem names_eq (h : n.Beside n') :
    n.statement.vars.map Token.value = n'.statement.vars.map Token.value := by
  refine Statement.eq_of_bare h.statement (fun s => s.vars.map Token.value) fun s => ?_
  rw [s.vars_bare, List.map_map]
  rfl

theorem isSome_returnSlot? (h : n.Beside n') :
    n.statement.returnSlot?.isSome = n'.statement.returnSlot?.isSome := by
  refine Statement.eq_of_bare h.statement (fun s => s.returnSlot?.isSome) fun s => ?_
  rw [s.returnSlot?_bare, Option.isSome_map]

/-- A fault of both nodes. -/
theorem fail (h : n.Beside n') : Node.Beside { n with hasError := true }
    { n' with hasError := true } :=
  { h with error := fun _ => rfl, target := by simp }

theorem fail_left (h : n.Beside n') : Node.Beside { n with hasError := true } n' :=
  { h with error := fun _ => rfl, target := by simp }

theorem link_right (h : n.Beside n') (herror : n.hasError = true) (target : Option Target)
    (fault : Bool) :
    n.Beside { n' with target := target, hasError := fault } :=
  { h with error := fun _ => herror, target := by simp [herror] }

theorem answer (h : n.Beside n') (hslot : n'.statement.returnSlot?.isSome = true)
    {v v' : ReturnValue} (hv : v = v' ∨ v = v'.unlinked) :
    Node.Beside { n with returnValue := some v } { n' with returnValue := some v' } :=
  { h with
    returnValue := hv.imp (congrArg some) (congrArg some)
    slotless := fun hnone => by simp [hnone] at hslot }

theorem lead (h : n.Beside n') (hslot : n'.statement.returnSlot? = none) {d d' : UInt16}
    (hd : d = d' ∨ d = unresolved) :
    Node.Beside { n with jump := some d } { n' with jump := some d' } :=
  { h with
    jump := hd.imp (congrArg some) (congrArg some)
    slot := fun hsome => by simp [hslot] at hsome }

end Node.Beside

theorem Tree.modify_id (t : Tree) (id : NodeId) : (t.modify id fun n => n) = t := by
  obtain ⟨nodes⟩ := t
  exact congrArg Tree.mk (Array.ext (by simp) fun i _ _ => by simp [Array.getElem_modify])

/-! ## Two trees side by side -/

structure Tree.Beside (t t' : Tree) : Prop where
  size : t.size = t'.size
  node : ∀ id, (t.node id).Beside (t'.node id)

namespace Tree.Beside

variable {t t' : Tree}

theorem akin (h : t.Beside t') : t.Akin t' := ⟨h.size, fun id => (h.node id).akin⟩

theorem modify (h : t.Beside t') {id : NodeId} {f f' : Node → Node}
    (hf : (f (t.node id)).Beside (f' (t'.node id))) :
    (t.modify id f).Beside (t'.modify id f') := by
  refine ⟨by rw [size_modify, size_modify, h.size], fun j => ?_⟩
  rw [node_modify, node_modify, ← h.size]
  split
  · next hj =>
    rw [← hj.1]
    exact hf
  · exact h.node j

theorem create (h : t.Beside t') {n n' : Node} (hn : n.Beside n') :
    (t.create n).1.Beside (t'.create n').1 := by
  refine ⟨by rw [size_create, size_create, h.size], fun j => ?_⟩
  rw [node_create, node_create, ← h.size]
  split
  · exact hn
  · exact h.node j

theorem hang (h : t.Beside t') (parent : Option NodeId) (child : NodeId) :
    (t.modify child fun n => { n with parent }).Beside (t'.modify child fun n =>
      { n with parent }) :=
  h.modify { h.node child with parent := rfl }

theorem insert (h : t.Beside t') (parent : NodeId) (position : Nat) (child : NodeId) :
    (t.insert parent position child).Beside (t'.insert parent position child) := by
  have hchild := (h.hang (some parent) child).node parent
  refine (h.hang (some parent) child).modify { hchild with children := ?_ }
  simp only [hchild.children]

theorem append (h : t.Beside t') (parent child : NodeId) :
    (t.append parent child).Beside (t'.append parent child) := by
  rw [append_eq_insert (Nat.le_refl _), append_eq_insert (Nat.le_refl _), h.akin.children_eq]
  exact h.insert ..

theorem addChild (h : t.Beside t') (parent : NodeId) {n n' : Node} (hn : n.Beside n') :
    (t.addChild parent n).1.Beside (t'.addChild parent n').1 := by
  have hadd := (h.create hn).append parent t.size
  rwa [show t'.addChild parent n' = ((t'.create n').1.append parent t'.size, t'.size) from rfl,
    ← h.size]

end Tree.Beside

/-! ## Nesting -/

structure Nesting.Beside (n n' : Nesting) : Prop where
  tree : n.tree.Beside n'.tree
  pending : n.pending = n'.pending

namespace Nesting.Beside

section

variable {t t' : Tree} (h : t.Beside t') (pending : List NodeId) (id : NodeId) (line : Nat)

include h

theorem addJump (block : NodeId) :
    (Nesting.addJump t block line).Beside (Nesting.addJump t' block line) :=
  h.addChild block (.new rfl rfl ..)

theorem addAlternative :
    Nesting.Beside (Nesting.addAlternative t pending id line)
    (Nesting.addAlternative t' pending id line) := by
  unfold Nesting.addAlternative closeSkips
  rw [h.akin.role_eq]
  split
  · exact ⟨h.append .., rfl⟩
  · split
    · exact ⟨(addJump h ..).append .., rfl⟩
    · exact ⟨h.append .., rfl⟩

theorem addEnd : Nesting.Beside (Nesting.addEnd t pending id line)
    (Nesting.addEnd t' pending id line) := by
  unfold Nesting.addEnd closeSkips
  rw [h.akin.role_eq]
  split
  · exact ⟨h.append .., rfl⟩
  · refine ⟨Tree.Beside.append ?_ .., rfl⟩
    split
    · exact addJump h ..
    · exact h

theorem addInner {s s' : Statement} (hs : s.bare = s'.bare) :
    Nesting.Beside (Nesting.addInner t pending id s) (Nesting.addInner t' pending id s') := by
  have hkind : s.isStandard = s'.isStandard := (congrArg Statement.isStandard hs :)
  have hrole : s.role = s'.role := (congrArg Statement.role hs :)
  refine ⟨h.append .., ?_⟩
  simp only [Nesting.addInner, (h.append _ _).akin.role_eq, hkind, hrole]

end

theorem add {n n' : Nesting} (h : n.Beside n') {r r' : Reading} (hr : r.bare = r'.bare)
    (hline : r.statement.line = r'.statement.line) : Nesting.Beside (n.add r) (n'.add r') := by
  have hstatement : r.statement.bare = r'.statement.bare := congrArg Reading.statement hr
  have hdiagnostic : r.diagnostic = r'.diagnostic := (congrArg Reading.diagnostic hr :)
  have hrole : r.statement.role = r'.statement.role := (congrArg Statement.role hstatement :)
  have hcreate := h.tree.create (.new hstatement hline .source r.diagnostic none)
  unfold Nesting.add Tree.create
  dsimp only
  rw [← hrole, ← hline, ← h.pending, show n'.tree.nodes.size = n.tree.nodes.size
    from h.tree.size.symm, ← hdiagnostic]
  split
  · exact addAlternative hcreate ..
  · exact addAlternative hcreate ..
  · exact addEnd hcreate ..
  · exact addInner hcreate _ _ hstatement

end Nesting.Beside

/-- The trees of lines that say the same. -/
theorem Tree.nest_beside {rs rs' : List Reading}
    (h : List.Forall₂ (fun r r' => r.bare = r'.bare ∧ r.statement.line = r'.statement.line)
      rs rs') :
    (Tree.nest rs).Beside (Tree.nest rs') := by
  have hrun : ∀ n n' : Nesting, n.Beside n' →
      (rs.foldl Nesting.add n).Beside (rs'.foldl Nesting.add n') := by
    induction h with
    | nil => exact fun _ _ hn => hn
    | cons hr _ ih => exact fun n n' hn => ih _ _ (hn.add hr.1 hr.2)
  have hempty : Tree.empty.Beside Tree.empty := by
    refine ⟨rfl, fun id => ?_⟩
    rw [show Tree.empty.node id = default by cases id <;> rfl]
    exact .new rfl rfl ..
  exact (hrun .empty .empty ⟨hempty, rfl⟩).tree

/-! ## Two sessions side by side -/

namespace Tree.Beside

variable {t t' : Tree} (header parent : NodeId)

theorem insertGenerated (h : t.Beside t') (position : Nat) (ss : List Statement) :
    (Tree.insertGenerated header parent t position ss).Beside
      (Tree.insertGenerated header parent t' position ss) := by
  induction ss generalizing t t' position with
  | nil => exact h
  | cons s ss ih =>
    have hinsert :=
      (h.create (.new (s := s) rfl rfl .expanded none (some header))).insert parent position t.size
    show (Tree.insertGenerated _ _ _ (position + 1) ss).Beside
      (Tree.insertGenerated _ _ ((t'.create _).1.insert parent position t'.size) (position + 1) ss)
    -- The new node has the same name in both trees, since they are of the same size.
    rw [← h.size]
    exact ih hinsert _

theorem appendAll (h : t.Beside t') (ids : List NodeId) :
    (t.appendAll parent ids).Beside (t'.appendAll parent ids) :=
  List.foldl_rel h fun id _ _ _ hu => hu.append parent id

theorem emptied (h : t.Beside t') : (t.emptied header).Beside (t'.emptied header) := by
  have hbare : (t.modify header fun n => { n with children := #[] }).Beside
      (t'.modify header fun n => { n with children := #[] }) :=
        h.modify { h.node header with children := rfl }
  have htaken : (t.takeChildren header).1.Beside (t'.takeChildren header).1 := by
    unfold takeChildren
    rw [h.akin.children_eq]
    exact List.foldl_rel hbare fun child _ _ _ hu => hu.hang none child
  have hheader := htaken.node header
  exact htaken.modify { hheader with
    origin := rfl
    statement := congrArg (fun s : Statement => { s with kind := .auxiliary }) hheader.statement }

theorem replace (h : t.Beside t') (g : Generated) :
    (t.replace parent header g).Beside (t'.replace parent header g) := by
  have hempty := h.emptied header
  have hfront : (t.fronted parent header g).Beside (t'.fronted parent header g) := by
    rw [fronted, fronted, position?, position?, hempty.akin.parent?_eq, hempty.akin.children_eq]
    exact hempty.insertGenerated header parent _ _
  rw [replace_eq, replace_eq, h.size, h.akin.children_eq, hfront.akin.children_eq]
  exact (hfront.insertGenerated header _ _ _).appendAll _ _

end Tree.Beside

theorem Statement.definition?_bare (s : Statement) : s.bare.definition? = s.definition? := by
  rw [definition?, s.label?_bare]
  rfl

theorem Statement.declarations_bare (s : Statement) : s.bare.declarations = s.declarations := by
  rw [declarations, mentions, s.definition?_bare, s.vars_bare, List.map_map]
  rfl

/-- The sessions know the same, but the first one has reported more unknown objects. -/
structure Session.Beside (s s' : Session) : Prop where
  tree : s.tree.Beside s'.tree
  log : Thins Diagnostic.isLasting s.log.toList s'.log.toList
  symbols : s.symbols = s'.symbols
  labels : s.labels = s'.labels
  standardCount : s.standardCount = s'.standardCount
  names : s.names = s'.names

namespace Session.Beside

variable {s s' : Session}

theorem start {t t' : Tree} (h : t.Beside t') : Beside (Session.start t) (Session.start t') :=
  ⟨h, .nil, rfl, rfl, rfl, rfl⟩

theorem node (h : Beside s s') (id : NodeId) : (s.node id).Beside (s'.node id) := h.tree.node id

theorem akin (h : Beside s s') : s.tree.Akin s'.tree := h.tree.akin

theorem modify (h : Beside s s') {id : NodeId} {f f' : Node → Node}
    (hf : (f (s.node id)).Beside (f' (s'.node id))) :
    Beside (s.modify id f) (s'.modify id f') :=
  { h with tree := h.tree.modify hf }

theorem modify_left (h : Beside s s') {id : NodeId} {f : Node → Node}
    (hf : (f (s.node id)).Beside (s'.node id)) :
    Beside (s.modify id f) s' := by
  refine { h with tree := ?_ }
  rw [← s'.tree.modify_id id]
  exact h.tree.modify hf

theorem modify_right (h : Beside s s') {id : NodeId} {f : Node → Node}
    (hf : (s.node id).Beside (f (s'.node id))) :
    Beside s (s'.modify id f) := by
  refine { h with tree := ?_ }
  rw [← s.tree.modify_id id]
  exact h.tree.modify hf

/-- Where the second session has problems, the first one has some. -/
theorem hasProblems (h : Beside s s') (hs' : s'.hasProblems = true) : s.hasProblems = true := by
  have hlength := h.log.sublist.length_le
  rw [Array.length_toList, Array.length_toList] at hlength
  simp only [Session.hasProblems, Bool.not_eq_true', Array.isEmpty_eq_false_iff,
    ← Array.size_pos_iff] at hs' ⊢
  omega

/-- A fault in both sessions. -/
theorem fail (h : Beside s s') (id : NodeId) :
    Beside (s.modify id fun n => { n with hasError := true })
    (s'.modify id fun n => { n with hasError := true }) :=
  h.modify (h.node id).fail

/-- A report that both sessions make. -/
theorem report (h : Beside s s') (id : NodeId) (p : Problem) :
    Beside (s.report id p) (s'.report id p) := by
  have hdisplay : (s.node id).statement.display = (s'.node id).statement.display :=
    (congrArg Statement.display (h.node id).statement :)
  refine { h.fail id with log := ?_ }
  simp only [Session.report, Array.toList_push, hdisplay, (h.node id).line]
  exact h.log.append (.refl _)

theorem report_left (h : Beside s s') (id : NodeId) {p : Problem} (hp : p.isLasting = false) :
    Beside (s.report id p) s' := by
  refine { h.modify_left (h.node id).fail_left with log := ?_ }
  simp only [Session.report, Array.toList_push]
  rw [← List.append_nil s'.log.toList]
  exact h.log.append (.drop ((Diagnostic.isLasting_of ..).trans hp) .nil)

theorem reports {ps ps' : List Problem} (h : Beside s s') (hps : Thins Problem.isLasting ps ps')
    (id : NodeId) :
    Beside (ps.foldl (fun s p => s.report id p) s) (ps'.foldl (fun s p => s.report id p) s') := by
  induction hps generalizing s s' with
  | nil => exact h
  | both p _ ih => exact ih (h.report id p)
  | drop hp _ ih => exact ih (h.report_left id hp)

/-- Where both computations give a session, the sessions are side by side. -/
def Stay (x x' : Except Fault Session) : Prop := ∀ u u', x = .ok u → x' = .ok u' → Beside u u'

theorem stay (h : Beside s s') : Stay (.ok s) (.ok s') := by
  rintro u u' ⟨⟩ ⟨⟩
  exact h

theorem foldlM {α : Type} {step step' : Session → α → Except Fault Session}
    (hstep : ∀ u u' a, Beside u u' → Stay (step u a) (step' u' a)) {l : List α} (h : Beside s s') :
    Stay (l.foldlM step s) (l.foldlM step' s') := by
  induction l generalizing s s' with
  | nil => exact h.stay
  | cons a l ih =>
    intro q q' hrun hrun'
    rw [List.foldlM_cons] at hrun hrun'
    obtain ⟨u, hu, hrest⟩ := bind_eq_ok_iff.mp hrun
    obtain ⟨u', hu', hrest'⟩ := bind_eq_ok_iff.mp hrun'
    exact ih (hstep s s' a h u u' hu hu') q q' hrest hrest'

/-! ## Expansion -/

variable {e e' : Setting}

theorem expandOne (h : Beside s s') (hread : Generated.read e = Generated.read e')
    (header : NodeId) :
    Stay (s.expandOne e header) (s'.expandOne e' header) := by
  have hplan : (s.node header).statement.plan s'.names = (s'.node header).statement.plan s'.names :=
    Statement.eq_of_bare (h.node header).statement (·.plan s'.names) (·.plan_bare s'.names)
  unfold Session.expandOne
  dsimp only
  rw [h.names, hplan, (h.node header).line, hread, h.akin.parent?_eq]
  split
  · exact (h.report header _).stay
  · next names _ =>
    have hnames : Beside { s with names } { s' with names } := { h with names := rfl }
    split
    · exact (hnames.report header _).stay
    · split
      · exact fun _ _ hc => by cases hc
      · exact stay { hnames with tree := h.tree.replace header _ _ }

theorem expand (h : Beside s s') (hread : Generated.read e = Generated.read e') :
    Stay (s.expand e) (s'.expand e') := by
  have hnames : s.seedNames.names = s'.seedNames.names := by
    have hinsert : ∀ (ts : List Token) (used : Std.TreeSet String),
        ts.foldl (fun used t => used.insert t.value) used =
        (ts.map Token.value).foldl (fun used name => used.insert name) used :=
          fun ts used => List.foldl_map.symm
    have hsame : ∀ id, (s.node id).statement.vars.map Token.value =
        (s'.node id).statement.vars.map Token.value :=
      fun id => (h.node id).names_eq
    simp only [seedNames, h.akin.preorder_eq, h.names, hinsert, hsame]
  have hpending : ∀ id, isPendingShorthand (s.node id) = isPendingShorthand (s'.node id) := by
    intro id
    simp only [isPendingShorthand, (h.node id).origin, (h.node id).diagnostic,
      (h.node id).akin.form, (h.node id).akin.commented]
  unfold Session.expand
  dsimp only
  rw [show s.seedNames.tree.preorder = _ from h.akin.preorder_eq,
    show (fun id => isPendingShorthand (s.seedNames.node id)) = _ from funext hpending]
  exact foldlM (fun _ _ id hu => hu.expandOne hread id) { h with names := hnames }

/-! ## Names and constants -/

/-- The same is wrong with the names in both nodes. -/
theorem nameProblems_eq {n n' : Node} (h : n.Beside n') (table : SymbolTable) :
    n.nameProblems table = n'.nameProblems table := by
  have hbare : ∀ m : Node, Node.nameProblems table { m with statement := m.statement.bare } =
      m.nameProblems table := by
    intro m
    have hreserved : reserved? (m.statement.vars.map Token.bare) =
        (reserved? m.statement.vars).map Token.bare :=
      List.find?_map ..
    have hdeclare : declareVariables table (m.statement.vars.map Token.bare) =
        declareVariables table m.statement.vars :=
      List.foldl_map
    rw [Node.nameProblems, Node.variableProblems, m.statement.vars_bare,
      m.statement.definition?_bare, hreserved, hdeclare,
      Node.nameProblems, Node.variableProblems,
      show isUserWritten { m with statement := m.statement.bare } = isUserWritten m
        from rfl]
    cases isUserWritten m <;> cases reserved? m.statement.vars <;> rfl
  rw [← hbare n, ← hbare n', Node.nameProblems, Node.nameProblems, Node.variableProblems,
    Node.variableProblems, isUserWritten, isUserWritten, h.statement, h.origin]

theorem jumpLabel?_eq {n n' : Node} (h : n.Beside n') : n.jumpLabel? = n'.jumpLabel? := by
  unfold Node.jumpLabel? Node.is
  rw [h.akin.form, h.akin.commented, h.label?_eq]

theorem identifyNode (h : Beside s s') (jumps : List (NodeId × String)) (id : NodeId) :
    Beside (Session.identifyNode (s, jumps) id).1 (Session.identifyNode (s', jumps) id).1 ∧
      (Session.identifyNode (s, jumps) id).2 = (Session.identifyNode (s', jumps) id).2 := by
  have hdefinition := Statement.eq_of_bare (h.node id).statement _ Statement.definition?_bare
  have hdeclares := Statement.eq_of_bare (h.node id).statement _ Statement.declarations_bare
  rw [identifyNode_eq, identifyNode_eq, nameProblems_eq (h.node id), jumpLabel?_eq (h.node id),
    h.symbols, h.labels, hdefinition, hdeclares]
  refine ⟨reports ?_ (.refl _) id, rfl⟩
  exact { h with symbols := rfl, labels := rfl }

theorem identifyNames (h : Beside s s') (harguments : e.arguments = e'.arguments) :
    Beside (s.identifyNames e) (s'.identifyNames e') := by
  have hjump : ∀ (u u' : Session) (jump : NodeId × String), Beside u u' →
      Beside (u.checkJump jump) (u'.checkJump jump) := by
    intro u u' jump hu
    unfold checkJump
    rw [hu.labels]
    split
    · exact hu
    · exact hu.report ..
  have hrun : ∀ (ids : List NodeId) (x x' : Session × List (NodeId × String)), Beside x.1 x'.1 →
      x.2 = x'.2 →
      Beside (ids.foldl Session.identifyNode x).1 (ids.foldl Session.identifyNode x').1 ∧
        (ids.foldl Session.identifyNode x).2 = (ids.foldl Session.identifyNode x').2 := by
    intro ids
    induction ids with
    | nil => exact fun _ _ hu hjumps => ⟨hu, hjumps⟩
    | cons id ids ih =>
      rintro ⟨u, jumps⟩ ⟨u', _⟩ hu rfl
      exact ih _ _ (hu.identifyNode jumps id).1 (hu.identifyNode jumps id).2
  unfold Session.identifyNames
  dsimp only
  rw [harguments, h.symbols, h.akin.preorder_eq]
  obtain ⟨hu, hjumps⟩ := hrun s'.tree.preorder
    ({ s with symbols := declareArguments e'.arguments s'.symbols }, [])
    ({ s' with symbols := declareArguments e'.arguments s'.symbols },
      []) { h with symbols := rfl } rfl
  rw [hjumps]
  exact List.foldl_rel hu fun jump _ _ _ hu => hjump _ _ jump hu

theorem recordWrites (h : Beside s s') (id : NodeId) :
    Beside (s.recordWrites id) (s'.recordWrites id) := by
  have hlive : (s.node id).isLive = (s'.node id).isLive := h.akin.isLive_eq id
  have hwritten := Statement.eq_of_bare (h.node id).statement _ Statement.written_bare
  unfold Session.recordWrites Statement.isRecognised
  dsimp only
  rw [hlive, (h.node id).akin.form, hwritten, h.symbols]
  split
  · exact { h with symbols := rfl }
  · exact h

theorem identifyConstants (h : Beside s s') : Beside s.identifyConstants s'.identifyConstants := by
  have hassigns : ∀ {n n' : Node}, n.Beside n' → assignsConstant n = assignsConstant n' := by
    intro n n' hn
    have hliteral : ((n.statement.parameters.find? fun p => p.kind == .expression).any fun p =>
        p.isLiteral) =
        (n'.statement.parameters.find? fun p => p.kind == .expression).any fun p =>
          p.isLiteral := by
      refine Statement.eq_of_bare hn.statement
        (fun s => (s.parameters.find? fun p => p.kind == .expression).any fun p => p.isLiteral)
        fun s => ?_
      simp only [Statement.bare, List.find?_map, Option.any_map, Parameter.isLiteral_bare]
      rfl
    rw [assignsConstant, assignsConstant, hn.akin.form, hliteral, hn.parent, hn.conditional_eq]
  unfold Session.identifyConstants
  dsimp only
  rw [h.akin.preorder_eq]
  have hwrites : Beside (s'.tree.preorder.foldl Session.recordWrites s)
      (s'.tree.preorder.foldl Session.recordWrites s') :=
    List.foldl_rel h fun id _ _ _ hu => hu.recordWrites id
  have hmark : markConstant (s'.tree.preorder.foldl Session.recordWrites s).tree =
      markConstant (s'.tree.preorder.foldl Session.recordWrites s').tree := by
    funext v
    simp only [markConstant, fun id => hassigns (hwrites.tree.node id)]
  exact { hwrites with symbols := by rw [hmark, hwrites.symbols] }

/-! ## The checks -/

/-- The check of the parameters of a node with both libraries. -/
theorem checkNode (h : Beside s s') (hobjects : ObjectLibrary.Within e.objects e'.objects)
    (id : NodeId) :
    Beside (Session.checkNode e s id) (Session.checkNode e' s' id) := by
  have hparameters : (s.node id).statement.parameters.map Parameter.bare =
      (s'.node id).statement.parameters.map Parameter.bare :=
        congrArg Statement.parameters (h.node id).statement
  have hreports : ∀ objects generated (ps : List Parameter),
      ps.flatMap (·.reports objects generated) =
        (ps.map Parameter.bare).flatMap (·.reports objects generated) := by
    intro objects generated ps
    simp only [List.flatMap_map, Parameter.reports_bare]
  unfold Session.checkNode
  dsimp only
  rw [(h.node id).akin.commented, (h.node id).origin, (h.node id).diagnostic]
  split
  · exact h
  · cases (s'.node id).diagnostic with
    | some d =>
      refine { h.fail id with log := ?_ }
      simp only [Array.toList_push]
      exact h.log.append (.refl _)
    | none =>
      dsimp only
      -- Without their places the parameters are the same, so that only the libraries differ.
      rw [problems_foldl, problems_foldl, hreports e.objects, hreports e'.objects, hparameters]
      refine reports ?_
        (Thins.append (.refl _) (Thins.flatMap (Parameter.reports_thins hobjects _) _)) id
      refine h.modify { h.node id with evalOrder := ?_ }
      have horder :=
        fun objects ps => @evalOrder_foldl_bare objects e.objects ((s'.node id).origin == .expanded)
          ps {} {} rfl
      rw [← horder, ← horder, hparameters]

theorem checkParameters (h : Beside s s') (hobjects : ObjectLibrary.Within e.objects e'.objects) :
    Beside (s.checkParameters e) (s'.checkParameters e') := by
  unfold Session.checkParameters
  rw [h.akin.preorder_eq]
  exact List.foldl_rel h fun id _ _ _ hu => hu.checkNode hobjects id

theorem checkBlocks (h : Beside s s') : Beside s.checkBlocks s'.checkBlocks := by
  unfold Session.checkBlocks
  rw [h.akin.preorder_eq]
  refine List.foldl_rel h fun id _ u u' hu => ?_
  unfold checkBlock
  rw [(hu.node id).akin.commented, hu.akin.blockProblem?_eq]
  split
  · exact hu
  · split
    · exact hu.report id _
    · exact hu

theorem checkSubroutines (h : Beside s s') : Beside s.checkSubroutines s'.checkSubroutines := by
  unfold Session.checkSubroutines
  simp only [h.akin.children_eq, h.akin.pass_eq, h.akin.calledLabels_eq, h.akin.label?_eq]
  exact List.foldl_rel (List.foldl_rel h fun id _ _ _ hu => hu.report id _) fun id _ _ _ hu =>
    hu.report id _

theorem assignIndices (h : Beside s s') : Beside s.assignIndices s'.assignIndices := by
  have hrun : ∀ (ids : List NodeId) (n n' : Numbering), Beside n.session n'.session →
      n.next = n'.next →
      n.reported = n'.reported →
      Beside (ids.foldl numberNode n).session (ids.foldl numberNode n').session ∧
        (ids.foldl numberNode n).next = (ids.foldl numberNode n').next := by
    intro ids
    induction ids with
    | nil => exact fun n n' hn hnext _ => ⟨hn, hnext⟩
    | cons id ids ih =>
      intro n n' hn hnext hreported
      have hlive : (n.session.node id).isLive = (n'.session.node id).isLive := hn.akin.isLive_eq id
      have hnumber : Beside (numberNode n id).session (numberNode n' id).session ∧
          (numberNode n id).next = (numberNode n' id).next ∧
          (numberNode n id).reported = (numberNode n' id).reported := by
        unfold numberNode
        rw [hlive, hnext, hreported]
        split
        · exact ⟨hn, hnext, hreported⟩
        · split
          · exact ⟨hn.modify { hn.node id with index := rfl }, rfl, rfl⟩
          · split
            · exact ⟨hn, hnext, hreported⟩
            · exact ⟨hn.report id _, rfl, rfl⟩
      exact ih _ _ hnumber.1 hnumber.2.1 hnumber.2.2
  obtain ⟨hall, hnext⟩ := hrun s.tree.preorder { session := s } { session := s' } h rfl rfl
  unfold Session.assignIndices
  rw [← h.akin.preorder_eq]
  exact { hall with standardCount := hnext }

/-! ## Linking and resolving -/

theorem order_eq (h : Beside s s') : Order.of s.tree = Order.of s'.tree := by
  have hindex : ∀ id, (s.tree.node id).index = (s'.tree.node id).index :=
    fun id => (h.node id).index
  simp only [Order.of, Order.upcomingOf, h.akin.preorder_eq, h.tree.size, hindex]

theorem hasError_eq_false (h : Beside s s') {id : NodeId} (herror : (s.node id).hasError = false) :
    (s'.node id).hasError = false := by
  rw [Bool.eq_false_iff]
  exact fun hc => by simp [(h.node id).error hc] at herror

/-- A jump is linked in both sessions, unless the node is faulty in the first one. -/
theorem linkNode (h : Beside s s') (o : Order) (id : NodeId) :
    Stay (Session.linkNode o s id) (Session.linkNode o s' id) := by
  have hlive : (s.node id).isLive = (s'.node id).isLive := h.akin.isLive_eq id
  unfold Session.linkNode
  dsimp only
  rw [hlive, h.labels, h.akin.target?_eq]
  cases herror : (s.node id).hasError with
  | true =>
    -- The first session passes over a faulty node, whatever the second one does with it.
    rw [Bool.true_or, if_pos rfl]
    split
    · exact h.stay
    · cases s'.tree.target? o s'.labels id with
      | none =>
        dsimp only
        split
        · exact (h.modify_right ((h.node id).link_right herror _ _)).stay
        · exact fun _ _ _ hc => by cases hc
      | some target =>
        cases target with
        | none => exact h.stay
        | some target => exact (h.modify_right ((h.node id).link_right herror _ _)).stay
  | false =>
    rw [h.hasError_eq_false herror]
    split
    · exact h.stay
    · cases s'.tree.target? o s'.labels id with
      | none =>
        -- Without problems a jump without a target would be a fault of the compilation.
        dsimp only
        cases hproblems : s'.hasProblems with
        | true =>
          rw [h.hasProblems hproblems]
          exact (h.fail id).stay
        | false => exact fun _ _ _ hc => by cases hc
      | some target =>
        cases target with
        | none => exact h.stay
        | some target => exact (h.modify { h.node id with target := fun _ => rfl }).stay

theorem link (h : Beside s s') : Stay s.link s'.link := by
  unfold Session.link
  dsimp only
  rw [h.order_eq]
  exact foldlM (fun _ _ id hu => hu.linkNode _ id) h

theorem targetIndex?_eq (h : Beside s s') : s.targetIndex? = s'.targetIndex? := by
  funext target
  cases target with
  | node id => exact (h.node id).index
  | endOfScript => simp only [targetIndex?, h.standardCount]

/-- A destination is the same in both sessions, or the first one has not resolved it. -/
theorem destination (h : Beside s s') {id : NodeId} {d d' : UInt16} (hd : s.destination id = .ok d)
    (hd' : s'.destination id = .ok d') : d = d' ∨ d = unresolved := by
  unfold Session.destination at hd hd'
  dsimp only at hd hd'
  cases herror : (s.node id).hasError with
  | true =>
    rw [herror, if_pos rfl] at hd
    exact .inr (Except.ok.inj hd).symm
  | false =>
    -- A node without a fault is linked alike in both sessions.
    rw [herror, if_neg Bool.false_ne_true, (h.node id).target herror, h.targetIndex?_eq] at hd
    rw [h.hasError_eq_false herror, if_neg Bool.false_ne_true] at hd'
    cases hfound : (s'.node id).target.bind s'.targetIndex? with
    | some destination =>
      rw [hfound] at hd hd'
      exact .inl ((Except.ok.inj hd).symm.trans (Except.ok.inj hd'))
    | none =>
      rw [hfound] at hd
      dsimp only at hd
      split at hd
      · exact .inr (Except.ok.inj hd).symm
      · cases hd

/-- A return value is the same in both sessions, or the first one has not resolved its jump. -/
theorem returnValueOf (h : Beside s s') {id : NodeId} {v v' : ReturnValue}
    (hv : s.returnValueOf id = .ok v) (hv' : s'.returnValueOf id = .ok v') :
    v = v' ∨ v = v'.unlinked := by
  have hassigned : ((s.node id).statement.assigned?.bind fun t =>
      s'.symbols.findVariable? t.value) =
      (s'.node id).statement.assigned?.bind fun t => s'.symbols.findVariable? t.value := by
    refine Statement.eq_of_bare (h.node id).statement
      (fun u => u.assigned?.bind fun t => s'.symbols.findVariable? t.value) fun u => ?_
    rw [u.assigned?_bare, Option.bind_map]
    rfl
  unfold Session.returnValueOf at hv hv'
  dsimp only at hv hv'
  rw [(h.node id).conditional_eq, h.symbols, hassigned] at hv
  by_cases hassign : (s'.node id).statement.conditional = .assign
  · rw [if_pos hassign] at hv hv'
    cases hfound : (s'.node id).statement.assigned?.bind fun t =>
      s'.symbols.findVariable? t.value with
    | some found =>
      rw [hfound] at hv hv'
      exact .inl ((Except.ok.inj hv).symm.trans (Except.ok.inj hv'))
    | none =>
      rw [hfound] at hv hv'
      dsimp only at hv hv'
      split at hv
      · split at hv'
        · exact .inl ((Except.ok.inj hv).symm.trans (Except.ok.inj hv'))
        · cases hv'
      · cases hv
  · rw [if_neg hassign] at hv hv'
    by_cases hjump : (s'.node id).statement.conditional.isJump = true
    · rw [if_pos hjump] at hv hv'
      obtain ⟨d, hd, hv⟩ := bind_eq_ok_iff.mp hv
      obtain ⟨d', hd', hv'⟩ := bind_eq_ok_iff.mp hv'
      obtain rfl := Except.ok.inj hv
      obtain rfl := Except.ok.inj hv'
      rcases h.destination hd hd' with rfl | rfl
      · exact .inl rfl
      · exact .inr (ReturnValue.unlinked_of hjump d').symm
    · rw [if_neg hjump] at hv hv'
      exact .inl ((Except.ok.inj hv).symm.trans (Except.ok.inj hv'))

theorem placeLabel (h : Beside s s') (id : NodeId) :
    Beside (s.placeLabel id) (s'.placeLabel id) := by
  unfold Session.placeLabel
  dsimp only
  rw [(h.node id).label?_eq, (h.node id).index, h.labels, h.symbols]
  split
  · split
    · exact { h with symbols := rfl, labels := rfl }
    · exact h
  · exact h

theorem resolveNode (h : Beside s s') (id : NodeId) :
    Stay (s.resolveNode id) (s'.resolveNode id) := by
  have hlive : (s.node id).isLive = (s'.node id).isLive := h.akin.isLive_eq id
  have hlabel : (s.node id).is FormId.defineLabel = (s'.node id).is FormId.defineLabel :=
    h.akin.is_eq id _
  unfold Session.resolveNode
  dsimp only
  rw [hlive, hlabel, (h.node id).isSome_returnSlot?, (h.node id).akin.form]
  split
  · exact h.stay
  · split
    · exact (h.placeLabel id).stay
    · split
      · next hslot =>
        intro u u' hu hu'
        obtain ⟨v, hv, hu⟩ := bind_eq_ok_iff.mp hu
        obtain ⟨v', hv', hu'⟩ := bind_eq_ok_iff.mp hu'
        exact (h.modify ((h.node id).answer hslot (h.returnValueOf hv hv'))).stay u u' hu hu'
      · next hslot =>
        split
        · intro u u' hu hu'
          obtain ⟨d, hd, hu⟩ := bind_eq_ok_iff.mp hu
          obtain ⟨d', hd', hu'⟩ := bind_eq_ok_iff.mp hu'
          exact (h.modify ((h.node id).lead (by simpa using hslot) (h.destination hd hd'))).stay u
            u' hu hu'
        · exact h.stay

theorem resolve (h : Beside s s') : Stay s.resolve s'.resolve := by
  unfold Session.resolve
  rw [h.akin.preorder_eq]
  exact foldlM (fun _ _ id hu => hu.resolveNode id) h

/-! ## The commands -/

theorem reference?_eq (h : Beside s s') (o : Order) (id : NodeId) :
    s.reference? o id = s'.reference? o id := by
  have hindex : ∀ id, (s.node id).index = (s'.node id).index := fun id => (h.node id).index
  have hlive : (s.node id).isLive = (s'.node id).isLive := h.akin.isLive_eq id
  have hat : ∀ id, s.referenceAt? o id = s'.referenceAt? o id := by
    intro id
    simp only [referenceAt?, hindex, h.standardCount]
  simp only [reference?, (h.node id).header, hlive, hat]

/-- The commands of a node are the same, or the first one has not resolved its jump. -/
theorem commandOf (h : Beside s s') (o : Order) (id : NodeId) :
    s.commandOf o id = s'.commandOf o id ∨ s.commandOf o id = (s'.commandOf o id).unlinked := by
  have hnode := h.node id
  have hcommand : s.commandOf o id =
      { s'.commandOf o id with
        returnValue := (s.node id).returnValue
        jump := (s.node id).jump } := by
    have horder : (s.node id).evalOrder.map Token.text = (s'.node id).evalOrder.map Token.text := by
      have hbare := congrArg (List.map Token.text) hnode.evalOrder
      rw [List.map_map, List.map_map] at hbare
      exact hbare
    have hparameters :=
      Statement.eq_of_bare hnode.statement (fun u => u.parameters.map Parameter.text) fun u => by
        simp only [Statement.bare, List.map_map, Function.comp_def, Parameter.text_bare]
    simp only [Session.commandOf, hnode.akin.form, hnode.line, hnode.akin.text, hparameters, horder,
      hnode.akin.role, hnode.akin.kind, hnode.origin, hnode.akin.commented, hnode.index,
      h.reference?_eq o id]
  rw [hcommand]
  cases hslot : (s'.node id).statement.returnSlot? with
  | none =>
    -- The node has no return value, so it is the jump that may differ.
    have hvalue' := hnode.slotless hslot
    have hvalue : (s.node id).returnValue = none := by
      rcases hnode.returnValue with heq | heq <;> simp [heq, hvalue']
    rcases hnode.jump with hjump | hjump
    · refine .inl ?_
      rw [hvalue, hjump, ← hvalue']
      rfl
    · refine .inr ?_
      simp only [Command.unlinked, Session.commandOf, hvalue, hvalue', hjump, Option.map_none]
  | some slot =>
    have hjump' := hnode.slot (by simp [hslot])
    have hjump : (s.node id).jump = none := by
      rcases hnode.jump with heq | heq <;> simp [heq, hjump']
    rcases hnode.returnValue with hvalue | hvalue
    · refine .inl ?_
      rw [hvalue, hjump, ← hjump']
      rfl
    · refine .inr ?_
      simp only [Command.unlinked, Session.commandOf, hvalue, hjump, hjump', Option.map_none]

theorem emit (h : Beside s s') :
    List.Forall₂ (fun c c' => c = c' ∨ c = c'.unlinked) s.emit.commands.toList
    s'.emit.commands.toList := by
  simp only [Session.emit, h.order_eq, List.forall₂_map_left_iff, List.forall₂_map_right_iff]
  exact List.forall₂_same.mpr fun id _ => h.commandOf _ id

end Session.Beside

/-! ## Compilations -/

theorem Command.unlinked_unlinked (c : Command) : c.unlinked.unlinked = c.unlinked := by
  have hvalue : ∀ v : ReturnValue, v.unlinked.unlinked = v.unlinked := by
    intro v
    simp only [ReturnValue.unlinked]
    split <;> simp [*]
  simp only [unlinked, Option.map_map, Function.comp_def, hvalue]

/-- The second output has fewer reports, and jumps that the first one has not resolved. -/
structure Output.Beside (o o' : Output) : Prop where
  log : Thins Diagnostic.isLasting o.log.toList o'.log.toList
  symbols : o.symbols = o'.symbols
  standardCount : o.standardCount = o'.standardCount
  commands : List.Forall₂ (fun c c' => c = c' ∨ c = c'.unlinked) o.commands.toList
    o'.commands.toList

/-- Scripts with the same lines, wherever the tokens stand, are compiled side by side. -/
theorem compile_beside {g : Grammar} (hg : g.Lawful) (v : Version) (arguments : List String)
    {objects objects' : Option ObjectLibrary} (hobjects : ObjectLibrary.Within objects objects')
    {lines lines' : List String} (hlines : List.Forall₂ (fun line line' => ∀ number,
      (Statement.read g v number line).bare = (Statement.read g v number line').bare) lines
        lines') :
    ∃ o o', compile ⟨g, v, arguments, objects⟩ lines = .ok o ∧
      compile ⟨g, v, arguments, objects'⟩ lines' = .ok o' ∧
      o.Beside o' := by
  have hreadings : ∀ number, List.Forall₂ (fun r r' : Reading => r.bare = r'.bare ∧
      r.statement.line = r'.statement.line)
      ((lines.zipIdx number).map fun x => Statement.read g v x.2 x.1)
      ((lines'.zipIdx number).map fun x => Statement.read g v x.2 x.1) := by
    induction hlines with
    | nil => exact fun _ => .nil
    | cons hline _ ih =>
      exact fun number => .cons ⟨hline number,
        (Statement.line_read ..).trans (Statement.line_read ..).symm⟩ (ih _)
  obtain ⟨_, s, _, q, _, hexpand, _, hcompiled, -⟩ :=
    compile_spec (e := ⟨g, v, arguments, objects⟩) hg lines
  obtain ⟨_, s', _, q', _, hexpand', _, hcompiled', -⟩ :=
    compile_spec (e := ⟨g, v, arguments, objects'⟩) hg lines'
  have hexpanded : Session.Beside s s' :=
    (Session.Beside.start (Tree.nest_beside (hreadings 1))).expand rfl s s' hexpand hexpand'
  obtain ⟨u, p, hlink, hresolve, hq⟩ :=
    Session.runPasses_ok (runPasses_of_compiled hexpand hcompiled)
  obtain ⟨u', p', hlink', hresolve', hq'⟩ :=
    Session.runPasses_ok (runPasses_of_compiled hexpand' hcompiled')
  have hexamined : Session.Beside (s.examine ⟨g, v, arguments, objects⟩)
      (s'.examine ⟨g, v, arguments, objects'⟩) :=
    ((hexpanded.identifyNames rfl).identifyConstants.checkParameters
      hobjects).checkBlocks.checkSubroutines.assignIndices
  have h : Session.Beside p p' := (hexamined.link u u' hlink hlink').resolve p p' hresolve hresolve'
  refine ⟨_, _, compile_of_compiled hcompiled, compile_of_compiled hcompiled', ?_⟩
  rw [hq, hq']
  exact ⟨h.log, congrArg SymbolTable.toList h.symbols, h.standardCount, h.emit⟩

/-- Outputs with the same reports are the same. -/
theorem Output.Beside.antisymm {o o' : Output} (h : o.Beside o') (h' : o'.Beside o) : o = o' := by
  have hlog : o.log = o'.log :=
    Array.toList_inj.mp (h'.log.sublist.eq_of_length_le h.log.sublist.length_le)
  have hcommands : o.commands = o'.commands := by
    refine Array.toList_inj.mp (List.forall₂_eq_eq_eq ▸ List.Forall₂.mp ?_ h.commands
      h'.commands.flip)
    -- Two commands that are each the other one without its jump have no resolved jump.
    rintro c c' (rfl | rfl) (hc | hc)
    · rfl
    · rfl
    · exact hc.symm
    · rw [Command.unlinked_unlinked] at hc
      exact hc.symm
  obtain ⟨commands, log, symbols, standardCount⟩ := o
  obtain ⟨commands', log', symbols', standardCount'⟩ := o'
  obtain rfl : commands = commands' := hcommands
  obtain rfl : log = log' := hlog
  obtain rfl : symbols = symbols' := h.symbols
  obtain rfl : standardCount = standardCount' := h.standardCount
  rfl

end GameScript
