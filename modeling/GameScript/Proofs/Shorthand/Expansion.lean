import GameScript.Compile
import GameScript.Proofs.Shorthand.Blocks
import GameScript.Proofs.Tree.Growth

/-!
# Expanding a script

What is known of a tree after all its shorthands were expanded. Expansion never fails: a shorthand
always has a parent to put its statements under (`expand_spec`). Each step keeps the tree in shape
and the block structure as it was, so that the checks of the expanded tree speak about the lines of
the script.
-/

namespace GameScript

/-! ## Nodes before the passes -/

/-- A node as it is before the passes: read from a line, inserted or generated, and not numbered. -/
structure Node.Prepared (e : Setting) (n : Node) : Prop where
  source : n.origin = .source → ∃ number line,
    n.statement = (Statement.read e.grammar e.version number line).statement ∧
      n.diagnostic = (Statement.read e.grammar e.version number line).diagnostic
  hiddenJump : n.origin = .hiddenJump → ∃ line, n.statement = .hiddenJump line
  expanded : n.origin = .expanded → n.statement.Performs e .plain ∨ n.statement.Performs e .loop
  header : n.origin = .header → n.statement.isStandard = false ∧ n.statement.commented = false ∧
    n.statement.form.isShorthand = true
  diagnostic : n.origin ≠ .source → n.diagnostic = none
  index : n.index = none
  returnValue : n.returnValue = none
  jump : n.jump = none

namespace Node

variable {e : Setting} {n m : Node}

theorem prepared_unlinked : n.unlinked.Prepared e ↔ n.Prepared e :=
  ⟨fun h => { h with }, fun h => { h with }⟩

theorem Prepared.congr (h : n.Prepared e) (hnm : n.unlinked = m.unlinked) : m.Prepared e := by
  rw [← prepared_unlinked, ← hnm, prepared_unlinked]
  exact h

/-- A node of the executed kind was read from a line, or it is a hidden jump. -/
theorem Prepared.standard_cases (h : n.Prepared e) (hstandard : n.statement.isStandard = true) :
    (∃ number line, n.statement = (Statement.read e.grammar e.version number line).statement) ∨
      ∃ line, n.statement = .hiddenJump line := by
  cases horigin : n.origin with
  | source =>
    obtain ⟨number, line, hstatement, -⟩ := h.source horigin
    exact .inl ⟨number, line, hstatement⟩
  | hiddenJump => exact .inr (h.hiddenJump horigin)
  | expanded =>
    left
    rcases h.expanded horigin with hperforms | hperforms <;> exact hperforms.isRead
  | header =>
    rw [(h.header horigin).1] at hstandard
    cases hstandard

theorem read_blank (e : Setting) (number : Nat) :
    Statement.read e.grammar e.version number "" = ⟨.nop number, none⟩ := by
  have htokens : Token.tokenize "" false = [] := by simp [Token.tokenize, Token.lexBody, Token.lex]
  simp [Statement.read, htokens, Token.significant, Token.comment?]

theorem prepared_reading (e : Setting) (number : Nat) (line : String) :
    (Statement.read e.grammar e.version number line).node.Prepared e where
  source _ := ⟨number, line, rfl, rfl⟩
  hiddenJump h := by cases h
  expanded h := by cases h
  header h := by cases h
  diagnostic h := absurd rfl h
  index := rfl
  returnValue := rfl
  jump := rfl

theorem prepared_default (e : Setting) : (default : Node).Prepared e := by
  have hblank := prepared_reading e 0 ""
  rwa [read_blank] at hblank

theorem prepared_hiddenJump (e : Setting) (line : Nat) :
    ({ statement := .hiddenJump line, origin := .hiddenJump } : Node).Prepared e where
  source h := by cases h
  hiddenJump _ := ⟨line, rfl⟩
  expanded h := by cases h
  header h := by cases h
  diagnostic _ := rfl
  index := rfl
  returnValue := rfl
  jump := rfl

theorem prepared_generated {s : Statement} (h : s.Performs e .plain ∨ s.Performs e .loop)
    (header : NodeId) :
    (Tree.generatedNode header s).Prepared e where
  source h := by cases h
  hiddenJump h := by cases h
  expanded _ := h
  header h := by cases h
  diagnostic _ := rfl
  index := rfl
  returnValue := rfl
  jump := rfl

/-- A problem that is reported against a node changes nothing about it. -/
theorem Prepared.reported (h : n.Prepared e) : { n with hasError := true }.Prepared e := { h with }

theorem Prepared.retired (h : n.Prepared e) (hcommented : n.statement.commented = false)
    (hdiagnostic : n.diagnostic = none) (hform : n.statement.form.isShorthand = true) :
    n.retired.Prepared e where
  source h := by cases h
  hiddenJump h := by cases h
  expanded h := by cases h
  header _ := ⟨rfl, hcommented, hform⟩
  diagnostic _ := hdiagnostic
  index := h.index
  returnValue := h.returnValue
  jump := h.jump

theorem part_of_performs {role : Role} (horigin : n.origin = .expanded)
    (h : n.statement.Performs e role) (hrole : role = .plain ∨ role = .loop) :
    n.part = if role = .plain then .shorthand else .loop := by
  rcases hrole with rfl | rfl
  · simp [Node.part, horigin, h.role]
  · simp [Node.part, horigin, h.role, Statement.part]

theorem Prepared.regular (h : n.Prepared e) : n.Regular := by
  cases horigin : n.origin with
  | source =>
    obtain ⟨number, line, hstatement, -⟩ := h.source horigin
    exact (Statement.read_regular e.grammar e.version number line).node hstatement horigin
  | hiddenJump =>
    obtain ⟨line, hline⟩ := h.hiddenJump horigin
    exact regular_hiddenJump hline horigin
  | header =>
    obtain ⟨hstandard, hcommented, -⟩ := h.header horigin
    have hpart : n.part = .header := by rw [Node.part, horigin]
    refine ⟨?_, ?_, ?_, ?_⟩
    · rw [hpart, Node.role, if_pos horigin]
      rfl
    · rw [hpart, Node.isLive, hstandard]
      rfl
    · rw [hcommented]
      intro hc
      cases hc
    · rw [horigin]
      intro hc
      cases hc
  | expanded =>
    have hgenerated : ∀ {role}, n.statement.Performs e role → role = .plain ∨ role = .loop →
        n.Regular := by
      intro role hperforms hrole
      have hpart := part_of_performs horigin hperforms hrole
      have hnodeRole : n.role = role := by simp [Node.role, horigin, hperforms.role]
      refine ⟨?_, ?_, ?_, ?_⟩
      · rw [hpart, hnodeRole]
        rcases hrole with rfl | rfl <;> rfl
      · rw [hpart, Node.isLive, hperforms.standard, hperforms.commented]
        rcases hrole with rfl | rfl <;> rfl
      · rw [hperforms.commented]
        intro hc
        cases hc
      · intro _
        rw [hpart]
        rcases hrole with rfl | rfl <;> simp
    rcases h.expanded horigin with hperforms | hperforms
    · exact hgenerated hperforms (.inl rfl)
    · exact hgenerated hperforms (.inr rfl)

/-- A shorthand that waits for its expansion is a loop or a `dim`. -/
theorem Prepared.part_of_pending (hg : e.grammar.Lawful) (h : n.Prepared e)
    (hpending : Session.isPendingShorthand n = true) :
    n.part = if n.statement.form.isLoopShorthand then .loop else .shorthand := by
  simp only [Session.isPendingShorthand, Bool.and_eq_true, Bool.not_eq_true',
    beq_iff_eq] at hpending
  obtain ⟨⟨⟨horigin, hcommented⟩, _⟩, hform⟩ := hpending
  obtain ⟨number, line, hstatement, _⟩ := h.source horigin
  rw [Node.part, horigin]
  rw [hstatement] at hcommented hform ⊢
  exact Statement.read_part_of_isShorthand hg e.version number line hcommented hform

end Node

/-- The statements that stand for a shorthand are commands, and those for a loop have a head. -/
theorem Generated.wellFormed_of_isRead {e : Setting} (hg : e.grammar.Lawful) {n : Node}
    (hn : n.Prepared e) (hpending : Session.isPendingShorthand n = true) {names names' : NameSupply}
    {y : Expansion} {x : Generated} (hplan : n.statement.plan names = .ok (y, names'))
    (hread : x.IsRead e n.statement.line y) :
    x.WellFormed e ∧ x.head.isSome = n.statement.form.isLoopShorthand := by
  obtain ⟨number, line, hstatement, _⟩ := hn.source (Session.origin_of_pending hpending)
  have htakes : n.statement.TakesValues :=
    hstatement ▸ Statement.read_takesValues hg e.version number line
  obtain ⟨hy, hhead⟩ := Statement.plan_wellFormed htakes hplan
  obtain ⟨hx, hsome⟩ := hread.wellFormed hg hy
  exact ⟨hx, hsome.trans hhead⟩

theorem readAll_regular (g : Grammar) (v : Version) (lines : List String) :
    ∀ r ∈ Statement.readAll g v lines, r.statement.Regular := by
  intro r hr
  simp only [Statement.readAll, List.mem_map, Prod.exists] at hr
  obtain ⟨line, number, _, rfl⟩ := hr
  exact Statement.read_regular g v number line

theorem nest_prepared (e : Setting) (lines : List String) (id : NodeId) :
    ((buildTree e lines).node id).Prepared e := by
  have hreadings : ∀ r ∈ Statement.readAll e.grammar e.version lines, r.node.Prepared e := by
    intro r hr
    simp only [Statement.readAll, List.mem_map, Prod.exists] at hr
    obtain ⟨line, number, _, rfl⟩ := hr
    exact Node.prepared_reading e number line
  exact nest_forall (Node.prepared_default e) (Node.prepared_hiddenJump e) hreadings id fun _ =>
    Node.prepared_unlinked

/-! ## One expansion -/

section Replace

variable {e : Setting} {t : Tree} {g : Generated} {header : NodeId}

/-- Generated statements are plain commands and loops. -/
theorem Generated.WellFormed.performs (hg : g.WellFormed e) {i : Nat} {s : Statement}
    (h : (g.front ++ g.inner)[i]? = some s) : s.Performs e .plain ∨ s.Performs e .loop := by
  have hmem := List.mem_of_getElem? h
  simp only [front, inner, List.mem_append, Option.mem_toList] at hmem
  rcases hmem with (hmem | hmem) | hmem
  · exact .inl (hg.before s hmem)
  · exact .inr (hg.head s hmem)
  · split at hmem
    · exact .inl (hg.round s hmem)
    · cases hmem

/-- A node after a replacement is as it was, the header, or generated. -/
theorem Tree.replace_cases (g : Generated) (parent : NodeId) (hheader : header < t.size)
    (id : NodeId) :
    (id ≠ header ∧ ((t.replace parent header g).node id).unlinked = (t.node id).unlinked) ∨
      (id = header ∧ ((t.replace parent header g).node id).unlinked =
        (t.node id).unlinked.retired) ∨
      ∃ (i : Nat) (s : Statement), id = t.size + i ∧ (g.front ++ g.inner)[i]? = some s ∧
        ((t.replace parent header g).node id).unlinked = generatedNode header s := by
  by_cases hid : id = header
  · subst hid
    exact .inr (.inl ⟨rfl, node_replace_header g parent hheader⟩)
  · by_cases hold : id < t.size
    · exact .inl ⟨hid, node_replace_old g parent hold hid⟩
    · replace hold := Nat.le_of_not_lt hold
      by_cases hsize : id < (t.replace parent header g).size
      · rw [size_replace] at hsize
        have hlt : id - t.size < (g.front ++ g.inner).length := Nat.sub_lt_left_of_lt_add hold hsize
        have hnode := node_replace_new g t parent header (List.getElem?_eq_getElem hlt)
        rw [Nat.add_sub_cancel' hold] at hnode
        exact .inr (.inr ⟨_, _, (Nat.add_sub_cancel' hold).symm,
          List.getElem?_eq_getElem hlt, hnode⟩)
      · rw [node_of_size_le hold, node_of_size_le (Nat.le_of_not_lt hsize)]
        exact .inl ⟨hid, rfl⟩

/-- A line of the script is as it was, if the replacement was not of it. -/
theorem Tree.replace_source (g : Generated) (parent : NodeId) (hheader : header < t.size)
    {id : NodeId} (h : ((t.replace parent header g).node id).origin = .source) :
    id ≠ header ∧ ((t.replace parent header g).node id).unlinked = (t.node id).unlinked := by
  rcases replace_cases g parent hheader id with hkept | ⟨_, hnode⟩ | ⟨_, _, _, _, hnode⟩
  · exact hkept
  · cases (congrArg Node.origin hnode).symm.trans h
  · cases (congrArg Node.origin hnode).symm.trans h

/-- How a replacement changes the parts of the nodes. -/
theorem Tree.recasts_replace (hg : g.WellFormed e) (parent : NodeId) (hheader : header < t.size)
    (hpart : t.part header = if g.head.isSome then .loop else .shorthand) :
    g.Recasts header t.size t.part (t.replace parent header g).part := by
  have hnew : ∀ {i : Nat} {s : Statement} {role : Role}, (g.front ++ g.inner)[i]? = some s →
      s.Performs e role →
      role = .plain ∨ role = .loop →
      (t.replace parent header g).part (t.size + i) = if role = .plain then .shorthand
        else .loop := by
    intro i s role hi hs hrole
    rw [← Node.part_of_performs (rfl : (generatedNode header s).origin = .expanded) hs hrole]
    exact Node.eq_of_unlinked (node_replace_new g t parent header hi) Node.part
  have hall : ∀ {s}, g.head = some s → g.front ++ g.inner = g.before ++ s :: g.round := by
    intro s hs
    simp [Generated.front, Generated.inner, hs]
  refine ⟨hpart, ?_, ?_, ?_, ?_, ?_⟩
  · exact congrArg Node.part (node_replace_header g parent hheader)
  · intro j hj hne
    exact Node.eq_of_unlinked (node_replace_old g parent hj hne) Node.part
  · intro j hj
    obtain ⟨i, hi, rfl⟩ := mem_range'_iff.mp hj
    have hget : (g.front ++ g.inner)[i]? = some g.before[i] := by
      rw [Generated.front, List.append_assoc, List.getElem?_append_left hi,
        List.getElem?_eq_getElem hi]
    rw [hnew hget (hg.before _ (List.getElem_mem hi)) (.inl rfl), if_pos rfl]
  · intro hsome
    obtain ⟨s, hs⟩ := Option.isSome_iff_exists.mp hsome
    have hget : (g.front ++ g.inner)[g.before.length]? = some s := by rw [hall hs]; simp
    rw [hnew hget (hg.head s hs) (.inr rfl)]
    rfl
  · intro hsome j hj
    obtain ⟨s, hs⟩ := Option.isSome_iff_exists.mp hsome
    obtain ⟨i, hi, rfl⟩ := mem_range'_iff.mp hj
    have hget : (g.front ++ g.inner)[g.before.length + (i + 1)]? = some g.round[i] := by
      rw [hall hs, List.getElem?_append_right (Nat.le_add_right _ _), Nat.add_sub_cancel_left,
        List.getElem?_cons_succ, List.getElem?_eq_getElem hi]
    have hplace : t.size + g.before.length + 1 + i = t.size + (g.before.length + (i + 1)) := by
      omega
    rw [hplace, hnew hget (hg.round _ (List.getElem_mem hi)) (.inl rfl), if_pos rfl]

theorem Tree.prepared_replace (hg : g.WellFormed e) (parent : NodeId) (hheader : header < t.size)
    (hpending : Session.isPendingShorthand (t.node header) = true)
    (h : ∀ id, (t.node id).Prepared e) (id : NodeId) :
    ((t.replace parent header g).node id).Prepared e := by
  simp only [Session.isPendingShorthand, Bool.and_eq_true, Bool.not_eq_true', beq_iff_eq,
    Option.isNone_iff_eq_none] at hpending
  obtain ⟨⟨⟨_, hcommented⟩, hdiagnostic⟩, hform⟩ := hpending
  rcases replace_cases g parent hheader id with ⟨_, hnode⟩ | ⟨rfl, hnode⟩ | ⟨i, s, _, hi, hnode⟩
  · exact (h id).congr hnode.symm
  · exact ((Node.prepared_unlinked.mpr (h id)).retired hcommented hdiagnostic hform).congr
      hnode.symm
  · exact (Node.prepared_generated (hg.performs hi) header).congr hnode.symm

end Replace

/-! ## Where generated nodes stand -/

def Generated.StandFor (e : Setting) (s : Statement) (g : Generated) : Prop :=
  ∃ names names' x, s.plan names = .ok (x, names') ∧ g.IsRead e s.line x

namespace Tree

/-- The node comes behind a shorthand, with nothing in between but nodes generated from it. -/
def Trails (t : Tree) (ids : List NodeId) (header id : NodeId) : Prop :=
  ∃ a m b, ids = a ++ header :: (m ++ id :: b) ∧
    ∀ j ∈ m, (t.node j).origin = .expanded ∧ (t.node j).header = some header

/-- Putting nodes behind another shorthand does not part a node from its own. -/
theorem Trails.insertAfter {t u : Tree} {ids : List NodeId} {header id target : NodeId}
    (h : t.Trails ids header id) (added : List NodeId) (hheader : header ≠ target)
    (hid : id ≠ target) (htarget : (t.node target).origin ≠ .expanded)
    (hkept : ∀ j ∈ ids, j ≠ target → (u.node j).origin = (t.node j).origin ∧
      (u.node j).header = (t.node j).header) :
    u.Trails (Forest.insertAfter target added ids) header id := by
  obtain ⟨a, m, b, rfl, hm⟩ := h
  have hnot : target ∉ m := fun hc => htarget (hm target hc).1
  refine ⟨Forest.insertAfter target added a, m, Forest.insertAfter target added b, ?_, ?_⟩
  · have hmiddle := Forest.insertAfter_of_notMem added hnot
    simp only [Forest.insertAfter] at hmiddle ⊢
    simp only [List.flatMap_append, List.flatMap_cons, if_neg hheader, if_neg hid, hmiddle,
      List.cons_append, List.nil_append]
  · intro j hj
    obtain ⟨horigin, hfrom⟩ := hkept j (by simp [hj]) fun hc => hnot (hc ▸ hj)
    rw [horigin, hfrom]
    exact hm j hj

/-- Nodes that are put behind their shorthand come behind it. -/
theorem trails_of_insertAfter {u : Tree} {ids : List NodeId} {header next : NodeId} {n i : Nat}
    (hnodup : ids.Nodup) (hheader : header ∈ ids) (hi : i < n)
    (hnew : ∀ j < n, (u.node (next + j)).origin = .expanded ∧
      (u.node (next + j)).header = some header) :
    u.Trails (Forest.insertAfter header (List.range' next n) ids) header (next + i) := by
  obtain ⟨a, b, rfl⟩ := List.append_of_mem hheader
  rw [List.nodup_append, List.nodup_cons] at hnodup
  have hbefore : header ∉ a := fun hc => hnodup.2.2 header hc header (by simp) rfl
  have hrange : List.range' next n = List.range' next i ++
      (next + i) :: List.range' (next + i + 1) (n - i - 1) := by
    obtain ⟨k, rfl⟩ : ∃ k, n = i + (k + 1) := ⟨n - i - 1, by omega⟩
    rw [← List.range'_append_1, List.range'_succ]
    congr 3
    omega
  refine ⟨a, List.range' next i, List.range' (next + i + 1) (n - i - 1) ++ b, ?_, ?_⟩
  · rw [Forest.insertAfter_split _ hbefore hnodup.2.1.1, hrange]
    simp
  · intro j hj
    obtain ⟨k, hk, rfl⟩ := mem_range'_iff.mp hj
    exact hnew k (Nat.lt_trans hk hi)

end Tree

/-! ## All expansions -/

namespace Session

/-- The node `id` stands for the shorthand `head`, which was a node of the script `t`. -/
structure Stems (e : Setting) (t : Tree) (s : Session) (g : Forest) (id head : NodeId) : Prop where
  header : (s.node id).header = some head
  retired : (s.node head).origin = .header
  statement : ∃ x : Generated, x.StandFor e (t.node head).statement ∧
    (s.node id).statement ∈ x.front ++ x.inner
  trails : s.tree.Trails g.ids head id

theorem Stems.head_mem {e : Setting} {t : Tree} {s : Session} {g : Forest} {id head : NodeId}
    (h : Stems e t s g id head) :
    head ∈ g.ids := by
  obtain ⟨a, m, b, hsplit, -⟩ := h.trails
  simp [hsplit]

def isFrom (s : Session) (head id : NodeId) : Bool :=
  (s.node id).origin == .expanded && (s.node id).header == some head

/-- Where the nodes come from. The script had the tree `t` of the shape `f`, now the tree has the
shape `g`. -/
structure Provenance (e : Setting) (t : Tree) (f : Forest) (s : Session) (g : Forest) : Prop where
  /-- Lines of the script are as they were. -/
  source : ∀ id, (s.node id).origin = .source → (t.node id).origin = .source ∧
    (s.node id).statement = (t.node id).statement ∧ (s.node id).diagnostic = (t.node id).diagnostic
  /-- A shorthand that was expanded is as it was, but no longer executed. -/
  retired : ∀ id, (s.node id).origin = .header → isPendingShorthand (t.node id) = true ∧
    (s.node id).statement = { (t.node id).statement with kind := .auxiliary }
  generated : ∀ id, (s.node id).origin = .expanded → ∃ head, Stems e t s g id head
  /-- All statements that stand for a shorthand are there, in their order. -/
  whole : ∀ head, (s.node head).origin = .header →
  ∃ x : Generated, x.StandFor e (t.node head).statement ∧
    (g.ids.filter (s.isFrom head)).map (fun id => (s.node id).statement) = x.front ++ x.inner
  /-- The lines come in their order. -/
  written : (g.ids.filter fun id => !(s.node id).origin.isGenerated) =
    f.ids.filter fun id => !(t.node id).origin.isGenerated

namespace Provenance

variable {e : Setting} {t : Tree} {f g : Forest} {s s' : Session} {header : NodeId}

/-- What is found out about the nodes does not change where they come from. -/
theorem alike (h : Provenance e t f s g) (halike : s.tree.Alike s'.tree) :
    Provenance e t f s' g := by
  have horigin : ∀ id, (s'.node id).origin = (s.node id).origin :=
    fun id => (halike.origin_eq id).symm
  have hstatement : ∀ id, (s'.node id).statement = (s.node id).statement :=
    fun id => (halike.statement_eq id).symm
  have hheader : ∀ id, (s'.node id).header = (s.node id).header :=
    fun id => (halike.header_eq id).symm
  have hdiagnostic : ∀ id, (s'.node id).diagnostic = (s.node id).diagnostic :=
    fun id => (halike.node id).diagnostic.symm
  refine ⟨?_, ?_, ?_, ?_, ?_⟩
  · simpa only [horigin, hstatement, hdiagnostic] using h.source
  · simpa only [horigin, hstatement] using h.retired
  · intro id hid
    obtain ⟨head, hstems⟩ := h.generated id (horigin id ▸ hid)
    obtain ⟨a, m, b, hsplit, hm⟩ := hstems.trails
    refine ⟨head, (hheader id).trans hstems.header, (horigin head).trans hstems.retired,
      (hstatement id).symm ▸ hstems.statement, a, m, b, hsplit, fun j hj => ?_⟩
    exact ⟨(horigin j).trans (hm j hj).1, (hheader j).trans (hm j hj).2⟩
  · intro head hhead
    have hfrom : s'.isFrom head = s.isFrom head := by
      funext id
      rw [isFrom, isFrom, horigin, hheader]
    simp only [hfrom, hstatement]
    exact h.whole head (horigin head ▸ hhead)
  · simp only [horigin]
    exact h.written

theorem isFrom_replace_new {x : Generated} (parent : NodeId) (names : NameSupply) {i : Nat}
    (hi : i < (x.front ++ x.inner).length) (head : NodeId) :
    isFrom { s with names, tree := s.tree.replace parent header x } head (s.tree.size + i) =
      decide (header = head) := by
  have hnode := Tree.node_replace_new x s.tree parent header (List.getElem?_eq_getElem hi)
  have hnew : ((s.tree.replace parent header x).node (s.tree.size + i)).origin = .expanded :=
    congrArg Node.origin hnode
  have hfrom : ((s.tree.replace parent header x).node (s.tree.size + i)).header = some header :=
    congrArg Node.header hnode
  rw [isFrom, node, hnew, hfrom]
  by_cases hhead : header = head <;> simp [hhead]

/-- The nodes that were there are from where they were. -/
theorem isFrom_replace_old {x : Generated} (hspans : s.tree.Spans g)
    (horigin : (s.node header).origin = .source) (parent : NodeId) (names : NameSupply) {j : NodeId}
    (hj : j ∈ g.ids) (head : NodeId) :
    isFrom { s with names, tree := s.tree.replace parent header x } head j = s.isFrom head j := by
  have hlt : ∀ j ∈ g.ids, j < s.tree.size := fun j hj => hspans.lt_size hj
  by_cases hne : j = header
  · subst hne
    have hretired : ((s.tree.replace parent j x).node j).origin = .header :=
      congrArg Node.origin (Tree.node_replace_header x parent (hlt j hj))
    rw [isFrom, isFrom, node, hretired, horigin]
    rfl
  · have hnode := Tree.node_replace_old x parent (hlt j hj) hne
    rw [isFrom, isFrom, node, Node.eq_of_unlinked hnode Node.origin,
      Node.eq_of_unlinked hnode Node.header]
    rfl

theorem not_isFrom (h : Provenance e t f s g) (horigin : (s.node header).origin = .source)
    (j : NodeId) :
    s.isFrom header j = false := by
  rw [Bool.eq_false_iff]
  intro hfrom
  simp only [isFrom, Bool.and_eq_true, beq_iff_eq] at hfrom
  obtain ⟨head, hstems⟩ := h.generated j hfrom.1
  obtain rfl : header = head := Option.some.inj (hfrom.2.symm.trans hstems.header)
  cases hstems.retired.symm.trans horigin

/-- All statements that stand for the shorthand are put into the tree. -/
theorem whole_replace (h : Provenance e t f s g) (hspans : s.tree.Spans g)
    (hheader : header ∈ g.ids) (horigin : (s.node header).origin = .source) {x : Generated}
    (hx : x.StandFor e (s.node header).statement) (parent : NodeId) (names : NameSupply)
    (head : NodeId) (hhead : ((s.tree.replace parent header x).node head).origin = .header) :
    ∃ y : Generated, y.StandFor e (t.node head).statement ∧
      ((Forest.insertAfter header (List.range' s.tree.size (x.front ++ x.inner).length)
        g.ids).filter
        (isFrom { s with names, tree := s.tree.replace parent header x } head)).map
          (fun id => ((s.tree.replace parent header x).node id).statement) =
            y.front ++ y.inner := by
  have hnodup := hspans.nodup_ids
  have hsize : ∀ j ∈ g.ids, j < s.tree.size := fun j hj => hspans.lt_size hj
  have hadded : ∀ j ∈ List.range' s.tree.size (x.front ++ x.inner).length,
      isFrom { s with names, tree := s.tree.replace parent header x } head j =
        decide (header = head) := by
    intro j hj
    obtain ⟨i, hi, rfl⟩ := mem_range'_iff.mp hj
    exact isFrom_replace_new parent names hi head
  have hold : ∀ j ∈ g.ids, isFrom { s with names, tree := s.tree.replace parent header x } head j =
      s.isFrom head j :=
    fun j hj => isFrom_replace_old hspans horigin parent names hj head
  by_cases hne : header = head
  · -- The nodes of this shorthand are the new ones.
    subst hne
    refine ⟨x, (h.source header horigin).2.1 ▸ hx, ?_⟩
    rw [Forest.filter_insertAfter_eq_added (fun j hj => by simp [hadded j hj])
      (fun j hj => (hold j hj).trans (h.not_isFrom horigin j)) hnodup hheader]
    apply List.ext_getElem
    · simp
    · intro i h₁ h₂
      simp only [List.length_map, List.length_range'] at h₁
      simp only [List.getElem_map, List.getElem_range', Nat.one_mul]
      exact congrArg Node.statement (Tree.node_replace_new x s.tree parent header
        (List.getElem?_eq_getElem h₁))
  · -- The nodes of another one are as they were.
    rw [Forest.filter_insertAfter _ fun j hj => (hadded j hj).trans (by simp [hne]),
      List.filter_congr hold]
    have hretired : (s.node head).origin = .header := by
      rcases Tree.replace_cases x parent (hsize header hheader) head with ⟨_, hnode⟩ | ⟨hc, _⟩ | ⟨_,
        _, _, _, hnode⟩
      · exact (Node.eq_of_unlinked hnode Node.origin).symm.trans hhead
      · exact absurd hc.symm hne
      · cases (congrArg Node.origin hnode).symm.trans hhead
    obtain ⟨y, hy, hall⟩ := h.whole head hretired
    refine ⟨y, hy, hall ▸ List.map_congr_left fun j hj => ?_⟩
    obtain ⟨hmem, hfrom⟩ := List.mem_filter.mp hj
    have hjne : j ≠ header := by
      rintro rfl
      simp only [isFrom, Bool.and_eq_true, beq_iff_eq] at hfrom
      cases hfrom.1.symm.trans horigin
    exact Node.eq_of_unlinked (Tree.node_replace_old x parent (hsize j hmem) hjne) Node.statement

/-- A shorthand that waits was there from the start. -/
theorem isPendingShorthand_eq (h : Provenance e t f s g)
    (hpending : isPendingShorthand (s.node header) = true) :
    isPendingShorthand (t.node header) = true := by
  have horigin : (s.node header).origin = .source := origin_of_pending hpending
  obtain ⟨hsource, hstatement, hdiagnostic⟩ := h.source header horigin
  simp only [isPendingShorthand, horigin, hsource, hstatement, hdiagnostic] at hpending ⊢
  exact hpending

/-- What a replacement puts in the place of a shorthand stems from it. -/
theorem replace (h : Provenance e t f s g) (hspans : s.tree.Spans g) (hheader : header ∈ g.ids)
    (hpending : isPendingShorthand (s.node header) = true) {x : Generated}
    (hx : x.StandFor e (s.node header).statement)
    (hbelow : x.head = none → s.tree.children header = #[]) (parent : NodeId) (names : NameSupply) :
    Provenance e t f { s with names, tree := s.tree.replace parent header x }
      (g.alter header (x.shape header s.tree.size)) := by
  have hgnodup := hspans.nodup_ids
  have hsize : ∀ j ∈ g.ids, j < s.tree.size := fun j hj => hspans.lt_size hj
  have hlt := hsize header hheader
  have horigin : (s.node header).origin = .source := origin_of_pending hpending
  obtain ⟨-, hstatement, -⟩ := h.source header horigin
  have hids : (g.alter header (x.shape header s.tree.size)).ids =
      Forest.insertAfter header (List.range' s.tree.size (x.front ++ x.inner).length) g.ids := by
    refine Forest.ids_alter _ (fun below after hhas => x.ids_shape fun hhead => ?_) hgnodup
    rw [← Forest.roots_eq_nil, ← hspans.hangs.children_of_has hhas, hbelow hhead]
  have hcases := Tree.replace_cases x parent hlt
  have hkept : ∀ {j}, j < s.tree.size → j ≠ header →
      ((s.tree.replace parent header x).node j).unlinked = (s.node j).unlinked :=
        Tree.node_replace_old x parent
  have hnew : ∀ j < (x.front ++ x.inner).length,
      ((s.tree.replace parent header x).node (s.tree.size + j)).origin = .expanded ∧
        ((s.tree.replace parent header x).node (s.tree.size + j)).header = some header := by
    intro j hj
    have hnode := Tree.node_replace_new x s.tree parent header (List.getElem?_eq_getElem hj)
    exact ⟨congrArg Node.origin hnode, congrArg Node.header hnode⟩
  refine ⟨?_, ?_, ?_, ?_, ?_⟩
  · intro id
    change ((s.tree.replace parent header x).node id).origin = .source → _ ∧
      ((s.tree.replace parent header x).node id).statement = _ ∧
        ((s.tree.replace parent header x).node id).diagnostic = _
    intro hid
    have hnode := (Tree.replace_source x parent hlt hid).2
    rw [Node.eq_of_unlinked hnode Node.statement, Node.eq_of_unlinked hnode Node.diagnostic]
    exact h.source id ((Node.eq_of_unlinked hnode Node.origin).symm.trans hid)
  · intro id
    change ((s.tree.replace parent header x).node id).origin = .header → _ ∧
      ((s.tree.replace parent header x).node id).statement = _
    intro hid
    rcases hcases id with ⟨_, hnode⟩ | ⟨rfl, hnode⟩ | ⟨_, _, _, _, hnode⟩
    · rw [Node.eq_of_unlinked hnode Node.statement]
      exact h.retired id ((Node.eq_of_unlinked hnode Node.origin).symm.trans hid)
    · refine ⟨h.isPendingShorthand_eq hpending, ?_⟩
      rw [← hstatement]
      exact congrArg Node.statement hnode
    · cases (congrArg Node.origin hnode).symm.trans hid
  · intro id
    change ((s.tree.replace parent header x).node id).origin = .expanded → _
    intro hid
    rcases hcases id with ⟨hne, hnode⟩ | ⟨_, hnode⟩ | ⟨i, statement, rfl, hi, hnode⟩
    · -- An older node keeps its shorthand, which is another one.
      obtain ⟨head, hstems⟩ :=
        h.generated id ((Node.eq_of_unlinked hnode Node.origin).symm.trans hid)
      have hhead : head ≠ header := by
        rintro rfl
        cases hstems.retired.symm.trans horigin
      refine ⟨head, ?_, ?_, ?_, ?_⟩
      · exact (Node.eq_of_unlinked hnode Node.header).trans hstems.header
      · exact (Node.eq_of_unlinked (hkept (hsize head hstems.head_mem) hhead) Node.origin).trans
          hstems.retired
      · obtain ⟨y, hy, hmem⟩ := hstems.statement
        exact ⟨y, hy, (Node.eq_of_unlinked hnode Node.statement).symm ▸ hmem⟩
      · rw [hids]
        refine hstems.trails.insertAfter _ hhead hne (fun hc => ?_) fun j hj hjne => ⟨?_, ?_⟩
        · cases hc.symm.trans horigin
        · exact Node.eq_of_unlinked (hkept (hsize j hj) hjne) Node.origin
        · exact Node.eq_of_unlinked (hkept (hsize j hj) hjne) Node.header
    · cases (congrArg Node.origin hnode).symm.trans hid
    · have hlength : i < (x.front ++ x.inner).length := (List.getElem?_eq_some_iff.mp hi).1
      refine ⟨header, (hnew i hlength).2, ?_, ⟨x, hstatement ▸ hx, ?_⟩, ?_⟩
      · exact congrArg Node.origin (Tree.node_replace_header x parent hlt)
      · have hread : ((s.tree.replace parent header x).node (s.tree.size + i)).statement =
            statement :=
          congrArg Node.statement hnode
        exact hread ▸ List.mem_of_getElem? hi
      · rw [hids]
        exact Tree.trails_of_insertAfter hgnodup hheader hlength hnew
  · rw [hids]
    exact h.whole_replace hspans hheader horigin hx parent names
  · rw [hids, Forest.filter_insertAfter, ← h.written]
    · refine List.filter_congr fun j hj => ?_
      change (!((s.tree.replace parent header x).node j).origin.isGenerated) = _
      by_cases hne : j = header
      · rw [hne, horigin]
        exact congrArg (fun n : Node => !n.origin.isGenerated)
          (Tree.node_replace_header x parent hlt)
      · rw [Node.eq_of_unlinked (hkept (hsize j hj) hne) Node.origin]
    · intro j hj
      obtain ⟨i, hi, rfl⟩ := mem_range'_iff.mp hj
      change (!((s.tree.replace parent header x).node (s.tree.size + i)).origin.isGenerated) = false
      rw [(hnew i hi).1]
      rfl

end Provenance

/-- A session in the middle of an expansion. The script had the tree `t` of the shape `f`, now the
tree has the shape `g`, and the shorthands `rest` are left. -/
structure Expanding (e : Setting) (t : Tree) (f : Forest) (s : Session) (g : Forest)
    (rest : List NodeId) :
    Prop where
  spans : s.tree.Spans g
  prepared : ∀ id, (s.node id).Prepared e
  root : s.tree.part Tree.root = .idle
  waiting : ∀ id ∈ rest, id ∈ g.ids ∧ isPendingShorthand (s.node id) = true
  nodup : rest.Nodup
  provenance : Provenance e t f s g
  /-- Nothing hangs below a `dim`. -/
  childless : ∀ id, isPendingShorthand (s.node id) = true →
    (s.node id).statement.form.isLoopShorthand = false →
    s.tree.children id = #[]
  block : Block t.part false false .script f → Block s.tree.part false false .script g
  sound : Sound s.tree.part false false false g → Sound t.part false false false f
  /-- Only shorthands with a reported problem stay as they are. -/
  settled : s.log = #[] → ∀ id, isPendingShorthand (s.node id) = true → id ∈ rest
  errors : s.log = #[] → ∀ id, (s.node id).hasError = false
  symbols : s.symbols = .empty
  labels : s.labels = ∅
  /-- What stands outside of all blocks stays there. -/
  roots : f.roots ⊆ g.roots

namespace Unfolds

variable {e : Setting} {s s' : Session} {g g' : Forest} {header : NodeId} {x : Expansion}
  {names : NameSupply} {y : Generated}

theorem replaced_of_read (h : Unfolds e s g header s' g')
    (hplan : (s.node header).statement.plan s.names = .ok (x, names))
    (hread : Generated.read e (s.node header).statement.line x = .ok y) : ∃ parent,
      s' = { s with names, tree := s.tree.replace parent header y } ∧
      g' = g.alter header (y.shape header s.tree.size) := by
  cases h with
  | reported p hfails =>
    rcases hfails with ⟨hrefused, -⟩ | ⟨z, hok, hunread⟩
    · cases hrefused.symm.trans hplan
    · obtain ⟨rfl, rfl⟩ := Prod.mk.inj (Except.ok.inj (hok.symm.trans hplan))
      cases hunread.symm.trans hread
  | @replaced _ _ _ hok hisRead parent _ =>
    obtain ⟨rfl, rfl⟩ := Prod.mk.inj (Except.ok.inj (hok.symm.trans hplan))
    obtain rfl := Except.ok.inj ((Generated.isRead_iff.mpr hisRead).symm.trans hread)
    exact ⟨parent, rfl, rfl⟩

end Unfolds

namespace Expanding

variable {e : Setting} {t : Tree} {f g : Forest} {s : Session} {header : NodeId}
  {rest : List NodeId}

theorem report (h : Expanding e t f s g (header :: rest)) (p : Problem) :
    Expanding e t f (s.report header p) g rest := by
  have hread : ∀ {α : Type} (read : Node → α) (id : NodeId),
      (∀ n, read { n with hasError := true } = read n) →
      read ((s.report header p).node id) = read (s.node id) :=
    fun read id hread => Tree.read_modify s.tree header id read hread
  have halike : s.tree.Alike (s.report header p).tree :=
    .modify _ _ fun _ => ⟨rfl, rfl, rfl, rfl, rfl, rfl⟩
  have hlog : (s.report header p).log ≠ #[] := by simp [Session.report]
  refine ⟨h.spans.alike halike, ?_, halike.part_eq ▸ h.root, ?_, (List.nodup_cons.mp h.nodup).2,
    h.provenance.alike halike, ?_, halike.part_eq ▸ h.block, halike.part_eq ▸ h.sound,
    fun hc => absurd hc hlog,
    fun hc => absurd hc hlog, h.symbols, h.labels, h.roots⟩
  · intro id
    change ((s.tree.modify header _).node id).Prepared e
    rw [Tree.node_modify]
    split
    · exact (h.prepared id).reported
    · exact h.prepared id
  · intro id hid
    rw [hread isPendingShorthand id fun _ => rfl]
    exact h.waiting id (by simp [hid])
  · intro id
    rw [hread isPendingShorthand id fun _ => rfl, hread Node.statement id fun _ => rfl,
      ← halike.children_eq]
    exact h.childless id

theorem replace (h : Expanding e t f s g (header :: rest)) {x : Generated} (hx : x.WellFormed e)
    (hstands : x.StandFor e (s.node header).statement)
    (hloop : (s.node header).statement.form.isLoopShorthand = x.head.isSome)
    (hpart : s.tree.part header = if x.head.isSome then .loop else .shorthand) {parent : NodeId}
    (hparent : s.tree.parent? header = some parent) (names : NameSupply) :
    Expanding e t f { s with names, tree := s.tree.replace parent header x }
      (g.alter header (x.shape header s.tree.size)) rest := by
  obtain ⟨hheader, hpending⟩ := h.waiting header (by simp)
  obtain ⟨hnot, hnodup⟩ := List.nodup_cons.mp h.nodup
  have hsize : ∀ j ∈ g.ids, j < s.tree.size := fun j hj => h.spans.lt_size hj
  have hlt := hsize header hheader
  have hgnodup := h.spans.nodup_ids
  have hrecasts := Tree.recasts_replace hx parent hlt hpart
  have hold : ∀ {j}, j < s.tree.size → j ≠ header →
      ((s.tree.replace parent header x).node j).unlinked =
      (s.tree.node j).unlinked := fun hj hne => Tree.node_replace_old x parent hj hne
  have hroot : Tree.root ≠ header := by
    rintro rfl
    exact (List.nodup_cons.mp h.spans.nodup).1 hheader
  have hrootSize : Tree.root < s.tree.size := (h.spans.covers _).mpr (by simp)
  have hbelow : x.head = none → s.tree.children header = #[] := by
    intro hhead
    apply h.childless header hpending
    rw [hloop, hhead]
    rfl
  refine ⟨h.spans.replace x hheader hparent, Tree.prepared_replace hx parent hlt hpending
    h.prepared, ?_, ?_, hnodup,
    h.provenance.replace h.spans hheader hpending hstands hbelow parent names, ?_,
    fun hb => (h.block hb).alter hrecasts hgnodup hsize,
    fun hs => h.sound (hs.of_alter hrecasts hgnodup hsize), ?_, ?_, h.symbols, h.labels, ?_⟩
  · exact (Node.eq_of_unlinked (hold hrootSize hroot) Node.part).trans h.root
  · intro id hid
    obtain ⟨hmem, hwaits⟩ := h.waiting id (by simp [hid])
    refine ⟨(x.mem_ids_alter hgnodup hheader).mpr (.inr hmem), ?_⟩
    have hne : id ≠ header := by
      rintro rfl
      exact hnot hid
    exact (Node.eq_of_unlinked (hold (hsize id hmem) hne) isPendingShorthand).trans hwaits
  · intro id
    change isPendingShorthand ((s.tree.replace parent header x).node id) = true →
      ((s.tree.replace parent header x).node id).statement.form.isLoopShorthand = false →
        (s.tree.replace parent header x).children id = #[]
    intro hid hform
    obtain ⟨hne, hnode⟩ := Tree.replace_source x parent hlt (origin_of_pending hid)
    rw [Node.eq_of_unlinked hnode isPendingShorthand] at hid
    rw [Node.eq_of_unlinked hnode Node.statement] at hform
    have hidSize : id < s.tree.size := by
      by_contra hge
      rw [Tree.node_of_size_le (Nat.le_of_not_lt hge)] at hid
      cases hid
    rw [← Array.toList_eq_nil_iff, h.spans.children_replace x hheader hparent,
      if_neg (Tree.owner_ne x hidSize hne), if_neg hne, h.childless id hid hform]
    rfl
  · intro hlog id
    change isPendingShorthand ((s.tree.replace parent header x).node id) = true → _
    intro hid
    obtain ⟨hne, hnode⟩ := Tree.replace_source x parent hlt (origin_of_pending hid)
    rw [Node.eq_of_unlinked hnode isPendingShorthand] at hid
    exact (List.mem_cons.mp (h.settled hlog id hid)).resolve_left hne
  · intro hlog id
    change ((s.tree.replace parent header x).node id).hasError = false
    rcases Tree.replace_cases x parent hlt id with ⟨_, hnode⟩ | ⟨_, hnode⟩ | ⟨_, _, _, _, hnode⟩
    · exact (Node.eq_of_unlinked hnode Node.hasError).trans (h.errors hlog id)
    · exact (congrArg Node.hasError hnode).trans (h.errors hlog id)
    · exact congrArg Node.hasError hnode
  · rw [Forest.roots_alter _ (x.roots_shape header s.tree.size) hgnodup]
    exact List.Subset.trans h.roots (Forest.subset_insertAfter header _ g.roots)

theorem withNames (h : Expanding e t f s g rest) (names : NameSupply) :
    Expanding e t f { s with names } g rest :=
  { h with provenance := h.provenance.alike (.refl _) }

theorem generated (hg : e.grammar.Lawful) (h : Expanding e t f s g (header :: rest)) {x : Expansion}
    {names : NameSupply} (hplan : (s.node header).statement.plan s.names = .ok (x, names))
    {y : Generated} (hread : y.IsRead e (s.node header).statement.line x) :
    y.WellFormed e ∧ (s.node header).statement.form.isLoopShorthand = y.head.isSome ∧
      s.tree.part header = if y.head.isSome then .loop else .shorthand := by
  obtain ⟨_, hpending⟩ := h.waiting header (by simp)
  obtain ⟨hgenerated, hhead⟩ :=
    Generated.wellFormed_of_isRead hg (h.prepared header) hpending hplan hread
  refine ⟨hgenerated, hhead.symm, ?_⟩
  rw [hhead]
  exact (h.prepared header).part_of_pending hg hpending

theorem step (hg : e.grammar.Lawful) (h : Expanding e t f s g (header :: rest)) :
    ∃ s' g', expandOne e s header = .ok s' ∧ Unfolds e s g header s' g' ∧
      Expanding e t f s' g' rest := by
  obtain ⟨s', hone⟩ := exists_expandOne (e := e) h.spans (h.waiting header (by simp)).1
  obtain ⟨g', hunfolds⟩ := unfolds_of_expandOne g hone
  refine ⟨s', g', hone, hunfolds, ?_⟩
  cases hunfolds with
  | reported p _ => exact (h.withNames _).report p
  | @replaced x names y hplan hread parent hparent =>
    obtain ⟨hgenerated, hloop, hpart⟩ := h.generated hg hplan hread
    exact h.replace hgenerated ⟨_, _, x, hplan, hread⟩ hloop hpart hparent names

/-- What every step keeps holds after the expansion. -/
theorem run_keeps (hg : e.grammar.Lawful) {P : Session → Forest → List NodeId → Prop}
    (hstep : ∀ {s g header rest s' g'}, Expanding e t f s g (header :: rest) →
      P s g (header :: rest) →
      Unfolds e s g header s' g' → P s' g' rest)
    (h : Expanding e t f s g rest) (hP : P s g rest) :
    ∃ s' g', rest.foldlM (expandOne e) s = .ok s' ∧ Expanding e t f s' g' [] ∧ P s' g' [] := by
  induction rest generalizing s g with
  | nil => exact ⟨s, g, rfl, h, hP⟩
  | cons header rest ih =>
    obtain ⟨s₁, g₁, hone, hunfolds, h₁⟩ := h.step hg
    obtain ⟨s₂, g₂, hrun, h₂, hP₂⟩ := ih h₁ (hstep h hP hunfolds)
    refine ⟨s₂, g₂, ?_, h₂, hP₂⟩
    rw [List.foldlM_cons, hone]
    exact hrun

theorem run (hg : e.grammar.Lawful) (h : Expanding e t f s g rest) :
    ∃ s' g', rest.foldlM (expandOne e) s = .ok s' ∧ Expanding e t f s' g' [] := by
  obtain ⟨s', g', hrun, h', -⟩ :=
    h.run_keeps (P := fun _ _ _ => True) hg (fun _ _ _ => trivial) trivial
  exact ⟨s', g', hrun, h'⟩

end Expanding

/-- The tree of a script holds its lines and hidden jumps. -/
theorem start_provenance (e : Setting) (lines : List String) (f : Forest) :
    Provenance e (buildTree e lines) f (Session.start (buildTree e lines)).seedNames f := by
  have horigin : ∀ id, ((buildTree e lines).node id).origin ≠ .header ∧
      ((buildTree e lines).node id).origin ≠ .expanded := by
    refine fun id => nest_forall (P := fun n => n.origin ≠ .header ∧
      n.origin ≠ .expanded) (by decide) (fun _ => by simp)
      (fun r _ => ?_) id
    constructor <;> intro hc <;> cases hc
  exact ⟨fun id hid => ⟨hid, rfl, rfl⟩, fun id hid => absurd hid (horigin id).1,
    fun id hid => absurd hid (horigin id).2, fun id hid => absurd hid (horigin id).1, rfl⟩

theorem start_expanding {e : Setting} (hg : e.grammar.Lawful) (lines : List String) {f : Forest}
    (hf : (buildTree e lines).Spans f) :
    Expanding e (buildTree e lines) f (Session.start (buildTree e lines)).seedNames f
      ((buildTree e lines).preorder.filter fun id =>
        isPendingShorthand ((buildTree e lines).node id)) := by
  have hclean : ∀ id, ((buildTree e lines).node id).hasError = false :=
    fun id => nest_forall (P := fun n => n.hasError = false) rfl (fun _ => rfl) (fun _ _ => rfl) id
  have hids := hf.preorder_eq
  have hpart : ∀ id, isPendingShorthand ((buildTree e lines).node id) = true →
      (buildTree e lines).part id =
      if ((buildTree e lines).node id).statement.form.isLoopShorthand then .loop else .shorthand :=
    fun id hid => (nest_prepared e lines id).part_of_pending hg hid
  have hmem : ∀ id, isPendingShorthand ((buildTree e lines).node id) = true → id ∈ f.ids := by
    intro id hid
    have hne : (buildTree e lines).node id ≠ default := by
      intro hc
      rw [hc] at hid
      cases hid
    have hlt : id < (buildTree e lines).size := by
      by_contra hge
      exact hne (Tree.node_of_size_le (Nat.le_of_not_lt hge))
    rcases List.mem_cons.mp ((hf.covers id).mp hlt) with rfl | hmem
    · have hidle : (buildTree e lines).part Tree.root = .idle := nest_part_root _
      have hpart := hpart _ hid
      rw [hidle] at hpart
      split at hpart <;> cases hpart
    · exact hmem
  refine ⟨hf, nest_prepared e lines, nest_part_root _, ?_, ?_, start_provenance e lines f, ?_,
    fun hb => hb, fun hs => hs, ?_, fun _ => hclean, rfl, rfl, List.Subset.refl _⟩
  · intro id hid
    rw [hids, List.mem_filter] at hid
    exact hid
  · rw [hids]
    exact hf.nodup_ids.filter _
  · intro id hid hform
    have hshorthand : (Tree.nest (Statement.readAll e.grammar e.version lines)).part id =
        .shorthand :=
      (hpart id hid).trans (if_neg (Bool.not_eq_true _ ▸ hform))
    apply nest_childless (readAll_regular e.grammar e.version lines) hf (hmem id hid)
    · rw [hshorthand]
      rfl
    · rw [hshorthand]
      decide
  · intro _ id hid
    rw [hids]
    exact List.mem_filter.mpr ⟨hmem id hid, hid⟩

/-- The expansion of a script never fails. -/
theorem expand_spec {e : Setting} (hg : e.grammar.Lawful) (lines : List String) {f : Forest}
    (hf : (buildTree e lines).Spans f) :
    ∃ s g, (Session.start (buildTree e lines)).expand e = .ok s ∧
      Expanding e (buildTree e lines) f s g [] :=
  (start_expanding hg lines hf).run hg

end Session

end GameScript
