import GameScript.Proofs.Shorthand.Reports
import GameScript.Proofs.Tree.Growth

/-!
# What the expansion of one shorthand changes

A shorthand that is refused is reported once and marked, and the tree stays as it is. A shorthand
that is replaced changes its own node, the list of children that it stands in and the parents of its
body (`Tree.Replaces`). Both hold for any lines and any grammar: nothing is used but that the tree
has a shape with the shorthand in it, which every step keeps, so each shorthand finds it so when its
turn comes (`expansion_changes_one_shorthand`).
-/

namespace GameScript

/-- The problems of a shorthand that cannot be expanded. -/
theorem Problem.code_of_pass?_eq_none {p : Problem} (h : p.pass? = none) :
    p.code = "MACRO_STEP_ZERO" ∨ p.code = "MACRO_EXPANSION_FAILED" := by
  cases p with
  | stepZero => exact .inl rfl
  | expansionFailed => exact .inr rfl
  | _ => cases h

/-! ## The nodes after a replacement -/

theorem Node.ext_of_unlinked {n m : Node} (h : n.unlinked = m.unlinked)
    (hparent : n.parent = m.parent) (hchildren : n.children = m.children) : n = m := by
  have hlinked : ∀ k : Node, { k.unlinked with parent := k.parent, children := k.children } = k :=
    fun _ => rfl
  rw [← hlinked n, ← hlinked m, h, hparent, hchildren]

namespace Tree

/-- The tree `u` is `t` with these statements in the place of a shorthand. Of the nodes that were
there, the header is retired, its parent has the new nodes behind it, and the body hangs below
another node in its order; all others are as they were. -/
structure Replaces (t u : Tree) (parent header : NodeId) (y : Generated) : Prop where
  size : u.size = t.size + (y.front ++ y.inner).length
  retired : u.node header =
    { (t.node header).retired with children := if y.head.isSome then #[] else t.children header }
  row : ∃ before after, (t.children parent).toList = before ++ header :: after ∧
    u.node parent =
      { t.node parent with
        children := (before ++ header :: (List.range' t.size y.front.length ++ after)).toArray }
  body : ∀ id ∈ (t.children header).toList,
    u.node id = { t.node id with parent := some (y.owner header t.size) }
  order : (u.children (y.owner header t.size)).toList =
    List.range' (t.size + y.front.length) y.inner.length ++ (t.children header).toList
  others : ∀ id < t.size, id ≠ header → id ≠ parent → id ∉ (t.children header).toList →
    u.node id = t.node id
  added : ∀ i s, (y.front ++ y.inner)[i]? = some s →
    (u.node (t.size + i)).unlinked = generatedNode header s

variable {t : Tree} {f : Forest} {parent header : NodeId}

/-- The parent of a node does not hang below it. -/
theorem Spans.parent_notMem_children (h : t.Spans f) (hheader : header ∈ f.ids)
    (hparent : t.parent? header = some parent) : parent ∉ (t.children header).toList := by
  intro hmem
  obtain ⟨hchild, hlt⟩ := h.mem_children hheader hparent
  obtain ⟨row, hrow, hangs, hsub⟩ := h.below hlt
  -- the header hangs below its parent with all that hangs below it
  obtain ⟨below, hbelow, -, hsub'⟩ := hangs.below (Forest.mem_ids_of_mem_roots (hrow ▸ hchild))
  have hdeeper : parent ∈ row.ids :=
    hsub'.subset (List.mem_cons_of_mem _ (Forest.mem_ids_of_mem_roots (hbelow ▸ hmem)))
  exact (List.nodup_cons.mp (h.nodup.sublist hsub)).1 hdeeper

theorem Spans.replaces (h : t.Spans f) (hheader : header ∈ f.ids)
    (hparent : t.parent? header = some parent) (y : Generated) :
    t.Replaces (t.replace parent header y) parent header y := by
  obtain ⟨before, after, hsplit, hbefore, hafter, hparentLt, hne⟩ := h.header_place hheader hparent
  have hlt : header < t.size := h.lt_size hheader
  have hchildren := h.children_replace y hheader hparent
  have hparents := h.parent?_replace y parent hlt
  have hup : ∀ id < t.size, id ∉ (t.children header).toList →
      (t.replace parent header y).parent? id = t.parent? id :=
        fun id hid => h.parent?_replace_old y parent hlt hid
  refine ⟨size_replace y t parent header, ?_, ⟨before, after, hsplit, ?_⟩, ?_, ?_, ?_, ?_⟩
  · refine Node.ext_of_unlinked (node_replace_header y parent hlt)
      (hup header hlt (h.notMem_children_self hlt)) ?_
    rw [← Array.toList_inj]
    refine (hchildren header).trans ?_
    cases hhead : y.head with
    | none => simp [Generated.owner, Generated.inner, hhead]
    | some s =>
      have howner : header ≠ y.owner header t.size := by
        simp only [Generated.owner, hhead, Option.isSome_some, if_true]
        exact Nat.ne_of_lt (Nat.lt_add_right _ hlt)
      simp [howner]
  · refine Node.ext_of_unlinked (node_replace_old y parent hparentLt hne)
      (hup parent hparentLt (h.parent_notMem_children hheader hparent)) ?_
    rw [← Array.toList_inj]
    refine (hchildren parent).trans ?_
    rw [if_neg (owner_ne y hparentLt hne), if_neg hne, hsplit,
      Forest.insertAfter_split _ hbefore hafter]
  · intro id hid
    have hidLt := h.lt_of_mem_children hlt hid
    have hid' : id ≠ header := by
      rintro rfl
      exact h.notMem_children_self hlt hid
    have hid'' : id ≠ parent := by
      rintro rfl
      exact h.parent_notMem_children hheader hparent hid
    exact Node.ext_of_unlinked (node_replace_old y parent hidLt hid')
      ((hparents id).trans (if_pos (.inl hid)))
      (h.children_replace_old y hheader hparent hidLt hid' hid'')
  · rw [hchildren, if_pos rfl]
  · intro id hid hid' hid'' hbody
    exact Node.ext_of_unlinked (node_replace_old y parent hid hid') (hup id hid hbody)
      (h.children_replace_old y hheader hparent hid hid' hid'')
  · exact fun i s hi => node_replace_new y t parent header hi

end Tree

namespace Session

/-! ## One step -/

/-- The shorthand is reported with a problem of expansions, and nothing happens to the tree but that
it is marked. -/
structure Refuses (s : Session) (header : NodeId) (s' : Session) (d : Diagnostic) : Prop where
  code : d.code = "MACRO_STEP_ZERO" ∨ d.code = "MACRO_EXPANSION_FAILED"
  line : d.line = (s.node header).statement.line
  log : s'.log = s.log.push d
  size : s'.tree.size = s.tree.size
  marked : s'.node header = { s.node header with hasError := true }
  others : ∀ id ≠ header, s'.node id = s.node id

/-- Statements that are read from the lines of its expansion take the place of the shorthand, and
nothing is reported. -/
structure Expands (e : Setting) (s : Session) (header : NodeId) (s' : Session) (x : Expansion)
    (y : Generated) (parent : NodeId) : Prop where
  plan : (s.node header).statement.plan s.names = .ok (x, s'.names)
  read : y.IsRead e (s.node header).statement.line x
  above : s.tree.parent? header = some parent
  log : s'.log = s.log
  replaces : s.tree.Replaces s'.tree parent header y

variable {e : Setting} {s s' : Session} {f : Forest} {header : NodeId}

theorem refuses_report {names : NameSupply} {p : Problem} (hp : p.pass? = none)
    (hlt : header < s.tree.size) :
    s.Refuses header (Session.report { s with names } header p)
      (.of p (s.node header).statement.line (s.node header).statement.display) where
  code := Problem.code_of_pass?_eq_none hp
  line := rfl
  log := rfl
  size := Tree.size_modify ..
  marked := Tree.node_modify_self _ _ hlt
  others _ hne := Tree.node_modify_of_ne _ _ hne.symm

/-- A shorthand of the tree is refused or expanded. -/
theorem expandOne_cases (h : s.tree.Spans f) (hheader : header ∈ f.ids)
    (hone : s.expandOne e header = .ok s') :
    (∃ d, s.Refuses header s' d) ∨ ∃ x y parent, s.Expands e header s' x y parent := by
  have hlt : header < s.tree.size := (h.covers header).mpr (List.mem_cons_of_mem _ hheader)
  obtain ⟨_, hunfolds⟩ := unfolds_of_expandOne f hone
  cases hunfolds with
  | reported p hfails => exact .inl ⟨_, refuses_report hfails.pass?_eq_none hlt⟩
  | @replaced x _ y hplan hread parent hparent =>
    exact .inr ⟨x, y, parent, hplan, hread, hparent, rfl, h.replaces hheader hparent y⟩

end Session

/-- Whatever the lines and the grammar, an expansion comes to each shorthand and refuses or expands
it. A shorthand that is refused adds one diagnostic, which tells that its step is zero or that it
cannot be expanded, and changes nothing in the tree but its own mark. One that is expanded adds
none, and of the nodes that were there it changes its header, the children of its parent and the
parents of its body. -/
theorem expansion_changes_one_shorthand (e : Setting) (rs : List Reading) {done rest : List NodeId}
    {header : NodeId} (hshorthands : (Session.start (.nest rs)).seedNames.shorthands =
      done ++ header :: rest) :
    ∃ s s', done.foldlM (Session.expandOne e) (Session.start (.nest rs)).seedNames = .ok s ∧
      s.expandOne e header = .ok s' ∧
      ((∃ d, s.Refuses header s' d) ∨ ∃ x y parent, s.Expands e header s' x y parent) := by
  obtain ⟨f, hf⟩ := nest_spans_some rs
  have hall : (Session.start (.nest rs)).seedNames.shorthands ⊆ f.ids :=
    Session.shorthands_subset hf
  rw [hshorthands, List.append_subset, List.cons_subset] at hall
  obtain ⟨s, g, hdone, hg, hgrown⟩ :=
    Session.foldlM_expandOne_spans (s := (Session.start (.nest rs)).seedNames) e hf hall.1
  obtain ⟨s', hone⟩ := Session.exists_expandOne (e := e) hg (hgrown hall.2.1)
  exact ⟨s, s', hdone, hone, Session.expandOne_cases hg (hgrown hall.2.1) hone⟩

/-- A grammar with loops and expressions only. -/
def countingSetting : Setting where
  grammar := .ofForms [.simple FormId.expression "$0 $1" [.retVarIf, .expression],
    .simple FormId.forLoopStep "for $0 = $1 to $2 step $3" [.var, .number, .number, .number],
    .simple FormId.endBlock "end" []]
  version := .albionPrelude

/-- A loop that cannot be expanded, with one in it that can. -/
def nestedLoops : List Reading := Statement.readAll countingSetting.grammar .albionPrelude
  ["for $i = 9 to 1 step 0", "for $j = 1 to $n step 2", "$x = $j", "end", "end"]

/-- One problem is reported about the outer loop, and none about the inner one. -/
theorem nestedLoops_reported :
    ((Session.start (.nest nestedLoops)).seedNames.expandOne countingSetting 1).toOption.map
      (·.log.size) = some 1 ∧
    ((Session.start (.nest nestedLoops)).seedNames.expandOne countingSetting 1 >>= fun s =>
      s.expandOne countingSetting 2).toOption.map (·.log.size) = some 1 := by
  decide +kernel

/-- The outer loop is refused. The inner one is the second shorthand, its turn comes after the outer
one, and it is expanded. -/
theorem nestedLoops_changed : (Session.start (.nest nestedLoops)).seedNames.shorthands =
    [1] ++ 2 :: [] ∧
    ∃ s s', [1].foldlM (Session.expandOne countingSetting)
    (Session.start (.nest nestedLoops)).seedNames = .ok s ∧
      (∃ d, (Session.start (.nest nestedLoops)).seedNames.Refuses 1 s d) ∧
      s.expandOne countingSetting 2 = .ok s' ∧
      ∃ x y parent, s.Expands countingSetting 2 s' x y parent := by
  have hshorthands : (Session.start (.nest nestedLoops)).seedNames.shorthands = [1] ++ 2 :: [] := by
    decide +kernel
  have hfirst : (Session.start (.nest nestedLoops)).seedNames.shorthands = [] ++ 1 :: [2] :=
    hshorthands
  obtain ⟨_, s, hstart, hone, houter⟩ :=
    expansion_changes_one_shorthand countingSetting nestedLoops hfirst
  obtain rfl := Except.ok.inj hstart
  obtain ⟨s₁, s', hdone, htwo, hinner⟩ :=
    expansion_changes_one_shorthand countingSetting nestedLoops hshorthands
  obtain rfl : s = s₁ := by simpa [hone] using hdone
  obtain ⟨hreported, hquiet⟩ := nestedLoops_reported
  rw [hone] at hreported hquiet
  have hsize : s.log.size = 1 := Option.some.inj hreported
  have hsize' : s'.log.size = 1 := by
    rw [ok_bind, htwo] at hquiet
    exact Option.some.inj hquiet
  -- the number of diagnostics tells a shorthand that is refused from one that is expanded
  refine ⟨hshorthands, s, s', hdone, houter.resolve_right ?_, htwo, hinner.resolve_left ?_⟩
  · rintro ⟨x, y, parent, hexpands⟩
    rw [hexpands.log] at hsize
    cases hsize
  · rintro ⟨d, hrefuses⟩
    rw [hrefuses.log, Array.size_push, hsize] at hsize'
    cases hsize'

end GameScript
