import GameScript.Proofs.Shorthand.Lines
import GameScript.Proofs.Shorthand.Replace

/-!
# Trees that grow

Nesting and expanding change a tree one link at a time. Both keep it a tree, whatever the lines say:
neither the roles of the lines nor the grammar matter.

* `nest_spans_some`: any list of lines is nested into a tree that spans some forest. While a line is
  added, the open blocks are nodes of the tree (`Nesting.Grown`), so that the line finds a parent.
* `Session.expand_spans`: the expansion of a tree never fails, and gives a tree that holds all nodes
  of the old one. What a step can do is told by `Session.Unfolds`.
-/

namespace GameScript

/-! ## Nesting -/

structure Nesting.Grown (n : Nesting) (f : Forest) : Prop where
  spans : n.tree.Spans f
  pending : n.pending ⊆ f.ids

/-- The innermost of some open blocks is a node of the tree. -/
theorem Nesting.top_mem {pending : List NodeId} {f : Forest} (h : pending ⊆ f.ids) :
    top pending ∈ Tree.root :: f.ids := by
  cases pending with
  | nil => exact List.mem_cons_self
  | cons block outer => exact List.mem_cons_of_mem _ (h List.mem_cons_self)

theorem Forest.subset_ids_attach {parent id : NodeId} {f : Forest}
    (hnodup : (Tree.root :: f.ids).Nodup) (hparent : parent ∈ Tree.root :: f.ids) :
    id :: f.ids ⊆ (f.attach parent id).ids :=
  (Forest.ids_attach_perm hnodup hparent).symm.subset

namespace Tree.Loose

variable {t : Tree} {f : Forest} {parent id : NodeId} {spare : List NodeId}

theorem nodup_forest (h : t.Loose f spare) : (root :: f.ids).Nodup :=
  h.nodup.sublist ((List.sublist_append_left f.ids spare).cons_cons root)

/-- A hidden jump goes below a node, whatever waits to be attached. -/
theorem addJump (h : t.Loose f spare) (hparent : parent ∈ root :: f.ids) (line : Nat) :
    (Nesting.addJump t parent line).Loose (f.attach parent t.size) spare :=
  (h.create (n := { statement := .hiddenJump line, origin := .hiddenJump }) rfl).append hparent

/-- The last spare node is attached, and the blocks that stay open are old nodes. -/
theorem grown (h : t.Loose f [id]) (hparent : parent ∈ root :: f.ids) {pending : List NodeId}
    (hpending : pending ⊆ id :: f.ids) :
    Nesting.Grown ⟨t.append parent id, pending⟩ (f.attach parent id) where
  spans := (h.append hparent).spans
  pending := List.Subset.trans hpending (Forest.subset_ids_attach h.nodup_forest hparent)

end Tree.Loose

namespace Nesting

variable {t : Tree} {f : Forest} {pending : List NodeId} {id : NodeId}

theorem closeSkips_subset (t : Tree) (pending : List NodeId) : closeSkips t pending ⊆ pending :=
  (List.dropWhile_sublist _).subset

theorem grown_addAlternative (h : t.Loose f [id]) (hpending : pending ⊆ f.ids) (line : Nat) :
    ∃ g, (addAlternative t pending id line).Grown g := by
  have hopen := List.Subset.trans (closeSkips_subset t pending) hpending
  unfold addAlternative
  split
  · exact ⟨_, h.grown List.mem_cons_self (List.nil_subset _)⟩
  · next block outer hclosed =>
    rw [hclosed] at hopen
    have hblock : block ∈ Tree.root :: f.ids := List.mem_cons_of_mem _ (hopen List.mem_cons_self)
    have houter : outer ⊆ f.ids := List.Subset.trans (List.subset_cons_self _ _) hopen
    split
    · -- The jump is attached first, and the blocks around the branch are still there.
      have hgrown : f.ids ⊆ (f.attach block t.size).ids :=
        List.Subset.trans (List.subset_cons_self _ _)
          (Forest.subset_ids_attach h.nodup_forest hblock)
      have houter' := List.Subset.trans houter hgrown
      exact ⟨_, (h.addJump hblock line).grown (top_mem houter') (List.cons_subset_cons id houter')⟩
    · exact ⟨_, h.grown hblock (List.Subset.trans hopen (List.subset_cons_self _ _))⟩

theorem grown_addEnd (h : t.Loose f [id]) (hpending : pending ⊆ f.ids) (line : Nat) :
    ∃ g, (addEnd t pending id line).Grown g := by
  have hopen := List.Subset.trans (closeSkips_subset t pending) hpending
  unfold addEnd
  split
  · exact ⟨_, h.grown List.mem_cons_self (List.nil_subset _)⟩
  · next block outer hclosed =>
    rw [hclosed] at hopen
    have hblock : block ∈ f.ids := hopen List.mem_cons_self
    have houter : outer ⊆ f.ids := List.Subset.trans (List.subset_cons_self _ _) hopen
    dsimp only
    split
    · have hgrown : f.ids ⊆ (f.attach block t.size).ids :=
        List.Subset.trans (List.subset_cons_self _ _)
          (Forest.subset_ids_attach h.nodup_forest (List.mem_cons_of_mem _ hblock))
      exact ⟨_, (h.addJump (List.mem_cons_of_mem _ hblock) line).grown
        (List.mem_cons_of_mem _ (hgrown hblock))
        (List.Subset.trans houter (List.Subset.trans hgrown (List.subset_cons_self _ _)))⟩
    · exact ⟨_,
        h.grown (List.mem_cons_of_mem _ hblock)
          (List.Subset.trans houter (List.subset_cons_self _ _))⟩

theorem grown_addInner (h : t.Loose f [id]) (hpending : pending ⊆ f.ids) (s : Statement) :
    ∃ g, (addInner t pending id s).Grown g := by
  refine ⟨_, h.grown (top_mem hpending) ?_⟩
  -- A line may end a waiting `skip if` and open a block of its own.
  have hkept : ∀ b : Bool, (if b then pending.drop 1 else pending) ⊆ f.ids := by
    intro b
    cases b with
    | false => exact hpending
    | true => exact List.Subset.trans (List.drop_subset 1 pending) hpending
  split
  · exact List.cons_subset_cons id (hkept _)
  · exact List.Subset.trans (hkept _) (List.subset_cons_self _ _)

/-- Every line keeps the tree a tree. -/
theorem Grown.add {n : Nesting} (h : n.Grown f) (r : Reading) : ∃ g, (n.add r).Grown g := by
  have hspare : (n.tree.create r.node).1.Loose f [n.tree.size] := h.spans.loose.create rfl
  rw [add_eq]
  split
  · exact grown_addAlternative hspare h.pending _
  · split
    · exact grown_addEnd hspare h.pending _
    · exact grown_addInner hspare h.pending _

end Nesting

theorem nest_spans_some (rs : List Reading) : ∃ f, (Tree.nest rs).Spans f := by
  have hrun : ∀ (rs : List Reading) (n : Nesting) (f : Forest), n.Grown f →
      ∃ g, (rs.foldl Nesting.add n).Grown g := by
    intro rs
    induction rs with
    | nil => exact fun n f h => ⟨f, h⟩
    | cons r rest ih =>
      intro n f h
      obtain ⟨g, hg⟩ := h.add r
      exact ih (n.add r) g hg
  have hempty : Nesting.empty.Grown .nil := by
    refine ⟨⟨rfl, rfl, trivial, by simp, fun id => ?_⟩, List.nil_subset _⟩
    simp [Nesting.empty, Tree.size, Tree.empty, Tree.root]
  obtain ⟨g, hg⟩ := hrun rs .empty .nil hempty
  exact ⟨g, hg.spans⟩

/-! ## Expanding -/

namespace Session

variable {e : Setting} {s : Session} {f : Forest}

theorem origin_of_pending {n : Node} (h : isPendingShorthand n = true) : n.origin = .source := by
  simp only [isPendingShorthand, Bool.and_eq_true, beq_iff_eq] at h
  exact h.1.1.1

/-- The shorthand cannot be expanded: there is no plan for it, or the lines of its plan cannot be
read. -/
def Fails (e : Setting) (s : Session) (header : NodeId) (names : NameSupply) (p : Problem) : Prop :=
  ((s.node header).statement.plan s.names = .error p ∧ names = s.names) ∨
    ∃ x, (s.node header).statement.plan s.names = .ok (x, names) ∧
      Generated.read e (s.node header).statement.line x = .error p

/-- What one step of an expansion does to a session and the shape of its tree: the shorthand is
reported, or its statements are put behind it. -/
inductive Unfolds (e : Setting) (s : Session) (g : Forest) (header : NodeId) :
    Session → Forest → Prop
  | reported {names : NameSupply} (p : Problem) (hfails : s.Fails e header names p) :
      Unfolds e s g header (Session.report { s with names } header p) g
  | replaced {x : Expansion} {names : NameSupply} {y : Generated}
      (hplan : (s.node header).statement.plan s.names = .ok (x, names))
      (hread : y.IsRead e (s.node header).statement.line x) {parent : NodeId}
      (hparent : s.tree.parent? header = some parent) :
      Unfolds e s g header { s with names, tree := s.tree.replace parent header y }
        (g.alter header (y.shape header s.tree.size))

variable {s' : Session} {g g' : Forest} {header : NodeId}

/-- A step that does not fail is one of these. -/
theorem unfolds_of_expandOne (g : Forest) (h : s.expandOne e header = .ok s') :
    ∃ g', Unfolds e s g header s' g' := by
  unfold expandOne at h
  dsimp only at h
  split at h
  · next p hplan =>
    cases h
    exact ⟨g, .reported p (.inl ⟨hplan, rfl⟩)⟩
  · next x names hplan =>
    split at h
    · next p hread =>
      cases h
      exact ⟨g, .reported p (.inr ⟨x, hplan, hread⟩)⟩
    · next y hread =>
      split at h
      · cases h
      · next parent hparent =>
        cases h
        exact ⟨_, .replaced hplan (Generated.isRead_iff.mp hread) hparent⟩

/-- A step fails only at the root. -/
theorem exists_expandOne (h : s.tree.Spans g) (hheader : header ∈ g.ids) :
    ∃ s', s.expandOne e header = .ok s' := by
  obtain ⟨parent, hparent⟩ := Option.isSome_iff_exists.mp (h.hangs.parent?_isSome hheader)
  unfold expandOne
  dsimp only
  split
  · exact ⟨_, rfl⟩
  · split
    · exact ⟨_, rfl⟩
    · rw [hparent]
      exact ⟨_, rfl⟩

namespace Unfolds

theorem alike_report (s : Session) (names : NameSupply) (header : NodeId) (p : Problem) :
    s.tree.Alike (Session.report { s with names } header p).tree :=
  .modify _ _ fun _ => ⟨rfl, rfl, rfl, rfl, rfl, rfl⟩

theorem spans (h : Unfolds e s g header s' g') (hg : s.tree.Spans g) (hheader : header ∈ g.ids) :
    s'.tree.Spans g' := by
  cases h with
  | reported p _ => exact hg.alike (alike_report s _ header p)
  | @replaced _ _ y _ _ _ hparent => exact hg.replace y hheader hparent

theorem subset_ids (h : Unfolds e s g header s' g') (hg : s.tree.Spans g)
    (hheader : header ∈ g.ids) : g.ids ⊆ g'.ids := by
  cases h with
  | reported p _ => exact List.Subset.refl _
  | @replaced _ _ y _ _ _ _ =>
    exact fun j hj => (y.mem_ids_alter hg.nodup_ids hheader).mpr (.inr hj)

end Unfolds

/-- The expansion of some shorthands of the tree does not fail, and keeps it a tree. -/
theorem foldlM_expandOne_spans (e : Setting) {headers : List NodeId} (h : s.tree.Spans f)
    (hheaders : headers ⊆ f.ids) :
    ∃ s' g, headers.foldlM (expandOne e) s = .ok s' ∧ s'.tree.Spans g ∧ f.ids ⊆ g.ids := by
  induction headers generalizing s f with
  | nil => exact ⟨s, f, rfl, h, List.Subset.refl _⟩
  | cons header rest ih =>
    have hheader := hheaders List.mem_cons_self
    obtain ⟨u, hone⟩ := exists_expandOne (e := e) h hheader
    obtain ⟨g, hunfolds⟩ := unfolds_of_expandOne f hone
    have hgrown := hunfolds.subset_ids h hheader
    have hrest : rest ⊆ g.ids :=
      List.Subset.trans (List.Subset.trans (List.subset_cons_self _ _) hheaders) hgrown
    obtain ⟨s', g', hfold, hs', hgrown'⟩ := ih (hunfolds.spans h hheader) hrest
    refine ⟨s', g', ?_, hs', List.Subset.trans hgrown hgrown'⟩
    rw [List.foldlM_cons, hone]
    exact hfold

def shorthands (s : Session) : List NodeId :=
  s.tree.preorder.filter fun id => isPendingShorthand (s.node id)

theorem shorthands_subset (h : s.tree.Spans f) : s.shorthands ⊆ f.ids := by
  intro id hid
  rw [← h.preorder_eq]
  exact List.mem_of_mem_filter hid

/-- The expansion of a tree does not fail, and keeps it a tree. -/
theorem expand_spans (e : Setting) (h : s.tree.Spans f) :
    ∃ s' g, s.expand e = .ok s' ∧ s'.tree.Spans g ∧ f.ids ⊆ g.ids :=
  foldlM_expandOne_spans (s := s.seedNames) e h (shorthands_subset h)

end Session

end GameScript
