import GameScript.Proofs.Shorthand.Freshness
import GameScript.Proofs.Tree.Growth

/-!
# The variables that loops draw

A counted loop, and a loop over an array that is not given a counter, draw a variable of their own.
The search for its name tries one number after the other and stops at the first name that is not
taken (`NameSupply.fresh_first`). Since all names in the script are taken before the first loop
draws, and a drawn name is taken from then on, the names that the loops of a script draw are new and
differ from each other, whether the loops are expanded in the end or not: `loops_draw_fresh_names`.
-/

namespace GameScript

/-! ## The search for a name -/

namespace NameSupply

/-- The name that is drawn has the first number, from the one to try next, that is not taken. -/
theorem fresh_first (names : NameSupply) : ∃ n, names.next ≤ n ∧ names.fresh.1 = iteratorName n ∧
    iteratorName n ∉ names.used ∧ ∀ m, names.next ≤ m → m < n → iteratorName m ∈ names.used := by
  obtain ⟨hle, hbefore, -⟩ := firstFree_spec names.used names.used.size names.next
  exact ⟨_, hle, rfl, names.fresh_notMem, hbefore⟩

end NameSupply

/-! ## What a shorthand draws -/

/-- The shorthands that need a variable of their own. -/
def FormId.draws (id : FormId) : Bool := id == forLoop || id == forLoopStep || id == forEach

/-- The name that a shorthand draws, unless it is refused. -/
def Statement.drawn? (s : Statement) (names : NameSupply) : Option String :=
  if s.form.draws then (s.plan names).toOption.map fun _ => names.fresh.1 else none

theorem Statement.drawn?_eq (s : Statement) (names : NameSupply) :
    s.drawn? names = none ∨ s.drawn? names = some names.fresh.1 := by
  unfold drawn?
  split
  · cases s.plan names with
    | ok _ => exact .inr rfl
    | error _ => exact .inl rfl
  · exact .inl rfl

/-- A shorthand that draws a name takes it from the supply, and its first line assigns to it. Others
leave the supply as it is. -/
theorem Statement.plan_draws {s : Statement} {names left : NameSupply} {x : Expansion}
    (h : s.plan names = .ok (x, left)) :
    (s.form.draws = true ∧ left = names.fresh.2 ∧
      ∃ value rest, x.before = ("$" ++ names.fresh.1 ++ " = " ++ value) :: rest) ∨
    (s.form.draws = false ∧ left = names) := by
  cases plans_of_plan h with
  | dim hform _ | eachCounter hform _ => exact .inr ⟨by rw [hform]; rfl, rfl⟩
  | @counted _ _ limit _ _ hform _ _ =>
    exact .inl ⟨by rcases hform with hform | hform <;> rw [hform] <;> rfl, rfl, limit.text, _, rfl⟩
  | @each _ array _ hform _ =>
    have hwords : " = size of array " = " = " ++ "size of array " := rfl
    refine .inl ⟨by rw [hform]; rfl, rfl, "size of array " ++ array.text, [], ?_⟩
    simp only [Expansion.each, NameSupply.freshVariable, hwords, String.append_assoc]

namespace Session

def drawn (e : Setting) : Session → List NodeId → List String
  | _, [] => []
  | s, header :: rest =>
    ((s.node header).statement.drawn? s.names).toList ++
      ((s.expandOne e header).toOption.map fun s' => drawn e s' rest).getD []

theorem expandOne_draws {e : Setting} {s s' : Session} {header : NodeId}
    (h : expandOne e s header = .ok s') :
    ((s.node header).statement.drawn? s.names = none ∧ s'.names = s.names) ∨
      ((s.node header).statement.drawn? s.names = some s.names.fresh.1 ∧
        s'.names = s.names.fresh.2) := by
  have hdrawn : ∀ {x : Expansion} {left : NameSupply},
      (s.node header).statement.plan s.names = .ok (x, left) →
      ((s.node header).statement.drawn? s.names = none ∧ left = s.names) ∨
        ((s.node header).statement.drawn? s.names = some s.names.fresh.1 ∧
          left = s.names.fresh.2) := by
    intro x left hplan
    rcases Statement.plan_draws hplan with ⟨hdraws, hleft, -⟩ | ⟨hdraws, hleft⟩
    · exact .inr ⟨by rw [Statement.drawn?, if_pos hdraws, hplan]; rfl, hleft⟩
    · exact .inl ⟨if_neg (by simp [hdraws]), hleft⟩
  obtain ⟨_, hunfolds⟩ := unfolds_of_expandOne .nil h
  cases hunfolds with
  | reported p hfails =>
    rcases hfails with ⟨hplan, rfl⟩ | ⟨x, hplan, -⟩
    · exact .inl ⟨by rw [Statement.drawn?, hplan]; exact ite_self _, rfl⟩
    · exact hdrawn hplan
  | replaced hplan _ _ => exact hdrawn hplan

/-- Names that are drawn were not taken, and no name is drawn twice. -/
theorem drawn_fresh (e : Setting) (s : Session) (ids : List NodeId) :
    (∀ name ∈ s.drawn e ids, name ∉ s.names.used) ∧ (s.drawn e ids).Nodup := by
  induction ids generalizing s with
  | nil => exact ⟨by simp [drawn], List.nodup_nil⟩
  | cons header rest ih =>
    rw [drawn]
    cases hone : s.expandOne e header with
    | error f =>
      rcases (s.node header).statement.drawn?_eq s.names with hnone | hsome
      · simp [hnone, Except.toOption]
      · simp [hsome, Except.toOption, s.names.fresh_notMem]
    | ok s' =>
      obtain ⟨hlater, hnodup⟩ := ih s'
      rcases expandOne_draws hone with ⟨hnone, hnames⟩ | ⟨hsome, hnames⟩
      · rw [hnone, ← hnames]
        exact ⟨hlater, hnodup⟩
      · -- the name is taken when the others are drawn
        rw [hnames] at hlater
        rw [hsome]
        refine ⟨fun name hname => ?_, List.nodup_cons.mpr ⟨fun hmem => ?_, hnodup⟩⟩
        · rcases List.mem_cons.mp hname with rfl | hname
          · exact s.names.fresh_notMem
          · exact fun hused => hlater name hname (NameSupply.mem_used_fresh.mpr (.inr hused))
        · exact hlater _ hmem (NameSupply.mem_used_fresh.mpr (.inl rfl))

/-- The names that are taken after a run are those that were taken before it and those that it
draws. -/
theorem mem_used_foldlM_expandOne {e : Setting} {s s' : Session} {ids : List NodeId}
    (h : ids.foldlM (expandOne e) s = .ok s') (name : String) :
    name ∈ s'.names.used ↔ name ∈ s.names.used ∨ name ∈ s.drawn e ids := by
  induction ids generalizing s with
  | nil =>
    obtain rfl : s = s' := Except.ok.inj h
    simp [drawn]
  | cons header rest ih =>
    rw [List.foldlM_cons, bind_eq_ok_iff] at h
    obtain ⟨s₁, hone, hrest⟩ := h
    have hdrawn : s.drawn e (header :: rest) =
        ((s.node header).statement.drawn? s.names).toList ++ s₁.drawn e rest := by
      rw [drawn, hone]
      rfl
    rw [ih hrest, hdrawn]
    rcases expandOne_draws hone with ⟨hnone, hnames⟩ | ⟨hsome, hnames⟩
    · rw [hnone, hnames]
      simp
    · rw [hsome, hnames, NameSupply.mem_used_fresh]
      simp [or_assoc, or_left_comm]

/-- All names in the lines of a script are taken. -/
theorem mem_used_of_mem_vars (e : Setting) (lines : List String) {id : NodeId} {t : Token}
    (ht : t ∈ ((buildTree e lines).node id).statement.vars) :
    t.value ∈ (Session.start (buildTree e lines)).seedNames.names.used := by
  obtain ⟨f, hf⟩ := nest_spans_some (Statement.readAll e.grammar e.version lines)
  refine mem_foldl_vars.mpr (.inr ⟨id, ?_, t, ht, rfl⟩)
  show id ∈ (buildTree e lines).preorder
  rw [buildTree, hf.preorder_eq]
  by_contra hmem
  -- neither the root nor a node that is not there has variables
  by_cases hlt : id < (buildTree e lines).size
  · obtain rfl : id = Tree.root := (List.mem_cons.mp ((hf.covers id).mp hlt)).resolve_right hmem
    have hroot :=
      (Nesting.keeps_foldl (Statement.readAll e.grammar e.version lines) .empty).statement Tree.root
        (by decide)
    rw [buildTree, Tree.nest, hroot] at ht
    cases ht
  · rw [Tree.node_of_size_le (Nat.le_of_not_lt hlt)] at ht
    cases ht

end Session

/-- Whatever the grammar, the expansion of a script comes to an end. The names that are taken then
are those of the script and those that its loops draw. The names that are drawn differ from each
other and from the names of all variables in its lines, those in lines that are commented out
included. The search for a name stops at the first one that is not taken, and the first line that
stands for the loop assigns to the variable that was drawn. -/
theorem loops_draw_fresh_names (e : Setting) (lines : List String) :
    let s := (Session.start (buildTree e lines)).seedNames
    (∃ s', (Session.start (buildTree e lines)).expand e = .ok s' ∧
      ∀ name, name ∈ s'.names.used ↔ name ∈ s.names.used ∨ name ∈ s.drawn e s.shorthands) ∧
    (s.drawn e s.shorthands).Nodup ∧
    (∀ name ∈ s.drawn e s.shorthands, ∀ id, ∀ t ∈ ((buildTree e lines).node id).statement.vars,
      t.value ≠ name) ∧
    (∀ names : NameSupply, ∃ n, names.next ≤ n ∧ names.fresh.1 = iteratorName n ∧
      iteratorName n ∉ names.used ∧
      ∀ m, names.next ≤ m → m < n → iteratorName m ∈ names.used) ∧
    ∀ (u : Statement) (names : NameSupply) (name : String), u.drawn? names = some name →
      name = names.fresh.1 ∧ ∃ x value rest, u.plan names = .ok (x, names.fresh.2) ∧
        x.before = ("$" ++ name ++ " = " ++ value) :: rest := by
  intro s
  obtain ⟨f, hf⟩ := nest_spans_some (Statement.readAll e.grammar e.version lines)
  obtain ⟨s', -, hrun, -, -⟩ := Session.expand_spans (s := Session.start (buildTree e lines)) e hf
  obtain ⟨hfresh, hnodup⟩ := Session.drawn_fresh e s s.shorthands
  refine ⟨⟨s', hrun, Session.mem_used_foldlM_expandOne hrun⟩, hnodup, fun name hname id t ht heq =>
    ?_, NameSupply.fresh_first, fun u names name hdrawn => ?_⟩
  · exact hfresh name hname (heq ▸ Session.mem_used_of_mem_vars e lines ht)
  · unfold Statement.drawn? at hdrawn
    split at hdrawn
    · next hdraws =>
      cases hplan : u.plan names with
      | error p =>
        rw [hplan] at hdrawn
        cases hdrawn
      | ok p =>
        obtain ⟨x, left⟩ := p
        rcases Statement.plan_draws hplan with ⟨-, rfl, value, rest, hbefore⟩ | ⟨hno, -⟩
        · rw [hplan] at hdrawn
          obtain rfl : names.fresh.1 = name := Option.some.inj hdrawn
          exact ⟨rfl, x, value, rest, rfl, hbefore⟩
        · rw [hdraws] at hno
          cases hno
    · cases hdrawn

end GameScript
