import GameScript.Proofs.Compile.Lines
import GameScript.Proofs.Passes.Parameters
import GameScript.Proofs.Shorthand.Headers
import GameScript.Proofs.Shorthand.Reports

/-!
# Expansions do not cause problems

A shorthand that nothing is wrong with is expanded, and nothing is wrong with the commands that
stand for it, as long as the numbers that are computed for it fit in 32 bits:
`shorthand_expands_cleanly`.
-/

namespace GameScript

/-! ## Generated statements -/

namespace Generated

variable {e : Setting} {small sized : Prop} {number : Nat}

theorem exists_forall₂_readLine {lines : List String}
    (h : ∀ line ∈ lines, Says e small sized line) (number : Nat) :
    ∃ l, List.Forall₂ (fun line s => readLine e number line = .ok s) lines l := by
  induction lines with
  | nil => exact ⟨[], .nil⟩
  | cons line lines ih =>
    obtain ⟨u, hu, -⟩ := h line (by simp) number
    obtain ⟨l, hl⟩ := ih fun line hline => h line (by simp [hline])
    exact ⟨u :: l, .cons hu hl⟩

theorem exists_read_eq_ok {x : Expansion} (h : ∀ line ∈ x.lines, Says e small sized line)
    (number : Nat) :
    ∃ g, Generated.read e number x = .ok g := by
  simp only [Expansion.lines, List.mem_append] at h
  obtain ⟨before, hbefore⟩ :=
    exists_forall₂_readLine (fun line hline => h line (.inl (.inl hline))) number
  obtain ⟨round, hround⟩ := exists_forall₂_readLine (fun line hline => h line (.inr hline)) number
  obtain ⟨head, hhead⟩ :=
    exists_forall₂_readLine (fun line hline => h line (.inl (.inr hline))) number
  obtain ⟨head, rfl⟩ : ∃ o : Option Statement, head = o.toList := by
    have hlength := hhead.length_eq
    cases hx : x.head with
    | none =>
      rw [hx] at hlength
      exact ⟨none, List.eq_nil_of_length_eq_zero hlength.symm⟩
    | some line =>
      rw [hx] at hlength
      obtain ⟨u, rfl⟩ := List.length_eq_one_iff.mp hlength.symm
      exact ⟨some u, rfl⟩
  exact ⟨⟨before, head, round⟩, isRead_iff.mpr ⟨hbefore, hhead, hround⟩⟩

/-- The statements of an expansion are read from its lines. -/
theorem IsRead.exists_line {g : Generated} {x : Expansion} (h : g.IsRead e number x)
    {u : Statement} (hu : u ∈ g.front ++ g.inner) :
    ∃ line ∈ x.lines, readLine e number line = .ok u := by
  have hall : ∀ lines l, List.Forall₂ (fun line u => readLine e number line = .ok u) lines l →
      lines ⊆ x.lines → ∀ u ∈ l, ∃ line ∈ x.lines, readLine e number line = .ok u :=
    fun lines l hl hsubset => forall_of_readLine hl fun line hline u hu => ⟨line, hsubset hline, hu⟩
  simp only [front, inner, List.mem_append] at hu
  rcases hu with (hu | hu) | hu
  · exact hall _ _ h.before (fun line hline => by simp [Expansion.lines, hline]) u hu
  · exact hall _ _ h.head (fun line hline =>
      List.mem_append_left _ (List.mem_append_right _ hline)) u hu
  · split at hu
    · exact hall _ _ h.round (fun line hline => List.mem_append_right _ hline) u hu
    · cases hu

/-- The statements that a shorthand is expanded to have no meaning to the compiler, and their
parameters are well typed. -/
theorem StandFor.said {s : Statement} {g : Generated} (hg : g.StandFor e s)
    (he : e.grammar = .builtin) (h : s.IsHeader e.objects) (hsmall : small → s.ComputesInRange)
    (hsized : sized → ∀ p ∈ s.parameters, p.kind = .valueList → p.items.length < 0x80000000) :
    ∀ u ∈ g.front ++ g.inner, u.form.hasMeaning = false ∧ ∀ p ∈ u.parameters,
      (if p.kind = .expression then small else sized) → p.WellTyped e.objects := by
  obtain ⟨names, names', x, hplan, hread⟩ := hg
  intro u hu
  rcases h.plan_said he hsmall hsized names with ⟨p, hp, -⟩ | ⟨y, names'', hy, hsaid⟩
  · cases hp.symm.trans hplan
  · obtain ⟨rfl, rfl⟩ := Prod.mk.inj (Except.ok.inj (hy.symm.trans hplan))
    obtain ⟨line, hline, hu⟩ := hread.exists_line hu
    obtain ⟨u', hu', hparameters⟩ := hsaid line hline s.line
    obtain rfl := Except.ok.inj (hu'.symm.trans hu)
    exact hparameters

/-- Whichever names are taken, statements can be generated for the shorthand. -/
def Succeeds (e : Setting) (s : Statement) : Prop :=
  ∀ names, ∃ x names' y, s.plan names = .ok (x, names') ∧ Generated.read e s.line x = .ok y

/-- A shorthand that nothing is wrong with has statements that stand for it. -/
theorem succeeds_of_isHeader {s : Statement} (he : e.grammar = .builtin)
    (h : s.IsHeader e.objects) (hstep : ¬s.StepsByZero) : Succeeds e s := by
  intro names
  rcases @Statement.IsHeader.plan_said e False False _ he h (fun hc => hc.elim)
    (fun hc => hc.elim) names with ⟨p, -, hzero⟩ | ⟨x, names', hx, hsaid⟩
  · exact absurd hzero hstep
  · obtain ⟨y, hy⟩ := exists_read_eq_ok hsaid s.line
    exact ⟨x, names', y, hx, hy⟩

end Generated

/-! ## Lines of nodes -/

def Tree.written (t : Tree) (f : Forest) : List NodeId :=
  f.ids.filter fun id => !(t.node id).origin.isGenerated

theorem line_injective {e : Setting} {lines : List String} {f : Forest}
    (hf : (buildTree e lines).Spans f) {i j : NodeId} (hi : i ∈ (buildTree e lines).written f)
    (hj : j ∈ (buildTree e lines).written f) (h : ((buildTree e lines).node i).statement.line =
      ((buildTree e lines).node j).statement.line) : i = j := by
  have hholds := buildTree_holds hf
  have hlines : ((buildTree e lines).written f).map (fun id =>
      ((buildTree e lines).node id).statement.line) =
      (Statement.readAll e.grammar e.version lines).map fun r => r.statement.line := by
    refine List.forall₂_eq_eq_eq ▸ ?_
    rw [List.forall₂_map_left_iff, List.forall₂_map_right_iff]
    exact hholds.imp fun id r hr => by rw [hr.statement]
  have hnumbers : ((Statement.readAll e.grammar e.version lines).map fun r => r.statement.line) =
      List.range' 1 lines.length := by
    simp only [Statement.readAll, List.map_map]
    rw [← List.zipIdx_map_snd 1 lines]
    exact List.map_congr_left fun p _ => Statement.line_read _ _ _ _
  have hnodup : (((buildTree e lines).written f).map
      fun id => ((buildTree e lines).node id).statement.line).Nodup := by
    rw [hlines, hnumbers]
    exact List.nodup_range'
  exact List.inj_on_of_nodup_map hnodup hi hj h

/-! ## The expansion of one shorthand among others -/

namespace Session

section

variable {e : Setting} {lines : List String} {f g : Forest} {s s' : Session} {header id : NodeId}
  {rest : List NodeId}

/-- A written node of the expanded tree is a line of the script. -/
theorem Provenance.mem_written {t : Tree} (h : Provenance e t f s g) (hid : id ∈ g.ids)
    (hwritten : (s.node id).origin.isGenerated = false) : id ∈ t.written f := by
  have hmem : id ∈ g.ids.filter fun id => !(s.node id).origin.isGenerated := by simp [hid, hwritten]
  rw [h.written] at hmem
  exact hmem

/-- The shorthand `id` waits or was expanded, and nothing was reported about its line. -/
structure Spares (t : Tree) (id : NodeId) (s : Session) (rest : List NodeId) : Prop where
  expanded : id ∈ rest ∨ (s.node id).origin = .header
  log : ∀ d ∈ s.log, d.line ≠ (t.node id).statement.line

theorem Spares.report (h : Expanding e (buildTree e lines) f s g (header :: rest))
    (hf : (buildTree e lines).Spans f) (hid : id ∈ (buildTree e lines).written f)
    (hne : header ≠ id) (hs : Spares (buildTree e lines) id s (header :: rest)) (p : Problem) :
    Spares (buildTree e lines) id (s.report header p) rest := by
  obtain ⟨hheader, hpending⟩ := h.waiting header (by simp)
  have horigin := origin_of_pending hpending
  refine ⟨?_, fun d hd => ?_⟩
  · have hsame : ((s.report header p).node id).origin = (s.node id).origin :=
      Tree.read_modify s.tree header id Node.origin fun _ => rfl
    rw [hsame]
    exact hs.expanded.imp_left fun hmem => (List.mem_cons.mp hmem).resolve_left hne.symm
  · simp only [Session.report, Array.mem_push] at hd
    rcases hd with hd | rfl
    · exact hs.log d hd
    · have hwritten : header ∈ (buildTree e lines).written f :=
        h.provenance.mem_written hheader (by rw [horigin]; rfl)
      have hline : (s.node header).statement.line =
          ((buildTree e lines).node header).statement.line := by
        rw [(h.provenance.source header horigin).2.1]
      intro hc
      exact hne (line_injective hf hwritten hid (hline.symm.trans hc))

theorem Spares.replace {t : Tree} (h : Expanding e t f s g (header :: rest)) (hne : header ≠ id)
    (hs : Spares t id s (header :: rest)) (names : NameSupply) (parent : NodeId) (x : Generated) :
    Spares t id { s with names, tree := s.tree.replace parent header x } rest := by
  refine ⟨?_, hs.log⟩
  have hlt : id < s.tree.size := by
    rcases hs.expanded with hmem | hexpanded
    · exact (h.spans.covers id).mpr (by simp [(h.waiting id hmem).1])
    · by_contra hge
      have hdefault : s.node id = default := Tree.node_of_size_le (Nat.le_of_not_lt hge)
      rw [hdefault] at hexpanded
      cases hexpanded
  have hsame : ((s.tree.replace parent header x).node id).origin = (s.node id).origin :=
    Node.eq_of_unlinked (Tree.node_replace_old x parent hlt hne.symm) Node.origin
  rw [node, hsame]
  exact hs.expanded.imp_left fun hmem => (List.mem_cons.mp hmem).resolve_left hne.symm

theorem Spares.step (h : Expanding e (buildTree e lines) f s g (header :: rest))
    (hf : (buildTree e lines).Spans f) (hid : id ∈ (buildTree e lines).written f)
    (hplan : Generated.Succeeds e ((buildTree e lines).node id).statement)
    (hs : Spares (buildTree e lines) id s (header :: rest)) {g' : Forest}
    (hstep : Unfolds e s g header s' g') :
    Spares (buildTree e lines) id s' rest := by
  obtain ⟨hheader, hpending⟩ := h.waiting header (by simp)
  by_cases hne : header = id
  · subst hne
    have hstatement := (h.provenance.source header (origin_of_pending hpending)).2.1
    obtain ⟨x, names', y, hx, hy⟩ := hplan s.names
    rw [← hstatement] at hx hy
    obtain ⟨parent, rfl, -⟩ := hstep.replaced_of_read hx hy
    have hlt : header < s.tree.size := h.spans.lt_size hheader
    exact ⟨.inr (congrArg Node.origin (Tree.node_replace_header y parent hlt)), hs.log⟩
  · cases hstep with
    | @reported names p _ =>
      exact Spares.report (h.withNames names) hf hid hne ⟨hs.expanded, hs.log⟩ _
    | @replaced _ names y _ _ parent _ => exact hs.replace h hne names parent y

theorem Spares.run (hg : e.grammar.Lawful) (h : Expanding e (buildTree e lines) f s g rest)
    (hf : (buildTree e lines).Spans f) (hid : id ∈ (buildTree e lines).written f)
    (hplan : Generated.Succeeds e ((buildTree e lines).node id).statement)
    (hs : Spares (buildTree e lines) id s rest) (hrun : rest.foldlM (expandOne e) s = .ok s') :
    Spares (buildTree e lines) id s' [] := by
  obtain ⟨u, _, hu, -, hspares⟩ :=
    h.run_keeps (P := fun s _ rest => Spares (buildTree e lines) id s rest) hg
    (fun h hs hstep => hs.step h hf hid hplan hstep) hs
  obtain rfl := Except.ok.inj (hu.symm.trans hrun)
  exact hspares

end

end Session

/-! ## Shorthands that nothing is wrong with -/

theorem Node.Prepared.isHeader {e : Setting} {n : Node} (h : n.Prepared e) (hg : e.grammar.Lawful)
    (hpending : Session.isPendingShorthand n = true) (hfindings : n.findings e.objects = []) :
    n.statement.IsHeader e.objects := by
  simp only [Session.isPendingShorthand, Bool.and_eq_true, Bool.not_eq_true', beq_iff_eq,
    Option.isNone_iff_eq_none] at hpending
  obtain ⟨⟨⟨horigin, hcommented⟩, hdiagnostic⟩, hform⟩ := hpending
  obtain ⟨number, line, hstatement, hread⟩ := h.source horigin
  have hreports : ∀ p ∈ n.statement.parameters, p.reports e.objects false = [] := by
    have hall := List.flatMap_eq_nil_iff.mp hfindings
    rw [horigin] at hall
    exact hall
  rw [hstatement] at hcommented hform hreports ⊢
  exact Statement.isHeader_of_read hg hcommented (hread ▸ hdiagnostic) hform hreports

theorem Node.Prepared.line_of_mem_complaints {e : Setting} {n : Node} (h : n.Prepared e)
    {d : Diagnostic} (hd : d ∈ n.complaints e) : d.line = n.statement.line := by
  unfold complaints at hd
  split at hd
  · cases hd
  · cases hdiagnostic : n.diagnostic with
    | none =>
      rw [hdiagnostic, Option.elim_none, List.mem_map] at hd
      obtain ⟨p, -, rfl⟩ := hd
      rfl
    | some d' =>
      rw [hdiagnostic, Option.elim_some, List.mem_singleton] at hd
      subst hd
      by_cases horigin : n.origin = .source
      · obtain ⟨number, line, hstatement, hread⟩ := h.source horigin
        obtain ⟨p, text, -, rfl⟩ := Statement.isReading_of_diagnostic (hread.symm.trans hdiagnostic)
        rw [hstatement, Statement.line_read]
        rfl
      · cases (h.diagnostic horigin).symm.trans hdiagnostic

namespace Session

section

variable {e : Setting} {lines : List String} {f g : Forest} {s : Session} {id : NodeId}

/-- The expansion of a script spares the shorthands that nothing is wrong with. -/
theorem spares_of_expand (he : e.grammar = .builtin) (hf : (buildTree e lines).Spans f)
    (hpending : isPendingShorthand ((buildTree e lines).node id) = true)
    (hheader : ((buildTree e lines).node id).statement.IsHeader e.objects)
    (hstep : ¬((buildTree e lines).node id).statement.StepsByZero)
    (hexpand : (Session.start (buildTree e lines)).expand e = .ok s) :
    id ∈ (buildTree e lines).written f ∧ Spares (buildTree e lines) id s [] := by
  have hg : e.grammar.Lawful := he ▸ builtin_lawful
  have hstart := start_expanding hg lines hf
  have hwaits := hstart.settled rfl id hpending
  have horigin : ((buildTree e lines).node id).origin = .source := origin_of_pending hpending
  have hid : id ∈ (buildTree e lines).written f :=
    hstart.provenance.mem_written (hstart.waiting id hwaits).1 (congrArg Origin.isGenerated horigin)
  exact ⟨hid, Spares.run hg hstart hf hid (Generated.succeeds_of_isHeader he hheader hstep)
    ⟨.inl hwaits, by simp [Session.start, seedNames]⟩ hexpand⟩

/-- Nothing is reported about the nodes that carry the number of such a shorthand. -/
theorem complaints_eq_nil (he : e.grammar = .builtin) (hf : (buildTree e lines).Spans f)
    (h : Expanding e (buildTree e lines) f s g []) (hid : id ∈ (buildTree e lines).written f)
    (hspares : Spares (buildTree e lines) id s [])
    (hfindings : ((buildTree e lines).node id).findings e.objects = [])
    (hheader : ((buildTree e lines).node id).statement.IsHeader e.objects)
    (hrange : ((buildTree e lines).node id).statement.ComputesInRange) {j : NodeId} (hj : j ∈ g.ids)
    (hline : (s.node j).statement.line = ((buildTree e lines).node id).statement.line) :
    (s.node j).complaints e = [] := by
  have hretired : (s.node id).origin = .header := hspares.expanded.resolve_left (by simp)
  have hsource : ((buildTree e lines).node id).origin = .source := by
    have hpending := (h.provenance.retired id hretired).1
    exact origin_of_pending hpending
  -- Only the shorthand itself was written with this number.
  have heq : ∀ k ∈ g.ids, (s.node k).origin.isGenerated = false →
      (s.node k).statement.line = ((buildTree e lines).node id).statement.line → k = id := by
    intro k hk hwritten hsame
    refine line_injective hf (h.provenance.mem_written hk hwritten) hid (Eq.trans ?_ hsame)
    cases horigin : (s.node k).origin with
    | source => rw [(h.provenance.source k horigin).2.1]
    | header => rw [(h.provenance.retired k horigin).2]
    | expanded | hiddenJump =>
      rw [horigin] at hwritten
      cases hwritten
  have hquiet : (s.node j).origin ≠ .source → (s.node j).findings e.objects = [] →
      (s.node j).complaints e = [] := by
    intro horigin hnone
    rw [Node.complaints, (h.prepared j).diagnostic horigin, hnone]
    split <;> rfl
  cases horigin : (s.node j).origin with
  | source =>
    obtain rfl := heq j hj (by rw [horigin]; rfl) hline
    cases horigin.symm.trans hretired
  | hiddenJump => simp [Node.complaints, Node.isExempt, horigin]
  | header =>
    obtain rfl := heq j hj (by rw [horigin]; rfl) hline
    refine hquiet (by simp [horigin]) ?_
    rw [Node.findings, horigin, (h.provenance.retired j horigin).2]
    rw [Node.findings, hsource] at hfindings
    exact hfindings
  | expanded =>
    obtain ⟨head, hstems⟩ := h.provenance.generated j horigin
    have hmem : head ∈ g.ids := by
      obtain ⟨a, m, b, hsplit, -⟩ := hstems.trails
      simp [hsplit]
    obtain rfl :=
      heq head hmem (by rw [hstems.retired]; rfl) ((h.provenance.line_eq hstems).symm.trans hline)
    refine hquiet (by simp [horigin]) (List.flatMap_eq_nil_iff.mpr fun p hp => ?_)
    obtain ⟨x, hx, hstatement⟩ := hstems.statement
    have hwellTyped := (@Generated.StandFor.said e True False _ x hx he hheader (fun _ => hrange)
      (fun hc => hc.elim) _ hstatement).2 p hp
    rw [horigin]
    exact Parameter.reports_of_wellTyped fun hkind => hwellTyped (by rw [if_pos hkind]; trivial)

end

end Session

/-! ## Diagnostics -/

/-- The codes of what can be wrong with the commands that stand for a shorthand: they could not be
read, or the check of parameters objects to them. -/
def expansionCodes : List String :=
  ["MACRO_EXPANSION_FAILED", "SYNTAX_UNRECOGNISED", "SYNTAX_OBJECT_UNTERMINATED",
    "SYNTAX_VERSION_UNSUPPORTED", "PARAM_TYPE_MISMATCH", "PARAM_OUT_OF_RANGE", "OBJECT_UNKNOWN",
    "EXPRESSION_OPERATOR_MISSING",
    "EXPRESSION_OPERAND_MISSING", "EXPRESSION_PARENTHESIS_UNBALANCED",
    "EXPRESSION_OPERATOR_INVALID",
    "EXPRESSION_TOKEN_INVALID"]

/-- These are the codes of the check of parameters and of failed expansions. -/
theorem code_mem_expansionCodes (p : Problem) :
    p.code ∈ expansionCodes ↔ p.pass? = some .checkParameters ∨
    ∃ line, p = .expansionFailed line := by
  cases p with
  | expression e =>
    cases e <;> simp [Problem.code, ExpressionError.code, Problem.pass?, expansionCodes]
  | _ => simp [Problem.code, Problem.pass?, expansionCodes]

/-- The diagnostic does not concern the commands that stand for the shorthand of a line. -/
def Diagnostic.Spares (line : Nat) (d : Diagnostic) : Prop :=
  d.line = line → d.code ∉ expansionCodes

theorem Pass.reports_spares {pass : Pass} (hpass : pass ≠ .checkParameters) (line : Nat) :
    pass.Reports (Diagnostic.Spares line) := by
  intro p number text hp _ hmem
  rcases (code_mem_expansionCodes p).mp hmem with hc | ⟨l, rfl⟩
  · exact hpass (Option.some.inj (hp.symm.trans hc))
  · cases hp

/-- The log after all checks, if nothing is reported about a line before them and by the check of
parameters. -/
theorem Session.examine_spares {e : Setting} {s : Session} {g : Forest} (hspans : s.tree.Spans g)
    {line : Nat} (hlog : ∀ d ∈ s.log, d.line ≠ line)
    (hcomplaints : ∀ id ∈ g.ids, ∀ d ∈ (s.node id).complaints e, d.line ≠ line) :
    ∀ d ∈ (s.examine e).log, d.Spares line := by
  obtain ⟨first, last, hexamine, hfirst, hlast⟩ :=
    examine_log (P := Diagnostic.Spares line) (fun _ hpass =>
      Pass.reports_spares hpass line) e hspans
  intro d hd
  rw [← Array.mem_toList_iff, hexamine] at hd
  simp only [List.mem_append, List.mem_flatMap] at hd
  rcases hd with ((hd | hd) | ⟨id, hid, hd⟩) | hd
  · exact fun hc => absurd hc (hlog d (Array.mem_toList_iff.mp hd))
  · exact hfirst d hd
  · exact fun hc => absurd hc (hcomplaints id hid d hd)
  · exact hlast d hd

/-- A shorthand that nothing is wrong with is expanded, and no diagnostic of its line says that it
could not be expanded or that something is wrong with a command that stands for it. Its step is not
zero, and the numbers that are computed from its parameters fit in 32 bits. -/
theorem shorthand_expands_cleanly (v : Version) (arguments : List String)
    (objects : Option ObjectLibrary) (lines : List String) (id : NodeId)
    (hpending : Session.isPendingShorthand ((buildTree ⟨.builtin, v, arguments, objects⟩ lines).node
      id) = true)
    (hfindings : ((buildTree ⟨.builtin, v, arguments, objects⟩ lines).node id).findings
      objects = [])
    (hstep : ¬((buildTree ⟨.builtin, v, arguments, objects⟩ lines).node id).statement.StepsByZero)
    (hrange : ((buildTree ⟨.builtin, v, arguments, objects⟩ lines).node
      id).statement.ComputesInRange) :
    ∃ s o, (Session.start (buildTree ⟨.builtin, v, arguments, objects⟩ lines)).expand
        ⟨.builtin, v, arguments, objects⟩ = .ok s ∧ (s.node id).origin = .header ∧
      compile ⟨.builtin, v, arguments, objects⟩ lines = .ok o ∧
      ∀ d ∈ o.log, d.line =
        ((buildTree ⟨.builtin, v, arguments, objects⟩ lines).node id).statement.line →
        d.code ∉ expansionCodes := by
  obtain ⟨f, s, g, q, hf, hexpand, h, hspec, hframe, -⟩ :=
    compile_spec (e := ⟨.builtin, v, arguments, objects⟩) builtin_lawful lines
  have hheader :=
    (nest_prepared ⟨.builtin, v, arguments, objects⟩ lines id).isHeader builtin_lawful hpending
      hfindings
  obtain ⟨hid, hspares⟩ := Session.spares_of_expand rfl hf hpending hheader hstep hexpand
  refine ⟨s, _, hexpand, hspares.expanded.resolve_left (by simp), compile_of_compiled hspec,
    fun d hd hline => ?_⟩
  have hlog : d ∈ (s.examine ⟨.builtin, v, arguments, objects⟩).log := by
    rw [← hframe.log]
    exact hd
  refine Session.examine_spares h.spans hspares.log (fun j hj d hd hc => ?_) d hlog hline
  have hsame := ((h.prepared j).line_of_mem_complaints hd).symm.trans hc
  rw [Session.complaints_eq_nil rfl hf h hid hspares hfindings hheader hrange hj hsame] at hd
  cases hd

/-! ## The lowest first value -/

/-- The first loop starts from the lowest number, so that one step before it is out of range. The
second one starts one higher. -/
def lowestLoop (first : String) : List String := ["for $i = " ++ first ++ " to 5", "end"]

set_option maxRecDepth 20000 in
theorem lowestLoop_evaluates : (∀ first ∈ ["-2147483648", "-2147483647"],
      Session.isPendingShorthand
        ((buildTree ⟨.builtin, .albionPrelude, [], none⟩ (lowestLoop first)).node 1) = true ∧
      ((buildTree ⟨.builtin, .albionPrelude, [], none⟩ (lowestLoop first)).node 1).findings
        none = [] ∧
      ((buildTree ⟨.builtin, .albionPrelude, [], none⟩ (lowestLoop first)).node 1).statement.line =
        1 ∧
      ¬((buildTree ⟨.builtin, .albionPrelude, [], none⟩ (lowestLoop first)).node
        1).statement.StepsByZero) ∧
    ((buildTree ⟨.builtin, .albionPrelude, [], none⟩ (lowestLoop "-2147483647")).node
      1).statement.ComputesInRange ∧
    (compile ⟨.builtin, .albionPrelude, [], none⟩ (lowestLoop "-2147483648")).toOption.map
      (·.log.toList) =
      some [⟨"PARAM_OUT_OF_RANGE", 1, "Number -2147483649 does not fit in 32 bits.",
        "$i = -2147483649"⟩] := by
  rw [Grammar.builtin_eq]
  decide +kernel

/-- Nothing is wrong with a loop from the lowest number, but the command that sets its variable one
step before it does not fit. -/
theorem lowestLoop_overflows : Session.isPendingShorthand
        ((buildTree ⟨.builtin, .albionPrelude, [], none⟩ (lowestLoop "-2147483648")).node 1) =
          true ∧
      ((buildTree ⟨.builtin, .albionPrelude, [], none⟩ (lowestLoop "-2147483648")).node 1).findings
        none = [] ∧
      ¬((buildTree ⟨.builtin, .albionPrelude, [], none⟩ (lowestLoop "-2147483648")).node
        1).statement.StepsByZero ∧
      ∃ o, compile ⟨.builtin, .albionPrelude, [], none⟩ (lowestLoop "-2147483648") = .ok o ∧
        o.log.toList =
          [⟨"PARAM_OUT_OF_RANGE", 1, "Number -2147483649 does not fit in 32 bits.",
            "$i = -2147483649"⟩] ∧
        ¬∀ d ∈ o.log, d.line =
          ((buildTree ⟨.builtin, .albionPrelude, [], none⟩ (lowestLoop "-2147483648")).node
            1).statement.line →
            d.code ∉ expansionCodes := by
  obtain ⟨hpending, hfindings, hline, hstep⟩ := lowestLoop_evaluates.1 "-2147483648" (by simp)
  have hlog := lowestLoop_evaluates.2.2
  refine ⟨hpending, hfindings, hstep, ?_⟩
  cases hcompile : compile ⟨.builtin, .albionPrelude, [], none⟩ (lowestLoop "-2147483648") with
  | error fault =>
    rw [hcompile] at hlog
    cases hlog
  | ok o =>
    rw [hcompile] at hlog
    have hlog : o.log.toList = _ := Option.some.inj hlog
    refine ⟨o, rfl, hlog, fun hall => ?_⟩
    refine hall _ (Array.mem_toList_iff.mp (hlog ▸ List.mem_singleton_self _)) hline.symm ?_
    decide

/-- A loop that starts one higher is expanded. -/
theorem secondLowestLoop_expands :
    ((buildTree ⟨.builtin, .albionPrelude, [], none⟩ (lowestLoop "-2147483647")).node
      1).statement.ComputesInRange ∧
      ∃ s o, (Session.start (buildTree ⟨.builtin, .albionPrelude, [],
        none⟩ (lowestLoop "-2147483647"))).expand
          ⟨.builtin, .albionPrelude, [], none⟩ = .ok s ∧ (s.node 1).origin = .header ∧
        compile ⟨.builtin, .albionPrelude, [], none⟩ (lowestLoop "-2147483647") = .ok o ∧
        ∀ d ∈ o.log, d.line = 1 → d.code ∉ expansionCodes := by
  obtain ⟨hpending, hfindings, hline, hstep⟩ := lowestLoop_evaluates.1 "-2147483647" (by simp)
  have hrange := lowestLoop_evaluates.2.1
  obtain ⟨s, o, hexpand, horigin, hcompile, hlog⟩ :=
    shorthand_expands_cleanly .albionPrelude [] none (lowestLoop "-2147483647") 1 hpending hfindings
      hstep hrange
  exact ⟨hrange, s, o, hexpand, horigin, hcompile, fun d hd hd1 => hlog d hd (hd1.trans hline.symm)⟩

end GameScript
