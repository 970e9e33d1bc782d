import GameScript.Proofs.Shorthand.Hygiene

/-!
# Compiled commands are well typed

The check of parameters looks into the commands that were written. Of the commands that stand for a
shorthand it only looks into the expressions: what else they need follows from what the check found
out about the shorthand, and from the number of commands a script can have.

* `commands_well_typed`: in a script without problems every parameter of every command is of its
  declared type, and every expression is kept in its evaluation order.
-/

namespace GameScript

/-! ## Statements -/

theorem Statement.countP_expression_read {g : Grammar} (hg : g.Lawful) (v : Version) (number : Nat)
    (line : String) :
    (read g v number line).statement.parameters.countP (fun p => p.kind == .expression) ≤ 1 := by
  rcases read_cases g v number line with h | h | h | ⟨commented, r, hr, h⟩ <;> rw [h]
  · exact Nat.zero_le _
  · exact Nat.zero_le _
  · exact Nat.zero_le _
  · have hcount := Fit.countP_parameters (Recognition.binds hr).length (· == .expression)
    exact Nat.le_trans (Nat.le_of_eq hcount)
      (hg.lawful _ (Recognition.of_recognise? hr).1).expression

/-- The array of a shorthand is filled by one command for each item, and allocated by another
one. -/
theorem Generated.StandFor.items_lt {e : Setting} {s : Statement} {x : Generated}
    (hx : x.StandFor e s) {objects : Option ObjectLibrary} (hs : s.IsHeader objects) {p : Parameter}
    (hp : p ∈ s.parameters) (hkind : p.kind = .valueList) :
    p.items.length < (x.front ++ x.inner).length := by
  have hform : s.form = FormId.dim := by
    have hmem : ParamKind.valueList ∈ s.form.shorthandKinds := by
      rw [← hs.kinds, ← hkind]
      exact List.mem_map_of_mem hp
    unfold FormId.shorthandKinds at hmem
    by_contra hne
    rw [if_neg (by simpa using hne)] at hmem
    split at hmem
    · simp at hmem
    · split at hmem
      · simp at hmem
      · split at hmem <;> simp at hmem
  have hshape : s.parameters.map (·.kind) = [.var, .valueList] := by rw [hs.kinds, hform]; rfl
  obtain ⟨array, l, hparameters, harray, hl⟩ := List.map_eq_cons_iff.mp hshape
  obtain ⟨list, rfl, hlist⟩ := List.map_eq_singleton_iff.mp hl
  obtain rfl : p = list := by
    rw [hparameters, List.mem_cons, List.mem_singleton] at hp
    refine hp.resolve_left ?_
    rintro rfl
    cases hkind.symm.trans harray
  obtain ⟨names, names', y, hplan, hread⟩ := hx
  have hy : y = .dim array.text p.items := by
    simp only [Statement.plan, hform, hparameters, if_true, List.head?_cons, Option.map_some,
      Option.getD_some, Except.ok.injEq, Prod.mk.injEq] at hplan
    exact hplan.1.symm
  have hlength := hread.before.length_eq
  rw [hy] at hlength
  simp only [Expansion.dim, List.length_cons, List.length_map, List.length_zipIdx] at hlength
  simp only [Generated.front, List.length_append]
  omega

namespace Session

section

variable {e : Setting} {lines : List String} {f g : Forest} {s : Session} {id : NodeId}

theorem Expanding.exists_read (h : Expanding e (buildTree e lines) f s g [])
    (horigin : (s.node id).origin ≠ .hiddenJump) :
    ∃ number line, (s.node id).statement.parameters =
      (Statement.read e.grammar e.version number line).statement.parameters := by
  cases hid : (s.node id).origin with
  | hiddenJump => exact absurd hid horigin
  | source =>
    obtain ⟨number, line, hstatement, -⟩ := (h.prepared id).source hid
    exact ⟨number, line, congrArg Statement.parameters hstatement⟩
  | expanded =>
    have hread : (s.node id).statement.IsRead e := by
      rcases (h.prepared id).expanded hid with hperforms | hperforms <;> exact hperforms.isRead
    obtain ⟨number, line, hstatement⟩ := hread
    exact ⟨number, line, congrArg Statement.parameters hstatement⟩
  | header =>
    obtain ⟨hpending, hstatement⟩ := h.provenance.retired id hid
    obtain ⟨number, line, hread, -⟩ :=
      (nest_prepared e lines id).source (origin_of_pending hpending)
    refine ⟨number, line, ?_⟩
    rw [hstatement, ← hread]

/-! ## The check of a script without problems -/

/-- What comes after the check of parameters keeps the evaluation orders. -/
theorem examine_evalOrder (e : Setting) (s : Session) (id : NodeId) :
    ((s.examine e).node id).evalOrder =
    ((((s.identifyNames e).identifyConstants).checkParameters e).node id).evalOrder := by
  have hmodify : ∀ (u : Session) (j : NodeId) {f : Node → Node},
      (∀ n, (f n).evalOrder = n.evalOrder) →
      ((u.modify j f).node id).evalOrder = (u.node id).evalOrder :=
    fun u j _ hf => Tree.read_modify u.tree j id Node.evalOrder hf
  exact read_examine (fun u => (u.node id).evalOrder) (fun u j _ => hmodify u j fun _ => rfl)
    (fun u j _ => hmodify u j fun _ => rfl) (fun _ _ => rfl) e s

/-- The evaluation order of an expression is kept at its node. -/
theorem Expanding.evalOrder_eq (hg : e.grammar.Lawful)
    (h : Expanding e (buildTree e lines) f s g []) (hlog : (s.examine e).log = #[])
    (hid : id ∈ g.ids) (hexempt : (s.node id).isExempt = false) {p : Parameter}
    (hp : p ∈ (s.node id).statement.parameters) (hkind : p.kind = .expression) {order : List Token}
    (horder : Expression.evalOrder p.tokens = .ok order) :
    ((s.examine e).node id).evalOrder = order := by
  have hnames : Analyses (fun _ => True) s (s.identifyNames e).identifyConstants :=
    (Analyses.identifyNames (fun _ _ _ _ => trivial) e s).trans (.identifyConstants _)
  rw [examine_evalOrder]
  generalize (s.identifyNames e).identifyConstants = u at hnames ⊢
  have hnode := hnames.alike.node id
  have hspans := h.spans.alike hnames.alike
  have hmem : id ∈ u.tree.preorder := by rwa [hspans.preorder_eq]
  have hlt : id < u.tree.size := hspans.lt_size hid
  have hexempt' : (u.node id).isExempt = false := by
    rw [Node.isExempt, node, ← hnode.statement, ← hnode.origin]
    exact hexempt
  have hdiagnostic : (u.node id).diagnostic = none := by
    rw [node, ← hnode.diagnostic]
    exact (Node.of_complaints_eq_nil (complaints_of_log h.spans hlog hid) hexempt).1
  rw [checkParameters_evalOrder e u hmem hlt hexempt' hdiagnostic]
  have horderOf : orderOf e (u.node id) = orderOf e (s.node id) := by
    rw [orderOf, orderOf, node, ← hnode.statement, ← hnode.origin]
    rfl
  rw [horderOf]
  simp only [Node.isExempt, Bool.or_eq_false_iff, beq_eq_false_iff_ne] at hexempt
  obtain ⟨number, line, hread⟩ := h.exists_read hexempt.2
  have hcount : (s.node id).statement.parameters.countP (fun p => p.kind == .expression) ≤ 1 := by
    rw [hread]
    exact Statement.countP_expression_read hg _ _ _
  exact evalOrder_foldl _ _ hcount hp hkind horder {}

/-! ## Commands that stand for shorthands -/

/-- The arrays of a script without problems are small, for all commands that fill them are
counted. -/
theorem Examined.items_lt (h : Expanding e (buildTree e lines) f s g [])
    (hx : Examined s g (s.examine e)) {head : NodeId} (hretired : (s.node head).origin = .header)
    {objects : Option ObjectLibrary}
    (hs : ((buildTree e lines).node head).statement.IsHeader objects) {p : Parameter}
    (hp : p ∈ ((buildTree e lines).node head).statement.parameters) (hkind : p.kind = .valueList) :
    p.items.length < 0x80000000 := by
  obtain ⟨x, hx', hwhole⟩ := h.provenance.whole head hretired
  have hlive : ∀ id, s.isFrom head id = true → (s.node id).isLive = true := by
    intro id hfrom
    simp only [isFrom, Bool.and_eq_true, beq_iff_eq] at hfrom
    rcases (h.prepared id).expanded hfrom.1 with hperforms | hperforms <;>
      simp [Node.isLive, hperforms.standard, hperforms.commented]
  have hlength : (x.front ++ x.inner).length ≤ s.tree.liveCount g.ids := by
    rw [← hwhole, List.length_map, ← List.countP_eq_length_filter]
    exact List.countP_mono_left fun id _ => hlive id
  have hlimit : s.tree.liveCount g.ids ≤ indexLimit := by
    have hnumbered := hx.numbered
    rw [← (h.spans.alike hx.alike).preorder_eq, hx.alike.liveCount_eq, ← hnumbered.count]
    exact hnumbered.limit
  have hitems := hx'.items_lt hs hp hkind
  have hsmall : indexLimit < 0x80000000 := by decide
  omega

theorem Expanding.isHeader (hg : e.grammar.Lawful) (h : Expanding e (buildTree e lines) f s g [])
    (hlog : (s.examine e).log = #[]) {head : NodeId} (hhead : head ∈ g.ids)
    (hretired : (s.node head).origin = .header) :
    ((buildTree e lines).node head).statement.IsHeader e.objects := by
  obtain ⟨hpending, hstatement⟩ := h.provenance.retired head hretired
  have hexempt : (s.node head).isExempt = false := by
    simp [Node.isExempt, hretired, ((h.prepared head).header hretired).2.1]
  have hfindings := (Node.of_complaints_eq_nil (complaints_of_log h.spans hlog hhead) hexempt).2
  refine (nest_prepared e lines head).isHeader hg hpending ?_
  have hsource : ((buildTree e lines).node head).origin = .source := origin_of_pending hpending
  rw [Node.findings, hsource]
  rw [Node.findings, hretired, hstatement] at hfindings
  exact hfindings

theorem Expanding.hasMeaning_of_expanded (he : e.grammar = .builtin)
    (h : Expanding e (buildTree e lines) f s g []) (hlog : (s.examine e).log = #[])
    (hexpanded : (s.node id).origin = .expanded) :
    (s.node id).statement.form.hasMeaning = false := by
  obtain ⟨head, hstems⟩ := h.provenance.generated id hexpanded
  have hheader := h.isHeader (he ▸ builtin_lawful) hlog hstems.head_mem hstems.retired
  obtain ⟨x, hx, hmem⟩ := hstems.statement
  exact (@Generated.StandFor.said e False False _ x hx he hheader (fun hc => hc.elim) (fun hc =>
    hc.elim) _ hmem).1

/-- The parameters of the commands of a script without problems are well typed. -/
theorem Expanding.wellTyped (he : e.grammar = .builtin)
    (h : Expanding e (buildTree e lines) f s g []) (hx : Examined s g (s.examine e))
    (hlog : (s.examine e).log = #[]) (hid : id ∈ g.ids) (hexempt : (s.node id).isExempt = false)
    {p : Parameter} (hp : p ∈ (s.node id).statement.parameters) :
    p.WellTyped e.objects := by
  have hg : e.grammar.Lawful := he ▸ builtin_lawful
  have horigin : (s.node id).origin ≠ .hiddenJump := by
    simp only [Node.isExempt, Bool.or_eq_false_iff, beq_eq_false_iff_ne] at hexempt
    exact hexempt.2
  have htakes : p.kind.Takes p.tokens := by
    obtain ⟨number, line, hread⟩ := h.exists_read horigin
    exact (Statement.read_takes hg _ _ _ (hread ▸ hp)).1
  have hreports : p.reports e.objects ((s.node id).origin == .expanded) = [] :=
    List.flatMap_eq_nil_iff.mp (Node.of_complaints_eq_nil (complaints_of_log h.spans hlog hid)
      hexempt).2 p hp
  by_cases hexpanded : (s.node id).origin = .expanded
  · rw [hexpanded] at hreports
    by_cases hkind : p.kind = .expression
    · -- Expressions are checked in all commands.
      refine Parameter.wellTyped_of_reports htakes ?_
      rw [Parameter.reports, checkParameter, if_pos hkind] at hreports ⊢
      exact hreports
    · obtain ⟨head, hstems⟩ := h.provenance.generated id hexpanded
      have hheader := h.isHeader hg hlog hstems.head_mem hstems.retired
      obtain ⟨x, hx', hmem⟩ := hstems.statement
      refine (@Generated.StandFor.said e False True _ x hx' he hheader (fun hc => hc.elim)
        (fun _ p hp hlist => hx.items_lt h hstems.retired hheader hp hlist) _ hmem).2 p hp ?_
      rw [if_neg hkind]
      trivial
  · rw [beq_eq_false_iff_ne.mpr hexpanded] at hreports
    exact Parameter.wellTyped_of_reports htakes hreports

end

end Session

/-- Every parameter of the commands of a script without problems is of its declared type, whether
the command was written or stands for a shorthand. The evaluation order of an expression is kept. -/
theorem commands_well_typed (v : Version) (arguments : List String) (objects : Option ObjectLibrary)
    (lines : List String) (o : Output)
    (hcompile : compile ⟨.builtin, v, arguments, objects⟩ lines = .ok o)
    (hok : o.isSuccessful = true) :
    ∃ s, Session.compiled ⟨.builtin, v, arguments, objects⟩ lines = .ok s ∧ o = .ofSession s ∧
      o.commands.toList = s.tree.preorder.map (s.commandOf (.of s.tree)) ∧
      ∀ id ∈ s.tree.preorder, (s.node id).statement.commented = false →
        (s.node id).origin ≠ .hiddenJump →
        ∀ p ∈ (s.node id).statement.parameters, p.WellTyped objects ∧
          (p.kind = .expression → Expression.evalOrder p.tokens = .ok (s.node id).evalOrder) := by
  have hg : Grammar.builtin.Lawful := builtin_lawful
  obtain ⟨f, s, g, q, hf, hexpand, h, hspec, hframe, hfinished⟩ :=
    compile_spec (e := ⟨.builtin, v, arguments, objects⟩) hg lines
  obtain rfl := output_of_compiled hspec hcompile
  have hlog : q.log = #[] := Array.isEmpty_iff.mp hok
  have hexamined := (hfinished hlog).examined
  have hempty := hframe.log.symm.trans hlog
  have halike : s.tree.Alike q.tree := hexamined.alike.trans hframe.alike
  refine ⟨q.emit, hspec, rfl, rfl, fun id hid hcommented horigin p hp => ?_⟩
  have hmem : id ∈ g.ids := by
    rw [← (h.spans.alike halike).preorder_eq]
    exact hid
  have hnode := halike.node id
  have hexempt : (s.node id).isExempt = false := by
    have hstatement : (s.node id).statement.commented = false :=
      (congrArg Statement.commented hnode.statement).trans hcommented
    have hjump : (s.node id).origin ≠ .hiddenJump := fun hc => horigin (hnode.origin.symm.trans hc)
    simp [Node.isExempt, hstatement, hjump]
  have hparameter : p ∈ (s.node id).statement.parameters := by
    rw [Session.node, hnode.statement]
    exact hp
  have hwellTyped := h.wellTyped rfl hexamined hempty hmem hexempt hparameter
  refine ⟨hwellTyped, fun hkind => ?_⟩
  obtain ⟨order, horder⟩ := hwellTyped.order hkind
  have hkept : (q.node id).evalOrder = order :=
    (hframe.evalOrder id).trans (h.evalOrder_eq hg hempty hmem hexempt hparameter hkind horder)
  rw [horder, ← hkept]
  rfl

/-- The commands of the sample are well typed, those that stand for its loops included. -/
theorem sampleScript_well_typed :
    ∃ o, compile ⟨.builtin, .albionPrelude, [], none⟩ sampleScript = .ok o ∧
    o.isSuccessful = true ∧ ∃ s, Session.compiled ⟨.builtin, .albionPrelude, [],
      none⟩ sampleScript = .ok s ∧
      o = .ofSession s ∧ ∀ id ∈ s.tree.preorder, (s.node id).statement.commented = false →
        (s.node id).origin ≠ .hiddenJump → ∀ p ∈ (s.node id).statement.parameters,
        p.WellTyped none := by
  obtain ⟨o, hcompile, hok⟩ := sampleScript_compiles
  obtain ⟨s, hs, ho, -, hall⟩ :=
    commands_well_typed .albionPrelude [] none sampleScript o hcompile hok
  exact ⟨o, hcompile, hok, s, hs, ho, fun id hid hcommented horigin p hp =>
    (hall id hid hcommented horigin p hp).1⟩

end GameScript
