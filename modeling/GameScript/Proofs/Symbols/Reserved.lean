import GameScript.Proofs.Compile.Typing
import GameScript.Proofs.Shorthand.Freshness
import GameScript.Proofs.Symbols.Variables

/-!
# Reserved names

Names that start with two underscores belong to the compiler. Lines that use one are reported, so
that in a script without problems only the commands that stand for a shorthand have such names. A
loop draws its name from those that are not taken, and no other command has it:
`reserved_names_belong_to_loops`.

Arguments are not reported. So an argument can have the name that a loop draws:
`argument_shared_with_loop`.
-/

namespace GameScript

def IsReserved (name : String) : Prop := reservedMark.toList <+: name.toList

/-! ## Lines with reserved names are reported -/

/-- The names of a shorthand that waits are looked at. -/
theorem Statement.namesCount_of_pending {n : Node} (h : Session.isPendingShorthand n = true) :
    Session.NamesCount { n.statement with kind := .auxiliary } := by
  simp only [Session.isPendingShorthand, Bool.and_eq_true, Bool.not_eq_true'] at h
  obtain ⟨⟨⟨-, hcommented⟩, -⟩, hform⟩ := h
  refine ⟨hcommented, bne_iff_ne.mpr fun hc => ?_⟩
  have hunrecognised : n.statement.form = FormId.unrecognised := hc
  rw [hunrecognised] at hform
  cases hform

namespace Session

section

variable {s : Session} {id : NodeId}

theorem not_isReserved_of_reserved? {tokens : List Token} (h : reserved? tokens = none) {t : Token}
    (ht : t ∈ tokens) :
    ¬IsReserved t.value := by
  intro hreserved
  refine List.find?_eq_none.mp h t ht ?_
  exact List.isPrefixOf_iff_prefix.mpr hreserved

/-- If nothing is reported, no line of the script has a reserved name. -/
theorem examine_unreserved {e : Setting} (hlog : (s.examine e).log = #[])
    (hid : id ∈ s.tree.preorder) (hcount : NamesCount (s.node id).statement)
    (hwritten : isUserWritten (s.node id) = true) {v : Token}
    (hv : v ∈ (s.node id).statement.vars) : ¬IsReserved v.value := by
  obtain ⟨a, b, -, hproblems⟩ :=
    s.tree.exists_nameProblems (declareArguments e.arguments s.symbols) hid
  have hquiet := nameReports_of_log ((identifyNames_grows e s).log_eq_empty hlog)
  rw [node] at hcount hwritten hv
  refine not_isReserved_of_reserved? (Option.eq_none_iff_forall_ne_some.mpr fun w hw => ?_) hv
  have hreported := hproblems (.nameReserved w.text reservedMark) (by
    rw [Node.nameProblems_of_counts hcount, Node.variableProblems, if_pos hwritten, hw]
    simp)
  rw [hquiet] at hreported
  cases hreported

end

/-! ## The names of loops -/

/-- A generated node has the names of its shorthand, and names that were made for one loop. -/
structure Allots (s : Session) (g : Forest) : Prop where
  taken : Taken s g
  named : ∀ id ∈ g.ids, (s.node id).origin = .expanded → ∀ v ∈ (s.node id).statement.vars,
    (∃ head, (s.node id).header = some head ∧ ∃ w ∈ (s.node head).statement.vars,
      w.value = v.value) ∨
      ∃ head, Owns s g.ids head v.value

section

variable {e : Setting} {t : Tree} {f g g' : Forest} {s s' : Session} {header id : NodeId}
  {rest : List NodeId}

theorem Owns.alike {ids : List NodeId} {head : NodeId} {name : String} (h : Owns s ids head name)
    (halike : s.tree.Alike s'.tree) : Owns s' ids head name := by
  have hstatement : ∀ id, (s'.node id).statement = (s.node id).statement :=
    fun id => (halike.statement_eq id).symm
  have horigin : ∀ id, (s'.node id).origin = (s.node id).origin :=
    fun id => (halike.origin_eq id).symm
  have hheader : ∀ id, (s'.node id).header = (s.node id).header :=
    fun id => (halike.header_eq id).symm
  refine ⟨h.drawn, ?_, ?_, fun id hid t ht hname => ?_⟩
  · rw [horigin]
    exact h.retired
  · rw [hstatement]
    exact h.loop
  · rw [hstatement] at ht
    rw [horigin, hheader]
    exact h.only id hid t ht hname

/-- The shorthand that is expanded was written by the user, and stays so. -/
theorem Unfolds.origin_header (h : Unfolds e s g header s' g')
    (hx : Expanding e t f s g (header :: rest)) :
    (s'.node header).origin ≠ .expanded := by
  obtain ⟨hheader, hpending⟩ := hx.waiting header (by simp)
  have hreport : ∀ (s : Session) (p : Problem), ((s.report header p).node header).origin =
      (s.node header).origin :=
    fun s p => Tree.read_modify s.tree header header Node.origin fun _ => rfl
  have hsource : (s.node header).origin ≠ .expanded := by simp [origin_of_pending hpending]
  cases h with
  | reported p _ =>
    rw [hreport]
    exact hsource
  | @replaced _ _ y _ _ parent _ =>
    have hlt : header < s.tree.size := hx.spans.lt_size hheader
    have hretired : ((s.tree.replace parent header y).node header).origin = .header :=
      congrArg Node.origin (Tree.node_replace_header y parent hlt)
    show ((s.tree.replace parent header y).node header).origin ≠ .expanded
    simp [hretired]

theorem Unfolds.vars_eq (h : Unfolds e s g header s' g') (hid : id < s.tree.size) :
    (s'.node id).statement.vars = (s.node id).statement.vars :=
  h.read_eq_of_retired hid fun n => n.statement.vars

theorem Allots.step (ha : Allots s g) (h : Unfolds e s g header s' g')
    (hx : Expanding e t f s g (header :: rest)) (he : e.grammar = .builtin) : Allots s' g' := by
  obtain ⟨hmem, hpending⟩ := hx.waiting header (by simp)
  have hlt : ∀ {j}, j ∈ g.ids → j < s.tree.size := fun hj => hx.spans.lt_size hj
  refine ⟨ha.taken.step h hx he, fun id hid horigin v hv => ?_⟩
  rcases h.node_cases hx hid with ⟨hold, hvars⟩ | ⟨x, y, hplan, hread, i, rfl, hget⟩
  · have hne : id ≠ header := by
      rintro rfl
      exact h.origin_header hx horigin
    rw [h.read_eq (hlt hold) hne Node.origin] at horigin
    rw [hvars] at hv
    rw [h.read_eq (hlt hold) hne Node.header]
    refine (ha.named id hold horigin v hv).imp ?_ ?_
    · rintro ⟨head, hfrom, w, hw, hname⟩
      obtain ⟨other, hstems⟩ := hx.provenance.generated id horigin
      obtain rfl : other = head := Option.some.inj (hstems.header.symm.trans hfrom)
      refine ⟨other, hfrom, w, ?_, hname⟩
      rw [h.vars_eq (hlt hstems.head_mem)]
      exact hw
    · rintro ⟨head, ho⟩
      exact ⟨head, ho.step (ha.taken id hold v hv) h hx he⟩
  · obtain ⟨-, hfrom, hretired⟩ := h.of_size_le hx hid (Nat.le_add_right _ _)
    -- The names in a new node are those of the shorthand, or the one that was drawn.
    have hnamed := hread.named
      (P := fun name => (∃ w ∈ (s.node header).statement.vars, w.value = name) ∨
        (s'.names = s.names.fresh.2 ∧ name = s.names.fresh.1))
      hplan he ((hx.prepared header).isCut he hpending) (fun hfresh => .inr ⟨hfresh, rfl⟩)
      (fun w hw => .inl ⟨w, hw, rfl⟩) _ (List.mem_of_getElem? hget) v hv
    rcases hnamed with ⟨w, hw, hname⟩ | ⟨hfresh, hname⟩
    · refine .inl ⟨header, hfrom, w, ?_, hname⟩
      rw [h.vars_eq (hlt hmem)]
      exact hw
    · refine .inr ⟨header, ?_⟩
      rw [hname]
      exact h.owns_fresh hx ha.taken hplan hfresh hretired

end

/-! ## Scripts without problems -/

section

variable {e : Setting} {lines : List String} {f g : Forest} {s : Session} {id : NodeId}

/-- A script is expanded such that its loops have their names for themselves. -/
theorem exists_allots (he : e.grammar = .builtin) (hf : (buildTree e lines).Spans f)
    (hexpand : (Session.start (buildTree e lines)).expand e = .ok s) :
    ∃ g, Expanding e (buildTree e lines) f s g [] ∧ Allots s g := by
  have hg : e.grammar.Lawful := he ▸ builtin_lawful
  have hbegin := start_expanding hg lines hf
  have hstart : Allots (Session.start (buildTree e lines)).seedNames f := by
    refine ⟨taken_start hf, fun id _ horigin => ?_⟩
    -- Nothing is generated before the first step.
    obtain ⟨head, hstems⟩ := hbegin.provenance.generated id horigin
    have hpending := (hbegin.provenance.retired head hstems.retired).1
    cases (origin_of_pending hpending).symm.trans hstems.retired
  obtain ⟨u, g, hrun, hx, hallots⟩ := hbegin.run_keeps (P := fun s g _ => Allots s g) hg
    (fun hx hallots hunfolds => hallots.step hunfolds hx he) hstart
  obtain rfl := Except.ok.inj (hrun.symm.trans hexpand)
  exact ⟨g, hx, hallots⟩

/-- In a script without problems a reserved name belongs to the loop that it was made for. -/
theorem Allots.exists_owns (ha : Allots s g) (h : Expanding e (buildTree e lines) f s g [])
    (hlog : (s.examine e).log = #[]) {name : String} (hreserved : IsReserved name)
    (hid : id ∈ s.tree.preorder) (hname : name ∈ (s.node id).statement.mentions) :
    ∃! head, head ∈ s.tree.preorder ∧ Owns s s.tree.preorder head name := by
  have hids : s.tree.preorder = g.ids := h.spans.preorder_eq
  have hunreserved : ∀ id ∈ s.tree.preorder, NamesCount (s.node id).statement →
      isUserWritten (s.node id) = true →
      ∀ v ∈ (s.node id).statement.vars, ¬IsReserved v.value :=
    fun _ hid hcount hwritten _ hv => examine_unreserved hlog hid hcount hwritten hv
  obtain ⟨hcount, v, hv, rfl⟩ := Statement.mem_mentions.mp hname
  have horigin : (s.node id).origin = .expanded := by
    have hwritten : isUserWritten (s.node id) ≠ true :=
      fun hc => hunreserved id hid hcount hc v hv hreserved
    cases hsame : (s.node id).origin with
    | expanded => rfl
    | source | header => simp [isUserWritten, hsame] at hwritten
    | hiddenJump =>
      obtain ⟨line, hjump⟩ := (h.prepared id).hiddenJump hsame
      rw [hjump] at hv
      cases hv
  obtain ⟨head, hstems⟩ := h.provenance.generated id horigin
  rw [hids] at hid ⊢
  have hmem : head ∈ g.ids := hstems.head_mem
  rcases ha.named id hid horigin v hv with ⟨other, hfrom, w, hw, hvalue⟩ | ⟨other, ho⟩
  · -- The shorthand itself would have the name.
    obtain rfl : head = other := Option.some.inj (hstems.header.symm.trans hfrom)
    obtain ⟨hpending, hstatement⟩ := h.provenance.retired head hstems.retired
    have hcounts : NamesCount (s.node head).statement := by
      rw [hstatement]
      exact Statement.namesCount_of_pending hpending
    have hwritten : isUserWritten (s.node head) = true := by simp [isUserWritten, hstems.retired]
    exact absurd (hvalue ▸ hreserved) (hunreserved head (hids ▸ hmem) hcounts hwritten w hw)
  · have hfrom : ∀ {j}, Owns s g.ids j v.value → j = head := fun hj =>
      Option.some.inj ((hj.only id hid v hv rfl).2.symm.trans hstems.header)
    obtain rfl := hfrom ho
    exact ⟨other, ⟨hmem, ho⟩, fun j hj => hfrom hj.2⟩

end

end Session

/-! ## The reserved names of a compiled script -/

/-- In a script without problems a reserved name that a command mentions was made for exactly one
loop, and only the commands that stand for the loop have it. A variable with a reserved name is such
a name, or it is an argument. -/
theorem reserved_names_belong_to_loops (v : Version) (arguments : List String)
    (objects : Option ObjectLibrary) (lines : List String) (o : Output)
    (hcompile : compile ⟨.builtin, v, arguments, objects⟩ lines = .ok o)
    (hok : o.isSuccessful = true) :
    ∃ s, Session.compiled ⟨.builtin, v, arguments, objects⟩ lines = .ok s ∧ o = .ofSession s ∧
      o.commands.toList = s.tree.preorder.map (s.commandOf (.of s.tree)) ∧
      (∀ name, IsReserved name → ∀ id ∈ s.tree.preorder, name ∈ (s.node id).statement.mentions →
        ∃! head, head ∈ s.tree.preorder ∧ s.Owns s.tree.preorder head name) ∧
      ∀ symbol ∈ o.variables, IsReserved symbol.name →
        (symbol.kind = .argument ∧
          symbol.name ∈ arguments.map fun a => String.ofList (a.toList.dropWhile (· == '$'))) ∨
        (symbol.kind ≠ .argument ∧
          (∃ id ∈ s.tree.preorder, symbol.name ∈ (s.node id).statement.mentions) ∧
          ∃! head, head ∈ s.tree.preorder ∧ s.Owns s.tree.preorder head symbol.name) := by
  obtain ⟨f, s, g, q, hf, hexpand, hexpanding, hspec, hframe, -⟩ :=
    compile_spec (e := ⟨.builtin, v, arguments, objects⟩) builtin_lawful lines
  obtain rfl := output_of_compiled hspec hcompile
  have hlog : (s.examine ⟨.builtin, v, arguments, objects⟩).log = #[] :=
    hframe.log.symm.trans (Array.isEmpty_iff.mp hok)
  have hpasses := runPasses_of_compiled hexpand hspec
  have hdeclares := hexpanding.declares builtin_lawful (Session.withinLimit_of_log hlog) hpasses
  obtain ⟨g, h, hallots⟩ := Session.exists_allots rfl hf hexpand
  -- What was found out about the expanded tree holds of the compiled one.
  have horder : q.emit.tree.preorder = s.tree.preorder := by
    rw [(h.spans.alike hdeclares.alike).preorder_eq, h.spans.preorder_eq]
  have hstatement : ∀ id, (q.emit.node id).statement = (s.node id).statement :=
    fun id => (hdeclares.alike.statement_eq id).symm
  have howns : ∀ name, IsReserved name → ∀ id ∈ q.emit.tree.preorder,
      name ∈ (q.emit.node id).statement.mentions →
      ∃! head, head ∈ q.emit.tree.preorder ∧ q.emit.Owns q.emit.tree.preorder head name := by
    intro name hreserved id hid hname
    rw [horder] at hid ⊢
    rw [hstatement] at hname
    obtain ⟨head, ⟨hmem, ho⟩, hunique⟩ := hallots.exists_owns h hlog hreserved hid hname
    exact ⟨head, ⟨hmem, ho.alike hdeclares.alike⟩,
      fun j hj => hunique j ⟨hj.1, hj.2.alike hdeclares.alike.symm⟩⟩
  refine ⟨q.emit, hspec, rfl, rfl, howns, fun symbol hsymbol hreserved => ?_⟩
  have hvariables : (Output.ofSession q.emit).variables = q.emit.symbols.vars.toList :=
    hdeclares.rolls.filter_toList
  rw [hvariables] at hsymbol
  rcases hdeclares.rolls.kind_cases hsymbol with ⟨hkind, hargument⟩ | ⟨hkind, -, hname⟩
  · exact .inl ⟨hkind, hargument⟩
  · obtain ⟨id, hid, hmentions⟩ := List.mem_flatMap.mp hname
    rw [← horder] at hid
    rw [← hstatement] at hmentions
    exact .inr ⟨hkind, ⟨id, hid, hmentions⟩, howns symbol.name hreserved id hid hmentions⟩

/-- The variable that was made for the loop is no argument. -/
theorem callingScript_reserved :
    ∃ o s, compile ⟨.builtin, .albionPrelude, ["$limit", "i", "$$limit"],
      none⟩ callingScript = .ok o ∧
      o.isSuccessful = true ∧
      Session.compiled ⟨.builtin, .albionPrelude, ["$limit", "i", "$$limit"],
        none⟩ callingScript = .ok s ∧
      ∃ symbol ∈ o.variables, symbol.name = "__msci_iterator0" ∧
        ∃! head, head ∈ s.tree.preorder ∧ s.Owns s.tree.preorder head "__msci_iterator0" := by
  obtain ⟨o, hcompile, hok, hsymbols⟩ := callingScript_compiles
  have hmem : ("__msci_iterator0", 2, SymbolKind.var) ∈ o.symbols.map fun s =>
      (s.name, s.id, s.kind) := by
    rw [hsymbols]
    decide
  obtain ⟨symbol, hsymbol, heq⟩ := List.mem_map.mp hmem
  simp only [Prod.mk.injEq] at heq
  obtain ⟨hname, -, hkind⟩ := heq
  have hvariable : symbol ∈ o.variables := List.mem_filter.mpr ⟨hsymbol, by simp [hkind]⟩
  obtain ⟨s, hs, -, -, -, hreserved⟩ :=
    reserved_names_belong_to_loops .albionPrelude ["$limit", "i", "$$limit"] none
    callingScript o hcompile hok
  refine ⟨o, s, hcompile, hok, hs, symbol, hvariable, hname, ?_⟩
  rcases hreserved symbol hvariable (by rw [hname]; exact ⟨_, rfl⟩) with ⟨hargument, -⟩ | ⟨-,
    -, howns⟩
  · cases hkind.symm.trans hargument
  · exact hname ▸ howns

/-! ## An argument with the name that a loop draws -/

def shortLoop : List String := ["for $i = 1 to 3", "$x = $i", "end"]

set_option maxRecDepth 20000 in
theorem shortLoop_evaluates :
    (compile ⟨.builtin, .albionPrelude, ["$__msci_iterator0"], none⟩ shortLoop).toOption.any
      (fun o =>
      o.isSuccessful &&
        o.variables.any (fun s => s.name == "__msci_iterator0" && s.kind == .argument &&
          s.id == 0) &&
        o.commands.toList.any (fun c => c.origin == .expanded &&
          c.returnValue == some (.assignment 0))) = true := by
  rw [Grammar.builtin_eq]
  decide +kernel

/-- The loop writes to the argument. -/
theorem argument_shared_with_loop :
    ∃ o, compile ⟨.builtin, .albionPrelude, ["$__msci_iterator0"], none⟩ shortLoop = .ok o ∧
      o.isSuccessful = true ∧
      ∃ symbol ∈ o.variables, IsReserved symbol.name ∧ symbol.kind = .argument ∧
        ∃ c ∈ o.commands.toList, c.origin = .expanded ∧
          c.returnValue = some (.assignment symbol.id) := by
  obtain ⟨o, hcompile, htests⟩ := exists_ok_of_any shortLoop_evaluates
  simp only [Bool.and_eq_true, List.any_eq_true, beq_iff_eq] at htests
  obtain ⟨⟨hok, symbol, hsymbol, ⟨hname, hkind⟩, hid⟩, c, hc, horigin, hvalue⟩ := htests
  refine ⟨o, hcompile, hok, symbol, hsymbol, ?_, hkind, c, hc, horigin, hid ▸ hvalue⟩
  rw [hname]
  exact ⟨_, rfl⟩

end GameScript
