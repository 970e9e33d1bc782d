import GameScript.Proofs.Compile.Lines
import GameScript.Proofs.Layout.Levels

/-!
# Printing the source and printing the commands

A script that compiles is printed the same from its lines and from its commands: `render_eq_format`.

The commands that are printed are the lines of the script (`Command.Prints`), and the generated
commands call no label. The two printers see one difference: the line of a shorthand is executed as
a line of the script, but not as a command. It makes none to the layout, because the grammar derives
the lines of a script that compiles, and no shorthand of such a script stands where a `skip if`
waits.

What is printed is a script again, but not always one that compiles: `spacedIndex_lost`.
-/

namespace GameScript

structure Command.Prints (c : Command) (s : Statement) : Prop extends c.Shows s where
  kind : c.kind = s.kind ∨ (c.kind = .auxiliary ∧ (s.part = .shorthand ∨ s.part = .loop))

namespace Layout

variable {called : Std.TreeSet String}

theorem displayCommand_eq {c : Command} {s : Statement} (h : c.Shows s) :
    displayCommand c = if s.form = FormId.nop then none else some s.display := by
  simp only [displayCommand, Statement.display, Statement.isComment, h.form, h.text, h.commented]
  by_cases hnop : s.form = FormId.nop
  · simp [hnop]
  · by_cases hcomment : s.form = FormId.comment
    · simp [hcomment]
    · cases s.commented <;> simp [hnop, hcomment]

theorem ofCommand_eq {c : Command} {s : Statement} (h : c.Prints s) :
    ofCommand called c = ofStatement called s ∨
      ((s.part = .shorthand ∨ s.part = .loop) ∧
        ofCommand called c = retired (ofStatement called s)) := by
  have hprinted : ofCommand called c =
      { ofStatement called s with
        shape := { (ofStatement called s).shape with kind := c.kind } } := by
    have hlabel : ∀ p : String → Bool, c.parameters.head?.any p = s.parameters.head?.any fun q =>
        p q.text := by
      intro p
      rw [h.parameters, List.head?_map, Option.any_map]
    simp only [ofCommand, displayCommand_eq h.toShows, hlabel, h.role, h.commented, h.form]
    rfl
  rw [hprinted]
  rcases h.kind with hkind | ⟨hkind, hpart⟩
  · left
    rw [hkind]
    rfl
  · right
    rw [hkind]
    exact ⟨hpart, rfl⟩

/-- The labels that the printed commands call are those that the lines call. -/
theorem calledByCommands_eq {cs : List Command} {ss : List Statement}
    (h : List.Forall₂ Command.Prints cs ss) :
    calledByCommands cs = calledBy ss := by
  rw [calledByCommands, calledBy]
  congr 1
  induction h with
  | nil => rfl
  | cons hc _ ih =>
    rw [List.filter_cons, List.filter_cons, hc.commented, hc.form]
    split
    · rw [List.filterMap_cons, List.filterMap_cons, ih, hc.parameters, List.head?_map]
    · exact ih

/-- Commands that are not printed call no label. -/
theorem calledByCommands_filter {cs : List Command}
    (h : ∀ c ∈ cs, c.isPrintable = false → c.form ≠ FormId.gosub) :
    calledByCommands (cs.filter Command.isPrintable) = calledByCommands cs := by
  rw [calledByCommands, calledByCommands, List.filter_filter]
  congr 2
  refine List.filter_congr fun c hc => ?_
  cases hprintable : c.isPrintable with
  | true => exact Bool.and_true _
  | false => simp [h c hc hprintable]

end Layout

namespace Session

variable {e : Setting} {lines : List String} {f g : Forest} {s : Session}

/-- A line that is printed back is printed as what was read. -/
theorem Provenance.prints (hg : e.grammar.Lawful) (h : Provenance e (buildTree e lines) f s g)
    (o : Order) {id : NodeId} {r : Reading} (hr : (buildTree e lines).Holds id r)
    (hprintable : (s.node id).origin.isGenerated = false) :
    (s.commandOf o id).Prints r.statement := by
  refine ⟨h.shows o hr hprintable, ?_⟩
  cases horigin : (s.node id).origin with
  | source =>
    left
    show (s.node id).statement.kind = r.statement.kind
    rw [(h.source id horigin).2.1, hr.statement]
  | header =>
    right
    obtain ⟨hpending, hstatement⟩ := h.retired id horigin
    refine ⟨congrArg Statement.kind hstatement, ?_⟩
    rw [← hr.part_eq, Tree.part, (nest_prepared e lines id).part_of_pending hg hpending]
    split
    · exact .inr rfl
    · exact .inl rfl
  | expanded | hiddenJump =>
    rw [horigin] at hprintable
    cases hprintable

theorem form_ne_gosub {n : Node} (h : n.Prepared e) (hgenerated : n.origin.isGenerated = true) :
    n.statement.form ≠ FormId.gosub := by
  cases horigin : n.origin with
  | source | header =>
    rw [horigin] at hgenerated
    cases hgenerated
  | hiddenJump =>
    obtain ⟨line, hstatement⟩ := h.hiddenJump horigin
    rw [hstatement]
    exact (by decide : FormId.hiddenJump ≠ FormId.gosub)
  | expanded =>
    have hcontrol : n.statement.form.isControl = false := by
      rcases h.expanded horigin with hperforms | hperforms <;> exact hperforms.control
    intro hc
    rw [hc] at hcontrol
    cases hcontrol

/-- The commands that are printed are the lines of the script. -/
theorem Provenance.forall₂_prints (hg : e.grammar.Lawful) (hf : (buildTree e lines).Spans f)
    (h : Provenance e (buildTree e lines) f s g) (o : Order) :
    List.Forall₂ Command.Prints ((g.ids.map (s.commandOf o)).filter Command.isPrintable)
      ((Statement.readAll e.grammar e.version lines).map (·.statement)) := by
  have hholds := buildTree_holds hf
  rw [← h.written] at hholds
  rw [List.filter_map, List.forall₂_map_left_iff, List.forall₂_map_right_iff]
  have hall := (List.forall₂_and_left _ _).mpr ⟨fun id hid => (List.mem_filter.mp hid).2, hholds⟩
  exact hall.imp fun id r hid => h.prints hg o hid.2 (by simpa using hid.1)

end Session

/-- The printer sees in the commands of a script without problems what it sees in the lines. -/
theorem Session.Finished.render_eq {v : Version} {arguments : List String}
    {objects : Option ObjectLibrary} {lines : List String} {g : Forest} {s x q : Session}
    (hfinished : Finished ⟨.builtin, v, arguments, objects⟩ lines g s x q) (width : Nat) :
    Layout.render width (Output.ofSession q.emit).commands.toList =
      Layout.format .builtin v width lines := by
  obtain ⟨f, hf, h⟩ := hfinished.expanding
  have halike : s.tree.Alike q.emit.tree := hfinished.examined.alike.trans hfinished.frame.alike
  have hspans : q.emit.tree.Spans g := h.spans.alike halike
  have hprovenance : Session.Provenance _ _ f q.emit g := h.provenance.alike halike
  have hcommands : (Output.ofSession q.emit).commands.toList =
      g.ids.map (q.emit.commandOf (.of q.emit.tree)) := by
    rw [← hspans.preorder_eq]
    rfl
  have hprints := hprovenance.forall₂_prints builtin_lawful hf (.of q.emit.tree)
  rw [← hcommands] at hprints
  have hcalled : Layout.calledByCommands (Output.ofSession q.emit).commands.toList =
      Layout.calledBy ((Statement.readAll .builtin v lines).map (·.statement)) := by
    rw [← Layout.calledByCommands_eq hprints]
    refine (Layout.calledByCommands_filter fun c hc hprintable => ?_).symm
    rw [hcommands] at hc
    obtain ⟨id, -, rfl⟩ := List.mem_map.mp hc
    have horigin : (q.emit.tree.node id).origin.isGenerated = true :=
      (Bool.not_eq_false' _).mp hprintable
    show (q.emit.tree.node id).statement.form ≠ FormId.gosub
    rw [← halike.origin_eq id] at horigin
    rw [← halike.statement_eq id]
    exact Session.form_ne_gosub (h.prepared id) horigin
  -- The grammar derives the lines, so no shorthand stands where a `skip if` waits.
  have hderives :=
    (h.sound_iff_derives hf).mp (hfinished.examined.block.sound fun hc => absurd rfl hc)
  have hclear := (hderives.levels (show Settled [] by simp [Settled])).clear
  rw [Layout.render, Layout.format, hcalled, Layout.print, Layout.print]
  refine congrArg (fun p : Indentation × Array String => p.2.toList)
    (Layout.print_retired ?_ ?_ ?_ #[])
  · intro s hs
    obtain ⟨r, hr, rfl⟩ := List.mem_map.mp hs
    exact readAll_regular _ _ _ r hr
  · rw [List.forall₂_map_left_iff]
    exact hprints.imp fun c s hc => Layout.ofCommand_eq hc
  · rw [List.map_map]
    exact hclear

/-- A script that compiles is printed the same from its commands and from its lines, whatever the
width of the indentation. -/
theorem render_eq_format (v : Version) (arguments : List String) (objects : Option ObjectLibrary)
    (lines : List String) (o : Output)
    (hcompile : compile ⟨.builtin, v, arguments, objects⟩ lines = .ok o)
    (hok : o.isSuccessful = true) (width : Nat) :
    Layout.render width o.commands.toList = Layout.format .builtin v width lines := by
  obtain ⟨g, s, q, _, rfl, hfinished, -⟩ :=
    finished_of_compile (e := ⟨.builtin, v, arguments, objects⟩) builtin_lawful hcompile hok
  exact hfinished.render_eq width

/-- The sample is printed the same in both ways, its shorthands included. -/
theorem sampleScript_render :
    ∃ o, compile ⟨.builtin, .albionPrelude, [], none⟩ sampleScript = .ok o ∧
    o.isSuccessful = true ∧
    Layout.render 2 o.commands.toList = Layout.format .builtin .albionPrelude 2 sampleScript := by
  obtain ⟨o, hcompile, hok⟩ := sampleScript_compiles
  exact ⟨o, hcompile, hok, render_eq_format .albionPrelude [] none sampleScript o hcompile hok 2⟩

set_option maxRecDepth 20000 in
theorem spacedIndex_evaluates :
    (compile ⟨.builtin, .albionPrelude, [], none⟩ ["$x = $a[ null ]"]).toOption.any (fun o =>
      o.isSuccessful && Layout.render 2 o.commands.toList == ["$x = $a[null]"]) = true ∧
    (compile ⟨.builtin, .albionPrelude, [], none⟩ ["$x = $a[null]"]).toOption.any (fun o =>
      !o.isSuccessful) = true := by
  rw [Grammar.builtin_eq]
  decide +kernel

/-- What is printed need not compile: an index that is a name is printed without blanks, which is
how a script object is written. -/
theorem spacedIndex_lost :
    ∃ o o', compile ⟨.builtin, .albionPrelude, [], none⟩ ["$x = $a[ null ]"] = .ok o ∧
      o.isSuccessful = true ∧
      compile ⟨.builtin, .albionPrelude, [], none⟩ (Layout.render 2 o.commands.toList) = .ok o' ∧
      o'.isSuccessful = false := by
  obtain ⟨o, hcompile, htests⟩ := exists_ok_of_any spacedIndex_evaluates.1
  obtain ⟨o', hcompile', hfails⟩ := exists_ok_of_any spacedIndex_evaluates.2
  simp only [Bool.and_eq_true, beq_iff_eq] at htests
  obtain ⟨hok, hprinted⟩ := htests
  exact ⟨o, o', hcompile, hok, hprinted ▸ hcompile', (Bool.not_eq_true' _).mp hfails⟩

end GameScript
