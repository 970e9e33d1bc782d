import GameScript.Grammar.Builtin
import GameScript.Proofs.Compile.Spec

/-!
# Which scripts are accepted

* `compile_isOk`: no script makes the compiler fail.
* `logic_accepts_iff_derives`: the block structure of a script is accepted exactly when the grammar
  derives its lines.
* `logic_accepts_congr`: blank lines, comments and commands that are commented out make no
  difference to that.
* `blankLine_parts_branch`: of a script that is not accepted, even a blank line can change the
  problems.
-/

namespace GameScript

/-- No script makes the compiler fail, whatever its lines, its arguments, the release and the
library. -/
theorem compile_isOk (v : Version) (arguments : List String) (objects : Option ObjectLibrary)
    (lines : List String) : ∃ o, compile ⟨.builtin, v, arguments, objects⟩ lines = .ok o := by
  obtain ⟨_, _, _, q, _, _, _, hcompile, _⟩ := compile_spec (e := ⟨.builtin, v, arguments, objects⟩)
    builtin_lawful lines
  exact ⟨.ofSession q.emit, compile_of_compiled hcompile⟩

/-! ## A script with all kinds of blocks -/

/-- A script with all kinds of blocks, with shorthands and with jumps out of a loop. -/
def sampleScript : List String :=
  ["dim $a = 1, -2", "for $i = 0 to 1", "skip if $a[$i]", "continue", "if not $i < 1",
    "break", "else", "$i = $i + 1", "end", "end"]

/-- The commands of the script that jump, each with its index, its text and where it may lead. -/
def sampleJumps : List (Option UInt16 × String × UInt16) :=
  [(some 5, "while $i < $__msci_iterator0", 14), (some 7, "skip if $a[$i]", 9),
    (some 8, "continue", 5), (some 9, "if not $i < 1", 12), (some 10, "break", 14),
    (some 11, "", 13), (some 13, "", 5)]

set_option maxRecDepth 20000 in
theorem sampleScript_evaluates :
    ((Statement.readAll .builtin .albionPrelude sampleScript).all fun r =>
      r.diagnostic.isNone && !r.statement.form.isTransfer) = true ∧
    (((Session.start (buildTree ⟨.builtin, .albionPrelude, [], none⟩ sampleScript)).expand
      ⟨.builtin, .albionPrelude, [], none⟩).toOption.any fun s => s.log.isEmpty) = true ∧
    ((compile ⟨.builtin, .albionPrelude, [], none⟩ sampleScript).toOption.any fun o =>
      o.isSuccessful &&
      (o.commands.toList.filterMap fun c => c.destination?.map fun d => (c.index, c.text, d)) ==
        sampleJumps) = true := by
  rw [Grammar.builtin_eq]
  decide +kernel

/-- The script is compiled without problems, and these are its jumps. -/
theorem sampleScript_jumps :
    ∃ o, compile ⟨.builtin, .albionPrelude, [], none⟩ sampleScript = .ok o ∧
    o.isSuccessful = true ∧
    (o.commands.toList.filterMap fun c => c.destination?.map fun d => (c.index, c.text, d)) =
      sampleJumps := by
  obtain ⟨o, hcompile, h⟩ := exists_ok_of_any sampleScript_evaluates.2.2
  rw [Bool.and_eq_true, beq_iff_eq] at h
  exact ⟨o, hcompile, h⟩

theorem sampleScript_compiles :
    ∃ o, compile ⟨.builtin, .albionPrelude, [], none⟩ sampleScript = .ok o ∧
    o.isSuccessful = true := by
  obtain ⟨o, hcompile, hok, -⟩ := sampleScript_jumps
  exact ⟨o, hcompile, hok⟩

/-- Its shorthands are expanded without problems. -/
theorem sampleScript_expands : ∃ s, (Session.start (buildTree ⟨.builtin, .albionPrelude, [], none⟩
    sampleScript)).expand ⟨.builtin, .albionPrelude, [], none⟩ = .ok s ∧ s.log = #[] := by
  obtain ⟨s, hexpand, hlog⟩ := exists_ok_of_any sampleScript_evaluates.2.1
  exact ⟨s, hexpand, Array.isEmpty_iff.mp hlog⟩

/-- Its lines are read without problems, and none of them leaves the order of the lines. -/
theorem sampleScript_reads : ∀ r ∈ Statement.readAll .builtin .albionPrelude sampleScript,
    r.diagnostic = none ∧ r.statement.form.isTransfer = false := by
  intro r hr
  have h := List.all_eq_true.mp sampleScript_evaluates.1 r hr
  simpa using h

/-! ## The block structure -/

/-- If all lines were read without problems, so were all nodes of the tree. -/
theorem buildTree_diagnostic {e : Setting} {lines : List String}
    (h : ∀ r ∈ Statement.readAll e.grammar e.version lines, r.diagnostic = none) (id : NodeId) :
    ((buildTree e lines).node id).diagnostic = none :=
  nest_forall (P := fun n => n.diagnostic = none) rfl (fun _ => rfl) h id

/-- The expanded script is sound exactly when the grammar derives the lines. -/
theorem Session.Expanding.sound_iff_derives {e : Setting} {lines : List String} {f g : Forest}
    {s : Session} (hf : (buildTree e lines).Spans f)
    (h : Expanding e (buildTree e lines) f s g []) :
    Sound s.tree.part false false false g ↔
      Derives false .script ((Statement.readAll e.grammar e.version lines).map fun r =>
        r.statement.part) := by
  have hregular := readAll_regular e.grammar e.version lines
  constructor
  · intro hs
    exact (block_of_sound hregular hf (h.sound hs)).1
  · intro hd
    exact (h.block (block_of_derives hregular hf hd)).sound fun hc => absurd rfl hc

/-- The block structure of a script is accepted exactly when the expanded script is sound. All lines
are read without problems here and all shorthands are expanded. -/
theorem exists_accepted_iff_sound {e : Setting} (hg : e.grammar.Lawful) {lines : List String}
    {s : Session} (hread : ∀ r ∈ Statement.readAll e.grammar e.version lines, r.diagnostic = none)
    (hexpand : (Session.start (buildTree e lines)).expand e = .ok s) (hlog : s.log = #[]) :
    ∃ o f g, compile e lines = .ok o ∧ (buildTree e lines).Spans f ∧
      Session.Expanding e (buildTree e lines) f s g [] ∧
      ((∀ d ∈ o.log, d.isLogic = false) ↔ Sound s.tree.part false false false g) := by
  obtain ⟨f, s', g, q, hf, hexpand', h, hcompile, hframe, _⟩ := compile_spec hg lines
  obtain rfl : s' = s := Except.ok.inj (hexpand'.symm.trans hexpand)
  have hdiagnostic : ∀ id, (s'.node id).diagnostic = none := by
    intro id
    by_cases horigin : (s'.node id).origin = .source
    · rw [(h.provenance.source id horigin).2.2]
      exact buildTree_diagnostic hread id
    · exact (h.prepared id).diagnostic horigin
  have hsettled := h.settled_of_log hlog fun id _ => hdiagnostic id
  refine ⟨_, f, g, compile_of_compiled hcompile, hf, h, ?_⟩
  change (∀ d ∈ q.log, _) ↔ _
  rw [hframe.log, Session.logic_diagnostics_iff hlog hdiagnostic]
  exact Tree.blockDiagnostics_eq_nil h.spans (fun id => (h.prepared id).regular) hsettled h.root

/-- The block structure of a script is accepted exactly when the grammar derives its lines. All
lines are read without problems here and all shorthands are expanded. -/
theorem logic_accepts_iff_derives (v : Version) (arguments : List String)
    (objects : Option ObjectLibrary) (lines : List String) (s : Session)
    (hread : ∀ r ∈ Statement.readAll .builtin v lines, r.diagnostic = none)
    (hexpand : (Session.start (buildTree ⟨.builtin, v, arguments, objects⟩ lines)).expand
      ⟨.builtin, v, arguments, objects⟩ = .ok s) (hlog : s.log = #[]) :
    ∃ o, compile ⟨.builtin, v, arguments, objects⟩ lines = .ok o ∧
      ((∀ d ∈ o.log, d.isLogic = false) ↔
        Derives false .script ((Statement.readAll .builtin v lines).map fun r =>
          r.statement.part)) := by
  obtain ⟨o, f, g, hcompile, hf, h, hsound⟩ :=
    exists_accepted_iff_sound builtin_lawful hread hexpand hlog
  exact ⟨o, hcompile, hsound.trans (h.sound_iff_derives hf)⟩

/-- The block structure of the sample is accepted, and the grammar derives it. -/
theorem sampleScript_derives :
    (∀ r ∈ Statement.readAll .builtin .albionPrelude sampleScript, r.diagnostic = none) ∧
    ∃ o, compile ⟨.builtin, .albionPrelude, [], none⟩ sampleScript = .ok o ∧
      (∀ d ∈ o.log, d.isLogic = false) ∧
      Derives false .script
        ((Statement.readAll .builtin .albionPrelude sampleScript).map fun r =>
          r.statement.part) := by
  obtain ⟨s, hexpand, hlog⟩ := sampleScript_expands
  obtain ⟨o, hcompile, hiff⟩ :=
    logic_accepts_iff_derives .albionPrelude [] none sampleScript s (fun r hr =>
      (sampleScript_reads r hr).1)
      hexpand hlog
  obtain ⟨o', hcompile', hok⟩ := sampleScript_compiles
  obtain rfl : o = o' := Except.ok.inj (hcompile.symm.trans hcompile')
  have hquiet : ∀ d ∈ o.log, d.isLogic = false := by
    intro d hd
    rw [Array.isEmpty_iff.mp hok] at hd
    simp at hd
  exact ⟨fun r hr => (sampleScript_reads r hr).1, o, hcompile, hquiet, hiff.mp hquiet⟩

/-! ## Inserted lines -/

/-- The part of a line does not depend on where it stands. -/
theorem Statement.part_read (g : Grammar) (v : Version) (number : Nat) (line : String) :
    (read g v number line).statement.part = (read g v 1 line).statement.part := by
  unfold read
  dsimp only
  repeat' split
  all_goals rfl

theorem Statement.map_part_readAll (g : Grammar) (v : Version) (lines : List String) :
    ((readAll g v lines).map fun r => r.statement.part) =
      lines.map fun line => (read g v 1 line).statement.part := by
  conv_rhs => rw [← List.zipIdx_map_fst 1 lines]
  rw [readAll, List.map_map, List.map_map]
  exact List.map_congr_left fun p _ => part_read g v p.2 p.1

/-- A line that is blank, a comment or a command that is commented out. -/
def Setting.isIdle (e : Setting) (line : String) : Bool :=
  (Statement.read e.grammar e.version 1 line).statement.part = .idle

/-- Blank lines, comments and commands that are commented out may stand anywhere: of two scripts
that differ in such lines only, the block structures are both accepted, or neither is. -/
theorem logic_accepts_congr {e : Setting} (hg : e.grammar.Lawful) {lines lines' : List String}
    {s s' : Session} (hlines : lines.filter (!e.isIdle ·) = lines'.filter (!e.isIdle ·))
    (hread : ∀ r ∈ Statement.readAll e.grammar e.version lines, r.diagnostic = none)
    (hread' : ∀ r ∈ Statement.readAll e.grammar e.version lines', r.diagnostic = none)
    (hexpand : (Session.start (buildTree e lines)).expand e = .ok s)
    (hexpand' : (Session.start (buildTree e lines')).expand e = .ok s')
    (hlog : s.log = #[]) (hlog' : s'.log = #[]) :
    ∃ o o', compile e lines = .ok o ∧ compile e lines' = .ok o' ∧
      ((∀ d ∈ o.log, d.isLogic = false) ↔ ∀ d ∈ o'.log, d.isLogic = false) := by
  obtain ⟨o, f, g, hcompile, hf, h, hsound⟩ := exists_accepted_iff_sound hg hread hexpand hlog
  obtain ⟨o', f', g', hcompile', hf', h', hsound'⟩ :=
    exists_accepted_iff_sound hg hread' hexpand' hlog'
  refine ⟨o, o', hcompile, hcompile', ?_⟩
  rw [hsound, hsound', h.sound_iff_derives hf, h'.sound_iff_derives hf']
  refine IdleEq.derives_iff ?_
  rw [IdleEq, Statement.map_part_readAll, Statement.map_part_readAll, List.filter_map,
    List.filter_map]
  simpa [Setting.isIdle, Function.comp_def] using congrArg (List.map _) hlines

/-! ## An `else` behind a stray `else if` -/

set_option maxRecDepth 20000 in
theorem strayBranch_evaluates :
    (compile ⟨.builtin, .albionPrelude, [], none⟩ ["else if $x", "else"]).toOption.any (fun o =>
      o.log.toList.map (·.code) == ["LOGIC_ELSE_IF_UNMATCHED", "LOGIC_BLOCK_UNCLOSED"]) = true ∧
    (compile ⟨.builtin, .albionPrelude, [], none⟩ ["else if $x", "", "else"]).toOption.any (fun o =>
      o.log.toList.map (·.code) == ["LOGIC_ELSE_IF_UNMATCHED", "LOGIC_ELSE_UNMATCHED"]) = true := by
  rw [Grammar.builtin_eq]
  decide +kernel

/-- A blank line can change what is wrong with a script: without it the `else` lacks an `end`, with
it an `if`. -/
theorem blankLine_parts_branch :
    ∃ o o', compile ⟨.builtin, .albionPrelude, [], none⟩ ["else if $x", "else"] = .ok o ∧
      compile ⟨.builtin, .albionPrelude, [], none⟩ ["else if $x", "", "else"] = .ok o' ∧
      o.log.toList.map (·.code) = ["LOGIC_ELSE_IF_UNMATCHED", "LOGIC_BLOCK_UNCLOSED"] ∧
      o'.log.toList.map (·.code) = ["LOGIC_ELSE_IF_UNMATCHED", "LOGIC_ELSE_UNMATCHED"] := by
  obtain ⟨o, hcompile, hcodes⟩ := exists_ok_of_any strayBranch_evaluates.1
  obtain ⟨o', hcompile', hcodes'⟩ := exists_ok_of_any strayBranch_evaluates.2
  exact ⟨o, o', hcompile, hcompile', beq_iff_eq.mp hcodes, beq_iff_eq.mp hcodes'⟩

end GameScript
