import GameScript.Proofs.Shorthand.Unread

/-!
# The diagnostics of a script

What is found while the lines of a script are read is reported when it is compiled, once, in the
order of the lines and with nothing else of the kind (`reading_diagnostics_kept`), and every
diagnostic names a line of the script. This holds for every grammar, also for one that describes the
shorthands or the commands that they are expanded into otherwise.

The check of parameters reports what the nodes carry, so the order is that of the tree. The lines
are those of the nodes that the passes visit: the log is a matter of the tree
(`Session.log_examine`), and it is about its nodes only.
-/

namespace GameScript

/-! ## Which problems are found while a line is read -/

def readingCodes : List String :=
  ["SYNTAX_UNRECOGNISED", "SYNTAX_VERSION_UNSUPPORTED", "SYNTAX_OBJECT_UNTERMINATED"]

def Diagnostic.isReading (d : Diagnostic) : Bool := readingCodes.contains d.code

theorem Diagnostic.isReading_of (p : Problem) (line : Nat) (text : String) :
    (Diagnostic.of p line text).isReading = p.isReading := by
  simp only [Diagnostic.isReading, Diagnostic.of, readingCodes]
  cases p with
  | expression e =>
    cases e <;> simp only [Problem.code, ExpressionError.code, Problem.isReading] <;> decide
  | _ =>
    simp only [Problem.code, Problem.isReading]
    decide

/-- Only the check of parameters reports them. -/
theorem Pass.reports_not_isReading {pass : Pass} (hpass : pass ≠ .checkParameters) :
    pass.Reports fun d => d.isReading = false := by
  intro p line text hp
  rw [Diagnostic.isReading_of, Bool.eq_false_iff]
  intro hreading
  exact hpass (Option.some.inj (hp.symm.trans (Problem.pass?_of_isReading hreading)))

/-- The diagnostics of lines are about the lines and their reading. -/
theorem Statement.isReading_of_mem {g : Grammar} {v : Version} {lines : List String}
    {d : Diagnostic} (h : d ∈ (readAll g v lines).filterMap Reading.diagnostic) :
    d.isReading = true ∧ IsLine lines.length d.line := by
  obtain ⟨r, hr, hd⟩ := List.mem_filterMap.mp h
  have hline := isLine_of_mem_readAll hr
  simp only [readAll, List.mem_map, Prod.exists] at hr
  obtain ⟨line, number, -, rfl⟩ := hr
  obtain ⟨p, text, hp, rfl⟩ := isReading_of_diagnostic hd
  rw [line_read] at hline
  exact ⟨(Diagnostic.isReading_of p number text).trans hp, hline⟩

/-- What is wrong with a parameter is no problem of reading. -/
theorem Parameter.isReading_reports {objects : Option ObjectLibrary} {generated : Bool}
    {p : Parameter} :
    ∀ q ∈ p.reports objects generated, q.isReading = false := by
  intro q hq
  have hfinding := Session.isFinding_checkParameters objects generated [p] q hq
  cases q <;> first | rfl | cases hfinding

/-! ## The lines that are reported about -/

namespace Session.Course

variable {t : Tree} {f : Forest} {c : Course}

structure Among (f : Forest) (c : Course) : Prop where
  current : ∀ start, c.current = some start → start.1 ∈ f.ids
  unterminated : c.unterminated ⊆ f.ids
  stray : c.stray ⊆ f.ids

theorem Among.finish (h : Among f c) : Among f c.finish := by
  unfold Course.finish
  split
  · next label hcurrent =>
    exact ⟨by simp, List.cons_subset.mpr ⟨h.current _ hcurrent, h.unterminated⟩, h.stray⟩
  · exact ⟨by simp, h.unterminated, h.stray⟩

theorem Among.pass (h : Among f c) (hspans : t.Spans f) (called : Std.TreeSet String) {id : NodeId}
    (hid : id ∈ f.ids) :
    Among f (c.pass t called id) := by
  unfold Course.pass
  dsimp only
  split
  · exact h
  · split
    · unfold Course.passLabel
      split
      · refine ⟨fun start hstart => ?_, h.finish.unterminated, h.finish.stray⟩
        obtain rfl := Option.some.inj hstart
        exact hid
      · refine ⟨fun start hstart => ?_, h.unterminated, h.stray⟩
        obtain ⟨old, hold, rfl⟩ := Option.map_eq_some_iff.mp hstart
        exact h.current old hold
    · split
      · next start ended hcurrent =>
        refine ⟨fun start' hstart => ?_, h.unterminated, h.stray⟩
        obtain rfl := Option.some.inj hstart
        exact h.current (start, ended) hcurrent
      · refine ⟨h.current, h.unterminated, List.append_subset.mpr ⟨fun j hj => ?_, h.stray⟩⟩
        exact hspans.walk_subset hid (List.mem_of_mem_filter (List.mem_reverse.mp hj))

theorem among_passes (hspans : t.Spans f) (called : Std.TreeSet String) :
    Among f ((t.children Tree.root).foldl (Course.pass t called) {}) := by
  rw [← Array.foldl_toList]
  refine List.foldlRecOn _ _ (show Among f {} from ⟨by simp, by simp, by simp⟩) fun c hc id hid =>
    ?_
  rw [hspans.top] at hid
  exact hc.pass hspans called (Forest.mem_ids_of_mem_roots hid)

end Session.Course

namespace Session

variable {ds : List Diagnostic} {count : Nat} {s : Session} {g : Forest}

/-- What the nodes give of the kind is what they carry. -/
theorem Carries.filter_complaints (h : Carries ds count s g) (hds : ∀ d ∈ ds, d.isReading = true)
    (e : Setting) :
    (g.ids.flatMap fun id => (s.node id).complaints e).filter Diagnostic.isReading = ds := by
  have hnode : ∀ id ∈ g.ids, ((s.node id).complaints e).filter Diagnostic.isReading =
      (s.node id).diagnostic.toList := by
    intro id hid
    unfold Node.complaints
    cases hexempt : (s.node id).isExempt with
    | true => rw [if_pos rfl, h.silent id hexempt, List.filter_nil, Option.toList_none]
    | false =>
      rw [if_neg Bool.false_ne_true]
      cases hd : (s.node id).diagnostic with
      | some d =>
        have hreading : d.isReading = true :=
          hds d (h.unread ▸ List.mem_filterMap.mpr ⟨id, hid, hd⟩)
        rw [Option.elim_some, List.filter_cons_of_pos hreading, List.filter_nil, Option.toList_some]
      | none =>
        rw [Option.elim_none, Option.toList_none, List.filter_eq_nil_iff]
        intro d hmem
        obtain ⟨q, hq, rfl⟩ := List.mem_map.mp hmem
        obtain ⟨p, -, hq⟩ := List.mem_flatMap.mp hq
        rw [Diagnostic.isReading_of, Parameter.isReading_reports q hq]
        exact Bool.false_ne_true
  rw [List.filter_flatMap, ← h.unread, List.filterMap_eq_flatMap_toList]
  exact List.flatMap_congr hnode

/-- The diagnostics of the lines are reported, and no others of the kind. -/
theorem Carries.filter_examine (h : Carries ds count s g) (hds : ∀ d ∈ ds, d.isReading = true)
    (hlog : ∀ d ∈ s.log, d.isReading = false) (e : Setting) :
    (s.examine e).log.toList.filter Diagnostic.isReading = ds := by
  have hnone : ∀ l : List Diagnostic, (∀ d ∈ l, d.isReading = false) →
      l.filter Diagnostic.isReading = [] :=
    fun l hl => List.filter_eq_nil_iff.mpr fun d hd => by simp [hl d hd]
  obtain ⟨first, last, hexamine, hfirst, hlast⟩ :=
    examine_log (P := fun d => d.isReading = false) (fun _ => Pass.reports_not_isReading) e h.spans
  rw [hexamine, List.filter_append, List.filter_append, List.filter_append, hnone _ hfirst,
    hnone _ hlast, hnone _ fun d hd => hlog d (Array.mem_toList_iff.mp hd), h.filter_complaints hds,
    List.nil_append, List.nil_append,
    List.append_nil]

theorem Carries.line_diagnose (h : Carries ds count s g) {id : NodeId} (hid : id ∈ g.ids)
    (p : Problem) :
    IsLine count ((s.tree.node id).diagnose p).line := h.lines id hid

/-- The check of parameters reports what was found while the lines were read as it is. -/
theorem Carries.line_complaints (h : Carries ds count s g) (hds : ∀ d ∈ ds, IsLine count d.line)
    (e : Setting) :
    ∀ id ∈ g.ids, ∀ d ∈ (s.tree.node id).complaints e, IsLine count d.line := by
  intro id hid d hd
  unfold Node.complaints at hd
  split at hd
  · cases hd
  · cases hdiagnostic : (s.tree.node id).diagnostic with
    | some d' =>
      rw [hdiagnostic, Option.elim_some] at hd
      rw [List.mem_singleton.mp hd]
      exact hds d' (h.unread ▸ List.mem_filterMap.mpr ⟨id, hid, hdiagnostic⟩)
    | none =>
      rw [hdiagnostic, Option.elim_none] at hd
      obtain ⟨p, -, rfl⟩ := List.mem_map.mp hd
      exact h.line_diagnose hid p

/-- The checks report about lines of the script only. -/
theorem Carries.line_examine (h : Carries ds count s g) (hds : ∀ d ∈ ds, IsLine count d.line)
    (hlog : ∀ d ∈ s.log, IsLine count d.line) (e : Setting) :
    ∀ d ∈ (s.examine e).log, IsLine count d.line := by
  have hcourse := (Course.among_passes h.spans (calledLabels s.tree)).finish
  intro d hd
  rw [← Array.mem_toList_iff, log_examine, identifyNames_log, Tree.checkReports,
    Tree.subroutineReports, h.spans.preorder_eq] at hd
  simp only [List.mem_append, or_assoc] at hd
  rcases hd with hd | hd | hd | hd | hd | hd | hd | hd
  · exact hlog d (Array.mem_toList_iff.mp hd)
  · obtain ⟨id, hid, p, rfl⟩ := Tree.mem_nameReports hd
    exact h.line_diagnose hid p
  · obtain ⟨jump, hjump, rfl⟩ := List.mem_map.mp hd
    obtain ⟨id, hid, hlabel⟩ := List.mem_filterMap.mp (List.mem_of_mem_filter hjump)
    obtain ⟨label, -, rfl⟩ := Option.map_eq_some_iff.mp hlabel
    exact h.line_diagnose (h.spans.preorder_eq ▸ hid) _
  · obtain ⟨id, hid, hd⟩ := List.mem_flatMap.mp hd
    exact h.line_complaints hds e id hid d hd
  · obtain ⟨id, hid, hd⟩ := List.mem_filterMap.mp hd
    unfold Tree.blockDiagnostic? at hd
    split at hd
    · cases hd
    · obtain ⟨p, -, rfl⟩ := Option.map_eq_some_iff.mp hd
      exact h.line_diagnose hid p
  · obtain ⟨id, hid, rfl⟩ := List.mem_map.mp hd
    exact h.line_diagnose (hcourse.unterminated (List.mem_reverse.mp hid)) _
  · obtain ⟨id, hid, rfl⟩ := List.mem_map.mp hd
    exact h.line_diagnose (hcourse.stray (List.mem_reverse.mp hid)) _
  · obtain ⟨id, hid, rfl⟩ := List.mem_map.mp hd
    exact h.line_diagnose (List.mem_of_mem_filter (List.mem_of_getElem? (Option.mem_toList.mp hid)))
      _

/-- Linking and resolving report nothing. -/
theorem log_of_runPasses {e : Setting} {s s' : Session} (h : s.runPasses e = .ok s') :
    s'.log = (s.examine e).log := by
  obtain ⟨u, q, hlink, hresolve, rfl⟩ := runPasses_ok h
  have hlinked : u.log = (s.examine e).log := by
    refine foldlM_induction (I := fun _ u => u.log = (s.examine e).log) hlink rfl ?_
    intro _ id _ v v' _ hv hstep
    rcases linkNode_cases hstep with rfl | ⟨f, rfl, -⟩ <;> exact hv
  refine foldlM_induction (I := fun _ v => v.log = (s.examine e).log) hresolve hlinked ?_
  intro _ id _ v v' _ hv hstep
  exact (settling_of_resolveNode hstep).frame.log.trans hv

end Session

theorem exists_of_compile {e : Setting} {lines : List String} {o : Output}
    (h : compile e lines = .ok o) :
    ∃ s q, (Session.start (buildTree e lines)).expand e = .ok s ∧ s.runPasses e = .ok q ∧
      o = .ofSession q := by
  unfold compile at h
  obtain ⟨s, hexpand, h⟩ := bind_eq_ok_iff.mp h
  obtain ⟨q, hpasses, h⟩ := bind_eq_ok_iff.mp h
  exact ⟨s, q, hexpand, hpasses, (Except.ok.inj h).symm⟩

/-- What is found while the lines of a script are read is reported when it is compiled, in the order
of the lines and with nothing else of the kind; and everything that is reported is about a line of
the script. The grammar may be any one. -/
theorem reading_diagnostics_kept (g : Grammar) (v : Version) (arguments : List String)
    (objects : Option ObjectLibrary) (lines : List String) (o : Output)
    (hcompile : compile ⟨g, v, arguments, objects⟩ lines = .ok o) :
    o.log.toList.filter Diagnostic.isReading =
      (Statement.readAll g v lines).filterMap Reading.diagnostic ∧
      ∀ d ∈ o.log, 1 ≤ d.line ∧ d.line ≤ lines.length := by
  obtain ⟨s, q, hexpand, hpasses, rfl⟩ := exists_of_compile hcompile
  obtain ⟨⟨shape, hcarries⟩, hlines⟩ := Session.expand_carries hexpand
  have hlog := Session.log_of_runPasses hpasses
  show q.log.toList.filter Diagnostic.isReading = _ ∧ ∀ d ∈ q.log, IsLine lines.length d.line
  rw [hlog]
  refine ⟨hcarries.filter_examine (fun d hd => (Statement.isReading_of_mem hd).1)
    (fun d hd => ?_) _,
    hcarries.line_examine (fun d hd => (Statement.isReading_of_mem hd).2) hlines _⟩
  -- What goes wrong with an expansion is no problem of reading.
  obtain ⟨p, line, text, hp, rfl⟩ := Session.expand_log hexpand d hd
  rw [Diagnostic.isReading_of, Bool.eq_false_iff]
  intro hreading
  cases hp.symm.trans (Problem.pass?_of_isReading hreading)

/-- A small table of commands, one of them for a single release. -/
def launchGrammar : Grammar :=
  .ofForms [.simple FormId.endBlock "end" [],
    .simple FormId.expression "$0 $1" [.retVarIf, .expression],
    .simple FormId.forLoop "for $0 = $1 to $2" [.var, .number, .number],
    { Form.simple 100 "launch $0" [.value] with versions := [.reunion] }]

/-- A loop around an object without its brace, then a line that is no command and a command of
another release. -/
def tornLaunch : List String := ["for $i = 1 to 2", "launch \x7bArgon", "end", "lunch", "launch $i"]

/-- Three of the lines cannot be read. -/
theorem tornLaunch_diagnostics :
    ∃ o, compile ⟨launchGrammar, .albionPrelude, [], none⟩ tornLaunch = .ok o ∧
    (o.log.toList.filter Diagnostic.isReading).map Diagnostic.line = [2, 4, 5] ∧
    o.log.toList.filter Diagnostic.isReading =
      (Statement.readAll launchGrammar .albionPrelude tornLaunch).filterMap Reading.diagnostic ∧
    ∀ d ∈ o.log, 1 ≤ d.line ∧ d.line ≤ tornLaunch.length := by
  have hlines : (compile ⟨launchGrammar, .albionPrelude, [], none⟩ tornLaunch).toOption.map
      (fun o => (o.log.toList.filter Diagnostic.isReading).map Diagnostic.line) =
        some [2, 4, 5] := by decide +kernel
  cases hcompile : compile ⟨launchGrammar, .albionPrelude, [], none⟩ tornLaunch with
  | error fault =>
    rw [hcompile] at hlines
    cases hlines
  | ok o =>
    rw [hcompile] at hlines
    exact ⟨o, rfl, Option.some.inj hlines,
      reading_diagnostics_kept launchGrammar .albionPrelude [] none tornLaunch o hcompile⟩

end GameScript
