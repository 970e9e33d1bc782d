import GameScript.Proofs.Compile.Acceptance

/-!
# Lines and commands

No line of a script is lost, doubled or moved by its compilation, whether the script is accepted or
not: `lines_kept_in_order`. The commands that a script can be printed back from are its lines, one
by one; the commands generated from a shorthand come right behind it and carry its line number.
-/

namespace GameScript

/-- The command says what the statement says. -/
structure Command.Shows (c : Command) (s : Statement) : Prop where
  line : c.line = s.line
  form : c.form = s.form
  text : c.text = s.text
  parameters : c.parameters = s.parameters.map (·.text)
  role : c.role = s.role
  commented : c.commented = s.commented

structure Tree.Lists (t : Tree) (ids : List NodeId) : Prop where
  nodup : ids.Nodup
  mem_iff : ∀ id, id ∈ ids ↔ id < t.size ∧ id ≠ Tree.root

theorem Statement.line_read (g : Grammar) (v : Version) (number : Nat) (line : String) :
    (read g v number line).statement.line = number := by
  rcases read_cases g v number line with h | h | h | ⟨commented, r, -, h⟩ <;> rw [h] <;> rfl

/-- Generated statements carry the number of the line that they stand for. -/
theorem Generated.IsRead.line_eq {e : Setting} {number : Nat} {x : Expansion} {y : Generated}
    (h : y.IsRead e number x) : ∀ s ∈ y.front ++ y.inner, s.line = number := by
  have hline : ∀ line s, readLine e number line = .ok s → s.line = number := by
    intro line s hok
    rw [(readLine_eq_ok hok).1]
    exact Statement.line_read _ _ _ _
  intro s hs
  simp only [front, inner, List.mem_append] at hs
  rcases hs with (hs | hs) | hs
  · exact forall_of_readLine h.before (fun line _ => hline line) s hs
  · exact forall_of_readLine h.head (fun line _ => hline line) s hs
  · split at hs
    · exact forall_of_readLine h.round (fun line _ => hline line) s hs
    · cases hs

theorem Tree.Spans.lists {t : Tree} {f : Forest} (h : t.Spans f) : t.Lists f.ids := by
  obtain ⟨hroot, hnodup⟩ := List.nodup_cons.mp h.nodup
  refine ⟨hnodup, fun id => ?_⟩
  rw [h.covers, List.mem_cons]
  constructor
  · intro hid
    refine ⟨.inr hid, ?_⟩
    rintro rfl
    exact hroot hid
  · rintro ⟨hid | hid, hne⟩
    · exact absurd hid hne
    · exact hid

/-- The lines of a script are the nodes of its tree that no jump was hidden in. -/
theorem buildTree_holds {e : Setting} {lines : List String} {f : Forest}
    (hf : (buildTree e lines).Spans f) :
    List.Forall₂ (buildTree e lines).Holds (f.ids.filter fun id =>
      !((buildTree e lines).node id).origin.isGenerated)
      (Statement.readAll e.grammar e.version lines) := by
  obtain ⟨f', hf', -, hholds⟩ := nest_spans (readAll_regular e.grammar e.version lines)
  obtain rfl := hf'.unique hf
  have hprovenance := Session.start_provenance e lines f'
  have hwritten : f'.written (buildTree e lines).part =
      f'.ids.filter fun id => !((buildTree e lines).node id).origin.isGenerated := by
    refine List.filter_congr fun id _ => ?_
    rw [Bool.eq_iff_iff, decide_eq_true_eq, ne_eq, Tree.part_eq_jump_iff]
    -- Nothing is expanded yet.
    have hexpanded : ((buildTree e lines).node id).origin ≠ .expanded := by
      intro hc
      obtain ⟨head, hstems⟩ := hprovenance.generated id hc
      have hhead := (hprovenance.retired head hstems.retired).1
      cases hstems.retired.symm.trans (Session.origin_of_pending hhead)
    cases horigin : ((buildTree e lines).node id).origin <;> simp_all [Origin.isGenerated]
  rw [← hwritten]
  exact hholds

namespace Session.Provenance

variable {e : Setting} {t : Tree} {f g : Forest} {s : Session}

/-- A line that is printed back says what was read. -/
theorem shows (h : Provenance e t f s g) (o : Order) {id : NodeId} {r : Reading} (hr : t.Holds id r)
    (hprintable : (s.node id).origin.isGenerated = false) :
    (s.commandOf o id).Shows r.statement := by
  have hstatement : (s.node id).statement =
      { r.statement with kind := (s.node id).statement.kind } := by
    cases horigin : (s.node id).origin with
    | source => rw [(h.source id horigin).2.1, hr.statement]
    | header => rw [(h.retired id horigin).2, hr.statement]
    | expanded | hiddenJump =>
      rw [horigin] at hprintable
      cases hprintable
  refine ⟨?_, ?_, ?_, ?_, ?_, ?_⟩ <;> (simp only [commandOf]; rw [hstatement])

/-- A generated statement carries the number of the line of its shorthand. -/
theorem line_eq (h : Provenance e t f s g) {id head : NodeId} (hstems : Stems e t s g id head) :
    (s.node id).statement.line = (s.node head).statement.line := by
  obtain ⟨x, ⟨names, names', y, _, hread⟩, hmem⟩ := hstems.statement
  rw [(h.retired head hstems.retired).2]
  exact hread.line_eq _ hmem

end Session.Provenance

/-- The commands of a script that can be printed are its lines, in their order and with their
numbers. The commands of a script are the nodes of its tree, each once, and a generated command
comes behind its shorthand, with its line number and nothing but generated commands in between. -/
theorem lines_kept_in_order (v : Version) (arguments : List String) (objects : Option ObjectLibrary)
    (lines : List String) (o : Output)
    (hcompile : compile ⟨.builtin, v, arguments, objects⟩ lines = .ok o) :
    List.Forall₂ (fun c p => c.line = p.2 ∧ c.Shows (Statement.read .builtin v p.2 p.1).statement)
        (o.commands.toList.filter Command.isPrintable) (lines.zipIdx 1) ∧
      ∃ s ids, Session.compiled ⟨.builtin, v, arguments, objects⟩ lines = .ok s ∧ o = .ofSession s ∧
        s.tree.Lists ids ∧ o.commands.toList = ids.map (s.commandOf (.of s.tree)) ∧
        ∀ id ∈ ids, (s.node id).origin = .expanded → ∃ head, (s.node id).header = some head ∧
          (s.node head).origin = .header ∧
          (s.node id).statement.line = (s.node head).statement.line ∧
          s.tree.Trails ids head id := by
  obtain ⟨f, s, g, q, hf, hexpand, h, hspec, hframe, -⟩ :=
    compile_spec (e := ⟨.builtin, v, arguments, objects⟩) builtin_lawful lines
  obtain rfl := output_of_compiled hspec hcompile
  have halike : s.tree.Alike q.emit.tree := (Session.examine_grows _ s).alike.trans hframe.alike
  have hspans : q.emit.tree.Spans g := h.spans.alike halike
  have hprovenance : Session.Provenance _ _ f q.emit g := h.provenance.alike halike
  have hcommands : (Output.ofSession q.emit).commands.toList =
      g.ids.map (q.emit.commandOf (.of q.emit.tree)) := by
    rw [← hspans.preorder_eq]
    rfl
  refine ⟨?_, q.emit, g.ids, hspec, rfl, hspans.lists, hcommands, ?_⟩
  · rw [hcommands, List.filter_map]
    have hwritten := hprovenance.written
    have hholds := buildTree_holds hf
    rw [← hwritten] at hholds
    rw [List.forall₂_map_left_iff]
    have hall := (List.forall₂_and_left _ _).mpr ⟨fun id hid => (List.mem_filter.mp hid).2, hholds⟩
    rw [Statement.readAll, List.forall₂_map_right_iff] at hall
    refine hall.imp fun id p hid => ?_
    have hshows := hprovenance.shows (.of q.emit.tree) hid.2 (by simpa using hid.1)
    exact ⟨hshows.line.trans (Statement.line_read _ _ _ _), hshows⟩
  · intro id _ hid
    obtain ⟨head, hstems⟩ := hprovenance.generated id hid
    exact ⟨head, hstems.header, hstems.retired, hprovenance.line_eq hstems, hstems.trails⟩

/-- The lines of the sample are kept, its loops included. -/
theorem sampleScript_lines :
    ∃ o, compile ⟨.builtin, .albionPrelude, [], none⟩ sampleScript = .ok o ∧
    List.Forall₂ (fun c p => c.line = p.2 ∧
      c.Shows (Statement.read .builtin .albionPrelude p.2 p.1).statement)
      (o.commands.toList.filter Command.isPrintable) (sampleScript.zipIdx 1) := by
  obtain ⟨o, hcompile, -⟩ := sampleScript_compiles
  exact ⟨o, hcompile, (lines_kept_in_order .albionPrelude [] none sampleScript o hcompile).1⟩

end GameScript
