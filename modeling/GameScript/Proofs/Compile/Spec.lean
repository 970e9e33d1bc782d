import GameScript.Proofs.Linkage.Destinations

/-!
# What a compilation produces

A compilation never fails (`compile_spec`). If no problem was reported, its commands are those of a
well-built tree whose jumps lead where the shape says (`Emitted`).
-/

namespace GameScript

/-! ## Every jump has a destination -/

def Part.jumps : Part → Bool
  | .branch | .elseBranch | .loop | .skip | .leave | .again | .jump => true
  | _ => false

def Role.jumps : Role → Bool
  | .branch | .elseBranch | .loop | .skip | .leave | .again => true
  | _ => false

theorem Part.jumps_of_role {p : Part} (h : p.role.jumps = true) : p.jumps = true := by
  cases p <;> first | rfl | exact h

theorem Part.isLive_of_jumps {p : Part} (h : p.jumps = true) : p.isLive = true := by
  cases p <;> first | rfl | exact h

/-- Of the parts with a plain role only a hidden jump jumps. -/
theorem Part.eq_jump_of_jumps {p : Part} (h : p.jumps = true) (hrole : p.role = .plain) :
    p = .jump := by
  cases p <;> simp_all [Part.jumps, Part.role]

theorem Conditional.jumps_role {c : Conditional} (h : c.isJump = true) : c.role.jumps = true := by
  cases c <;> first | rfl | exact h

theorem LinkedNode.exists_dest {part : NodeId → Part} {dest : NodeId → Option Nat} {next exit : Nat}
    {loop : Option (Nat × Nat)} {id : NodeId} (h : LinkedNode part dest next loop exit id)
    (hjumps : (part id).jumps = true) (hloop : (part id).isExit = true → loop.isSome = true) :
    ∃ m, dest id = some m := by
  unfold LinkedNode at h
  by_cases hexit : (part id).isExit = true
  · obtain ⟨numbers, rfl⟩ := Option.isSome_iff_exists.mp (hloop hexit)
    rcases Part.eq_of_isExit hexit with hp | hp <;> rw [hp] at h <;> exact ⟨_, h⟩
  · cases hp : part id <;> simp_all [Part.jumps, Part.isExit]

/-- A jump of a sound row that is linked has a destination. -/
theorem Linked.exists_dest {part : NodeId → Part} {dest : NodeId → Option Nat} {n exit : Nat}
    {loop : Option (Nat × Nat)} {inBlock inLoop isOpen : Bool} {f : Forest}
    (h : Linked part dest n loop exit f) (hs : Sound part inBlock inLoop isOpen f)
    (hloop : inLoop = true → loop.isSome = true) {id : NodeId} (hid : id ∈ f.ids)
    (hjumps : (part id).jumps = true) : ∃ m, dest id = some m := by
  induction f generalizing n loop exit inBlock inLoop isOpen with
  | nil => simp at hid
  | node first below after ihb iha =>
    obtain ⟨hnode, hbelow, hafter⟩ := h
    obtain ⟨hsound, hsbelow, hsafter⟩ := hs
    simp only [Forest.ids_node, List.mem_cons, List.mem_append] at hid
    rcases hid with rfl | hid | hid
    · refine hnode.exists_dest hjumps fun hexit => hloop ?_
      unfold NodeSound at hsound
      rcases Part.eq_of_isExit hexit with hp | hp <;> rw [hp] at hsound <;> exact hsound
    · refine ihb hbelow hsbelow (fun hin => ?_) hid
      by_cases hp : part first = .loop
      · rw [if_pos hp]
        rfl
      · rw [if_neg hp]
        exact hloop (by simpa [hp] using hin)
    · exact iha hafter hsafter hloop hid

/-- Commands that define a label or leave the order of the lines are executed. -/
theorem Node.Prepared.isLive_of_form {e : Setting} {n : Node} (h : n.Prepared e)
    (hform : n.statement.form = FormId.defineLabel ∨ n.statement.form.isTransfer = true)
    (hcommented : n.statement.commented = false) : n.isLive = true := by
  have hforms : ∀ form : FormId, form = FormId.defineLabel ∨ form.isTransfer = true →
      form.isShorthand = false ∧
      form ≠ FormId.nop ∧ form ≠ FormId.comment ∧ form ≠ FormId.unrecognised ∧
      ∀ conditional, (Statement.classify form conditional false).2 = .standard := by
    intro form hform
    simp only [FormId.isTransfer, Bool.or_eq_true, beq_iff_eq] at hform
    rcases hform with rfl | ((rfl | rfl) | rfl) | rfl <;>
      exact ⟨rfl, by decide, by decide, by decide, fun _ => rfl⟩
  obtain ⟨hplain, hnop, hcomment, hrecognised, hkind⟩ := hforms _ hform
  suffices hstandard : n.statement.isStandard = true by simp [Node.isLive, hstandard, hcommented]
  cases horigin : n.origin with
  | expanded => rcases h.expanded horigin with hperforms | hperforms <;> exact hperforms.standard
  | hiddenJump =>
    obtain ⟨line, hline⟩ := h.hiddenJump horigin
    rw [hline]
    rfl
  | header =>
    rw [(h.header horigin).2.2] at hplain
    cases hplain
  | source =>
    obtain ⟨number, line, hstatement, -⟩ := h.source horigin
    rw [hstatement] at hcommented hnop hcomment hrecognised hkind ⊢
    rcases Statement.read_cases e.grammar e.version number line with hs | hs | hs | ⟨commented, r,
      -, hs⟩ <;>
      rw [hs] at hcommented hnop hcomment hrecognised hkind ⊢
    · exact absurd rfl hnop
    · exact absurd rfl hcomment
    · exact absurd rfl hrecognised
    · obtain rfl : commented = false := hcommented
      rw [Statement.isStandard, beq_iff_eq]
      exact hkind r.fit.conditional

namespace Session

variable {e : Setting} {lines : List String} {f g : Forest} {s p : Session}

theorem Examined.linkable (hg : e.grammar.Lawful) (h : Expanding e (buildTree e lines) f s g [])
    (hx : Examined s g p) : p.Linkable := by
  have hspans := h.spans.alike hx.alike
  have hmem : ∀ id, id ∈ p.tree.preorder ↔ id ∈ g.ids := fun id => by rw [hspans.preorder_eq]
  refine ⟨hx.numbered, fun id hid => ?_, ?_, fun id => ?_, fun id hid hlive => ?_⟩
  · exact (hspans.covers id).mpr (by simp [(hmem id).mp hid])
  · rw [hspans.preorder_eq]
    exact hspans.nodup_ids
  · exact (hx.alike.node id).regular (h.prepared id).regular
  · refine (hx.alike.node id).acts ((h.prepared id).acts hg ?_ (hx.diagnostic id ((hmem id).mp hid))
      (hx.pending id))
    exact (hx.alike.isLive_eq id).trans hlive

theorem Examined.linked (hg : e.grammar.Lawful) (h : Expanding e (buildTree e lines) f s g [])
    (hx : Examined s g p) : Linked p.tree.part p.leadsTo? 0 none 0 g := by
  refine (hx.linkable hg h).linked (h.spans.alike hx.alike) ?_
  rw [← hx.alike.part_eq]
  exact hx.block

/-- A jump to a label leads to the number of its definition. -/
theorem Examined.leadsTo?_label (h : Expanding e (buildTree e lines) f s g [])
    (hx : Examined s g p) {id : NodeId} (hid : id ∈ p.tree.preorder)
    (hlive : (p.node id).isLive = true) (hform : (p.node id).statement.form = FormId.gotoLabel ∨
      (p.node id).statement.form = FormId.gosub)
    {label : String} (hlabel : (p.node id).statement.label? = some label) :
    ∃ a d b, p.tree.preorder = a ++ d :: b ∧ (p.node d).is FormId.defineLabel = true ∧
      (p.node d).statement.label? = some label ∧ p.leadsTo? id = some (p.tree.liveCount a) := by
  have hspans := h.spans.alike hx.alike
  have horder : s.tree.preorder = p.tree.preorder := by rw [h.spans.preorder_eq, hspans.preorder_eq]
  have hstatement : ∀ j, (s.tree.node j).statement = (p.node j).statement :=
    fun j => hx.alike.statement_eq j
  have hcount : NamesCount (p.node id).statement := by
    simp only [Node.isLive, Bool.and_eq_true, Bool.not_eq_true'] at hlive
    refine ⟨hlive.2, ?_⟩
    rcases hform with hf | hf <;> rw [Statement.isRecognised, hf] <;> decide
  obtain ⟨d, hd⟩ := hx.resolves.targets id (horder ▸ hid) (by rw [hstatement]; exact hcount)
    (by rw [hstatement]; exact hform) label (by rw [hstatement]; exact hlabel)
  obtain ⟨hmem, hdform, hdcommented, hdlabel⟩ := hx.resolves.labels label d hd
  have hdlive : (p.node d).isLive = true := by
    rw [node, ← hx.alike.isLive_eq]
    exact (h.prepared d).isLive_of_form (.inl hdform) hdcommented
  obtain ⟨a, b, hsplit⟩ := List.append_of_mem (horder ▸ hmem)
  have hnumber := hx.numbered.number?_node hsplit hdlive
  have htarget : p.tree.target? (Order.of p.tree) p.labels id = some (some (.node d)) := by
    have hlabel' : (p.tree.node id).statement.label? = some label := hlabel
    rcases hform with hf | hf
    all_goals
      have hf' : (p.tree.node id).statement.form = _ := hf
      simp only [Tree.target?, hf', hlabel', Option.bind_some, hd]
      rfl
  rw [hstatement] at hdform hdcommented hdlabel
  refine ⟨a, d, b, hsplit, by simp [Node.is, hdform, hdcommented], hdlabel, ?_⟩
  simp only [leadsTo?, htarget, Option.join_some, Option.bind_some, hnumber]

/-- A jump of the block structure plays its part, and any other jump names a label. -/
theorem Linkable.jumps_cases {p : Session} (h : p.Linkable) {id : NodeId}
    (hid : id ∈ p.tree.preorder) (hlive : (p.tree.node id).isLive = true)
    (hjumps : (p.tree.node id).statement.conditional.isJump = true ∨
      jumpsAlways (p.tree.node id).statement.form = true) :
    ((p.tree.part id).jumps = true ∧ (p.tree.node id).statement.form.isTransfer = false) ∨
    (((p.tree.node id).statement.form = FormId.gotoLabel ∨
      (p.tree.node id).statement.form = FormId.gosub) ∧
      (p.tree.node id).statement.label?.isSome = true ∧
      (p.tree.node id).statement.returnSlot? = none) := by
  have hrole : (p.tree.node id).role = (p.tree.part id).role := (h.regular id).role
  rcases h.acts id hid hlive with ⟨hp, line, hline⟩ | ⟨-, hnode, hexecuted, hloop⟩
  · left
    rw [Tree.part, hp, hline]
    exact ⟨rfl, rfl⟩
  · cases hexecuted with
    | test htest hconditional _ hmeaning =>
      refine .inl ⟨Part.jumps_of_role ?_, ?_⟩
      · rw [← hrole, hnode, hconditional]
        exact Conditional.jumps_role htest
      · simp only [FormId.hasMeaning, FormId.isControl, Bool.or_eq_false_iff] at hmeaning
        exact hmeaning.1.1.1.2
    | exit hexit _ =>
      refine .inl ⟨Part.jumps_of_role ?_, ?_⟩
      · rw [← hrole, hnode]
        rcases hexit with ⟨-, hr⟩ | ⟨-, hr⟩ <;> rw [hr] <;> rfl
      · rcases hexit with ⟨hf, -⟩ | ⟨hf, -⟩ <;> rw [hf] <;> rfl
    | labelJump hform _ hlabel hslot => exact .inr ⟨hform, hlabel, hslot⟩
    | waiting hwaiting _ =>
      rw [hloop] at hwaiting
      cases hwaiting
    | plain _ htest hform _ =>
      rcases hjumps with hc | hc
      · exact absurd (hc.symm.trans htest) (by decide)
      · exact absurd (hc.symm.trans hform) (by decide)

/-- All jumps of a script without problems lead to a number. -/
theorem Examined.aimed (hg : e.grammar.Lawful) (h : Expanding e (buildTree e lines) f s g [])
    (hx : Examined s g p) : p.Aimed := by
  have hspans := h.spans.alike hx.alike
  have hlinkable := hx.linkable hg h
  have horder : s.tree.preorder = p.tree.preorder := by rw [h.spans.preorder_eq, hspans.preorder_eq]
  have hsound : Sound p.tree.part false false false g := by
    rw [← hx.alike.part_eq]
    exact hx.block.sound fun hc => absurd rfl hc
  -- A node whose part jumps leads where the shape says.
  have hshape : ∀ id ∈ p.tree.preorder, (p.tree.part id).jumps = true →
      ∃ m, p.leadsTo? id = some m := by
    intro id hid hjumps
    rw [hspans.preorder_eq] at hid
    exact (hx.linked hg h).exists_dest hsound nofun hid hjumps
  refine ⟨hlinkable, hx.errors, hx.returnValue, hx.jump, fun id hid hlive hjumps => ?_,
    fun id hid hlive hrecognised v hv => ?_⟩
  · rcases hlinkable.jumps_cases hid hlive hjumps with ⟨hjumps, -⟩ | ⟨hform, hlabel, -⟩
    · exact hshape id hid hjumps
    · obtain ⟨label, hlabel⟩ := Option.isSome_iff_exists.mp hlabel
      obtain ⟨a, _, _, _, _, _, hleads⟩ := hx.leadsTo?_label h hid hlive hform hlabel
      exact ⟨_, hleads⟩
  · have hstatement : (s.tree.node id).statement = (p.node id).statement := hx.alike.statement_eq id
    simp only [Node.isLive, Bool.and_eq_true, Bool.not_eq_true'] at hlive
    refine hx.resolves.vars id (horder ▸ hid) ?_ v ?_
    · rw [hstatement]
      exact ⟨hlive.2, hrecognised⟩
    · rw [hstatement]
      exact hv

/-! ## The passes together -/

/-- What is known of a script whose compilation reports no problem: `s` is the expanded script, `p`
the one that the checks leave, and `q` the one whose jumps are resolved. -/
structure Finished (e : Setting) (lines : List String) (g : Forest) (s p q : Session) : Prop where
  expanding : ∃ f, (buildTree e lines).Spans f ∧ Expanding e (buildTree e lines) f s g []
  examined : Examined s g p
  linked : Linked p.tree.part p.leadsTo? 0 none 0 g
  linkable : p.Linkable
  frame : Frame p q
  settled : ∀ id ∈ g.ids, Settles (q.node id) (p.leadsTo? id)

/-- The passes never fail, and the last ones leave the tree and the log of the checks as they
are. -/
theorem runPasses_spec (hg : e.grammar.Lawful) (hf : (buildTree e lines).Spans f)
    (h : Expanding e (buildTree e lines) f s g []) :
    ∃ q, s.runPasses e = .ok q.emit ∧ Frame (s.examine e) q ∧
      (q.log = #[] → Finished e lines g s (s.examine e) q) := by
  rw [runPasses_eq]
  by_cases hlog : (s.examine e).log = #[]
  · have hx := examined_of_log_empty hf h hlog
    have hspans := h.spans.alike hx.alike
    obtain ⟨u, q, hlink, hresolve, hframe, hsettled⟩ := (hx.aimed hg h).link_resolve_ok hspans
    rw [hspans.preorder_eq] at hsettled
    refine ⟨q, ?_, hframe, fun _ => ⟨⟨f, hf, h⟩, hx, hx.linked hg h, hx.linkable hg h, hframe,
      hsettled⟩⟩
    rw [hlink, ok_bind, hresolve, ok_bind]
  · have hproblems : (s.examine e).hasProblems = true := by
      simpa [hasProblems, Array.isEmpty_iff] using hlog
    obtain ⟨u, hlink, hframe⟩ := link_of_hasProblems hproblems
    obtain ⟨q, hresolve, hframe'⟩ := resolve_of_hasProblems (hframe.hasProblems_eq.trans hproblems)
    have hsame := hframe.trans hframe'
    refine ⟨q, ?_, hsame, fun hc => absurd (hsame.log.symm.trans hc) hlog⟩
    rw [hlink, ok_bind, hresolve, ok_bind]

end Session

def Session.compiled (e : Setting) (lines : List String) : Except Fault Session :=
  (Session.start (buildTree e lines)).expand e >>= fun s => s.runPasses e

theorem compile_of_compiled {e : Setting} {lines : List String} {s : Session}
    (h : Session.compiled e lines = .ok s) :
    compile e lines = .ok (.ofSession s) := by
  unfold Session.compiled at h
  unfold compile
  obtain ⟨u, hexpand, h⟩ := bind_eq_ok_iff.mp h
  rw [hexpand, ok_bind, h, ok_bind]
  rfl

theorem output_of_compiled {e : Setting} {lines : List String} {s : Session} {o : Output}
    (h : Session.compiled e lines = .ok s) (hcompile : compile e lines = .ok o) :
    Output.ofSession s = o :=
  Except.ok.inj ((compile_of_compiled h).symm.trans hcompile)

theorem runPasses_of_compiled {e : Setting} {lines : List String} {s q : Session}
    (hexpand : (Session.start (buildTree e lines)).expand e = .ok s)
    (h : Session.compiled e lines = .ok q) :
    s.runPasses e = .ok q := by
  rw [Session.compiled, hexpand, ok_bind] at h
  exact h

/-- A compilation never fails: it expands the script and runs the passes. What links the jumps
leaves the tree and the log of the checks as they are. -/
theorem compile_spec {e : Setting} (hg : e.grammar.Lawful) (lines : List String) :
    ∃ f s g q, (buildTree e lines).Spans f ∧ (Session.start (buildTree e lines)).expand e = .ok s ∧
      Session.Expanding e (buildTree e lines) f s g [] ∧ Session.compiled e lines = .ok q.emit ∧
      Session.Frame (s.examine e) q ∧
      (q.log = #[] → Session.Finished e lines g s (s.examine e) q) := by
  obtain ⟨f, hf, -⟩ := nest_spans (readAll_regular e.grammar e.version lines)
  obtain ⟨s, g, hexpand, h⟩ := Session.expand_spec hg lines hf
  obtain ⟨q, hrun, hframe, hfinished⟩ := Session.runPasses_spec hg hf h
  refine ⟨f, s, g, q, hf, hexpand, h, ?_, hframe, hfinished⟩
  rw [Session.compiled, hexpand, ok_bind, hrun]

/-! ## The commands -/

def Command.number? (c : Command) : Option Nat := c.index.map UInt16.toNat

def Command.target? (c : Command) : Option Nat := c.destination?.map UInt16.toNat

theorem Command.target?_of_test {c : Command} {d : UInt16} {test : Conditional}
    (hvalue : c.returnValue = some (.of test d)) (hjump : c.jump = none)
    (htest : test.isJump = true) :
    c.target? = some d.toNat := by
  have hisJump : (ReturnValue.of test d).conditional.isJump = true := htest
  simp only [target?, destination?, hjump, hvalue, Option.filter_some, hisJump, if_true,
    Option.map_some]
  rfl

theorem Command.target?_of_jump {c : Command} {d : UInt16} (hjump : c.jump = some d) :
    c.target? = some d.toNat := by
  simp only [target?, destination?, hjump, Option.map_some]

/-- What the commands of a script tell. `cmd` gives the command of each node of the shape `g`. -/
structure Emitted (part : NodeId → Part) (cmd : NodeId → Command) (g : Forest) (o : Output) :
    Prop where
  commands : o.commands.toList = g.ids.map cmd
  count : o.standardCount = g.count part
  block : Block part false false .script g
  linked : Linked part (fun id => (cmd id).target?) 0 none 0 g
  index : ∀ a id b, g.ids = a ++ id :: b → (cmd id).number? =
    if (part id).isLive then some (a.countP fun j => (part j).isLive) else none
  role : ∀ id ∈ g.ids, part id ≠ .header → (cmd id).role = (part id).role
  header : ∀ id ∈ g.ids, (cmd id).origin = .header ↔ part id = .header
  hidden : ∀ id ∈ g.ids, (cmd id).origin = .hiddenJump ↔ part id = .jump

/-- Only inserted nodes play the part of a hidden jump. -/
theorem Tree.part_eq_jump_iff (t : Tree) (id : NodeId) :
    t.part id = .jump ↔ (t.node id).origin = .hiddenJump := by
  have hstatement : (t.node id).statement.part ≠ .jump := by
    simp only [Statement.part]
    split <;> first | (split <;> simp) | simp
  simp only [part, Node.part]
  split <;> (try split) <;> simp_all

theorem Linked.congr {part : NodeId → Part} {dest dest' : NodeId → Option Nat} {n exit : Nat}
    {loop : Option (Nat × Nat)} {f : Forest} (h : Linked part dest n loop exit f)
    (hdest : ∀ id ∈ f.ids, (part id).jumps = true → dest' id = dest id) :
    Linked part dest' n loop exit f := by
  induction f generalizing n loop exit with
  | nil => trivial
  | node id below after ihb iha =>
    obtain ⟨hnode, hbelow, hafter⟩ := h
    refine ⟨?_, ihb hbelow fun j hj => hdest j (by simp [hj]), iha hafter fun j hj =>
      hdest j (by simp [hj])⟩
    have hid := hdest id (by simp)
    unfold LinkedNode at hnode ⊢
    cases hp : part id <;> rw [hp] at hnode hid <;> first | trivial | exact (hid rfl).trans hnode

namespace Session

theorem Linkable.jumps_of_part {p : Session} (h : p.Linkable) {id : NodeId}
    (hid : id ∈ p.tree.preorder) (hjumps : (p.tree.part id).jumps = true) :
    (p.tree.node id).isLive = true ∧
      ((p.tree.node id).statement.conditional.isJump = true ∨
        jumpsAlways (p.tree.node id).statement.form = true) := by
  have hlive : (p.tree.node id).isLive = true := by
    rw [(h.regular id).live]
    exact Part.isLive_of_jumps hjumps
  have hacts := h.acts id hid hlive
  refine ⟨hlive, ?_⟩
  cases Moves.of_acts hacts with
  | test hjump _ _ => exact .inl hjump
  | always hform _ _ => exact .inr hform
  | next hrole _ hform _ =>
    have hpart : p.tree.part id = .jump :=
      Part.eq_jump_of_jumps hjumps ((h.regular id).role.symm.trans hrole)
    rcases hacts with ⟨-, line, hline⟩ | ⟨hp, -, -, -⟩
    · rw [hline] at hform
      cases hform
    · exact absurd hpart hp

/-- A jump is emitted with the destination that it leads to. -/
theorem Settles.target?_eq {n : Node} {dest : Option Nat} (h : Settles n dest)
    (hlive : n.isLive = true) (hjumps : n.statement.conditional.isJump = true ∨
      jumpsAlways n.statement.form = true) {c : Command}
    (hvalue : c.returnValue = n.returnValue) (hjump : c.jump = n.jump) : c.target? = dest := by
  cases h with
  | idle hdead _ _ =>
    rw [hlive] at hdead
    cases hdead
  | test d htest _ hv hj hdest =>
    rw [hdest]
    exact Command.target?_of_test (hvalue.trans hv) (hjump.trans hj) htest
  | always d _ _ _ hj hdest =>
    rw [hdest]
    exact Command.target?_of_jump (hjump.trans hj)
  | next htest hform _ _ =>
    rw [htest, hform] at hjumps
    rcases hjumps with hc | hc <;> cases hc

variable {e : Setting} {lines : List String} {g : Forest} {s p q : Session}

theorem Finished.emitted (h : Finished e lines g s p q) :
    Emitted p.tree.part (q.commandOf (Order.of q.tree)) g (.ofSession q.emit) := by
  obtain ⟨f, hf, hexpanding⟩ := h.expanding
  have hspans := hexpanding.spans.alike h.examined.alike
  have hqspans := hspans.alike h.frame.alike
  have hstatement : ∀ id, (q.node id).statement = (p.node id).statement :=
    fun id => (h.frame.alike.statement_eq id).symm
  have horigin : ∀ id, (q.node id).origin = (p.node id).origin :=
    fun id => (h.frame.alike.origin_eq id).symm
  have hcount : p.tree.liveCount = fun ids => ids.countP fun j => (p.tree.part j).isLive := by
    funext ids
    exact List.countP_congr fun j _ => by rw [(h.linkable.regular j).live]; rfl
  refine ⟨?_, ?_, ?_, ?_, ?_, ?_, ?_, ?_⟩
  · simp only [Output.ofSession, emit, Order.of, hqspans.preorder_eq]
  · change q.standardCount = _
    rw [h.frame.standardCount, h.examined.numbered.count, hspans.preorder_eq,
      Forest.liveCount_ids h.linkable.regular]
  · rw [← h.examined.alike.part_eq]
    exact h.examined.block
  · refine h.linked.congr fun id hid hjumps => ?_
    rw [← hspans.preorder_eq] at hid
    obtain ⟨hlive, hmoves⟩ := h.linkable.jumps_of_part hid hjumps
    rw [hspans.preorder_eq] at hid
    refine (h.settled id hid).target?_eq ?_ ?_ rfl rfl
    · exact (h.frame.alike.isLive_eq id).symm.trans hlive
    · rw [hstatement]
      exact hmoves
  · intro a id b hsplit
    have hindex := h.examined.numbered.index a id b (by rw [hspans.preorder_eq, hsplit])
    have hlive : (p.node id).isLive = (p.tree.part id).isLive := (h.linkable.regular id).live
    have hlt : p.tree.liveCount a < UInt16.size := by
      refine h.examined.numbered.lt_size ?_
      rw [hspans.preorder_eq, hsplit]
      exact List.sublist_append_left _ _
    change (q.node id).index.map _ = _
    rw [h.frame.index, hindex, hlive]
    cases (p.tree.part id).isLive with
    | false => rfl
    | true =>
      simp only [if_true, Option.map_some]
      rw [UInt16.toNat_ofNat_of_lt' hlt, hcount]
  · intro id hid hheader
    change (q.node id).statement.role = _
    have hrole : (p.node id).role = (p.tree.part id).role := (h.linkable.regular id).role
    rw [hstatement, ← hrole, Node.role, if_neg]
    intro hc
    exact hheader ((Tree.part_eq_header_iff p.tree id).mpr hc)
  · intro id hid
    change (q.node id).origin = _ ↔ _
    rw [horigin]
    exact (Tree.part_eq_header_iff p.tree id).symm
  · intro id hid
    change (q.node id).origin = _ ↔ _
    rw [horigin]
    exact (Tree.part_eq_jump_iff p.tree id).symm

end Session

theorem finished_of_compile {e : Setting} (hg : e.grammar.Lawful) {lines : List String} {o : Output}
    (hcompile : compile e lines = .ok o) (hok : o.isSuccessful = true) :
    ∃ g s q, (Session.start (buildTree e lines)).expand e = .ok s ∧ o = .ofSession q.emit ∧
      Session.Finished e lines g s (s.examine e) q ∧ s.runPasses e = .ok q.emit ∧
      (s.examine e).log = #[] := by
  obtain ⟨f, s, g, q, _, hexpand, _, hspec, hframe, hfinished⟩ := compile_spec hg lines
  obtain rfl := output_of_compiled hspec hcompile
  have hlog : q.log = #[] := Array.isEmpty_iff.mp hok
  exact ⟨g, s, q, hexpand, rfl, hfinished hlog, runPasses_of_compiled hexpand hspec,
    hframe.log.symm.trans hlog⟩

end GameScript
