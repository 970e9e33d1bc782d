import Mathlib.Data.List.Nodup
import GameScript.Proofs.Execution.Subroutines
import GameScript.Proofs.Symbols.Variables

/-!
# Labels link uniquely

In a script that is compiled without problems every label is defined by one command and has one
symbol, whose number is the index of that command. A jump or a call carries the number of the label
that it names, wherever it stands: `labels_link_uniquely`.

The pass that finds the labels lists them in the order of their definitions (`Session.Labelled`),
and the resolution gives them their numbers one by one (`Session.Placing`).
-/

namespace GameScript

namespace Session

theorem examine_labelled {e : Setting} {s : Session} (hs : s.Nameless)
    (hlog : (s.examine e).log = #[]) : Labelled s.tree (s.examine e) := by
  have hlabelled := identifyNames_labelled hs ((identifyNames_grows e s).log_eq_empty hlog)
  obtain ⟨hexamined, hsame⟩ := examine_names e s
  refine ⟨?_, fun label d => ?_⟩
  · rw [hexamined, identifyConstants_eq (identifyNames_records e hs).places]
    exact hlabelled.lists.mapVariables _
  · rw [hsame]
    exact hlabelled.nodes label d

/-! ## The resolution -/

theorem placeLabel_cases (s : Session) (id : NodeId) : (s.placeLabel id).symbols = s.symbols ∨
    ∃ label index, s.labels[label]? = some id ∧
      (s.placeLabel id).symbols = s.symbols.modifyLabel label fun symbol =>
        { symbol with id := index } := by
  unfold placeLabel
  dsimp only
  split
  · next label index _ _ =>
    split
    · next hlabel => exact .inr ⟨label, index, hlabel, rfl⟩
    · exact .inl rfl
  · exact .inl rfl

/-- The node that defines a label gives it its index. -/
theorem placeLabel_eq {s : Session} {id : NodeId} {label : String} {index : UInt16}
    (hlabel : (s.node id).statement.label? = some label) (hindex : (s.node id).index = some index)
    (hmine : s.labels[label]? = some id) :
    (s.placeLabel id).symbols = s.symbols.modifyLabel label fun symbol =>
      { symbol with id := index } := by
  simp only [placeLabel, hlabel, hindex, hmine, if_true]

structure Placing (p : Session) (done : List NodeId) (s : Session) : Prop extends Frame p s where
  lists : s.symbols.Lists (p.tree.definitions p.tree.preorder)
  placed : ∀ d ∈ done, (p.node d).isLive = true →
    ∀ label, (p.node d).statement.definition? = some label →
    ∀ index, (p.node d).index = some index → ∃ symbol, s.symbols.findLabel? label = some symbol ∧
      symbol.id = index

namespace Placing

variable {p s s' : Session} {done rest : List NodeId} {id : NodeId}

theorem keep (h : Placing p done s) (hframe : Frame s s') (hsymbols : s'.symbols = s.symbols)
    (hno : (p.node id).isLive = true → ∀ label, (p.node id).statement.definition? ≠ some label) :
    Placing p (done ++ [id]) s' := by
  refine ⟨h.toFrame.trans hframe, hsymbols ▸ h.lists, fun d hd hlive label hlabel => ?_⟩
  rw [hsymbols]
  rcases List.mem_append.mp hd with hd | hd
  · exact h.placed d hd hlive label hlabel
  · obtain rfl := List.mem_singleton.mp hd
    exact absurd hlabel (hno hlive label)

/-- A node that defines a label was visited. The label gets its index, and the others keep theirs,
as each label belongs to one node. -/
theorem place (hp : Labelled p.tree p) (horder : p.tree.preorder = done ++ id :: rest)
    (h : Placing p done s) : Placing p (done ++ [id]) (s.placeLabel id) := by
  have hmem : ∀ {label : String} {d : NodeId}, s.labels[label]? = some d →
      label ∈ p.tree.definitions p.tree.preorder := by
    intro label d hmine
    rw [h.labels] at hmine
    exact Tree.mem_definitions.mpr ⟨d, (hp.nodes label d).mp hmine⟩
  have hchange := fun (label : String) (index : UInt16) (hmine : s.labels[label]? = some id) =>
    h.lists.modifyLabel (hmem hmine) (f := fun symbol => { symbol with id := index }) fun _ =>
      ⟨rfl, rfl⟩
  refine ⟨h.toFrame.trans (Frame.placeLabel s id).1, ?_,
    fun d hd hlive label hdefines index hindex => ?_⟩
  · rcases placeLabel_cases s id with heq | ⟨label, index, hmine, heq⟩
    · exact heq ▸ h.lists
    · exact heq ▸ (hchange label index hmine).1
  · have hmine : s.labels[label]? = some d := by
      rw [h.labels, hp.nodes, horder]
      refine ⟨?_, hdefines⟩
      rcases List.mem_append.mp hd with hd | hd
      · exact List.mem_append_left _ hd
      · simp [List.mem_singleton.mp hd]
    by_cases hne : d = id
    · subst hne
      obtain ⟨_, _, hlabel⟩ := Statement.definition?_eq_some.mp hdefines
      have hstatement : (s.node d).statement = (p.node d).statement := (h.alike.statement_eq d).symm
      obtain ⟨place, symbol, hplace, hsymbol, -⟩ := h.lists.exists_getElem? (hmem hmine)
      have hfind : s.symbols.findLabel? label = some symbol := by
        rw [SymbolTable.findLabel?, hplace]
        exact hsymbol
      rw [placeLabel_eq (hstatement ▸ hlabel) ((h.index d).trans hindex) hmine,
        (hchange label index hmine).2.1, hfind]
      exact ⟨_, rfl, rfl⟩
    · have hdone : d ∈ done := by
        rcases List.mem_append.mp hd with hd | hd
        · exact hd
        · exact absurd (List.mem_singleton.mp hd) hne
      obtain ⟨symbol, hfind, hid⟩ := h.placed d hdone hlive label hdefines index hindex
      refine ⟨symbol, ?_, hid⟩
      rcases placeLabel_cases s id with heq | ⟨other, index', hother, heq⟩
      · exact heq ▸ hfind
      · rw [heq, (hchange other index' hother).2.2 label, hfind]
        rintro rfl
        exact hne (Option.some.inj (hmine.symm.trans hother))

theorem step (hp : Labelled p.tree p) (horder : p.tree.preorder = done ++ id :: rest)
    (h : Placing p done s) (hstep : s.resolveNode id = .ok s') : Placing p (done ++ [id]) s' := by
  have hsettling := settling_of_resolveNode hstep
  have hframe := hsettling.frame
  have hno : (s.node id).is FormId.defineLabel = false →
      ∀ label, (p.node id).statement.definition? ≠ some label := by
    intro hlabel label hdefines
    obtain ⟨hform, hcommented, -⟩ := Statement.definition?_eq_some.mp hdefines
    have hstatement : (s.node id).statement = (p.node id).statement :=
      (h.alike.statement_eq id).symm
    simp [Node.is, hstatement, hform, hcommented] at hlabel
  cases hsettling with
  | idle hdead =>
    refine h.keep hframe rfl fun hlive => ?_
    rw [node, h.alike.isLive_eq] at hlive
    cases hlive.symm.trans hdead
  | value _ hlabel => exact h.keep hframe rfl fun _ => hno hlabel
  | jump _ hlabel => exact h.keep hframe rfl fun _ => hno hlabel
  | plain _ hlabel => exact h.keep hframe rfl fun _ => hno hlabel
  | label => exact h.place hp horder

end Placing

/-- All labels get the indices of their definitions. -/
theorem resolve_places {s s' : Session} (hs : Labelled s.tree s) (h : s.resolve = .ok s') :
    Placing s s.tree.preorder s' :=
  foldlM_induction h ⟨.refl s, hs.lists, by simp⟩ fun _ _ _ _ _ hsplit hu hstep =>
    hu.step hs hsplit hstep

variable {e : Setting} {lines : List String} {g : Forest} {s q : Session}

/-- The labels of a finished script are listed in the order of their definitions, and they have the
indices of these. -/
theorem Finished.places (h : Finished e lines g s (s.examine e) q) (hlog : (s.examine e).log = #[])
    (hpasses : s.runPasses e = .ok q.emit) : q.symbols.Lists (q.tree.definitions g.ids) ∧
      ∀ d ∈ g.ids, ∀ label, (q.node d).statement.definition? = some label →
        (∀ j ∈ g.ids, (q.node j).statement.definition? = some label → j = d) ∧
        ∃ symbol, q.symbols.findLabel? label = some symbol ∧ (q.node d).index = some symbol.id := by
  obtain ⟨f, -, hexpanding⟩ := h.expanding
  obtain ⟨u, q', hlink, hresolve, hsymbols, htree⟩ := runPasses_emit hpasses
  obtain ⟨hlinkSymbols, hlinkLabels, hlinked, -⟩ := link_names hlink
  -- The linked script has the labels that were found.
  have halike : s.tree.Alike u.tree := h.examined.alike.trans hlinked
  have horder : u.tree.preorder = g.ids := (hexpanding.spans.alike halike).preorder_eq
  have hlabelled : Labelled u.tree u := by
    have hexamined := examine_labelled hexpanding.nameless hlog
    refine ⟨?_, fun label d => ?_⟩
    · rw [hlinkSymbols, ← halike.preorder_eq, Tree.definitions_congr halike.statement_eq]
      exact hexamined.lists
    · rw [hlinkLabels, ← halike.preorder_eq, ← halike.statement_eq]
      exact hexamined.nodes label d
  have hplacing := resolve_places hlabelled hresolve
  have hnode : ∀ id, q.node id = q'.node id := fun id => by rw [node, htree]; rfl
  have hnodes : ∀ {label : String} {d : NodeId}, d ∈ g.ids →
      (q.node d).statement.definition? = some label →
      u.labels[label]? = some d := by
    intro label d hd hlabel
    rw [hlabelled.nodes, horder, hplacing.alike.statement_eq, ← htree]
    exact ⟨hd, hlabel⟩
  refine ⟨?_, fun d hd label hlabel => ⟨fun j hj hsame => ?_, ?_⟩⟩
  · rw [hsymbols, htree, Tree.definitions_congr hplacing.alike.statement_eq, ← horder]
    exact hplacing.lists
  · exact Option.some.inj ((hnodes hj hsame).symm.trans (hnodes hd hlabel))
  · have hstatement : (q.node d).statement = (s.node d).statement :=
      (h.frame.alike.statement_eq d).symm.trans (h.examined.alike.statement_eq d).symm
    obtain ⟨hform, hcommented, -⟩ := Statement.definition?_eq_some.mp hlabel
    have hlive : (s.node d).isLive = true :=
      (hexpanding.prepared d).isLive_of_form (.inl (hstatement ▸ hform)) (hstatement ▸ hcommented)
    have hindex : (q.node d).index.isSome = true := by
      have hmem : d ∈ (s.examine e).tree.preorder := by
        rw [(hexpanding.spans.alike h.examined.alike).preorder_eq]
        exact hd
      rw [h.frame.index, h.examined.numbered.index_isSome hmem, node, ← h.examined.alike.isLive_eq]
      exact hlive
    obtain ⟨index, hindex⟩ := Option.isSome_iff_exists.mp hindex
    rw [hsymbols, hindex]
    obtain ⟨symbol, hfind, rfl⟩ :=
      hplacing.placed d (horder ▸ hd) ((halike.isLive_eq d).symm.trans hlive) label
      (by rw [node, ← halike.statement_eq]; exact hstatement ▸ hlabel) index
      (by rw [← hplacing.index, ← hnode]; exact hindex)
    exact ⟨symbol, hfind, rfl⟩

/-- A jump or a call of a finished script leads to the command that defines its label. -/
theorem Finished.jump_eq (h : Finished e lines g s (s.examine e) q) {id : NodeId} (hid : id ∈ g.ids)
    {label : String} (hlabel : (q.node id).jumpLabel? = some label) :
    ∃ d ∈ g.ids, (q.node d).statement.definition? = some label ∧
      (q.node id).jump = (q.node d).index := by
  obtain ⟨f, -, hexpanding⟩ := h.expanding
  have hexamined : ∀ j, (s.node j).statement = ((s.examine e).tree.node j).statement :=
    h.examined.alike.statement_eq
  have hfinal : ∀ j, (q.node j).statement = (s.node j).statement := fun j =>
    (h.frame.alike.statement_eq j).symm.trans (hexamined j).symm
  have hlive : ∀ {j : NodeId}, (s.node j).statement.form = FormId.defineLabel ∨
      (s.node j).statement.form.isTransfer = true → (s.node j).statement.commented = false →
      ((s.examine e).tree.node j).isLive = true := by
    intro j hform hcommented
    rw [← h.examined.alike.isLive_eq]
    exact (hexpanding.prepared j).isLive_of_form hform hcommented
  rw [Node.jumpLabel?_congr (hfinal id)] at hlabel
  obtain ⟨hform, hcommented, hlabel⟩ := Node.jumpLabel?_eq_some.mp hlabel
  have htransfer : (s.node id).statement.form.isTransfer = true := by
    rcases hform with hform | hform <;> rw [hform] <;> rfl
  obtain ⟨named, a, d, b, hnamed, hsplit, hdefines, hdlabel, target, -, hjump, htarget⟩ :=
    h.label_defined hid (hlive (.inr htransfer) hcommented) (hexamined id ▸ hform)
  obtain rfl := Option.some.inj (hlabel.symm.trans hnamed)
  obtain ⟨hdform, hdcommented⟩ := Node.form_of_definesLabel hdefines
  refine ⟨d, by simp [hsplit], ?_, ?_⟩
  · rw [hfinal d]
    exact Statement.definition?_eq_some.mpr ⟨hdform, hdcommented, hdlabel⟩
  · have hnumber : (q.node d).index.map UInt16.toNat = _ := h.emitted.index a d b hsplit
    have hpart : ((s.examine e).tree.part d).isLive = true :=
      (h.linkable.regular d).live.symm.trans (hlive (.inl hdform) hdcommented)
    rw [hpart, if_pos rfl, ← htarget] at hnumber
    obtain ⟨index, hindex, hsame⟩ := Option.map_eq_some_iff.mp hnumber
    rw [hjump, hindex, UInt16.toNat_inj.mp hsame]

end Session

/-! ## Lines with labels -/

def FormId.namesLabel (form : FormId) : Bool :=
  form == FormId.defineLabel || form == FormId.gotoLabel || form == FormId.gosub

theorem FormId.namesLabel_iff {form : FormId} : form.namesLabel = true ↔
    form = FormId.defineLabel ∨ form = FormId.gotoLabel ∨ form = FormId.gosub := by
  simp [namesLabel, or_assoc]

set_option maxRecDepth 20000 in
theorem kinds_of_namesLabel : ∀ e ∈ Grammar.builtin.entries, e.form.id.namesLabel = true →
    e.form.params.map (·.kind) = [.labelName] := by
  rw [Grammar.builtin_eq]
  decide +kernel

theorem Token.text_of_label {t : Token} {b : Bool} (hkind : t.kind = .label)
    (h : Spelled b t.kind t.text.toList) :
    t.text = t.value ++ ":" := by
  rw [hkind] at h
  generalize hcs : t.text.toList = cs at h
  cases h with
  | @symbol _ w _ hop => rcases operatorKind_cases b w with hw | hw <;> rw [hw] at hop <;> cases hop
  | @label c name hc hname =>
    have hcolon : ∀ d ∈ (c :: name).reverse, d ≠ ':' := by
      intro d hd
      rcases List.mem_cons.mp (List.mem_reverse.mp hd) with rfl | hd
      · exact ne_of_class hc (by decide)
      · exact ne_of_class (hname d hd) (by decide)
    have hvalue : payload .label (c :: (name ++ [':'])) = c :: name := by
      have hreverse : (c :: (name ++ [':'])).reverse = ':' :: (c :: name).reverse := by simp
      have hstays : (c :: name).reverse.dropWhile (· == ':') = (c :: name).reverse := by
        cases hname : (c :: name).reverse with
        | nil => rfl
        | cons d ds => simp [hcolon d (by simp [hname])]
      rw [payload, Text.dropRight, hreverse, List.dropWhile_cons_of_pos (by decide), hstays,
        List.reverse_reverse]
    rw [value, hkind, hcs, hvalue, ← String.toList_inj, hcs]
    simp

/-- A line that defines a label or jumps to one has one parameter: the name of the label with a
colon. -/
theorem Statement.read_of_namesLabel (v : Version) (number : Nat) (line : String)
    (hform : (read .builtin v number line).statement.form.namesLabel = true) :
    ∃ name, (read .builtin v number line).statement.parameters.map (·.text) = [name ++ ":"] ∧
      (read .builtin v number line).statement.label? = some name := by
  rcases read_cases .builtin v number line with h | h | h | ⟨commented, r, hr, h⟩ <;>
    rw [h] at hform ⊢
  · cases hform
  · cases hform
  · cases hform
  · have hmem := (Recognition.of_recognise? hr).1
    have hkinds := kinds_of_namesLabel _ (List.mem_filter.mp (Entry.mem_of_mem_sort hmem)).1 hform
    have hlawful := builtin_lawful.lawful _ hmem
    obtain ⟨p, hp, hkind⟩ : ∃ p, r.fit.parameters r.entry.form = [p] ∧ p.kind = .labelName :=
      List.map_eq_singleton_iff.mp ((Recognition.kinds hr).trans hkinds)
    obtain ⟨htakes, hsubset⟩ := Recognition.takes hr hlawful (p := p) (by simp [hp])
    rw [hkind] at htakes
    obtain ⟨t, htokens, ht⟩ := htakes
    obtain ⟨b, hspelled⟩ := Token.significant_spelled line t (hsubset (by simp [htokens]))
    have hparameters : (ofRecognition number line commented r).parameters = [p] := hp
    refine ⟨t.value, ?_, ?_⟩
    · rw [hparameters, List.map_singleton, Parameter.text, htokens,
        ← Token.text_of_label ht hspelled]
      rfl
    · simp [label?, hparameters, Parameter.label?, htokens, ht]

/-! ## The labels of a compiled script -/

namespace Command

/-- The command defines a label. A command that is commented out defines none. -/
def definesLabel (c : Command) (name : String) : Bool :=
  c.form == FormId.defineLabel && !c.commented && c.parameters == [name ++ ":"]

/-- The command jumps to a label or calls the subroutine there. A command that is commented out does
not. -/
def jumpsToLabel (c : Command) (name : String) : Bool :=
  (c.form == FormId.gotoLabel || c.form == FormId.gosub) && !c.commented &&
  c.parameters == [name ++ ":"]

end Command

def Output.labels (o : Output) : List Symbol := o.symbols.filter fun s => s.kind = .label

namespace Session

variable {e : Setting} {lines : List String} {g : Forest} {s p q : Session} {id : NodeId}
  {name : String}

/-- The parameter of a command that defines a label or jumps to one. -/
theorem Finished.exists_label (he : e.grammar = .builtin) (h : Finished e lines g s p q)
    (hcommented : (q.node id).statement.commented = false)
    (hform : (q.node id).statement.form.namesLabel = true) :
    ∃ name, (q.node id).statement.parameters.map (·.text) = [name ++ ":"] ∧
      (q.node id).statement.label? = some name := by
  obtain ⟨f, -, hexpanding⟩ := h.expanding
  have hstatement : (q.node id).statement = (s.node id).statement :=
    (h.frame.alike.statement_eq id).symm.trans (h.examined.alike.statement_eq id).symm
  rw [hstatement] at hcommented hform ⊢
  have hlive : (s.node id).isLive = true := by
    refine (hexpanding.prepared id).isLive_of_form ?_ hcommented
    rcases FormId.namesLabel_iff.mp hform with hform | hform | hform <;> rw [hform] <;> decide
  rcases (hexpanding.prepared id).standard_cases ((Bool.and_eq_true _ _).mp hlive).1 with ⟨number,
    line, hread⟩ | ⟨line, hjump⟩
  · rw [he] at hread
    rw [hread] at hform ⊢
    exact Statement.read_of_namesLabel e.version number line hform
  · rw [hjump] at hform
    cases hform

theorem Finished.parameters_iff (he : e.grammar = .builtin) (h : Finished e lines g s p q)
    (hcommented : (q.node id).statement.commented = false)
    (hform : (q.node id).statement.form.namesLabel = true) :
    (q.node id).statement.parameters.map (·.text) = [name ++ ":"] ↔
    (q.node id).statement.label? = some name := by
  obtain ⟨label, hparameters, hlabel⟩ := h.exists_label he hcommented hform
  rw [hparameters, hlabel, List.cons.injEq, Option.some.injEq, ← String.toList_inj]
  simp only [String.toList_append, List.append_cancel_right_eq, and_true, String.toList_inj]

theorem Finished.definesLabel_iff (he : e.grammar = .builtin) (h : Finished e lines g s p q) :
    (q.commandOf (.of q.tree) id).definesLabel name = true ↔
    (q.node id).statement.definition? = some name := by
  simp only [Command.definesLabel, commandOf, Bool.and_eq_true, beq_iff_eq, Bool.not_eq_true',
    and_assoc, Statement.definition?_eq_some]
  refine and_congr_right fun hform => and_congr_right fun hcommented => ?_
  exact h.parameters_iff he hcommented (FormId.namesLabel_iff.mpr (.inl hform))

theorem Finished.jumpsToLabel_iff (he : e.grammar = .builtin) (h : Finished e lines g s p q) :
    (q.commandOf (.of q.tree) id).jumpsToLabel name = true ↔
    (q.node id).jumpLabel? = some name := by
  rw [Node.jumpLabel?_eq_some]
  simp only [Command.jumpsToLabel, commandOf, Bool.and_eq_true, Bool.or_eq_true, beq_iff_eq,
    Bool.not_eq_true', and_assoc]
  refine and_congr_right fun hform => and_congr_right fun hcommented => ?_
  exact h.parameters_iff he hcommented (FormId.namesLabel_iff.mpr (.inr hform))

end Session

/-- A label that a command defines or jumps to, or that is a symbol, is defined by one command and
is one symbol. The number of the symbol is the index of the command, and all jumps and calls that
name the label lead there. -/
theorem labels_link_uniquely (v : Version) (arguments : List String)
    (objects : Option ObjectLibrary) (lines : List String) (o : Output)
    (hcompile : compile ⟨.builtin, v, arguments, objects⟩ lines = .ok o)
    (hok : o.isSuccessful = true) :
    (∀ c ∈ o.commands.toList, c.commented = false →
      c.form = FormId.defineLabel ∨ c.form = FormId.gotoLabel ∨ c.form = FormId.gosub →
        ∃ name, c.parameters = [name ++ ":"]) ∧
      ∀ name, (∃ c ∈ o.commands.toList, c.definesLabel name = true ∨ c.jumpsToLabel name = true) ∨
          (∃ symbol ∈ o.labels, symbol.name = name) →
        ∃ d symbol, o.commands.toList.filter (fun c => c.definesLabel name) = [d] ∧
          o.labels.filter (fun s => s.name == name) = [symbol] ∧ d.index = some symbol.id ∧
          ∀ c ∈ o.commands.toList, c.jumpsToLabel name = true → c.jump = some symbol.id := by
  obtain ⟨g, s, q, -, rfl, h, hpasses, hexamined⟩ := finished_of_compile builtin_lawful hcompile hok
  obtain ⟨f, -, hexpanding⟩ := h.expanding
  obtain ⟨hlists, hplaced⟩ := h.places hexamined hpasses
  have hlabels : (Output.ofSession q.emit).labels = q.symbols.labels.toList := by
    have hdeclares :=
      hexpanding.declares builtin_lawful (Session.withinLimit_of_log hexamined) hpasses
    exact hdeclares.rolls.filter_label_toList
  have hcommands := h.emitted.commands
  have hnodup : g.ids.Nodup := (List.nodup_cons.mp hexpanding.spans.nodup).2
  rw [hcommands, hlabels]
  simp only [List.forall_mem_map]
  refine ⟨fun id hid hcommented hform => ?_, fun name hname => ?_⟩
  · obtain ⟨name, hparameters, -⟩ := h.exists_label rfl hcommented
      (FormId.namesLabel_iff.mpr hform)
    exact ⟨name, hparameters⟩
  · -- Wherever the name comes from, a command defines it.
    obtain ⟨d, hd, hdefines⟩ : ∃ d ∈ g.ids, (q.node d).statement.definition? = some name := by
      rcases hname with ⟨c, hc, hnames⟩ | ⟨symbol, hsymbol, rfl⟩
      · obtain ⟨id, hid, rfl⟩ := List.mem_map.mp hc
        rcases hnames with hnames | hnames
        · exact ⟨id, hid, (h.definesLabel_iff rfl).mp hnames⟩
        · obtain ⟨d, hd, hdefines, -⟩ := h.jump_eq hid ((h.jumpsToLabel_iff rfl).mp hnames)
          exact ⟨d, hd, hdefines⟩
      · have hmem : symbol.name ∈ q.tree.definitions g.ids :=
          hlists.map_name ▸ List.mem_map_of_mem hsymbol
        exact Tree.mem_definitions.mp hmem
    obtain ⟨honly, symbol, hfind, hindex⟩ := hplaced d hd name hdefines
    refine ⟨q.commandOf (.of q.tree) d, symbol, ?_, ?_, hindex, fun id hid hjump => ?_⟩
    · rw [List.filter_map, filter_eq_singleton hnodup hd, List.map_singleton]
      intro id hid
      rw [Function.comp_apply, h.definesLabel_iff rfl]
      exact ⟨honly id hid, fun heq => heq ▸ hdefines⟩
    · exact hlists.filter_eq (Tree.mem_definitions.mpr ⟨d, hd, hdefines⟩) hfind
    · obtain ⟨j, hj, hnames, hjump⟩ := h.jump_eq hid ((h.jumpsToLabel_iff rfl).mp hjump)
      obtain rfl := honly j hj hnames
      exact hjump.trans hindex

/-- A subroutine that is called before it is defined. -/
theorem callingScript_labels :
    ∃ o, compile ⟨.builtin, .albionPrelude, ["$limit", "i", "$$limit"],
      none⟩ callingScript = .ok o ∧
      o.isSuccessful = true ∧ ∃ d, o.commands.toList.filter (fun c => c.definesLabel "Sub") = [d] ∧
      d.index = some 10 ∧
        ∀ c ∈ o.commands.toList, c.jumpsToLabel "Sub" = true → c.jump = some 10 := by
  obtain ⟨o, hcompile, hok, hsymbols⟩ := callingScript_compiles
  have hmem : ("Sub", 10, SymbolKind.label) ∈ o.symbols.map fun s => (s.name, s.id, s.kind) := by
    rw [hsymbols]
    decide
  obtain ⟨symbol, hsymbol, heq⟩ := List.mem_map.mp hmem
  simp only [Prod.mk.injEq] at heq
  obtain ⟨-, huniquely⟩ :=
    labels_link_uniquely .albionPrelude ["$limit", "i", "$$limit"] none callingScript o hcompile hok
  obtain ⟨d, found, hdefines, hlabel, hindex, hjumps⟩ := huniquely "Sub"
    (.inr ⟨symbol, List.mem_filter.mpr ⟨hsymbol, by simp [heq]⟩, heq.1⟩)
  have hfound : symbol ∈ o.labels.filter (fun s => s.name == "Sub") := by
    simp [Output.labels, hsymbol, heq]
  rw [hlabel, List.mem_singleton] at hfound
  subst hfound
  rw [heq.2.1] at hindex hjumps
  exact ⟨o, hcompile, hok, d, hdefines, hindex, hjumps⟩

end GameScript
