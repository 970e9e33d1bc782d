import GameScript.Proofs.Passes.Names

/-!
# Writes are noted, and names are resolved

The writes are counted in the symbols of the variables, one node after the other. `Symbol.note` is
what some writes add to a symbol, so that a whole run notes the list of all writers
(`identifyConstants_eq`). Nothing else changes, and `Session.Resolves` keeps what the later passes
rely on.
-/

namespace GameScript

def Symbol.note (v : Symbol) (writers : List NodeId) : Symbol :=
  { v with writes := v.writes + writers.length, firstWrite := v.firstWrite <|> writers.head? }

theorem Symbol.note_nil (v : Symbol) : v.note [] = v := by
  simp [note]

theorem Symbol.note_note (v : Symbol) (l m : List NodeId) :
    (v.note l).note m = v.note (l ++ m) := by
  simp [note, Nat.add_assoc, List.head?_append, Option.or_assoc]

def Node.written (n : Node) : List String :=
  if n.isLive && n.statement.isRecognised then n.statement.written else []

def Tree.noted (t : Tree) (ids : List NodeId) (name : String) : List NodeId :=
  ids.flatMap fun id => List.replicate ((t.node id).written.count name) id

namespace SymbolTable

theorem mapVariables_mapVariables (t : SymbolTable) (f g : Symbol → Symbol) :
    (t.mapVariables f).mapVariables g = t.mapVariables fun v => g (f v) := by
  simp [mapVariables, Function.comp_def]

theorem mapVariables_note_nil (t : SymbolTable) : t.mapVariables (fun v => v.note []) = t := by
  simp [mapVariables, Symbol.note_nil]

theorem findVariable?_mapVariables (t : SymbolTable) (f : Symbol → Symbol) (name : String) :
    (t.mapVariables f).findVariable? name = (t.findVariable? name).map f := by
  simp only [findVariable?, mapVariables]
  cases t.varPlaces[name]? <;> simp

/-- A change of one variable goes through all of them. -/
theorem modifyVariable_eq {t : SymbolTable} (h : Places t.varPlaces (t.vars.toList.map (·.name)))
    (name : String) (f : Symbol → Symbol) : t.modifyVariable name f = t.mapVariables fun v =>
      if v.name = name then f v else v := by
  have hplace : ∀ i v, t.vars[i]? = some v → (v.name = name ↔ t.varPlaces[name]? = some i) := by
    intro i v hv
    rw [h, List.getElem?_map, Array.getElem?_toList, hv]
    simp
  have hsame : t.modifyVariable name f = { t with vars := (t.modifyVariable name f).vars } := by
    unfold modifyVariable
    split <;> rfl
  rw [hsame]
  refine congrArg (fun vars => { t with vars }) (Array.ext_getElem? fun i => ?_)
  rw [Array.getElem?_map, modifyVariable]
  cases hv : t.vars[i]? with
  | none => split <;> simp [Array.getElem?_modify, hv]
  | some v =>
    have hv' := hplace i v hv
    split
    · next place hname =>
      simp only [Array.getElem?_modify, hv, hv', hname, Option.some.injEq, Option.map_some]
      split <;> rfl
    · next hname => simp [hv, hv', hname]

end SymbolTable

namespace Session

variable {s : Session} {id : NodeId} {arguments names : List String} {β : Type}

theorem places_mapVariables {t : SymbolTable}
    (h : SymbolTable.Places t.varPlaces (t.vars.toList.map (·.name))) {f : Symbol → Symbol}
    (hf : ∀ v, (f v).name = v.name) :
    SymbolTable.Places (t.mapVariables f).varPlaces
      ((t.mapVariables f).vars.toList.map (·.name)) := by
  simpa [SymbolTable.mapVariables, Function.comp_def, hf] using h

/-- The writes of one node are noted in the symbols of their variables. -/
theorem foldl_recordWrite (id : NodeId) (written : List String) {t : SymbolTable}
    (h : SymbolTable.Places t.varPlaces (t.vars.toList.map (·.name))) :
    written.foldl (recordWrite id) t = t.mapVariables fun v =>
      v.note (List.replicate (written.count v.name) id) := by
  induction written generalizing t with
  | nil => exact t.mapVariables_note_nil.symm
  | cons name rest ih =>
    have hone : recordWrite id t name = t.mapVariables fun v => if v.name = name then v.note [id]
        else v :=
      SymbolTable.modifyVariable_eq h name _
    have hname : ∀ v : Symbol, (if v.name = name then v.note [id] else v).name = v.name := by
      intro v
      split <;> rfl
    rw [List.foldl_cons, hone, ih (places_mapVariables h hname),
      SymbolTable.mapVariables_mapVariables]
    refine congrArg t.mapVariables (funext fun v => ?_)
    rw [hname]
    by_cases hv : v.name = name
    · rw [if_pos hv, Symbol.note_note, hv, List.count_cons_self, List.replicate_succ]
      rfl
    · rw [if_neg hv, List.count_cons_of_ne (Ne.symm hv)]

/-- The nodes of a script note their writes one after the other. -/
theorem foldl_recordWrites (ids : List NodeId)
    (h : SymbolTable.Places s.symbols.varPlaces (s.symbols.vars.toList.map (·.name))) :
    ids.foldl recordWrites s = { s with
      symbols := s.symbols.mapVariables fun v => v.note (s.tree.noted ids v.name) } := by
  induction ids generalizing s with
  | nil => exact congrArg (fun t => { s with symbols := t }) s.symbols.mapVariables_note_nil.symm
  | cons id rest ih =>
    have hone : s.recordWrites id = { s with
        symbols := s.symbols.mapVariables fun v =>
          v.note (List.replicate ((s.node id).written.count v.name) id) } := by
      unfold recordWrites Node.written
      dsimp only
      split
      · rw [foldl_recordWrite id _ h]
      · exact congrArg (fun t => { s with symbols := t }) s.symbols.mapVariables_note_nil.symm
    rw [List.foldl_cons, hone, ih (places_mapVariables h (f := fun v => v.note _) fun _ => rfl)]
    simp only [SymbolTable.mapVariables_mapVariables, Symbol.note_note]
    rfl

/-- What the pass does: it notes all writes, and then it marks the constants. -/
theorem identifyConstants_eq
    (h : SymbolTable.Places s.symbols.varPlaces (s.symbols.vars.toList.map (·.name))) :
    s.identifyConstants = { s with
      symbols := s.symbols.mapVariables fun v =>
        markConstant s.tree (v.note (s.tree.noted s.tree.preorder v.name)) } := by
  rw [identifyConstants, foldl_recordWrites _ h, SymbolTable.mapVariables_mapVariables]

theorem markConstant_cases (t : Tree) (v : Symbol) :
    markConstant t v = v ∨ v.kind = .var ∧ markConstant t v = { v with kind := .constant } := by
  unfold markConstant
  split
  · split
    · next hconstant =>
      simp only [Bool.and_eq_true, decide_eq_true_eq] at hconstant
      exact .inr ⟨hconstant.1.1, rfl⟩
    · exact .inl rfl
  · exact .inl rfl

theorem identifyConstants_rolls (h : s.symbols.Rolls arguments names) :
    s.identifyConstants.symbols.Rolls arguments names := by
  rw [identifyConstants_eq h.places]
  refine h.mapVariables (fun v => ?_) (fun v => ?_) fun v => ?_ <;>
    rcases markConstant_cases s.tree (v.note (s.tree.noted s.tree.preorder v.name)) with
      heq | ⟨hvar, heq⟩ <;> rw [heq]
  · rfl
  · rfl
  · rfl
  · rfl
  · exact .inl rfl
  · exact .inr ⟨hvar, rfl⟩

/-- The pass changes the symbols and nothing else. -/
theorem read_identifyConstants (read : Session → β)
    (hsymbols : ∀ s t, read { s with symbols := t } = read s) (s : Session) :
    read s.identifyConstants = read s := by
  refine (hsymbols _ _).trans (read_foldl read (fun s id => ?_) s.tree.preorder s)
  unfold recordWrites
  dsimp only
  split
  · exact hsymbols s _
  · rfl

theorem labels_identifyConstants : ∀ s : Session, s.identifyConstants.labels = s.labels :=
  read_identifyConstants Session.labels fun _ _ => rfl

theorem log_identifyConstants : ∀ s : Session, s.identifyConstants.log = s.log :=
  read_identifyConstants Session.log fun _ _ => rfl

/-- The names of the script are resolved: variables are declared, and labels that are jumped to are
defined. -/
structure Resolves (t : Tree) (s : Session) : Prop where
  vars : ∀ id ∈ t.preorder, NamesCount (t.node id).statement → ∀ v ∈ (t.node id).statement.vars,
    s.symbols.Knows v.value
  targets : ∀ id ∈ t.preorder, NamesCount (t.node id).statement →
    (t.node id).statement.form = FormId.gotoLabel ∨ (t.node id).statement.form = FormId.gosub →
    ∀ label, (t.node id).statement.label? = some label → ∃ d, s.labels[label]? = some d
  labels : ∀ (label : String) (d : NodeId), s.labels[label]? = some d →
    d ∈ t.preorder ∧ (t.node d).statement.form = FormId.defineLabel ∧
    (t.node d).statement.commented = false ∧
      (t.node d).statement.label? = some label

theorem Resolves.congr {t : Tree} {s' : Session} (h : Resolves t s)
    (hsymbols : s'.symbols = s.symbols) (hlabels : s'.labels = s.labels) : Resolves t s' :=
  ⟨hsymbols ▸ h.vars, hlabels ▸ h.targets, hlabels ▸ h.labels⟩

/-- All names of a script are resolved, unless something is reported. -/
theorem identifyConstants_resolves {e : Setting} (hs : s.Nameless)
    (hlog : (s.identifyNames e).log = #[]) :
    Resolves s.tree (s.identifyNames e).identifyConstants := by
  have hreported := identifyNames_log e s
  have hlabelled := identifyNames_labelled hs hlog
  refine ⟨fun id hid hcount v hv => ?_, fun id hid hcount hform label hlabel => ?_,
    fun label d hd => ?_⟩
  · have hknows := identifyNames_knows (e := e) hs (withinLimit_of_log hlog) hid hcount hv
    rw [identifyConstants_eq (identifyNames_records e hs).places, SymbolTable.Knows,
      SymbolTable.findVariable?_mapVariables, Option.isSome_map]
    exact hknows
  · -- A jump to a label without a definition would be reported.
    rw [labels_identifyConstants]
    rw [hlog] at hreported
    have hdefined :=
      List.filter_eq_nil_iff.mp
        (List.map_eq_nil_iff.mp (List.append_eq_nil_iff.mp hreported.symm).2)
    have hjump : (id, label) ∈ s.tree.jumps := by
      refine List.mem_filterMap.mpr ⟨id, hid, ?_⟩
      rw [Node.jumpLabel?_eq_some.mpr ⟨hform, hcount.1, hlabel⟩]
      rfl
    have hknown : (s.identifyNames e).labels.contains label = true := by
      simpa using hdefined _ hjump
    rw [Std.TreeMap.contains_eq_isSome_getElem?] at hknown
    exact Option.isSome_iff_exists.mp hknown
  · rw [labels_identifyConstants, hlabelled.nodes] at hd
    exact ⟨hd.1, Statement.definition?_eq_some.mp hd.2⟩

end Session

end GameScript
