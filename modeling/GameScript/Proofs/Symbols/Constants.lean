import GameScript.Proofs.Symbols.Variables

/-!
# Constants are written once

A variable of a compiled script is a constant if and only if it is not an argument and one executed
command writes it, once, by assigning a fixed value outside of all blocks: `constants_written_once`.
What a command writes is read off its parameters (`Parameter.writes`), and `Session.writers` lists
the commands that write a variable.

The writes are counted in the symbols of the variables, one node after the other. `Symbol.note` is
what some writes add to a symbol, so that a whole run notes the list of all writers
(`foldl_recordWrites_vars`).
-/

namespace GameScript

/-! ## What a command writes -/

/-- The parameter writes the variable with this name: it is a return slot that begins with it, or it
has to be a variable and is this one. -/
def Parameter.writes (p : Parameter) (name : String) : Bool :=
  if p.kind.isReturnSlot then p.tokens.head?.any fun t => t.kind == .var && t.value == name
  else p.kind == .var && p.soleVariable?.any fun t => t.value == name

def Node.writes (n : Node) (name : String) : Nat :=
  if n.isLive && n.statement.isRecognised then n.statement.parameters.countP fun p =>
    p.writes name else 0

def Session.writers (s : Session) (name : String) : List NodeId :=
  s.tree.preorder.flatMap fun id => List.replicate ((s.node id).writes name) id

/-- The command assigns, increments or decrements the variable, or stores into the array that it
holds. -/
def Statement.StoresInto (s : Statement) (name : String) : Prop :=
  (∃ slot token sign, slot ∈ s.parameters ∧ slot.kind.isReturnSlot = true ∧
    slot.tokens = [token, sign] ∧
    token.kind = .var ∧ token.value = name) ∨
  (s.form ∈ ([13, 14, 18] : List FormId) ∧
    ∃ kind token rest, s.parameters = ⟨kind, [token]⟩ :: rest ∧ token.kind = .var ∧
      token.value = name)

/-- A fixed value: a number, a text, `null` or the name of an object, or a minus sign before a
number that fits into a signed word of 64 bits. -/
inductive FixedValue : List Token → Prop
  | operand {t : Token} (h : t.kind ∈ [.number, .string, .null, .gameObject, .scriptObject]) :
      FixedValue [t]
  | negated {minus number : Token} (hminus : minus.is .unaryOp "-" = true) (hkind : number.kind =
      .number) (n : Nat)
      (hvalue : Text.numeral? number.text.toList = some n) (hn : n < 0x8000000000000000) :
        FixedValue [minus, number]

/-- The node assigns a fixed value to the variable outside of all blocks. -/
structure Node.Fixes (n : Node) (name : String) : Prop where
  outside : n.parent = some Tree.root
  form : n.statement.form = FormId.expression
  assigns : ∃ slot token sign value, n.statement.parameters =
    [⟨slot, [token, sign]⟩, ⟨.expression, value⟩] ∧
    slot.isReturnSlot = true ∧ token.kind = .var ∧ token.value = name ∧
    sign.is .binaryOp "=" = true ∧ FixedValue value

theorem fixedValue_iff {ts : List Token} : FixedValue ts ↔ Token.isLiteral ts = true := by
  constructor
  · rintro (@⟨t, h⟩ | @⟨minus, number, hminus, hkind, n, hvalue, hn⟩)
    · cases hkind : t.kind <;> simp_all [Token.isLiteral, TokenKind.isLiteral]
    · have hbound : Text.boundedNumeral? 0x8000000000000000 number.text.toList = some n := by
        rw [Text.boundedNumeral?, hvalue, Option.filter_some, if_pos (by simpa using hn)]
      simp [Token.isLiteral, Token.literalNumber?, hminus, hkind, Text.numeral64?, hbound]
  · intro h
    rcases ts with _ | ⟨t, _ | ⟨u, _ | ⟨w, rest⟩⟩⟩
    · cases h
    · refine .operand ?_
      replace h : t.kind.isLiteral = true := h
      cases hkind : t.kind <;> simp_all [TokenKind.isLiteral]
    · replace h : (if t.is .unaryOp "-" && u.kind = .number then
        (Text.numeral64? u.text).map Int.neg
        else none).isSome = true := h
      split at h
      · next hminus =>
        obtain ⟨hminus, hkind⟩ := (Bool.and_eq_true _ _).mp hminus
        rw [Option.isSome_map, Text.numeral64?, Option.isSome_map] at h
        obtain ⟨n, hn⟩ := Option.isSome_iff_exists.mp h
        obtain ⟨hvalue, hbound⟩ := Option.filter_eq_some_iff.mp hn
        exact .negated hminus (of_decide_eq_true hkind) n hvalue (of_decide_eq_true hbound)
      · cases h
    · cases h

theorem Node.exists_of_writes {n : Node} {name : String} (h : n.writes name ≠ 0) :
    n.isLive = true ∧ ∃ p ∈ n.statement.parameters, p.writes name = true := by
  unfold writes at h
  split at h
  · next hlive => exact ⟨((Bool.and_eq_true _ _).mp hlive).1,
      List.countP_pos_iff.mp (Nat.pos_of_ne_zero h)⟩
  · exact absurd rfl h

theorem Session.mem_writers {s : Session} {name : String} {id : NodeId} :
    id ∈ s.writers name ↔ id ∈ s.tree.preorder ∧ (s.node id).writes name ≠ 0 := by
  simp only [writers, List.mem_flatMap, List.mem_replicate]
  constructor
  · rintro ⟨j, hj, hwrites, rfl⟩
    exact ⟨hj, hwrites⟩
  · rintro ⟨hid, hwrites⟩
    exact ⟨id, hid, hwrites, rfl⟩

/-! ## Reading off the writes -/

namespace Statement

/-- The return slot of a command writes the variable that the result is assigned to. -/
theorem ObeysReturnSlot.writes_returnSlot {s : Statement} (h : s.ObeysReturnSlot) (name : String) :
    s.returnSlot?.toList.countP (fun p => p.writes name) =
      (s.assigned?.toList.map (·.value)).count name := by
  cases hslot : s.returnSlot? with
  | none => simp [assigned?, hslot]
  | some p =>
    have hreturn : p.kind.isReturnSlot = true :=
      List.find?_some (p := fun q : Parameter => q.kind.isReturnSlot) hslot
    by_cases hassign : s.conditional = .assign
    · obtain ⟨v, e, htokens, hv, -, hassigned⟩ := h.assigns p hslot hassign
      rw [hassigned]
      simp [Parameter.writes, hreturn, htokens, hv, List.count_singleton, List.countP_singleton]
    · have hhead : ∀ t, p.tokens.head? = some t → t.kind ≠ .var := by
        intro t ht hvar
        have hspelled := (h.spells p hslot s.conditional).mpr rfl
        generalize s.conditional = c at hspelled hassign
        generalize p.tokens = ts at hspelled ht
        cases hspelled with
        | keywords _ hkind _ => cases (hkind t (List.mem_of_head? ht)).symm.trans hvar
        | assign _ _ => exact hassign rfl
        | discard => cases ht
      have hnone : p.writes name = false := by
        rw [Parameter.writes, if_pos hreturn, Option.any_eq_false]
        intro t ht
        simp [hhead t ht]
      simp [assigned?, hassign, hnone]

/-- The names that a statement writes are read off its parameters. -/
theorem ObeysReturnSlot.count_written {s : Statement} (h : s.ObeysReturnSlot)
    (hone : s.parameters.countP (fun p => p.kind.isReturnSlot) ≤ 1) (name : String) :
    s.written.count name = s.parameters.countP fun p => p.writes name := by
  have hothers : (s.parameters.filter fun p => !p.kind.isReturnSlot).countP (fun p =>
      p.writes name) =
      (((s.parameters.filter fun p => p.kind == .var).filterMap (·.soleVariable?)).map
        (·.value)).count name := by
    rw [List.count_eq_countP, List.countP_map, List.countP_filterMap, List.countP_filter,
      List.countP_filter]
    refine List.countP_congr fun p _ => ?_
    cases hsole : p.soleVariable? <;> cases hkind : p.kind <;>
      simp [Parameter.writes, hkind, hsole, ParamKind.isReturnSlot]
  rw [List.countP_eq_countP_filter_add s.parameters _ fun p => p.kind.isReturnSlot, hothers,
    filter_eq_toList_find? hone, written, List.map_append, List.count_append]
  exact congrArg (· + _) (h.writes_returnSlot name).symm

end Statement

/-! ## Forms of the built-in table -/

/-- The kinds of the parameters of an expression, and of the first parameter of the commands that
change a variable. -/
theorem builtin_kinds : ∀ e ∈ Grammar.builtin.candidates,
    (e.form.id = FormId.expression → e.form.params.map ParamDecl.kind = [.retVarIf, .expression]) ∧
      (e.form.id ∈ ([13, 14, 18] : List FormId) →
        (e.form.params.map ParamDecl.kind).head? = some .var) := by
  have hentries : ∀ e ∈ Grammar.builtin.entries,
      (e.form.id = FormId.expression → e.form.params.map ParamDecl.kind = [.retVarIf,
        .expression]) ∧
        (e.form.id ∈ ([13, 14, 18] : List FormId) →
          (e.form.params.map ParamDecl.kind).head? = some .var) := by
    rw [Grammar.builtin_eq]
    decide +kernel
  intro e he
  exact hentries e (List.mem_of_mem_filter (Entry.mem_of_mem_sort he))

structure Statement.Tabled (s : Statement) : Prop where
  obeys : s.ObeysReturnSlot
  single : s.parameters.countP (fun p => p.kind.isReturnSlot) ≤ 1
  recognised : s.parameters ≠ [] → s.isRecognised = true
  expression : s.form = FormId.expression → s.parameters.map Parameter.kind = [.retVarIf,
    .expression]
  changing : s.form ∈ ([13, 14, 18] : List FormId) →
    (s.parameters.map Parameter.kind).head? = some .var

namespace Statement

theorem tabled_of_nil {s : Statement} (hparameters : s.parameters = [])
    (hconditional : s.conditional = .discard)
    (hform : s.form ∈ [FormId.nop, FormId.comment, FormId.hiddenJump, FormId.unrecognised]) :
    s.Tabled where
  obeys := obeysReturnSlot_of_nil hparameters hconditional
  single := by simp [hparameters]
  recognised h := absurd hparameters h
  expression h := by
    rw [h] at hform
    exact absurd hform (by decide)
  changing h := by
    have hapart : ∀ form ∈ ([13, 14, 18] : List FormId),
        form ∉ [FormId.nop, FormId.comment, FormId.hiddenJump, FormId.unrecognised] := by decide
    exact absurd hform (hapart _ h)

theorem read_tabled (v : Version) (number : Nat) (line : String) :
    (read .builtin v number line).statement.Tabled := by
  obtain ⟨hobeys, hsingle⟩ := read_obeysReturnSlot builtin_lawful v number line
  rcases read_cases .builtin v number line with h | h | h | ⟨commented, r, hr, h⟩ <;>
    rw [h] at hobeys hsingle ⊢
  · exact tabled_of_nil rfl rfl (by simp [nop])
  · exact tabled_of_nil rfl rfl (by simp [comment])
  · exact tabled_of_nil rfl rfl (by simp [unrecognised])
  · have hmem := (Recognition.of_recognise? hr).1
    obtain ⟨hexpression, hvariable⟩ := builtin_kinds _ hmem
    refine ⟨hobeys, hsingle, fun _ => bne_iff_ne.mpr (builtin_lawful.lawful _ hmem).recognised,
      fun hform => ?_, fun hform => ?_⟩
    · exact (Recognition.kinds hr).trans (hexpression hform)
    · exact (congrArg List.head? (Recognition.kinds hr)).trans (hvariable hform)

end Statement

theorem Node.Prepared.tabled {e : Setting} {n : Node} (h : n.Prepared e) (he : e.grammar = .builtin)
    (hlive : n.isLive = true) : n.statement.Tabled := by
  rcases h.standard_cases ((Bool.and_eq_true _ _).mp hlive).1 with ⟨number, line,
    hread⟩ | ⟨line, hjump⟩
  · rw [hread, he]
    exact Statement.read_tabled e.version number line
  · rw [hjump]
    exact Statement.tabled_of_nil rfl rfl (by simp [Statement.hiddenJump])

namespace Statement.Tabled

variable {n : Node} {name : String}

/-- An expression that writes a variable is a constant assignment if and only if it assigns a fixed
value to it. -/
theorem assignsConstant_iff (h : n.statement.Tabled) {p : Parameter}
    (hp : p ∈ n.statement.parameters) (hwrites : p.writes name = true) :
    Session.assignsConstant n = true ↔ n.Fixes name := by
  simp only [Session.assignsConstant, Bool.and_eq_true, beq_iff_eq]
  constructor
  · rintro ⟨⟨⟨hform, hassign⟩, hvalue⟩, houtside⟩
    have hkinds := h.expression hform
    obtain ⟨slot, rest, hparameters, hslot, hrest⟩ := List.map_eq_cons_iff.mp hkinds
    obtain ⟨value, hvalues, hexpression⟩ := List.map_eq_singleton_iff.mp hrest
    rw [hvalues] at hparameters
    have hreturn : n.statement.returnSlot? = some slot := by
      rw [Statement.returnSlot?, hparameters, List.find?_cons_of_pos]
      rw [hslot]
      rfl
    obtain ⟨token, sign, htokens, htoken, hsign, -⟩ := h.obeys.assigns slot hreturn hassign
    refine ⟨houtside, hform, slot.kind, token, sign, value.tokens, ?_,
      by rw [hslot]; rfl, htoken, ?_, hsign, ?_⟩
    · rw [hparameters, ← htokens, ← hexpression]
    · rw [hparameters] at hp
      rcases List.mem_cons.mp hp with rfl | hp
      · simpa [Parameter.writes, hslot, ParamKind.isReturnSlot, htokens, htoken] using hwrites
      · obtain rfl := List.mem_singleton.mp hp
        simp [Parameter.writes, hexpression, ParamKind.isReturnSlot] at hwrites
    · rw [hparameters, List.find?_cons_of_neg (by simp [hslot]),
        List.find?_cons_of_pos (by simp [hexpression])] at hvalue
      exact fixedValue_iff.mpr hvalue
  · rintro ⟨houtside, hform, slot, token, sign, value, hparameters, hslot, htoken, -, hsign, hvalue⟩
    have hreturn : n.statement.returnSlot? = some ⟨slot, [token, sign]⟩ := by
      rw [Statement.returnSlot?, hparameters, List.find?_cons_of_pos]
      exact hslot
    refine ⟨⟨⟨hform, ((h.obeys.spells _ hreturn .assign).mp (.assign htoken hsign)).symm⟩, ?_⟩,
      houtside⟩
    have hfind : n.statement.parameters.find? (fun p => p.kind == .expression) =
        some ⟨.expression, value⟩ := by
      rw [hparameters]
      cases slot <;> first | rfl | cases hslot
    rw [hfind]
    exact fixedValue_iff.mp hvalue

theorem writes_of_storesInto (h : n.statement.Tabled) (hlive : n.isLive = true)
    (hstores : n.statement.StoresInto name) :
    n.writes name ≠ 0 := by
  obtain ⟨p, hp, hwrites⟩ : ∃ p ∈ n.statement.parameters, p.writes name = true := by
    rcases hstores with ⟨slot, token, sign, hslot, hreturn, htokens, htoken, hname⟩ |
      ⟨hform, kind, token, rest, hparameters, htoken, hname⟩
    · exact ⟨slot, hslot, by simp [Parameter.writes, hreturn, htokens, htoken, hname]⟩
    · have hkind : some kind = some .var := by
        rw [← h.changing hform, hparameters]
        rfl
      refine ⟨_, hparameters ▸ List.mem_cons_self, ?_⟩
      simp [Parameter.writes, Parameter.soleVariable?, Option.some.inj hkind,
        ParamKind.isReturnSlot, htoken, hname]
  rw [Node.writes, hlive, h.recognised (List.ne_nil_of_mem hp), Bool.and_self, if_pos rfl]
  exact Nat.pos_iff_ne_zero.mp (List.countP_pos_iff.mpr ⟨p, hp, hwrites⟩)

end Statement.Tabled

/-! ## Counting the writes -/

/-- The names that an executed command writes are read off its parameters. -/
theorem Node.count_written {n : Node} (h : n.isLive = true → n.statement.Tabled) (name : String) :
    n.written.count name = n.writes name := by
  unfold written writes
  split
  · next hlive =>
    have htabled := h ((Bool.and_eq_true _ _).mp hlive).1
    exact htabled.obeys.count_written htabled.single name
  · rfl

namespace Session

variable {s : Session}

/-- A variable that was just declared becomes a constant if one write is noted, and it is the right
one. -/
theorem kind_markConstant {t : Tree} {v : Symbol} (hkind : v.kind ≠ .constant)
    (hwrites : v.writes = 0) (hfirst : v.firstWrite = none) (writers : List NodeId) :
    (markConstant t (v.note writers)).kind = .constant ↔
      v.kind = .var ∧ ∃ id, writers = [id] ∧ assignsConstant (t.node id) = true := by
  rcases writers with _ | ⟨id, _ | ⟨other, rest⟩⟩
  · simp [markConstant, Symbol.note, hfirst, hkind]
  · have hnote : markConstant t (v.note [id]) = if v.kind = .var ∧
        assignsConstant (t.node id) = true then
        { v.note [id] with kind := .constant } else v.note [id] := by
      simp [markConstant, Symbol.note, hfirst, hwrites]
    rw [hnote]
    split
    · next hconstant => simpa using hconstant
    · next hconstant => simpa [Symbol.note, hkind] using hconstant
  · simp [markConstant, Symbol.note, hfirst, hwrites, hkind]

/-! ## The constants of a script -/

/-- After the names are identified and the constants found, a variable is a constant if it is not an
argument and has one writer, which fixes its value. -/
theorem Expanding.constant_iff {e : Setting} (he : e.grammar = .builtin) {lines : List String}
    {f g : Forest} (h : Expanding e (buildTree e lines) f s g []) {symbol : Symbol}
    (hsymbol : symbol ∈ (s.examine e).symbols.vars.toList) :
    symbol.kind = .constant ↔ symbol.name ∉ e.arguments.map argumentName ∧
      ∃ id, s.writers symbol.name = [id] ∧ (s.node id).Fixes symbol.name := by
  have hrecords := identifyNames_records e h.nameless
  have halike : s.tree.Alike (s.identifyNames e).tree :=
    (Analyses.identifyNames (P := fun _ => True) (fun _ _ _ _ => trivial) e s).alike
  have htabled : ∀ id, (s.node id).isLive = true → (s.node id).statement.Tabled :=
    fun id hlive => (h.prepared id).tabled he hlive
  rw [(examine_names e s).1, identifyConstants_eq hrecords.places] at hsymbol
  generalize s.identifyNames e = u at hrecords halike hsymbol
  have hnode : ∀ id, (u.tree.node id).statement = (s.node id).statement :=
    fun id => (halike.statement_eq id).symm
  have hlive : ∀ id, (u.tree.node id).isLive = (s.node id).isLive :=
    fun id => (halike.isLive_eq id).symm
  rw [SymbolTable.mapVariables, Array.toList_map] at hsymbol
  obtain ⟨v, hv, rfl⟩ := List.mem_map.mp hsymbol
  obtain ⟨place, hplace⟩ := Array.getElem?_of_mem (Array.mem_toList_iff.mp hv)
  have hdeclared := hrecords.symbol_eq place v hplace
  have hkind := s.tree.kind_of_declared _ (hrecords.kind_eq v (Array.mem_toList_iff.mp hv))
  have hwriters : u.tree.noted u.tree.preorder v.name = s.writers v.name := by
    simp only [Tree.noted, writers, ← Node.count_written (htabled _), Node.written, hnode, hlive,
      halike.preorder_eq]
  have hname : (markConstant u.tree (v.note (u.tree.noted u.tree.preorder v.name))).name =
      v.name := by
    rcases markConstant_cases u.tree (v.note (u.tree.noted u.tree.preorder v.name)) with heq | ⟨-,
      heq⟩ <;> rw [heq] <;> rfl
  have hopen : v.kind ≠ .constant ∧ (v.kind = .var ↔ v.name ∉ e.arguments.map argumentName) := by
    rw [hkind]
    by_cases hargument : v.name ∈ e.arguments.map argumentName
    · rw [if_pos hargument]
      exact ⟨by simp, by simp [hargument]⟩
    · rw [if_neg hargument]
      exact ⟨by simp, by simp [hargument]⟩
  rw [hname, kind_markConstant hopen.1 (congrArg Symbol.writes hdeclared)
    (congrArg Symbol.firstWrite hdeclared),
    hopen.2, hwriters]
  refine and_congr_right fun _ => exists_congr fun id => and_congr_right fun hone => ?_
  have hconstant : assignsConstant (u.tree.node id) = assignsConstant (s.node id) := by
    simp only [assignsConstant, node, halike.statement_eq, (halike.node id).parent]
  obtain ⟨hid, p, hp, hwrites⟩ :=
    Node.exists_of_writes (mem_writers.mp (hone ▸ List.mem_singleton_self id)).2
  rw [hconstant]
  exact (htabled id hid).assignsConstant_iff hp hwrites

end Session

/-- A variable of a script is a constant if and only if it is not an argument and the executed
commands of the expanded script write it once, where a fixed value is assigned to it outside of all
blocks. So no other command that is executed assigns to a constant, increments or decrements it, or
stores into it. -/
theorem constants_written_once (v : Version) (arguments : List String)
    (objects : Option ObjectLibrary) (lines : List String) :
    ∃ p s, (Session.start (buildTree ⟨.builtin, v, arguments, objects⟩ lines)).expand ⟨.builtin, v,
      arguments, objects⟩ =
        .ok p ∧ compile ⟨.builtin, v, arguments, objects⟩ lines = .ok (.ofSession s) ∧
        p.tree.Alike s.tree ∧
      (Output.ofSession s).commands.toList = s.tree.preorder.map (s.commandOf (.of s.tree)) ∧
      ∀ symbol ∈ (Output.ofSession s).variables,
        (symbol.kind = .constant ↔
          symbol.name ∉ (arguments.map fun a => String.ofList (a.toList.dropWhile (· == '$'))) ∧
            ∃ id, p.writers symbol.name = [id] ∧ (p.node id).Fixes symbol.name) ∧
        (symbol.kind = .constant → ∀ id ∈ p.tree.preorder, (p.node id).isLive = true →
          (p.node id).statement.StoresInto symbol.name → p.writers symbol.name = [id]) := by
  obtain ⟨f, p, g, q, -, hexpand, h, hspec, -, -⟩ :=
    compile_spec (e := ⟨.builtin, v, arguments, objects⟩) builtin_lawful lines
  have hpasses := runPasses_of_compiled hexpand hspec
  obtain ⟨u, q', hlink, hresolve, hsymbols, htree⟩ := Session.runPasses_emit hpasses
  obtain ⟨hlinked, -, hlinks, -⟩ := Session.link_names hlink
  have halike : p.tree.Alike u.tree := (Session.examine_grows _ p).alike.trans hlinks
  have hassigns := Session.resolve_assigns (h.spans.alike halike) hresolve
  -- The passes after the constants are found leave the variables as they are.
  have hvariables : (Output.ofSession q.emit).variables =
      (p.examine ⟨.builtin, v, arguments, objects⟩).symbols.vars.toList := by
    have hexamined := Session.examine_rolls (e := ⟨.builtin, v, arguments, objects⟩) h.nameless
    rw [← hlinked] at hexamined
    have hrolls := Session.resolve_rolls hresolve hexamined
    rw [← hlinked, ← hassigns.vars.1, ← hsymbols]
    rw [← hsymbols] at hrolls
    exact hrolls.filter_toList
  refine ⟨p, q.emit, hexpand, compile_of_compiled hspec, ?_, rfl, fun symbol hsymbol => ?_⟩
  · have hemit : p.tree.Alike q'.tree := halike.trans hassigns.alike
    rw [← htree] at hemit
    exact hemit
  · rw [hvariables] at hsymbol
    have hconstant := h.constant_iff rfl hsymbol
    refine ⟨hconstant, fun hkind id hid hlive hstores => ?_⟩
    obtain ⟨-, writer, hwriters, -⟩ := hconstant.mp hkind
    have hwrites := ((h.prepared id).tabled rfl hlive).writes_of_storesInto hlive hstores
    have hmem := Session.mem_writers.mpr ⟨hid, hwrites⟩
    rw [hwriters] at hmem ⊢
    rw [List.mem_singleton.mp hmem]

end GameScript
