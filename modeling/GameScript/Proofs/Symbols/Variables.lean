import Mathlib.Tactic.Set
import GameScript.Proofs.Compile.Acceptance
import GameScript.Proofs.Linkage.Resolution
import GameScript.Proofs.Statement.Conditionals
import GameScript.Proofs.Symbols.Table

/-!
# Variables are numbered as they appear

The variables of a compiled script are its arguments and then the names in its commands, each once
and in the order in which they first appear, and the number of a variable is its place among them.
An executed assignment tells the engine the number of the variable it writes to:
`variables_numbered_by_appearance`.
-/

namespace GameScript

namespace Session

variable {e : Setting} {s : Session}

theorem examine_rolls (hs : s.Nameless) :
    (s.examine e).symbols.Rolls (e.arguments.map argumentName)
      (s.tree.preorder.flatMap fun id => (s.node id).statement.mentions) := by
  rw [(examine_names e s).1]
  exact identifyConstants_rolls (identifyNames_rolls e hs)

theorem examine_knows (hs : s.Nameless) (hlimit : (s.examine e).WithinLimit)
    {id : NodeId} (hid : id ∈ s.tree.preorder) {name : String}
    (hname : name ∈ (s.node id).statement.mentions) :
    (s.examine e).symbols.Knows name := by
  obtain ⟨hcount, v, hv, rfl⟩ := Statement.mem_mentions.mp hname
  have hknows := identifyNames_knows hs ((identifyNames_grows e s).withinLimit hlimit) hid hcount hv
  rw [(examine_names e s).1, identifyConstants_eq (identifyNames_records e hs).places,
    SymbolTable.Knows, SymbolTable.findVariable?_mapVariables, Option.isSome_map]
  exact hknows

/-- No name goes without a number if no lack of numbers is reported and there are not too many
arguments. -/
theorem take_eraseDups_mentions (hs : s.Nameless)
    (hlimit : (s.examine e).WithinLimit)
    (harguments : (e.arguments.map argumentName).eraseDups.length ≤ SymbolTable.variableLimit) :
    (e.arguments.map argumentName ++ s.tree.preorder.flatMap fun id =>
      (s.node id).statement.mentions).eraseDups.take
      SymbolTable.variableLimit =
        (e.arguments.map argumentName ++ s.tree.preorder.flatMap fun id =>
          (s.node id).statement.mentions).eraseDups := by
  have hrolls := examine_rolls (e := e) hs
  refine List.take_of_length_le
    (Nat.le_trans (List.Subperm.length_le (List.Nodup.subperm ?_ fun name hname => ?_))
    (List.length_take_le SymbolTable.variableLimit (e.arguments.map argumentName ++
      s.tree.preorder.flatMap fun id => (s.node id).statement.mentions).eraseDups))
  · exact nodup_eraseDups _
  · rcases List.mem_append.mp (List.mem_eraseDups.mp hname) with hargument | hmention
    · rw [List.eraseDups_append, List.take_append, List.take_of_length_le harguments]
      exact List.mem_append_left _ (List.mem_eraseDups.mpr hargument)
    · obtain ⟨id, hid, hmention⟩ := List.mem_flatMap.mp hmention
      obtain ⟨symbol, hfind⟩ := Option.isSome_iff_exists.mp (examine_knows hs hlimit hid hmention)
      exact List.mem_of_getElem? (hrolls.getElem?_of_findVariable? hfind)

end Session

/-! ## Assignments -/

/-- An assignment was written as a variable, an equals sign and a command. -/
theorem Statement.read_assigns {g : Grammar} (hg : g.Lawful) (v : Version) (number : Nat)
    (line : String) (hassign : (read g v number line).statement.conditional = .assign) :
    (read g v number line).statement.isRecognised = true ∧
      (read g v number line).statement.form ≠ FormId.defineLabel ∧
      ∃ slot token sign, (read g v number line).statement.returnSlot? = some slot ∧
        slot.tokens = [token, sign] ∧
        token.kind = .var ∧ sign.is .binaryOp "=" = true ∧
        (read g v number line).statement.assigned? = some token ∧
        token ∈ (read g v number line).statement.vars := by
  have hobeys := (read_obeysReturnSlot hg v number line).1
  cases hslot : (read g v number line).statement.returnSlot? with
  | none => cases hassign.symm.trans (hobeys.discards hslot)
  | some slot =>
    obtain ⟨token, sign, htokens, htoken, hsign, hassigned⟩ := hobeys.assigns slot hslot hassign
    have hvar : token ∈ (read g v number line).statement.vars := by
      rw [vars, List.mem_filter, List.mem_flatMap]
      exact ⟨⟨slot, List.mem_of_find?_eq_some hslot, by simp [htokens]⟩, by simp [htoken]⟩
    have hform : (read g v number line).statement.isRecognised = true ∧
        (read g v number line).statement.form ≠ FormId.defineLabel := by
      rcases read_cases g v number line with h | h | h | ⟨commented, r, hr, h⟩ <;>
        rw [h] at hassign hslot ⊢
      · cases hassign
      · cases hassign
      · cases hassign
      · have hlawful := hg.lawful _ (Recognition.of_recognise? hr).1
        refine ⟨bne_iff_ne.mpr hlawful.recognised, fun hdefine => ?_⟩
        -- the definition of a label has no return slot
        have hmeaning : r.entry.form.id.hasMeaning = true := by
          rw [show r.entry.form.id = FormId.defineLabel from hdefine]
          rfl
        cases (Recognition.returnSlot?_of_hasMeaning number line hlawful hmeaning).symm.trans hslot
    exact ⟨hform.1, hform.2, slot, token, sign, rfl, htokens, htoken, hsign, hassigned, hvar⟩

namespace Session

/-- What the passes make of the variables of an expanded script `s`, and of its arguments. -/
structure Declares (arguments : List String) (s s' : Session) : Prop where
  alike : s.tree.Alike s'.tree
  rolls : s'.symbols.Rolls arguments
    (s.tree.preorder.flatMap fun id => (s.node id).statement.mentions)
  assigns : ∀ id ∈ s.tree.preorder, (s.node id).isLive = true →
    (s.node id).statement.conditional = .assign →
    ∃ slot token sign symbol, (s.node id).statement.returnSlot? = some slot ∧
      slot.tokens = [token, sign] ∧
      token.kind = .var ∧ sign.is .binaryOp "=" = true ∧
      s'.symbols.findVariable? token.value = some symbol ∧
      (s'.node id).returnValue = some (.assignment symbol.id)

theorem Expanding.declares {e : Setting} (hg : e.grammar.Lawful) {lines : List String}
    {f g : Forest} {s s' : Session} (h : Expanding e (buildTree e lines) f s g [])
    (hlimit : (s.examine e).WithinLimit) (hpasses : s.runPasses e = .ok s') :
    Declares (e.arguments.map argumentName) s s' := by
  obtain ⟨u, q, hlink, hresolve, rfl⟩ := runPasses_ok hpasses
  obtain ⟨hsymbols, -, hlinked, -⟩ := link_names hlink
  have hexamined := examine_rolls (e := e) h.nameless
  rw [← hsymbols] at hexamined
  -- The tree stays alike all the time.
  have halike : s.tree.Alike u.tree := (examine_grows e s).alike.trans hlinked
  have hspans := h.spans.alike halike
  have horder : u.tree.preorder = s.tree.preorder := by rw [hspans.preorder_eq, h.spans.preorder_eq]
  have hassigns := resolve_assigns hspans hresolve
  refine ⟨halike.trans hassigns.alike, resolve_rolls hresolve hexamined,
    fun id hid hlive hassign => ?_⟩
  rcases (h.prepared id).standard_cases ((Bool.and_eq_true _ _).mp hlive).1 with ⟨number, line,
    hread⟩ | ⟨line, hjump⟩
  · rw [hread] at hassign
    obtain ⟨hrecognised, hform, slot, token, sign, hslot, htokens, hvar, hsign, hassigned, hmem⟩ :=
      Statement.read_assigns hg e.version number line hassign
    rw [← hread] at hassign hrecognised hform hslot hassigned hmem
    have hmentioned : token.value ∈ (s.node id).statement.mentions := by
      have hcommented : (s.node id).statement.commented = false := by
        simp only [Node.isLive, Bool.and_eq_true, Bool.not_eq_true'] at hlive
        exact hlive.2
      rw [Statement.mentions, hcommented, hrecognised]
      exact List.mem_map_of_mem hmem
    obtain ⟨symbol, hfind⟩ : ∃ symbol, u.symbols.findVariable? token.value = some symbol := by
      rw [hsymbols]
      exact Option.isSome_iff_exists.mp (examine_knows h.nameless hlimit hid hmentioned)
    have hstatement : (u.node id).statement = (s.node id).statement := (halike.statement_eq id).symm
    refine ⟨slot, token, sign, symbol, hslot, htokens, hvar, hsign, ?_, ?_⟩
    · exact (SymbolTable.findVariable?_congr hassigns.vars.1 hassigns.vars.2 _).trans hfind
    · refine hassigns.value id (horder ▸ hid) ((halike.isLive_eq id).symm.trans hlive) ?_ ?_ ?_
        token symbol ?_ hfind
      · simp [Node.is, hstatement, hform]
      · rw [hstatement, hslot]
        rfl
      · rw [hstatement]
        exact hassign
      · rw [hstatement]
        exact hassigned
  · rw [hjump] at hassign
    cases hassign

end Session

/-! ## The variables of a compiled script -/

def Output.variables (o : Output) : List Symbol := o.symbols.filter fun s => s.kind ≠ .label

/-- The variables of a script are its arguments without dollar signs and then the names in its
commands, in the order of the commands and of their parameters, each once. A variable is numbered by
its place, and an executed assignment carries the number of the variable that stands before its
equals sign. -/
theorem variables_numbered_by_appearance (v : Version) (arguments : List String)
    (objects : Option ObjectLibrary) (lines : List String) (o : Output)
    (hcompile : compile ⟨.builtin, v, arguments, objects⟩ lines = .ok o)
    (hlimit : ∀ d ∈ o.log, d.isVariableLimit = false)
    (harguments : (arguments.map fun a =>
      String.ofList (a.toList.dropWhile (· == '$'))).eraseDups.length ≤ 65536) :
    ∃ s, Session.compiled ⟨.builtin, v, arguments, objects⟩ lines = .ok s ∧ o = .ofSession s ∧
      o.commands.toList = s.tree.preorder.map (s.commandOf (.of s.tree)) ∧
      o.variables.map (·.name) =
        ((arguments.map fun a => String.ofList (a.toList.dropWhile (· == '$'))) ++
        s.tree.preorder.flatMap fun id => (s.node id).statement.mentions).eraseDups ∧
      (∀ (place : Nat) (symbol : Symbol), o.variables[place]? = some symbol →
        symbol.id.toNat = place) ∧
      ∀ id ∈ s.tree.preorder, (s.node id).isLive = true →
        (s.node id).statement.conditional = .assign →
        ∃ slot token sign symbol, (s.node id).statement.returnSlot? = some slot ∧
          slot.tokens = [token, sign] ∧
          token.kind = .var ∧ sign.is .binaryOp "=" = true ∧ symbol ∈ o.variables ∧
          symbol.name = token.value ∧
          (s.commandOf (.of s.tree) id).returnValue = some (.assignment symbol.id) := by
  have hg : Grammar.builtin.Lawful := builtin_lawful
  obtain ⟨f, s, g, q, -, hexpand, h, hspec, hframe, -⟩ :=
    compile_spec (e := ⟨.builtin, v, arguments, objects⟩) hg lines
  obtain rfl := output_of_compiled hspec hcompile
  have hpasses := runPasses_of_compiled hexpand hspec
  have hwithin : (s.examine ⟨.builtin, v, arguments, objects⟩).WithinLimit := by
    rw [Session.WithinLimit, ← hframe.log]
    exact hlimit
  obtain ⟨halike, hrolls, hassigns⟩ := h.declares hg hwithin hpasses
  have hvariables : (Output.ofSession q.emit).variables = q.symbols.vars.toList :=
    hrolls.filter_toList
  have hstatement : ∀ id, (s.node id).statement = (q.emit.node id).statement := halike.statement_eq
  have horder : s.tree.preorder = q.emit.tree.preorder := by
    rw [(h.spans.alike halike).preorder_eq, h.spans.preorder_eq]
  refine ⟨q.emit, hspec, rfl, rfl, ?_, fun place symbol hsymbol => ?_,
    fun id hid hlive hassign => ?_⟩
  · have hnames := hrolls.map_name
    rw [Session.take_eraseDups_mentions h.nameless hwithin harguments] at hnames
    simp only [hstatement, horder] at hnames
    rw [hvariables]
    exact hnames
  · rw [hvariables, Array.getElem?_toList] at hsymbol
    exact hrolls.id_eq hsymbol
  · rw [← hstatement] at hassign ⊢
    obtain ⟨slot, token, sign, symbol, hslot, htokens, hvar, hsign, hfind, hvalue⟩ :=
      hassigns id (horder ▸ hid) ((halike.isLive_eq id).trans hlive) hassign
    obtain ⟨hplace, hname⟩ := hrolls.of_findVariable? hfind
    refine ⟨slot, token, sign, symbol, hslot, htokens, hvar, hsign, ?_, hname, hvalue⟩
    rw [hvariables]
    exact Array.mem_toList_iff.mpr (Array.mem_of_getElem? hplace)

/-! ## A script with arguments, labels and a loop -/

/-- A script that calls a subroutine and leaves a loop for a label. Its loop variable is an
argument. -/
def callingScript : List String :=
  ["gosub Sub:", "for $i = 0 to $limit", "skip if $i", "goto label Out:", "end", "Out:",
    "return null", "* $j = 1", "Sub:", "$limit = 3", "endsub"]

set_option maxRecDepth 20000 in
theorem callingScript_evaluates :
    (compile ⟨.builtin, .albionPrelude, ["$limit", "i", "$$limit"],
      none⟩ callingScript).toOption.any (fun o =>
      o.isSuccessful && o.symbols.map (fun s => (s.name, s.id, s.kind)) ==
        [("limit", 0, .argument), ("i", 1, .argument), ("__msci_iterator0", 2, .var),
          ("Out", 8, .label), ("Sub", 10, .label)]) = true := by
  rw [Grammar.builtin_eq]
  decide +kernel

theorem callingScript_compiles :
    ∃ o, compile ⟨.builtin, .albionPrelude, ["$limit", "i", "$$limit"],
      none⟩ callingScript = .ok o ∧
      o.isSuccessful = true ∧ o.symbols.map (fun s => (s.name, s.id, s.kind)) =
        [("limit", 0, .argument), ("i", 1, .argument), ("__msci_iterator0", 2, .var),
          ("Out", 8, .label), ("Sub", 10, .label)] := by
  obtain ⟨o, hcompile, htests⟩ := exists_ok_of_any callingScript_evaluates
  simp only [Bool.and_eq_true, beq_iff_eq] at htests
  exact ⟨o, hcompile, htests⟩

/-- An argument that is given twice has one number, and the loop variable has the number of the
argument. -/
theorem callingScript_variables :
    ∃ o, compile ⟨.builtin, .albionPrelude, ["$limit", "i", "$$limit"],
      none⟩ callingScript = .ok o ∧
      (∀ d ∈ o.log, d.isVariableLimit = false) ∧
      ∃ s, Session.compiled ⟨.builtin, .albionPrelude, ["$limit", "i", "$$limit"],
        none⟩ callingScript = .ok s ∧
        o = .ofSession s ∧ o.variables.map (·.name) =
          (["limit", "i", "limit"] ++ s.tree.preorder.flatMap fun id =>
            (s.node id).statement.mentions).eraseDups := by
  obtain ⟨o, hcompile, hok, -⟩ := callingScript_compiles
  have hlimit : ∀ d ∈ o.log, d.isVariableLimit = false := by
    rw [Array.isEmpty_iff.mp hok]
    simp
  obtain ⟨s, hs, ho, -, hnames, -⟩ :=
    variables_numbered_by_appearance .albionPrelude ["$limit", "i", "$$limit"] none
    callingScript o hcompile hlimit (by decide)
  exact ⟨o, hcompile, hlimit, s, hs, ho, hnames⟩

end GameScript
