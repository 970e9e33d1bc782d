import GameScript.Proofs.Shorthand.Freshness
import GameScript.Proofs.Symbols.Labels

/-!
# Destinations at the limits

The largest word marks a destination that could not be determined. In a script that is compiled
without problems all destinations are determined, and a jump leads behind the last command at most.
So the mark can only be there because a script is as long as can be and a jump leads to its end, or
because there are as many variables as can be and the last one is written: `destinations_resolved`.
It is there in such scripts: `lastVariable_marked`.
-/

namespace GameScript

namespace Session

variable {e : Setting} {lines : List String} {g : Forest} {s p q : Session} {id : NodeId}

/-! ## Arguments take numbers and nothing else -/

/-- There are numbers for variables if there are as many as names. -/
theorem declareVariables_ok {t : SymbolTable} {ds : List Declaration} (h : t.Records ds)
    {tokens : List Token}
    (henough : (ds.filterMap Declaration.varName? ++ tokens.map (·.value)).eraseDups.length ≤
      SymbolTable.variableLimit) : (declareVariables t tokens).2 = true := by
  induction tokens using List.reverseRecOn with
  | nil => rfl
  | append_singleton tokens token ih =>
    have hrecords := (h.declareAll ((tokens.map (·.value)).map (.var · .var))).1
    have hnames : (ds ++ (tokens.map (·.value)).map (Declaration.var · .var)).filterMap
        Declaration.varName? =
        ds.filterMap Declaration.varName? ++ tokens.map (·.value) := by
      simp [List.filterMap_append, List.filterMap_map, Function.comp_def, Declaration.varName?]
    rw [← declareVariables_fst] at hrecords
    rw [List.map_append, ← List.append_assoc] at henough
    have hbefore := Nat.le_trans (length_eraseDups_le _ _) henough
    rw [declareVariables_concat, ih hbefore, Bool.true_and, Option.isSome_iff_ne_none]
    intro hnone
    obtain ⟨hfull, hfind⟩ := hrecords.declareVariable_eq_none_iff.mp hnone
    have hnew := hrecords.notMem_of_findVariable? hfind
    rw [hrecords.size_eq, Declaration.numbered, hnames, List.take_of_length_le hbefore] at hfull
    rw [Declaration.numbered, hnames, List.take_of_length_le hbefore, List.mem_eraseDups] at hnew
    rw [List.map_singleton, eraseDups_concat, if_neg hnew, List.length_append, hfull] at henough
    exact Nat.not_succ_le_self _ henough

/-- Which variables were declared before does not matter, if there are numbers for all of them. -/
theorem nameReports_eq {t : Tree} {table table' : SymbolTable} {ds ds' : List Declaration}
    (h : table.Records ds) (h' : table'.Records ds')
    (hlabels : ∀ label, .label label ∈ ds ↔ .label label ∈ ds') (ids : List NodeId)
    (henough : (ds.filterMap Declaration.varName? ++ ids.flatMap fun id =>
      (t.node id).statement.mentions).eraseDups.length ≤
      SymbolTable.variableLimit)
    (henough' : (ds'.filterMap Declaration.varName? ++
      ids.flatMap fun id => (t.node id).statement.mentions).eraseDups.length ≤
        SymbolTable.variableLimit) :
    t.nameReports table ids = t.nameReports table' ids := by
  induction ids generalizing table table' ds ds' with
  | nil => rfl
  | cons id rest ih =>
    have hlabel : table.hasLabel = table'.hasLabel := by
      funext label
      rw [Bool.eq_iff_iff, h.hasLabel_iff, h'.hasLabel_iff, hlabels]
    have hlater : ∀ ds : List Declaration, (ds ++ (t.node id).statement.declarations).filterMap
        Declaration.varName? =
        ds.filterMap Declaration.varName? ++ (t.node id).statement.mentions := by
      intro ds
      rw [List.filterMap_append, Statement.filterMap_varName?_declarations]
    rw [List.flatMap_cons, ← List.append_assoc] at henough henough'
    have hproblems : (t.node id).nameProblems table = (t.node id).nameProblems table' := by
      unfold Node.nameProblems Node.variableProblems
      split
      · rfl
      · next hskip =>
        have hcount : NamesCount (t.node id).statement := by simpa [NamesCount] using hskip
        rw [Statement.mentions_of_counts hcount] at henough henough'
        rw [declareVariables_ok h (Nat.le_trans (length_eraseDups_le _ _) henough),
          declareVariables_ok h' (Nat.le_trans (length_eraseDups_le _ _) henough'), hlabel]
    rw [Tree.nameReports, Tree.nameReports, hproblems]
    refine congrArg _ (ih (h.declareAll _).1 (h'.declareAll _).1 (fun label => ?_) ?_ ?_)
    · rw [List.mem_append, List.mem_append, hlabels]
    · rwa [hlater]
    · rwa [hlater]

/-- Which problems the checks report does not depend on the arguments, if there are numbers for all
variables. -/
theorem examine_log_of_arguments (g : Grammar) (v : Version) (objects : Option ObjectLibrary)
    {arguments : List String} (hs : s.Nameless)
    (henough : (arguments.map argumentName ++ s.tree.preorder.flatMap fun id =>
      (s.node id).statement.mentions).eraseDups.length ≤ SymbolTable.variableLimit) :
    (s.examine ⟨g, v, arguments, objects⟩).log = (s.examine ⟨g, v, [], objects⟩).log := by
  have hknown : (s.identifyNames ⟨g, v, arguments, objects⟩).labels.contains =
      (s.identifyNames ⟨g, v, [], objects⟩).labels.contains := by
    funext label
    rw [Std.TreeMap.contains_eq_isSome_getElem?, Std.TreeMap.contains_eq_isSome_getElem?,
      (identifyNames_spec _ hs).2, (identifyNames_spec _ hs).2]
  have hreports : s.tree.nameReports (declareArguments arguments s.symbols) s.tree.preorder =
      s.tree.nameReports (declareArguments [] s.symbols) s.tree.preorder := by
    rw [hs.symbols, declareArguments_eq]
    refine nameReports_eq (SymbolTable.Records.empty.declareAll _).1 .empty (by simp) _ ?_ ?_
    · simpa [List.filterMap_map, Function.comp_def, Declaration.varName?, node] using henough
    · refine Nat.le_trans ((nodup_eraseDups _).subperm fun name hname => ?_).length_le henough
      exact List.mem_eraseDups.mpr (List.mem_append_right _ (List.mem_eraseDups.mp hname))
  rw [← Array.toList_inj, log_examine, log_examine, identifyNames_log, identifyNames_log, hknown]
  exact congrArg (fun l => s.log.toList ++ l ++ _ ++ _) hreports

/-! ## Where commands lead -/

/-- A command with a destination is executed, and it jumps. -/
theorem Settles.jumps_of_target? {n : Node} {dest : Option Nat} (h : Settles n dest) {c : Command}
    (hvalue : c.returnValue = n.returnValue) (hjump : c.jump = n.jump) {m : Nat}
    (hm : c.target? = some m) :
    n.isLive = true ∧ (n.statement.conditional.isJump = true ∨
      jumpsAlways n.statement.form = true) := by
  cases h with
  | idle _ hv hj => simp [Command.target?, Command.destination?, hvalue, hjump, hv, hj] at hm
  | test _ htest _ _ _ _ hlive => exact ⟨hlive, .inl htest⟩
  | always _ hform _ _ _ _ hlive => exact ⟨hlive, .inr hform⟩
  | next _ _ hv hj =>
    -- What goes on with the next command has no return value that jumps.
    rw [Command.target?, Command.destination?, hjump, hj, hvalue] at hm
    cases hreturn : n.returnValue with
    | none => simp [hreturn] at hm
    | some v =>
      obtain ⟨test, d, rfl, htest⟩ := hv v hreturn
      simp [hreturn, ReturnValue.of, htest] at hm

/-- A command with a return value is executed. If the return value jumps, it tells where the command
leads. -/
theorem Settles.of_returnValue {n : Node} {dest : Option Nat} (h : Settles n dest) {c : Command}
    (hvalue : c.returnValue = n.returnValue) (hjump : c.jump = n.jump) {v : ReturnValue}
    (hv : n.returnValue = some v) :
    n.isLive = true ∧ (v.conditional.isJump = true → c.target? = some v.destination.toNat) := by
  have htarget : n.jump = none → v.conditional.isJump = true →
      c.target? = some v.destination.toNat := by
    intro hnone htest
    simp [Command.target?, Command.destination?, hjump, hnone, hvalue, hv, htest]
  cases h with
  | idle _ hnone => cases hv.symm.trans hnone
  | test _ _ _ _ hj _ hlive => exact ⟨hlive, htarget hj⟩
  | always _ _ _ hnone => cases hv.symm.trans hnone
  | next _ _ _ hj hlive => exact ⟨hlive, htarget hj⟩

/-- A jump leads behind the last command at most. -/
theorem Finished.target?_le (h : Finished e lines g s p q) (hid : id ∈ g.ids) {m : Nat}
    (hm : (q.commandOf (.of q.tree) id).target? = some m) : m ≤ g.count p.tree.part := by
  obtain ⟨f, -, hexpanding⟩ := h.expanding
  have hmem : id ∈ p.tree.preorder := by
    rw [(hexpanding.spans.alike h.examined.alike).preorder_eq]
    exact hid
  obtain ⟨hlive, hjumps⟩ := (h.settled id hid).jumps_of_target? rfl rfl hm
  have hstatement : (q.node id).statement = (p.tree.node id).statement :=
    (h.frame.alike.statement_eq id).symm
  rw [hstatement] at hjumps
  rw [node, ← h.frame.alike.isLive_eq] at hlive
  rcases h.linkable.jumps_cases hmem hlive hjumps with ⟨hpart, -⟩ | ⟨hform, -⟩
  · exact h.emitted.linked.dest_le (by simp) (by simp) (fun _ _ _ => Nat.zero_le _) hid hpart hm
  · obtain ⟨_, a, d, b, -, hsplit, -, -, target, -, hjump, htarget⟩ :=
      h.label_defined hid hlive hform
    rw [Command.target?_of_jump (d := target) hjump, Option.some.injEq] at hm
    rw [← hm, htarget, Forest.count_eq, hsplit, List.countP_append]
    exact Nat.le_add_right _ _

theorem Finished.suits (h : Finished e lines g s (s.examine e) q)
    (hpasses : s.runPasses e = .ok q.emit) {v : ReturnValue}
    (hv : (q.node id).returnValue = some v) : v.Suits (s.node id).statement.conditional := by
  obtain ⟨f, -, hexpanding⟩ := h.expanding
  obtain ⟨u, q', hlink, hresolve, -, htree⟩ := runPasses_emit hpasses
  obtain ⟨-, -, hlinked, hvalues⟩ := link_names hlink
  have halike : s.tree.Alike u.tree := h.examined.alike.trans hlinked
  rw [node, htree] at hv
  rw [node, halike.statement_eq]
  exact resolve_values (hexpanding.spans.alike halike) hresolve
    (fun j => (hvalues j).trans (h.examined.returnValue j)) hv

/-- A variable whose number is the mark is the last one that there can be. -/
theorem Declares.length_of_assigns {numbered : List String} (h : Declares numbered s q)
    (hid : id ∈ s.tree.preorder) (hlive : (s.node id).isLive = true)
    (hassign : (s.node id).statement.conditional = .assign) {v : ReturnValue}
    (hv : (q.node id).returnValue = some v) (hmark : v.destination = unresolved) :
    (q.symbols.toList.filter fun s => s.kind ≠ .label).length = SymbolTable.variableLimit := by
  obtain ⟨_, _, _, symbol, -, -, -, -, hfind, hvalue⟩ := h.assigns id hid hlive hassign
  obtain rfl := Option.some.inj (hv.symm.trans hvalue)
  have hplace := (h.rolls.of_findVariable? hfind).1
  have hlt := (Array.getElem?_eq_some_iff.mp hplace).1
  have hnumber : symbol.id = unresolved := hmark
  rw [hnumber] at hlt
  rw [h.rolls.filter_toList, Array.length_toList]
  exact Nat.le_antisymm h.rolls.limit hlt

end Session

/-! ## As many variables as there can be -/

def numberedArguments (count : Nat) : List String :=
  (List.range count).map fun n => "a" ++ toString n

theorem nodup_numberedArguments (count : Nat) :
    ((numberedArguments count).map Session.argumentName ++ ["z"]).Nodup := by
  have hname : ∀ n : Nat, Session.argumentName ("a" ++ toString n) = "a" ++ toString n := by
    intro n
    have hlist : ("a" ++ toString n).toList = 'a' :: (toString n).toList := by simp
    rw [Session.argumentName, Text.dropLeft, hlist, List.dropWhile_cons_of_neg (by decide), ← hlist,
      String.ofList_toList]
  have hsame : (numberedArguments count).map Session.argumentName = numberedArguments count := by
    rw [numberedArguments, List.map_map]
    exact List.map_congr_left fun n _ => hname n
  rw [hsame, List.nodup_append]
  refine ⟨List.nodup_range.map (numbered_injective "a"), by simp, ?_⟩
  rintro name hmem other hother rfl
  obtain ⟨n, -, hn⟩ := List.mem_map.mp hmem
  rw [List.mem_singleton.mp hother] at hn
  have hlists := congrArg String.toList hn
  simp at hlists

set_option maxRecDepth 20000 in
theorem singleAssignment_evaluates :
    ((Session.start (buildTree ⟨.builtin, .albionPrelude, [], none⟩ ["$z = 1"])).expand
      ⟨.builtin, .albionPrelude, [], none⟩).toOption.any (fun s =>
        (s.examine ⟨.builtin, .albionPrelude, [], none⟩).log.isEmpty &&
          s.tree.preorder.flatMap (fun id => (s.node id).statement.mentions) == ["z"] &&
          s.tree.preorder.any (fun id => (s.node id).isLive &&
            (s.node id).statement.conditional == .assign &&
            (s.node id).statement.returnSlot?.map (fun p => p.tokens.map (·.value)) ==
              some ["z", "="])) = true := by
  rw [Grammar.builtin_eq]
  decide +kernel

theorem singleAssignment_expands :
    ∃ s, (Session.start (buildTree ⟨.builtin, .albionPrelude, [], none⟩ ["$z = 1"])).expand
      ⟨.builtin, .albionPrelude, [], none⟩ = .ok s ∧
      (s.examine ⟨.builtin, .albionPrelude, [], none⟩).log = #[] ∧
    s.tree.preorder.flatMap (fun id => (s.node id).statement.mentions) = ["z"] ∧
    ∃ id ∈ s.tree.preorder, (s.node id).isLive = true ∧
      (s.node id).statement.conditional = .assign ∧
      (s.node id).statement.returnSlot?.map (fun p => p.tokens.map (·.value)) =
        some ["z", "="] := by
  obtain ⟨s, hexpand, htests⟩ := exists_ok_of_any singleAssignment_evaluates
  simp only [Bool.and_eq_true, beq_iff_eq, List.any_eq_true, Array.isEmpty_iff, and_assoc] at htests
  exact ⟨s, hexpand, htests⟩

/-- A variable behind numbered arguments has the number of these. -/
theorem singleAssignment_numbered {count : Nat} (hcount : count < SymbolTable.variableLimit) :
    ∃ o, compile ⟨.builtin, .albionPrelude, numberedArguments count, none⟩ ["$z = 1"] = .ok o ∧
      o.isSuccessful = true ∧
      ∃ c ∈ o.commands.toList, c.returnValue = some (.assignment (UInt16.ofNat count)) := by
  obtain ⟨f, s, g, q, -, hexpand, hexpanding, hspec, hframe, hfinished⟩ :=
    compile_spec (e := ⟨.builtin, .albionPrelude, numberedArguments count, none⟩) builtin_lawful
      ["$z = 1"]
  have hpasses := runPasses_of_compiled hexpand hspec
  -- The expansion does not look at the arguments.
  obtain ⟨s', hexpand', hquiet, hmentions, id, hid, hlive, hassign, hslot⟩ :=
    singleAssignment_expands
  obtain rfl : s' = s := Except.ok.inj (hexpand'.symm.trans hexpand)
  have hnodup := nodup_numberedArguments count
  have hlength : ((numberedArguments count).map Session.argumentName).length = count := by
    simp [numberedArguments]
  -- There are numbers for all variables, so that the arguments cause no problem.
  have henough : ((numberedArguments count).map Session.argumentName ++
      s'.tree.preorder.flatMap fun id => (s'.node id).statement.mentions).eraseDups.length ≤
        SymbolTable.variableLimit := by
    rw [hmentions, eraseDups_of_nodup hnodup, List.length_append, hlength]
    exact hcount
  have hlog := (Session.examine_log_of_arguments _ _ _ hexpanding.nameless henough).trans hquiet
  have h := hfinished (hframe.log.trans hlog)
  have hdeclares : Session.Declares ((numberedArguments count).map Session.argumentName) s'
      q.emit :=
    hexpanding.declares builtin_lawful (Session.withinLimit_of_log hlog) hpasses
  obtain ⟨slot, token, sign, symbol, hslot', htokens, -, -, hfind, hvalue⟩ :=
    hdeclares.assigns id hid hlive hassign
  refine ⟨_, compile_of_compiled hspec, Array.isEmpty_iff.mpr (hframe.log.trans hlog),
    q.commandOf (.of q.tree) id, ?_, ?_⟩
  · rw [h.emitted.commands]
    exact List.mem_map_of_mem (hexpanding.spans.preorder_eq ▸ hid)
  · have hz : token.value = "z" := by
      rw [hslot', Option.map_some, htokens, Option.some.injEq] at hslot
      exact (List.cons.inj hslot).1
    have hplace := hdeclares.rolls.getElem?_of_findVariable? hfind
    rw [List.take_of_length_le henough, hmentions, eraseDups_of_nodup hnodup, hz] at hplace
    have hlast : ((numberedArguments count).map Session.argumentName ++ ["z"])[count]? =
        some "z" := by
      simp [hlength]
    have hnumber : symbol.id.toNat = count :=
      (List.getElem?_inj (List.getElem?_eq_some_iff.mp hplace).1 hnodup).mp
        (hplace.trans hlast.symm)
    rw [← hnumber, UInt16.ofNat_toNat]
    exact hvalue

/-! ## The mark of unresolved destinations -/

/-- Without problems all jumps lead to a command or to the end of the script. The mark of unresolved
destinations tells the end of a script of 65535 commands, or the last one of 65536 variables. -/
theorem destinations_resolved (v : Version) (arguments : List String)
    (objects : Option ObjectLibrary) (lines : List String) (o : Output)
    (hcompile : compile ⟨.builtin, v, arguments, objects⟩ lines = .ok o)
    (hok : o.isSuccessful = true) :
    (∀ c ∈ o.commands.toList, ∀ d, c.destination? = some d → d.toNat ≤ o.standardCount) ∧
      (∀ c ∈ o.commands.toList, c.jump = some 0xFFFF → o.standardCount = 65535) ∧
      ∀ c ∈ o.commands.toList, ∀ value, c.returnValue = some value → value.destination = 0xFFFF →
        (value.conditional.isJump = true ∧ o.standardCount = 65535) ∨
          (value.conditional = .assign ∧ o.variables.length = 65536) := by
  obtain ⟨g, s, q, -, rfl, h, hpasses, hlog⟩ := finished_of_compile builtin_lawful hcompile hok
  obtain ⟨f, -, hexpanding⟩ := h.expanding
  set p := s.examine ⟨.builtin, v, arguments, objects⟩ with hp
  rw [h.emitted.commands]
  simp only [List.forall_mem_map]
  have hle : ∀ id ∈ g.ids, ∀ m, (q.commandOf (.of q.tree) id).target? = some m →
      m ≤ (Output.ofSession q.emit).standardCount := fun id hid m hm => by
    rw [h.emitted.count]
    exact h.target?_le hid hm
  have hlimit : (Output.ofSession q.emit).standardCount ≤ 65535 := by
    change q.standardCount ≤ _
    rw [h.frame.standardCount]
    exact h.examined.numbered.limit
  refine ⟨fun id hid d hd => ?_, fun id hid hjump => ?_, fun id hid value hvalue hdestination => ?_⟩
  · exact hle id hid _ (by rw [Command.target?, hd]; rfl)
  · exact Nat.le_antisymm hlimit (hle id hid 65535 (Command.target?_of_jump hjump))
  · have hreturn : (q.node id).returnValue = some value := hvalue
    obtain ⟨hlive, hjumps⟩ :=
      (h.settled id hid).of_returnValue (c := q.commandOf (.of q.tree) id) rfl rfl hreturn
    obtain ⟨d, rfl, hnowhere⟩ := h.suits hpasses hreturn
    have hmark : d = 0xFFFF := hdestination
    have hconditional : (ReturnValue.of (s.node id).statement.conditional d).conditional =
      (s.node id).statement.conditional := rfl
    rw [hconditional] at hjumps ⊢
    by_cases hassign : (s.node id).statement.conditional = .assign
    · have hdeclares := hexpanding.declares builtin_lawful (Session.withinLimit_of_log hlog) hpasses
      refine .inr ⟨hassign, hdeclares.length_of_assigns ?_ ?_ hassign hreturn hdestination⟩
      · rw [hexpanding.spans.preorder_eq]
        exact hid
      · exact (hdeclares.alike.isLive_eq id).trans hlive
    · cases htest : (s.node id).statement.conditional.isJump with
      | true =>
        have htarget : (q.commandOf (.of q.tree) id).target? = some 65535 :=
          (hjumps htest).trans (congrArg (fun d : UInt16 => some d.toNat) hmark)
        exact .inl ⟨rfl, Nat.le_antisymm hlimit (hle id hid 65535 htarget)⟩
      | false =>
        rw [hnowhere hassign htest] at hmark
        cases hmark

/-- The mark at the last variable tells that there are no more. -/
theorem lastVariable_counts :
    ∃ o, compile ⟨.builtin, .albionPrelude, numberedArguments 65535, none⟩ ["$z = 1"] = .ok o ∧
      o.isSuccessful = true ∧
      (∃ c ∈ o.commands.toList, c.returnValue = some (.assignment 0xFFFF)) ∧
      o.variables.length = 65536 := by
  obtain ⟨o, hcompile, hok, c, hc, hvalue⟩ :=
    singleAssignment_numbered (show 65535 < SymbolTable.variableLimit by decide)
  obtain ⟨-, -, hmarked⟩ :=
    destinations_resolved .albionPrelude (numberedArguments 65535) none ["$z = 1"] o hcompile hok
  refine ⟨o, hcompile, hok, ⟨c, hc, hvalue⟩, ?_⟩
  rcases hmarked c hc _ hvalue rfl with ⟨htest, -⟩ | ⟨-, hlength⟩
  · cases htest
  · exact hlength

/-- The last one of as many variables as there can be is told by the mark of unresolved
destinations. -/
theorem lastVariable_marked :
    ∃ o, compile ⟨.builtin, .albionPrelude, numberedArguments 65535, none⟩ ["$z = 1"] = .ok o ∧
      o.isSuccessful = true ∧
      ∃ c ∈ o.commands.toList, c.returnValue = some (.assignment 0xFFFF) :=
  singleAssignment_numbered (by decide)

end GameScript
