import GameScript.Proofs.Compile.Brackets
import GameScript.Proofs.Compile.Lines
import GameScript.Proofs.Shorthand.Reports

/-!
# Indices and references

The commands of a script are numbered and refer to each other on the list of commands alone, whether
the script is accepted or not (`indices_and_references`). The executed commands have the numbers 0,
1, 2 and so on as far as there are numbers, and the first one that none is left for is reported. An
auxiliary command refers to the numbered command that comes next, a generated one to what its
shorthand refers to.
-/

namespace GameScript

def Command.isLive (c : Command) : Bool := c.isStandard && !c.commented

/-! ## Where generated commands come from -/

namespace Session

def Owned (s : Session) : Prop := ∀ id, (s.node id).origin ≠ .expanded → (s.node id).header = none

theorem Owned.step {e : Setting} {t : Tree} {f g g' : Forest} {s s' : Session} {header : NodeId}
    {rest : List NodeId} (hs : s.Owned) (hx : Expanding e t f s g (header :: rest))
    (h : Unfolds e s g header s' g') : s'.Owned := by
  obtain ⟨hmem, hpending⟩ := hx.waiting header (by simp)
  have hlt : header < s.tree.size := hx.spans.lt_size hmem
  have hsource : (s.node header).origin = .source := origin_of_pending hpending
  have hreport : ∀ u : Session, u.Owned → ∀ p, (u.report header p).Owned := by
    intro u hu p id
    have hread : ((u.report header p).node id).origin = (u.node id).origin ∧
        ((u.report header p).node id).header = (u.node id).header :=
      ⟨Tree.read_modify u.tree header id Node.origin fun _ => rfl,
        Tree.read_modify u.tree header id Node.header fun _ => rfl⟩
    rw [hread.1, hread.2]
    exact hu id
  cases h with
  | reported p _ => exact hreport { s with names := _ } hs p
  | @replaced _ _ y _ _ parent _ =>
    intro id horigin
    show ((s.tree.replace parent header y).node id).header = none
    rcases Tree.replace_cases y parent hlt id with ⟨_, hnode⟩ | ⟨rfl, hnode⟩ | ⟨_, _, _, _, hnode⟩
    · have hsame := Node.eq_of_unlinked hnode Node.origin
      rw [Node.eq_of_unlinked hnode Node.header]
      exact hs id (hsame ▸ horigin)
    · exact (congrArg Node.header hnode).trans (hs id (by rw [hsource]; simp))
    · exact absurd (congrArg Node.origin hnode) horigin

/-- After the expansion of a script only generated nodes have a shorthand. -/
theorem expand_owned {e : Setting} (hg : e.grammar.Lawful) {lines : List String} {f : Forest}
    (hf : (buildTree e lines).Spans f) {s : Session}
    (h : (Session.start (buildTree e lines)).expand e = .ok s) :
    s.Owned := by
  have hstart : (Session.start (buildTree e lines)).seedNames.Owned :=
    fun id _ => nest_forall (P := fun n => n.header = none) rfl (fun _ => rfl) (fun _ _ => rfl) id
  obtain ⟨u, g, hrun, -, howned⟩ :=
    (start_expanding hg lines hf).run_keeps (P := fun s _ _ => s.Owned) hg
    (fun hx howned hunfolds => howned.step hx hunfolds) hstart
  obtain rfl := Except.ok.inj (hrun.symm.trans h)
  exact howned

/-! ## Numbered nodes -/

variable {s p q : Session} {a b : List NodeId} {id : NodeId}

/-- What links the jumps keeps the numbers. -/
theorem Indexed.frame {g : Forest} (h : p.Indexed) (hspans : p.tree.Spans g) (hframe : Frame p q) :
    q.Indexed := by
  have horder : q.tree.preorder = p.tree.preorder := by
    rw [(hspans.alike hframe.alike).preorder_eq, hspans.preorder_eq]
  refine ⟨?_, fun a id b hsplit => ?_⟩
  · rw [hframe.standardCount, horder, ← hframe.alike.liveCount_eq]
    exact h.count
  · rw [horder] at hsplit
    have hlive : (q.node id).isLive = (p.node id).isLive := (hframe.alike.isLive_eq id).symm
    rw [hframe.index, ← hframe.alike.liveCount_eq, hlive]
    exact h.index a id b hsplit

/-- A node has a number if it is executed and there is one left. -/
theorem Indexed.isSome_iff (h : s.Indexed) (hsplit : s.tree.preorder = a ++ id :: b) :
    (s.node id).index.isSome = true ↔ (s.node id).isLive = true ∧
    s.tree.liveCount a < indexLimit := by
  rw [h.index a id b hsplit]
  split <;> simp_all

theorem Indexed.numbers (h : s.Indexed) (hsplit : s.tree.preorder = a ++ b) :
    (a.filter fun id => (s.node id).index.isSome).map (fun id =>
      (s.node id).index.map UInt16.toNat) =
      (List.range (min (s.tree.liveCount a) indexLimit)).map some := by
  induction a using List.reverseRecOn generalizing b with
  | nil => rfl
  | append_singleton a id ih =>
    have hsplit' : s.tree.preorder = a ++ id :: b := by simpa using hsplit
    have hindex := h.index a id b hsplit'
    have hcount : s.tree.liveCount (a ++ [id]) = s.tree.liveCount a + if (s.node id).isLive then 1
        else 0 :=
      s.tree.liveCount_concat a id
    rw [List.filter_append, List.map_append, ih hsplit', hcount]
    by_cases hnumber : (s.node id).isLive = true ∧ s.tree.liveCount a < indexLimit
    · have hlt : s.tree.liveCount a < UInt16.size := Nat.lt_trans hnumber.2 (by decide)
      rw [if_pos hnumber] at hindex
      have hnext : min (s.tree.liveCount a + 1) indexLimit = s.tree.liveCount a + 1 := by omega
      rw [if_pos hnumber.1, hnext, List.range_succ, List.map_append,
        Nat.min_eq_left (Nat.le_of_lt hnumber.2)]
      simp [hindex, UInt16.toNat_ofNat_of_lt' hlt]
    · rw [if_neg hnumber] at hindex
      have hsame : min (s.tree.liveCount a + if (s.node id).isLive then 1 else 0) indexLimit =
          min (s.tree.liveCount a) indexLimit := by
        cases hlive : (s.node id).isLive with
        | false => rfl
        | true =>
          have hle : indexLimit ≤ s.tree.liveCount a :=
            Nat.le_of_not_lt fun hc => hnumber ⟨hlive, hc⟩
          simp only [if_true]
          omega
      rw [hsame]
      simp [hindex]

end Session

/-! ## References -/

/-- The first numbered node at or after a place, the end included. -/
theorem Order.upcoming_of (t : Tree) {k : Nat} (hk : k ≤ t.preorder.length) :
    (Order.of t).upcoming[k]? = some ((t.preorder.drop k).find? fun id =>
      (t.node id).index.isSome) := by
  have hlength : ∀ nodes : List NodeId, (upcomingOf t nodes).length = nodes.length + 1 := by
    intro nodes
    induction nodes with
    | nil => rfl
    | cons id nodes ih => exact congrArg (· + 1) ih
  have hlt : k < (upcomingOf t t.preorder).length := by
    rw [hlength]
    exact Nat.lt_succ_of_le hk
  have hjoin := getElem?_upcomingOf t t.preorder k
  rw [List.getElem?_eq_getElem hlt, Option.join_some] at hjoin
  rw [Order.of, List.getElem?_toArray, List.getElem?_eq_getElem hlt, hjoin]

namespace Session

variable {s : Session} {a b : List NodeId} {id : NodeId}

def firstNumber? (s : Session) (ids : List NodeId) : Option Nat :=
  ids.findSome? fun id => (s.node id).index.map UInt16.toNat

/-- A node refers to the first numbered node at or after it, or else to the end of the script. -/
theorem Indexed.referenceAt?_eq (h : s.Indexed) {f : Forest} (hspans : s.tree.Spans f)
    (hsplit : s.tree.preorder = a ++ id :: b) :
    (s.referenceAt? (.of s.tree) id).map UInt16.toNat =
      some ((s.firstNumber? (id :: b)).getD s.standardCount) := by
  have hnodup : s.tree.preorder.Nodup := by
    rw [hspans.preorder_eq]
    exact hspans.nodup_ids
  have hid : id < s.tree.size := by
    refine (hspans.covers id).mpr ?_
    rw [← hspans.preorder_eq, hsplit]
    simp
  have hupcoming : (Order.of s.tree).upcoming[(Order.of s.tree).place id]? =
      some ((id :: b).find? fun j => (s.node j).index.isSome) := by
    rw [Order.place_of hsplit hid hnodup, Order.upcoming_of s.tree (by simp [hsplit]), hsplit,
      List.drop_left]
    rfl
  rw [referenceAt?, hupcoming]
  cases hfind : (id :: b).find? fun j => (s.node j).index.isSome with
  | none =>
    have hcount : s.standardCount ≤ indexLimit := h.count ▸ Nat.min_le_right _ _
    have hnone : s.firstNumber? (id :: b) = none := by
      rw [firstNumber?, List.findSome?_eq_none_iff]
      intro j hj
      rw [List.find?_eq_none] at hfind
      simpa using hfind j hj
    have hlimit : indexLimit = 0xFFFF := by decide
    simp only [hnone, Option.getD_none, Option.map_some]
    rw [Nat.min_eq_left (hlimit ▸ hcount),
      UInt16.toNat_ofNat_of_lt' (Nat.lt_of_le_of_lt hcount (by decide))]
  | some next =>
    obtain ⟨hsome, l, l', hl, hbefore⟩ := List.find?_eq_some_iff_append.mp hfind
    obtain ⟨i, hi⟩ := Option.isSome_iff_exists.mp hsome
    have hfirst : s.firstNumber? (id :: b) = some i.toNat := by
      rw [firstNumber?, List.findSome?_eq_some_iff]
      refine ⟨l, next, l', hl, by rw [hi]; rfl, fun j hj => ?_⟩
      simpa using hbefore j hj
    simp only [hi, hfirst, Option.map_some, Option.getD_some]

end Session

namespace Session

variable {s : Session} {o : Order} {id head : NodeId}

theorem reference?_of_header (h : (s.node id).header = some head) :
    s.reference? o id = s.referenceAt? o head := by
  rw [reference?, h]

theorem reference?_of_dead (hheader : (s.node id).header = none)
    (hdead : (s.node id).isLive = false) :
    s.reference? o id = s.referenceAt? o id := by
  rw [reference?, hheader, hdead]
  rfl

theorem reference?_of_live (hheader : (s.node id).header = none)
    (hlive : (s.node id).isLive = true) :
    s.reference? o id = none := by
  rw [reference?, hheader, hlive]
  rfl

/-- The nodes that were generated from a shorthand start right behind it. -/
theorem exists_first_isFrom {ids : List NodeId} (hnodup : ids.Nodup)
    (hhead : (s.node head).origin = .header) (htrails : ∀ j ∈ ids, s.isFrom head j = true →
      s.tree.Trails ids head j) (hid : id ∈ ids)
    (hfrom : s.isFrom head id = true) :
    ∃ a first b, ids = a ++ head :: first :: b ∧ s.isFrom head first = true ∧
      ids.find? (s.isFrom head) = some first := by
  obtain ⟨a, m, b, hsplit, hm⟩ := htrails id hid hfrom
  obtain ⟨first, b', hfirst, hisFrom⟩ : ∃ first b', m ++ id :: b = first :: b' ∧
      s.isFrom head first = true := by
    cases m with
    | nil => exact ⟨id, b, rfl, hfrom⟩
    | cons j m =>
      obtain ⟨horigin, hheader⟩ := hm j (by simp)
      refine ⟨j, m ++ id :: b, rfl, ?_⟩
      simp only [isFrom, node, horigin, hheader, beq_self_eq_true, Bool.and_self]
  rw [hfirst] at hsplit
  refine ⟨a, first, b', hsplit, hisFrom, ?_⟩
  rw [List.find?_eq_some_iff_append]
  refine ⟨hisFrom, a ++ [head], b', by simp [hsplit], fun j hj => ?_⟩
  rw [Bool.not_eq_true']
  have hnotFrom : s.isFrom head head = false := by simp [isFrom, hhead]
  rcases List.mem_append.mp hj with hj | hj
  · -- a node from the shorthand would stand behind it
    rw [Bool.eq_false_iff]
    intro hfromj
    obtain ⟨a', m', c, hsplit', -⟩ := htrails j (by simp [hsplit, hj]) hfromj
    rw [hsplit] at hsplit' hnodup
    have hparts := List.nodup_append.mp hnodup
    have hnota : head ∉ a := fun hc => hparts.2.2 head hc head (by simp) rfl
    have hnotb : head ∉ first :: b' := (List.nodup_cons.mp hparts.2.1).1
    obtain ⟨rfl, -, hrest⟩ := (List.append_cons_inj_of_notMem hnota hnotb).mp hsplit'
    exact hparts.2.2 j hj j (by simp [hrest]) rfl
  · rw [List.mem_singleton.mp hj]
    exact hnotFrom

end Session

/-! ## Executed statements -/

namespace Node.Prepared

variable {e : Setting} {n : Node}

theorem isLive_eq (h : n.Prepared e) : n.isLive = n.statement.isStandard := by
  cases hstandard : n.statement.isStandard with
  | false => rw [Node.isLive, hstandard, Bool.false_and]
  | true =>
    suffices hcommented : n.statement.commented = false by simp [Node.isLive, hstandard, hcommented]
    rcases h.standard_cases hstandard with ⟨number, line, hread⟩ | ⟨line, hjump⟩
    · have hregular := Statement.read_regular e.grammar e.version number line
      rw [← hread] at hregular
      cases hcommented : n.statement.commented with
      | false => rfl
      | true =>
        rw [hregular.standard, hregular.commented hcommented] at hstandard
        cases hstandard
    · rw [hjump]
      rfl

theorem display_eq (h : n.Prepared e) (hlive : n.isLive = true) :
    n.statement.display = n.statement.text := by
  have hstandard : n.statement.isStandard = true := h.isLive_eq ▸ hlive
  have hcommented : n.statement.commented = false := by
    simp only [Node.isLive, Bool.and_eq_true, Bool.not_eq_true'] at hlive
    exact hlive.2
  have hcomment : n.statement.isComment = false := by
    rcases h.standard_cases hstandard with ⟨number, line, hread⟩ | ⟨line, hjump⟩
    · rw [hread] at hstandard ⊢
      rcases Statement.read_cases e.grammar e.version number line with hs | hs | hs | ⟨commented, r,
        -, hs⟩ <;>
        rw [hs] at hstandard ⊢
      · rfl
      · cases hstandard
      · rfl
      · -- a form with the number of comments would not be executed
        rw [Bool.eq_false_iff]
        intro hform
        have hid : r.entry.form.id = FormId.comment := beq_iff_eq.mp hform
        simp [Statement.isStandard, Statement.ofRecognition, hid, Statement.classify] at hstandard
    · rw [hjump]
      rfl
  rw [Statement.display, hcomment, hcommented]
  rfl

end Node.Prepared

/-! ## The report of scripts that are too long -/

/-- Only the numbering reports that a script is too long. -/
theorem Problem.code_eq_scriptTooLong_iff (p : Problem) :
    p.code = "SCRIPT_TOO_LONG" ↔ p.pass? = some .assignIndices := by
  cases p with
  | expression e => cases e <;> simp [Problem.code, ExpressionError.code, Problem.pass?]
  | _ => simp [Problem.code, Problem.pass?]

namespace Session

variable {e : Setting} {lines : List String} {f g : Forest} {s : Session}

/-- The script is numbered, and the numbering alone reports that it is too long. -/
theorem Expanding.examine_indexed (h : Expanding e (buildTree e lines) f s g [])
    (hexpand : (Session.start (buildTree e lines)).expand e = .ok s) : (s.examine e).Indexed ∧
      (s.examine e).log.toList.filter (fun d => d.code == "SCRIPT_TOO_LONG") =
        s.tree.shortage g.ids := by
  have hP : ∀ pass : Pass, pass ≠ .assignIndices →
      pass.Reports fun d => d.code ≠ "SCRIPT_TOO_LONG" := by
    intro pass hpass p line text hp hcode
    exact hpass (Option.some.inj (hp.symm.trans ((Problem.code_eq_scriptTooLong_iff p).mp hcode)))
  have hdiagnostic : ∀ id d, (s.node id).diagnostic = some d → d.code ≠ "SCRIPT_TOO_LONG" := by
    intro id d hd hcode
    by_cases horigin : (s.node id).origin = .source
    · obtain ⟨number, line, -, hread⟩ := (h.prepared id).source horigin
      obtain ⟨p, text, hp, rfl⟩ := Statement.isReading_of_diagnostic (hread ▸ hd)
      have hpass := (Problem.code_eq_scriptTooLong_iff p).mp hcode
      rw [Problem.pass?_of_isReading hp] at hpass
      cases hpass
    · rw [(h.prepared id).diagnostic horigin] at hd
      cases hd
  have hchecks := Analyses.checks hP e hdiagnostic
  have hspans := h.spans.alike hchecks.alike
  refine ⟨assignIndices_indexed hspans fun id => (hchecks.index id).trans (h.prepared id).index, ?_⟩
  obtain ⟨l, hl, hquiet⟩ := hchecks.log
  have hbefore : ∀ d ∈ s.log.toList, d.code ≠ "SCRIPT_TOO_LONG" := by
    intro d hd hcode
    obtain ⟨p, line, text, hp, rfl⟩ := expand_log hexpand d (Array.mem_toList_iff.mp hd)
    cases hp.symm.trans ((Problem.code_eq_scriptTooLong_iff p).mp hcode)
  have hshortage : ∀ d ∈ s.tree.shortage g.ids, d.code = "SCRIPT_TOO_LONG" := by
    intro d hd
    obtain ⟨id, -, rfl⟩ := List.mem_map.mp hd
    rfl
  rw [examine, assignIndices_log, hl, hspans.preorder_eq, ← hchecks.alike.shortage_eq,
    List.filter_append, List.filter_append, List.filter_eq_nil_iff.mpr (by simpa using hbefore),
    List.filter_eq_nil_iff.mpr (by simpa using hquiet),
    List.filter_eq_self.mpr (by simpa using hshortage)]
  rfl

end Session

/-! ## Commands -/

namespace Session

structure Listed (s : Session) (g : Forest) : Prop where
  spans : s.tree.Spans g
  indexed : s.Indexed
  standard : ∀ id, (s.node id).isLive = (s.node id).statement.isStandard
  owned : s.Owned
  expanded : ∀ id, (s.node id).origin = .expanded → (s.node id).isLive = true

namespace Listed

variable {s : Session} {g : Forest} {a b : List NodeId} {id head : NodeId}

theorem commands_eq (h : s.Listed g) : (Output.ofSession s.emit).commands.toList =
    g.ids.map (s.commandOf (.of s.tree)) := by
  rw [← h.spans.preorder_eq]
  rfl

theorem numbers (h : s.Listed g) :
    (Output.ofSession s.emit).executed.map Command.number? =
      (List.range s.standardCount).map some := by
  have hnumbers := h.indexed.numbers (List.append_nil s.tree.preorder).symm
  rw [← h.indexed.count, h.spans.preorder_eq] at hnumbers
  rw [Output.executed, h.commands_eq, List.filter_map, List.map_map]
  exact hnumbers

theorem isSome_iff (h : s.Listed g) (hids : g.ids = a ++ id :: b) :
    (s.node id).index.isSome = true ↔ (s.node id).statement.kind = .standard ∧
    (s.node id).statement.commented = false ∧
      s.tree.liveCount a < 65535 := by
  rw [h.indexed.isSome_iff (h.spans.preorder_eq.trans hids), Node.isLive, Bool.and_eq_true,
    Bool.not_eq_true', and_assoc, Statement.isStandard, beq_iff_eq]
  rfl

/-- A node that is not executed refers to the first numbered node behind it. -/
theorem reference?_of_not_isLive (h : s.Listed g) (hids : g.ids = a ++ id :: b)
    (hdead : (s.node id).isLive = false) :
    (s.reference? (.of s.tree) id).map UInt16.toNat =
      some ((s.firstNumber? b).getD s.standardCount) := by
  have hsplit := h.spans.preorder_eq.trans hids
  have hheader : (s.node id).header = none := by
    refine h.owned id fun horigin => ?_
    rw [h.expanded id horigin] at hdead
    cases hdead
  have hindex : (s.node id).index = none := by
    rw [h.indexed.index a id b hsplit, if_neg]
    rw [hdead]
    exact fun hc => Bool.noConfusion hc.1
  rw [reference?_of_dead hheader hdead, h.indexed.referenceAt?_eq h.spans hsplit]
  simp only [firstNumber?, List.findSome?_cons, hindex, Option.map_none]

/-- In a script that is not too long, a shorthand refers to the first node that was generated from
it. -/
theorem reference?_header (h : s.Listed g) (hlimit : s.tree.liveCount g.ids ≤ indexLimit)
    (hhead : (s.node head).origin = .header) (hdead : (s.node head).isLive = false)
    (htrails : ∀ j ∈ g.ids, s.isFrom head j = true → s.tree.Trails g.ids head j) (hid : id ∈ g.ids)
    (hfrom : s.isFrom head id = true) : ∃ first i, g.ids.find? (s.isFrom head) = some first ∧
      (s.node first).index = some i ∧ s.reference? (.of s.tree) head = some i := by
  have hnodup : g.ids.Nodup := h.spans.nodup_ids
  obtain ⟨a, first, b, hids, hisFrom, hfind⟩ := exists_first_isFrom hnodup hhead htrails hid hfrom
  have hsplit : g.ids = (a ++ [head]) ++ first :: b := by simp [hids]
  have hlive : (s.node first).isLive = true := by
    simp only [isFrom, Bool.and_eq_true, beq_iff_eq] at hisFrom
    exact h.expanded first hisFrom.1
  have hnumbered :=
    (h.indexed.numbered (by rwa [h.spans.preorder_eq])).index _ _ _
      (h.spans.preorder_eq.trans hsplit)
  rw [hlive, if_pos rfl] at hnumbered
  refine ⟨first, _, hfind, hnumbered, ?_⟩
  have hreference := h.reference?_of_not_isLive hids hdead
  simp only [firstNumber?, List.findSome?_cons, hnumbered, Option.map_some,
    Option.getD_some] at hreference
  obtain ⟨i, hi, htoNat⟩ := Option.map_eq_some_iff.mp hreference
  rw [hi, UInt16.toNat_inj.mp htoNat]

end Listed

end Session

/-- Indices and references of the commands of a script, whether it is accepted or not. The numbered
commands have the numbers from 0 on. A command has a number if it is of the executed kind, not
commented out, and fewer than 65535 such commands come before it; the next such command, if there is
one, is reported once. An auxiliary command refers to the first numbered command behind it, or else
to the number of all of them. A generated command refers to what its shorthand refers to, and in a
script that is not too long this is the first command that was generated from the shorthand. No
other command refers to anything. -/
theorem indices_and_references (v : Version) (arguments : List String)
    (objects : Option ObjectLibrary) (lines : List String) (o : Output)
    (hcompile : compile ⟨.builtin, v, arguments, objects⟩ lines = .ok o) :
    o.executed.map Command.number? = (List.range o.standardCount).map some ∧
    (∀ a c b, o.commands.toList = a ++ c :: b →
      (c.index.isSome = true ↔ c.kind = .standard ∧ c.commented = false ∧
        a.countP Command.isLive < 65535) ∧
      (c.kind = .auxiliary → c.reference.map UInt16.toNat =
        some (Brackets.nextIndex o.standardCount b)) ∧
      (c.kind = .standard → c.origin ≠ .expanded → c.reference = none)) ∧
    o.log.toList.filter (fun d => d.code == "SCRIPT_TOO_LONG") =
      ((o.commands.toList.filter Command.isLive)[65535]?).toList.map
        (fun c => .of (.scriptTooLong 65535) c.line c.text) ∧
    ∃ s ids, Session.compiled ⟨.builtin, v, arguments, objects⟩ lines = .ok s ∧ o = .ofSession s ∧
      s.tree.Lists ids ∧
      o.commands.toList = ids.map (s.commandOf (.of s.tree)) ∧
      ∀ id ∈ ids, (s.node id).origin = .expanded → ∃ head ∈ ids, (s.node id).header = some head ∧
        (s.node head).origin = .header ∧
        (s.commandOf (.of s.tree) id).reference = (s.commandOf (.of s.tree) head).reference ∧
        ((∀ d ∈ o.log, d.code ≠ "SCRIPT_TOO_LONG") →
          ∃ first i, ids.find? (s.isFrom head) = some first ∧
          (s.commandOf (.of s.tree) first).index = some i ∧
          (s.commandOf (.of s.tree) head).reference = some i) := by
  obtain ⟨f, s, g, q, hf, hexpand, h, hspec, hframe, -⟩ :=
    compile_spec (e := ⟨.builtin, v, arguments, objects⟩) builtin_lawful lines
  obtain rfl := output_of_compiled hspec hcompile
  obtain ⟨hexamined, hshortage⟩ := h.examine_indexed hexpand
  have hgrows := Session.examine_grows ⟨.builtin, v, arguments, objects⟩ s
  have halike : s.tree.Alike q.tree := hgrows.alike.trans hframe.alike
  have hstatement : ∀ id, (q.node id).statement = (s.node id).statement :=
    fun id => (halike.statement_eq id).symm
  have horigin : ∀ id, (q.node id).origin = (s.node id).origin :=
    fun id => (halike.origin_eq id).symm
  have hlive : ∀ id, (q.node id).isLive = (s.node id).isLive := fun id => (halike.isLive_eq id).symm
  have hprovenance : Session.Provenance _ _ f q g := h.provenance.alike halike
  have hlisted : q.Listed g := by
    refine ⟨h.spans.alike halike, hexamined.frame (h.spans.alike hgrows.alike) hframe, fun id => ?_,
      fun id hid => ?_, fun id hid => ?_⟩
    · rw [hlive, hstatement, (h.prepared id).isLive_eq]
    · rw [Session.node, ← halike.header_eq]
      exact Session.expand_owned builtin_lawful hf hexpand id (horigin id ▸ hid)
    · rw [hlive, (h.prepared id).isLive_eq]
      rcases (h.prepared id).expanded (horigin id ▸ hid) with hperforms | hperforms <;>
        exact hperforms.standard
  have hshort : (Output.ofSession q.emit).log.toList.filter (fun d => d.code == "SCRIPT_TOO_LONG") =
      s.tree.shortage g.ids := by
    rw [← hshortage, ← hframe.log]
    rfl
  refine ⟨hlisted.numbers, ?_, ?_, q.emit, g.ids, hspec, rfl, hlisted.spans.lists,
    hlisted.commands_eq, ?_⟩
  · intro a c b hsplit
    rw [hlisted.commands_eq] at hsplit
    obtain ⟨a, rest, hids, rfl, hrest⟩ := List.map_eq_append_iff.mp hsplit
    obtain ⟨id, b, rfl, rfl, rfl⟩ := List.map_eq_cons_iff.mp hrest
    refine ⟨?_, fun hkind => ?_, fun hkind hgenerated => ?_⟩
    · rw [List.countP_map]
      exact hlisted.isSome_iff hids
    · have hdead : (q.node id).isLive = false := by
        rw [hlisted.standard, Statement.isStandard, show (q.node id).statement.kind = .auxiliary
          from hkind]
        rfl
      rw [Brackets.nextIndex, List.findSome?_map]
      exact hlisted.reference?_of_not_isLive hids hdead
    · refine Session.reference?_of_live (hlisted.owned id hgenerated) ?_
      rw [hlisted.standard, Statement.isStandard, show (q.node id).statement.kind = .standard
        from hkind]
      rfl
  · rw [hshort, hlisted.commands_eq, List.filter_map, List.getElem?_map, Option.toList_map,
      List.map_map, halike.shortage_eq, Tree.shortage]
    refine List.map_congr_left fun id hid => ?_
    have hmem : id ∈ q.tree.liveNodes g.ids := List.mem_of_getElem? (Option.mem_toList.mp hid)
    have hdisplay := (h.prepared id).display_eq (hlive id ▸ (List.mem_filter.mp hmem).2)
    rw [← hstatement, Session.node] at hdisplay
    rw [hdisplay]
    rfl
  · intro id hid hgenerated
    obtain ⟨head, hstems⟩ := hprovenance.generated id hgenerated
    have hheader : (s.node head).origin = .header := horigin head ▸ hstems.retired
    have hdead : (q.node head).isLive = false := by
      rw [hlive, (h.prepared head).isLive_eq]
      exact ((h.prepared head).header hheader).1
    have howned : (q.node head).header = none := hlisted.owned head (by rw [hstems.retired]; simp)
    refine ⟨head, hstems.head_mem, hstems.header, hstems.retired, ?_, fun hquiet => ?_⟩
    · exact (Session.reference?_of_header hstems.header).trans
        (Session.reference?_of_dead howned hdead).symm
    · refine hlisted.reference?_header ?_ hstems.retired hdead (fun j _ hj => ?_) hid ?_
      · have hnone : s.tree.shortage g.ids = [] := by
          rw [← hshort, List.filter_eq_nil_iff]
          simpa using hquiet
        exact Tree.liveCount_le_of_shortage ((halike.shortage_eq g.ids).symm.trans hnone)
      · simp only [Session.isFrom, Bool.and_eq_true, beq_iff_eq] at hj
        obtain ⟨other, hother⟩ := hprovenance.generated j hj.1
        obtain rfl := Option.some.inj (hj.2.symm.trans hother.header)
        exact hother.trails
      · rw [Session.isFrom, hstems.header, show (q.node id).origin = .expanded from hgenerated]
        simp

/-- The commands of the sample are numbered, its loops included. -/
theorem sampleScript_numbered :
    ∃ o, compile ⟨.builtin, .albionPrelude, [], none⟩ sampleScript = .ok o ∧
    o.executed.map Command.number? = (List.range o.standardCount).map some ∧
    ∀ a c b, o.commands.toList = a ++ c :: b → c.kind = .auxiliary →
      c.reference.map UInt16.toNat = some (Brackets.nextIndex o.standardCount b) := by
  obtain ⟨o, hcompile, -⟩ := sampleScript_compiles
  obtain ⟨hnumbers, hcommands, -⟩ :=
    indices_and_references .albionPrelude [] none sampleScript o hcompile
  exact ⟨o, hcompile, hnumbers, fun a c b hsplit => (hcommands a c b hsplit).2.1⟩

end GameScript
