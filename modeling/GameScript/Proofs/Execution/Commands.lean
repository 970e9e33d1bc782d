import GameScript.Proofs.Compile.Spec
import GameScript.Proofs.Execution.Structured

/-!
# Compiled commands in the engine

What the engine does with the commands of a compiled script. Each executed node is found at its
place (`Emitted.placed`), and its command goes on as its part in the block structure says
(`Settles.follows`): a test enters its body exactly when it holds, a `skip if` exactly when it does
not.
-/

namespace GameScript

/-! ## Commands go on as their parts say -/

/-- How a command with this part and this test goes on. -/
def Follows (part : Part) (test : Conditional) (c : Command) : Prop :=
  match part with
  | .branch | .elseBranch | .loop =>
    ∀ d, c.target? = some d → ∀ n answer, c.follow n answer = if test.holds answer then n + 1 else d
  | .skip =>
    ∀ d, c.target? = some d → ∀ n answer, c.follow n answer = if test.holds answer then d else n + 1
  | .leave | .again | .jump => ∀ d, c.target? = some d → ∀ n answer, c.follow n answer = d
  | .plain | .shorthand => ∀ n answer, c.follow n answer = n + 1
  | .idle | .header | .otherwise | .close => True

namespace Command

variable {c : Command} {d : UInt16}

theorem follow_of_test {test : Conditional} (hvalue : c.returnValue = some (.of test d)) (n : Nat)
    (answer : Bool) (htest : test.isJump = true) :
    c.follow n answer =
      if test.role = .skip then (if test.holds answer then d.toNat else n + 1)
      else if test.holds answer then n + 1 else d.toNat := by
  rw [follow, hvalue]
  cases test <;> first | (cases answer <;> rfl) | cases htest

theorem follow_of_jump (hvalue : c.returnValue = none) (hjump : c.jump = some d) (n : Nat)
    (answer : Bool) :
    c.follow n answer = d.toNat := by
  rw [follow, hvalue, hjump]

theorem follow_next (hvalue : ∀ v, c.returnValue = some v → ∃ test d, v = .of test d ∧
      test.isJump = false)
    (hjump : c.jump = none) (n : Nat) (answer : Bool) : c.follow n answer = n + 1 := by
  cases hv : c.returnValue with
  | none => rw [follow, hv, hjump]
  | some v =>
    obtain ⟨test, d, rfl, htest⟩ := hvalue v hv
    rw [follow, hv, hjump]
    cases test <;> first | rfl | cases htest

end Command

namespace Follows

variable {part : Part} {test : Conditional} {c : Command} {d : UInt16}

/-- A test goes on depending on its answer. Its part is the one that its keyword spells. -/
theorem of_test (hpart : part.role = test.role) (htest : test.isJump = true)
    (hvalue : c.returnValue = some (.of test d)) (hjump : c.jump = none) : Follows part test c := by
  have htarget := Command.target?_of_test hvalue hjump htest
  have hfollow := fun n answer => Command.follow_of_test hvalue n answer htest
  by_cases hskip : test.role = .skip
  · have hp : part = .skip := by cases part <;> simp_all [Part.role]
    rw [hp]
    intro e he n answer
    obtain rfl : d.toNat = e := Option.some.inj (htarget.symm.trans he)
    rw [hfollow, if_pos hskip]
  · have henters : ∀ e, c.target? = some e → ∀ n answer,
        c.follow n answer = if test.holds answer then n + 1 else e := by
      intro e he n answer
      obtain rfl : d.toNat = e := Option.some.inj (htarget.symm.trans he)
      rw [hfollow, if_neg hskip]
    have hp : part = .branch ∨ part = .elseBranch ∨ part = .loop := by
      revert hpart htest hskip
      cases test <;> cases part <;> simp [Part.role, Conditional.role, Conditional.isJump]
    rcases hp with rfl | rfl | rfl <;> exact henters

theorem of_jump (hpart : part = .leave ∨ part = .again ∨ part = .jump)
    (hvalue : c.returnValue = none) (hjump : c.jump = some d) : Follows part test c := by
  have hleads : ∀ e, c.target? = some e → ∀ n answer, c.follow n answer = e := by
    intro e he n answer
    obtain rfl : d.toNat = e := Option.some.inj ((Command.target?_of_jump hjump).symm.trans he)
    exact Command.follow_of_jump hvalue hjump n answer
  rcases hpart with rfl | rfl | rfl <;> exact hleads

end Follows

/-- The command of an executed node goes on as the part of the node says. Commands that leave the
order of the lines play no part in the structure. -/
theorem Session.Settles.follows {n : Node} {dest : Option Nat} {c : Command} (h : Settles n dest)
    (hlive : n.isLive = true) (hregular : n.Regular) (hacts : n.Acts)
    (htransfer : n.statement.form.isTransfer = false) (hvalue : c.returnValue = n.returnValue)
    (hjump : c.jump = n.jump) : Follows n.part n.statement.conditional c := by
  have hrole := hregular.role
  rcases hacts with ⟨hpart, line, hline⟩ | ⟨hpart, hstatement, hexecuted, hloop⟩
  · cases h with
    | idle hdead _ _ => simp [hlive] at hdead
    | test _ htest _ _ _ _ => simp [hline, Statement.hiddenJump, Conditional.isJump] at htest
    | always d _ _ hv hj _ => exact .of_jump (.inr (.inr hpart)) (hvalue.trans hv) (hjump.trans hj)
    | next _ hform _ _ => simp [hline, Statement.hiddenJump, jumpsAlways] at hform
  · rw [hstatement] at hrole
    cases hexecuted with
    | test htest hconditional hslot _ =>
      cases h with
      | idle hdead _ _ => simp [hlive] at hdead
      | test d _ _ hv hj _ =>
        exact .of_test (hrole.symm.trans hconditional) htest (hvalue.trans hv) (hjump.trans hj)
      | always _ _ hnone _ _ _ => simp [hnone] at hslot
      | next hnot _ _ _ => simp [htest] at hnot
    | exit hexit hslot =>
      have hp : n.part = .leave ∨ n.part = .again ∨ n.part = .jump := by
        rcases hexit with ⟨-, hr⟩ | ⟨-, hr⟩ <;> rw [hr] at hrole <;> revert hrole <;>
          cases n.part <;>
          simp [Part.role]
      have halways : jumpsAlways n.statement.form = true := by
        rcases hexit with ⟨hf, -⟩ | ⟨hf, -⟩ <;> rw [hf] <;> rfl
      cases h with
      | idle hdead _ _ => simp [hlive] at hdead
      | test _ _ hsome _ _ _ => simp [hslot] at hsome
      | always d _ _ hv hj _ => exact .of_jump hp (hvalue.trans hv) (hjump.trans hj)
      | next _ hform _ _ => simp [halways] at hform
    | labelJump hform _ _ _ =>
      simp only [FormId.isTransfer, Bool.or_eq_false_iff, beq_eq_false_iff_ne] at htransfer
      rcases hform with hf | hf
      · exact absurd hf htransfer.1.1.1
      · exact absurd hf htransfer.1.1.2
    | waiting hwaiting _ => simp [hloop] at hwaiting
    | plain hplain htest hform _ =>
      have hp : n.part = .plain ∨ n.part = .shorthand ∨ n.part.isLive = false := by
        rw [hplain] at hrole
        revert hrole hpart
        cases n.part <;> simp [Part.role, Part.isLive]
      cases h with
      | idle hdead _ _ => simp [hlive] at hdead
      | test _ hjumps _ _ _ _ => simp [htest] at hjumps
      | always _ halways _ _ _ _ => simp [hform] at halways
      | next _ _ hv hj =>
        have hfollow := Command.follow_next (hvalue ▸ hv) (hjump.trans hj)
        rcases hp with hp | hp | hp
        · rw [hp]; exact hfollow
        · rw [hp]; exact hfollow
        · rw [← hregular.live, hlive] at hp
          cases hp

/-! ## Commands at their places -/

structure Stands (t : Tree) (cmd : NodeId → Command) (o : Output) (n : Nat) (id : NodeId) :
    Prop where
  found : o.at? n = some (cmd id)
  bound : n ≠ o.standardCount
  number : t.number id = n
  follows : Follows (t.part id) (t.node id).statement.conditional (cmd id)
  hidden : (cmd id).origin = .hiddenJump ↔ t.part id = .jump

def Placed (t : Tree) (cmd : NodeId → Command) (o : Output) : Nat → Forest → Prop
  | _, .nil => True
  | n, .node id below after =>
    ((t.part id).isLive = true → Stands t cmd o n id) ∧
      Placed t cmd o (n + (t.part id).isLive.toNat) below ∧
      Placed t cmd o (n + (t.part id).isLive.toNat + below.count t.part) after

/-- A row is placed if each of its executed nodes stands where the nodes before it say. -/
theorem placed_of_index {t : Tree} {cmd : NodeId → Command} {o : Output} {f : Forest}
    (before behind : List NodeId) (h : ∀ a id b, before ++ f.ids ++ behind = a ++ id :: b →
      id ∈ f.ids → (t.part id).isLive = true →
      Stands t cmd o (a.countP fun j => (t.part j).isLive) id) :
    Placed t cmd o (before.countP fun j => (t.part j).isLive) f := by
  induction f generalizing before behind with
  | nil => trivial
  | node id below after ihb iha =>
    have hinner : (before.countP fun j => (t.part j).isLive) + (t.part id).isLive.toNat =
        (before ++ [id]).countP fun j => (t.part j).isLive := by
      rw [List.countP_append, List.countP_singleton]
      cases (t.part id).isLive <;> rfl
    have hnext : ((before ++ [id]).countP fun j => (t.part j).isLive) + below.count t.part =
        (before ++ [id] ++ below.ids).countP fun j => (t.part j).isLive := by
      rw [Forest.count_eq]
      exact List.countP_append.symm
    refine ⟨fun hlive => h before id (below.ids ++ after.ids ++ behind) (by simp) (by simp) hlive,
      ?_, ?_⟩
    · rw [hinner]
      refine ihb (before ++ [id]) (after.ids ++ behind) fun a j b hsplit hj =>
        h a j b ?_ (by simp [hj])
      rw [← hsplit]
      simp
    · rw [hinner, hnext]
      refine iha (before ++ [id] ++ below.ids) behind fun a j b hsplit hj =>
        h a j b ?_ (by simp [hj])
      rw [← hsplit]
      simp

/-- A command with an index is the one that the engine finds there. -/
theorem Output.at?_eq {o : Output} {a b : List Command} {c : Command} {n : Nat}
    (hcommands : o.commands.toList = a ++ c :: b) (hc : c.number? = some n)
    (ha : ∀ d ∈ a, d.number? ≠ some n) :
    o.at? n = some c := by
  have hinitial : a.find? (fun d => d.index.map UInt16.toNat == some n) = none := by
    rw [List.find?_eq_none]
    exact fun d hd heq => ha d hd (beq_iff_eq.mp heq)
  have hhere : (c.index.map UInt16.toNat == some n) = true := beq_iff_eq.mpr hc
  rw [at?, hcommands, List.find?_append, hinitial, List.find?_cons, hhere]
  rfl

/-- The place of a node among the executed ones is the number of executed nodes before it. -/
theorem Tree.number_eq {t : Tree} {a b : List NodeId} {id : NodeId}
    (horder : t.preorder = a ++ id :: b) (hnodup : t.preorder.Nodup)
    (hlive : (t.node id).isLive = true) :
    t.number id = a.countP fun j => (t.node j).isLive := by
  have hnot : id ∉ a.filter fun j => (t.node j).isLive := by
    intro hmem
    rw [horder, List.nodup_append] at hnodup
    exact hnodup.2.2 id (List.mem_of_mem_filter hmem) id (by simp) rfl
  rw [number, horder, List.filter_append, List.filter_cons, if_pos hlive,
    List.idxOf_append_of_notMem hnot, List.idxOf_cons_self, Nat.add_zero,
    List.countP_eq_length_filter]

def IsStructured (rs : List Reading) : Prop :=
  ∀ r ∈ rs, r.statement.commented = false → r.statement.form.isTransfer = false

namespace Session

variable {e : Setting} {lines : List String} {f g : Forest} {s p q : Session}

/-- No node of the script leaves the order of the lines: none that was read does, and generated
commands never do. -/
theorem Expanding.isTransfer_eq_false (h : Expanding e (buildTree e lines) f s g [])
    (hlines : IsStructured (Statement.readAll e.grammar e.version lines)) {id : NodeId}
    (hlive : (s.node id).isLive = true) : (s.node id).statement.form.isTransfer = false := by
  simp only [Node.isLive, Bool.and_eq_true, Bool.not_eq_true'] at hlive
  cases horigin : (s.node id).origin with
  | source =>
    have hread : ∀ id, ((buildTree e lines).node id).statement.commented = false →
        ((buildTree e lines).node id).statement.form.isTransfer = false :=
      fun id => nest_forall (P := fun n => n.statement.commented = false →
        n.statement.form.isTransfer = false)
        (fun _ => rfl) (fun _ _ => rfl) hlines id
    rw [(h.provenance.source id horigin).2.1] at hlive ⊢
    exact hread id hlive.2
  | header =>
    rw [((h.prepared id).header horigin).1] at hlive
    cases hlive.1
  | expanded =>
    have hcontrol : (s.node id).statement.form.isControl = false := by
      rcases (h.prepared id).expanded horigin with hperforms | hperforms <;> exact hperforms.control
    simp only [FormId.isControl, Bool.or_eq_false_iff] at hcontrol
    exact hcontrol.2
  | hiddenJump =>
    obtain ⟨line, hline⟩ := (h.prepared id).hiddenJump horigin
    rw [hline]
    rfl

theorem Finished.placed (h : Finished e lines g s p q)
    (hlines : IsStructured (Statement.readAll e.grammar e.version lines)) :
    Placed s.tree (q.commandOf (Order.of q.tree)) (.ofSession q.emit) 0 g := by
  obtain ⟨f, hf, hexpanding⟩ := h.expanding
  have hemitted := h.emitted
  have hpart : s.tree.part = p.tree.part := h.examined.alike.part_eq
  have hspans := hexpanding.spans
  refine placed_of_index [] [] fun a id b hsplit hid hlive => ?_
  rw [List.nil_append, List.append_nil] at hsplit
  have hregular := (hexpanding.prepared id).regular
  have hnumber := hemitted.index a id b hsplit
  rw [← hpart, if_pos hlive] at hnumber
  have hcount := hemitted.count
  rw [← hpart, Forest.count_eq, hsplit, List.countP_append, List.countP_cons,
    if_pos hlive] at hcount
  have hnode : (s.node id).isLive = true := hregular.live.trans hlive
  have halike := h.examined.alike.trans h.frame.alike
  have hsnode : (q.node id).statement = (s.node id).statement := (halike.statement_eq id).symm
  refine ⟨?_, by omega, ?_, ?_, ?_⟩
  · have hcommands := hemitted.commands
    rw [hsplit, List.map_append, List.map_cons] at hcommands
    refine Output.at?_eq hcommands hnumber ?_
    · rintro _ hd
      obtain ⟨j, hj, rfl⟩ := List.mem_map.mp hd
      obtain ⟨a', b', rfl⟩ := List.append_of_mem hj
      rw [hemitted.index a' j (b' ++ id :: b) (by simp [hsplit]), ← hpart]
      split
      · next hj =>
        rw [List.countP_append, List.countP_cons, if_pos hj]
        intro hc
        have := Option.some.inj hc
        omega
      · nofun
  · have horder : s.tree.preorder = a ++ id :: b := by rw [hspans.preorder_eq, hsplit]
    have hnodup : s.tree.preorder.Nodup := by
      rw [hspans.preorder_eq]
      exact hspans.nodup_ids
    rw [Tree.number_eq horder hnodup hnode]
    refine List.countP_congr fun j _ => ?_
    have hlive : (s.tree.node j).isLive = (s.tree.part j).isLive :=
      (hexpanding.prepared j).regular.live
    rw [hlive]
  · have hlinkable := h.linkable
    have hmem : id ∈ p.tree.preorder := by
      rw [(hspans.alike h.examined.alike).preorder_eq]
      exact hid
    have hqlive : (q.node id).isLive = true := (halike.isLive_eq id).symm.trans hnode
    have hplive : (p.tree.node id).isLive = true := (h.examined.alike.isLive_eq id).symm.trans hnode
    have hqpart : (q.node id).part = s.tree.part id := congrFun halike.part_eq.symm id
    have hfollows := (h.settled id hid).follows (c := q.commandOf (Order.of q.tree) id) hqlive
      ((halike.node id).regular hregular) ((h.frame.alike.node id).acts
        (hlinkable.acts id hmem hplive))
      (by rw [hsnode]; exact hexpanding.isTransfer_eq_false hlines hnode) rfl rfl
    rwa [hqpart, hsnode] at hfollows
  · rw [hpart]
    exact hemitted.hidden id hid

end Session

end GameScript
