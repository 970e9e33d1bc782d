import Mathlib.Data.List.Basic
import Mathlib.Logic.Relation
import GameScript.Proofs.Compile.Typing
import GameScript.Proofs.Execution.Commands
import GameScript.Proofs.Linkage.Bounds
import GameScript.Proofs.Passes.Subroutines

/-!
# Subroutines do not run off the script

A called subroutine comes to an `endsub` or a `return` before the script ends, whichever way its
tests go: `subroutines_come_to_an_end`. The check of subroutines looks at the commands outside of
all blocks, so it takes a condition on the labels inside of blocks, which it does not see
(`Tree.EndsBehindLabels`).

The argument has one invariant. Some command outside of all blocks ends a subroutine behind all
labels that a jump names (`Fence`). No jump before it leads behind it: labels stand before it, and
the jumps of the block structure do not jump over a plain command. So the flow of control stays
before it.

Without the condition the statement fails: `nestedSubroutine_runs_off`.
-/

namespace GameScript

/-! ## The flow of control -/

/-- The flow of control leads from one place to another one inside of a subroutine: a test goes
either way, a call goes on behind itself, and nothing follows a command that leaves the
subroutine. -/
def Output.Flows (o : Output) (n m : Nat) : Prop :=
  ∃ c, o.at? n = some c ∧ c.form ≠ FormId.endsub ∧ c.form ≠ FormId.leaveScript ∧
    ((c.form = FormId.gosub ∧ m = n + 1) ∨
      (c.form ≠ FormId.gosub ∧ ∃ answer, m = c.follow n answer))

/-- The flow of control gets from one place to another one without leaving the subroutine. -/
abbrev Output.Path (o : Output) : Nat → Nat → Prop := Relation.ReflTransGen o.Flows

namespace Session.Settles

variable {n : Node} {dest : Option Nat} {c : Command}

/-- A command goes on behind itself, or where it leads if it is a jump. -/
theorem follow_cases (h : Settles n dest) (hlive : n.isLive = true)
    (hvalue : c.returnValue = n.returnValue) (hjump : c.jump = n.jump) (m : Nat) (answer : Bool) :
    c.follow m answer = m + 1 ∨
      (dest = some (c.follow m answer) ∧
        (n.statement.conditional.isJump = true ∨ jumpsAlways n.statement.form = true)) := by
  cases h with
  | idle hdead _ _ =>
    rw [hlive] at hdead
    cases hdead
  | test d htest _ hv _ hdest =>
    rw [Command.follow_of_test (hvalue.trans hv) m answer htest, hdest]
    split <;> split <;> simp [htest]
  | always d hform _ hv hj hdest =>
    rw [Command.follow_of_jump (hvalue.trans hv) (hjump.trans hj), hdest]
    exact .inr ⟨rfl, .inr hform⟩
  | next _ _ hv hj => exact .inl (Command.follow_next (hvalue ▸ hv) (hjump.trans hj) m answer)

theorem of_jumpsAlways (h : Settles n dest) (hlive : n.isLive = true)
    (hslot : n.statement.returnSlot? = none) (hform : jumpsAlways n.statement.form = true) :
    ∃ d : UInt16, n.returnValue = none ∧ n.jump = some d ∧
      dest = some d.toNat := by
  cases h with
  | idle hdead _ _ =>
    rw [hlive] at hdead
    cases hdead
  | test _ _ hsome _ _ _ =>
    rw [hslot] at hsome
    cases hsome
  | always d _ _ hv hj hdest => exact ⟨d, hv, hj, hdest⟩
  | next _ hnot _ _ =>
    rw [hform] at hnot
    cases hnot

end Session.Settles

/-! ## Labels that are named -/

namespace Tree

def isNamed (t : Tree) (d : NodeId) : Bool :=
  (t.node d).definesLabel &&
    t.preorder.any fun id => (t.node id).jumpLabel?.any fun label =>
      (t.node d).statement.label? == some label

theorem isNamed_iff {t : Tree} {d : NodeId} : t.isNamed d = true ↔ (t.node d).definesLabel = true ∧
    ∃ id ∈ t.preorder, ∃ label, (t.node id).jumpLabel? = some label ∧
      (t.node d).statement.label? = some label := by
  simp [isNamed, Option.any_eq_true, and_comm]

/-- If a label inside of a block is named, a command that ends a subroutine stands outside of all
blocks behind every label that is named. -/
def EndsBehindLabels (t : Tree) : Prop :=
  (∃ d ∈ t.preorder, t.isNamed d = true ∧ d ∉ (t.children root).toList) →
    ∃ a x b, t.preorder = a ++ x :: b ∧ x ∈ (t.children root).toList ∧
      (t.node x).endsCourse = true ∧
      ∀ d ∈ b, t.isNamed d = false

end Tree

namespace Node

variable {n : Node}

theorem transfer_of_jumpLabel? {label : String} (h : n.jumpLabel? = some label) :
    n.statement.form.isTransfer = true ∧ n.statement.label? = some label := by
  unfold jumpLabel? at h
  split at h
  · next hjump =>
    simp only [is, Bool.or_eq_true, Bool.and_eq_true, beq_iff_eq] at hjump
    refine ⟨?_, h⟩
    rcases hjump with ⟨-, hform⟩ | ⟨-, hform⟩ <;> rw [hform] <;> rfl
  · cases h

theorem jumpLabel?_of_calledLabel? {label : String} (h : Session.calledLabel? n = some label) :
    n.jumpLabel? = some label := by
  unfold Session.calledLabel? at h
  split at h
  · next hgosub =>
    rw [jumpLabel?, hgosub, Bool.or_true, if_pos rfl]
    exact h
  · cases h

theorem form_of_definesLabel (h : n.definesLabel = true) :
    n.statement.form = FormId.defineLabel ∧ n.statement.commented = false := by
  simp only [definesLabel, is, Bool.and_eq_true, Bool.not_eq_true', beq_iff_eq] at h
  exact h.symm

theorem transfer_of_endsCourse (h : n.endsCourse = true) :
    n.statement.form.isTransfer = true ∧ n.statement.form ≠ FormId.gosub ∧
    n.statement.commented = false := by
  simp only [endsCourse, is, Bool.or_eq_true, Bool.and_eq_true, Bool.not_eq_true', beq_iff_eq] at h
  rcases h with (⟨hc, hform⟩ | ⟨hc, hform⟩) | ⟨hc, hform⟩ <;>
    exact ⟨by rw [hform]; rfl, by rw [hform]; decide, hc⟩

/-- Commands that leave the order of the lines are lines of the script. -/
theorem Prepared.source_of_isTransfer {e : Setting} (h : n.Prepared e)
    (hform : n.statement.form.isTransfer = true) :
    n.origin = .source ∧ n.statement.form.isShorthand = false := by
  have hforms : ∀ form : FormId, form.isTransfer = true →
      form.isShorthand = false ∧ form ≠ FormId.hiddenJump ∧ form.isControl = true := by
    intro form hform
    simp only [FormId.isTransfer, Bool.or_eq_true, beq_iff_eq] at hform
    rcases hform with ((rfl | rfl) | rfl) | rfl <;> decide
  obtain ⟨hshorthand, hhidden, hcontrol⟩ := hforms _ hform
  refine ⟨?_, hshorthand⟩
  cases horigin : n.origin with
  | source => rfl
  | header =>
    rw [(h.header horigin).2.2] at hshorthand
    cases hshorthand
  | expanded =>
    rcases h.expanded horigin with hperforms | hperforms <;> rw [hperforms.control] at hcontrol <;>
      cases hcontrol
  | hiddenJump =>
    obtain ⟨line, hstatement⟩ := h.hiddenJump horigin
    rw [hstatement] at hhidden
    exact absurd rfl hhidden

end Node

/-- A command that ends a subroutine stands outside of all blocks, behind `front`, and all labels
that are named stand in `front`. -/
structure Fence (t : Tree) (g front : Forest) (x : NodeId) : Prop where
  split : ∃ below rest, g = front ++ .node x below rest
  ends : (t.node x).endsCourse = true
  named : ∀ d ∈ g.ids, t.isNamed d = true → d ∈ front.ids

namespace Session

section

variable {e : Setting} {lines : List String} {f g : Forest} {s : Session} {id : NodeId}

theorem Expanding.source_of_definesLabel (he : e.grammar = .builtin)
    (h : Expanding e (buildTree e lines) f s g []) (hlog : (s.examine e).log = #[])
    (hdefines : (s.node id).definesLabel = true) : (s.node id).origin = .source := by
  have hform := (Node.form_of_definesLabel hdefines).1
  cases horigin : (s.node id).origin with
  | source => rfl
  | header =>
    have hshorthand := ((h.prepared id).header horigin).2.2
    rw [hform] at hshorthand
    cases hshorthand
  | expanded =>
    have hmeaning := h.hasMeaning_of_expanded he hlog horigin
    rw [hform] at hmeaning
    cases hmeaning
  | hiddenJump =>
    obtain ⟨line, hstatement⟩ := (h.prepared id).hiddenJump horigin
    rw [hstatement] at hform
    cases hform

/-- A line that is kept as it is keeps its place among the lines. -/
theorem Expanding.kept_of_source (hf : (buildTree e lines).Spans f)
    (h : Expanding e (buildTree e lines) f s g []) (hid : id ∈ g.ids)
    (horigin : (s.node id).origin = .source) :
    id ∈ (buildTree e lines).preorder ∧
    (s.node id).statement = ((buildTree e lines).node id).statement := by
  have hwritten := h.provenance.mem_written hid (by rw [horigin]; rfl)
  rw [hf.preorder_eq]
  exact ⟨(List.mem_filter.mp hwritten).1, (h.provenance.source id horigin).2.1⟩

/-- A label that is named in the expanded script is named in the script. -/
theorem Expanding.isNamed (he : e.grammar = .builtin) (hf : (buildTree e lines).Spans f)
    (h : Expanding e (buildTree e lines) f s g []) (hlog : (s.examine e).log = #[]) {d : NodeId}
    (hd : d ∈ g.ids) (hnamed : s.tree.isNamed d = true) :
    (s.node d).origin = .source ∧ d ∈ (buildTree e lines).preorder ∧
    (buildTree e lines).isNamed d = true := by
  obtain ⟨hdefines, id, hid, label, hjump, hlabel⟩ := Tree.isNamed_iff.mp hnamed
  rw [h.spans.preorder_eq] at hid
  have hsource := h.source_of_definesLabel he hlog hdefines
  obtain ⟨hmem, hstatement⟩ := h.kept_of_source hf hd hsource
  obtain ⟨hmem', hstatement'⟩ := h.kept_of_source hf hid
    ((h.prepared id).source_of_isTransfer (Node.transfer_of_jumpLabel? hjump).1).1
  refine ⟨hsource, hmem, Tree.isNamed_iff.mpr ⟨?_, id, hmem', label, ?_, ?_⟩⟩
  · rw [← Node.definesLabel_congr hstatement]
    exact hdefines
  · rw [← Node.jumpLabel?_congr hstatement']
    exact hjump
  · rw [← hstatement]
    exact hlabel

/-- The check of subroutines puts a fence if all labels that are named stand outside of all
blocks. -/
theorem Expanding.fence_of_roots (h : Expanding e (buildTree e lines) f s g [])
    (hlog : (s.examine e).log = #[]) (hroots : ∀ d ∈ g.ids, s.tree.isNamed d = true → d ∈ g.roots)
    {d : NodeId} {label : String} (hid : id ∈ g.ids)
    (hcalls : calledLabel? (s.node id) = some label) (hd : d ∈ g.roots)
    (hdefines : (s.node d).definesLabel = true)
    (hlabel : (s.node d).statement.label? = some label) : ∃ front x, Fence s.tree g front x := by
  have hreports := checkReports_of_log hlog
  simp only [Tree.checkReports, List.append_eq_nil_iff] at hreports
  have hends :=
    ends_of_checkSubroutines hreports.1.2 (List.mem_of_mem_drop (h.spans.preorder_eq ▸ hid)) hcalls
    (h.spans.top ▸ hd) hdefines hlabel
  rw [h.spans.top] at hends
  obtain ⟨a, x, b, hrow, hx, hb⟩ := hends
  obtain ⟨front, below, rest, hsplit, hfront⟩ := Forest.exists_split_of_roots hrow
  refine ⟨front, x, ⟨below, rest, hsplit⟩, hx, fun d hd hnamed => Forest.mem_ids_of_mem_roots ?_⟩
  have hdefines := (Tree.isNamed_iff.mp hnamed).1
  have hmem := hroots d hd hnamed
  rw [hrow, List.mem_append, List.mem_cons] at hmem
  rw [hfront]
  rcases hmem with hmem | rfl | hmem
  · exact hmem
  · rw [Node.definesLabel_of_endsCourse hx] at hdefines
    cases hdefines
  · rw [hb d hmem] at hdefines
    cases hdefines

/-- A command behind all labels that are named is a fence. -/
theorem Expanding.fence_of_end (he : e.grammar = .builtin) (hf : (buildTree e lines).Spans f)
    (h : Expanding e (buildTree e lines) f s g []) (hlog : (s.examine e).log = #[])
    {a b : List NodeId} {x : NodeId} (hsplit : (buildTree e lines).preorder = a ++ x :: b)
    (hroot : x ∈ f.roots) (hx : ((buildTree e lines).node x).endsCourse = true)
    (hb : ∀ d ∈ b, (buildTree e lines).isNamed d = false) :
    ∃ front, Fence s.tree g front x := by
  obtain ⟨ra, rb, hrow⟩ := List.append_of_mem (h.roots hroot)
  obtain ⟨front, below, rest, hforest, hfront⟩ := Forest.exists_split_of_roots hrow
  rw [hf.preorder_eq] at hsplit
  obtain ⟨horigin, hshorthand⟩ :=
    (nest_prepared e lines x).source_of_isTransfer (Node.transfer_of_endsCourse hx).1
  have hwritten := h.provenance.written
  have hnodup := h.spans.nodup_ids
  -- The command is a line that is kept as it is.
  have hkept : (s.node x).origin = .source := by
    have hmem : x ∈ g.ids.filter fun id => !(s.node id).origin.isGenerated := by
      rw [hwritten, List.mem_filter, horigin]
      exact ⟨Forest.mem_ids_of_mem_roots hroot, rfl⟩
    have hprintable := (List.mem_filter.mp hmem).2
    cases hs : (s.node x).origin with
    | source => rfl
    | header =>
      have hpending := (h.provenance.retired x hs).1
      simp only [isPendingShorthand, Bool.and_eq_true] at hpending
      rw [hshorthand] at hpending
      cases hpending.2
    | expanded | hiddenJump =>
      rw [hs] at hprintable
      cases hprintable
  refine ⟨front, ⟨below, rest, hforest⟩, ?_, fun d hd hnamed => ?_⟩
  · exact (Node.endsCourse_congr (h.provenance.source x hkept).2.1).trans hx
  · obtain ⟨hsource, -, hnamed'⟩ := h.isNamed he hf hlog hd hnamed
    have hids : g.ids = front.ids ++ x :: (below.ids ++ rest.ids) := by
      rw [hforest, Forest.ids_append, Forest.ids_node]
    have hdefines := (Tree.isNamed_iff.mp hnamed').1
    rw [hids, List.mem_append, List.mem_cons] at hd
    rcases hd with hd | rfl | hd
    · exact hd
    · rw [Node.definesLabel_of_endsCourse hx] at hdefines
      cases hdefines
    · -- A label behind the command would stand behind it in the script.
      rw [hids, List.nodup_append, List.nodup_cons] at hnodup
      have hbefore : x ∉ front.ids := fun hc => hnodup.2.2 x hc x (by simp) rfl
      have hfilter : ∀ (p : NodeId → Bool) (l l' : List NodeId), p x = true →
          (l ++ x :: l').filter p = l.filter p ++ x :: l'.filter p := by
        intro p l l' hp
        rw [List.filter_append, List.filter_cons_of_pos hp]
      rw [hids, hsplit, hfilter _ _ _ (by rw [hkept]; rfl),
        hfilter _ _ _ (by rw [horigin]; rfl)] at hwritten
      obtain ⟨-, -, hbehind⟩ :=
        (List.append_cons_inj_of_notMem (fun hc => hbefore (List.mem_of_mem_filter hc))
        (fun hc => hnodup.2.1.1 (List.mem_of_mem_filter hc))).mp hwritten
      have hdb : d ∈ (below.ids ++ rest.ids).filter fun id => !(s.node id).origin.isGenerated := by
        rw [List.mem_filter, hsource]
        exact ⟨hd, rfl⟩
      rw [hbehind] at hdb
      rw [hb d (List.mem_of_mem_filter hdb)] at hnamed'
      cases hnamed'

/-- All labels that are named stand before some command that ends a subroutine outside of all
blocks. -/
theorem Expanding.exists_fence (he : e.grammar = .builtin) (hf : (buildTree e lines).Spans f)
    (h : Expanding e (buildTree e lines) f s g []) (hlog : (s.examine e).log = #[])
    (hends : (buildTree e lines).EndsBehindLabels) {d : NodeId} {label : String} (hid : id ∈ g.ids)
    (hcalls : calledLabel? (s.node id) = some label) (hd : d ∈ g.ids)
    (hdefines : (s.node d).definesLabel = true)
    (hlabel : (s.node d).statement.label? = some label) : ∃ front x, Fence s.tree g front x := by
  by_cases hinside : ∃ d ∈ (buildTree e lines).preorder, (buildTree e lines).isNamed d = true ∧
      d ∉ ((buildTree e lines).children Tree.root).toList
  · obtain ⟨a, x, b, hsplit, hroot, hx, hb⟩ := hends hinside
    obtain ⟨front, hfence⟩ := h.fence_of_end he hf hlog hsplit (hf.top ▸ hroot) hx hb
    exact ⟨front, x, hfence⟩
  · have hroots : ∀ d ∈ g.ids, s.tree.isNamed d = true → d ∈ g.roots := by
      intro d hd hnamed
      obtain ⟨-, hmem, hnamed'⟩ := h.isNamed he hf hlog hd hnamed
      by_contra hnot
      refine hinside ⟨d, hmem, hnamed', fun hc => hnot (h.roots ?_)⟩
      rw [← hf.top]
      exact hc
    have hnamed : s.tree.isNamed d = true :=
      Tree.isNamed_iff.mpr ⟨hdefines, id, h.spans.preorder_eq ▸ hid, label,
        Node.jumpLabel?_of_calledLabel? hcalls, hlabel⟩
    exact h.fence_of_roots hlog hroots hid hcalls (hroots d hd hnamed) hdefines hlabel

end

end Session

/-! ## Paths stay before the fence -/

theorem Emitted.of_at? {part : NodeId → Part} {cmd : NodeId → Command} {g : Forest} {o : Output}
    (h : Emitted part cmd g o) {n : Nat} {c : Command} (hc : o.at? n = some c) :
    ∃ id ∈ g.ids, c = cmd id ∧ (part id).isLive = true ∧ (cmd id).number? = some n := by
  have hmem := List.mem_of_find?_eq_some hc
  have hnumber := List.find?_some hc
  rw [h.commands] at hmem
  obtain ⟨id, hid, rfl⟩ := List.mem_map.mp hmem
  have hn : (cmd id).number? = some n := beq_iff_eq.mp hnumber
  obtain ⟨a, b, hsplit⟩ := List.append_of_mem hid
  have hindex := h.index a id b hsplit
  rw [hn] at hindex
  refine ⟨id, hid, rfl, ?_, hn⟩
  by_contra hdead
  rw [if_neg hdead] at hindex
  cases hindex

section

variable {part : NodeId → Part} {cmd : NodeId → Command} {front below rest : Forest} {o : Output}
  {x id : NodeId} {n : Nat}

theorem Emitted.eq_countP {g : Forest} (h : Emitted part cmd g o) (hn : (cmd id).number? = some n)
    {a b : List NodeId} (hsplit : g.ids = a ++ id :: b) :
    (part id).isLive = true ∧ n = a.countP fun j => (part j).isLive := by
  have hindex := h.index a id b hsplit
  rw [hn] at hindex
  split at hindex
  · next hlive => exact ⟨hlive, Option.some.inj hindex⟩
  · cases hindex

theorem Emitted.number_lt (h : Emitted part cmd (front ++ rest) o) (hid : id ∈ front.ids)
    (hn : (cmd id).number? = some n) : n < front.count part := by
  obtain ⟨a, b, hsplit⟩ := List.append_of_mem hid
  obtain ⟨hlive, rfl⟩ := h.eq_countP hn (a := a) (b := b ++ rest.ids) (by simp [hsplit])
  rw [Forest.count_eq, hsplit, List.countP_append, List.countP_cons, if_pos hlive]
  omega

/-- Only the commands up to an executed one have smaller numbers. -/
theorem Emitted.mem_front (h : Emitted part cmd (front ++ .node x below rest) o)
    (hx : (part x).isLive = true) (hid : id ∈ (front ++ .node x below rest).ids)
    (hn : (cmd id).number? = some n) (hle : n ≤ front.count part) :
    id ∈ front.ids ∨ id = x := by
  rw [Forest.ids_append, Forest.ids_node, List.mem_append, List.mem_cons, ← or_assoc] at hid
  refine hid.resolve_right fun hbehind => ?_
  obtain ⟨a, b, hsplit⟩ := List.append_of_mem hbehind
  obtain ⟨-, rfl⟩ := h.eq_countP hn (a := front.ids ++ x :: a) (b := b) (by simp [hsplit])
  rw [Forest.count_eq, List.countP_append, List.countP_cons, if_pos hx] at hle
  omega

end

namespace Session

variable {e : Setting} {lines : List String} {g front : Forest} {s p q : Session} {id x : NodeId}

/-- What ends a subroutine is a plain command. -/
theorem Finished.part_of_endsCourse (h : Finished e lines g s p q) (hid : id ∈ g.ids)
    (hends : (s.node id).endsCourse = true) : p.tree.part id = .plain := by
  obtain ⟨f, hf, hexpanding⟩ := h.expanding
  obtain ⟨htransfer, -, hcommented⟩ := Node.transfer_of_endsCourse hends
  obtain ⟨hsource, hshorthand⟩ := (hexpanding.prepared id).source_of_isTransfer htransfer
  have hstatement : (p.tree.node id).statement = (s.node id).statement :=
    (h.examined.alike.statement_eq id).symm
  have horigin : (p.tree.node id).origin = .source :=
    (h.examined.alike.origin_eq id).symm.trans hsource
  have hlive : (p.tree.node id).isLive = true :=
    (h.examined.alike.isLive_eq id).symm.trans
      ((hexpanding.prepared id).isLive_of_form (.inr htransfer) hcommented)
  have hmem : id ∈ p.tree.preorder := by
    rw [(hexpanding.spans.alike h.examined.alike).preorder_eq]
    exact hid
  rw [← hstatement] at htransfer hshorthand
  have hforms : ∀ form : FormId, form.isTransfer = true →
      form.hasMeaning = true ∧ form ≠ FormId.breakLoop ∧ form ≠ FormId.continueLoop := by
    intro form hform
    simp only [FormId.isTransfer, Bool.or_eq_true, beq_iff_eq] at hform
    rcases hform with ((rfl | rfl) | rfl) | rfl <;> decide
  obtain ⟨hmeaning, hbreak, hcontinue⟩ := hforms _ htransfer
  have hrole : (p.tree.node id).statement.role = .plain := by
    rcases h.linkable.acts id hmem hlive with ⟨hp, -⟩ | ⟨-, -, hexecuted, hloop⟩
    · rw [Node.part, horigin] at hp
      exact absurd hp (Statement.part_ne_jump _)
    · cases hexecuted with
      | test _ _ _ hform =>
        rw [hmeaning] at hform
        cases hform
      | exit hform _ =>
        rcases hform with ⟨hform, -⟩ | ⟨hform, -⟩
        · exact absurd hform hbreak
        · exact absurd hform hcontinue
      | labelJump _ hrole _ _ => exact hrole
      | waiting hform _ =>
        rw [hloop] at hform
        cases hform
      | plain hrole _ _ _ => exact hrole
  rw [Tree.part, Node.part, horigin, Statement.part, hrole, hshorthand]
  rfl

/-- The label that a jump names is defined, and the jump leads to its definition. -/
theorem Finished.label_defined (h : Finished e lines g s p q) (hid : id ∈ g.ids)
    (hlive : (p.tree.node id).isLive = true)
    (hform : (p.tree.node id).statement.form = FormId.gotoLabel ∨
      (p.tree.node id).statement.form = FormId.gosub) :
    ∃ label a d b, (s.node id).statement.label? = some label ∧ g.ids = a ++ d :: b ∧
      (s.node d).definesLabel = true ∧ (s.node d).statement.label? = some label ∧
      ∃ target : UInt16, (q.node id).returnValue = none ∧ (q.node id).jump = some target ∧
        target.toNat = a.countP fun j => (p.tree.part j).isLive := by
  obtain ⟨f, hf, hexpanding⟩ := h.expanding
  have hspans := hexpanding.spans.alike h.examined.alike
  have hstatement : ∀ j, (p.tree.node j).statement = (s.node j).statement :=
    fun j => (h.examined.alike.statement_eq j).symm
  have hmem : id ∈ p.tree.preorder := by
    rw [hspans.preorder_eq]
    exact hid
  have halways : jumpsAlways (p.tree.node id).statement.form = true := by
    rcases hform with hform | hform <;> rw [hform] <;> rfl
  obtain ⟨hlabel, hslot⟩ : (p.tree.node id).statement.label?.isSome = true ∧
      (p.tree.node id).statement.returnSlot? = none := by
    rcases h.linkable.jumps_cases hmem hlive (.inr halways) with ⟨-, htransfer⟩ | ⟨-, hlabel, hslot⟩
    · rcases hform with hform | hform <;> rw [hform] at htransfer <;> cases htransfer
    · exact ⟨hlabel, hslot⟩
  obtain ⟨label, hlabel⟩ := Option.isSome_iff_exists.mp hlabel
  obtain ⟨a, d, b, hsplit, hdefines, hdlabel, hleads⟩ :=
    h.examined.leadsTo?_label hexpanding hmem hlive hform hlabel
  rw [hspans.preorder_eq] at hsplit
  have hqstatement : (q.node id).statement = (p.tree.node id).statement :=
    (h.frame.alike.statement_eq id).symm
  obtain ⟨target, hvalue, hjump, hdest⟩ := (h.settled id hid).of_jumpsAlways
    ((h.frame.alike.isLive_eq id).symm.trans hlive) (hqstatement ▸ hslot) (hqstatement ▸ halways)
  have hcount : p.tree.liveCount a = a.countP fun j => (p.tree.part j).isLive :=
    List.countP_congr fun j _ => by rw [(h.linkable.regular j).live]; rfl
  rw [hleads, hcount] at hdest
  exact ⟨label, a, d, b, (congrArg Statement.label? (hstatement id)).symm.trans hlabel, hsplit,
    (Node.definesLabel_congr (hstatement d)).symm.trans hdefines,
    (congrArg Statement.label? (hstatement d)).symm.trans hdlabel, target, hvalue, hjump,
    (Option.some.inj hdest).symm⟩

/-- A jump to a label leads before the fence. -/
theorem Finished.label_lt (h : Finished e lines g s p q) (hfence : Fence s.tree g front x)
    (hid : id ∈ g.ids) (hlive : (p.tree.node id).isLive = true)
    (hform : (p.tree.node id).statement.form = FormId.gotoLabel ∨
      (p.tree.node id).statement.form = FormId.gosub) :
    ∃ d : UInt16, (q.node id).returnValue = none ∧ (q.node id).jump = some d ∧
      d.toNat < front.count p.tree.part := by
  obtain ⟨label, a, d, b, hlabel, hsplit, hdefines, hdlabel, target, hvalue, hjump, htarget⟩ :=
    h.label_defined hid hlive hform
  obtain ⟨f, hf, hexpanding⟩ := h.expanding
  refine ⟨target, hvalue, hjump, ?_⟩
  -- The label is named, so that it stands before the fence.
  have hnames : (s.tree.node id).jumpLabel? = some label := by
    have hstatement : (s.tree.node id).statement = (p.tree.node id).statement :=
      h.examined.alike.statement_eq id
    simp only [Node.isLive, Bool.and_eq_true, Bool.not_eq_true', ← hstatement] at hlive hform
    rw [Node.jumpLabel?, if_pos]
    · exact hlabel
    · rcases hform with hform | hform <;> simp [Node.is, hlive.2, hform]
  have hnamed : s.tree.isNamed d = true :=
    Tree.isNamed_iff.mpr ⟨hdefines, id, hexpanding.spans.preorder_eq ▸ hid, label, hnames, hdlabel⟩
  have hfront := hfence.named d (by simp [hsplit]) hnamed
  have hdlive : (p.tree.part d).isLive = true := by
    obtain ⟨hdform, hdcommented⟩ := Node.form_of_definesLabel hdefines
    rw [Tree.part, ← (h.linkable.regular d).live]
    exact (h.examined.alike.isLive_eq d).symm.trans
      ((hexpanding.prepared d).isLive_of_form (.inl hdform) hdcommented)
  have hindex := h.emitted.index a d b hsplit
  rw [if_pos hdlive] at hindex
  obtain ⟨below, rest, rfl⟩ := hfence.split
  rw [htarget]
  exact h.emitted.number_lt hfront hindex

/-- The flow of control never gets behind the fence. -/
theorem Finished.flows_le (h : Finished e lines g s p q) (hfence : Fence s.tree g front x)
    {n m : Nat} (hn : n ≤ front.count p.tree.part) (hflows : (Output.ofSession q.emit).Flows n m) :
    m ≤ front.count p.tree.part := by
  obtain ⟨below, rest, hsplit⟩ := hfence.split
  have hxmem : x ∈ g.ids := by simp [hsplit]
  have hx : p.tree.part x = .plain := h.part_of_endsCourse hxmem hfence.ends
  obtain ⟨c, hat, hendsub, hleave, hcases⟩ := hflows
  obtain ⟨id, hid, rfl, hlive, hnumber⟩ := h.emitted.of_at? hat
  have hplive : (p.tree.node id).isLive = true := (h.linkable.regular id).live.trans hlive
  have hqlive : (q.node id).isLive = true := (h.frame.alike.isLive_eq id).symm.trans hplive
  have hqstatement : (q.node id).statement = (p.tree.node id).statement :=
    (h.frame.alike.statement_eq id).symm
  have hcform : (q.commandOf (Order.of q.tree) id).form = (p.tree.node id).statement.form :=
    congrArg Statement.form hqstatement
  rw [hcform] at hendsub hleave hcases
  -- Of the commands that end a subroutine only a jump goes on.
  have hfence_form : id = x → (p.tree.node id).statement.form = FormId.gotoLabel := by
    rintro rfl
    have hends := hfence.ends
    rw [Node.endsCourse_congr (h.examined.alike.statement_eq id)] at hends
    simp only [Node.endsCourse, Node.is, Bool.or_eq_true, Bool.and_eq_true, beq_iff_eq] at hends
    rcases hends with (⟨-, hform⟩ | ⟨-, hform⟩) | ⟨-, hform⟩
    · exact absurd hform hendsub
    · exact absurd hform hleave
    · exact hform
  have hfront : (p.tree.node id).statement.form ≠ FormId.gotoLabel → id ∈ front.ids ∧
      n < front.count p.tree.part := by
    intro hform
    have hemitted := h.emitted
    rw [hsplit] at hemitted hid
    rcases hemitted.mem_front (by rw [hx]; rfl) hid hnumber hn with hmem | rfl
    · exact ⟨hmem, hemitted.number_lt hmem hnumber⟩
    · exact absurd (hfence_form rfl) hform
  rcases hcases with ⟨hgosub, rfl⟩ | ⟨hgosub, answer, rfl⟩
  · exact (hfront (by rw [hgosub]; decide)).2
  · by_cases hgoto : (p.tree.node id).statement.form = FormId.gotoLabel
    · obtain ⟨d, hvalue, hjump, hlt⟩ := h.label_lt hfence hid hplive (.inl hgoto)
      rw [Command.follow_of_jump (c := q.commandOf (Order.of q.tree) id) hvalue hjump]
      exact Nat.le_of_lt hlt
    · obtain ⟨hmem, hlt⟩ := hfront hgoto
      rcases (h.settled id hid).follow_cases (c := q.commandOf (Order.of q.tree) id) hqlive rfl rfl
        n answer with
        hnext | ⟨hdest, hjumps⟩
      · rw [hnext]
        exact hlt
      · rw [hqstatement] at hjumps
        have horder : id ∈ p.tree.preorder := by
          obtain ⟨f, hf, hexpanding⟩ := h.expanding
          rw [(hexpanding.spans.alike h.examined.alike).preorder_eq]
          exact hid
        rcases h.linkable.jumps_cases horder hplive hjumps with ⟨hpart, -⟩ | ⟨hform, -⟩
        · have hblock := h.emitted.block
          have hlinked := h.linked
          rw [hsplit] at hblock hlinked
          exact hblock.dest_le hx hlinked (Nat.le_of_eq (Nat.zero_add _)) (by simp) hmem hpart hdest
        · rcases hform with hform | hform
          · exact absurd hform hgoto
          · exact absurd hform hgosub

theorem Finished.path_le (h : Finished e lines g s p q) (hfence : Fence s.tree g front x)
    {n m : Nat} (hn : n ≤ front.count p.tree.part) (hpath : (Output.ofSession q.emit).Path n m) :
    m ≤ front.count p.tree.part := by
  induction hpath with
  | refl => exact hn
  | tail _ hflows ih => exact h.flows_le hfence ih hflows

theorem Finished.fence_lt (h : Finished e lines g s p q) (hfence : Fence s.tree g front x) :
    front.count p.tree.part < (Output.ofSession q.emit).standardCount := by
  obtain ⟨below, rest, rfl⟩ := hfence.split
  have hx := h.part_of_endsCourse (by simp) hfence.ends
  rw [h.emitted.count, Forest.count_append, Forest.count, hx]
  simp only [Part.isLive, Bool.toNat_true]
  omega

end Session

/-- A called subroutine does not run off the script: no way through the commands leads from the
label of a call to the end of the script unless it executes an `endsub` or a `return`. If a label
inside of a block is named, an `endsub`, a `return` or a `goto` stands outside of all blocks behind
all labels that are named. -/
theorem subroutines_come_to_an_end (v : Version) (arguments : List String)
    (objects : Option ObjectLibrary) (lines : List String) (o : Output)
    (hcompile : compile ⟨.builtin, v, arguments, objects⟩ lines = .ok o)
    (hok : o.isSuccessful = true)
    (hlabels : (buildTree ⟨.builtin, v, arguments, objects⟩ lines).EndsBehindLabels) (c : Command)
    (hc : c ∈ o.commands.toList) (hform : c.form = FormId.gosub) (hindex : c.index.isSome = true) :
    ∃ d, c.jump = some d ∧ ¬ o.Path d.toNat o.standardCount := by
  obtain ⟨g, s, q, _, rfl, hfinished, -⟩ :=
    finished_of_compile (e := ⟨.builtin, v, arguments, objects⟩) builtin_lawful hcompile hok
  have hlog : (s.examine ⟨.builtin, v, arguments, objects⟩).log = #[] :=
    hfinished.frame.log.symm.trans (Array.isEmpty_iff.mp hok)
  obtain ⟨f, hf, hexpanding⟩ := hfinished.expanding
  have hemitted := hfinished.emitted
  rw [hemitted.commands] at hc
  obtain ⟨id, hid, rfl⟩ := List.mem_map.mp hc
  -- The call is executed and names a label that is defined.
  have hlive : ((s.examine ⟨.builtin, v, arguments, objects⟩).tree.node id).isLive = true := by
    obtain ⟨n, hn⟩ := Option.isSome_iff_exists.mp hindex
    obtain ⟨a, b, hsplit⟩ := List.append_of_mem hid
    have hnumber : (q.commandOf (Order.of q.tree) id).number? = some n.toNat :=
      congrArg (Option.map UInt16.toNat) hn
    exact (hfinished.linkable.regular id).live.trans (hemitted.eq_countP hnumber hsplit).1
  have hgosub : ((s.examine ⟨.builtin, v, arguments, objects⟩).tree.node id).statement.form =
      FormId.gosub :=
    (congrArg Statement.form (hfinished.frame.alike.statement_eq id)).trans hform
  obtain ⟨label, a, d, b, hlabel, hsplit, hdefines, hdlabel, -⟩ :=
    hfinished.label_defined hid hlive (.inr hgosub)
  have hcalls : Session.calledLabel? (s.node id) = some label := by
    have hstatement := hfinished.examined.alike.statement_eq id
    simp only [Node.isLive, Bool.and_eq_true, Bool.not_eq_true', ← hstatement] at hlive hgosub
    rw [Session.calledLabel?, if_pos]
    · exact hlabel
    · simp [Node.is, Session.node, hlive.2, hgosub]
  obtain ⟨front, x, hfence⟩ :=
    hexpanding.exists_fence rfl hf hlog hlabels hid hcalls (by simp [hsplit]) hdefines hdlabel
  obtain ⟨target, -, hjump, hlt⟩ := hfinished.label_lt hfence hid hlive (.inr hgosub)
  refine ⟨target, hjump, fun hpath => ?_⟩
  exact Nat.not_le_of_lt (hfinished.fence_lt hfence)
    (hfinished.path_le hfence (Nat.le_of_lt hlt) hpath)

/-- A script whose subroutine holds a loop with a label of its own. -/
def loopingSubroutine : List String :=
  ["gosub Sub:", "return null", "Sub:", "while $x", "Again:", "goto label Again:", "end", "endsub"]

set_option maxRecDepth 20000 in
theorem loopingSubroutine_evaluates :
    ((buildTree ⟨.builtin, .albionPrelude, [], none⟩ loopingSubroutine).preorder =
      [1, 2, 3, 4, 5, 6, 8, 7, 9] ∧
      9 ∈ ((buildTree ⟨.builtin, .albionPrelude, [], none⟩ loopingSubroutine).children
        Tree.root).toList ∧
      ((buildTree ⟨.builtin, .albionPrelude, [], none⟩ loopingSubroutine).node 9).endsCourse =
        true) ∧
    (compile ⟨.builtin, .albionPrelude, [], none⟩ loopingSubroutine).toOption.any (fun o =>
      o.isSuccessful && o.commands.toList.any fun c => c.form == FormId.gosub && c.index.isSome) =
        true := by
  rw [Grammar.builtin_eq]
  decide +kernel

/-- The label inside of the loop is named, but an `endsub` stands behind it. -/
theorem loopingSubroutine_comes_to_an_end :
    (buildTree ⟨.builtin, .albionPrelude, [], none⟩ loopingSubroutine).EndsBehindLabels ∧
      ∃ o c, compile ⟨.builtin, .albionPrelude, [], none⟩ loopingSubroutine = .ok o ∧
        o.isSuccessful = true ∧
        c ∈ o.commands.toList ∧ c.form = FormId.gosub ∧ c.index.isSome = true ∧
        ∃ d, c.jump = some d ∧ ¬ o.Path d.toNat o.standardCount := by
  obtain ⟨⟨hpreorder, hroot, hends⟩, heval⟩ := loopingSubroutine_evaluates
  have hlabels : (buildTree ⟨.builtin, .albionPrelude, [],
      none⟩ loopingSubroutine).EndsBehindLabels :=
    fun _ => ⟨[1, 2, 3, 4, 5, 6, 8, 7], 9, [], hpreorder, hroot, hends, by simp⟩
  refine ⟨hlabels, ?_⟩
  obtain ⟨o, hcompile, htests⟩ := exists_ok_of_any heval
  simp only [Bool.and_eq_true, List.any_eq_true, beq_iff_eq] at htests
  obtain ⟨hok, c, hc, hform, hindex⟩ := htests
  exact ⟨o, c, hcompile, hok, hc, hform, hindex,
    subroutines_come_to_an_end .albionPrelude [] none loopingSubroutine o hcompile hok hlabels c hc
      hform hindex⟩

/-! ## A label inside of a block -/

/-- A script that calls a label inside of a branch. -/
def nestedSubroutine : List String := ["gosub Sub:", "if $x", "Sub:", "$a = 1", "end"]

set_option maxRecDepth 20000 in
theorem nestedSubroutine_evaluates :
    (compile ⟨.builtin, .albionPrelude, [], none⟩ nestedSubroutine).toOption.any (fun o =>
      o.isSuccessful && o.standardCount == 4 &&
        (o.commands.toList.any fun c => c.form == FormId.gosub && c.index.isSome &&
          c.jump == some 2) &&
        [2, 3].all fun n => (o.at? n).any fun c =>
          c.form != FormId.endsub && c.form != FormId.leaveScript && c.form != FormId.gosub &&
            c.follow n true == n + 1) = true := by
  rw [Grammar.builtin_eq]
  decide +kernel

/-- The check of subroutines says nothing about a label inside of a block: the script compiles, and
its subroutine runs off the script. -/
theorem nestedSubroutine_runs_off :
    ∃ o c d, compile ⟨.builtin, .albionPrelude, [], none⟩ nestedSubroutine = .ok o ∧
      o.isSuccessful = true ∧
      c ∈ o.commands.toList ∧ c.form = FormId.gosub ∧ c.index.isSome = true ∧ c.jump = some d ∧
      o.Path d.toNat o.standardCount := by
  obtain ⟨o, hcompile, htests⟩ := exists_ok_of_any nestedSubroutine_evaluates
  simp only [Bool.and_eq_true, List.any_eq_true, List.all_eq_true, beq_iff_eq, bne_iff_ne,
    Option.any_eq_true] at htests
  obtain ⟨⟨⟨hok, hcount⟩, c, hc, ⟨hform, hindex⟩, hjump⟩, hplaces⟩ := htests
  have hflows : ∀ n ∈ [2, 3], o.Flows n (n + 1) := by
    intro n hn
    obtain ⟨command, hat, ⟨⟨hendsub, hleave⟩, hgosub⟩, hfollow⟩ := hplaces n hn
    exact ⟨command, hat, hendsub, hleave, .inr ⟨hgosub, true, hfollow.symm⟩⟩
  refine ⟨o, c, 2, hcompile, hok, hc, hform, hindex, hjump, ?_⟩
  rw [hcount]
  exact .tail (.single (hflows 2 (by simp))) (hflows 3 (by simp))

end GameScript
