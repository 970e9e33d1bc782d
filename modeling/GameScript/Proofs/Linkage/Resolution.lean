import GameScript.Proofs.Linkage.Destinations
import GameScript.Proofs.Symbols.Table

/-!
# What the resolution does

`Session.Settling` says what one step of the resolution does to a session, whether problems were
reported or not. From it follows what a whole run does to the nodes and symbols: the variables stay
as they are (`resolve_rolls`), and every executed assignment gets the number of its variable
(`resolve_assigns`).
-/

namespace GameScript

/-- The return value has the conditional. If this neither assigns nor jumps, the return value leads
nowhere. -/
def ReturnValue.Suits (v : ReturnValue) (conditional : Conditional) : Prop :=
  ∃ d, v = .of conditional d ∧ (conditional ≠ .assign → conditional.isJump = false → d = 0)

namespace Session

/-- What one step of the resolution does. -/
inductive Settling (s : Session) (id : NodeId) : Session → Prop
  /-- The node is not executed. -/
  | idle (hlive : (s.node id).isLive = false) : Settling s id s
  /-- The node defines a label, which gets its index. -/
  | label (hlive : (s.node id).isLive = true) (hlabel : (s.node id).is FormId.defineLabel = true) :
      Settling s id (s.placeLabel id)
  /-- The node has a return slot, which gets a return value. -/
  | value (hlive : (s.node id).isLive = true) (hlabel : (s.node id).is FormId.defineLabel = false)
      (hslot : (s.node id).statement.returnSlot?.isSome = true) {v : ReturnValue}
      (hv : s.returnValueOf id = .ok v) :
      Settling s id (s.modify id fun n => { n with returnValue := some v })
  /-- The node always jumps. -/
  | jump (hlive : (s.node id).isLive = true) (hlabel : (s.node id).is FormId.defineLabel = false)
      (hslot : (s.node id).statement.returnSlot? = none) {d : UInt16}
      (hd : s.destination id = .ok d) :
      Settling s id (s.modify id fun n => { n with jump := some d })
  /-- There is nothing to tell about the node. -/
  | plain (hlive : (s.node id).isLive = true) (hlabel : (s.node id).is FormId.defineLabel = false)
      (hslot : (s.node id).statement.returnSlot? = none) : Settling s id s

theorem settling_of_resolveNode {s s' : Session} {id : NodeId} (h : s.resolveNode id = .ok s') :
    Settling s id s' := by
  unfold resolveNode at h
  dsimp only at h
  split at h
  · next hdead =>
    obtain rfl := Except.ok.inj h
    exact .idle (by simpa using hdead)
  · next hlive =>
    replace hlive : (s.node id).isLive = true := by simpa using hlive
    split at h
    · next hlabel =>
      obtain rfl := Except.ok.inj h
      exact .label hlive hlabel
    · next hlabel =>
      replace hlabel : (s.node id).is FormId.defineLabel = false := by simpa using hlabel
      split at h
      · next hslot =>
        obtain ⟨v, hv, h⟩ := bind_eq_ok_iff.mp h
        obtain rfl := Except.ok.inj h
        exact .value hlive hlabel hslot hv
      · next hslot =>
        replace hslot : (s.node id).statement.returnSlot? = none := by simpa using hslot
        split at h
        · obtain ⟨d, hd, h⟩ := bind_eq_ok_iff.mp h
          obtain rfl := Except.ok.inj h
          exact .jump hlive hlabel hslot hd
        · obtain rfl := Except.ok.inj h
          exact .plain hlive hlabel hslot

namespace Settling

variable {s s' : Session} {id : NodeId}

theorem frame (h : Settling s id s') : Frame s s' := by
  cases h with
  | idle => exact .refl s
  | plain => exact .refl s
  | label => exact (Frame.placeLabel s id).1
  | value => exact .modify _ _ (fun _ => ⟨rfl, rfl, rfl, rfl, rfl, rfl⟩) fun _ => ⟨rfl, rfl⟩
  | jump => exact .modify _ _ (fun _ => ⟨rfl, rfl, rfl, rfl, rfl, rfl⟩) fun _ => ⟨rfl, rfl⟩

theorem node_eq (h : Settling s id s') {j : NodeId} (hj : j ≠ id) : s'.node j = s.node j := by
  cases h with
  | idle => rfl
  | plain => rfl
  | label => rw [node, (Frame.placeLabel s id).2]; rfl
  | value => exact Tree.node_modify_of_ne s.tree _ (Ne.symm hj)
  | jump => exact Tree.node_modify_of_ne s.tree _ (Ne.symm hj)

theorem rolls (h : Settling s id s') {arguments names : List String}
    (hs : s.symbols.Rolls arguments names) :
    s'.symbols.Rolls arguments names := by
  cases h with
  | idle => exact hs
  | plain => exact hs
  | value => exact hs
  | jump => exact hs
  | label =>
    unfold placeLabel
    dsimp only
    split
    · split
      · exact hs.modifyLabel _ fun _ => rfl
      · exact hs
    · exact hs

end Settling

variable {s s' : Session} {id : NodeId}

/-- The passes end with linking, resolving and emitting. -/
theorem runPasses_ok {e : Setting} (h : s.runPasses e = .ok s') :
    ∃ u q, (s.examine e).link = .ok u ∧ u.resolve = .ok q ∧ s' = q.emit := by
  rw [runPasses_eq] at h
  obtain ⟨u, hlink, h⟩ := bind_eq_ok_iff.mp h
  obtain ⟨q, hresolve, h⟩ := bind_eq_ok_iff.mp h
  exact ⟨u, q, hlink, hresolve, (Except.ok.inj h).symm⟩

/-- The passes of a session that was emitted: what is linked and then resolved has its symbols and
its tree. -/
theorem runPasses_emit {e : Setting} {q : Session} (h : s.runPasses e = .ok q.emit) :
    ∃ u q', (s.examine e).link = .ok u ∧ u.resolve = .ok q' ∧ q.symbols = q'.symbols ∧
      q.tree = q'.tree := by
  obtain ⟨u, q', hlink, hresolve, hemit⟩ := runPasses_ok h
  exact ⟨u, q', hlink, hresolve, (congrArg Session.symbols hemit : q.emit.symbols =
    q'.emit.symbols),
    (congrArg Session.tree hemit : q.emit.tree = q'.emit.tree)⟩

/-- Linking changes the targets of nodes and notes errors, and nothing else. -/
theorem linkNode_cases {o : Order} (h : linkNode o s id = .ok s') : s' = s ∨
    ∃ f : Node → Node, s' = s.modify id f ∧ ∀ n : Node, n.Alike (f n) ∧
      (f n).returnValue = n.returnValue := by
  unfold linkNode at h
  dsimp only at h
  split at h
  · exact .inl (Except.ok.inj h).symm
  · split at h
    · exact .inl (Except.ok.inj h).symm
    · exact .inr ⟨_, (Except.ok.inj h).symm, fun _ => ⟨⟨rfl, rfl, rfl, rfl, rfl, rfl⟩, rfl⟩⟩
    · split at h
      · exact .inr ⟨_, (Except.ok.inj h).symm, fun _ => ⟨⟨rfl, rfl, rfl, rfl, rfl, rfl⟩, rfl⟩⟩
      · cases h

/-- Linking leaves the symbols, the labels and the return values alone, and the tree alike. -/
theorem link_names (h : s.link = .ok s') : s'.symbols = s.symbols ∧ s'.labels = s.labels ∧
    s.tree.Alike s'.tree ∧ ∀ id, (s'.node id).returnValue = (s.node id).returnValue := by
  refine foldlM_induction (I := fun _ u => u.symbols = s.symbols ∧ u.labels = s.labels ∧
    s.tree.Alike u.tree ∧
    ∀ id, (u.node id).returnValue = (s.node id).returnValue) h ⟨rfl, rfl, .refl _, fun _ => rfl⟩ ?_
  intro done id rest u u' _ hu hstep
  rcases linkNode_cases hstep with rfl | ⟨f, rfl, hf⟩
  · exact hu
  · obtain ⟨hsymbols, hlabels, halike, hvalue⟩ := hu
    refine ⟨hsymbols, hlabels, halike.trans (.modify _ id fun n => (hf n).1), fun j => ?_⟩
    exact (Tree.read_modify u.tree id j Node.returnValue fun n => (hf n).2).trans (hvalue j)

theorem resolve_rolls (h : s.resolve = .ok s') {arguments names : List String}
    (hs : s.symbols.Rolls arguments names) : s'.symbols.Rolls arguments names :=
  foldlM_induction (I := fun _ u => u.symbols.Rolls arguments names) h hs
    fun _ _ _ _ _ _ hu hstep => (settling_of_resolveNode hstep).rolls hu

structure Assigning (p : Session) (done : List NodeId) (s : Session) : Prop extends Frame p s where
  value : ∀ id ∈ done, (p.node id).isLive = true → (p.node id).is FormId.defineLabel = false →
    (p.node id).statement.returnSlot?.isSome = true → (p.node id).statement.conditional = .assign →
    ∀ token symbol, (p.node id).statement.assigned? = some token →
      p.symbols.findVariable? token.value = some symbol →
      (s.node id).returnValue = some (.assignment symbol.id)

/-- An executed assignment gets the number of its variable. -/
theorem resolve_assigns {f : Forest} (hf : s.tree.Spans f) (h : s.resolve = .ok s') :
    Assigning s s.tree.preorder s' := by
  refine foldlM_induction h ⟨.refl s, by simp⟩ ?_
  intro done id rest u u' hsplit hu hstep
  have hsettling := settling_of_resolveNode hstep
  refine ⟨hu.toFrame.trans hsettling.frame, ?_⟩
  intro j hj hlive hlabel hslot hassign token symbol htoken hfind
  by_cases hne : j = id
  · subst hne
    have hstatement : (u.node j).statement = (s.node j).statement := (hu.alike.statement_eq j).symm
    have hlive' : (u.node j).isLive = true := (hu.alike.isLive_eq j).symm.trans hlive
    have hlabel' : (u.node j).is FormId.defineLabel = false := by
      rw [Node.is, hstatement]
      exact hlabel
    have hbound : j < u.tree.size := by
      rw [← hu.alike.size, hf.covers, ← hf.preorder_eq, hsplit]
      simp
    cases hsettling with
    | idle hdead => cases hlive'.symm.trans hdead
    | label _ hc => cases hlabel'.symm.trans hc
    | jump _ _ hc => rw [hstatement] at hc; rw [hc] at hslot; cases hslot
    | plain _ _ hc => rw [hstatement] at hc; rw [hc] at hslot; cases hslot
    | @value _ _ _ v hv =>
      have hvalue : u.returnValueOf j = .ok (.assignment symbol.id) := by
        have hfind' : u.symbols.findVariable? token.value = some symbol := by
          rw [SymbolTable.findVariable?_congr hu.vars.1 hu.vars.2]
          exact hfind
        simp only [returnValueOf, hstatement, hassign, if_true, htoken, Option.bind_some, hfind']
      obtain rfl := Except.ok.inj (hv.symm.trans hvalue)
      exact congrArg Node.returnValue (Tree.node_modify_self u.tree _ hbound)
  · rw [hsettling.node_eq hne]
    have hdone : j ∈ done := by
      rcases List.mem_append.mp hj with hj | hj
      · exact hj
      · exact absurd (List.mem_singleton.mp hj) hne
    exact hu.value j hdone hlive hlabel hslot hassign token symbol htoken hfind

theorem returnValueOf_suits {v : ReturnValue} (h : s.returnValueOf id = .ok v) :
    v.Suits (s.node id).statement.conditional := by
  unfold returnValueOf at h
  dsimp only at h
  split at h
  · next hassign =>
    rw [hassign]
    split at h
    · exact ⟨_, (Except.ok.inj h).symm, fun hne => absurd rfl hne⟩
    · split at h
      · exact ⟨_, (Except.ok.inj h).symm, fun hne => absurd rfl hne⟩
      · cases h
  · split at h
    · next hjump =>
      obtain ⟨d, -, h⟩ := bind_eq_ok_iff.mp h
      refine ⟨d, (Except.ok.inj h).symm, fun _ hnot => ?_⟩
      cases hjump.symm.trans hnot
    · exact ⟨0, (Except.ok.inj h).symm, fun _ _ => rfl⟩

/-- The return values after the resolution suit their statements. -/
theorem resolve_values {f : Forest} (hf : s.tree.Spans f) (h : s.resolve = .ok s')
    (hnone : ∀ id, (s.node id).returnValue = none) {v : ReturnValue}
    (hv : (s'.node id).returnValue = some v) :
    v.Suits (s.node id).statement.conditional := by
  suffices hrun : Frame s s' ∧ ∀ id v, (s'.node id).returnValue = some v →
      v.Suits (s.node id).statement.conditional from hrun.2 id v hv
  refine foldlM_induction (I := fun _ u => Frame s u ∧ ∀ id v, (u.node id).returnValue = some v →
    v.Suits (s.node id).statement.conditional) h ⟨.refl s, fun id v hv => ?_⟩ ?_
  · cases (hnone id).symm.trans hv
  intro done id rest u u' hsplit hu hstep
  obtain ⟨hframe, hvalues⟩ := hu
  have hsettling := settling_of_resolveNode hstep
  refine ⟨hframe.trans hsettling.frame, fun j v hv => ?_⟩
  by_cases hne : j = id
  · subst hne
    have hbound : j < u.tree.size := by
      rw [← hframe.alike.size, hf.covers, ← hf.preorder_eq, hsplit]
      simp
    cases hsettling with
    | idle => exact hvalues j v hv
    | plain => exact hvalues j v hv
    | label =>
      rw [node, (Frame.placeLabel u j).2] at hv
      exact hvalues j v hv
    | @jump _ _ _ d _ =>
      have hread : ((u.tree.modify j fun n => { n with jump := some d }).node j).returnValue =
          (u.node j).returnValue :=
        Tree.read_modify u.tree j j Node.returnValue fun _ => rfl
      exact hvalues j v (hread.symm.trans hv)
    | @value _ _ _ w hw =>
      have hself : some w = some v :=
        (congrArg Node.returnValue (Tree.node_modify_self u.tree _ hbound)).symm.trans hv
      obtain rfl := Option.some.inj hself
      have hstatement : (u.node j).statement = (s.node j).statement :=
        (hframe.alike.statement_eq j).symm
      rw [← hstatement]
      exact returnValueOf_suits hw
  · rw [hsettling.node_eq hne] at hv
    exact hvalues j v hv

end Session

end GameScript
