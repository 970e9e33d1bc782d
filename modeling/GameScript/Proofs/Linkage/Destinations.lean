import GameScript.Proofs.Fallible
import GameScript.Proofs.Linkage.Targets

/-!
# Destinations of jumps

Linking and resolving never fail. If problems were reported they may leave jumps open
(`link_of_hasProblems`, `resolve_of_hasProblems`); otherwise every jump has a target with a number
(`Aimed`), and each node ends up with what the engine needs to go on (`Settles`,
`Aimed.link_resolve_ok`).
-/

namespace GameScript

/-! ## Trees of the same structure have the same targets -/

namespace Tree.Akin

variable {t u : Tree}

theorem lastOfSubtree_eq (h : t.Akin u) : t.lastOfSubtree = u.lastOfSubtree := by
  have hdescend : ∀ (steps : Nat) (id : NodeId), t.descend steps id = u.descend steps id := by
    intro steps
    induction steps with
    | zero => exact fun _ => rfl
    | succ steps ih =>
      intro id
      simp only [descend, h.lastChild?_eq, ih]
  funext id
  simp only [lastOfSubtree, h.size, hdescend]

theorem chainEnd?_eq (h : t.Akin u) (steps : Nat) (id : NodeId) :
    t.chainEnd? steps id = u.chainEnd? steps id := by
  induction steps generalizing id with
  | zero => rfl
  | succ steps ih => simp only [chainEnd?, h.isClosed_eq, h.next?_eq, h.role_eq, ih]

theorem target?_eq (h : t.Akin u) (o : Order) (labels : Std.TreeMap String NodeId) (id : NodeId) :
    t.target? o labels id = u.target? o labels id := by
  have hafter : o.afterSubtree t = o.afterSubtree u := by
    funext id
    simp only [Order.afterSubtree, h.lastOfSubtree_eq]
  have hchain : t.chainEnd? = u.chainEnd? := by
    funext steps id
    exact h.chainEnd?_eq steps id
  have htest : t.testTarget? = u.testTarget? := by
    funext o id
    simp only [testTarget?, h.isClosed_eq, h.next?_eq, h.role_eq, Order.afterSubtree,
      h.lastOfSubtree_eq]
  have hhidden : t.hiddenTarget? o id = u.hiddenTarget? o id := by
    simp only [hiddenTarget?, h.parent?_eq, h.role_eq, h.size, hchain, hafter]
  have hrole : (t.node id).role = (u.node id).role := congrFun h.role_eq id
  simp only [target?, h.form_eq, h.label?_eq, hrole, hhidden, htest, hafter, h.enclosingLoop?_eq]

end Tree.Akin

namespace Session

/-! ## What linking and resolving leave as it is -/

/-- The shape, the numbers, the expressions, the log, the labels and the variables are as they
were. -/
structure Frame (s s' : Session) : Prop where
  alike : s.tree.Alike s'.tree
  index : ∀ id, (s'.node id).index = (s.node id).index
  evalOrder : ∀ id, (s'.node id).evalOrder = (s.node id).evalOrder
  log : s'.log = s.log
  labels : s'.labels = s.labels
  standardCount : s'.standardCount = s.standardCount
  vars : s'.symbols.vars = s.symbols.vars ∧ s'.symbols.varPlaces = s.symbols.varPlaces

namespace Frame

variable {s s' s'' : Session}

theorem refl (s : Session) : Frame s s :=
  ⟨.refl _, fun _ => rfl, fun _ => rfl, rfl, rfl, rfl, rfl, rfl⟩

theorem trans (h : Frame s s') (h' : Frame s' s'') : Frame s s'' :=
  ⟨h.alike.trans h'.alike, fun id => (h'.index id).trans (h.index id),
    fun id => (h'.evalOrder id).trans (h.evalOrder id),
    h'.log.trans h.log, h'.labels.trans h.labels, h'.standardCount.trans h.standardCount,
    h'.vars.1.trans h.vars.1, h'.vars.2.trans h.vars.2⟩

theorem modify (s : Session) (id : NodeId) {f : Node → Node} (halike : ∀ n : Node, n.Alike (f n))
    (hkeeps : ∀ n : Node, (f n).index = n.index ∧ (f n).evalOrder = n.evalOrder) :
    Frame s (s.modify id f) :=
  ⟨.modify _ _ halike, fun j => Tree.read_modify s.tree id j Node.index fun n => (hkeeps n).1,
    fun j => Tree.read_modify s.tree id j Node.evalOrder fun n => (hkeeps n).2, rfl, rfl, rfl,
    rfl, rfl⟩

theorem targetIndex?_eq (h : Frame s s') : s'.targetIndex? = s.targetIndex? := by
  funext target
  cases target with
  | node id => exact h.index id
  | endOfScript => simp only [targetIndex?, h.standardCount]

theorem hasProblems_eq (h : Frame s s') : s'.hasProblems = s.hasProblems := by
  simp only [hasProblems, h.log]

theorem placeLabel (s : Session) (id : NodeId) :
    Frame s (s.placeLabel id) ∧ (s.placeLabel id).tree = s.tree := by
  unfold Session.placeLabel
  dsimp only
  split
  · split
    · refine ⟨⟨.refl _, fun _ => rfl, fun _ => rfl, rfl, rfl, rfl, ?_⟩, rfl⟩
      unfold SymbolTable.modifyLabel
      split <;> exact ⟨rfl, rfl⟩
    · exact ⟨.refl s, rfl⟩
  · exact ⟨.refl s, rfl⟩

end Frame

/-! ## With problems -/

theorem linkNode_of_hasProblems (o : Order) {s : Session} (h : s.hasProblems = true) (id : NodeId) :
    ∃ s', linkNode o s id = .ok s' ∧ Frame s s' := by
  unfold linkNode
  dsimp only
  split
  · exact ⟨s, rfl, .refl s⟩
  · split
    · exact ⟨s, rfl, .refl s⟩
    · exact ⟨_, rfl, .modify _ _ (fun _ => ⟨rfl, rfl, rfl, rfl, rfl, rfl⟩) fun _ => ⟨rfl, rfl⟩⟩
    · exact ⟨_, rfl, .modify _ _ (fun _ => ⟨rfl, rfl, rfl, rfl, rfl, rfl⟩) fun _ => ⟨rfl, rfl⟩⟩

theorem link_of_hasProblems {s : Session} (h : s.hasProblems = true) :
    ∃ s', s.link = .ok s' ∧ Frame s s' := by
  refine foldlM_ok (I := fun _ s' => Frame s s') (.refl s) ?_
  intro done id rest u _ hu
  obtain ⟨u', hu', hframe⟩ :=
    linkNode_of_hasProblems (Order.of s.tree) (hu.hasProblems_eq.trans h) id
  exact ⟨u', hu', hu.trans hframe⟩

theorem destination_of_hasProblems {s : Session} (h : s.hasProblems = true) (id : NodeId) :
    ∃ d, s.destination id = .ok d := by
  unfold destination
  dsimp only
  split
  · exact ⟨_, rfl⟩
  · split
    · exact ⟨_, rfl⟩
    · exact ⟨_, rfl⟩

theorem returnValueOf_of_hasProblems {s : Session} (h : s.hasProblems = true) (id : NodeId) :
    ∃ v, s.returnValueOf id = .ok v := by
  obtain ⟨d, hd⟩ := destination_of_hasProblems h id
  unfold returnValueOf
  dsimp only
  split
  · split
    · exact ⟨_, rfl⟩
    · rw [h, Bool.or_true, if_pos rfl]
      exact ⟨_, rfl⟩
  · split
    · exact ⟨.of (s.node id).statement.conditional d, by rw [hd]; rfl⟩
    · exact ⟨_, rfl⟩

theorem resolveNode_of_hasProblems {s : Session} (h : s.hasProblems = true) (id : NodeId) :
    ∃ s', s.resolveNode id = .ok s' ∧ Frame s s' := by
  obtain ⟨d, hd⟩ := destination_of_hasProblems h id
  obtain ⟨v, hv⟩ := returnValueOf_of_hasProblems h id
  unfold resolveNode
  dsimp only
  split
  · exact ⟨s, rfl, .refl s⟩
  · split
    · exact ⟨_, rfl, (Frame.placeLabel s id).1⟩
    · split
      · refine ⟨s.modify id fun n => { n with returnValue := some v }, by rw [hv]; rfl, ?_⟩
        exact .modify _ _ (fun _ => ⟨rfl, rfl, rfl, rfl, rfl, rfl⟩) fun _ => ⟨rfl, rfl⟩
      · split
        · refine ⟨s.modify id fun n => { n with jump := some d }, by rw [hd]; rfl, ?_⟩
          exact .modify _ _ (fun _ => ⟨rfl, rfl, rfl, rfl, rfl, rfl⟩) fun _ => ⟨rfl, rfl⟩
        · exact ⟨s, rfl, .refl s⟩

theorem resolve_of_hasProblems {s : Session} (h : s.hasProblems = true) :
    ∃ s', s.resolve = .ok s' ∧ Frame s s' := by
  refine foldlM_ok (I := fun _ s' => Frame s s') (.refl s) ?_
  intro done id rest u _ hu
  obtain ⟨u', hu', hframe⟩ := resolveNode_of_hasProblems (hu.hasProblems_eq.trans h) id
  exact ⟨u', hu', hu.trans hframe⟩

/-! ## Without problems -/

/-- How an executed node goes on, and what the engine is told about it. -/
inductive Moves (n : Node) : Prop
  /-- It jumps depending on its result, which its return slot tells. -/
  | test (hjump : n.statement.conditional.isJump = true)
      (hslot : n.statement.returnSlot?.isSome = true)
      (hlabel : n.statement.form ≠ FormId.defineLabel)
  /-- It always jumps and has no return slot. -/
  | always (hform : jumpsAlways n.statement.form = true) (hslot : n.statement.returnSlot? = none)
      (hlabel : n.statement.form ≠ FormId.defineLabel)
  /-- It goes on with what follows it. -/
  | next (hrole : n.role = .plain) (hjump : n.statement.conditional.isJump = false)
      (hform : jumpsAlways n.statement.form = false)
      (hassign : n.statement.conditional = .assign → n.statement.isRecognised = true ∧
        ∃ v ∈ n.statement.vars, n.statement.assigned? = some v)

theorem Moves.of_acts {n : Node} (h : n.Acts) : Moves n := by
  rcases h with ⟨-, line, hline⟩ | ⟨-, hrole, hexecuted, hloop⟩
  · have hform : n.statement.form = FormId.hiddenJump := by rw [hline]; rfl
    exact .always (by rw [hform]; rfl) (by rw [hline]; rfl) (by rw [hform]; decide)
  · cases hexecuted with
    | test hjump _ hslot hmeaning =>
      refine .test hjump hslot fun hlabel => ?_
      rw [hlabel] at hmeaning
      cases hmeaning
    | exit hexit hslot =>
      have hform : n.statement.form = FormId.breakLoop ∨ n.statement.form = FormId.continueLoop :=
        hexit.imp And.left And.left
      rcases hform with hf | hf
      · exact .always (by rw [hf]; rfl) hslot (by rw [hf]; decide)
      · exact .always (by rw [hf]; rfl) hslot (by rw [hf]; decide)
    | labelJump hlabel _ _ hslot =>
      rcases hlabel with hf | hf
      · exact .always (by rw [hf]; rfl) hslot (by rw [hf]; decide)
      · exact .always (by rw [hf]; rfl) hslot (by rw [hf]; decide)
    | waiting hwaiting _ =>
      rw [hloop] at hwaiting
      cases hwaiting
    | plain hplain hjump hform hassign => exact .next (hrole.trans hplain) hjump hform hassign

/-- A session without problems whose jumps all lead to a number. -/
structure Aimed (s : Session) : Prop extends Linkable s where
  errors : ∀ id, (s.node id).hasError = false
  returnValue : ∀ id, (s.node id).returnValue = none
  jump : ∀ id, (s.node id).jump = none
  dest : ∀ id ∈ s.tree.preorder, (s.node id).isLive = true →
    (s.node id).statement.conditional.isJump = true ∨
    jumpsAlways (s.node id).statement.form = true →
    ∃ m, s.leadsTo? id = some m
  vars : ∀ id ∈ s.tree.preorder, (s.node id).isLive = true →
    (s.node id).statement.isRecognised = true →
    ∀ v ∈ (s.node id).statement.vars, s.symbols.Knows v.value

/-- What a node ends up with: the return value and the jump that the engine goes by. `dest` is the
number that the node leads to. -/
inductive Settles (n : Node) (dest : Option Nat) : Prop
  /-- The node is not executed. -/
  | idle (hlive : n.isLive = false) (hvalue : n.returnValue = none) (hjump : n.jump = none)
  /-- The node jumps depending on its result. -/
  | test (d : UInt16) (htest : n.statement.conditional.isJump = true)
      (hslot : n.statement.returnSlot?.isSome = true)
      (hvalue : n.returnValue = some (.of n.statement.conditional d)) (hjump : n.jump = none)
      (hdest : dest = some d.toNat) (hlive : n.isLive = true)
  /-- The node always jumps. -/
  | always (d : UInt16) (hform : jumpsAlways n.statement.form = true)
      (hslot : n.statement.returnSlot? = none)
      (hvalue : n.returnValue = none) (hjump : n.jump = some d) (hdest : dest = some d.toNat)
      (hlive : n.isLive = true)
  /-- The node goes on with what follows it. -/
  | next (htest : n.statement.conditional.isJump = false)
      (hform : jumpsAlways n.statement.form = false)
      (hvalue : ∀ v, n.returnValue = some v → ∃ c d, v = .of c d ∧
        c.isJump = false) (hjump : n.jump = none)
      (hlive : n.isLive = true)

namespace Aimed

variable {s : Session} {id : NodeId}

/-- The target of a node that leads to a number. -/
theorem target?_of_leadsTo? {m : Nat} (h : s.leadsTo? id = some m) :
    ∃ t d, s.tree.target? (Order.of s.tree) s.labels id = some (some t) ∧
      s.targetIndex? t = some d ∧ d.toNat = m := by
  unfold leadsTo? at h
  obtain ⟨t, ht, hnumber⟩ := Option.bind_eq_some_iff.mp h
  obtain ⟨d, hd, rfl⟩ := Option.map_eq_some_iff.mp hnumber
  exact ⟨t, d, Option.join_eq_some_iff.mp ht, hd, rfl⟩

theorem moves (h : s.Aimed) (hid : id ∈ s.tree.preorder) (hlive : (s.node id).isLive = true) :
    Moves (s.node id) := .of_acts (h.acts id hid hlive)

/-- No jump is without a target. -/
theorem target?_ne_none (h : s.Aimed) (hid : id ∈ s.tree.preorder)
    (hlive : (s.node id).isLive = true) :
    s.tree.target? (Order.of s.tree) s.labels id ≠ none := by
  have hjump : (s.node id).statement.conditional.isJump = true ∨
      jumpsAlways (s.node id).statement.form = true →
      s.tree.target? (Order.of s.tree) s.labels id ≠ none := by
    intro hjumps
    obtain ⟨m, hm⟩ := h.dest id hid hlive hjumps
    obtain ⟨t, _, ht, _⟩ := target?_of_leadsTo? hm
    rw [ht]
    exact Option.some_ne_none _
  cases h.moves hid hlive with
  | test htest _ _ => exact hjump (.inl htest)
  | always hform _ _ => exact hjump (.inr hform)
  | next hrole _ hform _ =>
    simp only [jumpsAlways, node, Bool.or_eq_false_iff, beq_eq_false_iff_ne] at hform hrole
    obtain ⟨⟨⟨⟨hhidden, _⟩, _⟩, hgoto⟩, hgosub⟩ := hform
    simp [Tree.target?, hhidden, hgoto, hgosub, hrole]

/-! ### Linking -/

structure Links (p : Session) (done : List NodeId) (s : Session) : Prop extends Frame p s where
  errors : ∀ id, (s.node id).hasError = false
  returnValue : ∀ id, (s.node id).returnValue = none
  jump : ∀ id, (s.node id).jump = none
  target : ∀ id ∈ done, (p.node id).isLive = true →
    ∀ t, p.tree.target? (Order.of p.tree) p.labels id = some (some t) → (s.node id).target = some t

theorem Links.step {p s : Session} {done rest : List NodeId} (hp : p.Aimed)
    (horder : p.tree.preorder = done ++ id :: rest) (h : Links p done s) :
    ∃ s', linkNode (Order.of p.tree) s id = .ok s' ∧ Links p (done ++ [id]) s' := by
  have hlive : (s.node id).isLive = (p.node id).isLive := (h.alike.isLive_eq id).symm
  have htarget : s.tree.target? (Order.of p.tree) s.labels id =
      p.tree.target? (Order.of p.tree) p.labels id := by
    rw [h.labels, h.alike.target?_eq]
  have hid : id ∈ p.tree.preorder := by simp [horder]
  -- Unless the node gets a target, only the list of visited nodes changes.
  have hskip : ((p.node id).isLive = true → ∀ t,
      p.tree.target? (Order.of p.tree) p.labels id ≠ some (some t)) →
      Links p (done ++ [id]) s := by
    intro hno
    refine ⟨h.toFrame, h.errors, h.returnValue, h.jump, fun j hj hjlive t ht => ?_⟩
    rcases List.mem_append.mp hj with hj | hj
    · exact h.target j hj hjlive t ht
    · rw [List.mem_singleton.mp hj] at hjlive ht
      exact absurd ht (hno hjlive t)
  unfold linkNode
  simp only [h.errors id, Bool.false_or, htarget, hlive]
  by_cases halive : (p.node id).isLive = true
  · rw [halive]
    simp only [Bool.not_true, Bool.false_eq_true, if_false]
    split
    · next hnone => exact ⟨s, rfl, hskip fun _ t ht => by rw [hnone] at ht; cases ht⟩
    · next target hsome =>
      have hread : ∀ {α : Type} (read : Node → α) (j : NodeId),
          (∀ n : Node, read { n with target := some target } = read n) →
          read ((s.modify id fun n => { n with target := some target }).node j) = read (s.node j) :=
        fun read j => Tree.read_modify s.tree id j read
      refine ⟨_, rfl, ?_, fun j => ?_, fun j => ?_, fun j => ?_, fun j hj hjlive t ht => ?_⟩
      · exact h.toFrame.trans (.modify _ _ (fun _ => ⟨rfl, rfl, rfl, rfl, rfl, rfl⟩) fun _ =>
          ⟨rfl, rfl⟩)
      · exact (hread Node.hasError j fun _ => rfl).trans (h.errors j)
      · exact (hread Node.returnValue j fun _ => rfl).trans (h.returnValue j)
      · exact (hread Node.jump j fun _ => rfl).trans (h.jump j)
      · by_cases hne : j = id
        · subst hne
          have hbound : j < s.tree.size := by
            rw [← h.alike.size]
            exact hp.bounds j hid
          rw [hsome] at ht
          obtain rfl := Option.some.inj (Option.some.inj ht)
          exact congrArg Node.target (Tree.node_modify_self s.tree _ hbound)
        · have hdone : j ∈ done := by
            rcases List.mem_append.mp hj with hj | hj
            · exact hj
            · exact absurd (List.mem_singleton.mp hj) hne
          refine Eq.trans ?_ (h.target j hdone hjlive t ht)
          exact congrArg Node.target (Tree.node_modify_of_ne s.tree _ (Ne.symm hne))
    · next hnone => exact absurd hnone (hp.target?_ne_none hid halive)
  · rw [Bool.not_eq_true] at halive
    rw [halive]
    exact ⟨s, rfl, hskip fun hc => by rw [halive] at hc; cases hc⟩

/-- All nodes are linked. -/
theorem link_ok {p : Session} (hp : p.Aimed) : ∃ s, p.link = .ok s ∧ Links p p.tree.preorder s := by
  refine foldlM_ok ⟨.refl p, hp.errors, hp.returnValue, hp.jump, nofun⟩ ?_
  intro done id rest s horder hs
  exact hs.step hp horder

/-! ### Resolving -/

structure Resolving (p : Session) (done : List NodeId) (s : Session) : Prop extends Frame p s where
  errors : ∀ id, (s.node id).hasError = false
  target : ∀ id ∈ p.tree.preorder, (p.node id).isLive = true →
    ∀ t, p.tree.target? (Order.of p.tree) p.labels id = some (some t) → (s.node id).target = some t
  settled : ∀ id ∈ done, Settles (s.node id) (p.leadsTo? id)
  waiting : ∀ id ∉ done, (s.node id).returnValue = none ∧ (s.node id).jump = none

namespace Resolving

variable {p s s' : Session} {done rest : List NodeId}

/-- The jump of a node has a destination. -/
theorem destination_ok (h : Resolving p done s) (hid : id ∈ p.tree.preorder)
    (hlive : (p.node id).isLive = true) {m : Nat} (hm : p.leadsTo? id = some m) :
    ∃ d, s.destination id = .ok d ∧ d.toNat = m := by
  obtain ⟨t, d, ht, hd, hdm⟩ := target?_of_leadsTo? hm
  refine ⟨d, ?_, hdm⟩
  have hbind : (s.node id).target.bind s.targetIndex? = some d := by
    rw [h.target id hid hlive t ht, h.targetIndex?_eq]
    exact hd
  simp only [destination, h.errors id, Bool.false_eq_true, if_false, hbind]

/-- A step that settles a node and leaves all others as they are. -/
theorem extend (h : Resolving p done s) (hframe : Frame s s')
    (hother : ∀ j, j ≠ id → s'.node j = s.node j)
    (herror : (s'.node id).hasError = (s.node id).hasError)
    (htarget : (s'.node id).target = (s.node id).target)
    (hsettles : Settles (s'.node id) (p.leadsTo? id)) : Resolving p (done ++ [id]) s' := by
  have hread : ∀ {α : Type} (read : Node → α), read (s'.node id) = read (s.node id) →
      ∀ j, read (s'.node j) = read (s.node j) := by
    intro α read hid j
    by_cases hj : j = id
    · rw [hj, hid]
    · rw [hother j hj]
  refine ⟨h.toFrame.trans hframe, fun j => ?_, fun j hj hlive t ht => ?_, fun j hj => ?_,
    fun j hj => ?_⟩
  · rw [hread Node.hasError herror j]
    exact h.errors j
  · rw [hread Node.target htarget j]
    exact h.target j hj hlive t ht
  · by_cases hne : j = id
    · rw [hne]
      exact hsettles
    · rw [hother j hne]
      refine h.settled j ?_
      rcases List.mem_append.mp hj with hj | hj
      · exact hj
      · exact absurd (List.mem_singleton.mp hj) hne
  · rw [List.mem_append, List.mem_singleton, not_or] at hj
    rw [hother j hj.2]
    exact h.waiting j hj.1

theorem keep (h : Resolving p done s) (hsettles : Settles (s.node id) (p.leadsTo? id)) :
    Resolving p (done ++ [id]) s :=
  h.extend (.refl s) (fun _ _ => rfl) rfl rfl hsettles

theorem modify (h : Resolving p done s) {f : Node → Node} (hid : id < s.tree.size)
    (halike : ∀ n : Node, n.Alike (f n)) (hkeeps : ∀ n : Node, (f n).index = n.index ∧
      (f n).evalOrder = n.evalOrder)
    (herror : ∀ n : Node, (f n).hasError = n.hasError)
    (htarget : ∀ n : Node, (f n).target = n.target)
    (hsettles : Settles (f (s.node id)) (p.leadsTo? id)) :
    Resolving p (done ++ [id]) (s.modify id f) := by
  have hself : (s.modify id f).node id = f (s.node id) := Tree.node_modify_self s.tree f hid
  refine h.extend (.modify s id halike hkeeps) (fun j hj => ?_) ?_ ?_ ?_
  · exact Tree.node_modify_of_ne s.tree f (Ne.symm hj)
  · rw [hself, herror]
  · rw [hself, htarget]
  · rw [hself]
    exact hsettles

/-- The result of a node that goes on with what follows it is packed without a destination. -/
theorem returnValueOf_next (h : Resolving p done s) (hp : p.Aimed) (hid : id ∈ p.tree.preorder)
    (hlive : (p.node id).isLive = true) (hjump : (p.node id).statement.conditional.isJump = false)
    (hassign : (p.node id).statement.conditional = .assign →
      (p.node id).statement.isRecognised = true ∧
      ∃ v ∈ (p.node id).statement.vars, (p.node id).statement.assigned? = some v) :
    ∃ c d, s.returnValueOf id = .ok (.of c d) ∧ c.isJump = false := by
  have hstatement : (s.node id).statement = (p.node id).statement := (h.alike.statement_eq id).symm
  unfold returnValueOf
  simp only [hstatement, hjump, Bool.false_eq_true, if_false]
  split
  · next hc =>
    obtain ⟨hrecognised, v, hv, hassigned⟩ := hassign hc
    obtain ⟨symbol, hsymbol⟩ := Option.isSome_iff_exists.mp (hp.vars id hid hlive hrecognised v hv)
    rw [← SymbolTable.findVariable?_congr h.vars.1 h.vars.2] at hsymbol
    refine ⟨.assign, symbol.id, ?_, rfl⟩
    simp only [hassigned, Option.bind_some, hsymbol]
    rfl
  · exact ⟨_, 0, rfl, hjump⟩

theorem step (hp : p.Aimed) (horder : p.tree.preorder = done ++ id :: rest)
    (h : Resolving p done s) :
    ∃ s', s.resolveNode id = .ok s' ∧ Resolving p (done ++ [id]) s' := by
  have hid : id ∈ p.tree.preorder := by simp [horder]
  have hbound : id < s.tree.size := by
    rw [← h.alike.size]
    exact hp.bounds id hid
  have hnot : id ∉ done := by
    have hnodup := hp.nodup
    rw [horder, List.nodup_append] at hnodup
    exact fun hmem => hnodup.2.2 id hmem id (by simp) rfl
  obtain ⟨hvalue, hjump⟩ := h.waiting id hnot
  have hlive : (s.node id).isLive = (p.node id).isLive := (h.alike.isLive_eq id).symm
  have hstatement : (s.node id).statement = (p.node id).statement := (h.alike.statement_eq id).symm
  unfold resolveNode
  dsimp only
  by_cases halive : (p.node id).isLive = true
  case neg =>
    rw [Bool.not_eq_true] at halive
    rw [hlive, halive]
    exact ⟨s, rfl, h.keep (.idle (hlive.trans halive) hvalue hjump)⟩
  have his : (p.node id).statement.form ≠ FormId.defineLabel →
      (s.node id).is FormId.defineLabel = false := by
    intro hne
    simp [Node.is, hstatement, hne]
  rw [hlive, halive]
  simp only [Bool.not_true, Bool.false_eq_true, if_false]
  cases hp.moves hid halive with
  | test htest hslot hlabel =>
    obtain ⟨m, hm⟩ := hp.dest id hid halive (.inl htest)
    obtain ⟨d, hd, hdm⟩ := h.destination_ok hid halive hm
    have hassign : (p.node id).statement.conditional ≠ .assign := by
      intro hc
      rw [hc] at htest
      cases htest
    have hreturn : s.returnValueOf id = .ok (.of (p.node id).statement.conditional d) := by
      simp only [returnValueOf, hstatement, hassign, htest, if_false, if_true, hd]
      rfl
    rw [his hlabel, hstatement, hslot, hreturn]
    refine ⟨_, rfl, h.modify hbound (fun _ => ⟨rfl, rfl, rfl, rfl, rfl, rfl⟩) (fun _ => ⟨rfl, rfl⟩)
      (fun _ => rfl)
      (fun _ => rfl) (.test d ?_ ?_ ?_ hjump (hm.trans (congrArg some hdm.symm))
        (hlive.trans halive))⟩
    · rw [hstatement]
      exact htest
    · rw [hstatement]
      exact hslot
    · rw [hstatement]
  | always hform hslot hlabel =>
    obtain ⟨m, hm⟩ := hp.dest id hid halive (.inr hform)
    obtain ⟨d, hd, hdm⟩ := h.destination_ok hid halive hm
    rw [his hlabel, hstatement, hslot, hform, hd]
    refine ⟨_, rfl, h.modify hbound (fun _ => ⟨rfl, rfl, rfl, rfl, rfl, rfl⟩) (fun _ => ⟨rfl, rfl⟩)
      (fun _ => rfl)
      (fun _ => rfl) (.always d ?_ ?_ hvalue rfl (hm.trans (congrArg some hdm.symm))
        (hlive.trans halive))⟩
    · rw [hstatement]
      exact hform
    · rw [hstatement]
      exact hslot
  | next hrole htest hform hassign =>
    have hnone : Settles (s.node id) (p.leadsTo? id) := by
      refine .next ?_ ?_ (fun v hv => ?_) hjump (hlive.trans halive)
      · rw [hstatement]
        exact htest
      · rw [hstatement]
        exact hform
      · rw [hvalue] at hv
        cases hv
    split
    · obtain ⟨hframe, htree⟩ := Frame.placeLabel s id
      have hnode : ∀ j, (s.placeLabel id).node j = s.node j := fun j => by rw [node, node, htree]
      refine ⟨_, rfl, h.extend hframe (fun j _ => hnode j) ?_ ?_ ?_⟩
      · rw [hnode]
      · rw [hnode]
      · rw [hnode]
        exact hnone
    · split
      · obtain ⟨c, d, hreturn, hc⟩ := h.returnValueOf_next hp hid halive htest hassign
        rw [hreturn]
        refine ⟨_, rfl, h.modify hbound (fun _ => ⟨rfl, rfl, rfl, rfl, rfl, rfl⟩) (fun _ =>
          ⟨rfl, rfl⟩) (fun _ => rfl)
          (fun _ => rfl) (.next ?_ ?_ (fun v hv => ⟨c, d, (Option.some.inj hv).symm, hc⟩) hjump
            (hlive.trans halive))⟩
        · rw [hstatement]
          exact htest
        · rw [hstatement]
          exact hform
      · rw [hstatement, hform]
        exact ⟨s, rfl, h.keep hnone⟩

end Resolving

/-- Linking and resolving settle all nodes. -/
theorem link_resolve_ok {p : Session} {f : Forest} (hp : p.Aimed) (hspans : p.tree.Spans f) :
    ∃ q s, p.link = .ok q ∧ q.resolve = .ok s ∧ Frame p s ∧
      ∀ id ∈ p.tree.preorder, Settles (s.node id) (p.leadsTo? id) := by
  obtain ⟨q, hq, hlinks⟩ := hp.link_ok
  have horder : q.tree.preorder = p.tree.preorder := by
    rw [(hspans.alike hlinks.alike).preorder_eq, hspans.preorder_eq]
  have hstart : Resolving p [] q :=
    ⟨hlinks.toFrame, hlinks.errors, hlinks.target, nofun,
      fun id _ => ⟨hlinks.returnValue id, hlinks.jump id⟩⟩
  obtain ⟨s, hs, hresolving⟩ : ∃ s, p.tree.preorder.foldlM resolveNode q = .ok s ∧
      Resolving p p.tree.preorder s :=
    foldlM_ok hstart fun done id rest u hsplit hu => hu.step hp hsplit
  refine ⟨q, s, hq, ?_, hresolving.toFrame, hresolving.settled⟩
  rw [resolve, horder]
  exact hs

end Aimed

end Session

end GameScript
