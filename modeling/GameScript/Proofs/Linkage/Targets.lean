import GameScript.Linkage.Targets
import GameScript.Proofs.Linkage.Order
import GameScript.Proofs.Passes.Checks

/-!
# Where jumps lead

The shape of a well-built script tells the number that each of its jumps leads to. `Linked` says it
on the shape alone:

* a test, a loop and a `skip if` lead to the number after everything below them,
* `break` leads to the number after the loop around it, `continue` to the number of that loop,
* the hidden jump of a loop leads back to the loop, that of a branch to the number after the whole
  chain.

`Linkable.linked` proves it of the targets that are computed for a tree.
-/

namespace GameScript

/-! ## Executed nodes -/

/-- What an executed node is: a hidden jump, or a command that says itself how it goes on. -/
inductive Node.Acts (n : Node) : Prop
  | hidden (hpart : n.part = .jump) (hstatement : ∃ line, n.statement = .hiddenJump line)
  | command (hpart : n.part ≠ .jump) (hrole : n.role = n.statement.role)
      (hexecuted : n.statement.Executed)
      (hform : n.statement.form.isLoopShorthand = false)

theorem Node.Prepared.acts {e : Setting} {n : Node} (hg : e.grammar.Lawful) (h : n.Prepared e)
    (hlive : n.isLive = true) (hdiagnostic : n.diagnostic = none)
    (hpending : Session.isPendingShorthand n = false) : n.Acts := by
  have hregular := h.regular
  simp only [Node.isLive, Bool.and_eq_true, Bool.not_eq_true'] at hlive
  obtain ⟨hstandard, hcommented⟩ := hlive
  cases horigin : n.origin with
  | header =>
    rw [(h.header horigin).1] at hstandard
    cases hstandard
  | hiddenJump => exact .hidden (by rw [Node.part, horigin]) (h.hiddenJump horigin)
  | expanded =>
    have hperforms : n.statement.IsRead e ∧ n.statement.form.isControl = false := by
      rcases h.expanded horigin with hperforms | hperforms <;>
        exact ⟨hperforms.isRead, hperforms.control⟩
    obtain ⟨⟨number, line, hstatement⟩, hcontrol⟩ := hperforms
    refine .command ?_ (by simp [Node.role, horigin]) ?_ ?_
    · rcases hregular.expanded horigin with hp | hp <;> rw [hp] <;> decide
    · rw [hstatement] at hstandard hcommented ⊢
      exact Statement.read_executed hg e.version number line hstandard hcommented
    · simp only [FormId.isControl, Bool.or_eq_false_iff] at hcontrol
      exact hcontrol.1.2
  | source =>
    obtain ⟨number, line, hstatement, -⟩ := h.source horigin
    refine .command ?_ (by simp [Node.role, horigin]) ?_ ?_
    · rw [Node.part, horigin]
      simp only [Statement.part]
      split <;> first | (split <;> simp) | simp
    · rw [hstatement] at hstandard hcommented ⊢
      exact Statement.read_executed hg e.version number line hstandard hcommented
    · rw [Bool.eq_false_iff]
      intro hloop
      have hshorthand : n.statement.form.isShorthand = true := by
        simp [FormId.isShorthand, hloop]
      simp [Session.isPendingShorthand, horigin, hcommented, hdiagnostic, hshorthand] at hpending

theorem Node.Alike.acts {n m : Node} (h : n.Alike m) (hn : n.Acts) : m.Acts := by
  have hpart : m.part = n.part := by simp only [Node.part, h.origin, h.statement]
  have hrole : m.role = n.role := by simp only [Node.role, h.origin, h.statement]
  rcases hn with ⟨hp, hstatement⟩ | ⟨hp, hr, hexecuted, hform⟩
  · exact .hidden (hpart.trans hp) (h.statement ▸ hstatement)
  · exact .command (hpart ▸ hp) (by rw [hrole, hr, h.statement]) (h.statement ▸ hexecuted)
      (h.statement ▸ hform)

theorem Node.Alike.regular {n m : Node} (h : n.Alike m) (hn : n.Regular) : m.Regular := by
  have hpart : m.part = n.part := by simp only [Node.part, h.origin, h.statement]
  refine ⟨?_, ?_, ?_, ?_⟩
  · rw [hpart, ← hn.role]
    simp only [Node.role, h.origin, h.statement]
  · rw [hpart, ← hn.live]
    simp only [Node.isLive, h.statement]
  · rw [hpart, ← h.statement]
    exact hn.commented
  · rw [hpart, ← h.origin]
    exact hn.expanded

/-- The target of a node with a role of its own is told by the role. -/
theorem Tree.target?_of_role {t : Tree} {id : NodeId} (o : Order)
    (labels : Std.TreeMap String NodeId) (h : (t.node id).Acts)
    (hrole : (t.node id).role ≠ .plain) :
    t.target? o labels id =
      match (t.node id).role with
      | .branch | .elseBranch => (t.testTarget? o id).map some
      | .loop | .skip => some (some (o.afterSubtree t id))
      | .leave => (t.enclosingLoop? id).map fun head => some (o.afterSubtree t head)
      | .again => (t.enclosingLoop? id).map fun head => some (.node head)
      | _ => some none := by
  have hform : (t.node id).statement.form ≠ FormId.hiddenJump ∧
      (t.node id).statement.form ≠ FormId.gotoLabel ∧
      (t.node id).statement.form ≠ FormId.gosub := by
    rcases h with ⟨hp, hstatement⟩ | ⟨hp, hr, hexecuted, hloop⟩
    · exfalso
      apply hrole
      obtain ⟨line, hline⟩ := hstatement
      have horigin : (t.node id).origin ≠ .header := by
        intro hc
        rw [Node.part, hc] at hp
        cases hp
      rw [Node.role, if_neg horigin, hline]
      rfl
    · cases hexecuted with
      | test _ _ _ hmeaning =>
        refine ⟨?_, ?_, ?_⟩ <;> intro hc <;> rw [hc] at hmeaning <;> revert hmeaning <;> decide
      | exit hexit _ =>
        rcases hexit with ⟨hf, _⟩ | ⟨hf, _⟩ <;> rw [hf] <;> decide
      | labelJump _ hplain _ _ => exact absurd (hr.trans hplain) hrole
      | waiting hf _ => rw [hloop] at hf; cases hf
      | plain hplain _ _ _ => exact absurd (hr.trans hplain) hrole
  have hlabelled : ¬(decide ((t.node id).statement.form = FormId.gotoLabel) ||
      decide ((t.node id).statement.form = FormId.gosub)) = true := by
    simp [hform.2]
  show (if (t.node id).statement.form = FormId.hiddenJump then _ else if _ then _ else _) = _
  refine (if_neg hform.1).trans ((if_neg hlabelled).trans ?_)
  cases (t.node id).role <;> rfl

/-! ## Numbers on the shape -/

namespace Forest

def count (part : NodeId → Part) : Forest → Nat
  | .nil => 0
  | .node id below after => (part id).isLive.toNat + below.count part + after.count part

/-- The number after the chain of branches that a block belongs to. `n` is the number after the
block, `below` is what is below it; the last argument holds the siblings after it. -/
def chainExit (part : NodeId → Part) (n : Nat) (below : Forest) : Forest → Nat
  | .nil => n
  | .node next belowNext after =>
    if below.isClosed part then n
    else chainExit part (n + (part next).isLive.toNat + belowNext.count part) belowNext after

theorem count_eq (part : NodeId → Part) (f : Forest) :
    f.count part = f.ids.countP fun id => (part id).isLive := by
  induction f with
  | nil => rfl
  | node id below after ihb iha =>
    rw [count, ihb, iha, ids_node, List.countP_cons, List.countP_append]
    cases (part id).isLive <;> simp [Nat.add_comm, Nat.add_assoc]

theorem liveCount_ids {t : Tree} (hregular : ∀ id, (t.node id).Regular) (f : Forest) :
    t.liveCount f.ids = f.count t.part := by
  rw [count_eq, Tree.liveCount]
  exact List.countP_congr fun id _ => by rw [(hregular id).live]; rfl

end Forest

/-- Where a node leads. `next` is the number after it and everything below it; `loop` and `exit` are
as in `Linked`. -/
def LinkedNode (part : NodeId → Part) (dest : NodeId → Option Nat) (next : Nat)
    (loop : Option (Nat × Nat)) (exit : Nat) (id : NodeId) : Prop :=
  match part id with
  | .branch | .elseBranch | .loop | .skip => dest id = some next
  | .leave => dest id = loop.map Prod.snd
  | .again => dest id = loop.map Prod.fst
  | .jump => dest id = some exit
  | _ => True

/-- Where the jumps of a row lead. The row starts at the number `n`; `loop` holds the number of the
loop around it and the number after that loop, and `exit` is where a hidden jump of the row itself
leads. -/
def Linked (part : NodeId → Part) (dest : NodeId → Option Nat) :
    Nat → Option (Nat × Nat) → Nat → Forest → Prop
  | _, _, _, .nil => True
  | n, loop, exit, .node id below after =>
    let inner := n + (part id).isLive.toNat
    let next := inner + below.count part
    LinkedNode part dest next loop exit id ∧
    Linked part dest inner (if part id = .loop then some (n, next) else loop)
      (if part id = .loop then n else below.chainExit part next after) below ∧
    Linked part dest next loop exit after

/-- A block at its place in a chain: it is closed, or a test that goes on with an alternative. -/
inductive InChain (part : NodeId → Part) (inLoop : Bool) (stop : Stop) (id : NodeId)
    (below after : Forest) : Prop
  | last (hclosed : below.isClosed part = true)
  | more (hopen : below.isClosed part = false) (htest : (part id).isTest = true)
      (hrest : Block part inLoop true stop after)

theorem Block.inChain {part : NodeId → Part} {inLoop : Bool} {stop : Stop} {id : NodeId}
    {below after : Forest} (h : Block part inLoop true stop (.node id below after)) :
    InChain part inLoop stop id below after := by
  cases h with
  | closed _ hbelow _ => exact .last (by rw [hbelow.isClosed_eq]; rfl)
  | continued _ htest hbelow hrest => exact .more (by rw [hbelow.isClosed_eq]; rfl) htest hrest

namespace Session

def leadsTo? (s : Session) (id : NodeId) : Option Nat :=
  (s.tree.target? (Order.of s.tree) s.labels id).join.bind s.number?

structure Linkable (s : Session) : Prop where
  numbered : s.Numbered
  bounds : ∀ id ∈ s.tree.preorder, id < s.tree.size
  nodup : s.tree.preorder.Nodup
  regular : ∀ id, (s.tree.node id).Regular
  acts : ∀ id ∈ s.tree.preorder, (s.tree.node id).isLive = true → (s.tree.node id).Acts

namespace Linkable

variable {s : Session} {parent id : NodeId} {up earlier before behind : List NodeId}
  {below after f : Forest}

theorem number?_node (hs : s.Linkable)
    (h : s.tree.Row parent up earlier before (.node id below after) behind)
    (hlive : (s.tree.part id).isLive = true) :
    s.number? (.node id) = some (s.tree.liveCount before) := by
  have horder : s.tree.preorder = before ++ id :: (below.ids ++ after.ids ++ behind) := by
    rw [h.order]
    simp
  exact hs.numbered.number?_node horder ((hs.regular id).live.trans hlive)

theorem number?_after (hs : s.Linkable) {a b : List NodeId}
    (horder : s.tree.preorder = a ++ id :: b) :
    s.number? ((Order.of s.tree).targetFrom ((Order.of s.tree).place id + 1)) =
      some (s.tree.liveCount (a ++ [id])) := by
  have hplace : (Order.of s.tree).place id = a.length :=
    Order.place_of horder (hs.bounds _ (by simp [horder])) hs.nodup
  have htake : s.tree.preorder.take (a.length + 1) = a ++ [id] := by
    rw [horder, List.take_length_add_append]
    simp
  rw [hplace, hs.numbered.number?_targetFrom, htake]

theorem liveCount_inner (hs : s.Linkable) (id : NodeId) :
    s.tree.liveCount (before ++ [id]) = s.tree.liveCount before +
      (s.tree.part id).isLive.toNat := by
  have hlive : (s.tree.node id).isLive = (s.tree.part id).isLive := (hs.regular id).live
  rw [Tree.liveCount, List.countP_append, List.countP_singleton, hlive]
  cases (s.tree.part id).isLive <;> rfl

theorem liveCount_rest (hs : s.Linkable) (id : NodeId) (below : Forest) :
    s.tree.liveCount (before ++ id :: below.ids) =
      s.tree.liveCount before + (s.tree.part id).isLive.toNat + below.count s.tree.part := by
  rw [← hs.liveCount_inner, ← Forest.liveCount_ids hs.regular]
  simp only [Tree.liveCount]
  rw [← List.countP_append, List.append_assoc]
  rfl

theorem number?_afterSubtree (hs : s.Linkable)
    (h : s.tree.Row parent up earlier before (.node id below after) behind) :
    s.number? ((Order.of s.tree).afterSubtree s.tree id) =
      some (s.tree.liveCount before + (s.tree.part id).isLive.toNat + below.count s.tree.part) := by
  obtain ⟨init, hinit⟩ : ∃ init, id :: below.ids = init ++ [below.lastNode id] :=
    ⟨_, (List.dropLast_append_getLast? _ (Forest.getLast?_ids_lastNode id below)).symm⟩
  have horder : s.tree.preorder = (before ++ init) ++
      below.lastNode id :: (after.ids ++ behind) := by
    have hrow := h.order
    rw [Forest.ids_node, ← List.cons_append, hinit] at hrow
    simpa using hrow
  rw [Order.afterSubtree, h.lastOfSubtree_eq, hs.number?_after horder, List.append_assoc, ← hinit,
    hs.liveCount_rest]

/-! ## Chains -/

variable {inLoop : Bool} {stop : Stop} {loop : Option (Nat × Nat)} {exit : Nat}

/-- The chain of branches that a block belongs to ends with a closed block, and leads after it. -/
theorem number?_chainEnd (hs : s.Linkable) {steps : Nat}
    (h : s.tree.Row parent up earlier before (.node id below after) behind)
    (hchain : InChain s.tree.part inLoop stop id below after)
    (hsteps : after.roots.length < steps) :
    ∃ last, s.tree.chainEnd? steps id = some last ∧
      s.number? ((Order.of s.tree).afterSubtree s.tree last) =
        some (below.chainExit s.tree.part
          (s.tree.liveCount before + (s.tree.part id).isLive.toNat + below.count s.tree.part)
            after) := by
  induction after generalizing id below earlier before steps with
  | nil =>
    obtain ⟨steps, rfl⟩ := Nat.exists_eq_add_of_lt hsteps
    cases hchain with
    | last hclosed =>
      refine ⟨id, ?_, hs.number?_afterSubtree h⟩
      simp [Tree.chainEnd?, Tree.isClosed_eq h hs.regular, hclosed]
    | more _ _ hrest => cases hrest
  | node next belowNext rest _ ih =>
    obtain ⟨steps, rfl⟩ := Nat.exists_eq_add_one.mpr (Nat.zero_lt_of_lt hsteps)
    cases hchain with
    | last hclosed =>
      refine ⟨id, ?_, ?_⟩
      · simp [Tree.chainEnd?, Tree.isClosed_eq h hs.regular, hclosed]
      · rw [Forest.chainExit, if_pos hclosed]
        exact hs.number?_afterSubtree h
    | more hopen htest hrest =>
      have hcontinues : (s.tree.part next).continuesChain = true := hrest.isContinued
      obtain ⟨last, hlast, hnumber⟩ := ih h.rest hrest.inChain (Nat.lt_of_succ_lt_succ hsteps)
      refine ⟨last, ?_, ?_⟩
      · rw [Tree.chainEnd?, Tree.isClosed_eq h hs.regular, hopen, h.next?_eq]
        simp [Tree.role_eq_role (hs.regular _), Part.isTest_role, Part.continuesChain_role, htest,
          hcontinues, hlast]
      · rw [hnumber, Forest.chainExit, hopen, hs.liveCount_rest]
        rfl

/-- A test leads to the number after everything below it. -/
theorem number?_testTarget (hs : s.Linkable)
    (h : s.tree.Row parent up earlier before (.node id below after) behind)
    (hchain : InChain s.tree.part inLoop stop id below after) :
    (s.tree.testTarget? (Order.of s.tree) id).bind s.number? =
      some (s.tree.liveCount before + (s.tree.part id).isLive.toNat + below.count s.tree.part) := by
  unfold Tree.testTarget?
  rw [Tree.isClosed_eq h hs.regular, h.next?_eq]
  cases hchain with
  | last hclosed =>
    rw [if_pos hclosed]
    exact hs.number?_afterSubtree h
  | more hopen htest hrest =>
    rw [hopen]
    cases after with
    | nil => cases hrest
    | node next belowNext rest =>
      have hcontinues : (s.tree.part next).continuesChain = true := hrest.isContinued
      simp only [Bool.false_eq_true, if_false, Forest.roots_node, List.head?_cons,
        Tree.role_eq_role (hs.regular next)]
      cases hpart : s.tree.part next <;> rw [hpart] at hcontinues <;> try cases hcontinues
      · -- An `else if` is executed next.
        have hnode := hs.number?_node h.rest (by rw [hpart]; rfl)
        rw [hs.liveCount_rest] at hnode
        exact hnode
      · -- An `else` is not executed itself.
        have horder : s.tree.preorder =
            (before ++ id :: below.ids) ++ next :: (belowNext.ids ++ rest.ids ++ behind) := by
          rw [h.order]
          simp
        simp only [Part.role, Option.bind_some]
        rw [hs.number?_after horder, hs.liveCount_inner, hs.liveCount_rest, hpart]
        rfl

/-! ## All jumps of a script -/

def Around (s : Session) (line : List NodeId) (loop : Option (Nat × Nat)) : Prop :=
  ∃ head numbers, (line.find? fun j => decide (s.tree.part j = .loop)) = some head ∧
    loop = some numbers ∧
    s.number? (.node head) = some numbers.1 ∧
    s.number? ((Order.of s.tree).afterSubtree s.tree head) = some numbers.2

structure Exits (s : Session) (parent : NodeId) (stop : Stop) (exit : Nat) : Prop where
  loop : stop = .loop → s.tree.part parent = .loop ∧ s.number? (.node parent) = some exit
  jump : stop = .jump → (s.tree.part parent).isTest = true ∧ ∃ last,
    s.tree.chainEnd? s.tree.size parent = some last ∧
      s.number? ((Order.of s.tree).afterSubtree s.tree last) = some exit

theorem enclosingLoop?_eq (hs : s.Linkable)
    (h : s.tree.Row parent up earlier before (.node id below after) behind) :
    s.tree.enclosingLoop? id = (parent :: up).find? fun j => decide (s.tree.part j = .loop) := by
  have hrole : (fun j => s.tree.role j == .loop) = fun j => decide (s.tree.part j = .loop) := by
    funext j
    rw [Tree.role_eq_role (hs.regular j)]
    cases s.tree.part j <;> rfl
  rw [Tree.enclosingLoop?, h.ancestors_eq, hrole]

theorem role_eq (hs : s.Linkable) (id : NodeId) : (s.tree.node id).role = (s.tree.part id).role :=
  (hs.regular id).role

theorem acts_of_row (hs : s.Linkable)
    (h : s.tree.Row parent up earlier before (.node id below after) behind)
    (hlive : (s.tree.part id).isLive = true) : (s.tree.node id).Acts :=
  hs.acts id (by simp [h.order]) ((hs.regular id).live.trans hlive)

/-- Loops and `skip if` lead after everything below them. -/
theorem linkedNode_of_afterSubtree (hs : s.Linkable)
    (h : s.tree.Row parent up earlier before (.node id below after) behind)
    (hid : s.tree.part id = .loop ∨ s.tree.part id = .skip) :
    LinkedNode s.tree.part s.leadsTo?
      (s.tree.liveCount before + (s.tree.part id).isLive.toNat + below.count s.tree.part) loop
        exit id := by
  have hlive : (s.tree.part id).isLive = true := by rcases hid with hp | hp <;> rw [hp] <;> rfl
  have hrole : (s.tree.node id).role = .loop ∨ (s.tree.node id).role = .skip := by
    rw [hs.role_eq]
    rcases hid with hp | hp <;> rw [hp]
    · exact .inl rfl
    · exact .inr rfl
  have hplain : (s.tree.node id).role ≠ .plain := by
    rcases hrole with hr | hr <;> rw [hr] <;> decide
  have hdest : s.leadsTo? id =
      some (s.tree.liveCount before + (s.tree.part id).isLive.toNat + below.count s.tree.part) := by
    rw [leadsTo?, Tree.target?_of_role _ _ (hs.acts_of_row h hlive) hplain]
    rcases hrole with hr | hr <;> rw [hr] <;> exact hs.number?_afterSubtree h
  unfold LinkedNode
  rcases hid with hp | hp <;> rw [hp] at hdest ⊢ <;> exact hdest

/-- `break` and `continue` lead after the loop and to its head. -/
theorem linkedNode_of_isExit (hs : s.Linkable)
    (h : s.tree.Row parent up earlier before (.node id below after) behind)
    (hid : (s.tree.part id).isExit = true) (hloop : Around s (parent :: up) loop) {next : Nat} :
    LinkedNode s.tree.part s.leadsTo? next loop exit id := by
  obtain ⟨head, numbers, hfind, rfl, hhead, hexit⟩ := hloop
  have henclosing := (hs.enclosingLoop?_eq h).trans hfind
  have hrole := hs.role_eq id
  unfold LinkedNode
  rcases Part.eq_of_isExit hid with hp | hp <;> rw [hp, Part.role] at hrole <;> rw [hp, leadsTo?,
    Tree.target?_of_role _ _ (hs.acts_of_row h (by rw [hp]; rfl)) (by rw [hrole]; decide),
    hrole] <;>
    simp only [henclosing, Option.map_some, Option.join_some, Option.bind_some]
  · exact hexit
  · exact hhead

/-- A block of a chain leads after everything below it if it is a test. -/
theorem linkedNode_of_inChain (hs : s.Linkable)
    (h : s.tree.Row parent up earlier before (.node id below after) behind)
    (hopens : (s.tree.part id).opensBlock = true) (hne : s.tree.part id ≠ .loop)
    (hchain : InChain s.tree.part inLoop stop id below after) :
    LinkedNode s.tree.part s.leadsTo?
      (s.tree.liveCount before + (s.tree.part id).isLive.toNat + below.count s.tree.part) loop
        exit id := by
  have hdest : (s.tree.part id).isTest = true → s.leadsTo? id =
      some (s.tree.liveCount before + (s.tree.part id).isLive.toNat + below.count s.tree.part) := by
    intro htest
    have hrole := hs.role_eq id
    rw [← hs.number?_testTarget h hchain, leadsTo?]
    rcases Part.eq_of_isTest htest with hp | hp <;> rw [hp, Part.role] at hrole <;>
      rw [Tree.target?_of_role _ _ (hs.acts_of_row h (by rw [hp]; rfl)) (by rw [hrole]; decide),
        hrole] <;>
      cases s.tree.testTarget? (Order.of s.tree) id <;> rfl
  unfold LinkedNode
  cases hp : s.tree.part id <;> simp_all [Part.opensBlock, Part.isTest]

/-- A hidden jump leads back to its loop or after its chain. -/
theorem linkedNode_of_jump (hs : s.Linkable)
    (h : s.tree.Row parent up earlier before (.node id below after) behind)
    (hid : s.tree.part id = .jump) (hexit : Exits s parent stop exit)
    (hstop : stop = .loop ∨ stop = .jump) {next : Nat} :
    LinkedNode s.tree.part s.leadsTo? next loop exit id := by
  have hform : (s.tree.node id).statement.form = FormId.hiddenJump := by
    rcases hs.acts_of_row h (by rw [hid]; rfl) with ⟨-, line, hline⟩ | ⟨hp, -, -, -⟩
    · rw [hline]
      rfl
    · exact absurd hid hp
  have hrole := Tree.role_eq_role (hs.regular parent)
  simp only [LinkedNode, hid, leadsTo?, Tree.target?, hform, if_pos, Tree.hiddenTarget?,
    h.parent?_eq, Option.bind_eq_bind, Option.bind_some, hrole]
  rcases hstop with hstop | hstop
  · obtain ⟨hparent, hnumber⟩ := hexit.loop hstop
    rw [hparent]
    exact hnumber
  · obtain ⟨htest, last, hlast, hnumber⟩ := hexit.jump hstop
    rcases Part.eq_of_isTest htest with hp | hp <;> rw [hp] <;>
      simp only [Part.role, hlast, Option.map_some, Option.join_some,
      Option.bind_some, hnumber]

/-- The loop around a row is the loop around what is below a node that is no loop. -/
theorem Around.inner {line : List NodeId} (h : Around s line loop)
    (hid : s.tree.part id ≠ .loop) : Around s (id :: line) loop := by
  obtain ⟨head, numbers, hfind, hrest⟩ := h
  exact ⟨head, numbers, by rw [List.find?_cons_of_neg (by simpa using hid), hfind], hrest⟩

theorem linked_skipped (hs : s.Linkable)
    (h : s.tree.Row parent up earlier before f behind) (hf : Skipped s.tree.part inLoop f)
    (hloop : inLoop = true → Around s (parent :: up) loop) :
    Linked s.tree.part s.leadsTo? (s.tree.liveCount before) loop exit f := by
  induction hf generalizing parent up earlier before behind exit with
  | idle hid _ ih =>
    refine ⟨by simp [LinkedNode, hid], trivial, ?_⟩
    rw [← hs.liveCount_rest]
    exact ih h.rest hloop
  | plain hid => exact ⟨by simp [LinkedNode, hid], trivial, trivial⟩
  | exit hid hin => exact ⟨hs.linkedNode_of_isExit h hid (hloop hin), trivial, trivial⟩
  | skip hid _ ih =>
    refine ⟨hs.linkedNode_of_afterSubtree h (.inr hid), ?_, trivial⟩
    rw [← hs.liveCount_inner]
    simp only [hid, reduceCtorEq, if_false]
    exact ih h.inner fun hin => (hloop hin).inner (by simp [hid])

/-- The jumps of a well-built row lead where the shape says. -/
theorem linked_block (hs : s.Linkable) {inChain : Bool}
    (h : s.tree.Row parent up earlier before f behind)
    (hf : Block s.tree.part inLoop inChain stop f)
    (hloop : inLoop = true → Around s (parent :: up) loop) (hexit : Exits s parent stop exit) :
    Linked s.tree.part s.leadsTo? (s.tree.liveCount before) loop exit f := by
  induction hf generalizing parent up earlier before behind loop exit with
  | script => trivial
  | close hid => exact ⟨by simp [LinkedNode, hid], trivial, trivial⟩
  | jump hid => exact ⟨hs.linkedNode_of_jump h hid hexit (.inr rfl), trivial, trivial⟩
  | round hid hlast =>
    exact ⟨hs.linkedNode_of_jump h hid hexit (.inl rfl), trivial,
      by simp [LinkedNode, hlast], trivial, trivial⟩
  | @single _ _ id _ hid _ ih =>
    refine ⟨?_, trivial, ?_⟩
    · cases hp : s.tree.part id <;> simp_all [LinkedNode, Part.isSingle]
    · rw [← hs.liveCount_rest]
      exact ih h.rest hloop hexit
  | exit hid _ ih =>
    refine ⟨hs.linkedNode_of_isExit h hid (hloop rfl), trivial, ?_⟩
    rw [← hs.liveCount_rest]
    exact ih h.rest hloop hexit
  | skip hid hbelow _ ih =>
    refine ⟨hs.linkedNode_of_afterSubtree h (.inr hid), ?_, ?_⟩
    · rw [← hs.liveCount_inner]
      simp only [hid, reduceCtorEq, if_false]
      exact hs.linked_skipped h.inner hbelow fun hin => (hloop hin).inner (by simp [hid])
    · rw [← hs.liveCount_rest]
      exact ih h.rest hloop hexit
  | @loop _ _ id _ _ hid _ _ ihb iha =>
    have hnode := hs.number?_node h (by rw [hid]; rfl)
    refine ⟨hs.linkedNode_of_afterSubtree h (.inl hid), ?_, ?_⟩
    · rw [← hs.liveCount_inner, if_pos hid, if_pos hid]
      refine ihb h.inner (fun _ => ⟨id, _, ?_, rfl, hnode, ?_⟩) ⟨fun _ => ⟨hid, hnode⟩, by simp⟩
      · rw [List.find?_cons_of_pos (by simpa using hid)]
      · rw [hs.number?_afterSubtree h, hs.liveCount_inner]
    · rw [← hs.liveCount_rest]
      exact iha h.rest hloop hexit
  | @closed inLoop _ stop id below after hid hbelow _ ihb iha =>
    obtain ⟨hopens, hne⟩ := Part.opensBlock_of_takesPlace hid
    have hchain : InChain s.tree.part inLoop stop id below after := by
      refine .last ?_
      rw [hbelow.isClosed_eq]
      rfl
    refine ⟨hs.linkedNode_of_inChain h hopens hne hchain, ?_, ?_⟩
    · rw [← hs.liveCount_inner, if_neg hne, if_neg hne]
      exact ihb h.inner (fun hin => (hloop hin).inner hne) ⟨by simp, by simp⟩
    · rw [← hs.liveCount_rest]
      exact iha h.rest hloop hexit
  | @continued inLoop _ stop id below after hid htest hbelow hrest ihb iha =>
    obtain ⟨hopens, hne⟩ := Part.opensBlock_of_takesPlace hid
    have hchain : InChain s.tree.part inLoop stop id below after := by
      refine .more ?_ htest hrest
      rw [hbelow.isClosed_eq]
      rfl
    refine ⟨hs.linkedNode_of_inChain h hopens hne hchain, ?_, ?_⟩
    · rw [← hs.liveCount_inner, if_neg hne, if_neg hne]
      refine ihb h.inner (fun hin => (hloop hin).inner hne) ⟨by simp, fun _ => ⟨htest, ?_⟩⟩
      rw [hs.liveCount_inner]
      refine hs.number?_chainEnd h hchain ?_
      rw [h.total, h.order]
      have hlength := after.roots_sublist_ids.length_le
      simp only [Forest.ids_node, List.length_append, List.length_cons]
      omega
    · rw [← hs.liveCount_rest]
      exact iha h.rest hloop hexit

/-- The jumps of a well-built script lead where its shape says. -/
theorem linked (hs : s.Linkable) (hspans : s.tree.Spans f)
    (hf : Block s.tree.part false false .script f) :
    Linked s.tree.part s.leadsTo? 0 none 0 f :=
  hs.linked_block hspans.row hf (by simp) ⟨by simp, by simp⟩

end Linkable

end Session

end GameScript
