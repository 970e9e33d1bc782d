import GameScript.Proofs.Tree.Spans

/-!
# Parts and well-built rows

A `Part` is what a node contributes to the block structure. It refines the role of the node: the
header of an expanded shorthand, a hidden jump and a command that belongs to a shorthand are parts
of their own.

`Block` says which rows of nodes are built like a script: branches and loops are closed,
alternatives follow open branches, hidden jumps stand where they belong, `skip if` holds one
command.
-/

namespace GameScript

/-- The part that a node plays in the block structure. -/
inductive Part where
  /-- A blank line, a comment or a command that was commented out. -/
  | idle
  /-- The line of a shorthand that was expanded. -/
  | header
  /-- A command without any part in the structure. -/
  | plain
  /-- A command that belongs to a shorthand: a `dim` that waits for its expansion, or a generated
  command. -/
  | shorthand
  | leave
  | again
  | branch
  | elseBranch
  | otherwise
  | close
  | loop
  | skip
  /-- A hidden jump. -/
  | jump
  deriving DecidableEq, Repr

namespace Part

/-- The role of a node that plays this part. -/
def role : Part → Role
  | .idle | .header => .idle
  | .plain | .shorthand | .jump => .plain
  | .leave => .leave
  | .again => .again
  | .branch => .branch
  | .elseBranch => .elseBranch
  | .otherwise => .otherwise
  | .close => .close
  | .loop => .loop
  | .skip => .skip

def isLive : Part → Bool
  | .idle | .header | .otherwise | .close => false
  | _ => true

def opensBlock : Part → Bool
  | .branch | .loop | .otherwise | .elseBranch => true
  | _ => false

def isTest : Part → Bool
  | .branch | .elseBranch => true
  | _ => false

def continuesChain : Part → Bool
  | .otherwise | .elseBranch => true
  | _ => false

/-- Parts of nodes that stand alone: nothing hangs below them, and they can stand anywhere. -/
def isSingle : Part → Bool
  | .idle | .header | .plain | .shorthand => true
  | _ => false

def isExit : Part → Bool
  | .leave | .again => true
  | _ => false

def canBeSkipped : Part → Bool
  | .plain | .leave | .again | .skip | .jump => true
  | _ => false

/-- The part can stand at this place: a branch opens a chain, an alternative continues one. -/
def takesPlace : Bool → Part → Bool
  | true, p => p.continuesChain
  | false, p => decide (p = .branch)

theorem opensBlock_role (p : Part) : p.role.opensBlock = p.opensBlock := by cases p <;> rfl

theorem isTest_role (p : Part) : p.role.isTest = p.isTest := by cases p <;> rfl

theorem continuesChain_role (p : Part) : p.role.continuesChain = p.continuesChain := by
  cases p <;> rfl

theorem opensBlock_of_takesPlace {inChain : Bool} {p : Part} (h : p.takesPlace inChain = true) :
    p.opensBlock = true ∧ p ≠ .loop := by
  cases inChain <;> cases p <;> simp_all [takesPlace, continuesChain, opensBlock]

theorem eq_of_isExit {p : Part} (h : p.isExit = true) : p = .leave ∨ p = .again := by
  cases p <;> simp_all [isExit]

theorem eq_of_isTest {p : Part} (h : p.isTest = true) : p = .branch ∨ p = .elseBranch := by
  cases p <;> simp_all [isTest]

theorem isTest_of_isExit {p : Part} (h : p.isExit = true) : p.isTest = false := by
  rcases eq_of_isExit h with rfl | rfl <;> rfl

theorem isTest_of_isSingle {p : Part} (h : p.isSingle = true) : p.isTest = false := by
  cases p <;> first | rfl | cases h

/-- A part that stands alone or leaves a round neither opens nor closes a block. -/
theorem flat_of_isSingle {p : Part} (h : p.isSingle = true) :
    p.opensBlock = false ∧ p ≠ .close := by
  cases p <;> simp_all [isSingle, opensBlock]

theorem flat_of_isExit {p : Part} (h : p.isExit = true) : p.opensBlock = false ∧ p ≠ .close := by
  cases p <;> simp_all [isExit, opensBlock]

theorem ne_header_of_takesPlace {inChain : Bool} {p : Part} (h : p.takesPlace inChain = true) :
    p ≠ .header := by
  rintro rfl
  cases (opensBlock_of_takesPlace h).1

end Part

/-- The part of a line of the script. -/
def Statement.part (s : Statement) : Part :=
  match s.role with
  | .plain => if s.form.isShorthand then .shorthand else .plain
  | .idle => .idle
  | .branch => .branch
  | .loop => .loop
  | .skip => .skip
  | .otherwise => .otherwise
  | .elseBranch => .elseBranch
  | .close => .close
  | .leave => .leave
  | .again => .again

def Node.part (n : Node) : Part :=
  match n.origin with
  | .header => .header
  | .hiddenJump => .jump
  | .expanded => if n.statement.role = .plain then .shorthand else n.statement.part
  | .source => n.statement.part

def Tree.part (t : Tree) (id : NodeId) : Part := (t.node id).part

theorem Tree.Alike.part_eq {t u : Tree} (h : t.Alike u) : t.part = u.part := by
  funext id
  simp only [Tree.part, Node.part, (h.node id).origin, (h.node id).statement]

/-! ## Well-built rows -/

/-- How a row ends. -/
inductive Stop where
  /-- With its last command. -/
  | script
  /-- With an `end`. -/
  | close
  /-- With a hidden jump and an `end`. -/
  | loop
  /-- With a hidden jump. -/
  | jump
  deriving DecidableEq, Repr

/-- What can hang below a `skip if`: idle lines, then one command. -/
inductive Skipped (part : NodeId → Part) (inLoop : Bool) : Forest → Prop
  | idle {id : NodeId} {after : Forest} (hid : part id = .idle)
      (hafter : Skipped part inLoop after) :
      Skipped part inLoop (.node id .nil after)
  | plain {id : NodeId} (hid : part id = .plain) : Skipped part inLoop (.node id .nil .nil)
  | exit {id : NodeId} (hid : (part id).isExit = true) (hloop : inLoop = true) :
      Skipped part inLoop (.node id .nil .nil)
  | skip {id : NodeId} {below : Forest} (hid : part id = .skip)
      (hbelow : Skipped part inLoop below) :
      Skipped part inLoop (.node id below .nil)

/-- A well-built row. `inLoop` says whether it stands inside of a loop, `inChain` whether it goes on
with an alternative to the test before it, and `stop` how it ends. -/
inductive Block (part : NodeId → Part) : Bool → Bool → Stop → Forest → Prop
  | script {inLoop : Bool} : Block part inLoop false .script .nil
  | close {inLoop : Bool} {id : NodeId} (hid : part id = .close) :
      Block part inLoop false .close (.node id .nil .nil)
  | jump {inLoop : Bool} {id : NodeId} (hid : part id = .jump) :
      Block part inLoop false .jump (.node id .nil .nil)
  | round {inLoop : Bool} {id last : NodeId} (hid : part id = .jump) (hlast : part last = .close) :
      Block part inLoop false .loop (.node id .nil (.node last .nil .nil))
  | single {inLoop : Bool} {stop : Stop} {id : NodeId} {after : Forest}
      (hid : (part id).isSingle = true) (hafter : Block part inLoop false stop after) :
      Block part inLoop false stop (.node id .nil after)
  | exit {stop : Stop} {id : NodeId} {after : Forest}
      (hid : (part id).isExit = true) (hafter : Block part true false stop after) :
      Block part true false stop (.node id .nil after)
  | skip {inLoop : Bool} {stop : Stop} {id : NodeId} {below after : Forest} (hid : part id = .skip)
      (hbelow : Skipped part inLoop below) (hafter : Block part inLoop false stop after) :
      Block part inLoop false stop (.node id below after)
  | loop {inLoop : Bool} {stop : Stop} {id : NodeId} {below after : Forest} (hid : part id = .loop)
      (hbelow : Block part true false .loop below) (hafter : Block part inLoop false stop after) :
      Block part inLoop false stop (.node id below after)
  | closed {inLoop inChain : Bool} {stop : Stop} {id : NodeId} {below after : Forest}
      (hid : (part id).takesPlace inChain = true)
      (hbelow : Block part inLoop false .close below)
      (hafter : Block part inLoop false stop after) :
      Block part inLoop inChain stop (.node id below after)
  | continued {inLoop inChain : Bool} {stop : Stop} {id : NodeId} {below after : Forest}
      (hid : (part id).takesPlace inChain = true) (htest : (part id).isTest = true)
      (hbelow : Block part inLoop false .jump below) (hafter : Block part inLoop true stop after) :
      Block part inLoop inChain stop (.node id below after)

theorem Skipped.congr {part part' : NodeId → Part} {inLoop : Bool} {f : Forest}
    (h : Skipped part inLoop f) (hpart : ∀ id ∈ f.ids, part' id = part id) :
    Skipped part' inLoop f := by
  induction h with
  | idle hid _ ih =>
    obtain ⟨hnode, -, hafter⟩ := Forest.forall_ids_node.mp hpart
    exact .idle (by rw [hnode, hid]) (ih hafter)
  | plain hid => exact .plain (by rw [hpart _ (by simp), hid])
  | exit hid hloop => exact .exit (by rw [hpart _ (by simp), hid]) hloop
  | skip hid _ ih =>
    obtain ⟨hnode, hbelow, -⟩ := Forest.forall_ids_node.mp hpart
    exact .skip (by rw [hnode, hid]) (ih hbelow)

/-- Only the parts of its own nodes decide whether a row is well built. -/
theorem Block.congr {part part' : NodeId → Part} {inLoop inChain : Bool} {stop : Stop} {f : Forest}
    (h : Block part inLoop inChain stop f) (hpart : ∀ id ∈ f.ids, part' id = part id) :
    Block part' inLoop inChain stop f := by
  induction h with
  | script => exact .script
  | close hid => exact .close (by rw [hpart _ (by simp), hid])
  | jump hid => exact .jump (by rw [hpart _ (by simp), hid])
  | round hid hlast =>
    exact .round (by rw [hpart _ (by simp), hid]) (by rw [hpart _ (by simp), hlast])
  | single hid _ ih =>
    obtain ⟨hnode, -, hafter⟩ := Forest.forall_ids_node.mp hpart
    exact .single (by rw [hnode, hid]) (ih hafter)
  | exit hid _ ih =>
    obtain ⟨hnode, -, hafter⟩ := Forest.forall_ids_node.mp hpart
    exact .exit (by rw [hnode, hid]) (ih hafter)
  | skip hid hskipped _ ih =>
    obtain ⟨hnode, hbelow, hafter⟩ := Forest.forall_ids_node.mp hpart
    exact .skip (by rw [hnode, hid]) (hskipped.congr hbelow) (ih hafter)
  | loop hid _ _ ihb iha =>
    obtain ⟨hnode, hbelow, hafter⟩ := Forest.forall_ids_node.mp hpart
    exact .loop (by rw [hnode, hid]) (ihb hbelow) (iha hafter)
  | closed hid _ _ ihb iha =>
    obtain ⟨hnode, hbelow, hafter⟩ := Forest.forall_ids_node.mp hpart
    exact .closed (by rw [hnode, hid]) (ihb hbelow) (iha hafter)
  | continued hid htest _ _ ihb iha =>
    obtain ⟨hnode, hbelow, hafter⟩ := Forest.forall_ids_node.mp hpart
    exact .continued (by rw [hnode, hid]) (by rw [hnode, htest]) (ihb hbelow) (iha hafter)

end GameScript
