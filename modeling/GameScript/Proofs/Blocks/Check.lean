import GameScript.Analysis.Blocks
import GameScript.Proofs.Blocks.Part

/-!
# The check of the block structure, read on the shape

`Sound` states on a forest what the check of the block structure asks of each node of a tree: it
looks at the neighbours of a node, at what is below it and at the blocks around it, and at nothing
else.

* `Block.sound`: a well-built row is sound.
* `sound_iff`: no node of a tree has a problem exactly when the shape of the tree is sound.
* `checkBlocks_log`: the diagnostics of the check are those of the nodes, in the order of execution.
-/

namespace GameScript

/-! ## Sound rows -/

def Forest.isClosed (part : NodeId → Part) (f : Forest) : Bool :=
  f.roots.getLast?.any fun id => decide (part id = .close)

def Forest.isContinued (part : NodeId → Part) (f : Forest) : Bool :=
  f.roots.head?.any fun id => (part id).continuesChain

/-- A block with its own `end`, or a test that an alternative follows. -/
def Forest.isCompleted (part : NodeId → Part) (id : NodeId) (below after : Forest) : Bool :=
  below.isClosed part || ((part id).isTest && after.isContinued part)

/-- Exactly one command is skipped, and it is neither a block nor part of a shorthand. -/
def SkipsOne (ps : List Part) : Prop :=
  Part.header ∉ ps ∧ ∃ p, ps.filter Part.isLive = [p] ∧ p.canBeSkipped = true

/-- What is asked of a node. `inBlock` says whether it stands in a block, `inLoop` whether some loop
is around it, `isOpen` whether the sibling before it is a test without an `end`. -/
def NodeSound (part : NodeId → Part) (inBlock inLoop isOpen : Bool) (id : NodeId)
    (below after : Forest) :
    Prop :=
  match part id with
  | .otherwise | .elseBranch => isOpen = true ∧ Forest.isCompleted part id below after = true
  | .close => inBlock = true ∧ after = .nil
  | .branch | .loop => Forest.isCompleted part id below after = true
  | .skip => SkipsOne (below.roots.map part)
  | .leave | .again => inLoop = true
  | _ => True

def Sound (part : NodeId → Part) : Bool → Bool → Bool → Forest → Prop
  | _, _, _, .nil => True
  | inBlock, inLoop, isOpen, .node id below after =>
    NodeSound part inBlock inLoop isOpen id below after ∧
      Sound part (part id).opensBlock (decide (part id = .loop) || inLoop) false below ∧
      Sound part inBlock inLoop ((part id).isTest && !below.isClosed part) after

/-! ## Well-built rows are sound -/

theorem Forest.isClosed_node (part : NodeId → Part) (id : NodeId) (below after : Forest) :
    (Forest.node id below after).isClosed part =
      if after = .nil then decide (part id = .close) else after.isClosed part := by
  cases after with
  | nil => simp [isClosed]
  | node next below' after' => simp [isClosed]

variable {part : NodeId → Part} {inBlock inChain inLoop : Bool} {stop : Stop}
  {after below f : Forest} {id : NodeId}

theorem Block.ne_nil (h : Block part inLoop inChain stop f) (hstop : stop ≠ .script) :
    f ≠ .nil := by
  cases h <;> simp_all

/-- The `end` of a row is told by how the row stops. -/
theorem Block.isClosed_eq (h : Block part inLoop inChain stop f) :
    f.isClosed part = decide (stop = .close ∨ stop = .loop) := by
  -- A row that goes on is closed as its rest is; one that ends here ends with a node that is no
  -- `end`.
  have step : ∀ {id below after} {stop : Stop}, part id ≠ .close →
      (after = Forest.nil → stop = .script) →
      after.isClosed part = decide (stop = .close ∨ stop = .loop) →
      (Forest.node id below after).isClosed part = decide (stop = .close ∨ stop = .loop) := by
    intro id below after stop hid hnil hafter
    rw [Forest.isClosed_node]
    split
    · next hn => simp [hnil hn, hid]
    · exact hafter
  have stops : ∀ {inLoop inChain stop after}, Block part inLoop inChain stop after →
      after = .nil → stop = .script := by
    intro inLoop inChain stop after hb hn
    by_contra hstop
    exact hb.ne_nil hstop hn
  induction h with
  | script => rfl
  | close hid => simp [Forest.isClosed, hid]
  | jump hid => simp [Forest.isClosed, hid]
  | round hid hlast => simp [Forest.isClosed, hlast]
  | single hid hafter ih =>
    exact step (by rintro hc; simp [hc, Part.isSingle] at hid) (stops hafter) ih
  | exit hid hafter ih => exact step (by rintro hc; simp [hc, Part.isExit] at hid) (stops hafter) ih
  | skip hid _ hafter ih => exact step (by simp [hid]) (stops hafter) ih
  | loop hid _ hafter _ ih => exact step (by simp [hid]) (stops hafter) ih
  | closed hid _ hafter _ ih =>
    refine step ?_ (stops hafter) ih
    rintro hc
    simpa [hc, Part.opensBlock] using Part.opensBlock_of_takesPlace hid
  | continued _ htest _ hafter _ ih =>
    refine step ?_ (stops hafter) ih
    rintro hc
    simp [hc, Part.isTest] at htest

theorem Skipped.skipsOne (h : Skipped part inLoop f) : SkipsOne (f.roots.map part) := by
  induction h with
  | idle hid _ ih =>
    obtain ⟨hheader, p, hp, hskip⟩ := ih
    refine ⟨?_, p, ?_, hskip⟩
    · simpa [hid] using hheader
    · simpa [hid, Part.isLive] using hp
  | plain hid => exact ⟨by simp [hid], .plain, by simp [hid, Part.isLive], rfl⟩
  | @exit id hid _ =>
    rcases Part.eq_of_isExit hid with hp | hp
    · exact ⟨by simp [hp], .leave, by simp [hp, Part.isLive], rfl⟩
    · exact ⟨by simp [hp], .again, by simp [hp, Part.isLive], rfl⟩
  | skip hid _ _ => exact ⟨by simp [hid], .skip, by simp [hid, Part.isLive], rfl⟩

theorem nodeSound_of_isSingle {isOpen : Bool} (hid : (part id).isSingle = true) :
    NodeSound part inBlock inLoop isOpen id below after := by
  cases hp : part id <;> simp_all [NodeSound, Part.isSingle]

theorem nodeSound_of_isExit {isOpen : Bool} (hid : (part id).isExit = true)
    (hloop : inLoop = true) :
    NodeSound part inBlock inLoop isOpen id below after := by
  rcases Part.eq_of_isExit hid with hp | hp <;> simpa [NodeSound, hp] using hloop

theorem nodeSound_of_takesPlace (hid : (part id).takesPlace inChain = true)
    (hcompleted : Forest.isCompleted part id below after = true) :
    NodeSound part inBlock inLoop inChain id below after := by
  cases inChain <;> cases hp : part id <;>
    simp_all [NodeSound, Part.takesPlace, Part.continuesChain]

theorem Skipped.sound (h : Skipped part inLoop f) : Sound part inBlock inLoop false f := by
  induction h generalizing inBlock with
  | idle hid _ ih =>
    refine ⟨nodeSound_of_isSingle (by rw [hid]; rfl), trivial, ?_⟩
    simpa [hid, Part.isTest] using ih
  | plain hid => exact ⟨nodeSound_of_isSingle (by rw [hid]; rfl), trivial, trivial⟩
  | exit hid hloop => exact ⟨nodeSound_of_isExit hid hloop, trivial, trivial⟩
  | skip hid hbelow ih =>
    refine ⟨?_, ?_, trivial⟩
    · simpa [NodeSound, hid] using hbelow.skipsOne
    · simpa [hid] using ih

/-- A row after an open test starts with an alternative. -/
theorem Block.isContinued (h : Block part inLoop true stop f) : f.isContinued part = true := by
  cases h with
  | closed hid _ _ => exact hid
  | continued hid _ _ _ => exact hid

theorem Block.sound (h : Block part inLoop inChain stop f)
    (hstop : stop ≠ .script → inBlock = true) :
    Sound part inBlock inLoop inChain f := by
  induction h generalizing inBlock with
  | script => trivial
  | close hid => exact ⟨by simp [NodeSound, hid, hstop], trivial, trivial⟩
  | jump hid => exact ⟨by simp [NodeSound, hid], trivial, trivial⟩
  | round hid hlast =>
    exact ⟨by simp [NodeSound, hid], trivial, by simp [NodeSound, hlast, hstop], trivial, trivial⟩
  | single hid _ ih =>
    refine ⟨nodeSound_of_isSingle hid, trivial, ?_⟩
    simpa [Part.isTest_of_isSingle hid] using ih hstop
  | exit hid _ ih =>
    refine ⟨nodeSound_of_isExit hid rfl, trivial, ?_⟩
    simpa [Part.isTest_of_isExit hid] using ih hstop
  | skip hid hbelow _ ih =>
    refine ⟨?_, ?_, ?_⟩
    · simpa [NodeSound, hid] using hbelow.skipsOne
    · simpa [hid] using hbelow.sound
    · simpa [hid, Part.isTest] using ih hstop
  | loop hid hbelow _ ihb iha =>
    refine ⟨?_, ?_, ?_⟩
    · simp [NodeSound, hid, Forest.isCompleted, hbelow.isClosed_eq]
    · simpa [hid] using ihb fun _ => (rfl : Part.loop.opensBlock = true)
    · simpa [hid, Part.isTest] using iha hstop
  | closed hid hbelow _ ihb iha =>
    obtain ⟨hopens, hloop⟩ := Part.opensBlock_of_takesPlace hid
    refine ⟨nodeSound_of_takesPlace hid ?_, ?_, ?_⟩
    · simp [Forest.isCompleted, hbelow.isClosed_eq]
    · simpa [hloop] using ihb fun _ => hopens
    · simpa [hbelow.isClosed_eq] using iha hstop
  | continued hid htest hbelow hafter ihb iha =>
    obtain ⟨hopens, hloop⟩ := Part.opensBlock_of_takesPlace hid
    refine ⟨nodeSound_of_takesPlace hid ?_, ?_, ?_⟩
    · simp [Forest.isCompleted, htest, hafter.isContinued]
    · simpa [hloop] using ihb fun _ => hopens
    · simpa [htest, hbelow.isClosed_eq] using iha hstop

/-! ## Problems of nodes -/

/-- The part of a node tells its role and whether it is executed. -/
structure Node.Regular (n : Node) : Prop where
  role : n.role = n.part.role
  live : n.isLive = n.part.isLive
  commented : n.statement.commented = true → n.part = .idle
  expanded : n.origin = .expanded → n.part = .shorthand ∨ n.part = .loop

/-- The node was generated if it belongs to a shorthand: no shorthand waits for its expansion. -/
def Node.Settled (n : Node) : Prop := n.part = .shorthand → n.origin = .expanded

namespace Tree

variable {t : Tree} {parent id : NodeId} {up earlier before behind : List NodeId}
  {below after : Forest}

theorem role_eq_role (h : (t.node id).Regular) : t.role id = (t.part id).role := h.role

/-- A skipped command is a block exactly when its part cannot be skipped. -/
theorem isBlock_eq (h : (t.node id).Regular) (hs : (t.node id).Settled)
    (hlive : (t.node id).isLive = true) :
    ((t.node id).role.opensBlock || (t.node id).origin == .expanded) =
      !(t.part id).canBeSkipped := by
  have hexpanded : ((t.node id).origin == .expanded) = true → t.part id = .shorthand ∨
      t.part id = .loop :=
    fun he => h.expanded (by simpa using he)
  have hsettled : t.part id = .shorthand → ((t.node id).origin == .expanded) = true :=
    fun hp => by simpa using hs hp
  rw [h.live] at hlive
  rw [h.role]
  change (t.part id).isLive = true at hlive
  change ((t.part id).role.opensBlock || _) = _
  generalize ((t.node id).origin == .expanded) = e at *
  cases hp : t.part id <;> cases e <;> simp_all [Part.role, Role.opensBlock, Part.canBeSkipped,
    Part.isLive]

theorem part_eq_header_iff (t : Tree) (id : NodeId) :
    t.part id = .header ↔ (t.node id).origin = .header := by
  have hstatement : (t.node id).statement.part ≠ .header := by
    simp only [Statement.part]
    split <;> first | (split <;> simp) | simp
  simp only [part, Node.part]
  split <;> (try split) <;> simp_all

section

variable (h : t.Row parent up earlier before (.node id below after) behind)

include h

theorem skipProblem?_eq_none
    (hregular : ∀ j ∈ below.roots, (t.node j).Regular)
    (hsettled : ∀ j ∈ below.roots, (t.node j).Settled) :
    t.skipProblem? id = none ↔ SkipsOne (below.roots.map t.part) := by
  have hlive : below.roots.filter (fun j => (t.node j).isLive) =
      below.roots.filter (Part.isLive ∘ t.part) :=
    List.filter_congr fun j hj => (hregular j hj).live
  have hheader : (below.roots.any fun j => (t.node j).origin == .header) = true ↔
      Part.header ∈ below.roots.map t.part := by
    simp only [List.any_eq_true, List.mem_map, part_eq_header_iff, beq_iff_eq]
  have hblock : ∀ j ∈ below.roots.filter (Part.isLive ∘ t.part),
      ((t.node j).role.opensBlock || (t.node j).origin == .expanded) =
        !(t.part j).canBeSkipped := by
    intro j hj
    rw [← hlive, List.mem_filter] at hj
    exact isBlock_eq (hregular j hj.1) (hsettled j hj.1) hj.2
  simp only [skipProblem?, h.children_eq, hlive, SkipsOne, List.filter_map]
  -- Zero, one or more executed children.
  match hskipped : below.roots.filter (Part.isLive ∘ t.part) with
  | [] =>
    simp only [List.map_nil, List.nil_eq, List.cons_ne_self]
    split <;> simp
  | [j] =>
    have hj := hblock j (by simp [hskipped])
    by_cases hmem : Part.header ∈ below.roots.map t.part
    · simp [hmem, hheader.mpr hmem]
    · have hnone : (below.roots.any fun j => (t.node j).origin == .header) = false := by
        rw [Bool.eq_false_iff]
        exact fun hc => hmem (hheader.mp hc)
      simp [hmem, hnone, hj]
  | j :: k :: rest => simp

theorem isClosed_eq (hregular : ∀ j, (t.node j).Regular) :
    t.isClosed id = below.isClosed t.part := by
  rw [isClosed, h.lastChild?_eq, Forest.isClosed]
  cases below.roots.getLast? with
  | none => rfl
  | some last =>
    simp only [role_eq_role (hregular last), Option.any_some]
    cases t.part last <;> rfl

theorem isCompleted_eq (hregular : ∀ j, (t.node j).Regular) :
    t.isCompleted id (t.role id) = Forest.isCompleted t.part id below after := by
  have hnext : ((t.next? id).any fun next => (t.role next).continuesChain) =
      after.isContinued t.part := by
    rw [h.next?_eq, Forest.isContinued]
    cases after.roots.head? with
    | none => rfl
    | some next => simp [role_eq_role (hregular next), Part.continuesChain_role]
  rw [isCompleted, isClosed_eq h hregular, hnext, role_eq_role (hregular id), Part.isTest_role,
    Forest.isCompleted]

end

/-- The sibling before a node is a test that was not closed. -/
def opensChain (t : Tree) (earlier : List NodeId) : Bool :=
  earlier.getLast?.any fun previous => (t.part previous).isTest && !t.isClosed previous

section

variable (h : t.Row parent up earlier before (.node id below after) behind)

include h

theorem continuesBranch_eq (hregular : ∀ j, (t.node j).Regular) :
    t.continuesBranch id = t.opensChain earlier := by
  simp only [continuesBranch, opensChain, h.previous?_eq, role_eq_role (hregular _),
    Part.isTest_role]

theorem endsBlock_eq (hregular : ∀ j, (t.node j).Regular) (hroot : t.part root = .idle) :
    t.endsBlock id = ((t.part parent).opensBlock && decide (after = .nil)) := by
  have hlast : (t.lastChild? parent == some id) = decide (after = .nil) := by
    rw [lastChild?, ← Array.getLast?_toList, h.siblings]
    cases after with
    | nil => simp
    | node next below' after' =>
      have hlater : (next :: after'.roots).getLast? ≠ some id := by
        intro hc
        have hmem : id ∈ (Forest.node next below' after').ids :=
          Forest.mem_ids_of_mem_roots (List.mem_of_getLast? hc)
        have hnodup := h.nodup
        simp only [List.nodup_cons, Forest.ids_node id, List.append_assoc, List.nodup_append,
          List.cons_append, List.mem_append, not_or] at hnodup
        exact hnodup.2.2.1.1.2.1 hmem
      simp only [Forest.roots_node, List.getLast?_append_of_ne_nil _ (List.cons_ne_nil _ _),
        List.getLast?_cons_cons]
      simpa using hlater
  have hparent : (parent != root && (t.part parent).opensBlock) = (t.part parent).opensBlock := by
    by_cases hp : parent = root
    · simp [hp, hroot, Part.opensBlock]
    · simp [hp]
  simp only [endsBlock, h.parent?_eq, Option.any_some, role_eq_role (hregular _),
    Part.opensBlock_role, hlast, hparent]

theorem isSome_enclosingLoop? (hregular : ∀ j, (t.node j).Regular) :
    (t.enclosingLoop? id).isSome = (parent :: up).any fun j => decide (t.part j = .loop) := by
  have hrole : (fun j => t.role j == .loop) = fun j => decide (t.part j = .loop) := by
    funext j
    rw [role_eq_role (hregular j)]
    cases t.part j <;> rfl
  rw [enclosingLoop?, h.ancestors_eq, hrole, Bool.eq_iff_iff, List.find?_isSome, List.any_eq_true]

/-- A node has no problem exactly when the shape around it is as asked. -/
theorem blockProblem?_eq_none (hregular : ∀ j, (t.node j).Regular)
    (hsettled : ∀ j, (t.node j).Settled) (hroot : t.part root = .idle) :
    t.blockProblem? id = none ↔
      NodeSound t.part (t.part parent).opensBlock ((parent :: up).any fun j =>
        decide (t.part j = .loop))
        (t.opensChain earlier) id below after := by
  have hcompleted := isCompleted_eq h hregular
  have hopen := continuesBranch_eq h hregular
  have hend := endsBlock_eq h hregular hroot
  have hloop := isSome_enclosingLoop? h hregular
  have hskip := skipProblem?_eq_none h (fun j _ => hregular j) (fun j _ => hsettled j)
  rw [role_eq_role (hregular id)] at hcompleted
  generalize ((parent :: up).any fun j => decide (t.part j = .loop)) = inLoop at hloop ⊢
  simp only [blockProblem?, unclosed?, role_eq_role (hregular id), NodeSound]
  cases hp : t.part id <;> simp only [hp, Part.role] at hcompleted ⊢
  all_goals simp only [hcompleted, hopen, hend, hloop, hskip]
  all_goals repeat' split
  all_goals simp_all

end

/-- No node of a tree has a problem exactly when the shape of the tree is sound. -/
theorem sound_iff {f : Forest} (h : t.Row parent up earlier before f behind)
    (hregular : ∀ j, (t.node j).Regular) (hsettled : ∀ j, (t.node j).Settled)
    (hroot : t.part root = .idle) :
    (∀ id ∈ f.ids, t.blockProblem? id = none) ↔
      Sound t.part (t.part parent).opensBlock ((parent :: up).any fun j =>
        decide (t.part j = .loop))
        (t.opensChain earlier) f := by
  induction f generalizing parent up earlier before behind with
  | nil => simp [Sound]
  | node id below after ihb iha =>
    have hhere := blockProblem?_eq_none h hregular hsettled hroot
    have hbelow := ihb h.inner
    have hafter := iha h.rest
    have hopen : t.opensChain (earlier ++ [id]) =
        ((t.part id).isTest && !below.isClosed t.part) := by
      simp [opensChain, isClosed_eq h hregular]
    rw [hopen] at hafter
    simp only [Sound, ← hhere, ← hafter]
    rw [show t.opensChain [] = false from rfl, List.any_cons] at hbelow
    rw [← hbelow]
    simp only [Forest.ids_node, List.mem_cons, List.mem_append]
    grind

end Tree

/-! ## The pass -/

/-- Trees of the same structure have the same problems. -/
theorem Tree.Akin.blockProblem?_eq {t u : Tree} (h : t.Akin u) :
    t.blockProblem? = u.blockProblem? := by
  have hcompleted : t.isCompleted = u.isCompleted := by
    funext id role
    simp only [isCompleted, h.isClosed_eq, h.next?_eq, h.role_eq]
  have hunclosed : t.unclosed? = u.unclosed? := by
    funext id role
    simp only [unclosed?, hcompleted, openerText, h.origin_eq, h.header_eq, h.text_eq]
  have hcontinues : t.continuesBranch = u.continuesBranch := by
    funext id
    simp only [continuesBranch, h.previous?_eq, h.isClosed_eq, h.role_eq]
  have hends : t.endsBlock = u.endsBlock := by
    funext id
    simp only [endsBlock, h.parent?_eq, h.role_eq, h.lastChild?_eq]
  have hskip : t.skipProblem? = u.skipProblem? := by
    funext id
    have hrole : ∀ j, (t.node j).role = (u.node j).role := congrFun h.role_eq
    simp only [skipProblem?, h.children_eq, h.isLive_eq, hrole, h.origin_eq]
  funext id
  simp only [blockProblem?, hunclosed, hcontinues, hends, hskip, h.enclosingLoop?_eq, h.role_eq]

def Tree.blockDiagnostic? (t : Tree) (id : NodeId) : Option Diagnostic :=
  if (t.node id).statement.commented then none
  else (t.blockProblem? id).map fun p => .of p (t.node id).statement.line
  (t.node id).statement.display

theorem Tree.Alike.blockDiagnostic?_eq {t u : Tree} (h : t.Alike u) :
    t.blockDiagnostic? = u.blockDiagnostic? := by
  funext id
  simp only [blockDiagnostic?, h.blockProblem?_eq, h.statement_eq]

namespace Session

theorem checkBlock_spec (s : Session) (id : NodeId) : s.tree.Alike (s.checkBlock id).tree ∧
      (s.checkBlock id).log.toList = s.log.toList ++ (s.tree.blockDiagnostic? id).toList := by
  simp only [checkBlock, Tree.blockDiagnostic?, node]
  by_cases hcommented : (s.tree.node id).statement.commented = true
  · simp only [hcommented, if_true]
    exact ⟨.refl _, by simp⟩
  · simp only [hcommented]
    cases s.tree.blockProblem? id with
    | none => exact ⟨.refl _, by simp⟩
    | some p => exact ⟨.modify _ _ fun n => ⟨rfl, rfl, rfl, rfl, rfl, rfl⟩, by simp [report, node]⟩

/-- The diagnostics of the check are those of the nodes, in the order of execution. -/
theorem checkBlocks_log (s : Session) :
    s.checkBlocks.log.toList = s.log.toList ++
      s.tree.preorder.filterMap s.tree.blockDiagnostic? := by
  have run : ∀ (ids : List NodeId) (u : Session), s.tree.Alike u.tree →
      (ids.foldl checkBlock u).log.toList = u.log.toList ++
        ids.filterMap s.tree.blockDiagnostic? := by
    intro ids
    induction ids with
    | nil => simp
    | cons id rest ih =>
      intro u hu
      obtain ⟨halike, hlog⟩ := checkBlock_spec u id
      rw [List.foldl_cons, ih _ (hu.trans halike), hlog, hu.blockDiagnostic?_eq]
      cases hd : u.tree.blockDiagnostic? id with
      | none => simp [hd]
      | some d => simp [hd]
  exact run _ s (.refl _)

end Session

end GameScript
