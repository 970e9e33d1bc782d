import GameScript.Proofs.Compile.Acceptance
import GameScript.Proofs.Execution.Commands

/-!
# Compiled scripts do what their blocks say

The engine executes the commands of a script exactly as the structured runs of its blocks do.

* `Structured.Runs.steps`: the engine follows every structured run, by induction on the run.
* `execution_refines_structure`: so the engine stops where a structured run does, with the same
  commands executed, and goes on forever when the structured runs do.
-/

namespace GameScript

universe u

/-! ## Rows as code -/

/-- A well-built row whose commands stand from `n` on and whose jumps lead where the shape says. -/
structure Laid (t : Tree) (cmd : NodeId → Command) (o : Output) (inLoop inChain : Bool)
    (stop : Stop) (n : Nat) (loop : Option (Nat × Nat)) (exit : Nat) (f : Forest) : Prop where
  block : Block t.part inLoop inChain stop f
  linked : Linked t.part (fun id => (cmd id).target?) n loop exit f
  placed : Placed t cmd o n f

theorem Skipped.block {part : NodeId → Part} {inLoop : Bool} {f : Forest}
    (h : Skipped part inLoop f) :
    Block part inLoop false .script f := by
  induction h with
  | idle hid _ ih => exact .single (by rw [hid]; rfl) ih
  | plain hid => exact .single (by rw [hid]; rfl) .script
  | exit hid hloop =>
    subst hloop
    exact .exit hid .script
  | skip hid hbelow _ => exact .skip hid hbelow .script

/-- A row that does not go on with an alternative starts with none. -/
theorem Block.afterChain_eq {part : NodeId → Part} {inLoop : Bool} {stop : Stop} {f : Forest}
    (h : Block part inLoop false stop f) : f.afterChain part = f := by
  have hnode : ∀ id below after, (part id).continuesChain = false →
      (Forest.node id below after).afterChain part = .node id below after := by
    intro id below after hid
    rw [Forest.afterChain, hid]
    rfl
  cases h with
  | script => rfl
  | close hid | jump hid | round hid _ | skip hid _ _ | loop hid _ _ =>
    exact hnode _ _ _ (by rw [hid]; rfl)
  | single hid _ =>
    exact hnode _ _ _ (by revert hid; cases part _ <;> simp [Part.isSingle, Part.continuesChain])
  | exit hid _ =>
    exact hnode _ _ _ (by rcases Part.eq_of_isExit hid with hp | hp <;> rw [hp] <;> rfl)
  | closed hid _ _ | continued hid _ _ _ => exact hnode _ _ _ (by rw [of_decide_eq_true hid]; rfl)

/-! ## Rows by their first node -/

namespace Block

variable {part : NodeId → Part} {inLoop inChain : Bool} {stop : Stop} {id : NodeId}
  {below after : Forest}

section

variable (h : Block part inLoop inChain stop (.node id below after))

include h

theorem of_single (hid : (part id).isSingle = true) :
    below = .nil ∧ Block part inLoop false stop after := by
  cases h with
  | single _ hafter => exact ⟨rfl, hafter⟩
  | close hp | jump hp | round hp _ | skip hp _ _ | loop hp _ _ => simp [hp, Part.isSingle] at hid
  | exit hp _ => rcases Part.eq_of_isExit hp with hp | hp <;> simp [hp, Part.isSingle] at hid
  | closed hp _ _ | continued hp _ _ _ =>
    have hopens := (Part.opensBlock_of_takesPlace hp).1
    revert hid hopens
    cases part id <;> simp [Part.isSingle, Part.opensBlock]

theorem of_exit (hid : (part id).isExit = true) : inLoop = true := by
  cases h with
  | exit => rfl
  | close hp | jump hp | round hp _ | skip hp _ _ | loop hp _ _ => simp [hp, Part.isExit] at hid
  | single hp _ => rcases Part.eq_of_isExit hid with hq | hq <;> simp [hq, Part.isSingle] at hp
  | closed hp _ _ | continued hp _ _ _ =>
    have hopens := (Part.opensBlock_of_takesPlace hp).1
    rcases Part.eq_of_isExit hid with hq | hq <;> simp [hq, Part.opensBlock] at hopens

theorem of_skip (hid : part id = .skip) : Skipped part inLoop below ∧
    Block part inLoop false stop after := by
  cases h with
  | skip _ hbelow hafter => exact ⟨hbelow, hafter⟩
  | close hp | jump hp | round hp _ | loop hp _ _ => simp [hp] at hid
  | single hp _ | exit hp _ => simp [hid, Part.isSingle, Part.isExit] at hp
  | closed hp _ _ | continued hp _ _ _ =>
    simpa [hid, Part.opensBlock] using (Part.opensBlock_of_takesPlace hp).1

theorem of_loop (hid : part id = .loop) : Block part true false .loop below ∧
    Block part inLoop false stop after := by
  cases h with
  | loop _ hbelow hafter => exact ⟨hbelow, hafter⟩
  | close hp | jump hp | round hp _ | skip hp _ _ => simp [hp] at hid
  | single hp _ | exit hp _ => simp [hid, Part.isSingle, Part.isExit] at hp
  | closed hp _ _ | continued hp _ _ _ => exact absurd hid (Part.opensBlock_of_takesPlace hp).2

/-- A branch or an alternative is closed, or it is a test that goes on with an alternative. -/
theorem of_branch (hid : (part id).opensBlock = true) (hloop : part id ≠ .loop) :
    (Block part inLoop false .close below ∧ Block part inLoop false stop after) ∨
      ((part id).isTest = true ∧ Block part inLoop false .jump below ∧
        Block part inLoop true stop after) := by
  cases h with
  | closed _ hbelow hafter => exact .inl ⟨hbelow, hafter⟩
  | continued _ htest hbelow hafter => exact .inr ⟨htest, hbelow, hafter⟩
  | close hp | jump hp | round hp _ | skip hp _ _ => simp [hp, Part.opensBlock] at hid
  | loop hp _ _ => exact absurd hp hloop
  | single hp _ =>
    revert hid hp
    cases part id <;> simp [Part.isSingle, Part.opensBlock]
  | exit hp _ => rcases Part.eq_of_isExit hp with hp | hp <;> simp [hp, Part.opensBlock] at hid

/-- An `end` or a hidden jump closes the row: nothing but an `end` follows. -/
theorem of_last (hid : part id = .close ∨ part id = .jump) :
    (part id = .close ∧ stop = .close ∧ below = .nil ∧ after = .nil) ∨
      (part id = .jump ∧ stop ≠ .script ∧ stop ≠ .close ∧ ∀ j ∈ after.roots, part j = .close) := by
  cases h with
  | close hp => exact .inl ⟨hp, rfl, rfl, rfl⟩
  | jump hp => exact .inr ⟨hp, by decide, by decide, by simp⟩
  | round hp hlast => exact .inr ⟨hp, by decide, by decide, by simpa using hlast⟩
  | skip hp _ _ | loop hp _ _ => simp [hp] at hid
  | single hp _ | exit hp _ =>
    rcases hid with hid | hid <;> simp [hid, Part.isSingle, Part.isExit] at hp
  | closed hp _ _ | continued hp _ _ _ =>
    have hopens := (Part.opensBlock_of_takesPlace hp).1
    rcases hid with hid | hid <;> simp [hid, Part.opensBlock] at hopens

end

end Block

/-- The number behind a row, from the numbers of its first node and of the rest. -/
theorem Forest.add_count_node (part : NodeId → Part) (n : Nat) (id : NodeId)
    (below after : Forest) :
    n + (node id below after).count part = n + (part id).isLive.toNat + below.count part +
      after.count part := by
  rw [count]
  omega

section Rows

variable {t : Tree} {cmd : NodeId → Command} {o : Output} {inLoop inChain : Bool} {stop : Stop}
  {n exit : Nat} {loop : Option (Nat × Nat)} {id : NodeId} {below after f : Forest}

/-- Behind the alternatives of a chain the row goes on where the hidden jumps of the chain lead. -/
theorem Laid.afterChain {before : Forest} (h : Laid t cmd o inLoop true stop n loop exit f)
    (hopen : before.isClosed t.part = false) :
    Laid t cmd o inLoop false stop (before.chainExit t.part n f) loop exit (f.afterChain t.part) ∧
      n + f.count t.part = before.chainExit t.part n f + (f.afterChain t.part).count t.part := by
  induction f generalizing before n with
  | nil => cases h.block
  | node id below after _ ih =>
    obtain ⟨hblock, ⟨-, -, hlinked⟩, -, -, hplaced⟩ := h
    have hexit : before.chainExit t.part n (.node id below after) =
        below.chainExit t.part (n + (t.part id).isLive.toNat + below.count t.part) after := by
      rw [Forest.chainExit, hopen]
      rfl
    have hchain : (t.part id).continuesChain = true := by
      cases hblock with
      | closed hid _ _ | continued hid _ _ _ => exact hid
    have hafter : (Forest.node id below after).afterChain t.part = after.afterChain t.part := by
      rw [Forest.afterChain, hchain]
      rfl
    rw [hexit, hafter, Forest.add_count_node]
    cases hblock with
    | closed _ hbelow hrest =>
      have hclosed : below.isClosed t.part = true := by
        rw [hbelow.isClosed_eq]
        rfl
      have hstays : below.chainExit t.part (n + (t.part id).isLive.toNat +
          below.count t.part) after =
          n + (t.part id).isLive.toNat + below.count t.part := by
        cases after with
        | nil => rfl
        | node _ _ _ =>
          rw [Forest.chainExit, hclosed]
          rfl
      rw [hrest.afterChain_eq, hstays]
      exact ⟨⟨hrest, hlinked, hplaced⟩, rfl⟩
    | continued _ _ hbelow hrest =>
      refine ih ⟨hrest, hlinked, hplaced⟩ ?_
      rw [hbelow.isClosed_eq]
      rfl

/-- The body of a branch, and what follows the chain that the branch belongs to: a body that is done
leads there. -/
theorem Laid.branch (h : Laid t cmd o inLoop inChain stop n loop exit (.node id below after))
    (hid : (t.part id).opensBlock = true) (hne : t.part id ≠ .loop) :
    ∃ stop' exit' k, Laid t cmd o inLoop false stop' (n + (t.part id).isLive.toNat) loop
      exit' below ∧
      Laid t cmd o inLoop false stop k loop exit (after.afterChain t.part) ∧
      k = (if stop' = .script ∨ stop' = .close then
        n + (t.part id).isLive.toNat + below.count t.part else exit') ∧
      n + (Forest.node id below after).count t.part =
        k + (after.afterChain t.part).count t.part := by
  obtain ⟨hblock, ⟨-, hlbelow, hlafter⟩, -, hpbelow, hpafter⟩ := h
  rw [if_neg hne, if_neg hne] at hlbelow
  have hcount := Forest.add_count_node t.part n id below after
  rcases hblock.of_branch hid hne with ⟨hbelow, hafter⟩ | ⟨-, hbelow, hafter⟩
  · refine ⟨_, _, _, ⟨hbelow, hlbelow, hpbelow⟩, ?_, (if_pos (.inr rfl)).symm, ?_⟩
    · rw [hafter.afterChain_eq]
      exact ⟨hafter, hlafter, hpafter⟩
    · rw [hafter.afterChain_eq, hcount]
  · have hopen : below.isClosed t.part = false := by
      rw [hbelow.isClosed_eq]
      rfl
    obtain ⟨hrest, hexit⟩ := Laid.afterChain ⟨hafter, hlafter, hpafter⟩ hopen
    exact ⟨_, _, _, ⟨hbelow, hlbelow, hpbelow⟩, hrest, (if_neg (by simp)).symm, hcount.trans hexit⟩

end Rows

/-! ## One command -/

namespace Stands

variable {σ : Type u} {t : Tree} {cmd : NodeId → Command} {o : Output} {m : Meaning Nat σ}
  {n d : Nat} {id : NodeId} {s : σ} {trace : List Nat}

section

variable (h : Stands t cmd o n id)

include h

theorem step (hid : t.part id ≠ .jump) (s : σ) (trace : List Nat) : Machine.step o m ⟨n, s, trace⟩ =
      some ⟨(cmd id).follow n (m.answer n s), m.act n s, trace ++ [n]⟩ := by
  have horigin : (cmd id).origin ≠ .hiddenJump := fun hc => hid (h.hidden.mp hc)
  simp only [Machine.step, if_neg h.bound, h.found, Option.map_some, if_neg horigin]

theorem step_jump (hid : t.part id = .jump) (hd : (cmd id).target? = some d) (s : σ)
    (trace : List Nat) : Machine.Steps o m ⟨n, s, trace⟩ ⟨d, s, trace⟩ := by
  have hfollows := h.follows
  rw [hid] at hfollows
  refine .single ?_
  simp only [Machine.step, if_neg h.bound, h.found, Option.map_some, if_pos (h.hidden.mpr hid),
    hfollows d hd]

theorem steps_cons (hid : t.part id ≠ .jump)
    (hfollow : (cmd id).follow n (m.answer n s) = d) {place : Nat} {s' : σ} {ids : List NodeId}
    (hsteps : Machine.Steps o m ⟨d, m.act n s, trace ++ [n]⟩ ⟨place, s',
      trace ++ [n] ++ ids.map t.number⟩) :
    Machine.Steps o m ⟨n, s, trace⟩ ⟨place, s', trace ++ (id :: ids).map t.number⟩ := by
  rw [List.map_cons, h.number, List.append_cons]
  refine .head ?_ hsteps
  rw [h.step hid, hfollow]

theorem holds_iff : Structured.Holds t (m.via t.number) id s ↔
      (t.node id).statement.conditional.holds (m.answer n s) = true := by
  simp only [Structured.Holds, Meaning.via, h.number]

theorem follow_test (hid : (t.part id).isTest = true ∨ t.part id = .loop)
    (hd : (cmd id).target? = some d) : (cmd id).follow n (m.answer n s) =
      if (t.node id).statement.conditional.holds (m.answer n s) then n + 1 else d := by
  have hfollows := h.follows
  have hp : t.part id = .branch ∨ t.part id = .elseBranch ∨ t.part id = .loop := by
    rcases hid with hid | hid
    · rcases Part.eq_of_isTest hid with hp | hp <;> simp [hp]
    · simp [hid]
  rcases hp with hp | hp | hp <;> rw [hp] at hfollows <;> exact hfollows d hd n _

theorem follow_skip (hid : t.part id = .skip) (hd : (cmd id).target? = some d) :
    (cmd id).follow n (m.answer n s) =
      if (t.node id).statement.conditional.holds (m.answer n s) then d else n + 1 := by
  have hfollows := h.follows
  rw [hid] at hfollows
  exact hfollows d hd n _

theorem act_eq : (m.via t.number).act id s = m.act n s := by
  simp only [Meaning.via, h.number]

end

end Stands

/-! ## Rows in the engine -/

theorem Part.opensBlock_of_isTest {p : Part} (h : p.isTest = true) :
    p.opensBlock = true ∧ p ≠ .loop := by
  rcases eq_of_isTest h with rfl | rfl <;> exact ⟨rfl, nofun⟩

section Rows

variable {σ : Type u} {t : Tree} {cmd : NodeId → Command} {o : Output} {m : Meaning Nat σ}
  {inLoop inChain : Bool} {stop : Stop} {n exit : Nat} {loop : Option (Nat × Nat)} {id : NodeId}
  {below after : Forest} {s : σ}

open Structured

section

variable (h : Laid t cmd o inLoop inChain stop n loop exit (.node id below after))

include h

/-- A test with its command: it leads behind everything below it. -/
theorem Laid.test (hid : (t.part id).isTest = true ∨ t.part id = .loop ∨ t.part id = .skip) :
    Stands t cmd o n id ∧ t.part id ≠ .jump ∧ (t.part id).isLive.toNat = 1 ∧
      (cmd id).target? = some (n + 1 + below.count t.part) := by
  have hp : t.part id = .branch ∨ t.part id = .elseBranch ∨ t.part id = .loop ∨
      t.part id = .skip := by
    rcases hid with hid | hid
    · rcases Part.eq_of_isTest hid with hp | hp <;> simp [hp]
    · simp [hid]
  have hleads := h.linked.1
  rcases hp with hp | hp | hp | hp
  all_goals
    simp only [LinkedNode, hp] at hleads
    exact ⟨h.placed.1 (by rw [hp]; rfl), by simp [hp], by rw [hp]; rfl, hleads⟩

/-- The engine enters the body of a test that holds, and passes over the body of one that fails. -/
theorem Laid.decides (hid : (t.part id).isTest = true ∨ t.part id = .loop) :
    (Holds t (m.via t.number) id s → (cmd id).follow n (m.answer n s) = n + 1) ∧
      (¬Holds t (m.via t.number) id s → (cmd id).follow n (m.answer n s) = n + 1 +
        below.count t.part) := by
  obtain ⟨hstands, -, -, htarget⟩ := Laid.test h (hid.imp_right .inl)
  rw [hstands.follow_test hid htarget, hstands.holds_iff]
  exact ⟨fun hholds => if_pos hholds, fun hfails => if_neg hfails⟩

/-- With a `skip if` it is the other way round. -/
theorem Laid.omits (hid : t.part id = .skip) :
    (Holds t (m.via t.number) id s → (cmd id).follow n (m.answer n s) = n + 1 +
      below.count t.part) ∧
      (¬Holds t (m.via t.number) id s → (cmd id).follow n (m.answer n s) = n + 1) := by
  obtain ⟨hstands, -, -, htarget⟩ := Laid.test h (.inr (.inr hid))
  rw [hstands.follow_skip hid htarget, hstands.holds_iff]
  exact ⟨fun hholds => if_pos hholds, fun hfails => if_neg hfails⟩

/-- The rows of an `else`: its body, and what follows it. -/
theorem Laid.elseRows (hid : t.part id = .otherwise) :
    (∃ exit', Laid t cmd o inLoop false .close n loop exit' below) ∧
      Laid t cmd o inLoop false stop (n + below.count t.part) loop exit after := by
  obtain ⟨hblock, ⟨-, hlbelow, hlafter⟩, -, hpbelow, hpafter⟩ := h
  rcases hblock.of_branch (by rw [hid]; rfl) (by simp [hid]) with ⟨hbelow, hafter⟩ | ⟨htest, -⟩
  · simp only [hid, Part.isLive, Bool.toNat_false, Nat.add_zero] at hlbelow hlafter hpbelow hpafter
    exact ⟨⟨_, hbelow, hlbelow, hpbelow⟩, hafter, hlafter, hpafter⟩
  · rw [hid] at htest
    cases htest

/-- The rows of a loop: its body leads back to the head. -/
theorem Laid.loopRows (hid : t.part id = .loop) :
    Laid t cmd o true false .loop (n + 1) (some (n, n + 1 + below.count t.part)) n below ∧
      Laid t cmd o inLoop false stop (n + 1 + below.count t.part) loop exit after ∧
      n + (Forest.node id below after).count t.part = n + 1 + below.count t.part +
        after.count t.part := by
  obtain ⟨hblock, ⟨-, hlbelow, hlafter⟩, -, hpbelow, hpafter⟩ := h
  obtain ⟨hbelow, hafter⟩ := hblock.of_loop hid
  have hone : (t.part id).isLive.toNat = 1 := by rw [hid]; rfl
  rw [if_pos hid, if_pos hid] at hlbelow
  rw [Forest.add_count_node, hone]
  rw [hone] at hlbelow hlafter hpbelow hpafter
  exact ⟨⟨hbelow, hlbelow, hpbelow⟩, ⟨hafter, hlafter, hpafter⟩, rfl⟩

theorem Laid.skipRows (hid : t.part id = .skip) :
    (∃ exit', Laid t cmd o inLoop false .script (n + 1) loop exit' below) ∧
      Laid t cmd o inLoop false stop (n + 1 + below.count t.part) loop exit after ∧
      n + (Forest.node id below after).count t.part = n + 1 + below.count t.part +
        after.count t.part := by
  obtain ⟨hblock, ⟨-, hlbelow, hlafter⟩, -, hpbelow, hpafter⟩ := h
  obtain ⟨hbelow, hafter⟩ := hblock.of_skip hid
  have hone : (t.part id).isLive.toNat = 1 := by rw [hid]; rfl
  rw [if_neg (by simp [hid])] at hlbelow
  rw [Forest.add_count_node, hone]
  rw [hone] at hlbelow hlafter hpbelow hpafter
  exact ⟨⟨_, hbelow.block, hlbelow, hpbelow⟩, ⟨hafter, hlafter, hpafter⟩, rfl⟩

end

end Rows

/-! ## The engine follows structured runs -/

namespace Structured

variable {σ : Type u} {t : Tree} {cmd : NodeId → Command} {o : Output} {m : Meaning Nat σ}

def Lands (stop : Stop) (n count : Nat) (loop : Option (Nat × Nat)) (exit : Nat) :
    Outcome → Nat → Prop
  | .done, place => place = if stop = .script ∨ stop = .close then n + count else exit
  | .left, place => ∃ head, loop = some (head, place)
  | .again, place => ∃ next, loop = some (place, next)
  | .cut, _ => True

/-- The engine follows a run of a row, wherever the row stands. -/
def Traced (t : Tree) (cmd : NodeId → Command) (o : Output) (m : Meaning Nat σ) (f : Forest) (s : σ)
    (ids : List NodeId) (out : Outcome) (s' : σ) : Prop :=
  ∀ (inLoop inChain : Bool) (stop : Stop) (n exit : Nat) (loop : Option (Nat × Nat)) (trace :
    List Nat),
    Laid t cmd o inLoop inChain stop n loop exit f → (inLoop = true → loop.isSome = true) →
    ∃ place, Machine.Steps o m ⟨n, s, trace⟩ ⟨place, s', trace ++ ids.map t.number⟩ ∧
      Lands stop n (f.count t.part) loop exit out place

section Step

variable {id : NodeId} {below after : Forest} {s s₁ s₂ : σ} {ids ids' : List NodeId}
  {out out' : Outcome} {inLoop inChain : Bool} {stop : Stop} {n k exit exit' place : Nat}
  {loop : Option (Nat × Nat)}

/-- A run that ends with the rest of a row ends with the row. -/
theorem Lands.of_after (h : Lands stop k (after.count t.part) loop exit out place)
    (hk : n + (Forest.node id below after).count t.part = k + after.count t.part) :
    Lands stop n ((Forest.node id below after).count t.part) loop exit out place := by
  cases out with
  | done =>
    rw [Lands, hk]
    exact h
  | left | again | cut => exact h

/-- A run that leaves an inner row leaves the row around it, unless that is a loop. -/
theorem Lands.of_inner {stop' : Stop} {c c' : Nat} (h : Lands stop' k c loop exit' out place)
    (hout : out ≠ .done) :
    Lands stop n c' loop exit out place := by
  cases out with
  | done => exact absurd rfl hout
  | left | again | cut => exact h

/-- Nodes that do nothing by themselves execute nothing. -/
theorem Runs.of_silent {f : Forest} (h : Runs t (m.via t.number) f s ids out s₁)
    (hf : ∀ j ∈ f.roots, (t.part j).isSilent = true) :
    ids = [] ∧ s₁ = s ∧ (out = .done ∨ out = .cut) := by
  have hnot : ∀ {j : NodeId} {below after : Forest}, (∀ i ∈ (Forest.node j below after).roots,
      (t.part i).isSilent = true) → (t.part j).isPlain = false ∧ (t.part j).isTest = false := by
    intro j below after hj
    have hsilent := hj j (by simp)
    revert hsilent
    cases t.part j <;> simp [Part.isSilent, Part.isPlain, Part.isTest]
  induction h with
  | cut => exact ⟨rfl, rfl, .inr rfl⟩
  | done => exact ⟨rfl, rfl, .inl rfl⟩
  | silent _ _ ih => exact ih fun j hj => hf j (by simp [hj])
  | plain hid _ _ => simp [(hnot hf).1] at hid
  | taken hid _ _ _ _ _ | takenOut hid _ _ _ _ | refused hid _ _ _ => simp [(hnot hf).2] at hid
  | leave hid | again hid | otherwise hid _ _ _ _ | otherwiseOut hid _ _ _ | round hid _ _ _ _ _ _
  | broken hid _ _ _ _ _ | roundCut hid _ _ _ | ended hid _ _ _ | omitted hid _ _ _
  | performed hid _ _ _ _ _ | performedOut hid _ _ _ _ =>
    have hsilent := hf _ List.mem_cons_self
    rw [hid] at hsilent
    cases hsilent

theorem traced_silent (hid : (t.part id).isSilent = true)
    (hrun : Runs t (m.via t.number) after s ids out s₁)
    (hrest : Traced t cmd o m after s ids out s₁) :
    Traced t cmd o m (.node id below after) s ids out s₁ := by
  intro inLoop inChain stop n exit loop trace ⟨hblock, hlinked, hplaced⟩ hloop
  have hp : (t.part id).isSingle = true ∧ (t.part id).isLive = false ∨
      (t.part id = .close ∨ t.part id = .jump) := by
    revert hid
    cases t.part id <;> simp [Part.isSilent, Part.isSingle, Part.isLive]
  rcases hp with ⟨hsingle, hdead⟩ | hlast
  · obtain ⟨rfl, hafter⟩ := hblock.of_single hsingle
    obtain ⟨place, hsteps, hlands⟩ := hrest inLoop false stop _ exit loop trace
      ⟨hafter, hlinked.2.2, hplaced.2.2⟩ hloop
    refine ⟨place, ?_, hlands.of_after (Forest.add_count_node t.part n id .nil after)⟩
    simpa [hdead, Forest.count] using hsteps
  · rcases hblock.of_last hlast with ⟨hclose, rfl, rfl, rfl⟩ | ⟨hjump, hscript, hclose, hends⟩
    · obtain ⟨rfl, rfl, hout⟩ := hrun.of_silent (by simp)
      refine ⟨n, by rw [List.map_nil, List.append_nil], ?_⟩
      rcases hout with rfl | rfl
      · simp [Lands, Forest.count, hclose, Part.isLive]
      · trivial
    · obtain ⟨rfl, rfl, hout⟩ := hrun.of_silent fun j hj => by rw [hends j hj]; rfl
      have hstands := hplaced.1 (by rw [hjump]; rfl)
      have hleads := hlinked.1
      simp only [LinkedNode, hjump] at hleads
      refine ⟨exit, ?_, ?_⟩
      · rw [List.map_nil, List.append_nil]
        exact hstands.step_jump hjump hleads s₁ trace
      · rcases hout with rfl | rfl
        · simp [Lands, hscript, hclose]
        · trivial

theorem traced_plain (hid : (t.part id).isPlain = true)
    (hrest : Traced t cmd o m after ((m.via t.number).act id s) ids out s₁) :
    Traced t cmd o m (.node id below after) s (id :: ids) out s₁ := by
  intro inLoop inChain stop n exit loop trace ⟨hblock, hlinked, hplaced⟩ hloop
  have hp : t.part id = .plain ∨ t.part id = .shorthand := by
    revert hid
    cases t.part id <;> simp [Part.isPlain]
  have hlive : (t.part id).isLive = true := by rcases hp with hp | hp <;> rw [hp] <;> rfl
  have hstands := hplaced.1 hlive
  have hfollow : (cmd id).follow n (m.answer n s) = n + 1 := by
    have hfollows := hstands.follows
    rcases hp with hp | hp <;> rw [hp] at hfollows <;> exact hfollows n _
  obtain ⟨rfl, hafter⟩ := hblock.of_single (by rcases hp with hp | hp <;> rw [hp] <;> rfl)
  obtain ⟨place, hsteps, hlands⟩ := hrest inLoop false stop _ exit loop (trace ++ [n])
    ⟨hafter, hlinked.2.2, hplaced.2.2⟩ hloop
  refine ⟨place, hstands.steps_cons (by rcases hp with hp | hp <;> simp [hp]) hfollow ?_,
    hlands.of_after (Forest.add_count_node t.part n id .nil after)⟩
  rw [hstands.act_eq] at hsteps
  simpa [hlive, Forest.count] using hsteps

/-- A `break` or `continue` leads to a place around the row. -/
theorem traced_exit (hid : (t.part id).isExit = true)
    (hout : out = if t.part id = .leave then .left else .again) :
    Traced t cmd o m (.node id below after) s [id] out ((m.via t.number).act id s) := by
  intro inLoop inChain stop n exit loop trace ⟨hblock, hlinked, hplaced⟩ hloop
  obtain ⟨⟨head, next⟩, rfl⟩ := Option.isSome_iff_exists.mp (hloop (hblock.of_exit hid))
  have hlive : (t.part id).isLive = true := by
    rcases Part.eq_of_isExit hid with hp | hp <;> rw [hp] <;> rfl
  have hstands := hplaced.1 hlive
  have hleads := hlinked.1
  have hfollows := hstands.follows
  have hne : t.part id ≠ .jump := by rcases Part.eq_of_isExit hid with hp | hp <;> simp [hp]
  have hsteps : ∀ d, (cmd id).follow n (m.answer n s) = d →
      Machine.Steps o m ⟨n, s, trace⟩ ⟨d, (m.via t.number).act id s,
        trace ++ [id].map t.number⟩ := by
    intro d hd
    refine hstands.steps_cons hne hd ?_
    rw [hstands.act_eq, List.map_nil, List.append_nil]
  rcases Part.eq_of_isExit hid with hp | hp
  · simp only [LinkedNode, hp, Option.map_some] at hleads hfollows
    rw [if_pos hp] at hout
    subst hout
    exact ⟨next, hsteps next (hfollows next hleads n _), head, rfl⟩
  · simp only [LinkedNode, hp, Option.map_some] at hleads hfollows
    rw [if_neg (by simp [hp])] at hout
    subst hout
    exact ⟨head, hsteps head (hfollows head hleads n _), next, rfl⟩

theorem Traced.after_command {f : Forest} {stop' : Stop} {inLoop' inChain' : Bool}
    {loop' : Option (Nat × Nat)} (h : Traced t cmd o m f ((m.via t.number).act id s) ids out s₁)
    (hstands : Stands t cmd o n id) (hid : t.part id ≠ .jump)
    (hfollow : (cmd id).follow n (m.answer n s) = k)
    (hlaid : Laid t cmd o inLoop' inChain' stop' k loop' exit' f)
    (hloop : inLoop' = true → loop'.isSome = true) (trace : List Nat) :
    ∃ place, Machine.Steps o m ⟨n, s, trace⟩ ⟨place, s₁, trace ++ (id :: ids).map t.number⟩ ∧
      Lands stop' k (f.count t.part) loop' exit' out place := by
  obtain ⟨place, hsteps, hlands⟩ := h _ _ _ _ _ _ (trace ++ [n]) hlaid hloop
  rw [hstands.act_eq] at hsteps
  exact ⟨place, hstands.steps_cons hid hfollow hsteps, hlands⟩

theorem Traced.after_run {f : Forest} (h : Traced t cmd o m f s₁ ids' out s₂) {first : List NodeId}
    {trace : List Nat}
    (hfirst : Machine.Steps o m ⟨n, s, trace⟩ ⟨k, s₁, trace ++ first.map t.number⟩)
    (hlaid : Laid t cmd o inLoop inChain stop k loop exit f)
    (hloop : inLoop = true → loop.isSome = true) :
    ∃ place, Machine.Steps o m ⟨n, s, trace⟩ ⟨place, s₂, trace ++ (first ++ ids').map t.number⟩ ∧
      Lands stop k (f.count t.part) loop exit out place := by
  obtain ⟨place, hsteps, hlands⟩ := h _ _ _ _ _ _ (trace ++ first.map t.number) hlaid hloop
  refine ⟨place, hfirst.trans ?_, hlands⟩
  rwa [List.map_append, ← List.append_assoc]

theorem traced_taken (hid : (t.part id).isTest = true) (htest : Holds t (m.via t.number) id s)
    (hbody : Traced t cmd o m below ((m.via t.number).act id s) ids .done s₁)
    (hrest : Traced t cmd o m (after.afterChain t.part) s₁ ids' out s₂) :
    Traced t cmd o m (.node id below after) s (id :: (ids ++ ids')) out s₂ := by
  intro inLoop inChain stop n exit loop trace hlaid hloop
  obtain ⟨hstands, hne, hone, -⟩ := hlaid.test (.inl hid)
  obtain ⟨hopens, hnot⟩ := Part.opensBlock_of_isTest hid
  obtain ⟨stop', exit', k, hbelow, hafter, hk, hcount⟩ := hlaid.branch hopens hnot
  rw [hone] at hbelow hk
  obtain ⟨place, hsteps, hlands⟩ :=
    hbody.after_command hstands hne ((hlaid.decides (.inl hid)).1 htest) hbelow hloop trace
  obtain rfl : place = k := hlands.trans hk.symm
  obtain ⟨final, hfinal, hends⟩ := hrest.after_run hsteps hafter hloop
  refine ⟨final, hfinal, ?_⟩
  cases out with
  | done =>
    rw [Lands, hcount]
    exact hends
  | left | again | cut => exact hends

theorem traced_takenOut (hid : (t.part id).isTest = true) (htest : Holds t (m.via t.number) id s)
    (hbody : Traced t cmd o m below ((m.via t.number).act id s) ids out s₁) (hout : out ≠ .done) :
    Traced t cmd o m (.node id below after) s (id :: ids) out s₁ := by
  intro inLoop inChain stop n exit loop trace hlaid hloop
  obtain ⟨hstands, hne, hone, -⟩ := hlaid.test (.inl hid)
  obtain ⟨hopens, hnot⟩ := Part.opensBlock_of_isTest hid
  obtain ⟨stop', exit', k, hbelow, -⟩ := hlaid.branch hopens hnot
  rw [hone] at hbelow
  obtain ⟨place, hsteps, hlands⟩ :=
    hbody.after_command hstands hne ((hlaid.decides (.inl hid)).1 htest) hbelow hloop trace
  exact ⟨place, hsteps, hlands.of_inner hout⟩

theorem traced_passed (hid : (t.part id).isTest = true ∨ t.part id = .loop ∨ t.part id = .skip)
    (htest : t.part id = .skip ↔ Holds t (m.via t.number) id s)
    (hrest : Traced t cmd o m after ((m.via t.number).act id s) ids out s₁) :
    Traced t cmd o m (.node id below after) s (id :: ids) out s₁ := by
  intro inLoop inChain stop n exit loop trace hlaid hloop
  obtain ⟨hstands, hne, hone, -⟩ := hlaid.test hid
  have hfollow : (cmd id).follow n (m.answer n s) = n + 1 + below.count t.part := by
    by_cases hskip : t.part id = .skip
    · exact (hlaid.omits hskip).1 (htest.mp hskip)
    · exact (hlaid.decides (hid.imp_right (·.resolve_right hskip))).2 (mt htest.mpr hskip)
  have hcount := Forest.add_count_node t.part n id below after
  obtain ⟨hblock, ⟨-, -, hlinked⟩, -, -, hplaced⟩ := hlaid
  rw [hone] at hlinked hplaced hcount
  have hafter : ∃ inChain', Block t.part inLoop inChain' stop after := by
    rcases hid with hid | hid | hid
    · obtain ⟨hopens, hnot⟩ := Part.opensBlock_of_isTest hid
      rcases hblock.of_branch hopens hnot with ⟨-, hafter⟩ | ⟨-, -, hafter⟩ <;> exact ⟨_, hafter⟩
    · exact ⟨_, (hblock.of_loop hid).2⟩
    · exact ⟨_, (hblock.of_skip hid).2⟩
  obtain ⟨inChain', hafter⟩ := hafter
  obtain ⟨place, hsteps, hlands⟩ :=
    hrest.after_command hstands hne hfollow ⟨hafter, hlinked, hplaced⟩ hloop trace
  exact ⟨place, hsteps, hlands.of_after hcount⟩

theorem traced_otherwise (hid : t.part id = .otherwise)
    (hbody : Traced t cmd o m below s ids .done s₁)
    (hrest : Traced t cmd o m after s₁ ids' out s₂) :
    Traced t cmd o m (.node id below after) s (ids ++ ids') out s₂ := by
  intro inLoop inChain stop n exit loop trace hlaid hloop
  obtain ⟨⟨exit', hbelow⟩, hafter⟩ := hlaid.elseRows hid
  obtain ⟨place, hsteps, hlands⟩ := hbody _ _ _ _ _ _ trace hbelow hloop
  obtain rfl : place = n + below.count t.part := hlands
  obtain ⟨final, hfinal, hends⟩ := hrest.after_run hsteps hafter hloop
  refine ⟨final, hfinal, hends.of_after ?_⟩
  rw [Forest.add_count_node, hid]
  rfl

theorem traced_otherwiseOut (hid : t.part id = .otherwise)
    (hbody : Traced t cmd o m below s ids out s₁) (hout : out ≠ .done) :
    Traced t cmd o m (.node id below after) s ids out s₁ := by
  intro inLoop inChain stop n exit loop trace hlaid hloop
  obtain ⟨⟨exit', hbelow⟩, -⟩ := hlaid.elseRows hid
  obtain ⟨place, hsteps, hlands⟩ := hbody _ _ _ _ _ _ trace hbelow hloop
  exact ⟨place, hsteps, hlands.of_inner hout⟩

section Loop

variable (hid : t.part id = .loop)

include hid

theorem traced_round (htest : Holds t (m.via t.number) id s)
    (hbody : Traced t cmd o m below ((m.via t.number).act id s) ids out s₁)
    (hout : out = .done ∨ out = .again)
    (hrest : Traced t cmd o m (.node id below after) s₁ ids' out' s₂) :
    Traced t cmd o m (.node id below after) s (id :: (ids ++ ids')) out' s₂ := by
  intro inLoop inChain stop n exit loop trace hlaid hloop
  obtain ⟨hstands, hne, -, -⟩ := hlaid.test (.inr (.inl hid))
  obtain ⟨hbelow, -, -⟩ := hlaid.loopRows hid
  obtain ⟨place, hsteps, hlands⟩ :=
    hbody.after_command hstands hne ((hlaid.decides (.inr hid)).1 htest) hbelow
    (fun _ => rfl) trace
  obtain rfl : place = n := by
    rcases hout with rfl | rfl
    · exact hlands
    · obtain ⟨next, hnext⟩ := hlands
      exact (congrArg Prod.fst (Option.some.inj hnext)).symm
  exact hrest.after_run hsteps hlaid hloop

theorem traced_broken (htest : Holds t (m.via t.number) id s)
    (hbody : Traced t cmd o m below ((m.via t.number).act id s) ids .left s₁)
    (hrest : Traced t cmd o m after s₁ ids' out s₂) :
    Traced t cmd o m (.node id below after) s (id :: (ids ++ ids')) out s₂ := by
  intro inLoop inChain stop n exit loop trace hlaid hloop
  obtain ⟨hstands, hne, -, -⟩ := hlaid.test (.inr (.inl hid))
  obtain ⟨hbelow, hafter, hcount⟩ := hlaid.loopRows hid
  obtain ⟨place, hsteps, head, hhead⟩ :=
    hbody.after_command hstands hne ((hlaid.decides (.inr hid)).1 htest) hbelow
    (fun _ => rfl) trace
  obtain rfl : n + 1 + below.count t.part = place := congrArg Prod.snd (Option.some.inj hhead)
  obtain ⟨final, hfinal, hends⟩ := hrest.after_run hsteps hafter hloop
  exact ⟨final, hfinal, hends.of_after hcount⟩

theorem traced_roundCut (htest : Holds t (m.via t.number) id s)
    (hbody : Traced t cmd o m below ((m.via t.number).act id s) ids .cut s₁) :
    Traced t cmd o m (.node id below after) s (id :: ids) .cut s₁ := by
  intro inLoop inChain stop n exit loop trace hlaid hloop
  obtain ⟨hstands, hne, -, -⟩ := hlaid.test (.inr (.inl hid))
  obtain ⟨hbelow, -, -⟩ := hlaid.loopRows hid
  obtain ⟨place, hsteps, -⟩ :=
    hbody.after_command hstands hne ((hlaid.decides (.inr hid)).1 htest) hbelow
    (fun _ => rfl) trace
  exact ⟨place, hsteps, trivial⟩

end Loop

section Skip

variable (hid : t.part id = .skip)

include hid

theorem traced_performed (htest : ¬Holds t (m.via t.number) id s)
    (hbody : Traced t cmd o m below ((m.via t.number).act id s) ids .done s₁)
    (hrest : Traced t cmd o m after s₁ ids' out s₂) :
    Traced t cmd o m (.node id below after) s (id :: (ids ++ ids')) out s₂ := by
  intro inLoop inChain stop n exit loop trace hlaid hloop
  obtain ⟨hstands, hne, -, -⟩ := hlaid.test (.inr (.inr hid))
  obtain ⟨⟨exit', hbelow⟩, hafter, hcount⟩ := hlaid.skipRows hid
  obtain ⟨place, hsteps, hlands⟩ :=
    hbody.after_command hstands hne ((hlaid.omits hid).2 htest) hbelow hloop trace
  obtain rfl : place = n + 1 + below.count t.part := hlands
  obtain ⟨final, hfinal, hends⟩ := hrest.after_run hsteps hafter hloop
  exact ⟨final, hfinal, hends.of_after hcount⟩

theorem traced_performedOut (htest : ¬Holds t (m.via t.number) id s)
    (hbody : Traced t cmd o m below ((m.via t.number).act id s) ids out s₁) (hout : out ≠ .done) :
    Traced t cmd o m (.node id below after) s (id :: ids) out s₁ := by
  intro inLoop inChain stop n exit loop trace hlaid hloop
  obtain ⟨hstands, hne, -, -⟩ := hlaid.test (.inr (.inr hid))
  obtain ⟨⟨exit', hbelow⟩, -, -⟩ := hlaid.skipRows hid
  obtain ⟨place, hsteps, hlands⟩ :=
    hbody.after_command hstands hne ((hlaid.omits hid).2 htest) hbelow hloop trace
  exact ⟨place, hsteps, hlands.of_inner hout⟩

end Skip

end Step

/-- The engine follows every structured run. -/
theorem Runs.traced {f : Forest} {s s' : σ} {ids : List NodeId} {out : Outcome}
    (h : Runs t (m.via t.number) f s ids out s') : Traced t cmd o m f s ids out s' := by
  induction h with
  | cut => exact fun _ _ _ n _ _ _ _ _ => ⟨n, by rw [List.map_nil, List.append_nil], trivial⟩
  | done =>
    intro inLoop inChain stop n exit loop trace hlaid hloop
    refine ⟨n, by rw [List.map_nil, List.append_nil], ?_⟩
    cases hlaid.block
    rfl
  | silent hid hrest ih => exact traced_silent hid hrest ih
  | plain hid _ ih => exact traced_plain hid ih
  | leave hid => exact traced_exit (by rw [hid]; rfl) (by rw [if_pos hid])
  | again hid => exact traced_exit (by rw [hid]; rfl) (by rw [if_neg (by simp [hid])])
  | taken hid htest _ _ ihb ihr => exact traced_taken hid htest ihb ihr
  | takenOut hid htest _ hout ih => exact traced_takenOut hid htest ih hout
  | refused hid htest _ ih =>
    exact traced_passed (.inl hid) (iff_of_false (fun hskip => by simp [hskip, Part.isTest] at hid)
      htest) ih
  | otherwise hid _ _ ihb ihr => exact traced_otherwise hid ihb ihr
  | otherwiseOut hid _ hout ih => exact traced_otherwiseOut hid ih hout
  | round hid htest _ hout _ ihb ihr => exact traced_round hid htest ihb hout ihr
  | broken hid htest _ _ ihb ihr => exact traced_broken hid htest ihb ihr
  | roundCut hid htest _ ih => exact traced_roundCut hid htest ih
  | ended hid htest _ ih =>
    exact traced_passed (.inr (.inl hid)) (iff_of_false (by simp [hid]) htest) ih
  | omitted hid htest _ ih => exact traced_passed (.inr (.inr hid)) (iff_of_true hid htest) ih
  | performed hid htest _ _ ihb ihr => exact traced_performed hid htest ihb ihr
  | performedOut hid htest _ hout ih => exact traced_performedOut hid htest ih hout

/-- A finished run can be cut at its end. -/
theorem Runs.cut_of_done {m : Meaning NodeId σ} {f : Forest} {s s' : σ} {ids : List NodeId}
    (h : Runs t m f s ids .done s') : Runs t m f s ids .cut s' := by
  generalize hout : Outcome.done = out at h
  induction h with
  | cut | leave _ | again _ | roundCut _ _ _ _ => cases hout
  | takenOut _ _ _ hne _ | otherwiseOut _ _ hne _ | performedOut _ _ _ hne _ =>
    exact absurd hout.symm hne
  | done => exact .cut
  | silent hid _ ih => exact .silent hid (ih hout)
  | plain hid _ ih => exact .plain hid (ih hout)
  | taken hid htest hbody _ _ ih => exact .taken hid htest hbody (ih hout)
  | refused hid htest _ ih => exact .refused hid htest (ih hout)
  | otherwise hid hbody _ _ ih => exact .otherwise hid hbody (ih hout)
  | round hid htest hbody hround _ _ ih => exact .round hid htest hbody hround (ih hout)
  | broken hid htest hbody _ _ ih => exact .broken hid htest hbody (ih hout)
  | ended hid htest _ ih => exact .ended hid htest (ih hout)
  | omitted hid htest _ ih => exact .omitted hid htest (ih hout)
  | performed hid htest hbody _ _ ih => exact .performed hid htest hbody (ih hout)

end Structured

/-! ## The engine and the structure agree -/

section Agreement

variable {σ : Type u} {t : Tree} {cmd : NodeId → Command} {o : Output} {m : Meaning Nat σ}
  {g : Forest} {s : σ}

open Structured

section

variable (h : Laid t cmd o false false .script 0 none 0 g)

include h

/-- How a run of a whole script ends: not with a jump out of a loop, and where the engine is
then. -/
theorem Laid.ends {s' : σ} {ids : List NodeId} {out : Outcome}
    (hrun : Runs t (m.via t.number) g s ids out s') :
    ∃ place, Machine.Steps o m ⟨0, s, []⟩ ⟨place, s', ids.map t.number⟩ ∧
      (out = .cut ∨ (out = .done ∧ place = g.count t.part)) := by
  obtain ⟨place, hsteps, hlands⟩ := hrun.traced _ _ _ _ _ _ [] h nofun
  refine ⟨place, hsteps, ?_⟩
  cases out with
  | done => exact .inr ⟨rfl, by simpa [Lands] using hlands⟩
  | left | again =>
    obtain ⟨_, hnone⟩ := hlands
    cases hnone
  | cut => exact .inl rfl

/-- A run that is not cut is finished, and the engine stops. -/
theorem Laid.halts (hcount : o.standardCount = g.count t.part)
    {s' : σ} {ids : List NodeId} {out : Outcome} (hrun : Runs t (m.via t.number) g s ids out s')
    (hout : out ≠ .cut) :
    out = .done ∧ Machine.Halts o m s (ids.map t.number) s' := by
  obtain ⟨place, hsteps, hcut | ⟨hdone, rfl⟩⟩ := h.ends hrun
  · exact absurd hcut hout
  · refine ⟨hdone, ?_⟩
    rw [Machine.Halts, hcount]
    exact hsteps

theorem Laid.reaches {s' : σ} {ids : List NodeId} {out : Outcome}
    (hrun : Runs t (m.via t.number) g s ids out s') :
    Machine.Reaches o m s (ids.map t.number) s' := by
  obtain ⟨place, hsteps, -⟩ := h.ends hrun
  exact ⟨place, hsteps⟩

theorem Laid.halts_iff (hcount : o.standardCount = g.count t.part)
    (trace : List Nat) (s' : σ) : Machine.Halts o m s trace s' ↔
      ∃ ids, Runs t (m.via t.number) g s ids .done s' ∧ ids.map t.number = trace := by
  constructor
  · intro hhalts
    -- A cut run cannot be longer than what the engine executes before it stops.
    rcases progress (t := t) (m := m.via t.number) (trace.length + 1) g s with
      ⟨ids, x, hlength, hrun⟩ | ⟨ids, out, x, hout, -, hrun⟩
    · have hle := (hhalts.extends_reached (h.reaches hrun)).length_le
      rw [List.length_map] at hle
      omega
    · obtain ⟨rfl, hhalts'⟩ := h.halts hcount hrun hout
      have htrace : ids.map t.number = trace :=
        (hhalts.extends_reached hhalts'.reaches).eq_of_length_le
          (hhalts'.extends_reached hhalts.reaches).length_le
      obtain rfl : x = s' := by
        rw [hhalts.reaches.state_eq, hhalts'.reaches.state_eq, htrace]
      exact ⟨ids, hrun, htrace⟩
  · rintro ⟨ids, hrun, rfl⟩
    exact (h.halts hcount hrun nofun).2

theorem Laid.reaches_iff (hcount : o.standardCount = g.count t.part)
    (trace : List Nat) (s' : σ) : Machine.Reaches o m s trace s' ↔
      ∃ ids, Runs t (m.via t.number) g s ids .cut s' ∧ ids.map t.number = trace := by
  constructor
  · intro hreaches
    obtain ⟨ids, x, hlength, hrun⟩ : ∃ ids x, ids.length = trace.length ∧
        Runs t (m.via t.number) g s ids .cut x := by
      rcases progress (t := t) (m := m.via t.number) trace.length g s with
        ⟨ids, x, hlength, hrun⟩ | ⟨ids, out, x, hout, hle, hrun⟩
      · exact ⟨ids, x, hlength, hrun⟩
      · obtain ⟨rfl, hhalts⟩ := h.halts hcount hrun hout
        have hge := (hhalts.extends_reached hreaches).length_le
        rw [List.length_map] at hge
        exact ⟨ids, x, Nat.le_antisymm hle hge, hrun.cut_of_done⟩
    have htrace : ids.map t.number = trace := by
      have hsame : (ids.map t.number).length = trace.length := by rw [List.length_map, hlength]
      rcases (h.reaches hrun).comparable hreaches with hinitial | hinitial
      · exact hinitial.eq_of_length hsame
      · exact (hinitial.eq_of_length hsame.symm).symm
    obtain rfl : x = s' := by
      rw [hreaches.state_eq, (h.reaches hrun).state_eq, htrace]
    exact ⟨ids, hrun, htrace⟩
  · rintro ⟨ids, hrun, rfl⟩
    exact h.reaches hrun

theorem Laid.diverges_iff (hg : t.forest = g) (hcount : o.standardCount = g.count t.part) :
    Machine.Diverges o m s ↔ Structured.Diverges t (m.via t.number) s := by
  constructor
  · intro hforever n
    rw [hg]
    rcases progress (t := t) (m := m.via t.number) n g s with hcut | ⟨ids, out, x, hout, -, hrun⟩
    · exact hcut
    · exact absurd hforever (h.halts hcount hrun hout).2.not_diverges
  · intro hforever
    refine Machine.diverges_of_reaches fun n => ?_
    obtain ⟨ids, x, hlength, hrun⟩ := hforever n
    rw [hg] at hrun
    exact ⟨_, x, by rw [List.length_map, hlength], h.reaches hrun⟩

end

end Agreement

/-- The engine does with the commands of a script what the blocks of the script say. For every
meaning of the commands it stops exactly when a structured run does, with the same commands executed
and in the same state; it goes on forever exactly when the structured runs do; and on the way it
executes the same commands. -/
theorem execution_refines_structure (v : Version) (arguments : List String)
    (objects : Option ObjectLibrary) (lines : List String) (o : Output)
    (hcompile : compile ⟨.builtin, v, arguments, objects⟩ lines = .ok o)
    (hok : o.isSuccessful = true) (hlines : IsStructured (Statement.readAll .builtin v lines)) :
    ∃ x, (Session.start (buildTree ⟨.builtin, v, arguments, objects⟩ lines)).expand
        ⟨.builtin, v, arguments, objects⟩ = .ok x ∧
      ∀ {σ : Type u} (m : Meaning Nat σ) (s : σ),
        (∀ trace s', Machine.Halts o m s trace s' ↔
          ∃ ids, Structured.Runs x.tree (m.via x.tree.number) x.tree.forest s ids .done s' ∧
            ids.map x.tree.number = trace) ∧
        (∀ trace s', Machine.Reaches o m s trace s' ↔
          ∃ ids, Structured.Runs x.tree (m.via x.tree.number) x.tree.forest s ids .cut s' ∧
            ids.map x.tree.number = trace) ∧
        (Machine.Diverges o m s ↔ Structured.Diverges x.tree (m.via x.tree.number) s) := by
  obtain ⟨g, x, q, hexpand, rfl, hfinished, -⟩ := finished_of_compile builtin_lawful hcompile hok
  obtain ⟨f, -, hexpanding⟩ := hfinished.expanding
  have hpart := hfinished.examined.alike.part_eq
  have hemitted := hfinished.emitted
  rw [← hpart] at hemitted
  have hlaid : Laid x.tree (q.commandOf (Order.of q.tree)) (.ofSession q.emit) false false .script 0
      none 0 g :=
    ⟨hemitted.block, hemitted.linked, hfinished.placed hlines⟩
  have hforest := hexpanding.spans.forest_eq
  refine ⟨x, hexpand, fun m s => ⟨?_, ?_, hlaid.diverges_iff hforest hemitted.count⟩⟩
  · rw [hforest]
    exact hlaid.halts_iff hemitted.count
  · rw [hforest]
    exact hlaid.reaches_iff hemitted.count

/-- The engine and the structure agree on the sample, here with states that count the executed
commands and tests that hold on every third of them. -/
theorem sampleScript_execution :
    IsStructured (Statement.readAll .builtin .albionPrelude sampleScript) ∧
    ∃ o x, compile ⟨.builtin, .albionPrelude, [], none⟩ sampleScript = .ok o ∧
      o.isSuccessful = true ∧
      (Session.start (buildTree ⟨.builtin, .albionPrelude, [], none⟩ sampleScript)).expand
        ⟨.builtin, .albionPrelude, [], none⟩ = .ok x ∧
      (∀ trace s', Machine.Halts o ⟨fun _ s => s + 1, fun _ s => s % 3 == 0⟩ 0 trace s' ↔
        ∃ ids, Structured.Runs x.tree (Meaning.via ⟨fun _ s => s + 1, fun _ s => s % 3 == 0⟩
          x.tree.number)
          x.tree.forest 0 ids .done s' ∧ ids.map x.tree.number = trace) := by
  have hlines : IsStructured (Statement.readAll .builtin .albionPrelude sampleScript) :=
    fun r hr _ => (sampleScript_reads r hr).2
  obtain ⟨o, hcompile, hok⟩ := sampleScript_compiles
  obtain ⟨x, hexpand, hagree⟩ :=
    execution_refines_structure .albionPrelude [] none sampleScript o hcompile hok hlines
  exact ⟨hlines, o, x, hcompile, hok, hexpand, (hagree _ _).1⟩

end GameScript
