import GameScript.Proofs.Blocks.Grammar
import GameScript.Proofs.Tree.Attach
import GameScript.Tree.Nesting

/-!
# Open blocks

While a script is nested, the blocks that are not closed yet form a path from the root to the place
where the next line goes. `Spine` is this path: for each open block, what was read into it so far,
and the `skip if`s that it hangs under. A `Draft` is a spine with the `skip if`s that still wait for
a command.

`Draft.add` is the nesting of one line, on shapes alone.
-/

namespace GameScript

/-- Hang a row under nested nodes, innermost first, each behind what is below it already. -/
def wrap : List (NodeId × Forest) → Forest → Forest
  | [], row => row
  | (id, done) :: outer, row => wrap outer (.node id (done ++ row) .nil)

def wrapIds : List (NodeId × Forest) → List NodeId
  | [] => []
  | (id, done) :: outer => wrapIds outer ++ id :: done.ids

theorem ids_wrap (outer : List (NodeId × Forest)) (row : Forest) :
    (wrap outer row).ids = wrapIds outer ++ row.ids := by
  induction outer generalizing row with
  | nil => rfl
  | cons frame outer ih => simp [wrap, wrapIds, ih]

/-- The open blocks, with what was read into each of them. -/
inductive Spine where
  /-- Outside of all blocks. -/
  | script (done : Forest)
  /-- In a block that hangs under `skip if`s, innermost first. -/
  | block (outer : Spine) (skips : List (NodeId × Forest)) (id : NodeId) (done : Forest)

namespace Spine

def top : Spine → NodeId
  | script _ => Tree.root
  | block _ _ id _ => id

def pending : Spine → List NodeId
  | script _ => []
  | block outer _ id _ => id :: outer.pending

def push : Spine → Forest → Spine
  | script done, row => script (done ++ row)
  | block outer skips id done, row => block outer skips id (done ++ row)

/-- The whole tree, if the innermost block went on with a row and nothing else followed. -/
def forest : Spine → Forest → Forest
  | script done, row => done ++ row
  | block outer skips id done, row => outer.forest (wrap skips (.node id (done ++ row) .nil))

def ids : Spine → List NodeId
  | script done => done.ids
  | block outer skips id done => outer.ids ++ wrapIds skips ++ id :: done.ids

@[simp] theorem push_script (done row : Forest) :
    (script done).push row = script (done ++ row) := rfl

@[simp] theorem push_block (outer : Spine) (skips : List (NodeId × Forest)) (id : NodeId)
    (done row : Forest) :
    (block outer skips id done).push row = block outer skips id (done ++ row) := rfl

@[simp] theorem pending_push (z : Spine) (row : Forest) : (z.push row).pending = z.pending := by
  cases z <;> rfl

@[simp] theorem push_push (z : Spine) (f g : Forest) : (z.push f).push g = z.push (f ++ g) := by
  cases z <;> simp [push, Forest.append_assoc]

@[simp] theorem forest_push (z : Spine) (f g : Forest) :
    (z.push f).forest g = z.forest (f ++ g) := by
  cases z <;> simp [push, forest, Forest.append_assoc]

theorem ids_forest (z : Spine) (row : Forest) : (z.forest row).ids = z.ids ++ row.ids := by
  induction z generalizing row with
  | script done => simp [forest, ids]
  | block outer skips id done ih => simp [forest, ids, ih, ids_wrap]

theorem top_pending (z : Spine) : Nesting.top z.pending = z.top := by
  cases z <;> rfl

theorem top_mem (z : Spine) : z.top ∈ Tree.root :: z.ids := by
  cases z <;> simp [top, ids]

theorem pending_subset (z : Spine) : z.pending ⊆ z.ids := by
  induction z with
  | script done => simp [pending]
  | block outer skips id done ih =>
    intro j hj
    simp only [pending, List.mem_cons] at hj
    simp only [ids, List.mem_append, List.mem_cons]
    rcases hj with rfl | hj
    · simp
    · exact Or.inl (Or.inl (ih hj))

end Spine

/-! ## Attaching to the innermost block -/

section Attach

variable {parent : NodeId} (hroot : parent ≠ Tree.root) (id : NodeId)

include hroot

theorem Forest.attach_append {f : Forest} (hf : parent ∉ f.ids) (g : Forest) :
    (f ++ g).attach parent id = f ++ g.attach parent id := by
  simp only [attach, if_neg hroot]
  induction f with
  | nil => rfl
  | node j below after _ ih =>
    simp only [ids_node, List.mem_cons, List.mem_append, not_or] at hf
    rw [node_append, alter_node_of_ne (Ne.symm hf.1), alter_of_notMem hf.2.1, ih hf.2.2,
      node_append]

theorem Forest.attach_node_of_ne {j : NodeId} (hj : j ≠ parent) (below after : Forest) :
    (node j below after).attach parent id = node j (below.attach parent id)
    (after.attach parent id) := by
  simp only [attach, if_neg hroot, alter_node_of_ne hj]

theorem Forest.attach_node_self (below after : Forest) :
    (node parent below after).attach parent id = node parent (below ++ leaf id) after := by
  simp only [attach, if_neg hroot, alter_node_self]

theorem Forest.attach_nil : nil.attach parent id = nil := by
  simp only [attach, if_neg hroot, alter_nil]

theorem attach_wrap {outer : List (NodeId × Forest)} (houter : parent ∉ wrapIds outer)
    (row : Forest) :
    (wrap outer row).attach parent id = wrap outer (row.attach parent id) := by
  induction outer generalizing row with
  | nil => rfl
  | cons frame outer ih =>
    obtain ⟨j, done⟩ := frame
    simp only [wrapIds, List.mem_append, List.mem_cons, not_or] at houter
    obtain ⟨hrest, hj, hdone⟩ := houter
    rw [wrap, ih hrest, Forest.attach_node_of_ne hroot id (Ne.symm hj),
      Forest.attach_append hroot id hdone, Forest.attach_nil hroot, wrap]

theorem Spine.attach_forest {z : Spine} (hz : parent ∉ z.ids) (row : Forest) :
    (z.forest row).attach parent id = z.forest (row.attach parent id) := by
  induction z generalizing row with
  | script done => exact Forest.attach_append hroot id hz row
  | block outer skips j done ih =>
    simp only [ids, List.mem_append, List.mem_cons, not_or] at hz
    obtain ⟨⟨houter, hskips⟩, hj, hdone⟩ := hz
    rw [forest, ih houter, attach_wrap hroot id hskips,
      Forest.attach_node_of_ne hroot id (Ne.symm hj),
      Forest.attach_append hroot id hdone, Forest.attach_nil hroot, forest]

end Attach

/-- A node attached to the innermost block is read into it. -/
theorem Spine.attach_top {z : Spine} (hnodup : (Tree.root :: z.ids).Nodup) (id : NodeId) :
    (z.forest .nil).attach z.top id = z.forest (.leaf id) := by
  cases z with
  | script done => simp [top, forest, Forest.attach]
  | block outer skips b done =>
    simp only [ids, List.nodup_cons, List.mem_append, List.mem_cons, not_or,
      List.nodup_append] at hnodup
    have hb : b ≠ Tree.root := fun e => hnodup.1.2.1 e.symm
    have houter : b ∉ outer.ids := fun hc => hnodup.2.2.2 b (.inl hc) b (by simp) rfl
    have hskips : b ∉ wrapIds skips := fun hc => hnodup.2.2.2 b (.inr hc) b (by simp) rfl
    rw [top, forest, attach_forest hb id houter, attach_wrap hb id hskips,
      Forest.attach_node_self hb]
    simp [forest]

/-! ## Drafts -/

/-- The state of the nesting: the open blocks, and the `skip if`s that wait for a command, innermost
first. -/
structure Draft where
  spine : Spine
  waiting : List (NodeId × Forest)

namespace Draft

def empty : Draft := ⟨.script .nil, []⟩

def inner (d : Draft) : Spine :=
  match d.waiting with
  | [] => d.spine
  | (id, done) :: skips => .block d.spine skips id done

def forest (d : Draft) : Forest := d.inner.forest .nil

def hold (d : Draft) (id : NodeId) : Draft :=
  match d.waiting with
  | [] => ⟨d.spine.push (.leaf id), []⟩
  | (skip, done) :: skips => ⟨d.spine, (skip, done ++ .leaf id) :: skips⟩

def settle (d : Draft) : Spine := d.spine.push (wrap d.waiting .nil)

end Draft

def Spine.alternative (part : NodeId → Part) (id : NodeId) : Spine → Spine
  | script done => script (done ++ .leaf id)
  | block outer skips b done =>
    if (part b).isTest then
      block (outer.push (wrap skips (.node b (done ++ .leaf (id + 1)) .nil))) [] id .nil
    else block outer skips b (done ++ .leaf id)

def Spine.finish (part : NodeId → Part) (id : NodeId) : Spine → Spine
  | script done => script (done ++ .leaf id)
  | block outer skips b done =>
    if part b = .loop then
      outer.push (wrap skips (.node b (done ++ .node (id + 1) .nil (.leaf id)) .nil))
    else outer.push (wrap skips (.node b (done ++ .leaf id) .nil))

/-- Add a line. The hidden jump that it may bring along has the next name. -/
def Draft.add (part : NodeId → Part) (id : NodeId) (d : Draft) : Draft :=
  match part id with
  | .idle | .header => d.hold id
  | .plain | .shorthand | .leave | .again | .jump => ⟨d.spine.push (wrap d.waiting (.leaf id)), []⟩
  | .skip => ⟨d.spine, (id, .nil) :: d.waiting⟩
  | .branch | .loop => ⟨.block d.spine d.waiting id .nil, []⟩
  | .elseBranch | .otherwise => ⟨d.settle.alternative part id, []⟩
  | .close => ⟨d.settle.finish part id, []⟩

namespace Draft

theorem forest_inner (d : Draft) (row : Forest) :
    d.inner.forest row = d.spine.forest (wrap d.waiting row) := by
  rcases d with ⟨spine, _ | ⟨⟨id, done⟩, skips⟩⟩
  · rfl
  · simp [inner, Spine.forest, wrap]

theorem forest_settle (d : Draft) : d.forest = d.settle.forest .nil := by
  rw [forest, forest_inner, settle, Spine.forest_push, Forest.append_nil]

theorem forest_hold (d : Draft) (id : NodeId) : (d.hold id).forest = d.inner.forest (.leaf id) := by
  rcases d with ⟨spine, _ | ⟨⟨skip, done⟩, skips⟩⟩
  · simp [hold, forest, inner]
  · simp [hold, forest, inner, Spine.forest]

theorem pending_hold (d : Draft) (id : NodeId) : (d.hold id).inner.pending = d.inner.pending := by
  rcases d with ⟨spine, _ | ⟨⟨skip, done⟩, skips⟩⟩
  · simp [hold, inner]
  · rfl

end Draft

end GameScript
