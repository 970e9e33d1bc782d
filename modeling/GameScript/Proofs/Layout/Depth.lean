import GameScript.Proofs.Layout.Printing
import GameScript.Proofs.Symbols.Labels

/-!
# Indentation is nesting

The printer rebuilds the depth of a line from the lines before it, with a stack of its own. In a
script that compiles, that is the depth of the line in the tree: `indentation_is_nesting`.

* `Tree.Indents` follows the stack along the lines of a row and compares it with the tree. A
  well-built row passes (`Block.indents`), and so do the lines below a `skip if`
  (`Skipped.indents`): the proofs follow the shape of the row.
* The flag for subroutines is compared with the lines before a line alone (`Tree.Opened`).
-/

namespace GameScript

/-! ## Where a line stands in the tree -/

namespace Tree

/-- The blocks that contain a node. An `end` hangs below the block that it closes, but is not
counted inside it. -/
def blocksAround (t : Tree) (id : NodeId) : List NodeId :=
  (if t.role id = .close then (t.ancestors id).tail else t.ancestors id).filter fun a =>
    (t.role a).opensBlock

def isSkipped (t : Tree) (id : NodeId) : Bool :=
  (t.parent? id).any fun parent => t.role parent == .skip

/-- The depth of a node: the blocks that contain it, and one more below a `skip if`. -/
def depth (t : Tree) (id : NodeId) : Nat :=
  (t.blocksAround id).length + if t.isSkipped id then 1 else 0

def countBlocks (t : Tree) (ids : List NodeId) : Nat := ids.countP fun a => (t.role a).opensBlock

section

variable {t : Tree} (hregular : ∀ id, (t.node id).Regular)

include hregular

theorem countBlocks_cons (id : NodeId) (ids : List NodeId) :
    t.countBlocks (id :: ids) = t.countBlocks ids + if (t.part id).opensBlock then 1 else 0 := by
  rw [countBlocks, List.countP_cons, role_eq_role (hregular id), Part.opensBlock_role]
  rfl

theorem depth_eq {parent id : NodeId} {up earlier before behind : List NodeId}
    {below after : Forest} (h : t.Row parent up earlier before (.node id below after) behind) :
    t.depth id = t.countBlocks (if t.part id = .close then up else parent :: up) +
      if t.part parent = .skip then 1 else 0 := by
  have hskip : ∀ p : Part, p.role = .skip ↔ p = .skip := by intro p; cases p <;> simp [Part.role]
  simp only [depth, blocksAround, isSkipped, countBlocks, h.ancestors_eq, h.parent?_eq,
    List.tail_cons, ← List.countP_eq_length_filter, Option.any_some, beq_iff_eq,
    role_eq_role (hregular _), Part.role_eq_close, hskip]

variable {parent id : NodeId} {up earlier before behind : List NodeId} {below after : Forest}

section

variable (h : t.Row parent up earlier before (.node id below after) behind)

include h

theorem depth_of_skipped
    (hparent : t.part parent = .skip) (hid : t.part id ≠ .close) :
    t.depth id = t.countBlocks up + 1 := by
  rw [depth_eq hregular h, if_neg hid, if_pos hparent, countBlocks_cons hregular, hparent]
  rfl

theorem depth_of_inner
    (hparent : t.part parent ≠ .skip) (hid : t.part id ≠ .close) :
    t.depth id = t.countBlocks (parent :: up) := by
  rw [depth_eq hregular h, if_neg hid, if_neg hparent, Nat.add_zero]

theorem depth_of_close
    (hparent : t.part parent ≠ .skip) (hid : t.part id = .close) :
    t.depth id = t.countBlocks up := by
  rw [depth_eq hregular h, if_pos hid, if_neg hparent, Nat.add_zero]

end

end

end Tree

/-! ## Levels along a row -/

def Part.shown (p : Part) (levels : List Level) : List Level :=
  if Indentation.closes p.role then Indentation.closeLevel levels else levels

namespace Tree

/-- The lines lead from one state of the levels to another one, and each is displayed in as many
levels as its depth says. -/
def Indents (t : Tree) (levels : List Level) : List NodeId → List Level → Prop
  | [], levels' => levels = levels'
  | id :: ids, levels' =>
    ((t.part id).shown levels).length = t.depth id ∧
      t.Indents ((t.part id).levels levels) ids levels'

theorem Indents.append {t : Tree} {levels levels' levels'' : List Level} {ids ids' : List NodeId}
    (h : t.Indents levels ids levels') (h' : t.Indents levels' ids' levels'') :
    t.Indents levels (ids ++ ids') levels'' := by
  induction ids generalizing levels with
  | nil =>
    obtain rfl : levels = levels' := h
    exact h'
  | cons id ids ih => exact ⟨h.1, ih h.2⟩

theorem Indents.split {t : Tree} {levels levels'' : List Level} {ids ids' : List NodeId}
    (h : t.Indents levels (ids ++ ids') levels'') :
    ∃ levels', t.Indents levels ids levels' ∧ t.Indents levels' ids' levels'' := by
  induction ids generalizing levels with
  | nil => exact ⟨levels, rfl, h⟩
  | cons id ids ih =>
    obtain ⟨levels', hids, hids'⟩ := ih h.2
    exact ⟨levels', ⟨h.1, hids⟩, hids'⟩

end Tree

namespace Forest

variable {part : NodeId → Part} {id : NodeId}

theorem written_node (hid : part id ≠ .jump) (below after : Forest) :
    (node id below after).written part = id :: (below.written part ++ after.written part) := by
  simp [written, hid]

theorem written_node_of_jump (hid : part id = .jump) (below after : Forest) :
    (node id below after).written part = below.written part ++ after.written part := by
  simp [written, hid]

end Forest

section Rows

variable {t : Tree} {parent : NodeId} {up earlier before behind : List NodeId} {f : Forest}
  {n : Nat}

def blockLevels (n : Nat) : List Level := List.replicate n .block

theorem settled_blockLevels (n : Nat) : Settled (blockLevels n) := by
  cases n <;> simp [Settled, blockLevels, List.replicate_succ]

theorem length_blockLevels (n : Nat) : (blockLevels n).length = n := List.length_replicate

theorem Tree.Indents.node {levels inner rest : List Level} {id : NodeId} {below after : Forest}
    (hid : t.part id ≠ .jump) (hshown : ((t.part id).shown levels).length = t.depth id)
    (hbelow : t.Indents ((t.part id).levels levels) (below.written t.part) inner)
    (hafter : t.Indents inner (after.written t.part) rest) :
    t.Indents levels ((Forest.node id below after).written t.part) rest := by
  rw [Forest.written_node hid]
  exact ⟨hshown, hbelow.append hafter⟩

theorem Part.shown_of_not_closes {p : Part} (h : Indentation.closes p.role = false)
    (levels : List Level) :
    p.shown levels = levels := by
  rw [Part.shown, h, if_neg Bool.false_ne_true]

theorem Part.ne_close_of_not_closes {p : Part} (h : Indentation.closes p.role = false) :
    p ≠ .close := by
  rintro rfl
  cases h

section

variable (hregular : ∀ id, (t.node id).Regular) {id : NodeId} {below after : Forest}
  (hrow : t.Row parent up earlier before (.node id below after) behind)

include hregular hrow

theorem Tree.length_shown_skipped (hparent : t.part parent = .skip) (hn : t.countBlocks up = n)
    (hid : Indentation.closes (t.part id).role = false) :
    ((t.part id).shown (.skip :: blockLevels n)).length = t.depth id := by
  rw [Part.shown_of_not_closes hid, Tree.depth_of_skipped hregular hrow hparent
    (Part.ne_close_of_not_closes hid), hn,
    List.length_cons, length_blockLevels]

theorem Tree.length_shown_inner (hparent : t.part parent ≠ .skip)
    (hn : t.countBlocks (parent :: up) = n) (hid : Indentation.closes (t.part id).role = false) :
    ((t.part id).shown (blockLevels n)).length = t.depth id := by
  rw [Part.shown_of_not_closes hid, Tree.depth_of_inner hregular hrow hparent
    (Part.ne_close_of_not_closes hid), hn,
    length_blockLevels]

end

/-- The lines below a `skip if` are displayed one level deeper, up to the one that is executed. -/
theorem Skipped.indents (hregular : ∀ id, (t.node id).Regular) {inLoop : Bool}
    (h : Skipped t.part inLoop f) (hrow : t.Row parent up earlier before f behind)
    (hparent : t.part parent = .skip) (hn : t.countBlocks up = n) :
    t.Indents (.skip :: blockLevels n) (f.written t.part) (blockLevels n) := by
  induction h generalizing parent up earlier before behind with
  | @idle id after hid _ ih =>
    refine .node (by simp [hid]) ?_ (by rw [hid]; exact rfl) (ih hrow.rest hparent hn)
    exact Tree.length_shown_skipped hregular hrow hparent hn (by rw [hid]; rfl)
  | @plain id hid =>
    refine .node (by simp [hid]) ?_ (by rw [hid]; exact rfl) rfl
    exact Tree.length_shown_skipped hregular hrow hparent hn (by rw [hid]; rfl)
  | @exit id hid _ =>
    rcases Part.eq_of_isExit hid with hid | hid <;>
    · refine .node (by simp [hid]) ?_ (by rw [hid]; exact rfl) rfl
      exact Tree.length_shown_skipped hregular hrow hparent hn (by rw [hid]; rfl)
  | @skip id below hid _ ih =>
    have hcount : t.countBlocks (parent :: up) = n := by
      rw [Tree.countBlocks_cons hregular, hparent, hn]
      rfl
    refine .node (by simp [hid]) ?_ (by rw [hid]; exact ih hrow.inner hid hcount) rfl
    exact Tree.length_shown_skipped hregular hrow hparent hn (by rw [hid]; rfl)

/-- The levels at the start of a row: an alternative still stands inside of the test before it. -/
def startLevels (inChain : Bool) (n : Nat) : List Level :=
  blockLevels (if inChain then n + 1 else n)

def Stop.levels (n : Nat) : Stop → List Level
  | .script | .jump => blockLevels n
  | .close | .loop => blockLevels (n - 1)

theorem blockLevels_succ (n : Nat) : blockLevels (n + 1) = .block :: blockLevels n := rfl

section

variable (hregular : ∀ id, (t.node id).Regular) {id : NodeId} {below after : Forest}
  (hrow : t.Row parent up earlier before (.node id below after) behind)

include hregular hrow

/-- An `end` is displayed outside of the block that it closes. -/
theorem Tree.indents_close (hid : t.part id = .close) (hparent : (t.part parent).opensBlock = true)
    (hn : t.countBlocks (parent :: up) = n) :
    t.Indents (blockLevels n) [id] (blockLevels (n - 1)) := by
  have hskip : t.part parent ≠ .skip := by
    intro hc
    rw [hc] at hparent
    cases hparent
  obtain rfl : t.countBlocks up + 1 = n := by
    rw [← hn, Tree.countBlocks_cons hregular, hparent]
    rfl
  rw [blockLevels_succ, Nat.add_sub_cancel]
  refine ⟨?_, ?_⟩
  · rw [Tree.depth_of_close hregular hrow hskip hid, hid]
    exact length_blockLevels _
  · rw [hid]
    exact rfl

/-- A line that stands alone leaves the levels as they are. -/
theorem Tree.indents_lone (hid : (t.part id).isSingle = true ∨ (t.part id).isExit = true)
    (hparent : t.part parent ≠ .skip) (hn : t.countBlocks (parent :: up) = n) {rest : List Level}
    (hafter : t.Indents (blockLevels n) (after.written t.part) rest) :
    t.Indents (blockLevels n) ((Forest.node id .nil after).written t.part) rest := by
  have hlevels : (t.part id).levels (blockLevels n) = blockLevels n := by
    by_cases hheader : t.part id = .header
    · rw [hheader]
      rfl
    · refine Part.levels_of_settled (settled_blockLevels n) ?_
      cases hp : t.part id <;> simp_all [Part.isSingle, Part.isExit]
  refine .node ?_ (Tree.length_shown_inner hregular hrow hparent hn ?_) hlevels hafter
  · intro hc
    simp [hc, Part.isSingle, Part.isExit] at hid
  · cases hp : t.part id <;> simp_all [Part.isSingle, Part.isExit, Part.role, Indentation.closes]

/-- A branch or an alternative is displayed outside of its own block, and opens it. -/
theorem Tree.opens_of_takesPlace {inChain : Bool} (hid : (t.part id).takesPlace inChain = true)
    (hparent : t.part parent ≠ .skip) (hn : t.countBlocks (parent :: up) = n) :
    ((t.part id).shown (startLevels inChain n)).length = t.depth id ∧
      (t.part id).levels (startLevels inChain n) = blockLevels (n + 1) := by
  cases inChain with
  | false =>
    have hbranch : t.part id = .branch := by simpa [Part.takesPlace] using hid
    exact ⟨Tree.length_shown_inner hregular hrow hparent hn (by rw [hbranch]; rfl),
      Part.levels_opener (settled_blockLevels n) (.inl hbranch)⟩
  | true =>
    have halternative : t.part id = .elseBranch ∨ t.part id = .otherwise := by
      cases hp : t.part id <;> simp_all [Part.takesPlace, Part.continuesChain]
    refine ⟨?_, Part.levels_alternative (settled_blockLevels n) halternative⟩
    rw [Tree.depth_of_inner hregular hrow hparent (by rcases halternative with h | h <;> simp [h]),
      hn]
    rcases halternative with h | h <;> rw [h] <;> exact length_blockLevels n

end

/-- The lines of a well-built row are displayed at their depths. -/
theorem Block.indents (hregular : ∀ id, (t.node id).Regular) {inLoop inChain : Bool} {stop : Stop}
    (h : Block t.part inLoop inChain stop f) (hrow : t.Row parent up earlier before f behind)
    (hparent : t.part parent ≠ .skip) (hn : t.countBlocks (parent :: up) = n)
    (hstop : stop = .close ∨ stop = .loop → (t.part parent).opensBlock = true) :
    t.Indents (startLevels inChain n) (f.written t.part) (stop.levels n) := by
  -- Inside of a block there is one more level.
  have hinner : ∀ {id : NodeId} {up : List NodeId} {n : Nat}, t.countBlocks up = n →
      (t.part id).opensBlock = true →
      t.part id ≠ .skip ∧ t.countBlocks (id :: up) = n + 1 := by
    intro id up n hn hid
    refine ⟨?_, by rw [Tree.countBlocks_cons hregular, hid, hn, if_pos rfl]⟩
    intro hc
    rw [hc] at hid
    cases hid
  induction h generalizing parent up earlier before behind n with
  | script => exact rfl
  | @close _ id hid =>
    rw [Forest.written_node (by simp [hid])]
    exact Tree.indents_close hregular hrow hid (hstop (.inl rfl)) hn
  | @jump _ id hid =>
    rw [Forest.written_node_of_jump hid]
    exact rfl
  | @round _ id last hid hlast =>
    rw [Forest.written_node_of_jump hid, Forest.written_node (by simp [hlast])]
    exact Tree.indents_close hregular hrow.rest hlast (hstop (.inr rfl)) hn
  | @single _ _ id after hid _ ih =>
    exact Tree.indents_lone hregular hrow (.inl hid) hparent hn (ih hrow.rest hparent hn hstop)
  | @exit _ id after hid _ ih =>
    exact Tree.indents_lone hregular hrow (.inr hid) hparent hn (ih hrow.rest hparent hn hstop)
  | @skip _ _ id below after hid hbelow _ ih =>
    refine .node (by simp [hid]) (Tree.length_shown_inner hregular hrow hparent hn
      (by rw [hid]; rfl)) ?_
      (ih hrow.rest hparent hn hstop)
    have hlevels : Part.skip.levels (blockLevels n) = .skip :: blockLevels n :=
      congrArg (Level.skip :: ·) (settled_blockLevels n).dropSkip_eq
    rw [hid, startLevels, if_neg Bool.false_ne_true, hlevels]
    exact hbelow.indents hregular hrow.inner hid hn
  | @loop _ _ id below after hid _ _ ihb iha =>
    obtain ⟨hskip, hcount⟩ := hinner hn (by rw [hid]; rfl)
    refine .node (by simp [hid]) (Tree.length_shown_inner hregular hrow hparent hn
      (by rw [hid]; rfl)) ?_
      (iha hrow.rest hparent hn hstop)
    rw [startLevels, if_neg Bool.false_ne_true,
      Part.levels_opener (settled_blockLevels n) (.inr hid)]
    exact ihb hrow.inner hskip hcount fun _ => by rw [hid]; rfl
  | @closed _ _ _ id below after hid _ _ ihb iha =>
    obtain ⟨hshown, hlevels⟩ := Tree.opens_of_takesPlace hregular hrow hid hparent hn
    have hopens := (Part.opensBlock_of_takesPlace hid).1
    obtain ⟨hskip, hcount⟩ := hinner hn hopens
    refine .node (by intro hc; rw [hc] at hopens; cases hopens) hshown ?_
      (iha hrow.rest hparent hn hstop)
    rw [hlevels]
    exact ihb hrow.inner hskip hcount fun _ => hopens
  | @continued _ _ _ id below after hid htest _ _ ihb iha =>
    obtain ⟨hshown, hlevels⟩ := Tree.opens_of_takesPlace hregular hrow hid hparent hn
    have hopens := (Part.opensBlock_of_takesPlace hid).1
    obtain ⟨hskip, hcount⟩ := hinner hn hopens
    refine .node (by intro hc; rw [hc] at hopens; cases hopens) hshown ?_
      (iha hrow.rest hparent hn hstop)
    rw [hlevels]
    exact ihb hrow.inner hskip hcount fun hc => by simp at hc

end Rows

/-! ## Lines of subroutines -/

/-- The label that a statement calls. A call that is commented out calls none. -/
def Statement.call? (s : Statement) : Option String :=
  if s.commented || s.form != FormId.gosub then none else s.label?

theorem Statement.call?_eq_some {s : Statement} {label : String} : s.call? = some label ↔
    s.form = FormId.gosub ∧ s.commented = false ∧ s.label? = some label := by
  unfold call?
  cases s.commented <;> by_cases hform : s.form = FormId.gosub <;> simp [hform]

namespace Tree

def StartsSubroutine (t : Tree) (ids : List NodeId) (id : NodeId) : Prop :=
  ∃ label ∈ (t.node id).statement.definition?, ∃ c ∈ ids, label ∈ (t.node c).statement.call?

/-- The line is an `endsub` outside of all blocks and `skip if`s. -/
def EndsSubroutine (t : Tree) (id : NodeId) : Prop :=
  (t.node id).is FormId.endsub = true ∧ ∀ a ∈ t.ancestors id, (t.role a).opensBlock = false ∧
  t.role a ≠ .skip

instance (t : Tree) (ids : List NodeId) : DecidablePred (t.StartsSubroutine ids) := fun id =>
  inferInstanceAs (Decidable
    (∃ label ∈ (t.node id).statement.definition?, ∃ c ∈ ids, label ∈ (t.node c).statement.call?))

instance (t : Tree) : DecidablePred t.EndsSubroutine := fun id =>
  inferInstanceAs (Decidable (_ = true ∧ ∀ a ∈ t.ancestors id, (t.role a).opensBlock = false ∧
    t.role a ≠ .skip))

/-- A subroutine starts among the lines, and none ends after that. -/
def Opened (t : Tree) (ids before : List NodeId) : Prop :=
  ∃ l₁ a l₂, before = l₁ ++ a :: l₂ ∧ t.StartsSubroutine ids a ∧ ∀ b ∈ l₂, ¬ t.EndsSubroutine b

/-- A line after those in `before` belongs to a subroutine: one starts before it, and none ends up
to the line itself. -/
def InSubroutine (t : Tree) (ids before : List NodeId) (id : NodeId) : Prop :=
  ∃ l₁ a l₂, before = l₁ ++ a :: l₂ ∧ t.StartsSubroutine ids a ∧
    ∀ b ∈ l₂ ++ [id], ¬ t.EndsSubroutine b

variable {t : Tree} {ids before : List NodeId} {id : NodeId}

theorem inSubroutine_iff : t.InSubroutine ids before id ↔ t.Opened ids before ∧
    ¬ t.EndsSubroutine id := by
  constructor
  · rintro ⟨l₁, a, l₂, hbefore, hstarts, hends⟩
    exact ⟨⟨l₁, a, l₂, hbefore, hstarts, fun b hb => hends b (by simp [hb])⟩, hends id (by simp)⟩
  · rintro ⟨⟨l₁, a, l₂, hbefore, hstarts, hends⟩, hid⟩
    refine ⟨l₁, a, l₂, hbefore, hstarts, fun b hb => ?_⟩
    rcases List.mem_append.mp hb with hb | hb
    · exact hends b hb
    · exact List.mem_singleton.mp hb ▸ hid

theorem not_opened_nil : ¬ t.Opened ids [] := by
  rintro ⟨l₁, a, l₂, hbefore, -⟩
  simp at hbefore

theorem opened_concat : t.Opened ids (before ++ [id]) ↔ t.InSubroutine ids before id ∨
    t.StartsSubroutine ids id := by
  constructor
  · rintro ⟨l₁, a, l₂, hbefore, hstarts, hends⟩
    rcases List.eq_nil_or_concat' l₂ with rfl | ⟨l₂, b, rfl⟩
    · obtain ⟨-, hid⟩ := List.append_inj' hbefore rfl
      obtain rfl : id = a := by simpa using hid
      exact .inr hstarts
    · rw [← List.cons_append, ← List.append_assoc] at hbefore
      obtain ⟨hinit, hid⟩ := List.append_inj' hbefore rfl
      obtain rfl : id = b := by simpa using hid
      exact .inl ⟨l₁, a, l₂, hinit, hstarts, hends⟩
  · rintro (⟨l₁, a, l₂, rfl, hstarts, hends⟩ | hstarts)
    · exact ⟨l₁, a, l₂ ++ [id], by simp, hstarts, hends⟩
    · exact ⟨before, id, [], rfl, hstarts, by simp⟩

theorem opened_cons : t.Opened ids (id :: before) ↔
    (t.StartsSubroutine ids id ∧ ∀ b ∈ before, ¬ t.EndsSubroutine b) ∨ t.Opened ids before := by
  constructor
  · rintro ⟨l₁, a, l₂, hbefore, hstarts, hends⟩
    rcases l₁ with _ | ⟨c, l₁⟩
    · obtain ⟨rfl, rfl⟩ := List.cons.inj hbefore
      exact .inl ⟨hstarts, hends⟩
    · exact .inr ⟨l₁, a, l₂, (List.cons.inj hbefore).2, hstarts, hends⟩
  · rintro (⟨hstarts, hends⟩ | ⟨l₁, a, l₂, rfl, hstarts, hends⟩)
    · exact ⟨[], id, before, rfl, hstarts, hends⟩
    · exact ⟨id :: l₁, a, l₂, rfl, hstarts, hends⟩

instance decidableOpened (t : Tree) (ids : List NodeId) :
    (before : List NodeId) → Decidable (t.Opened ids before)
  | [] => isFalse not_opened_nil
  | _ :: before =>
    have := decidableOpened t ids before
    decidable_of_iff' _ opened_cons

instance (t : Tree) (ids before : List NodeId) (id : NodeId) :
    Decidable (t.InSubroutine ids before id) :=
  decidable_of_iff' _ inSubroutine_iff

end Tree

/-! ## Printing the lines of a tree -/

namespace Layout

theorem contains_calledBy {ss : List Statement} {text : String} :
    (calledBy ss).contains text = true ↔
    ∃ s ∈ ss, s.commented = false ∧ s.form = FormId.gosub ∧
      s.parameters.head?.map (·.text) = some text := by
  rw [calledBy, Std.TreeSet.contains_ofList, List.contains_iff_mem]
  simp only [List.mem_filterMap, List.mem_filter, Bool.and_eq_true, Bool.not_eq_true', beq_iff_eq]
  grind

/-- The line of a label is the label with a colon. -/
theorem head?_text {v : Version} {s : Statement}
    (hread : ∃ number line, s = (Statement.read .builtin v number line).statement)
    (hform : s.form.namesLabel = true) :
    ∃ name, s.parameters.head?.map (·.text) = some (name ++ ":") ∧ s.label? = some name := by
  obtain ⟨number, line, rfl⟩ := hread
  obtain ⟨name, htexts, hlabel⟩ := Statement.read_of_namesLabel v number line hform
  refine ⟨name, ?_, hlabel⟩
  rw [← List.head?_map, htexts]
  rfl

variable {t : Tree} {ids : List NodeId}

/-- The printer compares the texts of labels; that is to compare the labels. -/
theorem startsSubroutine_iff {v : Version}
    (hread : ∀ c ∈ ids, ∃ number line, (t.node c).statement =
      (Statement.read .builtin v number line).statement)
    {id : NodeId} (hid : id ∈ ids) :
    (ofStatement (calledBy (ids.map fun c => (t.node c).statement))
      (t.node id).statement).shape.startsSubroutine
      = true ↔ t.StartsSubroutine ids id := by
  have hcolon : ∀ {name other : String}, name ++ ":" = other ++ ":" → name = other := by
    intro name other h
    rw [← String.toList_inj] at h ⊢
    simpa using h
  simp only [ofStatement, Bool.and_eq_true, Bool.not_eq_true', beq_iff_eq, and_assoc]
  constructor
  · rintro ⟨hcommented, hform, hcalled⟩
    obtain ⟨name, htext, hlabel⟩ :=
      head?_text (hread id hid) (FormId.namesLabel_iff.mpr (.inl hform))
    obtain ⟨p, hp, hptext⟩ := Option.map_eq_some_iff.mp htext
    rw [hp, Option.any_some, hptext, contains_calledBy] at hcalled
    obtain ⟨s, hs, hcommented', hgosub, hstext⟩ := hcalled
    obtain ⟨c, hc, rfl⟩ := List.mem_map.mp hs
    obtain ⟨other, hother, hcall⟩ :=
      head?_text (hread c hc) (FormId.namesLabel_iff.mpr (.inr (.inr hgosub)))
    obtain rfl := hcolon (Option.some.inj (hstext.symm.trans hother))
    exact ⟨name, Statement.definition?_eq_some.mpr ⟨hform, hcommented, hlabel⟩, c, hc,
      Statement.call?_eq_some.mpr ⟨hgosub, hcommented', hcall⟩⟩
  · rintro ⟨label, hdefines, c, hc, hcalls⟩
    obtain ⟨hform, hcommented, hlabel⟩ := Statement.definition?_eq_some.mp hdefines
    obtain ⟨hgosub, hcommented', hcall⟩ := Statement.call?_eq_some.mp hcalls
    obtain ⟨name, htext, hname⟩ :=
      head?_text (hread id hid) (FormId.namesLabel_iff.mpr (.inl hform))
    obtain ⟨other, hother, hothername⟩ :=
      head?_text (hread c hc) (FormId.namesLabel_iff.mpr (.inr (.inr hgosub)))
    obtain rfl := Option.some.inj (hlabel.symm.trans hname)
    obtain rfl := Option.some.inj (hcall.symm.trans hothername)
    obtain ⟨p, hp, hptext⟩ := Option.map_eq_some_iff.mp htext
    refine ⟨hcommented, hform, ?_⟩
    rw [hp, Option.any_some, hptext, contains_calledBy]
    exact ⟨_, List.mem_map_of_mem hc, hcommented', hgosub, hother⟩

end Layout

namespace Tree

theorem Spans.ancestors_eq {t : Tree} {f : Forest} (h : t.Spans f) {id parent : NodeId}
    (hid : t.parent? id = some parent) :
    t.ancestors id = parent :: t.climb f.ids.length (t.parent? parent) := by
  rw [ancestors, hid, h.size_eq, climb]

/-- The lines without any depth are those outside of all blocks and `skip if`s, the `end`s apart. -/
theorem nest_depth_eq_zero_iff {rs : List Reading} (hrs : ∀ r ∈ rs, r.statement.Regular)
    (hregular : ∀ id, ((nest rs).node id).Regular) {f : Forest} (hf : (nest rs).Spans f)
    {id : NodeId} (hid : id ∈ f.ids) (hclose : (nest rs).part id ≠ .close) :
    (nest rs).depth id = 0 ↔
      ∀ a ∈ (nest rs).ancestors id, ((nest rs).role a).opensBlock = false ∧
        (nest rs).role a ≠ .skip := by
  have hrole : (nest rs).role id ≠ .close := by
    rw [role_eq_role (hregular id), ne_eq, Part.role_eq_close]
    exact hclose
  obtain ⟨parent, hparent⟩ := Option.isSome_iff_exists.mp (hf.hangs.parent?_isSome hid)
  have hancestors := hf.ancestors_eq hparent
  simp only [depth, blocksAround, if_neg hrole, isSkipped, hparent, Option.any_some, beq_iff_eq,
    Nat.add_eq_zero_iff, List.length_eq_zero_iff, List.filter_eq_nil_iff, Bool.not_eq_true]
  constructor
  · rintro ⟨hblocks, hskip⟩
    replace hskip : (nest rs).role parent ≠ .skip := by simpa using hskip
    by_cases hroot : parent = root
    · have hclimb : (nest rs).climb f.ids.length none = [] := by cases f.ids.length <;> rfl
      rw [hancestors, hroot, hf.orphan, hclimb]
      intro a ha
      obtain rfl := List.mem_singleton.mp ha
      rw [role_eq_role (hregular root), nest_part_root]
      decide
    · -- Something hangs below the parent, so it opens a block or skips.
      obtain ⟨hchild, hsize⟩ := hf.mem_children hid hparent
      have hmem : parent ∈ f.ids :=
        (List.mem_cons.mp ((hf.covers parent).mp hsize)).resolve_left hroot
      have hopens : ((nest rs).part parent).opensBlock = false := by
        rw [← Part.opensBlock_role, ← role_eq_role (hregular parent)]
        exact hblocks parent (by simp [hancestors])
      have hskips : (nest rs).part parent ≠ .skip := by
        intro hc
        rw [role_eq_role (hregular parent), hc] at hskip
        exact hskip rfl
      rw [nest_childless hrs hf hmem hopens hskips] at hchild
      cases hchild
  · intro h
    refine ⟨fun a ha => (h a ha).1, if_neg (h parent (by simp [hancestors])).2⟩

end Tree

namespace Layout

variable {e : Setting} {lines : List String} {f : Forest} {ids before : List NodeId} {id : NodeId}
  {i : Indentation}

def ofNode (t : Tree) (ids : List NodeId) (id : NodeId) : Printed :=
  ofStatement (calledBy (ids.map fun c => (t.node c).statement)) (t.node id).statement

structure Legible (t : Tree) (ids : List NodeId) : Prop where
  source : ∀ id ∈ ids, (t.node id).origin = .source
  regular : ∀ id ∈ ids, (t.node id).statement.Regular
  starts : ∀ id ∈ ids, (ofNode t ids id).shape.startsSubroutine = true ↔ t.StartsSubroutine ids id
  ends : ∀ id ∈ ids, (t.node id).is FormId.endsub = true → (t.depth id = 0 ↔
    ∀ a ∈ t.ancestors id, (t.role a).opensBlock = false ∧ t.role a ≠ .skip)

section

variable {t : Tree} (h : Legible t ids) (hid : id ∈ ids)

include h hid

theorem Legible.part_eq : (t.node id).statement.part = t.part id := by
  rw [Tree.part, Node.part, h.source id hid]

/-- The levels in which a line is displayed. -/
theorem levels_before : (i.pass (ofNode t ids id).shape).1.levels = (t.part id).shown i.levels := by
  rw [Part.shown, ← h.part_eq hid, Statement.role_part]
  rfl

/-- A line is displayed inside of a subroutine if it belongs to one. -/
theorem inSubroutine_before (hshown : ((t.part id).shown i.levels).length = t.depth id)
    (hflag : i.inSubroutine = true ↔ t.Opened ids before) :
    (i.pass (ofNode t ids id).shape).1.inSubroutine = true ↔ t.InSubroutine ids before id := by
  have hends : ((t.node id).is FormId.endsub && ((t.part id).shown i.levels).isEmpty) = true ↔
      t.EndsSubroutine id := by
    rw [Bool.and_eq_true, List.isEmpty_iff_length_eq_zero, hshown]
    exact and_congr_right (h.ends id hid)
  have hpass : (i.pass (ofNode t ids id).shape).1.inSubroutine =
      (i.inSubroutine && !((t.node id).is FormId.endsub &&
        ((t.part id).shown i.levels).isEmpty)) := by
    rw [← levels_before h hid]
    rfl
  rw [hpass, Bool.and_eq_true, hflag, Tree.inSubroutine_iff, Bool.not_eq_true', ← hends,
    Bool.not_eq_true]

/-- The indentation of a line is its depth, and one more inside of a subroutine. -/
theorem spaces_before (hshown : ((t.part id).shown i.levels).length = t.depth id)
    (hflag : i.inSubroutine = true ↔ t.Opened ids before) :
    (i.pass (ofNode t ids id).shape).1.spaces =
      i.width * (t.depth id + if t.InSubroutine ids before id then 1 else 0) := by
  rw [Indentation.spaces, Indentation.depth, levels_before h hid, hshown]
  simp only [inSubroutine_before h hid hshown hflag]
  exact Nat.mul_comm _ _

end

structure Reached (t : Tree) (ids done : List NodeId) (width : Nat) (levels : List Level)
    (state : Indentation × Array String) : Prop where
  width : state.1.width = width
  levels : state.1.levels = levels
  flag : state.1.inSubroutine = true ↔ t.Opened ids done
  size : state.2.size = done.length

theorem Reached.start (t : Tree) (ids : List NodeId) (width : Nat) :
    Reached t ids [] width [] (.start width, #[]) :=
  ⟨rfl, rfl, iff_of_false Bool.false_ne_true Tree.not_opened_nil, rfl⟩

variable {t : Tree} {done : List NodeId} {width : Nat} {levels levels' : List Level}
  {state : Indentation × Array String}

theorem Reached.step (hreached : Reached t ids done width levels state) (h : Legible t ids)
    (hid : id ∈ ids) (hshown : ((t.part id).shown levels).length = t.depth id) :
    Reached t ids (done ++ [id]) width ((t.part id).levels levels)
    (printLine state (ofNode t ids id)) ∧
      (printLine state (ofNode t ids id)).2 = state.2.push
        (indent (width * (t.depth id + if t.InSubroutine ids done id then 1 else 0))
          (ofNode t ids id).text) := by
  obtain ⟨i, out⟩ := state
  obtain ⟨rfl, rfl, hflag, hsize⟩ := hreached
  refine ⟨⟨rfl, ?_, ?_, ?_⟩, ?_⟩
  · rw [← h.part_eq hid]
    exact levels_pass (h.regular id hid) _ i
  · rw [Tree.opened_concat, ← inSubroutine_before h hid hshown hflag, ← h.starts id hid,
      ← Bool.or_eq_true]
    rfl
  · simpa [printLine] using hsize
  · rw [← spaces_before h hid hshown hflag]
    rfl

theorem Reached.run (hreached : Reached t ids done width levels state) (h : Legible t ids)
    {next : List NodeId} (hids : ∀ id ∈ next, id ∈ ids) (hindents : t.Indents levels next levels') :
    Reached t ids (done ++ next) width levels'
      ((next.map (ofNode t ids)).foldl printLine state) := by
  induction next generalizing done levels state with
  | nil =>
    obtain rfl : levels = levels' := hindents
    simpa using hreached
  | cons id next ih =>
    obtain ⟨hshown, hrest⟩ := hindents
    have hstep := (hreached.step h (hids id (by simp)) hshown).1
    have hrun := ih hstep (fun a ha => hids a (by simp [ha])) hrest
    rwa [List.append_assoc, List.singleton_append] at hrun

theorem getElem?_foldl_printLine (ps : List Printed) {k : Nat} (hk : k < state.2.size) :
    (ps.foldl printLine state).2[k]? = state.2[k]? := by
  induction ps generalizing state with
  | nil => rfl
  | cons p ps ih =>
    have hpush : (printLine state p).2 =
        state.2.push (indent (state.1.pass p.shape).1.spaces p.text) := rfl
    have hlt : k < (printLine state p).2.size := by
      rw [hpush, Array.size_push]
      exact Nat.lt_succ_of_lt hk
    rw [List.foldl_cons, ih hlt, hpush, Array.getElem?_push, if_neg (Nat.ne_of_lt hk)]

/-- Every line of a tree is printed at its depth. -/
theorem print_getElem? (h : Legible t ids) (hindents : t.Indents [] ids levels)
    {after : List NodeId} (hsplit : ids = before ++ id :: after) :
    (print width (ids.map (ofNode t ids)))[before.length]? = some
      (indent (width * (t.depth id + if t.InSubroutine ids before id then 1 else 0))
        (ofNode t ids id).text) := by
  rw [hsplit] at hindents
  obtain ⟨levels', hbefore, hshown, -⟩ := hindents.split
  have hreached := (Reached.start t ids width).run h (fun a ha => by simp [hsplit, ha]) hbefore
  rw [List.nil_append] at hreached
  obtain ⟨hstep, hline⟩ := hreached.step h (by simp [hsplit]) hshown
  have hlt : before.length <
      (printLine ((before.map (ofNode t ids)).foldl printLine (.start width, #[]))
      (ofNode t ids id)).2.size := by
    rw [hstep.size]
    simp
  have hlines : ids.map (ofNode t ids) =
      before.map (ofNode t ids) ++ ofNode t ids id :: after.map (ofNode t ids) :=
    (congrArg (List.map (ofNode t ids)) hsplit).trans (by rw [List.map_append, List.map_cons])
  rw [print, Array.getElem?_toList, hlines, List.foldl_append, List.foldl_cons,
    getElem?_foldl_printLine _ hlt, hline, ← hreached.size, Array.getElem?_push_size]

end Layout

/-! ## The lines of a script -/

namespace Tree

variable {rs : List Reading} {f : Forest}

theorem exists_holds {t : Tree} {ids : List NodeId} (h : List.Forall₂ t.Holds ids rs) {id : NodeId}
    (hid : id ∈ ids) :
    ∃ r ∈ rs, t.Holds id r := by
  induction h with
  | nil => cases hid
  | @cons _ r _ rest hhead _ ih =>
    rcases List.mem_cons.mp hid with rfl | hid
    · exact ⟨r, by simp, hhead⟩
    · obtain ⟨r', hr', hholds⟩ := ih hid
      exact ⟨r', by simp [hr'], hholds⟩

theorem map_statement_of_holds {t : Tree} {ids : List NodeId} (h : List.Forall₂ t.Holds ids rs) :
    ids.map (fun id => (t.node id).statement) = rs.map (·.statement) := by
  induction h with
  | nil => rfl
  | cons hhead _ ih => rw [List.map_cons, List.map_cons, hhead.statement, ih]

/-- The nodes that are no hidden jumps are those that were read from lines. -/
theorem nest_written_eq (hf : (nest rs).Spans f)
    (hholds : List.Forall₂ (nest rs).Holds (f.written (nest rs).part) rs) :
    f.written (nest rs).part = (nest rs).preorder.filter fun id =>
      ((nest rs).node id).origin == .source := by
  rw [hf.preorder_eq]
  refine List.filter_congr fun id hid => ?_
  rw [Bool.eq_iff_iff, decide_eq_true_eq, beq_iff_eq]
  constructor
  · intro hjump
    obtain ⟨r, -, hr⟩ := exists_holds hholds (List.mem_filter.mpr ⟨hid, decide_eq_true hjump⟩)
    exact hr.origin
  · intro horigin
    rw [part, Node.part, horigin]
    exact Statement.part_ne_jump _

end Tree

theorem Layout.legible_of_holds {e : Setting} (he : e.grammar = .builtin) {lines : List String}
    {f : Forest} (hf : (buildTree e lines).Spans f) {ids : List NodeId} (hids : ids ⊆ f.ids)
    (hholds : List.Forall₂ (buildTree e lines).Holds ids
      (Statement.readAll e.grammar e.version lines)) :
    Legible (buildTree e lines) ids := by
  have hrs := readAll_regular e.grammar e.version lines
  refine ⟨fun id hid => ?_, fun id hid => ?_,
    fun id hid => startsSubroutine_iff (v := e.version) (fun c hc => ?_) hid,
    fun id hid hends => ?_⟩
  · obtain ⟨r, -, hr⟩ := Tree.exists_holds hholds hid
    exact hr.origin
  · obtain ⟨r, hmem, hr⟩ := Tree.exists_holds hholds hid
    rw [hr.statement]
    exact hrs r hmem
  · obtain ⟨r, hmem, hr⟩ := Tree.exists_holds hholds hc
    simp only [Statement.readAll, List.mem_map, Prod.exists] at hmem
    obtain ⟨line, number, -, rfl⟩ := hmem
    exact ⟨number, line, he ▸ hr.statement⟩
  · have hprepared := nest_prepared e lines
    have hform : ((buildTree e lines).node id).statement.commented = false ∧
        ((buildTree e lines).node id).statement.form = FormId.endsub := by
          simpa [Node.is] using hends
    have hlive := (hprepared id).isLive_of_form (.inr (by rw [hform.2]; rfl)) hform.1
    rw [(hprepared id).regular.live] at hlive
    refine Tree.nest_depth_eq_zero_iff hrs (fun a => (hprepared a).regular) hf (hids hid) fun hc =>
      ?_
    have hclose : ((buildTree e lines).node id).part = .close := hc
    rw [hclose] at hlive
    cases hlive

/-- The indentation of every line of a script that compiles is its depth in the tree: the number of
blocks that contain it, one more below a `skip if`, and one more inside of a subroutine. All levels
are closed at the end. -/
theorem indentation_is_nesting (v : Version) (arguments : List String)
    (objects : Option ObjectLibrary) (lines : List String) (o : Output)
    (hcompile : compile ⟨.builtin, v, arguments, objects⟩ lines = .ok o)
    (hok : o.isSuccessful = true) (width : Nat) :
    let t := buildTree ⟨.builtin, v, arguments, objects⟩ lines
    let ids := t.preorder.filter fun id => (t.node id).origin == .source
    let ss := (Statement.readAll .builtin v lines).map (·.statement)
    ids.map (fun id => (t.node id).statement) = ss ∧
    (Layout.format .builtin v width lines).length = ids.length ∧
    (∀ before id after, ids = before ++ id :: after →
      (Layout.format .builtin v width lines)[before.length]? = some (Layout.indent
        (width * ((t.blocksAround id).length + (if t.isSkipped id then 1 else 0) +
          if t.InSubroutine ids before id then 1 else 0))
        (if (t.node id).statement.form = FormId.nop then none
          else some (t.node id).statement.display))) ∧
    ((ss.map (Layout.ofStatement (Layout.calledBy ss))).foldl Layout.printLine (.start width,
      #[])).1.depth = 0 := by
  intro t ids ss
  obtain ⟨_, s, q, _, -, hfinished, -⟩ :=
    finished_of_compile (e := ⟨.builtin, v, arguments, objects⟩) builtin_lawful hcompile hok
  obtain ⟨f, hf, hexpanding⟩ := hfinished.expanding
  have hrs := readAll_regular .builtin v lines
  have hregular : ∀ id, (t.node id).Regular := fun id => (nest_prepared _ lines id).regular
  -- The grammar derives the lines, so the tree is well built.
  have hderives :=
    (hexpanding.sound_iff_derives hf).mp (hfinished.examined.block.sound fun hc => absurd rfl hc)
  have hblock : Block t.part false false .script f := block_of_derives hrs hf hderives
  obtain ⟨f', hf', -, hholds⟩ := nest_spans hrs
  obtain rfl := hf'.unique hf
  have hwritten : f'.written t.part = ids := Tree.nest_written_eq hf hholds
  replace hholds : List.Forall₂ t.Holds ids (Statement.readAll .builtin v lines) :=
    hwritten ▸ hholds
  have hindents : t.Indents [] ids [] := by
    have hroot := nest_part_root (Statement.readAll .builtin v lines)
    have hcount : t.countBlocks [Tree.root] = 0 := by
      rw [Tree.countBlocks_cons hregular]
      exact congrArg (fun p : Part => 0 + if p.opensBlock then 1 else 0) hroot
    rw [← hwritten]
    exact hblock.indents hregular hf.row (fun hc => by cases hroot.symm.trans hc) hcount (by simp)
  have hlegible : Layout.Legible t ids :=
    Layout.legible_of_holds rfl hf (hwritten ▸ List.filter_subset_self _) hholds
  have hstatements : ids.map (fun id => (t.node id).statement) = ss :=
    Tree.map_statement_of_holds hholds
  have hprinted : ss.map (Layout.ofStatement (Layout.calledBy ss)) =
      ids.map (Layout.ofNode t ids) := by
    rw [← hstatements, List.map_map]
    rfl
  have hreached := (Layout.Reached.start t ids width).run hlegible (fun _ h => h) hindents
  have hformat : Layout.format .builtin v width lines =
      Layout.print width (ids.map (Layout.ofNode t ids)) :=
    congrArg (Layout.print width) hprinted
  refine ⟨hstatements, ?_, fun before id after hsplit => ?_, ?_⟩
  · rw [hformat]
    exact hreached.size
  · rw [hformat, Layout.print_getElem? hlegible hindents hsplit]
    rfl
  · rw [hprinted]
    exact congrArg List.length hreached.levels

/-- A script with a loop, a `skip if` and a subroutine is indented by the depths of its lines. -/
theorem callingScript_indented :
    ∃ o, compile ⟨.builtin, .albionPrelude, ["$limit", "i", "$$limit"],
      none⟩ callingScript = .ok o ∧
      o.isSuccessful = true ∧
      ∃ t ids, t = buildTree ⟨.builtin, .albionPrelude, ["$limit", "i", "$$limit"],
        none⟩ callingScript ∧
        ids = (t.preorder.filter fun id => (t.node id).origin == .source) ∧ ids.length = 11 ∧
        ∀ before id after, ids = before ++ id :: after →
          (Layout.format .builtin .albionPrelude 4 callingScript)[before.length]? =
            some (Layout.indent
            (4 * ((t.blocksAround id).length + (if t.isSkipped id then 1 else 0) +
              if t.InSubroutine ids before id then 1 else 0))
            (if (t.node id).statement.form = FormId.nop then none
              else some (t.node id).statement.display)) := by
  obtain ⟨o, hcompile, hok, -⟩ := callingScript_compiles
  obtain ⟨hstatements, -, hlines, -⟩ :=
    indentation_is_nesting .albionPrelude ["$limit", "i", "$$limit"] none callingScript o
      hcompile hok 4
  refine ⟨o, hcompile, hok, _, _, rfl, rfl, ?_, hlines⟩
  simpa [Statement.readAll, callingScript] using congrArg List.length hstatements

end GameScript
