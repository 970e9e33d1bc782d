import GameScript.Proofs.Blocks.Spine

/-!
# Nesting, read on shapes

`Tracks` says that a tree under construction has the shape of a draft. Every line keeps it
(`Tracks.add`), whatever the line is, so that each script is nested into a tree that spans some tidy
forest with the lines of the script in their order (`nest_spans`).

The lines of a derivable script are nested into a well-built row (`nest_block`): the proof follows
the derivation, one open block at a time.
-/

namespace GameScript

/-! ## Parts of new nodes -/

structure Statement.Regular (s : Statement) : Prop where
  standard : s.isStandard = s.part.isLive
  commented : s.commented = true → s.part = .idle

theorem Part.role_eq_close {p : Part} : p.role = .close ↔ p = .close := by
  cases p <;> simp [role]

theorem Statement.role_part (s : Statement) : s.part.role = s.role := by
  by_cases hs : s.form.isShorthand = true <;> cases h : s.role <;> simp [part, h, hs, Part.role]

theorem Statement.part_ne_header (s : Statement) : s.part ≠ .header := by
  by_cases hs : s.form.isShorthand = true <;> cases h : s.role <;> simp [part, h, hs]

theorem Statement.part_ne_jump (s : Statement) : s.part ≠ .jump := by
  by_cases hs : s.form.isShorthand = true <;> cases h : s.role <;> simp [part, h, hs]

theorem Node.Regular.congr {n m : Node} (h : n.Regular) (hstatement : m.statement = n.statement)
    (horigin : m.origin = n.origin) : m.Regular := by
  have hpart : m.part = n.part := by simp only [Node.part, hstatement, horigin]
  refine ⟨?_, ?_, ?_, ?_⟩
  · rw [hpart, ← h.role, Node.role, Node.role, hstatement, horigin]
  · rw [hpart, ← h.live, Node.isLive, Node.isLive, hstatement]
  · rw [hpart, hstatement]
    exact h.commented
  · rw [hpart, horigin]
    exact h.expanded

theorem Statement.Regular.node {s : Statement} (h : s.Regular) {n : Node} (hn : n.statement = s)
    (horigin : n.origin = .source) : n.Regular := by
  have hpart : n.part = s.part := by rw [Node.part, horigin, hn]
  refine ⟨?_, ?_, ?_, ?_⟩
  · rw [hpart, Statement.role_part, Node.role, horigin, hn]
    rfl
  · rw [hpart, Node.isLive, hn, h.standard]
    cases hc : s.commented with
    | false => simp
    | true => simp [h.commented hc, Part.isLive]
  · rw [hpart, hn]
    exact h.commented
  · rw [horigin]
    intro hc
    cases hc

theorem regular_hiddenJump {n : Node} {line : Nat} (hn : n.statement = .hiddenJump line)
    (horigin : n.origin = .hiddenJump) : n.Regular := by
  have hpart : n.part = .jump := by rw [Node.part, horigin]
  refine ⟨?_, ?_, ?_, ?_⟩
  · rw [hpart, Node.role, horigin, hn]
    rfl
  · rw [hpart, Node.isLive, hn]
    rfl
  · rw [hn]
    intro hc
    cases hc
  · rw [horigin]
    intro hc
    cases hc

theorem regular_default : (default : Node).Regular :=
  Statement.Regular.node ⟨rfl, fun h => by cases h⟩ rfl rfl

namespace Tree.Keeps

variable {t u : Tree}

theorem part_eq (h : t.Keeps u) {id : NodeId} (hid : id < t.size) : u.part id = t.part id := by
  simp only [part, Node.part, h.statement id hid, h.origin id hid]

theorem regular (h : t.Keeps u) {id : NodeId} (hid : id < t.size) (hr : (t.node id).Regular) :
    (u.node id).Regular := hr.congr (h.statement id hid) (h.origin id hid)

end Tree.Keeps

def Reading.node (r : Reading) : Node :=
  { statement := r.statement, origin := .source, diagnostic := r.diagnostic }


/-! ## Shapes of trees under construction -/

theorem Tidy.append {part : NodeId → Part} {f g : Forest} (hf : Tidy part f) (hg : Tidy part g) :
    Tidy part (f ++ g) := by
  induction f with
  | nil => exact hg
  | node id below after _ ih => exact ⟨hf.1, hf.2.1, hf.2.2.1, ih hf.2.2.2⟩

/-- A tidy tree stays tidy when a node is attached to a block, or one that is no hidden jump to a
`skip if`. -/
theorem Tidy.attach {part : NodeId → Part} {f : Forest} {parent id : NodeId} (h : Tidy part f)
    (hid : part id ≠ .header)
    (hparent : parent = Tree.root ∨ (part parent).opensBlock = true ∨
      (part parent = .skip ∧ part id ≠ .jump)) : Tidy part (f.attach parent id) := by
  by_cases hroot : parent = Tree.root
  · rw [Forest.attach, if_pos hroot]
    exact h.append ⟨hid, .inl rfl, trivial, trivial⟩
  · replace hparent := hparent.resolve_left hroot
    induction f with
    | nil => rw [Forest.attach_nil hroot]; trivial
    | node j below after ihb iha =>
      obtain ⟨hj, hbody, hb, ha⟩ := h
      by_cases heq : j = parent
      · subst heq
        rw [Forest.attach_node_self hroot]
        refine ⟨hj, ?_, hb.append ⟨hid, .inl rfl, trivial, trivial⟩, ha⟩
        rcases hparent with hopens | ⟨hskip, hjump⟩
        · exact .inr (.inl hopens)
        · refine .inr (.inr ⟨hskip, ?_⟩)
          intro k hk
          rw [Forest.roots_append, List.mem_append] at hk
          rcases hk with hk | hk
          · rcases hbody with hnil | hopens | ⟨_, hjumps⟩
            · simp [hnil] at hk
            · simp [hskip, Part.opensBlock] at hopens
            · exact hjumps k hk
          · rw [List.mem_singleton.mp hk]
            exact hjump
      · rw [Forest.attach_node_of_ne hroot id heq]
        refine ⟨hj, ?_, ihb hb, iha ha⟩
        rcases hbody with hnil | hopens | ⟨hskip, hjumps⟩
        · exact .inl (by rw [hnil, Forest.attach_nil hroot])
        · exact .inr (.inl hopens)
        · exact .inr (.inr ⟨hskip, by rwa [Forest.roots_attach hroot]⟩)

/-- The tree has the shape of a spine, apart from spare nodes, and is tidy. -/
structure Spine.Shapes (part : NodeId → Part) (t : Tree) (spare : List NodeId) (z : Spine) :
    Prop where
  loose : t.Loose (z.forest .nil) spare
  tidy : Tidy part (z.forest .nil)

def Spine.Accepts (part : NodeId → Part) (z : Spine) (id : NodeId) : Prop :=
  z.top = Tree.root ∨ (part z.top).opensBlock = true ∨ (part z.top = .skip ∧ part id ≠ .jump)

namespace Spine.Shapes

variable {part : NodeId → Part} {t : Tree} {z : Spine} {spare : List NodeId} {id : NodeId}

theorem nodup (h : z.Shapes part t spare) : (Tree.root :: z.ids).Nodup := by
  have hnodup := h.loose.nodup
  rw [ids_forest, Forest.ids_nil, List.append_nil] at hnodup
  exact hnodup.sublist ((List.sublist_append_left _ _).cons_cons _)

theorem create (h : z.Shapes part t spare) {n : Node} (hn : n.children = #[]) :
    z.Shapes part (t.create n).1 (t.size :: spare) := ⟨h.loose.create hn, h.tidy⟩

/-- A spare node goes into the innermost block. -/
theorem append (h : z.Shapes part t (id :: spare)) (hid : part id ≠ .header)
    (haccepts : z.Accepts part id) :
    (z.push (.leaf id)).Shapes part (t.append z.top id) spare := by
  have htop : z.top ∈ Tree.root :: (z.forest .nil).ids := by
    rw [ids_forest, Forest.ids_nil, List.append_nil]
    exact z.top_mem
  have hforest : (z.push (.leaf id)).forest .nil = (z.forest .nil).attach z.top id := by
    rw [attach_top h.nodup, forest_push, Forest.append_nil]
  exact ⟨hforest ▸ h.loose.append htop, hforest ▸ h.tidy.attach hid haccepts⟩

/-- A block that gets no more nodes is part of the block around it. -/
theorem leave {outer : Spine} {skips : List (NodeId × Forest)} {b : NodeId} {done : Forest}
    (h : (block outer skips b done).Shapes part t spare) :
    (outer.push (wrap skips (.node b done .nil))).Shapes part t spare := by
  have hforest : (outer.push (wrap skips (.node b done .nil))).forest .nil =
      (block outer skips b done).forest .nil := by
    simp [forest]
  exact ⟨hforest ▸ h.loose, hforest ▸ h.tidy⟩

/-- The node that was read last opens a block. -/
theorem enter {outer : Spine} (h : (outer.push (.leaf id)).Shapes part t spare) :
    (block outer [] id .nil).Shapes part t spare := by
  have hforest : (block outer [] id .nil).forest .nil = (outer.push (.leaf id)).forest .nil := by
    simp [forest, wrap]
    rfl
  exact ⟨hforest ▸ h.loose, hforest ▸ h.tidy⟩

end Spine.Shapes

structure Draft.Describes (part : NodeId → Part) (n : Nesting) (d : Draft) : Prop where
  shapes : d.inner.Shapes part n.tree []
  pending : n.pending = d.inner.pending
  opens : ∀ id ∈ d.spine.pending, (part id).opensBlock = true
  skips : ∀ frame ∈ d.waiting, part frame.1 = .skip

/-- A tree under construction has the shape of a draft, and `part` is what its nodes are in the
finished tree. -/
structure Tracks (part : NodeId → Part) (n : Nesting) (d : Draft) :
    Prop extends d.Describes part n where
  agrees : ∀ id < n.tree.size, n.tree.part id = part id
  regular : ∀ id, (n.tree.node id).Regular
  root : part Tree.root = .idle

namespace Tracks

variable {part : NodeId → Part} {n : Nesting} {d : Draft}

theorem spans (h : Tracks part n d) : n.tree.Spans d.forest := h.shapes.loose.spans

variable {id : NodeId} {u : Tree}

theorem lt_size (h : Tracks part n d) (hid : id ∈ Tree.root :: d.inner.ids) : id < n.tree.size := by
  rw [h.spans.covers, Draft.forest, Spine.ids_forest, Forest.ids_nil, List.append_nil]
  exact hid

/-- The role of an old node in any tree built on this one. -/
theorem role_eq (h : Tracks part n d) (hu : n.tree.Keeps u)
    (hid : id ∈ Tree.root :: d.inner.ids) : u.role id = (part id).role := by
  have hlt := h.lt_size hid
  rw [Tree.role_eq_role (hu.regular hlt (h.regular id)), hu.part_eq hlt, h.agrees id hlt]

theorem pending_subset (h : Tracks part n d) (hid : id ∈ d.spine.pending) :
    id ∈ Tree.root :: d.inner.ids := by
  have hspine := d.spine.pending_subset hid
  rcases d with ⟨spine, _ | ⟨⟨skip, done⟩, skips⟩⟩
  · exact List.mem_cons_of_mem _ hspine
  · simp only [Draft.inner, Spine.ids, List.mem_cons, List.mem_append]
    exact .inr (.inl (.inl hspine))

theorem role_pending (h : Tracks part n d) (hu : n.tree.Keeps u)
    (hid : id ∈ d.spine.pending) : (u.role id == .skip) = false := by
  rw [h.role_eq hu (h.pending_subset hid)]
  have hopens := h.opens id hid
  cases hp : part id <;> simp_all [Part.role, Part.opensBlock]

/-- The keywords that close blocks pass the waiting `skip if`s. -/
theorem closeSkips_eq (h : Tracks part n d) (hu : n.tree.Keeps u) :
    Nesting.closeSkips u n.pending = d.spine.pending := by
  have hblocks : d.spine.pending.dropWhile (fun id => u.role id == .skip) = d.spine.pending := by
    cases hp : d.spine.pending with
    | nil => rfl
    | cons id rest =>
      rw [List.dropWhile_cons_of_neg]
      rw [h.role_pending hu (by simp [hp])]
      simp
  rw [Nesting.closeSkips, h.pending]
  rcases d with ⟨spine, _ | ⟨⟨skip, done⟩, skips⟩⟩
  · exact hblocks
  · have hskip : (u.role skip == .skip) = true := by
      rw [h.role_eq hu (by simp [Draft.inner, Spine.ids]), h.skips (skip, done) (by simp)]
      rfl
    rw [Draft.inner, Spine.pending, List.dropWhile_cons]
    simp only [hskip, if_true]
    exact hblocks

/-- The innermost block is a `skip if` exactly when one waits. -/
theorem role_top (h : Tracks part n d) (hu : n.tree.Keeps u) :
    (u.role d.inner.top == .skip) = !d.waiting.isEmpty := by
  rw [h.role_eq hu d.inner.top_mem]
  rcases d with ⟨spine, _ | ⟨⟨skip, done⟩, skips⟩⟩
  · cases spine with
    | script done =>
      change ((part Tree.root).role == _) = _
      rw [h.root]
      rfl
    | block outer skips b done =>
      have hopens := h.opens b (by simp [Spine.pending])
      change ((part b).role == _) = _
      cases hp : part b <;> simp_all [Part.role, Part.opensBlock]
  · have hskip := h.skips (skip, done) (by simp)
    change ((part skip).role == _) = _
    rw [hskip]
    rfl

/-- Anything but a hidden jump can go into the innermost block. -/
theorem accepts (h : Tracks part n d) (hid : part id ≠ .jump) : d.inner.Accepts part id := by
  rcases d with ⟨spine, _ | ⟨⟨skip, done⟩, skips⟩⟩
  · cases spine with
    | script done => exact .inl rfl
    | block outer skips b done => exact .inr (.inl (h.opens b (by simp [Spine.pending])))
  · exact .inr (.inr ⟨h.skips (skip, done) (by simp), hid⟩)

theorem accepts_of_pending (h : Tracks part n d) {z : Spine} (hz : z.pending ⊆ d.spine.pending)
    (id : NodeId) : z.Accepts part id := by
  cases z with
  | script done => exact .inl rfl
  | block outer skips b done => exact .inr (.inl (h.opens b (hz (by simp [Spine.pending]))))

/-! ## One more line -/

section Step

variable {id : NodeId} {t : Tree}

/-- A line that closes nothing goes into the innermost block. -/
theorem forest_add_inner (d : Draft) (hchain : (part id).continuesChain = false)
    (hclose : part id ≠ .close) :
    (d.add part id).inner.forest .nil = (d.inner.push (.leaf id)).forest .nil := by
  have hleaf : ∀ waiting, (Draft.mk d.spine ((id, .nil) :: waiting)).inner.forest .nil =
      d.spine.forest (wrap waiting (.leaf id)) := fun waiting => by
        simp [Draft.inner, Spine.forest]; rfl
  rw [Spine.forest_push, Forest.append_nil, Draft.forest_inner d]
  cases hp : part id <;> simp only [hp, Part.continuesChain, Bool.true_eq_false] at hchain <;>
    simp only [Draft.add, hp]
  case close => exact absurd hp hclose
  case idle | header => exact (d.forest_hold id).trans (d.forest_inner _)
  case skip => exact hleaf d.waiting
  case branch | loop => exact hleaf d.waiting
  all_goals simp [Draft.inner]

theorem pending_add_inner (d : Draft) (hchain : (part id).continuesChain = false)
    (hclose : part id ≠ .close) :
    (d.add part id).inner.pending =
      if (part id).role.opensBlock || (part id).role == .skip then
        id :: if (part id).isLive then d.spine.pending else d.inner.pending
      else if (part id).isLive then d.spine.pending else d.inner.pending := by
  cases hp : part id <;> simp only [hp, Part.continuesChain, Bool.true_eq_false] at hchain <;>
    simp only [Draft.add, hp]
  case close => exact absurd hp hclose
  case idle | header => exact d.pending_hold id
  all_goals simp [Draft.inner, Part.role, Part.isLive, Role.opensBlock, Spine.pending]

theorem opens_add (d : Draft) (id : NodeId)
    (hopens : ∀ j ∈ d.spine.pending, (part j).opensBlock = true) :
    ∀ j ∈ (d.add part id).spine.pending, (part j).opensBlock = true := by
  have hcons : ∀ pending ⊆ d.spine.pending, (part id).opensBlock = true →
      ∀ j ∈ id :: pending, (part j).opensBlock = true := by
    intro pending hsub hid j hj
    rcases List.mem_cons.mp hj with rfl | hj
    · exact hid
    · exact hopens j (hsub hj)
  cases hp : part id <;> simp only [Draft.add, hp]
  case branch | loop => exact hcons _ (fun _ hj => hj) (by rw [hp]; rfl)
  case idle | header =>
    rcases d with ⟨spine, _ | ⟨⟨skip, done⟩, skips⟩⟩
    · simpa [Draft.hold] using hopens
    · simpa [Draft.hold] using hopens
  case elseBranch | otherwise =>
    rcases d with ⟨done | ⟨outer, skips, b, done⟩, waiting⟩
    · simp [Draft.settle, Spine.alternative, Spine.pending]
    · simp only [Draft.settle, Spine.push_block, Spine.alternative]
      split
      · simp only [Spine.pending, Spine.pending_push]
        exact hcons _ (List.subset_cons_self b outer.pending) (by rw [hp]; rfl)
      · exact hopens
  case close =>
    rcases d with ⟨done | ⟨outer, skips, b, done⟩, waiting⟩
    · simp [Draft.settle, Spine.finish, Spine.pending]
    · simp only [Draft.settle, Spine.push_block, Spine.finish]
      have houter : ∀ j ∈ outer.pending, (part j).opensBlock = true :=
        fun j hj => hopens j (List.mem_cons_of_mem b hj)
      split <;> simpa using houter
  all_goals simpa using hopens

theorem skips_add (d : Draft) (id : NodeId) (hskips : ∀ frame ∈ d.waiting, part frame.1 = .skip) :
    ∀ frame ∈ (d.add part id).waiting, part frame.1 = .skip := by
  cases hp : part id <;> simp only [Draft.add, hp, List.not_mem_nil, false_imp_iff, implies_true]
  case skip =>
    intro frame hframe
    rcases List.mem_cons.mp hframe with rfl | hframe
    · exact hp
    · exact hskips frame hframe
  case idle | header =>
    rcases d with ⟨spine, _ | ⟨⟨skip, done⟩, skips⟩⟩
    · simp [Draft.hold]
    · simpa [Draft.hold] using hskips

/-- Any line but `else`, `else if` and `end`. The tree `t` holds the new node as a spare one. -/
theorem addInner (h : Tracks part n d) (hkeeps : n.tree.Keeps t)
    (hshapes : d.inner.Shapes part t [id]) {s : Statement} (hs : s.Regular)
    (hpart : part id = s.part) (hchain : (part id).continuesChain = false)
    (hclose : part id ≠ .close) :
    (d.add part id).Describes part (Nesting.addInner t n.pending id s) := by
  have hshape := hshapes.append (by rw [hpart]; exact s.part_ne_header)
    (h.accepts (by rw [hpart]; exact s.part_ne_jump))
  have hforest := forest_add_inner d hchain hclose
  have htop : Nesting.top n.pending = d.inner.top := by rw [h.pending, Spine.top_pending]
  have hrole : ((t.append d.inner.top id).role d.inner.top == .skip) = !d.waiting.isEmpty :=
    h.role_top (hkeeps.trans (.append t _ _))
  have hpending : (if (s.part.isLive && !d.waiting.isEmpty) = true then d.inner.pending.drop 1
      else d.inner.pending) = if s.part.isLive then d.spine.pending else d.inner.pending := by
    rcases d with ⟨spine, _ | ⟨⟨skip, done⟩, skips⟩⟩ <;> cases s.part.isLive <;> rfl
  refine ⟨?_, ?_, ?_, ?_⟩
  · simp only [Nesting.addInner, htop]
    exact ⟨hforest ▸ hshape.loose, hforest ▸ hshape.tidy⟩
  · simp only [Nesting.addInner, h.pending, Spine.top_pending, hrole, hs.standard, hpending]
    rw [pending_add_inner d hchain hclose, hpart, s.role_part]
  · exact opens_add d id h.opens
  · exact skips_add d id h.skips

/-- The spine after the waiting `skip if`s were ended has the shape of the same tree. -/
theorem shapes_settle {spare : List NodeId} (hshapes : d.inner.Shapes part t spare) :
    d.settle.Shapes part t spare := by
  have hforest : d.settle.forest .nil = d.inner.forest .nil := by
    rw [Draft.forest_inner, Draft.settle, Spine.forest_push, Forest.append_nil]
  exact ⟨hforest ▸ hshapes.loose, hforest ▸ hshapes.tidy⟩

/-- A hidden jump goes into the innermost block, ahead of the spare node `id`. -/
theorem addJump (h : Tracks part n d) {z : Spine} (hz : z.pending ⊆ d.spine.pending)
    (hshapes : z.Shapes part t [id]) (hsize : t.size = id + 1) (hjump : part (id + 1) = .jump)
    (line : Nat) :
    (z.push (.leaf (id + 1))).Shapes part (Nesting.addJump t z.top line) [id] := by
  have hchildren : ({ statement := .hiddenJump line, origin := .hiddenJump } : Node).children =
      #[] := rfl
  have hcreate := hshapes.create hchildren
  have happend := hcreate.append (by rw [hsize, hjump]; simp) (h.accepts_of_pending hz _)
  simpa only [Nesting.addJump, Tree.addChild, Tree.create_snd, hsize] using happend

theorem addAlternative (h : Tracks part n d) (hkeeps : n.tree.Keeps t)
    (hshapes : d.inner.Shapes part t [id]) (hsize : t.size = id + 1)
    (hid : (part id).continuesChain = true) (line : Nat)
    (hjump : id + 1 < (Nesting.addAlternative t n.pending id line).tree.size →
      part (id + 1) = .jump) :
    (d.add part id).Describes part (Nesting.addAlternative t n.pending id line) := by
  have hheader : part id ≠ .header := by
    intro hc
    simp [hc, Part.continuesChain] at hid
  have hadd : d.add part id = ⟨d.settle.alternative part id, []⟩ := by
    cases hp : part id <;> simp only [hp, Part.continuesChain, Bool.false_eq_true] at hid <;>
      simp only [Draft.add, hp]
  have hsettle := shapes_settle hshapes
  have hopens := opens_add d id h.opens
  have hskips := skips_add d id h.skips
  have hspine : d.spine.pending = d.settle.pending := by simp [Draft.settle]
  have hrole : ∀ b ∈ d.settle.pending, t.role b = (part b).role :=
    fun b hb => h.role_eq hkeeps (h.pending_subset (hspine ▸ hb))
  have hsub : d.settle.pending ⊆ d.spine.pending := hspine ▸ List.Subset.refl _
  rw [hadd] at hopens hskips ⊢
  simp only [Nesting.addAlternative, (h.closeSkips_eq hkeeps).trans hspine] at hjump ⊢
  generalize d.settle = z at *
  cases z with
  | script done => exact ⟨hsettle.append hheader (.inl rfl), rfl, hopens, hskips⟩
  | block outer skips b done =>
    have htest : (t.role b).isTest = (part b).isTest := by
      rw [hrole b (by simp [Spine.pending]), Part.isTest_role]
    simp only [Spine.pending, htest, Spine.alternative, Spine.top_pending] at hjump hopens ⊢
    by_cases hb : (part b).isTest = true
    · -- The jump past the chain ends the body of the test, then the alternative follows the test.
      simp only [hb, if_true, Tree.size_append] at hjump hopens ⊢
      have hlt : id + 1 < (Nesting.addJump t b line).size := by
        simp [Nesting.addJump, Tree.addChild, hsize]
      have htree := (h.addJump hsub hsettle hsize (hjump hlt) line).leave
      have houter : (outer.push (wrap skips (.node b (done ++ .leaf (id + 1)) .nil))).pending ⊆
          d.spine.pending := by
        rw [Spine.pending_push]
        exact fun j hj => hsub (List.mem_cons_of_mem b hj)
      have hdone := (htree.append hheader (h.accepts_of_pending houter id)).enter
      have htop : (outer.push (wrap skips (.node b (done ++ .leaf (id + 1)) .nil))).top =
          outer.top := by
        cases outer <;> rfl
      rw [htop] at hdone
      exact ⟨hdone, by simp [Draft.inner, Spine.pending], hopens, hskips⟩
    · simp only [hb, Bool.false_eq_true, if_false] at hopens ⊢
      exact ⟨hsettle.append hheader (h.accepts_of_pending hsub id), rfl, hopens, by simp⟩

theorem addEnd (h : Tracks part n d) (hkeeps : n.tree.Keeps t)
    (hshapes : d.inner.Shapes part t [id]) (hsize : t.size = id + 1) (hid : part id = .close)
    (line : Nat) (hjump : id + 1 < (Nesting.addEnd t n.pending id line).tree.size →
      part (id + 1) = .jump) :
    (d.add part id).Describes part (Nesting.addEnd t n.pending id line) := by
  have hheader : part id ≠ .header := by simp [hid]
  have hadd : d.add part id = ⟨d.settle.finish part id, []⟩ := by simp only [Draft.add, hid]
  have hsettle := shapes_settle hshapes
  have hopens := opens_add d id h.opens
  have hskips := skips_add d id h.skips
  have hspine : d.spine.pending = d.settle.pending := by simp [Draft.settle]
  have hrole : ∀ b ∈ d.settle.pending, t.role b = (part b).role :=
    fun b hb => h.role_eq hkeeps (h.pending_subset (hspine ▸ hb))
  have hsub : d.settle.pending ⊆ d.spine.pending := hspine ▸ List.Subset.refl _
  rw [hadd] at hopens hskips ⊢
  simp only [Nesting.addEnd, (h.closeSkips_eq hkeeps).trans hspine] at hjump ⊢
  generalize d.settle = z at *
  cases z with
  | script done => exact ⟨hsettle.append hheader (.inl rfl), rfl, hopens, hskips⟩
  | block outer skips b done =>
    have hloop : (t.role b == .loop) = decide (part b = .loop) := by
      rw [hrole b (by simp [Spine.pending])]
      cases part b <;> rfl
    simp only [Spine.pending, hloop, Spine.finish] at hjump hopens ⊢
    by_cases hb : part b = .loop
    · simp only [hb, decide_true, if_true, Tree.size_append] at hjump hopens ⊢
      have hlt : id + 1 < (Nesting.addJump t b line).size := by
        simp [Nesting.addJump, Tree.addChild, hsize]
      have htree := h.addJump hsub hsettle hsize (hjump hlt) line
      have hdone := (htree.append hheader (h.accepts_of_pending hsub id)).leave
      rw [Forest.append_assoc] at hdone
      exact ⟨hdone, by simp [Draft.inner], hopens, hskips⟩
    · simp only [hb, decide_false, Bool.false_eq_true, if_false] at hopens ⊢
      have hdone := (hsettle.append hheader (h.accepts_of_pending hsub id)).leave
      exact ⟨hdone, by simp [Draft.inner], hopens, hskips⟩

end Step

end Tracks

namespace Nesting

/-- What the nesting of a line does to a tree that holds it as a spare node. -/
theorem add_eq (n : Nesting) (r : Reading) : n.add r =
      if r.statement.role.continuesChain then
        addAlternative (n.tree.create r.node).1 n.pending n.tree.size r.statement.line
      else if r.statement.role = .close then
        addEnd (n.tree.create r.node).1 n.pending n.tree.size r.statement.line
      else addInner (n.tree.create r.node).1 n.pending n.tree.size r.statement := by
  simp only [add, Tree.create_snd]
  cases r.statement.role <;> rfl

/-- A property of trees that holds after creating and appending nodes holds after a line was
nested. -/
theorem add_induction {motive : Tree → Prop} (n : Nesting) (r : Reading)
    (start : motive (n.tree.create r.node).1) (jump : ∀ t, motive t →
      motive (t.create { statement := .hiddenJump r.statement.line, origin := .hiddenJump }).1)
    (append : ∀ t parent child, motive t → motive (t.append parent child)) :
    motive (n.add r).tree := by
  have hjump : ∀ t block, motive t → motive (addJump t block r.statement.line) :=
    fun t block h => append _ _ _ (jump t h)
  rw [add_eq]
  split
  · unfold addAlternative
    split
    · exact append _ _ _ start
    · split
      · exact append _ _ _ (hjump _ _ start)
      · exact append _ _ _ start
  · split
    · unfold addEnd
      split
      · exact append _ _ _ start
      · dsimp only
        split
        · exact append _ _ _ (hjump _ _ start)
        · exact append _ _ _ start
    · exact append _ _ _ start

theorem keeps_add (n : Nesting) (r : Reading) : (n.tree.create r.node).1.Keeps (n.add r).tree :=
  add_induction n r (.refl _) (fun _ h => h.trans (.create _ _)) (fun _ _ _ h =>
    h.trans (.append _ _ _))

/-- What holds for the nodes of a tree, for the node of a line and for hidden jumps holds for all
nodes of the tree with that line. -/
theorem forall_add {P : Node → Prop} (hlinks : ∀ n : Node, P n.unlinked ↔ P n) {n : Nesting}
    {r : Reading} (hjump : P { statement := .hiddenJump r.statement.line, origin := .hiddenJump })
    (hr : P r.node) (h : ∀ id, P (n.tree.node id)) (id : NodeId) : P ((n.add r).tree.node id) := by
  have hcreate : ∀ (t : Tree) (m : Node), P m → (∀ id, P (t.node id)) →
      ∀ id, P ((t.create m).1.node id) := by
    intro t m hm ht id
    rw [Tree.node_create]
    split
    · exact hm
    · exact ht id
  refine add_induction (motive := fun t => ∀ id, P (t.node id)) n r (hcreate _ _ hr h)
    (fun t ht => hcreate _ _ hjump ht) ?_ id
  intro t parent child ht id
  rw [← hlinks, Tree.unlinked_append, hlinks]
  exact ht id

theorem part_add (n : Nesting) (r : Reading) :
    (n.add r).tree.part n.tree.size = r.statement.part := by
  rw [(keeps_add n r).part_eq (by simp), Tree.part, Tree.node_create, if_pos rfl]
  rfl

/-- A node that comes with a line is a hidden jump. -/
theorem part_add_of_lt (n : Nesting) (r : Reading) {id : NodeId} (hid : n.tree.size < id)
    (hsize : id < (n.add r).tree.size) : (n.add r).tree.part id = .jump := by
  refine add_induction (motive := fun t => id < t.size → t.part id = .jump) n r ?_ ?_ ?_ hsize
  · intro hlt
    rw [Tree.size_create] at hlt
    exact absurd hlt (Nat.not_lt.mpr hid)
  · intro t ht hlt
    rw [Tree.size_create, Nat.lt_succ_iff_lt_or_eq] at hlt
    rcases hlt with hlt | rfl
    · rw [(Tree.Keeps.create t _).part_eq hlt, ht hlt]
    · rw [Tree.part, Tree.node_create, if_pos rfl]
      rfl
  · intro t parent child ht hlt
    rw [Tree.size_append] at hlt
    rw [(Tree.Keeps.append t _ _).part_eq hlt, ht hlt]

end Nesting

variable {part : NodeId → Part} {n : Nesting} {d : Draft} {r : Reading} {id : NodeId}
  {rs : List Reading} {f : Forest}

/-- Every line keeps the shape of the tree in step with the draft. -/
theorem Tracks.add (h : Tracks part n d) (hr : r.statement.Regular)
    (hagrees : ∀ id < (n.add r).tree.size, (n.add r).tree.part id = part id) :
    Tracks part (n.add r) (d.add part n.tree.size) := by
  have hkeeps := Tree.Keeps.create n.tree r.node
  have hshapes := h.shapes.create (rfl : r.node.children = #[])
  have hid : part n.tree.size = r.statement.part := by
    rw [← hagrees, Nesting.part_add]
    exact Nat.lt_of_lt_of_le (by simp) (Nesting.keeps_add n r).size
  have hjump : n.tree.size + 1 < (n.add r).tree.size → part (n.tree.size + 1) = .jump := by
    intro hlt
    rw [← hagrees _ hlt, Nesting.part_add_of_lt n r (Nat.lt_succ_self _) hlt]
  have hrole : (part n.tree.size).role = r.statement.role := by rw [hid, Statement.role_part]
  have hdescribes : (d.add part n.tree.size).Describes part (n.add r) := by
    rw [Nesting.add_eq] at hjump ⊢
    by_cases hchain : r.statement.role.continuesChain = true
    · rw [if_pos hchain] at hjump ⊢
      rw [← hrole, Part.continuesChain_role] at hchain
      exact h.addAlternative hkeeps hshapes (by simp) hchain _ hjump
    · rw [if_neg hchain] at hjump ⊢
      rw [← hrole, Part.continuesChain_role, Bool.not_eq_true] at hchain
      by_cases hclose : r.statement.role = .close
      · rw [if_pos hclose] at hjump ⊢
        refine h.addEnd hkeeps hshapes (by simp) ?_ _ hjump
        rwa [← hrole, Part.role_eq_close] at hclose
      · rw [if_neg hclose]
        refine h.addInner hkeeps hshapes hr hid hchain ?_
        rwa [← hrole, Part.role_eq_close] at hclose
  have hregular :=
    Nesting.forall_add (fun _ => ⟨fun h => { h with }, fun h => { h with }⟩)
      (regular_hiddenJump rfl rfl)
    (hr.node rfl rfl) h.regular
  exact ⟨hdescribes, hagrees, hregular, h.root⟩

/-! ## All lines -/

/-- A new line comes last in the order of execution, maybe behind a hidden jump. -/
theorem Draft.ids_add (part : NodeId → Part) (id : NodeId) (d : Draft) :
    (d.add part id).forest.ids = d.forest.ids ++ [id] ∨
      (d.add part id).forest.ids = d.forest.ids ++ [id + 1, id] := by
  cases hp : part id
  case elseBranch | otherwise =>
    rw [forest_settle d]
    simp only [add, hp, forest, inner]
    cases d.settle with
    | script done => exact .inl (by simp [Spine.alternative, Spine.forest])
    | block outer skips b done =>
      simp only [Spine.alternative]
      split
      · exact .inr (by simp [Spine.forest, Spine.ids_forest, ids_wrap, wrap])
      · exact .inl (by simp [Spine.forest, Spine.ids_forest, ids_wrap])
  case close =>
    rw [forest_settle d]
    simp only [add, hp, forest, inner]
    cases d.settle with
    | script done => exact .inl (by simp [Spine.finish, Spine.forest])
    | block outer skips b done =>
      simp only [Spine.finish]
      split
      · exact .inr (by simp [Spine.forest, Spine.ids_forest, ids_wrap])
      · exact .inl (by simp [Spine.forest, Spine.ids_forest, ids_wrap])
  all_goals
    refine .inl ?_
    rw [forest, Tracks.forest_add_inner d (by rw [hp]; rfl) (by simp [hp]),
      Spine.forest_push, forest]
    simp [Spine.ids_forest]

theorem Nesting.keeps_foldl (rs : List Reading) (n : Nesting) :
    n.tree.Keeps (rs.foldl add n).tree := by
  induction rs generalizing n with
  | nil => exact .refl _
  | cons r rest ih => exact ((Tree.Keeps.create _ _).trans (keeps_add n r)).trans (ih _)

/-- What is known of the finished tree is known of the tree before the last lines. -/
theorem Nesting.agrees_of_foldl (rs : List Reading)
    (h : ∀ id < (rs.foldl add n).tree.size, (rs.foldl add n).tree.part id = part id) :
    ∀ id < n.tree.size, n.tree.part id = part id := by
  intro id hid
  have hkeeps := keeps_foldl rs n
  rw [← hkeeps.part_eq hid, h id (Nat.lt_of_lt_of_le hid hkeeps.size)]

/-- The node behind a new line is its hidden jump. -/
theorem Tracks.part_jump (h : Tracks part (n.add r) d) (hmem : n.tree.size + 1 ∈ d.forest.ids) :
    part (n.tree.size + 1) = .jump := by
  have hlt : n.tree.size + 1 < (n.add r).tree.size := h.spans.lt_size hmem
  rw [← h.agrees _ hlt, Nesting.part_add_of_lt n r (Nat.lt_succ_self _) hlt]

/-- The node of a new line plays its part. -/
theorem Tracks.part_line (h : Tracks part (n.add r) d) : part n.tree.size = r.statement.part := by
  rw [← h.agrees, Nesting.part_add]
  exact Nat.lt_of_lt_of_le (by simp) (Nesting.keeps_add n r).size

def Forest.written (part : NodeId → Part) (f : Forest) : List NodeId :=
  f.ids.filter fun id => decide (part id ≠ .jump)

theorem Forest.words_eq (part : NodeId → Part) (f : Forest) :
    f.words part = (f.written part).map part :=
  List.filter_map

structure Tree.Holds (t : Tree) (id : NodeId) (r : Reading) : Prop where
  statement : (t.node id).statement = r.statement
  origin : (t.node id).origin = .source
  diagnostic : (t.node id).diagnostic = r.diagnostic

theorem Tree.Holds.part_eq {t : Tree} (h : t.Holds id r) : t.part id = r.statement.part := by
  rw [Tree.part, Node.part, h.origin, h.statement]

theorem Nesting.holds_add (n : Nesting) (r : Reading) : (n.add r).tree.Holds n.tree.size r := by
  have hkeeps := keeps_add n r
  have hlt : n.tree.size < (n.tree.create r.node).1.size := by simp
  have hnode : (n.tree.create r.node).1.node n.tree.size = r.node := by
    rw [Tree.node_create, if_pos rfl]
  refine ⟨?_, ?_, ?_⟩
  · rw [hkeeps.statement _ hlt, hnode]
    rfl
  · rw [hkeeps.origin _ hlt, hnode]
    rfl
  · rw [hkeeps.diagnostic _ hlt, hnode]
    rfl

theorem Tracks.written_add (h : Tracks part (n.add r) (d.add part n.tree.size)) :
    (d.add part n.tree.size).forest.written part = d.forest.written part ++ [n.tree.size] := by
  simp only [Forest.written]
  rcases Draft.ids_add part n.tree.size d with hids | hids
  · rw [hids]
    simp [h.part_line, r.statement.part_ne_jump]
  · have hjump : part (n.tree.size + 1) = .jump := h.part_jump (by simp [hids])
    rw [hids]
    simp [h.part_line, hjump, r.statement.part_ne_jump]

theorem Tracks.addAll (h : Tracks part n d) (hregular : ∀ r ∈ rs, r.statement.Regular)
    (hagrees : ∀ id < (rs.foldl Nesting.add n).tree.size,
      (rs.foldl Nesting.add n).tree.part id = part id) :
    ∃ d' ids, Tracks part (rs.foldl Nesting.add n) d' ∧
      d'.forest.written part = d.forest.written part ++ ids ∧
      List.Forall₂ (rs.foldl Nesting.add n).tree.Holds ids rs := by
  induction rs generalizing n d with
  | nil => exact ⟨d, [], h, by simp, .nil⟩
  | cons r rest ih =>
    have hr : r.statement.Regular := hregular r (by simp)
    have hadd := h.add hr (Nesting.agrees_of_foldl rest hagrees)
    obtain ⟨d', ids, hd', hwritten, hholds⟩ :=
      ih hadd (fun s hs => hregular s (by simp [hs])) hagrees
    -- The lines after this one keep what its node holds.
    have hkeeps := Nesting.keeps_foldl rest (n.add r)
    have hline := Nesting.holds_add n r
    have hlt : n.tree.size < (n.add r).tree.size :=
      Nat.lt_of_lt_of_le (by simp) (Nesting.keeps_add n r).size
    refine ⟨d', n.tree.size :: ids, hd', ?_, .cons ?_ hholds⟩
    · rw [hwritten, hadd.written_add]
      simp
    · exact ⟨(hkeeps.statement _ hlt).trans hline.statement,
        (hkeeps.origin _ hlt).trans hline.origin,
        (hkeeps.diagnostic _ hlt).trans hline.diagnostic⟩

theorem Tracks.empty (hroot : part Tree.root = .idle) : Tracks part .empty .empty := by
  have hnode : ∀ id, Tree.empty.node id = default := by
    intro id
    cases id <;> rfl
  have hspans : Tree.empty.Spans .nil := by
    refine ⟨rfl, rfl, trivial, by simp, ?_⟩
    intro id
    simp [Tree.size, Tree.empty, Tree.root]
  refine ⟨⟨⟨hspans.loose, trivial⟩, rfl,
    by simp [Draft.empty, Spine.pending], by simp [Draft.empty]⟩, ?_, ?_, hroot⟩
  · intro id hid
    have hid : id = Tree.root := Nat.lt_one_iff.mp hid
    rw [hid, hroot]
    rfl
  · intro id
    rw [Nesting.empty, hnode]
    exact regular_default

/-- The root of a nested script is idle. -/
theorem nest_part_root (rs : List Reading) : (Tree.nest rs).part Tree.root = .idle := by
  have hkeeps := Nesting.keeps_foldl rs .empty
  rw [Tree.nest, hkeeps.part_eq (by decide)]
  rfl

/-- What holds for the nodes of the lines, for hidden jumps and for the root holds for all nodes. -/
theorem nest_forall {P : Node → Prop} (hroot : P default)
    (hjump : ∀ line, P { statement := .hiddenJump line, origin := .hiddenJump })
    (hrs : ∀ r ∈ rs, P r.node) (id : NodeId) (hlinks : ∀ n : Node, P n.unlinked ↔
      P n := by intro; rfl) : P ((Tree.nest rs).node id) := by
  have hempty : ∀ id, P (Nesting.empty.tree.node id) := by
    intro id
    cases id with
    | zero => exact hroot
    | succ id => exact hroot
  have hrun : ∀ (rs : List Reading) (n : Nesting), (∀ r ∈ rs, P r.node) →
      (∀ id, P (n.tree.node id)) →
      ∀ id, P ((rs.foldl Nesting.add n).tree.node id) := by
    intro rs
    induction rs with
    | nil => exact fun n _ hn => hn
    | cons r rest ih =>
      intro n hr hn
      exact ih _ (fun q hq => hr q (by simp [hq]))
        (Nesting.forall_add hlinks (hjump _) (hr r (by simp)) hn)
  exact hrun rs _ hrs hempty id

/-- The tree of a script spans a tidy forest that holds the lines in their order. -/
theorem nest_spans (hregular : ∀ r ∈ rs, r.statement.Regular) :
    ∃ f, (Tree.nest rs).Spans f ∧ Tidy (Tree.nest rs).part f ∧
      List.Forall₂ (Tree.nest rs).Holds (f.written (Tree.nest rs).part) rs := by
  have hstart := Tracks.empty (nest_part_root rs)
  obtain ⟨d, ids, hd, hwritten, hholds⟩ := hstart.addAll hregular fun _ _ => rfl
  refine ⟨d.forest, hd.spans, hd.shapes.tidy, ?_⟩
  rw [hwritten]
  exact hholds

/-- The parts of the lines, read from the shape. -/
theorem words_of_holds {t : Tree} (h : List.Forall₂ t.Holds (f.written t.part) rs) :
    f.words t.part = rs.map fun r => r.statement.part := by
  rw [Forest.words_eq]
  generalize f.written t.part = ids at h
  induction h with
  | nil => rfl
  | cons hline _ ih => rw [List.map_cons, List.map_cons, hline.part_eq, ih]

theorem Forest.has_of_mem (h : id ∈ f.ids) : ∃ below after, f.Has id below after := by
  induction f with
  | nil => simp at h
  | node j b a ihb iha =>
    simp only [ids_node, List.mem_cons, List.mem_append] at h
    rcases h with rfl | h | h
    · exact ⟨b, a, Or.inl ⟨rfl, rfl, rfl⟩⟩
    · obtain ⟨below, after, hhas⟩ := ihb h
      exact ⟨below, after, Or.inr (Or.inl hhas)⟩
    · obtain ⟨below, after, hhas⟩ := iha h
      exact ⟨below, after, Or.inr (Or.inr hhas)⟩

theorem Tidy.below_of_has {below after : Forest} (h : Tidy part f)
    (hhas : f.Has id below after) : below = .nil ∨ (part id).opensBlock = true ∨
    part id = .skip := by
  induction f with
  | nil => exact hhas.elim
  | node j b a ihb iha =>
    obtain ⟨_, hbelow, hb, ha⟩ := h
    rcases hhas with ⟨rfl, rfl, rfl⟩ | hhas | hhas
    · rcases hbelow with hbelow | hbelow | hbelow
      · exact .inl hbelow
      · exact .inr (.inl hbelow)
      · exact .inr (.inr hbelow.1)
    · exact ihb hb hhas
    · exact iha ha hhas

/-- Nothing hangs below a line that neither opens a block nor skips. -/
theorem nest_childless (hregular : ∀ r ∈ rs, r.statement.Regular) (hf : (Tree.nest rs).Spans f)
    (hid : id ∈ f.ids) (hopens : ((Tree.nest rs).part id).opensBlock = false)
    (hskip : (Tree.nest rs).part id ≠ .skip) :
    (Tree.nest rs).children id = #[] := by
  obtain ⟨f', hf', htidy, -⟩ := nest_spans hregular
  obtain rfl := hf'.unique hf
  obtain ⟨below, after, hhas⟩ := Forest.has_of_mem hid
  rcases htidy.below_of_has hhas with rfl | hbelow | hbelow
  · rw [← Array.toList_eq_nil_iff, hf.hangs.children_of_has hhas, Forest.roots_nil]
  · rw [hopens] at hbelow
    cases hbelow
  · exact absurd hbelow hskip

/-! ## Derivable scripts -/

/-- A row that well-built rows can follow. `inChain` says whether it goes on with an alternative. -/
def Leads (part : NodeId → Part) (inLoop inChain : Bool) (row : Forest) : Prop :=
  ∀ {stop : Stop} {rest : Forest}, Block part inLoop false stop rest →
    Block part inLoop inChain stop (row ++ rest)

/-- What the lines of a derivation do to a tree under construction. -/
def Nests (part : NodeId → Part) (inLoop : Bool) (n n' : Nesting) : Nonterminal → Prop
  | .script => ∀ {z : Spine}, Tracks part n ⟨z, []⟩ →
      ∃ row, Tracks part n' ⟨z.push row, []⟩ ∧ Leads part inLoop false row
  | .chain => ∀ {outer : Spine} {b : NodeId} {done : Forest} {inChain : Bool},
      Tracks part n ⟨.block outer [] b done, []⟩ → (part b).isTest = true →
      (part b).takesPlace inChain = true → Leads part inLoop false done →
      ∃ row, Tracks part n' ⟨outer.push row, []⟩ ∧ Leads part inLoop inChain row
  | .skipped => ∀ {z : Spine} {skip : NodeId} {done : Forest} {skips : List (NodeId × Forest)},
      Tracks part n ⟨z, (skip, done) :: skips⟩ →
      ∃ row, Tracks part n' ⟨z.push (wrap skips (.node skip (done ++ row) .nil)), []⟩ ∧
        Skipped part inLoop row

inductive Lines (part : NodeId → Part) : Nesting → List Part → Nesting → Prop
  | nil {n : Nesting} : Lines part n [] n
  | cons {n n' : Nesting} {r : Reading} {ps : List Part} (hr : r.statement.Regular)
      (hagrees : ∀ id < (n.add r).tree.size, (n.add r).tree.part id = part id)
      (hrest : Lines part (n.add r) ps n') : Lines part n (r.statement.part :: ps) n'

namespace Lines

variable {part : NodeId → Part} {n n' : Nesting} {p : Part} {ps qs : List Part}

theorem foldl {rs : List Reading} (hregular : ∀ r ∈ rs, r.statement.Regular)
    (hagrees : ∀ id < (rs.foldl Nesting.add n).tree.size,
      (rs.foldl Nesting.add n).tree.part id = part id) :
    Lines part n (rs.map fun r => r.statement.part) (rs.foldl Nesting.add n) := by
  induction rs generalizing n with
  | nil => exact .nil
  | cons r rest ih =>
    exact .cons (hregular r (by simp)) (Nesting.agrees_of_foldl rest hagrees)
      (ih (fun s hs => hregular s (by simp [hs])) hagrees)

theorem split (h : Lines part n (ps ++ qs) n') : ∃ m, Lines part n ps m ∧ Lines part m qs n' := by
  induction ps generalizing n with
  | nil => exact ⟨n, .nil, h⟩
  | cons p ps ih =>
    cases h with
    | cons hr hagrees hrest =>
      obtain ⟨m, hps, hqs⟩ := ih hrest
      exact ⟨m, .cons hr hagrees hps, hqs⟩

theorem eq_of_nil (h : Lines part n [] n') : n' = n := by
  cases h
  rfl

/-- The first line goes into the draft. -/
theorem step {d : Draft} (h : Lines part n (p :: ps) n') (hd : Tracks part n d) :
    ∃ m id, part id = p ∧ (id + 1 ∈ (d.add part id).forest.ids → part (id + 1) = .jump) ∧
      Tracks part m (d.add part id) ∧ Lines part m ps n' := by
  cases h with
  | cons hr hagrees hrest =>
    have hadd := hd.add hr hagrees
    exact ⟨_, n.tree.size, hadd.part_line, hadd.part_jump, hadd, hrest⟩

end Lines

/-! What a line does to a draft, by its part. -/

section DraftStep

variable {part : NodeId → Part} {id b : NodeId} {z outer : Spine} {done : Forest}

theorem add_single (hid : part id = .idle ∨ part id = .plain ∨ part id = .shorthand ∨
      (part id).isExit = true) :
    (Draft.mk z []).add part id = ⟨z.push (.leaf id), []⟩ := by
  cases hp : part id <;> simp [hp, Part.isExit] at hid <;> simp [Draft.add, hp, Draft.hold, wrap]

theorem add_opener (hid : part id = .branch ∨ part id = .loop) :
    (Draft.mk z []).add part id = ⟨.block z [] id .nil, []⟩ := by
  rcases hid with hid | hid <;> simp only [Draft.add, hid]

theorem add_alternative (hid : (part id).continuesChain = true) (hb : (part b).isTest = true) :
    (Draft.mk (.block outer [] b done) []).add part id =
      ⟨.block (outer.push (.node b (done ++ .leaf (id + 1)) .nil)) [] id .nil, []⟩ := by
  cases hp : part id <;> simp [hp, Part.continuesChain] at hid <;>
    simp [Draft.add, hp, Draft.settle, Spine.alternative, hb, wrap]

theorem add_close (hid : part id = .close) (hb : part b ≠ .loop) :
    (Draft.mk (.block outer [] b done) []).add part id =
      ⟨outer.push (.node b (done ++ .leaf id) .nil), []⟩ := by
  simp [Draft.add, hid, Draft.settle, Spine.finish, hb, wrap]

theorem add_close_loop (hid : part id = .close) (hb : part b = .loop) :
    (Draft.mk (.block outer [] b done) []).add part id =
      ⟨outer.push (.node b (done ++ .node (id + 1) .nil (.leaf id)) .nil), []⟩ := by
  simp [Draft.add, hid, Draft.settle, Spine.finish, hb, wrap]

end DraftStep

/-- The lines of a derivation are nested into well-built rows. The proof follows the derivation;
each step adds the lines of a symbol to the open blocks. -/
theorem Derives.nests {part : NodeId → Part} {inLoop : Bool} {symbol : Nonterminal} {ps : List Part}
    (h : Derives inLoop symbol ps) {n n' : Nesting} (hlines : Lines part n ps n') :
    Nests part inLoop n n' symbol := by
  induction h generalizing n n' with
  | done =>
    intro z hz
    obtain rfl := hlines.eq_of_nil
    refine ⟨.nil, ?_, fun hrest => hrest⟩
    cases z <;> simpa using hz
  | single hp _ ih =>
    intro z hz
    obtain ⟨m, id, rfl, -, hm, hps⟩ := hlines.step hz
    rw [add_single (by tauto)] at hm
    obtain ⟨row, hrow, hleads⟩ := ih hps hm
    refine ⟨.node id .nil row, by simpa using hrow, fun hrest => .single ?_ (hleads hrest)⟩
    rcases hp with h | h | h <;> simp [h, Part.isSingle]
  | exit hp _ ih =>
    intro z hz
    obtain ⟨m, id, rfl, -, hm, hps⟩ := hlines.step hz
    rw [add_single (by tauto)] at hm
    obtain ⟨row, hrow, hleads⟩ := ih hps hm
    exact ⟨.node id .nil row, by simpa using hrow, fun hrest => .exit hp (hleads hrest)⟩
  | loop _ _ ihb iha =>
    intro z hz
    obtain ⟨m, id, hid, -, hm, hlines⟩ := hlines.step hz
    rw [add_opener (.inr hid)] at hm
    obtain ⟨m₁, hbody, hlines⟩ := hlines.split
    obtain ⟨body, hm₁, hleads⟩ := ihb hbody hm
    obtain ⟨m₂, last, hlast, hjump, hm₂, hlines⟩ := hlines.step hm₁
    rw [Spine.push_block, Forest.nil_append, add_close_loop hlast hid] at hm₂ hjump
    obtain ⟨row, hrow, hrest⟩ := iha hlines hm₂
    refine ⟨.node id (body ++ .node (last + 1) .nil (.leaf last)) row, by simpa using hrow, ?_⟩
    refine fun h => .loop hid (hleads (.round (hjump ?_) hlast)) (hrest h)
    simp [Draft.forest, Draft.inner, Spine.ids_forest]
  | branch _ _ _ ihb ihc iha =>
    intro z hz
    rw [List.cons_append, List.cons_append, List.append_assoc] at hlines
    obtain ⟨m, id, hid, -, hm, hlines⟩ := hlines.step hz
    rw [add_opener (.inl hid)] at hm
    obtain ⟨m₁, hbody, hlines⟩ := hlines.split
    obtain ⟨m₂, hchain, hlines⟩ := hlines.split
    obtain ⟨body, hm₁, hleads⟩ := ihb hbody hm
    have htakes : (part id).takesPlace false = true := by simp [hid, Part.takesPlace]
    obtain ⟨chain, hm₂, hchain⟩ := ihc hchain hm₁ (by rw [hid]; rfl) htakes hleads
    obtain ⟨row, hrow, hrest⟩ := iha hlines hm₂
    refine ⟨chain ++ row, by simpa using hrow, fun h => ?_⟩
    rw [Forest.append_assoc]
    exact hchain (hrest h)
  | skip _ _ ihs iha =>
    intro z hz
    obtain ⟨m, id, hid, -, hm, hlines⟩ := hlines.step hz
    simp only [Draft.add, hid] at hm
    obtain ⟨m₁, hskipped, hlines⟩ := hlines.split
    obtain ⟨skipped, hm₁, hrow⟩ := ihs hskipped hm
    obtain ⟨row, hm₂, hrest⟩ := iha hlines hm₁
    exact ⟨.node id skipped row, by simpa [wrap] using hm₂, fun h => .skip hid hrow (hrest h)⟩
  | close =>
    intro outer b done inChain hz htest htakes hleads
    obtain ⟨m, id, hid, -, hm, hlines⟩ := hlines.step hz
    obtain rfl := hlines.eq_of_nil
    rw [add_close hid (Part.opensBlock_of_takesPlace htakes).2] at hm
    exact ⟨_, hm, fun h => .closed htakes (hleads (.close hid)) h⟩
  | elseBranch _ _ ihb ihc =>
    intro outer b done inChain hz htest htakes hleads
    obtain ⟨m, id, hid, hjump, hm, hlines⟩ := hlines.step hz
    rw [add_alternative (by rw [hid]; rfl) htest] at hm hjump
    obtain ⟨m₁, hbody, hlines⟩ := hlines.split
    obtain ⟨body, hm₁, hbody⟩ := ihb hbody hm
    have hplace : (part id).takesPlace true = true := by rw [hid]; rfl
    obtain ⟨chain, hm₂, hchain⟩ := ihc hlines hm₁ (by rw [hid]; rfl) hplace hbody
    refine ⟨.node b (done ++ .leaf (id + 1)) chain, by simpa using hm₂, ?_⟩
    refine fun h => .continued htakes htest (hleads (.jump (hjump ?_))) (hchain h)
    simp [Draft.forest, Draft.inner, Spine.ids_forest, Spine.forest, wrap]
  | otherwise _ ihb =>
    intro outer b done inChain hz htest htakes hleads
    obtain ⟨m, id, hid, hjump, hm, hlines⟩ := hlines.step hz
    rw [add_alternative (by rw [hid]; rfl) htest] at hm hjump
    obtain ⟨m₁, hbody, hlines⟩ := hlines.split
    obtain ⟨body, hm₁, hbody⟩ := ihb hbody hm
    obtain ⟨m₂, last, hlast, -, hm₂, hlines⟩ := hlines.step hm₁
    obtain rfl := hlines.eq_of_nil
    rw [Spine.push_block, Forest.nil_append, add_close hlast (by simp [hid])] at hm₂
    have hplace : (part id).takesPlace true = true := by rw [hid]; rfl
    refine ⟨.node b (done ++ .leaf (id + 1)) (.node id (body ++ .leaf last) .nil),
      by simpa using hm₂, ?_⟩
    refine fun h => .continued htakes htest (hleads (.jump (hjump ?_)))
      (.closed hplace (hbody (.close hlast)) h)
    simp [Draft.forest, Draft.inner, Spine.ids_forest, Spine.forest, wrap]
  | skippedIdle _ ih =>
    intro z skip done skips hz
    obtain ⟨m, id, hid, -, hm, hlines⟩ := hlines.step hz
    simp only [Draft.add, hid, Draft.hold] at hm
    obtain ⟨row, hrow, hskipped⟩ := ih hlines hm
    exact ⟨.node id .nil row, by simpa [Forest.append_assoc] using hrow, .idle hid hskipped⟩
  | skippedPlain =>
    intro z skip done skips hz
    obtain ⟨m, id, hid, -, hm, hlines⟩ := hlines.step hz
    obtain rfl := hlines.eq_of_nil
    simp only [Draft.add, hid, wrap] at hm
    exact ⟨.leaf id, hm, .plain hid⟩
  | skippedExit hp =>
    intro z skip done skips hz
    obtain ⟨m, id, hid, -, hm, hlines⟩ := hlines.step hz
    obtain rfl := hlines.eq_of_nil
    subst hid
    have hadd : (Draft.mk z ((skip, done) :: skips)).add part id =
        ⟨z.push (wrap ((skip, done) :: skips) (.leaf id)), []⟩ := by
      rcases Part.eq_of_isExit hp with h | h <;> simp only [Draft.add, h]
    rw [hadd] at hm
    exact ⟨.leaf id, hm, .exit hp rfl⟩
  | skippedSkip _ ih =>
    intro z skip done skips hz
    obtain ⟨m, id, hid, -, hm, hlines⟩ := hlines.step hz
    simp only [Draft.add, hid] at hm
    obtain ⟨row, hrow, hskipped⟩ := ih hlines hm
    exact ⟨.node id row .nil, hrow, .skip hid hskipped⟩

/-- A derivable script is nested into a well-built row. -/
theorem nest_block {rs : List Reading} (hregular : ∀ r ∈ rs, r.statement.Regular)
    (h : Derives false .script (rs.map fun r => r.statement.part)) :
    ∃ f, (Tree.nest rs).Spans f ∧ Block (Tree.nest rs).part false false .script f := by
  have hlines : Lines (Tree.nest rs).part .empty (rs.map fun r => r.statement.part)
      (rs.foldl Nesting.add .empty) := .foldl hregular fun _ _ => rfl
  obtain ⟨row, hrow, hleads⟩ := h.nests hlines (Tracks.empty (nest_part_root rs))
  refine ⟨row, ?_, by simpa using hleads .script⟩
  have hspans := hrow.spans
  simp only [Draft.forest, Draft.inner, Spine.push_script, Spine.forest, Forest.nil_append,
    Forest.append_nil] at hspans
  exact hspans

end GameScript
