import GameScript.Proofs.Blocks.Check
import GameScript.Proofs.Shorthand.Replace

/-!
# Expansion keeps the block structure

A shorthand is a block or a plain command, and so is what it is expanded into: a loop for a loop,
plain commands for a `dim`.

* `Block.alter`: a well-built row is well built after the expansion of one of its shorthands.
* `Sound.of_alter`: a row is sound if it is sound after the expansion.
-/

namespace GameScript

/-- How the parts of the nodes change with the expansion of a shorthand, if `next` is the next free
name. -/
structure Generated.Recasts (g : Generated) (header next : NodeId) (part part' : NodeId → Part) :
    Prop where
  before : part header = if g.head.isSome then .loop else .shorthand
  after : part' header = .header
  old : ∀ j < next, j ≠ header → part' j = part j
  front : ∀ j ∈ List.range' next g.before.length, part' j = .shorthand
  owner : g.head.isSome = true → part' (next + g.before.length) = .loop
  round : g.head.isSome = true →
    ∀ j ∈ List.range' (next + g.before.length + 1) g.round.length, part' j = .shorthand

/-! ## Generated rows -/

variable {part part' : NodeId → Part} {inLoop : Bool} {l : List NodeId} {f : Forest}

theorem Block.leaves {stop : Stop} (hl : ∀ j ∈ l, part j = .shorthand)
    (h : Block part inLoop false stop f) :
    Block part inLoop false stop (.leaves l ++ f) := by
  induction l with
  | nil => exact h
  | cons id rest ih =>
    exact .single (by rw [hl id (by simp)]; rfl) (ih fun j hj => hl j (by simp [hj]))

theorem Sound.of_leaves {inBlock : Bool}
    (hl : ∀ j ∈ l, part j = .shorthand) (h : Sound part inBlock inLoop false (.leaves l ++ f)) :
    Sound part inBlock inLoop false f := by
  induction l with
  | nil => exact h
  | cons id rest ih =>
    refine ih (fun j hj => hl j (by simp [hj])) ?_
    have hrest := h.2.2
    rwa [hl id (by simp)] at hrest

theorem Forest.isClosed_leaves_append (hl : ∀ j ∈ l, part j ≠ .close)
    (f : Forest) : (Forest.leaves l ++ f).isClosed part = f.isClosed part := by
  induction l with
  | nil => rfl
  | cons id rest ih =>
    rw [leaves_cons, node_append, isClosed_node, ih fun j hj => hl j (by simp [hj])]
    split
    · next hnil =>
      have hf : f = .nil := by
        cases rest with
        | nil => exact hnil
        | cons _ _ => cases hnil
      simp [hf, hl id (by simp), isClosed]
    · rfl

theorem Forest.isClosed_congr (h : ∀ id ∈ f.ids, part' id = part id) :
    f.isClosed part' = f.isClosed part := by
  simp only [isClosed]
  cases hlast : f.roots.getLast? with
  | none => rfl
  | some last =>
    simp only [Option.any_some, h last (mem_ids_of_mem_roots (List.mem_of_getLast? hlast))]

theorem Forest.isContinued_congr (h : ∀ id ∈ f.ids, part' id = part id) :
    f.isContinued part' = f.isContinued part := by
  cases f with
  | nil => rfl
  | node id below after =>
    simp only [isContinued, roots_node, List.head?_cons, Option.any_some, h id (by simp)]

theorem Sound.congr {inBlock isOpen : Bool}
    (h : Sound part inBlock inLoop isOpen f) (hpart : ∀ id ∈ f.ids, part' id = part id) :
    Sound part' inBlock inLoop isOpen f := by
  induction f generalizing inBlock inLoop isOpen with
  | nil => trivial
  | node id below after ihb iha =>
    obtain ⟨hnode, hb, ha⟩ := h
    have hpb : ∀ j ∈ below.ids, part' j = part j := fun j hj => hpart j (by simp [hj])
    have hpa : ∀ j ∈ after.ids, part' j = part j := fun j hj => hpart j (by simp [hj])
    have hmap : below.roots.map part' = below.roots.map part :=
      List.map_congr_left fun j hj => hpb j (Forest.mem_ids_of_mem_roots hj)
    have hid := hpart id (by simp)
    refine ⟨?_, ?_, ?_⟩
    · simpa only [NodeSound, hid, Forest.isCompleted, Forest.isClosed_congr hpb,
        Forest.isContinued_congr hpa, hmap] using hnode
    · rw [hid]
      exact ihb hb hpb
    · rw [hid, Forest.isClosed_congr hpb]
      exact iha ha hpa

/-! ## One expansion -/

section Recasts

variable {g : Generated} {header next : NodeId} {part part' : NodeId → Part} {f : Forest}

/-- The expansion changes the parts of no other node. -/
theorem Generated.Recasts.old_of_notMem (hg : g.Recasts header next part part')
    (hf : ∀ j ∈ f.ids, j < next) (hheader : header ∉ f.ids) : ∀ j ∈ f.ids, part' j = part j := by
  intro j hj
  refine hg.old j (hf j hj) ?_
  rintro rfl
  exact hheader hj

theorem Generated.Recasts.ne_of_part (hg : g.Recasts header next part part') {id : NodeId}
    (hloop : part id ≠ .loop) (hshorthand : part id ≠ .shorthand) : id ≠ header := by
  rintro rfl
  have := hg.before
  split at this
  · exact hloop this
  · exact hshorthand this

variable {inBlock inLoop isOpen : Bool} {stop : Stop} {after below : Forest}

theorem Skipped.notMem (hg : g.Recasts header next part part') (h : Skipped part inLoop f) :
    header ∉ f.ids := by
  have hne : ∀ {id}, (part id).canBeSkipped = true ∨ part id = .idle → header ≠ id := by
    intro id hid
    refine Ne.symm (hg.ne_of_part ?_ ?_) <;> rintro hp <;> simp [hp, Part.canBeSkipped] at hid
  induction h with
  | idle hid _ ih => simpa using ⟨hne (.inr hid), ih⟩
  | plain hid => simpa using hne (.inl (by rw [hid]; rfl))
  | @exit id hid _ =>
    have hskip : (part id).canBeSkipped = true := by
      rcases Part.eq_of_isExit hid with hp | hp <;> rw [hp] <;> rfl
    simpa using hne (.inl hskip)
  | skip hid _ ih => simpa using ⟨hne (.inl (by rw [hid]; rfl)), ih⟩

theorem Block.shape_single (hg : g.Recasts header next part part')
    (hheader : (part header).isSingle = true) (h : Block part' inLoop false stop after) :
    Block part' inLoop false stop (g.shape header next .nil after) := by
  have hnone : g.head = none := by
    have hbefore := hg.before
    cases hhead : g.head with
    | none => rfl
    | some s =>
      rw [hhead, Option.isSome_some, if_pos rfl] at hbefore
      simp [hbefore, Part.isSingle] at hheader
  rw [Generated.shape, hnone]
  exact .single (by rw [hg.after]; rfl) (h.leaves hg.front)

theorem Block.shape_loop (hg : g.Recasts header next part part') (hheader : part header = .loop)
    (hbelow : Block part' true false .loop below)
    (h : Block part' inLoop false stop after) :
    Block part' inLoop false stop (g.shape header next below after) := by
  have hsome : g.head.isSome = true := by
    have hbefore := hg.before
    rw [hheader] at hbefore
    by_contra hnone
    rw [if_neg hnone] at hbefore
    cases hbefore
  obtain ⟨s, hs⟩ := Option.isSome_iff_exists.mp hsome
  rw [Generated.shape, hs]
  refine .single (by rw [hg.after]; rfl) (Block.leaves hg.front ?_)
  exact .loop (hg.owner hsome) (Block.leaves (hg.round hsome) hbelow) h

/-- A well-built row is well built after the expansion of one of its shorthands. -/
theorem Block.alter (hg : g.Recasts header next part part') {inChain : Bool}
    (h : Block part inLoop inChain stop f) (hnodup : f.ids.Nodup) (hf : ∀ j ∈ f.ids, j < next) :
    Block part' inLoop inChain stop (f.alter header (g.shape header next)) := by
  have hsame : ∀ {id}, id < next → part id ≠ .loop → part id ≠ .shorthand → id ≠ header ∧
      part' id = part id := by
    intro id hid hloop hshorthand
    have hne := hg.ne_of_part hloop hshorthand
    exact ⟨hne, hg.old id hid hne⟩
  -- Rows without the header are the same row with the same parts.
  have hrow : ∀ {inLoop inChain stop} {row : Forest}, header ∉ row.ids → (∀ j ∈ row.ids, j < next) →
      Block part inLoop inChain stop row → Block part' inLoop inChain stop row :=
    fun hnot hlt hb => hb.congr (hg.old_of_notMem hlt hnot)
  induction h with
  | script => exact .script
  | @close _ id hid =>
    obtain ⟨hne, heq⟩ := hsame (hf id (by simp)) (by simp [hid]) (by simp [hid])
    rw [Forest.alter_node_of_ne hne]
    exact .close (heq.trans hid)
  | @jump _ id hid =>
    obtain ⟨hne, heq⟩ := hsame (hf id (by simp)) (by simp [hid]) (by simp [hid])
    rw [Forest.alter_node_of_ne hne]
    exact .jump (heq.trans hid)
  | @round _ id last hid hlast =>
    obtain ⟨hne, heq⟩ := hsame (hf id (by simp)) (by simp [hid]) (by simp [hid])
    obtain ⟨hne', heq'⟩ := hsame (hf last (by simp)) (by simp [hlast]) (by simp [hlast])
    rw [Forest.alter_node_of_ne hne, Forest.alter_nil, Forest.alter_node_of_ne hne']
    exact .round (heq.trans hid) (heq'.trans hlast)
  | @single _ _ id after hid hafter ih =>
    simp only [Forest.ids_node, Forest.ids_nil, List.nil_append, List.nodup_cons] at hnodup
    have hfa : ∀ j ∈ after.ids, j < next := fun j hj => hf j (by simp [hj])
    by_cases hheader : id = header
    · subst hheader
      rw [Forest.alter_node_self]
      exact .shape_single hg hid (hrow hnodup.1 hfa hafter)
    · rw [Forest.alter_node_of_ne hheader]
      exact .single (by rw [hg.old id (hf id (by simp)) hheader, hid]) (ih hnodup.2 hfa)
  | @exit _ id after hid hafter ih =>
    simp only [Forest.ids_node, Forest.ids_nil, List.nil_append, List.nodup_cons] at hnodup
    obtain ⟨hne, heq⟩ := hsame (hf id (by simp)) (fun hp => by simp [hp, Part.isExit] at hid)
      (fun hp => by simp [hp, Part.isExit] at hid)
    rw [Forest.alter_node_of_ne hne]
    exact .exit (by rw [heq, hid]) (ih hnodup.2 fun j hj => hf j (by simp [hj]))
  | @skip _ _ id below after hid hbelow hafter ih =>
    rw [Forest.nodup_ids_node] at hnodup
    obtain ⟨hne, heq⟩ := hsame (hf id (by simp)) (by simp [hid]) (by simp [hid])
    have hnot := hbelow.notMem hg
    rw [Forest.alter_node_of_ne hne, Forest.alter_of_notMem hnot]
    exact .skip (heq.trans hid)
      (hbelow.congr (hg.old_of_notMem (fun j hj => hf j (by simp [hj])) hnot))
      (ih hnodup.2.2.1 fun j hj => hf j (by simp [hj]))
  | @loop _ _ id below after hid hbelow hafter ihb iha =>
    rw [Forest.nodup_ids_node] at hnodup
    have hfb : ∀ j ∈ below.ids, j < next := fun j hj => hf j (by simp [hj])
    have hfa : ∀ j ∈ after.ids, j < next := fun j hj => hf j (by simp [hj])
    by_cases hheader : id = header
    · subst hheader
      rw [Forest.alter_node_self]
      exact .shape_loop hg hid (hrow hnodup.1.1 hfb hbelow) (hrow hnodup.1.2 hfa hafter)
    · rw [Forest.alter_node_of_ne hheader]
      exact .loop (by rw [hg.old id (hf id (by simp)) hheader, hid]) (ihb hnodup.2.1 hfb)
        (iha hnodup.2.2.1 hfa)
  | @closed _ _ _ id below after hid hbelow hafter ihb iha =>
    rw [Forest.nodup_ids_node] at hnodup
    obtain ⟨hopens, hloop⟩ := Part.opensBlock_of_takesPlace hid
    obtain ⟨hne, heq⟩ :=
      hsame (hf id (by simp)) hloop (fun hp => by simp [hp, Part.opensBlock] at hopens)
    rw [Forest.alter_node_of_ne hne]
    exact .closed (by rw [heq, hid]) (ihb hnodup.2.1 fun j hj => hf j (by simp [hj]))
      (iha hnodup.2.2.1 fun j hj => hf j (by simp [hj]))
  | @continued _ _ _ id below after hid htest hbelow hafter ihb iha =>
    rw [Forest.nodup_ids_node] at hnodup
    obtain ⟨hopens, hloop⟩ := Part.opensBlock_of_takesPlace hid
    obtain ⟨hne, heq⟩ :=
      hsame (hf id (by simp)) hloop (fun hp => by simp [hp, Part.opensBlock] at hopens)
    rw [Forest.alter_node_of_ne hne]
    exact .continued (by rw [heq, hid]) (by rw [heq, htest]) (ihb hnodup.2.1 fun j hj =>
      hf j (by simp [hj]))
      (iha hnodup.2.2.1 fun j hj => hf j (by simp [hj]))

/-! ## Back from the expansion -/

theorem Generated.Recasts.roots_ne_close (hg : g.Recasts header next part part') :
    ∀ j ∈ header :: List.range' next g.front.length, part' j ≠ .close ∧
      (part' j).continuesChain = false := by
  intro j hj
  rcases List.mem_cons.mp hj with rfl | hj
  · rw [hg.after]
    exact ⟨by simp, rfl⟩
  · unfold Generated.front at hj
    cases hhead : g.head with
    | none =>
      simp only [hhead, Option.toList_none, List.append_nil] at hj
      rw [hg.front j hj]
      exact ⟨by simp, rfl⟩
    | some s =>
      simp only [hhead, Option.toList_some, List.length_append, List.length_singleton,
        List.range'_1_concat, List.mem_append, List.mem_singleton] at hj
      rcases hj with hj | rfl
      · rw [hg.front j hj]
        exact ⟨by simp, rfl⟩
      · rw [hg.owner (by rw [hhead]; rfl)]
        exact ⟨by simp, rfl⟩

theorem Forest.alter_shape_eq_nil : f.alter header (g.shape header next) = .nil ↔ f = .nil := by
  cases f with
  | nil => simp
  | node id below after =>
    by_cases hid : id = header
    · subst hid
      rw [alter_node_self, ← roots_eq_nil, Generated.roots_shape]
      simp
    · simp [alter_node_of_ne hid]

/-- A row ends with an `end` after an expansion exactly if it did before. -/
theorem Forest.isClosed_alter (hg : g.Recasts header next part part') (hnodup : f.ids.Nodup)
    (hf : ∀ j ∈ f.ids, j < next) : (f.alter header (g.shape header next)).isClosed part' =
      f.isClosed part := by
  induction f with
  | nil => rfl
  | node id below after _ ih =>
    rw [nodup_ids_node] at hnodup
    have hfa : ∀ j ∈ after.ids, j < next := fun j hj => hf j (by simp [hj])
    by_cases hid : id = header
    · subst hid
      rw [alter_node_self, isClosed_node, ← isClosed_congr (hg.old_of_notMem hfa hnodup.1.2)]
      rw [isClosed, Generated.roots_shape, ← List.cons_append]
      split
      · next hnil =>
        have hopen : part id ≠ .close := by
          rw [hg.before]
          split <;> simp
        rw [hnil, roots_nil, List.append_nil, decide_eq_false hopen]
        cases hlast : (id :: List.range' next g.front.length).getLast? with
        | none => rfl
        | some last => simp [(hg.roots_ne_close last (List.mem_of_getLast? hlast)).1]
      · next hne =>
        rw [List.getLast?_append_of_ne_nil _ fun hroots => hne (roots_eq_nil.mp hroots)]
        rfl
    · rw [alter_node_of_ne hid, isClosed_node, isClosed_node, ih hnodup.2.2.1 hfa,
        hg.old id (hf id (by simp)) hid]
      simp only [alter_shape_eq_nil]

/-- A row starts with an alternative after an expansion exactly if it did before. -/
theorem Forest.isContinued_alter (hg : g.Recasts header next part part')
    (hf : ∀ j ∈ f.ids, j < next) :
    (f.alter header (g.shape header next)).isContinued part' = f.isContinued part := by
  cases f with
  | nil => rfl
  | node id below after =>
    by_cases hid : id = header
    · subst hid
      have hplain : (part id).continuesChain = false := by
        rw [hg.before]
        split <;> rfl
      rw [alter_node_self, isContinued, Generated.roots_shape, isContinued]
      simp [hplain, (hg.roots_ne_close id (by simp)).2]
    · simp [alter_node_of_ne hid, isContinued, hg.old id (hf id (by simp)) hid]

/-- A row that skips one command after an expansion did so before: no shorthand is skipped. -/
theorem SkipsOne.of_alter (hg : g.Recasts header next part part') (hnodup : f.ids.Nodup)
    (hf : ∀ j ∈ f.ids, j < next)
    (h : SkipsOne ((f.alter header (g.shape header next)).roots.map part')) :
    SkipsOne (f.roots.map part) := by
  rw [Forest.roots_alter _ (g.roots_shape header next) hnodup] at h
  have hnot : header ∉ f.roots := by
    intro hmem
    refine h.1 (List.mem_map.mpr ⟨header, ?_, hg.after⟩)
    simp only [Forest.insertAfter, List.mem_flatMap]
    exact ⟨header, hmem, by simp⟩
  rw [Forest.insertAfter_of_notMem _ hnot] at h
  have hmap : f.roots.map part' = f.roots.map part := by
    refine List.map_congr_left fun j hj => hg.old j (hf j (Forest.mem_ids_of_mem_roots hj)) ?_
    rintro rfl
    exact hnot hj
  rwa [hmap] at h

theorem NodeSound.of_alter (hg : g.Recasts header next part part') {id : NodeId}
    (hid : part' id = part id) (hnb : below.ids.Nodup) (hfb : ∀ j ∈ below.ids, j < next)
    (hfa : ∀ j ∈ after.ids, j < next)
    (h : NodeSound part' inBlock inLoop isOpen id (below.alter header (g.shape header next))
      (after.alter header (g.shape header next))) :
    NodeSound part inBlock inLoop isOpen id below after := by
  have hcompleted : Forest.isCompleted part' id (below.alter header (g.shape header next))
      (after.alter header (g.shape header next)) = Forest.isCompleted part id below after := by
    simp only [Forest.isCompleted, Forest.isClosed_alter hg hnb hfb,
      Forest.isContinued_alter hg hfa, hid]
  simp only [NodeSound, hid, hcompleted, Forest.alter_shape_eq_nil] at h ⊢
  cases hp : part id <;> simp only [hp] at h ⊢ <;> try exact h
  exact h.of_alter hg hnb hfb

/-- The row of a shorthand is sound if the row of its expansion is. -/
theorem Sound.of_shape (hg : g.Recasts header next part part')
    (hb : ∀ j ∈ below.ids, part' j = part j) (ha : ∀ j ∈ after.ids, part' j = part j)
    (h : Sound part' inBlock inLoop isOpen (g.shape header next below after)) :
    Sound part inBlock inLoop isOpen (.node header below after) := by
  have hb' : ∀ j ∈ below.ids, part j = part' j := fun j hj => (hb j hj).symm
  have ha' : ∀ j ∈ after.ids, part j = part' j := fun j hj => (ha j hj).symm
  have hbefore := hg.before
  unfold Generated.shape at h
  cases hhead : g.head with
  | none =>
    rw [hhead, Option.isSome_none] at hbefore
    simp only [hhead] at h
    obtain ⟨-, hbelow, hafter⟩ := h
    rw [hg.after] at hbelow hafter
    have hrest : Sound part' inBlock inLoop false after := Sound.of_leaves hg.front hafter
    refine ⟨nodeSound_of_isSingle (by rw [hbefore]; rfl), ?_, ?_⟩
    · rw [hbefore]
      exact hbelow.congr hb'
    · rw [hbefore]
      exact hrest.congr ha'
  | some s =>
    have hsome : g.head.isSome = true := by rw [hhead]; rfl
    rw [hsome, if_pos rfl] at hbefore
    simp only [hhead] at h
    obtain ⟨-, -, hfront⟩ := h
    rw [hg.after] at hfront
    obtain ⟨hnode, hbelow, hafter⟩ := Sound.of_leaves hg.front hfront
    rw [hg.owner hsome] at hbelow hafter
    simp only [NodeSound, hg.owner hsome, Forest.isCompleted, Part.isTest, Bool.false_and,
      Bool.or_false] at hnode
    rw [Forest.isClosed_leaves_append, Forest.isClosed_congr hb] at hnode
    · refine ⟨?_, ?_, ?_⟩
      · simp [NodeSound, hbefore, Forest.isCompleted, hnode]
      · rw [hbefore]
        exact (Sound.of_leaves (hg.round hsome) hbelow).congr hb'
      · rw [hbefore]
        exact Sound.congr hafter ha'
    · intro j hj
      rw [hg.round hsome j hj]
      simp

/-- A row is sound if it is sound after the expansion of one of its shorthands. -/
theorem Sound.of_alter (hg : g.Recasts header next part part') (hnodup : f.ids.Nodup)
    (hf : ∀ j ∈ f.ids, j < next)
    (h : Sound part' inBlock inLoop isOpen (f.alter header (g.shape header next))) :
    Sound part inBlock inLoop isOpen f := by
  induction f generalizing inBlock inLoop isOpen with
  | nil => trivial
  | node id below after ihb iha =>
    rw [Forest.nodup_ids_node] at hnodup
    obtain ⟨⟨hib, hia⟩, hnb, hna, _⟩ := hnodup
    have hfb : ∀ j ∈ below.ids, j < next := fun j hj => hf j (by simp [hj])
    have hfa : ∀ j ∈ after.ids, j < next := fun j hj => hf j (by simp [hj])
    by_cases hid : id = header
    · subst hid
      rw [Forest.alter_node_self] at h
      exact h.of_shape hg (hg.old_of_notMem hfb hib) (hg.old_of_notMem hfa hia)
    · rw [Forest.alter_node_of_ne hid] at h
      obtain ⟨hnode, hb, ha⟩ := h
      have hpart := hg.old id (hf id (by simp)) hid
      rw [hpart] at hb
      rw [hpart, Forest.isClosed_alter hg hnb hfb] at ha
      exact ⟨hnode.of_alter hg hpart hnb hfb hfa, ihb hnb hfb hb, iha hna hfa ha⟩

end Recasts

end GameScript
