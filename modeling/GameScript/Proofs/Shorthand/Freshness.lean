import Mathlib.Data.List.Perm.Subperm
import GameScript.Proofs.Shorthand.Names

/-!
# Fresh names

A shorthand that needs a variable of its own draws a name from the supply. The name is not taken
(`NameSupply.fresh_notMem`), and it is taken from then on. At the start all names of the script are
taken, and the statements that stand for a shorthand use the names of the shorthand and the drawn
one, so at any time all names in the tree are taken (`Session.Taken`). The name that a loop draws
stays its own (`Session.Owns`).
-/

namespace GameScript

/-! ## The supply -/

theorem toString_injective : Function.Injective fun n : Nat => toString n := by
  intro m n h
  have hdigits : Nat.toDigits 10 m = Nat.toDigits 10 n := by
    simpa [Nat.repr] using congrArg String.toList h
  have hvalues := congrArg (Nat.ofDigitChars 10 · 0) hdigits
  simpa [Nat.ofDigitChars_ten_toDigits] using hvalues

/-- Numbers behind the same word give different names. -/
theorem numbered_injective (word : String) : Function.Injective fun n : Nat =>
    word ++ toString n := by
  intro m n h
  have hlists : (word ++ toString m).toList = (word ++ toString n).toList :=
    congrArg String.toList h
  rw [String.toList_append, String.toList_append] at hlists
  exact toString_injective (String.toList_inj.mp (List.append_cancel_left hlists))

theorem iteratorName_injective : Function.Injective iteratorName :=
  numbered_injective (reservedMark ++ "msci_iterator")

namespace NameSupply

/-- The search passes over taken names only, and it ends at a free one or after so many steps. -/
theorem firstFree_spec (used : Std.TreeSet String) (steps n : Nat) : n ≤ firstFree used steps n ∧
    (∀ m, n ≤ m → m < firstFree used steps n → iteratorName m ∈ used) ∧
    (iteratorName (firstFree used steps n) ∈ used → firstFree used steps n = n + steps) := by
  induction steps generalizing n with
  | zero => exact ⟨Nat.le_refl n, fun m hle hlt => absurd hlt (Nat.not_lt.mpr hle), fun _ => rfl⟩
  | succ steps ih =>
    rw [firstFree]
    split
    · next htaken =>
      obtain ⟨hle, hbefore, hend⟩ := ih (n + 1)
      refine ⟨Nat.le_of_succ_le hle, fun m hm hlt => ?_,
        fun hc => by rw [hend hc, Nat.add_assoc, Nat.add_comm 1]⟩
      rcases Nat.eq_or_lt_of_le hm with rfl | hm
      · exact htaken
      · exact hbefore m hm hlt
    · next hfree =>
      exact ⟨Nat.le_refl n, fun m hle hlt => absurd hlt (Nat.not_lt.mpr hle),
        fun hc => absurd hc hfree⟩

theorem fresh_notMem (names : NameSupply) : names.fresh.1 ∉ names.used := by
  intro hmem
  -- Otherwise there are more names taken than there are names.
  obtain ⟨-, hbefore, hend⟩ := firstFree_spec names.used names.used.size names.next
  have hlast := hend hmem
  let tried := (List.range (names.used.size + 1)).map fun i => iteratorName (names.next + i)
  have hnodup : tried.Nodup := by
    refine List.nodup_range.map fun i j hij => ?_
    exact Nat.add_left_cancel (iteratorName_injective hij)
  have hsubset : tried ⊆ names.used.toList := by
    intro name hname
    obtain ⟨i, hi, rfl⟩ := List.mem_map.mp hname
    rw [Std.TreeSet.mem_toList]
    rcases Nat.eq_or_lt_of_le (Nat.le_of_lt_succ (List.mem_range.mp hi)) with rfl | hi
    · rw [← hlast]
      exact hmem
    · exact hbefore _ (Nat.le_add_right _ _) (hlast ▸ Nat.add_lt_add_left hi _)
  have hlength := (List.subperm_of_subset hnodup hsubset).length_le
  rw [List.length_map, List.length_range, Std.TreeSet.length_toList] at hlength
  omega

theorem mem_used_fresh {names : NameSupply} {name : String} :
    name ∈ names.fresh.2.used ↔ name = names.fresh.1 ∨ name ∈ names.used := by
  show name ∈ names.used.insert names.fresh.1 ↔ _
  rw [Std.TreeSet.mem_insert, Std.LawfulEqCmp.compare_eq_iff_eq, eq_comm]

end NameSupply

/-- Only loops draw names. -/
theorem Statement.Plans.isLoopShorthand_of_fresh {u : Statement} {names names' : NameSupply}
    {x : Expansion} (h : u.Plans names x names') (hnames : names' = names.fresh.2) :
    u.form.isLoopShorthand = true := by
  rw [h.isLoopShorthand_eq]
  cases h with
  | dim _ _ =>
    -- After a draw there is one name more that is taken.
    have htaken : names.fresh.1 ∈ names.fresh.2.used := NameSupply.mem_used_fresh.mpr (.inl rfl)
    rw [← hnames] at htaken
    exact absurd htaken names.fresh_notMem
  | _ => rfl

/-! ## Names in the tree -/

namespace Session

section

variable {e : Setting} {t : Tree} {f g g' : Forest} {s s' : Session} {header id : NodeId}
  {rest : List NodeId}

theorem mem_foldl_insert {name : String} {l : List Token} {used : Std.TreeSet String} :
    name ∈ l.foldl (fun used t => used.insert t.value) used ↔ name ∈ used ∨
    ∃ t ∈ l, t.value = name := by
  induction l generalizing used with
  | nil => simp
  | cons t l ih =>
    rw [List.foldl_cons, ih, Std.TreeSet.mem_insert, Std.LawfulEqCmp.compare_eq_iff_eq]
    simp only [List.mem_cons, exists_eq_or_imp]
    grind

theorem mem_foldl_vars {name : String} {ids : List NodeId} {used : Std.TreeSet String} :
    name ∈ ids.foldl (fun used id => (s.node id).statement.vars.foldl (fun used t =>
      used.insert t.value) used) used ↔
      name ∈ used ∨ ∃ id ∈ ids, ∃ t ∈ (s.node id).statement.vars, t.value = name := by
  induction ids generalizing used with
  | nil => simp
  | cons id ids ih =>
    rw [List.foldl_cons, ih, mem_foldl_insert]
    simp only [List.mem_cons, exists_eq_or_imp]
    grind

def Taken (s : Session) (g : Forest) : Prop :=
  ∀ id ∈ g.ids, ∀ t ∈ (s.node id).statement.vars, t.value ∈ s.names.used

theorem taken_start (hf : t.Spans f) : Taken (Session.start t).seedNames f := by
  intro id hid v hv
  refine mem_foldl_vars.mpr (.inr ⟨id, ?_, v, hv, rfl⟩)
  show id ∈ t.preorder
  rw [hf.preorder_eq]
  exact hid

theorem Unfolds.used_subset (h : Unfolds e s g header s' g') {name : String}
    (hname : name ∈ s.names.used) :
    name ∈ s'.names.used := by
  have hplans : ∀ {x : Expansion} {names : NameSupply}, (s.node header).statement.plan s.names =
      .ok (x, names) →
      name ∈ names.used := by
    intro x names hplan
    rcases (Statement.plans_of_plan hplan).names_eq with rfl | rfl
    · exact hname
    · exact NameSupply.mem_used_fresh.mpr (.inr hname)
  cases h with
  | reported p hfails =>
    rcases hfails with ⟨-, rfl⟩ | ⟨x, hplan, -⟩
    · exact hname
    · exact hplans hplan
  | replaced hplan _ _ => exact hplans hplan

/-- Nothing else is said about the other nodes that were there. -/
theorem Unfolds.read_eq (h : Unfolds e s g header s' g') (hid : id < s.tree.size)
    (hne : id ≠ header) {α : Type} (read : Node → α)
    (hread : ∀ n : Node, read n.unlinked = read n := by intro; rfl)
    (herror : ∀ n : Node, read { n with hasError := true } = read n := by intro; rfl) :
    read (s'.node id) = read (s.node id) := by
  cases h with
  | reported p _ => exact Tree.read_modify s.tree header id read herror
  | @replaced _ _ y _ _ parent _ =>
    exact Node.eq_of_unlinked (Tree.node_replace_old y parent hid hne) read hread

/-- A node after a step is as it was, the header of the expansion, or generated. -/
theorem Unfolds.node_cases (h : Unfolds e s g header s' g')
    (hx : Expanding e t f s g (header :: rest)) (hid : id ∈ g'.ids) :
    (id ∈ g.ids ∧ (s'.node id).statement.vars = (s.node id).statement.vars) ∨
      ∃ (x : Expansion) (y : Generated), (s.node header).statement.plan s.names =
        .ok (x, s'.names) ∧
        y.IsRead e (s.node header).statement.line x ∧ ∃ i, id = s.tree.size + i ∧
          (y.front ++ y.inner)[i]? = some (s'.node id).statement := by
  obtain ⟨hheader, -⟩ := hx.waiting header (by simp)
  cases h with
  | reported p _ =>
    exact .inl ⟨hid, Tree.read_modify s.tree header id (fun n => n.statement.vars) fun _ => rfl⟩
  | @replaced x names y hplan hread parent _ =>
    rcases (y.mem_ids_alter hx.spans.nodup_ids hheader).mp hid with ⟨i, hi, rfl⟩ | hold
    · have hget := List.getElem?_eq_getElem hi
      refine .inr ⟨x, y, hplan, hread, i, rfl, hget.trans (congrArg some ?_)⟩
      exact (congrArg Node.statement (Tree.node_replace_new y s.tree parent header hget)).symm
    · exact .inl ⟨hold, Tree.read_replace_old y parent (hx.spans.lt_size hold) fun n =>
        n.statement.vars⟩

/-- The names in generated statements are those of their shorthand or drawn for it. -/
theorem Unfolds.named (h : Unfolds e s g header s' g') (hx : Expanding e t f s g (header :: rest))
    (he : e.grammar = .builtin) {named : String → Prop}
    (hfresh : s'.names = s.names.fresh.2 → named s.names.fresh.1)
    (hold : ∀ id ∈ g.ids, ∀ v ∈ (s.node id).statement.vars, named v.value) :
    ∀ id ∈ g'.ids, ∀ v ∈ (s'.node id).statement.vars, named v.value := by
  intro id hid v hv
  rcases h.node_cases hx hid with ⟨hmem, hvars⟩ | ⟨x, y, hplan, hread, i, -, hget⟩
  · exact hold id hmem v (hvars ▸ hv)
  · obtain ⟨hmem, hpending⟩ := hx.waiting header (by simp)
    exact hread.named hplan he ((hx.prepared header).isCut he hpending) hfresh (hold header hmem) _
      (List.mem_of_getElem? hget) v hv

theorem Taken.step (hs : Taken s g) (h : Unfolds e s g header s' g')
    (hx : Expanding e t f s g (header :: rest)) (he : e.grammar = .builtin) : Taken s' g' := by
  refine h.named hx he (fun hnames => ?_) fun id hid v hv => h.used_subset (hs id hid v hv)
  rw [hnames]
  exact NameSupply.mem_used_fresh.mpr (.inl rfl)

/-! ## The names of loops -/

/-- The variable was made for the loop `head`: among these nodes, only those that stand for the loop
have it. -/
structure Owns (s : Session) (ids : List NodeId) (head : NodeId) (name : String) : Prop where
  drawn : ∃ n, name = iteratorName n
  retired : (s.node head).origin = .header
  loop : (s.node head).statement.form.isLoopShorthand = true
  only : ∀ id ∈ ids, ∀ t ∈ (s.node id).statement.vars, t.value = name →
    (s.node id).origin = .expanded ∧ (s.node id).header = some head

/-- A new node stands for the shorthand that is expanded. -/
theorem Unfolds.of_size_le (h : Unfolds e s g header s' g')
    (hx : Expanding e t f s g (header :: rest)) (hid : id ∈ g'.ids) (hsize : s.tree.size ≤ id) :
    (s'.node id).origin = .expanded ∧
      (s'.node id).header = some header ∧ (s'.node header).origin = .header := by
  have hold : id ∉ g.ids := fun hmem => Nat.not_lt.mpr hsize (hx.spans.lt_size hmem)
  have hheader := (hx.waiting header (by simp)).1
  cases h with
  | reported p _ => exact absurd hid hold
  | @replaced _ _ y _ _ parent _ =>
    obtain ⟨i, hi, rfl⟩ := ((y.mem_ids_alter hx.spans.nodup_ids hheader).mp hid).resolve_right hold
    have hnode := Tree.node_replace_new y s.tree parent header (List.getElem?_eq_getElem hi)
    have hlt : header < s.tree.size := hx.spans.lt_size hheader
    exact ⟨congrArg Node.origin hnode, congrArg Node.header hnode,
      congrArg Node.origin (Tree.node_replace_header y parent hlt)⟩

/-- What does not depend on the kind of a node stays the same. -/
theorem Unfolds.read_eq_of_retired (h : Unfolds e s g header s' g') (hid : id < s.tree.size)
    {α : Type} (read : Node → α) (hread : ∀ n : Node, read n.unlinked = read n := by intro; rfl)
    (herror : ∀ n : Node, read { n with hasError := true } = read n := by intro; rfl)
    (hretired : ∀ n : Node, read n.retired = read n := by intro; rfl) :
    read (s'.node id) = read (s.node id) := by
  cases h with
  | reported p _ => exact Tree.read_modify s.tree header id read herror
  | @replaced _ _ y _ _ parent _ => exact Tree.read_replace_old y parent hid read hread hretired

/-- A name that a loop has for itself stays so while another shorthand is expanded. -/
theorem Owns.step {head : NodeId} {name : String} (ho : Owns s g.ids head name)
    (htaken : name ∈ s.names.used) (h : Unfolds e s g header s' g')
    (hx : Expanding e t f s g (header :: rest)) (he : e.grammar = .builtin) :
    Owns s' g'.ids head name := by
  obtain ⟨hmem, hpending⟩ := hx.waiting header (by simp)
  have hsource : (s.node header).origin = .source := origin_of_pending hpending
  have hlt : ∀ {j}, j ∈ g.ids → j < s.tree.size := fun hj => hx.spans.lt_size hj
  have hhead : head < s.tree.size := by
    by_contra hge
    have hdefault : s.node head = default := Tree.node_of_size_le (Nat.le_of_not_lt hge)
    have hretired := ho.retired
    rw [hdefault] at hretired
    cases hretired
  have hne : head ≠ header := by
    rintro rfl
    cases hsource.symm.trans ho.retired
  refine ⟨ho.drawn, ?_, ?_, fun id hid v hv hname => ?_⟩
  · rw [h.read_eq hhead hne Node.origin]
    exact ho.retired
  · rw [h.read_eq hhead hne Node.statement]
    exact ho.loop
  · rcases h.node_cases hx hid with ⟨hold, hvars⟩ | ⟨x, y, hplan, hread, i, -, hget⟩
    · obtain ⟨horigin, hfrom⟩ := ho.only id hold v (hvars ▸ hv) hname
      have hidne : id ≠ header := by
        rintro rfl
        cases hsource.symm.trans horigin
      rw [h.read_eq (hlt hold) hidne Node.origin,
        h.read_eq (hlt hold) hidne Node.header]
      exact ⟨horigin, hfrom⟩
    · -- The shorthand does not have the name, and the name that it draws was not taken.
      have hother := hread.named (P := (· ≠ name)) hplan he
        ((hx.prepared header).isCut he hpending) ?_ ?_ _ (List.mem_of_getElem? hget) v hv
      · exact absurd hname hother
      · rintro - rfl
        exact s.names.fresh_notMem htaken
      · intro w hw hc
        have horigin := (ho.only header hmem w hw hc).1
        cases hsource.symm.trans horigin

/-- The name that a loop draws is its own. -/
theorem Unfolds.owns_fresh (h : Unfolds e s g header s' g')
    (hx : Expanding e t f s g (header :: rest)) (htaken : Taken s g) {x : Expansion}
    (hplan : (s.node header).statement.plan s.names = .ok (x, s'.names))
    (hfresh : s'.names = s.names.fresh.2) (hretired : (s'.node header).origin = .header) :
    Owns s' g'.ids header s.names.fresh.1 := by
  obtain ⟨hmem, -⟩ := hx.waiting header (by simp)
  refine ⟨⟨_, rfl⟩, hretired, ?_, fun id hid v hv hname => ?_⟩
  · have hlt : header < s.tree.size := hx.spans.lt_size hmem
    have hform : (s'.node header).statement.form = (s.node header).statement.form :=
      h.read_eq_of_retired hlt fun n => n.statement.form
    rw [hform]
    exact (Statement.plans_of_plan hplan).isLoopShorthand_of_fresh hfresh
  · rcases h.node_cases hx hid with ⟨hold, hvars⟩ | ⟨_, _, -, -, i, rfl, -⟩
    · exact absurd (hname ▸ htaken id hold v (hvars ▸ hv)) s.names.fresh_notMem
    · obtain ⟨horigin, hfrom, -⟩ := h.of_size_le hx hid (Nat.le_add_right _ _)
      exact ⟨horigin, hfrom⟩

end

end Session

end GameScript
