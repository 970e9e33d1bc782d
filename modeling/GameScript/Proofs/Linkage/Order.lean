import GameScript.Linkage.Destinations
import GameScript.Proofs.Linkage.Indices

/-!
# Places and numbers

In the order of execution every place stands for a number: how many executed nodes come before it.
The first numbered node at or after a place has that number, or the script ends with it
(`targetIndex?_targetFrom`). So the number that a target stands for is told by a place.
-/

namespace GameScript

namespace Order

/-! ## Places -/

theorem size_record (entries : List (NodeId × Nat)) (places : Array Nat) :
    (entries.foldl (fun places (id, place) => places.setIfInBounds id place) places).size =
      places.size := by
  induction entries generalizing places with
  | nil => rfl
  | cons entry rest ih =>
    rw [List.foldl_cons, ih]
    simp

/-- The place of a node stays as it is while the places of others are recorded. -/
theorem getElem?_record {id : NodeId} {entries : List (NodeId × Nat)}
    (h : ∀ entry ∈ entries, entry.1 ≠ id) (places : Array Nat) :
    (entries.foldl (fun places (id, place) => places.setIfInBounds id place) places)[id]? =
      places[id]? := by
  induction entries generalizing places with
  | nil => rfl
  | cons entry rest ih =>
    rw [List.foldl_cons, ih fun other hother => h other (by simp [hother])]
    exact Array.getElem?_setIfInBounds_ne (h entry (by simp))

theorem getD_placesOf {size : Nat} {a b : List NodeId} {id : NodeId} (hid : id < size)
    (hnot : id ∉ b) (default : Nat) : (placesOf size (a ++ id :: b)).getD id default =
      a.length := by
  rw [Array.getD_eq_getD_getElem?, placesOf, List.zipIdx_append, List.foldl_append,
    List.zipIdx_cons, List.foldl_cons, getElem?_record]
  · rw [Array.getElem?_setIfInBounds_self_of_lt]
    · simp
    · rw [size_record, Array.size_replicate]
      exact hid
  · intro entry hentry
    rintro rfl
    exact hnot (List.fst_mem_of_mem_zipIdx hentry)

/-- The place of a node is the number of nodes before it. -/
theorem place_of {t : Tree} {a b : List NodeId} {id : NodeId} (horder : t.preorder = a ++ id :: b)
    (hid : id < t.size) (hnodup : t.preorder.Nodup) : (Order.of t).place id = a.length := by
  have hnot : id ∉ b := by
    rw [horder, List.nodup_append] at hnodup
    exact (List.nodup_cons.mp hnodup.2.1).1
  simp only [place, Order.of, horder]
  exact getD_placesOf hid hnot _

/-! ## What comes next -/

theorem head?_upcomingOf (t : Tree) (nodes : List NodeId) :
    (upcomingOf t nodes).head?.join = nodes.find? fun id => (t.node id).index.isSome := by
  induction nodes with
  | nil => rfl
  | cons id rest ih =>
    simp only [upcomingOf, List.foldr_cons, List.head?_cons, Option.join_some, List.find?_cons]
    cases hid : (t.node id).index.isSome with
    | true => rfl
    | false => exact ih

theorem getElem?_upcomingOf (t : Tree) (nodes : List NodeId) (k : Nat) :
    ((upcomingOf t nodes)[k]?).join = (nodes.drop k).find? fun id => (t.node id).index.isSome := by
  induction nodes generalizing k with
  | nil =>
    cases k with
    | zero => rfl
    | succ k => rfl
  | cons id rest ih =>
    cases k with
    | zero => rw [← List.head?_eq_getElem?, head?_upcomingOf, List.drop_zero]
    | succ k =>
      simp only [upcomingOf, List.foldr_cons, List.getElem?_cons_succ, List.drop_succ_cons]
      exact ih k

/-- A place leads to the first numbered node at or after it. -/
theorem targetFrom_of (t : Tree) (k : Nat) : (Order.of t).targetFrom k =
      ((t.preorder.drop k).find? fun id => (t.node id).index.isSome).elim .endOfScript .node := by
  simp only [targetFrom, Order.of, List.getElem?_toArray, getElem?_upcomingOf]
  cases (t.preorder.drop k).find? fun id => (t.node id).index.isSome with
  | none => rfl
  | some id => rfl

end Order

namespace Session

def number? (s : Session) (target : Target) : Option Nat := (s.targetIndex? target).map UInt16.toNat

namespace Numbered

variable {s : Session}

theorem lt_size (h : s.Numbered) {l : List NodeId} (hl : l.Sublist s.tree.preorder) :
    s.tree.liveCount l < UInt16.size := by
  have hle : s.tree.liveCount l ≤ s.tree.liveCount s.tree.preorder := hl.countP_le
  have hlimit := h.limit
  rw [h.count] at hlimit
  have hindexLimit : indexLimit < UInt16.size := by decide
  exact Nat.lt_of_le_of_lt (Nat.le_trans hle hlimit) hindexLimit

/-- An executed node has the number of executed nodes before it. -/
theorem number?_node (h : s.Numbered) {a b : List NodeId} {id : NodeId}
    (horder : s.tree.preorder = a ++ id :: b) (hlive : (s.node id).isLive = true) :
    s.number? (.node id) = some (s.tree.liveCount a) := by
  have hlt : s.tree.liveCount a < UInt16.size :=
    h.lt_size (by rw [horder]; exact List.sublist_append_left _ _)
  have hindex := h.index a id b horder
  rw [hlive, if_pos rfl] at hindex
  simp only [number?, targetIndex?, hindex, Option.map_some]
  rw [UInt16.toNat_ofNat_of_lt' hlt]

theorem index_isSome (h : s.Numbered) {id : NodeId} (hid : id ∈ s.tree.preorder) :
    (s.node id).index.isSome = (s.node id).isLive := by
  obtain ⟨a, b, horder⟩ := List.append_of_mem hid
  rw [h.index a id b horder]
  cases (s.node id).isLive <;> rfl

/-- Nodes without a number are not executed. -/
theorem liveCount_eq_zero (h : s.Numbered) {l : List NodeId} (hl : l ⊆ s.tree.preorder)
    (hnone : ∀ id ∈ l, (s.node id).index.isSome = false) : s.tree.liveCount l = 0 := by
  rw [Tree.liveCount, List.countP_eq_zero]
  intro id hid
  have hdead := (h.index_isSome (hl hid)).symm.trans (hnone id hid)
  exact Bool.eq_false_iff.mp hdead

/-- A place stands for the number of executed nodes before it. -/
theorem number?_targetFrom (h : s.Numbered) (k : Nat) :
    s.number? ((Order.of s.tree).targetFrom k) =
      some (s.tree.liveCount (s.tree.preorder.take k)) := by
  have hsub : s.tree.preorder.drop k ⊆ s.tree.preorder := List.drop_subset _ _
  rw [Order.targetFrom_of]
  cases hfind : (s.tree.preorder.drop k).find? fun id => (s.tree.node id).index.isSome with
  | none =>
    -- Nothing executed is left, so that all executed nodes come before the place.
    rw [List.find?_eq_none] at hfind
    have hdead := h.liveCount_eq_zero hsub fun id hid => Bool.eq_false_iff.mpr (hfind id hid)
    have hcount : s.standardCount = s.tree.liveCount (s.tree.preorder.take k) := by
      rw [h.count, ← Nat.add_zero (s.tree.liveCount (s.tree.preorder.take k)), ← hdead]
      simp only [Tree.liveCount]
      rw [← List.countP_append, List.take_append_drop]
    have hlt : s.tree.liveCount (s.tree.preorder.take k) < UInt16.size :=
      h.lt_size (List.take_sublist _ _)
    simp only [Option.elim_none, number?, targetIndex?, word16?, hcount, if_pos hlt,
      Option.map_some]
    rw [UInt16.toNat_ofNat_of_lt' hlt]
  | some id =>
    obtain ⟨hsome, c, d, hdrop, hc⟩ := List.find?_eq_some_iff_append.mp hfind
    rw [hdrop] at hsub
    have horder : s.tree.preorder = (s.tree.preorder.take k ++ c) ++ id :: d := by
      rw [List.append_assoc, ← hdrop, List.take_append_drop]
    have hlive : (s.node id).isLive = true := (h.index_isSome (hsub (by simp))).symm.trans hsome
    have hdead : s.tree.liveCount c = 0 := by
      refine h.liveCount_eq_zero (fun j hj => hsub (by simp [hj])) fun j hj => ?_
      have hnone := hc j hj
      rw [Bool.not_eq_true'] at hnone
      exact hnone
    rw [Option.elim_some, h.number?_node horder hlive, Tree.liveCount, List.countP_append]
    simpa [Tree.liveCount] using hdead

end Numbered

end Session

end GameScript
