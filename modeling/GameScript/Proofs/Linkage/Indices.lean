import GameScript.Proofs.Passes.Analysis

/-!
# Numbers of executed commands

`assignIndices` numbers the executed nodes in the order of execution. Each node gets the number of
executed nodes before it as long as there are numbers, and the first node without one is reported
(`assignIndices_indexed`). If nothing is reported, all executed nodes are numbered
(`assignIndices_numbered`).
-/

namespace GameScript

namespace Tree

def liveCount (t : Tree) (ids : List NodeId) : Nat := ids.countP fun id => (t.node id).isLive

def liveNodes (t : Tree) (ids : List NodeId) : List NodeId :=
  ids.filter fun id => (t.node id).isLive

theorem length_liveNodes (t : Tree) (ids : List NodeId) :
    (t.liveNodes ids).length = t.liveCount ids :=
  List.countP_eq_length_filter.symm

theorem liveCount_concat (t : Tree) (ids : List NodeId) (id : NodeId) :
    t.liveCount (ids ++ [id]) = t.liveCount ids + if (t.node id).isLive then 1 else 0 := by
  simp only [liveCount, List.countP_append, List.countP_singleton]

theorem liveNodes_concat (t : Tree) (ids : List NodeId) (id : NodeId) :
    t.liveNodes (ids ++ [id]) = t.liveNodes ids ++ if (t.node id).isLive then [id] else [] := by
  simp only [liveNodes, List.filter_append, List.filter_cons, List.filter_nil]

theorem Alike.liveCount_eq {t u : Tree} (h : t.Alike u) : t.liveCount = u.liveCount := by
  funext ids
  simp only [liveCount, h.isLive_eq]

theorem Alike.liveNodes_eq {t u : Tree} (h : t.Alike u) : t.liveNodes = u.liveNodes := by
  funext ids
  simp only [liveNodes, h.isLive_eq]

def shortage (t : Tree) (ids : List NodeId) : List Diagnostic :=
  ((t.liveNodes ids)[Session.indexLimit]?).toList.map fun id =>
    .of (.scriptTooLong Session.indexLimit) (t.node id).statement.line (t.node id).statement.display

theorem shortage_concat (t : Tree) (ids : List NodeId) (id : NodeId) :
    t.shortage (ids ++ [id]) = t.shortage ids ++
      if (t.node id).isLive ∧ t.liveCount ids = Session.indexLimit then
        [.of (.scriptTooLong Session.indexLimit) (t.node id).statement.line
          (t.node id).statement.display]
      else [] := by
  unfold shortage
  rw [liveNodes_concat]
  cases hlive : (t.node id).isLive with
  | false => simp
  | true =>
    have hnone : t.liveCount ids ≤ Session.indexLimit →
        (t.liveNodes ids)[Session.indexLimit]? = none := fun hle =>
      List.getElem?_eq_none (by rwa [length_liveNodes])
    rw [if_pos rfl, List.getElem?_append, length_liveNodes]
    rcases Nat.lt_trichotomy Session.indexLimit (t.liveCount ids) with hlt | heq | hgt
    · rw [if_pos hlt, if_neg fun hc => Nat.ne_of_gt hlt hc.2, List.append_nil]
    · rw [if_neg (Nat.not_lt.mpr (Nat.le_of_eq heq.symm)), if_pos ⟨rfl, heq.symm⟩,
        hnone (Nat.le_of_eq heq.symm), ← heq, Nat.sub_self]
      rfl
    · have hmissing : [id][Session.indexLimit - t.liveCount ids]? = none :=
        List.getElem?_eq_none (Nat.sub_pos_of_lt hgt)
      rw [if_neg (Nat.not_lt.mpr (Nat.le_of_lt hgt)), if_neg fun hc => Nat.ne_of_lt hgt hc.2,
        hmissing, hnone (Nat.le_of_lt hgt)]
      rfl

/-- If nothing is reported, there are enough numbers. -/
theorem liveCount_le_of_shortage {t : Tree} {ids : List NodeId} (h : t.shortage ids = []) :
    t.liveCount ids ≤ Session.indexLimit := by
  rw [shortage, List.map_eq_nil_iff, Option.toList_eq_nil_iff, List.getElem?_eq_none_iff,
    length_liveNodes] at h
  exact h

theorem Alike.shortage_eq {t u : Tree} (h : t.Alike u) (ids : List NodeId) :
    t.shortage ids = u.shortage ids := by
  simp only [shortage, h.statement_eq, h.liveNodes_eq]

end Tree

namespace Session

/-! ## One node -/

/-- What the numbering of a node does: a node that is not executed is passed over, others get the
next number, and the first one that none is left for is reported. -/
theorem numberNode_cases (n : Numbering) (id : NodeId) :
    ((n.session.node id).isLive = false ∧ numberNode n id = n) ∨
    ((n.session.node id).isLive = true ∧ n.next < indexLimit ∧ numberNode n id =
      { n with
        session := n.session.modify id fun m => { m with index := some (UInt16.ofNat n.next) }
        next := n.next + 1 }) ∨
    ((n.session.node id).isLive = true ∧ indexLimit ≤ n.next ∧ n.reported = true ∧
      numberNode n id = n) ∨
    ((n.session.node id).isLive = true ∧ indexLimit ≤ n.next ∧ n.reported = false ∧
      numberNode n id =
      { n with session := n.session.report id (.scriptTooLong indexLimit), reported := true }) := by
  unfold numberNode
  split
  · next hdead => exact .inl ⟨by simpa using hdead, rfl⟩
  · next hlive =>
    have hlive : (n.session.node id).isLive = true := by simpa using hlive
    split
    · next hlt => exact .inr (.inl ⟨hlive, hlt, rfl⟩)
    · next hle =>
      split
      · next hreported => exact .inr (.inr (.inl ⟨hlive, Nat.le_of_not_lt hle, hreported, rfl⟩))
      · next hreported =>
          exact .inr (.inr (.inr ⟨hlive, Nat.le_of_not_lt hle, by simpa using hreported, rfl⟩))

variable {P : Diagnostic → Prop} {id : NodeId} {s : Session}

/-- The lack of numbers is no problem of the block structure. -/
theorem numberNode_grows (hP : Pass.assignIndices.Reports P)
    (n : Numbering) (id : NodeId) : Grows P n.session (numberNode n id).session := by
  rcases numberNode_cases n id with ⟨-, heq⟩ | ⟨-, -, heq⟩ | ⟨-, -, -, heq⟩ | ⟨-, -, -, heq⟩ <;>
    rw [heq]
  · exact .of_eq rfl rfl
  · exact .modify _ _ (fun _ => ⟨rfl, rfl, rfl, rfl, rfl, rfl⟩) fun _ => rfl
  · exact .of_eq rfl rfl
  · exact .report _ _ fun line text => hP _ line text rfl

theorem index_numberNode_of_ne (n : Numbering) {j : NodeId} (h : id ≠ j) :
    ((numberNode n id).session.node j).index = (n.session.node j).index := by
  rcases numberNode_cases n id with ⟨-, heq⟩ | ⟨-, -, heq⟩ | ⟨-, -, -, heq⟩ | ⟨-, -, -, heq⟩ <;>
    rw [heq]
  · exact congrArg Node.index (Tree.node_modify_of_ne n.session.tree _ h)
  · exact congrArg Node.index (Tree.node_modify_of_ne n.session.tree _ h)

/-! ## All nodes -/

theorem foldl_numberNode_grows (hP : Pass.assignIndices.Reports P) (ids : List NodeId)
    (n : Numbering) :
    Grows P n.session (ids.foldl numberNode n).session := by
  induction ids generalizing n with
  | nil => exact .of_eq rfl rfl
  | cons id rest ih => exact (numberNode_grows hP n id).trans (ih _)

theorem assignIndices_grows (hP : Pass.assignIndices.Reports P) (s : Session) :
    Grows P s s.assignIndices :=
  (foldl_numberNode_grows hP s.tree.preorder { session := s }).trans (.of_eq rfl rfl)

/-- The numbering changes nothing but numbers and errors. -/
theorem read_numbering {α : Type} (read : Session → α)
    (hindex : ∀ s id i, read (s.modify id fun m => { m with index := i }) = read s)
    (hreport : ∀ s id p, read (s.report id p) = read s)
    (hcount : ∀ s count, read { s with standardCount := count } = read s) (s : Session) :
    read s.assignIndices = read s := by
  have hrun : ∀ (ids : List NodeId) (n : Numbering), read (ids.foldl numberNode n).session =
      read n.session := by
    intro ids
    induction ids with
    | nil => exact fun n => rfl
    | cons id rest ih =>
      intro n
      rw [List.foldl_cons, ih]
      rcases numberNode_cases n id with ⟨-, heq⟩ | ⟨-, -, heq⟩ | ⟨-, -, -, heq⟩ | ⟨-, -, -, heq⟩ <;>
        rw [heq]
      · exact hindex ..
      · exact hreport ..
  exact (hcount _ _).trans (hrun s.tree.preorder { session := s })

theorem read_assignIndices {α : Type} (read : Node → α)
    (hindex : ∀ m i, read { m with index := i } = read m)
    (herror : ∀ m, read { m with hasError := true } = read m) (s : Session) (j : NodeId) :
    read (s.assignIndices.node j) = read (s.node j) :=
  read_numbering (fun u => read (u.node j)) (fun u id _ =>
    Tree.read_modify u.tree id j read fun m => hindex m _)
    (fun u id _ => Tree.read_modify u.tree id j read herror) (fun _ _ => rfl) s

structure Counts (s : Session) (done : List NodeId) (n : Numbering) : Prop where
  alike : s.tree.Alike n.session.tree
  next : n.next = min (s.tree.liveCount done) indexLimit
  reported : n.reported = decide (indexLimit < s.tree.liveCount done)
  log : n.session.log.toList = s.log.toList ++ s.tree.shortage done

theorem Counts.nil (s : Session) : Counts s [] { session := s } where
  alike := .refl _
  next := rfl
  reported := rfl
  log := by simp [Tree.shortage, Tree.liveNodes]

theorem Counts.step {done : List NodeId} {n : Numbering} (h : Counts s done n) (id : NodeId) :
    Counts s (done ++ [id]) (numberNode n id) := by
  have hlive : (n.session.node id).isLive = (s.node id).isLive := (h.alike.isLive_eq id).symm
  have hstatement : (n.session.node id).statement = (s.node id).statement :=
    (h.alike.statement_eq id).symm
  have hcount : s.tree.liveCount (done ++ [id]) = s.tree.liveCount done + if (s.node id).isLive then
      1 else 0 :=
    s.tree.liveCount_concat done id
  have hnext := h.next
  have hreported := h.reported
  refine ⟨h.alike.trans (numberNode_grows (P := fun _ => True) (fun _ _ _ _ => trivial) n id).alike,
    ?_, ?_, ?_⟩
  · rw [hcount]
    rcases numberNode_cases n id with ⟨hl, heq⟩ | ⟨hl, hlt, heq⟩ | ⟨hl, hle, -, heq⟩ | ⟨hl, hle,
      -, heq⟩ <;>
      rw [hlive] at hl <;> simp only [heq, hl, if_true, Bool.false_eq_true, if_false] <;> omega
  · rw [hcount]
    rcases numberNode_cases n id with ⟨hl, heq⟩ | ⟨hl, hlt, heq⟩ | ⟨hl, hle, hr, heq⟩ | ⟨hl, hle,
      -, heq⟩ <;>
      rw [hlive] at hl <;> simp only [heq, hl, if_true, Bool.false_eq_true, if_false, Nat.add_zero]
    · exact hreported
    · rw [hreported, decide_eq_decide]
      omega
    · rw [hr] at hreported ⊢
      have hmore := of_decide_eq_true hreported.symm
      exact (decide_eq_true (Nat.lt_succ_of_lt hmore)).symm
    · exact (decide_eq_true (by omega)).symm
  · rw [Tree.shortage_concat, ← List.append_assoc, ← h.log]
    rcases numberNode_cases n id with ⟨hl, heq⟩ | ⟨hl, hlt, heq⟩ | ⟨hl, hle, hr, heq⟩ | ⟨hl, hle,
      hr, heq⟩ <;>
      rw [hlive] at hl <;> rw [heq]
    · rw [if_neg fun hc => Bool.false_ne_true (hl.symm.trans hc.1), List.append_nil]
    · rw [if_neg fun hc => by omega, List.append_nil]
      rfl
    · rw [hr] at hreported
      have hmore := of_decide_eq_true hreported.symm
      rw [if_neg fun hc => by omega, List.append_nil]
    · rw [hr] at hreported
      have hmore := of_decide_eq_false hreported.symm
      rw [if_pos ⟨hl, by omega⟩, show (s.tree.node id).statement = _ from hstatement.symm]
      simp [report]

/-- The numbering reports the first executed node that no number is left for. -/
theorem assignIndices_log (s : Session) :
    s.assignIndices.log.toList = s.log.toList ++ s.tree.shortage s.tree.preorder := by
  have hrun : ∀ (rest done : List NodeId) (n : Numbering), Counts s done n →
      Counts s (done ++ rest) (rest.foldl numberNode n) := by
    intro rest
    induction rest with
    | nil => exact fun done n h => (List.append_nil done).symm ▸ h
    | cons id rest ih => exact fun done n h => List.append_cons done id rest ▸ ih _ _ (h.step id)
  exact (hrun s.tree.preorder [] { session := s } (.nil s)).log

structure Numbers (s : Session) (done : List NodeId) (n : Numbering) :
    Prop extends Counts s done n where
  index : ∀ a id b, done = a ++ id :: b → (n.session.node id).index =
    if (s.node id).isLive ∧ s.tree.liveCount a < indexLimit then
      some (UInt16.ofNat (s.tree.liveCount a))
    else (s.node id).index
  other : ∀ id ∉ done, (n.session.node id).index = (s.node id).index

theorem Numbers.nil (s : Session) : Numbers s [] { session := s } where
  toCounts := .nil s
  index a id b h := by simp at h
  other _ _ := rfl

theorem Numbers.index_self {done : List NodeId} {n : Numbering} (h : Numbers s done n)
    (hid : id < s.tree.size) (hnot : id ∉ done) : ((numberNode n id).session.node id).index =
      if (s.node id).isLive ∧ s.tree.liveCount done < indexLimit then
        some (UInt16.ofNat (s.tree.liveCount done))
      else (s.node id).index := by
  have hlive : (n.session.node id).isLive = (s.node id).isLive := (h.alike.isLive_eq id).symm
  have hnext := h.next
  rcases numberNode_cases n id with ⟨hdead, heq⟩ | ⟨halive, hlt, heq⟩ | ⟨-, hle, -, heq⟩ | ⟨-, hle,
    -, heq⟩ <;> rw [heq]
  · rw [if_neg fun hc => by simp [hlive, hc.1] at hdead]
    exact h.other id hnot
  · have hcount : s.tree.liveCount done < indexLimit := by omega
    rw [if_pos ⟨hlive.symm.trans halive, hcount⟩]
    have hself : ((n.session.modify id fun m => { m with index := some (UInt16.ofNat n.next) }).node
      id).index =
        some (UInt16.ofNat n.next) :=
      congrArg Node.index (Tree.node_modify_self n.session.tree _ (h.alike.size ▸ hid))
    rw [hself, hnext, Nat.min_eq_left (Nat.le_of_lt hcount)]
  · rw [if_neg fun hc => by omega]
    exact h.other id hnot
  · rw [if_neg fun hc => by omega, ← h.other id hnot]
    exact Tree.read_modify n.session.tree id id Node.index fun _ => rfl

theorem Numbers.step {done : List NodeId} {n : Numbering} (h : Numbers s done n)
    (hid : id < s.tree.size) (hnot : id ∉ done) : Numbers s (done ++ [id]) (numberNode n id) := by
  refine ⟨h.toCounts.step id, ?_, ?_⟩
  · intro a j b hsplit
    rcases List.eq_nil_or_concat b with rfl | ⟨b, last, rfl⟩
    · obtain ⟨rfl, hj⟩ := List.append_inj' hsplit rfl
      obtain rfl := (List.cons.inj hj).1
      exact h.index_self hid hnot
    · have hsplit : done ++ [id] = (a ++ j :: b) ++ [last] := by simpa using hsplit
      obtain ⟨hdone, hlast⟩ := List.append_inj' hsplit rfl
      obtain rfl := (List.cons.inj hlast).1
      have hne : id ≠ j := by
        rintro rfl
        exact hnot (by simp [hdone])
      rw [index_numberNode_of_ne n hne]
      exact h.index a j b hdone
  · intro j hj
    simp only [List.mem_append, List.mem_singleton, not_or] at hj
    rw [index_numberNode_of_ne n (Ne.symm hj.2)]
    exact h.other j hj.1

structure Indexed (s : Session) : Prop where
  count : s.standardCount = min (s.tree.liveCount s.tree.preorder) indexLimit
  index : ∀ a id b, s.tree.preorder = a ++ id :: b → (s.node id).index =
    if (s.node id).isLive ∧ s.tree.liveCount a < indexLimit then
      some (UInt16.ofNat (s.tree.liveCount a)) else none

/-- The numbering gives executed nodes their numbers. -/
theorem assignIndices_indexed {f : Forest} (hf : s.tree.Spans f)
    (hfresh : ∀ id, (s.node id).index = none) :
    s.assignIndices.Indexed := by
  have hids : ∀ id ∈ s.tree.preorder, id < s.tree.size := by
    intro id hid
    rw [hf.preorder_eq] at hid
    exact hf.lt_size hid
  have hnodup : s.tree.preorder.Nodup := by
    rw [hf.preorder_eq]
    exact hf.nodup_ids
  have hrun : ∀ (rest done : List NodeId) (n : Numbering), s.tree.preorder = done ++ rest →
      Numbers s done n →
      Numbers s s.tree.preorder (rest.foldl numberNode n) := by
    intro rest
    induction rest with
    | nil =>
      intro done n hsplit h
      rwa [hsplit, List.append_nil]
    | cons id rest ih =>
      intro done n hsplit h
      have hnot : id ∉ done := by
        rw [hsplit] at hnodup
        exact fun hc => (List.nodup_append.mp hnodup).2.2 id hc id (by simp) rfl
      exact ih (done ++ [id]) _ (by simp [hsplit]) (h.step (hids id (by simp [hsplit])) hnot)
  have hnumbers := hrun s.tree.preorder [] { session := s } rfl (.nil s)
  have halike := (assignIndices_grows (P := fun _ => True) (fun _ _ _ _ => trivial) s).alike
  have horder : s.assignIndices.tree.preorder = s.tree.preorder := by
    rw [(hf.alike halike).preorder_eq, hf.preorder_eq]
  refine ⟨?_, fun a id b hsplit => ?_⟩
  · rw [horder, ← halike.liveCount_eq]
    exact hnumbers.next
  · rw [horder] at hsplit
    have hindex := hnumbers.index a id b hsplit
    rw [hfresh] at hindex
    have hlive : (s.assignIndices.node id).isLive = (s.node id).isLive := (halike.isLive_eq id).symm
    rw [← halike.liveCount_eq, hlive]
    exact hindex

structure Numbered (s : Session) : Prop where
  count : s.standardCount = s.tree.liveCount s.tree.preorder
  limit : s.standardCount ≤ indexLimit
  index : ∀ a id b, s.tree.preorder = a ++ id :: b →
    (s.node id).index = if (s.node id).isLive then some (UInt16.ofNat (s.tree.liveCount a))
      else none

/-- If there are enough numbers, all executed nodes have one. -/
theorem Indexed.numbered (h : s.Indexed) (hlimit : s.tree.liveCount s.tree.preorder ≤ indexLimit) :
    s.Numbered := by
  refine ⟨h.count.trans (Nat.min_eq_left hlimit), h.count ▸ Nat.min_le_right _ _,
    fun a id b hsplit => ?_⟩
  rw [h.index a id b hsplit]
  cases hlive : (s.node id).isLive with
  | false => simp
  | true =>
    have hcount : s.tree.liveCount a < s.tree.liveCount s.tree.preorder := by
      have halive : (s.tree.node id).isLive = true := hlive
      rw [hsplit]
      simp only [Tree.liveCount, List.countP_append, List.countP_cons, halive, if_true]
      omega
    rw [if_pos ⟨rfl, Nat.lt_of_lt_of_le hcount hlimit⟩, if_pos rfl]

/-- The numbering gives each executed node the number of executed nodes before it. -/
theorem assignIndices_numbered {f : Forest} (hf : s.tree.Spans f)
    (hfresh : ∀ id, (s.node id).index = none) (hlog : s.assignIndices.log = #[]) :
    s.assignIndices.Numbered ∧
    (∀ id, (s.assignIndices.node id).returnValue = (s.node id).returnValue) ∧
      ∀ id, (s.assignIndices.node id).jump = (s.node id).jump := by
  have hreport := assignIndices_log s
  rw [hlog] at hreport
  have hlimit := Tree.liveCount_le_of_shortage (List.append_eq_nil_iff.mp hreport.symm).2
  have halike := (assignIndices_grows (P := fun _ => True) (fun _ _ _ _ => trivial) s).alike
  refine ⟨(assignIndices_indexed hf hfresh).numbered ?_,
    read_assignIndices Node.returnValue (fun _ _ => rfl) (fun _ => rfl) s,
    read_assignIndices Node.jump (fun _ _ => rfl) (fun _ => rfl) s⟩
  rwa [(hf.alike halike).preorder_eq, ← hf.preorder_eq, ← halike.liveCount_eq]

end Session

end GameScript
