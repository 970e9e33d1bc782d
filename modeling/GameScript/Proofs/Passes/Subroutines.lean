import GameScript.Analysis.Subroutines
import GameScript.Proofs.Passes.Analysis

/-!
# Subroutines come to an end

What the check of subroutines guarantees if it reports nothing: some command that ends a subroutine
stands outside of all blocks behind every label that is defined there
(`exists_end_of_checkSubroutines`).
-/

namespace GameScript

namespace Node

def definesLabel (n : Node) : Bool := n.is FormId.defineLabel

def endsCourse (n : Node) : Bool :=
  n.is FormId.endsub || n.is FormId.leaveScript || n.is FormId.gotoLabel

theorem definesLabel_congr {n m : Node} (h : n.statement = m.statement) :
    n.definesLabel = m.definesLabel := by
  simp only [definesLabel, is, h]

theorem endsCourse_congr {n m : Node} (h : n.statement = m.statement) :
    n.endsCourse = m.endsCourse := by
  simp only [endsCourse, is, h]

theorem definesLabel_of_commented {n : Node} (h : n.statement.commented = true) :
    n.definesLabel = false := by
  simp [definesLabel, is, h]

theorem definesLabel_of_endsCourse {n : Node} (h : n.endsCourse = true) :
    n.definesLabel = false := by
  simp only [endsCourse, is, Bool.or_eq_true, Bool.and_eq_true, beq_iff_eq] at h
  have hform : n.statement.form ≠ FormId.defineLabel := by
    rcases h with (⟨-, h⟩ | ⟨-, h⟩) | ⟨-, h⟩ <;> rw [h] <;> decide
  simp [definesLabel, is, hform]

end Node

namespace Tree

/-- A command that ends a subroutine stands behind all labels of the row. -/
def Ends (t : Tree) (row : List NodeId) : Prop :=
  ∃ a x b, row = a ++ x :: b ∧ (t.node x).endsCourse = true ∧
    ∀ d ∈ b, (t.node d).definesLabel = false

theorem Ends.snoc {t : Tree} {row : List NodeId} (h : t.Ends row) {id : NodeId}
    (hid : (t.node id).definesLabel = false) : t.Ends (row ++ [id]) := by
  obtain ⟨a, x, b, rfl, hx, hb⟩ := h
  refine ⟨a, x, b ++ [id], by simp, hx, fun d hd => ?_⟩
  rcases List.mem_append.mp hd with hd | hd
  · exact hb d hd
  · rw [List.mem_singleton.mp hd]
    exact hid

theorem ends_snoc_self {t : Tree} (row : List NodeId) {id : NodeId}
    (hid : (t.node id).endsCourse = true) :
    t.Ends (row ++ [id]) := ⟨row, id, [], rfl, hid, by simp⟩

end Tree

/-! ## Trees of the same structure -/

namespace Tree.Akin

variable {t u : Tree}

theorem calledLabels_eq (h : t.Akin u) : Session.calledLabels t = Session.calledLabels u := by
  simp only [Session.calledLabels, h.walk_eq, h.is_eq, h.label?_eq]

theorem pass_eq (h : t.Akin u) : Session.Course.pass t = Session.Course.pass u := by
  funext called c id
  simp only [Session.Course.pass, Session.Course.endsubs, h.walk_eq, h.is_eq, h.commented_eq,
    h.label?_eq]

end Tree.Akin

/-! ## The pass -/

def Tree.course (t : Tree) : Session.Course :=
  ((t.children root).foldl (Session.Course.pass t (Session.calledLabels t)) {}).finish

def Tree.subroutineReports (t : Tree) : List Diagnostic :=
  (t.course.unterminated.reverse.map fun id =>
      (t.node id).diagnose (.subroutineUnterminated ((t.node id).statement.label?.getD ""))) ++
    t.course.stray.reverse.map fun id => (t.node id).diagnose .endsubOutsideSubroutine

theorem Tree.Alike.subroutineReports_eq {t u : Tree} (h : t.Alike u) :
    t.subroutineReports = u.subroutineReports := by
  simp only [subroutineReports, course, h.children_eq, h.pass_eq, h.calledLabels_eq, Node.diagnose,
    h.statement_eq]

namespace Session

def calledLabel? (n : Node) : Option String :=
  if n.is FormId.gosub then n.statement.label? else none

/-- The label of each call is called. -/
theorem contains_calledLabels {t : Tree} {id : NodeId} (hid : id ∈ t.walk .depth Tree.root)
    {label : String} (hlabel : calledLabel? (t.node id) = some label) :
    (calledLabels t).contains label = true := by
  have hfold : ∀ (labels : List String) (called : Std.TreeSet String),
      labels.foldl Std.TreeSet.insert called = called.insertMany labels := by
    intro labels
    induction labels with
    | nil => exact fun called => Std.TreeSet.insertMany_nil.symm
    | cons other rest ih => exact fun called => (ih _).trans Std.TreeSet.insertMany_cons.symm
  have hcalled : calledLabels t = ((t.walk .depth Tree.root).filterMap fun j =>
      calledLabel? (t.node j)).foldl
      Std.TreeSet.insert ∅ := by
    rw [List.foldl_filterMap, calledLabels]
    congr 1
    funext called j
    unfold calledLabel?
    split <;> simp_all only
  rw [hcalled, hfold, Std.TreeSet.contains_insertMany_list, Bool.or_eq_true, List.contains_iff_mem]
  exact .inr (List.mem_filterMap.mpr ⟨id, hid, hlabel⟩)

namespace Course

variable {t : Tree} {called : Std.TreeSet String}

/-- What is known after a row, as long as no subroutine runs into what follows it: before the first
subroutine no label of the row is called, and a subroutine that has come to its end has done so
behind all labels of the row. -/
structure Follows (t : Tree) (called : Std.TreeSet String) (row : List NodeId) (c : Course) :
    Prop where
  before : c.current = none → ∀ d ∈ row, (t.node d).definesLabel = true →
    called.contains ((t.node d).statement.label?.getD "") = false
  ended : ∀ start, c.current = some (start, true) → t.Ends row

theorem Follows.pass {row : List NodeId} {c : Course} (h : Follows t called row c) (id : NodeId) :
    Follows t called (row ++ [id]) (c.pass t called id) := by
  -- A node that defines no label tells nothing new about the labels of the row.
  have hother : (t.node id).definesLabel = false → c.current = none → ∀ d ∈ row ++ [id],
      (t.node d).definesLabel = true →
      called.contains ((t.node d).statement.label?.getD "") = false := by
    intro hid hcurrent d hd hdefines
    rcases List.mem_append.mp hd with hd | hd
    · exact h.before hcurrent d hd hdefines
    · rw [List.mem_singleton.mp hd, hid] at hdefines
      cases hdefines
  by_cases hcommented : (t.node id).statement.commented = true
  · have hid := Node.definesLabel_of_commented hcommented
    rw [Course.pass, if_pos hcommented]
    exact ⟨hother hid, fun start hstart => (h.ended start hstart).snoc hid⟩
  · by_cases hdefines : (t.node id).is FormId.defineLabel = true
    · rw [Course.pass, if_neg hcommented, if_pos hdefines, passLabel]
      split
      · exact ⟨by simp, by simp⟩
      · next hcalled =>
        refine ⟨fun hcurrent d hd hd' => ?_, fun start hstart => ?_⟩
        · rcases List.mem_append.mp hd with hd | hd
          · exact h.before (Option.map_eq_none_iff.mp hcurrent) d hd hd'
          · rw [List.mem_singleton.mp hd]
            exact Bool.not_eq_true _ ▸ hcalled
        · obtain ⟨current, -, hcurrent⟩ := Option.map_eq_some_iff.mp hstart
          cases (Prod.mk.inj hcurrent).2
    · have hid : (t.node id).definesLabel = false := Bool.not_eq_true _ ▸ hdefines
      rw [Course.pass, if_neg hcommented, if_neg hdefines]
      cases hcurrent : c.current with
      | none => exact ⟨fun _ => hother hid hcurrent, fun start hstart => (by cases hstart)⟩
      | some current =>
        refine ⟨fun hnone => (by cases hnone), fun start hstart => ?_⟩
        obtain ⟨rfl, hended⟩ := Prod.mk.inj (Option.some.inj hstart)
        rcases Bool.or_eq_true_iff.mp hended with hended | hends
        · exact (h.ended _ (hcurrent.trans (by rw [← hended]))).snoc hid
        · exact Tree.ends_snoc_self row hends

theorem Follows.foldl {row : List NodeId} {c : Course} (h : Follows t called row c)
    (more : List NodeId) :
    Follows t called (row ++ more) (more.foldl (Course.pass t called) c) := by
  induction more generalizing row c with
  | nil =>
    rw [List.append_nil]
    exact h
  | cons id more ih =>
    rw [List.append_cons]
    exact ih (h.pass id)

end Course

/-- What the check reports: the subroutines that run on, then the ends without a subroutine. -/
theorem checkSubroutines_log (s : Session) :
    s.checkSubroutines.log.toList = s.log.toList ++ s.tree.subroutineReports := by
  have hfirst : ∀ (problem : NodeId → Problem) (ids : List NodeId) (s : Session),
      s.tree.Alike (ids.foldl (fun s id => s.report id (problem id)) s).tree := fun problem ids s =>
    (Analyses.foldl (P := fun _ => True) (fun s id => .report s id fun _ _ => trivial) ids s).alike
  unfold checkSubroutines
  dsimp only
  rw [foldl_report_log (hfirst _ _ s) (fun id => id) fun _ => .endsubOutsideSubroutine,
    foldl_report_log (.refl s.tree) (fun id => id) fun id =>
      .subroutineUnterminated ((s.tree.node id).statement.label?.getD ""), List.append_assoc]
  rfl

/-- If nothing is reported about subroutines and some label outside of all blocks is called, then a
command that ends a subroutine stands there behind all labels. -/
theorem ends_of_checkSubroutines {s : Session} (hlog : s.tree.subroutineReports = [])
    {id d : NodeId} {label : String} (hid : id ∈ s.tree.walk .depth Tree.root)
    (hcalls : calledLabel? (s.tree.node id) = some label)
    (hd : d ∈ (s.tree.children Tree.root).toList) (hdefines : (s.tree.node d).definesLabel = true)
    (hlabel : (s.tree.node d).statement.label? = some label) :
    s.tree.Ends (s.tree.children Tree.root).toList := by
  have hunterminated :=
    List.reverse_eq_nil_iff.mp (List.map_eq_nil_iff.mp (List.append_eq_nil_iff.mp hlog).1)
  rw [Tree.course, ← Array.foldl_toList] at hunterminated
  have hstart : Course.Follows s.tree (calledLabels s.tree) [] {} := ⟨by simp, by simp⟩
  have hfollows := hstart.foldl (s.tree.children Tree.root).toList
  rw [List.nil_append] at hfollows
  generalize (s.tree.children Tree.root).toList.foldl
    (Course.pass s.tree (calledLabels s.tree)) {} = c
    at hunterminated hfollows
  cases hcurrent : c.current with
  | none =>
    have hnot := hfollows.before hcurrent d hd hdefines
    rw [hlabel, Option.getD_some, contains_calledLabels hid hcalls] at hnot
    cases hnot
  | some current =>
    obtain ⟨start, ended⟩ := current
    cases ended with
    | true => exact hfollows.ended start hcurrent
    | false =>
      rw [Course.finish, hcurrent] at hunterminated
      cases hunterminated

end Session

end GameScript
