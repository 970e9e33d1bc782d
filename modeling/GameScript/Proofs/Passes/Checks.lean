import GameScript.Proofs.Linkage.Indices
import GameScript.Proofs.Passes.Constants
import GameScript.Proofs.Passes.Parameters
import GameScript.Proofs.Passes.Subroutines
import GameScript.Proofs.Shorthand.Expansion

/-!
# What the checks establish

A script that no check objects to is well built, its names are resolved and its commands are
numbered (`examined_of_log_empty`). The check of the block structure objects exactly to the scripts
that the grammar does not derive (`logic_diagnostics_iff`), and what is wrong with single lines
stands in the log between what the other passes report (`examine_log`). After the names were
identified, the log is a matter of the tree (`log_examine`).
-/

namespace GameScript

/-! ## Lines and their tree -/

variable {f : Forest} {t : Tree}

/-- The tree of a script is well built if it is sound. -/
theorem block_of_sound {rs : List Reading} (hregular : ∀ r ∈ rs, r.statement.Regular)
    (hf : (Tree.nest rs).Spans f) (hs : Sound (Tree.nest rs).part false false false f) :
    Derives false .script (rs.map fun r => r.statement.part) ∧
      Block (Tree.nest rs).part false false .script f := by
  obtain ⟨f', hf', htidy, hholds⟩ := nest_spans hregular
  obtain rfl := hf'.unique hf
  have hderives := hs.derives htidy
  rw [words_of_holds hholds] at hderives
  obtain ⟨f'', hf'', hblock⟩ := nest_block hregular hderives
  obtain rfl := hf''.unique hf
  exact ⟨hderives, hblock⟩

theorem block_of_derives {rs : List Reading} (hregular : ∀ r ∈ rs, r.statement.Regular)
    (hf : (Tree.nest rs).Spans f) (h : Derives false .script (rs.map fun r => r.statement.part)) :
    Block (Tree.nest rs).part false false .script f := by
  obtain ⟨f', hf', hblock⟩ := nest_block hregular h
  obtain rfl := hf'.unique hf
  exact hblock

theorem Statement.read_diagnostic_of_commented {g : Grammar} {v : Version} {number : Nat}
    {line : String} (h : (read g v number line).statement.commented = true) :
    (read g v number line).diagnostic = none := by
  rcases read_cases g v number line with hread | hread | hread | ⟨commented, r, -, hread⟩ <;>
    rw [hread] at h ⊢
  · cases h
  · obtain rfl : commented = true := h
    rfl

/-! ## Problems of blocks -/

/-- A node without a diagnostic that waits for no expansion belongs to no shorthand unless it was
generated. -/
theorem Node.Prepared.settled {e : Setting} {n : Node} (h : n.Prepared e)
    (hdiagnostic : n.diagnostic = none) (hpending : Session.isPendingShorthand n = false) :
    n.Settled := by
  intro hpart
  cases horigin : n.origin with
  | expanded => rfl
  | header => simp [Node.part, horigin] at hpart
  | hiddenJump => simp [Node.part, horigin] at hpart
  | source =>
    exfalso
    have hcommented : n.statement.commented = false := by
      by_contra hc
      rw [h.regular.commented (by simpa using hc)] at hpart
      cases hpart
    have hform : n.statement.form.isShorthand = true := by
      by_contra hc
      rw [Node.part, horigin] at hpart
      simp only [Statement.part] at hpart
      split at hpart <;> simp_all
    simp [Session.isPendingShorthand, horigin, hcommented, hdiagnostic, hform] at hpending

/-- A line that is commented out has no part in the structure. -/
theorem Tree.blockProblem?_of_commented {id : NodeId} (h : (t.node id).Regular)
    (hcommented : (t.node id).statement.commented = true) : t.blockProblem? id = none := by
  have hrole : t.role id = .idle := by
    rw [role_eq_role h, part, h.commented hcommented]
    rfl
  simp [blockProblem?, hrole]

theorem Tree.blockDiagnostic?_eq_none {id : NodeId} (h : (t.node id).Regular) :
    t.blockDiagnostic? id = none ↔ t.blockProblem? id = none := by
  unfold blockDiagnostic?
  split
  · next hcommented => simp [blockProblem?_of_commented h hcommented]
  · simp

/-- The check of the block structure is silent exactly on sound trees. -/
theorem Tree.blockDiagnostics_eq_nil (hf : t.Spans f) (hregular : ∀ id, (t.node id).Regular)
    (hsettled : ∀ id, (t.node id).Settled) (hroot : t.part root = .idle) :
    t.preorder.filterMap t.blockDiagnostic? = [] ↔ Sound t.part false false false f := by
  have hsound := sound_iff hf.row hregular hsettled hroot
  rw [hroot] at hsound
  simp only [List.any_cons, List.any_nil, hroot] at hsound
  rw [hf.preorder_eq, List.filterMap_eq_nil_iff]
  refine Iff.trans ?_ hsound
  exact forall₂_congr fun id _ => blockDiagnostic?_eq_none (hregular id)

def Tree.checkReports (e : Setting) (t : Tree) : List Diagnostic :=
  (t.preorder.flatMap fun id => (t.node id).complaints e) ++
    t.preorder.filterMap t.blockDiagnostic? ++
    t.subroutineReports ++ t.shortage t.preorder

namespace Session

/-! ## The checks together -/

def examine (e : Setting) (s : Session) : Session :=
  ((((s.identifyNames e).identifyConstants.checkParameters
    e).checkBlocks).checkSubroutines).assignIndices

theorem runPasses_eq (e : Setting) (s : Session) :
    s.runPasses e = (s.examine e).link >>= fun s => s.resolve >>= fun s => .ok s.emit := by
  simp only [runPasses, Pass.all, List.foldlM_cons, List.foldlM_nil, Pass.run, ok_bind, examine]
  rfl

theorem Analyses.checks {P : Diagnostic → Prop}
    (hP : ∀ pass : Pass, pass ≠ .assignIndices → pass.Reports P) (e : Setting) {s : Session}
    (hd : ∀ id d, (s.node id).diagnostic = some d → P d) : Analyses P s
      (((s.identifyNames e).identifyConstants.checkParameters e).checkBlocks).checkSubroutines := by
  have hnames := (Analyses.identifyNames (hP _ (by simp)) e s).trans (.identifyConstants _)
  have hparameters := hnames.trans (.checkParameters (hP _ (by simp)) e fun id d hid =>
    hd id d ((hnames.alike.node id).diagnostic.trans hid))
  exact (hparameters.trans (.checkBlocks (hP _ (by simp)) _)).trans
    (.checkSubroutines (hP _ (by simp)) _)

theorem checks (e : Setting) (s : Session) : Analyses (fun _ => True) s
    (((s.identifyNames e).identifyConstants.checkParameters e).checkBlocks).checkSubroutines :=
  .checks (fun _ _ _ _ _ _ => trivial) e fun _ _ _ => trivial

theorem examine_grows (e : Setting) (s : Session) : Grows (fun _ => True) s (s.examine e) :=
  (checks e s).toGrows.trans (assignIndices_grows (fun _ _ _ _ => trivial) _)

/-- After the check of parameters only errors, numbers and the log change. -/
theorem read_examine {β : Type} (read : Session → β)
    (hindex : ∀ s id i, read (s.modify id fun m => { m with index := i }) = read s)
    (hreport : ∀ s id p, read (s.report id p) = read s)
    (hcount : ∀ s count, read { s with standardCount := count } = read s) (e : Setting)
    (s : Session) :
    read (s.examine e) = read ((s.identifyNames e).identifyConstants.checkParameters e) := by
  rw [examine, read_numbering read hindex hreport hcount, read_checkSubroutines read hreport,
    read_checkBlocks read hreport]

/-- After the names were identified, only what is noted about constants changes the symbols. -/
theorem examine_names (e : Setting) (s : Session) :
    (s.examine e).symbols = (s.identifyNames e).identifyConstants.symbols ∧
      (s.examine e).labels = (s.identifyNames e).labels := by
  obtain ⟨hsymbols, hlabels⟩ := checkParameters_names e (s.identifyNames e).identifyConstants
  have hread :=
    read_examine (fun u => (u.symbols, u.labels)) (fun _ _ _ => rfl) (fun _ _ _ => rfl)
      (fun _ _ => rfl) e s
  rw [hsymbols, hlabels, labels_identifyConstants] at hread
  exact Prod.mk.inj hread

/-- What the first pass reports stays reported. -/
theorem identifyNames_grows (e : Setting) (s : Session) :
    Grows (fun _ => True) (s.identifyNames e) (s.examine e) := by
  have htrue : ∀ pass : Pass, pass.Reports fun _ => True := fun _ _ _ _ _ => trivial
  exact (((Analyses.identifyConstants _).trans (.checkParameters (htrue _) e fun _ _ _ =>
    trivial)).trans
    ((Analyses.checkBlocks (htrue _) _).trans (.checkSubroutines (htrue _) _))).toGrows.trans
      (assignIndices_grows (htrue _) _)

theorem log_examine (e : Setting) (s : Session) :
    (s.examine e).log.toList = (s.identifyNames e).log.toList ++ s.tree.checkReports e := by
  have htrue : ∀ pass : Pass, pass.Reports fun _ => True := fun _ _ _ _ _ => trivial
  have hnames : Analyses (fun _ => True) s (s.identifyNames e).identifyConstants :=
    (Analyses.identifyNames (htrue _) e s).trans (.identifyConstants _)
  have hparameters := hnames.trans (.checkParameters (htrue _) e fun _ _ _ => trivial)
  have hblocks := hparameters.trans (.checkBlocks (htrue _) _)
  have hsubroutines := hblocks.trans (.checkSubroutines (htrue _) _)
  have hcomplaints : ∀ id, ((s.identifyNames e).identifyConstants.node id).complaints e =
      (s.tree.node id).complaints e :=
    fun id => ((hnames.alike.node id).complaints_eq e).symm
  rw [examine, assignIndices_log, checkSubroutines_log, checkBlocks_log, checkParameters_log,
    log_identifyConstants, ← hnames.alike.preorder_eq, ← hparameters.alike.preorder_eq,
    ← hsubroutines.alike.preorder_eq,
    ← hparameters.alike.blockDiagnostic?_eq, ← hblocks.alike.subroutineReports_eq,
    ← hsubroutines.alike.shortage_eq,
    Tree.checkReports]
  simp only [hcomplaints, List.append_assoc]

/-- What all checks report: what the nodes give, between what the other passes report. -/
theorem examine_log {P : Diagnostic → Prop} (hP : ∀ pass : Pass, pass ≠ .checkParameters →
      pass.Reports P) (e : Setting)
    {s : Session} {g : Forest} (hspans : s.tree.Spans g) : ∃ first last, (s.examine e).log.toList =
      s.log.toList ++ first ++ (g.ids.flatMap fun id => (s.node id).complaints e) ++ last ∧
        (∀ d ∈ first, P d) ∧ ∀ d ∈ last, P d := by
  have hnames : Analyses P s (s.identifyNames e).identifyConstants :=
    (Analyses.identifyNames (hP _ (by simp)) e s).trans (.identifyConstants _)
  set u := (s.identifyNames e).identifyConstants with hu
  have hrest : Grows P (u.checkParameters e) (s.examine e) :=
    ((Analyses.checkBlocks (hP _ (by simp)) _).trans
      (.checkSubroutines (hP _ (by simp)) _)).toGrows.trans
      (assignIndices_grows (hP _ (by simp)) _)
  have hcomplaints : ∀ id, (u.node id).complaints e = (s.node id).complaints e :=
    fun id => ((hnames.alike.node id).complaints_eq e).symm
  obtain ⟨first, hfirst, hfirstP⟩ := hnames.log
  obtain ⟨last, hlast, hlastP⟩ := hrest.log
  refine ⟨first, last, ?_, hfirstP, hlastP⟩
  rw [hlast, checkParameters_log, hfirst, (hspans.alike hnames.alike).preorder_eq]
  simp only [hcomplaints]

/-- Nothing is reported about the tree if nothing is reported at all. -/
theorem checkReports_of_log {e : Setting} {s : Session} (hlog : (s.examine e).log = #[]) :
    s.tree.checkReports e = [] := by
  have hreports := log_examine e s
  rw [hlog] at hreports
  exact (List.append_eq_nil_iff.mp hreports.symm).2

theorem complaints_of_log {e : Setting} {s : Session} {g : Forest} (hspans : s.tree.Spans g)
    (hlog : (s.examine e).log = #[]) {id : NodeId} (hid : id ∈ g.ids) :
    (s.node id).complaints e = [] := by
  have hreports := checkReports_of_log hlog
  simp only [Tree.checkReports, List.append_eq_nil_iff, hspans.preorder_eq] at hreports
  exact List.flatMap_eq_nil_iff.mp hreports.1.1.1 id hid

namespace Expanding

variable {e : Setting} {lines : List String} {f g : Forest} {s : Session}

theorem nameless (h : Expanding e (buildTree e lines) f s g []) : s.Nameless :=
  ⟨h.symbols, h.labels⟩

theorem diagnostic_of_commented (h : Expanding e (buildTree e lines) f s g []) {id : NodeId}
    (hcommented : (s.node id).statement.commented = true) : (s.node id).diagnostic = none := by
  by_cases horigin : (s.node id).origin = .source
  · obtain ⟨number, line, hstatement, hdiagnostic⟩ := (h.prepared id).source horigin
    rw [hstatement] at hcommented
    rw [hdiagnostic, Statement.read_diagnostic_of_commented hcommented]
  · exact (h.prepared id).diagnostic horigin

/-- No shorthand waits for its expansion if nothing was reported. -/
theorem settled_of_log (h : Expanding e (buildTree e lines) f s g []) (hlog : s.log = #[])
    (hdiagnostic : ∀ id ∈ g.ids, (s.node id).diagnostic = none) (id : NodeId) :
    (s.node id).Settled := by
  by_cases hid : id < s.tree.size
  · rcases List.mem_cons.mp ((h.spans.covers id).mp hid) with rfl | hmem
    · intro hpart
      have hroot : (s.node Tree.root).part = .idle := h.root
      rw [hroot] at hpart
      cases hpart
    · refine (h.prepared id).settled (hdiagnostic id hmem) ?_
      rw [Bool.eq_false_iff]
      intro hpending
      cases h.settled hlog id hpending
  · intro hpart
    have hnode : s.node id = default := Tree.node_of_size_le (Nat.le_of_not_lt hid)
    rw [hnode] at hpart
    cases hpart

end Expanding

/-- What is known of an expanded script that no check objects to. -/
structure Examined (s : Session) (g : Forest) (s' : Session) : Prop where
  alike : s.tree.Alike s'.tree
  errors : ∀ id, (s'.node id).hasError = false
  pending : ∀ id, isPendingShorthand (s.node id) = false
  diagnostic : ∀ id ∈ g.ids, (s.node id).diagnostic = none
  block : Block s.tree.part false false .script g
  numbered : s'.Numbered
  resolves : Resolves s.tree s'
  returnValue : ∀ id, (s'.node id).returnValue = none
  jump : ∀ id, (s'.node id).jump = none

variable {e : Setting} {g : Forest} {s : Session}

/-- The lines of a script that no check objects to were read without problems. -/
theorem Expanding.diagnostic_eq_none {lines : List String} {f : Forest}
    (h : Expanding e (buildTree e lines) f s g []) (hlog : (s.examine e).log = #[]) {id : NodeId}
    (hid : id ∈ g.ids) : (s.node id).diagnostic = none := by
  cases hexempt : (s.node id).isExempt with
  | false => exact (Node.of_complaints_eq_nil (complaints_of_log h.spans hlog hid) hexempt).1
  | true =>
    rcases (Bool.or_eq_true _ _).mp hexempt with hcommented | horigin
    · exact h.diagnostic_of_commented hcommented
    · exact (h.prepared id).diagnostic (by rw [eq_of_beq horigin]; simp)

/-- If the lines were read without problems, the problems of the block structure in the log are
those that the check of the block structure reports. -/
theorem logic_diagnostics_iff (hlog : s.log = #[])
    (hdiagnostic : ∀ id, (s.node id).diagnostic = none) :
    (∀ d ∈ (s.examine e).log, d.isLogic = false) ↔
    s.tree.preorder.filterMap s.tree.blockDiagnostic? = [] := by
  have hP : ∀ pass : Pass, pass ≠ .checkBlocks → pass.Reports fun d => d.isLogic = false := by
    intro pass hpass p line text hp
    rw [Diagnostic.isLogic_of, Problem.isLogic_eq, hp, beq_eq_false_iff_ne]
    exact fun hc => hpass (Option.some.inj hc)
  have hlogic : ∀ d ∈ s.tree.preorder.filterMap s.tree.blockDiagnostic?, d.isLogic = true := by
    intro d hd
    obtain ⟨id, -, hid⟩ := List.mem_filterMap.mp hd
    unfold Tree.blockDiagnostic? at hid
    split at hid
    · cases hid
    · obtain ⟨p, hp, rfl⟩ := Option.map_eq_some_iff.mp hid
      rw [Diagnostic.isLogic_of, Problem.isLogic_eq, Tree.pass?_blockProblem? hp]
      rfl
  -- The other parts of the log come from other passes.
  obtain ⟨l, hnames, hl⟩ := (Analyses.identifyNames (hP _ (by simp)) e s).log
  simp only [← Array.mem_toList_iff, log_examine, hnames, hlog, Tree.checkReports,
    Tree.subroutineReports, Tree.shortage, List.mem_append, List.mem_map, List.mem_flatMap]
  refine ⟨fun h => List.eq_nil_iff_forall_not_mem.mpr fun d hd => ?_, fun h d hd => ?_⟩
  · cases (hlogic d hd).symm.trans (h d (.inr (.inl (.inl (.inr hd)))))
  · rcases hd with (hd | hd) | (((⟨id, -, hd⟩ | hd) | (⟨_, -, rfl⟩ | ⟨_, -, rfl⟩)) | ⟨_, -, rfl⟩)
    · cases hd
    · exact hl d hd
    · unfold Node.complaints at hd
      split at hd
      · cases hd
      · rw [show (s.tree.node id).diagnostic = none from hdiagnostic id, Option.elim_none,
          List.mem_map] at hd
        obtain ⟨p, hp, rfl⟩ := hd
        obtain ⟨q, -, hq⟩ := List.mem_flatMap.mp hp
        exact hP .checkParameters (by simp) p _ _
          (Problem.pass?_of_isFinding (isFinding_checkParameters _ _ [q] p hq))
    · rw [h] at hd
      cases hd
    · exact hP .checkSubroutines (by simp) _ _ _ rfl
    · exact hP .checkSubroutines (by simp) _ _ _ rfl
    · exact hP .assignIndices (by simp) _ _ _ rfl

/-- A script that no check objects to is well built, and its names and numbers are known. -/
theorem examined_of_log_empty {lines : List String} {f : Forest}
    (hf : (buildTree e lines).Spans f) (h : Expanding e (buildTree e lines) f s g [])
    (hlog : (s.examine e).log = #[]) : Examined s g (s.examine e) := by
  have hgrows := examine_grows e s
  have hlog₀ : s.log = #[] := hgrows.log_eq_empty hlog
  have hdiagnostic : ∀ id ∈ g.ids, (s.node id).diagnostic = none :=
    fun id hid => h.diagnostic_eq_none hlog hid
  -- The names are found.
  obtain ⟨hsymbols, hlabels⟩ := examine_names e s
  have hresolves :=
    (identifyConstants_resolves h.nameless ((identifyNames_grows e s).log_eq_empty hlog)).congr
    hsymbols (hlabels.trans (labels_identifyConstants _).symm)
  -- No check objects to the blocks, so that the lines of the script are derivable.
  have hreports := checkReports_of_log hlog
  simp only [Tree.checkReports, List.append_eq_nil_iff] at hreports
  have hsound := (Tree.blockDiagnostics_eq_nil h.spans (fun id => (h.prepared id).regular)
    (h.settled_of_log hlog₀ hdiagnostic) h.root).mp hreports.1.1.2
  have hblock := h.block (block_of_sound (readAll_regular _ _ _) hf (h.sound hsound)).2
  -- What the numbering adds.
  have hall := checks e s
  obtain ⟨hnumbered, hvalue, hjump⟩ := assignIndices_numbered (h.spans.alike hall.alike)
    (fun id => (hall.index id).trans (h.prepared id).index) hlog
  refine ⟨hgrows.alike, hgrows.clean h.errors hlog, ?_, hdiagnostic, hblock, hnumbered, hresolves,
    fun id => (hvalue id).trans ((hall.returnValue id).trans (h.prepared id).returnValue),
    fun id => (hjump id).trans ((hall.jump id).trans (h.prepared id).jump)⟩
  intro id
  rw [Bool.eq_false_iff]
  intro hpending
  cases h.settled hlog₀ id hpending

end Session

end GameScript
