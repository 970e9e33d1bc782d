import GameScript.Proofs.Linkage.Resolution

/-!
# What is reported before the checks

A line that cannot be read is reported with one of three problems
(`Statement.isReading_of_diagnostic`), and a shorthand that cannot be expanded with a problem that
no pass reports (`Session.expand_log`). So each problem in a log tells where it comes from.
-/

namespace GameScript

def Problem.isReading : Problem → Bool
  | .unrecognised | .objectUnterminated _ | .versionUnsupported _ => true
  | _ => false

theorem Problem.pass?_of_isReading {p : Problem} (h : p.isReading = true) :
    p.pass? = some .checkParameters := by
  cases p <;> first | rfl | cases h

/-- The diagnostic of a line is a problem of its reading. -/
theorem Statement.isReading_of_diagnostic {g : Grammar} {v : Version} {number : Nat} {line : String}
    {d : Diagnostic} (h : (read g v number line).diagnostic = some d) :
    ∃ p text, p.isReading = true ∧ d = .of p number text := by
  rcases read_cases g v number line with hread | hread | hread | ⟨commented, r, -, hread⟩ <;>
    rw [hread] at h
  · cases h
  · cases h
  · cases h
    exact ⟨_, _, rfl, rfl⟩
  · obtain ⟨p, hp, rfl⟩ := Option.map_eq_some_iff.mp h
    refine ⟨p, _, ?_, rfl⟩
    unfold problem? at hp
    split at hp
    · cases hp
    · split at hp
      · cases hp
        rfl
      · rw [Option.ite_none_left_eq_some] at hp
        cases hp.2
        rfl

/-! ## Expansions that fail -/

/-- A shorthand that has no expansion is no problem of a pass. -/
theorem Statement.pass?_plan {s : Statement} {names : NameSupply} {p : Problem}
    (h : s.plan names = .error p) :
    p.pass? = none := by
  have hcounted : ∀ {counter initial limit : Parameter} {step : Expansion.Step},
      planCounted names counter initial limit step = .error p → p.pass? = none := by
    intro counter initial limit step h
    unfold planCounted at h
    split at h
    · cases h
      rfl
    · cases h
  unfold plan at h
  dsimp only at h
  repeat' split at h
  all_goals first | exact hcounted h | (cases h; done) | (cases h; rfl)

/-- What fails here does not fail with a problem of a pass. -/
def OutsidePasses {α : Type} (x : Except Problem α) : Prop := ∀ p, x = .error p → p.pass? = none

namespace OutsidePasses

variable {α β : Type}

theorem ok (a : α) : OutsidePasses (.ok a) := fun _ h => by cases h

theorem bind {x : Except Problem α} {f : α → Except Problem β} (hx : OutsidePasses x)
    (hf : ∀ a, OutsidePasses (f a)) :
    OutsidePasses (x >>= f) := by
  intro p h
  rcases bind_eq_error h with hfirst | ⟨a, -, hrest⟩
  · exact hx p hfirst
  · exact hf a p hrest

theorem mapM {f : α → Except Problem β} (hf : ∀ a, OutsidePasses (f a)) (l : List α) :
    OutsidePasses (l.mapM f) := by
  induction l with
  | nil => exact ok []
  | cons a l ih =>
    rw [List.mapM_cons]
    exact (hf a).bind fun _ => ih.bind fun _ => ok _

end OutsidePasses

/-- A generated line that cannot be read is no problem of a pass. -/
theorem Generated.outsidePasses_read (e : Setting) (number : Nat) (x : Expansion) :
    OutsidePasses (read e number x) := by
  have hline : ∀ line, OutsidePasses (readLine e number line) := by
    intro line p h
    unfold readLine at h
    dsimp only at h
    split at h
    · cases h
    · cases h
      rfl
  have hround : ∀ (before : List Statement) (head : Option Statement),
      OutsidePasses (x.round.mapM (readLine e number) >>= fun round =>
        .ok (⟨before, head, round⟩ : Generated)) :=
    fun _ _ => (OutsidePasses.mapM hline _).bind fun _ => .ok _
  refine (OutsidePasses.mapM hline _).bind fun before => ?_
  dsimp only
  split
  · next line _ =>
    have hhead : OutsidePasses (some <$> readLine e number line) := (hline line).bind fun _ => .ok _
    exact hhead.bind (hround before)
  · exact hround before none

namespace Session

/-- The problems of shorthands belong to no pass. -/
theorem Fails.pass?_eq_none {e : Setting} {s : Session} {header : NodeId} {names : NameSupply}
    {p : Problem} (h : s.Fails e header names p) : p.pass? = none := by
  rcases h with ⟨hplan, -⟩ | ⟨x, -, hread⟩
  · exact Statement.pass?_plan hplan
  · exact Generated.outsidePasses_read e _ x p hread

theorem expandOne_log {e : Setting} {s s' : Session} {header : NodeId}
    (h : expandOne e s header = .ok s') :
    s'.log = s.log ∨ ∃ p, p.pass? = none ∧
      s'.log = s.log.push (.of p (s.node header).statement.line
        (s.node header).statement.display) := by
  obtain ⟨_, hunfolds⟩ := unfolds_of_expandOne .nil h
  cases hunfolds with
  | reported p hfails => exact .inr ⟨p, hfails.pass?_eq_none, rfl⟩
  | replaced _ _ _ => exact .inl rfl

/-- The expansion of a script reports no problem of a pass. -/
theorem expand_log {e : Setting} {t : Tree} {s : Session} (h : (Session.start t).expand e = .ok s) :
    ∀ d ∈ s.log, ∃ p line text, Problem.pass? p = none ∧ d = .of p line text := by
  unfold expand at h
  refine foldlM_induction (I := fun _ u => ∀ d ∈ u.log, ∃ p line text, Problem.pass? p = none ∧
    d = .of p line text) h
    (by simp [seedNames, Session.start]) ?_
  intro _ id _ u u' _ hu hone d hd
  rcases expandOne_log hone with hlog | ⟨p, hp, hlog⟩
  · exact hu d (hlog ▸ hd)
  · rw [hlog, Array.mem_push] at hd
    rcases hd with hd | rfl
    · exact hu d hd
    · exact ⟨p, _, _, hp, rfl⟩

end Session

end GameScript
