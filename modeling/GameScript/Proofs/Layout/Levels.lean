import GameScript.Layout.Print
import GameScript.Proofs.Blocks.Nesting

/-!
# Indentation of well-built scripts

What the lines of a script do to the levels of indentation, told by their parts alone
(`Part.levels`).

The lines that the grammar derives leave the levels as they found them: a chain closes the block
that it goes on with, and what follows a `skip if` ends the skip (`Derives.levels`). No shorthand
stands where a `skip if` still waits, so it makes no difference to the indentation whether the line
of a shorthand counts as executed (`print_retired`).
-/

namespace GameScript

/-! ## Levels after a line -/

def Part.levels (p : Part) (levels : List Level) : List Level :=
  let shown := if Indentation.closes p.role then Indentation.closeLevel levels else levels
  let kept := if p.isLive then Indentation.dropSkip shown else shown
  if p.opensBlock then .block :: kept else if p = .skip then .skip :: kept else kept

def levelsAfter (levels : List Level) (ps : List Part) : List Level :=
  ps.foldl (fun levels p => p.levels levels) levels

def Settled (levels : List Level) : Prop := levels.head? ≠ some .skip

theorem settled_block (levels : List Level) : Settled (.block :: levels) := by simp [Settled]

theorem Settled.dropSkip_eq {levels : List Level} (h : Settled levels) :
    Indentation.dropSkip levels = levels := by
  cases levels with
  | nil => rfl
  | cons l levels =>
    cases l with
    | block => rfl
    | skip => exact absurd rfl h

def Clear : List Level → List Part → Prop
  | _, [] => True
  | levels, p :: ps => (p = .shorthand ∨ p = .loop → Settled levels) ∧ Clear (p.levels levels) ps

theorem levelsAfter_append (levels : List Level) (ps qs : List Part) :
    levelsAfter levels (ps ++ qs) = levelsAfter (levelsAfter levels ps) qs := List.foldl_append

theorem clear_append {levels : List Level} {ps qs : List Part} :
    Clear levels (ps ++ qs) ↔ Clear levels ps ∧ Clear (levelsAfter levels ps) qs := by
  induction ps generalizing levels with
  | nil => simp [Clear, levelsAfter]
  | cons p ps ih =>
    simp only [List.cons_append, Clear, ih, and_assoc]
    rfl

/-! ## Lines of the grammar -/

/-- The lines lead from one state of the levels to another one, clear of waiting `skip if`s. -/
structure Passes (levels : List Level) (ps : List Part) (levels' : List Level) : Prop where
  after : levelsAfter levels ps = levels'
  clear : Clear levels ps

theorem Passes.nil (levels : List Level) : Passes levels [] levels := ⟨rfl, trivial⟩

theorem Passes.append {levels levels' levels'' : List Level} {ps qs : List Part}
    (hps : Passes levels ps levels') (hqs : Passes levels' qs levels'') :
    Passes levels (ps ++ qs) levels'' := by
  refine ⟨?_, clear_append.mpr ⟨hps.clear, ?_⟩⟩
  · rw [levelsAfter_append, hps.after, hqs.after]
  · rw [hps.after]
    exact hqs.clear

theorem Passes.cons {levels levels' : List Level} {p : Part} {ps : List Part}
    (hp : p = .shorthand ∨ p = .loop → Settled levels) (hps : Passes (p.levels levels) ps levels') :
    Passes levels (p :: ps) levels' := ⟨hps.after, hp, hps.clear⟩

theorem Passes.line {levels levels' : List Level} {p : Part} {ps : List Part}
    (hp : p ≠ .shorthand ∧ p ≠ .loop) (hps : Passes (p.levels levels) ps levels') :
    Passes levels (p :: ps) levels' :=
  .cons (fun hc => absurd hc (not_or.mpr hp)) hps

/-- A line that stands alone leaves the levels as they are, if no `skip if` waits. -/
theorem Part.levels_of_settled {p : Part} {levels : List Level} (h : Settled levels)
    (hp : p = .idle ∨ p = .plain ∨ p = .shorthand ∨ p.isExit = true) :
    p.levels levels = levels := by
  have hdrop := h.dropSkip_eq
  rcases hp with rfl | rfl | rfl | hp
  · rfl
  · exact hdrop
  · exact hdrop
  · rcases Part.eq_of_isExit hp with rfl | rfl <;> exact hdrop

/-- A line that opens a block goes one level down, if no `skip if` waits. -/
theorem Part.levels_opener {p : Part} {levels : List Level} (h : Settled levels)
    (hp : p = .branch ∨ p = .loop) :
    p.levels levels = .block :: levels := by
  rcases hp with rfl | rfl <;> exact congrArg (Level.block :: ·) h.dropSkip_eq

/-- An alternative closes the block before it and opens another one. -/
theorem Part.levels_alternative {p : Part} {levels : List Level} (h : Settled levels)
    (hp : p = .elseBranch ∨ p = .otherwise) : p.levels (.block :: levels) = .block :: levels := by
  rcases hp with rfl | rfl
  · exact congrArg (Level.block :: ·) h.dropSkip_eq
  · rfl

def Nonterminal.start : Nonterminal → List Level → List Level
  | .script, levels => levels
  | .chain, levels => .block :: levels
  | .skipped, levels => .skip :: levels

/-- The lines of a symbol leave the levels as they were before what the symbol goes on with. -/
theorem Derives.levels {inLoop : Bool} {symbol : Nonterminal} {ps : List Part}
    (h : Derives inLoop symbol ps) {levels : List Level} (hlevels : Settled levels) :
    Passes (symbol.start levels) ps levels := by
  -- The body of a block starts one level down, where no `skip if` waits.
  induction h generalizing levels with
  | done => exact .nil levels
  | single hp _ ih =>
    refine .cons (fun _ => hlevels) ?_
    rw [Nonterminal.start,
      Part.levels_of_settled hlevels (by rcases hp with rfl | rfl | rfl <;> simp)]
    exact ih hlevels
  | exit hp _ ih =>
    refine .cons (fun _ => hlevels) ?_
    rw [Nonterminal.start, Part.levels_of_settled hlevels (by simp [hp])]
    exact ih hlevels
  | loop _ _ ihbody ih =>
    refine .cons (fun _ => hlevels) ?_
    rw [Nonterminal.start, Part.levels_opener hlevels (.inr rfl)]
    exact (ihbody (settled_block levels)).append (.line (by decide) (ih hlevels))
  | branch _ _ _ ihbody ihchain ih =>
    rw [List.append_assoc]
    refine .cons (fun _ => hlevels) ?_
    rw [Nonterminal.start, Part.levels_opener hlevels (.inl rfl)]
    exact (ihbody (settled_block levels)).append ((ihchain hlevels).append (ih hlevels))
  | skip _ _ ihskipped ih =>
    refine .line (by decide) ?_
    have hskip : Part.skip.levels levels = .skip :: levels :=
      congrArg (Level.skip :: ·) hlevels.dropSkip_eq
    rw [Nonterminal.start, hskip]
    exact (ihskipped hlevels).append (ih hlevels)
  | close => exact .line (by decide) (.nil levels)
  | elseBranch _ _ ihbody ihchain =>
    refine .line (by decide) ?_
    rw [Nonterminal.start, Part.levels_alternative hlevels (.inl rfl)]
    exact (ihbody (settled_block levels)).append (ihchain hlevels)
  | otherwise _ ihbody =>
    refine .line (by decide) ?_
    rw [Nonterminal.start, Part.levels_alternative hlevels (.inr rfl)]
    exact (ihbody (settled_block levels)).append (.line (by decide) (.nil levels))
  | skippedIdle _ ih => exact .line (by decide) (ih hlevels)
  | skippedPlain => exact .line (by decide) (.nil levels)
  | skippedExit hp =>
    rcases Part.eq_of_isExit hp with rfl | rfl <;> exact .line (by decide) (.nil levels)
  | skippedSkip _ ih => exact .line (by decide) (ih hlevels)

/-! ## Printing lines -/

namespace Layout

theorem endsSkip_eq {s : Statement} (h : s.Regular) :
    Indentation.endsSkip s.part.role s.kind s.commented = s.part.isLive := by
  have hstandard : (s.kind == .standard) = s.part.isLive := h.standard
  rw [Indentation.endsSkip, hstandard]
  cases hc : s.commented with
  | true => rw [h.commented hc]; rfl
  | false => cases s.part <;> rfl

/-- The levels after a printed line are those that its part says. -/
theorem levels_pass {s : Statement} (h : s.Regular) (called : Std.TreeSet String)
    (i : Indentation) :
    (i.pass (ofStatement called s).shape).2.levels = s.part.levels i.levels := by
  have hskip : (s.part.role = .skip) = (s.part = .skip) := by cases s.part <;> simp [Part.role]
  simp only [Indentation.pass, Indentation.before, Indentation.after, ofStatement, Part.levels,
    ← Statement.role_part, endsSkip_eq h, Part.opensBlock_role, hskip]

def retired (p : Printed) : Printed := { p with shape := { p.shape with kind := .auxiliary } }

/-- If no `skip if` waits, it makes no difference whether the line of a shorthand is executed. -/
theorem pass_retired {s : Statement} (hs : s.part = .shorthand ∨ s.part = .loop)
    (called : Std.TreeSet String) {i : Indentation} (hi : Settled i.levels) :
    i.pass (retired (ofStatement called s)).shape = i.pass (ofStatement called s).shape := by
  have hcloses : Indentation.closes s.role = false := by
    rw [← Statement.role_part]
    rcases hs with hs | hs <;> rw [hs] <;> rfl
  have hdrop := hi.dropSkip_eq
  simp only [Indentation.pass, Indentation.before, Indentation.after, retired, ofStatement, hcloses,
    hdrop, ite_self, Bool.false_eq_true, if_false]

/-- Lines are printed alike if they differ only in whether the lines of shorthands are executed. -/
theorem print_retired {called : Std.TreeSet String} {ps : List Printed} {ss : List Statement}
    (hregular : ∀ s ∈ ss, s.Regular)
    (h : List.Forall₂ (fun p s => p = ofStatement called s ∨
      ((s.part = .shorthand ∨ s.part = .loop) ∧ p = retired (ofStatement called s))) ps ss)
    {i : Indentation} (hclear : Clear i.levels (ss.map Statement.part)) (out : Array String) :
    ps.foldl printLine (i, out) = (ss.map (ofStatement called)).foldl printLine (i, out) := by
  induction h generalizing i out with
  | nil => rfl
  | @cons p s ps ss hp _ ih =>
    obtain ⟨hsettled, hrest⟩ := hclear
    have hline : printLine (i, out) p = printLine (i, out) (ofStatement called s) := by
      rcases hp with rfl | ⟨hs, rfl⟩
      · rfl
      · simp only [printLine, pass_retired hs called (hsettled hs)]
        rfl
    rw [List.map_cons, List.foldl_cons, List.foldl_cons, hline]
    apply ih fun s' hs' => hregular s' (by simp [hs'])
    show Clear (i.pass (ofStatement called s).shape).2.levels (ss.map Statement.part)
    rw [levels_pass (hregular s (by simp)) called i]
    exact hrest

end Layout

end GameScript
