import GameScript.Analysis.Constants
import GameScript.Proofs.Statement.Typing
import GameScript.Shorthand
import GameScript.Statement.Reader

/-!
# Places of tokens

What a line means does not depend on where its tokens stand: how it is recognised, what its
parameters say and what is reported about them is told by the kinds and texts of the tokens.
-/

namespace GameScript

/-- The parameter without the places of its tokens. -/
def Parameter.bare (p : Parameter) : Parameter := ⟨p.kind, p.tokens.map Token.bare⟩

def Statement.bare (s : Statement) : Statement :=
  { s with line := 0, parameters := s.parameters.map Parameter.bare, extent := {} }

theorem Token.renames_bare (t : Token) (words : List String) : t.Renames Token.bare words :=
  ⟨rfl, fun _ => rfl, fun _ _ => Iff.rfl⟩

theorem Grammar.recognise?_bare (g : Grammar) (v : Version) (ts : List Token) :
    g.recognise? v (ts.map Token.bare) = (g.recognise? v ts).map (Recognition.map Token.bare) :=
  recognise?_map v fun e _ => Entry.fit?_map fun t _ => t.renames_bare e.words

theorem Statement.unterminated?_bare (ts : List Token) :
    unterminated? (ts.map Token.bare) = (unterminated? ts).map Token.bare := by
  unfold unterminated?
  rw [List.find?_map]
  rfl

/-! ## Tokens -/

namespace Token

theorem join_map_bare (ts : List Token) : join (ts.map bare) = join ts := by
  induction ts with
  | nil => rfl
  | cons t ts ih =>
    cases ts with
    | nil => rfl
    | cons u ts => exact congrArg (t.text ++ spacing t u ++ ·) ih

theorem literalNumber?_bare (ts : List Token) :
    literalNumber? (ts.map bare) = literalNumber? ts := by
  rcases ts with _ | ⟨m, _ | ⟨n, _ | _⟩⟩ <;> rfl

theorem numericLiteral?_bare (ts : List Token) :
    numericLiteral? (ts.map bare) = (numericLiteral? ts).map (Prod.map id bare) := by
  rcases ts with _ | ⟨m, _ | ⟨n, _ | _⟩⟩
  · rfl
  · exact (apply_ite (Option.map (Prod.map id bare)) (m.kind = .number) (some (false, m)) none).symm
  · exact (apply_ite (Option.map (Prod.map id bare)) (m.is .unaryOp "-" && n.kind = .number)
      (some (true, n)) none).symm
  · rfl

theorem splitCommas_bare (ts : List Token) :
    splitCommas (ts.map bare) = (splitCommas ts).map (List.map bare) := by
  induction ts with
  | nil => rfl
  | cons t ts ih =>
    rw [List.map_cons, splitCommas, splitCommas, show t.bare.isComma = t.isComma from rfl, ih]
    split
    · rfl
    · cases splitCommas ts <;> rfl

theorem unknownObjects_bare (objects : Option ObjectLibrary) (ts : List Token) :
    unknownObjects objects (ts.map bare) = unknownObjects objects ts := by
  cases objects with
  | none => rfl
  | some library =>
    simp only [unknownObjects, List.filter_map, List.map_map]
    rfl

theorem oversized_bare (minus : Option Token) (ts : List Token) :
    oversized (minus.map bare) (ts.map bare) = oversized minus ts := by
  induction ts generalizing minus with
  | nil => rfl
  | cons t ts ih =>
    have hrest := ih (if t.is .unaryOp "-" then some t else none)
    have hjoin : join (minus.toList ++ [t]) = join ((minus.map bare).toList ++ [t.bare]) := by
      rw [← join_map_bare]
      cases minus <;> rfl
    rw [apply_ite (Option.map bare)] at hrest
    rw [List.map_cons, oversized, oversized, ← hrest, hjoin, Option.isSome_map]
    rfl

theorem literalsFit_bare {ts : List Token} : LiteralsFit (ts.map bare) ↔ LiteralsFit ts := by
  rw [← oversized_eq_nil, ← oversized_eq_nil, show oversized none (ts.map bare) = _
    from oversized_bare none ts]

end Token

/-! ## Parameters -/

section

variable {σ : Token → Token} {words : List String} {ts : List Token}

theorem Token.isSome_numericLiteral?_map (h : ∀ t ∈ ts, t.Renames σ words) :
    (numericLiteral? (ts.map σ)).isSome = (numericLiteral? ts).isSome := by
  rcases ts with _ | ⟨t, _ | ⟨u, _ | ⟨v, ts⟩⟩⟩
  · rfl
  · simp only [numericLiteral?, List.map_cons, List.map_nil, (h t (by simp)).kind]
    split <;> rfl
  · have hminus := (h t (by simp)).is_eq (show TokenKind.isOperand .unaryOp = false from rfl) "-"
    simp only [numericLiteral?, List.map_cons, List.map_nil, hminus, (h u (by simp)).kind]
    split <;> rfl
  · rfl

/-- Whether tokens are of a type is told by their kinds. -/
theorem ParamKind.mismatch?_map (h : ∀ t ∈ ts, t.Renames σ words) (kind : ParamKind) :
    kind.mismatch? (ts.map σ) = kind.mismatch? ts := by
  have hnumeric := Token.isSome_numericLiteral?_map h
  unfold mismatch?
  rw [hnumeric]
  rcases ts with _ | ⟨t, _ | ⟨u, ts⟩⟩
  · rfl
  · simp only [List.map_cons, List.map_nil, (h t (by simp)).kind]
  · rfl

end

theorem ParamKind.valueProblems_bare (objects : Option ObjectLibrary) (ts : List Token) :
    valueProblems objects (ts.map Token.bare) = valueProblems objects ts := by
  simp only [valueProblems, Token.numericLiteral?_bare, Token.unknownObjects_bare,
    Token.join_map_bare]
  cases Token.numericLiteral? ts <;> rfl

theorem ParamKind.problems_bare (kind : ParamKind) (objects : Option ObjectLibrary)
    (ts : List Token) :
    kind.problems objects (ts.map Token.bare) = kind.problems objects ts := by
  simp only [problems, Token.splitCommas_bare, List.flatMap_map, valueProblems_bare,
    Token.join_map_bare, mismatch?_map fun t _ => t.renames_bare []]

namespace Parameter

theorem text_bare (p : Parameter) : p.bare.text = p.text := Token.join_map_bare p.tokens

theorem label?_bare (p : Parameter) : p.bare.label? = p.label? := by
  obtain ⟨kind, _ | ⟨t, _ | _⟩⟩ := p <;> rfl

theorem soleVariable?_bare (p : Parameter) :
    p.bare.soleVariable? = p.soleVariable?.map Token.bare := by
  obtain ⟨kind, _ | ⟨t, _ | _⟩⟩ := p
  · rfl
  · exact (apply_ite (Option.map Token.bare) (t.kind = .var) (some t) none).symm
  · rfl

theorem literalNumber?_bare (p : Parameter) : p.bare.literalNumber? = p.literalNumber? :=
  Token.literalNumber?_bare p.tokens

theorem isLiteral_bare (p : Parameter) : p.bare.isLiteral = p.isLiteral := by
  obtain ⟨kind, _ | ⟨t, _ | ⟨u, _ | _⟩⟩⟩ := p <;> rfl

theorem items_bare (p : Parameter) : p.bare.items = p.items.map (List.map Token.bare) := by
  rw [items, bare, Token.splitCommas_bare, List.filter_map]
  simp only [Function.comp_def, List.isEmpty_map]
  rfl

end Parameter

/-! ## Statements -/

namespace Statement

/-- What is read off a statement without regard to its place. -/
theorem eq_of_bare {α : Type} {s s' : Statement} (h : s.bare = s'.bare) (read : Statement → α)
    (hread : ∀ s : Statement, read s.bare = read s) : read s = read s' := by
  rw [← hread s, h, hread s']

theorem vars_bare (s : Statement) : s.bare.vars = s.vars.map Token.bare := by
  have htokens : s.bare.parameters.flatMap (·.tokens) =
      (s.parameters.flatMap (·.tokens)).map Token.bare := by
    rw [bare, List.flatMap_map, List.map_flatMap]
    rfl
  rw [vars, htokens, List.filter_map]
  rfl

theorem label?_bare (s : Statement) : s.bare.label? = s.label? := by
  simp only [label?, bare, List.head?_map, Option.bind_map]
  exact congrArg _ (funext Parameter.label?_bare)

theorem returnSlot?_bare (s : Statement) : s.bare.returnSlot? = s.returnSlot?.map Parameter.bare :=
  List.find?_map ..

theorem assigned?_bare (s : Statement) : s.bare.assigned? = s.assigned?.map Token.bare := by
  simp only [assigned?, returnSlot?_bare, show s.bare.conditional = s.conditional from rfl]
  split
  · cases s.returnSlot? <;> simp [Parameter.bare]
  · rfl

theorem written_bare (s : Statement) : s.bare.written = s.written := by
  have hothers : (s.bare.parameters.filter fun p => p.kind == .var).filterMap (·.soleVariable?) =
      ((s.parameters.filter fun p => p.kind == .var).filterMap (·.soleVariable?)).map
        Token.bare := by
    rw [bare, List.filter_map, List.filterMap_map, List.map_filterMap]
    exact congrArg (fun f => List.filterMap f _) (funext Parameter.soleVariable?_bare)
  rw [written, hothers, assigned?_bare, Option.toList_map, ← List.map_append, List.map_map]
  rfl

theorem plan_bare (s : Statement) (names : NameSupply) : s.bare.plan names = s.plan names := by
  have hcounted : ∀ (counter initial limit : Parameter) (step : Expansion.Step),
      planCounted names counter.bare initial.bare limit.bare step =
        planCounted names counter initial limit step := by
    intro counter initial limit step
    simp only [planCounted, Expansion.counted, Expansion.startValue, Parameter.text_bare,
      Parameter.literalNumber?_bare]
  have hdim : ∀ (array : String) (items : List (List Token)),
      Expansion.dim array (items.map (List.map Token.bare)) = Expansion.dim array items := by
    intro array items
    simp only [Expansion.dim, List.length_map, List.zipIdx_map, List.map_map, Function.comp_def,
      Prod.map, Token.join_map_bare, id]
  have hstep : ∀ p : Parameter, Expansion.Step.of p.bare = .of p := fun p => by
    rw [Expansion.Step.of, p.text_bare, p.literalNumber?_bare, Expansion.Step.of]
  unfold plan bare
  dsimp only
  rcases s.parameters with _ | ⟨a, _ | ⟨b, _ | ⟨c, _ | ⟨d, ps⟩⟩⟩⟩ <;>
    simp only [List.map_cons, List.map_nil, hcounted, hstep, Parameter.text_bare, List.head?_cons,
      Option.map_some, Option.getD_some, Parameter.items_bare, hdim]

end Statement

end GameScript
